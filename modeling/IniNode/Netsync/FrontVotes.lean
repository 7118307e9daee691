import IniNode.Lib.Run
import IniNode.Netsync.Stable
/-!
# Who answers a range

`Owned` says that every range is confirmed and held by its owner alone, who gave all the answers to it. A range is born
confirmed, so the second request for an unconfirmed front is never made, and every handler keeps `Owned`: no range is
ever answered by two peers.
-/

open IniNode.Lib Function

namespace IniNode.Netsync

variable {χ : Type}

/-- Ranges belong to the peers they were asked from. -/
structure Owned (s : Manager χ) : Prop where
  confirmed : ∀ r < s.nextRange, (s.rangeAt r).confirmed = true
  listed : ∀ id start r, (s.syncAt id).ranges.lookup start = some r → r < s.nextRange
  held : ∀ id p r, (s.syncAt id).peerRange.lookup p = some r → r < s.nextRange ∧ (s.rangeAt r).peer = p
  answers : ∀ a ∈ s.answers, a.1 < s.nextRange ∧ (s.rangeAt a.1).peer = a.2.1

namespace Owned

variable {A : ChainApi χ} {s : Manager χ} {id : SyncId} {peer : Peer} {r : RangeId}

open Manager

/-! ## What the handlers keep -/

theorem setSync {hs : HeaderSyncState} (h : Owned s) (hl : ∀ k r, hs.ranges.lookup k = some r → r < s.nextRange)
    (hh : ∀ p r, hs.peerRange.lookup p = some r → r < s.nextRange ∧ (s.rangeAt r).peer = p) :
    Owned (s.setSync id hs) := by
  refine ⟨h.confirmed, fun id' k r hr => ?_, fun id' p r hr => ?_, h.answers⟩
  · by_cases hid : id' = id
    · subst hid
      rw [syncAt_setSync, update_self] at hr
      exact hl k r hr
    · rw [syncAt_setSync, update_of_ne hid] at hr
      exact h.listed id' k r hr
  · by_cases hid : id' = id
    · subst hid
      rw [syncAt_setSync, update_self] at hr
      exact hh p r hr
    · rw [syncAt_setSync, update_of_ne hid] at hr
      exact h.held id' p r hr

theorem setRange {rng : HeaderRange} (h : Owned s) (hpeer : rng.peer = (s.rangeAt r).peer)
    (hc : (s.rangeAt r).confirmed = true → rng.confirmed = true) : Owned (s.setRange r rng) := by
  have hkeep : ∀ r', ((s.setRange r rng).rangeAt r').peer = (s.rangeAt r').peer := by
    intro r'
    by_cases hr : r' = r
    · subst hr
      rw [rangeAt_setRange, update_self, hpeer]
    · rw [rangeAt_setRange, update_of_ne hr]
  refine ⟨fun r' hlt => ?_, h.listed, fun id p r' hr => ?_, fun a ha => ?_⟩
  · by_cases hr : r' = r
    · subst hr
      rw [rangeAt_setRange, update_self]
      exact hc (h.confirmed r' hlt)
    · rw [rangeAt_setRange, update_of_ne hr]
      exact h.confirmed r' hlt
  · rw [hkeep]
    exact h.held id p r' hr
  · rw [hkeep]
    exact h.answers a ha

theorem launch {rng : HeaderRange} {hs : HeaderSyncState} (h : Owned s) (hpeer : rng.peer = peer)
    (hc : rng.confirmed = true)
    (hl : ∀ k r, hs.ranges.lookup k = some r → r = s.nextRange ∨ (s.syncAt id).ranges.lookup k = some r)
    (hh : ∀ p r, hs.peerRange.lookup p = some r →
      p = peer ∧ r = s.nextRange ∨ (s.syncAt id).peerRange.lookup p = some r) :
    Owned (({ s with nextRange := s.nextRange + 1 }.setRange s.nextRange rng).setSync id hs) := by
  have hold : ∀ r < s.nextRange, update s.rangeAt s.nextRange rng r = s.rangeAt r := fun r hr =>
    update_of_ne (Nat.ne_of_lt hr) _ _
  have hnew : Owned ({ s with nextRange := s.nextRange + 1 }.setRange s.nextRange rng) := by
    refine ⟨fun r hr => ?_, fun id k r hr => Nat.lt_succ_of_lt (h.listed id k r hr), fun id p r hr => ?_, fun a ha => ?_⟩
    · by_cases heq : r = s.nextRange
      · subst heq
        rw [rangeAt_setRange, update_self]
        exact hc
      · have hlt : r < s.nextRange := Nat.lt_of_le_of_ne (Nat.lt_succ_iff.1 hr) heq
        rw [rangeAt_setRange, hold r hlt]
        exact h.confirmed r hlt
    · obtain ⟨hlt, hp⟩ := h.held id p r hr
      exact ⟨Nat.lt_succ_of_lt hlt, by rw [rangeAt_setRange, hold r hlt, hp]⟩
    · obtain ⟨hlt, hp⟩ := h.answers a ha
      exact ⟨Nat.lt_succ_of_lt hlt, by rw [rangeAt_setRange, hold _ hlt, hp]⟩
  refine hnew.setSync (fun k r hr => ?_) fun p r hr => ?_
  · obtain rfl | hr := hl k r hr
    · exact Nat.lt_succ_self _
    · exact hnew.listed id k r hr
  · obtain ⟨rfl, rfl⟩ | hr := hh p r hr
    · refine ⟨Nat.lt_succ_self _, ?_⟩
      rw [rangeAt_setRange, update_self, hpeer]
    · exact hnew.held id p r hr

theorem ranges : RangeStable (Owned (χ := χ)) where
  other h := { h with }
  shrink h hl hh := h.setSync (fun k r hr => h.listed _ k r (hl k r hr)) fun p r hr => h.held _ p r (hh p r hr)
  launch := launch
  -- no range is unconfirmed
  second h hr hc := absurd (h.confirmed _ (h.listed _ _ _ hr)) hc

theorem stable : Stable A Owned where
  toRangeStable := ranges
  breaker _ _ _ h := { h with }
  setRange := setRange
  answer h hr := by
    refine ⟨h.confirmed, h.listed, h.held, ?_⟩
    rintro a (- | ⟨-, ha⟩)
    · exact h.held _ _ _ hr
    · exact h.answers a ha
  header h _ := { h with }
  rollback _ h := { h with }

theorem step {a : Env × Event χ} {s' : Manager χ} (h : Owned s) (hs : s.step A a = some s') : Owned s' := by
  obtain ⟨e, a⟩ := a
  cases a with
  | moved =>
    cases hs
    exact { h with }
  | _ => exact stable.step h (by simp) hs

end Owned

/-! ## Answers -/

/-- The manager before it has started a download. -/
structure Idle (s : Manager χ) : Prop where
  nextRange : s.nextRange = 0
  syncAt : ∀ id, (s.syncAt id).ranges = ∅ ∧ (s.syncAt id).peerRange = ∅
  answers : s.answers = []
  appliedRanges : s.appliedRanges = []

theorem Idle.owned {s : Manager χ} (h : Idle s) : Owned s where
  confirmed := by simp [h.nextRange]
  listed := by simp [h.syncAt]
  held := by simp [h.syncAt]
  answers := by simp [h.answers]

/-- The range was answered by two different peers, with the same first header. -/
def Corroborated (s : Manager χ) (r : RangeId) : Prop :=
  ∃ p q hash, p ≠ q ∧ (r, p, hash) ∈ s.answers ∧ (r, q, hash) ∈ s.answers

/-- No range is ever answered by two peers, so none that is applied was. -/
theorem applied_never_corroborated (A : ChainApi χ) {s s' : Manager χ} {events : List (Env × Manager.Event χ)}
    (hs : Idle s) (hr : run (Manager.step A) s events = some s') : ∀ r ∈ s'.appliedRanges, ¬ Corroborated s' r := by
  have howned : Owned s' :=
    run_invariant (fun _ _ _ h _ hstep => h.step hstep) hs.owned (along_of_forall (fun _ _ => trivial) s events) hr
  rintro r - ⟨p, q, hash, hne, hp, hq⟩
  exact hne ((howned.answers _ hp).2.symm.trans (howned.answers _ hq).2)

/-! ## A front that one peer answers -/

/-- A chain of hashes above a genesis block with hash 0; the nonce of a header is its hash. -/
def listChain : ChainApi (List Hash) where
  blockHash h := h.nonce
  bestHeaderHeight c := c.length
  bestHeight c := c.length
  isCurrent _ := false
  headerHashByHeight c height := (0 :: c)[height.toNat]?
  headerHeightByHash c hash := ((0 :: c).idxOf? hash).map Int.ofNat
  isValidHeader c hash := (0 :: c).contains hash
  processBlockHeader c h _ :=
    if (0 :: c).getLast? = some h.prevBlock then (c ++ [h.nonce], none) else (c, some .previousBlockUnknown)
  invalidateHeaderChain c height := (c.take height.toNat, true)

def listHeader (prevBlock hash : Hash) : BlockHeader := ⟨1, prevBlock, 0, 0, 0, hash⟩

/-- Two peers are connected, on two hosts, and both are three blocks ahead. -/
def twoPeers : Manager (List Hash) where
  chain := []
  peerStates := (∅ : AList fun _ : Peer => Bool).insert 2 true |>.insert 1 true
  lastBlock _ := 3
  addr p := if p = 1 then "a" else "b"
  host p := if p = 1 then "a" else "b"
  rangeAt _ := { start := 0, peer := 0, assignedAt := 0 }
  syncAt _ := { peers := [], target := 0, nextHeight := 0, nextAssign := 0, ranges := ∅, peerRange := ∅, sliceLen := 0 }

theorem twoPeers_idle : Idle twoPeers := ⟨rfl, fun _ => ⟨rfl, rfl⟩, rfl, rfl⟩

def oneAnswer : List (Env × Manager.Event (List Hash)) :=
  [({ now := 0, shuffle := id }, .fetchHeaders), ({ now := 1, shuffle := id }, .headers 1 [listHeader 0 7] 2)]

def requested : Manager (List Hash) := twoPeers.fetchHeaders listChain { now := 0, shuffle := id }

def answered : Manager (List Hash) :=
  requested.handleHeadersMsg listChain { now := 1, shuffle := id } 2 1 [listHeader 0 7]

theorem run_oneAnswer : run (Manager.step listChain) twoPeers oneAnswer = some answered := rfl

theorem applied_oneAnswer : answered.appliedRanges = [0] ∧ ∀ r ∈ answered.appliedRanges, ¬ Corroborated answered r :=
  ⟨by decide +kernel, applied_never_corroborated listChain twoPeers_idle run_oneAnswer⟩

/-- Both peers take part from the request on, and the front is applied on the answer of the first. -/
theorem front_applied_on_one_answer : Idle twoPeers ∧ run (Manager.step listChain) twoPeers oneAnswer = some answered ∧
    requested.headerSync = some 0 ∧ (requested.syncAt 0).peers = [1, 2] ∧
    (requested.syncAt 0).ranges.lookup (requested.syncAt 0).nextHeight = some 0 ∧
    answered.headerSync = some 0 ∧ (answered.syncAt 0).peers = [1, 2] ∧ answered.appliedRanges = [0] ∧
    answered.chain = [7] ∧ ¬ Corroborated answered 0 := by
  refine ⟨twoPeers_idle, run_oneAnswer, by decide +kernel, by decide +kernel, by decide +kernel, by decide +kernel,
    by decide +kernel, by decide +kernel, by decide +kernel, ?_⟩
  have hanswers : answered.answers = [(0, 1, 7)] := by decide +kernel
  rintro ⟨p, q, hash, hne, hp, hq⟩
  simp only [hanswers, List.mem_singleton, Prod.mk.injEq] at hp hq
  exact hne (hp.2.1.trans hq.2.1.symm)

end IniNode.Netsync
