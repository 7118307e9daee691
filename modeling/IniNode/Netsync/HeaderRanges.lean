import IniNode.Netsync.FrontVotes
/-!
# Ranges of the header download

A header download lists its ranges by their start, and the peers by the range each is bound to. `Kept` says that the two
maps agree between the front and the frontier; here is what handing out, dropping and starting do to them. The one call
that can spoil them is asking for a front at the frontier again, which hands out a range without moving the frontier.
-/

open IniNode.Lib List Option Function

namespace IniNode.Netsync

/-! ## The maps of a download -/

/-- Ranges start between the front and the frontier, those that are answered end before the next one, and a peer is bound
to a listed range. -/
structure HeaderSyncState.Kept (rangeAt : RangeId → HeaderRange) (hs : HeaderSyncState) : Prop where
  front : hs.nextHeight ≤ hs.nextAssign
  listed : ∀ k r, hs.ranges.lookup k = some r → (rangeAt r).start = k ∧ hs.nextHeight ≤ k ∧ k < hs.nextAssign
  fits : ∀ k r, hs.ranges.lookup k = some r → (rangeAt r).received = true →
    k + (rangeAt r).headers.length ≤ hs.nextAssign ∧
      ∀ k' r', hs.ranges.lookup k' = some r' → k < k' → k + (rangeAt r).headers.length ≤ k'
  held : ∀ p r, hs.peerRange.lookup p = some r → hs.ranges.lookup (rangeAt r).start = some r

namespace HeaderSyncState.Kept

variable {rangeAt : RangeId → HeaderRange} {hs : HeaderSyncState} {peer : Peer} {start stop : Int} {r : RangeId}

theorem congr {hs' : HeaderSyncState} (h : Kept rangeAt hs) (hn : hs'.nextHeight = hs.nextHeight)
    (ha : hs'.nextAssign = hs.nextAssign) (hr : hs'.ranges = hs.ranges) (hp : hs'.peerRange = hs.peerRange) :
    Kept rangeAt hs' := by
  refine ⟨?_, ?_, ?_, ?_⟩
  · rw [hn, ha]
    exact h.front
  · rw [hn, ha, hr]
    exact h.listed
  · rw [ha, hr]
    exact h.fits
  · rw [hr, hp]
    exact h.held

theorem empty (hle : hs.nextHeight ≤ hs.nextAssign) (hr : hs.ranges = ∅) (hp : hs.peerRange = ∅) :
    Kept rangeAt hs := by
  refine ⟨hle, fun k r hk => ?_, fun k r hk => ?_, fun p r hk => ?_⟩
  · rw [hr] at hk
    cases hk
  · rw [hr] at hk
    cases hk
  · rw [hp] at hk
    cases hk

section

variable (h : Kept rangeAt hs)

include h

theorem lookup_of_eq (heq : hs.nextHeight = hs.nextAssign) (k : Int) : hs.ranges.lookup k = none := by
  cases hk : hs.ranges.lookup k with
  | none => rfl
  | some r =>
    have := h.listed k r hk
    omega

theorem peerRange_of_eq (heq : hs.nextHeight = hs.nextAssign) (p : Peer) :
    hs.peerRange.lookup p = none := by
  cases hp : hs.peerRange.lookup p with
  | none => rfl
  | some r => cases (h.lookup_of_eq heq _).symm.trans (h.held p r hp)

/-- A new range at a height that is free and in no range that is answered. -/
theorem launch {rng : HeaderRange} (hfresh : ∀ k r', hs.ranges.lookup k = some r' → r' ≠ r)
    (hstart : rng.start = start) (hnew : rng.received = false) (hfree : hs.ranges.lookup start = none)
    (hfront : hs.nextHeight ≤ start) (hstop : start < stop) (hassign : hs.nextAssign ≤ stop)
    (hcover : ∀ k r', hs.ranges.lookup k = some r' → (rangeAt r').received = true → k < start →
      k + (rangeAt r').headers.length ≤ start) (paused : Bool) :
    Kept (update rangeAt r rng)
      { hs with
        leadPaused := paused
        ranges := hs.ranges.insert start r
        peerRange := hs.peerRange.insert peer r
        nextAssign := stop } := by
  have hold : ∀ k r', hs.ranges.lookup k = some r' → update rangeAt r rng r' = rangeAt r' := fun k r' hk =>
    update_of_ne (hfresh k r' hk) _ _
  refine ⟨Int.le_of_lt (Int.lt_of_le_of_lt hfront hstop), fun k r' hk => ?_, fun k r' hk hrec => ?_, fun p r' hp => ?_⟩
  · obtain ⟨rfl, rfl⟩ | hk := lookup_of_insert hk
    · rw [update_self]
      exact ⟨hstart, hfront, hstop⟩
    · rw [hold k r' hk]
      obtain ⟨hs', hle, hlt⟩ := h.listed k r' hk
      exact ⟨hs', hle, Int.lt_of_lt_of_le hlt hassign⟩
  · obtain ⟨rfl, rfl⟩ | hk := lookup_of_insert hk
    · rw [update_self, hnew] at hrec
      cases hrec
    · rw [hold k r' hk] at hrec ⊢
      obtain ⟨hle, hnext⟩ := h.fits k r' hk hrec
      have hcover := hcover k r' hk hrec
      refine ⟨Int.le_trans hle hassign, fun k' r'' hk' hlt => ?_⟩
      obtain ⟨rfl, -⟩ | hk' := lookup_of_insert hk'
      · exact hcover hlt
      · exact hnext k' r'' hk' hlt
  · obtain ⟨-, rfl⟩ | hp := lookup_of_insert hp
    · rw [update_self, hstart]
      exact AList.lookup_insert _
    · have hheld := h.held p r' hp
      rw [hold _ r' hheld, AList.lookup_insert_ne]
      · exact hheld
      · intro heq
        rw [heq, hfree] at hheld
        cases hheld

theorem drop (howned : ∀ p r, hs.peerRange.lookup p = some r → (rangeAt r).peer = p)
    (hr : hs.ranges.lookup start = some r) (hpeer : (rangeAt r).peer = peer) :
    Kept rangeAt { hs with ranges := hs.ranges.erase start, peerRange := hs.peerRange.erase peer } := by
  refine ⟨h.front, fun k r' hk => h.listed k r' (lookup_of_erase hk), fun k r' hk hrec => ?_, fun p r' hp => ?_⟩
  · obtain ⟨hle, hnext⟩ := h.fits k r' (lookup_of_erase hk) hrec
    exact ⟨hle, fun k' r'' hk' => hnext k' r'' (lookup_of_erase hk')⟩
  · have hp' := lookup_of_erase hp
    have hheld := h.held p r' hp'
    rw [AList.lookup_erase_ne]
    · exact hheld
    · intro heq
      rw [heq, hr] at hheld
      obtain rfl := some_inj.1 hheld
      rw [← howned p r hp', hpeer, AList.lookup_erase] at hp
      cases hp

/-- The front range leaves the maps, and what comes after its headers is the front. -/
theorem advance (howned : ∀ p r, hs.peerRange.lookup p = some r → (rangeAt r).peer = p)
    (hr : hs.ranges.lookup hs.nextHeight = some r) (hpeer : (rangeAt r).peer = peer)
    (hrec : (rangeAt r).received = true) :
    Kept rangeAt { hs with
      ranges := hs.ranges.erase hs.nextHeight
      peerRange := hs.peerRange.erase peer
      nextHeight := hs.nextHeight + (rangeAt r).headers.length } := by
  have hdrop := h.drop howned hr hpeer
  obtain ⟨hle, hnext⟩ := h.fits _ r hr hrec
  refine ⟨hle, fun k r' hk => ?_, hdrop.fits, hdrop.held⟩
  obtain ⟨hstart, hfront, hlt⟩ := hdrop.listed k r' hk
  have hne : k ≠ hs.nextHeight := ne_of_lookup_erase hk
  dsimp only at hfront
  exact ⟨hstart, hnext k r' (lookup_of_erase hk) (by omega), hlt⟩

/-- A range gets other headers, which fit if it is answered. -/
theorem setRange {rng : HeaderRange} (hstart : rng.start = (rangeAt r).start)
    (hfits : rng.received = true → hs.ranges.lookup rng.start = some r →
      rng.start + rng.headers.length ≤ hs.nextAssign ∧
        ∀ k' r', hs.ranges.lookup k' = some r' → rng.start < k' → rng.start + rng.headers.length ≤ k') :
    Kept (update rangeAt r rng) hs := by
  have hkeep : ∀ r', (update rangeAt r rng r').start = (rangeAt r').start := by
    intro r'
    by_cases hr : r' = r
    · subst hr
      rw [update_self, hstart]
    · rw [update_of_ne hr]
  refine ⟨h.front, fun k r' hk => ?_, fun k r' hk hrec => ?_, fun p r' hp => ?_⟩
  · rw [hkeep]
    exact h.listed k r' hk
  · by_cases hr : r' = r
    · subst hr
      rw [update_self] at hrec ⊢
      obtain rfl : rng.start = k := hstart.trans (h.listed k r' hk).1
      exact hfits hrec hk
    · rw [update_of_ne hr] at hrec ⊢
      exact h.fits k r' hk hrec
  · rw [hkeep]
    exact h.held p r' hp

end

end HeaderSyncState.Kept

namespace Manager

variable {χ : Type} {A : ChainApi χ} {e : Env} {s s' : Manager χ} {id : SyncId} {peer : Peer} {start height : Int}
    {r : RangeId}

/-! ## Handing out ranges -/

theorem cachedHash_eq : ∃ w, (s.cachedHash A height).1 = { s with reqWindow := w } := by
  rw [cachedHash]
  split
  · exact ⟨s.reqWindow, rfl⟩
  · split
    · exact ⟨_, rfl⟩
    · exact ⟨s.reqWindow, rfl⟩

theorem headerLocator_eq : ∃ w, s.headerLocator A height = { s with reqWindow := w } := by
  rw [headerLocator]
  split
  · exact ⟨s.reqWindow, rfl⟩
  · exact cachedHash_eq

/-- The headers are far enough ahead of the blocks: no range is handed out. -/
def LeadHeld (A : ChainApi χ) (s : Manager χ) (hs : HeaderSyncState) : Prop :=
  hs.leadPaused = true ∧ headerLeadResume < A.bestHeaderHeight s.chain - A.bestHeight s.chain ∨
    headerLeadLimit < A.bestHeaderHeight s.chain - A.bestHeight s.chain
deriving Decidable

def launched (s : Manager χ) (id : SyncId) (peer : Peer) (start : Int) (now : Nat) : Manager χ :=
  ({ s with nextRange := s.nextRange + 1 }.setRange s.nextRange
      { start := start, peer := peer, assignedAt := now, confirmed := true }).setSync id
    { s.syncAt id with
      leadPaused := false
      ranges := (s.syncAt id).ranges.insert start s.nextRange
      peerRange := (s.syncAt id).peerRange.insert peer s.nextRange }

theorem launch_cases (hid : s.headerSync = some id) : (LeadHeld A s (s.syncAt id) ∧
      (s.launchHeaderRange A e peer start = (s, false) ∨
        ¬ (s.syncAt id).leadPaused = true ∧ headerLeadLimit < A.bestHeaderHeight s.chain - A.bestHeight s.chain ∧
          s.launchHeaderRange A e peer start = (s.setSync id { s.syncAt id with leadPaused := true }, false))) ∨
    ¬ LeadHeld A s (s.syncAt id) ∧
      ∃ w, s.launchHeaderRange A e peer start = ({ s.launched id peer start e.now with reqWindow := w }, true) := by
  rw [launchHeaderRange]
  split
  next hnone => cases hid.symm.trans hnone
  next id' hid' =>
    obtain rfl := some_inj.1 (hid.symm.trans hid')
    dsimp only
    split
    next hpaused => exact .inl ⟨.inl hpaused, .inl rfl⟩
    next hpaused =>
      split
      next hlead => exact .inl ⟨.inr hlead.2, .inr ⟨hlead.1, hlead.2, rfl⟩⟩
      next hlead =>
        obtain ⟨w, hw⟩ := @headerLocator_eq χ A (s.launched id peer start e.now) (start - 1)
        refine .inr ⟨?_, w, congrArg (·, true) hw⟩
        rintro (hheld | hlimit)
        · exact hpaused hheld
        · by_cases hp : (s.syncAt id).leadPaused = true
          · exact hpaused ⟨hp, Int.lt_trans (by decide) hlimit⟩
          · exact hlead ⟨hp, hlimit⟩

/-- The download runs, and its maps are in order. -/
structure Working (s : Manager χ) (id : SyncId) : Prop where
  sync : s.headerSync = some id
  kept : (s.syncAt id).Kept s.rangeAt

/-- From the one state to the other, ranges are handed out or dropped: an answered range has been there before, and no
vote is counted. -/
structure Sends (id : SyncId) (s s' : Manager χ) : Prop where
  old : ∀ k r, (s'.syncAt id).ranges.lookup k = some r → (s'.rangeAt r).received = true →
    (s.syncAt id).ranges.lookup k = some r ∧ s'.rangeAt r = s.rangeAt r
  votes : s'.frontUnreachable = s.frontUnreachable
  addr : s'.addr = s.addr

namespace Sends

theorem refl : Sends id s s := ⟨fun _ _ hk _ => ⟨hk, rfl⟩, rfl, rfl⟩

theorem trans {s'' : Manager χ} (h : Sends id s s') (h' : Sends id s' s'') : Sends id s s'' := by
  refine ⟨fun k r hk hrec => ?_, h'.votes.trans h.votes, h'.addr.trans h.addr⟩
  obtain ⟨hk', heq'⟩ := h'.old k r hk hrec
  obtain ⟨hk'', heq⟩ := h.old k r hk' (heq' ▸ hrec)
  exact ⟨hk'', heq'.trans heq⟩

theorem setSync {hs : HeaderSyncState}
    (h : ∀ k r, hs.ranges.lookup k = some r → (s.syncAt id).ranges.lookup k = some r) :
    Sends id s (s.setSync id hs) := by
  refine ⟨fun k r hk _ => ⟨h k r ?_, rfl⟩, rfl, rfl⟩
  rwa [syncAt_setSync, update_self] at hk

theorem launched (ho : Owned s) (now : Nat) (w : RequestWindowCache) :
    Sends id s { s.launched id peer start now with reqWindow := w } := by
  refine ⟨fun k r hk hrec => ?_, rfl, rfl⟩
  have hsync : (s.launched id peer start now).syncAt = update s.syncAt id
      { s.syncAt id with
        leadPaused := false
        ranges := (s.syncAt id).ranges.insert start s.nextRange
        peerRange := (s.syncAt id).peerRange.insert peer s.nextRange } := rfl
  rw [hsync, update_self] at hk
  have hrange : (s.launched id peer start now).rangeAt = update s.rangeAt s.nextRange
      { start := start, peer := peer, assignedAt := now, confirmed := true } := rfl
  rw [hrange] at hrec ⊢
  obtain ⟨-, rfl⟩ | hk := lookup_of_insert hk
  · rw [update_self] at hrec
    cases hrec
  · rw [update_of_ne (Nat.ne_of_lt (ho.listed id k r hk))]
    exact ⟨hk, rfl⟩

end Sends

namespace Working

section

variable (h : Working s id)

include h

theorem congr (hsync : s'.headerSync = s.headerSync) (hat : s'.syncAt id = s.syncAt id)
    (hrange : s'.rangeAt = s.rangeAt) : Working s' id := by
  refine ⟨hsync.trans h.sync, ?_⟩
  rw [hat, hrange]
  exact h.kept

theorem setSync {hs : HeaderSyncState} (hkept : hs.Kept s.rangeAt) : Working (s.setSync id hs) id := by
  refine ⟨h.sync, ?_⟩
  rw [syncAt_setSync, update_self]
  exact hkept

theorem setPaused (paused : Bool) :
    Working (s.setSync id { s.syncAt id with leadPaused := paused }) id :=
  h.setSync (h.kept.congr rfl rfl rfl rfl)

theorem setPeers (peers : List Peer) (target : Int) :
    Working (s.setSync id { s.syncAt id with peers := peers, target := target }) id :=
  h.setSync (h.kept.congr rfl rfl rfl rfl)

/-- A range is launched at a free height, where the frontier may move on. -/
theorem launch {stop : Int} {w : RequestWindowCache} (ho : Owned s)
    (hfree : (s.syncAt id).ranges.lookup start = none) (hfront : (s.syncAt id).nextHeight ≤ start) (hstop : start < stop)
    (hassign : (s.syncAt id).nextAssign ≤ stop)
    (hcover : start = (s.syncAt id).nextHeight ∨ start = (s.syncAt id).nextAssign) :
    Working
      ({ s.launched id peer start e.now with reqWindow := w }.setSync id
        { (s.launched id peer start e.now).syncAt id with nextAssign := stop }) id := by
  have hcover : ∀ k r', (s.syncAt id).ranges.lookup k = some r' → (s.rangeAt r').received = true → k < start →
      k + (s.rangeAt r').headers.length ≤ start := by
    intro k r' hk hrec hlt
    obtain rfl | rfl := hcover
    · exact absurd hlt (Int.not_lt.2 (h.kept.listed k r' hk).2.1)
    · exact (h.kept.fits k r' hk hrec).1
  have hkept := @HeaderSyncState.Kept.launch s.rangeAt (s.syncAt id) peer start stop s.nextRange
    h.kept { start := start, peer := peer, assignedAt := e.now, confirmed := true }
    (fun k r' hk => Nat.ne_of_lt (ho.listed id k r' hk)) rfl rfl hfree hfront hstop hassign hcover false
  refine ⟨h.sync, ?_⟩
  rw [syncAt_setSync, update_self]
  refine hkept.congr ?_ rfl ?_ ?_
  · simp [launched]
  · simp [launched]
  · simp [launched]

theorem launch_below {w : RequestWindowCache} (ho : Owned s)
    (hfree : (s.syncAt id).ranges.lookup (s.syncAt id).nextHeight = none)
    (hlt : (s.syncAt id).nextHeight < (s.syncAt id).nextAssign) :
    Working { s.launched id peer (s.syncAt id).nextHeight e.now with reqWindow := w } id := by
  have hkept := (@launch χ e s id peer _ h _ w ho hfree (Int.le_refl _) hlt (Int.le_refl _) (.inl rfl)).kept
  refine ⟨h.sync, ?_⟩
  rw [syncAt_setSync, update_self] at hkept
  refine hkept.congr rfl ?_ rfl rfl
  simp [launched]

end

end Working

/-- The peer cannot be asked for the front. -/
def Stuck (A : ChainApi χ) (s : Manager χ) (hs : HeaderSyncState) (peer : Peer) : Prop :=
  s.sliceEnd hs peer hs.nextHeight ≤ hs.nextHeight ∨ LeadHeld A s hs
deriving Decidable

theorem nextStart_cases {hs : HeaderSyncState} (h : hs.Kept s.rangeAt) :
    nextStart hs = hs.nextHeight ∧ hs.ranges.lookup hs.nextHeight = none ∨
      nextStart hs = hs.nextAssign ∧ hs.ranges.lookup hs.nextAssign = none := by
  rw [nextStart]
  split
  next hhole => exact .inl ⟨rfl, isNone_iff_eq_none.1 hhole.1⟩
  next =>
    refine .inr ⟨rfl, ?_⟩
    cases hk : hs.ranges.lookup hs.nextAssign with
    | none => rfl
    | some r => exact absurd (h.listed _ r hk).2.2 (Int.lt_irrefl _)

/-- A peer gets a range, or nothing changes. At a frontier that nobody holds, that has one of two reasons. -/
theorem assign_cases (h : Working s id) (ho : Owned s) : (s.assignHeaderRange A e peer = s ∧
      ((s.syncAt id).nextHeight = (s.syncAt id).nextAssign →
        (s.syncAt id).target < (s.syncAt id).nextHeight ∨ Stuck A s (s.syncAt id) peer)) ∨
    Sends id s (s.assignHeaderRange A e peer) ∧ Working (s.assignHeaderRange A e peer) id ∧
      ((s.assignHeaderRange A e peer).syncAt id).nextHeight < ((s.assignHeaderRange A e peer).syncAt id).nextAssign := by
  rw [assignHeaderRange, h.sync]
  dsimp only
  split
  next hbusy =>
    refine .inl ⟨rfl, fun heq => ?_⟩
    rw [h.kept.peerRange_of_eq heq] at hbusy
    cases hbusy
  next hidle =>
    split
    next hlead => exact .inl ⟨rfl, fun _ => .inr (.inr (.inr hlead))⟩
    next hlead =>
      split
      next r hr =>
        -- the front would have to be unconfirmed
        obtain ⟨hfront, hc⟩ := filter_eq_some_iff.1 hr
        have := ho.confirmed r (ho.listed id _ r hfront)
        simp [this] at hc
      next =>
        have hstart := nextStart_cases h.kept
        generalize nextStart (s.syncAt id) = start at hstart ⊢
        split
        next hno =>
          refine .inl ⟨rfl, fun heq => ?_⟩
          obtain rfl : start = (s.syncAt id).nextHeight := by
            obtain ⟨rfl, -⟩ | ⟨rfl, -⟩ := hstart
            · rfl
            · exact heq.symm
          exact hno.imp_right .inl
        next hyes =>
          rw [not_or, Int.not_le] at hyes
          obtain ⟨hheld, hl | ⟨-, hlimit, -⟩⟩ | ⟨hfreed, w, hl⟩ := @launch_cases χ A e s id peer start h.sync
          · rw [hl]
            exact .inl ⟨by simp, fun _ => .inr (.inr hheld)⟩
          · exact absurd hlimit hlead
          · rw [hl]
            have hsends : Sends id s { s.launched id peer start e.now with reqWindow := w } := .launched ho e.now w
            have hassign : ((s.launched id peer start e.now).syncAt id).nextAssign = (s.syncAt id).nextAssign := by
              simp [launched]
            have hheight : ((s.launched id peer start e.now).syncAt id).nextHeight = (s.syncAt id).nextHeight := by
              simp [launched]
            rw [hassign]
            split
            next hfrontier =>
              obtain ⟨-, rfl⟩ := hfrontier
              have hfree : (s.syncAt id).ranges.lookup (s.syncAt id).nextAssign = none := by
                obtain ⟨heq, hfree⟩ | ⟨-, hfree⟩ := hstart
                · rw [heq, hfree]
                · exact hfree
              refine .inr ⟨hsends.trans (Sends.setSync fun _ _ hk => hk), ?_, ?_⟩
              · exact h.launch ho hfree h.kept.front hyes.2 (Int.le_of_lt hyes.2) (.inr rfl)
              · rw [syncAt_setSync, update_self]
                rw [hheight]
                exact Int.lt_of_le_of_lt h.kept.front hyes.2
            next hbelow =>
              obtain ⟨rfl, hfree⟩ | ⟨rfl, -⟩ := hstart
              · have hlt : (s.syncAt id).nextHeight < (s.syncAt id).nextAssign :=
                  Int.lt_iff_le_and_ne.2 ⟨h.kept.front, fun heq => hbelow ⟨rfl, heq⟩⟩
                refine .inr ⟨hsends, h.launch_below ho hfree hlt, ?_⟩
                rw [hassign, hheight]
                exact hlt
              · exact absurd ⟨rfl, rfl⟩ hbelow

/-- All peers get ranges. If the frontier is still held by nobody, nothing has changed and nobody can be asked for it. -/
theorem assignAll_cases (h : Working s id) (ho : Owned s) (peers : List Peer) :
    Working (peers.foldl (fun s p => s.assignHeaderRange A e p) s) id ∧
      (((peers.foldl (fun s p => s.assignHeaderRange A e p) s).syncAt id).nextHeight <
          ((peers.foldl (fun s p => s.assignHeaderRange A e p) s).syncAt id).nextAssign ∨
        peers.foldl (fun s p => s.assignHeaderRange A e p) s = s ∧
          ((s.syncAt id).nextHeight = (s.syncAt id).nextAssign → (s.syncAt id).nextHeight ≤ (s.syncAt id).target →
            ∀ p ∈ peers, Stuck A s (s.syncAt id) p)) := by
  induction peers generalizing s with
  | nil => exact ⟨h, .inr ⟨rfl, fun _ _ p hp => absurd hp not_mem_nil⟩⟩
  | cons p peers ih =>
    rw [foldl_cons]
    obtain ⟨heq, hstuck⟩ | ⟨-, hw, hlt⟩ := @assign_cases χ A e s id p h ho
    · rw [heq]
      obtain ⟨hw, hcases⟩ := ih h ho
      refine ⟨hw, hcases.imp_right fun ⟨hsame, hall⟩ => ⟨hsame, fun hfrontier hle => ?_⟩⟩
      refine forall_mem_cons.2 ⟨?_, hall hfrontier hle⟩
      exact (hstuck hfrontier).resolve_left (Int.not_lt.2 hle)
    · obtain ⟨hw', hcases⟩ := ih hw (Owned.ranges.assignHeaderRange ho)
      refine ⟨hw', .inl ?_⟩
      obtain hlt' | ⟨hsame, -⟩ := hcases
      · exact hlt'
      · rw [hsame]
        exact hlt

namespace Working

section

variable (h : Working s id) (ho : Owned s)

include h ho

theorem assign :
    Sends id s (s.assignHeaderRange A e peer) ∧ Working (s.assignHeaderRange A e peer) id := by
  obtain ⟨heq, -⟩ | ⟨hsends, hw, -⟩ := @assign_cases χ A e s id peer h ho
  · rw [heq]
    exact ⟨.refl, h⟩
  · exact ⟨hsends, hw⟩

/-- The front is asked for again. At the frontier that must not succeed, as the frontier does not move. -/
theorem reissue (hfree : (s.syncAt id).ranges.lookup (s.syncAt id).nextHeight = none)
    (hok : (s.syncAt id).nextHeight < (s.syncAt id).nextAssign ∨ Stuck A s (s.syncAt id) peer) :
    Sends id s (s.reissueHeaderRange A e peer (s.syncAt id).nextHeight) ∧
      Working (s.reissueHeaderRange A e peer (s.syncAt id).nextHeight) id := by
  generalize hstart : (s.syncAt id).nextHeight = start at hfree hok
  rw [reissueHeaderRange, h.sync]
  dsimp only
  split
  · exact ⟨.refl, h⟩
  next hno =>
    obtain ⟨hheld, hl | ⟨-, -, hl⟩⟩ | ⟨hfreed, w, hl⟩ := @launch_cases χ A e s id peer start h.sync
    · rw [hl]
      exact ⟨.refl, h⟩
    · rw [hl]
      exact ⟨.setSync fun _ _ hk => hk, h.setPaused true⟩
    · rw [hl]
      subst hstart
      refine ⟨.launched ho e.now w, h.launch_below ho hfree (hok.resolve_right ?_)⟩
      rintro (hend | hheld)
      · exact hno (.inr (.inr hend))
      · exact hfreed hheld

theorem drop (hr : (s.syncAt id).ranges.lookup start = some r)
    (hpeer : (s.rangeAt r).peer = peer) :
    Sends id s (s.dropRange id start peer) ∧ Working (s.dropRange id start peer) id :=
  ⟨.setSync fun _ _ => lookup_of_erase, h.setSync (h.kept.drop (fun p r hp => (ho.held id p r hp).2) hr hpeer)⟩

theorem release : Working (s.releaseRange id peer) id := by
  rw [releaseRange]
  split
  next r hr => exact (h.drop ho (h.kept.held peer r hr) (ho.held id peer r hr).2).2
  next => exact h

theorem dropFront (hr : (s.syncAt id).ranges.lookup (s.syncAt id).nextHeight = some r) :
    Working (s.dropRange id (s.syncAt id).nextHeight (s.rangeAt r).peer) id ∧
      (s.dropRange id (s.syncAt id).nextHeight (s.rangeAt r).peer).syncAt id =
        { s.syncAt id with
          ranges := (s.syncAt id).ranges.erase (s.syncAt id).nextHeight
          peerRange := (s.syncAt id).peerRange.erase (s.rangeAt r).peer } ∧
      ((s.dropRange id (s.syncAt id).nextHeight (s.rangeAt r).peer).syncAt id).ranges.lookup
        ((s.dropRange id (s.syncAt id).nextHeight (s.rangeAt r).peer).syncAt id).nextHeight = none := by
  refine ⟨(h.drop ho hr rfl).2, ?_, ?_⟩
  · rw [dropRange, syncAt_setSync, update_self]
  · rw [dropRange, syncAt_setSync, update_self]
    exact AList.lookup_erase _ _

/-- The front leaves the maps and its peer is asked for it again. -/
theorem askAgain (hr : (s.syncAt id).ranges.lookup (s.syncAt id).nextHeight = some r) :
    Sends id (s.dropRange id (s.rangeAt r).start (s.rangeAt r).peer)
        ((s.dropRange id (s.rangeAt r).start (s.rangeAt r).peer).reissueHeaderRange A e (s.rangeAt r).peer
          (s.rangeAt r).start) ∧
      Working ((s.dropRange id (s.rangeAt r).start (s.rangeAt r).peer).reissueHeaderRange A e (s.rangeAt r).peer
        (s.rangeAt r).start) id := by
  obtain ⟨hstart, -, hlt⟩ := h.kept.listed _ r hr
  obtain ⟨hdrop, hat, hfree⟩ := h.dropFront ho hr
  obtain ⟨hsends, hw⟩ :=
    @reissue χ A e _ id (s.rangeAt r).peer hdrop (Owned.ranges.dropRange ho) hfree (.inl (hat ▸ hlt))
  rw [hat] at hsends hw
  rw [hstart]
  exact ⟨hsends, hw⟩

/-- Another peer takes the front, which nobody holds. -/
theorem handOver (hfree : (s.syncAt id).ranges.lookup (s.syncAt id).nextHeight = none)
    (hlt : (s.syncAt id).nextHeight < (s.syncAt id).nextAssign) : Working (s.handOverFront A e id) id := by
  rw [handOverFront]
  split
  · exact h
  next p _ =>
    -- the peer first gives up what it holds
    have hframe : ((s.releaseRange id p).syncAt id).nextHeight = (s.syncAt id).nextHeight ∧
        ((s.releaseRange id p).syncAt id).nextAssign = (s.syncAt id).nextAssign ∧
        ((s.releaseRange id p).syncAt id).ranges.lookup (s.syncAt id).nextHeight = none := by
      rw [releaseRange]
      split
      next r _ =>
        rw [dropRange, syncAt_setSync, update_self]
        refine ⟨rfl, rfl, eq_none_iff_forall_ne_some.2 fun r' hr' => ?_⟩
        cases hfree.symm.trans (lookup_of_erase hr')
      next => exact ⟨rfl, rfl, hfree⟩
    obtain ⟨hheight, hassign, hfree'⟩ := hframe
    rw [← hheight] at hfree' hlt ⊢
    rw [← hassign] at hlt
    exact ((h.release ho).reissue (Owned.ranges.releaseRange ho) hfree' (.inl hlt)).2

/-- The front is looked after. At the frontier, the first peer must not be one that can be asked for it. -/
theorem reissueFront
    (hfrontier : (s.syncAt id).nextHeight = (s.syncAt id).nextAssign →
      (s.syncAt id).nextHeight ≤ (s.syncAt id).target →
      ∀ p ∈ (s.syncAt id).peers.head?, Stuck A s (s.syncAt id) p) : Working (s.reissueFrontRange A e) id := by
  rw [reissueFrontRange, h.sync]
  dsimp only
  split
  · exact h
  next htarget =>
    split
    next hfree =>
      by_cases heq : (s.syncAt id).nextHeight = (s.syncAt id).nextAssign
      · have hidle : ∀ p, (s.syncAt id).peerRange.lookup p = none := h.kept.peerRange_of_eq heq
        have hstuck := hfrontier heq (Int.not_lt.1 htarget)
        rw [handOverFront]
        split
        · exact h
        next p hp =>
          have hrelease : s.releaseRange id p = s := by rw [releaseRange, hidle]
          rw [hrelease]
          refine (h.reissue ho hfree (.inr (hstuck p ?_))).2
          -- every peer is idle, so the first one is taken
          cases hpeers : (s.syncAt id).peers with
          | nil => simp [frontTaker, hpeers] at hp
          | cons q qs => simpa [frontTaker, hpeers, hidle] using hp
      · exact h.handOver ho hfree (Int.lt_iff_le_and_ne.2 ⟨h.kept.front, heq⟩)
    next r hr =>
      obtain ⟨hstart, -, hlt⟩ := h.kept.listed _ r hr
      obtain ⟨hdrop, hat, hfree⟩ := h.dropFront ho hr
      rw [hstart]
      split
      · split
        · exact h
        · exact hstart ▸ (h.askAgain ho hr).2
      · split
        · exact h
        · exact hdrop.handOver (Owned.ranges.dropRange ho) hfree (hat ▸ hlt)

end

end Working

/-! ## Starting and rolling back -/

/-- The header sync under way, if any, is in order. -/
def InOrder (s : Manager χ) : Prop := ∀ id, s.headerSync = some id → Working s id

theorem Working.inOrder (h : Working s id) : InOrder s := by
  intro id' hid'
  obtain rfl := some_inj.1 (h.sync.symm.trans hid')
  exact h

namespace InOrder

theorem of_none (h : s.headerSync = none) : InOrder s := fun _ hid => absurd (h.symm.trans hid) nofun

theorem congr (h : InOrder s) (hsync : s'.headerSync = s.headerSync) (hat : s'.syncAt = s.syncAt)
    (hrange : s'.rangeAt = s.rangeAt) : InOrder s' := fun id hid =>
  (h id (hsync.symm.trans hid)).congr hsync (congrFun hat id) hrange

theorem of_fst {β : Type} {x : Manager χ × β} {b : β} (h : InOrder x.1) (hx : x = (s', b)) : InOrder s' := by
  rwa [hx] at h

theorem fetchHeaders (h : InOrder s) (ho : Owned s) : InOrder (s.fetchHeaders A e) := by
  rw [Manager.fetchHeaders]
  dsimp only
  split
  · exact h
  · split
    · exact h
    · refine (assignAll_cases ⟨rfl, ?_⟩ ?_ _).1.inOrder
      · rw [syncAt_setSync, update_self]
        exact .empty (Int.le_refl _) rfl rfl
      · exact Owned.setSync { ho with } (by simp) (by simp)

theorem finishHeaderSync : InOrder s.finishHeaderSync := of_none rfl

end InOrder

theorem Working.topUp (h : Working s id) (ho : Owned s) :
    Working (((s.syncAt id).peers.foldl (fun s p => s.assignHeaderRange A e p) s).reissueFrontRange A e) id := by
  obtain ⟨hw, hlt | ⟨heq, hstuck⟩⟩ := @assignAll_cases χ A e s id h ho (s.syncAt id).peers
  · exact hw.reissueFront (Owned.ranges.assignAll ho) fun hfrontier => absurd hfrontier (Int.ne_of_lt hlt)
  · rw [heq]
    exact h.reissueFront ho fun hfrontier hle p hp => hstuck hfrontier hle p (mem_of_mem_head? hp)

theorem InOrder.dropHeaderPeer (h : InOrder s) (ho : Owned s) : InOrder (s.dropHeaderPeer A e peer) := by
  rw [Manager.dropHeaderPeer]
  split
  · exact h
  next id hid =>
    dsimp only
    split
    · exact of_none rfl
    · have hrelease : Working (s.releaseRange id peer) id := (h id hid).release ho
      have htop := (hrelease.setPeers (((s.releaseRange id peer).syncAt id).peers.erase peer)
        ((s.releaseRange id peer).tallest (((s.releaseRange id peer).syncAt id).peers.erase peer))).topUp (A := A) (e := e)
        (Owned.ranges.setPeers (Owned.ranges.releaseRange ho) _ _)
      rw [syncAt_setSync, update_self] at htop
      exact htop.inOrder

theorem InOrder.headerSyncAddPeer (h : InOrder s) (ho : Owned s) : InOrder (s.headerSyncAddPeer A e peer) := by
  rw [Manager.headerSyncAddPeer]
  split
  · exact h
  next id hid =>
    dsimp only
    split
    · exact h
    · exact (((h id hid).setPeers _ _).assign (Owned.ranges.setPeers ho _ _)).2.inOrder

theorem InOrder.restarts : Restarts A fun s : Manager χ => InOrder s ∧ Owned s where
  frame h := ⟨h.1.congr rfl rfl rfl, Owned.ranges.other h.2⟩
  stop h := ⟨.of_none rfl, Owned.ranges.other h.2⟩
  fetchHeaders h := ⟨h.1.fetchHeaders h.2, Owned.ranges.fetchHeaders h.2⟩
  dropHeaderPeer h := ⟨h.1.dropHeaderPeer h.2, Owned.ranges.dropHeaderPeer h.2⟩
  headerSyncAddPeer h := ⟨h.1.headerSyncAddPeer h.2, Owned.ranges.headerSyncAddPeer h.2⟩
  breaker depth height count h := ⟨h.1.congr rfl rfl rfl, (Owned.stable (A := A)).breaker depth height count h.2⟩
  header h hc := ⟨h.1.congr rfl rfl rfl, Owned.stable.header h.2 hc⟩
  rollback height h := ⟨h.1.congr rfl rfl rfl, Owned.stable.rollback height h.2⟩

end Manager

end IniNode.Netsync
