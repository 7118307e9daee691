import IniNode.Netsync.StalledPeers
/-!
# Slices of the block download

Peers download disjoint slices of the chain as long as no slice is handed out inside one that a peer still holds. A new
slice is cut off where the next one starts, but nothing is compared with the slices that start at or below it: the block
after the tip may lie in a slice whose holder has not asked for it, and a slice that fills the front may reach beyond the
frontier.
-/

open List Option Function

namespace IniNode.Netsync

open Lib

namespace BlockSyncState

variable {env : BlockEnv} {requested : Finset Hash} {peer : Peer} {bs : BlockSyncState} {start : Int}

theorem nextSliceBeyond_le (hkeys : ∀ k s, bs.slices.lookup k = some s → s.start = k) {k : Int} {s : BlockSlice}
    (hs : bs.slices.lookup k = some s) (hk : start < k) :
    ∃ sl, bs.nextSliceBeyond start = some sl ∧ sl.start ≤ s.start := by
  have hentries : ∀ e ∈ bs.slices.entries, e.2.start = e.1 := fun e he => hkeys e.1 e.2 (AList.mem_lookup_iff.2 he)
  have hmem : ⟨k, s⟩ ∈ bs.slices.entries := AList.mem_lookup_iff.1 hs
  rw [hkeys k s hs]
  unfold nextSliceBeyond
  generalize hf : (fun (best : Option BlockSlice) (e : (_ : Int) × BlockSlice) => _) = f
  -- the best so far is not after any slice seen
  suffices ∀ (l : List ((_ : Int) × BlockSlice)) (best : Option BlockSlice), (∀ e ∈ l, e.2.start = e.1) →
      (∀ b ∈ best, ∃ sl, l.foldl f best = some sl ∧ sl.start ≤ b.start) ∧
      ∀ e ∈ l, start < e.1 → ∃ sl, l.foldl f best = some sl ∧ sl.start ≤ e.1 from
    (this _ none hentries).2 _ hmem hk
  intro l
  induction l with
  | nil => exact fun best _ => ⟨fun b hb => ⟨b, hb, Int.le_refl _⟩, nofun⟩
  | cons e l ih =>
    intro best hl
    obtain ⟨he, hl⟩ := forall_mem_cons.1 hl
    simp only [foldl_cons, forall_mem_cons, ← hf] at ih ⊢
    by_cases hle : e.1 ≤ start
    · rw [if_pos hle]
      exact ⟨(ih best hl).1, fun hlt => absurd hlt (Int.not_lt.2 hle), (ih best hl).2⟩
    · rw [if_neg hle]
      cases best with
      | none =>
        refine ⟨nofun, fun _ => ?_, (ih _ hl).2⟩
        exact he ▸ (ih (some e.2) hl).1 e.2 rfl
      | some b =>
        dsimp only
        by_cases hlt : e.1 < b.start
        · rw [if_pos hlt]
          obtain ⟨sl, hsl, hslle⟩ := (ih (some e.2) hl).1 e.2 rfl
          refine ⟨fun b' hb' => ?_, fun _ => ⟨sl, hsl, he ▸ hslle⟩, (ih _ hl).2⟩
          obtain rfl := some_inj.1 hb'
          exact ⟨sl, hsl, by omega⟩
        · rw [if_neg hlt]
          obtain ⟨sl, hsl, hslle⟩ := (ih (some b) hl).1 b rfl
          refine ⟨fun b' hb' => ?_, fun _ => ⟨sl, hsl, by omega⟩, (ih _ hl).2⟩
          obtain rfl := some_inj.1 hb'
          exact ⟨sl, hsl, hslle⟩

theorem sliceStop_le (hkeys : ∀ k s, bs.slices.lookup k = some s → s.start = k) {k : Int} {s : BlockSlice}
    (hs : bs.slices.lookup k = some s) (hk : start < k) : bs.sliceStop env start ≤ s.start := by
  obtain ⟨sl, hsl, hle⟩ := nextSliceBeyond_le hkeys hs hk
  rw [sliceStop, hsl]
  exact (min_le_left _ _).trans hle

/-! ## One slice for each height -/

/-- The two maps hold the same slices, and those of different peers are disjoint. -/
structure Apart (bs : BlockSyncState) : Prop where
  held : ∀ p s, bs.peerSlice p = some s → s.peer = p ∧ s.start < s.stop ∧ bs.slices.lookup s.start = some s
  listed : ∀ k s, bs.slices.lookup k = some s → s.start = k ∧ bs.peerSlice s.peer = some s
  apart : ∀ p q s t, bs.peerSlice p = some s → bs.peerSlice q = some t → p ≠ q →
    s.stop ≤ t.start ∨ t.stop ≤ s.start

/-- The height at which the next slice would start lies in no slice. -/
def Vacant (env : BlockEnv) (requested : Finset Hash) (bs : BlockSyncState) : Prop :=
  bs.sliceStart env requested ≤ env.windowEnd → ∀ e ∈ bs.slices.entries,
    ¬ (e.2.start ≤ bs.sliceStart env requested ∧ bs.sliceStart env requested < e.2.stop)
deriving Decidable

namespace Apart

theorem congr {e : BlockSyncState} (h : Apart bs) (hslices : e.slices = bs.slices) (hpeer : e.peerSlice = bs.peerSlice) :
    Apart e := by
  refine ⟨?_, ?_, ?_⟩
  · rw [hslices, hpeer]
    exact h.held
  · rw [hslices, hpeer]
    exact h.listed
  · rw [hpeer]
    exact h.apart

theorem empty (hslices : bs.slices = ∅) (hpeer : bs.peerSlice = fun _ => none) : Apart bs := by
  refine ⟨fun p s hs => ?_, fun k s hs => ?_, fun p q s t hs => ?_⟩
  · rw [hpeer] at hs
    cases hs
  · rw [hslices] at hs
    cases hs
  · rw [hpeer] at hs
    cases hs

theorem assign (h : Apart bs) (hvacant : Vacant env requested bs) : Apart (bs.assignBlockSlice env requested peer).1 := by
  obtain ⟨-, -, _, _, _, _, -, heq⟩ | ⟨-, ⟨hnone, -, -, hwindow, hlt⟩, _, ⟨_, _, _, _, -, rfl⟩, heq⟩ :=
    @assignBlockSlice_cases env requested peer bs
  · rw [heq]
    exact h.congr rfl rfl
  rw [heq]
  have hvacant := hvacant hwindow
  have hother : ∀ q t, bs.peerSlice q = some t →
      bs.sliceStop env (bs.sliceStart env requested) ≤ t.start ∨ t.stop ≤ bs.sliceStart env requested := by
    intro q t ht
    obtain ⟨-, -, hlisted⟩ := h.held q t ht
    by_cases hle : t.start ≤ bs.sliceStart env requested
    · have := hvacant ⟨t.start, t⟩ (AList.mem_lookup_iff.1 hlisted)
      exact .inr (by_contra fun hstop => this ⟨hle, Int.not_le.1 hstop⟩)
    · exact .inl (sliceStop_le (fun k s hs => (h.listed k s hs).1) hlisted (Int.not_le.1 hle))
  refine ⟨fun p s hs => ?_, fun k s hs => ?_, fun p q s t hs ht hne => ?_⟩
  · dsimp only at hs ⊢
    by_cases hp : p = peer
    · subst hp
      rw [update_self, some_inj] at hs
      subst hs
      exact ⟨rfl, hlt, AList.lookup_insert _⟩
    · rw [update_of_ne hp] at hs
      obtain ⟨hpeer, hlt', hlisted⟩ := h.held p s hs
      refine ⟨hpeer, hlt', ?_⟩
      rw [AList.lookup_insert_ne]
      · exact hlisted
      · intro heq
        have := hother p s hs
        omega
  · dsimp only at hs ⊢
    obtain ⟨rfl, rfl⟩ | hs := lookup_of_insert hs
    · exact ⟨rfl, update_self ..⟩
    · obtain ⟨hk, hpeer⟩ := h.listed k s hs
      refine ⟨hk, ?_⟩
      rw [update_of_ne]
      · exact hpeer
      · intro heq
        rw [heq, hnone] at hpeer
        cases hpeer
  · dsimp only at hs ht
    by_cases hp : p = peer
    · subst hp
      rw [update_self, some_inj] at hs
      rw [update_of_ne hne.symm] at ht
      subst hs
      exact hother q t ht
    · rw [update_of_ne hp] at hs
      by_cases hq : q = peer
      · subst hq
        rw [update_self, some_inj] at ht
        subst ht
        exact (hother p s hs).symm
      · rw [update_of_ne hq] at ht
        exact h.apart p q s t hs ht hne

theorem release (h : Apart bs) (peer : Peer) : Apart (bs.releaseBlockSlice peer) := by
  unfold releaseBlockSlice
  split
  · exact h
  next sl hsl =>
    have hother : ∀ p s, update bs.peerSlice peer none p = some s → p ≠ peer ∧ bs.peerSlice p = some s := by
      intro p s hs
      by_cases hp : p = peer
      · subst hp
        rw [update_self] at hs
        cases hs
      · rw [update_of_ne hp] at hs
        exact ⟨hp, hs⟩
    refine ⟨fun p s hs => ?_, fun k s hs => ?_, fun p q s t hs ht => ?_⟩
    · obtain ⟨hp, hs⟩ := hother p s hs
      obtain ⟨hpeer, hlt, hlisted⟩ := h.held p s hs
      refine ⟨hpeer, hlt, ?_⟩
      rw [AList.lookup_erase_ne]
      · exact hlisted
      · intro heq
        rw [heq, (h.held peer sl hsl).2.2, some_inj] at hlisted
        subst hlisted
        exact hp (hpeer.symm.trans (h.held peer sl hsl).1)
    · dsimp only at hs ⊢
      obtain ⟨hk, hpeer⟩ := h.listed k s (lookup_of_erase hs)
      refine ⟨hk, ?_⟩
      rw [update_of_ne]
      · exact hpeer
      · intro heq
        rw [heq, hsl, some_inj] at hpeer
        rw [hpeer, hk, AList.lookup_erase] at hs
        cases hs
    · exact h.apart p q s t (hother p s hs).2 (hother q t ht).2

end Apart

end BlockSyncState

namespace Downloads

/-- No two peers hold overlapping slices. -/
def SlicesApart (d : Downloads) : Prop := ∀ bs ∈ d.blockSyncState, bs.Apart

variable (env : BlockEnv)

/-- If the peer is given a slice when blocks are fetched from it, the slice starts where nobody holds one. -/
def VacantFor (d : Downloads) (peer : Peer) : Prop :=
  env.forkHeight ≤ env.bestHeaderHeight → ∀ bs ∈ d.blockSyncState, bs.peerSlice peer = none →
    bs.Vacant env d.requestedBlocks
deriving Decidable

/-- `VacantFor`, when the peer is let into the download. -/
def JoinsVacant (d : Downloads) (peer : Peer) : Prop :=
  ∀ peers ∈ d.blockSync, ¬ (peers.length ≥ maxHeaderSyncPeers ∨ takesPart env peers peer) → VacantFor env d peer
deriving Decidable

/-- `VacantFor`, when the peer has room for more requests. -/
def TopUpVacant (d : Downloads) (peer : Peer) : Prop :=
  ∀ st ∈ d.peerStates peer, st.requestedBlocks.card < minInFlightBlocks → VacantFor env d peer
deriving Decidable

/-- `VacantFor`, once a stalled peer is freed. -/
def FreedVacant (d : Downloads) (peer : Peer) : Prop :=
  Stalled env d peer → ∀ st ∈ d.peerStates peer, VacantFor env (freed d peer st) peer
deriving Decidable

/-- The requests that are left when a slice is taken from its holder. -/
def withoutSlice (requested : Finset Hash) (sl : BlockSlice) : Finset Hash :=
  requested \ (((range (sl.stop - sl.start).toNat).map fun i => sl.start + (i : Int)).filterMap
    env.headerHashByHeight).toFinset

/-- The place for the slice that replaces one taken from its holder. -/
def HandsOnVacant (d : Downloads) (start : Int) : Prop :=
  ∀ bs ∈ d.blockSyncState, ∀ sl ∈ bs.slices.lookup start,
    env.stalledSince ((bs.lastProgress sl.peer).getD sl.assignedAt) →
    (∃ p ∈ d.blockSync.getD [], p ≠ sl.peer ∧ bs.peerSlice p = none) →
    (bs.releaseBlockSlice sl.peer).Vacant env (withoutSlice env d.requestedBlocks sl)
deriving Decidable

namespace SlicesApart

variable {env : BlockEnv} {d e : Downloads} {peer : Peer}

theorem congr (h : SlicesApart d) (heq : e.blockSyncState = d.blockSyncState) : SlicesApart e := by
  rw [SlicesApart, heq]
  exact h

theorem of_some {bs : BlockSyncState} (h : bs.Apart) (heq : d.blockSyncState = some bs) : SlicesApart d := by
  intro bs' hbs'
  obtain rfl := some_inj.1 (heq.symm.trans hbs')
  exact h

theorem map {f : BlockSyncState → BlockSyncState} (hf : ∀ bs, bs.Apart → (f bs).Apart) (h : SlicesApart d)
    (heq : e.blockSyncState = d.blockSyncState.map f) : SlicesApart e := by
  intro bs' hbs'
  rw [heq] at hbs'
  obtain ⟨bs, hbs, rfl⟩ := Option.mem_map.1 hbs'
  exact hf bs (h bs hbs)

theorem release (h : SlicesApart d) (peer : Peer) : SlicesApart (d.releaseBlockSlice peer) :=
  h.map (fun _ hbs => hbs.release peer) rfl

theorem setProgress (h : SlicesApart d) (peer : Peer) : SlicesApart (d.setProgress env peer) := by
  refine h.map (fun bs hbs => ?_) rfl
  exact hbs.congr rfl rfl

theorem request (h : SlicesApart d) (peer : Peer) (hash : Hash) : SlicesApart (d.request peer hash) := by
  unfold Downloads.request
  split
  · exact h
  · exact h.congr rfl

theorem requestBlocks {requestEnd : Int} (n : Nat) (height : Int) (k : Nat) (h : SlicesApart d) :
    SlicesApart (Downloads.requestBlocks env peer requestEnd n height k d).1 := by
  induction n generalizing height k d with
  | zero => exact h
  | succ n ih =>
    unfold Downloads.requestBlocks
    split
    · exact h
    next hash _ =>
      split
      · exact ih _ _ h
      · have hnext : SlicesApart (if env.haveBlock hash = true then d else d.request peer hash) := by
          split
          · exact h
          · exact h.request peer hash
        dsimp only
        generalize (if env.haveBlock hash = true then k else k + 1) = k'
        split
        · exact hnext
        · exact ih _ _ hnext

section

variable (h : SlicesApart d)

include h

theorem fetchHeaderBlocks (hvacant : VacantFor env d peer) : SlicesApart (d.fetchHeaderBlocks env peer) := by
  unfold Downloads.fetchHeaderBlocks
  split
  · exact h
  next hfork =>
    split
    · exact h.requestBlocks _ _ _
    next bs hbs =>
      -- the slice is assigned before the blocks are requested
      have hheld : SlicesApart (d.heldSlice env bs peer).1 := by
        unfold Downloads.heldSlice
        split
        · exact h
        next hnone =>
          simp only [Downloads.assignBlockSlice, hbs]
          exact of_some ((h bs hbs).assign (hvacant (Int.not_lt.1 hfork) bs hbs hnone)) rfl
      split
      next heq =>
        rw [heq] at hheld
        exact hheld
      next heq =>
        rw [heq] at hheld
        dsimp only
        split
        · exact (hheld.requestBlocks _ _ _).release peer
        · exact hheld.requestBlocks _ _ _

theorem blockSyncAddPeer (hvacant : JoinsVacant env d peer) : SlicesApart (d.blockSyncAddPeer env peer) := by
  unfold Downloads.blockSyncAddPeer
  split
  · exact h
  next peers hpeers =>
    split
    · exact h
    next hroom => exact fetchHeaderBlocks (d := { d with blockSync := _ }) (h.congr rfl) (hvacant peers hpeers hroom)

theorem topUp (hvacant : TopUpVacant env d peer) :
    SlicesApart (if (d.peerStates peer).all fun st => st.requestedBlocks.card ≥ minInFlightBlocks then d
      else d.fetchHeaderBlocks env peer) := by
  split
  · exact h
  next hroom =>
    apply h.fetchHeaderBlocks
    cases hst : d.peerStates peer with
    | none => exact absurd (by simp [hst]) hroom
    | some st =>
      rw [hst] at hroom
      exact hvacant st hst (by simpa using hroom)

theorem reissueStalled (hvacant : FreedVacant env d peer) : SlicesApart (d.reissueStalledBlockPeer env peer) := by
  by_cases hstalled : Stalled env d peer
  · cases hst : d.peerStates peer with
    | none =>
      obtain ⟨⟨st, hst', -⟩, -⟩ := hstalled
      cases hst.symm.trans hst'
    | some st =>
      rw [reissue_of_stalled hstalled hst]
      apply setProgress
      have hfreed : SlicesApart (freed d peer st) := SlicesApart.release (d := d.clearRequestedState st) (h.congr rfl) peer
      exact hfreed.fetchHeaderBlocks (hvacant hstalled st hst)
  · obtain heq | heq := reissue_of_not_stalled hstalled
    · rw [heq]
      exact h
    · rw [heq]
      exact h.setProgress peer

theorem reissueStale {start : Int} (hvacant : HandsOnVacant env d start) :
    SlicesApart (d.reissueStaleBlockSlice env start) := by
  unfold Downloads.reissueStaleBlockSlice
  split
  · exact h
  next bs sl hfound =>
    obtain ⟨bs, hbs, hfound⟩ := bind_eq_some_iff.1 hfound
    obtain ⟨sl, hsl, heq⟩ := map_eq_some_iff.1 hfound
    obtain ⟨rfl, rfl⟩ := Prod.mk.inj heq
    dsimp only
    split
    · exact h
    next target htarget =>
      split
      · exact h
      next hstalled =>
        simp only [not_or, Bool.not_eq_true', Bool.not_eq_false] at hstalled
        -- what is taken out is what the holder would release
        obtain ⟨hstart, hheld⟩ := (h bs hbs).listed start sl hsl
        have hrelease : { bs with slices := bs.slices.erase start, peerSlice := update bs.peerSlice sl.peer none } =
            bs.releaseBlockSlice sl.peer := by
          simp [BlockSyncState.releaseBlockSlice, hheld, hstart]
        have hidle := find?_some htarget
        simp only [decide_eq_true_eq, isNone_iff_eq_none] at hidle
        simp only [hrelease]
        refine of_some (BlockSyncState.Apart.assign ((h bs hbs).release sl.peer) ?_) rfl
        exact hvacant bs hbs sl hsl hstalled.1 ⟨target, mem_of_find?_eq_some htarget, hidle⟩

variable (peer : Peer)

theorem dropPeer : SlicesApart (d.dropPeer peer) := by
  unfold Downloads.dropPeer
  split
  · exact h
  · exact (h.release peer).congr rfl

theorem handleDonePeerMsg : SlicesApart (d.handleDonePeerMsg peer) := by
  unfold Downloads.handleDonePeerMsg
  split
  · exact h
  next st _ =>
    have hcleared : SlicesApart (clearRequestedState { d with peerStates := update d.peerStates peer none } st) :=
      h.congr rfl
    exact hcleared.dropPeer peer

theorem handleBlockMsg (hash : Hash) : SlicesApart (d.handleBlockMsg env peer hash) := by
  unfold Downloads.handleBlockMsg
  dsimp only
  split
  · exact h.congr rfl
  · split
    · exact h.congr rfl
    · exact setProgress (h.congr rfl) peer

theorem handleNotFoundMsg (hashes : List Hash) : SlicesApart (d.handleNotFoundMsg peer hashes) := by
  unfold Downloads.handleNotFoundMsg
  dsimp only
  split
  · exact h.congr rfl
  · exact h.congr rfl

end

theorem requestQueued (queue : List Hash) (k : Nat) (h : SlicesApart d) :
    SlicesApart (Downloads.requestQueued env peer queue k d).1 := by
  induction queue generalizing k d with
  | nil => exact h
  | cons hash queue ih =>
    have hnext : SlicesApart (d.requestAnnounced env peer hash) := by
      unfold Downloads.requestAnnounced
      split
      · exact h
      · exact h.congr rfl
    unfold Downloads.requestQueued
    split
    · exact ih k h
    · split
      · exact hnext
      · exact ih _ hnext

theorem handleInvMsg (h : SlicesApart d) (ibdMode : Bool) (peer : Peer) (announced : List Hash) :
    SlicesApart (d.handleInvMsg env ibdMode peer announced) := by
  unfold Downloads.handleInvMsg
  split
  · exact h
  next st _ =>
    have hq := @requestQueued env d peer
      (st.requestQueue ++ if ibdMode then [] else announced.filter fun hash => !env.haveBlock hash) 0 h
    dsimp only
    split
    · exact hq
    · exact hq.congr rfl

end SlicesApart

end Downloads

/-! ## Runs -/

/-- Every slice that the step hands out starts where nobody holds one; a loop is looked at peer by peer. -/
def Orderly (d : Downloads) : DownloadStep → Prop
  | .startSync env peers =>
    Along (fun d peer => some (Downloads.blockSyncAddPeer env d peer)) (fun d peer => d.JoinsVacant env peer)
      { d with blockSync := some [] } peers
  | .blockSyncAddPeer env peer => d.JoinsVacant env peer
  | .fetchHeaderBlocks env peer => d.VacantFor env peer
  | .startParallelBlockDownload env peers order =>
    peers.take maxHeaderSyncPeers ≠ [] →
    Along (fun d peer => some (Downloads.fetchHeaderBlocks env d peer)) (fun d peer => d.VacantFor env peer)
      { d with
        blockSync := some (d.foldExistingSyncPeers env order (peers.take maxHeaderSyncPeers))
        blockSyncState := some
          { nextAssign := env.bestHeight + 1, sliceLen := maxBlockRequestWindow / maxHeaderSyncPeers } }
      (d.foldExistingSyncPeers env order (peers.take maxHeaderSyncPeers))
  | .blkDownload env =>
    Along
      (fun d peer => some (if (d.peerStates peer).all fun st => st.requestedBlocks.card ≥ minInFlightBlocks then d
        else Downloads.fetchHeaderBlocks env d peer))
      (fun d peer => d.TopUpVacant env peer) d (d.blockSync.getD [])
  | .reissueStaleBlockSlice env start => d.HandsOnVacant env start
  | .reissueStalledBlockPeers env =>
    Along (fun d peer => some (Downloads.reissueStalledBlockPeer env d peer)) (fun d peer => d.FreedVacant env peer) d
      (d.blockSync.getD [])
  | _ => True

instance (d : Downloads) (a : DownloadStep) : Decidable (Orderly d a) := by
  cases a <;> dsimp only [Orderly] <;> infer_instance

theorem Downloads.SlicesApart.step {d e : Downloads} {a : DownloadStep} (h : d.SlicesApart) (ha : Orderly d a)
    (hstep : downloadStep d a = some e) : e.SlicesApart := by
  cases a <;> obtain rfl := some_inj.1 hstep
  case newPeer peer syncCandidate => exact h.congr rfl
  case donePeer peer => exact h.handleDonePeerMsg peer
  case dropHeaderPeer peer => exact h.dropPeer peer
  case startSync env peers => exact foldl_invariant (fun _ _ => blockSyncAddPeer) (h.congr rfl) ha
  case blockSyncAddPeer env peer => exact h.blockSyncAddPeer ha
  case startParallelBlockDownload env peers order =>
    unfold Downloads.startParallelBlockDownload
    dsimp only
    split
    · exact h.congr rfl
    · exact foldl_invariant (fun _ _ => fetchHeaderBlocks) (of_some (.empty rfl rfl) rfl) (ha ‹_›)
  case fetchHeaderBlocks env peer => exact h.fetchHeaderBlocks ha
  case blkDownload env => exact foldl_invariant (fun _ _ => topUp) h ha
  case block env peer hash => exact h.handleBlockMsg peer hash
  case notFound peer hashes => exact h.handleNotFoundMsg peer hashes
  case inv env ibdMode peer announced => exact h.handleInvMsg ibdMode peer announced
  case reissueStaleBlockSlice env start => exact h.reissueStale ha
  case reissueStalledBlockPeers env => exact foldl_invariant (fun _ _ => reissueStalled) h ha
  case clearSyncPeer peer =>
    unfold Downloads.clearSyncPeer
    cases d.peerStates peer with
    | none => exact h
    | some st => exact h.congr rfl
  case resetDownloadState => exact fun _ hbs => absurd hbs nofun

/-- The heights of different peers' slices are different, and the list of slices names every slice that is held. -/
def SlicesDisjoint (bs : BlockSyncState) : Prop :=
  (∀ p q s t, bs.peerSlice p = some s → bs.peerSlice q = some t → p ≠ q →
    ∀ height, ¬ ((s.start ≤ height ∧ height < s.stop) ∧ t.start ≤ height ∧ height < t.stop)) ∧
  ∀ p s, bs.peerSlice p = some s → bs.slices.lookup s.start = some s

/-- In every run in which no slice is handed out inside one that is held, the slices are disjoint. -/
theorem slices_stay_disjoint {regtest : Bool} {as : List DownloadStep} {d : Downloads}
    (hok : Along downloadStep Orderly { regtest } as) (hr : run downloadStep { regtest } as = some d) :
    ∀ bs ∈ d.blockSyncState, SlicesDisjoint bs := by
  have hinit : Downloads.SlicesApart { regtest } := by rintro bs ⟨⟩
  have hapart : d.SlicesApart := run_invariant (I := Downloads.SlicesApart) (fun _ _ _ h ha hs => h.step ha hs) hinit hok hr
  intro bs hbs
  refine ⟨fun p q s t hs ht hne height => ?_, fun p s hs => ((hapart bs hbs).held p s hs).2.2⟩
  rintro ⟨⟨hs1, hs2⟩, ht1, ht2⟩
  have := (hapart bs hbs).apart p q s t hs ht hne
  omega

/-- More headers than two slices take. The header at height 8 cannot be read, so a message stops before it, as it does
after two hundred blocks. -/
def farAhead : BlockEnv := { twoAhead with bestHeaderHeight := 3000, maxPeerServeHeight := 3000 }

/-- Two peers are asked for the start of their slices. -/
def twoSlices : List DownloadStep :=
  [.newPeer 1 true, .newPeer 2 true, .startParallelBlockDownload farAhead [1, 2] [1, 2]]

theorem slices_stay_disjoint_two :
    ∃ d bs, run downloadStep { regtest := false } twoSlices = some d ∧ d.blockSyncState = some bs ∧
      bs.slices.keys = [1006, 6] ∧ SlicesDisjoint bs := by
  have hkeys : ((run downloadStep { regtest := false } twoSlices).bind (·.blockSyncState)).map (·.slices.keys) =
      some [1006, 6] := by decide +kernel
  obtain ⟨bs, hbs, hkeys⟩ := map_eq_some_iff.1 hkeys
  obtain ⟨d, hr, hbs⟩ := bind_eq_some_iff.1 hbs
  exact ⟨d, bs, hr, hbs, hkeys, slices_stay_disjoint (by decide +kernel) hr bs hbs⟩

/-- The first block of a slice is not found, and the next peer without a slice starts at it. -/
def notFoundFront : List DownloadStep :=
  [.newPeer 1 true, .newPeer 2 true, .startParallelBlockDownload farAhead [1] [1], .notFound 1 [106],
    .fetchHeaderBlocks farAhead 2]

/-- Both peers hold the same heights, and the slice of the first is no longer listed. -/
theorem slices_overlap :
    ∃ d bs, run downloadStep { regtest := false } notFoundFront = some d ∧ d.blockSyncState = some bs ∧
      bs.peerSlice 1 = some ⟨6, 1006, 1, 0⟩ ∧ bs.peerSlice 2 = some ⟨6, 1006, 2, 0⟩ ∧
      bs.slices.lookup 6 = some ⟨6, 1006, 2, 0⟩ ∧ ¬ SlicesDisjoint bs := by
  have hslices : ((run downloadStep { regtest := false } notFoundFront).bind (·.blockSyncState)).map
      (fun bs => (bs.peerSlice 1, bs.peerSlice 2, bs.slices.lookup 6)) =
      some (some ⟨6, 1006, 1, 0⟩, some ⟨6, 1006, 2, 0⟩, some ⟨6, 1006, 2, 0⟩) := by decide +kernel
  obtain ⟨bs, hbs, hslices⟩ := map_eq_some_iff.1 hslices
  obtain ⟨d, hr, hbs⟩ := bind_eq_some_iff.1 hbs
  simp only [Prod.mk.injEq] at hslices
  obtain ⟨h1, h2, hlookup⟩ := hslices
  refine ⟨d, bs, hr, hbs, h1, h2, hlookup, fun hdisjoint => ?_⟩
  exact hdisjoint.1 1 2 _ _ h1 h2 (by decide) 6 (by decide)

end IniNode.Netsync
