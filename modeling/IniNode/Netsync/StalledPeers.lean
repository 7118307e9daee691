import IniNode.Netsync.HonestPeers
/-!
# Freeing stalled peers

`reissueStalledBlockPeers` takes the requests of a stalled peer out of the set of all requests and asks the peer again. The
peer's own set is left as it is, so it is the set of what was asked just now only if all of that is asked again.
-/

open List Option Function

namespace IniNode.Netsync

open Lib

variable {env : BlockEnv} {requested : Finset Hash} {peer q : Peer} {hash : Hash} {d : Downloads} {bs : BlockSyncState}
  {st : PeerSyncState} {last : Nat} {msg : List Hash}

/-! ## The request for blocks -/

/-- The hashes that `requestBlocks` puts into the message, given the set of all requests. -/
def blockRequest (env : BlockEnv) (requestEnd : Int) : Nat → Int → Nat → Finset Hash → List Hash
  | 0, _, _, _ => []
  | n + 1, h, numRequested, requested =>
    match env.headerHashByHeight h with
    | none => []
    | some hash =>
      if !env.haveBlock hash ∧ hash ∈ requested then blockRequest env requestEnd n (h + 1) numRequested requested
      else if env.haveBlock hash then
        if numRequested ≥ blockInFlightTarget ∧ h < requestEnd then []
        else blockRequest env requestEnd n (h + 1) numRequested requested
      else
        hash ::
          if numRequested + 1 ≥ blockInFlightTarget ∧ h < requestEnd then []
          else blockRequest env requestEnd n (h + 1) (numRequested + 1) (insert hash requested)

namespace Downloads

/-- `buildBlockRequest`: the hashes of the getdata that `fetchHeaderBlocks` sends. -/
def buildBlockRequest (env : BlockEnv) (d : Downloads) (peer : Peer) : List Hash :=
  if env.bestHeaderHeight < env.forkHeight then []
  else
    match d.blockSyncState with
    | none =>
      blockRequest env env.requestEnd (env.requestEnd + 1 - env.cursorStart).toNat env.cursorStart 0 d.requestedBlocks
    | some bs =>
      match (d.heldSlice env bs peer).2 with
      | none => []
      | some sl =>
        let requestEnd := min (sl.stop - 1) env.requestEnd
        blockRequest env requestEnd (requestEnd + 1 - sl.start).toNat sl.start 0 d.requestedBlocks

end Downloads

/-! ## Assigning a slice -/

def BlockEnv.windowEnd (env : BlockEnv) : Int := min (env.bestHeight + maxBlockRequestWindow) env.bestHeaderHeight

namespace BlockSyncState

/-- Where a slice starts if one is handed out: at the block after the tip if that is in the window and nobody was asked for
it, else at the frontier. -/
def sliceStart (env : BlockEnv) (requested : Finset Hash) (bs : BlockSyncState) : Int :=
  if ¬ (env.headerHashByHeight (env.bestHeight + 1)).any (· ∈ requested) = true ∧
    env.bestHeight + 1 ≤ env.windowEnd then env.bestHeight + 1
  else max bs.nextAssign (env.bestHeight + 1)

def sliceStop (env : BlockEnv) (bs : BlockSyncState) (start : Int) : Int :=
  let stop := min (start + bs.sliceLen) (env.windowEnd + 1)
  (bs.nextSliceBeyond start).elim stop fun sl => min sl.start stop

/-- `e` is `bs` up to the frontier, the mark of the missing front block and the progress of the peer. -/
def Notes (peer : Peer) (bs e : BlockSyncState) : Prop :=
  ∃ nextAssign since height progress, (∀ q, q ≠ peer → progress q = bs.lastProgress q) ∧
    e = { bs with nextAssign, frontMissingSince := since, frontMissingHeight := height, lastProgress := progress }

/-- What the choice of the start writes, and the start that is chosen. -/
theorem frontStart_spec (windowEnd : Int) : Notes peer bs (bs.frontStart env requested windowEnd peer).1 ∧
      ∀ start ∈ (bs.frontStart env requested windowEnd peer).2,
        start = if ¬ (env.headerHashByHeight (env.bestHeight + 1)).any (· ∈ requested) = true ∧
            env.bestHeight + 1 ≤ windowEnd then
          env.bestHeight + 1 else bs.nextAssign := by
  have hother : ∀ q, q ≠ peer → update bs.lastProgress peer (some env.now) q = bs.lastProgress q :=
    fun q hq => update_of_ne hq ..
  by_cases hany : (env.headerHashByHeight (env.bestHeight + 1)).any (· ∈ requested) = true
  · simp only [frontStart, hany, if_true, not_true_eq_false, false_and, if_false]
    exact ⟨⟨_, _, _, _, fun _ _ => rfl, rfl⟩, fun start hstart => (some_inj.1 hstart).symm⟩
  by_cases hle : env.bestHeight + 1 ≤ windowEnd
  · have hmark : ∃ since height, (if bs.frontMissingHeight ≠ env.bestHeight + 1 then
        { bs with frontMissingHeight := env.bestHeight + 1, frontMissingSince := env.now } else bs) =
          { bs with frontMissingSince := since, frontMissingHeight := height } := by
      split <;> exact ⟨_, _, rfl⟩
    obtain ⟨since, height, hmark⟩ := hmark
    simp only [frontStart, hany, hle, hmark, if_true, not_false_eq_true, and_self, if_false, Bool.false_eq_true]
    cases env.stalledSince since with
    | true =>
      simp only [Bool.or_true, if_true]
      exact ⟨⟨_, _, _, _, hother, rfl⟩, fun start hstart => (some_inj.1 hstart).symm⟩
    | false =>
      simp only [Bool.or_false, Bool.false_eq_true, if_false]
      split
      · exact ⟨⟨_, _, _, _, fun _ _ => rfl, rfl⟩, fun start hstart => (some_inj.1 hstart).symm⟩
      · exact ⟨⟨_, _, _, _, fun _ _ => rfl, rfl⟩, fun start hstart => absurd hstart nofun⟩
  · simp only [frontStart, hany, hle, if_false, and_false, Bool.false_eq_true]
    exact ⟨⟨_, _, _, _, fun _ _ => rfl, rfl⟩, fun start hstart => (some_inj.1 hstart).symm⟩

theorem ahead_eq : (if bs.nextAssign ≤ env.bestHeight then { bs with nextAssign := env.bestHeight + 1 } else bs) =
    { bs with nextAssign := max bs.nextAssign (env.bestHeight + 1) } := by
  split
  next hle => rw [Int.max_eq_right (by omega)]
  next hlt => rw [Int.max_eq_left (by omega)]

/-- `assignBlockSlice` gives the peer a slice. -/
structure Hands (env : BlockEnv) (requested : Finset Hash) (peer : Peer) (bs : BlockSyncState) : Prop where
  free : bs.peerSlice peer = none
  ahead : ¬ (env.headerSyncing = true ∧ env.bestHeaderHeight - env.bestHeight < maxBlockRequestWindow)
  start : (frontStart env requested env.windowEnd peer
    { bs with nextAssign := max bs.nextAssign (env.bestHeight + 1) }).2.isSome = true
  window : bs.sliceStart env requested ≤ env.windowEnd
  stop : bs.sliceStart env requested < bs.sliceStop env (bs.sliceStart env requested)

theorem assignBlockSlice_cases : (bs.assignBlockSlice env requested peer).2 = false ∧ ¬ Hands env requested peer bs ∧
        Notes peer bs (bs.assignBlockSlice env requested peer).1 ∨
    (bs.assignBlockSlice env requested peer).2 = true ∧ Hands env requested peer bs ∧
      ∃ e, Notes peer bs e ∧ (bs.assignBlockSlice env requested peer).1 =
        { e with
          slices := bs.slices.insert (bs.sliceStart env requested)
            ⟨bs.sliceStart env requested, bs.sliceStop env (bs.sliceStart env requested), peer, env.now⟩
          peerSlice := update bs.peerSlice peer
            (some ⟨bs.sliceStart env requested, bs.sliceStop env (bs.sliceStart env requested), peer, env.now⟩) } := by
  have hrefl : Notes peer bs bs := ⟨_, _, _, _, fun _ _ => rfl, rfl⟩
  unfold assignBlockSlice
  split
  next hsome => exact .inl ⟨rfl, fun h => by simp [h.free] at hsome, hrefl⟩
  next hfree =>
  dsimp only
  split
  next hsync => exact .inl ⟨rfl, fun h => h.ahead hsync, hrefl⟩
  next hahead =>
  rw [ahead_eq]
  have hspec := @frontStart_spec env requested peer
    { bs with nextAssign := max bs.nextAssign (env.bestHeight + 1) } env.windowEnd
  have hsome := @Hands.start env requested peer bs
  have hands := @Hands.mk env requested peer bs (by simpa using hfree) hahead
  revert hspec hsome hands
  rw [BlockEnv.windowEnd]
  generalize frontStart env requested (min (env.bestHeight + maxBlockRequestWindow) env.bestHeaderHeight) peer
    { bs with nextAssign := max bs.nextAssign (env.bestHeight + 1) } = r
  rintro ⟨⟨nextAssign, since, height, progress, hprogress, hr⟩, hstart⟩ hsome hands
  obtain ⟨e, start⟩ := r
  dsimp only at hr
  subst hr
  have hnotes : Notes peer bs
      { bs with nextAssign, frontMissingSince := since, frontMissingHeight := height, lastProgress := progress } :=
    ⟨_, _, _, _, hprogress, rfl⟩
  cases start with
  | none => exact .inl ⟨rfl, fun h => absurd (hsome h) nofun, hnotes⟩
  | some start =>
    obtain rfl : start = bs.sliceStart env requested := hstart start rfl
    dsimp only
    split
    next hwindow => exact .inl ⟨rfl, fun h => Int.not_le.2 hwindow h.window, hnotes⟩
    next hwindow =>
    split
    next hstop => exact .inl ⟨rfl, fun h => Int.not_lt.2 hstop h.stop, hnotes⟩
    next hstop =>
      exact .inr ⟨rfl, hands rfl (Int.not_lt.1 hwindow) (Int.not_le.1 hstop), _, ⟨_, _, _, _, hprogress, rfl⟩, rfl⟩

theorem lastProgress_assignBlockSlice (hq : q ≠ peer) :
    (bs.assignBlockSlice env requested peer).1.lastProgress q = bs.lastProgress q := by
  obtain ⟨-, -, _, _, _, _, hprogress, heq⟩ | ⟨-, -, _, ⟨_, _, _, _, hprogress, rfl⟩, heq⟩ :=
    @assignBlockSlice_cases env requested peer bs
  · rw [heq]
    exact hprogress q hq
  · rw [heq]
    exact hprogress q hq

theorem peerSlice_releaseBlockSlice (bs : BlockSyncState) (peer : Peer) :
    (bs.releaseBlockSlice peer).peerSlice peer = none := by
  unfold releaseBlockSlice
  split
  next hnone => exact hnone
  next => exact update_self ..

theorem lastProgress_releaseBlockSlice (bs : BlockSyncState) (peer : Peer) :
    (bs.releaseBlockSlice peer).lastProgress = bs.lastProgress := by
  unfold releaseBlockSlice
  split <;> rfl

end BlockSyncState

/-- The peer is asked for the hashes, and only the slices and its progress change besides. -/
structure Asked (peer : Peer) (st : PeerSyncState) (msg : List Hash) (d e : Downloads) : Prop where
  own : e.peerStates peer = some { st with requestedBlocks := st.requestedBlocks ∪ msg.toFinset }
  others : ∀ q, q ≠ peer → e.peerStates q = d.peerStates q
  all : e.requestedBlocks = d.requestedBlocks ∪ msg.toFinset
  blockSync : e.blockSync = d.blockSync
  progress : ∀ q, q ≠ peer → e.blockSyncState.map (·.lastProgress q) = d.blockSyncState.map (·.lastProgress q)

namespace Asked

variable {e f : Downloads}

theorem refl (hst : d.peerStates peer = some st) : Asked peer st [] d d :=
  ⟨by simpa using hst, fun _ _ => rfl, by simp, rfl, fun _ _ => rfl⟩

theorem request (hst : d.peerStates peer = some st) (hash : Hash) : Asked peer st [hash] d (d.request peer hash) := by
  unfold Downloads.request
  rw [hst]
  refine ⟨?_, fun q hq => update_of_ne hq .., ?_, rfl, fun _ _ => rfl⟩
  · simp [Downloads.setPeer]
  · simp

theorem trans {msg' : List Hash} (h : Asked peer st msg d e)
    (h' : Asked peer { st with requestedBlocks := st.requestedBlocks ∪ msg.toFinset } msg' e f) :
    Asked peer st (msg ++ msg') d f where
  own := by
    rw [h'.own, toFinset_append, Finset.union_assoc]
  others q hq := (h'.others q hq).trans (h.others q hq)
  all := by rw [h'.all, h.all, toFinset_append, Finset.union_assoc]
  blockSync := h'.blockSync.trans h.blockSync
  progress q hq := (h'.progress q hq).trans (h.progress q hq)

theorem requestBlocks {requestEnd : Int} (n : Nat) (h : Int) (k : Nat) (hst : d.peerStates peer = some st) :
    Asked peer st (blockRequest env requestEnd n h k d.requestedBlocks) d
      (Downloads.requestBlocks env peer requestEnd n h k d).1 := by
  induction n generalizing h k d st with
  | zero => exact refl hst
  | succ n ih =>
    rw [Downloads.requestBlocks, blockRequest]
    cases env.headerHashByHeight h with
    | none => exact refl hst
    | some hash =>
      dsimp only
      by_cases hflight : (!env.haveBlock hash) = true ∧ hash ∈ d.requestedBlocks
      · rw [if_pos hflight, if_pos hflight]
        exact ih _ _ hst
      · rw [if_neg hflight, if_neg hflight]
        cases env.haveBlock hash with
        | true =>
          simp only [if_true]
          split
          · exact refl hst
          · exact ih _ _ hst
        | false =>
          simp only [Bool.false_eq_true, if_false]
          have hone : Asked peer st [hash] d (d.request peer hash) := request hst hash
          have hall : (d.request peer hash).requestedBlocks = insert hash d.requestedBlocks := by
            rw [hone.all]
            simp
          split
          · exact hone
          · have hrest := hone.trans (ih (h + 1) (k + 1) hone.own)
            rw [hall] at hrest
            exact hrest

theorem assignBlockSlice (hst : d.peerStates peer = some st) : Asked peer st [] d (d.assignBlockSlice env peer).1 := by
  unfold Downloads.assignBlockSlice
  split
  · exact refl hst
  next bs hbs =>
    refine ⟨by simpa using hst, fun _ _ => rfl, by simp, rfl, fun q hq => ?_⟩
    rw [hbs]
    exact congrArg some (BlockSyncState.lastProgress_assignBlockSlice hq)

theorem releaseBlockSlice (h : Asked peer st msg d e) (q : Peer) : Asked peer st msg d (e.releaseBlockSlice q) := by
  refine { h with progress := fun r hr => ?_ }
  rw [← h.progress r hr, Downloads.releaseBlockSlice, Option.map_map]
  congr 1
  funext bs
  exact congrFun (bs.lastProgress_releaseBlockSlice q) r

theorem heldSlice {bs : BlockSyncState} (hst : d.peerStates peer = some st) :
    Asked peer st [] d (d.heldSlice env bs peer).1 := by
  unfold Downloads.heldSlice
  split
  · exact refl hst
  · exact assignBlockSlice hst

theorem fetchHeaderBlocks (hst : d.peerStates peer = some st) :
    Asked peer st (d.buildBlockRequest env peer) d (d.fetchHeaderBlocks env peer) := by
  unfold Downloads.fetchHeaderBlocks Downloads.buildBlockRequest
  by_cases hfork : env.bestHeaderHeight < env.forkHeight
  · rw [if_pos hfork, if_pos hfork]
    exact refl hst
  rw [if_neg hfork, if_neg hfork]
  cases hbs : d.blockSyncState with
  | none => exact requestBlocks _ _ _ hst
  | some bs =>
    dsimp only
    have hheld : Asked peer st [] d (d.heldSlice env bs peer).1 := heldSlice hst
    generalize d.heldSlice env bs peer = r at hheld ⊢
    obtain ⟨e, slice⟩ := r
    cases slice with
    | none => exact hheld
    | some sl =>
      have hall : e.requestedBlocks = d.requestedBlocks := by simpa using hheld.all
      have hasked := hheld.trans (@requestBlocks env _ _ _ (min (sl.stop - 1) env.requestEnd)
        (min (sl.stop - 1) env.requestEnd + 1 - sl.start).toNat sl.start 0 hheld.own)
      rw [nil_append, hall] at hasked
      dsimp only
      split
      · exact hasked.releaseBlockSlice peer
      · exact hasked

end Asked

/-! ## Freeing a peer -/

/-- The peer is one that is freed: it owes blocks, and the time since its last one is a full stall window. -/
def Stalled (env : BlockEnv) (d : Downloads) (peer : Peer) : Prop :=
  (∃ st ∈ d.peerStates peer, st.requestedBlocks ≠ ∅) ∧
    ∃ bs ∈ d.blockSyncState, ∃ last ∈ bs.lastProgress peer, env.stalledSince last = true
deriving Decidable

def freed (d : Downloads) (peer : Peer) (st : PeerSyncState) : Downloads :=
  (d.clearRequestedState st).releaseBlockSlice peer

/-- The hashes of the getdata that a peer is sent when it is freed. -/
def freedRequest (env : BlockEnv) (d : Downloads) (peer : Peer) : List Hash :=
  (d.peerStates peer).elim [] fun st => (freed d peer st).buildBlockRequest env peer

/-- What the loop of `reissueStalledBlockPeers` sends to the peers that it frees. -/
def reissueMessages (env : BlockEnv) : List Peer → Downloads → List (Peer × List Hash)
  | [], _ => []
  | peer :: peers, d =>
    (if Stalled env d peer then [(peer, freedRequest env d peer)] else []) ++
      reissueMessages env peers (d.reissueStalledBlockPeer env peer)

theorem reissue_of_stalled (h : Stalled env d peer) (hst : d.peerStates peer = some st) :
    d.reissueStalledBlockPeer env peer = ((freed d peer st).fetchHeaderBlocks env peer).setProgress env peer := by
  obtain ⟨⟨st', hst', hne⟩, bs, hbs, last, hlast, hold⟩ := h
  obtain rfl := some_inj.1 (hst.symm.trans hst')
  unfold Downloads.reissueStalledBlockPeer
  simp only [mem_def] at hbs hlast
  simp only [hbs, hst, if_neg hne, hlast, hold, Bool.not_true, Bool.false_eq_true, if_false]
  rfl

/-- The turn of a peer that is not freed at most starts its clock. -/
theorem reissue_of_not_stalled (h : ¬ Stalled env d peer) :
    d.reissueStalledBlockPeer env peer = d ∨ d.reissueStalledBlockPeer env peer = d.setProgress env peer := by
  unfold Downloads.reissueStalledBlockPeer
  split
  next bs st hbs hst =>
    split
    · exact .inl rfl
    next hne =>
      split
      · exact .inr rfl
      next last hlast =>
        split
        · exact .inl rfl
        next hold => exact absurd ⟨⟨st, hst, hne⟩, bs, hbs, last, hlast, by simpa using hold⟩ h
  · exact .inl rfl

theorem not_stalled_setProgress (d : Downloads) : ¬ Stalled env (d.setProgress env peer) peer := by
  rintro ⟨-, bs, hbs, last, hlast, hold⟩
  obtain ⟨bs, -, rfl⟩ := map_eq_some_iff.1 hbs
  have hlast : update bs.lastProgress peer (some env.now) peer = some last := hlast
  rw [update_self, some_inj] at hlast
  rw [← hlast, BlockEnv.stalledSince, Nat.sub_self] at hold
  exact absurd hold (by decide)

/-- A peer is freed at most once. -/
theorem not_stalled_reissue : ¬ Stalled env (d.reissueStalledBlockPeer env peer) peer := by
  by_cases h : Stalled env d peer
  · obtain ⟨st, hst, -⟩ := h.1
    rw [reissue_of_stalled h hst]
    exact not_stalled_setProgress _
  · obtain heq | heq := reissue_of_not_stalled h
    · rwa [heq]
    · rw [heq]
      exact not_stalled_setProgress d

theorem progress_setProgress (hq : q ≠ peer) :
    (d.setProgress env peer).blockSyncState.map (·.lastProgress q) = d.blockSyncState.map (·.lastProgress q) := by
  rw [Downloads.setProgress, Option.map_map]
  congr 1
  funext bs
  exact update_of_ne hq ..

theorem reissue_other (hq : q ≠ peer) : (d.reissueStalledBlockPeer env peer).peerStates q = d.peerStates q ∧
      (d.reissueStalledBlockPeer env peer).blockSyncState.map (·.lastProgress q) =
        d.blockSyncState.map (·.lastProgress q) := by
  by_cases h : Stalled env d peer
  · obtain ⟨st, hst, -⟩ := h.1
    rw [reissue_of_stalled h hst]
    have hasked : Asked peer st _ (freed d peer st) _ := @Asked.fetchHeaderBlocks env _ _ _ hst
    refine ⟨hasked.others q hq, (progress_setProgress hq).trans ((hasked.progress q hq).trans ?_)⟩
    rw [freed, Downloads.releaseBlockSlice, Option.map_map]
    congr 1
    funext bs
    exact congrFun (bs.lastProgress_releaseBlockSlice peer) q
  · obtain heq | heq := reissue_of_not_stalled h
    · rw [heq]
      exact ⟨rfl, rfl⟩
    · rw [heq]
      exact ⟨rfl, progress_setProgress hq⟩

theorem stalled_reissue_iff (hq : q ≠ peer) : Stalled env (d.reissueStalledBlockPeer env peer) q ↔ Stalled env d q := by
  obtain ⟨hstate, hprogress⟩ := @reissue_other env peer q d hq
  have hclock : ∀ e : Downloads,
    (∃ bs ∈ e.blockSyncState, ∃ last ∈ bs.lastProgress q, env.stalledSince last = true) ↔
      ∃ progress ∈ e.blockSyncState.map (·.lastProgress q), ∃ last ∈ progress, env.stalledSince last = true :=
        fun e => by
    simp [map_eq_some_iff]
  rw [Stalled, Stalled, hstate, hclock, hclock d, hprogress]

/-- Once a peer had its turn its requests stay what they are. -/
theorem peerStates_foldl_reissue (hn : ¬ Stalled env d q) (peers : List Peer) :
    (peers.foldl (Downloads.reissueStalledBlockPeer env) d).peerStates q = d.peerStates q := by
  induction peers generalizing d with
  | nil => rfl
  | cons peer peers ih =>
    rw [foldl_cons]
    by_cases hq : q = peer
    · subst hq
      rw [ih not_stalled_reissue]
      obtain heq | heq := reissue_of_not_stalled hn
      · rw [heq]
      · rw [heq]
        rfl
    · rw [ih fun h => hn ((stalled_reissue_iff hq).1 h)]
      exact (reissue_other hq).1

/-- The requests of a freed peer: what it was asked for before, and what it is asked for now. -/
theorem own_of_stalled (h : Stalled env d peer) (hst : d.peerStates peer = some st) :
    (d.reissueStalledBlockPeer env peer).peerStates peer =
        some { st with requestedBlocks := st.requestedBlocks ∪ (freedRequest env d peer).toFinset } ∧
      (d.reissueStalledBlockPeer env peer).requestedBlocks =
        (d.requestedBlocks \ st.requestedBlocks) ∪ (freedRequest env d peer).toFinset := by
  have hasked : Asked peer st _ (freed d peer st) _ := @Asked.fetchHeaderBlocks env _ _ _ hst
  have hmsg : freedRequest env d peer = (freed d peer st).buildBlockRequest env peer := by rw [freedRequest, hst]; rfl
  rw [reissue_of_stalled h hst, hmsg]
  exact ⟨hasked.own, hasked.all⟩

/-! ## What the message asks for -/

/-- The blocks at `i` heights from `start` that are neither there nor requested. -/
def missing (env : BlockEnv) (requested : Finset Hash) (start : Int) (i : Nat) : Finset Hash :=
  ((range i).filterMap fun j : Nat => env.headerHashByHeight (start + (j : Int))).toFinset.filter
    fun hash => env.haveBlock hash = false ∧ hash ∉ requested

/-- The block is at one of `n` heights from `start` and is missing, the heights up to it are known, and with the blocks that
are missing below it the message, which holds `k` hashes already, is not full. -/
def Wanted (env : BlockEnv) (requested : Finset Hash) (k : Nat) (start : Int) (n : Nat) (hash : Hash) : Prop :=
  ∃ i < n, env.headerHashByHeight (start + (i : Int)) = some hash ∧ env.haveBlock hash = false ∧ hash ∉ requested ∧
    (∀ j < i, (env.headerHashByHeight (start + (j : Int))).isSome = true) ∧
    k + (missing env requested start i).card < blockInFlightTarget

section Message

variable {requestEnd start : Int} {first : Hash} {n k : Nat}

theorem missing_zero (start : Int) : missing env requested start 0 = ∅ := rfl

theorem not_wanted_zero : ¬ Wanted env requested k start 0 hash := fun ⟨i, hi, _⟩ => Nat.not_lt_zero i hi

theorem missing_succ (start : Int) (i : Nat) (hfirst : env.headerHashByHeight start = some first) :
    missing env requested start (i + 1) =
      if env.haveBlock first = false ∧ first ∉ requested
        then insert first (missing env (insert first requested) (start + 1) i)
      else missing env requested (start + 1) i := by
  have hlist : (range (i + 1)).filterMap (fun j : Nat => env.headerHashByHeight (start + (j : Int))) =
      first :: (range i).filterMap fun j : Nat => env.headerHashByHeight (start + 1 + (j : Int)) := by
    have hzero : start + ((0 : Nat) : Int) = start := Int.add_zero start
    have hshift : (fun j : Nat => env.headerHashByHeight (start + (j : Int))) ∘ Nat.succ =
        fun j : Nat => env.headerHashByHeight (start + 1 + (j : Int)) := by
      funext j
      show env.headerHashByHeight (start + ((j + 1 : Nat) : Int)) = _
      congr 1
      omega
    rw [range_succ_eq_map, filterMap_cons, filterMap_map, hshift, hzero, hfirst]
  ext x
  rw [missing, hlist]
  split
  next hmiss =>
    simp only [missing, toFinset_cons, Finset.mem_filter, Finset.mem_insert, List.mem_toFinset]
    by_cases hx : x = first
    · simp [hx, hmiss]
    · simp [hx]
  next hmiss =>
    simp only [missing, toFinset_cons, Finset.mem_filter, Finset.mem_insert, List.mem_toFinset]
    constructor
    · rintro ⟨rfl | hx, hcond⟩
      · exact absurd hcond hmiss
      · exact ⟨hx, hcond⟩
    · rintro ⟨hx, hcond⟩
      exact ⟨.inr hx, hcond⟩

section

variable (hfirst : env.headerHashByHeight start = some first)

include hfirst

theorem wanted_succ :
    Wanted env requested k start (n + 1) hash ↔
      (first = hash ∧ env.haveBlock hash = false ∧ hash ∉ requested ∧ k < blockInFlightTarget) ∨
        ∃ i < n, env.headerHashByHeight (start + 1 + (i : Int)) = some hash ∧ env.haveBlock hash = false ∧
          hash ∉ requested ∧ (∀ j < i, (env.headerHashByHeight (start + 1 + (j : Int))).isSome = true) ∧
          k + (missing env requested start (i + 1)).card < blockInFlightTarget := by
  have hshift : ∀ j : Nat, start + ((j + 1 : Nat) : Int) = start + 1 + (j : Int) := fun j => by omega
  have hzero : start + ((0 : Nat) : Int) = start := Int.add_zero start
  simp only [Wanted, Nat.exists_lt_succ_left, Nat.forall_lt_succ_left, hshift, hzero, hfirst, missing_zero,
    Finset.card_empty,
    isSome_some, Option.some.injEq, Nat.not_lt_zero, false_imp_iff, implies_true, true_and, Nat.add_zero]

theorem wanted_succ_of_skip
    (hskip : ¬ (env.haveBlock first = false ∧ first ∉ requested)) :
    Wanted env requested k start (n + 1) hash ↔ Wanted env requested k (start + 1) n hash := by
  simp only [wanted_succ hfirst, missing_succ _ _ hfirst, if_neg hskip]
  refine or_iff_right ?_
  rintro ⟨rfl, hhave, hreq, -⟩
  exact hskip ⟨hhave, hreq⟩

theorem wanted_succ_of_request
    (hmiss : env.haveBlock first = false ∧ first ∉ requested) (hk : k < blockInFlightTarget) :
    Wanted env requested k start (n + 1) hash ↔ hash = first ∨ Wanted env (insert first requested) (k + 1)
    (start + 1) n hash := by
  have hcard : ∀ i, (missing env requested start (i + 1)).card =
      (missing env (insert first requested) (start + 1) i).card + 1 := by
    intro i
    rw [missing_succ start i hfirst, if_pos hmiss, Finset.card_insert_of_notMem]
    simp [missing]
  by_cases hne : hash = first
  · simp [wanted_succ hfirst, hne, hmiss, hk]
  · rw [wanted_succ hfirst, Wanted]
    simp [hcard, hne, Ne.symm hne, Nat.add_assoc, Nat.add_comm 1]

end

/-- The message asks for what is wanted. -/
theorem mem_blockRequest (hn : n = (requestEnd + 1 - start).toNat) (hk : k < blockInFlightTarget) :
    hash ∈ blockRequest env requestEnd n start k requested ↔ Wanted env requested k start n hash := by
  induction n generalizing start k requested with
  | zero => exact ⟨nofun, fun h => absurd h not_wanted_zero⟩
  | succ n ih =>
    have hnext : n = (requestEnd + 1 - (start + 1)).toNat := by omega
    rw [blockRequest]
    cases hfirst : env.headerHashByHeight start with
    | none =>
      refine ⟨nofun, ?_⟩
      rintro ⟨i, -, hhash, -, -, hknown, -⟩
      have hzero : start + ((0 : Nat) : Int) = start := Int.add_zero start
      cases i with
      | zero =>
        rw [hzero, hfirst] at hhash
        cases hhash
      | succ i =>
        have := hknown 0 (Nat.succ_pos i)
        rw [hzero, hfirst] at this
        cases this
    | some first =>
      dsimp only
      by_cases hmiss : env.haveBlock first = false ∧ first ∉ requested
      · rw [wanted_succ_of_request hfirst hmiss hk, if_neg (by simp [hmiss]), if_neg (by simp [hmiss.1]), mem_cons]
        refine or_congr_right ?_
        split
        next hfull =>
          refine ⟨nofun, ?_⟩
          rintro ⟨i, -, -, -, -, -, hroom⟩
          omega
        next hroom =>
          by_cases hk' : k + 1 < blockInFlightTarget
          · exact ih hnext hk'
          · -- the message is full at the last height
            obtain rfl : n = 0 := by omega
            exact ⟨nofun, fun h => absurd h not_wanted_zero⟩
      · rw [wanted_succ_of_skip hfirst hmiss, ← ih hnext hk]
        split
        · rfl
        next hflight =>
          have hhave : env.haveBlock first = true := by
            by_contra hhave
            rw [Bool.not_eq_true] at hhave
            exact hmiss ⟨hhave, fun hreq => hflight ⟨by simp [hhave], hreq⟩⟩
          rw [if_pos hhave, if_neg fun h => absurd h.1 (Nat.not_le.2 hk)]

end Message

/-! ## The slice that is handed out -/

namespace BlockSyncState

/-- Whether a stalled peer without a slice is given one: the headers are far enough ahead, and either somebody was asked for
the block after the tip or nobody was for a full stall window. -/
def Handed (env : BlockEnv) (requested : Finset Hash) (bs : BlockSyncState) : Prop :=
  ¬ (env.headerSyncing = true ∧ env.bestHeaderHeight - env.bestHeight < maxBlockRequestWindow) ∧
    ((env.headerHashByHeight (env.bestHeight + 1)).any (· ∈ requested) = true ∨
      bs.frontMissingHeight = env.bestHeight + 1 ∧ env.stalledSince bs.frontMissingSince = true) ∧
    bs.sliceStart env requested ≤ env.windowEnd ∧
    bs.sliceStart env requested < bs.sliceStop env (bs.sliceStart env requested)

/-- When a stalled peer is given a start: the window is not empty then, or the start lies beyond it. -/
theorem isSome_frontStart_of_stalled {windowEnd : Int} (hlast : bs.lastProgress peer = some last)
    (hold : env.stalledSince last = true) :
    (bs.frontStart env requested windowEnd peer).2.isSome = true ↔
      (env.headerHashByHeight (env.bestHeight + 1)).any (· ∈ requested) = true ∨
        (bs.frontMissingHeight = env.bestHeight + 1 ∧ env.stalledSince bs.frontMissingSince = true) ∨
        windowEnd < env.bestHeight + 1 := by
  have hnow : env.stalledSince env.now = false := by
    rw [BlockEnv.stalledSince, Nat.sub_self]
    rfl
  unfold frontStart
  dsimp only
  by_cases hany : (env.headerHashByHeight (env.bestHeight + 1)).any (· ∈ requested) = true
  · simp [hany]
  rw [if_neg hany]
  by_cases hle : env.bestHeight + 1 ≤ windowEnd
  · rw [if_pos hle]
    by_cases hheight : bs.frontMissingHeight = env.bestHeight + 1
    · rw [if_neg (not_not.2 hheight)]
      cases hmissing : env.stalledSince bs.frontMissingSince <;> simp [hlast, hold, hheight, hany, Int.not_lt.2 hle]
    · rw [if_pos hheight]
      simp [hlast, hold, hheight, hnow, hany, Int.not_lt.2 hle]
  · simp [hle, Int.not_le.1 hle]

theorem hands_of_stalled (hnone : bs.peerSlice peer = none) (hlast : bs.lastProgress peer = some last)
    (hold : env.stalledSince last = true) : Hands env requested peer bs ↔ Handed env requested bs := by
  have hsome := @isSome_frontStart_of_stalled env requested peer
    { bs with nextAssign := max bs.nextAssign (env.bestHeight + 1) } last env.windowEnd hlast hold
  constructor
  · rintro ⟨-, hahead, hstart, hwindow, hstop⟩
    refine ⟨hahead, ?_, hwindow, hstop⟩
    obtain h | h | h := hsome.1 hstart
    · exact .inl h
    · exact .inr h
    · -- the frontier lies beyond the window then
      rw [sliceStart, if_neg fun h' => Int.not_le.2 h h'.2] at hwindow
      omega
  · rintro ⟨hahead, hstart, hwindow, hstop⟩
    exact ⟨hnone, hahead, hsome.2 (hstart.imp_right .inl), hwindow, hstop⟩

end BlockSyncState

/-! ## When a freed peer is really free -/

/-- What freeing is to do: each freed peer's own requests are those it was just sent, and no request that another peer has
still to answer is given up. -/
structure ReallyFrees (env : BlockEnv) (d : Downloads) : Prop where
  own : ∀ peer msg, (peer, msg) ∈ reissueMessages env (d.blockSync.getD []) d →
    ∃ st, (d.reissueStalledBlockPeers env).peerStates peer = some st ∧ st.requestedBlocks = msg.toFinset
  owed : ∀ peer msg, (peer, msg) ∈ reissueMessages env (d.blockSync.getD []) d → ∀ q, q ≠ peer →
    (d.peerStates q).isSome = true → ∀ hash ∈ (d.talk q).owed, hash ∈ d.requestedBlocks →
      hash ∈ (d.reissueStalledBlockPeers env).requestedBlocks

/-- A block of the peer is asked of it again: the peer is given a slice, and the block is wanted in it. -/
def AskedAgain (env : BlockEnv) (bs : BlockSyncState) (requested : Finset Hash) (hash : Hash) : Prop :=
  env.forkHeight ≤ env.bestHeaderHeight ∧ bs.Handed env requested ∧
    Wanted env requested 0 (bs.sliceStart env requested)
      (min (bs.sliceStop env (bs.sliceStart env requested) - 1) env.requestEnd + 1 - bs.sliceStart env requested).toNat hash

/-- Every block of the peer is asked of it again, once its requests are given up and its slice is released. -/
def AllAskedAgain (env : BlockEnv) (d : Downloads) (peer : Peer) : Prop :=
  ∀ bs ∈ d.blockSyncState, ∀ st ∈ d.peerStates peer, ∀ hash ∈ st.requestedBlocks,
    AskedAgain env (bs.releaseBlockSlice peer) (d.requestedBlocks \ st.requestedBlocks) hash

theorem mem_freedRequest (hbs : d.blockSyncState = some bs) (hst : d.peerStates peer = some st)
    (hlast : bs.lastProgress peer = some last) (hold : env.stalledSince last = true) :
    hash ∈ freedRequest env d peer ↔ AskedAgain env (bs.releaseBlockSlice peer)
    (d.requestedBlocks \ st.requestedBlocks) hash := by
  have hfree : (freed d peer st).blockSyncState = some (bs.releaseBlockSlice peer) := by
    show d.blockSyncState.map _ = _
    rw [hbs]
    rfl
  have hnone := bs.peerSlice_releaseBlockSlice peer
  have hclock : (bs.releaseBlockSlice peer).lastProgress peer = some last := by rw [bs.lastProgress_releaseBlockSlice, hlast]
  have hhanded := @BlockSyncState.hands_of_stalled env (d.requestedBlocks \ st.requestedBlocks) peer _ last hnone hclock hold
  have hcases := @BlockSyncState.assignBlockSlice_cases env (d.requestedBlocks \ st.requestedBlocks) peer
    (bs.releaseBlockSlice peer)
  have hheld : ((freed d peer st).heldSlice env (bs.releaseBlockSlice peer) peer).2 =
      if ((bs.releaseBlockSlice peer).assignBlockSlice env (d.requestedBlocks \ st.requestedBlocks) peer).2 then
        ((bs.releaseBlockSlice peer).assignBlockSlice env (d.requestedBlocks \ st.requestedBlocks) peer).1.peerSlice peer
      else none := by
    simp only [Downloads.heldSlice, hnone, Downloads.assignBlockSlice, hfree, bind_some]
    rfl
  rw [freedRequest, hst, elim_some, Downloads.buildBlockRequest, hfree, AskedAgain]
  by_cases hfork : env.bestHeaderHeight < env.forkHeight
  · rw [if_pos hfork]
    exact ⟨nofun, fun h => absurd hfork (Int.not_lt.2 h.1)⟩
  rw [if_neg hfork]
  dsimp only
  rw [hheld, ← hhanded]
  obtain ⟨hfalse, hnot, -⟩ | ⟨htrue, hands, e, -, hresult⟩ := hcases
  · rw [hfalse]
    exact ⟨nofun, fun h => absurd h.2.1 hnot⟩
  · rw [htrue, if_pos rfl, hresult]
    dsimp only
    rw [update_self]
    dsimp only
    exact (mem_blockRequest rfl (by decide)).trans ⟨fun h => ⟨Int.not_lt.1 hfork, hands, h⟩, fun h => h.2.2⟩

/-- A message of the loop goes to a peer that was stalled before it, and its requests in the end are its old ones and those
of the message. -/
theorem mem_reissueMessages {peers : List Peer} (h : (peer, msg) ∈ reissueMessages env peers d) :
    Stalled env d peer ∧ ∃ st, d.peerStates peer = some st ∧
      (peers.foldl (Downloads.reissueStalledBlockPeer env) d).peerStates peer =
        some { st with requestedBlocks := st.requestedBlocks ∪ msg.toFinset } := by
  induction peers generalizing d with
  | nil => exact absurd h not_mem_nil
  | cons q peers ih =>
    rw [reissueMessages, mem_append] at h
    rw [foldl_cons]
    obtain h | h := h
    · split at h
      next hstalled =>
        obtain ⟨rfl, rfl⟩ := Prod.mk.inj (mem_singleton.1 h)
        obtain ⟨st, hst, -⟩ := hstalled.1
        refine ⟨hstalled, st, hst, ?_⟩
        rw [peerStates_foldl_reissue not_stalled_reissue]
        exact (own_of_stalled hstalled hst).1
      next => exact absurd h not_mem_nil
    · obtain ⟨hstalled, st, hst, hend⟩ := ih h
      -- a peer that had its turn gets no second message
      have hq : peer ≠ q := fun heq => not_stalled_reissue (heq ▸ hstalled)
      exact ⟨(stalled_reissue_iff hq).1 hstalled, st, (reissue_other hq).1.symm.trans hst, hend⟩

/-- The message to a stalled peer asks for all of its blocks again. -/
theorem subset_freedRequest_iff (h : Stalled env d peer) (hst : d.peerStates peer = some st) :
    st.requestedBlocks ⊆ (freedRequest env d peer).toFinset ↔ AllAskedAgain env d peer := by
  obtain ⟨-, bs, hbs, last, hlast, hold⟩ := h
  have hmem := fun hash => @mem_freedRequest env peer hash d bs st last hbs hst hlast hold
  unfold AllAskedAgain
  rw [mem_def.1 hbs, hst]
  simp [← hmem, Finset.subset_iff]

theorem forall_reissueMessages_iff {peers : List Peer} :
    (∀ peer msg, (peer, msg) ∈ reissueMessages env peers d → ∀ st, d.peerStates peer = some st →
      st.requestedBlocks ⊆ msg.toFinset) ↔ Along (fun d peer => some (Downloads.reissueStalledBlockPeer env d peer))
        (fun d peer => Stalled env d peer → AllAskedAgain env d peer) d peers := by
  induction peers generalizing d with
  | nil => exact ⟨fun _ => trivial, fun _ _ _ h => absurd h not_mem_nil⟩
  | cons q peers ih =>
    rw [along_foldl_cons, ← ih]
    simp only [reissueMessages, mem_append]
    constructor
    · intro hall
      refine ⟨fun hstalled => ?_, fun peer msg hmsg st hst => ?_⟩
      · obtain ⟨st, hst, -⟩ := hstalled.1
        refine (subset_freedRequest_iff hstalled hst).1 (hall q _ (.inl ?_) st hst)
        rw [if_pos hstalled]
        exact mem_singleton.2 rfl
      · have hq : peer ≠ q := fun heq => not_stalled_reissue (heq ▸ (mem_reissueMessages hmsg).1)
        exact hall peer msg (.inr hmsg) st ((reissue_other hq).1.symm.trans hst)
    · rintro ⟨hhead, htail⟩ peer msg (hmsg | hmsg) st hst
      · split at hmsg
        next hstalled =>
          obtain ⟨rfl, rfl⟩ := Prod.mk.inj (mem_singleton.1 hmsg)
          exact (subset_freedRequest_iff hstalled hst).2 (hhead hstalled)
        next => exact absurd hmsg not_mem_nil
      · have hq : peer ≠ q := fun heq => not_stalled_reissue (heq ▸ (mem_reissueMessages hmsg).1)
        exact htail peer msg hmsg st ((reissue_other hq).1.trans hst)

/-- When all blocks are asked for again, no request is given up. -/
theorem requestedBlocks_mono (hstep : Stalled env d peer → AllAskedAgain env d peer) :
    d.requestedBlocks ⊆ (d.reissueStalledBlockPeer env peer).requestedBlocks := by
  by_cases hstalled : Stalled env d peer
  · obtain ⟨st, hst, -⟩ := hstalled.1
    have hagain := (subset_freedRequest_iff hstalled hst).2 (hstep hstalled)
    rw [(own_of_stalled hstalled hst).2]
    intro hash hmem
    by_cases hown : hash ∈ st.requestedBlocks
    · exact Finset.mem_union_right _ (hagain hown)
    · exact Finset.mem_union_left _ (Finset.mem_sdiff.2 ⟨hmem, hown⟩)
  · obtain heq | heq := reissue_of_not_stalled hstalled
    · rw [heq]
    · rw [heq]
      exact Finset.Subset.refl _

/-- A freed peer is really free if, at its turn, every block that it was asked for is asked of it again: the peer is handed a
slice, and the block is missing in it and fits into the message. -/
theorem stalled_peers_freed_iff (env : BlockEnv) (d : Downloads) : ReallyFrees env d ↔
      Along (fun d peer => some (Downloads.reissueStalledBlockPeer env d peer))
        (fun d peer => Stalled env d peer → AllAskedAgain env d peer) d (d.blockSync.getD []) := by
  constructor
  · intro hfrees
    refine forall_reissueMessages_iff.1 fun peer msg hmsg st hst => ?_
    obtain ⟨st', hend, hown⟩ := hfrees.own peer msg hmsg
    obtain ⟨-, st'', hst'', hend'⟩ := mem_reissueMessages hmsg
    obtain rfl := some_inj.1 (hst.symm.trans hst'')
    obtain rfl := some_inj.1 (hend.symm.trans hend')
    exact Finset.union_eq_right.1 hown
  · intro halong
    have hagain := forall_reissueMessages_iff.2 halong
    refine ⟨fun peer msg hmsg => ?_, fun _ _ _ _ _ _ hash _ hmem => ?_⟩
    · obtain ⟨-, st, hst, hend⟩ := mem_reissueMessages hmsg
      exact ⟨_, hend, Finset.union_eq_right.2 (hagain peer msg hmsg st hst)⟩
    · have hmono : d.requestedBlocks ⊆ (d.reissueStalledBlockPeers env).requestedBlocks :=
        foldl_invariant (I := fun e => d.requestedBlocks ⊆ e.requestedBlocks)
          (fun _ _ hsub hok => hsub.trans (requestedBlocks_mono hok)) (Finset.Subset.refl _) halong
      exact hmono hmem

/-- A peer is asked for two blocks and sends the first. -/
def halfSent : List DownloadStep :=
  [.newPeer 1 true, .startParallelBlockDownload twoAhead [1] [1], .block twoAhead 1 106]

/-- The first block is connected, and a stall window has passed. -/
def oneAhead : BlockEnv :=
  { twoAhead with now := 30000, bestHeight := 6, forkHeight := 6, haveBlock := fun hash => hash ≤ 106 }

/-- The peer is freed: nothing is sent to it, and its own request is the old one. -/
theorem stalled_peer_not_freed : ∃ d, run downloadStep { regtest := false } halfSent = some d ∧
      reissueMessages oneAhead (d.blockSync.getD []) d = [(1, [])] ∧
      ((d.reissueStalledBlockPeers oneAhead).peerStates 1).map (·.requestedBlocks) = some {107} ∧
      ¬ ReallyFrees oneAhead d := by
  refine ⟨_, rfl, by decide +kernel, by decide +kernel, fun hfrees => ?_⟩
  obtain ⟨st, hst, hown⟩ := hfrees.own 1 [] (by decide +kernel)
  have hrequested := congrArg (Option.map (·.requestedBlocks)) hst
  rw [map_some, hown] at hrequested
  revert hrequested
  decide +kernel

end IniNode.Netsync
