import IniNode.Netsync.Responses
/-!
# What every handler keeps

The functions of the header download change the ranges, the history and the chain in a few ways only. What each of these
changes keeps is kept by every function and by every event: `RangeStable` is about handing out ranges and starting a
download, `Stable` adds the answers, the cuts and the calls of the chain.
-/

open IniNode.Lib

namespace IniNode.Netsync

variable {χ : Type}

theorem of_fst {α β : Type} {I : α → Prop} {x : α × β} {a : α} {b : β} (h : I x.1) (hx : x = (a, b)) : I a := by
  rwa [hx] at h

/-- What starting a download over keeps. -/
structure Starts (A : ChainApi χ) (I : Manager χ → Prop) : Prop where
  frame {s : Manager χ} {peerStates syncPeer ibdMode reqWindow frontUnreachable} :
    I s → I { s with peerStates := peerStates, syncPeer := syncPeer, ibdMode := ibdMode, reqWindow := reqWindow,
                     frontUnreachable := frontUnreachable }
  stop {s : Manager χ} : I s → I { s with headerSync := none }
  fetchHeaders {s : Manager χ} {e} : I s → I (s.fetchHeaders A e)
  dropHeaderPeer {s : Manager χ} {e peer} : I s → I (s.dropHeaderPeer A e peer)
  headerSyncAddPeer {s : Manager χ} {e peer} : I s → I (s.headerSyncAddPeer A e peer)

/-- And what cutting the chain keeps. -/
structure Restarts (A : ChainApi χ) (I : Manager χ → Prop) : Prop extends Starts A I where
  breaker {s : Manager χ} (depth height count) : I s →
    I { s with fabricatedRollbackDepth := depth, fabricatedRollbackHeight := height, fabricatedRollbackCount := count }
  header {s : Manager χ} {h noPoWCheck c} : I s → (A.processBlockHeader s.chain h noPoWCheck).1 = c →
    I { s with chain := c }
  rollback {s : Manager χ} (height) : I s → I { s with chain := (A.invalidateHeaderChain s.chain height).1 }

/-- Handing ranges out and back keeps the property. -/
structure RangeStable (I : Manager χ → Prop) : Prop where
  /-- The fields that are about neither ranges, answers, the circuit breaker nor the chain. -/
  other {s : Manager χ}
    {peerStates lastBlock nextSync headerSync syncPeer ibdMode reqWindow frontUnreachable appliedRanges} :
    I s → I { s with peerStates := peerStates, lastBlock := lastBlock, nextSync := nextSync, headerSync := headerSync,
                     syncPeer := syncPeer, ibdMode := ibdMode, reqWindow := reqWindow,
                     frontUnreachable := frontUnreachable, appliedRanges := appliedRanges }
  /-- A download drops entries of its maps at most. -/
  shrink {s : Manager χ} {id hs} : I s →
    (∀ k r, hs.ranges.lookup k = some r → (s.syncAt id).ranges.lookup k = some r) →
    (∀ p r, hs.peerRange.lookup p = some r → (s.syncAt id).peerRange.lookup p = some r) → I (s.setSync id hs)
  /-- A new range belongs to the peer that gets it. -/
  launch {s : Manager χ} {id peer rng hs} : I s → rng.peer = peer → rng.confirmed = true →
    (∀ k r, hs.ranges.lookup k = some r → r = s.nextRange ∨ (s.syncAt id).ranges.lookup k = some r) →
    (∀ p r, hs.peerRange.lookup p = some r →
      p = peer ∧ r = s.nextRange ∨ (s.syncAt id).peerRange.lookup p = some r) →
    I (({ s with nextRange := s.nextRange + 1 }.setRange s.nextRange rng).setSync id hs)
  /-- An unconfirmed front goes to a second peer. -/
  second {s : Manager χ} {id peer r} : I s → (s.syncAt id).ranges.lookup (s.syncAt id).nextHeight = some r →
    ¬ (s.rangeAt r).confirmed →
    I (s.setSync id { s.syncAt id with peerRange := (s.syncAt id).peerRange.insert peer r })

/-- And so does all else that a message causes. -/
structure Stable (A : ChainApi χ) (I : Manager χ → Prop) : Prop extends RangeStable I where
  breaker {s : Manager χ} (depth height count) : I s →
    I { s with fabricatedRollbackDepth := depth, fabricatedRollbackHeight := height, fabricatedRollbackCount := count }
  setRange {s : Manager χ} {r rng} : I s → rng.peer = (s.rangeAt r).peer →
    ((s.rangeAt r).confirmed = true → rng.confirmed = true) → I (s.setRange r rng)
  answer {s : Manager χ} {id p r hash} : I s → (s.syncAt id).peerRange.lookup p = some r →
    I { s with answers := (r, p, hash) :: s.answers }
  header {s : Manager χ} {h noPoWCheck c} : I s → (A.processBlockHeader s.chain h noPoWCheck).1 = c →
    I { s with chain := c }
  rollback {s : Manager χ} (height) : I s → I { s with chain := (A.invalidateHeaderChain s.chain height).1 }

section

variable {I : Manager χ → Prop} {A : ChainApi χ} {e : Env} {s : Manager χ} {id : SyncId} {peer : Peer}
    {headers : List BlockHeader}
  {start height : Int} {r : RangeId}

namespace Starts

variable (K : Starts A I) (h : I s)

include K h

theorem startSync : I (s.startSync A e) := by
  rw [Manager.startSync]
  split
  · exact h
  · split
    · exact K.fetchHeaders h
    · split
      · exact h
      · exact K.frame h

theorem resetDownloadState : I (s.resetDownloadState A e) := K.startSync (K.frame (K.stop h))

theorem updateSyncPeer : I (s.updateSyncPeer A e) := K.startSync (K.frame h)

theorem abortHeaderSync : I (s.abortHeaderSync A e) := by
  rw [Manager.abortHeaderSync]
  split
  · exact h
  · dsimp only
    split
    · exact K.frame (K.stop h)
    · exact K.fetchHeaders (K.frame (K.stop h))

theorem handleNewPeerMsg {syncCandidate : Bool} : I (s.handleNewPeerMsg A e peer syncCandidate) := by
  have h1 : I { s with peerStates := s.peerStates.insert peer syncCandidate } := K.frame h
  rw [Manager.handleNewPeerMsg]
  split
  · apply K.headerSyncAddPeer
    split
    · exact K.startSync h1
    · exact h1
  · exact h1

theorem handleDonePeerMsg : I (s.handleDonePeerMsg A e peer) := by
  rw [Manager.handleDonePeerMsg]
  split
  · exact h
  · have h1 : I ({ s with peerStates := s.peerStates.erase peer }.dropHeaderPeer A e peer) :=
      K.dropHeaderPeer (K.frame h)
    dsimp only
    split
    · exact K.updateSyncPeer h1
    · exact h1

end Starts

namespace Restarts

variable (K : Restarts A I) (h : I s)

include K h

theorem rollbackToForkPoint : I (s.rollbackToForkPoint A e height).1 := by
  rw [Manager.rollbackToForkPoint]
  dsimp only
  split
  · exact K.resetDownloadState (K.rollback _ h)
  · exact K.rollback _ h

theorem rollbackFabricatedHeaderChain : I (s.rollbackFabricatedHeaderChain A e) := by
  rw [Manager.rollbackFabricatedHeaderChain]
  split
  · exact h
  · dsimp only
    split
    · exact K.breaker _ _ _ h
    · have hcut := fun depth height count => K.breaker depth height count (K.rollback height h)
      split
      · exact K.resetDownloadState (hcut _ _ _)
      · exact hcut _ _ _

theorem fastCutOnDoNotExtend : I (s.fastCutOnDoNotExtend A e headers height).1 := by
  unfold Manager.fastCutOnDoNotExtend
  split
  · exact h
  · split
    · exact h
    · split
      · exact h
      · exact K.rollbackToForkPoint h

theorem maybeFastCutFront : I (s.maybeFastCutFront A e start) := by
  rw [Manager.maybeFastCutFront]
  split
  · exact h
  · exact K.rollbackFabricatedHeaderChain (K.frame h)

theorem vote {prune : Bool} : I ((s.recordVote e start peer prune).maybeFastCutFront A e start) :=
  K.maybeFastCutFront (K.frame h)

theorem cutAtFront {front : HeaderRange} : I (s.cutAtFront A e id front).1 := by
  rw [Manager.cutAtFront]
  split
  · exact K.fastCutOnDoNotExtend h
  · exact h

theorem processHeaders : I (s.processHeaders A headers).1 := by
  induction headers generalizing s with
  | nil => exact h
  | cons header headers ih =>
    rw [Manager.processHeaders]
    split
    next he => exact K.header h (congrArg Prod.fst he)
    next he => exact ih (K.header h (congrArg Prod.fst he))

end Restarts

namespace RangeStable

variable (K : RangeStable I) (h : I s)

include K h

/-! ## Handing out ranges -/

theorem setPeers (peers : List Peer) (target : Int) :
    I (s.setSync id { s.syncAt id with peers := peers, target := target }) :=
  K.shrink h (fun _ _ hr => hr) fun _ _ hr => hr

theorem dropRange : I (s.dropRange id start peer) := K.shrink h (fun _ _ => lookup_of_erase) fun _ _ => lookup_of_erase

theorem cachedHash : I (s.cachedHash A height).1 := by
  rw [Manager.cachedHash]
  split
  · exact h
  · split
    · exact K.other h
    · exact h

theorem headerLocator : I (s.headerLocator A height) := by
  rw [Manager.headerLocator]
  split
  · exact h
  · exact K.cachedHash h

theorem launchHeaderRange : I (s.launchHeaderRange A e peer start).1 := by
  rw [Manager.launchHeaderRange]
  split
  · exact h
  · dsimp only
    split
    · exact h
    · split
      · exact K.shrink h (fun _ _ hr => hr) fun _ _ hr => hr
      · apply K.headerLocator
        exact K.launch h rfl rfl (fun _ _ hr => (lookup_of_insert hr).imp_left And.right) fun _ _ => lookup_of_insert

theorem assignHeaderRange : I (s.assignHeaderRange A e peer) := by
  rw [Manager.assignHeaderRange]
  split
  · exact h
  · dsimp only
    split
    · exact h
    · split
      · exact h
      · split
        next r hr =>
          obtain ⟨hfront, hc⟩ := Option.filter_eq_some_iff.1 hr
          exact K.headerLocator (K.second h hfront (of_decide_eq_true hc).1)
        next =>
          split
          · exact h
          · split
            · exact K.shrink (K.launchHeaderRange h) (fun _ _ hr => hr) fun _ _ hr => hr
            · exact K.launchHeaderRange h

theorem assignAll {peers : List Peer} : I (peers.foldl (fun s p => s.assignHeaderRange A e p) s) := by
  induction peers generalizing s with
  | nil => exact h
  | cons p peers ih => exact ih (K.assignHeaderRange h)

theorem reissueHeaderRange : I (s.reissueHeaderRange A e peer start) := by
  rw [Manager.reissueHeaderRange]
  split
  · exact h
  · dsimp only
    split
    · exact h
    · exact K.launchHeaderRange h

theorem releaseRange : I (s.releaseRange id peer) := by
  rw [Manager.releaseRange]
  split
  · exact K.dropRange h
  · exact h

theorem handOverFront : I (s.handOverFront A e id) := by
  rw [Manager.handOverFront]
  split
  · exact h
  · exact K.reissueHeaderRange (K.releaseRange h)

theorem reissueFrontRange : I (s.reissueFrontRange A e) := by
  rw [Manager.reissueFrontRange]
  split
  · exact h
  · dsimp only
    split
    · exact h
    · split
      · exact K.handOverFront h
      · split
        · split
          · exact h
          · exact K.reissueHeaderRange (K.dropRange h)
        · split
          · exact h
          · exact K.handOverFront (K.dropRange h)

/-! ## Starting -/

theorem fetchHeaders : I (s.fetchHeaders A e) := by
  rw [Manager.fetchHeaders]
  dsimp only
  split
  · exact h
  · split
    · exact h
    · apply K.assignAll
      exact K.shrink (K.other h) (by simp) (by simp)

/-! ## Peers and stalls -/

theorem dropHeaderPeer : I (s.dropHeaderPeer A e peer) := by
  rw [Manager.dropHeaderPeer]
  split
  · exact h
  · dsimp only
    split
    · exact K.other (K.setPeers (K.releaseRange h) _ _)
    · exact K.reissueFrontRange (K.assignAll (K.setPeers (K.releaseRange h) _ _))

theorem headerSyncAddPeer : I (s.headerSyncAddPeer A e peer) := by
  rw [Manager.headerSyncAddPeer]
  split
  · exact h
  · dsimp only
    split
    · exact h
    · apply K.assignHeaderRange
      exact K.shrink h (fun _ _ hr => hr) fun _ _ hr => hr

theorem reissueStale : I (Manager.reissueStale A e id s start) := by
  rw [Manager.reissueStale]
  dsimp only
  split
  · exact h
  · split
    · exact h
    · split
      · exact h
      · apply K.reissueHeaderRange
        exact K.shrink h (fun _ _ => lookup_of_erase) fun _ _ hr => hr

theorem reissueStaleHeaderRanges : I (s.reissueStaleHeaderRanges A e) := by
  rw [Manager.reissueStaleHeaderRanges]
  split
  · exact h
  · have h1 : I (s.reissueFrontRange A e) := K.reissueFrontRange h
    generalize s.reissueFrontRange A e = s1 at h1
    induction e.starts generalizing s1 with
    | nil => exact h1
    | cons start starts ih => exact ih _ (K.reissueStale h1)

/-! ## Ready ranges -/

theorem extendsHeight : I (s.extendsHeight A headers height).1 := by
  unfold Manager.extendsHeight
  split
  · exact h
  · exact K.cachedHash h

theorem advanceFront {front : HeaderRange} : I (s.advanceFront A e id front) := by
  apply K.assignHeaderRange
  exact K.shrink (K.dropRange (K.other h)) (fun _ _ hr => hr) fun _ _ hr => hr

theorem recordVote {prune : Bool} : I (s.recordVote e start peer prune) := K.other h

omit h in
theorem starts : Starts A I where
  frame h := K.other h
  stop h := K.other h
  fetchHeaders h := K.fetchHeaders h
  dropHeaderPeer h := K.dropHeaderPeer h
  headerSyncAddPeer h := K.headerSyncAddPeer h

end RangeStable

namespace Stable

variable (K : Stable A I) (h : I s) {turns : Nat}

include K

theorem restarts : Restarts A I where
  toStarts := K.starts
  breaker := K.breaker
  header := K.header
  rollback := K.rollback

include h

theorem discardFront {front : HeaderRange} : I (s.discardFront A e id front) := by
  apply K.reissueHeaderRange
  apply K.dropRange
  rw [Manager.voteAgainstFront]
  split
  · exact K.restarts.vote h
  · exact h

theorem handleStallSample : I (s.handleStallSample A e) := by
  rw [Manager.handleStallSample]
  split
  · exact K.reissueStaleHeaderRanges h
  · exact K.restarts.maybeFastCutFront (K.reissueStaleHeaderRanges h)

/-! ## Ready ranges -/

theorem applyHeaders : I (s.applyHeaders A r headers).1 := by
  induction headers generalizing s with
  | nil => exact h
  | cons header headers ih =>
    rw [Manager.applyHeaders]
    split
    next he => exact K.header h (congrArg Prod.fst he)
    next he =>
      apply ih
      exact K.setRange (K.other (K.header h (congrArg Prod.fst he))) rfl fun hc => hc

theorem applyReady : I (s.applyReady A e id turns).1 := by
  induction turns generalizing s with
  | zero => exact h
  | succ turns ih =>
    rw [Manager.applyReady]
    dsimp only
    split
    · exact h
    · split
      · exact h
      · split
        next hext =>
          have h1 := of_fst (K.extendsHeight h) hext
          split
          next hcut => exact of_fst (K.restarts.cutAtFront h1) hcut
          next hcut => exact ih (K.discardFront (of_fst (K.restarts.cutAtFront h1) hcut))
        next hext =>
          have h1 := of_fst (K.extendsHeight h) hext
          split
          next happly => exact of_fst (K.applyHeaders (K.other h1)) happly
          next happly => exact K.restarts.rollbackFabricatedHeaderChain (of_fst (K.applyHeaders (K.other h1)) happly)
          next happly => exact K.restarts.abortHeaderSync (of_fst (K.applyHeaders (K.other h1)) happly)
          next happly => exact ih (K.advanceFront (of_fst (K.applyHeaders (K.other h1)) happly))

theorem processReadyHeaderRanges : I (s.processReadyHeaderRanges A e turns) := by
  rw [Manager.processReadyHeaderRanges]
  split
  · exact h
  · split
    next hready => exact of_fst (K.applyReady h) hready
    next hready =>
      have h1 := of_fst (K.applyReady h) hready
      dsimp only
      split
      · exact K.other (K.reissueFrontRange (K.assignAll h1))
      · exact K.reissueFrontRange (K.assignAll h1)

/-! ## Events -/

theorem firstAnswer {hs : HeaderSyncState} {hash : Hash} :
    I (s.firstAnswer hs r peer hash headers) := by
  refine K.setRange h rfl fun hc => ?_
  rw [hc]
  rfl

theorem setAnswered {rng : HeaderRange} {confirmed : Bool}
    (hr : rng = s.rangeAt r) (hc : rng.confirmed = true → confirmed = true) :
    I (s.setRange r { rng with headers := headers, received := true, confirmed := confirmed }) := by
  subst hr
  exact K.setRange h rfl hc

theorem handleParallelHeadersMsg :
    I (s.handleParallelHeadersMsg A e turns peer headers) := by
  unfold Manager.handleParallelHeadersMsg
  split
  · exact h
  · dsimp only
    split
    · exact h
    next r hr =>
      split
      · split
        · exact h
        · exact K.dropHeaderPeer h
      next first rest =>
        have h1 : I { s with answers := (r, peer, A.blockHash first) :: s.answers } := K.answer h hr
        split
        · exact h1
        · split
          · split
            · exact K.processReadyHeaderRanges (K.firstAnswer h1)
            · split
              · exact h1
              · split
                · exact K.restarts.vote h1
                · exact K.processReadyHeaderRanges (K.setAnswered h1 rfl fun _ => rfl)
          · split
            next hext =>
              have h2 := of_fst (K.extendsHeight h1) hext
              split
              · split
                next hcut => exact of_fst (K.restarts.fastCutOnDoNotExtend h2) hcut
                next hcut => exact K.restarts.vote (of_fst (K.restarts.fastCutOnDoNotExtend h2) hcut)
              · exact h2
            next s2 hext =>
              have h2 := of_fst (K.extendsHeight h1) hext
              have hrng : s.rangeAt r = s2.rangeAt r := by
                have := Manager.rangeAt_extendsHeight A { s with answers := (r, peer, A.blockHash first) :: s.answers }
                  (first :: rest) ((s.rangeAt r).start - 1)
                rw [hext] at this
                rw [this]
              split
              · split
                · exact K.processReadyHeaderRanges (K.firstAnswer h2)
                · split
                  · exact h2
                  · split
                    · split
                      next hcut => exact of_fst (K.restarts.fastCutOnDoNotExtend h2) hcut
                      next hcut => exact K.restarts.vote (of_fst (K.restarts.fastCutOnDoNotExtend h2) hcut)
                    · exact K.processReadyHeaderRanges (K.setAnswered h2 hrng fun _ => rfl)
              · exact K.processReadyHeaderRanges (K.setAnswered h2 hrng fun hc => hc)

theorem handleHeadersMsg :
    I (s.handleHeadersMsg A e turns peer headers) := by
  rw [Manager.handleHeadersMsg]
  split
  · exact h
  · split
    · exact K.handleParallelHeadersMsg h
    · split
      next hproc => exact of_fst (K.restarts.processHeaders h) hproc
      next hproc =>
        have h1 := of_fst (K.restarts.processHeaders h) hproc
        dsimp only
        split
        · exact K.other h1
        · exact h1

/-- Every event but blocks that are connected. -/
theorem step {a : Manager.Event χ} {s' : Manager χ} (hmoved : ∀ c l, a ≠ .moved c l)
    (hs : s.step A (e, a) = some s') : I s' := by
  cases a <;> cases hs
  · exact K.handleHeadersMsg h
  · exact K.restarts.handleNewPeerMsg h
  · exact K.restarts.handleDonePeerMsg h
  · exact K.handleStallSample h
  · exact K.fetchHeaders h
  · exact K.restarts.updateSyncPeer h
  · exact K.restarts.resetDownloadState h
  · exact K.restarts.rollbackFabricatedHeaderChain h
  · exact K.restarts.rollbackToForkPoint h
  · exact absurd rfl (hmoved _ _)

end Stable

end

end IniNode.Netsync
