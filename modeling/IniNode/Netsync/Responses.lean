import IniNode.Netsync.HeaderSync
/-!
# Answers to header requests

How the sync manager handles a headers message during a parallel download, and the other events that touch the
download: peers that come and go, the stall sample, rollbacks that the block download asks for. The loop over ready
ranges takes a bound on its turns, so that what holds for every bound holds for the loop.
-/

namespace IniNode.Netsync.Manager

variable {χ : Type} (A : ChainApi χ) (e : Env)

/-! ## Votes and cuts -/

/-- Five minutes. -/
def voteLifetime : Nat := 300000

variable (s : Manager χ)

/-- A peer's do-not-extend vote for a front; votes that are too old are pruned where the code does it. -/
def recordVote (start : Int) (peer : Peer) (prune : Bool) : Manager χ :=
  let votes := ((s.frontUnreachable.lookup start).getD ∅).insert (s.addr peer) e.now
  let old := votes.keys.filter fun a => voteLifetime < e.now - (votes.lookup a).getD e.now
  let votes := if prune then old.foldl (fun v a => v.erase a) votes else votes
  { s with frontUnreachable := s.frontUnreachable.insert start votes }

variable (headers : List BlockHeader)

/-- `fastCutOnDoNotExtend`: whether the chain was cut. -/
def fastCutOnDoNotExtend (prevHeight : Int) : Manager χ × Bool :=
  match headers with
  | [] => (s, false)
  | h :: _ =>
    match A.headerHeightByHash s.chain h.prevBlock with
    | none => (s, false)
    | some fp => if fp ≤ 0 ∨ prevHeight < fp then (s, false) else s.rollbackToForkPoint A e fp

def maybeFastCutFront (frontStart : Int) : Manager χ :=
  if ((s.frontUnreachable.lookup frontStart).getD ∅).keys.length < 2 then s
  else
    { s with frontUnreachable := s.frontUnreachable.erase frontStart }.rollbackFabricatedHeaderChain A e

/-! ## Peers and ends of a download -/

variable (peer : Peer)

def dropHeaderPeer : Manager χ :=
  match s.headerSync with
  | none => s
  | some id =>
    let s := s.releaseRange id peer
    let peers := (s.syncAt id).peers.erase peer
    let s := s.setSync id { s.syncAt id with peers := peers, target := s.tallest peers }
    if peers = [] then { s with headerSync := none }
    else (peers.foldl (fun s p => s.assignHeaderRange A e p) s).reissueFrontRange A e

def headerSyncAddPeer : Manager χ :=
  match s.headerSync with
  | none => s
  | some id =>
    let hs := s.syncAt id
    if s.lastBlock peer ≤ A.bestHeaderHeight s.chain ∨ maxHeaderSyncPeers ≤ hs.peers.length ∨ peer ∈ hs.peers ∨
        s.host peer ≠ "" ∧ s.host peer ∈ hs.peers.map s.host then s
    else
      let s := s.setSync id { hs with target := max hs.target (s.lastBlock peer), peers := hs.peers ++ [peer] }
      s.assignHeaderRange A e peer

/-- `finishHeaderSync`, without the block download it starts. -/
def finishHeaderSync : Manager χ := { s with headerSync := none }

def abortHeaderSync : Manager χ :=
  if s.headerSync.isNone then s
  else
    let s := { s with headerSync := none, ibdMode := true }
    if s.fetchHigherPeers (A.bestHeaderHeight s.chain) = [] then s else s.fetchHeaders A e

/-! ## Ready ranges -/

/-- The first header names the hash at a height as its parent. -/
def extendsHeight (height : Int) : Manager χ × Bool :=
  match headers with
  | [] => (s, true)
  | h :: _ =>
    let (s, expected) := s.cachedHash A height
    (s, expected = some h.prevBlock)

@[simp] theorem rangeAt_extendsHeight (height : Int) : (s.extendsHeight A headers height).1.rangeAt = s.rangeAt := by
  unfold extendsHeight
  split
  · rfl
  · exact rangeAt_cachedHash A s height

/-- The headers of a range are handed to the chain, up to the first that it refuses. -/
def applyHeaders (r : RangeId) : List BlockHeader → Manager χ → Manager χ × Option HeaderError
  | [], s => (s, none)
  | h :: headers, s =>
    match A.processBlockHeader s.chain h s.ibdMode with
    | (chain, some err) => ({ s with chain := chain }, some err)
    | (chain, none) =>
      let front := s.rangeAt r
      let s := { s with chain := chain, reqWindow := s.reqWindow.put (front.start + front.applied) (A.blockHash h) }
      applyHeaders r headers (s.setRange r { front with applied := front.applied + 1 })

variable (id : SyncId) (front : HeaderRange)

/-- A range that does not extend the chain is the front: the chain is cut at the fork point its first header names. Tells
whether it was. -/
def cutAtFront : Manager χ × Bool :=
  if front.start = (s.syncAt id).nextHeight then s.fastCutOnDoNotExtend A e front.headers (front.start - 1)
  else (s, false)

/-- Without a cut, the peer of the front counts as a vote. -/
def voteAgainstFront : Manager χ :=
  if front.start = (s.syncAt id).nextHeight then
    (s.recordVote e front.start front.peer true).maybeFastCutFront A e front.start
  else s

/-- A range that does not extend the chain is asked for again. -/
def discardFront : Manager χ :=
  ((s.voteAgainstFront A e id front).dropRange id front.start front.peer).reissueHeaderRange A e front.peer front.start

/-- The front range was applied: the next one is the front, and its peer gets another range. -/
def advanceFront : Manager χ :=
  let s := { s with reqWindow := s.reqWindow.maybeSlide ((s.syncAt id).nextHeight - 1) }
  let s := s.dropRange id front.start front.peer
  let s := s.setSync id { s.syncAt id with nextHeight := front.start + front.headers.length }
  s.assignHeaderRange A e front.peer

/-- The loop of `processReadyHeaderRanges`, for a number of turns. Tells whether the function goes on after it. -/
def applyReady (id : SyncId) : Nat → Manager χ → Manager χ × Bool
  | 0, s => (s, true)
  | turns + 1, s =>
    let hs := s.syncAt id
    match hs.ranges.lookup hs.nextHeight with
    | none => (s, true)
    | some r =>
      let front := s.rangeAt r
      if ¬ (front.received ∧ front.confirmed) then (s, true)
      else
        match s.extendsHeight A front.headers (front.start - 1) with
        | (s, false) =>
          match s.cutAtFront A e id front with
          | (s, true) => (s, false)
          | (s, false) => applyReady id turns (s.discardFront A e id front)
        | (s, true) =>
          match ({ s with appliedRanges := r :: s.appliedRanges }).applyHeaders A r front.headers with
          | (s, some .previousBlockUnknown) => (s, false)
          | (s, some .rule) => (s.rollbackFabricatedHeaderChain A e, false)
          | (s, some .other) => (s.abortHeaderSync A e, false)
          | (s, none) => applyReady id turns (s.advanceFront A e id front)

variable (turns : Nat)

def processReadyHeaderRanges (s : Manager χ) : Manager χ :=
  match s.headerSync with
  | none => s
  | some id =>
    match s.applyReady A e id turns with
    | (s, false) => s
    | (s, true) =>
      let s := (s.syncAt id).peers.foldl (fun s p => s.assignHeaderRange A e p) s
      let s := s.reissueFrontRange A e
      if (s.syncAt id).target < (s.syncAt id).nextHeight then s.finishHeaderSync else s

/-! ## Headers messages -/

/-- A first answer to a range. -/
def firstAnswer (hs : HeaderSyncState) (r : RangeId) (peer : Peer) (hash : Hash)
    (headers : List BlockHeader) : Manager χ :=
  let rng := s.rangeAt r
  s.setRange r { rng with
    firstHash := some hash, firstPeer := some peer, headers := headers, received := true
    confirmed := rng.confirmed || decide (hs.peers.length < 2) }

def handleParallelHeadersMsg (s : Manager χ) (peer : Peer) (headers : List BlockHeader) : Manager χ :=
  match s.headerSync with
  | none => s
  | some id =>
    let hs := s.syncAt id
    match hs.peerRange.lookup peer with
    | none => s
    | some r =>
      let rng := s.rangeAt r
      let isFront : Bool := rng.start = hs.nextHeight
      match headers with
      | [] => if rng.received ∧ ¬ (isFront ∧ ¬ rng.confirmed) then s else s.dropHeaderPeer A e peer
      | first :: _ =>
        let hash := A.blockHash first
        let s := { s with answers := (r, peer, hash) :: s.answers }
        if rng.received ∧ ¬ (isFront ∧ ¬ rng.confirmed) then s
        else if A.bestHeaderHeight s.chain < rng.start - 1 then
          -- the chain does not reach the range yet: it waits unverified
          match rng.firstHash with
          | none => (s.firstAnswer hs r peer hash headers).processReadyHeaderRanges A e turns
          | some firstHash =>
            if rng.firstPeer = some peer then s
            else if hash ≠ firstHash then (s.recordVote e rng.start peer false).maybeFastCutFront A e rng.start
            else
              (s.setRange r { rng with headers := headers, received := true, confirmed := true }).processReadyHeaderRanges
                A e turns
        else
          match s.extendsHeight A headers (rng.start - 1) with
          | (s, false) =>
            if isFront then
              match s.fastCutOnDoNotExtend A e headers (rng.start - 1) with
              | (s, true) => s
              | (s, false) => (s.recordVote e rng.start peer true).maybeFastCutFront A e rng.start
            else s
          | (s, true) =>
            if isFront ∧ hs.nextHeight ≤ hs.target then
              match rng.firstHash with
              | none => (s.firstAnswer hs r peer hash headers).processReadyHeaderRanges A e turns
              | some firstHash =>
                if rng.firstPeer = some peer then s
                else if hash ≠ firstHash then
                  match s.fastCutOnDoNotExtend A e headers (rng.start - 1) with
                  | (s, true) => s
                  | (s, false) => (s.recordVote e rng.start peer false).maybeFastCutFront A e rng.start
                else
                  (s.setRange r { rng with headers, received := true, confirmed := true }).processReadyHeaderRanges
                    A e turns
            else (s.setRange r { rng with headers := headers, received := true }).processReadyHeaderRanges A e turns

/-- The headers of a message outside a parallel download, up to the first that the chain refuses: whether all were
taken. -/
def processHeaders : List BlockHeader → Manager χ → Manager χ × Bool
  | [], s => (s, true)
  | h :: headers, s =>
    match A.processBlockHeader s.chain h s.ibdMode with
    | (chain, some _) => ({ s with chain := chain }, false)
    | (chain, none) => processHeaders headers { s with chain := chain }

/-- `handleHeadersMsg`, without the requests it sends. -/
def handleHeadersMsg (s : Manager χ) (peer : Peer) (headers : List BlockHeader) : Manager χ :=
  if (s.peerStates.lookup peer).isNone then s
  else if s.headerSync.isSome then s.handleParallelHeadersMsg A e turns peer headers
  else
    match s.processHeaders A headers with
    | (s, false) => s
    | (s, true) =>
      let height := A.bestHeaderHeight s.chain
      if headers ≠ [] ∧ s.lastBlock peer < height then
        { s with lastBlock := Function.update s.lastBlock peer height }
      else s

/-! ## Other events -/

def handleNewPeerMsg (syncCandidate : Bool) : Manager χ :=
  let s := { s with peerStates := s.peerStates.insert peer syncCandidate }
  if syncCandidate then
    let s := if s.syncPeer.isNone then s.startSync A e else s
    s.headerSyncAddPeer A e peer
  else s

def updateSyncPeer : Manager χ := { s with syncPeer := none }.startSync A e

/-- `handleDonePeerMsg`, for the header download. -/
def handleDonePeerMsg : Manager χ :=
  if (s.peerStates.lookup peer).isNone then s
  else
    let s := { s with peerStates := s.peerStates.erase peer }.dropHeaderPeer A e peer
    if s.syncPeer = some peer then s.updateSyncPeer A e else s

/-- A range that has been in flight for too long goes to an idle peer. -/
def reissueStale (s : Manager χ) (start : Int) : Manager χ :=
  let hs := s.syncAt id
  match hs.ranges.lookup start with
  | none => s
  | some r =>
    let rng := s.rangeAt r
    if rng.received ∨ e.now - rng.assignedAt < headerRangeStallTimeout then s
    else
      match hs.peers.find? fun p => p ≠ rng.peer ∧ (hs.peerRange.lookup p).isNone with
      | none => s
      | some p => (s.setSync id { hs with ranges := hs.ranges.erase start }).reissueHeaderRange A e p start

def reissueStaleHeaderRanges : Manager χ :=
  match s.headerSync with
  | none => s
  | some id => e.starts.foldl (reissueStale A e id) (s.reissueFrontRange A e)

/-- The part of `handleStallSample` that is about headers, up to the detectors of a diverged tip. -/
def handleStallSample : Manager χ :=
  let s := s.reissueStaleHeaderRanges A e
  match s.headerSync with
  | none => s
  | some id => s.maybeFastCutFront A e (s.syncAt id).nextHeight

inductive Event (χ : Type)
  | headers (peer : Peer) (headers : List BlockHeader) (turns : Nat)
  | newPeer (peer : Peer) (syncCandidate : Bool)
  | donePeer (peer : Peer)
  | stallSample
  /-- The calls that the stall sample's detectors and the block download make. -/
  | fetchHeaders
  | updateSyncPeer
  | resetDownloadState
  | rollbackFabricatedHeaderChain
  | rollbackToForkPoint (forkHeight : Int)
  /-- Blocks are connected and peers announce new heights. -/
  | moved (chain : χ) (lastBlock : Peer → Int)

def step : Env × Event χ → Option (Manager χ)
  | (e, .headers peer headers turns) => some (s.handleHeadersMsg A e turns peer headers)
  | (e, .newPeer peer syncCandidate) => some (s.handleNewPeerMsg A e peer syncCandidate)
  | (e, .donePeer peer) => some (s.handleDonePeerMsg A e peer)
  | (e, .stallSample) => some (s.handleStallSample A e)
  | (e, .fetchHeaders) => some (s.fetchHeaders A e)
  | (e, .updateSyncPeer) => some (s.updateSyncPeer A e)
  | (e, .resetDownloadState) => some (s.resetDownloadState A e)
  | (e, .rollbackFabricatedHeaderChain) => some (s.rollbackFabricatedHeaderChain A e)
  | (e, .rollbackToForkPoint forkHeight) => some (s.rollbackToForkPoint A e forkHeight).1
  | (_, .moved chain lastBlock) => some { s with chain := chain, lastBlock := lastBlock }

end IniNode.Netsync.Manager
