import IniNode.Lib.Run
import IniNode.Netsync.HeaderSync
/-!
# The parallel block download

The part of the sync manager that asks peers for blocks: the slices of the chain it hands out, the set of all requested
hashes, the set of each peer, and every function that writes them. What a function reads of the chain, of the clock and
of the other peers is the input `BlockEnv` of the step, so a handler of the source is a sequence of these steps, with the
chain changed in between. Heights do not overflow, and the progress inside a slice that is reported to the user is left
out.
-/

open Function

namespace IniNode.Netsync

open Lib

def minInFlightBlocks : Nat := 10

def maxInvPerMsg : Nat := 50000

def maxRequestedBlocks : Nat := maxInvPerMsg

def maxBlockRequestWindow : Int := 8000

def blockInFlightTarget : Nat := 200

/-- In milliseconds. -/
def blockSliceStallTimeout : Nat := 30000

/-- `blockSlice`: the heights from `start` up to, not including, `stop`. -/
structure BlockSlice where
  start : Int
  stop : Int
  peer : Peer
  assignedAt : Nat
deriving DecidableEq

structure BlockSyncState where
  nextAssign : Int
  slices : AList fun _ : Int => BlockSlice := ∅
  peerSlice : Store Peer BlockSlice := fun _ => none
  sliceLen : Int
  lastProgress : Store Peer Nat := fun _ => none
  frontMissingSince : Nat := 0
  frontMissingHeight : Int := 0

structure PeerSyncState where
  syncCandidate : Bool
  requestQueue : List Hash := []
  requestedBlocks : Finset Hash := ∅

/-- The history of one connection: the blocks a getdata was sent for, the blocks the peer sent, and those it reported
as not found since it was last asked for them. -/
structure Talk where
  asked : Finset Hash := ∅
  sent : Finset Hash := ∅
  notFound : Finset Hash := ∅

namespace Talk

def ask (t : Talk) (hash : Hash) : Talk :=
  { t with asked := insert hash t.asked, notFound := t.notFound.erase hash }

/-- The answers that may still be travelling. -/
def owed (t : Talk) : Finset Hash := (t.asked \ t.sent) \ t.notFound

end Talk

/-- The sync manager's record of the blocks it waits for. `talk` and `disconnected` are its history: what was said on
each connection, and the connections it closed for an unrequested block. -/
structure Downloads where
  regtest : Bool
  peerStates : Store Peer PeerSyncState := fun _ => none
  requestedBlocks : Finset Hash := ∅
  blockSync : Option (List Peer) := none
  blockSyncState : Option BlockSyncState := none
  talk : Peer → Talk := fun _ => {}
  disconnected : Finset Peer := ∅

/-- What a step reads besides the downloads. `victim` is the entry a full set gives up: some entry of it. -/
structure BlockEnv where
  now : Nat
  bestHeight : Int
  bestHeaderHeight : Int
  forkHeight : Int
  headerHashByHeight : Int → Option Hash
  haveBlock : Hash → Bool
  bestDownloadState : Hash × Int
  headerSyncing : Bool
  maxPeerServeHeight : Int
  host : Peer → String
  connected : Peer → Bool
  victim : Finset Hash → Hash
  victim_mem : ∀ m : Finset Hash, m.Nonempty → victim m ∈ m

variable (env : BlockEnv)

/-- Whether the time since `then_` is a full stall window. -/
def BlockEnv.stalledSince (then_ : Nat) : Bool := decide (blockSliceStallTimeout ≤ env.now - then_)

/-- The last height blocks are requested for. -/
def BlockEnv.requestEnd : Int :=
  let requestEnd := min (env.bestHeight + maxBlockRequestWindow) env.bestHeaderHeight
  if env.maxPeerServeHeight > env.bestHeight ∧ requestEnd > env.maxPeerServeHeight then env.maxPeerServeHeight
  else requestEnd

/-- Where a download without slices starts: after the stored cursor if it is on the best header chain. -/
def BlockEnv.cursorStart : Int :=
  let (cursorHash, cursorHeight) := env.bestDownloadState
  if cursorHeight > env.forkHeight ∧ cursorHeight ≤ env.bestHeaderHeight ∧
      env.headerHashByHeight cursorHeight = some cursorHash then cursorHeight + 1
  else env.forkHeight + 1

namespace BlockSyncState

def nextSliceBeyond (bs : BlockSyncState) (start : Int) : Option BlockSlice :=
  bs.slices.entries.foldl
    (fun best e =>
      if e.1 ≤ start then best
      else
        match best with
        | none => some e.2
        | some b => if e.1 < b.start then some e.2 else best)
    none

variable (requested : Finset Hash)

/-- Where the next slice starts: at the block after the tip if nobody was asked for it, else at the frontier. None when
that block is waiting and the peer is not allowed to claim it. -/
def frontStart (windowEnd : Int) (peer : Peer) (bs : BlockSyncState) : BlockSyncState × Option Int :=
  let front := env.bestHeight + 1
  if (env.headerHashByHeight front).any (· ∈ requested) then
    ({ bs with frontMissingSince := 0, frontMissingHeight := 0 }, some bs.nextAssign)
  else if front ≤ windowEnd then
    let bs :=
      if bs.frontMissingHeight ≠ front then { bs with frontMissingHeight := front, frontMissingSince := env.now } else bs
    let frontStuck := env.stalledSince bs.frontMissingSince
    if (bs.lastProgress peer).all (fun last => !env.stalledSince last) || frontStuck then
      ({ bs with lastProgress := if frontStuck then update bs.lastProgress peer (some env.now) else bs.lastProgress },
        some front)
    else (bs, none)
  else (bs, some bs.nextAssign)

def assignBlockSlice (peer : Peer) (bs : BlockSyncState) : BlockSyncState × Bool :=
  if (bs.peerSlice peer).isSome then (bs, false)
  else
    let windowEnd := min (env.bestHeight + maxBlockRequestWindow) env.bestHeaderHeight
    if env.headerSyncing ∧ env.bestHeaderHeight - env.bestHeight < maxBlockRequestWindow then (bs, false)
    else
      let bs := if bs.nextAssign ≤ env.bestHeight then { bs with nextAssign := env.bestHeight + 1 } else bs
      match bs.frontStart env requested windowEnd peer with
      | (bs, none) => (bs, false)
      | (bs, some start) =>
        if start > windowEnd then (bs, false)
        else
          let stop := min (start + bs.sliceLen) (windowEnd + 1)
          let stop := (bs.nextSliceBeyond start).elim stop fun sl => min sl.start stop
          if stop ≤ start then (bs, false)
          else
            let sl : BlockSlice := { start, stop, peer, assignedAt := env.now }
            ({ bs with
                slices := bs.slices.insert start sl
                peerSlice := update bs.peerSlice peer (some sl)
                nextAssign := if start = bs.nextAssign then stop else bs.nextAssign }, true)

def releaseBlockSlice (bs : BlockSyncState) (peer : Peer) : BlockSyncState :=
  match bs.peerSlice peer with
  | none => bs
  | some sl =>
    { bs with slices := bs.slices.erase sl.start, peerSlice := update bs.peerSlice peer none }

end BlockSyncState

namespace Downloads

variable (d : Downloads) (peer : Peer)

def setPeer (st : PeerSyncState) : Downloads :=
  { d with peerStates := update d.peerStates peer (some st) }

def releaseBlockSlice : Downloads :=
  { d with blockSyncState := d.blockSyncState.map (·.releaseBlockSlice peer) }

variable (env : BlockEnv) (d : Downloads) (peer : Peer)

def assignBlockSlice : Downloads × Bool :=
  match d.blockSyncState with
  | none => (d, false)
  | some bs =>
    let r := bs.assignBlockSlice env d.requestedBlocks peer
    ({ d with blockSyncState := some r.1 }, r.2)

variable (hash : Hash)

/-- Put a hash into both request sets and into the getdata message to the peer. The source reads the state of the peer
without a check; every peer it is called with has one. -/
def request : Downloads :=
  match d.peerStates peer with
  | none => d
  | some st =>
    { d.setPeer peer { st with requestedBlocks := insert hash st.requestedBlocks } with
      requestedBlocks := insert hash d.requestedBlocks
      talk := update d.talk peer ((d.talk peer).ask hash) }

/-- The loop of `buildBlockRequest` over `n` heights from `h`, with the number of hashes in the message so far; the flag
tells whether every height was passed. -/
def requestBlocks (env : BlockEnv) (peer : Peer) (requestEnd : Int) : Nat → Int → Nat → Downloads → Downloads × Bool
  | 0, _, _, d => (d, true)
  | n + 1, h, numRequested, d =>
    match env.headerHashByHeight h with
    | none => (d, false)
    | some hash =>
      -- A block in flight is skipped before the length of the message is looked at.
      if !env.haveBlock hash ∧ hash ∈ d.requestedBlocks then requestBlocks env peer requestEnd n (h + 1) numRequested d
      else
        let d := if env.haveBlock hash then d else d.request peer hash
        let numRequested := if env.haveBlock hash then numRequested else numRequested + 1
        if numRequested ≥ blockInFlightTarget ∧ h < requestEnd then (d, false)
        else requestBlocks env peer requestEnd n (h + 1) numRequested d

/-- The slice the peer holds, assigned now if it holds none. -/
def heldSlice (bs : BlockSyncState) (peer : Peer) : Downloads × Option BlockSlice :=
  match bs.peerSlice peer with
  | some sl => (d, some sl)
  | none =>
    let r := d.assignBlockSlice env peer
    (r.1, if r.2 then r.1.blockSyncState.bind (·.peerSlice peer) else none)

/-- `fetchHeaderBlocks` with `buildBlockRequest`: the message is sent with every hash that was put into it. -/
def fetchHeaderBlocks : Downloads :=
  if env.bestHeaderHeight < env.forkHeight then d
  else
    match d.blockSyncState with
    | none =>
      (requestBlocks env peer env.requestEnd (env.requestEnd + 1 - env.cursorStart).toNat env.cursorStart 0 d).1
    | some bs =>
      match d.heldSlice env bs peer with
      | (d, none) => d
      | (d, some sl) =>
        let requestEnd := min (sl.stop - 1) env.requestEnd
        let r := requestBlocks env peer requestEnd (requestEnd + 1 - sl.start).toNat sl.start 0 d
        if r.2 then r.1.releaseBlockSlice peer else r.1

variable (peers : List Peer)

def takesPart (peer : Peer) : Bool :=
  peers.any fun p => p == peer || (env.host peer != "" && env.host p == env.host peer)

def blockSyncAddPeer : Downloads :=
  match d.blockSync with
  | none => d
  | some peers =>
    if peers.length ≥ maxHeaderSyncPeers ∨ takesPart env peers peer then d
    else fetchHeaderBlocks env { d with blockSync := some (peers ++ [peer]) } peer

/-- The part of `startSync` that starts a block download, from the peers higher than the chain. -/
def startSync : Downloads :=
  peers.foldl (blockSyncAddPeer env) { d with blockSync := some [] }

/-- `foldExistingSyncPeers`, with the connected peers in the order of the map. -/
def foldExistingSyncPeers (order : List Peer) (peers : List Peer) : List Peer :=
  order.foldl
    (fun peers peer =>
      if peers.length ≥ maxHeaderSyncPeers ∨ (d.peerStates peer).all (!·.syncCandidate) ∨ !env.connected peer ∨
          takesPart env peers peer then peers
      else peers ++ [peer])
    peers

def startParallelBlockDownload (order : List Peer) : Downloads :=
  let peers := peers.take maxHeaderSyncPeers
  if peers = [] then { d with blockSync := some [] }
  else
    let peers := foldExistingSyncPeers env d order peers
    peers.foldl (fetchHeaderBlocks env)
      { d with
        blockSync := some peers
        blockSyncState := some
          { nextAssign := env.bestHeight + 1, sliceLen := maxBlockRequestWindow / maxHeaderSyncPeers } }

/-- The loop of `blkDownload`, after the stored blocks were connected. -/
def blkDownload : Downloads :=
  (d.blockSync.getD []).foldl
    (fun d peer =>
      if (d.peerStates peer).all fun st => st.requestedBlocks.card ≥ minInFlightBlocks then d
      else fetchHeaderBlocks env d peer)
    d

def clearRequestedState (st : PeerSyncState) : Downloads :=
  { d with requestedBlocks := d.requestedBlocks \ st.requestedBlocks }

def dropPeer : Downloads :=
  match d.blockSync with
  | none => d
  | some peers => { d.releaseBlockSlice peer with blockSync := some (peers.erase peer) }

def handleNewPeerMsg (syncCandidate : Bool) : Downloads :=
  { d.setPeer peer { syncCandidate } with
    talk := update d.talk peer {}
    disconnected := d.disconnected.erase peer }

def handleDonePeerMsg : Downloads :=
  match d.peerStates peer with
  | none => d
  | some st => (clearRequestedState { d with peerStates := update d.peerStates peer none } st).dropPeer peer

def setProgress (env : BlockEnv) (peer : Peer) : Downloads :=
  { d with
    blockSyncState := d.blockSyncState.map fun bs =>
      { bs with lastProgress := update bs.lastProgress peer (some env.now) } }

/-- `handleBlockMsg` up to the processing of the block. -/
def handleBlockMsg : Downloads :=
  let d := { d with talk := update d.talk peer { d.talk peer with sent := insert hash (d.talk peer).sent } }
  match d.peerStates peer with
  | none => d
  | some st =>
    if hash ∉ st.requestedBlocks ∧ !d.regtest then { d with disconnected := insert peer d.disconnected }
    else
      ({ d.setPeer peer { st with requestedBlocks := st.requestedBlocks.erase hash } with
          requestedBlocks := d.requestedBlocks.erase hash } : Downloads).setProgress env peer

def handleNotFoundMsg (hashes : List Hash) : Downloads :=
  let d := { d with
    talk := update d.talk peer
      { d.talk peer with notFound := (d.talk peer).notFound ∪ hashes.toFinset } }
  match d.peerStates peer with
  | none => d
  | some st =>
    let found := hashes.toFinset ∩ st.requestedBlocks
    { d.setPeer peer { st with requestedBlocks := st.requestedBlocks \ found } with
      requestedBlocks := d.requestedBlocks \ found }

def limitAdd (m : Finset Hash) (hash : Hash) : Finset Hash :=
  insert hash (if m.card + 1 > maxRequestedBlocks then m.erase (env.victim m) else m)

/-- A queued announcement of the peer is requested, in sets of limited size. -/
def requestAnnounced : Downloads :=
  match d.peerStates peer with
  | none => d
  | some st =>
    { d.setPeer peer { st with requestedBlocks := limitAdd env st.requestedBlocks hash } with
      requestedBlocks := limitAdd env d.requestedBlocks hash
      talk := update d.talk peer ((d.talk peer).ask hash) }

/-- The loop over the request queue, with the number of requests so far; what does not fit stays queued. -/
def requestQueued (env : BlockEnv) (peer : Peer) : List Hash → Nat → Downloads → Downloads × List Hash
  | [], _, d => (d, [])
  | hash :: queue, numRequested, d =>
    if hash ∈ d.requestedBlocks then requestQueued env peer queue numRequested d
    else
      let d := d.requestAnnounced env peer hash
      if numRequested + 1 ≥ maxInvPerMsg then (d, queue) else requestQueued env peer queue (numRequested + 1) d

/-- `handleInvMsg` for the announced blocks that the peer can serve; in the initial download they are not queued. -/
def handleInvMsg (ibdMode : Bool) (d : Downloads) (peer : Peer) (announced : List Hash) : Downloads :=
  match d.peerStates peer with
  | none => d
  | some st =>
    let fresh := if ibdMode then [] else announced.filter fun hash => !env.haveBlock hash
    let (d, rest) := requestQueued env peer (st.requestQueue ++ fresh) 0 d
    match d.peerStates peer with
    | none => d
    | some st => d.setPeer peer { st with requestQueue := rest }

/-- One round of the loop of `reissueStaleBlockSlices`, on the slice the map gives first; the loop ends with the first
slice that is handed on. -/
def reissueStaleBlockSlice (start : Int) : Downloads :=
  match d.blockSyncState.bind fun bs => (bs.slices.lookup start).map fun sl => (bs, sl) with
  | none => d
  | some (bs, sl) =>
    let stalled := env.stalledSince ((bs.lastProgress sl.peer).getD sl.assignedAt)
    let target := (d.blockSync.getD []).find? fun p => p ≠ sl.peer ∧ (bs.peerSlice p).isNone
    match target with
    | none => d
    | some target =>
      if !stalled ∨ (bs.peerSlice sl.peer).isNone then d
      else
        let heights := (List.range (sl.stop - sl.start).toNat).map fun i => sl.start + (i : Int)
        let d := { d with
          requestedBlocks := d.requestedBlocks \ (heights.filterMap env.headerHashByHeight).toFinset
          blockSyncState := some
            { bs with slices := bs.slices.erase start, peerSlice := update bs.peerSlice sl.peer none } }
        (d.assignBlockSlice env target).1

def reissueStalledBlockPeer : Downloads :=
  match d.blockSyncState, d.peerStates peer with
  | some bs, some st =>
    if st.requestedBlocks = ∅ then d
    else
      match bs.lastProgress peer with
      | none => d.setProgress env peer
      | some last =>
        if !env.stalledSince last then d
        else (fetchHeaderBlocks env ((d.clearRequestedState st).releaseBlockSlice peer) peer).setProgress env peer
  | _, _ => d

def reissueStalledBlockPeers : Downloads :=
  (d.blockSync.getD []).foldl (reissueStalledBlockPeer env) d

/-- The end of `handleStallSample`: the requests of a stalled sync peer are freed. -/
def clearSyncPeer : Downloads :=
  (d.peerStates peer).elim d d.clearRequestedState

/-- `resetDownloadState`, without the `startSync` it ends with. -/
def resetDownloadState : Downloads :=
  { d with
    blockSync := none
    blockSyncState := none
    requestedBlocks := ∅
    peerStates := fun peer => (d.peerStates peer).map fun st => { st with requestedBlocks := ∅ } }

end Downloads

/-- The steps of the sync manager that write its request sets. -/
inductive DownloadStep
  | newPeer (peer : Peer) (syncCandidate : Bool)
  | donePeer (peer : Peer)
  | dropHeaderPeer (peer : Peer)
  | startSync (env : BlockEnv) (peers : List Peer)
  | blockSyncAddPeer (env : BlockEnv) (peer : Peer)
  | startParallelBlockDownload (env : BlockEnv) (peers order : List Peer)
  | fetchHeaderBlocks (env : BlockEnv) (peer : Peer)
  | blkDownload (env : BlockEnv)
  | block (env : BlockEnv) (peer : Peer) (hash : Hash)
  | notFound (peer : Peer) (hashes : List Hash)
  | inv (env : BlockEnv) (ibdMode : Bool) (peer : Peer) (announced : List Hash)
  | reissueStaleBlockSlice (env : BlockEnv) (start : Int)
  | reissueStalledBlockPeers (env : BlockEnv)
  | clearSyncPeer (peer : Peer)
  | resetDownloadState

def downloadStep (d : Downloads) : DownloadStep → Option Downloads
  | .newPeer peer syncCandidate => d.handleNewPeerMsg peer syncCandidate
  | .donePeer peer => d.handleDonePeerMsg peer
  | .dropHeaderPeer peer => d.dropPeer peer
  | .startSync env peers => d.startSync env peers
  | .blockSyncAddPeer env peer => d.blockSyncAddPeer env peer
  | .startParallelBlockDownload env peers order => d.startParallelBlockDownload env peers order
  | .fetchHeaderBlocks env peer => d.fetchHeaderBlocks env peer
  | .blkDownload env => d.blkDownload env
  | .block env peer hash => d.handleBlockMsg env peer hash
  | .notFound peer hashes => d.handleNotFoundMsg peer hashes
  | .inv env ibdMode peer announced => d.handleInvMsg env ibdMode peer announced
  | .reissueStaleBlockSlice env start => d.reissueStaleBlockSlice env start
  | .reissueStalledBlockPeers env => d.reissueStalledBlockPeers env
  | .clearSyncPeer peer => d.clearSyncPeer peer
  | .resetDownloadState => d.resetDownloadState

end IniNode.Netsync
