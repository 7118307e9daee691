import IniNode.Lib.Store
import IniNode.Wire
/-!
# The parallel header download

The part of the sync manager that downloads headers from several peers: the ranges it hands out, the cache of hashes it
asks the chain for, and how a download starts, restarts and ends. What it asks of the chain is a parameter. Ranges and
downloads are shared through pointers, so they are kept in tables by address; a handler that holds a download keeps its
address when the manager starts another one. The block download and the messages that are sent are left out.
-/

open Function

namespace IniNode.Netsync

abbrev Peer := Nat

inductive HeaderError
  | previousBlockUnknown
  | rule
  | other
deriving DecidableEq

/-- What the sync manager asks of the chain. `processBlockHeader` gets the flag that skips the proof-of-work check;
`invalidateHeaderChain` tells whether it succeeded. -/
structure ChainApi (χ : Type) where
  blockHash : BlockHeader → Hash
  bestHeaderHeight : χ → Int
  bestHeight : χ → Int
  isCurrent : χ → Bool
  headerHashByHeight : χ → Int → Option Hash
  headerHeightByHash : χ → Hash → Option Int
  isValidHeader : χ → Hash → Bool
  processBlockHeader : χ → BlockHeader → Bool → χ × Option HeaderError
  invalidateHeaderChain : χ → Int → χ × Bool

def maxHeaderSyncPeers : Nat := 8

/-- In milliseconds. -/
def headerRangeStallTimeout : Nat := 6000

def headerRunawayThreshold : Int := 100

def headerLeadLimit : Int := 42000

def headerLeadResume : Int := 28000

def maxFabricatedRollbacks : Nat := 5

def maxBlockHeadersPerMsg : Int := 2000

structure HeaderRange where
  start : Int
  peer : Peer
  headers : List BlockHeader := []
  received : Bool := false
  assignedAt : Nat
  applied : Int := 0
  firstHash : Option Hash := none
  firstPeer : Option Peer := none
  confirmed : Bool := false

abbrev RangeId := Nat

structure HeaderSyncState where
  peers : List Peer
  target : Int
  nextHeight : Int
  nextAssign : Int
  ranges : AList fun _ : Int => RangeId
  peerRange : AList fun _ : Peer => RangeId
  sliceLen : Int
  leadPaused : Bool := false

abbrev SyncId := Nat

structure RequestWindowCache where
  cache : AList fun _ : Int => Hash := ∅
  min : Int := 0x7fffffff
  max : Int := -0x7fffffff
  last : Int := 0

def snapInterval : Int := 2000

namespace RequestWindowCache

variable (w : RequestWindowCache)

def put (height : Int) (hash : Hash) : RequestWindowCache where
  cache := w.cache.insert height hash
  min := if height < w.min then height else w.min
  max := if height > w.max then height else w.max
  last := w.last

def maybeSlide (bench : Int) : RequestWindowCache :=
  if w.max = -0x7fffffff ∨ bench - w.last < snapInterval then w
  else
    let cutoff := bench - headerLeadLimit
    if cutoff ≤ w.min then { w with last := bench }
    else
      { w with
        last := bench
        cache := (w.cache.keys.filter (· < cutoff)).foldl (fun c h => c.erase h) w.cache
        min := cutoff }

end RequestWindowCache

/-- The sync manager. `answers` and `appliedRanges` are its history: the answers of peers to the ranges they hold, with
the hash of the first header, and the ranges whose headers were handed to the chain. -/
structure Manager (χ : Type) where
  chain : χ
  /-- The connected peers, with their `syncCandidate` flag. -/
  peerStates : AList fun _ : Peer => Bool
  lastBlock : Peer → Int
  addr : Peer → String
  host : Peer → String
  rangeAt : RangeId → HeaderRange
  nextRange : RangeId := 0
  syncAt : SyncId → HeaderSyncState
  nextSync : SyncId := 0
  headerSync : Option SyncId := none
  syncPeer : Option Peer := none
  ibdMode : Bool := false
  reqWindow : RequestWindowCache := {}
  frontUnreachable : AList fun _ : Int => AList fun _ : String => Nat := ∅
  fabricatedRollbackDepth : Int := 0
  fabricatedRollbackHeight : Int := 0
  fabricatedRollbackCount : Nat := 0
  answers : List (RangeId × Peer × Hash) := []
  appliedRanges : List RangeId := []

/-- What a step of the manager meets: the time, the order in which peers come out of the map and the shuffle, and the
order in which ranges come out of theirs. -/
structure Env where
  now : Nat
  shuffle : List Peer → List Peer
  starts : List Int := []

namespace Manager

variable {χ : Type} (A : ChainApi χ) (e : Env) (s : Manager χ)

def setRange (r : RangeId) (rng : HeaderRange) : Manager χ :=
  { s with rangeAt := update s.rangeAt r rng }

variable (id : SyncId)

def setSync (hs : HeaderSyncState) : Manager χ :=
  { s with syncAt := update s.syncAt id hs }

@[simp] theorem rangeAt_setRange (r : RangeId) (rng : HeaderRange) :
    (s.setRange r rng).rangeAt = update s.rangeAt r rng := rfl

@[simp] theorem syncAt_setSync (hs : HeaderSyncState) : (s.setSync id hs).syncAt = update s.syncAt id hs := rfl

variable (height : Int)

def fetchHigherPeers : List Peer :=
  s.peerStates.keys.filter fun p => s.peerStates.lookup p = some true ∧ height < s.lastBlock p

/-- The hash at a height, from the cache or from the chain; what the chain answers goes into the cache. -/
def cachedHash : Manager χ × Option Hash :=
  match s.reqWindow.cache.lookup height with
  | some hash => (s, some hash)
  | none =>
    match A.headerHashByHeight s.chain height with
    | some hash => ({ s with reqWindow := s.reqWindow.put height hash }, some hash)
    | none => (s, none)

@[simp] theorem rangeAt_cachedHash : (s.cachedHash A height).1.rangeAt = s.rangeAt := by
  rw [cachedHash]
  split
  · rfl
  · split <;> rfl

/-- `headerLocator`, for what it leaves in the cache. -/
def headerLocator : Manager χ :=
  if height < 0 then s else (s.cachedHash A height).1

def launchHeaderRange (peer : Peer) (start : Int) : Manager χ × Bool :=
  match s.headerSync with
  | none => (s, false)
  | some id =>
    let hs := s.syncAt id
    let lead := A.bestHeaderHeight s.chain - A.bestHeight s.chain
    if hs.leadPaused ∧ headerLeadResume < lead then (s, false)
    else if ¬ hs.leadPaused ∧ headerLeadLimit < lead then (s.setSync id { hs with leadPaused := true }, false)
    else
      let r := s.nextRange
      let s := { s with nextRange := r + 1 }
      let s := s.setRange r { start := start, peer := peer, assignedAt := e.now, confirmed := true }
      let s := s.setSync id
        { hs with leadPaused := false, ranges := hs.ranges.insert start r, peerRange := hs.peerRange.insert peer r }
      (s.headerLocator A (start - 1), true)

variable (hs : HeaderSyncState)

/-- `nextRangeBeyond`, for the start of the range. -/
def nextRangeBeyond (start : Int) : Option Int :=
  (hs.ranges.keys.filter (start < ·)).min?

/-- The end of a slice that starts at a height, for a peer. -/
def sliceEnd (peer : Peer) (start : Int) : Int :=
  let sliceEnd := min (start + hs.sliceLen) (s.lastBlock peer + 1)
  match nextRangeBeyond hs start with
  | some nextStart => min sliceEnd nextStart
  | none => sliceEnd

/-- Where the next range starts: at a hole at the front, or else at the frontier. -/
def nextStart : Int :=
  if (hs.ranges.lookup hs.nextHeight).isNone ∧ hs.nextHeight ≤ hs.target then hs.nextHeight else hs.nextAssign

def assignHeaderRange (peer : Peer) : Manager χ :=
  match s.headerSync with
  | none => s
  | some id =>
    let hs := s.syncAt id
    if (hs.peerRange.lookup peer).isSome then s
    else if headerLeadLimit < A.bestHeaderHeight s.chain - A.bestHeight s.chain then s
    else
      match (hs.ranges.lookup hs.nextHeight).filter fun r =>
        ¬ (s.rangeAt r).confirmed ∧ hs.nextHeight ≤ hs.target with
      | some r =>
        (s.setSync id { hs with peerRange := hs.peerRange.insert peer r }).headerLocator A (hs.nextHeight - 1)
      | none =>
        let start := nextStart hs
        if hs.target < start ∨ s.sliceEnd hs peer start ≤ start then s
        else
          let stop := s.sliceEnd hs peer start
          let (s, launched) := s.launchHeaderRange A e peer start
          let hs := s.syncAt id
          if launched ∧ start = hs.nextAssign then s.setSync id { hs with nextAssign := stop } else s

def reissueHeaderRange (peer : Peer) (start : Int) : Manager χ :=
  match s.headerSync with
  | none => s
  | some id =>
    let hs := s.syncAt id
    if (hs.peerRange.lookup peer).isSome ∨ hs.target < start ∨ s.sliceEnd hs peer start ≤ start then s
    else (s.launchHeaderRange A e peer start).1

def dropRange (start : Int) (peer : Peer) : Manager χ :=
  let hs := s.syncAt id
  s.setSync id { hs with ranges := hs.ranges.erase start, peerRange := hs.peerRange.erase peer }

/-- The range that a peer holds leaves its maps. -/
def releaseRange (peer : Peer) : Manager χ :=
  match (s.syncAt id).peerRange.lookup peer with
  | some r => s.dropRange id (s.rangeAt r).start peer
  | none => s

def headerRangeAppliable (front : HeaderRange) : Bool :=
  match front.headers with
  | [] => false
  | h :: _ => A.isValidHeader s.chain h.prevBlock

/-- The peer that takes over the front: an idle one, or else the one that holds the range with the greatest start. -/
def frontTaker : Option Peer :=
  match hs.peers.find? fun p => (hs.peerRange.lookup p).isNone with
  | some p => some p
  | none =>
    let startOf (p : Peer) := ((hs.peerRange.lookup p).map fun r => (s.rangeAt r).start).getD 0
    hs.peers.foldl (fun best p =>
      match best with
      | none => some p
      | some b => if startOf b < startOf p then some p else some b) none

def handOverFront : Manager χ :=
  let hs := s.syncAt id
  match s.frontTaker hs with
  | none => s
  | some p => (s.releaseRange id p).reissueHeaderRange A e p hs.nextHeight

def reissueFrontRange : Manager χ :=
  match s.headerSync with
  | none => s
  | some id =>
    let hs := s.syncAt id
    if hs.target < hs.nextHeight then s
    else
      match hs.ranges.lookup hs.nextHeight with
      | none => s.handOverFront A e id
      | some r =>
        let front := s.rangeAt r
        if front.received then
          if s.headerRangeAppliable A front then s
          else (s.dropRange id front.start front.peer).reissueHeaderRange A e front.peer front.start
        else if e.now - front.assignedAt < headerRangeStallTimeout then s
        else (s.dropRange id front.start front.peer).handOverFront A e id

/-- Peers of one host count once. -/
def uniqueHosts (peers : List Peer) : List Peer :=
  peers.foldl (fun uniq p => if s.host p ≠ "" ∧ s.host p ∈ uniq.map s.host then uniq else uniq ++ [p]) []

def tallest (peers : List Peer) : Int := peers.foldl (fun t p => max t (s.lastBlock p)) 0

/-- `fetchHeaders`; that it asks all peers when none is taller is left out. -/
def fetchHeaders : Manager χ :=
  let height := A.bestHeaderHeight s.chain
  if headerRunawayThreshold < height - A.bestHeight s.chain ∨ s.fetchHigherPeers height = [] then s
  else
    let shuffled := (s.uniqueHosts (e.shuffle (s.fetchHigherPeers height))).take maxHeaderSyncPeers
    let target := s.tallest shuffled
    if target ≤ height then s
    else
      let id := s.nextSync
      let hs : HeaderSyncState :=
        { peers := shuffled, target := target, nextHeight := height + 1, nextAssign := height + 1, ranges := ∅,
          peerRange := ∅, sliceLen := maxBlockHeadersPerMsg }
      let s := { s with ibdMode := true, syncPeer := shuffled.head?, nextSync := id + 1, headerSync := some id }
      shuffled.foldl (fun s p => s.assignHeaderRange A e p) (s.setSync id hs)

def isInIBDMode : Bool :=
  !(A.isCurrent s.chain && (s.fetchHigherPeers (A.bestHeight s.chain)).isEmpty)

/-- `startSync`, up to the start of a block download. -/
def startSync : Manager χ :=
  if s.syncPeer.isSome ∨ ¬ s.isInIBDMode A then s
  else if s.fetchHigherPeers (A.bestHeaderHeight s.chain) ≠ [] then s.fetchHeaders A e
  else
    match (e.shuffle (s.fetchHigherPeers (A.bestHeight s.chain))).head? with
    | none => s
    | some bestPeer => { s with syncPeer := some bestPeer, ibdMode := true }

def resetDownloadState : Manager χ :=
  { s with reqWindow := {}, headerSync := none, syncPeer := none, ibdMode := true }.startSync A e

/-- `rollbackToForkPoint`: whether the rollback was done. -/
def rollbackToForkPoint (forkHeight : Int) : Manager χ × Bool :=
  let (chain, done) := A.invalidateHeaderChain s.chain forkHeight
  let s := { s with chain := chain }
  if done then (s.resetDownloadState A e, true) else (s, false)

/-- The depth and the number of the next cut: a tip that moved on since the last one starts again. -/
def nextCut (target : Int) : Int × Nat :=
  if s.fabricatedRollbackHeight < target then (0, 0)
  else (s.fabricatedRollbackDepth + 1, s.fabricatedRollbackCount + 1)

def rollbackFabricatedHeaderChain : Manager χ :=
  if s.fetchHigherPeers (A.bestHeaderHeight s.chain) = [] then s
  else
    let target := max (A.bestHeight s.chain - 1) 0
    let (depth, count) := s.nextCut target
    let s := { s with fabricatedRollbackCount := count }
    if maxFabricatedRollbacks < count then s
    else
      let rollbackHeight := max (target - depth) 0
      let s := { s with fabricatedRollbackDepth := depth, fabricatedRollbackHeight := rollbackHeight }
      let (chain, done) := A.invalidateHeaderChain s.chain rollbackHeight
      let s := { s with chain := chain }
      if done then s.resetDownloadState A e else s

end Manager

end IniNode.Netsync
