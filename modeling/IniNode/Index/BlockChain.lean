import IniNode.Index.ChainInit
import IniNode.Index.Flush
/-!
# The chain around the block index

The parts of `BlockChain` that use the block index: accepting headers and blocks, connecting and disconnecting
blocks, writing the index out, reading evicted blocks back from the database, and rolling the header chain back.
Each is a step of a machine, and a call of the exported functions is a list of steps: `ProcessBlockHeader` is
`header` after the reads and repairs its checks make, with a `flush` when enough headers have come; `ProcessBlock`
is `block` and `flush`, then `connect`, or `disconnect`s and `connect`s when it reorganizes, then `headerTip`;
`InvalidateBlock` and `ReconsiderBlock` are `setStatus`, `disconnect`, `connect` and `flush` steps;
`CheckConnectBlockTemplate` and `PastMedianTime` are `template` with the reads of their checks. What the checks
decide, and the utxo set, are left to the list of steps. Steps that write carry a flag saying whether the database
commits. Without a write queue every `connect` is followed at once by the `commit` of its item.
-/

open IniNode.Lib Option

namespace IniNode

structure Checkpoint where
  height : Int
  hash : Hash
deriving DecidableEq, Repr

def coldCacheSize : Nat := 64

def headerFlushBatchSize : Nat := 20000

structure ColdCache where
  order : List Hash
  nodes : AList fun _ : Hash => Ptr

namespace ColdCache

/-- `newColdNodeCache`, and the cache after `reset`. -/
def empty : ColdCache := ⟨[], ∅⟩

def get (c : ColdCache) (hash : Hash) : Option Ptr := c.nodes.lookup hash

def put (c : ColdCache) (hash : Hash) (node : Ptr) : ColdCache :=
  if (c.get hash).isSome then c
  else
    let nodes := c.nodes.insert hash node
    match c.order ++ [hash] with
    | evicted :: order =>
      if coldCacheSize < order.length + 1 then ⟨order, nodes.erase evicted⟩ else ⟨evicted :: order, nodes⟩
    | [] => ⟨[], nodes⟩

end ColdCache

/-- `BlockChain`, as far as it uses the block index. -/
structure BlockChain where
  bi : BlockIndex
  /-- `bestHeader`, once it is no longer the view that the index holds. -/
  ownHeader : Option ChainView
  db : Db
  /-- The items no transaction has taken yet. -/
  queue : List WriteItem
  coldCache : ColdCache
  headerFlushCount : Nat
  checkpointNode : Option Ptr
  nextCheckpoint : Option Checkpoint
  /-- The headers that a node was ever made for, each with its height. -/
  known : Store Hash (BlockHeader × Int)
  /-- The hashes of the connected blocks, from genesis on. -/
  chain : List Hash

namespace BlockChain

variable (b : BlockChain)

def bestHeader : ChainView := b.ownHeader.getD b.bi.bestHeader

variable (node : Ptr)

def setHeaderTip : BlockChain :=
  match b.ownHeader with
  | some view => { b with ownHeader := some (view.setTip b.bi.mem (some node)) }
  | none => { b with bi := { b.bi with bestHeader := b.bi.bestHeader.setTip b.bi.mem (some node) } }

def setChainTip (node : Option Ptr) : BlockChain :=
  { b with bi := { b.bi with bestChain := b.bi.bestChain.setTip b.bi.mem node } }

/-- What `bestHeaderNode` says of the header tip. -/
def headerState : Option (Hash × Int) :=
  b.bestHeader.tip.map fun p => ((b.bi.mem p).hash, (b.bi.mem p).height)

/-! ## Writing the index out -/

/-- `finishFlushLocked`, with the hook that clears the cold cache. -/
def finishFlush (forceEvict : Bool) : BlockChain :=
  { b with
    bi := b.bi.finishFlush forceEvict
    coldCache := if b.bi.evicts forceEvict ∧ b.bi.evicted ≠ [] then .empty else b.coldCache }

def flushToDB (forceEvict ok : Bool) : BlockChain :=
  if b.bi.dirty = [] ∨ ok = false then b
  else { b with db := AsyncChain.flushToDB b.db b.bi.snapshotDirty b.headerState }.finishFlush forceEvict

/-- The writer takes the first items of the queue into one transaction. When it fails, the items are gone. -/
def commit (n : Nat) (ok : Bool) : BlockChain :=
  { b with
    queue := b.queue.drop n
    db := if ok then (flushBatch b.db (b.queue.take n)).getD b.db else b.db }

/-! ## Reading evicted blocks back -/

variable (hash : Hash)

/-- The node `materializeColdNodeWithTx` makes of a row. -/
def coldNode (row : NodeRow) (height : Int) : BlockNode where
  parent := b.bi.lookupNode row.header.prevBlock
  hash := hash
  header := row.header
  workSum := 0
  height := height
  status := row.status

def materializeColdNode : Option Ptr × BlockChain :=
  if b.bi.windowSize = 0 then (none, b)
  else
    match b.bi.lookupNode hash, b.coldCache.get hash, b.db.fetchBlockRowByHash hash with
    | some p, _, _ => (some p, b)
    | none, some p, _ => (some p, b)
    | none, none, none => (none, b)
    | none, none, some (row, height) =>
      (some b.bi.fresh,
        { b with
          bi := b.bi.alloc (b.coldNode hash row height)
          coldCache := b.coldCache.put hash b.bi.fresh })

/-- The walk of `repairAncestorChain`. -/
def repairFrom : Nat → Ptr → BlockChain → BlockChain
  | 0, _, b => b
  | depth + 1, cur, b =>
    match (b.bi.mem cur).parent with
    | some q => repairFrom depth q b
    | none =>
      if (b.bi.mem cur).parentHash = zeroHash then b
      else
        match b.materializeColdNode (b.bi.mem cur).parentHash with
        | (none, b) => b
        | (some q, b) =>
          repairFrom depth q
            { b with bi := { b.bi with mem := Function.update b.bi.mem cur { b.bi.mem cur with parent := some q } } }

def repairAncestorChain (depth : Nat) : BlockChain := repairFrom depth node b

/-! ## Headers and blocks -/

variable (params : ChainParams)

def makeNode (b : BlockChain) (header : BlockHeader) (prev : Ptr) (recycled : Option Ptr)
    (status : BlockStatus) : BlockChain :=
  let p := b.bi.newPtr recycled
  { b with
    bi := ((b.bi.newBlockNode params header (some prev) recycled).putStatus p status).addDirtyNode p
    known := b.known.write ⟨params.blockHash header, some (header, (b.bi.mem prev).height + 1)⟩ }

/-- The header becomes the tip of the header chain when it extends it or has more work. -/
def extendHeader : BlockChain :=
  match b.bestHeader.tip with
  | none => b
  | some tip =>
    if (b.bi.mem node).parentHash = (b.bi.mem tip).hash ∨ (b.bi.mem tip).workSum < (b.bi.mem node).workSum then
      b.setHeaderTip node
    else b

/-- The headers are counted, and every so many of them there is a flush. -/
def countHeader : BlockChain × Bool :=
  if headerFlushBatchSize ≤ b.headerFlushCount + 1 then ({ b with headerFlushCount := 0 }, true)
  else ({ b with headerFlushCount := b.headerFlushCount + 1 }, false)

/-- `maybeAcceptBlockHeader`, when its checks pass, up to its flush; with whether the flush is due. -/
def acceptHeader (b : BlockChain) (header : BlockHeader) (recycled : Option Ptr) : Option (BlockChain × Bool) :=
  (b.bi.lookupNode header.prevBlock).map fun prev =>
    match b.bi.lookupNode (params.blockHash header) with
    | some p => if b.bestHeader.contains b.bi.mem p then (b, false) else (b.extendHeader p).countHeader
    | none =>
      ((b.makeNode params header prev recycled { headerStored := true }).extendHeader (b.bi.newPtr recycled)).countHeader

/-- `maybeAcceptBlock`, when its checks pass, up to its first flush. -/
def acceptBlock (b : BlockChain) (header : BlockHeader) (recycled : Option Ptr) : Option BlockChain :=
  (b.bi.lookupNode header.prevBlock).map fun prev =>
    match b.bi.lookupNode (params.blockHash header) with
    | some p => { b with bi := (b.bi.setStatusFlags p { dataStored := true }).relink p prev }
    | none => b.makeNode params header prev recycled { dataStored := true, headerStored := true }

/-- A node is made for a header and not kept, as by `CheckConnectBlockTemplate` and `PastMedianTime`. Its struct is
taken like that of any other new node. -/
def templateNode (b : BlockChain) (header : BlockHeader) (recycled : Option Ptr) : Option BlockChain :=
  (b.bi.lookupNode header.prevBlock).map fun prev =>
    { b with bi := b.bi.newBlockNode params header (some prev) recycled }

/-- The end of `maybeAcceptBlock`: the header chain follows the best chain when that has more work. -/
def followBestChain : BlockChain :=
  match b.bi.bestChain.tip, b.bestHeader.tip with
  | some p, some tip => if (b.bi.mem tip).workSum < (b.bi.mem p).workSum then b.setHeaderTip p else b
  | _, _ => b

/-! ## The best chain -/

def itemFor (item : WriteItem) : WriteItem :=
  let n := b.bi.mem node
  { item with
    height := n.height
    nodeRows := b.bi.snapshotDirty
    bestTipHash := n.hash
    tipHeight := n.height
    tipWork := n.workSum
    bestState := ⟨n.hash, n.height, item.bestState.totalTxns⟩
    blockHash := n.hash
    bestHeaderHash := (b.headerState.map Prod.fst).getD zeroHash
    bestHeaderHeight := (b.headerState.map Prod.snd).getD (-1) }

/-- The end of `connectBlock`, once the item is in the queue. -/
def connected (node : Ptr) (hash : Hash) (item : WriteItem) : BlockChain :=
  { b.finishFlush false with
    queue := b.queue ++ [b.itemFor node item]
    chain := b.chain ++ [hash] }.setChainTip (some node)

/-- `connectBlock`, on a node of the index. The item is lost when the queue has been stopped. -/
def connectBlock (item : WriteItem) (enqueued : Bool) : Option BlockChain :=
  match b.bi.lookupNode hash, b.bi.bestChain.tip with
  | some p, some tip =>
    if (b.bi.mem p).parentHash ≠ (b.bi.mem tip).hash then none
    else some (if enqueued then b.connected p hash item else b.finishFlush false)
  | _, _ => none

/-- `syncNowBelow`: the writer commits the items up to the height, those of its own batch in one transaction and
those still in the channel in another, and drops the items above. -/
def syncNowBelow (maxHeight : Int) (batched : Nat) : BlockChain :=
  let db := (flushBatch b.db ((b.queue.take batched).filter (WriteItem.keptBelow maxHeight))).getD b.db
  let db := (flushBatch db ((b.queue.drop batched).filter (WriteItem.keptBelow maxHeight))).getD db
  { b with queue := [], db := db }

/-- The part of the transaction of `disconnectBlock` that is about the index. -/
def disconnectTx (node prev : Ptr) (totalTxns : UInt64) : Db :=
  let n := b.bi.mem node
  let q := b.bi.mem prev
  let db := b.db.putBestState ⟨q.hash, q.height, totalTxns⟩ n.workSum
  let db := n.parent.elim db fun r => db.putBestTipSnapshot (b.bi.mem r).hash (b.bi.mem r).height (b.bi.mem r).workSum
  db.removeBlockIndex n.hash n.height

/-- The end of `disconnectBlock`, when its transaction commits. -/
def disconnected (node prev : Ptr) (totalTxns : UInt64) : BlockChain :=
  { b with db := b.disconnectTx node prev totalTxns, chain := b.chain.dropLast }.setChainTip (b.bi.mem node).parent

/-- `disconnectBlock`, on the tip of the best chain, from the call of `syncNowBelow` on. The flush before it may
have cut the tip's parent, which was read before that. -/
def disconnectBlock (prev : Ptr) (totalTxns : UInt64) (batched : Nat) (ok : Bool) : Option BlockChain :=
  b.bi.bestChain.tip.bind fun p =>
    if (b.bi.mem p).parent = some prev ∨ (b.bi.mem p).parent = none then
      let b := b.syncNowBelow (b.bi.mem prev).height batched
      some (if ok then b.disconnected p prev totalTxns else b)
    else none

/-! ## Rolling the header chain back -/

variable (rollbackHeight : Int)

/-- `InvalidateHeaderChain` replaces the header view by one rooted at a block of the best chain. -/
def rebuildHeader : Option BlockChain :=
  (b.bi.bestChain.nodeByHeight rollbackHeight).map fun p =>
    { b with ownHeader := some (({} : ChainView).setTip b.bi.mem (some p)) }

/-- The last transaction of `InvalidateHeaderChain`. -/
def rolledBack (oldHeaderTip : Int) (totalTxns : UInt64) (node : Ptr) : BlockChain :=
  let n := b.bi.mem node
  let db :=
    { b.db with
      heightIndex := fun h => if rollbackHeight < h ∧ h ≤ oldHeaderTip then none else b.db.heightIndex h }
  { b with
    db := (db.putBestState ⟨n.hash, n.height, totalTxns⟩ n.workSum).putBestTipSnapshot n.hash n.height n.workSum }

/-- The rest of `InvalidateHeaderChain`, once the blocks above have been disconnected and removed. -/
def rollback (oldHeaderTip : Int) (totalTxns : UInt64) (ok : Bool) : Option BlockChain :=
  (b.bi.bestChain.nodeByHeight rollbackHeight).map fun p =>
    let b := b.setChainTip (some p)
    if ok then b.rolledBack rollbackHeight oldHeaderTip totalTxns p else b

/-- A block that `removeDisconnectedBlocks` takes out of the database and the index. -/
def removed (node : Ptr) : BlockChain :=
  { b with
    db :=
      { b.db with
        blocks := b.db.blocks.write ⟨hash, none⟩
        blockIndex := b.db.blockIndex.write ⟨((b.bi.mem node).height, hash), none⟩ }
    bi := b.bi.removeNode hash }

def removeDisconnected : Option BlockChain :=
  (b.bi.lookupNode hash).map fun p => b.removed hash p

/-! ## Checkpoints -/

/-- The latest checkpoint whose block is on the best chain, with the one that follows it. -/
def searchCheckpoint (b : BlockChain) : List Checkpoint → Option (Ptr × Option Checkpoint)
  | [] => none
  | c :: cs =>
    match b.searchCheckpoint cs with
    | some r => some r
    | none => ((b.bi.lookupNode c.hash).filter fun p => b.bi.bestChain.contains b.bi.mem p).map fun p => (p, cs.head?)

/-- The checkpoint that follows the last one with the hash. -/
def checkpointAfter (hash : Hash) : List Checkpoint → Option (Option Checkpoint)
  | [] => none
  | c :: cs =>
    match checkpointAfter hash cs with
    | some r => some r
    | none => if c.hash = hash then some cs.head? else none

/-- The node of the next checkpoint, read back from the database when it has been evicted. -/
def fetchCheckpoint : Option Ptr × BlockChain :=
  match b.bi.lookupNode hash with
  | some p => (some p, b)
  | none => b.materializeColdNode hash

/-- `findPreviousCheckpoint`: the node or none, or `none` when it fails. -/
def findPreviousCheckpoint (checkpoints : List Checkpoint) (b : BlockChain) : Option (Option Ptr) × BlockChain :=
  match checkpoints, b.checkpointNode, b.nextCheckpoint with
  | [], _, _ => (some none, b)
  | c :: cs, none, none =>
    match b.searchCheckpoint (c :: cs) with
    | some (p, next) => (some (some p), { b with checkpointNode := some p, nextCheckpoint := next })
    | none => (some none, { b with nextCheckpoint := some c })
  | _, node, none => (some node, b)
  | checkpoints, node, some next =>
    match b.bi.bestChain.tip with
    | none => (none, b)
    | some tip =>
      if (b.bi.mem tip).height < next.height then (some node, b)
      else
        match b.fetchCheckpoint next.hash with
        | (none, b) => (none, b)
        | (some p, b) =>
          (some (some p),
            { b with checkpointNode := some p, nextCheckpoint := (checkpointAfter next.hash checkpoints).join })

end BlockChain

/-! ## The machine -/

/-- `New` on an empty database, by way of `createChainState`. -/
def BlockChain.create (params : ChainParams) (header : BlockHeader) (totalTxns : UInt64) (windowSize : Int) : BlockChain :=
  let hash := params.blockHash header
  let status : BlockStatus := { dataStored := true, valid := true }
  let bi := ((emptyIndex windowSize).newBlockNode params header none none).putStatus 0 status
  let bi :=
    { bi with
      bestChain := bi.bestChain.setTip bi.mem (some 0)
      bestHeader := bi.bestHeader.setTip bi.mem (some 0)
      ready := true }
  { bi := bi.addNode 0
    ownHeader := none
    db :=
      (((emptyDb.storeBlockNode hash 0 ⟨header, status⟩).putBlockIndex hash 0).putBestState ⟨hash, 0, totalTxns⟩
        (calcWork header.bits)).putBestHeaderState hash 0
    queue := []
    coldCache := .empty
    headerFlushCount := 0
    checkpointNode := none
    nextCheckpoint := none
    known := fun x => if x = hash then some (header, 0) else none
    chain := [hash] }

/-- A call of the chain, or a transaction of its writer. -/
inductive ChainStep where
  | header (header : BlockHeader) (recycled : Option Ptr)
  | block (header : BlockHeader) (recycled : Option Ptr)
  | flush (forceEvict ok : Bool)
  | connect (hash : Hash) (item : WriteItem) (enqueued : Bool)
  | headerTip
  | disconnect (prev : Ptr) (totalTxns : UInt64) (batched : Nat) (ok : Bool)
  | setStatus (hash : Hash) (flags : BlockStatus)
  | unsetStatus (hash : Hash) (flags : BlockStatus)
  | commit (n : Nat) (ok : Bool)
  | lookup (hash : Hash)
  | repair (hash : Hash) (depth : Nat)
  | checkpoint
  | rebuildHeader (rollbackHeight : Int)
  | rollback (rollbackHeight oldHeaderTip : Int) (totalTxns : UInt64) (ok : Bool)
  | remove (hash : Hash)
  | template (header : BlockHeader) (recycled : Option Ptr)

def BlockChain.step (params : ChainParams) (checkpoints : List Checkpoint) (b : BlockChain) : ChainStep → Option BlockChain
  | .header header recycled => (b.acceptHeader params header recycled).map Prod.fst
  | .block header recycled => b.acceptBlock params header recycled
  | .flush forceEvict ok => some (b.flushToDB forceEvict ok)
  | .connect hash item enqueued => b.connectBlock hash item enqueued
  | .headerTip => some b.followBestChain
  | .disconnect prev totalTxns batched ok => b.disconnectBlock prev totalTxns batched ok
  | .setStatus hash flags => (b.bi.lookupNode hash).map fun p => { b with bi := b.bi.setStatusFlags p flags }
  | .unsetStatus hash flags => (b.bi.lookupNode hash).map fun p => { b with bi := b.bi.unsetStatusFlags p flags }
  | .commit n ok => some (b.commit n ok)
  | .lookup hash => some (b.materializeColdNode hash).2
  | .repair hash depth => (b.bi.lookupNode hash).map fun p => b.repairAncestorChain p depth
  | .checkpoint => some (b.findPreviousCheckpoint checkpoints).2
  | .rebuildHeader rollbackHeight => b.rebuildHeader rollbackHeight
  | .rollback rollbackHeight oldHeaderTip totalTxns ok => b.rollback rollbackHeight oldHeaderTip totalTxns ok
  | .remove hash => b.removeDisconnected hash
  | .template header recycled => b.templateNode params header recycled

/-! ## What a step does -/

namespace BlockChain

variable {params : ChainParams} {checkpoints : List Checkpoint}

/-- What a step can do. -/
inductive Move (params : ChainParams) (checkpoints : List Checkpoint) (b : BlockChain) : ChainStep → BlockChain → Prop
  | headerKnown {header recycled prev p} (hprev : b.bi.lookupNode header.prevBlock = some prev)
    (hp : b.bi.lookupNode (params.blockHash header) = some p) (hin : b.bestHeader.contains b.bi.mem p) :
    Move params checkpoints b (.header header recycled) b
  | headerOld {header recycled prev p} (hprev : b.bi.lookupNode header.prevBlock = some prev)
    (hp : b.bi.lookupNode (params.blockHash header) = some p) (hin : ¬ b.bestHeader.contains b.bi.mem p) :
    Move params checkpoints b (.header header recycled) (b.extendHeader p).countHeader.1
  | headerNew {header recycled prev} (hprev : b.bi.lookupNode header.prevBlock = some prev)
    (hnew : b.bi.lookupNode (params.blockHash header) = none) :
    Move params checkpoints b (.header header recycled)
      ((b.makeNode params header prev recycled { headerStored := true }).extendHeader
        (b.bi.newPtr recycled)).countHeader.1
  | blockOld {header recycled prev p} (hprev : b.bi.lookupNode header.prevBlock = some prev)
    (hp : b.bi.lookupNode (params.blockHash header) = some p) :
    Move params checkpoints b (.block header recycled)
      { b with bi := (b.bi.setStatusFlags p { dataStored := true }).relink p prev }
  | blockNew {header recycled prev} (hprev : b.bi.lookupNode header.prevBlock = some prev)
    (hnew : b.bi.lookupNode (params.blockHash header) = none) :
    Move params checkpoints b (.block header recycled)
      (b.makeNode params header prev recycled { dataStored := true, headerStored := true })
  | flush (forceEvict ok) : Move params checkpoints b (.flush forceEvict ok) (b.flushToDB forceEvict ok)
  | connect {hash item p tip} (hp : b.bi.lookupNode hash = some p) (htip : b.bi.bestChain.tip = some tip)
    (hparent : (b.bi.mem p).parentHash = (b.bi.mem tip).hash) :
    Move params checkpoints b (.connect hash item true) (b.connected p hash item)
  | connectLost {hash item p tip} (hp : b.bi.lookupNode hash = some p) (htip : b.bi.bestChain.tip = some tip)
    (hparent : (b.bi.mem p).parentHash = (b.bi.mem tip).hash) :
    Move params checkpoints b (.connect hash item false) (b.finishFlush false)
  | headerTip : Move params checkpoints b .headerTip b.followBestChain
  | disconnect {prev totalTxns batched p} (hp : b.bi.bestChain.tip = some p)
    (hprev : (b.bi.mem p).parent = some prev ∨ (b.bi.mem p).parent = none) :
    Move params checkpoints b (.disconnect prev totalTxns batched true)
      ((b.syncNowBelow (b.bi.mem prev).height batched).disconnected p prev totalTxns)
  | disconnectFailed {prev totalTxns batched p} (hp : b.bi.bestChain.tip = some p)
    (hprev : (b.bi.mem p).parent = some prev ∨ (b.bi.mem p).parent = none) :
    Move params checkpoints b (.disconnect prev totalTxns batched false) (b.syncNowBelow (b.bi.mem prev).height batched)
  | setStatus {hash flags p} (hp : b.bi.lookupNode hash = some p) :
    Move params checkpoints b (.setStatus hash flags) { b with bi := b.bi.setStatusFlags p flags }
  | unsetStatus {hash flags p} (hp : b.bi.lookupNode hash = some p) :
    Move params checkpoints b (.unsetStatus hash flags) { b with bi := b.bi.unsetStatusFlags p flags }
  | commit (n ok) : Move params checkpoints b (.commit n ok) (b.commit n ok)
  | lookup (hash) : Move params checkpoints b (.lookup hash) (b.materializeColdNode hash).2
  | repair {hash depth p} (hp : b.bi.lookupNode hash = some p) :
    Move params checkpoints b (.repair hash depth) (b.repairAncestorChain p depth)
  | checkpoint : Move params checkpoints b .checkpoint (b.findPreviousCheckpoint checkpoints).2
  | rebuildHeader {height p} (hp : b.bi.bestChain.nodeByHeight height = some p) :
    Move params checkpoints b (.rebuildHeader height)
      { b with ownHeader := some (({} : ChainView).setTip b.bi.mem (some p)) }
  | rollback {height oldHeaderTip totalTxns p} (hp : b.bi.bestChain.nodeByHeight height = some p) :
    Move params checkpoints b (.rollback height oldHeaderTip totalTxns true)
      ((b.setChainTip (some p)).rolledBack height oldHeaderTip totalTxns p)
  | rollbackFailed {height oldHeaderTip totalTxns p} (hp : b.bi.bestChain.nodeByHeight height = some p) :
    Move params checkpoints b (.rollback height oldHeaderTip totalTxns false) (b.setChainTip (some p))
  | remove {hash p} (hp : b.bi.lookupNode hash = some p) :
    Move params checkpoints b (.remove hash) (b.removed hash p)
  | template {header recycled prev} (hprev : b.bi.lookupNode header.prevBlock = some prev) :
    Move params checkpoints b (.template header recycled)
      { b with bi := b.bi.newBlockNode params header (some prev) recycled }

theorem step_move {b b' : BlockChain} {a : ChainStep} (h : b.step params checkpoints a = some b') :
    Move params checkpoints b a b' := by
  cases a with
  | header header recycled =>
    obtain ⟨r, hr, rfl⟩ := map_eq_some_iff.1 h
    obtain ⟨prev, hprev, rfl⟩ := map_eq_some_iff.1 hr
    split
    next p hp =>
      split
      next hin => exact .headerKnown hprev hp hin
      next hin => exact .headerOld hprev hp hin
    next hnew => exact .headerNew hprev hnew
  | block header recycled =>
    obtain ⟨prev, hprev, rfl⟩ := map_eq_some_iff.1 h
    split
    next p hp => exact .blockOld hprev hp
    next hnew => exact .blockNew hprev hnew
  | flush forceEvict ok => cases h; exact .flush forceEvict ok
  | connect hash item enqueued =>
    simp only [step, connectBlock] at h
    split at h
    next p tip hp htip =>
      split at h
      · cases h
      next hparent =>
        rw [not_ne_iff] at hparent
        cases enqueued <;> cases h
        · exact .connectLost hp htip hparent
        · exact .connect hp htip hparent
    · cases h
  | headerTip => cases h; exact .headerTip
  | disconnect prev totalTxns batched ok =>
    obtain ⟨p, hp, h⟩ := bind_eq_some_iff.1 h
    split at h
    next hprev =>
      cases ok <;> cases h
      · exact .disconnectFailed hp hprev
      · exact .disconnect hp hprev
    · cases h
  | setStatus hash flags =>
    obtain ⟨p, hp, rfl⟩ := map_eq_some_iff.1 h
    exact .setStatus hp
  | unsetStatus hash flags =>
    obtain ⟨p, hp, rfl⟩ := map_eq_some_iff.1 h
    exact .unsetStatus hp
  | commit n ok => cases h; exact .commit n ok
  | lookup hash => cases h; exact .lookup hash
  | repair hash depth =>
    obtain ⟨p, hp, rfl⟩ := map_eq_some_iff.1 h
    exact .repair hp
  | checkpoint => cases h; exact .checkpoint
  | rebuildHeader height =>
    obtain ⟨p, hp, rfl⟩ := map_eq_some_iff.1 h
    exact .rebuildHeader hp
  | rollback height oldHeaderTip totalTxns ok =>
    obtain ⟨p, hp, rfl⟩ := map_eq_some_iff.1 h
    cases ok
    · exact .rollbackFailed hp
    · exact .rollback hp
  | remove hash =>
    obtain ⟨p, hp, rfl⟩ := map_eq_some_iff.1 h
    exact .remove hp
  | template header recycled =>
    obtain ⟨prev, hprev, rfl⟩ := map_eq_some_iff.1 h
    exact .template hprev

end BlockChain

end IniNode
