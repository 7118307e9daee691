import IniNode.Chain.WriteQueue
import IniNode.Lib.Run
import IniNode.Utxo.Flush
import IniNode.Utxo.UtxoSet
import IniNode.Utxo.View
/-!
# The chain with the asynchronous write queue

The state machine of a node that writes asynchronously, as far as the utxo set goes: `InitConsistentState`
and the replay it may start, connecting a block, the writer's batches, flushes of the utxo cache, lookups,
and the rounds of `reorganizeChain` that detach blocks. Every database transaction is one step, so what
holds in every reached state holds at every point where the process can crash.

The queue holds the items that no transaction has taken yet, those of the writer's own batch first. Steps
that write carry a flag saying whether the database commits the transaction.
-/

namespace IniNode

def utxoHotDepth : Int := 2000

/-- What the block index supplies for a queue item. -/
structure ItemMeta where
  nodeRows : List NodeRowSnapshot
  tipWork : Nat
  bestHeaderHash : Hash
  bestHeaderHeight : Int
deriving DecidableEq, Repr

/-- What a block to be detached brings along: the rows `flushToDB` writes, how many queued items the writer
holds in its own batch, and the two sums of work. -/
structure DetachMeta where
  nodeRows : List NodeRowSnapshot
  bestHeader : Option (Hash × Int)
  batched : Nat
  workSum : Nat
  parentWork : Nat
deriving DecidableEq, Repr

/-- Where `InitConsistentState` is: about to connect the next block of the replay, or about to flush after
connecting one; afterwards the node runs. -/
inductive Phase where
  | replay (done todo : List Block)
  | replayed (done todo : List Block)
  | running
deriving DecidableEq

/-- `BlockChain` in asynchronous mode. -/
structure AsyncChain where
  /-- The best chain above genesis. -/
  chain : List Block
  phase : Phase
  cache : UtxoCache
  queue : List WriteItem
  /-- The view of the reorganization in progress, and whether it holds the inputs of the tip. -/
  view : UtxoViewpoint
  loaded : Bool
  db : Db
  totalTxns : UInt64

namespace AsyncChain

variable (sz : SizeHelper) (genesis : Hash) (st : AsyncChain)

def best : BestState := ⟨tipHash genesis st.chain, st.chain.length, st.totalTxns⟩

/-! ## Starting -/

def fetchHeaderByHash (db : Db) (hash : Hash) : Option BlockHeader :=
  (db.hashIndex hash).bind fun height => (db.blockIndex (height, hash)).map NodeRow.header

/-- The walk of `InitConsistentState` down the header rows, in at most `fuel` rounds: the hashes above the
consistent block, from the highest one on. -/
def walkBack (db : Db) (statusHash : Hash) : Nat → Hash → Option (List Hash)
  | 0, _ => none
  | fuel + 1, cur =>
    (fetchHeaderByHash db cur).bind fun header =>
      if cur = statusHash then some [] else (walkBack db statusHash fuel header.prevBlock).map (cur :: ·)

/-- The bodies `forwardRebuildMainChainMetadata` collects, from the consistent block down to the one above
the chain state. -/
def collectSegment (db : Db) (chainHash : Hash) : Nat → Hash → Option (List Block)
  | 0, _ => none
  | fuel + 1, cur =>
    (db.blocks cur).bind fun block =>
      if block.prevBlock = chainHash then some [block]
      else if block.prevBlock = zeroHash then none
      else (collectSegment db chainHash fuel block.prevBlock).map (block :: ·)

variable (calcWork : Nat → Nat)

/-- One block of the segment: its index rows, and the running totals. -/
def rebuildBlock (acc : Db × BestChainState) (block : Block) : Db × BestChainState :=
  let (db, cs) := acc
  let height := cs.height + 1
  let db := db.storeBlockNode block.hash height ⟨block.header, { dataStored := true, valid := true }⟩
  (db.putBlockIndex block.hash height,
   ⟨block.hash, height, cs.totalTxns + UInt64.ofNat block.transactions.length, cs.workSum + calcWork block.header.bits⟩)

def forwardRebuildMainChainMetadata (db : Db) (statusHash : Hash) (statusHeight : Int) : Option Db :=
  db.bestState.bind fun cs =>
    (collectSegment db cs.hash statusHeight.toNat statusHash).map fun reversed =>
      let (db, cs) := reversed.reverse.foldl (rebuildBlock calcWork) (db, cs)
      { db with
        bestState := some cs
        bestTipSnapshot := some ⟨cs.hash, cs.height, cs.workSum⟩
        writeWatermark := some cs.height }

/-- The node as `InitConsistentState` finds it: the chain of the best state over an empty cache. -/
def fromDb (chain : List Block) (db : Db) (maxTotalMemoryUsage : UInt64) (totalTxns : UInt64) : AsyncChain where
  chain := chain
  phase := .running
  cache := { UtxoCache.new sz maxTotalMemoryUsage with trackDeltas := true }
  queue := []
  view := ∅
  loaded := false
  db := db
  totalTxns := totalTxns

/-- `InitConsistentState` up to the replay; none when it fails. The node of the marker's block is in the index, which was
loaded from the rows, or is read from its row. -/
def initConsistentState (st : AsyncChain) : Option AsyncChain :=
  let tip := tipHash genesis st.chain
  match st.db.utxoStateConsistency with
  | none =>
    some { st with cache := { st.cache with lastFlushHash := tip }, db := st.db.putUtxoStateConsistency tip }
  | some statusHash =>
    if statusHash = tip then some { st with cache := { st.cache with lastFlushHash := tip } }
    else
      ((st.db.fetchBlockRowByHash statusHash).map Prod.snd).bind fun statusHeight =>
        if st.chain.length < statusHeight then
          -- the utxo set is ahead of the chain state; the tip in memory stays where it is
          (forwardRebuildMainChainMetadata calcWork st.db statusHash statusHeight).map fun db =>
            { st with cache := { st.cache with lastFlushHash := statusHash }, db := db }
        else
          let count := (st.chain.length - statusHeight).toNat
          (walkBack st.db statusHash (count + 1) tip).bind fun hashes =>
            if hashes.length ≠ count then none
            else
              (hashes.reverse.mapM st.db.blocks).map fun todo =>
                { st with phase := .replay (st.chain.take statusHeight.toNat) todo }

/-- The end of `InitConsistentState` after the replay loop. -/
def endReplay : AsyncChain :=
  { st with
    phase := .running
    cache := { st.cache.resetDelta with lastFlushHash := tipHash genesis st.chain } }

/-! ## Connecting and writing -/

/-- A block connected to the tip: `connectTransactions` on the cache, then the asynchronous path of
`connectBlock`. -/
def connectBlock (b : Block) (m : ItemMeta) : Option AsyncChain :=
  let height := nextHeight st.chain
  match st.cache.connectTransactions sz st.db.utxoSet b height (some []) with
  | .ok (cache, some stxos) =>
    if stxos.length ≠ countSpentOutputs b then none
    else
      let state : BestState := ⟨b.hash, height, st.totalTxns + UInt64.ofNat b.transactions.length⟩
      let (utxoDelta, cache) := cache.takeDelta
      let item : WriteItem :=
        { height := height, block := b, nodeRows := m.nodeRows, bestTipHash := b.hash, tipHeight := height,
          tipWork := m.tipWork, bestState := state, blockHash := b.hash, stxos := stxos,
          bestHeaderHash := m.bestHeaderHash, bestHeaderHeight := m.bestHeaderHeight, utxoDelta := utxoDelta }
      some
        { st with
          chain := st.chain ++ [b]
          cache := { cache with hotFloor := height - utxoHotDepth }
          queue := st.queue ++ [item]
          view := ∅
          loaded := false
          totalTxns := state.totalTxns }
  | _ => none

/-- The writer takes the first items of the queue into one transaction. When it fails, the items are
gone. -/
def commit (n : Nat) (ok : Bool) : AsyncChain :=
  { st with
    queue := st.queue.drop n
    db := if ok then (flushBatch st.db (st.queue.take n)).getD st.db else st.db }

/-- `FlushUtxoCache`, and the flush of a full cache in `connectBlock`: the queue has been drained before.
A transaction that fails leaves the database, but not the cache, as it was. -/
def flush (mode : FlushMode) (elapsed ok : Bool) : AsyncChain :=
  let (cache, db) := st.cache.flush sz st.db mode (st.best genesis).hash elapsed
  { st with cache := cache, db := if ok then db else st.db }

/-! ## Detaching blocks -/

/-- `flushToDB`: the rows of the dirty nodes and the best header. -/
def flushToDB (db : Db) (rows : List NodeRowSnapshot) (bestHeader : Option (Hash × Int)) : Db :=
  let db := rows.foldl writeNodeRowSnapshot db
  bestHeader.elim db fun p => db.putBestHeaderState p.1 p.2

/-- The transaction of `disconnectBlock`: the cache as the flush inside it leaves it, and the database, or
none when the transaction fails. `workSum` and `parentWork` are the work of the block and of its parent. -/
def disconnectTx (cache : UtxoCache) (db : Db) (block : Block) (height : Int) (state : BestState)
    (workSum parentWork : Nat) (view : UtxoViewpoint) : UtxoCache × Option Db :=
  let db := db.putBestState state workSum
  let db := db.putBestTipSnapshot state.hash state.height parentWork
  let db := db.removeBlockIndex block.hash height
  let (cache, db) := cache.flush sz db .flushRequired state.hash false
  let db := { db with utxoSet := view.putUtxoView db.utxoSet }
  (cache,
    (db.fetchSpendJournalEntry block).bind fun _ => (db.removeSpendJournalEntry block.hash).indexDisconnectBlock block)

/-- `syncNowBelow`: the writer commits the items up to the height, those of its own batch in one transaction
and those still in the channel in another, and drops the items above. -/
def syncNowBelow (maxHeight : Int) (batched : Nat) : AsyncChain :=
  let db := (flushBatch st.db ((st.queue.take batched).filter (WriteItem.keptBelow maxHeight))).getD st.db
  let db := (flushBatch db ((st.queue.drop batched).filter (WriteItem.keptBelow maxHeight))).getD db
  { st with queue := [], db := db }

def dropView : AsyncChain := { st with view := ∅, loaded := false }

/-- The second half of `disconnectBlock`: the transaction, and the new tip `chain` when it has committed. -/
def disconnectSynced (chain : List Block) (block : Block) (view : UtxoViewpoint) (m : DetachMeta)
    (ok : Bool) : AsyncChain × Bool :=
  let totalTxns := st.totalTxns - UInt64.ofNat block.transactions.length
  let state : BestState := ⟨tipHash genesis chain, chain.length, totalTxns⟩
  let (cache, tx) := disconnectTx sz st.cache st.db block st.chain.length state m.workSum m.parentWork view
  match (if ok then tx else none) with
  | some db =>
    ({ st with chain := chain, cache := cache, view := view.commit, loaded := false, db := db,
               totalTxns := totalTxns }, true)
  | none => ({ st with cache := cache }.dropView, false)

/-- `disconnectBlock` on the tip, and whether it succeeds. -/
def disconnectBlock (block : Block) (view : UtxoViewpoint) (m : DetachMeta) (ok : Bool) : AsyncChain × Bool :=
  let chain := st.chain.dropLast
  if (st.db.blocks (tipHash genesis chain)).isNone then (st.dropView, false)
  else
    let st := { st with db := flushToDB st.db m.nodeRows m.bestHeader }
    (st.syncNowBelow chain.length m.batched).disconnectSynced sz genesis chain block view m ok

/-- One round of the loop of `reorganizeChain` that detaches blocks begins with loading the inputs of the
tip. -/
def fetchInputs (block : Block) : AsyncChain :=
  let (view, cache) := st.view.fetchInputUtxos sz st.cache st.db.utxoSet block st.chain.length
  { st with view := view, cache := cache, loaded := true }

section Reorganize
variable (fetchEntryByHash : UtxoViewpoint → Hash → Option UtxoEntry) (st : AsyncChain)

/-- The rest of the round: the tip is undone in the view with its journal entry and disconnected. -/
def detachBlock (block : Block) (stxos : List SpentTxOut) (m : DetachMeta) (ok : Bool) : AsyncChain × Bool :=
  match st.view.disconnectTransactions fetchEntryByHash block st.chain.length stxos with
  | .ok view => st.disconnectBlock sz genesis block view m ok
  | .error _ => (st.dropView, false)

/-- The loop of `verifyReorganizationValidity` over the nodes to detach, whose tip is at the height: the
cache it leaves, and the blocks with their journal entries, or none when it fails. -/
def verifyDetach (db : Db) : UtxoCache → UtxoViewpoint → Int → List Hash →
    UtxoCache × Option (List (Block × List SpentTxOut))
  | cache, _, _, [] => (cache, some [])
  | cache, view, height, hash :: nodes =>
    match db.blocks hash with
    | none => (cache, none)
    | some block =>
      let (view, cache) := view.fetchInputUtxos sz cache db.utxoSet block height
      match db.fetchSpendJournalEntry block with
      | none => (cache, none)
      | some stxos =>
        match view.disconnectTransactions fetchEntryByHash block height stxos with
        | .error _ => (cache, none)
        | .ok view =>
          let (cache, rest) := verifyDetach db cache view (height - 1) nodes
          (cache, rest.map ((block, stxos) :: ·))

/-- `verifyReorganizationValidity` with nothing to attach. -/
def verifyReorganizationValidity (detach : List Hash) : UtxoCache × Option (List (Block × List SpentTxOut)) :=
  match detach with
  | [] => (st.cache, some [])
  | hash :: _ =>
    if hash ≠ tipHash genesis st.chain then (st.cache, none)
    else verifyDetach sz fetchEntryByHash st.db st.cache ∅ st.chain.length detach

/-- The loop of `reorganizeChain` that detaches blocks. -/
def detachBlocks (st : AsyncChain) : List ((Block × List SpentTxOut) × DetachMeta) → AsyncChain × Bool
  | [] => (st.dropView, true)
  | ((block, stxos), m) :: rest =>
    match (st.fetchInputs sz block).detachBlock sz genesis fetchEntryByHash block stxos m true with
    | (st, true) => detachBlocks st rest
    | (st, false) => (st, false)

/-- `reorganizeChain` with nothing to attach, the database committing what it is given. -/
def reorganizeChain (detach : List (Hash × DetachMeta)) : AsyncChain × Bool :=
  let (cache, blocks) := st.verifyReorganizationValidity sz genesis fetchEntryByHash (detach.map Prod.fst)
  let st := { st with cache := cache, view := ∅, loaded := false }
  match blocks with
  | none => (st, false)
  | some blocks => st.detachBlocks sz genesis fetchEntryByHash (blocks.zip (detach.map Prod.snd))

end Reorganize

end AsyncChain

/-! ## The machine -/

/-- What the node or its writer does next. -/
inductive AsyncStep where
  | replayConnect
  | replayFlush (interrupted ok : Bool)
  | replayEnd
  | connect (b : Block) (m : ItemMeta)
  | commit (n : Nat) (ok : Bool)
  | flush (mode : FlushMode) (elapsed ok : Bool)
  | lookup (ops : List OutPoint)
  | newView
  | fetchInputs
  | detach (m : DetachMeta) (ok : Bool)

namespace AsyncChain

/-- One step. A block is connected only if its body has been stored; the cache is flushed, and a block
detached, only when the writer has committed what `syncNow` and `syncNowBelow` wait for. The writer commits
items in their order until the node stops; what `stop` does at the end is left out. -/
def step (sz : SizeHelper) (genesis : Hash) (fetchEntryByHash : UtxoViewpoint → Hash → Option UtxoEntry)
    (st : AsyncChain) : AsyncStep → Option AsyncChain
  | .replayConnect =>
    match st.phase with
    | .replay done (b :: todo) =>
      match st.cache.connectTransactions sz st.db.utxoSet b (nextHeight done) none with
      | .ok (cache, _) => some { st with phase := .replayed (done ++ [b]) todo, cache := cache }
      | .error _ => none
    | _ => none
  | .replayFlush interrupted ok =>
    match st.phase with
    | .replayed done todo =>
      let (cache, db) := st.cache.flush sz st.db .flushIfNeeded (tipHash genesis done) false
      if ok then
        let st := { st with phase := .replay done todo, cache := cache, db := db }
        some (if interrupted then st.endReplay genesis else st)
      else none
    | _ => none
  | .replayEnd =>
    match st.phase with
    | .replay _ [] => some (st.endReplay genesis)
    | _ => none
  | .connect b m =>
    if st.phase = .running ∧ st.db.blocks b.hash = some b then st.connectBlock sz b m else none
  | .commit n ok => if st.phase = .running then some (st.commit n ok) else none
  | .flush mode elapsed ok =>
    if st.phase = .running ∧ st.queue = [] then some (st.flush sz genesis mode elapsed ok) else none
  | .lookup ops =>
    if st.phase = .running then some { st with cache := (st.cache.fetchEntries sz st.db.utxoSet ops).2 } else none
  | .newView => if st.phase = .running then some st.dropView else none
  | .fetchInputs =>
    match st.chain.getLast? with
    | some block => if st.phase = .running then some (st.fetchInputs sz block) else none
    | none => none
  | .detach m ok =>
    match st.chain.getLast? with
    | some block =>
      if st.phase = .running ∧ st.loaded = true ∧ ∀ item ∈ st.queue, (st.chain.length : Int) - 1 < item.height then
        (st.db.fetchSpendJournalEntry block).map fun stxos =>
          (st.detachBlock sz genesis fetchEntryByHash block stxos m ok).1
      else none
    | none => none

end AsyncChain

end IniNode
