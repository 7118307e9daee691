import IniNode.Chain.Async
import IniNode.Utxo.Sound
import IniNode.Utxo.Undo
/-!
# The queue as a pipeline

The items of the queue carry the utxo set from block to block: the first was made on top of the chain the
database is at, and each is made on top of the block before it (`Pipeline`). A transaction of the writer
then takes the database from the utxo set of one chain to that of a longer one (`flushBatch_spec`), and
connecting a block appends one more such item (`connectBlock_spec`).
-/

open IniNode.Lib List Option

namespace IniNode

open UtxoDelta
/-! ## What metadata rows leave alone -/

/-- The parts of the database that hold the utxo set and what is needed to undo blocks are the same. -/
structure SameUtxoState (db db' : Db) : Prop where
  utxoSet : db'.utxoSet = db.utxoSet
  utxoStateConsistency : db'.utxoStateConsistency = db.utxoStateConsistency
  spendJournal : db'.spendJournal = db.spendJournal
  indexTips : db'.indexTips = db.indexTips
  blocks : db'.blocks = db.blocks

theorem SameUtxoState.refl (db : Db) : SameUtxoState db db := ⟨rfl, rfl, rfl, rfl, rfl⟩

theorem SameUtxoState.trans {db db' db'' : Db} (h : SameUtxoState db db') (h' : SameUtxoState db' db'') :
    SameUtxoState db db'' :=
  ⟨h'.1.trans h.1, h'.2.trans h.2, h'.3.trans h.3, h'.4.trans h.4, h'.5.trans h.5⟩

theorem sameUtxoState_writeNodeRowSnapshot (db : Db) (r : NodeRowSnapshot) :
    SameUtxoState db (writeNodeRowSnapshot db r) := by
  have hstore : SameUtxoState db (db.storeBlockNode r.hash r.height r.row) := ⟨rfl, rfl, rfl, rfl, rfl⟩
  have hhash : ∀ db : Db, SameUtxoState db (if r.hashIndex then db.putHashIndex r.hash r.height else db) := by
    intro db
    split <;> exact ⟨rfl, rfl, rfl, rfl, rfl⟩
  have hheight : ∀ db : Db, SameUtxoState db
      (if r.heightIndex then db.putHeightIndexGuarded r.height r.hash r.heightIndexChain else db) := by
    intro db
    unfold Db.putHeightIndexGuarded
    split_ifs <;> exact ⟨rfl, rfl, rfl, rfl, rfl⟩
  exact (hstore.trans (hhash _)).trans (hheight _)

theorem sameUtxoState_foldl (rows : List NodeRowSnapshot) (db : Db) :
    SameUtxoState db (rows.foldl writeNodeRowSnapshot db) := by
  induction rows generalizing db with
  | nil => exact .refl db
  | cons r rows ih => exact (sameUtxoState_writeNodeRowSnapshot db r).trans (ih _)

theorem sameUtxoState_flushToDB (db : Db) (rows : List NodeRowSnapshot) (bestHeader : Option (Hash × Int)) :
    SameUtxoState db (AsyncChain.flushToDB db rows bestHeader) := by
  obtain ⟨h1, h2, h3, h4, h5⟩ := sameUtxoState_foldl rows db
  cases bestHeader <;> exact ⟨h1, h2, h3, h4, h5⟩

/-- The rows of an item up to the optional indexes: of all this only the journal changes. -/
theorem writeItemRows_eq (db : Db) (item : WriteItem) :
    ∃ d : Db, writeItemRows db item = d.indexConnectBlock item.block ∧
    d.utxoSet = db.utxoSet ∧ d.blocks = db.blocks ∧ d.indexTips = db.indexTips ∧
    d.spendJournal = db.spendJournal.write ⟨item.blockHash, some item.stxos⟩ := by
  obtain ⟨h1, -, h3, h4, h5⟩ := sameUtxoState_foldl item.nodeRows db
  refine ⟨_, rfl, ?_⟩
  split_ifs <;> exact ⟨h1, h5, h4, congrArg (Store.write · ⟨item.blockHash, some item.stxos⟩) h3⟩

/-- The rows of an item: an optional index at the block before moves to the block, and the journal gets
the item's entry. -/
theorem writeItemRows_spec {db : Db} (item : WriteItem) (htips : ∀ t ∈ db.indexTips, t = item.block.prevBlock) :
    ∃ db', writeItemRows db item = some db' ∧ db'.utxoSet = db.utxoSet ∧ db'.blocks = db.blocks ∧
      db'.spendJournal = db.spendJournal.write ⟨item.blockHash, some item.stxos⟩ ∧
      db'.indexTips = db.indexTips.map fun _ => item.block.hash := by
  obtain ⟨d, hrows, hset, hblocks, hindex, hjournal⟩ := writeItemRows_eq db item
  rw [hrows, Db.indexConnectBlock, hindex, if_pos]
  · exact ⟨_, rfl, hset, hblocks, hjournal, rfl⟩
  · simpa using htips

/-- The item was made by connecting its block on top of the chain. -/
structure ItemOk (pre : List Block) (item : WriteItem) : Prop where
  height : item.height = nextHeight pre
  best : item.bestState.hash = item.block.hash
  blockHash : item.blockHash = item.block.hash
  stxos : item.stxos = journal pre item.block
  unspent : ∀ d ∈ item.utxoDelta, ∀ e, d.entry = some e → e.isSpent = false
  writes : (utxoSet pre).writeAll (item.utxoDelta.map toWrite) = utxoSet (pre ++ [item.block])

/-- Each item is that of the next block. -/
def Pipeline : List Block → List WriteItem → Prop
  | _, [] => True
  | pre, item :: queue => ItemOk pre item ∧ Pipeline (pre ++ [item.block]) queue

abbrev queueBlocks (queue : List WriteItem) : List Block := queue.map WriteItem.block

variable {pre : List Block}

theorem Pipeline.append {q q' : List WriteItem} :
    Pipeline pre (q ++ q') ↔ Pipeline pre q ∧ Pipeline (pre ++ queueBlocks q) q' := by
  induction q generalizing pre with
  | nil => simp [Pipeline]
  | cons item q ih => simp [Pipeline, ih, and_assoc]

variable {queue : List WriteItem}

theorem Pipeline.height_le (hp : Pipeline pre queue) {item : WriteItem}
    (hitem : item ∈ queue) : item.height ≤ pre.length + queue.length := by
  induction queue generalizing pre with
  | nil => cases hitem
  | cons first queue ih =>
    rcases mem_cons.1 hitem with rfl | hitem
    · rw [hp.1.height, nextHeight, length_cons]
      omega
    · have := ih hp.2 hitem
      simp only [length_append, length_cons, length_nil] at this ⊢
      omega

/-- The outputs of the best chain that the pending items do not name have their rows already. -/
theorem Pipeline.row_eq (hp : Pipeline pre queue) {k : OutPoint} (hk : ∀ item ∈ queue, k ∉ item.utxoDelta.map op) :
    utxoSet (pre ++ queueBlocks queue) k = utxoSet pre k := by
  induction queue generalizing pre with
  | nil => simp
  | cons item queue ih =>
    have hrest := ih hp.2 fun i hi => hk i (mem_cons_of_mem _ hi)
    rw [append_assoc] at hrest
    rw [queueBlocks, map_cons, ← singleton_append, hrest, ← hp.1.writes, Store.writeAll_untouched]
    rw [List.map_map]
    exact hk item mem_cons_self

/-- The spend journal holds entries of the chain's blocks only, and every optional index is at its tip. -/
structure MetaAt (genesis : Hash) (pre : List Block) (db : Db) : Prop where
  tips : ∀ t ∈ db.indexTips, t = tipHash genesis pre
  journals : ∀ h stxos, db.spendJournal h = some stxos → ∃ p b, p ++ [b] <+: pre ∧ b.hash = h ∧ stxos = journal p b

section Write
variable {genesis : Hash} {pre : List Block} {db : Db} {item : WriteItem} {queue : List WriteItem}

theorem writeItem_spec (ho : ItemOk pre item) (hprev : item.block.prevBlock = tipHash genesis pre)
    (hdisk : db.utxoSet = utxoSet pre) (hmeta : MetaAt genesis pre db) :
    ∃ db', writeItem db item = some db' ∧ db'.utxoSet = utxoSet (pre ++ [item.block]) ∧
      MetaAt genesis (pre ++ [item.block]) db' ∧ db'.blocks = db.blocks := by
  obtain ⟨db', hrows, hutxo, hblocks, hjournal, htips⟩ :=
    writeItemRows_spec item fun t ht => (hmeta.tips t ht).trans hprev.symm
  rw [writeItem, hrows, bind_some, writeItemDeltas_eq ho.unspent]
  refine ⟨_, rfl, ?_, ⟨fun t ht => ?_, fun h stxos hj => ?_⟩, hblocks⟩
  · rw [← ho.writes, ← hdisk, ← hutxo]
  · rw [tipHash_concat]
    obtain ⟨-, -, rfl⟩ := List.mem_map.1 (htips ▸ ht)
    rfl
  · rw [hjournal, Store.write_apply] at hj
    split at hj
    next hh =>
      cases hj
      exact ⟨pre, item.block, prefix_refl _, hh ▸ ho.blockHash.symm, ho.stxos⟩
    next =>
      obtain ⟨p, b, hp, hbh, hs⟩ := hmeta.journals h stxos hj
      exact ⟨p, b, hp.trans (prefix_append _ _), hbh, hs⟩

theorem writeItems_spec (hp : Pipeline pre queue) (hv : ValidChain genesis (pre ++ queueBlocks queue))
    (hdisk : db.utxoSet = utxoSet pre) (hmeta : MetaAt genesis pre db) :
    ∃ db', writeItems db queue = some db' ∧ db'.utxoSet = utxoSet (pre ++ queueBlocks queue) ∧
      MetaAt genesis (pre ++ queueBlocks queue) db' ∧ db'.blocks = db.blocks := by
  induction queue generalizing pre db with
  | nil => exact ⟨db, rfl, by simpa using hdisk, by simpa using hmeta, rfl⟩
  | cons item queue ih =>
    rw [show pre ++ queueBlocks (item :: queue) = pre ++ [item.block] ++ queueBlocks queue by simp] at hv ⊢
    have hb : ValidBlock genesis pre item.block := hv pre item.block (prefix_append _ _)
    obtain ⟨db1, hw1, hdisk1, hmeta1, hblocks1⟩ := writeItem_spec hp.1 hb.extends_tip hdisk hmeta
    obtain ⟨db2, hw2, hdisk2, hmeta2, hblocks2⟩ := ih hp.2 hv hdisk1 hmeta1
    exact ⟨db2, by rw [writeItems, hw1, bind_some, hw2], hdisk2, hmeta2, hblocks2.trans hblocks1⟩

/-- The writer's transaction never fails on a pipeline. It leaves the utxo set of the last item's block,
with the marker on that block. -/
theorem flushBatch_spec (hne : queue ≠ []) (hp : Pipeline pre queue) (hv : ValidChain genesis (pre ++ queueBlocks queue))
    (hdisk : db.utxoSet = utxoSet pre) (hmeta : MetaAt genesis pre db) :
    ∃ db', flushBatch db queue = some db' ∧ db'.utxoSet = utxoSet (pre ++ queueBlocks queue) ∧
      db'.utxoStateConsistency = some (tipHash genesis (pre ++ queueBlocks queue)) ∧
      MetaAt genesis (pre ++ queueBlocks queue) db' ∧ db'.blocks = db.blocks := by
  obtain ⟨db', hw, hdisk', hmeta', hblocks'⟩ := writeItems_spec hp hv hdisk hmeta
  obtain ⟨q, last, rfl⟩ : ∃ q last, queue = q ++ [last] := ⟨_, _, (dropLast_append_getLast hne).symm⟩
  have hlast : last.bestState.hash = tipHash genesis (pre ++ queueBlocks (q ++ [last])) := by
    rw [(Pipeline.append.1 hp).2.1.best]
    simp [tipHash]
  rw [flushBatch, getLast?_append]
  simp only [hw]
  exact ⟨_, rfl, hdisk', congrArg some hlast, ⟨hmeta'.tips, hmeta'.journals⟩, hblocks'⟩

end Write

/-! ## Connecting a block -/

/-- The state after a block was connected, the cache standing in the relation `R` to the ledger. -/
structure Connected (R : Option Coin → Option Coin → Option UtxoEntry → Prop) (st : AsyncChain) (b : Block)
    (item : WriteItem) (st' : AsyncChain) : Prop where
  chain : st'.chain = st.chain ++ [b]
  phase : st'.phase = st.phase
  queue : st'.queue = st.queue ++ [item]
  view : st'.view = ∅
  loaded : st'.loaded = false
  db : st'.db = st.db
  block : item.block = b
  item_ok : ItemOk st.chain item
  tracks : UtxoCache.Tracks R False st.db.utxoSet st'.cache (ledger (st.chain ++ [b]))
  keys : item.utxoDelta.map op = (blockEvents (nextHeight st.chain) b).map Event.key
  touched : ∀ k ∈ item.utxoDelta.map op, st'.cache.get k = none → utxoSet (st.chain ++ [b]) k = none
  frame : ∀ k, k ∉ item.utxoDelta.map op →
    st'.cache.get k = st.cache.get k ∨ utxoSet (st.chain ++ [b]) k = none
  deltaPoints : st'.cache.deltaPoints = []
  dirtyOps : st'.cache.dirtyOps = []
  trackDeltas : st'.cache.trackDeltas = true

/-- Connecting a valid block succeeds while the cache finds every output. -/
theorem connectBlock_spec (sz : SizeHelper) {R : Option Coin → Option Coin → Option UtxoEntry → Prop} {genesis : Hash}
    {st : AsyncChain} {b : Block} (m : ItemMeta) (hR : UtxoCache.Kept R) (hb : ValidBlock genesis st.chain b)
    (ht : UtxoCache.Tracks R False st.db.utxoSet st.cache (ledger st.chain)) (hpts : st.cache.deltaPoints = [])
    (htrack : st.cache.trackDeltas = true) :
    ∃ item st', st.connectBlock sz b m = some st' ∧ Connected R st b item st' := by
  have ht' : UtxoCache.Tracks R True st.db.utxoSet st.cache (ledger st.chain) :=
    ⟨ht.finds, ht.cached, fun _ => by simp [hpts]⟩
  obtain ⟨s1, hok, ht1, hpts1, hframe1, hmeta1⟩ := ht'.run sz (some []) hR _ hb.events
  have htrack1 := hmeta1.trackDeltas.trans htrack
  obtain ⟨ds, s2, htake, hops, hdelta, ht2, htouched, hkept, hpts2, hdirty2, hmeta2⟩ :=
    UtxoCache.takeDelta_spec ht1 htrack1
  have hkeys : ds.map op = (blockEvents (nextHeight st.chain) b).map Event.key := by
    rw [hops, hpts1 htrack, hpts, nil_append, List.map_map]
    exact map_congr_left fun e _ => UtxoCache.touchedPoint_op e
  have hwrites : (utxoSet st.chain).writeAll (ds.map toWrite) = utxoSet (st.chain ++ [b]) := by
    funext k
    rw [Store.writeAll_of_values (f := utxoSet (st.chain ++ [b])), List.map_map]
    · split
      · rfl
      next hk =>
        have : k ∉ (blockEvents (nextHeight st.chain) b).map Event.key := by rwa [← hkeys]
        rw [utxoSet, utxoSet, ledger_concat, Ledger.run_live_untouched this]
    · intro w hw
      obtain ⟨d, hd, rfl⟩ := List.mem_map.1 hw
      rw [(hdelta d hd).value, utxoSet, ledger_concat]
      rfl
  have hlen := UtxoViewpoint.journal_length hb
  rw [← UtxoCache.connectTransactions_eq] at hok
  simp only [AsyncChain.connectBlock, hok, map_some]
  rw [if_neg (by simpa [journal] using hlen)]
  simp only [htake]
  refine ⟨_, _, rfl, rfl, rfl, rfl, rfl, rfl, rfl, rfl,
    ⟨rfl, rfl, rfl, rfl, fun d hd => (hdelta d hd).unspent, hwrites⟩,
    ⟨?_, ?_, fun h => h.elim⟩, hkeys, ?_, ?_, hpts2, hdirty2, hmeta2.trackDeltas.trans htrack1⟩
  · rw [ledger_concat]; exact ht2.finds
  · rw [ledger_concat]; exact ht2.cached
  · rw [utxoSet, ledger_concat]; exact htouched
  · intro k hk
    rw [utxoSet, ledger_concat, ← hframe1 k (by rwa [← hkeys])]
    exact hkept k

/-- A pending item's outpoint that is not cached is spent: its row may be out of date, but nobody will find
it unspent in the cache. -/
def PendingSpent (st : AsyncChain) : Prop :=
  ∀ item ∈ st.queue, ∀ k ∈ item.utxoDelta.map op, st.cache.get k = none → utxoSet st.chain k = none

/-- An outpoint a pending item names stays spent, or gets cached, when a block is connected. -/
theorem Connected.pendingSpent {R : Option Coin → Option Coin → Option UtxoEntry → Prop} {b : Block} {item : WriteItem}
    {st st' : AsyncChain} (hc : Connected R st b item st')
    (htouched : PendingSpent st) : PendingSpent st' := by
  intro item' hitem k hk hnone
  rw [hc.chain]
  by_cases hnew : k ∈ item.utxoDelta.map op
  · exact hc.touched k hnew hnone
  · rw [hc.queue] at hitem
    rcases mem_append.1 hitem with hitem | hitem
    · rcases hc.frame k hnew with heq | hdead
      · -- the new block leaves the outpoint alone
        have hold := htouched item' hitem k hk (heq ▸ hnone)
        rw [hc.keys] at hnew
        rwa [utxoSet, ledger_concat, Ledger.run_live_untouched hnew]
      · exact hdead
    · exact absurd (mem_singleton.1 hitem ▸ hk) hnew

end IniNode
