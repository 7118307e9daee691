import IniNode.Chain.Pipeline
/-!
# The utxo set while the node runs

The utxo bucket is meant to hold, after every transaction, the utxo set of the chain that ends at the
block the consistency marker names (`UtxoConsistent`). `Running` is what keeps it so while the node runs:
the queue is a pipeline from the chain on disk to the best chain, nothing is dirty while it is not empty,
and the cache can be flushed at any time. One lemma per step says when the step keeps it.
-/

open IniNode.Lib List Option

namespace IniNode

open UtxoCache UtxoViewpoint

/-! ## The law -/

/-- The blocks of the chain are stored under their hashes and linked down to genesis. -/
def StoredChain (genesis : Hash) (db : Db) (chain : List Block) : Prop :=
  ∀ p b, p ++ [b] <+: chain → b.prevBlock = tipHash genesis p ∧ b.hash ≠ genesis ∧ db.blocks b.hash = some b

/-- The utxo bucket is the utxo set of the chain that ends at the block the marker names. -/
def UtxoConsistent (genesis : Hash) (db : Db) : Prop :=
  ∃ chain, StoredChain genesis db chain ∧ db.utxoStateConsistency = some (tipHash genesis chain) ∧
    db.utxoSet = utxoSet chain

section Law
variable {genesis : Hash} {db : Db} {chain chain' pre : List Block} {b : Block}

theorem StoredChain.of_isPrefix (h : StoredChain genesis db chain) (hp : pre <+: chain) : StoredChain genesis db pre :=
  fun p b hpb => h p b (hpb.trans hp)

theorem StoredChain.concat (h : StoredChain genesis db chain) (hprev : b.prevBlock = tipHash genesis chain)
    (hne : b.hash ≠ genesis) (hb : db.blocks b.hash = some b) : StoredChain genesis db (chain ++ [b]) := by
  intro p c hp
  rcases prefix_concat_iff.1 hp with heq | hp
  · obtain ⟨rfl, hcb⟩ := append_inj' heq rfl
    cases singleton_inj.1 hcb
    exact ⟨hprev, hne, hb⟩
  · exact h p c hp

theorem StoredChain.eq_of_tipHash (h : StoredChain genesis db chain) (h' : StoredChain genesis db chain')
    (htip : tipHash genesis chain = tipHash genesis chain') : chain = chain' := by
  induction chain using reverseRecOn generalizing chain' with
  | nil =>
    rcases eq_nil_or_concat chain' with rfl | ⟨p, b, rfl⟩
    · rfl
    · rw [concat_eq_append] at h' htip
      rw [tipHash_concat] at htip
      exact absurd htip.symm (h' p b (prefix_refl _)).2.1
  | append_singleton p b ih =>
    obtain ⟨hprev, hne, hb⟩ := h p b (prefix_refl _)
    rw [tipHash_concat] at htip
    rcases eq_nil_or_concat chain' with rfl | ⟨p', b', rfl⟩
    · exact absurd htip hne
    · rw [concat_eq_append] at h' htip ⊢
      rw [tipHash_concat] at htip
      obtain ⟨hprev', -, hb'⟩ := h' p' b' (prefix_refl _)
      -- the two last blocks are stored under one hash, so they are one block
      have hbb : b = b' := by
        rw [htip, hb'] at hb
        exact (Option.some.inj hb).symm
      subst hbb
      rw [ih (h.of_isPrefix (prefix_append _ _)) (h'.of_isPrefix (prefix_append _ _)) (hprev.symm.trans hprev')]

theorem ValidChain.storedChain (hv : ValidChain genesis chain) (hs : ∀ b ∈ chain, db.blocks b.hash = some b) :
    StoredChain genesis db chain := by
  intro p b hp
  have hb := hv p b hp
  exact ⟨hb.extends_tip, hb.new_hash.1, hs b (hp.subset (by simp))⟩

theorem ValidChain.eq_of_hash (hv : ValidChain genesis (chain ++ [b])) {p : List Block} {b' : Block}
    (hp : p ++ [b'] <+: chain ++ [b]) (hh : b'.hash = b.hash) : p = chain ∧ b' = b := by
  rcases prefix_concat_iff.1 hp with heq | hp
  · obtain ⟨rfl, hbb⟩ := append_inj' heq rfl
    exact ⟨rfl, singleton_inj.1 hbb⟩
  · exact absurd hh (hv.last.new_hash.2 b' (hp.subset (by simp)))

/-- Resident entries stay sound when the last block goes. -/
theorem UtxoCache.Resident.of_concat {s : UtxoCache} (hr : Resident s (ledger (chain ++ [b])))
    (hv : ValidChain genesis (chain ++ [b])) : Resident s (ledger chain) := by
  intro op x hx
  obtain ⟨e, rfl, hs, hm, ho⟩ := hr op x hx
  refine ⟨e, rfl, hs, hm, ?_⟩
  cases hc : (ledger chain).origin op with
  | none => exact .inl rfl
  | some c =>
    rw [origin_of_isPrefix hv (prefix_append _ _) hc] at ho
    exact .inr (ho.resolve_left (by simp))

end Law

/-! ## The invariant -/

def tipEvents (chain : List Block) : List UtxoEvent :=
  (chain.getLast?.map (blockEvents chain.length)).getD []

theorem tipEvents_concat (chain : List Block) (b : Block) :
    tipEvents (chain ++ [b]) = blockEvents (nextHeight chain) b := by
  simp [tipEvents, nextHeight]

namespace AsyncChain

/-- What holds while replaying and while running: the disk is at the chain `cc`, the metadata at `pre`, and
the queue leads from `pre` to the best chain. -/
structure Base (genesis : Hash) (st : AsyncChain) (cc pre : List Block) : Prop where
  valid : ValidChain genesis st.chain
  stored : ∀ b ∈ st.chain, st.db.blocks b.hash = some b
  marker : st.db.utxoStateConsistency = some (tipHash genesis cc)
  rows : st.db.utxoSet = utxoSet cc
  behind : cc <+: pre
  chain_eq : st.chain = pre ++ queueBlocks st.queue
  pipeline : Pipeline pre st.queue
  metaAt : MetaAt genesis pre st.db
  trackDeltas : st.cache.trackDeltas = true

/-- The rows are at `cc`, the queue starts on top of `pre`. -/
structure Running (genesis : Hash) (st : AsyncChain) (cc pre : List Block) : Prop extends Base genesis st cc pre where
  phase : st.phase = .running
  tracks : Tracks EntryOk False st.db.utxoSet st.cache (ledger st.chain)
  deltaPoints : st.cache.deltaPoints = []
  dirty : st.queue = [] → Dirty st.db.utxoSet st.cache (ledger st.chain)
  pending : st.queue ≠ [] → st.cache.dirtyOps = []
  caught : st.cache.dirtyOps = [] → utxoSet cc = utxoSet pre
  touched : PendingSpent st
  spentModified : SpentModified st.view
  agrees : AgreesOff (if st.loaded then tipEvents st.chain else []) st.view (utxoSet st.chain)

section Base
variable {genesis : Hash} {st : AsyncChain} {cc pre : List Block} (h : Base genesis st cc pre)
include h

theorem Base.prefix_chain : pre <+: st.chain := h.chain_eq ▸ prefix_append _ _

theorem Base.utxoConsistent : UtxoConsistent genesis st.db :=
  ⟨cc, (h.valid.storedChain h.stored).of_isPrefix (h.behind.trans h.prefix_chain), h.marker, h.rows⟩

/-- A row on disk was created with the coin it holds. -/
theorem Base.origin_of_row {op : OutPoint} {c : Coin} (hrow : st.db.utxoSet op = some c) :
    (ledger st.chain).origin op = some c := by
  rw [h.rows] at hrow
  exact origin_of_isPrefix h.valid (h.behind.trans h.prefix_chain) ((ledger cc).live_origin op c hrow)

theorem Base.connect {R : Option Coin → Option Coin → Option UtxoEntry → Prop} {b : Block} {item : WriteItem}
    {st' : AsyncChain}
    (hb : ValidBlock genesis st.chain b) (hstored : st.db.blocks b.hash = some b) (hc : Connected R st b item st') :
    Base genesis st' cc pre where
  valid := hc.chain ▸ h.valid.concat hb
  stored := by
    rw [hc.chain, hc.db]
    exact forall_mem_append.2 ⟨h.stored, forall_mem_singleton.2 hstored⟩
  marker := hc.db ▸ h.marker
  rows := hc.db ▸ h.rows
  behind := h.behind
  chain_eq := by
    rw [hc.chain, hc.queue, h.chain_eq, queueBlocks, queueBlocks, map_append, map_singleton, hc.block, append_assoc]
  pipeline := by
    rw [hc.queue]
    exact Pipeline.append.2 ⟨h.pipeline, h.chain_eq ▸ hc.item_ok, trivial⟩
  metaAt := hc.db ▸ h.metaAt
  trackDeltas := hc.trackDeltas

/-- A committed batch moves the disk along the pipeline. It changes no row that the batch does not name. -/
theorem Base.commit (hcaught : utxoSet cc = utxoSet pre) {n : Nat} (hne : st.queue.take n ≠ []) :
    ∃ db', flushBatch st.db (st.queue.take n) = some db' ∧
      Base genesis { st with queue := st.queue.drop n, db := db' } (pre ++ queueBlocks (st.queue.take n))
        (pre ++ queueBlocks (st.queue.take n)) ∧
      ∀ k, (∀ item ∈ st.queue.take n, k ∉ item.utxoDelta.map UtxoDelta.op) → db'.utxoSet k = st.db.utxoSet k := by
  have hsplit := take_append_drop n st.queue
  have hpipe := h.pipeline
  rw [← hsplit] at hpipe
  obtain ⟨hp, hp'⟩ := Pipeline.append.1 hpipe
  have hchain : st.chain = pre ++ queueBlocks (st.queue.take n) ++ queueBlocks (st.queue.drop n) := by
    rw [append_assoc, ← map_append, hsplit]
    exact h.chain_eq
  have hv := h.valid.of_isPrefix (hchain ▸ prefix_append _ _)
  obtain ⟨db', hflush, hrows, hmarker, hmeta, hblocks⟩ := flushBatch_spec hne hp hv (h.rows.trans hcaught) h.metaAt
  refine ⟨db', hflush, ⟨h.valid, fun b hb => hblocks ▸ h.stored b hb, hmarker, hrows,
    prefix_refl _, hchain, hp', hmeta, h.trackDeltas⟩, fun k hk => ?_⟩
  rw [hrows, hp.row_eq hk, ← hcaught, ← h.rows]

end Base

variable {st : AsyncChain}

/-- The cache goes on finding every output when rows change that no cached output needs. -/
theorem finds_commit {db' : Db} (hf : st.cache.Finds st.db.utxoSet (ledger st.chain))
    (htouched : PendingSpent st) {n : Nat}
    (hrows : ∀ k, (∀ item ∈ st.queue.take n, k ∉ item.utxoDelta.map UtxoDelta.op) →
      db'.utxoSet k = st.db.utxoSet k) : st.cache.Finds db'.utxoSet (ledger st.chain) := by
  intro k c hl
  have hold := hf k c hl
  unfold resolve UtxoCache.lookup at hold ⊢
  cases hk : st.cache.get k with
  | some x => simpa [hk] using hold
  | none =>
    -- an output that is not cached is named by no pending item
    have hun : ∀ item ∈ st.queue.take n, k ∉ item.utxoDelta.map UtxoDelta.op := fun item hitem hkey =>
      absurd ((htouched item (mem_of_mem_take hitem) k hkey hk).symm.trans hl) (by simp)
    simp only [hk, getD_none, unspent_dbFetchUtxoEntry] at hold ⊢
    rw [hrows k hun, hold]

theorem commit_eq {db' : Db} {n : Nat} (hflush : flushBatch st.db (st.queue.take n) = some db') :
    st.commit n true = { st with queue := st.queue.drop n, db := db' } := by
  simp [AsyncChain.commit, hflush]

theorem commit_nil {n : Nat} (hnil : st.queue.take n = []) : st.commit n true = st := by
  have hdrop : st.queue.drop n = st.queue := by
    conv_rhs => rw [← take_append_drop n st.queue, hnil, nil_append]
  simp [AsyncChain.commit, hnil, hdrop, flushBatch]

/-- When nothing up to the height is pending, the barrier only empties the queue. -/
theorem syncNowBelow_above {s : AsyncChain} (maxHeight : Int) (k : Nat) (hnonneg : 0 ≤ maxHeight)
    (habove : ∀ item ∈ s.queue, maxHeight < item.height) : s.syncNowBelow maxHeight k = { s with queue := [] } := by
  have hnone : ∀ q : List WriteItem, (∀ item ∈ q, item ∈ s.queue) →
      q.filter (WriteItem.keptBelow maxHeight) = [] := by
    intro q hq
    refine filter_eq_nil_iff.2 fun item hitem => ?_
    have := habove item (hq item hitem)
    simp only [WriteItem.keptBelow, decide_eq_true_eq]
    omega
  simp [syncNowBelow, hnone _ fun _ => mem_of_mem_take, hnone _ fun _ => mem_of_mem_drop, flushBatch]

variable {stxos : List SpentTxOut}

/-- The transaction of `disconnectBlock` succeeds when the journal has the block's entry and every optional
index is at the block. -/
theorem disconnectTx_spec (sz : SizeHelper) (cache : UtxoCache) {db : Db} {block : Block}
    (height : Int) (state : BestState) (workSum parentWork : Nat) (view : UtxoViewpoint)
    (hj : db.fetchSpendJournalEntry block = some stxos) (htips : ∀ t ∈ db.indexTips, t = block.hash) :
    ∃ db', disconnectTx sz cache db block height state workSum parentWork view =
        ({ (cache.writeFull sz db.utxoSet).1 with lastFlushHash := state.hash }, some db') ∧
      db'.utxoSet = view.putUtxoView (cache.writeFull sz db.utxoSet).2 ∧
      db'.utxoStateConsistency = some state.hash ∧ db'.spendJournal = db.spendJournal.write ⟨block.hash, none⟩ ∧
      db'.indexTips = (db.indexTips.map fun _ => block.prevBlock) ∧ db'.blocks = db.blocks ∧
      db'.hashIndex = db.hashIndex.write ⟨block.hash, none⟩ ∧
      db'.heightIndex = db.heightIndex.write ⟨height, none⟩ := by
  have hall : db.indexTips.all (· = block.hash) = true := List.all_eq_true.2 fun t ht => by simpa using htips t ht
  refine ⟨{ ((db.putBestState state workSum).putBestTipSnapshot state.hash state.height parentWork).removeBlockIndex
      block.hash height with
    utxoSet := view.putUtxoView (cache.writeFull sz db.utxoSet).2
    utxoStateConsistency := some state.hash
    spendJournal := db.spendJournal.write ⟨block.hash, none⟩
    indexTips := db.indexTips.map fun _ => block.prevBlock }, Prod.ext rfl ?_, rfl, rfl, rfl, rfl, rfl, rfl, rfl⟩
  exact bind_eq_some_iff.2 ⟨stxos, hj, if_pos hall⟩

/-! ## Running -/

section Running
variable (sz : SizeHelper) {genesis : Hash} {st st' : AsyncChain} {cc pre : List Block} (h : Running genesis st cc pre)
include h

theorem Running.connect {b : Block} {item : WriteItem} (hb : ValidBlock genesis st.chain b)
    (hstored : st.db.blocks b.hash = some b) (hclean : st.cache.dirtyOps = []) (hc : Connected EntryOk st b item st') :
    Running genesis st' cc pre where
  toBase := h.toBase.connect hb hstored hc
  phase := hc.phase.trans h.phase
  tracks := by
    rw [hc.db, hc.chain]
    exact hc.tracks
  deltaPoints := hc.deltaPoints
  dirty := by simp [hc.queue]
  pending := fun _ => hc.dirtyOps
  caught := fun _ => h.caught hclean
  touched := hc.pendingSpent h.touched
  spentModified := by
    rw [hc.view]
    intro op e he
    cases he
  agrees := by
    rw [hc.view]
    intro op x _ hx
    cases hx

theorem Running.commit (n : Nat) : ∃ cc pre, Running genesis (st.commit n true) cc pre := by
  by_cases hne : st.queue.take n = []
  · exact ⟨cc, pre, by rw [commit_nil hne]; exact h⟩
  · have hq : st.queue ≠ [] := by rintro hq; simp [hq] at hne
    have hclean := h.pending hq
    obtain ⟨db', hflush, hbase, hrows⟩ := h.toBase.commit (h.caught hclean) hne
    have hfinds := finds_commit h.tracks.finds h.touched hrows
    rw [commit_eq hflush]
    refine ⟨pre ++ queueBlocks (st.queue.take n), pre ++ queueBlocks (st.queue.take n), ?_⟩
    exact
      { h with
        toBase := hbase, tracks := ⟨hfinds, h.tracks.cached, fun hf => hf.elim⟩
        dirty := by
          intro hdrop
          change st.queue.drop n = [] at hdrop
          refine ⟨by simp [hclean], fun op _ => ?_⟩
          have hchain := hbase.chain_eq
          simp only [hdrop, map_nil, append_nil] at hchain
          rw [hchain]
          exact congrFun hbase.rows op
        pending := fun _ => hclean, caught := fun _ => rfl
        touched := fun item hitem => h.touched item (mem_of_mem_drop hitem) }

/-- A flush behind a drained queue writes the utxo set of the best chain. -/
theorem Running.flush (mode : FlushMode) (elapsed : Bool) (hq : st.queue = [])
    (hhot : FlushesFully sz st.cache mode → HotFirst st.cache) :
    ∃ cc pre, Running genesis (st.flush sz genesis mode elapsed true) cc pre := by
  have hpre : pre = st.chain := by rw [h.chain_eq, hq]; simp
  subst hpre
  have hd := h.dirty hq
  unfold AsyncChain.flush
  rcases flush_cases sz (s := st.cache) st.db mode (st.best genesis).hash elapsed with hr | ⟨clean, hr, hfull, -⟩
  · rw [hr]
    exact ⟨cc, st.chain, h⟩
  · have hf := flushed_writeCache sz (st.best genesis).hash clean h.tracks hd fun hc => hhot (hfull.1 hc)
    rw [← hr] at hf
    have hdb : (st.cache.flush sz st.db mode (st.best genesis).hash elapsed).2 =
        { st.db with utxoSet := utxoSet st.chain, utxoStateConsistency := some (tipHash genesis st.chain) } := hf.db_eq
    refine ⟨st.chain, st.chain, ?_⟩
    simp only [hdb]
    exact
      { h with
        marker := rfl, rows := rfl, behind := prefix_refl _, metaAt := { h.metaAt with }
        trackDeltas := hf.trackDeltas.trans h.trackDeltas, tracks := hf.tracks
        deltaPoints := hf.deltaPoints.trans h.deltaPoints
        dirty := fun _ => ⟨by simp [hf.dirtyOps], fun _ _ => rfl⟩
        pending := fun hne => absurd hq hne, caught := fun _ => rfl, touched := by simp [PendingSpent, hq] }

/-- Only the parts of the database that hold the utxo set and the undo data matter. -/
theorem Running.sameUtxoState {db : Db} (hdb : SameUtxoState st.db db) : Running genesis { st with db := db } cc pre where
  __ := h
  stored := fun b hb => by rw [hdb.blocks]; exact h.stored b hb
  marker := hdb.utxoStateConsistency.trans h.marker
  rows := hdb.utxoSet.trans h.rows
  metaAt := ⟨fun t ht => h.metaAt.tips t (hdb.indexTips ▸ ht),
    fun k s hs => h.metaAt.journals k s (hdb.spendJournal ▸ hs)⟩
  tracks := by rw [hdb.utxoSet]; exact h.tracks
  dirty := by rw [hdb.utxoSet]; exact h.dirty

theorem Running.fetch (ops : List OutPoint) :
    Running genesis { st with cache := (st.cache.fetchEntries sz st.db.utxoSet ops).2 } cc pre := by
  obtain ⟨-, hget, hdirty, hdelta, hmeta⟩ := fetchEntries_spec sz st.cache st.db.utxoSet ops
  have hcached : ∀ k x, st.cache.get k = some x → (st.cache.fetchEntries sz st.db.utxoSet ops).2.get k = some x := by
    intro k x hx
    rw [hget, hx, some_or]
  exact
    { h with
      trackDeltas := hmeta.trackDeltas.trans h.trackDeltas
      tracks := h.tracks.fetchEntries sz (fun op c hrow => h.toBase.origin_of_row hrow) ops
      deltaPoints := hdelta.trans h.deltaPoints
      dirty := by
        intro hq
        have hd := h.dirty hq
        refine ⟨fun op hop => ?_, fun op hop => hd.clean op (hdirty ▸ hop)⟩
        obtain ⟨e, he, hm, hl⟩ := hd.dirty op (hdirty ▸ hop)
        exact ⟨e, hcached op _ he, hm, hl⟩
      pending := fun hq => hdirty.trans (h.pending hq)
      caught := fun hclean => h.caught (hdirty.symm.trans hclean)
      touched := by
        intro item hitem k hk hnone
        refine h.touched item hitem k hk ?_
        cases hx : st.cache.get k with
        | none => rfl
        | some x => exact absurd ((hcached k x hx).symm.trans hnone) (by simp) }

/-- Another view that agrees with the utxo set may take the view's place. -/
theorem Running.withView {view : UtxoViewpoint} {loaded : Bool} (hsm : SpentModified view)
    (ha : AgreesOff (if loaded then tipEvents st.chain else []) view (utxoSet st.chain)) :
    Running genesis { st with view := view, loaded := loaded } cc pre :=
  { h with spentModified := hsm, agrees := ha }

theorem Running.dropView : Running genesis st.dropView cc pre :=
  h.withView (fun _ _ he => by cases he) fun _ _ _ hx => by cases hx

/-- Loading the inputs of the tip changes the view only where the tip's block touches it. -/
theorem Running.fetchInputs {chain : List Block} {b : Block} (hchain : st.chain = chain ++ [b]) :
    Running genesis (st.fetchInputs sz b) cc pre := by
  have hvalid := h.valid
  rw [hchain] at hvalid
  obtain ⟨cb, txs, htxs, -, hncb⟩ := hvalid.last.transactions_eq
  have hheight : (st.chain.length : Int) = nextHeight chain := by simp [hchain, nextHeight]
  obtain ⟨view, needed, hfetch, -, hsm, hlook⟩ := fetchInputUtxos_spec sz st.cache st.db.utxoSet (b := b)
    (by simpa [htxs] using hncb) h.spentModified
    (fun op e he hs => ((h.tracks.cached op _ he).of_spent hs).2) (st.chain.length : Int)
  unfold AsyncChain.fetchInputs
  rw [hfetch]
  refine (h.fetch sz needed).withView hsm ?_
  intro op x hun hx
  rw [hchain, tipEvents_concat, ← hheight] at hun
  refine h.agrees op x ?_ (hlook op hun ▸ hx)
  split
  · rw [hchain, tipEvents_concat, ← hheight]
    exact hun
  · exact ⟨by simp, by simp⟩

/-! ### Detaching the tip -/

section Detach
variable {chain : List Block} {b : Block} (hchain : st.chain = chain ++ [b])
include hchain

/-- Whatever the journal returns for the tip is what its connection spent. -/
theorem Running.journal_eq (hj : st.db.fetchSpendJournalEntry b = some stxos) :
    stxos = journal chain b := by
  have hvalid := h.valid
  rw [hchain] at hvalid
  have hlen := journal_length hvalid.last
  have hempty : (if countSpentOutputs b = 0 then some [] else none) = some stxos → stxos = journal chain b := by
    intro hif
    split at hif
    next hz =>
      cases hif
      exact (length_eq_zero_iff.1 (hlen.trans hz)).symm
    next => cases hif
  unfold Db.fetchSpendJournalEntry at hj
  split at hj
  · exact hempty hj
  · exact hempty hj
  next s _ hs =>
    obtain ⟨p, b', hp, hh, rfl⟩ := h.metaAt.journals _ _ hs
    obtain ⟨rfl, rfl⟩ := hvalid.eq_of_hash (hchain ▸ hp.trans h.toBase.prefix_chain) hh
    rw [if_pos hlen] at hj
    exact (Option.some.inj hj).symm

/-- When no item up to the block below the tip is pending, the rows the tip's block leaves alone are right. -/
theorem Running.row_of_untouched (hsync : ∀ item ∈ st.queue, (st.chain.length : Int) - 1 < item.height) {op : OutPoint}
    (hun : Untouched (blockEvents (nextHeight chain) b) op) (hop : op ∉ st.cache.dirtyOps) :
    st.db.utxoSet op = utxoSet st.chain op := by
  cases hq : st.queue with
  | nil => exact (h.dirty hq).clean op hop
  | cons item queue =>
    have hclean := h.pending (by simp [hq])
    have hpipe := h.pipeline
    rw [hq] at hpipe
    have hheight := hsync item (by simp [hq])
    have hlen : st.chain.length = pre.length + (queue.length + 1) := by rw [h.chain_eq, hq]; simp
    rw [hpipe.1.height, nextHeight] at hheight
    -- the tip's own item is the only one left
    have hnil : queue = [] := length_eq_zero_iff.1 (by omega)
    have hpre : pre = chain ∧ item.block = b := by
      have := h.chain_eq.symm.trans hchain
      rw [hq, hnil] at this
      obtain ⟨h1, h2⟩ := append_inj' this rfl
      exact ⟨h1, by simpa using h2⟩
    rw [h.rows, h.caught hclean, hpre.1, hchain, utxoSet, utxoSet, ledger_concat, Ledger.run_live_untouched]
    intro hk
    obtain ⟨e, he, rfl⟩ := List.mem_map.1 hk
    cases e with
    | spend k => exact hun.2 he
    | create k c => exact hun.1 c he

section

variable (fetchEntryByHash : UtxoViewpoint → Hash → Option UtxoEntry) (m : DetachMeta) (hloaded : st.loaded = true)
  (hsync : ∀ item ∈ st.queue, (st.chain.length : Int) - 1 < item.height)

include fetchEntryByHash m hloaded hsync

/-- The transaction that detaches the tip succeeds once nothing below it is pending, if the journal has its
entry and the optional indexes are at it. It leaves the utxo set of the chain below on disk. -/
theorem Running.disconnectSynced_spec
    (hj : st.db.fetchSpendJournalEntry b = some (journal chain b)) (htips : ∀ t ∈ st.db.indexTips, t = b.hash) :
    ∃ view db', st.view.disconnectTransactions fetchEntryByHash b st.chain.length (journal chain b) = .ok view ∧
      { st with queue := [] }.disconnectSynced sz genesis chain b view m true =
        ({ st with chain := chain, queue := [], view := view.commit, loaded := false, db := db'
                   cache := { (st.cache.writeFull sz st.db.utxoSet).1 with lastFlushHash := tipHash genesis chain }
                   totalTxns := st.totalTxns - UInt64.ofNat b.transactions.length }, true) ∧
      db'.utxoSet = utxoSet chain ∧ db'.utxoStateConsistency = some (tipHash genesis chain) ∧
      db'.spendJournal = st.db.spendJournal.write ⟨b.hash, none⟩ ∧
      db'.indexTips = (st.db.indexTips.map fun _ => b.prevBlock) ∧ db'.blocks = st.db.blocks ∧
      db'.hashIndex = st.db.hashIndex.write ⟨b.hash, none⟩ ∧
      db'.heightIndex = st.db.heightIndex.write ⟨nextHeight chain, none⟩ ∧ Agrees view.commit (utxoSet chain) := by
  have hvalid := h.valid
  rw [hchain] at hvalid
  have hb := hvalid.last
  have hheight : (st.chain.length : Int) = nextHeight chain := by simp [hchain, nextHeight]
  have hlive : ((ledger chain).run (blockEvents (nextHeight chain) b)).live = utxoSet st.chain := by
    rw [hchain, utxoSet, ledger_concat]
  have hagrees : AgreesOff (blockEvents (nextHeight chain) b) st.view
      ((ledger chain).run (blockEvents (nextHeight chain) b)).live := by
    have := h.agrees
    rw [hloaded, hchain, tipEvents_concat] at this
    rwa [hlive, hchain]
  obtain ⟨view, hok, hsm, hundone⟩ := disconnectTransactions_spec fetchEntryByHash hb h.spentModified
  obtain ⟨db', htx, hrows', hmarker', hjour', htips', hblk', hhash', hhgt'⟩ :=
    disconnectTx_spec sz st.cache (nextHeight chain)
      ⟨tipHash genesis chain, chain.length,
        st.totalTxns - UInt64.ofNat b.transactions.length⟩ m.workSum m.parentWork view
      hj htips
  refine ⟨view, db', hheight ▸ hok, ?_, ?_, hmarker', hjour', htips', hblk', hhash', hhgt',
    hundone.commit hb.events hagrees⟩
  · simp [disconnectSynced, hheight, htx]
  · rw [hrows']
    refine hundone.putUtxoView hb.events hagrees fun op hun => ?_
    rw [(writeFull_spec sz st.cache st.db.utxoSet).1, hlive]
    refine rowFlushed_eq (h.tracks.cached op) (h.row_of_untouched hchain hsync hun) fun hop => ?_
    have hq : st.queue = [] := by
      by_contra hq
      simp [h.pending hq] at hop
    exact (h.dirty hq).dirty op hop

theorem Running.detach
    (hj : st.db.fetchSpendJournalEntry b = some stxos) (hhot : HotFirst st.cache)
    (htips : ∀ t ∈ st.db.indexTips, t = b.hash) :
    ∃ cc pre, Running genesis (st.detachBlock sz genesis fetchEntryByHash b stxos m true).1 cc pre := by
  have hvalid := h.valid
  rw [hchain] at hvalid
  have hb := hvalid.last
  cases hprev : st.db.blocks (tipHash genesis chain) with
  | none =>
    -- the block below is missing, and nothing happens
    refine ⟨cc, pre, ?_⟩
    obtain ⟨view, hok, -⟩ := disconnectTransactions_spec fetchEntryByHash hb h.spentModified
    have hheight : (st.chain.length : Int) = nextHeight chain := by simp [hchain, nextHeight]
    have hdrop : st.chain.dropLast = chain := by rw [hchain, dropLast_concat]
    rw [detachBlock, h.journal_eq hchain hj, hheight, hok]
    simp only [disconnectBlock, hdrop, hprev]
    exact h.dropView
  | some prev =>
    have hsame := sameUtxoState_flushToDB st.db m.nodeRows m.bestHeader
    have hjour := h.journal_eq hchain hj
    subst hjour
    -- the rows of `flushToDB` do not matter here, and the barrier has nothing to commit
    obtain ⟨view, db', hok, hst, hdisk, hmarker, hjour, htips', hblk, -, -, hcm⟩ :=
      (h.sameUtxoState hsame).disconnectSynced_spec sz hchain fetchEntryByHash m hloaded hsync
        (by rw [← hj, Db.fetchSpendJournalEntry, hsame.spendJournal, Db.fetchSpendJournalEntry])
        (hsame.indexTips ▸ htips)
    have hlen : (chain.length : Int) = st.chain.length - 1 := by simp [hchain]
    have habove : ∀ item ∈ st.queue, (chain.length : Int) < item.height := hlen ▸ hsync
    have hsynced := fun db => syncNowBelow_above (s := { st with db := db }) chain.length m.batched (by omega) habove
    have hdrop : st.chain.dropLast = chain := by rw [hchain, dropLast_concat]
    rw [detachBlock, hok]
    simp only [disconnectBlock, hdrop, hprev, isNone_some, Bool.false_eq_true, if_false, hsynced, hst]
    rw [hsame.utxoSet]
    rw [hsame.spendJournal] at hjour
    rw [hsame.blocks] at hblk
    refine ⟨chain, chain, ?_⟩
    have hresident := resident_writeFull sz st.db.utxoSet h.tracks.cached hhot
    rw [hchain] at hresident
    have hres : Resident (st.cache.writeFull sz st.db.utxoSet).1 (ledger chain) := hresident.of_concat hvalid
    obtain ⟨-, -, hdirty1, hdelta1, hmeta1⟩ := writeFull_spec sz st.cache st.db.utxoSet
    exact
      { valid := hvalid.of_isPrefix (prefix_append _ _)
        stored := fun c hc => by rw [hblk]; exact h.stored c (by rw [hchain]; exact mem_append_left _ hc)
        marker := hmarker, rows := hdisk, behind := prefix_refl _, chain_eq := by simp, pipeline := trivial
        metaAt := by
          refine ⟨fun t ht => ?_, fun hash s hs => ?_⟩
          · obtain ⟨-, -, rfl⟩ := List.mem_map.1 (htips' ▸ ht)
            exact hb.extends_tip
          · rw [hjour, Store.write_apply] at hs
            split at hs
            · cases hs
            next hne =>
              obtain ⟨p, b', hp, rfl, rfl⟩ := h.metaAt.journals hash s hs
              rcases prefix_concat_iff.1 (hchain ▸ hp.trans h.toBase.prefix_chain) with heq | hp'
              · exact absurd (congrArg Block.hash (singleton_inj.1 (append_inj' heq rfl).2)) hne
              · exact ⟨p, b', hp', rfl, rfl⟩
        trackDeltas := hmeta1.trackDeltas.trans h.trackDeltas
        phase := h.phase
        tracks := by
          have ht := hres.tracks
          exact ⟨hdisk ▸ ht.finds, ht.cached, fun hf => hf.elim⟩
        deltaPoints := hdelta1.trans h.deltaPoints
        dirty := fun _ => ⟨by simp [hdirty1], fun op _ => congrFun hdisk op⟩
        pending := fun hne => absurd rfl hne
        caught := fun _ => rfl
        touched := by simp [PendingSpent]
        spentModified := by
          intro op e he hs
          obtain ⟨e', heq, hs', -⟩ := agrees_iff.1 hcm op (some e) he
          cases heq
          simp [hs] at hs'
        agrees := hcm }

end

end Detach

end Running

end AsyncChain

end IniNode
