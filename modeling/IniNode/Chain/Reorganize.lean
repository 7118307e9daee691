import IniNode.Chain.IndexRows
import IniNode.Chain.ReadYourWrites
/-!
# Detaching the block that was connected last

`reorganizeChain` with one block to detach and none to attach should take back `connectBlock`, however many
items the writer has committed in between (`disconnect_undoes_connect`). It needs the block's undo data on
disk, or a block that spends nothing; and it needs the full flush inside the transaction to leave none of the
block's own outputs in the cache. `connected_block_not_undone` shows both going wrong.
-/

open IniNode.Lib List Option

namespace IniNode

open UtxoCache UtxoViewpoint

namespace AsyncChain

/-- Every cached entry stands for exactly what is unspent on the best chain. -/
def Exact (st : AsyncChain) : Prop := ∀ op x, st.cache.get op = some x → unspent x = utxoSet st.chain op

/-- How far the writer is with the block's item: it is the last one pending, or everything is written. In both
cases the index rows, once the items before are written, are the given ones but for the block's own. -/
inductive Written (i : IndexRows) (item : WriteItem) (st : AsyncChain) : Prop where
  | pending (rest : List WriteItem) (queue : st.queue = rest ++ [item])
      (index : IndexRows.SameBut item.blockHash item.height i (rest.foldl IndexRows.putItem st.db.indexRows))
  | done (queue : st.queue = []) (index : IndexRows.SameBut item.blockHash item.height i st.db.indexRows)
      (journal : st.db.spendJournal item.blockHash = some item.stxos)

/-- The block has been connected on top of the chain and nothing else has happened but commits and lookups.
`i` are the index rows without the block. -/
structure After (genesis : Hash) (i : IndexRows) (chain : List Block) (item : WriteItem) (st : AsyncChain) : Prop where
  running : ∃ cc pre, Running genesis st cc pre
  exact : Exact st
  chain_eq : st.chain = chain ++ [item.block]
  dirtyOps : st.cache.dirtyOps = []
  item_ok : ItemOk chain item
  ownRows : ∀ r ∈ item.nodeRows, r.hash = item.blockHash ∧ r.height = item.height
  written : Written i item st

/-! ## What keeps it -/

section After
variable {genesis : Hash} {i : IndexRows} {chain : List Block} {item : WriteItem} {st : AsyncChain}
  (h : After genesis i chain item st)
include h

theorem After.validBlock : ValidBlock genesis chain item.block := by
  obtain ⟨cc, pre, hr⟩ := h.running
  have := hr.valid
  rw [h.chain_eq] at this
  exact this.last

theorem After.of_same {st' : AsyncChain} (hr : ∃ cc pre, Running genesis st' cc pre) (hexact : Exact st')
    (hdirty : st'.cache.dirtyOps = st.cache.dirtyOps) (hchain : st'.chain = st.chain) (hqueue : st'.queue = st.queue)
    (hdb : st'.db = st.db) : After genesis i chain item st' := by
  refine ⟨hr, hexact, hchain.trans h.chain_eq, hdirty.trans h.dirtyOps, h.item_ok, h.ownRows, ?_⟩
  cases h.written with
  | pending rest hq hi => exact .pending rest (hqueue.trans hq) (hdb ▸ hi)
  | done hq hi hj => exact .done (hqueue.trans hq) (hdb ▸ hi) (hdb ▸ hj)

theorem After.dropView : After genesis i chain item st.dropView := by
  obtain ⟨cc, pre, hr⟩ := h.running
  exact h.of_same ⟨cc, pre, hr.dropView⟩ h.exact rfl rfl rfl rfl

theorem After.flushToDB {rows : List NodeRowSnapshot}
    (hrows : ∀ r ∈ rows, r.hash = item.blockHash ∧ r.height = item.height) (bestHeader : Option (Hash × Int)) :
    After genesis i chain item { st with db := AsyncChain.flushToDB st.db rows bestHeader } := by
  obtain ⟨cc, pre, hr⟩ := h.running
  have hsame := sameUtxoState_flushToDB st.db rows bestHeader
  have hown := IndexRows.SameBut.foldl_own hrows st.db.indexRows
  rw [← indexRows_flushToDB st.db rows bestHeader] at hown
  refine ⟨⟨cc, pre, hr.sameUtxoState hsame⟩, h.exact, h.chain_eq, h.dirtyOps, h.item_ok, h.ownRows, ?_⟩
  cases h.written with
  | pending rest hq hi => exact .pending rest hq (hi.trans (hown.foldl_putItem rest))
  | done hq hi hj => exact .done hq (hi.trans hown) (hsame.spendJournal ▸ hj)

theorem After.commit (n : Nat) : After genesis i chain item (st.commit n true) := by
  obtain ⟨cc, pre, hr⟩ := h.running
  by_cases hne : st.queue.take n = []
  · rw [commit_nil hne]
    exact h
  have hq : st.queue ≠ [] := by rintro hq; simp [hq] at hne
  obtain ⟨db', hflush, -, -⟩ := hr.toBase.commit (hr.caught h.dirtyOps) hne
  obtain ⟨hindex, hjournal, -⟩ := flushBatch_rows hflush
  refine ⟨hr.commit n, h.exact, h.chain_eq, h.dirtyOps, h.item_ok, h.ownRows, ?_⟩
  rw [commit_eq hflush]
  cases h.written with
  | done hnil _ _ => exact absurd hnil hq
  | pending rest hqueue hi =>
    rw [hqueue] at hindex hjournal
    by_cases hn : n ≤ rest.length
    · refine .pending (rest.drop n) ?_ ?_
      · rw [hqueue, drop_append_of_le_length hn]
      · rw [hindex, take_append_of_le_length hn, ← foldl_append, take_append_drop]
        exact hi
    · have hall : (rest ++ [item]).take n = rest ++ [item] := take_of_length_le (by simp; omega)
      rw [hall] at hindex hjournal
      refine .done ?_ ?_ (hjournal item (by simp))
      · rw [hqueue]
        exact drop_of_length_le (by simp; omega)
      · rw [hindex, foldl_append]
        exact hi.trans (.putItem_own _ ⟨rfl, rfl⟩ h.ownRows)

/-! ## The undo data -/

/-- The block's item is written, or it has nothing to undo but its own outputs. -/
def Recorded (st : AsyncChain) (b : Block) : Prop := st.queue = [] ∨ countSpentOutputs b = 0

omit h in
theorem spend_not_mem_of_count {b : Block} (hb : ValidBlock genesis chain b) (hz : countSpentOutputs b = 0)
    (op : OutPoint) : .spend op ∉ blockEvents (nextHeight chain) b := by
  obtain ⟨cb, txs, htxs, hcb, hncb⟩ := hb.transactions_eq
  rw [countSpentOutputs, htxs, List.sum_eq_zero_iff_forall_eq_nat] at hz
  intro hs
  rw [blockEvents, htxs, flatMap_cons, mem_append] at hs
  rcases hs with hs | hs
  · have hins : inputEvents cb = ([] : List OutPoint).map .spend := inputEvents_coinBase hcb
    simpa using (spend_mem_txEvents hins).1 hs
  · obtain ⟨tx, htx, hs⟩ := mem_flatMap.1 hs
    have hop := (spend_mem_txEvents (inputEvents_of_not_coinBase (hncb tx htx))).1 hs
    have hlen := hz tx.txIn.length (List.mem_map_of_mem htx)
    rw [length_eq_zero_iff.1 hlen] at hop
    cases hop

theorem After.fetchJournal (hw : Recorded st item.block) :
    st.db.fetchSpendJournalEntry item.block = some (journal chain item.block) := by
  obtain ⟨cc, pre, hr⟩ := h.running
  have hlen := journal_length h.validBlock
  have hread : ∃ stxos, st.db.fetchSpendJournalEntry item.block = some stxos := by
    unfold Db.fetchSpendJournalEntry
    cases hj : st.db.spendJournal item.block.hash with
    | some s =>
      obtain ⟨p, b', hp, hh, rfl⟩ := hr.metaAt.journals _ _ hj
      have hvalid := hr.valid
      rw [h.chain_eq] at hvalid
      obtain ⟨rfl, rfl⟩ := hvalid.eq_of_hash (h.chain_eq ▸ hp.trans hr.toBase.prefix_chain) hh
      generalize journal p item.block = s at hlen
      cases s with
      | nil => exact ⟨[], if_pos hlen.symm⟩
      | cons x xs => exact ⟨x :: xs, if_pos hlen⟩
    | none =>
      -- without an entry the item is pending, so the block spends nothing
      have hz : countSpentOutputs item.block = 0 := by
        rcases hw with hq | hz
        · cases h.written with
          | pending rest hq' _ => simp [hq] at hq'
          | done _ _ hj' =>
            rw [h.item_ok.blockHash, hj] at hj'
            cases hj'
        · exact hz
      exact ⟨[], if_pos hz⟩
  obtain ⟨stxos, hread⟩ := hread
  rw [hread, hr.journal_eq h.chain_eq hread]

variable (sz : SizeHelper)

/-- Looking up outputs the block spends finds nothing new. -/
theorem After.get_fetchEntries (hw : Recorded st item.block) {ops : List OutPoint}
    (hops : ∀ op ∈ ops, .spend op ∈ blockEvents (nextHeight chain) item.block) {op : OutPoint} {x : Option UtxoEntry}
    (hx : (st.cache.fetchEntries sz st.db.utxoSet ops).2.get op = some x) :
    st.cache.get op = some x ∨ x = none ∧ utxoSet st.chain op = none := by
  obtain ⟨cc, pre, hr⟩ := h.running
  rw [(fetchEntries_spec sz st.cache st.db.utxoSet ops).2.1] at hx
  cases hk : st.cache.get op with
  | some y => exact .inl (by simpa [hk] using hx)
  | none =>
    rw [hk, none_or, ite_none_right_eq_some] at hx
    obtain ⟨hop, hx⟩ := hx
    have hspend := hops op hop
    have hdead : utxoSet st.chain op = none := by
      rw [h.chain_eq, utxoSet, ledger_concat]
      exact h.validBlock.events.live_of_spend_mem hspend
    rcases hw with hq | hz
    · have hrow : st.db.utxoSet op = none := ((hr.dirty hq).clean op (by simp [h.dirtyOps])).trans hdead
      rw [dbFetchUtxoEntry, hrow] at hx
      exact .inr ⟨(Option.some.inj hx).symm, hdead⟩
    · exact absurd hspend (spend_not_mem_of_count h.validBlock hz op)

/-! ## The barrier -/

omit h in
theorem filter_height {rest : List WriteItem} {maxHeight : Int} (hnonneg : 0 ≤ maxHeight)
    (hrest : ∀ r ∈ rest, r.height ≤ maxHeight) (hitem : maxHeight < item.height) (k : Nat) :
    ((rest ++ [item]).take k).filter (WriteItem.keptBelow maxHeight) = rest.take k ∧
      ((rest ++ [item]).drop k).filter (WriteItem.keptBelow maxHeight) = rest.drop k := by
  have hkeep : ∀ q : List WriteItem, (∀ r ∈ q, r ∈ rest) → q.filter (WriteItem.keptBelow maxHeight) = q :=
    fun q hq =>
    filter_eq_self.2 fun r hr => decide_eq_true (.inr (hrest r (hq r hr)))
  have hdrop : ∀ q : List WriteItem, (∀ r ∈ q, r = item) → q.filter (WriteItem.keptBelow maxHeight) = [] := by
    intro q hq
    refine filter_eq_nil_iff.2 fun r hr => ?_
    rw [hq r hr]
    simp only [WriteItem.keptBelow, decide_eq_true_eq]
    omega
  rw [take_append, drop_append, filter_append, filter_append,
    hkeep _ fun _ => mem_of_mem_take, hkeep _ fun _ => mem_of_mem_drop,
    hdrop _ fun r hr => by simpa using mem_of_mem_take hr,
    hdrop _ fun r hr => by simpa using mem_of_mem_drop hr]
  simp

/-- The barrier commits every item before the block's own, as two batches of the writer would, and drops
that one. -/
theorem After.syncNowBelow (k : Nat) : ∃ n n', st.syncNowBelow chain.length k =
      { (st.commit n true).commit n' true with queue := [] } ∧
    ((st.commit n true).commit n' true).queue = if st.queue = [] then [] else [item] := by
  have hheight : (chain.length : Int) < item.height := by rw [h.item_ok.height, nextHeight]; omega
  cases h.written with
  | done hq _ _ =>
    refine ⟨0, 0, ?_, by simp [AsyncChain.commit, hq]⟩
    rw [syncNowBelow_above _ k (by omega) (by simp [hq]), commit_nil (by simp), commit_nil (by simp)]
  | pending rest hq _ =>
    obtain ⟨cc, pre, hr⟩ := h.running
    have hpipe := hr.pipeline
    rw [hq] at hpipe
    have hlen : pre.length + rest.length = chain.length := by
      have := congrArg List.length (hr.chain_eq.symm.trans h.chain_eq)
      simp [hq] at this
      omega
    have hrest : ∀ r ∈ rest, r.height ≤ (chain.length : Int) := by
      intro r hrm
      have := (Pipeline.append.1 hpipe).1.height_le hrm
      omega
    obtain ⟨htake, hdrop⟩ := filter_height (by omega) hrest hheight k
    have h1 : (rest ++ [item]).take (min k rest.length) = rest.take k := by
      rw [take_append_of_le_length (by omega), take_eq_take_iff]
      omega
    have h2 : ((rest ++ [item]).drop (min k rest.length)).take (rest.length - min k rest.length) = rest.drop k := by
      rw [drop_append_of_le_length (by omega), take_append_of_le_length (by simp)]
      rcases Nat.le_total k rest.length with hk | hk
      · rw [Nat.min_eq_left hk, take_of_length_le (by simp)]
      · rw [Nat.min_eq_right hk, drop_of_length_le hk]
        simp
    have h3 : ((rest ++ [item]).drop (min k rest.length)).drop (rest.length - min k rest.length) = [item] := by
      rw [drop_drop, Nat.add_sub_cancel' (by omega), drop_left]
    refine ⟨min k rest.length, rest.length - min k rest.length, ?_, ?_⟩
    · simp [AsyncChain.syncNowBelow, AsyncChain.commit, hq, htake, hdrop, h1, h2]
    · simp [AsyncChain.commit, hq, h3]

omit h in
theorem indexTips_commit (hnil : st.db.indexTips = []) (n : Nat) : (st.commit n true).db.indexTips = [] := by
  simp only [AsyncChain.commit]
  cases hflush : flushBatch st.db (st.queue.take n) with
  | none => exact hnil
  | some db' => exact (flushBatch_rows hflush).2.2 hnil

/-! ## Detaching -/

/-- The state after the block has been taken back: its chain, the totals and the utxo rows are those below the
block, the index rows are the given ones, and the cache is what the full flush leaves of it. -/
structure TakenBack (i : IndexRows) (chain : List Block) (item : WriteItem) (st st' : AsyncChain) : Prop where
  chain_eq : st'.chain = chain
  totalTxns : st'.totalTxns = st.totalTxns - UInt64.ofNat item.block.transactions.length
  rows : st'.db.utxoSet = utxoSet chain
  index : IndexRows.SameBut item.blockHash item.height i st'.db.indexRows
  removed : st'.db.hashIndex item.blockHash = none ∧ st'.db.heightIndex item.height = none
  cache : ∀ k, st'.cache.get k = (st.cache.get k).bind fun x => if isHot st.cache.hotFloor x = true then
    some (if k ∈ st.cache.cachedEntries.first then x.map UtxoEntry.flushed else none) else none

variable (fetchEntryByHash : UtxoViewpoint → Hash → Option UtxoEntry)

theorem After.detachBlock {m : DetachMeta}
    (hloaded : st.loaded = true) (hw : Recorded st item.block) (htips : st.queue = [] ∨ st.db.indexTips = [])
    (hrows : ∀ r ∈ m.nodeRows, r.hash = item.blockHash ∧ r.height = item.height)
    (hprev : (st.db.blocks (tipHash genesis chain)).isSome) :
    ∃ st', st.detachBlock sz genesis fetchEntryByHash item.block (journal chain item.block) m true = (st', true) ∧
      TakenBack i chain item st st' := by
  have hsame := sameUtxoState_flushToDB st.db m.nodeRows m.bestHeader
  have h1 := h.flushToDB hrows m.bestHeader
  obtain ⟨n, n', hsync, hqueue⟩ := h1.syncNowBelow m.batched
  have h2 := (h1.commit n).commit n'
  set st2 := ({ st with db := AsyncChain.flushToDB st.db m.nodeRows m.bestHeader }.commit n true).commit n' true
  obtain ⟨cc, pre, hr⟩ := h2.running
  have hnil : st.queue = [] → st2.queue = [] := fun hq => by rw [hqueue]; exact if_pos hq
  have habove : ∀ it ∈ st2.queue, (st2.chain.length : Int) - 1 < it.height := by
    intro it hit
    rw [hqueue] at hit
    split at hit
    · cases hit
    · rw [mem_singleton.1 hit, h2.chain_eq, h.item_ok.height, nextHeight, length_append, length_singleton]
      omega
  have htips2 : ∀ t ∈ st2.db.indexTips, t = item.block.hash := by
    intro t ht
    rcases htips with hq | htips
    · have hpre := hr.chain_eq
      rw [hnil hq, queueBlocks, map_nil, append_nil, h2.chain_eq] at hpre
      rw [hr.metaAt.tips t ht, ← hpre, tipHash_concat]
    · have : st2.db.indexTips = [] := indexTips_commit (indexTips_commit (hsame.indexTips.trans htips) n) n'
      rw [this] at ht
      cases ht
  obtain ⟨view, db', hok, hst, hdisk, -, -, -, -, hhash, hhgt, -⟩ := hr.disconnectSynced_spec sz h2.chain_eq
    fetchEntryByHash m hloaded habove (h2.fetchJournal (hw.imp_left hnil)) htips2
  have hdrop : st.chain.dropLast = chain := by rw [h.chain_eq, dropLast_concat]
  have hisNone : (st.db.blocks (tipHash genesis chain)).isNone = false := by simpa using hprev
  have hchain2 : (st2.chain.length : Int) = st.chain.length := rfl
  have hview2 : st2.view = st.view := rfl
  rw [hview2, hchain2] at hok
  refine ⟨{ st2 with
      chain := chain, queue := [], view := view.commit, loaded := false, db := db'
      cache := { (st.cache.writeFull sz st2.db.utxoSet).1 with lastFlushHash := tipHash genesis chain }
      totalTxns := st.totalTxns - UInt64.ofNat item.block.transactions.length }, ?_, rfl, rfl, hdisk, ?_, ?_, ?_⟩
  · rw [AsyncChain.detachBlock, hok]
    simp only [disconnectBlock, hdrop, hisNone, hsync]
    exact hst
  · -- the block's item may be pending, but nothing before it
    have hindex : IndexRows.SameBut item.blockHash item.height i st2.db.indexRows := by
      cases h2.written with
      | done _ hi _ => exact hi
      | pending rest hq hi =>
        rw [hqueue] at hq
        split at hq
        · simp at hq
        · have : rest = [] := by simpa using congrArg List.length hq
          subst this
          exact hi
    refine hindex.trans ⟨fun k hk => ?_, fun k hk => ?_⟩
    · change db'.hashIndex k = _
      rw [hhash, Store.write_apply, if_neg (by rwa [← h.item_ok.blockHash])]
      rfl
    · change db'.heightIndex k = _
      rw [hhgt, Store.write_apply, if_neg (by rwa [← h.item_ok.height])]
      rfl
  · rw [h.item_ok.blockHash, h.item_ok.height]
    refine ⟨?_, ?_⟩
    · rw [hhash, Store.write_apply, if_pos rfl]
    · rw [hhgt, Store.write_apply, if_pos rfl]
  · exact (writeFull_spec sz st.cache st2.db.utxoSet).2.1

/-- Of the unspent entries at or above the hot floor, those in the first map are exactly those the block did
not create. -/
def OwnOutside (cache : UtxoCache) (es : List UtxoEvent) : Prop :=
  ∀ op e, cache.get op = some (some e) → e.isSpent = false → cache.hotFloor ≤ e.blockHeight →
    (op ∈ cache.cachedEntries.first ↔ ∀ c, .create op c ∉ es)

theorem After.fetchInputs (hw : Recorded st item.block) : After genesis i chain item (st.fetchInputs sz item.block) ∧
      (∀ es, OwnOutside st.cache es → OwnOutside (st.fetchInputs sz item.block).cache es) := by
  obtain ⟨cc, pre, hr⟩ := h.running
  obtain ⟨cb, txs, htxs, -, hncb⟩ := h.validBlock.transactions_eq
  have hheight : (st.chain.length : Int) = nextHeight chain := by simp [h.chain_eq, nextHeight]
  obtain ⟨view, needed, hfetch, hneeded, -⟩ := fetchInputUtxos_spec sz st.cache st.db.utxoSet (b := item.block)
    (by simpa [htxs] using hncb) hr.spentModified
    (fun op e he hs => ((hr.tracks.cached op _ he).of_spent hs).2) (st.chain.length : Int)
  have hst : st.fetchInputs sz item.block =
      { st with view := view, cache := (st.cache.fetchEntries sz st.db.utxoSet needed).2, loaded := true } := by
    rw [AsyncChain.fetchInputs, hfetch]
  have hget : ∀ op x, (st.cache.fetchEntries sz st.db.utxoSet needed).2.get op = some x →
      st.cache.get op = some x ∨ x = none ∧ utxoSet st.chain op = none :=
    fun op x hx => h.get_fetchEntries sz hw (hheight ▸ hneeded) hx
  have hrun := hr.fetchInputs sz h.chain_eq
  obtain ⟨-, -, hdirty, -, hmeta⟩ := fetchEntries_spec sz st.cache st.db.utxoSet needed
  rw [hst] at hrun ⊢
  refine ⟨h.of_same ⟨cc, pre, hrun⟩ (fun op x hx => ?_) hdirty rfl rfl rfl, fun es hout op e he hs hfl => ?_⟩
  · rcases hget op x hx with hx | ⟨rfl, hdead⟩
    · exact h.exact op x hx
    · exact hdead.symm
  · rcases hget op _ he with he' | ⟨habs, -⟩
    · rw [mem_first_fetchEntries sz st.db.utxoSet needed (by simp [he'])]
      exact hout op e he' hs (hmeta.hotFloor ▸ hfl)
    · cases habs

theorem TakenBack.resolve {st' : AsyncChain} (ht : TakenBack i chain item st st')
    (hout : OwnOutside st.cache (blockEvents (nextHeight chain) item.block)) (op : OutPoint) :
    st'.cache.resolve st'.db.utxoSet op = utxoSet chain op := by
  rw [UtxoCache.resolve, UtxoCache.lookup, ht.cache]
  have hv := h.validBlock.events
  have hlive : utxoSet st.chain op = ((ledger chain).run (blockEvents (nextHeight chain) item.block)).live op := by
    rw [h.chain_eq, utxoSet, ledger_concat]
  have hrow : (unspent (dbFetchUtxoEntry st'.db.utxoSet op)) = utxoSet chain op := by
    rw [unspent_dbFetchUtxoEntry, ht.rows]
  cases hx : st.cache.get op with
  | none => simpa using hrow
  | some x =>
    rw [bind_some]
    by_cases hhot : isHot st.cache.hotFloor x = true
    · rw [if_pos hhot, getD_some]
      cases x with
      | none => cases hhot
      | some e =>
        obtain ⟨hs, hfl⟩ : e.isSpent = false ∧ st.cache.hotFloor ≤ e.blockHeight := by simpa [isHot] using hhot
        have hexact := h.exact op _ hx
        by_cases hfirst : op ∈ st.cache.cachedEntries.first
        · -- an output of another block, which is still unspent
          have hcreate := (hout op e hx hs hfl).1 hfirst
          have hspend : .spend op ∉ blockEvents (nextHeight chain) item.block := by
            intro hsp
            rw [hlive, hv.live_of_spend_mem hsp, unspent_some, hs] at hexact
            cases hexact
          rw [if_pos hfirst, unspent_flushed, hexact, hlive]
          exact ((hv.live_before op).2.2 hcreate hspend).symm
        · -- an output of the block itself comes back as nil
          rw [if_neg hfirst]
          have hcreate := mt (hout op e hx hs hfl).2 hfirst
          simp only [not_forall, not_not] at hcreate
          obtain ⟨c, hcreate⟩ := hcreate
          exact (Ledger.live_none_of_origin_none (hv.origin_none_of_create_mem hcreate)).symm
    · rw [if_neg hhot]
      exact hrow

theorem After.reorganizeChain {m : DetachMeta} (hw : Recorded st item.block) (htips : st.queue = [] ∨ st.db.indexTips = [])
    (hrows : ∀ r ∈ m.nodeRows, r.hash = item.blockHash ∧ r.height = item.height)
    (hout : OwnOutside st.cache (blockEvents (nextHeight chain) item.block))
    (hprev : (st.db.blocks (tipHash genesis chain)).isSome) :
    ∃ st', st.reorganizeChain sz genesis fetchEntryByHash [(item.block.hash, m)] = (st', true) ∧
      st'.chain = chain ∧ st'.totalTxns = st.totalTxns - UInt64.ofNat item.block.transactions.length ∧
      (∀ op, st'.cache.resolve st'.db.utxoSet op = utxoSet chain op) ∧
      IndexRows.SameBut item.blockHash item.height i st'.db.indexRows ∧
      st'.db.hashIndex item.blockHash = none ∧ st'.db.heightIndex item.height = none := by
  obtain ⟨hV, houtV⟩ := h.dropView.fetchInputs sz hw
  obtain ⟨hB, houtB⟩ := hV.dropView.fetchInputs sz hw
  obtain ⟨cc, pre, hr⟩ := h.running
  obtain ⟨ccV, preV, hrV⟩ := hV.running
  have htip : tipHash genesis st.chain = item.block.hash := by rw [h.chain_eq, tipHash_concat]
  have hheight : (st.chain.length : Int) = nextHeight chain := by simp [h.chain_eq, nextHeight]
  have hstored : st.db.blocks item.block.hash = some item.block := hr.stored _ (by simp [h.chain_eq])
  obtain ⟨v, hok, -⟩ := disconnectTransactions_spec fetchEntryByHash h.validBlock hrV.spentModified
  have hverify : st.verifyReorganizationValidity sz genesis fetchEntryByHash [item.block.hash] =
      ((st.dropView.fetchInputs sz item.block).cache, some [(item.block, journal chain item.block)]) := by
    have hfetch : (st.dropView.fetchInputs sz item.block).view =
        ((∅ : UtxoViewpoint).fetchInputUtxos sz st.cache st.db.utxoSet item.block st.chain.length).1 := rfl
    rw [hfetch, ← hheight] at hok
    simp only [verifyReorganizationValidity, htip, ne_eq, verifyDetach, hstored, h.fetchJournal hw, hok]
    rfl
  obtain ⟨st', hst', ht⟩ := hB.detachBlock sz fetchEntryByHash (m := m) rfl hw htips hrows hprev
  refine ⟨st'.dropView, ?_, ht.chain_eq, ht.totalTxns, fun op => ht.resolve hB (houtB _ (houtV _ hout)) op, ht.index,
    ht.removed⟩
  simp only [AsyncChain.reorganizeChain, map_cons, map_nil, hverify, zip_cons_cons]
  have hstep : ({ st with
      cache := (st.dropView.fetchInputs sz item.block).cache, view := ∅, loaded := false }.fetchInputs sz
      item.block).detachBlock sz genesis fetchEntryByHash item.block (journal chain item.block) m true = (st', true) := hst'
  rw [detachBlocks, hstep]
  rfl

end After

/-! ## Every connected block -/

section Run
variable (sz : SizeHelper) {genesis : Hash} (fetchEntryByHash : UtxoViewpoint → Hash → Option UtxoEntry)

theorem connectBlock_item {st st' : AsyncChain} {b : Block} {m : ItemMeta} (h : st.connectBlock sz b m = some st') :
    ∃ item, st'.queue = st.queue ++ [item] ∧ item.nodeRows = m.nodeRows ∧
      st'.totalTxns = st.totalTxns + UInt64.ofNat b.transactions.length := by
  unfold connectBlock at h
  dsimp only at h
  split at h
  · split at h
    · cases h
    · cases h
      exact ⟨_, rfl, rfl, rfl⟩
  · cases h

theorem Running.after_connect {st st' : AsyncChain} {cc pre : List Block} {b : Block} {m : ItemMeta} {i : IndexRows}
    (h : Running genesis st cc pre) (hexact : Exact st) (hclean : st.cache.dirtyOps = [])
    (hb : ValidBlock genesis st.chain b)
    (hi : IndexRows.SameBut b.hash (nextHeight st.chain) i (st.queue.foldl IndexRows.putItem st.db.indexRows))
    (hrows : ∀ r ∈ m.nodeRows, r.hash = b.hash ∧ r.height = nextHeight st.chain)
    (hst : step sz genesis fetchEntryByHash st (.connect b m) = some st') :
    ∃ item, item.block = b ∧ After genesis i st.chain item st' ∧
      st'.totalTxns = st.totalTxns + UInt64.ofNat b.transactions.length := by
  obtain ⟨⟨-, hstored⟩, hst⟩ := ite_none_right_eq_some.1 hst
  obtain ⟨item, st1, hst1, hc⟩ := connectBlock_spec sz m kept_entryOk hb h.tracks h.deltaPoints h.trackDeltas
  obtain ⟨_, st2, hst2, hc'⟩ := connectBlock_spec sz m kept_entryExact hb
    ⟨h.tracks.finds, hexact, fun hf => hf.elim⟩ h.deltaPoints h.trackDeltas
  cases hst.symm.trans hst1
  cases hst.symm.trans hst2
  obtain ⟨item', hq, hnode, htxns⟩ := connectBlock_item sz hst
  obtain rfl : item' = item := singleton_inj.1 (append_cancel_left (hq.symm.trans hc.queue))
  have hhash : item'.blockHash = b.hash := hc.item_ok.blockHash.trans (congrArg Block.hash hc.block)
  refine ⟨item', hc.block,
    ⟨⟨cc, pre, h.connect hb hstored hclean hc⟩, ?_, ?_, hc.dirtyOps, hc.item_ok, ?_, ?_⟩, htxns⟩
  · intro op x hx
    rw [hc.chain]
    exact hc'.tracks.cached op x hx
  · rw [hc.block]
    exact hc.chain
  · rw [hnode, hhash, hc.item_ok.height]
    exact hrows
  · refine .pending st.queue hq ?_
    rw [hhash, hc.item_ok.height, hc.db]
    exact hi

theorem After.run_commits {i : IndexRows} {chain : List Block} {item : WriteItem} {st st' : AsyncChain}
    (h : After genesis i chain item st) {ns : List Nat}
    (hrun : run (step sz genesis fetchEntryByHash) st (ns.map fun n => .commit n true) = some st') :
    After genesis i chain item st' ∧ st'.totalTxns = st.totalTxns := by
  induction ns generalizing st with
  | nil =>
    cases hrun
    exact ⟨h, rfl⟩
  | cons n ns ih =>
    obtain ⟨st1, hst1, hrun⟩ := bind_eq_some_iff.1 hrun
    obtain ⟨-, ⟨⟩⟩ := ite_none_right_eq_some.1 hst1
    obtain ⟨h', htxns⟩ := ih (h.commit n) hrun
    exact ⟨h', htxns⟩

/-- The block can be taken back. Before it, in `st`, it is valid, lookups are right and nothing is dirty, and
its hash and height have no row yet; the rows written on its behalf are its own. When it is to be detached, in `st'`, its
item has been written, or it spends nothing and there is no optional index; and its own outputs are cached
outside the first map only, unlike the other resident ones. -/
structure Undoable (genesis : Hash) (st st' : AsyncChain) (b : Block) (rows : List NodeRowSnapshot) : Prop where
  valid : ValidBlock genesis st.chain b
  right : ∀ op, st.cache.resolve st.db.utxoSet op = utxoSet st.chain op
  clean : st.cache.dirtyOps = []
  newRows : ∀ db, writeItems st.db st.queue = some db →
    db.hashIndex b.hash = none ∧ db.heightIndex (nextHeight st.chain) = none
  ownRows : ∀ r ∈ rows, r.hash = b.hash ∧ r.height = nextHeight st.chain
  recorded : st'.queue = [] ∨ countSpentOutputs b = 0 ∧ st'.db.indexTips = []
  outside : OwnOutside st'.cache (blockEvents (nextHeight st.chain) b)

/-- A block is accepted: the rows of the dirty nodes are flushed and it is connected. However many items the
writer commits afterwards, `reorganizeChain` takes the block back: the tip, what every lookup finds, and the
index rows as they are once the items queued before are written. -/
theorem disconnect_undoes_connect (calcWork : Nat → Nat) (maxTotalMemoryUsage totalTxns : UInt64) {chain cc : List Block}
    {db : Db} {st0 st st1 st2 : AsyncChain} {steps : List AsyncStep} {rows : List NodeRowSnapshot}
    {bestHeader : Option (Hash × Int)} {b : Block} {m : ItemMeta} {ns : List Nat} {dm : DetachMeta}
    (hs : StartDb genesis chain cc db) (hbelow : MarkerBelow chain db)
    (hst0 : (fromDb sz chain db maxTotalMemoryUsage totalTxns).initConsistentState genesis calcWork = some st0)
    (hok : Along (step sz genesis fetchEntryByHash) (StepOk sz genesis) st0 steps)
    (hrun : run (step sz genesis fetchEntryByHash) st0 steps = some st)
    (hconn : step sz genesis fetchEntryByHash { st with db := flushToDB st.db rows bestHeader } (.connect b m) = some st1)
    (hwrites : run (step sz genesis fetchEntryByHash) st1 (ns.map fun n => .commit n true) = some st2)
    (hgenesis : st.chain = [] → (st2.db.blocks genesis).isSome)
    (hundo : Undoable genesis st st2 b (rows ++ m.nodeRows ++ dm.nodeRows)) :
    ∃ st3 db0, st2.reorganizeChain sz genesis fetchEntryByHash [(b.hash, dm)] = (st3, true) ∧
      st3.chain = st.chain ∧ st3.best genesis = st.best genesis ∧
      (∀ op, st3.cache.resolve st3.db.utxoSet op = st.cache.resolve st.db.utxoSet op) ∧
      writeItems st.db st.queue = some db0 ∧ st3.db.hashIndex = db0.hashIndex ∧
      st3.db.heightIndex = db0.heightIndex := by
  have hinv : Inv genesis st := run_invariant (fun _ a _ h hok hst => Inv.step sz fetchEntryByHash h a hok hst)
    (hs.inv sz calcWork maxTotalMemoryUsage totalTxns hbelow hst0) hok hrun
  have hphase : st.phase = .running := by
    simp only [AsyncChain.step, ite_none_right_eq_some] at hconn
    exact hconn.1.1
  obtain ⟨cc', pre, hr⟩ := hinv.of_running_phase hphase
  have hown : ∀ l : List NodeRowSnapshot, (∀ r ∈ l, r ∈ rows ++ m.nodeRows ++ dm.nodeRows) →
      ∀ r ∈ l, r.hash = b.hash ∧ r.height = nextHeight st.chain := fun l hl r hr => hundo.ownRows r (hl r hr)
  have hexact : Exact st := by
    intro op x hx
    rw [← hundo.right op, UtxoCache.resolve, UtxoCache.lookup, hx, getD_some]
  -- the rows without the block: those of `st` once its queue is written
  obtain ⟨db0, hdb0, -⟩ :=
    writeItems_spec hr.pipeline (hr.chain_eq ▸ hr.valid) (hr.rows.trans (hr.caught hundo.clean)) hr.metaAt
  have hindex0 : db0.indexRows = st.queue.foldl IndexRows.putItem st.db.indexRows := (writeItems_rows hdb0).1
  have hi : IndexRows.SameBut b.hash (nextHeight st.chain) db0.indexRows
      (st.queue.foldl IndexRows.putItem (flushToDB st.db rows bestHeader).indexRows) := by
    rw [hindex0, indexRows_flushToDB]
    exact (IndexRows.SameBut.foldl_own (hown rows (by simp +contextual)) _).foldl_putItem _
  have hr' := hr.sameUtxoState (sameUtxoState_flushToDB st.db rows bestHeader)
  obtain ⟨item, rfl, ha1, htxns1⟩ := hr'.after_connect sz fetchEntryByHash hexact hundo.clean hundo.valid hi
    (hown m.nodeRows (by simp +contextual)) hconn
  obtain ⟨ha2, htxns2⟩ := ha1.run_commits sz fetchEntryByHash hwrites
  have hprev : (st2.db.blocks (tipHash genesis st.chain)).isSome := by
    rcases eq_nil_or_concat st.chain with hnil | ⟨p, c, hc⟩
    · rw [hnil]
      exact hgenesis hnil
    · obtain ⟨_, _, hr2⟩ := ha2.running
      rw [concat_eq_append] at hc
      have hmem : c ∈ st2.chain := by
        rw [ha2.chain_eq]
        simp [hc]
      rw [hc, tipHash_concat, hr2.stored c hmem]
      rfl
  have hitem : item.blockHash = item.block.hash ∧ item.height = nextHeight st.chain :=
    ⟨ha2.item_ok.blockHash, ha2.item_ok.height⟩
  obtain ⟨st3, hst3, hchain3, htxns3, hres3, hindex3, hremoved3⟩ :=
    ha2.reorganizeChain sz fetchEntryByHash (m := dm)
    (hundo.recorded.imp_right And.left) (hundo.recorded.imp_right And.right)
    (by rw [hitem.1, hitem.2]; exact hown dm.nodeRows (by simp +contextual)) hundo.outside hprev
  have hnew := hundo.newRows db0 hdb0
  rw [← hitem.1, ← hitem.2] at hnew
  have heq : st3.db.indexRows = db0.indexRows := hindex3.eq hnew hremoved3
  refine ⟨st3, db0, hst3, hchain3, ?_, fun op => (hres3 op).trans (hundo.right op).symm, hdb0,
    congrArg IndexRows.hashes heq, congrArg IndexRows.heights heq⟩
  have htxns : st3.totalTxns = st.totalTxns := by
    rw [htxns3, htxns2, htxns1]
    rw [UInt64.add_sub_cancel]
  rw [best, best, hchain3, htxns]

end Run

/-! ### A block that is not taken back -/

def plainDetach : DetachMeta := ⟨[], none, 0, 0, 0⟩

/-- What is left of `spendingBlock` after it was connected, so many items were committed and it was detached:
whether that succeeded, the tip, and what is found of the block's coinbase output. -/
def detached (committed : Nat) : Option (Bool × Hash × Option Coin) :=
  (run (step roomySizes 10 fun _ _ => none) settledNode
    [.connect spendingBlock ⟨[], 0, 0, -1⟩, .commit committed true]).map fun st =>
      let (st', ok) := st.reorganizeChain roomySizes 10 (fun _ _ => none) [(12, plainDetach)]
      (ok, tipHash 10 st'.chain, st'.cache.resolve st'.db.utxoSet ⟨102, 0⟩)

/-- While its item is pending the block cannot be detached, since its spend journal is not on disk. After the
item has been written it can, but its coinbase output is still found unspent afterwards, as it was not before
the block was connected. -/
theorem connected_block_not_undone :
    (fromDb roomySizes [firstBlock] settledDb 1000000 2).initConsistentState 10 (fun _ => 1) = some settledNode ∧
      settledNode.cache.resolve settledNode.db.utxoSet ⟨102, 0⟩ = none ∧
      detached 0 = some (false, 12, some ⟨50, [], 2, true⟩) ∧
      detached 1 = some (true, 11, some ⟨50, [], 2, true⟩) :=
  ⟨rfl, by decide, by decide, by decide⟩

/-- A block on top of `firstBlock` that spends its output and creates none. -/
def burningBlock : Block :=
  ⟨13, headerOn 11, [⟨104, [⟨zeroHash, 2 ^ 32 - 1⟩], [⟨50, [opReturn]⟩]⟩,
    ⟨105, [⟨101, 0⟩], [⟨50, [opReturn]⟩]⟩]⟩

def burningDb : Db :=
  { settledDb with blocks := fun h => if h = 11 then some firstBlock else if h = 13 then some burningBlock else none }

theorem startDb_burningDb : StartDb 10 [firstBlock] [firstBlock] burningDb :=
  { startDb_settledDb with
    stored := by simp [burningDb, firstBlock]
    metaAt := ⟨startDb_settledDb.metaAt.tips, startDb_settledDb.metaAt.journals⟩ }

def burningNode : AsyncChain := { settledNode with db := burningDb }

/-- The block is connected, its item written and the block detached: the output it spent is found again. -/
theorem disconnect_undoes_connect_burning :
    ∃ st1 st2 st3, step roomySizes 10 (fun _ _ => none) burningNode (.connect burningBlock ⟨[], 0, 0, -1⟩) =
      some st1 ∧ run (step roomySizes 10 fun _ _ => none) st1 [.commit 1 true] = some st2 ∧
      st2.cache.resolve st2.db.utxoSet ⟨101, 0⟩ = none ∧
      st2.reorganizeChain roomySizes 10 (fun _ _ => none) [(13, plainDetach)] = (st3, true) ∧
      st3.cache.resolve st3.db.utxoSet ⟨101, 0⟩ = burningNode.cache.resolve burningNode.db.utxoSet ⟨101, 0⟩ := by
  have heval : ((step roomySizes 10 (fun _ _ => none) burningNode (.connect burningBlock ⟨[], 0, 0, -1⟩)).bind fun st =>
      run (step roomySizes 10 fun _ _ => none) st [.commit 1 true]).map (fun st =>
        (st.cache.cachedEntries.length, st.queue.length, st.cache.resolve st.db.utxoSet ⟨101, 0⟩)) =
          some (0, 0, none) := by
    decide
  obtain ⟨st2, hst2, hfields⟩ := map_eq_some_iff.1 heval
  obtain ⟨st1, hst1, hst2⟩ := bind_eq_some_iff.1 hst2
  simp only [Prod.mk.injEq, length_eq_zero_iff] at hfields
  obtain ⟨hentries, hqueue, hspent⟩ := hfields
  have hbelow : MarkerBelow [firstBlock] burningDb := by
    intro hash height hm hh
    cases hm
    cases hh
    decide
  have hget : ∀ op, st2.cache.get op = none := by
    intro op
    refine lookupMaps_eq_none.2 fun m hm hop => ?_
    have hlen := List.sum_eq_zero_iff_forall_eq_nat.1 hentries _ (List.mem_map_of_mem hm)
    rw [AList.mem_keys, AList.keys, length_eq_zero_iff.1 hlen] at hop
    cases hop
  have hundo : Undoable 10 burningNode st2 burningBlock [] :=
    { valid := (by decide : ValidBlock 10 [firstBlock] burningBlock)
      right := fun op => by simp [UtxoCache.resolve, UtxoCache.lookup, UtxoCache.get, MapSlice.get, burningNode,
        settledNode, UtxoCache.new, fromDb, lookupMaps_cons, burningDb, settledDb]
      clean := rfl
      newRows := fun db hdb => by cases hdb; decide
      ownRows := by simp
      recorded := .inl hqueue
      outside := fun op e he => absurd ((hget op).symm.trans he) (by simp) }
  have hinit : (fromDb roomySizes [firstBlock] burningDb 1000000 2).initConsistentState 10 (fun _ => 1) = some burningNode :=
    rfl
  have hok : Along (step roomySizes 10 fun _ _ => none) (StepOk roomySizes 10) burningNode [] := trivial
  have hconn : step roomySizes 10 (fun _ _ => none) { burningNode with db := flushToDB burningNode.db [] none }
      (.connect burningBlock ⟨[], 0, 0, -1⟩) = some st1 := hst1
  have hwrites : run (step roomySizes 10 fun _ _ => none) st1 ([1].map fun n => .commit n true) = some st2 := hst2
  obtain ⟨st3, -, hst3, -, -, hlookups, -⟩ :=
    disconnect_undoes_connect roomySizes (fun _ _ => none) (fun _ => 1) 1000000 2
    startDb_burningDb hbelow hinit hok rfl hconn hwrites (by simp [burningNode, settledNode, fromDb])
    (show Undoable 10 burningNode st2 burningBlock ([] ++ [] ++ plainDetach.nodeRows) from hundo)
  exact ⟨st1, st2, st3, hst1, hst2, hspent, hst3, hlookups _⟩

end AsyncChain

end IniNode
