import IniNode.Chain.Invariant
/-!
# Crash consistency of the utxo set

In every run that starts with the marker at or below the tip and whose steps are all right, the utxo set
on disk is that of the block the marker names, after every transaction (`utxo_consistent_of_run`). What can
go wrong is listed in `StepOk`: connecting a block that passed its check over a stale row, or while the rows
of a replay are still dirty, a full flush with a resident entry outside the first map, and a transaction that
fails after the cache or the queue has moved on. `replayed_rows_lost` is a run of the second kind.
-/

open IniNode.Lib List Option

namespace IniNode

open UtxoCache UtxoViewpoint

namespace AsyncChain

/-- The cache is at `done`, the rows are at `cc`, and nothing is queued. -/
structure Replaying (genesis : Hash) (st : AsyncChain) (done todo cc : List Block) : Prop
    extends Base genesis st cc st.chain where
  split : st.chain = done ++ todo
  queue : st.queue = []
  behind_done : cc <+: done
  tracks : Tracks EntryOk False st.db.utxoSet st.cache (ledger done)
  dirty : Dirty st.db.utxoSet st.cache (ledger done)
  fresh : FreshUnwritten st.db.utxoSet st.cache
  view : st.view = ∅
  loaded : st.loaded = false

/-- What holds in each phase. -/
inductive Inv (genesis : Hash) (st : AsyncChain) : Prop where
  | running (cc pre : List Block) (h : Running genesis st cc pre)
  | replay (done todo cc : List Block) (hph : st.phase = .replay done todo) (h : Replaying genesis st done todo cc)
  | replayed (done todo cc : List Block) (hph : st.phase = .replayed done todo) (h : Replaying genesis st done todo cc)

theorem Inv.utxoConsistent {genesis : Hash} {st : AsyncChain} (h : Inv genesis st) : UtxoConsistent genesis st.db := by
  cases h with
  | running cc pre h | replay done todo cc hph h | replayed done todo cc hph h => exact h.toBase.utxoConsistent

/-! ## Replaying -/

section Replaying
variable (sz : SizeHelper) {genesis : Hash} {st : AsyncChain} {done todo cc : List Block}

/-- A replayed block is connected like any other; what it touches becomes dirty. -/
theorem Replaying.connect {b : Block} {cache : UtxoCache} {stxos : Option (List SpentTxOut)}
    (h : Replaying genesis st done (b :: todo) cc)
    (hok : st.cache.connectTransactions sz st.db.utxoSet b (nextHeight done) none = .ok (cache, stxos)) (ph : Phase) :
    Replaying genesis { st with phase := ph, cache := cache } (done ++ [b]) todo cc := by
  have hprefix : done ++ [b] <+: st.chain := ⟨todo, by rw [h.split]; simp⟩
  have hb := h.valid done b hprefix
  have hdisk : ∀ op c, st.db.utxoSet op = some c → ((ledger done).origin op).isSome := by
    intro op c hrow
    rw [h.rows] at hrow
    have hdone : ValidChain genesis done := h.valid.of_isPrefix ((prefix_append _ _).trans hprefix)
    rw [origin_of_isPrefix hdone h.behind_done ((ledger cc).live_origin op c hrow)]
    rfl
  obtain ⟨s', hok', ht, -, -, hmeta⟩ := h.tracks.run sz none kept_entryOk _ hb.events
  rw [connectTransactions_eq] at hok
  obtain ⟨hd, hfresh⟩ := Dirty.run sz hdisk kept_entryOk h.tracks h.dirty h.fresh _ hb.events hok
  cases hok.symm.trans hok'
  rw [← ledger_concat] at ht hd
  exact
    { h with
      trackDeltas := hmeta.trackDeltas.trans h.trackDeltas
      split := by rw [append_assoc]; exact h.split
      behind_done := h.behind_done.trans (prefix_append _ _), tracks := ht, dirty := hd, fresh := hfresh }

/-- The flush after a replayed block, if it writes, writes the utxo set up to that block. -/
theorem Replaying.flush (h : Replaying genesis st done todo cc)
    (hhot : FlushesFully sz st.cache .flushIfNeeded → HotFirst st.cache) (ph : Phase) :
    ∃ cc', Replaying genesis { st with
      phase := ph
      cache := (st.cache.flush sz st.db .flushIfNeeded (tipHash genesis done) false).1
      db := (st.cache.flush sz st.db .flushIfNeeded (tipHash genesis done) false).2 } done todo cc' := by
  rcases flush_cases sz (s := st.cache) st.db .flushIfNeeded (tipHash genesis done) false with
    hr | ⟨clean, hr, hfull, hcl⟩
  · rw [hr]
    exact ⟨cc, { h with }⟩
  · have hclean := hcl (by decide)
    subst hclean
    have hf := flushed_writeCache sz (tipHash genesis done) true h.tracks h.dirty fun hc => hhot (hfull.1 hc)
    have hfresh := freshUnwritten_writeFull sz h.fresh (ledger done).live
    have hdb := hf.db_eq
    rw [hr, hdb]
    have hdone : done <+: st.chain := h.split ▸ prefix_append _ _
    refine ⟨done, ⟨h.valid, h.stored, rfl, rfl, hdone, h.chain_eq, h.pipeline, ⟨h.metaAt.tips, h.metaAt.journals⟩,
      hf.trackDeltas.trans h.trackDeltas⟩, h.split, h.queue, prefix_refl _, hf.tracks,
      ⟨by simp [hf.dirtyOps], fun _ _ => rfl⟩, hfresh, h.view, h.loaded⟩

theorem Replaying.finish (h : Replaying genesis st done [] cc) : Running genesis (st.endReplay genesis) cc st.chain := by
  have hdone : done = st.chain := by simpa using h.split.symm
  subst hdone
  exact
    { toBase := { h with }
      phase := rfl, tracks := ⟨h.tracks.finds, h.tracks.cached, fun hf => hf.elim⟩, deltaPoints := rfl
      dirty := fun _ => ⟨h.dirty.dirty, h.dirty.clean⟩
      pending := fun hne => absurd h.queue hne
      caught := by
        intro hclean
        change st.cache.dirtyOps = [] at hclean
        funext op
        rw [← h.rows]
        exact h.dirty.clean op (by simp [hclean])
      touched := by
        intro item hitem
        change item ∈ st.queue at hitem
        simp [h.queue] at hitem
      spentModified := by
        intro op e he
        change st.view.lookup op = some (some e) at he
        simp [h.view] at he
      agrees := by
        intro op x _ hx
        change st.view.lookup op = some x at hx
        simp [h.view] at hx }

end Replaying

/-! ## Starting -/

/-- A database as a shutdown or a crash may leave it under the best chain `chain`: the utxo bucket is the
utxo set of the chain `cc` the marker names, which may end below or above the best chain. -/
structure StartDb (genesis : Hash) (chain cc : List Block) (db : Db) : Prop where
  valid : ValidChain genesis chain ∧ ValidChain genesis cc
  stored : ∀ b, b ∈ chain ∨ b ∈ cc → db.blocks b.hash = some b
  heights : ∀ p, p <+: chain ∨ p <+: cc → db.hashIndex (tipHash genesis p) = some (p.length : Int)
  headers : ∀ p b, p ++ [b] <+: chain ∨ p ++ [b] <+: cc →
    (db.blockIndex (nextHeight p, b.hash)).map NodeRow.header = some b.header
  genesisRow : (db.blockIndex (0, genesis)).isSome
  aligned : cc <+: chain ∨ chain <+: cc
  marker : db.utxoStateConsistency = some (tipHash genesis cc) ∨ db.utxoStateConsistency = none ∧ cc = chain
  rows : db.utxoSet = utxoSet cc
  metaAt : MetaAt genesis chain db

/-- The marker is not above the tip. -/
def MarkerBelow (chain : List Block) (db : Db) : Prop :=
  ∀ hash height, db.utxoStateConsistency = some hash → db.hashIndex hash = some height → height ≤ chain.length

section Start
variable (sz : SizeHelper) {genesis : Hash} {chain cc : List Block} {db : Db} (hs : StartDb genesis chain cc db)
include hs

theorem StartDb.prefix_of_markerBelow (hbelow : MarkerBelow chain db) : cc <+: chain := by
  rcases hs.marker with hm | ⟨-, rfl⟩
  · rcases hs.aligned with h | h
    · exact h
    · have hlen := hbelow _ _ hm (hs.heights cc (.inr (prefix_refl _)))
      exact h.eq_of_length_le (by omega) ▸ prefix_refl _
  · exact prefix_refl _

theorem StartDb.storedChain : StoredChain genesis db chain :=
  hs.valid.1.storedChain fun b hb => hs.stored b (.inl hb)

theorem StartDb.exists_row {p : List Block} (hp : p <+: chain ∨ p <+: cc) :
    ∃ row, db.blockIndex ((p.length : Int), tipHash genesis p) = some row := by
  rcases eq_nil_or_concat p with rfl | ⟨q, b, rfl⟩
  · exact isSome_iff_exists.1 (by simpa [tipHash] using hs.genesisRow)
  · rw [concat_eq_append] at hp ⊢
    rw [tipHash_concat, show ((q ++ [b]).length : Int) = nextHeight q by simp [nextHeight]]
    obtain ⟨row, hrow, -⟩ := map_eq_some_iff.1 (hs.headers q b hp)
    exact ⟨row, hrow⟩

theorem StartDb.height_of_row {p : List Block} (hp : p <+: chain ∨ p <+: cc) :
    (db.fetchBlockRowByHash (tipHash genesis p)).map Prod.snd = some (p.length : Int) := by
  obtain ⟨row, hrow⟩ := hs.exists_row hp
  rw [Db.fetchBlockRowByHash, hs.heights p hp, bind_some, hrow]
  rfl

theorem StartDb.fetchHeader {p : List Block} {b : Block} (hp : p ++ [b] <+: chain) :
    fetchHeaderByHash db b.hash = some b.header := by
  have hheight := hs.heights (p ++ [b]) (.inl hp)
  rw [tipHash_concat] at hheight
  rw [fetchHeaderByHash, hheight, show ((p ++ [b]).length : Int) = nextHeight p by simp [nextHeight]]
  exact hs.headers p b (.inl hp)

/-- The walk from the tip reaches the block of the marker and has seen every block above it. -/
theorem StartDb.walkBack {suf : List Block} (hp : cc ++ suf <+: chain) :
    walkBack db (tipHash genesis cc) (suf.length + 1) (tipHash genesis (cc ++ suf)) = some (suf.reverse.map Block.hash) := by
  induction suf using reverseRecOn with
  | nil =>
    rw [append_nil] at hp ⊢
    obtain ⟨row, hrow⟩ := hs.exists_row (.inl hp)
    simp [AsyncChain.walkBack, fetchHeaderByHash, hs.heights cc (.inl hp), hrow]
  | append_singleton suf b ih =>
    rw [← append_assoc] at hp ⊢
    have hb := hs.valid.1 (cc ++ suf) b hp
    have hcc : cc <+: chain := ((prefix_append _ _).trans (prefix_append _ _)).trans hp
    have hne : b.hash ≠ tipHash genesis cc := by
      intro heq
      have := (hs.storedChain.of_isPrefix hp).eq_of_tipHash (hs.storedChain.of_isPrefix hcc)
        ((tipHash_concat ..).trans heq)
      simp at this
    rw [tipHash_concat, length_append, length_singleton, AsyncChain.walkBack, hs.fetchHeader hp,
      bind_some, if_neg hne, show b.header.prevBlock = tipHash genesis (cc ++ suf) from hb.extends_tip,
      ih ((prefix_append _ _).trans hp)]
    simp

omit hs in
theorem mapM_blocks {bs : List Block} (h : ∀ b ∈ bs, db.blocks b.hash = some b) :
    (bs.map Block.hash).mapM db.blocks = some bs := by
  induction bs with
  | nil => rfl
  | cons b bs ih =>
    rw [map_cons, mapM_cons, h b mem_cons_self, ih fun c hc => h c (mem_cons_of_mem _ hc)]
    rfl

omit hs in
theorem get_fromDb (chain : List Block) (db : Db) (maxTotalMemoryUsage totalTxns : UInt64) (op : OutPoint) :
    (fromDb sz chain db maxTotalMemoryUsage totalTxns).cache.get op = none := by
  simp [fromDb, UtxoCache.get, UtxoCache.new, MapSlice.get, lookupMaps_cons]

/-- The node has started with an empty cache over the database, the marker on the tip. -/
structure FreshStart (genesis : Hash) (chain : List Block) (db : Db) (st : AsyncChain) : Prop where
  chain_eq : st.chain = chain
  phase : st.phase = .running
  get : ∀ op, st.cache.get op = none
  dirtyOps : st.cache.dirtyOps = []
  deltaPoints : st.cache.deltaPoints = []
  trackDeltas : st.cache.trackDeltas = true
  queue : st.queue = []
  view : st.view = ∅
  db_eq : st.db = db.putUtxoStateConsistency (tipHash genesis chain)

end Start

section Start
variable (sz : SizeHelper) {genesis : Hash} {chain cc : List Block} {db : Db} {st : AsyncChain}

/-- With the marker on the tip, or none at all, nothing is replayed. -/
theorem StartDb.freshStart (hs : StartDb genesis chain chain db) (calcWork : Nat → Nat)
    (maxTotalMemoryUsage totalTxns : UInt64)
    (hst : (fromDb sz chain db maxTotalMemoryUsage totalTxns).initConsistentState genesis calcWork = some st) :
    FreshStart genesis chain db st := by
  have hdb : (fromDb sz chain db maxTotalMemoryUsage totalTxns).db = db := rfl
  have hchain : (fromDb sz chain db maxTotalMemoryUsage totalTxns).chain = chain := rfl
  have hget := fun op => get_fromDb sz chain db maxTotalMemoryUsage totalTxns op
  rcases hs.marker with hm | ⟨hm, -⟩
  · simp only [initConsistentState, hdb, hm, hchain, if_pos, Option.some.injEq] at hst
    subst hst
    refine ⟨rfl, rfl, hget, rfl, rfl, rfl, rfl, rfl, ?_⟩
    rw [Db.putUtxoStateConsistency, ← hm]
  · simp only [initConsistentState, hdb, hm, Option.some.injEq] at hst
    subst hst
    exact ⟨rfl, rfl, hget, rfl, rfl, rfl, rfl, rfl, rfl⟩

section Fresh
variable (hs : StartDb genesis chain chain db) (hf : FreshStart genesis chain db st)
include hs hf

theorem FreshStart.rows : st.db.utxoSet = utxoSet st.chain := by
  rw [hf.db_eq, hf.chain_eq]
  exact hs.rows

theorem FreshStart.base : Base genesis st chain chain where
  valid := hf.chain_eq ▸ hs.valid.1
  stored := fun b hb => by
    rw [hf.db_eq]
    exact hs.stored b (.inl (hf.chain_eq ▸ hb))
  marker := by rw [hf.db_eq]; rfl
  rows := by rw [hf.rows hs, hf.chain_eq]
  behind := prefix_refl _
  chain_eq := by simp [hf.chain_eq, hf.queue]
  pipeline := by rw [hf.queue]; trivial
  metaAt := by rw [hf.db_eq]; exact ⟨hs.metaAt.tips, hs.metaAt.journals⟩
  trackDeltas := hf.trackDeltas

theorem FreshStart.tracks (R : Option Coin → Option Coin → Option UtxoEntry → Prop) :
    Tracks R False st.db.utxoSet st.cache (ledger st.chain) where
  finds := by
    intro op c hl
    rw [resolve, UtxoCache.lookup, hf.get, getD_none, unspent_dbFetchUtxoEntry, hf.rows hs]
    exact hl
  cached := by simp [hf.get]
  points := fun h => h.elim

theorem FreshStart.running : Running genesis st chain chain where
  toBase := hf.base hs
  phase := hf.phase
  tracks := hf.tracks hs EntryOk
  deltaPoints := hf.deltaPoints
  dirty := fun _ => ⟨by simp [hf.dirtyOps], fun op _ => congrFun (hf.rows hs) op⟩
  pending := fun _ => hf.dirtyOps
  caught := fun _ => rfl
  touched := by simp [PendingSpent, hf.queue]
  spentModified := by simp [SpentModified, hf.view]
  agrees := by simp [AgreesOff, hf.view]

end Fresh

theorem StartDb.inv (hs : StartDb genesis chain cc db) (calcWork : Nat → Nat) (maxTotalMemoryUsage totalTxns : UInt64)
    (hbelow : MarkerBelow chain db)
    (hst : (fromDb sz chain db maxTotalMemoryUsage totalTxns).initConsistentState genesis calcWork = some st) :
    Inv genesis st := by
  obtain ⟨suf, rfl⟩ := hs.prefix_of_markerBelow hbelow
  by_cases hcc : cc = cc ++ suf
  · have hs' : StartDb genesis (cc ++ suf) (cc ++ suf) db := hcc ▸ hs
    exact .running _ _ ((hs'.freshStart sz calcWork maxTotalMemoryUsage totalTxns hst).running hs')
  · have hm := hs.marker.resolve_right fun h => hcc h.2
    have htip : tipHash genesis cc ≠ tipHash genesis (cc ++ suf) := fun h =>
      hcc ((hs.storedChain.of_isPrefix (prefix_append _ _)).eq_of_tipHash hs.storedChain h)
    have hget := fun op => get_fromDb sz (cc ++ suf) db maxTotalMemoryUsage totalTxns op
    have hdb : (fromDb sz (cc ++ suf) db maxTotalMemoryUsage totalTxns).db = db := rfl
    have hchain : (fromDb sz (cc ++ suf) db maxTotalMemoryUsage totalTxns).chain = cc ++ suf := rfl
    have hlen : ((cc ++ suf).length : Int) = cc.length + suf.length := by simp
    have hcount : ((cc.length : Int) + suf.length - cc.length).toNat = suf.length := by omega
    have hblocks := mapM_blocks fun b hb => hs.stored b (.inl (mem_append_right cc hb))
    have hnlt : ¬ (cc.length : Int) + suf.length < cc.length := by omega
    simp only [initConsistentState, hdb, hm, hchain, if_neg htip, hs.height_of_row (.inr (prefix_refl _)),
      bind_some, hlen, if_neg hnlt, hcount, hs.walkBack (prefix_refl _), length_map,
      length_reverse, ne_eq, not_true_eq_false, if_false, ← map_reverse, reverse_reverse, hblocks,
      map_some, Option.some.injEq] at hst
    subst hst
    refine .replay cc suf cc (by simp) ?_
    exact
      { valid := hs.valid.1, stored := fun b hb => hs.stored b (.inl hb), marker := hm, rows := hs.rows
        behind := prefix_append _ _, chain_eq := by simp [fromDb], pipeline := trivial, metaAt := hs.metaAt
        trackDeltas := rfl, split := rfl, queue := rfl, behind_done := prefix_refl _
        tracks := ⟨fun op c hl => by
            rw [resolve, UtxoCache.lookup, hget, getD_none, unspent_dbFetchUtxoEntry]
            exact (congrFun hs.rows op).trans hl,
          fun op x hx => absurd ((hget op).symm.trans hx) (by simp), fun hf => hf.elim⟩
        dirty := ⟨by simp [fromDb, UtxoCache.new], fun op _ => congrFun hs.rows op⟩
        fresh := fun op e he => absurd ((hget op).symm.trans he) (by simp)
        view := rfl, loaded := rfl }

end Start

/-! ## Every run -/

/-- A step that keeps the utxo set consistent: a connected block is valid on top of the chain, as its check
finds if it reads no stale row, and no rows of a replay are dirty then; at a full flush every resident entry
is in the first map; no transaction fails; a replay is not interrupted before its last block; and a block is
detached only when the optional indexes have reached it. -/
def StepOk (sz : SizeHelper) (genesis : Hash) (st : AsyncChain) : AsyncStep → Prop
  | .replayFlush interrupted _ =>
    (interrupted = true → ∃ done, st.phase = .replayed done []) ∧
      (FlushesFully sz st.cache .flushIfNeeded → HotFirst st.cache)
  | .connect b _ => st.cache.dirtyOps = [] ∧ ValidBlock genesis st.chain b
  | .commit _ ok => ok = true
  | .flush mode _ ok => ok = true ∧ (FlushesFully sz st.cache mode → HotFirst st.cache)
  | .detach _ ok => ok = true ∧ HotFirst st.cache ∧ ∀ t ∈ st.db.indexTips, some t = st.chain.getLast?.map Block.hash
  | .replayConnect | .replayEnd | .lookup _ | .newView | .fetchInputs => True

section Run
variable (sz : SizeHelper) {genesis : Hash} (fetchEntryByHash : UtxoViewpoint → Hash → Option UtxoEntry)

theorem Inv.of_running_phase {st : AsyncChain} (h : Inv genesis st) (hph : st.phase = .running) :
    ∃ cc pre, Running genesis st cc pre := by
  cases h with
  | running cc pre h => exact ⟨cc, pre, h⟩
  | replay done todo cc hph' h | replayed done todo cc hph' h => rw [hph] at hph'; cases hph'

theorem Inv.replay_step {st st' : AsyncChain} (h : Inv genesis st) {a : AsyncStep}
    (ha : a = .replayConnect ∨ (∃ interrupted ok, a = .replayFlush interrupted ok) ∨ a = .replayEnd)
    (hok : StepOk sz genesis st a) (hst : step sz genesis fetchEntryByHash st a = some st') : Inv genesis st' := by
  rcases ha with rfl | ⟨interrupted, ok, rfl⟩ | rfl
  · simp only [step] at hst
    split at hst
    next done b todo hph =>
      split at hst
      next cache stxos hconn =>
        cases hst
        cases h with
        | running cc pre h => rw [h.phase] at hph; cases hph
        | replay done' todo' cc hph' h =>
          rw [hph] at hph'
          cases hph'
          exact .replayed _ _ cc rfl (h.connect sz hconn _)
        | replayed done' todo' cc hph' h => rw [hph] at hph'; cases hph'
      next => cases hst
    next => cases hst
  · simp only [step] at hst
    split at hst
    next done todo hph =>
      cases h with
      | running cc pre h => rw [h.phase] at hph; cases hph
      | replay done' todo' cc hph' h => rw [hph] at hph'; cases hph'
      | replayed done' todo' cc hph' h =>
        rw [hph] at hph'
        cases hph'
        obtain ⟨cc', h'⟩ := h.flush sz hok.2 (.replay done todo)
        cases ok with
        | false => cases hst
        | true =>
          cases hst
          cases interrupted with
          | false => exact .replay done todo cc' rfl h'
          | true =>
            obtain ⟨done', hdone⟩ := hok.1 rfl
            rw [hph] at hdone
            cases hdone
            exact .running _ _ h'.finish
    next => cases hst
  · simp only [step] at hst
    split at hst
    next done hph =>
      cases hst
      cases h with
      | running cc pre h => rw [h.phase] at hph; cases hph
      | replay done' todo' cc hph' h =>
        rw [hph] at hph'
        cases hph'
        exact .running _ _ h.finish
      | replayed done' todo' cc hph' h => rw [hph] at hph'; cases hph'
    next => cases hst

theorem Inv.step {st st' : AsyncChain} (h : Inv genesis st) (a : AsyncStep) (hok : StepOk sz genesis st a)
    (hst : step sz genesis fetchEntryByHash st a = some st') : Inv genesis st' := by
  cases a with
  | replayConnect => exact h.replay_step sz fetchEntryByHash (.inl rfl) hok hst
  | replayFlush interrupted ok => exact h.replay_step sz fetchEntryByHash (.inr (.inl ⟨_, _, rfl⟩)) hok hst
  | replayEnd => exact h.replay_step sz fetchEntryByHash (.inr (.inr rfl)) hok hst
  | connect b m =>
    obtain ⟨⟨hph, hstored⟩, hst⟩ := ite_none_right_eq_some.1 hst
    obtain ⟨hclean, hb⟩ := hok
    obtain ⟨cc, pre, h⟩ := h.of_running_phase hph
    obtain ⟨item, st'', hst'', hc⟩ := connectBlock_spec sz m kept_entryOk hb h.tracks h.deltaPoints h.trackDeltas
    cases hst.symm.trans hst''
    exact .running _ _ (h.connect hb hstored hclean hc)
  | commit n ok =>
    obtain ⟨hph, ⟨⟩⟩ := ite_none_right_eq_some.1 hst
    obtain ⟨cc, pre, h⟩ := h.of_running_phase hph
    obtain rfl : ok = true := hok
    obtain ⟨cc', pre', h'⟩ := h.commit n
    exact .running _ _ h'
  | flush mode elapsed ok =>
    obtain ⟨⟨hph, hq⟩, ⟨⟩⟩ := ite_none_right_eq_some.1 hst
    obtain ⟨cc, pre, h⟩ := h.of_running_phase hph
    obtain ⟨rfl, hhot⟩ := hok
    obtain ⟨cc', pre', h'⟩ := h.flush sz mode elapsed hq hhot
    exact .running _ _ h'
  | lookup ops =>
    obtain ⟨hph, ⟨⟩⟩ := ite_none_right_eq_some.1 hst
    obtain ⟨cc, pre, h⟩ := h.of_running_phase hph
    exact .running _ _ (h.fetch sz ops)
  | newView =>
    obtain ⟨hph, ⟨⟩⟩ := ite_none_right_eq_some.1 hst
    obtain ⟨cc, pre, h⟩ := h.of_running_phase hph
    exact .running _ _ h.dropView
  | fetchInputs =>
    simp only [AsyncChain.step] at hst
    split at hst
    next b hb =>
      obtain ⟨hph, ⟨⟩⟩ := ite_none_right_eq_some.1 hst
      obtain ⟨cc, pre, h⟩ := h.of_running_phase hph
      obtain ⟨chain, hchain⟩ := getLast?_eq_some_iff.1 hb
      exact .running _ _ (h.fetchInputs sz hchain)
    next => cases hst
  | detach m ok =>
    simp only [AsyncChain.step] at hst
    split at hst
    next b hb =>
      obtain ⟨⟨hph, hloaded, hsync⟩, hst⟩ := ite_none_right_eq_some.1 hst
      obtain ⟨stxos, hj, rfl⟩ := map_eq_some_iff.1 hst
      obtain ⟨cc, pre, h⟩ := h.of_running_phase hph
      obtain ⟨chain, hchain⟩ := getLast?_eq_some_iff.1 hb
      obtain ⟨rfl, hhot, htips⟩ := hok
      have htips' : ∀ t ∈ st.db.indexTips, t = b.hash := fun t ht => by simpa [hb] using htips t ht
      obtain ⟨cc', pre', h'⟩ := h.detach sz hchain fetchEntryByHash m hloaded hsync hj hhot htips'
      exact .running _ _ h'
    next => cases hst

/-- After every transaction of a run whose start and steps are all right, the utxo bucket is the utxo set
of the chain up to the block the marker names. -/
theorem utxo_consistent_of_run (calcWork : Nat → Nat) (maxTotalMemoryUsage totalTxns : UInt64) {chain cc : List Block}
    {db : Db} {st0 st : AsyncChain} {steps : List AsyncStep} (hs : StartDb genesis chain cc db)
    (hbelow : MarkerBelow chain db)
    (hst0 : (fromDb sz chain db maxTotalMemoryUsage totalTxns).initConsistentState genesis calcWork = some st0)
    (hok : Along (step sz genesis fetchEntryByHash) (StepOk sz genesis) st0 steps)
    (hrun : run (step sz genesis fetchEntryByHash) st0 steps = some st) : UtxoConsistent genesis st.db :=
  (run_invariant (fun _ a _ h hok hst => Inv.step sz fetchEntryByHash h a hok hst)
    (hs.inv sz calcWork maxTotalMemoryUsage totalTxns hbelow hst0) hok hrun).utxoConsistent

end Run

/-! ### A replay whose rows are lost -/

def roomySizes : SizeHelper := ⟨fun _ => 0, fun _ => 1001⟩

def headerOn (prev : Hash) : BlockHeader := ⟨1, prev, 0, 0, 0, 0⟩

def coinBaseTx (hash : Hash) : Tx := ⟨hash, [⟨zeroHash, 2 ^ 32 - 1⟩], [⟨50, []⟩]⟩

/-- Two blocks on top of the genesis block, whose hash is 10. -/
def firstBlock : Block := ⟨11, headerOn 10, [coinBaseTx 101]⟩

def secondBlock : Block := ⟨12, headerOn 11, [coinBaseTx 102]⟩

/-- A database at the first block whose utxo bucket is still at genesis, as a node that flushes its cache
rarely leaves it behind when it is killed. -/
def laggingDb : Db :=
  { emptyDb with
    blockIndex := fun k => if k = (0, 10) then some ⟨headerOn 0, {}⟩
      else if k = (1, 11) then some ⟨headerOn 10, {}⟩ else none
    hashIndex := fun h => if h = 10 then some 0 else if h = 11 then some 1 else none
    blocks := fun h => if h = 11 then some firstBlock else if h = 12 then some secondBlock else none
    utxoStateConsistency := some 10 }

def laggingStart : Option AsyncChain :=
  (fromDb roomySizes [firstBlock] laggingDb 1000000 2).initConsistentState 10 (fun _ => 1)

theorem concat_prefix_singleton {p : List Block} {b c : Block} (h : p ++ [b] <+: [c]) : p = [] ∧ b = c := by
  rcases prefix_concat_iff.1 (show p ++ [b] <+: [] ++ [c] from h) with h | h
  · exact ⟨(append_inj' h rfl).1, singleton_inj.1 (append_inj' h rfl).2⟩
  · simp at h

theorem prefix_singleton {p : List Block} {c : Block} (h : p <+: [c]) : p = [] ∨ p = [c] := by
  rcases prefix_concat_iff.1 (show p <+: [] ++ [c] from h) with h | h
  · exact .inr h
  · exact .inl (prefix_nil.1 h)

theorem validChain_firstBlock : ValidChain 10 [firstBlock] := by
  intro p b hp
  obtain ⟨rfl, rfl⟩ := concat_prefix_singleton hp
  decide

theorem startDb_laggingDb : StartDb 10 [firstBlock] [] laggingDb where
  valid := ⟨validChain_firstBlock, fun p b hp => by simp at hp⟩
  stored := by simp [laggingDb, firstBlock]
  heights := by
    intro p hp
    have : p = [] ∨ p = [firstBlock] := hp.elim prefix_singleton fun h => .inl (prefix_nil.1 h)
    rcases this with rfl | rfl <;> decide
  headers := by
    intro p b hp
    obtain ⟨rfl, rfl⟩ := concat_prefix_singleton (hp.resolve_right (by simp))
    decide
  genesisRow := by decide
  aligned := .inl nil_prefix
  marker := .inl rfl
  rows := rfl
  metaAt := ⟨by simp [laggingDb, emptyDb], by simp [laggingDb, emptyDb]⟩

/-- The steps after the start: the first block is replayed, the second is connected and its item
committed. -/
def lossySteps : List AsyncStep :=
  [.replayConnect, .replayFlush false true, .replayEnd, .connect secondBlock ⟨[], 0, 0, -1⟩, .commit 1 true]

/-- The marker moves to the second block, but the output of the replayed block never reaches the disk. -/
theorem replayed_rows_lost : StartDb 10 [firstBlock] [] laggingDb ∧
    ∃ st0 st, laggingStart = some st0 ∧ run (step roomySizes 10 fun _ _ => none) st0 lossySteps = some st ∧
      ¬ UtxoConsistent 10 st.db := by
  refine ⟨startDb_laggingDb, ?_⟩
  have heval : (laggingStart.bind fun st0 => run (step roomySizes 10 fun _ _ => none) st0 lossySteps).map
      (fun st => (st.db.utxoStateConsistency, st.db.utxoSet ⟨101, 0⟩, st.db.blocks 11, st.db.blocks 12)) =
      some (some 12, none, some firstBlock, some secondBlock) := by decide
  obtain ⟨st, hst, hfields⟩ := map_eq_some_iff.1 heval
  obtain ⟨st0, hst0, hrun⟩ := bind_eq_some_iff.1 hst
  refine ⟨st0, st, hst0, hrun, ?_⟩
  simp only [Prod.mk.injEq] at hfields
  obtain ⟨hmarker, hrow, hfirst, hsecond⟩ := hfields
  rintro ⟨chain, hstored, hm, hrows⟩
  have hnil : StoredChain 10 st.db [] := fun p b hp => by simp at hp
  have hchain : StoredChain 10 st.db [firstBlock, secondBlock] :=
    (hnil.concat rfl (by decide) hfirst).concat rfl (by decide) hsecond
  have htip : tipHash 10 chain = 12 := (mem_unique hmarker hm).symm
  rw [hstored.eq_of_tipHash hchain htip] at hrows
  rw [hrows] at hrow
  exact absurd hrow (by decide)

def genesisDb : Db := { laggingDb with hashIndex := fun h => if h = 10 then some 0 else none }

def genesisNode : AsyncChain :=
  { fromDb roomySizes [] genesisDb 1000000 1 with
    cache := { UtxoCache.new roomySizes 1000000 with trackDeltas := true, lastFlushHash := 10 } }

theorem startDb_genesisDb : StartDb 10 [] [] genesisDb where
  valid := ⟨fun p b hp => by simp at hp, fun p b hp => by simp at hp⟩
  stored := by simp
  heights := fun p hp => by rw [prefix_nil.1 (or_self_iff.1 hp)]; decide
  headers := fun p b hp => by simp at hp
  genesisRow := by decide
  aligned := .inl (prefix_refl _)
  marker := .inl rfl
  rows := rfl
  metaAt := ⟨by simp [genesisDb, laggingDb, emptyDb], by simp [genesisDb, laggingDb, emptyDb]⟩

theorem utxo_consistent_of_run_connect :
    ∃ st, run (step roomySizes 10 fun _ _ => none) genesisNode
        [.connect firstBlock ⟨[], 0, 0, -1⟩, .commit 1 true] = some st ∧
      UtxoConsistent 10 st.db := by
  have hbelow : MarkerBelow [] genesisDb := by
    intro hash height hm hh
    cases hm
    cases hh
    decide
  have hok : Along (step roomySizes 10 fun _ _ => none) (StepOk roomySizes 10) genesisNode
      [.connect firstBlock ⟨[], 0, 0, -1⟩, .commit 1 true] :=
    along_cons.2 ⟨⟨rfl, by decide⟩, fun _ _ => along_cons.2 ⟨rfl, fun _ _ => trivial⟩⟩
  obtain ⟨st, hst⟩ := isSome_iff_exists.1 (by decide : (run (step roomySizes 10 fun _ _ => none) genesisNode
    [.connect firstBlock ⟨[], 0, 0, -1⟩, .commit 1 true]).isSome = true)
  exact ⟨st, hst, utxo_consistent_of_run roomySizes (fun _ _ => none) (fun _ => 1) 1000000 1 startDb_genesisDb hbelow rfl
    hok hst⟩

end AsyncChain

end IniNode
