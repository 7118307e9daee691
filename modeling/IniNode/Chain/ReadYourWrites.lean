import IniNode.Chain.Consistency
/-!
# Reading through the cache while writes are queued

`takeDelta` drops a spent entry from the cache while its deletion is still in the queue. Until the writer
commits it, the outpoint is exposed: a lookup finds nothing in the cache and an unspent row on disk. As long
as no lookup hits an exposed outpoint, lookups are right for every outpoint that is not exposed and wrong for
every one that is (`lookup_right_iff`).
-/

open IniNode.Lib List Option

namespace IniNode

open UtxoCache

/-- A cached entry stands for exactly what is live. -/
def EntryExact (live _origin : Option Coin) (x : Option UtxoEntry) : Prop := unspent x = live

theorem kept_entryExact : Kept EntryExact where
  spent := fun o e hs _ => by simp [EntryExact, unspent, hs]
  fresh := fun c => rfl

namespace AsyncChain

variable (st : AsyncChain)

/-- The utxo bucket once every queued item has been written. -/
def drained : UtxoBucket :=
  st.db.utxoSet.writeAll (st.queue.flatMap fun item => item.utxoDelta.map UtxoDelta.toWrite)

/-- The outpoint is not cached and has a row on disk that the queue is going to delete. -/
def Exposed (op : OutPoint) : Prop :=
  st.cache.get op = none ∧ (st.db.utxoSet op).isSome ∧ st.drained op = none

/-- A lookup of the outpoint returns what is unspent after the last connected block. -/
def LookupRight (sz : SizeHelper) (st : AsyncChain) (op : OutPoint) : Prop :=
  fetchUnspent sz st.cache st.db op = [utxoSet st.chain op]

/-- The state while blocks are connected and items committed: every cached entry is exact. -/
structure Reading (genesis : Hash) (st : AsyncChain) (pre : List Block) : Prop extends Base genesis st pre pre where
  phase : st.phase = .running
  tracks : Tracks EntryExact False st.db.utxoSet st.cache (ledger st.chain)
  deltaPoints : st.cache.deltaPoints = []
  touched : PendingSpent st

theorem Pipeline.drained {pre : List Block} {queue : List WriteItem} (hp : Pipeline pre queue) :
    (utxoSet pre).writeAll (queue.flatMap fun item => item.utxoDelta.map UtxoDelta.toWrite) =
      utxoSet (pre ++ queueBlocks queue) := by
  induction queue generalizing pre with
  | nil => simp
  | cons item queue ih =>
    rw [flatMap_cons, Store.writeAll_append, hp.1.writes, ih hp.2]
    simp

section Reading
variable (sz : SizeHelper) {genesis : Hash} {st : AsyncChain} {pre : List Block} (h : Reading genesis st pre)
include h

theorem Reading.drained_eq : st.drained = utxoSet st.chain := by
  rw [drained, h.rows, Pipeline.drained h.pipeline, ← h.chain_eq]

theorem Reading.lookupRight_iff (op : OutPoint) : LookupRight sz st op ↔ ¬ Exposed st op := by
  rw [LookupRight, fetchUnspent_eq, Exposed, h.drained_eq, resolve, UtxoCache.lookup]
  cases hx : st.cache.get op with
  | some x =>
    have hexact : unspent x = utxoSet st.chain op := h.tracks.cached op x hx
    simp [hexact]
  | none =>
    rw [getD_none, unspent_dbFetchUtxoEntry]
    by_cases hop : ∀ item ∈ st.queue, op ∉ item.utxoDelta.map UtxoDelta.op
    · -- no pending item names it, so its row is right
      have hrow : st.db.utxoSet op = utxoSet st.chain op := by
        rw [h.rows, h.chain_eq, h.pipeline.row_eq hop]
      rw [hrow]
      cases utxoSet st.chain op <;> simp
    · simp only [not_forall, not_not] at hop
      obtain ⟨item, hitem, hop⟩ := hop
      rw [h.touched item hitem op hop hx]
      cases st.db.utxoSet op <;> simp

theorem Reading.fetch {ops : List OutPoint} (hops : ∀ op ∈ ops, ¬ Exposed st op) :
    Reading genesis { st with cache := (st.cache.fetchEntries sz st.db.utxoSet ops).2 } pre := by
  obtain ⟨-, hget, -, hdelta, hmeta⟩ := fetchEntries_spec sz st.cache st.db.utxoSet ops
  refine ⟨{ h with trackDeltas := hmeta.trackDeltas.trans h.trackDeltas }, h.phase,
    ⟨fun k c hl => ?_, fun k x hx => ?_, fun hf => hf.elim⟩,
    hdelta.trans h.deltaPoints, fun item hitem k hk hnone => ?_⟩
  · rw [resolve, lookup_fetchEntries]
    exact h.tracks.finds k c hl
  · rw [hget] at hx
    cases hk : st.cache.get k with
    | some y =>
      rw [hk] at hx
      exact h.tracks.cached k x (hk.trans hx)
    | none =>
      rw [hk] at hx
      split at hx
      next hmem =>
        cases hx
        have hright := (h.lookupRight_iff sz k).2 (hops k hmem)
        rw [LookupRight, fetchUnspent_eq, List.cons.injEq, and_iff_left rfl, resolve, UtxoCache.lookup, hk] at hright
        exact hright
      next => cases hx
  · refine h.touched item hitem k hk ?_
    rw [hget] at hnone
    exact (or_eq_none_iff.1 hnone).1

theorem Reading.connect {b : Block} {item : WriteItem} {st' : AsyncChain} (hb : ValidBlock genesis st.chain b)
    (hstored : st.db.blocks b.hash = some b) (hc : Connected EntryExact st b item st') : Reading genesis st' pre where
  toBase := h.toBase.connect hb hstored hc
  phase := hc.phase.trans h.phase
  tracks := by
    rw [hc.db, hc.chain]
    exact hc.tracks
  deltaPoints := hc.deltaPoints
  touched := hc.pendingSpent h.touched

theorem Reading.commit (n : Nat) : ∃ pre, Reading genesis (st.commit n true) pre := by
  by_cases hne : st.queue.take n = []
  · exact ⟨pre, by rw [commit_nil hne]; exact h⟩
  · obtain ⟨db', hflush, hbase, hrows⟩ := h.toBase.commit rfl hne
    have hfinds := finds_commit h.tracks.finds h.touched hrows
    rw [commit_eq hflush]
    exact ⟨_, hbase, h.phase, ⟨hfinds, h.tracks.cached, fun hf => hf.elim⟩, h.deltaPoints,
      fun item hitem => h.touched item (mem_of_mem_drop hitem)⟩

end Reading

/-! ## Every run of connected blocks, committed items and lookups -/

/-- A step of such a run in which no lookup hits an exposed outpoint and connected blocks are valid. -/
def ReadOk (genesis : Hash) (st : AsyncChain) : AsyncStep → Prop
  | .connect b _ => ValidBlock genesis st.chain b
  | .commit _ ok => ok = true
  | .lookup ops => ∀ op ∈ ops, ¬ Exposed st op
  | _ => False

section Run
variable (sz : SizeHelper) {genesis : Hash} (fetchEntryByHash : UtxoViewpoint → Hash → Option UtxoEntry)

theorem Reading.step {st st' : AsyncChain} {pre : List Block} (h : Reading genesis st pre) (a : AsyncStep)
    (hok : ReadOk genesis st a)
    (hst : step sz genesis fetchEntryByHash st a = some st') : ∃ pre, Reading genesis st' pre := by
  cases a with
  | connect b m =>
    obtain ⟨⟨-, hstored⟩, hst⟩ := ite_none_right_eq_some.1 hst
    obtain ⟨item, st'', hst'', hc⟩ := connectBlock_spec sz m kept_entryExact hok h.tracks h.deltaPoints h.trackDeltas
    cases hst.symm.trans hst''
    exact ⟨pre, h.connect hok hstored hc⟩
  | commit n ok =>
    obtain ⟨-, ⟨⟩⟩ := ite_none_right_eq_some.1 hst
    obtain rfl : ok = true := hok
    exact h.commit n
  | lookup ops =>
    obtain ⟨-, ⟨⟩⟩ := ite_none_right_eq_some.1 hst
    exact ⟨pre, h.fetch sz hok⟩
  | _ => exact hok.elim

theorem StartDb.reading {chain : List Block} {db : Db} (hs : StartDb genesis chain chain db) (calcWork : Nat → Nat)
    (maxTotalMemoryUsage totalTxns : UInt64) {st : AsyncChain}
    (hst : (fromDb sz chain db maxTotalMemoryUsage totalTxns).initConsistentState genesis calcWork = some st) :
    Reading genesis st chain := by
  have hf := hs.freshStart sz calcWork maxTotalMemoryUsage totalTxns hst
  exact ⟨hf.base hs, hf.phase, hf.tracks hs EntryExact, hf.deltaPoints, by simp [PendingSpent, hf.queue]⟩

/-- While no lookup hits an exposed outpoint, a lookup is right exactly for the outpoints that are not
exposed. -/
theorem lookup_right_iff {chain : List Block} {db : Db} (hs : StartDb genesis chain chain db) (calcWork : Nat → Nat)
    (maxTotalMemoryUsage totalTxns : UInt64) {st0 st : AsyncChain} {steps : List AsyncStep}
    (hst0 : (fromDb sz chain db maxTotalMemoryUsage totalTxns).initConsistentState genesis calcWork = some st0)
    (hok : Along (step sz genesis fetchEntryByHash) (ReadOk genesis) st0 steps)
    (hrun : run (step sz genesis fetchEntryByHash) st0 steps = some st) (op : OutPoint) :
    LookupRight sz st op ↔ ¬ Exposed st op := by
  obtain ⟨pre, h⟩ := run_invariant (I := fun st => ∃ pre, Reading genesis st pre)
    (fun _ a _ ⟨_, h⟩ hok hst => h.step sz fetchEntryByHash a hok hst)
    ⟨chain, hs.reading sz calcWork maxTotalMemoryUsage totalTxns hst0⟩ hok hrun
  exact h.lookupRight_iff sz op

end Run

/-! ### An output that can be spent twice -/

/-- A block on top of `firstBlock` that spends its output. -/
def spendingBlock : Block := ⟨12, headerOn 11, [coinBaseTx 102, ⟨103, [⟨101, 0⟩], [⟨50, []⟩]⟩]⟩

/-- A database at the first block, its utxo bucket included. -/
def settledDb : Db :=
  { laggingDb with
    blocks := fun h => if h = 11 then some firstBlock else if h = 12 then some spendingBlock else none
    utxoSet := utxoSet [firstBlock]
    utxoStateConsistency := some 11 }

theorem startDb_settledDb : StartDb 10 [firstBlock] [firstBlock] settledDb where
  valid := ⟨validChain_firstBlock, validChain_firstBlock⟩
  stored := by simp [settledDb, firstBlock]
  heights := by
    intro p hp
    rcases prefix_singleton (or_self_iff.1 hp) with rfl | rfl <;> decide
  headers := by
    intro p b hp
    obtain ⟨rfl, rfl⟩ := concat_prefix_singleton (or_self_iff.1 hp)
    decide
  genesisRow := by decide
  aligned := .inl (prefix_refl _)
  marker := .inl rfl
  rows := rfl
  metaAt := ⟨by simp [settledDb, laggingDb, emptyDb], by simp [settledDb, laggingDb, emptyDb]⟩

def settledNode : AsyncChain :=
  { fromDb roomySizes [firstBlock] settledDb 1000000 2 with
    cache := { UtxoCache.new roomySizes 1000000 with trackDeltas := true, lastFlushHash := 11 } }

/-- The output of the first block has been spent by the second, but a lookup returns it as unspent until the
writer has committed the second block's item. -/
theorem spent_output_returned :
    (fromDb roomySizes [firstBlock] settledDb 1000000 2).initConsistentState 10 (fun _ => 1) = some settledNode ∧
    ∃ st, run (step roomySizes 10 fun _ _ => none) settledNode [.connect spendingBlock ⟨[], 0, 0, -1⟩] = some st ∧
      utxoSet st.chain ⟨101, 0⟩ = none ∧
      fetchUnspent roomySizes st.cache st.db ⟨101, 0⟩ = [some ⟨50, [], 1, true⟩] ∧
      ¬ LookupRight roomySizes st ⟨101, 0⟩ := by
  refine ⟨rfl, ?_⟩
  have heval : (run (step roomySizes 10 fun _ _ => none) settledNode [.connect spendingBlock ⟨[], 0, 0, -1⟩]).map
      (fun st => (utxoSet st.chain ⟨101, 0⟩, fetchUnspent roomySizes st.cache st.db ⟨101, 0⟩)) =
      some (none, [some ⟨50, [], 1, true⟩]) := by decide
  obtain ⟨st, hst, hfields⟩ := map_eq_some_iff.1 heval
  simp only [Prod.mk.injEq] at hfields
  refine ⟨st, hst, hfields.1, hfields.2, ?_⟩
  rw [LookupRight, hfields.1, hfields.2]
  decide

theorem lookup_right_iff_connect : ∃ st, run (step roomySizes 10 fun _ _ => none) settledNode
        [.lookup [⟨101, 0⟩], .connect spendingBlock ⟨[], 0, 0, -1⟩, .commit 1 true] = some st ∧
      (LookupRight roomySizes st ⟨101, 0⟩ ↔ ¬ Exposed st ⟨101, 0⟩) := by
  have hok : Along (step roomySizes 10 fun _ _ => none) (ReadOk 10) settledNode
      [.lookup [⟨101, 0⟩], .connect spendingBlock ⟨[], 0, 0, -1⟩, .commit 1 true] := by
    refine along_cons.2 ⟨fun op hop hexp => ?_,
      fun _ hst => along_cons.2 ⟨?_, fun _ _ => along_cons.2 ⟨rfl, fun _ _ => trivial⟩⟩⟩
    · rw [mem_singleton.1 hop] at hexp
      exact absurd hexp.2.2 (by decide)
    · cases hst
      exact (by decide : ValidBlock 10 [firstBlock] spendingBlock)
  obtain ⟨st, hst⟩ := isSome_iff_exists.1 (by decide : (run (step roomySizes 10 fun _ _ => none) settledNode
    [.lookup [⟨101, 0⟩], .connect spendingBlock ⟨[], 0, 0, -1⟩, .commit 1 true]).isSome = true)
  exact ⟨st, hst, lookup_right_iff roomySizes (fun _ _ => none) startDb_settledDb (fun _ => 1) 1000000 2 rfl hok hst _⟩

end AsyncChain

end IniNode
