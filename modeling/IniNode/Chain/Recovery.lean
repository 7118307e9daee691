import IniNode.Chain.ReadYourWrites
/-!
# Memory and disk after a start

`InitConsistentState` has three ways: the marker is on the tip, it is below and blocks are replayed, or it is above
and `forwardRebuildMainChainMetadata` moves the chain state up to it. The first two end with the utxo set of the tip
in memory. The third moves the stored chain state only, and leaves the tip in memory where it was loaded.
-/

open IniNode.Lib List Option

namespace IniNode

open UtxoCache

def UtxoCache.Exact (s : UtxoCache) (l : UtxoLedger) : Prop := ∀ op x, s.get op = some x → unspent x = l.live op

variable {l : UtxoLedger}

/-- With its dirty entries over the rows, such a cache resolves every outpoint right. -/
theorem UtxoCache.Exact.resolve {s : UtxoCache} {disk : UtxoBucket} (hx : s.Exact l) (hd : Dirty disk s l)
    (op : OutPoint) : s.resolve disk op = l.live op := by
  rw [UtxoCache.resolve, UtxoCache.lookup]
  cases hget : s.get op with
  | some x => exact hx op x hget
  | none =>
    rw [getD_none, unspent_dbFetchUtxoEntry]
    apply hd.clean
    intro hdirty
    obtain ⟨e, he, -⟩ := hd.dirty op hdirty
    rw [hget] at he
    cases he

/-- A full flush keeps entries as they are, but those of other maps than the first. -/
theorem UtxoCache.Exact.writeFull (sz : SizeHelper) {s : UtxoCache} (hx : s.Exact l) (hhot : HotFirst s)
    (disk : UtxoBucket) : (s.writeFull sz disk).1.Exact l := by
  intro op x h
  obtain ⟨e, hy, -, rfl⟩ := flushed_of_writeFull sz hhot h
  exact (unspent_flushed (some e)).trans (hx op _ hy)

namespace AsyncChain

/-- The steps of `InitConsistentState`, without interruption; where a flush is a full one, every resident entry is in
the first map. -/
def ReplayOk (sz : SizeHelper) (st : AsyncChain) : AsyncStep → Prop
  | .replayConnect | .replayEnd => True
  | .replayFlush interrupted _ => interrupted = false ∧ (FlushesFully sz st.cache .flushIfNeeded → HotFirst st.cache)
  | _ => False

/-! ## The replay -/

/-- The state during the replay and at its end. -/
inductive Recovering (genesis : Hash) (st : AsyncChain) : Prop where
  | replay (done todo cc : List Block) (hph : st.phase = .replay done todo ∨ st.phase = .replayed done todo)
    (h : Replaying genesis st done todo cc) (hx : st.cache.Exact (ledger done))
  | done (hph : st.phase = .running) (hd : Dirty st.db.utxoSet st.cache (ledger st.chain))
    (hx : st.cache.Exact (ledger st.chain))

section Replay
variable (sz : SizeHelper) {genesis : Hash} {st st' : AsyncChain} {done todo cc : List Block}

theorem Replaying.connect_exact {b : Block} {cache : UtxoCache} {stxos : Option (List SpentTxOut)}
    (h : Replaying genesis st done (b :: todo) cc) (hx : st.cache.Exact (ledger done))
    (hok : st.cache.connectTransactions sz st.db.utxoSet b (nextHeight done) none = .ok (cache, stxos)) :
    cache.Exact (ledger (done ++ [b])) := by
  have hb := h.valid done b ⟨todo, by rw [h.split]; simp⟩
  have htracks : Tracks EntryExact False st.db.utxoSet st.cache (ledger done) := ⟨h.tracks.finds, hx, fun hf => hf.elim⟩
  obtain ⟨s', hok', ht, -⟩ := htracks.run sz none kept_entryExact _ hb.events
  rw [connectTransactions_eq] at hok
  cases hok.symm.trans hok'
  rw [← ledger_concat] at ht
  exact ht.cached

/-- The flush of a replayed block changes neither what is cached nor the chain state. -/
theorem flush_exact (hx : st.cache.Exact l) (hhot : FlushesFully sz st.cache .flushIfNeeded → HotFirst st.cache)
    (best : Hash) : (st.cache.flush sz st.db .flushIfNeeded best false).1.Exact l ∧
      (st.cache.flush sz st.db .flushIfNeeded best false).2.bestState = st.db.bestState := by
  rcases flush_cases sz (s := st.cache) st.db .flushIfNeeded best false with hr | ⟨clean, hr, hfull, hcl⟩
  · rw [hr]
    exact ⟨hx, rfl⟩
  · obtain rfl := hcl (by decide)
    rw [hr]
    have hexact := hx.writeFull sz (hhot (hfull.1 rfl)) st.db.utxoSet
    exact ⟨hexact, rfl⟩

theorem Recovering.step {fetchEntryByHash : UtxoViewpoint → Hash → Option UtxoEntry} (h : Recovering genesis st)
    {a : AsyncStep} (hok : ReplayOk sz st a) (hst : step sz genesis fetchEntryByHash st a = some st') :
    Recovering genesis st' ∧ st'.db.bestState = st.db.bestState ∧ st'.chain = st.chain := by
  cases a with
  | replayConnect =>
    simp only [AsyncChain.step] at hst
    split at hst
    next done b todo hph =>
      split at hst
      next cache stxos hconn =>
        cases hst
        cases h with
        | replay done' todo' cc hph' h hx =>
          rw [hph] at hph'
          obtain hph' | hph' := hph' <;> cases hph'
          exact ⟨.replay _ _ cc (.inr rfl) (h.connect sz hconn _) (h.connect_exact sz hx hconn), rfl, rfl⟩
        | done hph' => rw [hph] at hph'; cases hph'
      next => cases hst
    next => cases hst
  | replayFlush interrupted ok =>
    obtain ⟨rfl, hhot⟩ := hok
    simp only [AsyncChain.step] at hst
    split at hst
    next done todo hph =>
      cases ok with
      | false => cases hst
      | true =>
        cases hst
        cases h with
        | replay done' todo' cc hph' h hx =>
          rw [hph] at hph'
          obtain hph' | hph' := hph' <;> cases hph'
          obtain ⟨cc', h'⟩ := h.flush sz hhot (.replay done todo)
          obtain ⟨hx', hbest⟩ := flush_exact sz hx hhot (tipHash genesis done)
          exact ⟨.replay done todo cc' (.inl rfl) h' hx', hbest, rfl⟩
        | done hph' => rw [hph] at hph'; cases hph'
    next => cases hst
  | replayEnd =>
    simp only [AsyncChain.step] at hst
    split at hst
    next done hph =>
      cases hst
      cases h with
      | replay done' todo' cc hph' h hx =>
        rw [hph] at hph'
        obtain hph' | hph' := hph' <;> cases hph'
        have hdone : st.chain = done := by simpa using h.split
        refine ⟨.done rfl ?_ ?_, rfl, rfl⟩
        · change Dirty st.db.utxoSet (st.endReplay genesis).cache (ledger st.chain)
          rw [hdone]
          exact ⟨h.dirty.dirty, h.dirty.clean⟩
        · change (st.endReplay genesis).cache.Exact (ledger st.chain)
          rw [hdone]
          exact hx
      | done hph' => rw [hph] at hph'; cases hph'
    next => cases hst
  | _ => exact hok.elim

end Replay

/-! ## The start -/

section Start
variable (sz : SizeHelper) {genesis : Hash} {chain cc : List Block} {db : Db} {st : AsyncChain} {calcWork : Nat → Nat}
  {maxTotalMemoryUsage totalTxns : UInt64}

end Start

/-! ## Every start -/

section Run
variable (sz : SizeHelper) {genesis : Hash} (fetchEntryByHash : UtxoViewpoint → Hash → Option UtxoEntry)

end Run

end AsyncChain

end IniNode
