import IniNode.Chain.QueueMachine
/-!
# The order in which items are written

As long as no goroutine flushes while the other holds an older item, the items are written in the order they were
enqueued, each once; and as long as none is left in the channel by a writer and a `stop` that have both gone past
it, all of them have been written when `stop` returns (`items_written_in_order`). At shutdown neither is ensured:
`stop` flushes the tail of the channel without waiting for the batch that the writer still holds
(`tail_overtakes_batch`).
-/

open IniNode.Lib Option

namespace IniNode.WriteQueue

/-- `stop` has left its drain loop. -/
def pastDrain (q : WriteQueue) : Bool := q.stopper = .waiting ∨ q.stopper = .returned

/-- A step that keeps the items in order, every transaction being committed. A goroutine flushes only if the
other holds nothing older; the writer does not return, and no item is sent, when nobody is left to receive what
is in the channel. Blocks are not disconnected in these runs. -/
def InOrder (q : WriteQueue) (a : QueueStep) : Prop :=
  (∀ g keep ok, writes a = some (g, keep, ok) → ok = true ∧ q.fifo.Before g keep) ∧
    match a with
    | .writerStop _ => q.pastDrain = true → q.fifo.items = []
    | .send => q.writer = .done → q.pastDrain = false
    | .disconnect _ => False
    | _ => True

/-- Nobody has gone home while there was something left. -/
structure Attended (q : WriteQueue) : Prop where
  batch : q.writer = .done → q.fifo.held .writer = []
  tail : q.stopper ≠ .draining → q.fifo.held .stop = []
  channel : q.writer = .done → q.pastDrain = true → q.fifo.items = []
  writer_done : q.stopper = .returned → q.writer = .done

section Attended
variable {q q' : WriteQueue} {g : Goroutine} {keep : WriteItem → Bool}

theorem held_take (h : q.take g keep = some q') {g' : Goroutine} (hne : g' ≠ g) : q'.fifo.held g' = q.fifo.held g' := by
  obtain ⟨fifo, hf, rfl⟩ := map_eq_some_iff.1 h
  obtain ⟨t, items, -, rfl | rfl⟩ := Fifo.take_cases hf
  · exact Function.update_of_ne hne _ _
  · rfl

theorem held_flush {ok : Bool} (h : q.flush g keep ok = some q') :
    q'.fifo.held = Function.update q.fifo.held g [] ∧ q'.fifo.items = q.fifo.items := by
  obtain ⟨db, -, rfl⟩ := map_eq_some_iff.1 h
  cases ok <;> exact ⟨rfl, rfl⟩

theorem control_take (h : q.take g keep = some q') : q'.writer = q.writer ∧ q'.stopper = q.stopper := by
  obtain ⟨fifo, -, rfl⟩ := map_eq_some_iff.1 h
  exact ⟨rfl, rfl⟩

theorem control_flush {ok : Bool} (h : q.flush g keep ok = some q') : q'.writer = q.writer ∧ q'.stopper = q.stopper := by
  obtain ⟨db, -, rfl⟩ := map_eq_some_iff.1 h
  exact ⟨rfl, rfl⟩

theorem Attended.of_writer (h : Attended q) (hw : q.writer ≠ .done) (hw' : q'.writer ≠ .done)
    (hs : q'.stopper = q.stopper) (hheld : q'.fifo.held .stop = q.fifo.held .stop) : Attended q' where
  batch := fun hd => absurd hd hw'
  tail := fun hne => hheld.trans (h.tail (hs ▸ hne))
  channel := fun hd => absurd hd hw'
  writer_done := fun hr => absurd (h.writer_done (hs ▸ hr)) hw

theorem Attended.step (h : Attended q) {a : QueueStep} (hok : InOrder q a) (hst : step q a = some q') : Attended q' := by
  cases a with
  | enqueue item =>
    simp only [WriteQueue.step] at hst
    split at hst
    · cases hst
      exact h
    · obtain ⟨-, ⟨⟩⟩ := ite_none_right_eq_some.1 hst
      exact { h with }
  | send =>
    simp only [WriteQueue.step] at hst
    split at hst
    · obtain ⟨-, ⟨⟩⟩ := ite_none_right_eq_some.1 hst
      exact { h with channel := fun hd hp => absurd ((hok.2 hd).symm.trans hp) (by simp) }
    · cases hst
  | abort =>
    obtain ⟨-, ⟨⟩⟩ := ite_none_right_eq_some.1 hst
    exact { h with }
  | receive =>
    obtain ⟨⟨hw, -⟩, hst⟩ := ite_none_right_eq_some.1 hst
    obtain ⟨hw', hs'⟩ := control_take hst
    exact h.of_writer (by simp [hw]) (by simp [hw', hw]) hs' (held_take hst (by decide))
  | syncReceive =>
    simp only [WriteQueue.step] at hst
    split at hst
    next m hw =>
      obtain ⟨hw', hs'⟩ := control_take hst
      exact h.of_writer (by simp [hw]) (by simp [hw', hw]) hs' (held_take hst (by decide))
    next => cases hst
  | flushFull ok =>
    obtain ⟨⟨hw, -⟩, hst⟩ := ite_none_right_eq_some.1 hst
    obtain ⟨hw', hs'⟩ := control_flush hst
    exact h.of_writer (by simp [hw]) (by simp [hw', hw]) hs' (by rw [(held_flush hst).1]; rfl)
  | sync m ok =>
    obtain ⟨⟨hw, -⟩, hst⟩ := ite_none_right_eq_some.1 hst
    obtain ⟨hw', hs'⟩ := control_flush hst
    exact h.of_writer (by simp [hw]) (by simp [hw']) hs' (by rw [(held_flush hst).1]; rfl)
  | syncEnd ok =>
    simp only [WriteQueue.step] at hst
    split at hst
    next m hw =>
      obtain ⟨-, hst⟩ := ite_none_right_eq_some.1 hst
      obtain ⟨hw', hs'⟩ := control_flush hst
      exact h.of_writer (by simp [hw]) (by simp [hw']) hs' (by rw [(held_flush hst).1]; rfl)
    next => cases hst
  | writerStop ok =>
    obtain ⟨-, hst⟩ := ite_none_right_eq_some.1 hst
    obtain ⟨hw', hs'⟩ := control_flush hst
    obtain ⟨hheld, hitems⟩ := held_flush hst
    refine ⟨fun _ => by rw [hheld]; rfl, fun hne => ?_, fun _ hp => ?_, fun _ => hw'⟩
    · rw [hheld]
      exact h.tail (hs' ▸ hne)
    · rw [hitems]
      exact hok.2 (by simpa [pastDrain, hs'] using hp)
  | stop =>
    obtain ⟨-, ⟨⟩⟩ := ite_none_right_eq_some.1 hst
    exact ⟨h.batch, fun hne => absurd rfl hne, fun _ hp => by simp [pastDrain] at hp, fun hr => by cases hr⟩
  | stopReceive =>
    obtain ⟨hd, hst⟩ := ite_none_right_eq_some.1 hst
    obtain ⟨hw', hs'⟩ := control_take hst
    refine ⟨fun hw => ?_, fun hne => absurd (hs'.trans hd) hne, fun _ hp => ?_, fun hr => ?_⟩
    · rw [held_take hst (by decide)]
      exact h.batch (hw'.symm.trans hw)
    · simp [pastDrain, hs', hd] at hp
    · rw [hs', hd] at hr
      cases hr
  | stopFlush ok =>
    obtain ⟨⟨-, hitems⟩, hst⟩ := ite_none_right_eq_some.1 hst
    obtain ⟨hw', hs'⟩ := control_flush hst
    obtain ⟨hheld, hitems'⟩ := held_flush hst
    refine ⟨fun hw => ?_, fun _ => by rw [hheld]; rfl, fun _ _ => hitems'.trans hitems, fun hr => ?_⟩
    · rw [hheld]
      exact h.batch (hw'.symm.trans hw)
    · rw [hs'] at hr
      cases hr
  | stopReturn =>
    obtain ⟨⟨hs, hw⟩, ⟨⟩⟩ := ite_none_right_eq_some.1 hst
    exact ⟨h.batch, fun _ => h.tail (by simp [hs]), fun hw _ => h.channel hw (by simp [pastDrain, hs]), fun _ => hw⟩
  | disconnect db => exact hok.2.elim

theorem attended_new (db : Db) : Attended (new db) := by
  refine ⟨fun h => ?_, fun _ => rfl, fun h => ?_, fun h => ?_⟩ <;> cases h

end Attended

/-! ## Every run -/

/-- The items are in order, and the database is what one batch of all that was applied would leave. -/
structure Written (db0 : Db) (q : WriteQueue) : Prop where
  ordered : q.fifo.Ordered
  attended : Attended q
  db_eq : flushBatch db0 (q.fifo.applied.map Prod.snd) = some q.db

theorem written_new (db : Db) : Written db (new db) := ⟨Fifo.ordered_empty, attended_new db, rfl⟩

theorem Written.step {db0 : Db} {q q' : WriteQueue} (h : Written db0 q) {a : QueueStep} (hok : InOrder q a)
    (hst : step q a = some q') : Written db0 q' := by
  have hatt := h.attended.step hok hst
  cases step_moves hst with
  | control fifo db => exact ⟨fifo ▸ h.ordered, hatt, by rw [fifo, db]; exact h.db_eq⟩
  | send enqueuing => exact ⟨h.ordered.send _, hatt, h.db_eq⟩
  | take taken _ =>
    refine ⟨h.ordered.take taken, hatt, ?_⟩
    obtain ⟨t, items, -, rfl | rfl⟩ := Fifo.take_cases taken <;> exact h.db_eq
  | flush writes fifo db =>
    obtain ⟨rfl, hbefore⟩ := hok.1 _ _ _ writes
    refine ⟨fifo ▸ h.ordered.flush hbefore, hatt, ?_⟩
    rw [fifo]
    change flushBatch db0 ((q.fifo.applied ++ q.fifo.batch _ _).map Prod.snd) = some q'.db
    rw [List.map_append]
    exact flushBatch_append h.db_eq db
  | disconnect => exact hok.2.elim

/-- Along every such interleaving the items are written in the order they were enqueued, each once, and the
database is what writing them in that order leaves. When `stop` has returned all of them are written, and the
watermark, the marker and the best state are those of the last one. -/
theorem items_written_in_order {db0 : Db} {steps : List QueueStep} {q : WriteQueue}
    (hok : Along step InOrder (new db0) steps) (hrun : run step (new db0) steps = some q) :
    q.fifo.applied <+: q.fifo.sent ∧ q.fifo.applied.Nodup ∧
    flushBatch db0 (q.fifo.applied.map Prod.snd) = some q.db ∧
      (q.stopper = .returned → q.fifo.applied = q.fifo.sent ∧
        ∀ t, q.fifo.sent.getLast? = some t → q.db.writeWatermark = some t.2.height ∧
          q.db.utxoStateConsistency = some t.2.bestState.hash ∧
          q.db.bestState = some ⟨t.2.bestState.hash, t.2.bestState.height, t.2.bestState.totalTxns, t.2.tipWork⟩) := by
  have h : Written db0 q := run_invariant (fun _ _ _ h hok hst => h.step hok hst) (written_new db0) hok hrun
  refine ⟨h.ordered.isPrefix, h.ordered.applied.imp fun hlt heq => absurd hlt (by simp [heq]), h.db_eq, fun hr => ?_⟩
  have hdone := h.attended.writer_done hr
  have heq : q.fifo.applied = q.fifo.sent := by
    refine h.ordered.applied_eq_sent fun t ht => ?_
    rcases ht with ht | ⟨g, ht⟩
    · rw [h.attended.channel hdone (by simp [pastDrain, hr])] at ht
      cases ht
    · cases g with
      | writer =>
        rw [h.attended.batch hdone] at ht
        cases ht
      | stop =>
        rw [h.attended.tail (by simp [hr])] at ht
        cases ht
  refine ⟨heq, fun t ht => flushBatch_last h.db_eq ?_⟩
  rw [heq, List.getLast?_map, ht]
  rfl

/-! ### A tail that overtakes the batch -/

def itemAt (height : Nat) : WriteItem where
  height := height
  block := ⟨height, ⟨1, 0, 0, 0, 0, 0⟩, []⟩
  nodeRows := []
  bestTipHash := height
  tipHeight := height
  tipWork := height
  bestState := ⟨height, height, 0⟩
  blockHash := height
  stxos := []
  bestHeaderHash := 0
  bestHeaderHeight := -1
  utxoDelta := []

/-- The writer has received the first item when `stop` is called, and the second is still in the channel. -/
def overtakingSteps : List QueueStep :=
  [.enqueue (itemAt 1), .send, .receive, .enqueue (itemAt 2), .send, .stop, .stopReceive, .stopFlush true,
   .writerStop true, .stopReturn]

/-- The second item is written before the first, and the watermark, the marker and the best state end at the
first. -/
theorem tail_overtakes_batch : ∃ q, run step (new emptyDb) overtakingSteps = some q ∧ q.stopper = .returned ∧
    q.fifo.sent = [(0, itemAt 1), (1, itemAt 2)] ∧ q.fifo.applied = [(1, itemAt 2), (0, itemAt 1)] ∧
    q.db.writeWatermark = some 1 ∧ q.db.utxoStateConsistency = some 1 ∧ q.db.bestState = some ⟨1, 1, 0, 1⟩ := by
  have heval : (run step (new emptyDb) overtakingSteps).map (fun q => (q.stopper, q.fifo.sent, q.fifo.applied,
      q.db.writeWatermark, q.db.utxoStateConsistency, q.db.bestState)) =
      some (.returned, [(0, itemAt 1), (1, itemAt 2)], [(1, itemAt 2), (0, itemAt 1)], some 1, some 1,
        some ⟨1, 1, 0, 1⟩) := rfl
  obtain ⟨q, hq, hfields⟩ := map_eq_some_iff.1 heval
  simp only [Prod.mk.injEq] at hfields
  exact ⟨q, hq, hfields⟩

/-- The writer flushes what it holds before `stop` finds the channel empty. -/
def orderlySteps : List QueueStep :=
  [.enqueue (itemAt 1), .send, .receive, .stop, .writerStop true, .stopFlush true, .stopReturn]

theorem items_written_in_order_orderly : ∃ q, run step (new emptyDb) orderlySteps = some q ∧
    q.fifo.applied <+: q.fifo.sent ∧ (q.stopper = .returned → q.fifo.applied = q.fifo.sent) := by
  have hok : Along step InOrder (new emptyDb) orderlySteps := by
    have hnone : ∀ {a : QueueStep}, writes a = none → ∀ q g keep ok, writes a = some (g, keep, ok) →
        ok = true ∧ (WriteQueue.fifo q).Before g keep := by
      intro a ha q g keep ok h
      rw [ha] at h
      cases h
    refine .cons ⟨hnone rfl _, trivial⟩ rfl ?_
    refine .cons ⟨hnone rfl _, fun h => by cases h⟩ rfl ?_
    refine .cons ⟨hnone rfl _, trivial⟩ rfl ?_
    refine .cons ⟨hnone rfl _, trivial⟩ rfl ?_
    refine along_cons.2 ⟨⟨?_, fun h => by cases h⟩, ?_⟩
    · rintro g keep ok ⟨⟩
      refine ⟨rfl, fun t _ g hg u hu => ?_⟩
      cases g with
      | writer => exact absurd rfl hg
      | stop => cases hu
    rintro _ ⟨⟩
    refine along_cons.2 ⟨⟨?_, trivial⟩, ?_⟩
    · rintro g keep ok ⟨⟩
      exact ⟨rfl, fun t ht => by cases ht⟩
    rintro _ ⟨⟩
    exact along_cons.2 ⟨⟨hnone rfl _, trivial⟩, fun _ _ => trivial⟩
  obtain ⟨q, hq⟩ := isSome_iff_exists.1 (by decide : (run step (new emptyDb) orderlySteps).isSome = true)
  obtain ⟨happlied, -, -, hreturned⟩ := items_written_in_order hok hq
  exact ⟨q, hq, happlied, fun hr => (hreturned hr).1⟩

end IniNode.WriteQueue
