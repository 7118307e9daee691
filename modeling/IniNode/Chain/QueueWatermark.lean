import IniNode.Chain.IndexRows
import IniNode.Chain.QueueOrder
/-!
# What the watermark certifies

The watermark is meant to say that everything up to its height has been written: every item of the best chain
that is not above it (`Certifies`). A transaction that fails is only logged and its items are gone, so the next
one that commits certifies a hole (`hole_certified`). The law holds along every run in which no transaction
commits over lost items of the best chain, or before older items, and no item is enqueued at a height that the
watermark has already passed (`watermark_certifies`).
-/

open IniNode.Lib List Option

namespace IniNode.WriteQueue

/-- Every item of the best chain up to the watermark has been written. -/
def Certifies (q : WriteQueue) : Prop :=
  ∀ h, q.db.writeWatermark = some h → ∀ t ∈ q.chain, t.2.height ≤ h → t ∈ q.fifo.applied

/-- A step that leaves no hole below the watermark. A transaction that commits something comes before everything
the other goroutine holds, and no item of the best chain has been lost. A block is connected on top of the best
chain, and above the watermark. -/
def Covered (q : WriteQueue) (a : QueueStep) : Prop :=
  (∀ g keep, writes a = some (g, keep, true) → q.fifo.batch g keep ≠ [] →
      q.fifo.Before g keep ∧ ∀ t ∈ q.chain, t ∉ q.fifo.lost) ∧
    match a with
    | .enqueue item => ∀ t ∈ q.chain, t.2.height < item.height
    | .send => ∀ item h, q.enqueuing = some item → q.db.writeWatermark = some h → h < item.height
    | _ => True

/-- Where the items of the best chain are, and how their heights follow the order of sending. -/
structure Located (q : WriteQueue) : Prop where
  wired : q.fifo.Wired
  tail : q.stopped = false → q.fifo.held .stop = []
  chain_lt : ∀ t ∈ q.chain, t.1 < q.fifo.next
  cover : ∀ t ∈ q.chain, t ∈ q.fifo.applied ∨ q.fifo.Outstanding t ∨ t ∈ q.fifo.lost
  above : ∀ t, q.fifo.Outstanding t → ∀ u ∈ q.chain, t.1 < u.1 → t.2.height < u.2.height
  onChain : q.stopped = false ∨ q.enqueuing ≠ none → ∀ t, q.fifo.Outstanding t → t ∈ q.chain
  tip : ∀ item, q.enqueuing = some item → ∀ t ∈ q.chain, t.2.height < item.height

theorem located_new (db : Db) : Located (new db) := by
  refine ⟨Fifo.wired_empty, fun _ => rfl, ?_, ?_, ?_, fun _ t ht => ?_, ?_⟩
  · intro t ht
    cases ht
  · intro t ht
    cases ht
  · intro t _ u hu
    cases hu
  · rcases ht with ht | ⟨g, ht⟩ <;> cases ht
  · intro item h
    cases h

variable {a : QueueStep}

/-- A transaction writes the lower ones of what its goroutine holds. -/
theorem height_lt_of_not_kept {g : Goroutine} {keep : WriteItem → Bool} {ok : Bool}
    (ha : writes a = some (g, keep, ok)) {x y : WriteItem} (hx : keep x = true) (hy : keep y = false) :
    x.height < y.height := by
  have hsync : ∀ m : Int, WriteItem.keptBelow m x = true → WriteItem.keptBelow m y = false → x.height < y.height := by
    intro m hx hy
    simp only [WriteItem.keptBelow, decide_eq_true_eq, decide_eq_false_iff_not] at hx hy
    omega
  cases a with
  | sync maxHeight ok' =>
    cases ha
    exact hsync maxHeight hx hy
  | flushFull ok' | syncEnd ok' | writerStop ok' | stopFlush ok' =>
    cases ha
    cases hy
  | _ => cases ha

section Step
variable {q q' : WriteQueue} {g : Goroutine} {keep : WriteItem → Bool} {t : Nat × WriteItem}

theorem outstanding_take {fifo : Fifo WriteItem Goroutine} (h : q.fifo.take g keep = some fifo) :
    fifo.applied = q.fifo.applied ∧ fifo.next = q.fifo.next ∧ (∀ t, fifo.Outstanding t → q.fifo.Outstanding t) ∧
      (∀ t, q.fifo.Outstanding t → fifo.Outstanding t ∨ t ∈ fifo.lost) ∧ ∀ t ∈ q.fifo.lost,
        t ∈ fifo.lost := by
  obtain ⟨t, items, hi, rfl | rfl⟩ := Fifo.take_cases h
  · exact ⟨rfl, rfl, fun u => (Fifo.outstanding_hold hi).1, fun u hu => .inl ((Fifo.outstanding_hold hi).2 hu),
      fun _ => id⟩
  · refine ⟨rfl, rfl, ?_, ?_, fun u hu => mem_append_left _ hu⟩
    · rintro u (hu | hu)
      · exact .inl (by rw [hi]; exact mem_cons_of_mem _ hu)
      · exact .inr hu
    · rintro u (hu | hu)
      · rw [hi] at hu
        rcases mem_cons.1 hu with rfl | hu
        · exact .inr (mem_append_right _ mem_cons_self)
        · exact .inl (.inl hu)
      · exact .inl (.inr hu)

/-- What was outstanding before a transaction is outstanding, written or lost after it. -/
theorem outstanding_flush (ok : Bool) (ht : q.fifo.Outstanding t) :
    (q.fifo.flush g keep ok).Outstanding t ∨ t ∈ (q.fifo.flush g keep ok).applied ∨
      t ∈ (q.fifo.flush g keep ok).lost := by
  rcases ht with ht | ⟨g', ht⟩
  · exact .inl (.inl (by rw [Fifo.flush_items]; exact ht))
  · by_cases hg : g' = g
    · subst hg
      cases hk : keep t.2 with
      | false =>
        have hd : t ∈ (q.fifo.held g').filter (!keep ·.2) := mem_filter.2 ⟨ht, by simp [hk]⟩
        refine .inr (.inr ?_)
        cases ok
        · exact mem_append_left _ (mem_append_right _ hd)
        · exact mem_append_right _ hd
      | true =>
        have hb : t ∈ q.fifo.batch g' keep := Fifo.mem_batch.2 ⟨ht, hk⟩
        cases ok
        · exact .inr (.inr (mem_append_right _ hb))
        · exact .inr (.inl (mem_append_right _ hb))
    · exact .inl (.inr ⟨g', Fifo.mem_flush_held.2 ⟨hg, ht⟩⟩)

theorem applied_flush (ok : Bool) (ht : t ∈ q.fifo.applied) : t ∈ (q.fifo.flush g keep ok).applied := by
  cases ok
  · exact ht
  · exact mem_append_left _ ht

theorem lost_flush (ok : Bool) (ht : t ∈ q.fifo.lost) : t ∈ (q.fifo.flush g keep ok).lost := by
  cases ok
  · exact mem_append_left _ (mem_append_left _ ht)
  · exact mem_append_left _ ht

theorem Located.step (h : Located q) (hok : Covered q a) (hst : step q a = some q') : Located q' := by
  cases step_moves hst with
  | control fifo db chain stopped enqueuing =>
    have hstop : q'.stopped = false → q.stopped = false := fun hs => by
      by_contra hne
      rw [stopped (by simpa using hne)] at hs
      cases hs
    have henq : q'.enqueuing ≠ none → q.enqueuing ≠ none ∨ q.stopped = false := by
      intro hne
      rcases enqueuing with he | he | ⟨item, -, hs, -⟩
      · exact .inl (he ▸ hne)
      · exact absurd he hne
      · exact .inr hs
    refine ⟨fifo ▸ h.wired, fun hs => by rw [fifo]; exact h.tail (hstop hs), by rw [fifo, chain]; exact h.chain_lt,
      by rw [fifo, chain]; exact h.cover, by rw [fifo, chain]; exact h.above, fun hs => ?_, fun item hi => ?_⟩
    · rw [fifo, chain]
      rcases hs with hs | hs
      · exact h.onChain (.inl (hstop hs))
      · exact h.onChain ((henq hs).symm)
    · rw [chain]
      rcases enqueuing with he | he | ⟨item', rfl, -, he⟩
      · exact h.tip item (he ▸ hi)
      · rw [he] at hi
        cases hi
      · rw [he] at hi
        cases hi
        exact hok.2
  | @send item enqueuing =>
    have honChain : ∀ t, q.fifo.Outstanding t → t ∈ q.chain := h.onChain (.inr (by simp [enqueuing]))
    refine ⟨h.wired.send item, h.tail, forall_mem_append.2 ⟨fun t ht => Nat.lt_succ_of_lt (h.chain_lt t ht),
      forall_mem_singleton.2 (Nat.lt_succ_self _)⟩, fun t ht => ?_, fun t ht u hu hlt => ?_, fun _ t ht => ?_, nofun⟩
    · rw [Fifo.outstanding_send]
      rcases mem_append.1 ht with ht | ht
      · rcases h.cover t ht with hc | hc | hc
        · exact .inl hc
        · exact .inr (.inl (.inl hc))
        · exact .inr (.inr hc)
      · exact .inr (.inl (.inr (mem_singleton.1 ht)))
    · rcases Fifo.outstanding_send.1 ht with ht | rfl
      · rcases mem_append.1 hu with hu | hu
        · exact h.above t ht u hu hlt
        · rw [mem_singleton.1 hu]
          exact h.tip item enqueuing t (honChain t ht)
      · -- nothing of the best chain is newer than the item just sent
        rcases mem_append.1 hu with hu | hu
        · exact absurd (h.chain_lt u hu) (Nat.lt_asymm hlt)
        · rw [mem_singleton.1 hu] at hlt
          exact absurd hlt (Nat.lt_irrefl _)
    · rcases Fifo.outstanding_send.1 ht with ht | rfl
      · exact mem_append_left _ (honChain t ht)
      · exact mem_append_right _ mem_cons_self
  | @take _ g keep fifo taken stopped =>
    obtain ⟨happ, hnext, hout, hout', hlost⟩ := outstanding_take taken
    refine ⟨h.wired.take taken, fun hs => ?_, fun t ht => hnext ▸ h.chain_lt t ht, fun t ht => ?_,
      fun t ht => h.above t (hout t ht), fun hs t ht => h.onChain hs t (hout t ht), h.tip⟩
    · have hg : Goroutine.stop ≠ g := fun hg => by
        have := stopped hg.symm
        rw [show q.stopped = false from hs] at this
        cases this
      have htake : q.take g keep = some { q with fifo := fifo } := by rw [WriteQueue.take, taken]; rfl
      exact (held_take htake hg).trans (h.tail hs)
    · rcases h.cover t ht with hc | hc | hc
      · exact .inl (happ ▸ hc)
      · exact .inr (hout' t hc)
      · exact .inr (.inr (hlost t hc))
  | @flush _ _ g keep ok writes fifo db chain stopped enqueuing =>
    have hout : ∀ t, q'.fifo.Outstanding t → q.fifo.Outstanding t := fun t ht => by
      rw [fifo] at ht
      exact Fifo.outstanding_of_flush ht
    refine ⟨fifo ▸ h.wired.flush ok, fun hs => ?_, by rw [fifo, Fifo.flush_next, chain]; exact h.chain_lt,
      fun t ht => ?_,
      fun t ht => by rw [chain]; exact h.above t (hout t ht), fun hs t ht => ?_, by rw [chain, enqueuing]; exact h.tip⟩
    · have hnil := h.tail (stopped ▸ hs)
      rw [fifo]
      refine eq_nil_iff_forall_not_mem.2 fun t ht => ?_
      have := (Fifo.mem_flush_held.1 ht).2
      rw [hnil] at this
      cases this
    · rw [chain] at ht
      rw [fifo]
      rcases h.cover t ht with hc | hc | hc
      · exact .inl (applied_flush ok hc)
      · rcases outstanding_flush ok hc with hc | hc | hc
        · exact .inr (.inl hc)
        · exact .inl hc
        · exact .inr (.inr hc)
      · exact .inr (.inr (lost_flush ok hc))
    · rw [chain]
      rw [stopped, enqueuing] at hs
      exact h.onChain hs t (hout t ht)
  | disconnect enqueuing watermark synced =>
    have hsub : ∀ t ∈ q.chain.dropLast, t ∈ q.chain := fun t ht => (dropLast_sublist _).subset ht
    refine ⟨h.wired, h.tail, fun t ht => h.chain_lt t (hsub t ht), fun t ht => h.cover t (hsub t ht),
      fun t ht u hu => h.above t ht u (hsub u hu), fun hs t ht => ?_, fun item hi => ?_⟩
    · -- a block is disconnected while the queue runs only when nothing is outstanding
      have hs : q.stopped = false := hs.resolve_right fun hne => hne enqueuing
      rcases synced with hs' | ⟨hheld, hitems⟩
      · rw [hs] at hs'
        cases hs'
      · rcases ht with ht | ⟨g, ht⟩
        · rw [hitems] at ht
          cases ht
        · cases g with
          | writer =>
            rw [hheld] at ht
            cases ht
          | stop =>
            rw [h.tail hs] at ht
            cases ht
    · rw [enqueuing] at hi
      cases hi

end Step

/-! ## Every run -/

theorem Located.certifies {q q' : WriteQueue} (h : Located q) (hc : Certifies q) (hok : Covered q a)
    (hst : WriteQueue.step q a = some q') : Certifies q' := by
  cases step_moves hst with
  | control fifo db chain =>
    unfold Certifies
    rw [fifo, db, chain]
    exact hc
  | @send item enqueuing =>
    intro w hw t ht hle
    rcases mem_append.1 ht with ht | ht
    · exact hc w hw t ht hle
    · rw [mem_singleton.1 ht] at hle
      exact absurd (hok.2 item w enqueuing hw) (by simpa using hle)
  | take taken =>
    unfold Certifies
    rw [(outstanding_take taken).1]
    exact hc
  | @flush _ _ g keep ok writes fifo db chain =>
    intro w hw t ht hle
    rw [chain] at ht
    rw [fifo]
    cases ok with
    | false =>
      rw [← Option.some.inj db] at hw
      exact hc w hw t ht hle
    | true =>
      cases hb : (q.fifo.batch g keep).getLast? with
      | none =>
        rw [getLast?_eq_none_iff.1 hb] at db
        rw [← Option.some.inj db] at hw
        exact applied_flush true (hc w hw t ht hle)
      | some x =>
        have hx : x ∈ q.fifo.batch g keep := mem_of_getLast? hb
        have hne : q.fifo.batch g keep ≠ [] := ne_nil_of_mem hx
        obtain ⟨hbefore, hlost⟩ := hok.1 g keep writes hne
        obtain ⟨hxheld, hxkeep⟩ := Fifo.mem_batch.1 hx
        have hmark : q'.db.writeWatermark = some x.2.height :=
          (flushBatch_last db (by rw [getLast?_map, hb]; rfl)).1
        obtain rfl : w = x.2.height := mem_unique hw hmark
        -- an item sent after the last one of the batch lies above it
        have hafter : ¬ x.1 < t.1 := fun hlt =>
          absurd (h.above x (.inr ⟨g, hxheld⟩) t ht hlt) (by omega)
        rcases h.cover t ht with hap | (hitem | ⟨g', hheld⟩) | hl
        · exact applied_flush true hap
        · exact absurd (h.wired.held_lt g x hxheld t hitem) hafter
        · by_cases hg : g' = g
          · subst hg
            cases hk : keep t.2 with
            | true => exact mem_append_right _ (Fifo.mem_batch.2 ⟨hheld, hk⟩)
            | false => exact absurd (height_lt_of_not_kept writes hxkeep hk) (by omega)
          · exact absurd (hbefore x hx g' hg t hheld) hafter
        · exact absurd hl (hlost t ht)
  | disconnect enqueuing watermark synced =>
    intro w hw t ht hle
    exact hc w (watermark ▸ hw) t ((dropLast_sublist _).subset ht) hle

/-- The transaction between the two databases has written the item, between other items of its batch. -/
def Commits (item : WriteItem) (db db' : Db) : Prop :=
  ∃ before after d d' d'', writeItems db before = some d ∧ item.OnDisk d d' ∧ writeItems d' after = some d'' ∧
    db' = d''.withMarks db'.utxoStateConsistency db'.writeWatermark

theorem commits_of_mem {items : List WriteItem} {item : WriteItem} {db db' : Db} (h : flushBatch db items = some db')
    (hi : item ∈ items) : Commits item db db' := by
  rcases flushBatch_eq h with ⟨rfl, -⟩ | ⟨last, d, -, hd, rfl⟩
  · cases hi
  obtain ⟨before, after, rfl⟩ := append_of_mem hi
  rw [writeItems_append] at hd
  obtain ⟨d1, hd1, hd⟩ := bind_eq_some_iff.1 hd
  obtain ⟨d2, hd2, hd⟩ := bind_eq_some_iff.1 hd
  exact ⟨before, after, d1, d2, d, hd1, writeItem_onDisk hd2, hd, rfl⟩

/-- An item is applied in the step whose transaction writes it. -/
theorem commits_of_step {q q' : WriteQueue} {t : Nat × WriteItem} (hst : step q a = some q') (hq : t ∉ q.fifo.applied)
    (hq' : t ∈ q'.fifo.applied) : Commits t.2 q.db q'.db := by
  cases step_moves hst with
  | control fifo => exact absurd (fifo ▸ hq') hq
  | send enqueuing | disconnect enqueuing watermark synced => exact absurd hq' hq
  | take taken => exact absurd ((outstanding_take taken).1 ▸ hq') hq
  | @flush _ _ g keep ok writes fifo db =>
    rw [fifo] at hq'
    cases ok with
    | false => exact absurd hq' hq
    | true => exact commits_of_mem db (mem_map_of_mem ((mem_append.1 hq').resolve_left hq))

/-- Along every run that leaves no hole, everything of the best chain up to the watermark has been written: the
transaction of one of the steps has committed the rows, the spend journal and the utxo deltas of the item. -/
theorem watermark_certifies {db0 : Db} {steps : List QueueStep} {q : WriteQueue}
    (hok : Along step Covered (new db0) steps) (hrun : run step (new db0) steps = some q) :
    ∀ h, q.db.writeWatermark = some h → ∀ t ∈ q.chain, t.2.height ≤ h →
      ∃ pre a post q1 q2, steps = pre ++ a :: post ∧ run step (new db0) pre = some q1 ∧
        step q1 a = some q2 ∧ Commits t.2 q1.db q2.db := by
  have hinv : Located q ∧ Certifies q :=
    run_invariant (I := fun q => Located q ∧ Certifies q)
      (fun _ _ _ h hok hst => ⟨h.1.step hok hst, h.1.certifies h.2 hok hst⟩)
      ⟨located_new db0, fun _ _ t ht => by cases ht⟩ hok hrun
  intro h hw t ht hle
  have hnew : t ∉ (new db0).fifo.applied := by
    intro hmem
    cases hmem
  obtain ⟨pre, a, post, q1, q2, hsteps, hpre, hst, hq1, hq2⟩ :=
    exists_step_of_run (P := fun q => t ∈ q.fifo.applied) hrun hnew (hinv.2 h hw t ht hle)
  exact ⟨pre, a, post, q1, q2, hsteps, hpre, hst, commits_of_step hst hq1 hq2⟩

/-! ### A hole below the watermark -/

/-- The transaction of the first item fails; that of the second commits. -/
def lossySteps : List QueueStep :=
  [.enqueue (itemAt 1), .send, .receive, .sync (-1) false, .syncEnd true,
   .enqueue (itemAt 2), .send, .receive, .sync (-1) true]

/-- The watermark passes the first item, which has never been written: it has no rows and no spend journal. -/
theorem hole_certified : ∃ q, run step (new emptyDb) lossySteps = some q ∧ q.chain = [(0, itemAt 1), (1, itemAt 2)] ∧
    q.db.writeWatermark = some 2 ∧ q.fifo.applied = [(1, itemAt 2)] ∧ q.db.hashIndex (itemAt 1).blockHash = none ∧
    q.db.heightIndex 1 = none ∧ q.db.spendJournal (itemAt 1).blockHash = none := by
  have heval : (run step (new emptyDb) lossySteps).map (fun q => (q.chain, q.db.writeWatermark, q.fifo.applied,
        q.db.hashIndex (itemAt 1).blockHash, q.db.heightIndex 1, q.db.spendJournal (itemAt 1).blockHash)) =
      some ([(0, itemAt 1), (1, itemAt 2)], some 2, [(1, itemAt 2)], none, none, none) := rfl
  obtain ⟨q, hq, hfields⟩ := map_eq_some_iff.1 heval
  simp only [Prod.mk.injEq] at hfields
  exact ⟨q, hq, hfields⟩

def syncedSteps : List QueueStep := [.enqueue (itemAt 1), .send, .receive, .sync (-1) true]

theorem watermark_certifies_sync : ∃ q, run step (new emptyDb) syncedSteps = some q ∧ q.db.writeWatermark = some 1 ∧
    ∃ pre a post q1 q2, syncedSteps = pre ++ a :: post ∧ run step (new emptyDb) pre = some q1 ∧
      step q1 a = some q2 ∧ Commits (itemAt 1) q1.db q2.db := by
  have hok : Along step Covered (new emptyDb) syncedSteps := by
    refine .cons ⟨fun _ _ h => (by cases h), fun t ht => by cases ht⟩ rfl ?_
    refine .cons ⟨fun _ _ h => (by cases h), fun _ _ _ h => by cases h⟩ rfl ?_
    refine .cons ⟨fun _ _ h => (by cases h), trivial⟩ rfl ?_
    refine along_cons.2 ⟨⟨?_, trivial⟩, fun _ _ => trivial⟩
    rintro g keep ⟨⟩ -
    refine ⟨fun t _ g hg u hu => ?_, fun t _ ht => by cases ht⟩
    cases g with
    | writer => exact absurd rfl hg
    | stop => cases hu
  have heval : (run step (new emptyDb) syncedSteps).map (fun q => (q.chain, q.db.writeWatermark)) =
      some ([(0, itemAt 1)], some 1) := rfl
  obtain ⟨q, hq, hfields⟩ := map_eq_some_iff.1 heval
  obtain ⟨hchain, hmark⟩ := Prod.mk.inj hfields
  exact ⟨q, hq, hmark, watermark_certifies hok hq 1 hmark (0, itemAt 1) (by rw [hchain]; exact mem_cons_self)
    (le_refl _)⟩

end IniNode.WriteQueue
