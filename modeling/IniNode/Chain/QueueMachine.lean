import IniNode.Chain.WriteQueue
import IniNode.Lib.Fifo
import IniNode.Lib.Run
/-!
# The goroutines of the write queue

The channel of the write queue and everyone who uses it: the caller of `enqueue`, which holds the chain lock, the
writer, which batches items and flushes them, and `stop`, which drains the channel itself while the writer
flushes its last batch. Every receive from the channel and every transaction is a step, so a list of steps is an
interleaving of the goroutines. Steps that write carry a flag saying whether the database commits.

`step_moves` says once what a step can do; the results about the order of the items and about failing
transactions are derived from it.
-/

open IniNode.Lib Option

namespace IniNode

/-- The two that flush items. -/
inductive Goroutine where
  | writer
  | stop
deriving DecidableEq

/-- The writer waits for something to do, or serves a `syncReq`, or has returned. -/
inductive Writer where
  | running
  | syncing (maxHeight : Int)
  | done
deriving DecidableEq

/-- `stop` has not been called, drains the channel, waits for the writer, or has returned. -/
inductive Stopper where
  | idle
  | draining
  | waiting
  | returned
deriving DecidableEq

/-- `writeQueue`, with its goroutines. -/
structure WriteQueue where
  /-- The channel, the batch of the writer and the tail of `stop`. -/
  fifo : Fifo WriteItem Goroutine
  writer : Writer
  stopper : Stopper
  /-- The item of an `enqueue` that has found the queue not stopped and is about to send. -/
  enqueuing : Option WriteItem
  db : Db
  /-- The items of the best chain, in the order of its blocks. -/
  chain : List (Nat × WriteItem)

/-- A step of one of the goroutines. -/
inductive QueueStep where
  | enqueue (item : WriteItem)
  | send
  | abort
  | receive
  | flushFull (ok : Bool)
  | sync (maxHeight : Int) (ok : Bool)
  | syncReceive
  | syncEnd (ok : Bool)
  | writerStop (ok : Bool)
  | stop
  | stopReceive
  | stopFlush (ok : Bool)
  | stopReturn
  | disconnect (db : Db)

namespace WriteQueue

def new (db : Db) : WriteQueue := ⟨.empty, .running, .idle, none, db, []⟩

variable (q : WriteQueue)

def stopped : Bool := q.stopper ≠ .idle

def full : Bool := writeQueueBatchSize ≤ (q.fifo.held .writer).length

def all (_ : WriteItem) : Bool := true

/-- `flushBatch` by a goroutine, on what it holds and keeps. -/
def flush (g : Goroutine) (keep : WriteItem → Bool) (ok : Bool) : Option WriteQueue :=
  (if ok then flushBatch q.db ((q.fifo.batch g keep).map Prod.snd) else some q.db).map fun db =>
    { q with fifo := q.fifo.flush g keep ok, db := db }

def take (g : Goroutine) (keep : WriteItem → Bool) : Option WriteQueue :=
  (q.fifo.take g keep).map fun fifo => { q with fifo := fifo }

/-- One step. A `syncReq` and a disconnect come from the holder of the chain lock, so no `enqueue` is under way;
a disconnect comes after its `syncReq` has been served, or after the queue was stopped, when nobody waits for
that. Its transaction leaves the watermark alone. -/
def step : QueueStep → Option WriteQueue
  | .enqueue item =>
    if q.stopped then some q
    else if q.enqueuing = none ∧ q.writer = .running then some { q with enqueuing := some item }
    else none
  | .send =>
    match q.enqueuing with
    | some item =>
      if q.fifo.items.length < writeQueueCap then
        some { q with enqueuing := none, fifo := q.fifo.send item, chain := q.chain ++ [(q.fifo.next, item)] }
      else none
    | none => none
  | .abort => if q.stopped then some { q with enqueuing := none } else none
  | .receive => if q.writer = .running ∧ q.full = false then q.take .writer all else none
  | .flushFull ok => if q.writer = .running ∧ q.full = true then q.flush .writer all ok else none
  | .sync maxHeight ok =>
    if q.writer = .running ∧ q.full = false ∧ q.enqueuing = none then
      { q with writer := .syncing maxHeight }.flush .writer (WriteItem.keptBelow maxHeight) ok
    else none
  | .syncReceive =>
    match q.writer with
    | .syncing maxHeight => q.take .writer (WriteItem.keptBelow maxHeight)
    | _ => none
  | .syncEnd ok =>
    match q.writer with
    | .syncing _ => if q.fifo.items = [] then { q with writer := .running }.flush .writer all ok else none
    | _ => none
  | .writerStop ok =>
    if q.writer = .running ∧ q.full = false ∧ q.stopped = true then { q with writer := .done }.flush .writer all ok
    else none
  | .stop => if q.stopper = .idle then some { q with stopper := .draining } else none
  | .stopReceive => if q.stopper = .draining then q.take .stop all else none
  | .stopFlush ok =>
    if q.stopper = .draining ∧ q.fifo.items = [] then { q with stopper := .waiting }.flush .stop all ok else none
  | .stopReturn => if q.stopper = .waiting ∧ q.writer = .done then some { q with stopper := .returned } else none
  | .disconnect db =>
    if q.enqueuing = none ∧ db.writeWatermark = q.db.writeWatermark ∧
        (q.stopped = true ∨ q.writer = .running ∧ q.fifo.held .writer = [] ∧ q.fifo.items = []) then
      some { q with db := db, chain := q.chain.dropLast }
    else none

/-! ## What a step does -/

/-- The goroutine that writes in a step, what it keeps, and whether the database commits. -/
def writes : QueueStep → Option (Goroutine × (WriteItem → Bool) × Bool)
  | .flushFull ok | .syncEnd ok | .writerStop ok => some (.writer, all, ok)
  | .sync maxHeight ok => some (.writer, WriteItem.keptBelow maxHeight, ok)
  | .stopFlush ok => some (.stop, all, ok)
  | _ => none

/-- The kinds of steps, by what they do to the items, the database and the best chain. -/
inductive Move (q : WriteQueue) : QueueStep → WriteQueue → Prop where
  | control {a : QueueStep} {q' : WriteQueue} (fifo : q'.fifo = q.fifo) (db : q'.db = q.db) (chain : q'.chain = q.chain)
      (stopped : q.stopped = true → q'.stopped = true)
      (enqueuing : q'.enqueuing = q.enqueuing ∨ q'.enqueuing = none ∨
        ∃ item, a = .enqueue item ∧ q.stopped = false ∧ q'.enqueuing = some item) : Move q a q'
  | send {item : WriteItem} (enqueuing : q.enqueuing = some item) :
      Move q .send { q with enqueuing := none, fifo := q.fifo.send item, chain := q.chain ++ [(q.fifo.next, item)] }
  | take {a : QueueStep} {g : Goroutine} {keep : WriteItem → Bool} {fifo : Fifo WriteItem Goroutine}
      (taken : q.fifo.take g keep = some fifo) (stopped : g = .stop → q.stopped = true) : Move q a { q with fifo := fifo }
  | flush {a : QueueStep} {q' : WriteQueue} {g : Goroutine} {keep : WriteItem → Bool} {ok : Bool}
      (writes : writes a = some (g, keep, ok)) (fifo : q'.fifo = q.fifo.flush g keep ok)
      (db : (if ok then flushBatch q.db ((q.fifo.batch g keep).map Prod.snd) else some q.db) = some q'.db)
      (chain : q'.chain = q.chain) (stopped : q'.stopped = q.stopped) (enqueuing : q'.enqueuing = q.enqueuing) : Move q a q'
  | disconnect {db : Db} (enqueuing : q.enqueuing = none) (watermark : db.writeWatermark = q.db.writeWatermark)
      (synced : q.stopped = true ∨ q.fifo.held .writer = [] ∧ q.fifo.items = []) :
      Move q (.disconnect db) { q with db := db, chain := q.chain.dropLast }

variable {a : QueueStep}

theorem take_move {q q' : WriteQueue} {g : Goroutine} {keep : WriteItem → Bool} (h : q.take g keep = some q')
    (hs : g = .stop → q.stopped = true) : Move q a q' := by
  obtain ⟨fifo, hf, rfl⟩ := map_eq_some_iff.1 h
  exact .take hf hs

/-- A goroutine may change its own state before it writes. -/
theorem flush_move {q p q' : WriteQueue} {g : Goroutine} {keep : WriteItem → Bool} {ok : Bool}
    (ha : writes a = some (g, keep, ok)) (h : p.flush g keep ok = some q') (hfifo : p.fifo = q.fifo) (hdb : p.db = q.db)
    (hchain : p.chain = q.chain) (hstopped : p.stopped = q.stopped) (henq : p.enqueuing = q.enqueuing) : Move q a q' := by
  obtain ⟨db, hf, rfl⟩ := map_eq_some_iff.1 h
  rw [hfifo, hdb] at hf
  exact .flush ha (congrArg (·.flush g keep ok) hfifo) hf hchain hstopped henq

theorem step_moves {q q' : WriteQueue} (h : step q a = some q') : Move q a q' := by
  cases a with
  | enqueue item =>
    simp only [step] at h
    split at h
    · cases h
      exact .control rfl rfl rfl id (.inl rfl)
    next hs =>
      obtain ⟨-, ⟨⟩⟩ := ite_none_right_eq_some.1 h
      exact .control rfl rfl rfl id (.inr (.inr ⟨item, rfl, by simpa using hs, rfl⟩))
  | send =>
    simp only [step] at h
    split at h
    next item hi =>
      obtain ⟨-, ⟨⟩⟩ := ite_none_right_eq_some.1 h
      exact .send hi
    next => cases h
  | abort =>
    obtain ⟨-, ⟨⟩⟩ := ite_none_right_eq_some.1 h
    exact .control rfl rfl rfl id (.inr (.inl rfl))
  | receive =>
    simp only [step, ite_none_right_eq_some] at h
    exact take_move h.2 fun hg => by cases hg
  | flushFull ok | sync maxHeight ok | writerStop ok =>
    simp only [step, ite_none_right_eq_some] at h
    exact flush_move rfl h.2 rfl rfl rfl rfl rfl
  | syncReceive =>
    simp only [step] at h
    split at h
    · exact take_move h fun hg => by cases hg
    · cases h
  | syncEnd ok =>
    simp only [step] at h
    split at h
    · simp only [ite_none_right_eq_some] at h
      exact flush_move rfl h.2 rfl rfl rfl rfl rfl
    · cases h
  | stop | stopReturn =>
    obtain ⟨-, ⟨⟩⟩ := ite_none_right_eq_some.1 h
    exact .control rfl rfl rfl (fun _ => rfl) (.inl rfl)
  | stopReceive =>
    simp only [step, ite_none_right_eq_some] at h
    exact take_move h.2 fun _ => by simp [stopped, h.1]
  | stopFlush ok =>
    obtain ⟨⟨hd, -⟩, h⟩ := ite_none_right_eq_some.1 h
    exact flush_move rfl h rfl rfl rfl (by simp [stopped, hd]) rfl
  | disconnect db =>
    obtain ⟨⟨henq, hw, hs⟩, ⟨⟩⟩ := ite_none_right_eq_some.1 h
    exact .disconnect henq hw (hs.imp_right And.right)

end WriteQueue

end IniNode
