import IniNode.Lib.Overlay
/-!
# The database cache

`dbCache` with its readers and its one writer. A snapshot is taken in two parts: the LevelDB snapshot first, then, under
the cache lock, the roots of the two treaps. The writer commits to the treaps, or, when the cache is full or old, writes
the treaps to LevelDB, empties them and commits to LevelDB. Each step of the machine is atomic in the code: a LevelDB
snapshot or transaction, or a swap under the lock.
-/

open IniNode.Lib

namespace IniNode.Ffldb

variable {κ ν : Type} [DecidableEq κ]

/-- `dbCacheSnapshot`. -/
structure Snapshot (κ ν : Type) where
  dbSnapshot : Store κ ν
  pending : Overlay κ ν

namespace Snapshot

variable (snap : Snapshot κ ν)

def get (key : κ) : Option ν :=
  if (snap.pending.remove.lookup key).isSome then none
  else
    match snap.pending.keys.lookup key with
    | some value => some value
    | none => snap.dbSnapshot key

def has (key : κ) : Bool :=
  if (snap.pending.remove.lookup key).isSome then false
  else if (snap.pending.keys.lookup key).isSome then true
  else (snap.dbSnapshot key).isSome

theorem get_eq_view : snap.get = snap.pending.view snap.dbSnapshot := by
  funext key
  rw [get, Overlay.view]
  cases snap.pending.keys.lookup key <;> rfl

theorem has_eq_isSome_get (key : κ) : snap.has key = (snap.get key).isSome := by
  rw [has, get]
  split
  · rfl
  · cases snap.pending.keys.lookup key <;> rfl

end Snapshot

/-- Where the write transaction is in `commitTx`. -/
inductive Writer (κ ν : Type)
  | idle
  /-- In `flush`, before the treaps are committed to LevelDB. -/
  | flush (tx : Overlay κ ν)
  /-- In `flush`, before the treaps are emptied. -/
  | clear (tx : Overlay κ ν)
  /-- After `flush`, before the transaction is committed to LevelDB. -/
  | direct (tx : Overlay κ ν)
  /-- Before the treaps are replaced by those with the transaction. -/
  | store (tx : Overlay κ ν)

/-- Where a read transaction is, with the number of transactions committed when it began. Between the two parts of its
snapshot it comes with the treaps of the moment of the first part. -/
inductive Reader (κ ν : Type)
  | begun (since : Nat)
  | half (since : Nat) (dbSnapshot : Store κ ν) (cachedThen : Overlay κ ν)
  | reading (since : Nat) (snap : Snapshot κ ν)

/-- The database with its transactions, and the transactions committed so far. -/
structure Db (κ ν : Type) where
  ldb : Store κ ν
  cached : Overlay κ ν := .empty
  writer : Writer κ ν := .idle
  readers : Store Nat (Reader κ ν) := fun _ => none
  committed : List (Overlay κ ν) := []

inductive Action (κ ν : Type)
  | begin (r : Nat)
  /-- The LevelDB snapshot in `Snapshot`. -/
  | snapshotDb (r : Nat)
  /-- The treaps in `Snapshot`. -/
  | snapshotCache (r : Nat)
  | close (r : Nat)
  /-- `commitTx`, with what `needsFlush` says. -/
  | commitTx (tx : Overlay κ ν) (needsFlush : Bool)
  | advance
  /-- The blocks cannot be synced, or a LevelDB transaction fails. -/
  | fail

namespace Db

def advance (s : Db κ ν) : Option (Db κ ν) :=
  match s.writer with
  | .idle => none
  | .flush tx =>
    if s.cached.isEmpty then some { s with writer := .direct tx }
    else some { s with ldb := s.cached.commit s.ldb, writer := .clear tx }
  | .clear tx => some { s with cached := .empty, writer := .direct tx }
  | .direct tx => some { s with ldb := tx.commit s.ldb, writer := .idle, committed := s.committed ++ [tx] }
  | .store tx => some { s with cached := s.cached.stack tx, writer := .idle, committed := s.committed ++ [tx] }

def step (s : Db κ ν) : Action κ ν → Option (Db κ ν)
  | .begin r =>
    match s.readers r with
    | none => some { s with readers := s.readers.write ⟨r, some (.begun s.committed.length)⟩ }
    | some _ => none
  | .snapshotDb r =>
    match s.readers r with
    | some (.begun since) => some { s with readers := s.readers.write ⟨r, some (.half since s.ldb s.cached)⟩ }
    | _ => none
  | .snapshotCache r =>
    match s.readers r with
    | some (.half since dbSnapshot _) =>
      some { s with readers := s.readers.write ⟨r, some (.reading since ⟨dbSnapshot, s.cached⟩)⟩ }
    | _ => none
  | .close r => some { s with readers := s.readers.write ⟨r, none⟩ }
  | .commitTx tx needsFlush =>
    match s.writer with
    | .idle => some { s with writer := if needsFlush then .flush tx else .store tx }
    | _ => none
  | .advance => s.advance
  | .fail =>
    match s.writer with
    | .flush _ | .direct _ => some { s with writer := .idle }
    | _ => none

end Db

end IniNode.Ffldb
