import IniNode.Lib.SyncedFile
import IniNode.Utxo.Entry
/-!
# Block files and their metadata

The flat files of the block store, the write transactions that write to them and `reconcileDB`. The metadata that
matters here is the location of each block and the write position; `current` is what is read through the database cache and
`persisted` what LevelDB has, so that a flush of the cache makes the second the first. A commit goes step by step: files
are deleted, blocks are written, the current file is synced, LevelDB is written. A crash may come between any two.
-/

open IniNode.Lib

namespace IniNode.Ffldb

/-! ## Files -/

abbrev File := SyncedFile UInt8

abbrev Files := AList fun _ : Nat => File

/-- The parts of a block record that the store puts around a block. -/
structure Format where
  maxBlockFileSize : Nat
  network : List UInt8
  lengthBytes : Nat → List UInt8
  checksum : List UInt8 → List UInt8
  network_length : network.length = 4
  lengthBytes_length : ∀ n, (lengthBytes n).length = 4
  checksum_length : ∀ data, (checksum data).length = 4

structure BlockLocation where
  blockFileNum : Nat
  fileOffset : Nat
  blockLen : Nat
deriving DecidableEq

/-- A row of the block index, with the block it was written for. -/
structure BlockRow where
  loc : BlockLocation
  raw : List UInt8
deriving DecidableEq

/-- The current file and offset of the write cursor. -/
structure Position where
  fileNum : Nat
  offset : Nat
deriving DecidableEq

def Position.before (a b : Position) : Bool :=
  a.fileNum < b.fileNum || a.fileNum = b.fileNum && a.offset < b.offset

section Format
variable (fmt : Format)

def Format.record (raw : List UInt8) : List UInt8 :=
  let body := fmt.network ++ fmt.lengthBytes raw.length ++ raw
  body ++ fmt.checksum body

variable (files : Files)

def readBlock (loc : BlockLocation) : Option (List UInt8) :=
  match files.lookup loc.blockFileNum with
  | none => none
  | some file =>
    let data := (file.content.drop loc.fileOffset).take loc.blockLen
    if data.length < loc.blockLen then none
    else if fmt.checksum (data.take (loc.blockLen - 4)) ≠ data.drop (loc.blockLen - 4) then none
    else if data.take 4 ≠ fmt.network then none
    else some ((data.take (loc.blockLen - 4)).drop 8)

/-- `openWriteFile`: the file is created if needed. -/
def openWriteFile (fileNum : Nat) : File := (files.lookup fileNum).getD .empty

/-- `scanBlockFiles`: the first and the last file, and the length of the last. -/
def scanBlockFiles : Option (Nat × Nat × Nat) :=
  match files.keys.min?, files.keys.max? with
  | some first, some last => some (first, last, (openWriteFile files last).size)
  | _, _ => none

/-! ## Transactions -/

structure Metadata where
  rows : Store Hash BlockRow := fun _ => none
  writeRow : Position := ⟨0, 0⟩

/-- A write transaction: the rows as it sees them, without its pending blocks. -/
structure Tx where
  rows : Store Hash BlockRow
  pendingBlocks : List (Hash × List UInt8) := []
  pendingDelFileNums : List Nat := []

/-- How far the transaction has got. -/
inductive TxPhase
  | idle
  | building (tx : Tx)
  | deleting (tx : Tx) (needsFlush : Bool)
  | writing (tx : Tx) (needsFlush : Bool)
  /-- In `flush`, before `syncBlocks`. -/
  | syncing (tx : Tx)
  /-- In `flush`, before the cache is written to LevelDB. -/
  | flushing (tx : Tx)
  /-- Before the transaction is written to LevelDB. -/
  | committing (tx : Tx)
  /-- Before the transaction is put into the cache. -/
  | storing (tx : Tx)

/-- The block store, the metadata, the write transaction, and the files that pruning has deleted. -/
structure BlockDb where
  files : Files := ∅
  cursor : Position := ⟨0, 0⟩
  /-- Whether the file of the cursor is open. -/
  isOpen : Bool := false
  persisted : Metadata := {}
  current : Metadata := {}
  phase : TxPhase := .idle
  pruned : List Nat := []

namespace BlockDb

variable (s : BlockDb)

/-- `writeBlock`, with the location of the block. A full file is closed and the next one is created. -/
def writeBlock (raw : List UInt8) : BlockDb × BlockLocation :=
  let fullLen := raw.length + 12
  let cursor := if fmt.maxBlockFileSize < s.cursor.offset + fullLen then ⟨s.cursor.fileNum + 1, 0⟩ else s.cursor
  let file := (openWriteFile s.files cursor.fileNum).writeAt cursor.offset (fmt.record raw)
  ({ s with
      files := s.files.insert cursor.fileNum file
      cursor := ⟨cursor.fileNum, cursor.offset + fullLen⟩
      isOpen := true },
    ⟨cursor.fileNum, cursor.offset, fullLen⟩)

def syncBlocks : BlockDb :=
  if s.isOpen then
    { s with files := s.files.insert s.cursor.fileNum (openWriteFile s.files s.cursor.fileNum).sync }
  else s

/-- The loop of `PruneBlocks` from a file on. -/
def pruneLoop (maxSize target : Nat) : Nat → Nat → Nat → List Nat
  | 0, _, _ => []
  | files + 1, i, totalSize =>
    i :: if totalSize - maxSize ≤ target then [] else pruneLoop maxSize target files (i + 1) (totalSize - maxSize)

/-- The files that `PruneBlocks` wants to delete. -/
def filesToPrune (target : Nat) : List Nat :=
  if target < fmt.maxBlockFileSize then []
  else
    match scanBlockFiles s.files with
    | none => []
    | some (first, last, lastFileSize) =>
      let totalSize := lastFileSize + fmt.maxBlockFileSize * (last - first)
      if first = last ∨ totalSize ≤ target then []
      else pruneLoop fmt.maxBlockFileSize target (last - first) first totalSize

def metadata (tx : Tx) : Metadata := ⟨tx.rows, s.cursor⟩

/-- The next step of `writePendingAndCommit`. A file that cannot be deleted makes the commit fail. -/
def advance : Option BlockDb :=
  match s.phase with
  | .idle | .building _ => none
  | .deleting tx needsFlush =>
    match tx.pendingDelFileNums with
    | [] => some { s with phase := .writing tx needsFlush }
    | fileNum :: rest =>
      if (s.files.lookup fileNum).isSome then
        some { s with
          files := s.files.erase fileNum
          pruned := fileNum :: s.pruned
          phase := .deleting { tx with pendingDelFileNums := rest } needsFlush }
      else some { s with phase := .idle }
  | .writing tx needsFlush =>
    match tx.pendingBlocks with
    | [] => some { s with phase := if needsFlush then .syncing tx else .storing tx }
    | (hash, raw) :: rest =>
      let (s', loc) := s.writeBlock fmt raw
      some { s' with
        phase := .writing
          { tx with rows := tx.rows.write ⟨hash, some ⟨loc, raw⟩⟩, pendingBlocks := rest } needsFlush }
  | .syncing tx => some { s.syncBlocks with phase := .flushing tx }
  | .flushing tx => some { s with persisted := s.current, phase := .committing tx }
  | .committing tx => some { s with persisted := s.metadata tx, current := s.metadata tx, phase := .idle }
  | .storing tx => some { s with current := s.metadata tx, phase := .idle }

/-! ## Opening the database again -/

/-- The files above the rollback point are deleted from the last one down, until one is missing. -/
def deleteAbove (fileNum : Nat) : Nat → Files → Option Files
  | 0, files => some files
  | above + 1, files =>
    if (files.lookup (fileNum + above + 1)).isSome then deleteAbove fileNum above (files.erase (fileNum + above + 1))
    else none

/-- `handleRollback` when the database is opened: the write cursor is put back whatever happens. -/
def handleRollback (old : Position) : BlockDb :=
  match deleteAbove old.fileNum (s.cursor.fileNum - old.fileNum) s.files with
  | none => { s with cursor := old }
  | some files =>
    { s with
      files := files.insert old.fileNum ((openWriteFile files old.fileNum).truncate old.offset).sync
      cursor := old
      isOpen := true }

/-- `newBlockStore`: the write cursor is at the end of the last file. -/
def newBlockStore : Position :=
  match scanBlockFiles files with
  | none => ⟨0, 0⟩
  | some (_, last, lastFileSize) => ⟨last, lastFileSize⟩

def reconcileDB : Option BlockDb :=
  let s := if s.persisted.writeRow.before s.cursor then s.handleRollback s.persisted.writeRow else s
  if s.cursor.before s.persisted.writeRow then none else some s

def crashFiles (keep : Nat → Nat) : Files where
  entries := files.entries.map fun p => ⟨p.1, p.2.crash (keep p.1)⟩
  nodupKeys := by
    have h := files.nodupKeys
    rwa [List.NodupKeys, List.keys, List.map_map]

def crash (keep : Nat → Nat) : Option BlockDb :=
  let files := crashFiles s.files keep
  reconcileDB
    { files := files, cursor := newBlockStore files, persisted := s.persisted, current := s.persisted, pruned := s.pruned }

/-- `FetchBlock`, outside of the transaction that stores the block. -/
def fetchBlock (hash : Hash) : Option (List UInt8) :=
  (s.current.rows hash).bind fun row => readBlock fmt s.files row.loc

end BlockDb

/-! ## Runs -/

inductive DbStep
  | begin
  | storeBlock (hash : Hash) (raw : List UInt8)
  | deleteBlock (hash : Hash)
  | pruneBlocks (target : Nat)
  | rollback
  /-- `Commit`, with what `needsFlush` says. -/
  | commit (needsFlush : Bool)
  | advance
  /-- The sync or a LevelDB transaction fails. -/
  | fail
  /-- The database is closed, with a flush. -/
  | close
  /-- A crash, with the lengths that are kept of the files, and the database is opened again. -/
  | crash (keep : Nat → Nat)

def BlockDb.step (s : BlockDb) : DbStep → Option BlockDb
  | .begin =>
    match s.phase with
    | .idle => some { s with phase := .building { rows := s.current.rows } }
    | _ => none
  | .storeBlock hash raw =>
    match s.phase with
    | .building tx =>
      if (tx.rows hash).isSome ∨ hash ∈ tx.pendingBlocks.map Prod.fst then some s
      else some { s with phase := .building { tx with pendingBlocks := tx.pendingBlocks ++ [(hash, raw)] } }
    | _ => none
  | .deleteBlock hash =>
    match s.phase with
    | .building tx => some { s with phase := .building { tx with rows := tx.rows.write ⟨hash, none⟩ } }
    | _ => none
  | .pruneBlocks target =>
    match s.phase with
    | .building tx =>
      let files := s.filesToPrune fmt target
      some { s with
        phase := .building
          { tx with
            rows := fun hash => (tx.rows hash).filter fun row => row.loc.blockFileNum ∉ files
            pendingDelFileNums := tx.pendingDelFileNums ++ files } }
    | _ => none
  | .rollback =>
    match s.phase with
    | .building _ => some { s with phase := .idle }
    | _ => none
  | .commit needsFlush =>
    match s.phase with
    | .building tx => some { s with phase := .deleting tx needsFlush }
    | _ => none
  | .advance => s.advance fmt
  | .fail =>
    match s.phase with
    | .syncing _ | .flushing _ | .committing _ => some { s with phase := .idle }
    | _ => none
  | .close =>
    match s.phase with
    | .idle =>
      let s := s.syncBlocks
      some { s with persisted := s.current, isOpen := false, phase := .idle }
    | _ => none
  | .crash keep => s.crash keep

end Format

end IniNode.Ffldb
