import IniNode.Ffldb.BlockFiles
import IniNode.Lib.Run
/-!
# Blocks after a crash

The rows that LevelDB has name blocks that are synced, as long as no file with unsynced blocks is left for the next one:
`syncBlocks` syncs the file of the write cursor only. Pruning deletes files at once and their rows with the next flush, so a
crash in between leaves rows without a file.
-/

open IniNode.Lib List Option

namespace IniNode.Ffldb

open AList
variable {fmt : Format} {files files' : Files} {s s' : BlockDb} {phase : TxPhase}

/-! ## Reading a record back -/

theorem length_record (raw : List UInt8) : (fmt.record raw).length = raw.length + 12 := by
  simp [Format.record, fmt.network_length, fmt.lengthBytes_length, fmt.checksum_length]
  omega

theorem readBlock_of_has {row : BlockRow} {file : File} (hf : files.lookup row.loc.blockFileNum = some file)
    (hlen : row.loc.blockLen = row.raw.length + 12) (h : file.Has row.loc.fileOffset (fmt.record row.raw)) :
    readBlock fmt files row.loc = some row.raw := by
  have hread := h.read
  rw [length_record, ← hlen] at hread
  have hbody : (fmt.network ++ fmt.lengthBytes row.raw.length ++ row.raw).length = row.loc.blockLen - 4 := by
    simp only [length_append, fmt.network_length, fmt.lengthBytes_length]
    omega
  have hlen' : (fmt.record row.raw).length = row.loc.blockLen := (length_record row.raw).trans hlen.symm
  rw [readBlock, hf]
  dsimp only
  rw [hread, if_neg (by omega), if_neg, if_neg]
  · rw [Format.record, ← hbody, take_left, append_assoc, ← append_assoc, drop_left' ?_]
    simp [fmt.network_length, fmt.lengthBytes_length]
  · rw [Format.record, append_assoc, append_assoc, take_left' fmt.network_length]
    exact fun h => h rfl
  · rw [Format.record, ← hbody, take_left, drop_left]
    exact fun h => h rfl

/-! ## Where the blocks are -/

def Position.Le (a b : Position) : Prop := a.fileNum < b.fileNum ∨ a.fileNum = b.fileNum ∧ a.offset ≤ b.offset

def BlockLocation.Within (loc : BlockLocation) (pos : Position) : Prop :=
  Position.Le ⟨loc.blockFileNum, loc.fileOffset + loc.blockLen⟩ pos

theorem Position.Le.trans {a b c : Position} (h : a.Le b) (h' : b.Le c) : a.Le c := by
  rw [Position.Le] at *
  omega

theorem Position.Le.refl (a : Position) : a.Le a := .inr ⟨rfl, Nat.le_refl _⟩

/-- Every row is of a block that is in its file, within a bound and before the position, or of a pruned file. -/
def Placed (fmt : Format) (bound : File → Nat) (files : Files) (pruned : List Nat) (rows : Store Hash BlockRow)
    (pos : Position) : Prop :=
  ∀ hash row, rows hash = some row → row.loc.Within pos ∧ row.loc.blockLen = row.raw.length + 12 ∧
    (row.loc.blockFileNum ∈ pruned ∨ ∃ file, files.lookup row.loc.blockFileNum = some file ∧
      file.Has row.loc.fileOffset (fmt.record row.raw) ∧ row.loc.fileOffset + row.loc.blockLen ≤ bound file)

section Placed
variable {bound bound' : File → Nat} {pruned pruned' : List Nat} {rows rows' : Store Hash BlockRow} {pos pos' : Position}

section

variable (h : Placed fmt bound files pruned rows pos)

include h

theorem Placed.mono (hpos : pos.Le pos') (hpruned : ∀ f ∈ pruned, f ∈ pruned')
    (hfiles : ∀ f file, files.lookup f = some file → f ∈ pruned' ∨ ∃ file', files'.lookup f = some file' ∧
      bound file ≤ bound' file' ∧ ∀ off data, off + data.length ≤ bound file → file.Has off data →
      file'.Has off data) :
    Placed fmt bound' files' pruned' rows pos' := by
  intro hash row hrow
  obtain ⟨hwithin, hlen, hp | ⟨file, hf, hhas, hle⟩⟩ := h hash row hrow
  · exact ⟨hwithin.trans hpos, hlen, .inl (hpruned _ hp)⟩
  · refine ⟨hwithin.trans hpos, hlen, (hfiles _ file hf).imp_right ?_⟩
    rintro ⟨file', hf', hbound, hkeep⟩
    exact ⟨file', hf', hkeep _ _ (by rwa [length_record, ← hlen]) hhas, Nat.le_trans hle hbound⟩

theorem Placed.le_pos (hpos : pos.Le pos') : Placed fmt bound files pruned rows pos' :=
  h.mono hpos (fun _ hf => hf) fun _ file hf => .inr ⟨file, hf, Nat.le_refl _, fun _ _ _ hh => hh⟩

theorem Placed.le_bound
    (hb : ∀ f file, files.lookup f = some file → bound file ≤ bound' file) : Placed fmt bound' files pruned rows pos :=
  h.mono (.refl _) (fun _ hf => hf) fun f file hf => .inr ⟨file, hf, hb f file hf, fun _ _ _ hh => hh⟩

theorem Placed.write {w : File → File} (hpos : pos.Le pos') (hb : ∀ g, bound g ≤ bound (w g))
    (hw : ∀ {g : File} {off data}, g.Has off data → (w g).Has off data) (n : Nat) :
    Placed fmt bound (files.insert n (w (openWriteFile files n))) pruned rows pos' := by
  refine h.mono hpos (fun _ hf => hf) fun f file hf => .inr ?_
  by_cases hn : f = n
  · subst hn
    rw [openWriteFile, hf]
    exact ⟨_, lookup_insert _, hb file, fun _ _ _ hh => hw hh⟩
  · exact ⟨file, by rwa [lookup_insert_ne hn], Nat.le_refl _, fun _ _ _ hh => hh⟩

theorem Placed.append (hpos : pos.Le pos') (hb : ∀ (g : File) data, bound g ≤ bound (g.writeAt g.size data)) (n : Nat)
    (data : List UInt8) :
    Placed fmt bound (files.insert n ((openWriteFile files n).writeAt (openWriteFile files n).size data)) pruned rows
      pos' :=
  @Placed.write _ _ _ _ _ _ _ h (fun g => g.writeAt g.size data) hpos (hb · data) (fun hh => hh.append) n

theorem Placed.sync (hb : ∀ g : File, bound g ≤ bound g.sync) (n : Nat) :
    Placed fmt bound (files.insert n (openWriteFile files n).sync) pruned rows pos :=
  h.write (.refl _) hb (fun hh => hh.sync) n

theorem Placed.erase (n : Nat) : Placed fmt bound (files.erase n) (n :: pruned) rows pos := by
  refine h.mono (.refl _) (fun _ hf => mem_cons_of_mem _ hf) fun f file hf => ?_
  by_cases hn : f = n
  · exact .inl (hn ▸ mem_cons_self)
  · exact .inr ⟨file, by rwa [lookup_erase_ne hn], Nat.le_refl _, fun _ _ _ hh => hh⟩

theorem Placed.of_rows
    (hrows : ∀ hash row, rows' hash = some row → rows hash = some row) : Placed fmt bound files pruned rows' pos :=
  fun hash row hrow => h hash row (hrows hash row hrow)

end

end Placed

/-! ## What every step keeps -/

/-- The rows of the transaction, and the files it wants to delete. -/
def TxOk (fmt : Format) (s : BlockDb) (tx : Tx) : Prop :=
  Placed fmt SyncedFile.size s.files s.pruned tx.rows s.cursor ∧ ∀ f ∈ tx.pendingDelFileNums, f < s.cursor.fileNum

def AllSynced (s : BlockDb) : Prop := ∀ f file, s.files.lookup f = some file → file.Synced

def PhaseOk (fmt : Format) (s : BlockDb) : Prop :=
  match s.phase with
  | .idle => True
  | .building tx | .deleting tx _ | .writing tx _ | .syncing tx | .storing tx => TxOk fmt s tx
  | .flushing tx | .committing tx => TxOk fmt s tx ∧ AllSynced s

/-- Files, cursor and rows belong together. -/
structure Kept (fmt : Format) (s : BlockDb) : Prop where
  top : ∀ f file, s.files.lookup f = some file → f ≤ s.cursor.fileNum
  size : ∀ file, s.files.lookup s.cursor.fileNum = some file → file.size = s.cursor.offset
  fresh : s.files.lookup s.cursor.fileNum = none → s.cursor = ⟨0, 0⟩
  synced : ∀ f file, s.files.lookup f = some file → f ≠ s.cursor.fileNum ∨ s.isOpen = false → file.Synced
  present : ∀ f, 0 < f → f < s.cursor.fileNum → s.files.lookup f = none → f ∈ s.pruned
  pruned : ∀ f ∈ s.pruned, f < s.cursor.fileNum
  persisted : Placed fmt SyncedFile.synced s.files s.pruned s.persisted.rows s.persisted.writeRow
  current : Placed fmt SyncedFile.size s.files s.pruned s.current.rows s.current.writeRow
  behind : s.current.writeRow.Le s.cursor
  phase : PhaseOk fmt s

theorem kept_init : Kept fmt {} where
  top := by rintro _ _ ⟨⟩
  size := by rintro _ ⟨⟩
  fresh _ := rfl
  synced := by rintro _ _ ⟨⟩
  present _ _ h := absurd h (Nat.not_lt_zero _)
  pruned := by rintro _ ⟨⟩
  persisted := by rintro _ _ ⟨⟩
  current := by rintro _ _ ⟨⟩
  behind := .refl _
  phase := trivial

theorem Kept.of_phase (h : Kept fmt s) (hp : PhaseOk fmt { s with phase := phase }) :
    Kept fmt { s with phase := phase } :=
  { h with phase := hp }

/-! ### Writing a block -/

def writePosition (fmt : Format) (s : BlockDb) (raw : List UInt8) : Position :=
  if fmt.maxBlockFileSize < s.cursor.offset + (raw.length + 12) then ⟨s.cursor.fileNum + 1, 0⟩ else s.cursor

variable {raw : List UInt8} {n : Nat}

/-- The file of the write cursor is synced, if the block goes to the next one. -/
def LeavesSynced (fmt : Format) (s : BlockDb) (raw : List UInt8) : Prop :=
  fmt.maxBlockFileSize < s.cursor.offset + (raw.length + 12) →
    ∀ file, s.files.lookup s.cursor.fileNum = some file → file.Synced

theorem writeBlock_eq (s : BlockDb) (raw : List UInt8) : s.writeBlock fmt raw =
      ({ s with
          files := s.files.insert (writePosition fmt s raw).fileNum
            ((openWriteFile s.files (writePosition fmt s raw).fileNum).writeAt (writePosition fmt s raw).offset
              (fmt.record raw))
          cursor := ⟨(writePosition fmt s raw).fileNum, (writePosition fmt s raw).offset + (raw.length + 12)⟩
          isOpen := true },
        ⟨(writePosition fmt s raw).fileNum, (writePosition fmt s raw).offset, raw.length + 12⟩) := rfl

theorem writePosition_cases (h : LeavesSynced fmt s raw) :
    writePosition fmt s raw = s.cursor ∨ writePosition fmt s raw = ⟨s.cursor.fileNum + 1, 0⟩ ∧
      ∀ file, s.files.lookup s.cursor.fileNum = some file → file.Synced := by
  rw [writePosition]
  split
  next hfull => exact .inr ⟨rfl, h hfull⟩
  next => exact .inl rfl

theorem Kept.size_write (h : Kept fmt s) {p : Position} (hp : p = s.cursor ∨ p = ⟨s.cursor.fileNum + 1, 0⟩) :
    (openWriteFile s.files p.fileNum).size = p.offset := by
  rw [openWriteFile]
  cases hf : s.files.lookup p.fileNum with
  | none =>
    obtain rfl | rfl := hp
    · rw [h.fresh hf]
      rfl
    · rfl
  | some file =>
    obtain rfl | rfl := hp
    · exact h.size file hf
    · exact absurd (h.top _ _ hf) (Nat.not_succ_le_self _)

theorem Kept.writeBlock (h : Kept fmt s) {tx : Tx} {hash : Hash} {rest : List (Hash × List UInt8)} {needsFlush : Bool}
    (htx : TxOk fmt s tx) (hleave : LeavesSynced fmt s raw) :
    Kept fmt
      { (s.writeBlock fmt raw).1 with
        phase := .writing
          { tx with rows := tx.rows.write ⟨hash, some ⟨(s.writeBlock fmt raw).2, raw⟩⟩, pendingBlocks := rest }
          needsFlush } := by
  have hcases := writePosition_cases hleave
  have hsize := h.size_write (hcases.imp_right And.left)
  rw [writeBlock_eq]
  generalize writePosition fmt s raw = p at hcases hsize
  obtain ⟨n, off⟩ := p
  dsimp only at hsize ⊢
  subst hsize
  have hle : s.cursor.Le ⟨n, (openWriteFile s.files n).size + (raw.length + 12)⟩ := by
    obtain heq | ⟨heq, -⟩ := hcases
    · rw [← heq]
      exact .inr ⟨rfl, Nat.le_add_right _ _⟩
    · obtain ⟨rfl, -⟩ := Position.mk.inj heq
      exact .inl (Nat.lt_succ_self _)
  have hn : s.cursor.fileNum ≤ n := hle.elim Nat.le_of_lt fun h => Nat.le_of_eq h.1
  have hsz : ∀ (g : File) data, g.size ≤ (g.writeAt g.size data).size := fun g data => by
    rw [SyncedFile.size_writeAt_size]
    exact Nat.le_add_right _ _
  constructor
  case top =>
    intro f file hf
    obtain ⟨rfl, -⟩ | hf := lookup_of_insert hf
    · exact Nat.le_refl _
    · exact Nat.le_trans (h.top f file hf) hn
  case size =>
    intro file hf
    rw [lookup_insert] at hf
    cases hf
    rw [SyncedFile.size_writeAt_size, length_record]
  case fresh => simp [lookup_insert]
  case synced =>
    intro f file hf hor
    obtain hne | hopen := hor
    · rw [lookup_insert_ne hne] at hf
      obtain heq | ⟨-, hsynced⟩ := hcases
      · exact h.synced f file hf (.inl (heq ▸ hne))
      · by_cases hcur : f = s.cursor.fileNum
        · exact hsynced file (hcur ▸ hf)
        · exact h.synced f file hf (.inl hcur)
    · cases hopen
  case present =>
    intro f hpos hlt hf
    rw [lookup_insert_ne (Nat.ne_of_lt hlt)] at hf
    obtain heq | ⟨heq, -⟩ := hcases
    · exact h.present f hpos (heq ▸ hlt) hf
    · obtain rfl : n = s.cursor.fileNum + 1 := congrArg Position.fileNum heq
      obtain hlt | rfl := Nat.lt_succ_iff_lt_or_eq.1 hlt
      · exact h.present f hpos hlt hf
      · rw [h.fresh hf] at hpos
        cases hpos
  case pruned => exact fun f hf => Nat.lt_of_lt_of_le (h.pruned f hf) hn
  case persisted => exact h.persisted.append (.refl _) (fun g data => Nat.le_of_eq SyncedFile.synced_writeAt_size.symm) _ _
  case current => exact h.current.append (.refl _) hsz _ _
  case behind => exact h.behind.trans hle
  case phase =>
    refine ⟨fun x row hrow => ?_, fun f hf => Nat.lt_of_lt_of_le (htx.2 f hf) hn⟩
    obtain ⟨-, ⟨⟩⟩ | ⟨-, hrow⟩ := Store.of_write hrow
    · refine ⟨.refl _, rfl, .inr ⟨_, lookup_insert _, SyncedFile.has_appended, ?_⟩⟩
      rw [SyncedFile.size_writeAt_size, length_record]
    · exact htx.1.append hle hsz _ _ x row hrow

/-! ### Syncing and deleting files -/

theorem TxOk.syncBlocks {tx : Tx} (h : TxOk fmt s tx) : TxOk fmt s.syncBlocks tx := by
  rw [BlockDb.syncBlocks]
  split
  · exact ⟨h.1.sync (fun _ => Nat.le_refl _) _, h.2⟩
  · exact h

theorem Kept.syncBlocks (h : Kept fmt s) (hp : PhaseOk fmt { s.syncBlocks with phase := phase }) :
    Kept fmt { s.syncBlocks with phase := phase } := by
  rw [BlockDb.syncBlocks] at hp ⊢
  split
  next hopen =>
    rw [if_pos hopen] at hp
    constructor
    case top =>
      intro f file hf
      obtain ⟨rfl, -⟩ | hf := lookup_of_insert hf
      · exact Nat.le_refl _
      · exact h.top f file hf
    case size =>
      intro file hf
      rw [lookup_insert] at hf
      cases hf
      exact h.size_write (.inl rfl)
    case fresh => simp [lookup_insert]
    case synced =>
      intro f file hf hor
      obtain ⟨rfl, rfl⟩ | hf := lookup_of_insert hf
      · rfl
      · exact h.synced f file hf hor
    case present =>
      intro f hpos hlt hf
      rw [lookup_insert_ne (Nat.ne_of_lt hlt)] at hf
      exact h.present f hpos hlt hf
    case pruned => exact h.pruned
    case persisted => exact h.persisted.sync SyncedFile.synced_le _
    case current => exact h.current.sync (fun _ => Nat.le_refl _) _
    case behind => exact h.behind
    case phase => exact hp
  next hopen =>
    rw [if_neg hopen] at hp
    exact h.of_phase hp

theorem Kept.allSynced (h : Kept fmt s) : AllSynced s.syncBlocks := by
  rw [BlockDb.syncBlocks]
  split
  next hopen =>
    intro f file hf
    by_cases hcur : f = s.cursor.fileNum
    · rw [hcur, lookup_insert] at hf
      cases hf
      rfl
    · rw [lookup_insert_ne hcur] at hf
      exact h.synced f file hf (.inl hcur)
  next hopen =>
    intro f file hf
    exact h.synced f file hf (.inr (by simpa using hopen))

theorem Kept.erase (h : Kept fmt s) (hn : n < s.cursor.fileNum)
    (hp : PhaseOk fmt { s with files := s.files.erase n, pruned := n :: s.pruned, phase := phase }) :
    Kept fmt { s with files := s.files.erase n, pruned := n :: s.pruned, phase := phase } := by
  have hcur : (s.files.erase n).lookup s.cursor.fileNum = s.files.lookup s.cursor.fileNum :=
    lookup_erase_ne (Nat.ne_of_gt hn)
  constructor
  case top => exact fun f file hf => h.top f file (lookup_of_erase hf)
  case size => exact fun file hf => h.size file (hcur ▸ hf)
  case fresh => exact fun hf => h.fresh (hcur ▸ hf)
  case synced => exact fun f file hf hor => h.synced f file (lookup_of_erase hf) hor
  case present =>
    intro f hpos hlt hf
    by_cases hfn : f = n
    · exact hfn ▸ mem_cons_self
    · rw [lookup_erase_ne hfn] at hf
      exact mem_cons_of_mem _ (h.present f hpos hlt hf)
  case pruned => exact forall_mem_cons.2 ⟨hn, h.pruned⟩
  case persisted => exact h.persisted.erase n
  case current => exact h.current.erase n
  case behind => exact h.behind
  case phase => exact hp

/-! ### Pruning -/

theorem lt_of_mem_pruneLoop {maxSize target n i total f : Nat} (h : f ∈ BlockDb.pruneLoop maxSize target n i total) :
    f < i + n := by
  induction n generalizing i total with
  | zero => cases h
  | succ n ih =>
    obtain rfl | h := mem_cons.1 h
    · omega
    · split at h
      · cases h
      · have := ih h
        omega

theorem exists_lookup_of_mem_keys (h : n ∈ files.keys) : ∃ file, files.lookup n = some file :=
  isSome_iff_exists.1 (lookup_isSome.2 h)

theorem Kept.lt_of_filesToPrune (h : Kept fmt s) {target f : Nat} (hf : f ∈ s.filesToPrune fmt target) :
    f < s.cursor.fileNum := by
  rw [BlockDb.filesToPrune] at hf
  split at hf
  · cases hf
  · split at hf
    · cases hf
    next first last lastFileSize hscan =>
      dsimp only at hf
      split at hf
      · cases hf
      next hne =>
        rw [scanBlockFiles] at hscan
        split at hscan
        next first' last' hmin hmax =>
          cases hscan
          obtain ⟨file, hlast⟩ := exists_lookup_of_mem_keys (max?_mem hmax)
          have hle := h.top _ file hlast
          have hlt := lt_of_mem_pruneLoop hf
          have hfirst : first ≤ last := by
            exact max?_le_iff hmax |>.1 (Nat.le_refl _) _ (min?_mem hmin)
          omega
        next => cases hscan

/-! ### Steps of a transaction -/

/-- A block that goes to the next file leaves a synced one, and at a crash LevelDB knows of every file that was pruned: no
row names it and the write position is behind it. -/
def Guarded (fmt : Format) (s : BlockDb) : DbStep → Prop
  | .advance => ∀ tx needsFlush hash raw rest, s.phase = .writing tx needsFlush →
    tx.pendingBlocks = (hash, raw) :: rest → LeavesSynced fmt s raw
  | .crash _ => ∀ f ∈ s.pruned, f < s.persisted.writeRow.fileNum ∧
    ∀ hash row, s.persisted.rows hash = some row → row.loc.blockFileNum ≠ f
  | _ => True

theorem Kept.advance (h : Kept fmt s) (hok : Guarded fmt s .advance) (hs : s.advance fmt = some s') : Kept fmt s' := by
  have hphase := h.phase
  rw [PhaseOk] at hphase
  rw [BlockDb.advance] at hs
  split at hs
  next => cases hs
  next => cases hs
  next tx needsFlush hp =>
    rw [hp] at hphase
    split at hs
    · cases hs
      exact h.of_phase hphase
    next n rest hdel =>
      have hn : n < s.cursor.fileNum := hphase.2 n (hdel ▸ mem_cons_self)
      split at hs
      · cases hs
        refine h.erase hn ⟨hphase.1.erase n, fun f hf => hphase.2 f ?_⟩
        rw [hdel]
        exact mem_cons_of_mem _ hf
      · cases hs
        exact h.of_phase trivial
  next tx needsFlush hp =>
    rw [hp] at hphase
    split at hs
    · cases hs
      refine h.of_phase ?_
      cases needsFlush <;> exact hphase
    next hash raw rest hblocks =>
      cases hs
      exact h.writeBlock hphase (hok tx needsFlush hash raw rest hp hblocks)
  next tx hp =>
    rw [hp] at hphase
    cases hs
    exact h.syncBlocks ⟨hphase.syncBlocks, h.allSynced⟩
  next tx hp =>
    rw [hp] at hphase
    cases hs
    refine { h with persisted := ?_, phase := hphase }
    exact h.current.le_bound fun f file hf => Nat.le_of_eq (hphase.2 f file hf).symm
  next tx hp =>
    rw [hp] at hphase
    cases hs
    refine { h with persisted := ?_, current := hphase.1.1, behind := .refl _, phase := trivial }
    exact hphase.1.1.le_bound fun f file hf => Nat.le_of_eq (hphase.2 f file hf).symm
  next tx hp =>
    rw [hp] at hphase
    cases hs
    exact { h with current := hphase.1, behind := .refl _, phase := trivial }

/-! ## A crash -/

section Crash
variable {keep : Nat → Nat}

theorem lookup_crashFiles (files : Files) (keep : Nat → Nat) (n : Nat) :
    (BlockDb.crashFiles files keep).lookup n = (files.lookup n).map fun file => file.crash (keep n) := by
  obtain ⟨entries, hnd⟩ := files
  show dlookup n (entries.map fun p => (⟨p.1, p.2.crash (keep p.1)⟩ : (_ : Nat) × File)) =
    (dlookup n entries).map fun file => file.crash (keep n)
  clear hnd
  induction entries with
  | nil => rfl
  | cons p entries ih =>
    obtain ⟨k, file⟩ := p
    rw [map_cons]
    by_cases hk : n = k
    · subst hk
      rw [dlookup_cons_eq, dlookup_cons_eq]
      rfl
    · rw [dlookup_cons_ne _ _ hk, dlookup_cons_ne _ _ hk, ih]

theorem newBlockStore_of_top {file : File} (hn : files.lookup n = some file)
    (htop : ∀ f g, files.lookup f = some g → f ≤ n) : BlockDb.newBlockStore files = ⟨n, file.size⟩ := by
  have hmem : n ∈ files.keys := lookup_isSome.1 (hn ▸ rfl)
  have hmax : files.keys.max? = some n := by
    refine max?_eq_some_iff.2 ⟨hmem, fun f hf => ?_⟩
    obtain ⟨g, hg⟩ := exists_lookup_of_mem_keys hf
    exact htop f g hg
  obtain ⟨first, hmin⟩ : ∃ first, files.keys.min? = some first :=
    isSome_iff_exists.1 (isSome_min?_of_mem hmem)
  rw [BlockDb.newBlockStore, scanBlockFiles, hmin, hmax]
  dsimp only
  rw [openWriteFile, hn, getD_some]

theorem newBlockStore_of_none (h : ∀ f, files.lookup f = none) : BlockDb.newBlockStore files = ⟨0, 0⟩ := by
  have hkeys : files.keys = [] := eq_nil_iff_forall_not_mem.2 fun f hf => by
    obtain ⟨g, hg⟩ := exists_lookup_of_mem_keys hf
    rw [h f] at hg
    cases hg
  rw [BlockDb.newBlockStore, scanBlockFiles, hkeys]
  rfl

theorem deleteAbove_eq {fileNum above : Nat} (h : ∀ f, fileNum < f → f ≤ fileNum + above → (files.lookup f).isSome) :
    ∃ files', BlockDb.deleteAbove fileNum above files = some files' ∧
      ∀ f, files'.lookup f = if fileNum < f ∧ f ≤ fileNum + above then none else files.lookup f := by
  induction above generalizing files with
  | zero => exact ⟨files, rfl, fun f => by rw [if_neg (by omega)]⟩
  | succ above ih =>
    have hne : ∀ f, f ≠ fileNum + above + 1 → (files.erase (fileNum + above + 1)).lookup f = files.lookup f :=
      fun f hf => lookup_erase_ne hf
    obtain ⟨files', heq, hlookup⟩ := @ih (files.erase (fileNum + above + 1)) fun f hlt hle => by
      rw [hne f (by omega)]
      exact h f hlt (by omega)
    refine ⟨files', ?_, fun f => ?_⟩
    · rw [BlockDb.deleteAbove, if_pos (h _ (by omega) (by omega)), heq]
    · rw [hlookup f]
      by_cases hf : f = fileNum + above + 1
      · subst hf
        rw [if_neg (by omega), if_pos (by omega), lookup_erase]
      · rw [hne f hf]
        split
        · rw [if_pos (by omega)]
        · rw [if_neg (by omega)]

theorem Kept.handleRollback (h : Kept fmt s) (hphase : s.phase = .idle) (hsynced : AllSynced s)
    (hcur : s.current = s.persisted) (hpruned : ∀ f ∈ s.pruned, f < s.persisted.writeRow.fileNum) :
    Kept fmt (s.handleRollback s.persisted.writeRow) := by
  have hle : s.persisted.writeRow.Le s.cursor := hcur ▸ h.behind
  have hplaced := h.persisted
  generalize hW : s.persisted.writeRow = W at hle hpruned hplaced
  have hnum : W.fileNum + (s.cursor.fileNum - W.fileNum) = s.cursor.fileNum := by
    rw [Position.Le] at hle
    omega
  -- every file above the rollback point is there
  have hsome : ∀ f, W.fileNum < f → f ≤ W.fileNum + (s.cursor.fileNum - W.fileNum) → (s.files.lookup f).isSome := by
    intro f hlt hf
    rw [hnum] at hf
    by_contra hnone
    rw [not_isSome_iff_eq_none] at hnone
    obtain hf | rfl := Nat.lt_or_eq_of_le hf
    · have := hpruned f (h.present f (by omega) hf hnone)
      omega
    · rw [h.fresh hnone] at hlt
      exact absurd hlt (Nat.not_lt_zero _)
  obtain ⟨files', hdel, hlookup⟩ := deleteAbove_eq hsome
  rw [hnum] at hlookup
  have hbelow : ∀ f ≤ W.fileNum, files'.lookup f = s.files.lookup f := by
    intro f hf
    rw [hlookup f, if_neg (by omega)]
  rw [BlockDb.handleRollback, hdel]
  have hrows : Placed fmt SyncedFile.synced
      (files'.insert W.fileNum ((openWriteFile files' W.fileNum).truncate W.offset).sync) s.pruned s.persisted.rows W := by
    intro hash row hrow
    obtain ⟨hwithin, hlen, hfile⟩ := hplaced hash row hrow
    refine ⟨hwithin, hlen, hfile.imp_right ?_⟩
    rintro ⟨file, hf, hhas, hbound⟩
    obtain hlt | ⟨heq, hend⟩ := hwithin
    · refine ⟨file, ?_, hhas, hbound⟩
      rw [lookup_insert_ne (Nat.ne_of_lt hlt), hbelow _ (Nat.le_of_lt hlt), hf]
    · dsimp only at heq hend
      rw [heq] at hf ⊢
      refine ⟨_, lookup_insert _, ?_, ?_⟩
      · rw [openWriteFile, hbelow _ (Nat.le_refl _), hf]
        exact (hhas.truncate (by rwa [length_record, ← hlen])).sync
      · show _ ≤ SyncedFile.size _
        rwa [SyncedFile.size_truncate]
  constructor
  case top =>
    intro f file hf
    obtain ⟨rfl, -⟩ | hf := lookup_of_insert hf
    · exact Nat.le_refl _
    · rw [hlookup f] at hf
      split at hf
      · cases hf
      next hout =>
        have := h.top f file hf
        by_contra hgt
        exact hout ⟨Nat.lt_of_not_le hgt, this⟩
  case size =>
    intro file hf
    rw [lookup_insert] at hf
    cases hf
    exact SyncedFile.size_truncate
  case fresh => simp [lookup_insert]
  case synced =>
    intro f file hf _
    obtain ⟨rfl, rfl⟩ | hf := lookup_of_insert hf
    · rfl
    · rw [hlookup f] at hf
      split at hf
      · cases hf
      · exact hsynced f file hf
  case present =>
    intro f hpos hlt hf
    rw [lookup_insert_ne (Nat.ne_of_lt hlt), hbelow f (Nat.le_of_lt hlt)] at hf
    exact h.present f hpos (by dsimp only at hlt; omega) hf
  case pruned => exact hpruned
  case persisted =>
    rw [hW]
    exact hrows
  case current =>
    rw [hcur, hW]
    exact hrows.le_bound fun _ file _ => file.synced_le
  case behind =>
    rw [hcur, hW]
    exact .refl _
  case phase =>
    rw [hphase]
    trivial

/-- The database before it is reconciled. -/
def reopened (s : BlockDb) (keep : Nat → Nat) : BlockDb where
  files := BlockDb.crashFiles s.files keep
  cursor := BlockDb.newBlockStore (BlockDb.crashFiles s.files keep)
  persisted := s.persisted
  current := s.persisted
  pruned := s.pruned

theorem allSynced_reopened (s : BlockDb) (keep : Nat → Nat) : AllSynced (reopened s keep) := by
  intro f file hf
  rw [reopened, lookup_crashFiles, map_eq_some_iff] at hf
  obtain ⟨g, -, rfl⟩ := hf
  rfl

theorem Kept.reopened (h : Kept fmt s) (hle : s.persisted.writeRow.Le (reopened s keep).cursor) :
    Kept fmt (reopened s keep) := by
  have hlookup := lookup_crashFiles s.files keep
  have htop : ∀ f g, (BlockDb.crashFiles s.files keep).lookup f = some g → f ≤ s.cursor.fileNum := by
    intro f g hg
    rw [hlookup, map_eq_some_iff] at hg
    obtain ⟨file, hf, -⟩ := hg
    exact h.top f file hf
  -- the cursor is at the end of the same file
  have hcursor : (Ffldb.reopened s keep).cursor.fileNum = s.cursor.fileNum ∧
      (∀ file, (BlockDb.crashFiles s.files keep).lookup s.cursor.fileNum = some file →
        file.size = (Ffldb.reopened s keep).cursor.offset) ∧
      ((BlockDb.crashFiles s.files keep).lookup s.cursor.fileNum = none →
        (Ffldb.reopened s keep).cursor = ⟨0, 0⟩) := by
    cases hc : (BlockDb.crashFiles s.files keep).lookup s.cursor.fileNum with
    | some file =>
      have heq : (Ffldb.reopened s keep).cursor = ⟨s.cursor.fileNum, file.size⟩ := newBlockStore_of_top hc htop
      rw [heq]
      exact ⟨rfl, by rintro _ ⟨⟩; rfl, by rintro ⟨⟩⟩
    | none =>
      have hnone : s.files.lookup s.cursor.fileNum = none := by
        rwa [hlookup, map_eq_none_iff] at hc
      have hzero := h.fresh hnone
      have heq : (Ffldb.reopened s keep).cursor = ⟨0, 0⟩ := by
        refine newBlockStore_of_none fun f => ?_
        by_contra hsome
        obtain ⟨g, hg⟩ := ne_none_iff_exists'.1 hsome
        have hf := htop f g hg
        rw [hzero] at hf hc
        obtain rfl : f = 0 := Nat.le_zero.1 hf
        rw [hc] at hg
        cases hg
      rw [heq, hzero]
      exact ⟨rfl, by rintro _ ⟨⟩, fun _ => rfl⟩
  obtain ⟨hnum, hsize, hfresh⟩ := hcursor
  have hrows : Placed fmt SyncedFile.synced (BlockDb.crashFiles s.files keep) s.pruned s.persisted.rows
      s.persisted.writeRow := by
    refine h.persisted.mono (.refl _) (fun _ hf => hf) fun f file hf => .inr ⟨file.crash (keep f), ?_, ?_, ?_⟩
    · rw [hlookup, hf]
      rfl
    · show file.synced ≤ (file.content.take _).length
      rw [length_take]
      exact Nat.le_min.2 ⟨Nat.le_max_left _ _, file.synced_le⟩
    · exact fun _ _ hs hh => hh.crash hs _
  constructor
  case top => exact fun f file hf => hnum ▸ htop f file hf
  case size => exact fun file hf => hsize file (hnum ▸ hf)
  case fresh => exact fun hf => hfresh (hnum ▸ hf)
  case synced => exact fun f file hf _ => allSynced_reopened s keep f file hf
  case present =>
    intro f hpos hlt hf
    rw [Ffldb.reopened, hlookup, map_eq_none_iff] at hf
    exact h.present f hpos (hnum ▸ hlt) hf
  case pruned => exact fun f hf => hnum ▸ h.pruned f hf
  case persisted => exact hrows
  case current => exact hrows.le_bound fun _ file _ => file.synced_le
  case behind => exact hle
  case phase => trivial

theorem le_of_before {a b : Position} (h : a.before b) : a.Le b := by
  simp only [Position.before, Bool.or_eq_true, Bool.and_eq_true, decide_eq_true_eq] at h
  rw [Position.Le]
  omega

theorem le_of_not_before {a b : Position} (h : ¬ a.before b) : b.Le a := by
  simp only [Position.before, Bool.or_eq_true, Bool.and_eq_true, decide_eq_true_eq] at h
  rw [Position.Le]
  omega

theorem handleRollback_frame (s : BlockDb) (old : Position) :
    (s.handleRollback old).persisted = s.persisted ∧ (s.handleRollback old).current = s.current ∧
      (s.handleRollback old).pruned = s.pruned := by
  rw [BlockDb.handleRollback]
  split <;> exact ⟨rfl, rfl, rfl⟩

theorem Kept.crash (h : Kept fmt s) (hok : Guarded fmt s (.crash keep)) (hs : s.crash keep = some s') :
    Kept fmt s' ∧ s'.persisted = s.persisted ∧ s'.current = s.persisted ∧ s'.pruned = s.pruned := by
  change BlockDb.reconcileDB (Ffldb.reopened s keep) = some s' at hs
  rw [BlockDb.reconcileDB] at hs
  split at hs
  next hbefore =>
    have hr : Kept fmt (Ffldb.reopened s keep) := h.reopened (le_of_before hbefore)
    have hback := hr.handleRollback rfl (allSynced_reopened s keep) rfl fun f hf => (hok f hf).1
    obtain ⟨hp, hc, hpr⟩ := handleRollback_frame (Ffldb.reopened s keep) (Ffldb.reopened s keep).persisted.writeRow
    split at hs
    · cases hs
    · cases hs
      exact ⟨hback, hp, hc, hpr⟩
  next hbefore =>
    split at hs
    · cases hs
    next hafter =>
      cases hs
      exact ⟨h.reopened (le_of_not_before hafter), rfl, rfl, rfl⟩

end Crash

/-! ## Runs -/

theorem Kept.step (h : Kept fmt s) {a : DbStep} (hok : Guarded fmt s a) (hs : s.step fmt a = some s') : Kept fmt s' := by
  have hphase := h.phase
  rw [PhaseOk] at hphase
  cases a with
  | begin =>
    rw [BlockDb.step] at hs
    split at hs
    · cases hs
      exact h.of_phase ⟨h.current.le_pos h.behind, by rintro _ ⟨⟩⟩
    · cases hs
  | storeBlock hash raw =>
    rw [BlockDb.step] at hs
    split at hs
    next tx hp =>
      rw [hp] at hphase
      split at hs
      · cases hs
        exact h
      · cases hs
        exact h.of_phase hphase
    next => cases hs
  | deleteBlock hash =>
    rw [BlockDb.step] at hs
    split at hs
    next tx hp =>
      rw [hp] at hphase
      cases hs
      refine h.of_phase ⟨hphase.1.of_rows fun x row hrow => ?_, hphase.2⟩
      obtain ⟨-, ⟨⟩⟩ | ⟨-, hrow⟩ := Store.of_write hrow
      exact hrow
    next => cases hs
  | pruneBlocks target =>
    rw [BlockDb.step] at hs
    split at hs
    next tx hp =>
      rw [hp] at hphase
      cases hs
      refine h.of_phase ⟨hphase.1.of_rows fun x row hrow => (filter_eq_some_iff.1 hrow).1, ?_⟩
      exact forall_mem_append.2 ⟨hphase.2, fun _ => h.lt_of_filesToPrune⟩
    next => cases hs
  | rollback =>
    rw [BlockDb.step] at hs
    split at hs
    · cases hs
      exact h.of_phase trivial
    · cases hs
  | commit needsFlush =>
    rw [BlockDb.step] at hs
    split at hs
    next tx hp =>
      rw [hp] at hphase
      cases hs
      exact h.of_phase hphase
    next => cases hs
  | advance => exact h.advance hok hs
  | fail =>
    rw [BlockDb.step] at hs
    split at hs
    · cases hs
      exact h.of_phase trivial
    · cases hs
      exact h.of_phase trivial
    · cases hs
      exact h.of_phase trivial
    · cases hs
  | close =>
    rw [BlockDb.step] at hs
    split at hs
    next hp =>
      cases hs
      have hk : Kept fmt { s.syncBlocks with phase := .idle } := h.syncBlocks trivial
      have hall := h.allSynced
      refine ⟨hk.top, hk.size, hk.fresh, fun f file hf _ => hall f file hf, hk.present, hk.pruned, ?_, hk.current,
        hk.behind, trivial⟩
      exact hk.current.le_bound fun f file hf => Nat.le_of_eq (hall f file hf).symm
    next => cases hs
  | crash keep => exact (h.crash hok hs).1

/-- In every run that leaves no file unsynced, after a crash at which LevelDB knows of the pruned files the database, if it
opens, reads back every block that has a row in LevelDB. -/
theorem blocks_survive_crash {steps : List DbStep} {keep : Nat → Nat}
    (hok : Along (BlockDb.step fmt) (Guarded fmt) {} steps) (hr : run (BlockDb.step fmt) {} steps = some s)
    (hcrash : Guarded fmt s (.crash keep)) (hs : s.step fmt (.crash keep) = some s') :
    ∀ hash row, s'.persisted.rows hash = some row → s'.fetchBlock fmt hash = some row.raw := by
  have hkept : Kept fmt s := run_invariant (fun _ _ _ h hok hs => h.step hok hs) kept_init hok hr
  obtain ⟨hk, hp, hc, hpr⟩ := hkept.crash hcrash hs
  intro hash row hrow
  obtain ⟨-, hlen, hpruned | ⟨file, hf, hhas, -⟩⟩ := hk.persisted hash row hrow
  · rw [hpr] at hpruned
    rw [hp] at hrow
    exact absurd rfl ((hcrash _ hpruned).2 hash row hrow)
  · rw [BlockDb.fetchBlock, hc, ← hp, hrow]
    exact readBlock_of_has hf hlen hhas

/-! ## Two blocks in two files -/

/-- Files of 40 bytes, with a checksum that checks nothing. -/
def plainFormat : Format where
  maxBlockFileSize := 40
  network := [0xd9, 0xb4, 0xbe, 0xf9]
  lengthBytes n := [UInt8.ofNat n, 0, 0, 0]
  checksum _ := [0, 0, 0, 0]
  network_length := rfl
  lengthBytes_length _ := rfl
  checksum_length _ := rfl

/-- A block is stored and flushed, the next one goes to a new file, and its transaction is lost in the crash. -/
theorem blocks_survive_crash_rollover : ∃ s s', run (BlockDb.step plainFormat) {}
      [.begin, .storeBlock 7 [9], .commit true, .advance, .advance, .advance, .advance, .advance, .advance,
        .begin, .storeBlock 8 (replicate 20 8), .commit false, .advance, .advance] = some s ∧
    s.step plainFormat (.crash fun _ => 0) = some s' ∧ s'.persisted.rows 7 = some ⟨⟨0, 0, 13⟩, [9]⟩ ∧
    ∀ hash row, s'.persisted.rows hash = some row → s'.fetchBlock plainFormat hash = some row.raw := by
  refine exists_run_with rfl fun s hr => exists_run (by cases hr; rfl) fun s' hs => ⟨by cases hr; cases hs; rfl, ?_⟩
  refine blocks_survive_crash ?_ hr ?_ hs
  · iterate 3 refine .cons trivial rfl ?_
    refine .cons (by rintro _ _ _ _ _ ⟨⟩) rfl ?_
    refine ⟨?_, ?_⟩
    · rintro _ _ _ _ _ ⟨⟩ ⟨⟩ hfull
      exact absurd hfull (by decide)
    rintro _ ⟨⟩
    refine .cons (by rintro _ _ _ _ _ ⟨⟩ ⟨⟩) rfl ?_
    refine .cons (by rintro _ _ _ _ _ ⟨⟩) rfl ?_
    refine .cons (by rintro _ _ _ _ _ ⟨⟩) rfl ?_
    refine .cons (by rintro _ _ _ _ _ ⟨⟩) rfl ?_
    iterate 3 refine .cons trivial rfl ?_
    refine .cons (by rintro _ _ _ _ _ ⟨⟩) rfl ?_
    refine ⟨?_, fun _ _ => trivial⟩
    -- the first file was synced before the second block goes to the next one
    rintro _ _ _ _ _ ⟨⟩ ⟨⟩ - _ ⟨⟩
    rfl
  · cases hr
    rintro _ ⟨⟩

/-- A block is put into the cache, the next one goes to a new file, and both are written to LevelDB with only the new file
synced: the first block is lost. And a file is pruned while LevelDB has its row: the crash comes before the next flush. -/
theorem blocks_lost_in_crash : (∃ s s', run (BlockDb.step plainFormat) {}
        [.begin, .storeBlock 7 [9], .commit false, .advance, .advance, .advance, .advance,
          .begin, .storeBlock 8 (replicate 20 8), .commit true, .advance, .advance, .advance, .advance, .advance,
          .advance] = some s ∧
      s.step plainFormat (.crash fun _ => 0) = some s' ∧ s'.persisted.rows 7 = some ⟨⟨0, 0, 13⟩, [9]⟩ ∧
      s'.fetchBlock plainFormat 7 = none) ∧
    ∃ s s', run (BlockDb.step plainFormat) {}
        [.begin, .storeBlock 7 (replicate 20 7), .commit true, .advance, .advance, .advance, .advance, .advance,
          .advance, .begin, .storeBlock 8 (replicate 20 8), .commit true, .advance, .advance, .advance, .advance,
          .advance, .advance, .begin, .pruneBlocks 40, .commit false, .advance, .advance, .advance, .advance] = some s ∧
      s.step plainFormat (.crash fun _ => 0) = some s' ∧
      s'.persisted.rows 7 = some ⟨⟨0, 0, 32⟩, replicate 20 7⟩ ∧ s'.fetchBlock plainFormat 7 = none := by
  constructor
  · exact ⟨_, _, rfl, rfl, by decide +kernel, by decide +kernel⟩
  · exact ⟨_, _, rfl, rfl, by decide +kernel, by decide +kernel⟩

end IniNode.Ffldb
