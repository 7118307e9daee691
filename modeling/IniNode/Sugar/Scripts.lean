import IniNode.Sugar.Chain
/-!
# Scripts the index cannot take

`hashIndex` panics on a hash of more than 32 bytes. The only scripts with such a hash are the witness programs of version
0 and 1 with 33 to 40 bytes: no spending rule stands behind them, but a block may hold one. A block with its complete
journal is indexed, forwards and backwards, exactly if no output that it creates or spends has such a script.
-/

open List Option

namespace IniNode.Sugar

/-! ## Long programs -/

def witnessScript (op : UInt8) (program : List UInt8) : List UInt8 := op :: UInt8.ofNat program.length :: program

/-- A witness program of version 0 or 1 with more than 32 bytes. -/
def LongProgram (pkScript : List UInt8) : Prop :=
  ∃ op program, (op = 0x00 ∨ op = 0x51) ∧ 32 < program.length ∧ program.length ≤ 40 ∧
    pkScript = witnessScript op program

theorem extractWitnessProgramInfo_eq_some {script program : List UInt8} {version : Nat} :
    extractWitnessProgramInfo script = some (version, program) ↔
      ∃ op push, script = op :: push :: program ∧ (op = 0 ∨ 0x51 ≤ op ∧ op ≤ 0x60) ∧
        push.toNat = program.length ∧
        2 ≤ program.length ∧ program.length ≤ 40 ∧ version = if op = 0 then 0 else op.toNat - 0x50 := by
  unfold extractWitnessProgramInfo
  constructor
  · intro h
    split at h
    · cases h
    next hlen =>
      split at h
      next op push rest =>
        split at h
        next hop =>
          cases h
          simp only [length_cons] at hlen
          exact ⟨op, push, rfl, hop.1, hop.2, by omega, by omega, rfl⟩
        next => cases h
      next => cases h
  · rintro ⟨op, push, rfl, hop, hpush, hmin, hmax, rfl⟩
    rw [if_neg (by simp only [length_cons]; omega)]
    dsimp only
    rw [if_pos ⟨hop, hpush⟩]

/-- What `ExtractIndexInfo` finds, form by form. -/
inductive Form : AddrIndt → List UInt8 → List UInt8 → Prop
  | pubkeyAddress {hash} (h : hash.length = 20) : Form .pubkeyAddress hash ([0x76, 0xa9, 0x14] ++ hash ++ [0x88, 0xac])
  | scriptAddress {hash} (h : hash.length = 20) : Form .scriptAddress hash ([0xa9, 0x14] ++ hash ++ [0x87])
  | witnessV0ScriptHash {hash} (h : hash.length = 32) : Form .witnessV0ScriptHash hash ([0x00, 0x20] ++ hash)
  | witnessV0KeyHash {program} (hmin : 2 ≤ program.length) (hmax : program.length ≤ 40) (h : program.length ≠ 32) :
    Form .witnessV0KeyHash program (witnessScript 0x00 program)
  | witnessV1Taproot {program} (hmin : 2 ≤ program.length) (hmax : program.length ≤ 40) :
    Form .witnessV1Taproot program (witnessScript 0x51 program)

theorem eq_take_mid_drop {α : Type} (l : List α) (i j : Nat) : l = l.take i ++ (l.drop i).take j ++ l.drop (i + j) := by
  rw [append_assoc, ← drop_drop, take_append_drop, take_append_drop]

theorem eq_witnessScript {op push : UInt8} {program : List UInt8} (h : push.toNat = program.length) :
    op :: push :: program = witnessScript op program := by
  rw [witnessScript, ← h, UInt8.ofNat_toNat]

/-- The opcode of version 0 and of version 1. -/
theorem op_of_version {op : UInt8} (hop : op = 0 ∨ 0x51 ≤ op ∧ op ≤ 0x60) :
    ((0 = if op = 0 then 0 else op.toNat - 0x50) → op = 0) ∧
      ((1 = if op = 0 then 0 else op.toNat - 0x50) → op = 0x51) := by
  rcases hop with rfl | ⟨hmin, -⟩
  · simp
  · have hmin : 0x51 ≤ op.toNat := UInt8.le_iff_toNat_le.1 hmin
    have hne : op ≠ 0 := by
      rintro rfl
      simp at hmin
    rw [if_neg hne]
    refine ⟨fun h => by omega, fun h => UInt8.toNat_inj.1 ?_⟩
    change op.toNat = 0x51
    omega

variable {script hash : List UInt8} {t : AddrIndt}

theorem form_of_extractIndexInfo (h : extractIndexInfo script = some (t, hash)) :
    Form t hash script := by
  unfold extractIndexInfo at h
  split at h
  next hp =>
    cases h
    have hs := eq_take_mid_drop script 3 20
    rw [hp.2.1, hp.2.2] at hs
    conv => arg 3; rw [hs]
    refine .pubkeyAddress ?_
    simp [hp.1]
  next =>
    split at h
    next hp =>
      cases h
      have hs := eq_take_mid_drop script 2 20
      rw [hp.2.1, hp.2.2] at hs
      conv => arg 3; rw [hs]
      refine .scriptAddress ?_
      simp [hp.1]
    next =>
      split at h
      next hp =>
        cases h
        have hs := take_append_drop 2 script
        rw [hp.2] at hs
        conv => arg 3; rw [← hs]
        refine .witnessV0ScriptHash ?_
        simp [hp.1]
      next hp =>
        split at h
        next program hw =>
          cases h
          obtain ⟨op, push, rfl, hop, hpush, hmin, hmax, hv⟩ := extractWitnessProgramInfo_eq_some.1 hw
          obtain rfl : op = 0 := (op_of_version hop).1 hv
          rw [eq_witnessScript hpush]
          refine .witnessV0KeyHash hmin hmax fun h32 => hp ⟨by simp [h32], ?_⟩
          rw [UInt8.toNat_inj.1 (hpush.trans h32 : push.toNat = (0x20 : UInt8).toNat)]
          rfl
        next program hw =>
          cases h
          obtain ⟨op, push, rfl, hop, hpush, hmin, hmax, hv⟩ := extractWitnessProgramInfo_eq_some.1 hw
          obtain rfl : op = 0x51 := (op_of_version hop).2 hv
          rw [eq_witnessScript hpush]
          exact .witnessV1Taproot hmin hmax
        next => cases h

theorem extractIndexInfo_of_form (h : Form t hash script) :
    extractIndexInfo script = some (t, hash) := by
  cases h with
  | pubkeyAddress h | scriptAddress h => simp [extractIndexInfo, h]
  | witnessV0ScriptHash h => simp [extractIndexInfo, h]
  | witnessV0KeyHash hmin hmax h =>
    have hw : extractWitnessProgramInfo (witnessScript 0x00 hash) = some (0, hash) :=
      extractWitnessProgramInfo_eq_some.2 ⟨0x00, _, rfl, .inl rfl, by simp; omega, hmin, hmax, rfl⟩
    rw [witnessScript] at hw ⊢
    simp [extractIndexInfo, hw, h]
  | witnessV1Taproot hmin hmax =>
    have hw : extractWitnessProgramInfo (witnessScript 0x51 hash) = some (1, hash) :=
      extractWitnessProgramInfo_eq_some.2 ⟨0x51, _, rfl, .inr ⟨by decide, by decide⟩, by simp; omega, hmin, hmax,
        rfl⟩
    rw [witnessScript] at hw ⊢
    simp [extractIndexInfo, hw]

theorem extractIndexInfo_eq_some :
    extractIndexInfo script = some (t, hash) ↔ Form t hash script :=
    ⟨form_of_extractIndexInfo, extractIndexInfo_of_form⟩

theorem longProgram_of_form (h : Form t hash script) (hlong : 32 < hash.length) :
    LongProgram script := by
  cases h with
  | pubkeyAddress h => omega
  | scriptAddress h => omega
  | witnessV0ScriptHash h => omega
  | witnessV0KeyHash hmin hmax h => exact ⟨0x00, hash, .inl rfl, hlong, hmax, rfl⟩
  | witnessV1Taproot hmin hmax => exact ⟨0x51, hash, .inr rfl, hlong, hmax, rfl⟩

theorem tooLong_iff {pkScript : List UInt8} : tooLong pkScript = true ↔ LongProgram pkScript := by
  constructor
  · intro h
    cases hi : extractIndexInfo pkScript with
    | none => simp [tooLong, hi] at h
    | some p =>
      simp only [tooLong, hi, any_some, decide_eq_true_eq] at h
      exact longProgram_of_form (form_of_extractIndexInfo hi) h
  · rintro ⟨op, program, hop, hlong, hmax, rfl⟩
    have hi : ∃ t, extractIndexInfo (witnessScript op program) = some (t, program) := by
      rcases hop with rfl | rfl
      · exact ⟨_, extractIndexInfo_of_form (.witnessV0KeyHash (by omega) hmax (by omega))⟩
      · exact ⟨_, extractIndexInfo_of_form (.witnessV1Taproot (by omega) hmax)⟩
    obtain ⟨t, hi⟩ := hi
    simpa [tooLong, hi] using hlong

/-! ## Blocks -/

def spendCount (txIdx : Nat) (tx : Tx) : Nat := if txIdx = 0 then 0 else tx.txIn.length

theorem map_snd_zip_eq_take {α β : Type} (l : List α) (m : List β) : (l.zip m).map Prod.snd = m.take l.length := by
  induction l generalizing m with
  | nil => rfl
  | cons a l ih =>
    cases m with
    | nil => rfl
    | cons b m => exact congrArg (b :: ·) (ih m)

variable {stxos : List SpentTxOut}

theorem scripts_txEntries {P : List UInt8 → Prop} {txIdx : Nat} {tx : Tx} :
    (∀ e ∈ txEntries txIdx tx stxos, P e.script) ↔
      (∀ stxo ∈ stxos.take (spendCount txIdx tx), P stxo.pkScript) ∧ ∀ txOut ∈ tx.txOut, P txOut.pkScript := by
  have hout : (∀ e ∈ tx.txOut.zipIdx.map fun p => Entry.received tx.hash p.1 txIdx p.2, P e.script) ↔
      ∀ txOut ∈ tx.txOut, P txOut.pkScript := by
    conv_rhs => rw [← zipIdx_map_fst 0 tx.txOut]
    simp only [List.forall_mem_map]
    rfl
  rw [txEntries, spendCount]
  rw [forall_mem_append, hout]
  by_cases h0 : txIdx = 0
  · simp [h0]
  · simp only [if_neg h0]
    refine and_congr_left fun _ => ?_
    conv_rhs => rw [← map_snd_zip_eq_take, ← zipIdx_map_fst 0 (tx.txIn.zip stxos)]
    simp only [List.forall_mem_map]
    rfl

theorem blockEntries_cons (txIdx : Nat) (tx : Tx) (txs : List Tx) (stxos : List SpentTxOut) :
    blockEntries txIdx (tx :: txs) stxos =
      if stxos.length < spendCount txIdx tx then none
      else (blockEntries (txIdx + 1) txs (stxos.drop (spendCount txIdx tx))).map (txEntries txIdx tx stxos ++ ·) := rfl

/-- The number of journal entries that transactions take, from a position in the block on. -/
def journalLength : Nat → List Tx → Nat
  | _, [] => 0
  | txIdx, tx :: txs => spendCount txIdx tx + journalLength (txIdx + 1) txs

/-- A journal of the right length is enough for the walk, which comes by each of its scripts and each output's. -/
theorem exists_blockEntries {P : List UInt8 → Prop} {txIdx : Nat} {txs : List Tx}
    (h : stxos.length = journalLength txIdx txs) :
    ∃ es, blockEntries txIdx txs stxos = some es ∧ ((∀ e ∈ es, P e.script) ↔
      (∀ tx ∈ txs, ∀ txOut ∈ tx.txOut, P txOut.pkScript) ∧ ∀ stxo ∈ stxos, P stxo.pkScript) := by
  induction txs generalizing txIdx stxos with
  | nil =>
    obtain rfl : stxos = [] := length_eq_zero_iff.1 h
    exact ⟨[], rfl, by simp⟩
  | cons tx txs ih =>
    rw [journalLength] at h
    obtain ⟨es, hes, hscripts⟩ := @ih (stxos.drop (spendCount txIdx tx)) (txIdx + 1) (by rw [length_drop]; omega)
    refine ⟨txEntries txIdx tx stxos ++ es, ?_, ?_⟩
    · rw [blockEntries_cons, if_neg (by omega), hes, map_some]
    · have hsplit : (∀ stxo ∈ stxos, P stxo.pkScript) ↔
          (∀ stxo ∈ stxos.take (spendCount txIdx tx), P stxo.pkScript) ∧
            ∀ stxo ∈ stxos.drop (spendCount txIdx tx), P stxo.pkScript := by
        rw [← forall_mem_append, take_append_drop]
      rw [forall_mem_append, scripts_txEntries, forall_mem_cons]
      tauto

/-- The journal has one entry for each input of each transaction but the coinbase. -/
def CompleteJournal (block : Block) (stxos : List SpentTxOut) : Prop :=
  stxos.length = ((block.transactions.drop 1).map fun tx => tx.txIn.length).sum

theorem journalLength_succ (txIdx : Nat) (txs : List Tx) :
    journalLength (txIdx + 1) txs = (txs.map fun tx => tx.txIn.length).sum := by
  induction txs generalizing txIdx with
  | nil => rfl
  | cons tx txs ih => rw [journalLength, ih, map_cons, sum_cons, spendCount, if_neg (Nat.succ_ne_zero _)]

theorem completeJournal_iff {block : Block} :
    CompleteJournal block stxos ↔ stxos.length = journalLength 0 block.transactions := by
  rw [CompleteJournal]
  cases block.transactions with
  | nil => rfl
  | cons tx txs => rw [drop_one, tail_cons, journalLength, journalLength_succ, spendCount, if_pos rfl, Nat.zero_add]

/-- No output that the block creates or spends has a long program. -/
def NoLongProgram (block : Block) (stxos : List SpentTxOut) : Prop :=
  (∀ tx ∈ block.transactions, ∀ txOut ∈ tx.txOut, ¬ LongProgram txOut.pkScript) ∧
    ∀ stxo ∈ stxos, ¬ LongProgram stxo.pkScript

/-- A block with its complete journal is connected and disconnected without a panic exactly if no output that it
creates or spends has a long program. -/
theorem indexed_iff_no_long_program {block : Block} {stxos : List SpentTxOut} (hj : CompleteJournal block stxos)
    (height : Int) (s : Index) :
    (connectBlockBatch height block stxos).isSome ∧ (s.disconnectBlock height block stxos).isSome ↔
      NoLongProgram block stxos := by
  obtain ⟨es, hes, hscripts⟩ := exists_blockEntries (P := fun script => ¬ LongProgram script) (completeJournal_iff.1 hj)
  have hentries : (entries block stxos).isSome ↔ NoLongProgram block stxos := by
    rw [NoLongProgram, ← hscripts, entries, hes]
    simp [← tooLong_iff]
  simp [connectBlockBatch, Index.disconnectBlock, hentries]

def blockPaying (pkScript : List UInt8) : Block :=
    ⟨7, ⟨1, 0, 0, 0, 0, 0⟩, [⟨11, [⟨0, 2 ^ 32 - 1⟩], [⟨50, pkScript⟩]⟩]⟩

theorem taproot_block_indexed :
    (connectBlockBatch 0 (blockPaying (witnessScript 0x51 (replicate 32 1))) []).isSome ∧
      (Index.empty.disconnectBlock 0 (blockPaying (witnessScript 0x51 (replicate 32 1))) []).isSome := by
  have hj : CompleteJournal (blockPaying (witnessScript 0x51 (replicate 32 1))) [] := rfl
  refine (indexed_iff_no_long_program hj 0 .empty).2 ⟨?_, by simp⟩
  have hshort : tooLong (witnessScript 0x51 (replicate 32 1)) = false := by decide
  simpa [blockPaying, ← tooLong_iff] using hshort

/-- A version 1 program of 33 bytes: the block may stand on the empty chain, and the index panics. -/
theorem long_program_panics : NextBlock [] (blockPaying (witnessScript 0x51 (replicate 33 1))) [] ∧
      CompleteJournal (blockPaying (witnessScript 0x51 (replicate 33 1))) [] ∧
        connectBlockBatch 0 (blockPaying (witnessScript 0x51 (replicate 33 1))) [] = none ∧
          Index.empty.disconnectBlock 0 (blockPaying (witnessScript 0x51 (replicate 33 1))) [] = none := by
  refine ⟨⟨⟨_, rfl, by decide⟩, by decide, by simp⟩, rfl, ?_, ?_⟩
  · decide
  · decide

end IniNode.Sugar
