import IniNode.Utxo.Entry
/-!
# The address index

The tables of the `sugarindex` package and the batches that connecting and disconnecting a block write. Both walk the
block in the same order, inputs before outputs in every transaction; an entry of the walk is one input or one
output. Keys and values are the structures that are serialized, an address being the type of a script and its
hash padded to 32 bytes; the obfuscation of values is left out.
-/

open IniNode.Lib List

namespace IniNode.Sugar

/-! ## Addresses -/

/-- The address types of `ExtractIndexInfo` but the unknown one. -/
inductive AddrIndt
  | pubkeyAddress
  | scriptAddress
  | witnessV0KeyHash
  | witnessV0ScriptHash
  | witnessV1Taproot
deriving DecidableEq, Repr

/-- `extractWitnessProgramInfo`: a small integer and one push of the whole rest, which is 2 to 40 bytes. -/
def extractWitnessProgramInfo (script : List UInt8) : Option (Nat × List UInt8) :=
  if script.length < 4 ∨ 42 < script.length then none
  else
    match script with
    | op :: push :: program =>
      if (op = 0 ∨ 0x51 ≤ op ∧ op ≤ 0x60) ∧ push.toNat = program.length then
        some (if op = 0 then 0 else op.toNat - 0x50, program)
      else none
    | _ => none

variable (pkScript : List UInt8)

def extractIndexInfo : Option (AddrIndt × List UInt8) :=
  if pkScript.length = 25 ∧ pkScript.take 3 = [0x76, 0xa9, 0x14] ∧ pkScript.drop 23 = [0x88, 0xac] then
    some (.pubkeyAddress, (pkScript.drop 3).take 20)
  else if pkScript.length = 23 ∧ pkScript.take 2 = [0xa9, 0x14] ∧ pkScript.drop 22 = [0x87] then
    some (.scriptAddress, (pkScript.drop 2).take 20)
  else if pkScript.length = 34 ∧ pkScript.take 2 = [0x00, 0x20] then
    some (.witnessV0ScriptHash, pkScript.drop 2)
  else
    match extractWitnessProgramInfo pkScript with
    | some (0, program) => some (.witnessV0KeyHash, program)
    | some (1, program) => some (.witnessV1Taproot, program)
    | _ => none

/-- The type and the hash as they stand in a key. -/
structure Address where
  type : AddrIndt
  hashBytes : List UInt8
deriving DecidableEq, Repr

/-- `hashIndex`, for a hash that is not too long. -/
def hashIndex (hashBytes : List UInt8) : List UInt8 := hashBytes ++ replicate (32 - hashBytes.length) 0

/-- The address of a script, none if its type is unknown. -/
def address : Option Address :=
  (extractIndexInfo pkScript).map fun p => ⟨p.1, hashIndex p.2⟩

/-- `hashIndex` panics: the hash of the script is longer than 32 bytes. -/
def tooLong : Bool := (extractIndexInfo pkScript).any fun p => 32 < p.2.length

/-! ## Tables -/

structure AddressIndexKey where
  address : Address
  blockHeight : Int
  txIndex : Nat
  txHash : Hash
  index : Nat
  spending : Bool
deriving DecidableEq

structure AddressUnspentKey where
  address : Address
  outPoint : OutPoint
deriving DecidableEq

structure AddressUnspentValue where
  satoshis : Int
  script : List UInt8
  blockHeight : Int
deriving DecidableEq

structure SpentIndexValue where
  txID : Hash
  inputIndex : Nat
  blockHeight : Int
  satoshis : Int
  address : Address
deriving DecidableEq

structure TimestampIndexKey where
  timestamp : Nat
  blockHash : Hash
deriving DecidableEq

structure TxIndexValue where
  height : Int
  txIndex : Nat
deriving DecidableEq

/-- The database of the index. -/
@[ext] structure Index where
  addressIndex : Store AddressIndexKey Int
  addressUnspent : Store AddressUnspentKey AddressUnspentValue
  spentIndex : Store OutPoint SpentIndexValue
  timestampIndex : Store TimestampIndexKey Unit
  txIndex : Store Hash TxIndexValue
  tip : Option (Hash × Int)

def Index.empty : Index := ⟨fun _ => none, fun _ => none, fun _ => none, fun _ => none, fun _ => none, none⟩

/-- `leveldb.Batch`: the writes to each table, in order. -/
structure Batch where
  addressIndex : List (Write AddressIndexKey Int) := []
  addressUnspent : List (Write AddressUnspentKey AddressUnspentValue) := []
  spentIndex : List (Write OutPoint SpentIndexValue) := []
  timestampIndex : List (Write TimestampIndexKey Unit) := []
  txIndex : List (Write Hash TxIndexValue) := []
  tip : Option (Hash × Int) := none

namespace Batch

def append (a b : Batch) : Batch where
  addressIndex := a.addressIndex ++ b.addressIndex
  addressUnspent := a.addressUnspent ++ b.addressUnspent
  spentIndex := a.spentIndex ++ b.spentIndex
  timestampIndex := a.timestampIndex ++ b.timestampIndex
  txIndex := a.txIndex ++ b.txIndex
  tip := b.tip.or a.tip

variable (bs : List Batch)

def concat : Batch := bs.foldr append {}

def storeIndexTip (b : Batch) (hash : Hash) (height : Int) : Batch := { b with tip := some (hash, height) }

@[simp] theorem addressIndex_concat : (concat bs).addressIndex = bs.flatMap addressIndex := by
  induction bs with
  | nil => rfl
  | cons b bs ih => exact congrArg (b.addressIndex ++ ·) ih

@[simp] theorem addressUnspent_concat : (concat bs).addressUnspent = bs.flatMap addressUnspent := by
  induction bs with
  | nil => rfl
  | cons b bs ih => exact congrArg (b.addressUnspent ++ ·) ih

@[simp] theorem spentIndex_concat : (concat bs).spentIndex = bs.flatMap spentIndex := by
  induction bs with
  | nil => rfl
  | cons b bs ih => exact congrArg (b.spentIndex ++ ·) ih

@[simp] theorem timestampIndex_concat : (concat bs).timestampIndex = bs.flatMap timestampIndex := by
  induction bs with
  | nil => rfl
  | cons b bs ih => exact congrArg (b.timestampIndex ++ ·) ih

@[simp] theorem txIndex_concat : (concat bs).txIndex = bs.flatMap txIndex := by
  induction bs with
  | nil => rfl
  | cons b bs ih => exact congrArg (b.txIndex ++ ·) ih

end Batch

def Index.write (s : Index) (b : Batch) : Index where
  addressIndex := s.addressIndex.writeAll b.addressIndex
  addressUnspent := s.addressUnspent.writeAll b.addressUnspent
  spentIndex := s.spentIndex.writeAll b.spentIndex
  timestampIndex := s.timestampIndex.writeAll b.timestampIndex
  txIndex := s.txIndex.writeAll b.txIndex
  tip := b.tip.or s.tip

/-! ## The walk over a block -/

/-- One input, with the output it spends, or one output. -/
inductive Entry
  | spent (txIn : OutPoint) (stxo : SpentTxOut) (txHash : Hash) (txIdx inIdx : Nat)
  | received (txHash : Hash) (txOut : TxOut) (txIdx vIdx : Nat)

/-- The entries of a transaction; all but the first take their spent outputs off the journal. -/
def txEntries (txIdx : Nat) (tx : Tx) (stxos : List SpentTxOut) : List Entry :=
  (if txIdx = 0 then [] else (tx.txIn.zip stxos).zipIdx.map fun p => .spent p.1.1 p.1.2 tx.hash txIdx p.2) ++
    tx.txOut.zipIdx.map fun p => .received tx.hash p.1 txIdx p.2

/-- The entries of a block from a transaction on. There are none when the journal is too short, where the code reads
past its end. -/
def blockEntries : Nat → List Tx → List SpentTxOut → Option (List Entry)
  | _, [], _ => some []
  | txIdx, tx :: txs, stxos =>
    let spends := if txIdx = 0 then 0 else tx.txIn.length
    if stxos.length < spends then none
    else (blockEntries (txIdx + 1) txs (stxos.drop spends)).map (txEntries txIdx tx stxos ++ ·)

def Entry.script : Entry → List UInt8
  | .spent _ stxo _ _ _ => stxo.pkScript
  | .received _ txOut _ _ => txOut.pkScript

/-! ## Connecting and disconnecting -/

section Deltas
variable (height : Int)

def addReceived (txHash : Hash) (txOut : TxOut) (txIdx vIdx : Nat) : Batch :=
  match address txOut.pkScript with
  | none => {}
  | some a =>
    { addressIndex := [⟨⟨a, height, txIdx, txHash, vIdx, false⟩, some txOut.value⟩]
      addressUnspent := [⟨⟨a, txHash, vIdx⟩, some ⟨txOut.value, txOut.pkScript, height⟩⟩] }

def addSpent (txIn : OutPoint) (stxo : SpentTxOut) (txHash : Hash) (txIdx inIdx : Nat) : Batch :=
  match address stxo.pkScript with
  | none => {}
  | some a =>
    { addressIndex := [⟨⟨a, height, txIdx, txHash, inIdx, true⟩, some (-stxo.amount)⟩]
      addressUnspent := [⟨⟨a, txIn⟩, none⟩]
      spentIndex := [⟨txIn, some ⟨txHash, inIdx, height, stxo.amount, a⟩⟩] }

def undoReceived (txHash : Hash) (txOut : TxOut) (txIdx vIdx : Nat) : Batch :=
  match address txOut.pkScript with
  | none => {}
  | some a =>
    { addressIndex := [⟨⟨a, height, txIdx, txHash, vIdx, false⟩, none⟩]
      addressUnspent := [⟨⟨a, txHash, vIdx⟩, none⟩] }

def undoSpent (txIn : OutPoint) (stxo : SpentTxOut) (txHash : Hash) (txIdx inIdx : Nat) : Batch :=
  match address stxo.pkScript with
  | none => {}
  | some a =>
    { addressIndex := [⟨⟨a, height, txIdx, txHash, inIdx, true⟩, none⟩]
      addressUnspent := [⟨⟨a, txIn⟩, some ⟨stxo.amount, stxo.pkScript, stxo.blockHeight⟩⟩]
      spentIndex := [⟨txIn, none⟩] }

def Entry.add : Entry → Batch
  | .spent txIn stxo txHash txIdx inIdx => addSpent height txIn stxo txHash txIdx inIdx
  | .received txHash txOut txIdx vIdx => addReceived height txHash txOut txIdx vIdx

def Entry.undo : Entry → Batch
  | .spent txIn stxo txHash txIdx inIdx => undoSpent height txIn stxo txHash txIdx inIdx
  | .received txHash txOut txIdx vIdx => undoReceived height txHash txOut txIdx vIdx

variable (block : Block)

/-- The entries of a block, unless one of them panics. -/
def entries (stxos : List SpentTxOut) : Option (List Entry) :=
  (blockEntries 0 block.transactions stxos).filter fun es => !es.any fun e => tooLong e.script

def timestampKey : TimestampIndexKey :=
  ⟨(block.header.timestamp % 2 ^ 32).toNat, block.hash⟩

def connectBlockBatch (stxos : List SpentTxOut) : Option Batch :=
  (entries block stxos).map fun es =>
    { Batch.concat (es.map (Entry.add height)) with
      txIndex := block.transactions.zipIdx.map fun p => ⟨p.1.hash, some ⟨height, p.2 % 2 ^ 16⟩⟩
      timestampIndex := [⟨timestampKey block, some ()⟩] }

def Index.connectBlock (s : Index) (block : Block) (stxos : List SpentTxOut) : Option Index :=
  (connectBlockBatch height block stxos).map fun b => s.write (b.storeIndexTip block.hash height)

def Index.disconnectBlock (s : Index) (block : Block) (stxos : List SpentTxOut) : Option Index :=
  (entries block stxos).map fun es =>
    s.write ((Batch.concat (es.map (Entry.undo height))).storeIndexTip block.prevBlock (height - 1))

end Deltas

/-! ## What they write -/

section Writes
variable {height : Int} {s : Index} {block : Block} {stxos : List SpentTxOut} {es : List Entry}

def txRows (height : Int) (block : Block) : List (Write Hash TxIndexValue) :=
  block.transactions.zipIdx.map fun p => ⟨p.1.hash, some ⟨height, p.2 % 2 ^ 16⟩⟩

theorem keys_txRows (height : Int) (block : Block) :
    (txRows height block).map Write.key = block.transactions.map Tx.hash := by
  conv_rhs => rw [← zipIdx_map_fst 0 block.transactions, List.map_map]
  exact List.map_map

theorem connectBlock_eq (h : entries block stxos = some es) : s.connectBlock height block stxos = some
      { addressIndex := s.addressIndex.writeAll (es.flatMap fun e => (e.add height).addressIndex)
        addressUnspent := s.addressUnspent.writeAll (es.flatMap fun e => (e.add height).addressUnspent)
        spentIndex := s.spentIndex.writeAll (es.flatMap fun e => (e.add height).spentIndex)
        timestampIndex := s.timestampIndex.write ⟨timestampKey block, some ()⟩
        txIndex := s.txIndex.writeAll (txRows height block)
        tip := some (block.hash, height) } := by
  simp [Index.connectBlock, connectBlockBatch, h, Index.write, Batch.storeIndexTip, flatMap_map, txRows]

/-- Disconnecting a block leaves the timestamp and the txid table as they are. -/
theorem disconnectBlock_eq (h : entries block stxos = some es) : s.disconnectBlock height block stxos = some
      { addressIndex := s.addressIndex.writeAll (es.flatMap fun e => (e.undo height).addressIndex)
        addressUnspent := s.addressUnspent.writeAll (es.flatMap fun e => (e.undo height).addressUnspent)
        spentIndex := s.spentIndex.writeAll (es.flatMap fun e => (e.undo height).spentIndex)
        timestampIndex := s.timestampIndex
        txIndex := s.txIndex
        tip := some (block.prevBlock, height - 1) } := by
  have hnil (e : Entry) : (e.undo height).timestampIndex = [] ∧ (e.undo height).txIndex = [] := by
    cases e <;> simp only [Entry.undo, undoSpent, undoReceived] <;> split <;> exact ⟨rfl, rfl⟩
  simp [Index.disconnectBlock, h, Index.write, Batch.storeIndexTip, flatMap_map, flatMap_eq_nil_iff.2 fun e _ => (hnil e).1,
    flatMap_eq_nil_iff.2 fun e _ => (hnil e).2]

end Writes

end IniNode.Sugar
