import Mathlib
/-!
# Blocks and transactions

The values of the wire package the chain code handles. A transaction and a block carry their own
hash, as `btcutil.Tx` and `btcutil.Block` do; nothing here depends on how a hash is computed.
-/

namespace IniNode

/-- A `chainhash.Hash`, as the number its bytes spell. -/
abbrev Hash := Nat

/-- A sum in an int64. -/
def toInt64 (x : Int) : Int := x.bmod (2 ^ 64)

def zeroHash : Hash := 0

structure OutPoint where
  hash : Hash
  index : Nat
deriving DecidableEq, Repr

structure TxOut where
  value : Int
  pkScript : List UInt8
deriving DecidableEq, Repr

/-- `btcutil.Tx`: its hash, the outpoints its inputs spend, and its outputs. -/
structure Tx where
  hash : Hash
  txIn : List OutPoint
  txOut : List TxOut
deriving DecidableEq, Repr

structure BlockHeader where
  version : Int
  prevBlock : Hash
  merkleRoot : Hash
  timestamp : Int
  bits : Nat
  nonce : Nat
deriving DecidableEq, Repr

/-- `btcutil.Block`: its hash, its header and its transactions. -/
structure Block where
  hash : Hash
  header : BlockHeader
  transactions : List Tx
deriving DecidableEq, Repr

abbrev Block.prevBlock (b : Block) : Hash := b.header.prevBlock

/-- `IsCoinBase`: one input, whose outpoint has the maximum index and the zero hash. -/
def isCoinBase (tx : Tx) : Bool :=
  tx.txIn = [⟨zeroHash, 2 ^ 32 - 1⟩]

/-- The outpoints of a transaction's outputs, each with its output. -/
def Tx.outputs (tx : Tx) : List (OutPoint × TxOut) :=
  tx.txOut.zipIdx.map fun p => (⟨tx.hash, p.2⟩, p.1)

/-- `countSpentOutputs`: the inputs of every transaction but the first. -/
def countSpentOutputs (block : Block) : Nat :=
  (block.transactions.tail.map fun tx => tx.txIn.length).sum

/-! ## Scripts -/

def opReturn : UInt8 := 0x6a

def maxScriptSize : Nat := 10000

/-- The little-endian number in the bytes of a length. -/
def leBytes : List UInt8 → Nat
  | [] => 0
  | b :: bs => b.toNat + 256 * leBytes bs

/-- `checkScriptParses`: the tokenizer reaches the end of the script without an error. Each round
takes at least one byte, so the script's length bounds the rounds. -/
def checkScriptParses : Nat → List UInt8 → Bool
  | _, [] => true
  | 0, _ :: _ => false
  | fuel + 1, op :: rest =>
    if 1 ≤ op ∧ op ≤ 75 then
      -- OP_DATA_1 to OP_DATA_75
      if rest.length < op.toNat then false else checkScriptParses fuel (rest.drop op.toNat)
    else if 76 ≤ op ∧ op ≤ 78 then
      -- OP_PUSHDATA1, 2 and 4; a four-byte length with its top bit set is negative as an int32
      let width := if op = 76 then 1 else if op = 77 then 2 else 4
      let dataLen := leBytes (rest.take width)
      if rest.length < width then false
      else if (rest.drop width).length < dataLen ∨ 2 ^ 31 ≤ dataLen then false
      else checkScriptParses fuel ((rest.drop width).drop dataLen)
    else checkScriptParses fuel rest

def isUnspendable (pkScript : List UInt8) : Bool :=
  pkScript.head? = some opReturn || maxScriptSize < pkScript.length ||
    !checkScriptParses pkScript.length pkScript

end IniNode
