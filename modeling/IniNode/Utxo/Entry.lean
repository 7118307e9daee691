import IniNode.Lib.Store
import IniNode.Wire
/-!
# Utxo entries

`UtxoEntry` with its packed flags, and the row an entry leaves in the utxo bucket.
-/

open IniNode.Lib

namespace IniNode

/-- What a row of the utxo bucket stores, and what a `SpentTxOut` keeps of a spent output. -/
structure Coin where
  amount : Int
  pkScript : List UInt8
  blockHeight : Int
  isCoinBase : Bool
deriving DecidableEq, Repr

/-- `SpentTxOut`: the same four fields. -/
abbrev SpentTxOut := Coin

/-- `UtxoEntry`; the four bits of `packedFlags` are fields. -/
structure UtxoEntry where
  amount : Int
  pkScript : List UInt8
  blockHeight : Int
  isCoinBase : Bool
  isSpent : Bool
  isModified : Bool
  isFresh : Bool
deriving DecidableEq, Repr

namespace UtxoEntry

variable (e : UtxoEntry)

def coin : Coin := ⟨e.amount, e.pkScript, e.blockHeight, e.isCoinBase⟩

variable (c : Coin)

/-- The entry `deserializeUtxoEntry` makes of a row: only the coinbase flag is set. -/
def ofCoin : UtxoEntry := ⟨c.amount, c.pkScript, c.blockHeight, c.isCoinBase, false, false, false⟩

def spend : UtxoEntry :=
  if e.isSpent then e else { e with isSpent := true, isModified := true }

/-- `UtxoEntry.clearModified` clears the modified and the fresh flag. -/
def clearModified : UtxoEntry := { e with isModified := false, isFresh := false }

@[simp] theorem coin_ofCoin : (ofCoin c).coin = c := rfl
@[simp] theorem ofCoin_isSpent : (ofCoin c).isSpent = false := rfl
@[simp] theorem ofCoin_isModified : (ofCoin c).isModified = false := rfl
@[simp] theorem ofCoin_isFresh : (ofCoin c).isFresh = false := rfl

@[simp] theorem spend_isSpent : e.spend.isSpent = true := by
  unfold spend; split <;> simp_all

theorem spend_isModified {e : UtxoEntry} (h : e.isSpent = true → e.isModified = true) : e.spend.isModified = true := by
  unfold spend
  split
  · exact h ‹_›
  · rfl

@[simp] theorem spend_isFresh : e.spend.isFresh = e.isFresh := by
  unfold spend; split <;> rfl

@[simp] theorem clearModified_coin : e.clearModified.coin = e.coin := rfl
@[simp] theorem clearModified_isSpent : e.clearModified.isSpent = e.isSpent := rfl
@[simp] theorem clearModified_isModified : e.clearModified.isModified = false := rfl
@[simp] theorem clearModified_isFresh : e.clearModified.isFresh = false := rfl

end UtxoEntry

/-- `memoryUsage`: 0 for a nil entry, else the base size plus the script. -/
def memoryUsage : Option UtxoEntry → UInt64
  | none => 0
  | some e => 40 + UInt64.ofNat e.pkScript.length

/-- The unspent output an entry stands for: none for a nil or a spent entry. -/
def unspent : Option UtxoEntry → Option Coin
  | some e => if e.isSpent then none else some e.coin
  | none => none

@[simp] theorem unspent_none : unspent none = none := rfl

theorem unspent_some (e : UtxoEntry) : unspent (some e) = if e.isSpent then none else some e.coin := rfl

theorem unspent_eq_some {x : Option UtxoEntry} {c : Coin} (h : unspent x = some c) :
    ∃ e, x = some e ∧ e.isSpent = false ∧ e.coin = c := by
  cases x with
  | none => cases h
  | some e =>
    rw [unspent_some] at h
    split at h
    · cases h
    next hs => exact ⟨e, rfl, Bool.eq_false_iff.2 hs, Option.some.inj h⟩

abbrev UtxoBucket := Store OutPoint Coin

variable (disk : UtxoBucket) (op : OutPoint)

def dbFetchUtxoEntry : Option UtxoEntry :=
  (disk op).map UtxoEntry.ofCoin

def dbDeleteUtxoEntry : UtxoBucket := disk.write ⟨op, none⟩

/-- `dbPutUtxoEntry` on an entry that is neither nil nor spent. -/
def dbPutUtxoEntry (e : UtxoEntry) : UtxoBucket :=
  disk.write ⟨op, some e.coin⟩

@[simp] theorem unspent_dbFetchUtxoEntry : unspent (dbFetchUtxoEntry disk op) = disk op := by
  unfold dbFetchUtxoEntry
  cases disk op <;> simp [unspent]

end IniNode
