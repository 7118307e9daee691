import IniNode.Utxo.Entry
/-!
# The chain database

The buckets and keys of the chain state as `chainio.go` reads and writes them, each as a store. The
optional indexes of the index manager are represented by their tips, which is what they check: an
index connects a block only on top of its tip, and disconnects only its tip.
-/

open IniNode.Lib

namespace IniNode

/-- `blockStatus`, bit by bit. -/
structure BlockStatus where
  dataStored : Bool := false
  valid : Bool := false
  validateFailed : Bool := false
  invalidAncestor : Bool := false
  headerStored : Bool := false
deriving DecidableEq, Repr

/-- A row of the block index: the header and the status. -/
structure NodeRow where
  header : BlockHeader
  status : BlockStatus
deriving DecidableEq, Repr

/-- `BestState`, with the fields that are persisted. -/
structure BestState where
  hash : Hash
  height : Int
  totalTxns : UInt64
deriving DecidableEq, Repr

structure BestChainState where
  hash : Hash
  height : Int
  totalTxns : UInt64
  workSum : Nat
deriving DecidableEq, Repr

structure TipSnapshot where
  hash : Hash
  height : Int
  work : Nat
deriving DecidableEq, Repr

/-- What is on disk. -/
structure Db where
  blockIndex : Store (Int × Hash) NodeRow
  hashIndex : Store Hash Int
  heightIndex : Store Int Hash
  bestHeaderState : Option (Hash × Int)
  bestTipSnapshot : Option TipSnapshot
  bestState : Option BestChainState
  spendJournal : Store Hash (List SpentTxOut)
  utxoSet : UtxoBucket
  utxoStateConsistency : Option Hash
  writeWatermark : Option Int
  blocks : Store Hash Block
  indexTips : List Hash

def emptyDb : Db where
  blockIndex _ := none
  hashIndex _ := none
  heightIndex _ := none
  bestHeaderState := none
  bestTipSnapshot := none
  bestState := none
  spendJournal _ := none
  utxoSet _ := none
  utxoStateConsistency := none
  writeWatermark := none
  blocks _ := none
  indexTips := []

namespace Db

variable (db : Db) (hash : Hash) (height : Int)

def storeBlockNode (row : NodeRow) : Db :=
  { db with blockIndex := db.blockIndex.write ⟨(height, hash), some row⟩ }

def putHashIndex : Db :=
  { db with hashIndex := db.hashIndex.write ⟨hash, some height⟩ }

def putHeightIndex (hash : Hash) : Db :=
  { db with heightIndex := db.heightIndex.write ⟨height, some hash⟩ }

/-- `dbPutHeightIndexGuarded`: a node off the connected chain only claims a free height. -/
def putHeightIndexGuarded (hash : Hash) (onChain : Bool) : Db :=
  if !onChain && (db.heightIndex height).isSome then db else db.putHeightIndex height hash

def putBlockIndex : Db :=
  (db.putHashIndex hash height).putHeightIndex height hash

def removeBlockIndex : Db :=
  { db with
    hashIndex := db.hashIndex.write ⟨hash, none⟩
    heightIndex := db.heightIndex.write ⟨height, none⟩ }

/-- `dbFetchBlockRowByHash`: the row and the height the hash index gives the block. -/
def fetchBlockRowByHash : Option (NodeRow × Int) :=
  (db.hashIndex hash).bind fun height => (db.blockIndex (height, hash)).map fun row => (row, height)

def putBestHeaderState : Db :=
  { db with bestHeaderState := some (hash, height) }

def putBestTipSnapshot (work : Nat) : Db :=
  { db with bestTipSnapshot := some ⟨hash, height, work⟩ }

def putBestState (s : BestState) (workSum : Nat) : Db :=
  { db with bestState := some ⟨s.hash, s.height, s.totalTxns, workSum⟩ }

def putSpendJournalEntry (stxos : List SpentTxOut) : Db :=
  { db with spendJournal := db.spendJournal.write ⟨hash, some stxos⟩ }

def removeSpendJournalEntry : Db :=
  { db with spendJournal := db.spendJournal.write ⟨hash, none⟩ }

variable (block : Block)

/-- `dbFetchSpendJournalEntry`: a block that spends nothing needs no entry. -/
def fetchSpendJournalEntry : Option (List SpentTxOut) :=
  match db.spendJournal block.hash with
  | none | some [] => if countSpentOutputs block = 0 then some [] else none
  | some stxos => if stxos.length = countSpentOutputs block then some stxos else none

def putUtxoStateConsistency : Db :=
  { db with utxoStateConsistency := some hash }

def putWriteWatermark : Db := { db with writeWatermark := some height }

/-- `Manager.ConnectBlock`: every enabled index has to be at the block before. -/
def indexConnectBlock : Option Db :=
  if db.indexTips.all (· = block.prevBlock) then some { db with indexTips := db.indexTips.map fun _ => block.hash }
  else none

/-- `Manager.DisconnectBlock`: every enabled index has to be at the block. -/
def indexDisconnectBlock : Option Db :=
  if db.indexTips.all (· = block.hash) then some { db with indexTips := db.indexTips.map fun _ => block.prevBlock }
  else none

end Db

end IniNode
