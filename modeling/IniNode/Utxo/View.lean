import IniNode.Utxo.Cache
/-!
# Utxo views and undoing a block

`UtxoViewpoint` as the reorganization code uses it: `fetchInputUtxos` loads the outputs a block spends,
`disconnectTransactions` marks what the block created as spent and restores what it spent from the
spend journal, `dbPutUtxoView` writes the view and `commit` cleans it. A view is a map like those of the
cache; a nil value records an output that was looked up and not found.
-/

namespace IniNode

/-- `UtxoViewpoint`; nothing here reads its best hash. -/
abbrev UtxoViewpoint := EntryMap

namespace UtxoViewpoint

variable (view : UtxoViewpoint)

/-- `LookupEntry`: nil when the view has no entry, or a nil one. -/
def lookupEntry (op : OutPoint) : Option UtxoEntry := (view.lookup op).getD none

def addTxOuts (tx : Tx) (blockHeight : Int) : UtxoViewpoint :=
  tx.outputs.foldl (fun v p =>
    if isUnspendable p.2.pkScript then v
    else v.insert p.1 (some (UtxoCache.freshEntry ⟨p.2.value, p.2.pkScript, blockHeight, isCoinBase tx⟩))) view

variable (block : Block)

/-- The transaction of a block, by position, that `txInFlight` holds for a hash: the last one. -/
def inFlight (hash : Hash) : Option (Nat × Tx) :=
  (block.transactions.zipIdx.filter fun p => p.1.hash = hash).getLast?.map fun p => (p.2, p.1)

variable (blockHeight : Int)

/-- One input of `findInputsToFetch`, for the transaction at position `i + 1`. -/
def findInput (i : Nat) (acc : UtxoViewpoint × List OutPoint) (op : OutPoint) : UtxoViewpoint × List OutPoint :=
  let (view, needed) := acc
  match inFlight block op.hash with
  | some (j, originTx) =>
    if j ≤ i then (view.addTxOuts originTx blockHeight, needed)
    else if op ∈ view then (view, needed) else (view, needed ++ [op])
  | none => if op ∈ view then (view, needed) else (view, needed ++ [op])

def findInputsToFetch : UtxoViewpoint × List OutPoint :=
  block.transactions.tail.zipIdx.foldl (fun acc p => p.1.txIn.foldl (findInput block blockHeight p.2) acc) (view, [])

/-- `fetchInputUtxos`: the entries found are cloned into the view. -/
def fetchInputUtxos (sz : SizeHelper) (view : UtxoViewpoint) (cache : UtxoCache) (disk : UtxoBucket) (block : Block)
    (blockHeight : Int) : UtxoViewpoint × UtxoCache :=
  let (view, needed) := view.findInputsToFetch block blockHeight
  let (entries, cache) := cache.fetchEntries sz disk needed
  ((needed.zip entries).foldl (fun v p => v.insert p.1 p.2) view, cache)

/-- The inputs of a transaction: what their entries hold is recorded and they are marked spent. -/
def connectInputs : UtxoViewpoint → List OutPoint → Option (List SpentTxOut) →
    Except UtxoError (UtxoViewpoint × Option (List SpentTxOut))
  | view, [], stxos => .ok (view, stxos)
  | view, op :: ops, stxos =>
    match view.lookupEntry op with
    | none => .error (.missingInput op)
    | some entry => connectInputs (view.insert op (some entry.spend)) ops (stxos.map (· ++ [entry.coin]))

def connectTransaction (tx : Tx) (blockHeight : Int) (stxos : Option (List SpentTxOut)) :
    Except UtxoError (UtxoViewpoint × Option (List SpentTxOut)) :=
  if isCoinBase tx then .ok (view.addTxOuts tx blockHeight, stxos)
  else
    match view.connectInputs tx.txIn stxos with
    | .ok (view, stxos) => .ok (view.addTxOuts tx blockHeight, stxos)
    | .error err => .error err

/-- The loop of `connectTransactions` over a block's transactions. -/
def connectTxs (blockHeight : Int) : UtxoViewpoint → List Tx → Option (List SpentTxOut) →
    Except UtxoError (UtxoViewpoint × Option (List SpentTxOut))
  | view, [], stxos => .ok (view, stxos)
  | view, tx :: txs, stxos =>
    match view.connectTransaction tx blockHeight stxos with
    | .ok (view, stxos) => connectTxs blockHeight view txs stxos
    | .error err => .error err

def connectTransactions (stxos : Option (List SpentTxOut)) :
    Except UtxoError (UtxoViewpoint × Option (List SpentTxOut)) :=
  view.connectTxs blockHeight block.transactions stxos

/-- Mark the spendable outputs of a transaction as spent, adding entries for those the view lacks. -/
def spendOutputs (tx : Tx) (blockHeight : Int) (coinBase : Bool) : UtxoViewpoint :=
  tx.outputs.foldl (fun v p =>
    if isUnspendable p.2.pkScript then v
    else
      let entry := (v.lookupEntry p.1).getD
        ⟨p.2.value, p.2.pkScript, blockHeight, coinBase, false, false, false⟩
      v.insert p.1 (some entry.spend)) view

/-- The entry that restores a spent output: its journal data, marked modified. -/
def restored (stxo : SpentTxOut) : UtxoEntry :=
  ⟨stxo.amount, stxo.pkScript, stxo.blockHeight, stxo.isCoinBase, false, true, false⟩

section Undo
variable (fetchEntryByHash : UtxoViewpoint → Hash → Option UtxoEntry)

/-- A view with an entry, if only an empty one, for the outpoint. -/
def withEntry (op : OutPoint) : UtxoViewpoint :=
  match view.lookupEntry op with
  | some _ => view
  | none => view.insert op (some ⟨0, [], 0, false, false, false, false⟩)

/-- The inputs of a transaction, last first, each with its journal entry. Journal entries of the old
format have no height; it is searched for through `fetchEntryByHash`. -/
def restoreInputs (txHash : Hash) :
    UtxoViewpoint → List (OutPoint × SpentTxOut) → Except UtxoError UtxoViewpoint
  | view, [] => .ok view
  | view, (op, stxo) :: rest =>
    if stxo.blockHeight = 0 then
      match fetchEntryByHash (view.withEntry op) txHash with
      | none => .error (.cannotResurrect op)
      | some utxo =>
        restoreInputs txHash
          (view.insert op (some (restored { stxo with blockHeight := utxo.blockHeight, isCoinBase := utxo.isCoinBase })))
          rest
    else restoreInputs txHash (view.insert op (some (restored stxo))) rest

/-- The loop of `disconnectTransactions`, over the transactions but the first from the last one on; the
journal is consumed from its end. -/
def undoTxs (blockHeight : Int) :
    UtxoViewpoint → List Tx → List SpentTxOut → Except UtxoError UtxoViewpoint
  | view, [], _ => .ok view
  | view, tx :: txs, stxos =>
    let view := view.spendOutputs tx blockHeight false
    let n := stxos.length - tx.txIn.length
    match restoreInputs fetchEntryByHash tx.hash view (tx.txIn.zip (stxos.drop n)).reverse with
    | .ok view => undoTxs blockHeight view txs (stxos.take n)
    | .error err => .error err

def disconnectTransactions (view : UtxoViewpoint) (block : Block) (blockHeight : Int) (stxos : List SpentTxOut) :
    Except UtxoError UtxoViewpoint :=
  if stxos.length ≠ countSpentOutputs block then .error .badSpentInformation
  else
    match undoTxs fetchEntryByHash blockHeight view block.transactions.tail.reverse stxos with
    | .ok view => .ok (block.transactions.head?.elim view fun tx => view.spendOutputs tx blockHeight true)
    | .error err => .error err

end Undo

/-- What `dbPutUtxoView` does to a row: nil and unmodified entries are skipped. -/
def putRow (disk : UtxoBucket) (p : (_ : OutPoint) × Option UtxoEntry) : UtxoBucket :=
  match p.2 with
  | none => disk
  | some e =>
    if !e.isModified then disk
    else if e.isSpent then dbDeleteUtxoEntry disk p.1
    else dbPutUtxoEntry disk p.1 e

/-- `dbPutUtxoView`. -/
def putUtxoView (disk : UtxoBucket) : UtxoBucket := view.entries.foldl putRow disk

/-- One round of `commit`: a nil entry and a modified spent one are dropped, and the modified flag of
every other is flipped. -/
def commitEntry (p : (_ : OutPoint) × Option UtxoEntry) : UtxoViewpoint :=
  match p.2 with
  | none => view.erase p.1
  | some e =>
    if e.isModified && e.isSpent then view.erase p.1
    else view.insert p.1 (some { e with isModified := !e.isModified })

def commit : UtxoViewpoint := view.entries.foldl commitEntry view

end UtxoViewpoint

end IniNode
