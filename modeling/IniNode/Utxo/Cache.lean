import IniNode.Utxo.MapSlice
/-!
# The utxo cache

`utxoCache` between flushes: looking outpoints up (`fetchEntries`), connecting a block's
transactions to the cache, and `takeDelta`, which turns the outpoints a block touched into the
writes its queue item carries. The spec lemmas say what the cache holds under each outpoint after
each of them.
-/

open IniNode.Lib List

namespace IniNode

structure UtxoDelta where
  op : OutPoint
  tombstone : Bool
  entry : Option UtxoEntry
deriving DecidableEq, Repr

/-- The write a delta stands for: a tombstone or a nil entry deletes the row. -/
def UtxoDelta.toWrite (d : UtxoDelta) : Write OutPoint Coin :=
  ⟨d.op, if d.tombstone then none else d.entry.map UtxoEntry.coin⟩

/-- `utxoCache`; the time of the last flush is an argument of `flush`. -/
structure UtxoCache where
  maxTotalMemoryUsage : UInt64
  cachedEntries : MapSlice
  totalEntryMemory : UInt64
  dirtyOps : List OutPoint
  trackDeltas : Bool
  deltaPoints : List UtxoDelta
  hotFloor : Int
  lastFlushHash : Hash

/-- The assertion errors of the utxo code. -/
inductive UtxoError where
  /-- "missing input" -/
  | missingInput (op : OutPoint)
  /-- "disconnectTransactions called with bad spent transaction out information" -/
  | badSpentInformation
  /-- "unable to resurrect legacy stxo" -/
  | cannotResurrect (op : OutPoint)
deriving DecidableEq, Repr

namespace UtxoCache

variable (sz : SizeHelper)

/-- `newUtxoCache`: one empty map, sized by the memory limit. -/
def new (maxTotalMemoryUsage : UInt64) : UtxoCache where
  maxTotalMemoryUsage := maxTotalMemoryUsage
  cachedEntries :=
    { maps := [∅]
      maxEntries := [sz.calculateMinEntries maxTotalMemoryUsage.toInt64.toInt - 1]
      maxTotalMemoryUsage := maxTotalMemoryUsage
      sized := rfl
      nonempty := by simp
      disjoint := pairwise_singleton _ _ }
  totalEntryMemory := 0
  dirtyOps := []
  trackDeltas := false
  deltaPoints := []
  hotFloor := 0
  lastFlushHash := zeroHash

variable (s : UtxoCache) (op : OutPoint)

def get : Option (Option UtxoEntry) := s.cachedEntries.get op

def totalMemoryUsage : UInt64 := UInt64.ofInt (s.cachedEntries.size sz) + s.totalEntryMemory

def cacheEntry (entry : Option UtxoEntry) : UtxoCache :=
  { s with
    cachedEntries := s.cachedEntries.put sz op entry s.totalEntryMemory
    totalEntryMemory := s.totalEntryMemory + memoryUsage entry }

def uncacheEntry (entry : Option UtxoEntry) : UtxoCache :=
  { s with
    cachedEntries := s.cachedEntries.delete op
    totalEntryMemory := s.totalEntryMemory - memoryUsage entry }

variable (disk : UtxoBucket)

/-- `fetchEntries`: the outpoints missing from the cache are read from the database, and what was
read is cached, a nil entry included. -/
def fetchEntries (outpoints : List OutPoint) : List (Option UtxoEntry) × UtxoCache :=
  let missingOps := outpoints.filter fun op => s.get op = none
  (outpoints.map fun op => (s.get op).getD (dbFetchUtxoEntry disk op),
   missingOps.foldl (fun s op => s.cacheEntry sz op (dbFetchUtxoEntry disk op)) s)

def addTxOut (outpoint : OutPoint) (txOut : TxOut) (coinBase : Bool) (blockHeight : Int) : UtxoCache :=
  if isUnspendable txOut.pkScript then s
  else
    let entry : UtxoEntry :=
      { amount := txOut.value, pkScript := txOut.pkScript, blockHeight := blockHeight, isCoinBase := coinBase,
        isSpent := false, isModified := true, isFresh := true }
    let s := s.cacheEntry sz outpoint (some entry)
    { s with
      dirtyOps := s.dirtyOps.insert outpoint
      deltaPoints := if s.trackDeltas then s.deltaPoints ++ [⟨outpoint, false, none⟩] else s.deltaPoints }

def addTxOuts (tx : Tx) (blockHeight : Int) : UtxoCache :=
  tx.outputs.foldl (fun s p => s.addTxOut sz p.1 p.2 (isCoinBase tx) blockHeight) s

/-- `addTxIn`. The entry is shared with the cache, so marking it spent changes the cached entry. -/
def addTxIn (s : UtxoCache) (op : OutPoint) (stxos : Option (List SpentTxOut)) :
    Except UtxoError (UtxoCache × Option (List SpentTxOut)) :=
  let (entries, s) := s.fetchEntries sz disk [op]
  match entries with
  | [some entry] =>
    let stxos := stxos.map (· ++ [entry.coin])
    let deltaPoints := if s.trackDeltas then s.deltaPoints ++ [⟨op, true, none⟩] else s.deltaPoints
    if entry.isFresh then
      let s := s.uncacheEntry op (some entry)
      .ok ({ s with deltaPoints := deltaPoints, dirtyOps := s.dirtyOps.filter (· ≠ op) }, stxos)
    else
      .ok ({ s with
              cachedEntries := s.cachedEntries.put sz op (some entry.spend) s.totalEntryMemory
              deltaPoints := deltaPoints
              dirtyOps := s.dirtyOps.insert op }, stxos)
  | _ => .error (.missingInput op)

/-- The loop of `addTxIns` over a transaction's inputs. -/
def addInputs (disk : UtxoBucket) : UtxoCache → List OutPoint → Option (List SpentTxOut) →
    Except UtxoError (UtxoCache × Option (List SpentTxOut))
  | s, [], stxos => .ok (s, stxos)
  | s, op :: ops, stxos =>
    match s.addTxIn sz disk op stxos with
    | .ok (s, stxos) => addInputs disk s ops stxos
    | .error e => .error e

/-- `addTxIns`: a coinbase spends nothing. -/
def addTxIns (s : UtxoCache) (tx : Tx) (stxos : Option (List SpentTxOut)) :
    Except UtxoError (UtxoCache × Option (List SpentTxOut)) :=
  if isCoinBase tx then .ok (s, stxos) else s.addInputs sz disk tx.txIn stxos

def connectTransaction (s : UtxoCache) (tx : Tx) (blockHeight : Int)
    (stxos : Option (List SpentTxOut)) : Except UtxoError (UtxoCache × Option (List SpentTxOut)) :=
  match s.addTxIns sz disk tx stxos with
  | .ok (s, stxos) => .ok (s.addTxOuts sz tx blockHeight, stxos)
  | .error e => .error e

/-- The loop of `connectTransactions` over a block's transactions. -/
def connectTxs (disk : UtxoBucket) (blockHeight : Int) : UtxoCache → List Tx → Option (List SpentTxOut) →
    Except UtxoError (UtxoCache × Option (List SpentTxOut))
  | s, [], stxos => .ok (s, stxos)
  | s, tx :: txs, stxos =>
    match s.connectTransaction sz disk tx blockHeight stxos with
    | .ok (s, stxos) => connectTxs disk blockHeight s txs stxos
    | .error e => .error e

def connectTransactions (s : UtxoCache) (block : Block) (blockHeight : Int)
    (stxos : Option (List SpentTxOut)) : Except UtxoError (UtxoCache × Option (List SpentTxOut)) :=
  s.connectTxs sz disk blockHeight block.transactions stxos

/-- One round of the loop of `takeDelta`. -/
def takePoint (acc : UtxoCache × List UtxoDelta) (d : UtxoDelta) : UtxoCache × List UtxoDelta :=
  let (s, deltas) := acc
  if d.tombstone then
    match s.get d.op with
    | some entry => (s.uncacheEntry d.op entry, deltas ++ [⟨d.op, true, none⟩])
    | none => (s, deltas ++ [⟨d.op, true, none⟩])
  else
    match s.get d.op with
    | some (some entry) => (s, deltas ++ [⟨d.op, false, some entry⟩])
    -- the fresh entry was consumed by the block that made it
    | _ => (s, deltas ++ [⟨d.op, true, none⟩])

def takeDelta : List UtxoDelta × UtxoCache :=
  if !s.trackDeltas then ([], s)
  else if s.deltaPoints = [] then ([], { s with dirtyOps := [] })
  else
    let (s, deltas) := s.deltaPoints.foldl takePoint (s, [])
    (deltas, { s with deltaPoints := [], dirtyOps := [] })

def resetDelta : UtxoCache := { s with deltaPoints := [] }

/-- The entry `fetchEntries` returns for one outpoint. -/
def lookup (op : OutPoint) : Option UtxoEntry :=
  (s.get op).getD (dbFetchUtxoEntry disk op)

/-- The unspent output a lookup through `fetchEntries` resolves to, or its absence. -/
def resolve (op : OutPoint) : Option Coin := unspent (s.lookup disk op)

/-! ## What the cache holds after each operation -/

section Spec
variable {s : UtxoCache} {disk : UtxoBucket} {op k : OutPoint} {entry : Option UtxoEntry} {e : UtxoEntry}

@[simp] theorem get_cacheEntry : (s.cacheEntry sz op entry).get k = if k = op then some entry else s.get k :=
  MapSlice.get_put ..

@[simp] theorem get_uncacheEntry : (s.uncacheEntry op entry).get k = if k = op then none else s.get k :=
  MapSlice.get_delete ..

/-- The fields that neither a lookup nor a block changes. -/
structure SameMeta (s s' : UtxoCache) : Prop where
  maxTotalMemoryUsage : s'.maxTotalMemoryUsage = s.maxTotalMemoryUsage
  trackDeltas : s'.trackDeltas = s.trackDeltas
  hotFloor : s'.hotFloor = s.hotFloor
  lastFlushHash : s'.lastFlushHash = s.lastFlushHash

theorem SameMeta.refl (s : UtxoCache) : SameMeta s s := ⟨rfl, rfl, rfl, rfl⟩

theorem SameMeta.trans {s s' s'' : UtxoCache} (h : SameMeta s s') (h' : SameMeta s' s'') : SameMeta s s'' where
  maxTotalMemoryUsage := h'.1.trans h.1
  trackDeltas := h'.2.trans h.2
  hotFloor := h'.3.trans h.3
  lastFlushHash := h'.4.trans h.4

theorem foldl_cacheEntry (f : OutPoint → Option UtxoEntry) (ops : List OutPoint) (s : UtxoCache) :
    let s' := ops.foldl (fun s op => s.cacheEntry sz op (f op)) s
    (∀ k, s'.get k = if k ∈ ops then some (f k) else s.get k) ∧ s'.dirtyOps = s.dirtyOps ∧
      s'.deltaPoints = s.deltaPoints ∧ SameMeta s s' := by
  induction ops generalizing s with
  | nil => exact ⟨fun k => by simp, rfl, rfl, .refl s⟩
  | cons op ops ih =>
    obtain ⟨hget, hdirty, hdelta, hmeta⟩ := ih (s.cacheEntry sz op (f op))
    refine ⟨fun k => ?_, hdirty, hdelta, hmeta.1, hmeta.2, hmeta.3, hmeta.4⟩
    rw [foldl_cons, hget]
    by_cases hk : k ∈ ops <;> by_cases hop : k = op <;> simp [hop]

theorem fetchEntries_spec (s : UtxoCache) (disk : UtxoBucket) (ops : List OutPoint) :
    let r := s.fetchEntries sz disk ops
    r.1 = ops.map (s.lookup disk) ∧
      (∀ k, r.2.get k = (s.get k).or (if k ∈ ops then some (dbFetchUtxoEntry disk k) else none)) ∧
      r.2.dirtyOps = s.dirtyOps ∧ r.2.deltaPoints = s.deltaPoints ∧ SameMeta s r.2 := by
  obtain ⟨hget, hrest⟩ :=
    foldl_cacheEntry sz (dbFetchUtxoEntry disk) (ops.filter fun op => s.get op = none) s
  refine ⟨rfl, fun k => ?_, hrest⟩
  refine (hget k).trans ?_
  cases h : s.get k <;> simp [h]

theorem lookup_fetchEntries (ops : List OutPoint) : (s.fetchEntries sz disk ops).2.lookup disk k = s.lookup disk k := by
  unfold lookup
  rw [(fetchEntries_spec sz s disk ops).2.1]
  cases s.get k <;> simp
  split <;> rfl

theorem mem_first_fetchEntries (disk : UtxoBucket) (ops : List OutPoint) (hk : s.get k ≠ none) :
    k ∈ (s.fetchEntries sz disk ops).2.cachedEntries.first ↔ k ∈ s.cachedEntries.first := by
  have hfold : ∀ (ops : List OutPoint) (s : UtxoCache), (∀ op ∈ ops, k ≠ op) →
      (k ∈ (ops.foldl (fun s op => s.cacheEntry sz op (dbFetchUtxoEntry disk op)) s).cachedEntries.first ↔
        k ∈ s.cachedEntries.first) := by
    intro ops
    induction ops with
    | nil => exact fun _ _ => Iff.rfl
    | cons op ops ih =>
      intro s hne
      refine (ih _ fun op' hop' => hne op' (mem_cons_of_mem _ hop')).trans ⟨fun h => ?_, fun h => ?_⟩
      · exact (MapSlice.mem_first_put ..).2 (hne op mem_cons_self) h
      · exact (MapSlice.mem_first_put ..).1 h
  refine hfold _ s fun op hop heq => hk ?_
  simpa [heq] using (mem_filter.1 hop).2

/-- The entry of an outpoint whose spent output is recorded: a fresh entry leaves the cache, any other
stays and is marked spent. -/
def spentEntry (e : UtxoEntry) : Option (Option UtxoEntry) := if e.isFresh then none else some (some e.spend)

theorem addTxIn_spec (stxos : Option (List SpentTxOut)) (h : s.lookup disk op = some e) :
    ∃ s', s.addTxIn sz disk op stxos = .ok (s', stxos.map (· ++ [e.coin])) ∧
      (∀ k, s'.get k = if k = op then spentEntry e else s.get k) ∧
      (∀ k, k ∈ s'.dirtyOps ↔ if k = op then e.isFresh = false else k ∈ s.dirtyOps) ∧
      s'.deltaPoints = (if s.trackDeltas then s.deltaPoints ++ [⟨op, true, none⟩] else s.deltaPoints) ∧
      SameMeta s s' := by
  obtain ⟨hr, hget, hdirty, hdelta, hmeta⟩ := fetchEntries_spec sz s disk [op]
  rw [map_singleton, h] at hr
  have hne : ∀ k, k ≠ op → (s.fetchEntries sz disk [op]).2.get k = s.get k := by
    intro k hk
    rw [hget, if_neg (by simpa using hk), Option.or_none]
  unfold addTxIn
  simp only [hr]
  unfold spentEntry
  split
  next hf =>
    refine ⟨_, rfl, fun k => ?_, fun k => ?_, ?_, hmeta.1, hmeta.2, hmeta.3, hmeta.4⟩
    · refine (MapSlice.get_delete ..).trans ?_
      split
      · rfl
      · exact hne k ‹_›
    · simp only [uncacheEntry, hdirty]
      by_cases hk : k = op <;> simp [hk, hf]
    · simp [hdelta, hmeta.trackDeltas]
  next hf =>
    refine ⟨_, rfl, fun k => ?_, fun k => ?_, ?_, hmeta.1, hmeta.2, hmeta.3, hmeta.4⟩
    · refine (MapSlice.get_put ..).trans ?_
      split
      · rfl
      · exact hne k ‹_›
    · simp only [hdirty]
      by_cases hk : k = op <;> simp [hk, hf]
    · simp [hdelta, hmeta.trackDeltas]

/-- The entry `addTxOut` caches for a coin. -/
def freshEntry (c : Coin) : UtxoEntry := ⟨c.amount, c.pkScript, c.blockHeight, c.isCoinBase, false, true, true⟩

/-- What `addTxOut` does for an output that is not provably unspendable. -/
def addCoin (s : UtxoCache) (op : OutPoint) (c : Coin) : UtxoCache :=
  { s.cacheEntry sz op (some (freshEntry c)) with
    dirtyOps := s.dirtyOps.insert op
    deltaPoints := if s.trackDeltas then s.deltaPoints ++ [⟨op, false, none⟩] else s.deltaPoints }

theorem addTxOut_eq (s : UtxoCache) (op : OutPoint) (txOut : TxOut) (coinBase : Bool) (height : Int) :
    s.addTxOut sz op txOut coinBase height =
      if isUnspendable txOut.pkScript then s else s.addCoin sz op ⟨txOut.value, txOut.pkScript, height, coinBase⟩ :=
  rfl

theorem addCoin_spec (s : UtxoCache) (op : OutPoint) (c : Coin) : let s' := s.addCoin sz op c
    (∀ k, s'.get k = if k = op then some (some (freshEntry c)) else s.get k) ∧
      (∀ k, k ∈ s'.dirtyOps ↔ k = op ∨ k ∈ s.dirtyOps) ∧
      s'.deltaPoints = (if s.trackDeltas then s.deltaPoints ++ [⟨op, false, none⟩] else s.deltaPoints) ∧
      SameMeta s s' :=
  ⟨fun _ => get_cacheEntry .., fun _ => mem_insert_iff, rfl, rfl, rfl, rfl, rfl⟩

end Spec

end UtxoCache

end IniNode
