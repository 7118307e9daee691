import IniNode.Lib.Ledger
import IniNode.Sugar.Index
/-!
# The index of a chain

What the index is for: the outputs of a chain of blocks, by address. A chain is the list of its blocks from the
genesis block on, each with its spend journal, and the position of a block is its height. The entries of its blocks
are the events of a ledger of outputs. `Covers` says what the tables hold of a chain; it holds of the index that
connecting the blocks one by one makes.
-/

open IniNode.Lib List Option

namespace IniNode.Sugar

open Entry
abbrev OutputLedger := Ledger OutPoint AddressUnspentValue

def stxoValue (stxo : SpentTxOut) : AddressUnspentValue := ⟨stxo.amount, stxo.pkScript, stxo.blockHeight⟩

/-! ## Entries as events -/

/-- What an entry does to the outputs. -/
def Entry.event (height : Int) : Entry → Event OutPoint AddressUnspentValue
  | .spent txIn _ _ _ _ => .spend txIn
  | .received txHash txOut _ vIdx => .create ⟨txHash, vIdx⟩ ⟨txOut.value, txOut.pkScript, height⟩

/-- The output that an entry spends is the one in the journal. -/
def Entry.Journalled (l : OutputLedger) : Entry → Prop
  | .spent txIn stxo _ _ _ => l.live txIn = some (stxoValue stxo)
  | .received .. => True

/-- The entries spend outputs that are there, as the journal has them, and create new ones. -/
def Fits (height : Int) (l : OutputLedger) : List Entry → Prop
  | [] => True
  | e :: es => l.Allows (e.event height) ∧ e.Journalled l ∧ Fits height (l.step (e.event height)) es

instance (l : OutputLedger) (e : Entry) : Decidable (e.Journalled l) := by
  cases e <;> dsimp only [Entry.Journalled] <;> infer_instance

instance decidableFits (height : Int) : (l : OutputLedger) → (es : List Entry) → Decidable (Fits height l es)
  | _, [] => isTrue trivial
  | l, e :: es =>
    have := decidableFits height (l.step (e.event height)) es
    inferInstanceAs (Decidable (_ ∧ _ ∧ _))

variable {height : Int} {l : OutputLedger} {e : Entry} {es : List Entry} {k : AddressUnspentKey}

theorem Fits.valid (h : Fits height l es) : l.Valid (es.map (event height)) := by
  induction es generalizing l with
  | nil => trivial
  | cons e es ih => exact ⟨h.1, ih h.2.2⟩

/-- The unspent outputs with a known address, by address. -/
def unspentOf (l : OutputLedger) : Store AddressUnspentKey AddressUnspentValue :=
  fun k => (l.live k.outPoint).filter fun v => address v.script = some k.address

theorem unspentOf_congr {l' : OutputLedger} (h : l'.live k.outPoint = l.live k.outPoint) :
    unspentOf l' k = unspentOf l k := by
  rw [unspentOf, unspentOf, h]

theorem unspentOf_eq {v : AddressUnspentValue} (h : l.live k.outPoint = some v) :
    unspentOf l k = if address v.script = some k.address then some v else none := by
  rw [unspentOf, h, filter_some]
  simp

theorem unspentOf_eq_none (h : l.live k.outPoint = none) : unspentOf l k = none := by
  rw [unspentOf, h, filter_none]

/-! ## What an entry writes about the unspent outputs -/

def Entry.outPoint : Entry → OutPoint
  | .spent txIn _ _ _ _ => txIn
  | .received txHash _ _ vIdx => ⟨txHash, vIdx⟩

@[simp] theorem Entry.key_event (e : Entry) : (e.event height).key = e.outPoint := by
  cases e <;> rfl

/-- The entry is about the output of the key and names its address. -/
def Entry.Touches (e : Entry) (k : AddressUnspentKey) : Prop :=
  k.outPoint = e.outPoint ∧ address e.script = some k.address
deriving Decidable

/-- What is under the key of the output once the entry is connected. -/
def Entry.addValue (height : Int) : Entry → Option AddressUnspentValue
  | .spent .. => none
  | .received _ txOut _ _ => some ⟨txOut.value, txOut.pkScript, height⟩

/-- What is under the key of the output once the entry is disconnected. -/
def Entry.undoValue : Entry → Option AddressUnspentValue
  | .spent _ stxo _ _ _ => some (stxoValue stxo)
  | .received .. => none

/-- One write to the key of the output, if its address is known. -/
def Entry.unspentWrite (e : Entry) (value : Option AddressUnspentValue) :
    List (Write AddressUnspentKey AddressUnspentValue) :=
  ((address e.script).map fun a => ⟨⟨a, e.outPoint⟩, value⟩).toList

variable (t : Store AddressUnspentKey AddressUnspentValue)

theorem writeAll_unspentWrite (e : Entry) (value : Option AddressUnspentValue) (k : AddressUnspentKey) :
    t.writeAll (e.unspentWrite value) k = if e.Touches k then value else t k := by
  unfold unspentWrite
  cases ha : address e.script with
  | none =>
    rw [if_neg fun h => absurd (ha.symm.trans h.2) (by simp)]
    rfl
  | some a =>
    simp only [map_some, toList_some, Store.writeAll_cons, Store.writeAll_nil, Store.write_apply]
    refine if_congr ?_ rfl rfl
    obtain ⟨addr, op⟩ := k
    simp only [AddressUnspentKey.mk.injEq, Entry.Touches, ha, Option.some.injEq]
    exact ⟨fun h => ⟨h.2, h.1.symm⟩, fun h => ⟨h.2.symm, h.1⟩⟩

theorem writeAll_add (e : Entry) (k : AddressUnspentKey) :
    t.writeAll (e.add height).addressUnspent k = if e.Touches k then e.addValue height else t k := by
  rw [← writeAll_unspentWrite]
  cases e with
  | spent txIn stxo txHash txIdx inIdx =>
    simp only [add, addSpent, unspentWrite, script]
    cases address stxo.pkScript <;> rfl
  | received txHash txOut txIdx vIdx =>
    simp only [add, addReceived, unspentWrite, script]
    cases address txOut.pkScript <;> rfl

theorem writeAll_undo (e : Entry) (k : AddressUnspentKey) :
    t.writeAll (e.undo height).addressUnspent k = if e.Touches k then e.undoValue else t k := by
  rw [← writeAll_unspentWrite]
  cases e with
  | spent txIn stxo txHash txIdx inIdx =>
    simp only [undo, undoSpent, unspentWrite, script]
    cases address stxo.pkScript <;> rfl
  | received txHash txOut txIdx vIdx =>
    simp only [undo, undoReceived, unspentWrite, script]
    cases address txOut.pkScript <;> rfl

theorem unspentOf_add (ha : l.Allows (e.event height)) (hj : e.Journalled l) :
    (unspentOf l).writeAll (e.add height).addressUnspent = unspentOf (l.step (e.event height)) := by
  funext k
  rw [writeAll_add]
  by_cases hk : k.outPoint = e.outPoint
  · cases e with
    | spent txIn stxo txHash txIdx inIdx =>
      have hlive : l.live k.outPoint = some (stxoValue stxo) := hk ▸ hj
      have hafter : (l.step (.spend txIn)).live k.outPoint = none := (l.step_spend_live ..).trans (if_pos hk)
      rw [event, unspentOf_eq_none hafter, unspentOf_eq hlive]
      by_cases hs : address stxo.pkScript = some k.address
      · rw [if_pos ⟨hk, hs⟩]
        rfl
      · rw [if_neg (fun h => hs h.2), if_neg (show ¬ address (stxoValue stxo).script = _ from hs)]
    | received txHash txOut txIdx vIdx =>
      have hlive : l.live k.outPoint = none := Ledger.live_none_of_origin_none (hk ▸ ha)
      have hafter : (l.step (.create ⟨txHash, vIdx⟩ ⟨txOut.value, txOut.pkScript, height⟩)).live k.outPoint =
          some ⟨txOut.value, txOut.pkScript, height⟩ := (l.step_create_live ..).trans (if_pos hk)
      rw [event, unspentOf_eq hafter, unspentOf_eq_none hlive]
      refine if_congr ?_ rfl rfl
      exact and_iff_right hk
  · have hne : k.outPoint ≠ (e.event height).key := by rwa [key_event]
    rw [unspentOf_congr (Ledger.step_live_ne hne), if_neg (fun h => hk h.1)]

theorem unspentOf_run (h : Fits height l es) :
    (unspentOf l).writeAll (es.flatMap fun e => (e.add height).addressUnspent) =
      unspentOf (l.run (es.map (event height))) := by
  induction es generalizing l with
  | nil => rfl
  | cons e es ih =>
    rw [flatMap_cons, Store.writeAll_append, unspentOf_add h.1 h.2.1, ih h.2.2]
    rfl

theorem addUnspent_untouched {t : Store AddressUnspentKey AddressUnspentValue}
    (h : ∀ e ∈ es, ¬ e.Touches k) : t.writeAll (es.flatMap fun e => (e.add height).addressUnspent) k = t k := by
  induction es generalizing t with
  | nil => rfl
  | cons e es ih =>
    rw [flatMap_cons, Store.writeAll_append, ih fun e' he' => h e' (mem_cons_of_mem _ he'), writeAll_add,
      if_neg (h e mem_cons_self)]

/-! ## Chains -/

/-- The blocks of a chain with their spend journals, the tip first. The height of a block is the number of blocks
below it. -/
abbrev Chain := List (Block × List SpentTxOut)

def blockAt (chain : Chain) (height : Nat) : Option (Block × List SpentTxOut) :=
  if height < chain.length then chain[chain.length - 1 - height]? else none

def ledgerOf : Chain → OutputLedger
  | [] => .empty
  | (block, stxos) :: below =>
    (ledgerOf below).run (((blockEntries 0 block.transactions stxos).getD []).map (event below.length))

/-- The index that connecting the blocks of a chain one by one makes, if none of them panics. -/
def indexOf : Chain → Option Index
  | [] => some .empty
  | (block, stxos) :: below => (indexOf below).bind fun s => s.connectBlock below.length block stxos

/-- A block that the chain may have on top, with its journal: the journal holds the outputs that the block spends, in
order; the transactions are distinct, as `checkBlockSanity` has it; and the block names the tip as its parent. -/
structure NextBlock (below : Chain) (block : Block) (stxos : List SpentTxOut) : Prop where
  journal : ∃ es, blockEntries 0 block.transactions stxos = some es ∧ Fits below.length (ledgerOf below) es
  distinct : (block.transactions.map Tx.hash).Nodup
  links : ∀ p ∈ below.head?, block.prevBlock = p.1.hash

/-- Every block of the chain is one the chain below it may have on top. -/
def ValidChain : Chain → Prop
  | [] => True
  | (block, stxos) :: below => NextBlock below block stxos ∧ ValidChain below

/-- The index agrees with a chain: it has no delta of a block above, the unspent outputs are those of the chain, an
output in the spent index was spent by it, and the tip is its tip. Of the timestamp and the txid table nothing is
said. -/
structure Agrees (s : Index) (chain : Chain) : Prop where
  deltas : ∀ k, (s.addressIndex k).isSome → k.blockHeight < chain.length
  unspent : s.addressUnspent = unspentOf (ledgerOf chain)
  spents : ∀ op, (s.spentIndex op).isSome → (ledgerOf chain).live op = none ∧ ((ledgerOf chain).origin op).isSome
  tip : s.tip = chain.head?.map fun p => (p.1.hash, (chain.length : Int) - 1)

theorem agrees_empty : Agrees .empty [] where
  deltas := by
    intro k h
    cases h
  unspent := rfl
  spents := by
    intro op h
    cases h
  tip := rfl

variable {s s' : Index} {below : Chain} {block : Block} {stxos : List SpentTxOut}

theorem blockEntries_of_entries (h : entries block stxos = some es) :
    blockEntries 0 block.transactions stxos = some es := (filter_eq_some_iff.1 h).1

theorem ledgerOf_cons (below : Chain) (h : blockEntries 0 block.transactions stxos = some es) :
    ledgerOf ((block, stxos) :: below) = (ledgerOf below).run (es.map (event below.length)) := by
  rw [ledgerOf, h, getD_some]

theorem height_of_mem_add {w : Write AddressIndexKey Int} (h : w ∈ (e.add height).addressIndex) :
    w.key.blockHeight = height := by
  cases e with
  | spent txIn stxo txHash txIdx inIdx =>
    simp only [add, addSpent] at h
    split at h
    · cases h
    · rw [mem_singleton.1 h]
  | received txHash txOut txIdx vIdx =>
    simp only [add, addReceived] at h
    split at h
    · cases h
    · rw [mem_singleton.1 h]

variable {w : Write OutPoint SpentIndexValue}

theorem spend_of_mem_add (h : w ∈ (e.add height).spentIndex) : e.event height = .spend w.key := by
  cases e with
  | spent txIn stxo txHash txIdx inIdx =>
    simp only [add, addSpent] at h
    split at h
    · cases h
    · rw [mem_singleton.1 h]
      rfl
  | received txHash txOut txIdx vIdx =>
    simp only [add, addReceived] at h
    split at h <;> cases h

theorem spend_mem_of_spentIndex (h : w ∈ es.flatMap fun e => (e.add height).spentIndex) :
    .spend w.key ∈ es.map (event height) := by
  obtain ⟨e, he, hw⟩ := mem_flatMap.1 h
  exact List.mem_map.2 ⟨e, he, spend_of_mem_add hw⟩

theorem origin_of_spend_mem {l : OutputLedger} {evs : List (Event OutPoint AddressUnspentValue)} {op : OutPoint}
    (hv : l.Valid evs) (h : .spend op ∈ evs) : ((l.run evs).origin op).isSome := by
  by_cases hc : ∃ v, .create op v ∈ evs
  · obtain ⟨v, hc⟩ := hc
    rw [hv.origin_of_create_mem hc]
    rfl
  · obtain ⟨v, -, ho⟩ := hv.live_of_spend_only h (not_exists.1 hc)
    rw [ho]
    rfl

theorem Agrees.connect (ha : Agrees s below) (hn : NextBlock below block stxos)
    (h : s.connectBlock below.length block stxos = some s') : Agrees s' ((block, stxos) :: below) := by
  obtain ⟨es, hes, hfits⟩ := hn.journal
  have hes' : entries block stxos = some es := by
    rw [Index.connectBlock, connectBlockBatch, Option.map_map, map_eq_some_iff] at h
    obtain ⟨es', hes', -⟩ := h
    rwa [hes.symm.trans (blockEntries_of_entries hes')]
  rw [connectBlock_eq hes', Option.some.injEq] at h
  subst h
  have hl := ledgerOf_cons below hes
  refine ⟨?_, ?_, ?_, ?_⟩
  · intro k hk
    simp only [length_cons] at hk ⊢
    by_cases hw : k ∈ (es.flatMap fun e => (e.add below.length).addressIndex).map Write.key
    · obtain ⟨w, hmem, rfl⟩ := List.mem_map.1 hw
      obtain ⟨e, -, hadd⟩ := mem_flatMap.1 hmem
      rw [height_of_mem_add hadd]
      omega
    · have := ha.deltas k (by rwa [Store.writeAll_untouched hw] at hk)
      omega
  · rw [hl, ← unspentOf_run hfits, ha.unspent]
  · intro op hop
    have hv := hfits.valid
    dsimp only at hop
    rw [hl]
    by_cases hw : op ∈ (es.flatMap fun e => (e.add below.length).spentIndex).map Write.key
    · obtain ⟨w, hmem, rfl⟩ := List.mem_map.1 hw
      have hs := spend_mem_of_spentIndex hmem
      exact ⟨hv.live_of_spend_mem hs, origin_of_spend_mem hv hs⟩
    · obtain ⟨hlive, ho⟩ := ha.spents op (by rwa [Store.writeAll_untouched hw] at hop)
      obtain ⟨v, ho⟩ := isSome_iff_exists.1 ho
      exact ⟨hv.live_of_spent_before ho hlive, by rw [hv.origin_stable ho]; rfl⟩
  · simp

theorem agrees_indexOf {chain : Chain} (hc : ValidChain chain) (h : indexOf chain = some s) : Agrees s chain := by
  induction chain generalizing s with
  | nil =>
    cases h
    exact agrees_empty
  | cons p below ih =>
    obtain ⟨s0, hs0, hs⟩ := bind_eq_some_iff.1 h
    exact (ih hc.2 hs0).connect hc.1 hs

end IniNode.Sugar
