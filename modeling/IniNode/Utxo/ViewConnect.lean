import IniNode.Utxo.Undo
/-!
# Connecting a block to a view

`connectTransactions` does to the unspent outputs of a view what the events of the block say, and records the outputs it
spends. Undone with that record, the block leaves the unspent outputs that were there before it. No output has to be new
among those of the block itself: a transaction takes back what it did, whatever those after it have done.
-/

open IniNode.Lib List Option

namespace IniNode.UtxoViewpoint

variable {view : UtxoViewpoint} {op : OutPoint} {tx : Tx} {height : Int} {stxos : Option (List SpentTxOut)}

def utxos (view : UtxoViewpoint) : UtxoBucket := fun op => unspent (view.lookupEntry op)

/-- Every input of the transactions is unspent before its transaction. -/
def InputsUnspent (height : Int) : UtxoBucket → List Tx → Prop
  | _, [] => True
  | u, tx :: txs =>
    (∀ op ∈ tx.txIn, isCoinBase tx = false → (u op).isSome) ∧
      InputsUnspent height (u.writeAll ((txEvents height tx).map Event.toWrite)) txs

instance decidableInputsUnspent (height : Int) : (u : UtxoBucket) → (txs : List Tx) →
    Decidable (InputsUnspent height u txs)
  | _, [] => isTrue trivial
  | u, tx :: txs =>
    have := decidableInputsUnspent height (u.writeAll ((txEvents height tx).map Event.toWrite)) txs
    inferInstanceAs (Decidable (_ ∧ _))

/-! ## Connecting -/

theorem utxos_of_lookup {view' : UtxoViewpoint} (h : view'.lookup op = view.lookup op) : view'.utxos op = view.utxos op := by
  rw [utxos, utxos, lookupEntry, lookupEntry, h]

theorem utxos_insert (view : UtxoViewpoint) (op : OutPoint) (x : Option UtxoEntry) :
    utxos (view.insert op x) = view.utxos.write ⟨op, unspent x⟩ := by
  funext k
  rw [utxos, lookupEntry, lookup_insert_eq, Store.write_apply]
  split <;> rfl

theorem utxos_addTxOuts (view : UtxoViewpoint) (tx : Tx) (height : Int) :
    (view.addTxOuts tx height).utxos = view.utxos.writeAll ((outputEvents height tx).map Event.toWrite) := by
  unfold addTxOuts outputEvents
  induction tx.outputs generalizing view with
  | nil => rfl
  | cons p ps ih =>
    rw [foldl_cons, ih]
    cases hu : isUnspendable p.2.pkScript with
    | true => simp [hu]
    | false =>
      simp only [filterMap_cons, hu, Bool.false_eq_true, if_false, utxos_insert]
      rfl

theorem connectInputs_spec {f : OutPoint → Option Coin} {ops : List OutPoint}
    (h : ∀ op ∈ ops, ∃ e, view.lookupEntry op = some e ∧ f op = some e.coin) :
    ∃ view', view.connectInputs ops stxos = .ok (view', stxos.map (· ++ ops.filterMap f)) ∧
      view'.utxos = view.utxos.writeAll ((ops.map Event.spend).map Event.toWrite) := by
  induction ops generalizing view stxos with
  | nil => exact ⟨view, by cases stxos <;> simp [connectInputs], rfl⟩
  | cons op ops ih =>
    obtain ⟨e, he, hf⟩ := h op mem_cons_self
    obtain ⟨view', hok, hu⟩ := @ih (view.insert op (some e.spend)) (stxos.map (· ++ [e.coin])) fun k hk => by
      rw [lookupEntry, lookup_insert_eq]
      split
      next heq =>
        subst heq
        exact ⟨e.spend, rfl, hf.trans (by rw [UtxoEntry.spend]; split <;> rfl)⟩
      next => exact h k (mem_cons_of_mem _ hk)
    refine ⟨view', ?_, hu.trans ?_⟩
    · rw [connectInputs, he]
      refine hok.trans ?_
      cases stxos <;> simp [hf]
    · rw [utxos_insert]
      simp [unspent, Event.toWrite]

/-- The outputs that are recorded for a transaction. -/
def spentBy (u : UtxoBucket) (tx : Tx) : List SpentTxOut := if isCoinBase tx then [] else tx.txIn.filterMap u

theorem connectTransaction_spec (h : ∀ op ∈ tx.txIn, isCoinBase tx = false → (view.utxos op).isSome) (height : Int)
    (stxos : Option (List SpentTxOut)) :
    ∃ view', view.connectTransaction tx height stxos = .ok (view', stxos.map (· ++ spentBy view.utxos tx)) ∧
      view'.utxos = view.utxos.writeAll ((txEvents height tx).map Event.toWrite) := by
  rw [connectTransaction, spentBy, txEvents, map_append, Store.writeAll_append]
  cases hcb : isCoinBase tx with
  | true =>
    rw [inputEvents_coinBase hcb]
    exact ⟨view.addTxOuts tx height, by cases stxos <;> simp, utxos_addTxOuts view tx height⟩
  | false =>
    obtain ⟨view', hok, hu⟩ := @connectInputs_spec view stxos view.utxos tx.txIn fun op hop => by
      obtain ⟨c, hc⟩ := isSome_iff_exists.1 (h op hop hcb)
      obtain ⟨e, he, -, rfl⟩ := unspent_eq_some hc
      exact ⟨e, he, hc⟩
    refine ⟨view'.addTxOuts tx height, ?_, ?_⟩
    · simp [hok]
    · rw [utxos_addTxOuts, hu, inputEvents_of_not_coinBase hcb]

theorem writeAll_txEvents {ins : List OutPoint} (hins : inputEvents tx = ins.map .spend) (u : UtxoBucket) (hop : op ∉ ins)
    (hc : ¬ Creates tx op) : u.writeAll ((txEvents height tx).map Event.toWrite) op = u op := by
  refine Store.writeAll_untouched (fun hk => ?_) u
  obtain ⟨w, hw, rfl⟩ := List.mem_map.1 hk
  obtain ⟨e, he, rfl⟩ := List.mem_map.1 hw
  cases e with
  | spend k => exact hop ((spend_mem_txEvents hins).1 he)
  | create k c => exact hc (create_mem_txEvents he)

/-! ## Undoing -/

theorem zip_filterMap {f : OutPoint → Option Coin} {ops : List OutPoint} (h : ∀ op ∈ ops, (f op).isSome) :
    (ops.filterMap f).length = ops.length ∧ ∀ p ∈ ops.zip (ops.filterMap f), f p.1 = some p.2 := by
  induction ops with
  | nil => exact ⟨rfl, nofun⟩
  | cons op ops ih =>
    obtain ⟨c, hc⟩ := isSome_iff_exists.1 (h op mem_cons_self)
    obtain ⟨hlen, hzip⟩ := ih fun k hk => h k (mem_cons_of_mem _ hk)
    rw [filterMap_cons, hc]
    exact ⟨congrArg Nat.succ hlen, forall_mem_cons.2 ⟨hc, hzip⟩⟩

theorem writeAll_ne_zero {u : UtxoBucket} (hheight : height ≠ 0) (hpos : ∀ op c, u op = some c → c.blockHeight ≠ 0)
    (op : OutPoint) (c : Coin) (hc : u.writeAll ((txEvents height tx).map Event.toWrite) op = some c) :
    c.blockHeight ≠ 0 := by
  obtain ⟨w, hw, -, hv⟩ | ⟨-, hc⟩ := Store.of_writeAll hc
  · obtain ⟨e, he, rfl⟩ := List.mem_map.1 hw
    cases e with
    | spend k => cases hv
    | create k c' =>
      cases hv
      rwa [blockHeight_of_txEvents he]
  · exact hpos op c hc

variable (fetchEntryByHash : UtxoViewpoint → Hash → Option UtxoEntry)

/-- Undone from the last one on, transactions leave what was unspent before them; only what they create may be spent. -/
theorem undoTxs_connectTxs (hheight : height ≠ 0) {txs : List Tx} (hncb : ∀ tx ∈ txs, isCoinBase tx = false)
    (hin : InputsUnspent height view.utxos txs) (hpos : ∀ op c, view.utxos op = some c → c.blockHeight ≠ 0) :
    ∃ view1 coins, view.connectTxs height txs stxos = .ok (view1, stxos.map (· ++ coins)) ∧
      coins.length = (txs.map fun tx => tx.txIn.length).sum ∧
      ∀ rest front, ∃ view2, undoTxs fetchEntryByHash height view1 (txs.reverse ++ rest) (front ++ coins) =
          undoTxs fetchEntryByHash height view2 rest front ∧
        ∀ op, view2.utxos op = view.utxos op ∨ view2.utxos op = none ∧ ∃ tx ∈ txs, Creates tx op := by
  induction txs generalizing view stxos with
  | nil => exact ⟨view, [], by cases stxos <;> simp [connectTxs], rfl,
    fun rest front => ⟨view, by simp, fun _ => .inl rfl⟩⟩
  | cons tx txs ih =>
    have hcb := hncb tx mem_cons_self
    have hins := inputEvents_of_not_coinBase hcb
    have hlive := fun op hop => hin.1 op hop hcb
    obtain ⟨v, hok, hu⟩ := connectTransaction_spec hin.1 height stxos
    rw [spentBy, hcb] at hok
    obtain ⟨view1, coins, hoks, hlen, hundo⟩ := @ih v (stxos.map (· ++ tx.txIn.filterMap view.utxos))
      (fun t ht => hncb t (mem_cons_of_mem _ ht)) (hu ▸ hin.2) (hu ▸ writeAll_ne_zero hheight hpos)
    obtain ⟨hlen0, hzip⟩ := zip_filterMap hlive
    refine ⟨view1, tx.txIn.filterMap view.utxos ++ coins, ?_, by simp [hlen0, hlen], fun rest front => ?_⟩
    · rw [connectTxs, hok]
      refine hoks.trans ?_
      cases stxos <;> simp
    obtain ⟨w, hw, hrel⟩ := hundo (tx :: rest) (front ++ tx.txIn.filterMap view.utxos)
    obtain ⟨view2, hok2, -, hlook⟩ :=
      undoTx_spec fetchEntryByHash hlen0 (fun p hp => ⟨hzip p hp, hpos _ _ (hzip p hp)⟩) w rest front
    refine ⟨view2, ?_, fun op => ?_⟩
    · rw [reverse_cons, append_assoc, singleton_append, ← append_assoc, hw, hok2]
    · have hlook := hlook op
      by_cases hop : op ∈ tx.txIn
      · -- an input is restored
        obtain ⟨c, hc⟩ := isSome_iff_exists.1 (hlive op hop)
        rw [if_pos hop] at hlook
        left
        rw [utxos, lookupEntry, hlook, hc]
        rfl
      rw [if_neg hop] at hlook
      obtain ⟨hspent, hkeep⟩ := spendOutputs_spec w tx height false op
      by_cases hcr : Creates tx op
      · obtain ⟨e, he, hs⟩ := hspent hcr
        right
        refine ⟨?_, tx, mem_cons_self, hcr⟩
        rw [utxos, lookupEntry, hlook, he]
        simp [unspent, hs]
      · rw [utxos_of_lookup (hlook.trans (hkeep hcr)), ← writeAll_txEvents hins view.utxos hop hcr, ← hu]
        refine (hrel op).imp_right ?_
        rintro ⟨hnone, t, ht, hct⟩
        exact ⟨hnone, t, mem_cons_of_mem _ ht, hct⟩

/-- For a view in which no output of the block is unspent and a block whose inputs are unspent when they are spent:
connecting it and disconnecting it with the outputs it spent leaves the unspent outputs of the view. -/
theorem disconnectTransactions_connectTransactions {b : Block} (hheight : 0 < height) (hcb : CoinBaseFirst b.transactions)
    (hnew : ∀ tx ∈ b.transactions, ∀ p ∈ tx.outputs, isUnspendable p.2.pkScript = false → view.utxos p.1 = none)
    (hin : InputsUnspent height view.utxos b.transactions)
    (hpos : ∀ op c, view.utxos op = some c → 0 < c.blockHeight) :
    ∃ view1 stxos view2, view.connectTransactions b height (some []) = .ok (view1, some stxos) ∧
      view1.disconnectTransactions fetchEntryByHash b height stxos = .ok view2 ∧ view2.utxos = view.utxos := by
  rw [connectTransactions]
  cases htxs : b.transactions with
  | nil => exact absurd hcb (by simp [htxs, CoinBaseFirst])
  | cons cb txs =>
    rw [htxs] at hcb hnew hin
    have hnew : ∀ tx ∈ cb :: txs, ∀ op, Creates tx op → view.utxos op = none := by
      rintro tx htx op ⟨p, hp, hu, rfl⟩
      exact hnew tx htx p hp hu
    have hins : inputEvents cb = ([] : List OutPoint).map .spend := inputEvents_coinBase hcb.1
    have hheight := Int.ne_of_gt hheight
    obtain ⟨v, hok, hu⟩ := connectTransaction_spec hin.1 height (some [])
    obtain ⟨view1, stxos, hoks, hlen, hundo⟩ :=
      @undoTxs_connectTxs v height (some []) fetchEntryByHash hheight txs hcb.2
      (hu ▸ hin.2) (hu ▸ writeAll_ne_zero hheight fun op c hc => Int.ne_of_gt (hpos op c hc))
    obtain ⟨view2, hundone, hrel⟩ := hundo [] []
    rw [append_nil, nil_append] at hundone
    refine ⟨view1, stxos, view2.spendOutputs cb height true, ?_, ?_, funext fun op => ?_⟩
    · rw [connectTxs, hok, spentBy, if_pos hcb.1]
      exact hoks
    · rw [disconnectTransactions, countSpentOutputs, htxs, tail_cons, if_neg (not_not.2 hlen), hundone]
      rfl
    · obtain ⟨hspent, hkeep⟩ := spendOutputs_spec view2 cb height true op
      by_cases hcr : Creates cb op
      · obtain ⟨e, he, hs⟩ := hspent hcr
        rw [hnew cb mem_cons_self op hcr, utxos, lookupEntry, he]
        simp [unspent, hs]
      · rw [utxos_of_lookup (hkeep hcr)]
        obtain heq | ⟨hnone, tx, htx, hct⟩ := hrel op
        · rw [heq, hu]
          exact writeAll_txEvents hins view.utxos not_mem_nil hcr
        · rw [hnone, hnew tx (mem_cons_of_mem _ htx) op hct]

def oneUnspent : UtxoViewpoint := (∅ : EntryMap).insert ⟨7, 0⟩ (some (UtxoEntry.ofCoin ⟨5, [], 3, false⟩))

/-- The output is spent, what it is spent on is spent together with the output of the coinbase, and another output of the
coinbase is unspendable. -/
def spendingBlock : Block :=
  ⟨1, ⟨1, 0, 0, 0, 0, 0⟩,
    [⟨10, [⟨zeroHash, 2 ^ 32 - 1⟩], [⟨50, []⟩, ⟨0, [opReturn]⟩]⟩, ⟨11, [⟨7, 0⟩], [⟨4, []⟩]⟩,
    ⟨12, [⟨11, 0⟩, ⟨10, 0⟩], [⟨54, []⟩]⟩]⟩

theorem disconnect_connect_spendingBlock : ∃ view1 stxos view2,
    oneUnspent.connectTransactions spendingBlock 4 (some []) = .ok (view1, some stxos) ∧
      view1.disconnectTransactions (fun _ _ => none) spendingBlock 4 stxos = .ok view2 ∧
      view2.utxos = oneUnspent.utxos := by
  refine disconnectTransactions_connectTransactions (fun _ _ => none) (by decide) (by decide) (by decide) (by decide)
    fun op c hc => ?_
  rw [oneUnspent, utxos_insert] at hc
  obtain ⟨-, ⟨⟩⟩ | ⟨-, hc⟩ := Store.of_write hc
  · exact (by decide : (0 : Int) < 3)
  · cases hc

end IniNode.UtxoViewpoint
