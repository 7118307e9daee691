import IniNode.Utxo.View
/-!
# Amounts

`CalcBlockSubsidy`, and the checks of `CheckTransactionSanity` and `CheckTransactionInputs`. The largest amount they accept
is that of another chain; the blocks up to height 488944 pay out more.
-/

open List

namespace IniNode

/-! ## The subsidy -/

def baseSubsidy : Nat := 4294967296

/-- `CalcBlockSubsidy`, by the halving interval of the network. -/
def calcBlockSubsidy (interval height : Nat) : Int :=
  if interval = 0 then baseSubsidy else (baseSubsidy >>> (height / interval) : Nat)

/-- The `SubsidyReductionInterval` of the main and the test network. -/
def sugarReductionInterval : Nat := 12500000

/-- What the blocks up to a height pay out. -/
def emission (interval : Nat) : Nat → Int
  | 0 => calcBlockSubsidy interval 0
  | h + 1 => emission interval h + calcBlockSubsidy interval (h + 1)

theorem calcBlockSubsidy_nonneg (interval height : Nat) : 0 ≤ calcBlockSubsidy interval height := by
  unfold calcBlockSubsidy
  split <;> exact Int.natCast_nonneg _

theorem emission_mono (interval : Nat) : Monotone (emission interval) := by
  refine monotone_nat_of_le_succ fun h => ?_
  have := calcBlockSubsidy_nonneg interval (h + 1)
  rw [emission]
  omega

theorem emission_of_lt {interval h : Nat} (hlt : h < interval) : emission interval h = (h + 1) * baseSubsidy := by
  have hbase : ∀ {k}, k < interval → calcBlockSubsidy interval k = baseSubsidy := by
    intro k hk
    rw [calcBlockSubsidy, if_neg (by omega), Nat.div_eq_of_lt hk, Nat.shiftRight_zero]
  induction h with
  | zero => rw [emission, hbase hlt]; rfl
  | succ h ih =>
    rw [emission, ih (by omega), hbase hlt]
    push_cast
    rw [Int.add_mul (_ + 1) 1, Int.one_mul]

/-! ## The checks of a transaction -/

def maxSatoshi : Int := 21000000 * 100000000

/-- The codes of the rule errors of a transaction. -/
inductive TxRuleError
  | noTxInputs | noTxOutputs | txTooBig | badTxOutValue | duplicateTxInputs | badCoinbaseScriptLen | badTxInput
  | missingTxOut | immatureSpend | spendTooHigh
deriving DecidableEq, Repr

/-- The loop of `CheckTransactionSanity` over the outputs, with the total so far. -/
def outputsInRange : Int → List TxOut → Bool
  | _, [] => true
  | total, out :: outs =>
    let total' := toInt64 (total + out.value)
    0 ≤ out.value && out.value ≤ maxSatoshi && 0 ≤ total' && total' ≤ maxSatoshi && outputsInRange total' outs

/-- `CheckTransactionSanity`, with the size of the transaction and that of its first signature script. -/
def checkTransactionSanity (size scriptLen : Nat) (tx : Tx) : Except TxRuleError Unit :=
  if tx.txIn = [] then .error .noTxInputs
  else if tx.txOut = [] then .error .noTxOutputs
  else if 1000000 < size then .error .txTooBig
  else if !outputsInRange 0 tx.txOut then .error .badTxOutValue
  else if ¬ tx.txIn.Nodup then .error .duplicateTxInputs
  else if isCoinBase tx then if scriptLen < 2 ∨ 100 < scriptLen then .error .badCoinbaseScriptLen else .ok ()
  else if ⟨zeroHash, 2 ^ 32 - 1⟩ ∈ tx.txIn then .error .badTxInput
  else .ok ()

/-- The loop of `CheckTransactionInputs` over the inputs, with the total so far. -/
def sumInputs (coinbaseMaturity txHeight : Int) (view : UtxoViewpoint) : Int → List OutPoint → Except TxRuleError Int
  | total, [] => .ok total
  | total, op :: ops =>
    match view.lookupEntry op with
    | none => .error .missingTxOut
    | some utxo =>
      let total' := toInt64 (total + utxo.amount)
      if utxo.isSpent then .error .missingTxOut
      else if utxo.isCoinBase ∧ txHeight - utxo.blockHeight < coinbaseMaturity then .error .immatureSpend
      else if utxo.amount < 0 ∨ maxSatoshi < utxo.amount then .error .badTxOutValue
      else if total' < total ∨ maxSatoshi < total' then .error .badTxOutValue
      else sumInputs coinbaseMaturity txHeight view total' ops

def checkTransactionInputs (coinbaseMaturity txHeight : Int) (view : UtxoViewpoint) (tx : Tx) : Except TxRuleError Int :=
  if isCoinBase tx then .ok 0
  else
    match sumInputs coinbaseMaturity txHeight view 0 tx.txIn with
    | .error err => .error err
    | .ok totalIn =>
      let totalOut := tx.txOut.foldl (fun total out => toInt64 (total + out.value)) 0
      if totalIn < totalOut then .error .spendTooHigh else .ok (toInt64 (totalIn - totalOut))

theorem toInt64_of_range {x : Int} (h0 : 0 ≤ x) (hmax : x ≤ maxSatoshi) : toInt64 x = x := by
  unfold maxSatoshi at hmax
  exact Int.bmod_eq_of_le (by omega) (by omega)

theorem outputsInRange_of_sum_le {total : Int} {outs : List TxOut} (h0 : 0 ≤ total)
    (hv : ∀ out ∈ outs, 0 ≤ out.value)
    (hsum : total + (outs.map TxOut.value).sum ≤ maxSatoshi) : outputsInRange total outs = true := by
  induction outs generalizing total with
  | nil => rfl
  | cons out outs ih =>
    have hout := hv out mem_cons_self
    have hrest : 0 ≤ (outs.map TxOut.value).sum :=
      sum_nonneg (List.forall_mem_map.2 fun o ho => hv o (mem_cons_of_mem _ ho))
    rw [map_cons, sum_cons] at hsum
    rw [outputsInRange, toInt64_of_range (by omega) (by omega),
      ih (by omega) (fun o ho => hv o (mem_cons_of_mem _ ho)) (by omega)]
    simp only [Bool.and_true, Bool.and_eq_true, decide_eq_true_eq]
    omega

def amountAt (view : UtxoViewpoint) (op : OutPoint) : Int := ((view.lookupEntry op).map UtxoEntry.amount).getD 0

theorem sumInputs_ne_badTxOutValue {maturity height total : Int} {view : UtxoViewpoint} {ops : List OutPoint}
    (h0 : 0 ≤ total)
    (hv : ∀ op ∈ ops, 0 ≤ amountAt view op) (hsum : total + (ops.map (amountAt view)).sum ≤ maxSatoshi) :
    sumInputs maturity height view total ops ≠ .error .badTxOutValue := by
  induction ops generalizing total with
  | nil => nofun
  | cons op ops ih =>
    have hop := hv op mem_cons_self
    have hrest : 0 ≤ (ops.map (amountAt view)).sum :=
      sum_nonneg (List.forall_mem_map.2 fun o ho => hv o (mem_cons_of_mem _ ho))
    rw [map_cons, sum_cons] at hsum
    rw [sumInputs]
    split
    · nofun
    next utxo hutxo =>
      have hamount : amountAt view op = utxo.amount := by rw [amountAt, hutxo]; rfl
      dsimp only
      rw [toInt64_of_range (by omega) (by omega), if_neg (show ¬ (utxo.amount < 0 ∨ maxSatoshi < utxo.amount) by omega),
        if_neg (show ¬ (total + utxo.amount < total ∨ maxSatoshi < total + utxo.amount) by omega)]
      split_ifs
      · nofun
      · nofun
      · exact ih (by omega) (fun o ho => hv o (mem_cons_of_mem _ ho)) (by omega)

/-! ## The range against the subsidy -/

/-- The transaction moves coins that were paid out up to a height: together they are no more than that, and it does not
create any. -/
structure MovesMined (height : Nat) (view : UtxoViewpoint) (tx : Tx) : Prop where
  inputs : ∀ op ∈ tx.txIn, 0 ≤ amountAt view op
  mined : (tx.txIn.map (amountAt view)).sum ≤ emission sugarReductionInterval height
  outputs : ∀ out ∈ tx.txOut, 0 ≤ out.value
  covered : (tx.txOut.map TxOut.value).sum ≤ (tx.txIn.map (amountAt view)).sum

/-- The range covers what the blocks pay out, and with it every transaction that moves it, up to height 488943. -/
theorem money_range_covers_iff (height : Nat) :
    (emission sugarReductionInterval height ≤ maxSatoshi ∧ ∀ size scriptLen maturity txHeight view tx,
      MovesMined height view tx → checkTransactionSanity size scriptLen tx ≠ .error .badTxOutValue ∧
        checkTransactionInputs maturity txHeight view tx ≠ .error .badTxOutValue) ↔ height ≤ 488943 := by
  constructor
  · rintro ⟨hmax, -⟩
    by_contra hlt
    have hmono := emission_mono sugarReductionInterval (show 488944 ≤ height by omega)
    rw [emission_of_lt (by decide)] at hmono
    unfold baseSubsidy at hmono
    unfold maxSatoshi at hmax
    omega
  · intro hle
    have hmax : emission sugarReductionInterval height ≤ maxSatoshi := by
      rw [emission_of_lt (by unfold sugarReductionInterval; omega)]
      unfold baseSubsidy maxSatoshi
      omega
    refine ⟨hmax, fun size scriptLen maturity txHeight view tx h => ⟨?_, ?_⟩⟩
    · have hin := h.mined
      have hout := h.covered
      unfold checkTransactionSanity
      rw [outputsInRange_of_sum_le (le_refl 0) h.outputs (by omega), Bool.not_true, if_neg Bool.false_ne_true]
      split_ifs <;> nofun
    · have hin := h.mined
      have hsum := @sumInputs_ne_badTxOutValue maturity txHeight 0 view tx.txIn (le_refl 0) h.inputs (by omega)
      unfold checkTransactionInputs
      split_ifs
      · nofun
      · split
        next err herr => exact fun he => hsum (herr.trans (congrArg Except.error (Except.error.inj he)))
        next =>
          dsimp only
          split_ifs <;> nofun

/-- Two outputs that hold all that was paid out up to height 488944, and a transaction that merges them. -/
def hoard : UtxoViewpoint :=
  let entry (blocks : Int) : UtxoEntry := ⟨blocks * 4294967296, [], 488944, false, false, false, false⟩
  AList.insert (⟨1, 0⟩ : OutPoint) (some (entry 244472)) (AList.insert ⟨2, 0⟩ (some (entry 244473)) ∅)

def merge : Tx := ⟨3, [⟨1, 0⟩, ⟨2, 0⟩], [⟨488945 * 4294967296, []⟩]⟩

theorem merge_refused : MovesMined 488944 hoard merge ∧ checkTransactionSanity 200 0 merge = .error .badTxOutValue ∧
    checkTransactionInputs 100 600000 hoard merge = .error .badTxOutValue ∧
    maxSatoshi < emission sugarReductionInterval 488944 := by
  have hsum : emission sugarReductionInterval 488944 = 488945 * 4294967296 := by
    rw [emission_of_lt (by decide)]
    rfl
  refine ⟨⟨by decide +kernel, ?_, by decide, by decide +kernel⟩, by decide, by decide +kernel, ?_⟩ <;> rw [hsum] <;>
    decide +kernel

end IniNode
