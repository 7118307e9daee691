import IniNode.Wire
/-!
# Payments

`Send` and `buildSignBroadcastToken`: coins are taken largest first until the int64 need is covered, and what they hold
above it becomes change. The selection is the smallest one that covers the need (`selects_fewest`). Nothing checks the
sums: the transaction pays its fee, for every list of coins, exactly if payments and fee stay below a bound
(`conserves_iff`).
-/

open List

namespace IniNode.Wallets

/-! ## The pipelines -/

def dustThreshold : Int := 546

structure UTXO where
  txID : String
  index : Nat
  value : Int
  script : String
  address : String

structure SendOutput where
  address : String
  amount : Int

/-- `spendInput`: the output with its script decoded. -/
structure SpendInput where
  utxo : UTXO
  script : List UInt8

/-- The transaction of a `SendResult`, with what its inputs spend. -/
structure SignedTx where
  inputs : List SpendInput
  outputs : List TxOut

/-- What the pipelines call. -/
structure SendEnv where
  /-- `hex.DecodeString`. -/
  decodeString : String → Option (List UInt8)
  /-- `DecodeAddress` and `PayToAddrScript`. -/
  payToAddrScript : String → Option (List UInt8)
  /-- The script of the address at index 0. -/
  changeScript : Option (List UInt8)
  /-- The OP_RETURN script of a payload. -/
  payloadScript : List UInt8 → Option (List UInt8)
  /-- Every txid parses, every address has its key in the wallet, and `signInput` succeeds on every input. -/
  signs : List SpendInput → List TxOut → Bool

/-- A total as the loops add it up. -/
def sumInt64 (l : List Int) : Int := l.foldl (fun total v => toInt64 (total + v)) 0

def total (us : List UTXO) : Int := (us.map (·.value)).sum

def inputTotal (chosen : List SpendInput) : Int := total (chosen.map (·.utxo))

/-- `sort.SliceStable` by value. -/
def largestFirst (utxos : List UTXO) : List UTXO := utxos.insertionSort fun u v => v.value ≤ u.value

def selectCoins (env : SendEnv) (need : Int) : Int → List UTXO → Option (List SpendInput × Int)
  | totalIn, [] => some ([], totalIn)
  | totalIn, u :: us =>
    if need ≤ totalIn then some ([], totalIn)
    else
      (env.decodeString u.script).bind fun script =>
        (selectCoins env need (toInt64 (totalIn + u.value)) us).map fun r => (⟨u, script⟩ :: r.1, r.2)

variable (env : SendEnv)

/-- The coins of `Send`, when they suffice. -/
def coinsForSend (need : Int) (utxos : List UTXO) : Option (List SpendInput × Int) :=
  (selectCoins env need 0 (largestFirst utxos)).filter fun r => need ≤ r.2

/-- The coins of `buildSignBroadcastToken`, when they suffice. -/
def coinsForToken (need : Int) (utxos : List UTXO) : Option (List SpendInput × Int) :=
  (selectCoins env need 0 (largestFirst utxos)).filter fun r => r.1 ≠ [] ∧ need ≤ r.2

/-- The payments, the change unless it is dust, and the signatures. -/
def finish (inputs : List SpendInput) (payments : List TxOut) (change : Int) : Option SignedTx :=
  env.changeScript.bind fun script =>
    let outputs := payments ++ if dustThreshold ≤ change then [⟨change, script⟩] else []
    if env.signs inputs outputs then some ⟨inputs, outputs⟩ else none

def parseOutputs (env : SendEnv) : List SendOutput → Option (List TxOut)
  | [] => some []
  | o :: os =>
    if o.amount ≤ 0 then none
    else (env.payToAddrScript o.address).bind fun script => (parseOutputs env os).map (⟨o.amount, script⟩ :: ·)

def buildAndSign (inputs : List SpendInput) (outputs : List SendOutput) (fee : Int) : Option SignedTx :=
  if outputs = [] ∨ fee < 0 ∨ inputs = [] then none
  else
    (parseOutputs env outputs).bind fun parsed =>
      let totalIn := sumInt64 (inputs.map (·.utxo.value))
      let need := toInt64 (sumInt64 (outputs.map (·.amount)) + fee)
      if totalIn < need then none else finish env inputs parsed (toInt64 (totalIn - need))

def send (utxos : List UTXO) (outputs : List SendOutput) (fee : Int) : Option SignedTx :=
  if outputs = [] ∨ 10 < outputs.length then none
  else
    (coinsForSend env (toInt64 (sumInt64 (outputs.map (·.amount)) + fee)) utxos).bind fun r =>
      buildAndSign env r.1 outputs fee

def buildSignBroadcastToken (utxos : List UTXO) (payloadHex markerAddr : String) (markerAmount fee : Int) :
    Option SignedTx :=
  if fee < 0 then none
  else
    (env.decodeString payloadHex).bind fun payload =>
      let need := if markerAddr ≠ "" then toInt64 (fee + markerAmount) else fee
      (coinsForToken env need utxos).bind fun r =>
        let markers := if markerAddr ≠ "" ∧ 0 < markerAmount then [⟨markerAddr, markerAmount⟩] else []
        (parseOutputs env markers).bind fun marker => (env.payloadScript payload).bind fun opReturnScript =>
          finish env r.1 (marker ++ [⟨0, opReturnScript⟩]) (toInt64 (r.2 - need))

/-! ## The fewest inputs -/

variable {env : SendEnv} {need : Int} {utxos : List UTXO}

theorem toInt64_of_lt {x : Int} (h0 : 0 ≤ x) (hlt : x < 2 ^ 63) : toInt64 x = x :=
  Int.bmod_eq_of_le (by omega) (by omega)

theorem sumInt64_eq (l : List Int) : sumInt64 l = toInt64 l.sum := by
  have hfold : ∀ t, l.foldl (fun total v => toInt64 (total + v)) (toInt64 t) = toInt64 (t + l.sum) := by
    induction l with
    | nil => simp
    | cons v l ih =>
      intro t
      rw [foldl_cons, sum_cons, ← Int.add_assoc, ← ih (t + v), toInt64, toInt64, toInt64, Int.bmod_add_bmod]
  have h := hfold 0
  rwa [Int.zero_add] at h

theorem largestFirst_perm (utxos : List UTXO) : (largestFirst utxos).Perm utxos := perm_insertionSort _ utxos

theorem largestFirst_sorted (utxos : List UTXO) : (largestFirst utxos).Pairwise fun u v => v.value ≤ u.value := by
  exact pairwise_insertionSort _ utxos

@[simp] theorem total_cons (u : UTXO) (us : List UTXO) : total (u :: us) = u.value + total us := by simp [total]

@[simp] theorem total_append (us vs : List UTXO) : total (us ++ vs) = total us + total vs := by simp [total]

theorem total_le {p us : List UTXO} (hpos : ∀ u ∈ us, 0 ≤ u.value) (hp : p <+ us) : total p ≤ total us := by
  refine (hp.map _).sum_le_sum fun v hv => ?_
  obtain ⟨u, hu, rfl⟩ := mem_map.1 hv
  exact hpos u hu

/-- No sum that the loop adds up leaves the int64 range. -/
def Fits (need t : Int) (us : List UTXO) : Prop :=
  ∀ p v, p ++ [v] <+: us → t + total p < need → t + total p + v.value < 2 ^ 63

theorem fits_of_total {us : List UTXO} (hpos : ∀ u ∈ us, 0 ≤ u.value) (hsum : total us < 2 ^ 63) : Fits need 0 us := by
  intro p v hp _
  have := total_le hpos hp.sublist
  rw [total_append, total_cons] at this
  simp only [total, map_nil, sum_nil] at this hsum ⊢
  omega

theorem selectCoins_isSome (h : ∀ u ∈ utxos, (env.decodeString u.script).isSome) (t : Int) :
    ∃ r, selectCoins env need t utxos = some r := by
  induction utxos generalizing t with
  | nil => exact ⟨_, rfl⟩
  | cons u us ih =>
    rw [selectCoins]
    split
    · exact ⟨_, rfl⟩
    · obtain ⟨script, hscript⟩ := Option.isSome_iff_exists.1 (h u mem_cons_self)
      obtain ⟨r, hr⟩ := ih (fun v hv => h v (mem_cons_of_mem _ hv)) (toInt64 (t + u.value))
      exact ⟨_, by rw [hscript, Option.bind_some, hr, Option.map_some]⟩

/-- What the loop takes: the first coins, enough or all of them, and no more than it has to. -/
theorem selectCoins_spec {us : List UTXO} {t : Int} (ht : 0 ≤ t ∧ t < 2 ^ 63) (hpos : ∀ u ∈ us, 0 ≤ u.value)
    (hfit : Fits need t us) {r : List SpendInput × Int} (h : selectCoins env need t us = some r) :
    r.1.map (·.utxo) <+: us ∧ (r.2 = t + inputTotal r.1 ∧ r.2 < 2 ^ 63) ∧
    (need ≤ r.2 ∨ r.1.map (·.utxo) = us) ∧ (r.1 ≠ [] → t + total (us.take (r.1.length - 1)) < need) := by
  induction us generalizing t r with
  | nil =>
    cases h
    exact ⟨ nil_prefix, ⟨(Int.add_zero t).symm, ht.2⟩, .inr rfl, fun hne => absurd rfl hne⟩
  | cons u us ih =>
    rw [selectCoins] at h
    split at h
    next hle =>
      cases h
      exact ⟨ nil_prefix, ⟨(Int.add_zero t).symm, ht.2⟩, .inl hle, fun hne => absurd rfl hne⟩
    next hlt =>
      obtain ⟨script, -, h⟩ := Option.bind_eq_some_iff.1 h
      obtain ⟨r, hr, rfl⟩ := Option.map_eq_some_iff.1 h
      have hu := hpos u mem_cons_self
      have hsum : t + u.value < 2 ^ 63 := by simpa [total] using hfit [] u (by simp) (by simpa [total] using hlt)
      rw [toInt64_of_lt (by omega) hsum] at hr
      obtain ⟨hpre, htotal, hdone, hless⟩ := ih ⟨by omega, hsum⟩ (fun v hv => hpos v (mem_cons_of_mem _ hv))
        (fun p v hp hlt => by
        have := hfit (u :: p) v (by simpa using hp) (by simpa [Int.add_assoc] using hlt)
        simpa [Int.add_assoc] using this) hr
      refine ⟨by simpa using hpre, ⟨by simp [htotal.1, inputTotal, Int.add_assoc], htotal.2⟩,
        by simpa using hdone, fun _ => ?_⟩
      rcases hrest : r.1 with _ | ⟨i, is⟩
      · simpa [total] using hlt
      · have := hless (by simp [hrest])
        simpa [hrest, Int.add_assoc] using this

/-- Of a sorted list, no other elements sum to more than the first ones. -/
theorem sum_le_take {l T : List Int} (hl : l.Pairwise (· ≥ ·)) (hT : T <+ l) : T.sum ≤ (l.take T.length).sum := by
  induction hT with
  | slnil => rfl
  | @cons T l a hT ih =>
    obtain ⟨ha, hl⟩ := pairwise_cons.1 hl
    refine (ih hl).trans ?_
    cases hlen : T.length with
    | zero => simp
    | succ n =>
      have hn : n < l.length := by have := hT.length_le; omega
      rw [sum_take_succ l n hn, Int.add_comm]
      exact Int.add_le_add_right (ha _ (getElem_mem hn)) _
  | cons_cons a hT ih =>
    exact Int.add_le_add_left (ih (pairwise_cons.1 hl).2) a

/-- What a selection is meant to be: coins that cover the need, and no fewer coins do; or nothing, when all coins together
do not. -/
def FewestInputs (selection : Option (List SpendInput × Int)) (utxos : List UTXO) (need : Int) : Prop :=
  (need ≤ total utxos → ∃ chosen totalIn, selection = some (chosen, totalIn) ∧ chosen.map (·.utxo) <+~ utxos ∧
    need ≤ inputTotal chosen ∧ ∀ others, others <+~ utxos → need ≤ total others →
    chosen.length ≤ others.length) ∧
  (total utxos < need → selection = none)

/-- Both selections take the fewest coins, if the script of every coin is hexadecimal. -/
theorem selects_fewest (hhex : ∀ u ∈ utxos, (env.decodeString u.script).isSome) (hpos : ∀ u ∈ utxos, 0 < u.value)
    (hneed : 0 < need) (hsum : total utxos < 2 ^ 63) :
    FewestInputs (coinsForSend env need utxos) utxos need ∧ FewestInputs (coinsForToken env need utxos) utxos need := by
  have hperm := largestFirst_perm utxos
  have hsorted := largestFirst_sorted utxos
  have htotal : total (largestFirst utxos) = total utxos := (hperm.map _).sum_eq
  have hpos' : ∀ u ∈ largestFirst utxos, 0 ≤ u.value := fun u hu => (hpos u (hperm.mem_iff.1 hu)).le
  obtain ⟨r, hr⟩ := @selectCoins_isSome _ need _ (fun u hu => hhex u (hperm.mem_iff.1 hu)) 0
  obtain ⟨hpre, ⟨htot, -⟩, hdone, hless⟩ :=
    selectCoins_spec (by decide) hpos' (fits_of_total hpos' (htotal ▸ hsum)) hr
  rw [Int.zero_add] at htot
  have henough : need ≤ total utxos → need ≤ r.2 := fun hle => hdone.elim id fun hall => by
    rw [htot, inputTotal, hall, htotal]
    exact hle
  have hne : need ≤ r.2 → r.1 ≠ [] := by
    rintro hle hnil
    rw [htot, hnil] at hle
    exact absurd hle (by simpa [inputTotal, total] using hneed)
  have hfew : ∀ others, others <+~ utxos → need ≤ total others → r.1.length ≤ others.length := by
    intro others hothers hle
    by_contra hlt
    obtain ⟨T, hT, hsub⟩ := hothers.trans hperm.symm.subperm
    have hbest : total T ≤ total (take others.length (largestFirst utxos)) := by
      have := sum_le_take (pairwise_map.2 hsorted) (hsub.map UTXO.value)
      rwa [length_map, hT.length_eq, ← map_take] at this
    have hsub : take others.length (largestFirst utxos) <+ take (r.1.length - 1) (largestFirst utxos) :=
      (take_prefix_take_left (by omega)).sublist
    have := total_le (fun u hu => hpos' u (mem_of_mem_take hu)) hsub
    have hcut := hless (by rintro h; simp [h] at hlt)
    have hsame : total others = total T := (hT.symm.map _).sum_eq
    omega
  have hboth : ∀ {selection}, (need ≤ r.2 → selection = some r) → (r.2 < need → selection = none) →
      FewestInputs selection utxos need := by
    refine fun hsome hnone => ⟨fun hle => ?_, fun hlt => hnone ?_⟩
    · exact ⟨r.1, r.2, hsome (henough hle), hpre.sublist.subperm.trans hperm.subperm, htot ▸ henough hle, hfew⟩
    · have := total_le hpos' hpre.sublist
      rw [htot, inputTotal]
      omega
  constructor
  · exact hboth (fun h => by simp [coinsForSend, hr, h]) fun h => by simp [coinsForSend, hr, h]
  · exact hboth (fun h => by simp [coinsForToken, hr, h, hne h]) fun h => by simp [coinsForToken, hr, h]

/-- Addresses, keys and signatures never fail, and neither do the scripts that pass the test. -/
def openEnv (hex : String → Bool) : SendEnv where
  decodeString text := if hex text then some [] else none
  payToAddrScript _ := some []
  changeScript := some []
  payloadScript _ := some []
  signs _ _ := true

/-- The coin covers the need, but its script is not hexadecimal. -/
theorem bad_script_stops : ¬ FewestInputs (coinsForSend (openEnv fun _ => false) 3 [⟨"", 0, 5, "zz", ""⟩])
    [⟨"", 0, 5, "zz", ""⟩] 3 := by
  rintro ⟨h, -⟩
  obtain ⟨chosen, totalIn, hsel, -⟩ := h (by decide)
  cases hsel

theorem selects_fewest_of_two : FewestInputs
    (coinsForSend (openEnv fun _ => true) 6 [⟨"", 0, 5, "", ""⟩, ⟨"", 1, 7, "", ""⟩])
    [⟨"", 0, 5, "", ""⟩, ⟨"", 1, 7, "", ""⟩] 6 :=
      (selects_fewest (by simp [openEnv]) (by simp) (by decide) (by decide)).1

/-! ## Value -/

inductive Operation
  | send (outputs : List SendOutput)
  | token (payloadHex markerAddr : String) (markerAmount : Int)

namespace Operation

def run (env : SendEnv) (utxos : List UTXO) (fee : Int) : Operation → Option SignedTx
  | .send outputs => Wallets.send env utxos outputs fee
  | .token payloadHex markerAddr markerAmount => buildSignBroadcastToken env utxos payloadHex markerAddr markerAmount fee

def payments : Operation → List SendOutput
  | .send outputs => outputs
  | .token _ markerAddr markerAmount => if markerAddr ≠ "" then [⟨markerAddr, markerAmount⟩] else []

def asked (op : Operation) : Int := (op.payments.map (·.amount)).sum

/-- The amounts are int64s; those of a payment are positive. -/
def InRange : Operation → Prop
  | .send outputs => ∀ o ∈ outputs, 0 < o.amount
  | .token _ _ markerAmount => -2 ^ 63 ≤ markerAmount

/-- `Send` takes one to ten outputs. -/
def Refused : Operation → Prop
  | .send outputs => outputs = [] ∨ 10 < outputs.length
  | .token _ _ _ => False

/-- Every payment is in the transaction, and it leaves the fee, with less than dust on top. -/
def Conserves (env : SendEnv) (fee : Int) (tx : SignedTx) (op : Operation) : Prop :=
  (∀ o ∈ op.payments, 0 < o.amount → ∃ script, env.payToAddrScript o.address = some script ∧
    ⟨o.amount, script⟩ ∈ tx.outputs) ∧ fee ≤ inputTotal tx.inputs - (tx.outputs.map (·.value)).sum ∧
    inputTotal tx.inputs - (tx.outputs.map (·.value)).sum < fee + dustThreshold

variable {op : Operation} {fee : Int} {tx : SignedTx}

theorem parseOutputs_spec {outputs : List SendOutput} {parsed : List TxOut} (h : parseOutputs env outputs = some parsed) :
    (parsed.map (·.value)).sum = (outputs.map (·.amount)).sum ∧
      ∀ o ∈ outputs, ∃ script, env.payToAddrScript o.address = some script ∧ ⟨o.amount, script⟩ ∈ parsed := by
  induction outputs generalizing parsed with
  | nil => cases h; exact ⟨rfl, nofun⟩
  | cons o os ih =>
    rw [parseOutputs] at h
    split at h
    · cases h
    · obtain ⟨script, hscript, h⟩ := Option.bind_eq_some_iff.1 h
      obtain ⟨parsed, hparsed, rfl⟩ := Option.map_eq_some_iff.1 h
      obtain ⟨hsum, hmem⟩ := ih hparsed
      refine ⟨by simp [hsum], forall_mem_cons.2 ⟨⟨script, hscript, mem_cons_self⟩, fun o ho => ?_⟩⟩
      obtain ⟨script, hs, hin⟩ := hmem o ho
      exact ⟨script, hs, mem_cons_of_mem _ hin⟩

theorem finish_spec {inputs : List SpendInput} {paid : List TxOut} {change : Int}
    (h : finish env inputs paid change = some tx) : tx.inputs = inputs ∧ (∀ t ∈ paid, t ∈ tx.outputs) ∧
      (tx.outputs.map (·.value)).sum = (paid.map (·.value)).sum + if dustThreshold ≤ change then change else 0 := by
  obtain ⟨script, -, h⟩ := Option.bind_eq_some_iff.1 h
  obtain ⟨-, ⟨⟩⟩ := Option.ite_none_right_eq_some.1 h
  refine ⟨rfl, fun t ht => mem_append_left _ ht, ?_⟩
  split <;> simp

def needed (fee : Int) (op : Operation) : Int := toInt64 (op.asked + fee)

/-- What is paid: payments of nothing or less are left out. -/
def paying (op : Operation) : List SendOutput := op.payments.filter (0 < ·.amount)

theorem send_needed (outputs : List SendOutput) :
    toInt64 (sumInt64 (outputs.map (·.amount)) + fee) = needed fee (.send outputs) := by
  rw [sumInt64_eq, toInt64, toInt64, Int.bmod_add_bmod]
  rfl

theorem token_needed (hfee : 0 ≤ fee ∧ fee < 2 ^ 63) {payloadHex markerAddr : String} {markerAmount : Int} :
    (if markerAddr ≠ "" then toInt64 (fee + markerAmount)
      else fee) = needed fee (.token payloadHex markerAddr markerAmount) := by
  by_cases hm : markerAddr = ""
  · simpa [needed, asked, payments, hm] using (toInt64_of_lt hfee.1 hfee.2).symm
  · simp [needed, asked, payments, hm, Int.add_comm]

theorem token_paying (payloadHex markerAddr : String) (markerAmount : Int) :
    paying (.token payloadHex markerAddr markerAmount) =
      if markerAddr ≠ "" ∧ 0 < markerAmount then [⟨markerAddr, markerAmount⟩] else [] := by
  by_cases hm : markerAddr = "" <;> by_cases hpos : 0 < markerAmount <;> simp [paying, payments, hm, hpos]

theorem sumInt64_inputs (chosen : List SpendInput) :
    sumInt64 (chosen.map (·.utxo.value)) = toInt64 (inputTotal chosen) := by
  simp [sumInt64_eq, inputTotal, total, Function.comp_def]

/-- A signed transaction spends a selection that suffices, pays what was asked for, and returns the rest. -/
theorem run_spec (hop : op.InRange) (hfee : 0 ≤ fee ∧ fee < 2 ^ 63) (h : op.run env utxos fee = some tx)
    (hexact : ∀ r, selectCoins env (op.needed fee) 0 (largestFirst utxos) = some r → toInt64 (inputTotal r.1) = r.2) :
    ∃ r, selectCoins env (op.needed fee) 0 (largestFirst utxos) = some r ∧ r.1 ≠ [] ∧ op.needed fee ≤ r.2 ∧
      tx.inputs = r.1 ∧ (∀ o ∈ op.paying, ∃ script, env.payToAddrScript o.address = some script ∧
        ⟨o.amount, script⟩ ∈ tx.outputs) ∧
      (tx.outputs.map (·.value)).sum = (op.paying.map (·.amount)).sum +
        if dustThreshold ≤ toInt64 (r.2 - op.needed fee) then toInt64 (r.2 - op.needed fee) else 0 := by
  cases op with
  | send outputs =>
    rw [run, Wallets.send, send_needed] at h
    split at h
    · cases h
    obtain ⟨r, hr, h⟩ := Option.bind_eq_some_iff.1 h
    obtain ⟨hr, hle⟩ := Option.filter_eq_some_iff.1 hr
    rw [buildAndSign, send_needed, sumInt64_inputs, hexact r hr] at h
    split at h
    · cases h
    next hin =>
      obtain ⟨parsed, hparsed, h⟩ := Option.bind_eq_some_iff.1 h
      rw [if_neg (by simpa using hle)] at h
      obtain ⟨hinputs, hsub, hsum⟩ := finish_spec h
      obtain ⟨hpaid, hmem⟩ := parseOutputs_spec hparsed
      have hall : paying (.send outputs) = outputs := filter_eq_self.2 fun o ho => decide_eq_true (hop o ho)
      rw [hall, hsum, hpaid]
      refine ⟨r, hr, by tauto, by simpa using hle, hinputs, fun o ho => ?_, rfl⟩
      exact (hmem o ho).imp fun script h => ⟨h.1, hsub _ h.2⟩
  | token payloadHex markerAddr markerAmount =>
    rw [run, buildSignBroadcastToken, token_needed hfee, ← token_paying payloadHex] at h
    split at h
    · cases h
    obtain ⟨payload, -, h⟩ := Option.bind_eq_some_iff.1 h
    obtain ⟨r, hr, h⟩ := Option.bind_eq_some_iff.1 h
    obtain ⟨hr, hle⟩ := Option.filter_eq_some_iff.1 hr
    obtain ⟨marker, hmarker, h⟩ := Option.bind_eq_some_iff.1 h
    obtain ⟨opReturnScript, -, h⟩ := Option.bind_eq_some_iff.1 h
    obtain ⟨hinputs, hsub, hsum⟩ := finish_spec h
    obtain ⟨hpaid, hmem⟩ := parseOutputs_spec hmarker
    rw [decide_eq_true_iff] at hle
    refine ⟨r, hr, hle.1, hle.2, hinputs, fun o ho => ?_, ?_⟩
    · exact (hmem o ho).imp fun script h => ⟨h.1, hsub _ (mem_append_left _ h.2)⟩
    · simp [hsum, hpaid]

/-- Coins whose int64 total is the first to suffice are selected, and none after them. -/
theorem select_all {us rest : List UTXO} {t need : Int} (ht : toInt64 t = t)
    (h : ∀ p v, p ++ [v] <+: us → toInt64 (t + total p) < need) (hle : need ≤ toInt64 (t + total us)) :
    selectCoins (openEnv fun _ => true) need t (us ++ rest) = some (us.map (⟨·, []⟩), toInt64 (t + total us)) := by
  induction us generalizing t with
  | nil =>
    simp only [total, map_nil, sum_nil, Int.add_zero, ht] at hle ⊢
    cases rest with
    | nil => rfl
    | cons v rest => exact if_pos hle
  | cons u us ih =>
    have hlt : t < need := by simpa [total, ht] using h [] u (by simp)
    have hwrap : ∀ x, toInt64 (toInt64 (t + u.value) + x) = toInt64 (t + (u.value + x)) := fun x => by
      rw [toInt64, toInt64, toInt64, Int.bmod_add_bmod, Int.add_assoc]
    rw [cons_append, selectCoins, if_neg (by omega), ih (by simpa using hwrap 0) (fun p v hp => ?_) ?_]
    · simp [openEnv, hwrap]
    · rwa [hwrap]
    · rw [hwrap]
      exact h (u :: p) v (by simpa using hp)

theorem parseOutputs_open {hex : String → Bool} {outputs : List SendOutput} (h : ∀ o ∈ outputs, 0 < o.amount) :
    ∃ parsed, parseOutputs (openEnv hex) outputs = some parsed := by
  induction outputs with
  | nil => exact ⟨[], rfl⟩
  | cons o os ih =>
    obtain ⟨parsed, hparsed⟩ := ih fun o ho => h o (mem_cons_of_mem _ ho)
    refine ⟨⟨o.amount, []⟩ :: parsed, ?_⟩
    rw [parseOutputs, if_neg (Int.not_le.2 (h o mem_cons_self)), hparsed]
    rfl

/-- The largest coins are all spent, without change, if their int64 total is the need and the first to reach it. -/
theorem run_selected {us rest : List UTXO} (hop : op.InRange) (hfee : 0 ≤ fee ∧ fee < 2 ^ 63)
    (hsent : ¬ op.Refused) (hne : us ≠ [])
    (hfirst : largestFirst utxos = us ++ rest) (htotal : toInt64 (total us) = op.needed fee)
    (hpart : ∀ p v, p ++ [v] <+: us → toInt64 (total p) < op.needed fee) :
    ∃ tx, op.run (openEnv fun _ => true) utxos fee = some tx ∧ tx.inputs = us.map (⟨·, []⟩) ∧
      (tx.outputs.map (·.value)).sum = (op.paying.map (·.amount)).sum := by
  have hin : inputTotal (us.map (⟨·, []⟩)) = total us := by simp [inputTotal, Function.comp_def]
  have hsel : selectCoins (openEnv fun _ => true)
      (op.needed fee) 0 (largestFirst utxos) = some (us.map (⟨·, []⟩), op.needed fee) := by
    rw [hfirst, select_all rfl (by simpa using hpart) (by simp [htotal]), Int.zero_add, htotal]
  obtain ⟨tx, htx⟩ : ∃ tx, op.run (openEnv fun _ => true) utxos fee = some tx := by
    obtain ⟨parsed, hparsed⟩ :=
      @parseOutputs_open (fun _ => true) op.paying fun o ho => of_decide_eq_true (mem_filter.1 ho).2
    cases op with
    | send outputs =>
      have hall : paying (.send outputs) = outputs := filter_eq_self.2 fun o ho => decide_eq_true (hop o ho)
      have hsend : ¬ (outputs = [] ∨ 10 < outputs.length) := hsent
      rw [hall] at hparsed
      simp only [run, Wallets.send, if_neg hsend, send_needed, coinsForSend, hsel, Option.filter_some, Int.le_refl,
        decide_true, if_true, Option.bind_some, buildAndSign, sumInt64_inputs, hin, htotal, hparsed, Int.lt_irrefl]
      rw [if_neg (by simp [hne, Int.not_lt.2 hfee.1, not_or.1 hsend])]
      exact ⟨_, rfl⟩
    | token payloadHex markerAddr markerAmount =>
      simp only [run, buildSignBroadcastToken, if_neg (Int.not_lt.2 hfee.1), @token_needed _ hfee payloadHex,
        ← token_paying payloadHex, coinsForToken, hsel, hparsed]
      simp [openEnv, finish, hne, Option.filter_some]
  obtain ⟨r, hr, -, -, hinputs, -, hsum⟩ := run_spec hop hfee htx fun r hr => by
    cases hsel.symm.trans hr
    rw [hin, htotal]
  cases hsel.symm.trans hr
  refine ⟨tx, htx, hinputs, ?_⟩
  rw [hsum]
  simp [toInt64]

/-- Coins that do not suffice are smaller than the need, so their sums stay in range. -/
theorem fits_of_le {need : Int} (hneed : need ≤ 2 ^ 62) (hcoin : ∀ u ∈ utxos, 0 < u.value ∧ u.value < 2 ^ 63)
    (hsorted : utxos.Pairwise fun u v => v.value ≤ u.value) : Fits need 0 utxos := by
  intro p v hp hlt
  have hv := hcoin v (hp.subset (by simp))
  cases p with
  | nil => simpa [total] using hv.2
  | cons u p =>
    have hle : v.value ≤ u.value := by
      have := hsorted.sublist hp.sublist
      simp only [cons_append, pairwise_cons] at this
      exact this.1 v (by simp)
    have hp' : 0 ≤ total p := @total_le _ p
      (fun w hw => (hcoin w (hp.subset (by simp [hw]))).1.le) (nil_sublist p)
    rw [total_cons] at hlt ⊢
    omega

theorem paying_sum (op : Operation) : op.asked ≤ (op.paying.map (·.amount)).sum ∧
    ((∀ o ∈ op.payments, 0 ≤ o.amount) → (op.paying.map (·.amount)).sum = op.asked) := by
  unfold asked paying
  induction op.payments with
  | nil => simp
  | cons o os ih =>
    simp only [filter_cons, map_cons, sum_cons, forall_mem_cons]
    by_cases ho : 0 < o.amount
    · rw [if_pos (decide_eq_true ho)]
      exact ⟨Int.add_le_add_left ih.1 _, fun h => congrArg (o.amount + ·) (ih.2 h.2)⟩
    · rw [if_neg (by simpa using ho)]
      exact ⟨by omega, fun h => by rw [ih.2 h.2]; omega⟩

/-- A negative marker counts in the need and not in the outputs, so the fee is short. -/
theorem nonneg_of_covered (hop : op.InRange) (hfee : 0 ≤ fee ∧ fee < 2 ^ 63)
    (h : (op.paying.map (·.amount)).sum + fee ≤ op.needed fee) : ∀ o ∈ op.payments, 0 ≤ o.amount := by
  cases op with
  | send outputs => exact fun o ho => (hop o ho).le
  | token payloadHex markerAddr markerAmount =>
    have hlow : -2 ^ 63 ≤ markerAmount := hop
    by_cases hm : markerAddr = ""
    · simp [payments, hm]
    · by_contra hneg
      have hneg : markerAmount < 0 := by simpa [payments, hm] using hneg
      rw [token_paying, if_neg (by omega)] at h
      simp only [needed, asked, payments, ne_eq, hm, not_false_eq_true, if_true, map_cons, map_nil, sum_cons, sum_nil,
        toInt64, Int.bmod] at h
      omega

/-- Coins one below a need above 2 ^ 62 and a last smaller one: the int64 total first reaches the need when the whole one
is 2 ^ 64 above it. -/
theorem wrapping_coins {need : Int} (hlow : 2 ^ 62 < need) (hhigh : need < 2 ^ 63) : ∃ us : List UTXO, us ≠ [] ∧
    (∀ u ∈ us, 0 < u.value ∧ u.value < 2 ^ 63) ∧ us.Pairwise (fun u v => v.value ≤ u.value) ∧
      total us = 2 ^ 64 + need ∧
    ∀ p v, p ++ [v] <+: us → toInt64 (total p) < need := by
  let coin (v : Int) : UTXO := ⟨"", 0, v, "", ""⟩
  have hrest := Int.emod_nonneg (2 ^ 64 + need - 1) (show need - 1 ≠ 0 by omega)
  have hlt := Int.emod_lt_of_pos (2 ^ 64 + need - 1) (show 0 < need - 1 by omega)
  have hdiv := Int.mul_ediv_add_emod (2 ^ 64 + need - 1) (need - 1)
  have hquot : 0 ≤ (2 ^ 64 + need - 1) / (need - 1) := Int.ediv_nonneg (by omega) (by omega)
  obtain ⟨k, hk⟩ := Int.eq_ofNat_of_zero_le hquot
  generalize (2 ^ 64 + need - 1) % (need - 1) = rest at *
  rw [hk] at hdiv
  have htotal : ∀ j : Nat, total (replicate j (coin (need - 1))) = (need - 1) * j := fun j => by
    simp [total, coin, Int.mul_comm]
  refine ⟨replicate k (coin (need - 1)) ++ [coin (rest + 1)], by simp, ?_, ?_, ?_, fun p v hp => ?_⟩
  · simp only [mem_append, mem_replicate, mem_singleton]
    rintro u (⟨-, rfl⟩ | rfl) <;> simp only [coin] <;> omega
  · refine pairwise_append.2 ⟨pairwise_replicate.2 (.inr (Int.le_refl _)), pairwise_singleton _ _, fun u hu v hv => ?_⟩
    rw [(mem_replicate.1 hu).2, mem_singleton.1 hv]
    simp only [coin]
    omega
  · rw [total_append, htotal]
    simp only [total, coin, map_cons, map_nil, sum_cons, sum_nil]
    omega
  · -- What comes before a coin is a number of the equal ones.
    have hsub : p <+: replicate k (coin (need - 1)) :=
      prefix_of_prefix_length_le ((prefix_append p [v]).trans hp) (prefix_append _ _)
      (by have := hp.length_le; simp at this ⊢; omega)
    have hp : p = replicate p.length (coin (need - 1)) :=
      eq_replicate_iff.2 ⟨rfl, fun u hu => (mem_replicate.1 (hsub.subset hu)).2⟩
    have hj : (need - 1) * p.length ≤ (need - 1) * k :=
      Int.mul_le_mul_of_nonneg_left (by simpa using hsub.length_le) (by omega)
    rw [hp, htotal, toInt64, Int.bmod]
    rcases hlen : p.length with _ | _ | j
    · simp; omega
    · simp; omega
    · have : (need - 1) * 2 ≤ (need - 1) * (j + 2 : Nat) := Int.mul_le_mul_of_nonneg_left (by omega) (by omega)
      rw [hlen] at hj
      generalize (need - 1) * ((j + 2 : Nat) : Int) = x at *
      omega

/-- For every list of coins, a signed transaction pays what was asked for and its fee, exactly if the payments are not
negative and they and the fee are at most 2 ^ 62, or nothing is ever signed. -/
theorem conserves_iff (hop : op.InRange) (hfee : 0 ≤ fee ∧ fee < 2 ^ 63) :
    (∀ env utxos tx, (∀ u ∈ utxos, 0 < u.value ∧ u.value < 2 ^ 63) → op.run env utxos fee = some tx →
      op.Conserves env fee tx) ↔
      op.Refused ∨ toInt64 (op.asked + fee) ≤ 0 ∨ (∀ o ∈ op.payments, 0 ≤ o.amount) ∧
      op.asked + fee ≤ 2 ^ 62 := by
  constructor
  · intro h
    by_contra hc
    simp only [not_or, Int.not_le] at hc
    obtain ⟨hsent, hpos, hbad⟩ := hc
    have hcoins : ∀ us : List UTXO, us ≠ [] → (∀ u ∈ us, 0 < u.value ∧ u.value < 2 ^ 63) →
        us.Pairwise (fun u v => v.value ≤ u.value) → toInt64 (total us) = op.needed fee →
        (∀ p v, p ++ [v] <+: us → toInt64 (total p) < op.needed fee) →
        (op.paying.map (·.amount)).sum + fee ≤ total us ∧ total us < (op.paying.map (·.amount)).sum + fee + 546 := by
      intro us hne hcoin hsorted htotal hpart
      have hfirst : largestFirst us = us ++ [] := hsorted.insertionSort_eq.trans (append_nil us).symm
      obtain ⟨tx, htx, hin, hout⟩ := run_selected hop hfee hsent hne hfirst htotal hpart
      have := (h _ us tx hcoin htx).2
      rw [hin, dustThreshold] at this
      simp only [inputTotal, map_map, Function.comp_def, map_id'] at this
      omega
    have hrange : op.needed fee < 2 ^ 63 := (Int.bmod_lt (by decide)).trans_le (by decide)
    -- One coin of the need.
    have hsum : toInt64 (op.needed fee + total []) = op.needed fee :=
      (congrArg toInt64 (Int.add_zero _)).trans (toInt64_of_lt (le_of_lt hpos) hrange)
    have hone := (hcoins [⟨"", 0, op.needed fee, "", ""⟩] (by simp) (by simpa using ⟨hpos, hrange⟩) (by simp)
      (by rwa [total_cons]) fun p v hp => by
        have : p = [] := by simpa using hp.length_le
        exact this ▸ hpos).1
    simp only [total, map_cons, map_nil, sum_cons, sum_nil, Int.add_zero] at hone
    have hle := (paying_sum op).1
    have hnonneg := nonneg_of_covered hop hfee hone
    have hbig : 2 ^ 62 < op.asked + fee := Int.not_le.1 fun h => hbad ⟨hnonneg, h⟩
    have hneed : op.needed fee = op.asked + fee := by
      simp only [needed, toInt64, Int.bmod] at hone ⊢
      omega
    obtain ⟨us, hne, hcoin, hsorted, htotal, hpart⟩ := wrapping_coins (hneed ▸ hbig) hrange
    have hmany := (hcoins us hne hcoin hsorted (by rw [toInt64, Int.bmod]; omega) hpart).2
    omega
  · intro hcond env utxos tx hcoin hrun
    have hsent : ¬ op.Refused := fun href => by
      cases op with
      | send outputs => exact nomatch (if_pos href).symm.trans hrun
      | token => exact href
    have hmem : ∀ u ∈ largestFirst utxos, 0 < u.value ∧ u.value < 2 ^ 63 := fun u hu =>
      hcoin u ((largestFirst_perm utxos).mem_iff.1 hu)
    have hwithin : (∀ o ∈ op.payments, 0 ≤ o.amount) ∧ op.asked + fee ≤ 2 ^ 62 →
      op.needed fee = op.asked + fee := fun ⟨hnonneg, hle⟩ =>
      toInt64_of_lt (Int.add_nonneg (sum_nonneg (by simpa using hnonneg)) hfee.1) (by omega)
    have hneed : op.needed fee ≤ 2 ^ 62 := by
      rcases hcond with href | hneg | h
      · exact absurd href hsent
      · exact Int.le_trans hneg (by decide)
      · exact hwithin h ▸ h.2
    have hsel : ∀ r, selectCoins env (op.needed fee) 0 (largestFirst utxos) = some r → _ := fun r =>
      selectCoins_spec ⟨Int.le_refl 0, by decide⟩ (fun u hu => (hmem u hu).1.le)
      (fits_of_le hneed hmem (largestFirst_sorted utxos))
    have hin : ∀ r : List SpendInput × Int, r.1.map (·.utxo) <+: largestFirst utxos → 0 ≤ inputTotal r.1 :=
      fun r hpre =>
      total_le (fun u hu => (hmem u (hpre.subset hu)).1.le) (nil_sublist _)
    obtain ⟨r, hr, hne, hcovers, hinputs, hpaid, hsum⟩ := run_spec hop hfee hrun fun r hr => by
      obtain ⟨hpre, htot, -⟩ := hsel r hr
      have := hin r hpre
      rw [toInt64_of_lt this (by omega)]
      omega
    obtain ⟨hpre, htot, -, hless⟩ := hsel r hr
    have hfirst := hless hne
    have : 0 ≤ total (take (r.1.length - 1) (largestFirst utxos)) :=
      total_le (fun u hu => (hmem u (take_subset _ _ hu)).1.le) (nil_sublist _)
    rcases hcond with href | hneg | h
    · exact absurd href hsent
    · have : op.needed fee ≤ 0 := hneg
      omega
    · refine ⟨fun o ho hpos => hpaid o (mem_filter.2 ⟨ho, decide_eq_true hpos⟩), ?_⟩
      rw [hinputs, hsum, (paying_sum op).2 h.1, toInt64_of_lt (by omega) (by omega), dustThreshold]
      have := hwithin h
      split <;> omega

/-- Three payments of more than 2 ^ 64 in all, whose int64 sum is 1. -/
def wrapping : Operation := .send [⟨"", 2 ^ 63 - 1⟩, ⟨"", 2 ^ 63 - 1⟩, ⟨"", 3⟩]

theorem wrapping_signed : ∃ tx, wrapping.run (openEnv fun _ => true) [⟨"", 0, 1, "", ""⟩] 0 = some tx ∧
    ¬ wrapping.Conserves (openEnv fun _ => true) 0 tx :=
  ⟨_, rfl, fun h => absurd h.2.1 (by decide)⟩

theorem conserves_three : Conserves (openEnv fun _ => true) 1 ⟨[⟨⟨"", 0, 4, "", ""⟩, []⟩], [⟨3, []⟩]⟩
    (.send [⟨"", 3⟩]) :=
  (@conserves_iff (.send [⟨"", 3⟩]) 1 (by simp [InRange]) (by decide)).2 (.inr (.inr (by simp [payments, asked])))
    (openEnv fun _ => true) [⟨"", 0, 4, "", ""⟩] _ (by simp) rfl

end Operation

end IniNode.Wallets
