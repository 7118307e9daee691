import IniNode.Sugar.Queries
import IniNode.Utxo.Amounts
import IniNode.Wallets.Send
/-!
# Young block rewards

`handleGetAddressUtxos` hands out the unspent outputs of the wallet's addresses, and `Send` selects among them by value.
Neither knows which of them `CheckTransactionInputs` refuses as immature.
-/

open IniNode.Lib List

namespace IniNode.Wallets

open Sugar (Index IndexAddress AddressUnspentKey AddressUnspentValue ReadAddressUnspent)

abbrev UnspentRow := AddressUnspentKey × AddressUnspentValue

/-- `handleGetAddressUtxos` without an amount returns the outputs of the addresses, by height. -/
def HandleGetAddressUtxos (s : Index) (keys : List IndexAddress) (utxos : List UnspentRow) : Prop :=
  ∃ outs, Forall₂ (fun a rows => ReadAddressUnspent s a.type a.hashBytes rows) keys outs ∧
    utxos = outs.flatten.insertionSort fun u v => u.2.blockHeight ≤ v.2.blockHeight

/-- The texts in an answer of the node. -/
structure Encoding where
  txid : Hash → String
  encodeToString : List UInt8 → String
  encodeIndexAddress : Sugar.Address → String

/-- What `nodeUTXOs` makes of an output. -/
def Encoding.utxo (enc : Encoding) (u : UnspentRow) : UTXO where
  txID := enc.txid u.1.outPoint.hash
  index := u.1.outPoint.index
  value := u.2.satoshis
  script := enc.encodeToString u.2.script
  address := enc.encodeIndexAddress u.1.address

def Unspent (view : UtxoViewpoint) (op : OutPoint) (utxo : UtxoEntry) : Prop :=
  view.lookupEntry op = some utxo ∧ utxo.isSpent = false

/-- The unspent table of the index has the unspent outputs of the chain that pay an address. -/
structure AgreesWith (s : Index) (view : UtxoViewpoint) : Prop where
  unspent : ∀ k v, s.addressUnspent k = some v ↔ ∃ utxo, Unspent view k.outPoint utxo ∧
    Sugar.address utxo.pkScript = some k.address ∧ v = ⟨utxo.amount, utxo.pkScript, utxo.blockHeight⟩
  amounts : ∀ {op utxo}, Unspent view op utxo → 0 ≤ utxo.amount

section
variable (coinbaseMaturity txHeight : Int) (view : UtxoViewpoint)

/-- `CheckTransactionInputs` finds the output, and finds it mature. -/
def Accepts (op : OutPoint) : Prop :=
  sumInputs coinbaseMaturity txHeight view 0 [op] ≠ .error .missingTxOut ∧
    sumInputs coinbaseMaturity txHeight view 0 [op] ≠ .error .immatureSpend

def Immature (utxo : UtxoEntry) : Prop := utxo.isCoinBase ∧ txHeight - utxo.blockHeight < coinbaseMaturity
deriving Decidable

/-- Every transaction that `Send` makes of the outputs spends some that are accepted. -/
def SendsAccepted (enc : Encoding) (utxos : List UnspentRow) : Prop :=
  ∀ env outputs fee tx, send env (utxos.map enc.utxo) outputs fee = some tx →
    ∀ i ∈ tx.inputs, ∀ u ∈ utxos, enc.utxo u = i.utxo → Accepts coinbaseMaturity txHeight view u.1.outPoint

end

variable {coinbaseMaturity txHeight : Int} {view : UtxoViewpoint} {s : Index} {keys : List IndexAddress}
    {utxos : List UnspentRow}

theorem accepts_iff {op : OutPoint} {utxo : UtxoEntry} (h : Unspent view op utxo) :
    Accepts coinbaseMaturity txHeight view op ↔ ¬ Immature coinbaseMaturity txHeight utxo := by
  rw [Accepts, sumInputs, h.1]
  simp only [h.2, Immature, Bool.false_eq_true, if_false]
  split_ifs with himm <;> simp [sumInputs, himm]

theorem mem_returned (h : HandleGetAddressUtxos s keys utxos) {u : UnspentRow} :
    u ∈ utxos ↔ ∃ a ∈ keys, u.1.address = a.key ∧ s.addressUnspent u.1 = some u.2 := by
  obtain ⟨outs, houts, rfl⟩ := h
  rw [mem_insertionSort, mem_flatten]
  induction houts with
  | nil => simp
  | cons hrows _ ih =>
    simp only [mem_cons, exists_eq_or_imp]
    exact or_congr (hrows.mem u.1 u.2) ih

section
variable {coins : List UTXO} (hcoin : ∀ u ∈ coins, 0 ≤ u.value) (hsum : total coins < 2 ^ 63)
include hcoin hsum

theorem sorted_coins : (∀ u ∈ largestFirst coins, 0 ≤ u.value) ∧ total (largestFirst coins) < 2 ^ 63 :=
  have hperm := largestFirst_perm coins
  ⟨fun u hu => hcoin u (hperm.mem_iff.1 hu), (hperm.map _).sum_eq.trans_lt hsum⟩

/-- A coin of nothing is not spent: it would be the last that is selected, and not be needed. -/
theorem send_pos {env : SendEnv} {outputs : List SendOutput} {fee : Int} {tx : SignedTx}
    (h : send env coins outputs fee = some tx) : ∀ i ∈ tx.inputs, 0 < i.utxo.value := by
  obtain ⟨hcoin, hsum⟩ := sorted_coins hcoin hsum
  have hsorted := largestFirst_sorted coins
  obtain ⟨r, hr, h⟩ := Option.bind_eq_some_iff.1 (Option.ite_none_left_eq_some.1 h).2
  obtain ⟨hr, hle⟩ := Option.filter_eq_some_iff.1 hr
  obtain ⟨parsed, -, h⟩ := Option.bind_eq_some_iff.1 (Option.ite_none_left_eq_some.1 h).2
  obtain ⟨⟨rest, hrest⟩, ⟨htot, -⟩, -, hless⟩ := selectCoins_spec (by decide) hcoin (fits_of_total hcoin hsum) hr
  rw [(Operation.finish_spec (Option.ite_none_left_eq_some.1 h).2).1]
  rcases eq_nil_or_concat r.1 with hnil | ⟨init, last, hlast⟩
  · simp [hnil]
  rw [← hrest, hlast, concat_eq_append, map_append, append_assoc, pairwise_append] at hsorted
  have hpos : 0 < last.utxo.value := by
    have := hless (by simp [hlast])
    simp [inputTotal, total, ← hrest, hlast] at htot this hle
    omega
  simp only [hlast, concat_eq_append, mem_append, mem_singleton]
  rintro i (hi | rfl)
  · exact hpos.trans_le (hsorted.2.2 _ (mem_map_of_mem hi) _ mem_cons_self)
  · exact hpos

/-- Every other coin is spent by a payment of what it and the larger ones hold. -/
theorem exists_send {c : UTXO} (hc : c ∈ coins) (hpos : 0 < c.value) :
    ∃ outputs tx, send (openEnv fun _ => true) coins outputs 0 = some tx ∧ ⟨c, []⟩ ∈ tx.inputs := by
  obtain ⟨hcoin, hsum⟩ := sorted_coins hcoin hsum
  have hsorted := largestFirst_sorted coins
  obtain ⟨p, q, hsplit⟩ := append_of_mem ((largestFirst_perm coins).mem_iff.2 hc)
  rw [hsplit, pairwise_append] at hsorted
  have hvalue : ∀ v ∈ p ++ [c], 0 < v.value := by
    simp only [mem_append, mem_singleton]
    rintro v (hv | rfl)
    · exact hpos.trans_le (hsorted.2.2 v hv _ mem_cons_self)
    · exact hpos
  have hle : ∀ {l}, l <+: p ++ [c] → 0 ≤ total l ∧ total l ≤ total (p ++ [c]) := fun hl =>
    ⟨total_le (fun v hv => (hvalue v (hl.subset hv)).le) (nil_sublist _),
      total_le (fun v hv => (hvalue v hv).le) hl.sublist⟩
  rw [append_cons] at hsplit
  have hlt := (total_le hcoin (hsplit ▸ sublist_append_left _ _)).trans_lt hsum
  have hneed : Operation.needed 0 (.send [⟨"", total (p ++ [c])⟩]) = total (p ++ [c]) := by
    simpa [Operation.needed, Operation.asked, Operation.payments] using toInt64_of_lt (hle prefix_rfl).1 hlt
  obtain ⟨tx, htx, hin, -⟩ := @Operation.run_selected coins (.send [⟨"", total (p ++ [c])⟩]) 0 _ _
    (by simpa [Operation.InRange, total] using Int.add_pos_of_nonneg_of_pos (hle (prefix_append p [c])).1 hpos) (by decide)
    (by simp [Operation.Refused]) (by simp) hsplit (by rw [hneed, toInt64_of_lt (hle prefix_rfl).1 hlt]) fun l v hl => by
      have hl' := hle ((prefix_append l [v]).trans hl)
      have hsum := (hle hl).2
      have hv := hvalue v (hl.subset (by simp))
      rw [total_append, total_cons, show total [] = 0 from rfl] at hsum
      rw [toInt64_of_lt hl'.1 (by omega)]
      omega
  exact ⟨_, tx, htx, by simp [hin]⟩

end

/-- Every transaction that `Send` makes of the outputs of the addresses spends accepted outputs, exactly if none of the
addresses has an immature output. -/
theorem sends_accepted_iff (enc : Encoding) (h : AgreesWith s view) (hutxos : HandleGetAddressUtxos s keys utxos)
    (hsupply : total (utxos.map enc.utxo) < 2 ^ 63) :
    SendsAccepted coinbaseMaturity txHeight view enc utxos ↔ ∀ a ∈ keys, ∀ op utxo, Unspent view op utxo →
      Sugar.address utxo.pkScript = some a.key → 0 < utxo.amount → ¬ Immature coinbaseMaturity txHeight utxo := by
  have hrow : ∀ u ∈ utxos, ∃ a ∈ keys, ∃ utxo, Unspent view u.1.outPoint utxo ∧
      Sugar.address utxo.pkScript = some a.key ∧ (enc.utxo u).value = utxo.amount := by
    intro u hu
    obtain ⟨a, ha, hkey, hrow⟩ := (mem_returned hutxos).1 hu
    obtain ⟨utxo, hutxo, haddr, hv⟩ := (h.unspent _ _).1 hrow
    exact ⟨a, ha, utxo, hutxo, hkey ▸ haddr, congrArg AddressUnspentValue.satoshis hv⟩
  have hcoin : ∀ v ∈ utxos.map enc.utxo, 0 ≤ v.value := by
    intro v hv
    obtain ⟨u, hu, rfl⟩ := mem_map.1 hv
    obtain ⟨a, -, utxo, hutxo, -, hvalue⟩ := hrow u hu
    exact hvalue ▸ h.amounts hutxo
  constructor
  · intro hall a ha op utxo hutxo haddr hpos
    let u : UnspentRow := (⟨a.key, op⟩, ⟨utxo.amount, utxo.pkScript, utxo.blockHeight⟩)
    have hu : u ∈ utxos := (mem_returned hutxos).2 ⟨a, ha, rfl, (h.unspent _ _).2 ⟨utxo, hutxo, haddr, rfl⟩⟩
    obtain ⟨outputs, tx, htx, hin⟩ := exists_send hcoin hsupply (mem_map_of_mem hu) hpos
    exact (accepts_iff hutxo).1 (hall _ _ _ tx htx _ hin u hu rfl)
  · intro hmature env outputs fee tx hsend i hi u hu heq
    obtain ⟨a, ha, utxo, hutxo, haddr, hvalue⟩ := hrow u hu
    have hpos := send_pos hcoin hsupply hsend i hi
    rw [← heq, hvalue] at hpos
    exact (accepts_iff hutxo).2 (hmature a ha _ _ hutxo haddr hpos)

/-! ### A block reward -/

def reward : UtxoEntry := .ofCoin ⟨50, Sugar.zeroEnded.script, 0, true⟩

def rewardView : UtxoViewpoint := AList.insert ⟨11, 0⟩ (some reward) ∅

def rewardRow : UnspentRow := (⟨Sugar.zeroEnded.key, 11, 0⟩, ⟨50, Sugar.zeroEnded.script, 0⟩)

def rewardIndex : Index :=
    { Index.empty with addressUnspent := Store.write (fun _ => none) ⟨rewardRow.1, some rewardRow.2⟩ }

theorem unspent_reward {op : OutPoint} {utxo : UtxoEntry} : Unspent rewardView op utxo ↔
    op = ⟨11, 0⟩ ∧ utxo = reward := by
  rw [Unspent, UtxoViewpoint.lookupEntry, rewardView]
  by_cases hop : op = ⟨11, 0⟩
  · rw [hop]
    constructor
    · rintro ⟨⟨⟩, -⟩
      exact ⟨rfl, rfl⟩
    · rintro ⟨-, rfl⟩
      exact ⟨rfl, rfl⟩
  · rw [AList.lookup_insert_ne hop]
    simp [hop]

theorem reward_agrees : AgreesWith rewardIndex rewardView where
  unspent k v := by
    have haddr : Sugar.address reward.pkScript = some Sugar.zeroEnded.key := by decide
    show Store.write (fun _ => none) ⟨rewardRow.1, some rewardRow.2⟩ k = some v ↔ _
    constructor
    · intro h
      obtain ⟨rfl, ⟨⟩⟩ | ⟨-, ⟨⟩⟩ := Store.of_write h
      exact ⟨reward, unspent_reward.2 ⟨rfl, rfl⟩, haddr, rfl⟩
    · rintro ⟨utxo, hutxo, hk, rfl⟩
      obtain ⟨hop, rfl⟩ := unspent_reward.1 hutxo
      obtain ⟨a, op⟩ := k
      cases hop
      cases haddr.symm.trans hk
      exact (Store.write_apply ..).trans (if_pos rfl)
  amounts h := by rw [(unspent_reward.1 h).2]; decide

theorem reward_returned : HandleGetAddressUtxos rewardIndex [Sugar.zeroEnded] [rewardRow] :=
  ⟨[[rewardRow]], .cons (Lists.empty.write_new rfl rfl) .nil, rfl⟩

/-- The reward of the block before is spent by a payment. -/
theorem reward_spent : AgreesWith rewardIndex rewardView ∧ HandleGetAddressUtxos rewardIndex [Sugar.zeroEnded]
    [rewardRow] ∧ ∀ enc, ¬ SendsAccepted 100 1 rewardView enc [rewardRow] :=
  ⟨reward_agrees, reward_returned, fun _ h =>
    (h (openEnv fun _ => true) [⟨"", 50⟩] 0 _ rfl _ mem_cons_self _ mem_cons_self rfl).2 rfl⟩

theorem sends_accepted_mature : SendsAccepted 100 100 rewardView ⟨fun _ => "", fun _ => "", fun _ => ""⟩ [rewardRow] :=
  (sends_accepted_iff _ reward_agrees reward_returned (by decide)).2 fun a _ op utxo h _ _ => by
    rw [(unspent_reward.1 h).2]
    decide

end IniNode.Wallets
