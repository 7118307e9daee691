import IniNode.Sugar.Queries
/-!
# Unconfirmed deltas of addresses

`getaddressmempool` collects the outputs and inputs of the mempool's transactions that belong to given addresses. They go
into one map, by address, transaction and position.
-/

open IniNode.Lib List Option

namespace IniNode.Sugar

deriving instance DecidableEq for IndexAddress

structure TxDesc where
  tx : Tx
  added : Int

/-- `TxPool`, as far as the handler reads it. -/
structure TxPool where
  pool : AList fun _ : Hash => TxDesc
  keyed : ∀ h d, pool.lookup h = some d → d.tx.hash = h

def TxPool.txDescs (mp : TxPool) : List TxDesc := vals mp.pool

/-- `prevOutScript`; `utxo` is what `FetchUtxoEntry` returns, none if it fails. -/
def prevOutScript (utxo : OutPoint → Option UtxoEntry) (mp : TxPool) (op : OutPoint) : Option (List UInt8 × Int) :=
  match utxo op with
  | some entry => some (entry.pkScript, entry.amount)
  | none =>
    match mp.pool.lookup op.hash with
    | some desc => desc.tx.txOut[op.index]?.map fun out => (out.pkScript, out.value)
    | none => none

structure DeltaKey where
  address : IndexAddress
  txid : Hash
  index : Nat
deriving DecidableEq

structure DeltaVal where
  amount : Int
  time : Int
  prevout : Option OutPoint
deriving DecidableEq

structure GetAddressMempoolResult where
  address : IndexAddress
  txid : Hash
  index : Nat
  satoshis : Int
  timestamp : Int
  prevout : Option OutPoint
deriving DecidableEq

/-- `matchingKey`, for what `ExtractIndexInfo` makes of the script. -/
def matchingKey (keys : List IndexAddress) (pkScript : List UInt8) : Option IndexAddress := do
  let (addrType, hashBytes) ← extractIndexInfo pkScript
  keys.find? fun k => addrType = k.type ∧ hashBytes = k.hashBytes

section Handler

variable (utxo : OutPoint → Option UtxoEntry) (mp : TxPool) (keys : List IndexAddress)

def receiving (desc : TxDesc) : List ((_ : DeltaKey) × DeltaVal) :=
  desc.tx.txOut.zipIdx.filterMap fun (out, i) => do
    let address ← matchingKey keys out.pkScript
    some ⟨⟨address, desc.tx.hash, i⟩, ⟨out.value, desc.added, none⟩⟩

def spending (desc : TxDesc) : List ((_ : DeltaKey) × DeltaVal) :=
  desc.tx.txIn.zipIdx.filterMap fun (op, i) => do
    let (prevScript, prevValue) ← prevOutScript utxo mp op
    let address ← matchingKey keys prevScript
    some ⟨⟨address, desc.tx.hash, i⟩, ⟨-prevValue, desc.added, some op⟩⟩

/-- What is put into `indexes`, in order. -/
def mempoolDeltas : List ((_ : DeltaKey) × DeltaVal) :=
  mp.txDescs.flatMap fun desc => receiving keys desc ++ spending utxo mp keys desc

def deltaResult (p : (_ : DeltaKey) × DeltaVal) : GetAddressMempoolResult :=
  ⟨p.1.address, p.1.txid, p.1.index, p.2.amount, p.2.time, p.2.prevout⟩

/-- `handleGetAddressMempool`; `shuffle` is the order in which the map is walked. -/
def handleGetAddressMempool (shuffle : List ((_ : DeltaKey) × DeltaVal) → List ((_ : DeltaKey) × DeltaVal)) :
    List GetAddressMempoolResult :=
  let indexes := (mempoolDeltas utxo mp keys).foldl (fun m p => m.insert p.1 p.2) (∅ : AList fun _ : DeltaKey => DeltaVal)
  ((shuffle indexes.entries).mergeSort fun p q => p.2.time ≤ q.2.time).map deltaResult

/-! ## What belongs to the addresses -/

/-- The outputs of the mempool that pay one of the addresses. -/
def outputsTo : List GetAddressMempoolResult :=
  mp.txDescs.flatMap fun desc => desc.tx.txOut.zipIdx.filterMap fun (out, i) =>
    (keys.find? (·.script = out.pkScript)).map fun a => ⟨a, desc.tx.hash, i, out.value, desc.added, none⟩

/-- The inputs of the mempool that spend from one of the addresses, as far as the output they spend is found. -/
def inputsFrom : List GetAddressMempoolResult :=
  mp.txDescs.flatMap fun desc => desc.tx.txIn.zipIdx.filterMap fun (op, i) => do
    let (prevScript, prevValue) ← prevOutScript utxo mp op
    (keys.find? (·.script = prevScript)).map fun a => ⟨a, desc.tx.hash, i, prevValue, desc.added, some op⟩

def GetAddressMempoolResult.negate (r : GetAddressMempoolResult) : GetAddressMempoolResult :=
    { r with satoshis := -r.satoshis }

/-- One entry for each output and input, and the sum of what comes in less what goes out. -/
structure AddsUp (es : List GetAddressMempoolResult) : Prop where
  entries : es.Perm (outputsTo mp keys ++ (inputsFrom utxo mp keys).map GetAddressMempoolResult.negate)
  sum : (es.map (·.satoshis)).sum =
    ((outputsTo mp keys).map (·.satoshis)).sum - ((inputsFrom utxo mp keys).map (·.satoshis)).sum

end Handler

section Proofs

variable {utxo : OutPoint → Option UtxoEntry} {mp : TxPool} {keys : List IndexAddress}

theorem matchingKey_eq_find? (pkScript : List UInt8) : matchingKey keys pkScript = keys.find? (·.script = pkScript) := by
  have hscript : ∀ a : IndexAddress, a.script = pkScript ↔ extractIndexInfo pkScript = some (a.type, a.hashBytes) :=
    fun a => by
    rw [eq_comm, ← IndexAddress.form_iff, extractIndexInfo_eq_some]
  unfold matchingKey
  simp only [hscript]
  cases extractIndexInfo pkScript with
  | none =>
    refine (find?_eq_none.2 fun a _ => ?_).symm
    simp
  | some p => simp [Prod.ext_iff]

/-- What goes into the map is what belongs to the addresses. -/
theorem mempoolDeltas_perm : ((mempoolDeltas utxo mp keys).map deltaResult).Perm
      (outputsTo mp keys ++ (inputsFrom utxo mp keys).map GetAddressMempoolResult.negate) := by
  have hout : ∀ desc, (receiving keys desc).map deltaResult = desc.tx.txOut.zipIdx.filterMap fun (out, i) =>
      (keys.find? (·.script = out.pkScript)).map fun a => ⟨a, desc.tx.hash, i, out.value, desc.added, none⟩ := by
    intro desc
    rw [receiving, map_filterMap]
    congr 1
    funext ⟨out, i⟩
    simp only [matchingKey_eq_find?]
    cases keys.find? (·.script = out.pkScript) <;> rfl
  have hin : ∀ desc, (spending utxo mp keys desc).map deltaResult = (desc.tx.txIn.zipIdx.filterMap fun (op, i) => do
      let (prevScript, prevValue) ← prevOutScript utxo mp op
      (keys.find? (·.script = prevScript)).map fun a =>
        (⟨a, desc.tx.hash, i, prevValue, desc.added, some op⟩ : GetAddressMempoolResult)).map
          GetAddressMempoolResult.negate := by
    intro desc
    rw [spending, map_filterMap, map_filterMap]
    congr 1
    funext ⟨op, i⟩
    dsimp only
    cases prevOutScript utxo mp op with
    | none => rfl
    | some p =>
      simp only [matchingKey_eq_find?, bind_eq_bind, bind_some]
      cases keys.find? (·.script = p.1) <;> rfl
  rw [mempoolDeltas, map_flatMap, inputsFrom, map_flatMap]
  simp only [map_append, hout, hin]
  exact (flatMap_append_perm _ _ _).symm

theorem mem_receiving {desc : TxDesc} {p : (_ : DeltaKey) × DeltaVal} (h : p ∈ receiving keys desc) :
    ∃ out, desc.tx.txOut[p.1.index]? = some out ∧ p.1.address ∈ keys ∧ out.pkScript = p.1.address.script ∧
      p.1.txid = desc.tx.hash := by
  obtain ⟨⟨out, i⟩, hmem, hp⟩ := mem_filterMap.1 h
  simp only [matchingKey_eq_find?, bind_eq_bind, bind_eq_some_iff, Option.some.injEq] at hp
  obtain ⟨a, ha, rfl⟩ := hp
  have hscript : a.script = out.pkScript := by simpa using find?_some ha
  exact ⟨out, mk_mem_zipIdx_iff_getElem?.1 hmem, mem_of_find?_eq_some ha, hscript.symm, rfl⟩

theorem mem_spending {desc : TxDesc} {p : (_ : DeltaKey) × DeltaVal} (h : p ∈ spending utxo mp keys desc) :
    ∃ op value, desc.tx.txIn[p.1.index]? = some op ∧ p.1.address ∈ keys ∧
      prevOutScript utxo mp op = some (p.1.address.script, value) ∧ p.1.txid = desc.tx.hash := by
  obtain ⟨⟨op, i⟩, hmem, hp⟩ := mem_filterMap.1 h
  simp only [matchingKey_eq_find?, bind_eq_bind, bind_eq_some_iff, Option.some.injEq] at hp
  obtain ⟨⟨script, value⟩, hprev, a, ha, rfl⟩ := hp
  have hscript : a.script = script := by simpa using find?_some ha
  exact ⟨op, value, mk_mem_zipIdx_iff_getElem?.1 hmem, mem_of_find?_eq_some ha, hscript ▸ hprev, rfl⟩

theorem script_inj {a b : IndexAddress} (h : a.script = b.script) : a = b := by
  have ha := extractIndexInfo_of_form (IndexAddress.form_iff.2 (rfl : a.script = a.script))
  have hb := extractIndexInfo_of_form (IndexAddress.form_iff.2 (rfl : b.script = b.script))
  rw [h, hb] at ha
  obtain ⟨t, hash, hsize⟩ := a
  obtain ⟨t', hash', hsize'⟩ := b
  obtain ⟨rfl, rfl⟩ := Prod.mk.inj (Option.some.inj ha)
  rfl

theorem find?_script {a : IndexAddress} (ha : a ∈ keys) : keys.find? (·.script = a.script) = some a := by
  have hsome : (keys.find? (·.script = a.script)).isSome := find?_isSome.2 ⟨a, ha, decide_eq_true rfl⟩
  obtain ⟨b, hb⟩ := isSome_iff_exists.1 hsome
  have hscript : b.script = a.script := by simpa using find?_some hb
  rw [hb, script_inj hscript]

/-- An output and an input at one position belong to one address. -/
def PaysBack (utxo : OutPoint → Option UtxoEntry) (mp : TxPool) (tx : Tx) (a : IndexAddress) : Prop :=
  ∃ (i : Nat) (out : TxOut) (op : OutPoint) (value : Int), tx.txOut[i]? = some out ∧ out.pkScript = a.script ∧
    tx.txIn[i]? = some op ∧ prevOutScript utxo mp op = some (a.script, value)

theorem pairwise_zipIdx {α : Type} (l : List α) : l.zipIdx.Pairwise fun p q => p.2 ≠ q.2 := by
  have hnodup : (l.zipIdx.map Prod.snd).Nodup := by
    rw [zipIdx_map_snd]
    exact nodup_range'
  exact pairwise_map.1 hnodup

theorem pairwise_receiving (desc : TxDesc) : (receiving keys desc).Pairwise fun p q => p.1 ≠ q.1 := by
  refine pairwise_filterMap.2 ((pairwise_zipIdx desc.tx.txOut).imp ?_)
  rintro ⟨out, i⟩ ⟨out', j⟩ hne p hp q hq heq
  simp only [bind_eq_bind, bind_eq_some_iff, Option.some.injEq] at hp hq
  obtain ⟨a, -, rfl⟩ := hp
  obtain ⟨a', -, rfl⟩ := hq
  exact hne (congrArg DeltaKey.index heq)

theorem pairwise_spending (desc : TxDesc) : (spending utxo mp keys desc).Pairwise fun p q => p.1 ≠ q.1 := by
  refine pairwise_filterMap.2 ((pairwise_zipIdx desc.tx.txIn).imp ?_)
  rintro ⟨op, i⟩ ⟨op', j⟩ hne p hp q hq heq
  simp only [bind_eq_bind, bind_eq_some_iff, Option.some.injEq] at hp hq
  obtain ⟨_, _, a, _, rfl⟩ := hp
  obtain ⟨_, _, a', _, rfl⟩ := hq
  exact hne (congrArg DeltaKey.index heq)

theorem pairwise_txDescs : mp.txDescs.Pairwise fun desc desc' => desc.tx.hash ≠ desc'.tx.hash := by
  refine pairwise_map.2 ((nodupKeys_iff_pairwise.1 mp.pool.nodupKeys).imp_of_mem ?_)
  intro p q hp hq hne
  rw [mp.keyed p.1 p.2 (AList.mem_lookup_iff.2 hp), mp.keyed q.1 q.2 (AList.mem_lookup_iff.2 hq)]
  exact hne

/-- Two deltas of the mempool have the same key only if they are an output and an input at one position. -/
theorem nodupKeys_mempoolDeltas_iff :
    (mempoolDeltas utxo mp keys).NodupKeys ↔ ∀ desc ∈ mp.txDescs, ∀ a ∈ keys, ¬ PaysBack utxo mp desc.tx a := by
  rw [nodupKeys_iff_pairwise, mempoolDeltas, pairwise_flatMap]
  constructor
  · rintro ⟨hdesc, -⟩ desc hmem a ha ⟨i, out, op, value, hout, hscript, hin, hprev⟩
    obtain ⟨-, -, hne⟩ := pairwise_append.1 (hdesc desc hmem)
    refine hne ⟨⟨a, desc.tx.hash, i⟩, ⟨out.value, desc.added, none⟩⟩ ?_
      ⟨⟨a, desc.tx.hash, i⟩, ⟨-value, desc.added, some op⟩⟩ ?_ rfl
    · refine mem_filterMap.2 ⟨(out, i), mk_mem_zipIdx_iff_getElem?.2 hout, ?_⟩
      simp [matchingKey_eq_find?, hscript, find?_script ha]
    · refine mem_filterMap.2 ⟨(op, i), mk_mem_zipIdx_iff_getElem?.2 hin, ?_⟩
      simp [matchingKey_eq_find?, hprev, find?_script ha]
  · intro hnone
    refine ⟨fun desc hmem => pairwise_append.2 ⟨pairwise_receiving desc, pairwise_spending desc, ?_⟩, ?_⟩
    · intro p hp q hq heq
      obtain ⟨out, hout, ha, hscript, -⟩ := mem_receiving hp
      obtain ⟨op, value, hin, -, hprev, -⟩ := mem_spending hq
      rw [← heq] at hin hprev
      exact hnone desc hmem _ ha ⟨_, out, op, value, hout, hscript, hin, hprev⟩
    · -- deltas of two transactions differ in the transaction
      have htxid : ∀ desc p, p ∈ receiving keys desc ++ spending utxo mp keys desc → p.1.txid = desc.tx.hash := by
        intro desc p hp
        obtain hp | hp := mem_append.1 hp
        · obtain ⟨_, -, -, -, h⟩ := mem_receiving hp
          exact h
        · obtain ⟨_, _, -, -, -, h⟩ := mem_spending hp
          exact h
      refine pairwise_txDescs.imp fun {desc desc'} hne p hp q hq heq => hne ?_
      rw [← htxid desc p hp, ← htxid desc' q hq, heq]

end Proofs

/-- The entries add up if no transaction has, at one position, an output to and an input from the same one of the
addresses. -/
theorem mempool_adds_up_iff (utxo : OutPoint → Option UtxoEntry) (mp : TxPool) (keys : List IndexAddress)
    {shuffle : List ((_ : DeltaKey) × DeltaVal) → List ((_ : DeltaKey) × DeltaVal)}
    (hshuffle : ∀ l, (shuffle l).Perm l) : AddsUp utxo mp keys (handleGetAddressMempool utxo mp keys shuffle) ↔
      ∀ desc ∈ mp.txDescs, ∀ a ∈ keys, ¬ PaysBack utxo mp desc.tx a := by
  have hresult : (handleGetAddressMempool utxo mp keys shuffle).Perm
      (((mempoolDeltas utxo mp keys).foldl (fun m p => m.insert p.1 p.2)
        (∅ : AList fun _ : DeltaKey => DeltaVal)).entries.map deltaResult) :=
    ((mergeSort_perm _ _).trans (hshuffle _)).map deltaResult
  rw [← nodupKeys_mempoolDeltas_iff]
  constructor
  · intro h
    have hlen := (hresult.symm.trans (h.entries.trans mempoolDeltas_perm.symm)).length_eq
    rw [length_map, length_map] at hlen
    exact (nodupKeys_of_length_foldl_insert hlen).1
  · intro hnodup
    have hperm := entries_foldl_insert_perm hnodup fun p _ => AList.notMem_empty p.1
    rw [AList.empty_entries, append_nil] at hperm
    have hentries := hresult.trans ((hperm.map deltaResult).trans mempoolDeltas_perm)
    refine ⟨hentries, ?_⟩
    have hneg : (((inputsFrom utxo mp keys).map GetAddressMempoolResult.negate).map (·.satoshis)).sum =
        -((inputsFrom utxo mp keys).map (·.satoshis)).sum := by
      rw [sum_neg, List.map_map, List.map_map]
      rfl
    rw [(hentries.map (·.satoshis)).sum_eq, map_append, sum_append]
    omega

def onePool (tx : Tx) : TxPool where
  pool := AList.singleton tx.hash ⟨tx, 0⟩
  keyed h d hd := by
    have hmem : (⟨h, d⟩ : (_ : Hash) × TxDesc) ∈ [⟨tx.hash, ⟨tx, 0⟩⟩] := AList.mem_lookup_iff.1 hd
    cases mem_singleton.1 hmem
    rfl

def sampleAddress : IndexAddress := ⟨.pubkeyAddress, replicate 20 1, rfl⟩

/-- An unspent output of 50 that pays the address. -/
def sampleUtxo (op : OutPoint) : Option UtxoEntry :=
  if op = ⟨1, 0⟩ then some ⟨50, sampleAddress.script, 1, false, false, false, false⟩ else none

/-- The change goes to the second output. -/
theorem mempool_adds_up_change :
    AddsUp sampleUtxo (onePool ⟨2, [⟨1, 0⟩], [⟨20, []⟩, ⟨30, sampleAddress.script⟩]⟩) [sampleAddress]
      (handleGetAddressMempool sampleUtxo
        (onePool ⟨2, [⟨1, 0⟩], [⟨20, []⟩, ⟨30, sampleAddress.script⟩]⟩) [sampleAddress] id) := by
  refine (mempool_adds_up_iff _ _ _ Perm.refl).2 ?_
  rintro desc hdesc a ha ⟨i, out, op, value, hout, hscript, hin, -⟩
  obtain rfl := mem_singleton.1 hdesc
  obtain rfl := mem_singleton.1 ha
  match i with
  | 0 =>
    cases hout
    exact absurd hscript (by decide)
  | i + 1 => cases hin

/-- The change goes to the only output: the entry of the output is lost. -/
theorem mempool_change_lost :
    (handleGetAddressMempool sampleUtxo (onePool ⟨2, [⟨1, 0⟩], [⟨30, sampleAddress.script⟩]⟩)
      [sampleAddress] id).map (·.satoshis) = [-50] ∧
    ¬ AddsUp sampleUtxo (onePool ⟨2, [⟨1, 0⟩], [⟨30, sampleAddress.script⟩]⟩) [sampleAddress]
      (handleGetAddressMempool sampleUtxo (onePool ⟨2, [⟨1, 0⟩], [⟨30, sampleAddress.script⟩]⟩)
        [sampleAddress] id) := by
  refine ⟨by decide +kernel, fun h => ?_⟩
  have hsum := h.sum
  revert hsum
  decide +kernel

end IniNode.Sugar
