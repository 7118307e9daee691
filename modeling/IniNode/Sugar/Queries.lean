import IniNode.Lib.Rows
import IniNode.Sugar.Scripts
/-!
# Address queries

`ReadAddressUnspent` and `ReadAddressIndex` hand out the rows under the key of an address. The sums of both agree on every
chain. The outputs are those of the address's script, unless the chain has an unspent output with another script under
the same key: keys pad a hash with zeros, and a witness program of any length counts as a key hash or a taproot key.
-/

open IniNode.Lib List Option

namespace IniNode.Sugar

open Entry
/-! ## Addresses -/

def AddrIndt.size : AddrIndt → Nat
  | .pubkeyAddress | .scriptAddress | .witnessV0KeyHash => 20
  | .witnessV0ScriptHash | .witnessV1Taproot => 32

/-- What `DecodeIndexKey` makes of an address. -/
structure IndexAddress where
  type : AddrIndt
  hashBytes : List UInt8
  size : hashBytes.length = type.size

namespace IndexAddress

variable (a : IndexAddress)

/-- `PayToAddrScript`. -/
def script : List UInt8 :=
  match a.type with
  | .pubkeyAddress => [0x76, 0xa9, 0x14] ++ a.hashBytes ++ [0x88, 0xac]
  | .scriptAddress => [0xa9, 0x14] ++ a.hashBytes ++ [0x87]
  | .witnessV0KeyHash => witnessScript 0x00 a.hashBytes
  | .witnessV0ScriptHash => [0x00, 0x20] ++ a.hashBytes
  | .witnessV1Taproot => witnessScript 0x51 a.hashBytes

def key : Address := ⟨a.type, hashIndex a.hashBytes⟩

theorem form_iff {a : IndexAddress} {script : List UInt8} : Form a.type a.hashBytes script ↔ script = a.script := by
  obtain ⟨t, hash, hsize⟩ := a
  constructor
  · intro h
    cases h <;> rfl
  · rintro rfl
    cases t with
    | pubkeyAddress => exact .pubkeyAddress hsize
    | scriptAddress => exact .scriptAddress hsize
    | witnessV0KeyHash =>
      have hsize : hash.length = 20 := hsize
      exact @Form.witnessV0KeyHash hash (by omega) (by omega) (by omega)
    | witnessV0ScriptHash => exact .witnessV0ScriptHash hsize
    | witnessV1Taproot =>
      have hsize : hash.length = 32 := hsize
      exact @Form.witnessV1Taproot hash (by omega) (by omega)

/-- Another script of the same type, whose hash is the same with zeros at its end. -/
def Impostor (script : List UInt8) : Prop :=
  ∃ hash, Form a.type hash script ∧ hash ≠ a.hashBytes ∧ hashIndex hash = hashIndex a.hashBytes

theorem address_eq_key {a : IndexAddress} {script : List UInt8} :
    address script = some a.key ↔ script = a.script ∨ a.Impostor script := by
  simp only [address, map_eq_some_iff, Prod.exists, extractIndexInfo_eq_some, key, Address.mk.injEq]
  constructor
  · rintro ⟨t, hash, hform, rfl, hpad⟩
    by_cases hh : hash = a.hashBytes
    · exact .inl (form_iff.1 (hh ▸ hform))
    · exact .inr ⟨hash, hform, hh, hpad⟩
  · rintro (h | ⟨hash, hform, -, hpad⟩)
    · exact ⟨_, _, form_iff.2 h, rfl, rfl⟩
    · exact ⟨_, _, hform, rfl, hpad⟩

theorem not_impostor_script : ¬ a.Impostor a.script := by
  rintro ⟨hash, hform, hne, -⟩
  have hsome := (extractIndexInfo_of_form hform).symm.trans (extractIndexInfo_of_form (form_iff.2 rfl))
  exact hne (Prod.mk.inj (Option.some.inj hsome)).2

end IndexAddress

/-! ## Reading -/

def ReadAddressUnspent (s : Index) (t : AddrIndt) (hashBytes : List UInt8)
    (rows : List (AddressUnspentKey × AddressUnspentValue)) : Prop :=
  Lists s.addressUnspent (fun k => k.address = ⟨t, hashIndex hashBytes⟩) rows

/-- `ReadAddressIndex`, over all heights, hands out the rows. -/
def ReadAddressIndex (s : Index) (t : AddrIndt) (hashBytes : List UInt8) (rows : List (AddressIndexKey × Int)) : Prop :=
  Lists s.addressIndex (fun k => k.address = ⟨t, hashIndex hashBytes⟩) rows

/-! ## Sums -/

def Entry.satoshis : Entry → Int
  | .spent _ stxo _ _ _ => -stxo.amount
  | .received _ txOut _ _ => txOut.value

/-- What an entry adds to the balance of an address. -/
def Entry.delta (a : Address) (e : Entry) : Int := if address e.script = some a then e.satoshis else 0

variable {height : Int} {l : OutputLedger} {e : Entry} {es : List Entry} {a : Address}

theorem exists_unspent_step {us : List (AddressUnspentKey × AddressUnspentValue)}
    (h : Lists (unspentOf l) (fun k => k.address = a) us) (ha : l.Allows (e.event height)) (hj : e.Journalled l) :
    ∃ us', Lists (unspentOf (l.step (e.event height))) (fun k => k.address = a) us' ∧
      total AddressUnspentValue.satoshis us' = total AddressUnspentValue.satoshis us + e.delta a := by
  rw [← unspentOf_add ha hj]
  by_cases hs : address e.script = some a
  · cases e with
    | spent txIn stxo txHash txIdx inIdx =>
      have hs' : address stxo.pkScript = some a := hs
      have hrow : unspentOf l ⟨a, txIn⟩ = some (stxoValue stxo) :=
        (unspentOf_eq (k := ⟨a, txIn⟩) hj).trans (if_pos hs')
      have hmem : ((⟨a, txIn⟩, stxoValue stxo) : AddressUnspentKey × AddressUnspentValue) ∈ us :=
        (h.mem _ _).2 ⟨rfl, hrow⟩
      refine ⟨us.erase (⟨a, txIn⟩, stxoValue stxo), ?_, ?_⟩
      · rw [add, addSpent, hs']
        exact h.write_erase hrow
      · rw [total_erase hmem, delta, if_pos hs]
        rfl
    | received txHash txOut txIdx vIdx =>
      have hs' : address txOut.pkScript = some a := hs
      have hrow : unspentOf l ⟨a, txHash, vIdx⟩ = none := unspentOf_eq_none (Ledger.live_none_of_origin_none ha)
      refine ⟨(⟨a, txHash, vIdx⟩, ⟨txOut.value, txOut.pkScript, height⟩) :: us, ?_, ?_⟩
      · rw [add, addReceived, hs']
        exact h.write_new rfl hrow
      · rw [delta, if_pos hs, Int.add_comm]
        rfl
  · refine ⟨us, h.congr fun k hk => ?_, by rw [delta, if_neg hs, Int.add_zero]⟩
    rw [writeAll_add, if_neg]
    rintro ⟨-, hk'⟩
    exact hs (hk'.trans (congrArg some hk))

theorem exists_unspent_run {us : List (AddressUnspentKey × AddressUnspentValue)}
    (h : Lists (unspentOf l) (fun k => k.address = a) us) (hfits : Fits height l es) :
    ∃ us', Lists (unspentOf (l.run (es.map (event height)))) (fun k => k.address = a) us' ∧
      total AddressUnspentValue.satoshis us' = total AddressUnspentValue.satoshis us + (es.map (delta a)).sum := by
  induction es generalizing l us with
  | nil => exact ⟨us, h, by simp⟩
  | cons e es ih =>
    obtain ⟨us1, h1, ht1⟩ := exists_unspent_step h hfits.1 hfits.2.1
    obtain ⟨us2, h2, ht2⟩ := ih h1 hfits.2.2
    refine ⟨us2, h2, ?_⟩
    rw [ht2, ht1, map_cons, sum_cons, Int.add_assoc]

/-- The place of an entry in its block: transaction, input or output, and which of the two. -/
def Entry.position : Entry → Nat × Nat × Bool
  | .spent _ _ _ txIdx inIdx => (txIdx, inIdx, true)
  | .received _ _ txIdx vIdx => (txIdx, vIdx, false)

theorem nodup_positions_txEntries (txIdx : Nat) (tx : Tx) (stxos : List SpentTxOut) :
    ((txEntries txIdx tx stxos).map position).Nodup ∧ ∀ e ∈ txEntries txIdx tx stxos, e.position.1 = txIdx := by
  have hspent : ∀ ps : List (OutPoint × SpentTxOut),
      ((ps.zipIdx.map fun p => spent p.1.1 p.1.2 tx.hash txIdx p.2).map position) =
        (range' 0 ps.length).map fun i => (txIdx, i, true) := by
    intro ps
    rw [← zipIdx_map_snd 0 ps, List.map_map, List.map_map]
    rfl
  have hreceived : (tx.txOut.zipIdx.map fun p => received tx.hash p.1 txIdx p.2).map position =
      (range' 0 tx.txOut.length).map fun i => (txIdx, i, false) := by
    rw [← zipIdx_map_snd 0 tx.txOut, List.map_map, List.map_map]
    rfl
  have hinj : ∀ b : Bool, Function.Injective fun i : Nat => (txIdx, i, b) := by
    intro b i j hij
    simpa using hij
  constructor
  · rw [txEntries, map_append, hreceived]
    refine nodup_append.2 ⟨?_, (nodup_range' ..).map (hinj false), ?_⟩
    · split
      · exact nodup_nil
      · rw [hspent]
        exact (nodup_range' ..).map (hinj true)
    · intro x hx y hy
      obtain ⟨j, -, rfl⟩ := List.mem_map.1 hy
      split at hx
      · cases hx
      · rw [hspent] at hx
        obtain ⟨i, -, rfl⟩ := List.mem_map.1 hx
        simp
  · intro e he
    rw [txEntries, mem_append] at he
    rcases he with he | he
    · split at he
      · cases he
      · obtain ⟨_, -, rfl⟩ := List.mem_map.1 he
        rfl
    · obtain ⟨_, -, rfl⟩ := List.mem_map.1 he
      rfl

theorem nodup_positions {txIdx : Nat} {txs : List Tx} {stxos : List SpentTxOut}
    (h : blockEntries txIdx txs stxos = some es) :
    (es.map position).Nodup ∧ ∀ e ∈ es, txIdx ≤ e.position.1 := by
  induction txs generalizing txIdx stxos es with
  | nil =>
    cases h
    exact ⟨nodup_nil, by simp⟩
  | cons tx txs ih =>
    rw [blockEntries_cons] at h
    split at h
    · cases h
    · obtain ⟨es', hes', rfl⟩ := map_eq_some_iff.1 h
      obtain ⟨hnd, hle⟩ := ih hes'
      obtain ⟨hnd1, heq⟩ := nodup_positions_txEntries txIdx tx stxos
      constructor
      · rw [map_append]
        refine nodup_append.2 ⟨hnd1, hnd, ?_⟩
        intro x hx y hy hxy
        obtain ⟨e, he, rfl⟩ := List.mem_map.1 hx
        obtain ⟨e', he', rfl⟩ := List.mem_map.1 hy
        have := hle e' he'
        rw [← hxy, heq e he] at this
        omega
      · intro e he
        rcases mem_append.1 he with he | he
        · exact Nat.le_of_eq (heq e he).symm
        · exact Nat.le_of_succ_le (hle e he)

/-- The place in its block that a delta is about. -/
def AddressIndexKey.position (k : AddressIndexKey) : Nat × Nat × Bool := (k.txIndex, k.index, k.spending)

theorem add_addressIndex (e : Entry) : (e.add height).addressIndex = [] ∧ address e.script = none ∨
      ∃ k, (e.add height).addressIndex = [⟨k, some e.satoshis⟩] ∧ address e.script = some k.address ∧
        k.position = e.position ∧ k.blockHeight = height := by
  cases e with
  | spent txIn stxo txHash txIdx inIdx =>
    rw [add, addSpent]
    cases hs : address stxo.pkScript with
    | none => exact .inl ⟨rfl, hs⟩
    | some b => exact .inr ⟨_, rfl, hs, rfl, rfl⟩
  | received txHash txOut txIdx vIdx =>
    rw [add, addReceived]
    cases hs : address txOut.pkScript with
    | none => exact .inl ⟨rfl, hs⟩
    | some b => exact .inr ⟨_, rfl, hs, rfl, rfl⟩

/-- The entries of a block move the sum of the deltas by theirs, if the index has none of that height yet. -/
theorem exists_deltas_run {t : Store AddressIndexKey Int} {ds : List (AddressIndexKey × Int)}
    (h : Lists t (fun k => k.address = a) ds) (hnd : (es.map position).Nodup)
    (hnew : ∀ k, (t k).isSome → k.blockHeight = height → k.position ∉ es.map position) :
    ∃ ds', Lists (t.writeAll (es.flatMap fun e => (e.add height).addressIndex)) (fun k => k.address = a) ds' ∧
      total (fun d => d) ds' = total (fun d => d) ds + (es.map (delta a)).sum := by
  induction es generalizing t ds with
  | nil => exact ⟨ds, h, by simp⟩
  | cons e es ih =>
    obtain ⟨hnot, hnd⟩ := nodup_cons.1 hnd
    have hnew' : ∀ k, (t k).isSome → k.blockHeight = height → k.position ∉ es.map position := fun k hk hh hm =>
      hnew k hk hh (mem_cons_of_mem _ hm)
    rcases add_addressIndex e with ⟨hadd, hs⟩ | ⟨k, hadd, hs, hpos, hheight⟩
    · obtain ⟨ds', hds', ht⟩ := ih h hnd hnew'
      refine ⟨ds', by rwa [flatMap_cons, hadd], ?_⟩
      rw [ht, map_cons, sum_cons, delta, hs, if_neg (by simp), Int.zero_add]
    · have hfresh : t k = none := by
        by_contra hk
        exact hnew k (isSome_iff_ne_none.2 hk) hheight (hpos ▸ mem_cons_self)
      have hnew'' : ∀ k', (t.write ⟨k, some e.satoshis⟩ k').isSome → k'.blockHeight = height →
          k'.position ∉ es.map position := by
        intro k' hk' hh
        rw [Store.write_apply] at hk'
        split at hk'
        next heq =>
          subst heq
          rwa [hpos]
        next => exact hnew' k' hk' hh
      simp only [flatMap_cons, hadd]
      by_cases hka : k.address = a
      · obtain ⟨ds', hds', ht⟩ := ih (h.write_new hka hfresh) hnd hnew''
        refine ⟨ds', hds', ?_⟩
        rw [ht, total_cons, map_cons, sum_cons, delta, if_pos (hka ▸ hs)]
        omega
      · obtain ⟨ds', hds', ht⟩ := ih (h.write_other hka) hnd hnew''
        refine ⟨ds', hds', ?_⟩
        rw [ht, map_cons, sum_cons, delta, hs, if_neg (by simpa using hka), Int.zero_add]

/-- On every chain some rows are read for an address, and the sums of both tables agree. -/
theorem exists_reads {chain : Chain} {s : Index} (hc : ValidChain chain) (hs : indexOf chain = some s) (a : Address) :
    ∃ us ds, Lists s.addressUnspent (fun k => k.address = a) us ∧ Lists s.addressIndex (fun k => k.address = a) ds ∧
      total AddressUnspentValue.satoshis us = total (fun d => d) ds := by
  induction chain generalizing s with
  | nil =>
    cases hs
    exact ⟨[], [], .empty, .empty, rfl⟩
  | cons p below ih =>
    obtain ⟨block, stxos⟩ := p
    obtain ⟨s0, hs0, hconn⟩ := bind_eq_some_iff.1 hs
    obtain ⟨us, ds, hus, hds, hsum⟩ := ih hc.2 hs0
    have hagrees := agrees_indexOf hc.2 hs0
    obtain ⟨es, hes, hfits⟩ := hc.1.journal
    have hentries : entries block stxos = some es := by
      obtain ⟨b, hb, -⟩ := map_eq_some_iff.1 hconn
      obtain ⟨es', hes', -⟩ := map_eq_some_iff.1 hb
      rwa [hes.symm.trans (blockEntries_of_entries hes')]
    rw [connectBlock_eq hentries, Option.some.injEq] at hconn
    subst hconn
    rw [hagrees.unspent] at hus
    obtain ⟨us', hus', hu⟩ := exists_unspent_run hus hfits
    have hnew : ∀ k, (s0.addressIndex k).isSome → k.blockHeight = (below.length : Int) →
        k.position ∉ es.map position := by
      intro k hk hh
      have := hagrees.deltas k hk
      omega
    obtain ⟨ds', hds', hd⟩ := exists_deltas_run hds (nodup_positions hes).1 hnew
    refine ⟨us', ds', ?_, hds', by rw [hu, hd, hsum]⟩
    rw [hagrees.unspent, unspentOf_run hfits]
    exact hus'

/-- What the queries of an address report is what the chain has of it exactly if the chain has no unspent output with
another script under the address's key. -/
theorem address_queries_match_iff {chain : Chain} {s : Index} (hc : ValidChain chain) (hs : indexOf chain = some s)
    (a : IndexAddress) {us : List (AddressUnspentKey × AddressUnspentValue)} {ds : List (AddressIndexKey × Int)}
    (hus : ReadAddressUnspent s a.type a.hashBytes us) (hds : ReadAddressIndex s a.type a.hashBytes ds) :
    ((∀ op v, (⟨a.key, op⟩, v) ∈ us ↔ (ledgerOf chain).live op = some v ∧ v.script = a.script) ∧
        total AddressUnspentValue.satoshis us = total (fun d => d) ds) ↔
      ∀ op v, (ledgerOf chain).live op = some v → ¬ a.Impostor v.script := by
  have hmem : ∀ op v, (⟨a.key, op⟩, v) ∈ us ↔
      (ledgerOf chain).live op = some v ∧ (v.script = a.script ∨ a.Impostor v.script) := by
    intro op v
    rw [hus.mem, (agrees_indexOf hc hs).unspent, unspentOf, filter_eq_some_iff, ← IndexAddress.address_eq_key]
    simp only [IndexAddress.key, true_and]
    exact and_congr_right fun _ => decide_eq_true_iff
  constructor
  · rintro ⟨h, -⟩ op v hlive himp
    have hscript := ((h op v).1 ((hmem op v).2 ⟨hlive, .inr himp⟩)).2
    exact a.not_impostor_script (hscript ▸ himp)
  · intro h
    refine ⟨fun op v => (hmem op v).trans (and_congr_right fun hlive => or_iff_left (h op v hlive)), ?_⟩
    obtain ⟨us', ds', hus', hds', hsum⟩ := exists_reads hc hs a.key
    rw [total_perm (hus.perm hus'), hsum, total_perm (hds.perm hds')]

variable (pkScript : List UInt8)

def chainPaying : Chain := [(blockPaying pkScript, [])]

theorem validChain_chainPaying : ValidChain (chainPaying pkScript) :=
  ⟨⟨⟨_, rfl, rfl, trivial, trivial⟩, by simp [blockPaying], by simp⟩, trivial⟩

theorem live_chainPaying (op : OutPoint) :
    (ledgerOf (chainPaying pkScript)).live op = if op = ⟨11, 0⟩ then some ⟨50, pkScript, 0⟩ else none :=
  Ledger.step_create_live ..

/-- A taproot address whose key ends in a zero byte. -/
def zeroEnded : IndexAddress := ⟨.witnessV1Taproot, replicate 31 1 ++ [0], rfl⟩

theorem zeroEnded_queries : ∃ s us ds, indexOf (chainPaying zeroEnded.script) = some s ∧
    ReadAddressUnspent s zeroEnded.type zeroEnded.hashBytes us ∧
    ReadAddressIndex s zeroEnded.type zeroEnded.hashBytes ds ∧ (∀ op v, (⟨zeroEnded.key, op⟩, v) ∈ us ↔
        (ledgerOf (chainPaying zeroEnded.script)).live op = some v ∧ v.script = zeroEnded.script) ∧
      total AddressUnspentValue.satoshis us = total (fun d => d) ds := by
  have hc := validChain_chainPaying zeroEnded.script
  obtain ⟨s, hs⟩ : ∃ s, indexOf (chainPaying zeroEnded.script) = some s := ⟨_, rfl⟩
  obtain ⟨us, ds, hus, hds, -⟩ := exists_reads hc hs zeroEnded.key
  refine ⟨s, us, ds, hs, hus, hds, (address_queries_match_iff hc hs zeroEnded hus hds).2 ?_⟩
  intro op v hlive
  rw [live_chainPaying] at hlive
  split at hlive
  · cases hlive
    exact zeroEnded.not_impostor_script
  · cases hlive

/-- The outputs of a shorter program are reported for the address. -/
theorem impostor_reported : ValidChain (chainPaying (witnessScript 0x51 (replicate 31 1))) ∧
    ∃ s, indexOf (chainPaying (witnessScript 0x51 (replicate 31 1))) = some s ∧ ∀ us,
      ReadAddressUnspent s zeroEnded.type zeroEnded.hashBytes us → ∃ r ∈ us, r.2.script ≠ zeroEnded.script := by
  refine ⟨validChain_chainPaying _, _, rfl, fun us hus => ?_⟩
  refine ⟨(⟨zeroEnded.key, 11, 0⟩, ⟨50, witnessScript 0x51 (replicate 31 1), 0⟩),
    (hus.mem _ _).2 ⟨rfl, ?_⟩, ?_⟩
  · decide
  · decide

end IniNode.Sugar
