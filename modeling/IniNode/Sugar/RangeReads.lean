import IniNode.Lib.ByteKeys
import IniNode.Sugar.Index
/-!
# Range reads

The rows of the address and timestamp indexes as they stand in LevelDB, and the two reads that go through a range of them.
Keys hold heights and timestamps little-endian, and the iterator goes in byte order.
-/

open IniNode.Lib List Option

namespace IniNode.Sugar

open AddressIndexKey
/-! ## Encoding -/

/-- The numbers of the `AddressIndexType` constants. -/
def AddrIndt.code : AddrIndt → Nat
  | .pubkeyAddress => 1
  | .scriptAddress => 2
  | .witnessV0KeyHash => 5
  | .witnessV0ScriptHash => 6
  | .witnessV1Taproot => 7

theorem AddrIndt.code_inj {a b : AddrIndt} (h : a.code = b.code) : a = b := by
  cases a <;> cases b <;> first | rfl | exact absurd h nofun

def u32 (n : Nat) : Bytes := toLE 4 n

def i32 (n : Int) : Bytes := u32 (n % 2 ^ 32).toNat

def i64 (n : Int) : Bytes := toLE 8 (n % 2 ^ 64).toNat

/-- `enc.hash`. -/
def hash32 (h : Hash) : Bytes := toLE 32 h

def dbAddressIndex : UInt8 := 0x61

def dbTimestampIndex : UInt8 := 0x73

variable (k : AddressIndexKey)

/-- What stands behind the height in a key of the address index. -/
def AddressIndexKey.place : Bytes :=
  u32 k.txIndex ++ (hash32 k.txHash ++ (u32 k.index ++ [if k.spending then 1 else 0]))

def AddressIndexKey.key : Bytes :=
  [dbAddressIndex] ++ (u32 k.address.type.code ++ (hashIndex k.address.hashBytes ++ (i32 k.blockHeight ++ k.place)))

def TimestampIndexKey.key (k : TimestampIndexKey) : Bytes := [dbTimestampIndex] ++ (u32 k.timestamp ++ hash32 k.blockHash)

/-! ## Decoding -/

/-- The next bytes of a row, and the rest. -/
def dec (n : Nat) (b : Bytes) : Option (Bytes × Bytes) := if b.length < n then none else some (b.take n, b.drop n)

/-- A number of the given width as a signed one. -/
def signed (w n : Nat) : Int := if n < 2 ^ (w - 1) then n else n - 2 ^ w

structure AddressIndexEntry where
  type : Nat
  hashBytes : Bytes
  blockHeight : Int
  txIndex : Nat
  txHash : Hash
  index : Nat
  spending : Bool
  satoshis : Int
deriving DecidableEq

structure TimestampEntry where
  blockHash : Hash
  timestamp : Nat
deriving DecidableEq

/-- What the callback of `ReadAddressIndex` makes of a row; none if it stops the iteration. -/
def readAddressRow (addrType : AddrIndt) (hashBytes : Bytes) (stop : Int) (k v : Bytes) : Option AddressIndexEntry := do
  let (_, k) ← dec 1 k
  let (typ, k) ← dec 4 k
  let (hb, k) ← dec 32 k
  if ofLE typ ≠ addrType.code ∨ hb.take hashBytes.length ≠ hashBytes then none
  else
    let (height, k) ← dec 4 k
    let blockHeight := signed 32 (ofLE height)
    if 0 < stop ∧ stop < blockHeight then none
    else
      let (txIndex, k) ← dec 4 k
      let (txHash, k) ← dec 32 k
      let (index, k) ← dec 4 k
      let (spending, _) ← dec 1 k
      if v.length < 8 then none
      else
        some {
          type := ofLE typ
          hashBytes := hb
          blockHeight
          txIndex := ofLE txIndex
          txHash := ofLE txHash
          index := ofLE index
          spending := spending ≠ [0]
          satoshis := signed 64 (ofLE (v.take 8)) }

/-- The rows for which the callback is invoked, until it or the reading of a row stops the iteration. -/
def forEach {α : Type} (read : Bytes → Bytes → Option α) (cb : α → Bool) : List (Bytes × Bytes) → List α
  | [] => []
  | (k, v) :: rows =>
    match read k v with
    | none => []
    | some e => e :: if cb e then forEach read cb rows else []

def addressSeekKey (table : UInt8) (addrType : AddrIndt) (hashBytes : Bytes) (start : Int) : Bytes :=
  [table] ++ (u32 addrType.code ++ (hashIndex hashBytes ++ if 0 < start then i32 start else []))

/-- `ReadAddressIndex`: the entries that the callback is given. -/
def readAddressIndex (db : LevelDb) (addrType : AddrIndt) (hashBytes : Bytes) (start stop : Int)
    (cb : AddressIndexEntry → Bool) : List AddressIndexEntry :=
  let seek := addressSeekKey dbAddressIndex addrType hashBytes start
  forEach (readAddressRow addrType hashBytes stop) cb (db.newIterator seek (prefixSuccessor seek))

/-- What `ReadTimestampIndex` makes of a row: an error, the end of the loop or an entry. -/
def readTimestampRow (high : Nat) (k : Bytes) : Option (Option TimestampEntry) := do
  let (_, k) ← dec 1 k
  let (ts, k) ← dec 4 k
  if high ≤ ofLE ts then some none
  else
    let (blockHash, _) ← dec 32 k
    some (some ⟨ofLE blockHash, ofLE ts⟩)

def readTimestampRows (high : Nat) : List (Bytes × Bytes) → Option (List TimestampEntry)
  | [] => some []
  | (k, _) :: rows => do
    match ← readTimestampRow high k with
    | none => some []
    | some e => (readTimestampRows high rows).map (e :: ·)

/-- `ReadTimestampIndex`; none is an error. -/
def readTimestampIndex (db : LevelDb) (low high : Nat) : Option (List TimestampEntry) :=
  readTimestampRows high (db.newIterator ([dbTimestampIndex] ++ u32 low) (some ([dbTimestampIndex] ++ u32 high)))

/-! ## Rows -/

/-- The fields of the key have the widths of the source's types. -/
structure AddressIndexKey.Fits (k : AddressIndexKey) : Prop where
  hashBytes : k.address.hashBytes.length = 32
  blockHeight : -2 ^ 31 ≤ k.blockHeight ∧ k.blockHeight < 2 ^ 31
  txIndex : k.txIndex < 2 ^ 32
  txHash : k.txHash < 2 ^ 256
  index : k.index < 2 ^ 32

structure TimestampIndexKey.Fits (k : TimestampIndexKey) : Prop where
  timestamp : k.timestamp < 2 ^ 32
  blockHash : k.blockHash < 2 ^ 256

/-- The database holds the two indexes: their rows are all the rows of their tables. -/
structure OnDisk (s : Index) (db : LevelDb) : Prop where
  delta : ∀ r : Bytes × Bytes, [dbAddressIndex] <+: r.1 →
    (r ∈ db.rows ↔ ∃ k v, s.addressIndex k = some v ∧ r = (k.key, i64 v))
  delta_fits : ∀ k v, s.addressIndex k = some v → k.Fits ∧ -2 ^ 63 ≤ v ∧ v < 2 ^ 63
  timestamp : ∀ r : Bytes × Bytes, [dbTimestampIndex] <+: r.1 →
    (r ∈ db.rows ↔ ∃ k, s.timestampIndex k = some () ∧ r = (k.key, [0]))
  timestamp_fits : ∀ k, s.timestampIndex k = some () → k.Fits

def AddressIndexKey.entry (v : Int) : AddressIndexEntry :=
  ⟨k.address.type.code, k.address.hashBytes, k.blockHeight, k.txIndex, k.txHash, k.index, k.spending, v⟩

theorem AddressIndexKey.entry_inj {k k' : AddressIndexKey} {v v' : Int} (h : k.entry v = k'.entry v') :
    k = k' ∧ v = v' := by
  obtain ⟨⟨t, hb⟩, bh, ti, th, ix, sp⟩ := k
  obtain ⟨⟨t', hb'⟩, bh', ti', th', ix', sp'⟩ := k'
  simp only [entry, AddressIndexEntry.mk.injEq] at h
  obtain ⟨ht, rfl, rfl, rfl, rfl, rfl, rfl, rfl⟩ := h
  obtain rfl := AddrIndt.code_inj ht
  exact ⟨rfl, rfl⟩

/-! ### Numbers -/

@[simp] theorem length_u32 (n : Nat) : (u32 n).length = 4 := length_toLE 4 n

@[simp] theorem length_i32 (n : Int) : (i32 n).length = 4 := length_toLE 4 _

@[simp] theorem length_hash32 (h : Hash) : (hash32 h).length = 32 := length_toLE 32 h

theorem ofLE_u32 {n : Nat} (h : n < 2 ^ 32) : ofLE (u32 n) = n := ofLE_toLE (by omega)

theorem ofLE_hash32 {h : Hash} (hh : h < 2 ^ 256) : ofLE (hash32 h) = h :=
  ofLE_toLE (Nat.lt_of_lt_of_eq hh (by decide))

theorem signed_i32 {n : Int} (h : -2 ^ 31 ≤ n) (h' : n < 2 ^ 31) : signed 32 (ofLE (i32 n)) = n := by
  rw [i32, ofLE_u32 (by omega), signed]
  split <;> omega

theorem signed_i64 {n : Int} (h : -2 ^ 63 ≤ n) (h' : n < 2 ^ 63) : signed 64 (ofLE (i64 n)) = n := by
  rw [i64, ofLE_toLE (by omega), signed]
  split <;> omega

theorem i32_inj {n m : Int} (hn : -2 ^ 31 ≤ n ∧ n < 2 ^ 31) (hm : -2 ^ 31 ≤ m ∧ m < 2 ^ 31)
    (h : i32 n = i32 m) : n = m := by
  rw [← signed_i32 hn.1 hn.2, ← signed_i32 hm.1 hm.2, h]

theorem u32_inj {n m : Nat} (hn : n < 2 ^ 32) (hm : m < 2 ^ 32) (h : u32 n = u32 m) : n = m := by
  rw [← ofLE_u32 hn, ← ofLE_u32 hm, h]

theorem AddrIndt.code_lt (a : AddrIndt) : a.code < 2 ^ 32 := by cases a <;> decide

theorem length_hashIndex {hashBytes : Bytes} (h : hashBytes.length ≤ 32) : (hashIndex hashBytes).length = 32 := by
  rw [hashIndex, length_append, length_replicate]
  omega

theorem hashIndex_of_length {hashBytes : Bytes} (h : hashBytes.length = 32) : hashIndex hashBytes = hashBytes := by
  rw [hashIndex, h, replicate_zero, append_nil]

/-! ### Reading a row -/

theorem dec_append {n : Nat} {x : Bytes} (h : x.length = n) (rest : Bytes) : dec n (x ++ rest) = some (x, rest) := by
  rw [dec, if_neg (by rw [length_append]; omega), take_left' h, drop_left' h]

theorem readAddressRow_key {a : AddrIndt} {hashBytes : Bytes} {stop v : Int} {k : AddressIndexKey}
    (hk : k.Fits) (hv : -2 ^ 63 ≤ v ∧ v < 2 ^ 63)
    (haddr : k.address = ⟨a, hashIndex hashBytes⟩) (hstop : ¬ (0 < stop ∧ stop < k.blockHeight)) :
    readAddressRow a hashBytes stop k.key (i64 v) = some (k.entry v) := by
  have htype : k.address.type = a := by rw [haddr]
  have hhash : k.address.hashBytes = hashIndex hashBytes := by rw [haddr]
  have hpad : hashIndex k.address.hashBytes = k.address.hashBytes := hashIndex_of_length hk.hashBytes
  have htake : k.address.hashBytes.take hashBytes.length = hashBytes := by
    rw [hhash]
    exact take_left' rfl
  have hheight := signed_i32 hk.blockHeight.1 hk.blockHeight.2
  have hflag : dec 1 [if k.spending then (1 : UInt8) else 0] = some ([if k.spending then 1 else 0], []) := rfl
  unfold readAddressRow key place
  simp only [hpad, dec_append (length_singleton), dec_append (length_u32 _), dec_append hk.hashBytes,
    dec_append (length_i32 _), dec_append (length_hash32 _), hflag, bind_eq_bind, bind_some,
    ofLE_u32 (AddrIndt.code_lt _), hheight, htake, htype]
  have hvalue : (i64 v).length = 8 := length_toLE 8 _
  have hspending : decide ([if k.spending = true then (1 : UInt8) else 0] ≠ [0]) = k.spending := by
    cases k.spending <;> rfl
  rw [if_neg (by simp), if_neg hstop, ofLE_u32 hk.txIndex,
    ofLE_hash32 hk.txHash, ofLE_u32 hk.index, hspending, take_of_length_le (Nat.le_of_eq hvalue), signed_i64 hv.1 hv.2,
    ← htype]
  rfl

theorem forEach_map {α κ : Type} {read : Bytes → Bytes → Option α} {cb : α → Bool}
    {row : κ → Bytes × Bytes} {entry : κ → α}
    {ks : List κ} (hread : ∀ k ∈ ks, read (row k).1 (row k).2 = some (entry k)) (hcb : ∀ e, cb e = true) :
    forEach read cb (ks.map row) = ks.map entry := by
  induction ks with
  | nil => rfl
  | cons k ks ih =>
    have hk := hread k mem_cons_self
    have ih := ih fun k hk => hread k (mem_cons_of_mem _ hk)
    simp [forEach, hk, hcb, ih]

/-! ## The address index -/

section AddressIndex

variable {s : Index} {db : LevelDb} {a : AddrIndt} {hashBytes : Bytes} {start stop : Int} {k k' : AddressIndexKey}

theorem seek_prefix_iff (hlen : hashBytes.length ≤ 32) (hk : k.Fits) (hstart : start < 2 ^ 31) :
    addressSeekKey dbAddressIndex a hashBytes start <+: k.key ↔
      k.address = ⟨a, hashIndex hashBytes⟩ ∧ (0 < start → k.blockHeight = start) := by
  have hpad := hashIndex_of_length hk.hashBytes
  rw [addressSeekKey, key, append_prefix_append_iff rfl, append_prefix_append_iff (by simp),
    append_prefix_append_iff (by rw [length_hashIndex hlen, hpad, hk.hashBytes]), hpad]
  have htype : u32 a.code = u32 k.address.type.code ↔ k.address.type = a :=
    ⟨fun h => (AddrIndt.code_inj (u32_inj (AddrIndt.code_lt _) (AddrIndt.code_lt _) h)).symm, fun h => h ▸ rfl⟩
  have haddr : k.address = ⟨a, hashIndex hashBytes⟩ ↔
      k.address.type = a ∧ hashIndex hashBytes = k.address.hashBytes := by
    rw [eq_comm (a := hashIndex hashBytes)]
    exact Address.mk.injEq .. ▸ Iff.rfl
  have hheight : (if 0 < start then i32 start else []) <+: i32 k.blockHeight ++ k.place ↔
      (0 < start → k.blockHeight = start) := by
    split
    next hpos =>
      have hrange : -2 ^ 31 ≤ start ∧ start < 2 ^ 31 := ⟨by omega, hstart⟩
      rw [← append_nil (i32 start), append_prefix_append_iff (by simp)]
      constructor
      · rintro ⟨heq, -⟩ -
        exact (i32_inj hrange hk.blockHeight heq).symm
      · intro heq
        exact ⟨by rw [heq hpos], nil_prefix⟩
    next hpos => simp [hpos]
  tauto

/-- Keys of one address are in the byte order of their heights. -/
theorem key_lt_iff (haddr : k.address = k'.address) :
    k.key < k'.key ↔ i32 k.blockHeight < i32 k'.blockHeight ∨ i32 k.blockHeight = i32 k'.blockHeight ∧
    k.place < k'.place := by
  have hirrefl : ∀ b : Bytes, ¬ b < b := List.lt_irrefl
  rw [key, key, haddr, append_lt_append_iff rfl, append_lt_append_iff rfl,
    append_lt_append_iff rfl, append_lt_append_iff (by simp)]
  simp [hirrefl]

/-- What a read is to hand out: each stored delta of the address with a height in the range once, by height. -/
structure ExactRead (s : Index) (a : Address) (inRange : Int → Prop) (es : List AddressIndexEntry) : Prop where
  once : es.Nodup
  mem : ∀ e, e ∈ es ↔ ∃ k v, s.addressIndex k = some v ∧ k.address = a ∧ inRange k.blockHeight ∧ e = k.entry v
  ascending : es.Pairwise fun e e' => e.blockHeight ≤ e'.blockHeight

/-- A delta that a read from this height on comes to. -/
def Sought (s : Index) (a : Address) (start : Int) (d : AddressIndexKey × Int) : Prop :=
  s.addressIndex d.1 = some d.2 ∧ d.1.address = a ∧ (0 < start → d.1.blockHeight = start)

theorem mem_seek_iff (hdb : OnDisk s db) (hlen : hashBytes.length ≤ 32) (hstart : start < 2 ^ 31) (r : Bytes × Bytes) :
    r ∈ db.newIterator (addressSeekKey dbAddressIndex a hashBytes start)
        (prefixSuccessor (addressSeekKey dbAddressIndex a hashBytes start)) ↔
      ∃ d, Sought s ⟨a, hashIndex hashBytes⟩ start d ∧ r = (d.1.key, i64 d.2) := by
  rw [LevelDb.mem_newIterator_range]
  constructor
  · rintro ⟨hmem, hseek⟩
    have htable : [dbAddressIndex] <+: r.1 := (prefix_append _ _).trans hseek
    obtain ⟨k, v, hkv, rfl⟩ := (hdb.delta r htable).1 hmem
    exact ⟨(k, v), ⟨hkv, (seek_prefix_iff hlen (hdb.delta_fits k v hkv).1 hstart).1 hseek⟩, rfl⟩
  · rintro ⟨⟨k, v⟩, ⟨hkv, hsought⟩, rfl⟩
    refine ⟨(hdb.delta (k.key, i64 v) (prefix_append _ _)).2 ⟨k, v, hkv, rfl⟩, ?_⟩
    exact (seek_prefix_iff hlen (hdb.delta_fits k v hkv).1 hstart).2 hsought

variable {cb : AddressIndexEntry → Bool}

/-- The deltas that a read hands out, in the order of their keys. -/
theorem readAddressIndex_eq (hdb : OnDisk s db) (hlen : hashBytes.length ≤ 32) (hstart : start < 2 ^ 31)
    (hstop : 0 < stop → 0 < start ∧ start ≤ stop) (hcb : ∀ e, cb e = true) : ∃ ds : List (AddressIndexKey × Int),
      readAddressIndex db a hashBytes start stop cb = ds.map (fun d => d.1.entry d.2) ∧
      (∀ d, d ∈ ds ↔ Sought s ⟨a, hashIndex hashBytes⟩ start d) ∧
      ds.Pairwise (fun d d' => d.1.key < d'.1.key) ∧ (ds.map fun d => d.1.entry d.2).Nodup := by
  have hread : ∀ d, Sought s ⟨a, hashIndex hashBytes⟩ start d →
      readAddressRow a hashBytes stop d.1.key (i64 d.2) = some (d.1.entry d.2) := by
    rintro ⟨k, v⟩ ⟨hkv, haddr, hheight⟩
    obtain ⟨hk, hv⟩ := hdb.delta_fits k v hkv
    refine readAddressRow_key hk hv haddr ?_
    rintro ⟨hpos, hlt⟩
    obtain ⟨hstart, hle⟩ := hstop hpos
    omega
  obtain ⟨ds, hrows, hmem, hsorted⟩ := LevelDb.exists_keys (mem_seek_iff hdb hlen hstart) (fun d d' hd hd' heq => by
    have hentry := congrArg (fun r => readAddressRow a hashBytes stop r.1 r.2) heq
    rw [hread d hd, hread d' hd', Option.some.injEq] at hentry
    exact Prod.ext_iff.2 (entry_inj hentry)) LevelDb.sorted_newIterator
  refine ⟨ds, ?_, hmem, hsorted, ?_⟩
  · rw [readAddressIndex, hrows, forEach_map (fun d hd => hread d ((hmem d).1 hd)) hcb]
  · rw [Nodup, pairwise_map]
    refine hsorted.imp fun hlt heq => ?_
    rw [(entry_inj heq).1] at hlt
    exact List.lt_irrefl _ hlt

/-- A read between two heights is exact if the address has no delta above the first of them. -/
theorem exactRead_range_iff (hdb : OnDisk s db) (hlen : hashBytes.length ≤ 32) (hcb : ∀ e, cb e = true)
    (hpos : 0 < start) (hle : start ≤ stop) (hstop : stop < 2 ^ 31) :
    ExactRead s ⟨a, hashIndex hashBytes⟩ (fun h => start ≤ h ∧ h ≤ stop)
    (readAddressIndex db a hashBytes start stop cb) ↔
      ∀ k v, s.addressIndex k = some v → k.address = ⟨a, hashIndex hashBytes⟩ →
        ¬ (start < k.blockHeight ∧ k.blockHeight ≤ stop) := by
  obtain ⟨ds, heq, hds, -, hnodup⟩ := @readAddressIndex_eq s db a hashBytes start stop cb hdb hlen (by omega)
    (fun _ => ⟨hpos, hle⟩) hcb
  rw [heq]
  constructor
  · rintro hread k v hkv haddr ⟨hlt, hle'⟩
    have hmem := (hread.mem (k.entry v)).2 ⟨k, v, hkv, haddr, ⟨by omega, hle'⟩, rfl⟩
    obtain ⟨d, hd, heq⟩ := List.mem_map.1 hmem
    rw [← (entry_inj heq).1, ((hds d).1 hd).2.2 hpos] at hlt
    omega
  · intro hnone
    refine ⟨hnodup, fun e => ?_, ?_⟩
    · rw [List.mem_map]
      constructor
      · rintro ⟨d, hd, rfl⟩
        obtain ⟨hkv, haddr, hheight⟩ := (hds d).1 hd
        exact ⟨d.1, d.2, hkv, haddr, by omega, rfl⟩
      · rintro ⟨k, v, hkv, haddr, hrange, rfl⟩
        have := hnone k v hkv haddr
        exact ⟨(k, v), (hds (k, v)).2 ⟨hkv, haddr, fun _ => by dsimp only; omega⟩, rfl⟩
    · rw [pairwise_map]
      refine pairwise_of_forall_mem_list fun d hd d' hd' => ?_
      exact Int.le_of_eq ((((hds d).1 hd).2.2 hpos).trans (((hds d').1 hd').2.2 hpos).symm)

/-- A read of all heights is exact if the bytes of the heights are in the order of the heights. -/
theorem exactRead_all_iff (hdb : OnDisk s db) (hlen : hashBytes.length ≤ 32) (hcb : ∀ e, cb e = true) :
    ExactRead s ⟨a, hashIndex hashBytes⟩ (fun _ => True) (readAddressIndex db a hashBytes 0 0 cb) ↔
      ∀ k v k' v', s.addressIndex k = some v → s.addressIndex k' = some v' →
        k.address = ⟨a, hashIndex hashBytes⟩ →
        k'.address = ⟨a, hashIndex hashBytes⟩ → k.blockHeight < k'.blockHeight →
        i32 k.blockHeight < i32 k'.blockHeight := by
  obtain ⟨ds, heq, hds, hsorted, hnodup⟩ := @readAddressIndex_eq s db a hashBytes 0 0 cb hdb hlen (by decide) nofun hcb
  replace hds : ∀ d, d ∈ ds ↔
    s.addressIndex d.1 = some d.2 ∧ d.1.address = ⟨a, hashIndex hashBytes⟩ := by simpa [Sought] using hds
  rw [heq]
  constructor
  · intro hread k v k' v' hkv hkv' haddr haddr' hlt
    have hbytes : ∀ d ∈ ds, ∀ d' ∈ ds, d.1.blockHeight < d'.1.blockHeight →
        ¬ i32 d'.1.blockHeight < i32 d.1.blockHeight := by
      -- of two entries the one with the smaller height comes first, so its row has the smaller key
      refine List.Pairwise.forall_of_forall_of_flip (fun d _ h => absurd h (Int.lt_irrefl _)) ?_ ?_
      · refine hsorted.imp_of_mem fun hd hd' hkey _ hlt => ?_
        obtain hlt' | ⟨heq, -⟩ := (key_lt_iff (((hds _).1 hd).2.trans ((hds _).1 hd').2.symm)).1 hkey
        · exact List.lt_asymm hlt hlt'
        · exact List.lt_irrefl _ (heq ▸ hlt)
      · exact (pairwise_map.1 hread.ascending).imp fun hle hlt => absurd hlt (Int.not_lt.2 hle)
    have hle := hbytes (k, v) ((hds _).2 ⟨hkv, haddr⟩) (k', v') ((hds _).2 ⟨hkv', haddr'⟩) hlt
    obtain hlt' | heq := List.le_iff_lt_or_eq.1 hle
    · exact hlt'
    · have := i32_inj (hdb.delta_fits k v hkv).1.blockHeight (hdb.delta_fits k' v' hkv').1.blockHeight heq
      omega
  · intro horder
    refine ⟨hnodup, fun e => ?_, ?_⟩
    · simp [hds, and_assoc, eq_comm]
    · refine pairwise_map.2 (hsorted.imp_of_mem fun {d d'} hd hd' hkey => Int.not_lt.1 fun hlt => ?_)
      obtain ⟨hkv, haddr⟩ := (hds _).1 hd
      obtain ⟨hkv', haddr'⟩ := (hds _).1 hd'
      have hlt := horder _ _ _ _ hkv' hkv haddr' haddr hlt
      obtain hlt' | ⟨heq, -⟩ := (key_lt_iff (haddr.trans haddr'.symm)).1 hkey
      · exact List.lt_asymm hlt hlt'
      · exact List.lt_irrefl _ (heq ▸ hlt)

end AddressIndex

/-! ### Given rows -/

variable (deltas : List (AddressIndexKey × Int)) (stamps : List TimestampIndexKey)

def Index.ofRows : Index :=
  { Index.empty with
    addressIndex := fun k => (deltas.find? (·.1 = k)).map (·.2)
    timestampIndex := fun k => if k ∈ stamps then some () else none }

def encodeRows : List (Bytes × Bytes) :=
  deltas.map (fun d => (d.1.key, i64 d.2)) ++ stamps.map fun k => (k.key, [0])

variable {deltas : List (AddressIndexKey × Int)} {stamps : List TimestampIndexKey}

theorem addressIndex_ofRows (hd : deltas.Pairwise fun d d' => d.1 ≠ d'.1) {k : AddressIndexKey} {v : Int} :
    (Index.ofRows deltas stamps).addressIndex k = some v ↔ (k, v) ∈ deltas := by
  show (deltas.find? (·.1 = k)).map (·.2) = some v ↔ _
  induction hd with
  | nil => simp
  | @cons d ds hne _ ih =>
    rw [find?_cons, mem_cons]
    by_cases hk : d.1 = k
    · have hnot : (k, v) ∉ ds := fun hmem => hne _ hmem hk
      subst hk
      simp only [decide_true, map_some, Option.some.injEq, hnot, or_false]
      exact ⟨fun h => h ▸ rfl, fun h => congrArg Prod.snd h.symm⟩
    · have hne' : (k, v) ≠ d := fun h => hk (congrArg Prod.fst h.symm)
      simp only [decide_eq_false hk, hne', false_or]
      exact ih

theorem onDisk_ofRows {db : LevelDb} (hd : deltas.Pairwise fun d d' => d.1 ≠ d'.1)
    (hdeltas : ∀ d ∈ deltas, d.1.Fits ∧ -2 ^ 63 ≤ d.2 ∧ d.2 < 2 ^ 63) (hstamps : ∀ k ∈ stamps, k.Fits)
    (hrows : db.rows = encodeRows deltas stamps) : OnDisk (Index.ofRows deltas stamps) db := by
  have hstamp : ∀ k, (Index.ofRows deltas stamps).timestampIndex k = some () ↔ k ∈ stamps := fun k => by
    simp [Index.ofRows]
  have hne : dbAddressIndex ≠ dbTimestampIndex := by decide
  refine ⟨fun r hr => ?_, fun k v hkv => ?_, fun r hr => ?_, fun k hk => hstamps k ((hstamp k).1 hk)⟩
  · rw [hrows, encodeRows, mem_append, List.mem_map, List.mem_map]
    constructor
    · rintro (⟨d, hmem, rfl⟩ | ⟨k, hmem, rfl⟩)
      · exact ⟨d.1, d.2, (addressIndex_ofRows hd).2 hmem, rfl⟩
      · exact absurd (cons_prefix_cons.1 hr).1 hne
    · rintro ⟨k, v, hkv, rfl⟩
      exact .inl ⟨(k, v), (addressIndex_ofRows hd).1 hkv, rfl⟩
  · exact hdeltas (k, v) ((addressIndex_ofRows hd).1 hkv)
  · rw [hrows, encodeRows, mem_append, List.mem_map, List.mem_map]
    constructor
    · rintro (⟨d, hmem, rfl⟩ | ⟨k, hmem, rfl⟩)
      · exact absurd (cons_prefix_cons.1 hr).1 hne.symm
      · exact ⟨k, (hstamp k).2 hmem, rfl⟩
    · rintro ⟨k, hk, rfl⟩
      exact .inr ⟨k, (hstamp k).1 hk, rfl⟩

/-! ### Both reads of an address -/

/-- Reads of an address are exact for the ranges above whose first height it has no delta, and over all heights if its
heights are in the order of their bytes. -/
theorem address_reads_exact_iff {s : Index} {db : LevelDb} {a : AddrIndt} {hashBytes : Bytes}
    {cb : AddressIndexEntry → Bool} (hdb : OnDisk s db) (hlen : hashBytes.length ≤ 32) (hcb : ∀ e, cb e = true) :
    (∀ start stop : Int, 0 < start → start ≤ stop → stop < 2 ^ 31 →
      (ExactRead s ⟨a, hashIndex hashBytes⟩ (fun h => start ≤ h ∧ h ≤ stop)
        (readAddressIndex db a hashBytes start stop cb) ↔
        ∀ k v, s.addressIndex k = some v → k.address = ⟨a, hashIndex hashBytes⟩ →
          ¬ (start < k.blockHeight ∧ k.blockHeight ≤ stop))) ∧
    (ExactRead s ⟨a, hashIndex hashBytes⟩ (fun _ => True) (readAddressIndex db a hashBytes 0 0 cb) ↔
      ∀ k v k' v', s.addressIndex k = some v → s.addressIndex k' = some v' →
        k.address = ⟨a, hashIndex hashBytes⟩ →
        k'.address = ⟨a, hashIndex hashBytes⟩ → k.blockHeight < k'.blockHeight →
          i32 k.blockHeight < i32 k'.blockHeight) :=
  ⟨fun _ _ hpos hle hstop => exactRead_range_iff hdb hlen hcb hpos hle hstop, exactRead_all_iff hdb hlen hcb⟩

def deltaAt (height : Int) : AddressIndexKey × Int := (⟨⟨.pubkeyAddress, hashIndex [7]⟩, height, 0, 0, 0, false⟩, 1)

theorem onDisk_deltaAt {heights : List Int} {db : LevelDb} (hnodup : heights.Nodup)
    (hrange : ∀ h ∈ heights, -2 ^ 31 ≤ h ∧ h < 2 ^ 31) (hrows : db.rows = encodeRows (heights.map deltaAt) []) :
    OnDisk (Index.ofRows (heights.map deltaAt) []) db := by
  refine onDisk_ofRows ?_ (fun d hd => ?_) nofun hrows
  · rw [pairwise_map]
    exact hnodup.imp fun hne heq => hne (congrArg blockHeight heq)
  · obtain ⟨h, hmem, rfl⟩ := List.mem_map.1 hd
    refine ⟨⟨rfl, hrange h hmem, Nat.two_pow_pos 32, Nat.two_pow_pos 256, Nat.two_pow_pos 32⟩, ?_⟩
    show -2 ^ 63 ≤ (1 : Int) ∧ (1 : Int) < 2 ^ 63
    decide

def twoDeltasDb : LevelDb := ⟨encodeRows ([1, 255].map deltaAt) [], by decide +kernel⟩

theorem address_reads_exact_two :
    ExactRead (Index.ofRows ([1, 255].map deltaAt) []) ⟨.pubkeyAddress, hashIndex [7]⟩ (fun h => 2 ≤ h ∧ h ≤ 254)
      (readAddressIndex twoDeltasDb .pubkeyAddress [7] 2 254 fun _ => true) ∧
    ExactRead (Index.ofRows ([1, 255].map deltaAt) []) ⟨.pubkeyAddress, hashIndex [7]⟩ (fun _ => True)
      (readAddressIndex twoDeltasDb .pubkeyAddress [7] 0 0 fun _ => true) := by
  have hnodup : ([1, 255].map deltaAt).Pairwise fun d d' => d.1 ≠ d'.1 := by decide +kernel
  have hdb : OnDisk (Index.ofRows ([1, 255].map deltaAt) []) twoDeltasDb := onDisk_deltaAt (by decide) (by decide) rfl
  have hheight : ∀ k v, (Index.ofRows ([1, 255].map deltaAt) []).addressIndex k = some v →
      k.blockHeight = 1 ∨ k.blockHeight = 255 := by
    intro k v hkv
    have hmem : (k, v) = deltaAt 1 ∨ (k, v) = deltaAt 255 := by simpa using (addressIndex_ofRows hnodup).1 hkv
    obtain h | h := hmem
    · exact .inl (congrArg (fun d : AddressIndexKey × Int => d.1.blockHeight) h)
    · exact .inr (congrArg (fun d : AddressIndexKey × Int => d.1.blockHeight) h)
  obtain ⟨hrange, hall⟩ :=
    @address_reads_exact_iff _ _ .pubkeyAddress [7] (fun _ => true) hdb (by decide) fun _ => rfl
  refine ⟨(hrange 2 254 (by decide) (by decide) (by decide)).2 ?_, hall.2 ?_⟩
  · intro k v hkv _
    have := hheight k v hkv
    omega
  · intro k v k' v' hkv hkv' _ _ hlt
    obtain ⟨h, h'⟩ : k.blockHeight = 1 ∧ k'.blockHeight = 255 := by
      have := hheight k v hkv
      have := hheight k' v' hkv'
      omega
    rw [h, h']
    decide

def threeDeltasDb : LevelDb := ⟨encodeRows ([256, 1, 255].map deltaAt) [], by decide +kernel⟩

/-- The read between 1 and 255 leaves out the delta at 255, and the read of all heights starts with 256. -/
theorem address_reads_inexact : OnDisk (Index.ofRows ([256, 1, 255].map deltaAt) []) threeDeltasDb ∧
    (readAddressIndex threeDeltasDb .pubkeyAddress [7] 1 255 fun _ => true).map (·.blockHeight) = [1] ∧
    (readAddressIndex threeDeltasDb .pubkeyAddress [7] 0 0 fun _ => true).map (·.blockHeight) = [256, 1, 255] ∧
    ¬ ExactRead (Index.ofRows ([256, 1, 255].map deltaAt) []) ⟨.pubkeyAddress, hashIndex [7]⟩
      (fun h => 1 ≤ h ∧ h ≤ 255)
      (readAddressIndex threeDeltasDb .pubkeyAddress [7] 1 255 fun _ => true) ∧
    ¬ ExactRead (Index.ofRows ([256, 1, 255].map deltaAt) []) ⟨.pubkeyAddress, hashIndex [7]⟩ (fun _ => True)
      (readAddressIndex threeDeltasDb .pubkeyAddress [7] 0 0 fun _ => true) := by
  have hdb : OnDisk (Index.ofRows ([256, 1, 255].map deltaAt) []) threeDeltasDb := onDisk_deltaAt (by decide) (by decide) rfl
  refine ⟨hdb, by decide +kernel, by decide +kernel, fun h => ?_, fun h => ?_⟩
  · refine (exactRead_range_iff hdb (by decide) (fun _ => rfl) (by decide) (by decide) (by decide)).1 h
      (deltaAt 255).1 1 (by decide +kernel) rfl ?_
    exact ⟨by decide, by decide⟩
  · have hsorted := h.ascending
    exact absurd hsorted (by decide +kernel)

/-! ## The timestamp index -/

def TimestampIndexKey.entry (k : TimestampIndexKey) : TimestampEntry := ⟨k.blockHash, k.timestamp⟩

theorem TimestampIndexKey.entry_inj {k k' : TimestampIndexKey} (h : k.entry = k'.entry) : k = k' := by
  obtain ⟨t, b⟩ := k
  obtain ⟨t', b'⟩ := k'
  obtain ⟨rfl, rfl⟩ := TimestampEntry.mk.inj h
  rfl

section TimestampIndex

variable {s : Index} {db : LevelDb} {low high : Nat} {k k' : TimestampIndexKey}

theorem TimestampIndexKey.key_lt_iff :
    k.key < k'.key ↔ u32 k.timestamp < u32 k'.timestamp ∨ u32 k.timestamp = u32 k'.timestamp ∧
    hash32 k.blockHash < hash32 k'.blockHash := by
  have hirrefl : ¬ [dbTimestampIndex] < [dbTimestampIndex] := List.lt_irrefl _
  rw [key, key, append_lt_append_iff rfl, append_lt_append_iff (by simp)]
  simp [hirrefl]

theorem TimestampIndexKey.key_inj (hk : k.Fits) (hk' : k'.Fits) (h : k.key = k'.key) : k = k' := by
  obtain ⟨hts, hhash⟩ := append_inj (append_cancel_left h) (by simp)
  obtain ⟨t, b⟩ := k
  obtain ⟨t', b'⟩ := k'
  have ht : t = t' := u32_inj hk.timestamp hk'.timestamp hts
  have hb : b = b' := by simpa only [ofLE_hash32 hk.blockHash, ofLE_hash32 hk'.blockHash] using congrArg ofLE hhash
  rw [ht, hb]

theorem TimestampIndexKey.key_lt_bound (n : Nat) : k.key < [dbTimestampIndex] ++ u32 n ↔ u32 k.timestamp < u32 n := by
  have hirrefl : ¬ [dbTimestampIndex] < [dbTimestampIndex] := List.lt_irrefl _
  rw [key, append_lt_append_iff rfl, ← append_nil (u32 n), append_lt_append_iff (by simp)]
  simp [hirrefl]

/-- Whether the bytes of the timestamp stand between those of the bounds. -/
def Between (low high timestamp : Nat) : Prop := u32 low ≤ u32 timestamp ∧ u32 timestamp < u32 high
deriving Decidable

/-- Only rows of the timestamp table stand between two of its keys. -/
theorem timestampTable_of_between {x y b : Bytes} (hle : [dbTimestampIndex] ++ x ≤ b) (hlt : b < [dbTimestampIndex] ++ y) :
    [dbTimestampIndex] <+: b := by
  cases b with
  | nil => exact absurd (nil_lt_cons _ _) hle
  | cons c b =>
    rw [singleton_append, cons_le_cons_iff] at hle
    rw [singleton_append, cons_lt_cons_iff] at hlt
    obtain hle | ⟨rfl, -⟩ := hle
    · obtain hlt | ⟨rfl, -⟩ := hlt
      · exact absurd hle (UInt8.lt_asymm hlt)
      · exact absurd hle (UInt8.lt_irrefl _)
    · exact prefix_append [dbTimestampIndex] b

theorem mem_timestamps_iff (hdb : OnDisk s db) (r : Bytes × Bytes) :
    r ∈ db.newIterator ([dbTimestampIndex] ++ u32 low) (some ([dbTimestampIndex] ++ u32 high)) ↔
      ∃ k, (s.timestampIndex k = some () ∧ Between low high k.timestamp) ∧ r = (k.key, [0]) := by
  rw [LevelDb.mem_newIterator]
  constructor
  · rintro ⟨hmem, hle, hlt⟩
    have hlt := hlt _ rfl
    obtain ⟨k, hk, rfl⟩ := (hdb.timestamp r (timestampTable_of_between hle hlt)).1 hmem
    exact ⟨k, ⟨hk, fun h => hle ((k.key_lt_bound low).2 h), (k.key_lt_bound high).1 hlt⟩, rfl⟩
  · rintro ⟨k, ⟨hk, hle, hlt⟩, rfl⟩
    refine ⟨(hdb.timestamp _ (prefix_append _ _)).2 ⟨k, hk, rfl⟩, fun h => hle ((k.key_lt_bound low).1 h), ?_⟩
    rintro l ⟨⟩
    exact (k.key_lt_bound high).2 hlt

theorem readTimestampRow_key (hk : k.Fits) :
    readTimestampRow high k.key = some (if high ≤ k.timestamp then none else some k.entry) := by
  have hhash : dec 32 (hash32 k.blockHash) = some (hash32 k.blockHash, []) := by
    have h := dec_append (length_hash32 k.blockHash) []
    rwa [append_nil] at h
  unfold readTimestampRow TimestampIndexKey.key
  simp only [dec_append (length_singleton), dec_append (length_u32 _), hhash, bind_eq_bind, bind_some,
    ofLE_u32 hk.timestamp, ofLE_hash32 hk.blockHash]
  split <;> rfl

theorem readTimestampRows_map {ks : List TimestampIndexKey} (hks : ∀ k ∈ ks, k.Fits) :
    readTimestampRows high (ks.map fun k => (k.key, [0])) =
      some ((ks.takeWhile fun k => k.timestamp < high).map TimestampIndexKey.entry) := by
  induction ks with
  | nil => rfl
  | cons k ks ih =>
    obtain ⟨hk, hks⟩ := forall_mem_cons.1 hks
    rw [map_cons, readTimestampRows, readTimestampRow_key hk]
    by_cases hlt : k.timestamp < high
    · simp [Nat.not_le.2 hlt, hlt, ih hks]
    · simp [Nat.not_lt.1 hlt]

/-- Whether the loop gets to the row before a row with a timestamp at or above the bound. -/
def Reached (s : Index) (low high : Nat) (k : TimestampIndexKey) : Prop :=
  Between low high k.timestamp ∧ ∀ k', s.timestampIndex k' = some () → Between low high k'.timestamp →
    high ≤ k'.timestamp → u32 k.timestamp < u32 k'.timestamp

theorem timestampRows_eq (hdb : OnDisk s db) (low high : Nat) : ∃ ks : List TimestampIndexKey,
      readTimestampIndex db low high = some ((ks.takeWhile fun k => k.timestamp < high).map TimestampIndexKey.entry) ∧
      (ks.Pairwise fun k k' => k.key < k'.key) ∧
      ∀ k, k ∈ ks ↔ s.timestampIndex k = some () ∧ Between low high k.timestamp := by
  have hfits := hdb.timestamp_fits
  obtain ⟨ks, heq, hks, hsorted⟩ := LevelDb.exists_keys (mem_timestamps_iff hdb)
    (fun k k' hk hk' hrow => TimestampIndexKey.key_inj (hfits k hk.1) (hfits k' hk'.1) (congrArg Prod.fst hrow))
    LevelDb.sorted_newIterator
  exact ⟨ks, by rw [readTimestampIndex, heq, readTimestampRows_map fun k hk => hfits k ((hks k).1 hk).1], hsorted, hks⟩

theorem readTimestampIndex_eq (hdb : OnDisk s db) : ∃ es, readTimestampIndex db low high = some es ∧ es.Nodup ∧
      ∀ e, e ∈ es ↔ ∃ k, s.timestampIndex k = some () ∧ k.timestamp < high ∧ Reached s low high k ∧
        e = k.entry := by
  obtain ⟨ks, hread, hsorted, hmem⟩ := timestampRows_eq hdb low high
  refine ⟨_, hread, ?_, fun e => ?_⟩
  · rw [Nodup, pairwise_map]
    refine (hsorted.sublist (takeWhile_sublist _)).imp fun hlt heq => ?_
    rw [TimestampIndexKey.entry_inj heq] at hlt
    exact List.lt_irrefl _ hlt
  · rw [List.mem_map]
    refine exists_congr fun k => ?_
    rw [LevelDb.mem_takeWhile_of_sorted hsorted, hmem]
    -- two rows on different sides of the bound have different timestamps
    have hlt : ∀ k', k.timestamp < high → high ≤ k'.timestamp → s.timestampIndex k = some () →
      s.timestampIndex k' = some () → (k.key < k'.key ↔ u32 k.timestamp < u32 k'.timestamp) := by
      intro k' hlt hle hk hk'
      rw [TimestampIndexKey.key_lt_iff, or_iff_left]
      rintro ⟨heq, -⟩
      have := u32_inj (hdb.timestamp_fits k hk).timestamp (hdb.timestamp_fits k' hk').timestamp heq
      omega
    constructor
    · rintro ⟨⟨⟨hk, hbetween⟩, hhigh, hbefore⟩, rfl⟩
      have hhigh := of_decide_eq_true hhigh
      refine ⟨hk, hhigh, ⟨hbetween, fun k' hk' hbetween' hle => ?_⟩, rfl⟩
      exact (hlt k' hhigh hle hk hk').1 (hbefore k' ((hmem k').2 ⟨hk', hbetween'⟩) (decide_eq_false (Nat.not_lt.2 hle)))
    · rintro ⟨hk, hhigh, ⟨hbetween, hbefore⟩, rfl⟩
      refine ⟨⟨⟨hk, hbetween⟩, decide_eq_true hhigh, fun k' hmem' hle => ?_⟩, rfl⟩
      obtain ⟨hk', hbetween'⟩ := (hmem k').1 hmem'
      have hle := Nat.not_lt.1 (of_decide_eq_false hle)
      exact (hlt k' hhigh hle hk hk').2 (hbefore k' hk' hbetween' hle)

/-- What a read of timestamps is to return: the stored blocks with a timestamp in the range. -/
structure ExactTimestamps (s : Index) (low high : Nat) (result : Option (List TimestampEntry)) : Prop where
  isSome : result.isSome
  once : ∀ es ∈ result, es.Nodup
  mem : ∀ es ∈ result, ∀ e, e ∈ es ↔ ∃ k, s.timestampIndex k = some () ∧ low ≤ k.timestamp ∧
    k.timestamp < high ∧ e = k.entry

end TimestampIndex

/-- A read of timestamps is exact if, of the blocks below the upper bound, those from the lower bound on are the ones whose
timestamp's bytes stand between the bytes of the bounds, and before those of any timestamp at or above the upper bound. -/
theorem timestamp_reads_exact_iff {s : Index} {db : LevelDb} (hdb : OnDisk s db) (low high : Nat) :
    ExactTimestamps s low high (readTimestampIndex db low high) ↔
      ∀ k, s.timestampIndex k = some () → k.timestamp < high → (low ≤ k.timestamp ↔ Reached s low high k) := by
  obtain ⟨es, hread, hnodup, hmem⟩ := @readTimestampIndex_eq s db low high hdb
  rw [hread]
  constructor
  · intro hexact k hk hhigh
    have hiff := (hmem k.entry).symm.trans (hexact.mem es rfl k.entry)
    constructor
    · intro hlow
      obtain ⟨k', hk', -, hreached, heq⟩ := hiff.2 ⟨k, hk, hlow, hhigh, rfl⟩
      exact TimestampIndexKey.entry_inj heq ▸ hreached
    · intro hreached
      obtain ⟨k', hk', hlow, -, heq⟩ := hiff.1 ⟨k, hk, hhigh, hreached, rfl⟩
      exact TimestampIndexKey.entry_inj heq ▸ hlow
  · intro hiff
    refine ⟨rfl, ?_, ?_⟩
    · rintro _ ⟨⟩
      exact hnodup
    · rintro _ ⟨⟩ e
      rw [hmem]
      refine exists_congr fun k => and_congr_right fun hk => ?_
      constructor
      · rintro ⟨hhigh, hreached, rfl⟩
        exact ⟨(hiff k hk hhigh).2 hreached, hhigh, rfl⟩
      · rintro ⟨hlow, hhigh, rfl⟩
        exact ⟨hhigh, (hiff k hk hhigh).1 hlow, rfl⟩

theorem onDisk_stamps {times : List Nat} {db : LevelDb} (hrange : ∀ t ∈ times, t < 2 ^ 32)
    (hrows : db.rows = encodeRows [] (times.map (⟨·, 0⟩))) : OnDisk (Index.ofRows [] (times.map (⟨·, 0⟩))) db := by
  refine onDisk_ofRows .nil nofun (fun k hk => ?_) hrows
  obtain ⟨t, ht, rfl⟩ := List.mem_map.1 hk
  exact ⟨hrange t ht, Nat.two_pow_pos 256⟩

def twoStampsDb : LevelDb := ⟨encodeRows [] ([1, 2].map (⟨·, 0⟩)), by decide +kernel⟩

theorem timestamp_reads_exact_two :
    ExactTimestamps (Index.ofRows [] ([1, 2].map (⟨·, 0⟩))) 2 4 (readTimestampIndex twoStampsDb 2 4) := by
  have hstored : ∀ k, (Index.ofRows [] ([1, 2].map (⟨·, 0⟩))).timestampIndex k = some () →
      k.timestamp = 1 ∨ k.timestamp = 2 := by
    intro k hk
    have hmem : k = ⟨1, 0⟩ ∨ k = ⟨2, 0⟩ := by
      simpa [Index.ofRows, or_iff_not_imp_left] using hk
    obtain rfl | rfl := hmem
    · exact .inl rfl
    · exact .inr rfl
  refine (timestamp_reads_exact_iff (onDisk_stamps (by decide) rfl) 2 4).2 fun k hk _ => ?_
  constructor
  · intro hlow
    have hts : k.timestamp = 2 := by
      have := hstored k hk
      omega
    refine ⟨by rw [hts]; decide, fun k' hk' _ hle => ?_⟩
    have := hstored k' hk'
    omega
  · rintro ⟨⟨hle, -⟩, -⟩
    obtain hts | hts := hstored k hk
    · rw [hts] at hle
      exact absurd hle (by decide)
    · omega

def byteCarryDb : LevelDb := ⟨encodeRows [] ([256, 255].map (⟨·, 0⟩)), by decide +kernel⟩

/-- No bytes stand between those of 255 and those of 257. -/
theorem timestamp_reads_inexact : OnDisk (Index.ofRows [] ([256, 255].map (⟨·, 0⟩))) byteCarryDb ∧
    readTimestampIndex byteCarryDb 255 257 = some [] ∧
    ¬ ExactTimestamps (Index.ofRows [] ([256, 255].map (⟨·, 0⟩))) 255 257
    (readTimestampIndex byteCarryDb 255 257) := by
  have hread : readTimestampIndex byteCarryDb 255 257 = some [] := by decide +kernel
  refine ⟨onDisk_stamps (by decide) rfl, hread, fun h => ?_⟩
  have hmem := (h.mem [] hread ⟨0, 256⟩).2 ⟨⟨256, 0⟩, by decide +kernel, by decide, by decide, rfl⟩
  exact not_mem_nil hmem

end IniNode.Sugar
