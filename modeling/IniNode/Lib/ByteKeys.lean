import Mathlib
/-!
# Byte keys

A database that keeps its rows in the order of their keys, byte by byte, and hands out the rows between two keys. Numbers
are written little-endian, least significant byte first, so their byte order is not their order as numbers.
-/

open List

namespace IniNode.Lib

abbrev Bytes := List UInt8

/-! ## Little-endian numbers -/

/-- The number modulo `256 ^ w`, in `w` bytes. -/
def toLE : Nat → Nat → Bytes
  | 0, _ => []
  | w + 1, n => UInt8.ofNat n :: toLE w (n / 256)

def ofLE : Bytes → Nat
  | [] => 0
  | b :: bs => b.toNat + 256 * ofLE bs

@[simp] theorem length_toLE (w n : Nat) : (toLE w n).length = w := by
  induction w generalizing n with
  | zero => rfl
  | succ w ih => rw [toLE, length_cons, ih]

theorem ofLE_toLE {w n : Nat} (h : n < 256 ^ w) : ofLE (toLE w n) = n := by
  induction w generalizing n with
  | zero =>
    obtain rfl := Nat.lt_one_iff.1 h
    rfl
  | succ w ih =>
    have hdiv : n / 256 < 256 ^ w := Nat.div_lt_of_lt_mul (by rwa [Nat.mul_comm])
    rw [toLE, ofLE, ih hdiv, UInt8.toNat_ofNat']
    omega

/-! ## Fields of a key -/

variable {a b x y k p : Bytes}

/-- Keys are compared field by field. -/
theorem append_lt_append_iff (h : a.length = b.length) : a ++ x < b ++ y ↔ a < b ∨ a = b ∧ x < y := by
  induction a generalizing b with
  | nil =>
    obtain rfl := length_eq_zero_iff.1 h.symm
    simp
  | cons c a ih =>
    cases b with
    | nil => cases h
    | cons d b =>
      have ih := ih (Nat.succ.inj h)
      rw [cons_append, cons_append, cons_lt_cons_iff, cons_lt_cons_iff, List.cons.injEq]
      tauto

theorem append_prefix_append_iff (h : a.length = b.length) : a ++ x <+: b ++ y ↔ a = b ∧ x <+: y := by
  constructor
  · intro hp
    have heq : a = b := by
      apply IsPrefix.eq_of_length _ h
      exact prefix_of_prefix_length_le ((prefix_append a x).trans hp) (prefix_append b y) (Nat.le_of_eq h)
    rw [heq, prefix_append_right_inj] at hp
    exact ⟨heq, hp⟩
  · rintro ⟨rfl, hp⟩
    exact (prefix_append_right_inj a).2 hp

/-! ## Ranges -/

/-- `prefixSuccessor`: the last byte that can be increased is, and what follows it is cut off. -/
def prefixSuccessor (p : Bytes) : Option Bytes :=
  match p.reverse.dropWhile (· = 0xff) with
  | [] => none
  | b :: rest => some ((b + 1) :: rest).reverse

theorem prefixSuccessor_cons (c : UInt8) (p : Bytes) : prefixSuccessor (c :: p) =
      match prefixSuccessor p with
      | some s => some (c :: s)
      | none => if c = 0xff then none else some [c + 1] := by
  unfold prefixSuccessor
  rw [reverse_cons, dropWhile_append]
  cases hd : p.reverse.dropWhile (· = 0xff) with
  | nil =>
    by_cases hc : c = 0xff
    · simp [hc]
    · simp [hc]
  | cons d rest => simp

theorem byte_lt_add_one_iff {c d : UInt8} (hc : c ≠ 0xff) : d < c + 1 ↔ d ≤ c := by
  have hne : c.toNat ≠ 255 := fun h => hc (UInt8.toNat_inj.1 h)
  have hlt := c.toNat_lt
  rw [UInt8.lt_iff_toNat_lt, UInt8.le_iff_toNat_le, UInt8.toNat_add]
  simp only [UInt8.reduceToNat]
  omega

/-- The keys from a prefix up to its successor are those with the prefix. -/
theorem range_prefix_iff : (p ≤ k ∧ ∀ l ∈ prefixSuccessor p, k < l) ↔ p <+: k := by
  induction p generalizing k with
  | nil => simp [prefixSuccessor]
  | cons c p ih =>
    cases k with
    | nil => simp
    | cons d k =>
      rw [cons_le_cons_iff, cons_prefix_cons, ← ih, prefixSuccessor_cons]
      cases prefixSuccessor p with
      | some s =>
        -- between two keys that start with the same byte
        simp only [Option.mem_def, Option.some.injEq, forall_eq', cons_lt_cons_iff]
        constructor
        · rintro ⟨h | ⟨rfl, hle⟩, h' | ⟨heq, hlt⟩⟩
          · exact absurd h' (UInt8.lt_asymm h)
          · exact absurd h (heq ▸ UInt8.lt_irrefl d)
          · exact absurd h' (UInt8.lt_irrefl c)
          · exact ⟨rfl, hle, hlt⟩
        · rintro ⟨rfl, hle, hlt⟩
          exact ⟨.inr ⟨rfl, hle⟩, .inr ⟨rfl, hlt⟩⟩
      | none =>
        by_cases hc : c = 0xff
        · -- no byte is greater
          have hmax : ¬ c < d := by
            have := d.toNat_lt
            rw [hc, UInt8.lt_iff_toNat_lt]
            simp only [UInt8.reduceToNat]
            omega
          simp [hc ▸ hmax, hc]
        · simp only [if_neg hc, Option.mem_def, Option.some.injEq, forall_eq', cons_lt_cons_iff,
            byte_lt_add_one_iff hc, not_lt_nil, and_false, or_false, reduceCtorEq, false_imp_iff, implies_true,
            and_true]
          constructor
          · rintro ⟨h | ⟨rfl, hle⟩, h'⟩
            · exact absurd h (UInt8.not_lt.2 h')
            · exact ⟨rfl, hle⟩
          · rintro ⟨rfl, hle⟩
            exact ⟨.inr ⟨rfl, hle⟩, UInt8.le_refl c⟩

/-- A database: its rows in the order of their keys. -/
structure LevelDb where
  rows : List (Bytes × Bytes)
  sorted : rows.Pairwise fun r r' => r.1 < r'.1

namespace LevelDb

/-- `NewIterator`: the rows from `start` on, and below `limit`. -/
def newIterator (db : LevelDb) (start : Bytes) (limit : Option Bytes) : List (Bytes × Bytes) :=
  db.rows.filter fun r => start ≤ r.1 ∧ ∀ l ∈ limit, r.1 < l

variable {db : LevelDb} {start : Bytes} {limit : Option Bytes} {r : Bytes × Bytes}

theorem mem_newIterator : r ∈ db.newIterator start limit ↔ r ∈ db.rows ∧ start ≤ r.1 ∧ ∀ l ∈ limit,
    r.1 < l := by
  rw [newIterator, mem_filter, decide_eq_true_iff]

theorem sorted_newIterator : (db.newIterator start limit).Pairwise fun r r' => r.1 < r'.1 := db.sorted.filter _

theorem mem_takeWhile_of_sorted {α : Type} {l : List α} {f : α → Bytes} {q : α → Bool} {x : α}
    (h : l.Pairwise fun x y => f x < f y) :
    x ∈ l.takeWhile q ↔ x ∈ l ∧ q x = true ∧ ∀ y ∈ l, q y = false → f x < f y := by
  induction h with
  | nil => simp
  | @cons z l hz _ ih =>
    rw [takeWhile_cons]
    cases hq : q z with
    | true =>
      simp only [if_true, mem_cons, ih]
      constructor
      · rintro (rfl | ⟨hx, hqx, hlt⟩)
        · exact ⟨.inl rfl, hq, by rintro y (rfl | hy) hqy; exacts [absurd hqy (by simp [hq]), hz y hy]⟩
        · exact ⟨.inr hx, hqx, by rintro y (rfl | hy) hqy; exacts [absurd hqy (by simp [hq]), hlt y hy hqy]⟩
      · rintro ⟨rfl | hx, hqx, hlt⟩
        · exact .inl rfl
        · exact .inr ⟨hx, hqx, fun y hy => hlt y (.inr hy)⟩
    | false =>
      simp only [Bool.false_eq_true, if_false, not_mem_nil, mem_cons, false_iff]
      rintro ⟨rfl | hx, hqx, hlt⟩
      · exact absurd hqx (by simp [hq])
      · exact List.lt_asymm (hlt z (.inl rfl) hq) (hz x hx)

theorem exists_keys {κ : Type} {stored : κ → Prop} {row : κ → Bytes × Bytes} {rows : List (Bytes × Bytes)}
    (hrows : ∀ r, r ∈ rows ↔ ∃ k, stored k ∧ r = row k)
    (hinj : ∀ k k', stored k → stored k' → row k = row k' → k = k')
    (hsorted : rows.Pairwise fun r r' => r.1 < r'.1) :
    ∃ ks : List κ, rows = ks.map row ∧ (∀ k, k ∈ ks ↔ stored k) ∧
      ks.Pairwise fun k k' => (row k).1 < (row k').1 := by
  obtain ⟨ks, rfl, hks⟩ : ∃ ks : List κ, rows = ks.map row ∧ ∀ k ∈ ks, stored k := by
    have hall : ∀ r ∈ rows, ∃ k, stored k ∧ r = row k := fun r => (hrows r).1
    clear hrows hsorted
    induction rows with
    | nil => exact ⟨[], rfl, nofun⟩
    | cons r rows ih =>
      obtain ⟨⟨k, hk, rfl⟩, hrest⟩ := forall_mem_cons.1 hall
      obtain ⟨ks, rfl, hks⟩ := ih hrest
      exact ⟨k :: ks, rfl, forall_mem_cons.2 ⟨hk, hks⟩⟩
  rw [pairwise_map] at hsorted
  refine ⟨ks, rfl, fun k => ⟨hks k, fun hk => ?_⟩, hsorted⟩
  obtain ⟨k', hk', heq⟩ := mem_map.1 ((hrows _).2 ⟨k, hk, rfl⟩)
  exact hinj k' k (hks k' hk') hk heq ▸ hk'

theorem mem_newIterator_range : r ∈ db.newIterator p (prefixSuccessor p) ↔ r ∈ db.rows ∧ p <+: r.1 := by
  rw [mem_newIterator, range_prefix_iff]

end LevelDb

end IniNode.Lib
