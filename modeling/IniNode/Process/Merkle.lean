import Mathlib
/-!
# The two merkle roots

`BuildMerkleTreeStore` fills an array with the rows of the tree, the rolling store of `CalcMerkleRoot` keeps one root for
every full subtree. `Root` says row by row what both compute. `hash` is `HashMerkleBranches`.
-/

open List Option

namespace IniNode.Merkle

variable {τ α : Type}

/-- The ids of the transactions. -/
structure Ids (τ α : Type) where
  hash : τ → α
  witnessHash : τ → α
  zeroHash : α

def Ids.leaf (ids : Ids τ α) (witness : Bool) (i : Nat) (tx : τ) : α :=
  if witness && i == 0 then ids.zeroHash else if witness then ids.witnessHash tx else ids.hash tx

section Source
variable (hash : α → α → α)

/-! ## The array -/

def nextPowerOfTwo (n : Nat) : Nat := 2 ^ Nat.clog 2 n

def parent : Option α → Option α → Option α
  | none, _ => none
  | some left, none => some (hash left left)
  | some left, some right => some (hash left right)

/-- The loop over the array, which is given up to `offset`; the rounds left are counted down. -/
def fill : Nat → Nat → List (Option α) → List (Option α)
  | 0, _, merkles => merkles
  | n + 1, i, merkles => fill n (i + 2) (merkles ++ [parent hash merkles[i]?.join merkles[i + 1]?.join])

def buildMerkleTreeStore (ids : Ids τ α) (transactions : List τ) (witness : Bool) : List (Option α) :=
  let nextPoT := nextPowerOfTwo transactions.length
  fill hash (nextPoT - 1) 0
    ((transactions.mapIdx (ids.leaf witness)).map some ++ replicate (nextPoT - transactions.length) none)

/-! ## The rolling store -/

/-- `rollingMerkleTreeStore`, the last root first. -/
structure Rolling (α : Type) where
  roots : List α := []
  numLeaves : Nat := 0

/-- The loop of `add`: `none` where it would take a root from an empty store. -/
def merge : Nat → List α → α → Option (List α)
  | numLeaves, [], newRoot => if numLeaves % 2 = 1 then none else some [newRoot]
  | numLeaves, root :: roots, newRoot =>
    if numLeaves % 2 = 1 then merge (numLeaves / 2) roots (hash root newRoot) else some (newRoot :: root :: roots)

def add (s : Rolling α) (x : α) : Option (Rolling α) :=
  (merge hash s.numLeaves s.roots x).map (⟨·, s.numLeaves + 1⟩)

def shiftOut (numLeaves : Nat) : Nat :=
  if numLeaves ≠ 0 ∧ numLeaves % 2 = 0 then shiftOut (numLeaves / 2) else numLeaves

/-- The loop over the upper rows. -/
def raise : Nat → Rolling α → Option α
  | 0, _ => none
  | fuel + 1, s =>
    match s.roots with
    | [] => none
    | [root] => some root
    | root :: _ => (add hash { s with numLeaves := shiftOut s.numLeaves } root).bind (raise fuel)

def calcMerkleRoot (ids : Ids τ α) (adds : List τ) (witness : Bool) : Option α := do
  let s ← (adds.mapIdx (ids.leaf witness)).foldlM (add hash) {}
  if s.numLeaves = 1 then s.roots.getLast?
  else
    let last ← adds.getLast?
    let s ← if adds.length % 2 ≠ 0 then add hash s (if witness then ids.witnessHash last else ids.hash last) else some s
    raise hash s.numLeaves s

/-! ## Rows -/

/-- A single last one is paired with itself. -/
def nextRow : List α → List α
  | x :: y :: xs => hash x y :: nextRow xs
  | [x] => [hash x x]
  | [] => []

/-- The root is reached row by row. -/
inductive Root : List α → α → Prop
  | leaf (x : α) : Root [x] x
  | up {xs : List α} {r : α} (hlen : 1 < xs.length) (h : Root (nextRow hash xs) r) : Root xs r

/-- The roots of the full subtrees, from the right. -/
inductive Peaks : List α → List α → Prop
  | nil : Peaks [] []
  | even {xs ps : List α} (hlen : xs.length % 2 = 0) (h : Peaks (nextRow hash xs) ps) : Peaks xs ps
  | odd {xs ps : List α} {x : α} (hlen : xs.length % 2 = 0) (h : Peaks (nextRow hash xs) ps) : Peaks (xs ++ [x]) (x :: ps)

end Source

variable {hash : α → α → α} {ids : Ids τ α} {xs ps : List α} {x r r' : α}

theorem length_nextRow : ∀ xs : List α, (nextRow hash xs).length = (xs.length + 1) / 2
  | x :: y :: xs => by
    simp only [nextRow, length_cons, length_nextRow xs]
    omega
  | [x] | [] => by simp [nextRow]

theorem nextRow_append (ys : List α) : ∀ {xs : List α}, xs.length % 2 = 0 →
    nextRow hash (xs ++ ys) = nextRow hash xs ++ nextRow hash ys
  | x :: y :: xs, h => by
    simp [nextRow, @nextRow_append ys xs (by simp at h; omega)]
  | [x], h => by simp at h
  | [], _ => rfl

theorem Root.up_iff (hlen : 1 < xs.length) : Root hash xs r ↔ Root hash (nextRow hash xs) r := by
  refine ⟨fun h => ?_, .up hlen⟩
  cases h with
  | leaf => simp at hlen
  | up _ h => exact h

theorem Root.unique (h : Root hash xs r) (h' : Root hash xs r') : r = r' := by
  induction h with
  | leaf x =>
    cases h' with
    | leaf => rfl
    | up hlen => simp at hlen
  | up hlen _ ih => exact ih ((up_iff hlen).1 h')

/-- A lone last node is hashed with itself. -/
theorem Root.twice (hlen : xs.length % 2 = 0) (hne : xs ≠ []) :
    Root hash (xs ++ [x] ++ [x]) r ↔ Root hash (xs ++ [x]) r := by
  have hpos := length_pos_iff.2 hne
  have hrow : nextRow hash (xs ++ [x] ++ [x]) = nextRow hash (xs ++ [x]) := by
    rw [append_assoc, nextRow_append _ hlen, nextRow_append _ hlen]
    simp [nextRow]
  rw [up_iff (by simp), hrow, ← up_iff (by simpa using hpos)]

namespace Peaks

theorem eq_nil (h : Peaks hash xs ps) : ps = [] ↔ xs = [] := by
  induction h with
  | nil => simp
  | even _ _ ih => rw [ih, ← length_eq_zero_iff, length_nextRow, ← length_eq_zero_iff]; omega
  | odd => simp

theorem merge (h : Peaks hash xs ps) (x : α) :
    ∃ qs, merge hash xs.length ps x = some qs ∧ Peaks hash (xs ++ [x]) qs := by
  induction h generalizing x with
  | nil => exact ⟨[x], rfl, .odd rfl .nil⟩
  | @even xs ps hlen h =>
    refine ⟨x :: ps, ?_, .odd hlen h⟩
    cases ps <;> simp [Merkle.merge, hlen]
  | @odd xs ps y hlen h ih =>
    obtain ⟨qs, hmerge, hqs⟩ := ih (hash y x)
    refine ⟨qs, ?_, .even (by simp [hlen]) ?_⟩
    · rw [Merkle.merge, if_pos (by simp; omega), ← hmerge, length_nextRow, length_append, length_singleton]
    · rwa [append_assoc, nextRow_append _ hlen]

theorem add (h : Peaks hash xs ps) (x : α) :
    ∃ qs, add hash ⟨ps, xs.length⟩ x = some ⟨qs, (xs ++ [x]).length⟩ ∧ Peaks hash (xs ++ [x]) qs := by
  obtain ⟨qs, hmerge, hqs⟩ := h.merge x
  exact ⟨qs, by simp [Merkle.add, hmerge], hqs⟩

theorem adds (h : Peaks hash xs ps) (ys : List α) :
    ∃ qs, ys.foldlM (Merkle.add hash) ⟨ps, xs.length⟩ = some ⟨qs, (xs ++ ys).length⟩ ∧
      Peaks hash (xs ++ ys) qs := by
  induction ys generalizing xs ps with
  | nil => exact ⟨ps, by simp, by simpa using h⟩
  | cons y ys ih =>
    obtain ⟨ps, hadd, h⟩ := h.add y
    rw [foldlM_cons, hadd]
    simpa using ih h

/-- The shift leads to the lowest row with a lone last node. -/
theorem lowest (h : Peaks hash xs ps) (hne : ps ≠ []) : ∃ ys x qs, ps = x :: qs ∧ ys.length % 2 = 0 ∧
    Peaks hash (nextRow hash ys) qs ∧ shiftOut xs.length = ys.length + 1 ∧
    (ys.length < xs.length ∧ (xs.length % 2 = 0 → 2 * ys.length + 1 < xs.length)) ∧
    ∀ r, Root hash (ys ++ [x]) r → Root hash xs r := by
  induction h with
  | nil => exact absurd rfl hne
  | @even xs ps hlen h ih =>
    obtain ⟨ys, x, qs, rfl, hys, hqs, hshift, hle, hroot⟩ := ih hne
    rw [length_nextRow] at hshift hle
    refine ⟨ys, x, qs, rfl, hys, hqs, ?_, by omega, fun r hr => .up (by omega) (hroot r hr)⟩
    rw [shiftOut, if_pos (by omega), ← hshift]
    congr 1
    omega
  | @odd xs ps x hlen h =>
    refine ⟨xs, x, ps, rfl, hlen, h, ?_, by simp; omega, fun _ => id⟩
    rw [shiftOut, if_neg (by simp; omega), length_append, length_singleton]

theorem raise {fuel : Nat} (h : Peaks hash xs ps) (hlen : xs.length % 2 = 0) (hne : xs ≠ []) (hfuel : xs.length ≤ fuel) :
    ∃ r, raise hash fuel ⟨ps, xs.length⟩ = some r ∧ Root hash xs r := by
  induction fuel generalizing xs ps with
  | zero => exact absurd (length_eq_zero_iff.1 (by omega)) hne
  | succ fuel ih =>
    obtain ⟨ys, x, qs, rfl, hys, hqs, hshift, hle, hroot⟩ := h.lowest (h.eq_nil.not.2 hne)
    rcases eq_or_ne ys [] with rfl | hys'
    · cases hqs.eq_nil.2 rfl
      exact ⟨x, rfl, hroot x (.leaf x)⟩
    · have hpos := length_pos_iff.2 hys'
      obtain ⟨rs, hadd, hrs⟩ := (Peaks.odd (x := x) hys hqs).add x
      obtain ⟨r, hr, hr'⟩ := ih hrs (by simp [hys]) (by simp) (by simp only [length_append, length_singleton]; omega)
      refine ⟨r, ?_, hroot r ((Root.twice hys hys').1 hr')⟩
      cases qs with
      | nil =>
        have hrow := congrArg length (hqs.eq_nil.1 rfl)
        rw [length_nextRow, length_nil] at hrow
        omega
      | cons q qs =>
        simp only [Merkle.raise, hshift]
        rw [← length_singleton (a := x), ← length_append, hadd, ← hr]
        rfl

end Peaks

theorem calcMerkleRoot_root {adds : List τ} (hne : adds ≠ []) (witness : Bool) :
    ∃ r, calcMerkleRoot hash ids adds witness = some r ∧ Root hash (adds.mapIdx (ids.leaf witness)) r := by
  obtain ⟨rest, last, rfl⟩ := (eq_nil_or_concat adds).resolve_left hne
  rw [concat_eq_append]
  rcases eq_or_ne rest [] with rfl | hrest
  · exact ⟨_, rfl, .leaf _⟩
  have hleaf : (rest ++ [last]).mapIdx (ids.leaf witness) = rest.mapIdx (ids.leaf witness) ++
      [if witness then ids.witnessHash last else ids.hash last] := by
    simp [Ids.leaf, hrest]
  obtain ⟨ps, hfold, hps⟩ := (@Peaks.nil _ hash).adds ((rest ++ [last]).mapIdx (ids.leaf witness))
  rw [nil_append] at hfold hps
  simp only [length_nil] at hfold
  have hone : (rest ++ [last]).length ≠ 1 := by simpa using hrest
  simp only [calcMerkleRoot, hfold, bind_some, length_mapIdx, if_neg hone, getLast?_concat, Option.bind_eq_bind]
  split
  next hodd =>
    have heven : (rest.mapIdx (ids.leaf witness)).length % 2 = 0 := by simp at hodd ⊢; omega
    rw [hleaf] at hps ⊢
    obtain ⟨qs, hadd, hqs⟩ := hps.add (if witness then ids.witnessHash last else ids.hash last)
    obtain ⟨r, hr, hroot⟩ := hqs.raise (by simpa using heven) (by simp) le_rfl
    refine ⟨r, ?_, (Root.twice heven (by simpa using hrest)).1 hroot⟩
    simp only [length_append, length_mapIdx, length_singleton] at hadd hr ⊢
    rw [hadd, bind_some, hr]
  next hodd =>
    obtain ⟨r, hr, hroot⟩ := hps.raise (by simpa using hodd) (by simp) le_rfl
    exact ⟨r, by simpa using hr, hroot⟩

/-! ## The rows in the array -/

def pairs (hash : α → α → α) : List (Option α) → List (Option α)
  | left :: right :: row => parent hash left right :: pairs hash row
  | _ => []

def pad (n : Nat) (xs : List α) : List (Option α) := xs.map some ++ replicate (n - xs.length) none

theorem fill_row {m : Nat} (n : Nat) {row : List (Option α)} (hrow : row.length = 2 * m) (pre mid : List (Option α)) :
    fill hash (m + n) pre.length (pre ++ row ++ mid) =
      fill hash n (pre ++ row).length (pre ++ row ++ (mid ++ pairs hash row)) := by
  induction m generalizing row pre mid with
  | zero =>
    obtain rfl := length_eq_zero_iff.1 hrow
    simp [pairs]
  | succ m ih =>
    obtain _ | ⟨l, _ | ⟨r, row⟩⟩ := row
    · simp at hrow
    · simp at hrow; omega
    have := @ih row (by simp at hrow; omega) (pre ++ [l, r]) (mid ++ [parent hash l r])
    rw [Nat.succ_add, fill]
    simpa [pairs] using this

theorem pairs_pad {m : Nat} {xs : List α} (hlen : xs.length ≤ 2 * m) :
    pairs hash (pad (2 * m) xs) = pad m (nextRow hash xs) := by
  induction m generalizing xs with
  | zero =>
    obtain rfl := length_eq_zero_iff.1 (by omega : xs.length = 0)
    simp [pad, pairs, nextRow]
  | succ m ih =>
    have hnil := @ih [] (Nat.zero_le _)
    match xs with
    | [] | [x] => simpa [pad, pairs, nextRow, replicate_succ, Nat.mul_succ, parent] using hnil
    | x :: y :: xs =>
      simpa [pad, pairs, nextRow, Nat.mul_succ, parent] using @ih xs (by simp at hlen; omega)

theorem fill_root {k : Nat} {xs : List α} (hle : xs.length ≤ 2 ^ k) (hlt : 2 ^ k < 2 * xs.length)
    (pre : List (Option α)) :
    ∃ r, (fill hash (2 ^ k - 1) pre.length (pre ++ pad (2 ^ k) xs)).getLast? = some (some r) ∧ Root hash xs r := by
  induction k generalizing xs pre with
  | zero =>
    obtain ⟨x, rfl⟩ := length_eq_one_iff.1 (by omega : xs.length = 1)
    exact ⟨x, by simp [fill, pad], .leaf x⟩
  | succ k ih =>
    have hlen := @length_nextRow _ hash xs
    rw [Nat.pow_succ, Nat.mul_comm] at hle hlt ⊢
    obtain ⟨r, hr, hroot⟩ := @ih (nextRow hash xs) (by omega) (by omega) (pre ++ pad (2 * 2 ^ k) xs)
    refine ⟨r, ?_, .up (by omega) hroot⟩
    rw [show 2 * 2 ^ k - 1 = 2 ^ k + (2 ^ k - 1) by omega, ← append_nil (pre ++ pad (2 * 2 ^ k) xs),
      fill_row _ (by simp [pad]; omega), pairs_pad hle]
    exact hr

theorem nextPowerOfTwo_lt (n : Nat) : nextPowerOfTwo (n + 1) < 2 * (n + 1) := by
  obtain rfl | hn := Nat.eq_zero_or_pos n
  · simp [nextPowerOfTwo]
  · have hlt := Nat.pow_pred_clog_lt_self Nat.one_lt_two (Nat.succ_lt_succ hn)
    obtain ⟨k, hk⟩ := Nat.exists_eq_succ_of_ne_zero (Nat.clog_pos Nat.one_lt_two (Nat.succ_lt_succ hn)).ne'
    rw [nextPowerOfTwo, hk]
    rw [hk, Nat.pred_succ] at hlt
    omega

/-- The rolling store ends with one root, and it is the last hash in the array. -/
theorem calcMerkleRoot_eq_last (hash : α → α → α) (ids : Ids τ α) (tx : τ) (txs : List τ) (witness : Bool) :
    ∃ root, calcMerkleRoot hash ids (tx :: txs) witness = some root ∧
      (buildMerkleTreeStore hash ids (tx :: txs) witness).getLast? = some (some root) := by
  obtain ⟨r, hr, hroot⟩ := @calcMerkleRoot_root _ _ hash ids _ (cons_ne_nil tx txs) witness
  refine ⟨r, hr, ?_⟩
  obtain ⟨r', hr', hroot'⟩ := @fill_root _ hash (Nat.clog 2 (tx :: txs).length) ((tx :: txs).mapIdx (ids.leaf witness))
    (by rw [length_mapIdx]; exact Nat.le_pow_clog Nat.one_lt_two _) (by rw [length_mapIdx]; exact nextPowerOfTwo_lt _) []
  rw [hroot.unique hroot', ← hr']
  simp [buildMerkleTreeStore, nextPowerOfTwo, pad]

end IniNode.Merkle
