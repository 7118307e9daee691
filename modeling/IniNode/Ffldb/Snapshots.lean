import IniNode.Ffldb.Cache
import IniNode.Lib.Run
/-!
# Snapshots of the database cache

Both parts of a snapshot together are what some of the committed transactions made, if LevelDB or the treaps are the same
at the second part as at the first. Nothing sees to that: a flush writes the treaps to LevelDB and then empties them, and a
reader that took its LevelDB snapshot before finds the changes in neither part.
-/

open IniNode.Lib List

namespace IniNode.Ffldb

variable {κ ν : Type} [DecidableEq κ] {s0 : Store κ ν} {s t : Db κ ν}

def contents (s0 : Store κ ν) (txs : List (Overlay κ ν)) : Store κ ν := txs.foldl (fun s tx => tx.view s) s0

theorem contents_concat (txs : List (Overlay κ ν)) (tx : Overlay κ ν) :
    contents s0 (txs ++ [tx]) = tx.view (contents s0 txs) := by
  rw [contents, contents, foldl_append, foldl_cons, foldl_nil]

/-- The view is what a first part of the transactions made, with the first `since` of them in it. -/
def Seen (s0 : Store κ ν) (txs : List (Overlay κ ν)) (since : Nat) (view : Store κ ν) : Prop :=
  ∃ m, since ≤ m ∧ m ≤ txs.length ∧ view = contents s0 (txs.take m)

variable {txs : List (Overlay κ ν)}

theorem Seen.concat {since : Nat} {view : Store κ ν} (h : Seen s0 txs since view)
    (tx : Overlay κ ν) : Seen s0 (txs ++ [tx]) since view := by
  obtain ⟨m, hle, hm, rfl⟩ := h
  refine ⟨m, hle, ?_, ?_⟩
  · rw [length_append]
    exact Nat.le_add_right_of_le hm
  · rw [take_append_of_le_length hm]

/-! ## What every step keeps -/

/-- What is true of a reader in every state. -/
def Reader.Sound (s0 : Store κ ν) (txs : List (Overlay κ ν)) : Reader κ ν → Prop
  | .begun since => since ≤ txs.length
  | .half since dbSnapshot cachedThen => Seen s0 txs since (cachedThen.view dbSnapshot)
  | .reading since snap => Seen s0 txs since snap.get

theorem Reader.Sound.concat {rd : Reader κ ν} (h : rd.Sound s0 txs) (tx : Overlay κ ν) :
    rd.Sound s0 (txs ++ [tx]) := by
  cases rd with
  | begun since =>
    rw [Reader.Sound, length_append]
    exact Nat.le_add_right_of_le h
  | half since dbSnapshot cachedThen | reading since snap => exact Seen.concat h tx

/-- What the writer has done so far leaves the contents as they are. -/
def Writer.Sound (s : Db κ ν) : Prop :=
  match s.writer with
  | .clear _ => s.cached.view s.ldb = s.ldb
  | .direct _ => s.cached.isEmpty
  | _ => True

/-- Readers see a prefix of what was committed. -/
structure Consistent (s0 : Store κ ν) (s : Db κ ν) : Prop where
  contents : s.cached.view s.ldb = contents s0 s.committed
  writer : Writer.Sound s
  readers : ∀ r rd, s.readers r = some rd → rd.Sound s0 s.committed

theorem consistent_init : Consistent s0 { ldb := s0 } where
  contents := rfl
  writer := trivial
  readers := by rintro _ _ ⟨⟩

theorem Consistent.seen (h : Consistent s0 s) {since : Nat} (hle : since ≤ s.committed.length) :
    Seen s0 s.committed since (s.cached.view s.ldb) := by
  refine ⟨s.committed.length, hle, Nat.le_refl _, ?_⟩
  rw [h.contents, take_length]

theorem Consistent.reader (h : Consistent s0 s) {r : Nat} {rd : Option (Reader κ ν)}
    (hrd : ∀ x, rd = some x → x.Sound s0 s.committed) :
    Consistent s0 { s with readers := s.readers.write ⟨r, rd⟩ } := by
  refine ⟨h.contents, h.writer, fun r' x hx => ?_⟩
  obtain ⟨-, hx⟩ | ⟨-, hx⟩ := Store.of_write hx
  · exact hrd x hx
  · exact h.readers r' x hx

theorem Consistent.advance (h : Consistent s0 s) (hs : s.advance = some t) : Consistent s0 t := by
  rw [Db.advance] at hs
  have hw := h.writer
  rw [Writer.Sound] at hw
  split at hs
  next => cases hs
  next tx heq =>
    split at hs
    next hempty =>
      cases hs
      exact ⟨h.contents, hempty, h.readers⟩
    next =>
      cases hs
      refine ⟨?_, ?_, h.readers⟩
      · rw [Overlay.commit_eq_view, Overlay.view_view, h.contents]
      · rw [Writer.Sound]
        rw [Overlay.commit_eq_view, Overlay.view_view]
  next tx heq =>
    cases hs
    rw [heq] at hw
    exact ⟨hw.symm.trans h.contents, rfl, h.readers⟩
  next tx heq =>
    cases hs
    rw [heq] at hw
    refine ⟨?_, trivial, fun r rd hrd => (h.readers r rd hrd).concat tx⟩
    rw [contents_concat, ← h.contents, Overlay.view_of_isEmpty _ _ hw, Overlay.view_of_isEmpty _ _ hw,
      Overlay.commit_eq_view]
  next tx heq =>
    cases hs
    refine ⟨?_, trivial, fun r rd hrd => (h.readers r rd hrd).concat tx⟩
    rw [contents_concat, ← h.contents, Overlay.view_stack]

/-- A reader takes the second part of its snapshot while LevelDB or the treaps are as they were at the first part. -/
def Steady (s : Db κ ν) : Action κ ν → Prop
  | .snapshotCache r => ∀ since dbSnapshot cachedThen, s.readers r = some (.half since dbSnapshot cachedThen) →
    s.ldb = dbSnapshot ∨ s.cached = cachedThen
  | _ => True

theorem Consistent.step (h : Consistent s0 s) {a : Action κ ν} (hok : Steady s a) (hs : s.step a = some t) :
    Consistent s0 t := by
  cases a with
  | begin r =>
    rw [Db.step] at hs
    split at hs
    · cases hs
      refine h.reader ?_
      rintro _ ⟨⟩
      exact Nat.le_refl _
    · cases hs
  | snapshotDb r =>
    rw [Db.step] at hs
    split at hs
    next since hr =>
      cases hs
      refine h.reader ?_
      rintro _ ⟨⟩
      exact h.seen (h.readers r _ hr)
    next => cases hs
  | snapshotCache r =>
    rw [Db.step] at hs
    split at hs
    next since dbSnapshot cachedThen hr =>
      cases hs
      refine h.reader ?_
      rintro _ ⟨⟩
      have hthen : Seen s0 s.committed since (cachedThen.view dbSnapshot) := h.readers r _ hr
      rw [Reader.Sound, Snapshot.get_eq_view]
      obtain rfl | rfl := hok since dbSnapshot cachedThen hr
      · obtain ⟨m, hle, hm, -⟩ := hthen
        exact h.seen (Nat.le_trans hle hm)
      · exact hthen
    next => cases hs
  | close r =>
    cases hs
    exact h.reader (by rintro _ ⟨⟩)
  | commitTx tx needsFlush =>
    rw [Db.step] at hs
    split at hs
    · cases hs
      refine ⟨h.contents, ?_, h.readers⟩
      cases needsFlush <;> trivial
    · cases hs
  | advance => exact h.advance hs
  | fail =>
    rw [Db.step] at hs
    split at hs
    · cases hs
      exact ⟨h.contents, trivial, h.readers⟩
    · cases hs
      exact ⟨h.contents, trivial, h.readers⟩
    · cases hs

/-- In every run in which readers take their snapshots undisturbed, a read transaction sees what a first part of the
committed transactions made, with all in it that were committed when it began. -/
theorem reads_are_prefixes {acts : List (Action κ ν)} {r since : Nat} {snap : Snapshot κ ν}
    (hok : Along Db.step Steady { ldb := s0 } acts) (hr : run Db.step { ldb := s0 } acts = some s)
    (hread : s.readers r = some (.reading since snap)) :
    ∃ m, since ≤ m ∧ m ≤ s.committed.length ∧ snap.get = contents s0 (s.committed.take m) ∧
      ∀ key, snap.has key = (contents s0 (s.committed.take m) key).isSome := by
  have hcons : Consistent s0 s := run_invariant (fun _ _ _ h hok hs => h.step hok hs) consistent_init hok hr
  obtain ⟨m, hle, hm, hget⟩ : Seen s0 s.committed since snap.get := hcons.readers r _ hread
  refine ⟨m, hle, hm, hget, fun key => ?_⟩
  rw [Snapshot.has_eq_isSome_get, hget]

def putOne (key value : Nat) : Overlay Nat Nat := ⟨AList.singleton key value, ∅⟩

/-- A flush writes to LevelDB between the two parts, and empties the treaps after the second. -/
theorem reads_are_prefixes_flushing : ∃ (s : Db Nat Nat) (snap : Snapshot Nat Nat), run Db.step { ldb := fun _ => none }
      [.commitTx (putOne 5 1) false, .advance, .begin 0, .snapshotDb 0, .commitTx (putOne 6 2) true, .advance,
        .snapshotCache 0, .advance, .advance] = some s ∧
    s.readers 0 = some (.reading 1 snap) ∧
    ∃ m, 1 ≤ m ∧ m ≤ s.committed.length ∧ snap.get = contents (fun _ => none) (s.committed.take m) ∧
      ∀ key, snap.has key = (contents (fun _ => none) (s.committed.take m) key).isSome := by
  refine exists_run_with rfl fun s hr => ⟨_, by cases hr; rfl, reads_are_prefixes (r := 0) ?_ hr (by cases hr; rfl)⟩
  iterate 6 refine .cons trivial rfl ?_
  refine ⟨?_, ?_⟩
  · rintro _ _ _ ⟨⟩
    exact .inr rfl
  rintro _ ⟨⟩
  refine .cons trivial rfl ?_
  exact ⟨trivial, fun _ _ => trivial⟩

/-- A flush between the two parts: the value that was committed before the read transaction began is in neither. And a
commit to LevelDB between them, with one to the treaps after it: the second transaction is seen without the first. -/
theorem flushed_values_lost : (∃ (s : Db Nat Nat) (snap : Snapshot Nat Nat), run Db.step { ldb := fun _ => none }
        [.commitTx (putOne 5 1) false, .advance, .begin 0, .snapshotDb 0, .commitTx (putOne 6 2) true, .advance, .advance,
          .snapshotCache 0] = some s ∧
      s.readers 0 = some (.reading 1 snap) ∧ s.committed = [putOne 5 1] ∧ snap.get 5 = none ∧
      contents (fun _ => none) s.committed 5 = some 1) ∧
    ∃ (s : Db Nat Nat) (snap : Snapshot Nat Nat), run Db.step { ldb := fun _ => none }
        [.commitTx (putOne 5 1) true, .advance, .begin 0, .snapshotDb 0, .advance, .commitTx (putOne 6 2) false, .advance,
          .snapshotCache 0] = some s ∧
      s.readers 0 = some (.reading 0 snap) ∧ s.committed = [putOne 5 1, putOne 6 2] ∧ snap.get 5 = none ∧
      snap.get 6 = some 2 := by
  constructor
  · exact ⟨_, _, rfl, rfl, rfl, by decide +kernel, by decide +kernel⟩
  · exact ⟨_, _, rfl, rfl, rfl, by decide +kernel, by decide +kernel⟩

end IniNode.Ffldb
