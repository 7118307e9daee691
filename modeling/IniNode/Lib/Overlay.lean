import IniNode.Lib.Store
/-!
# Changes kept over a store

An overlay is a set of changes that are not written yet: keys with their new values, and keys to remove. Reading
through it, the removed keys come first. The changes of a second overlay can be put on top of it (`stack`), and its
changes can be written to the store below (`commit`); `view_stack` and `commit_eq_view` say that what is read is the same
however the changes are spread.
-/

namespace IniNode.Lib

variable {κ ν : Type} [DecidableEq κ]

/-- Pending writes and deletions. -/
structure Overlay (κ ν : Type) where
  keys : AList fun _ : κ => ν
  remove : AList fun _ : κ => Unit

namespace Overlay

def empty : Overlay κ ν := ⟨∅, ∅⟩

variable (o : Overlay κ ν)

def isEmpty : Bool := o.keys.entries.isEmpty && o.remove.entries.isEmpty

def view (s : Store κ ν) : Store κ ν := fun k =>
  if (o.remove.lookup k).isSome then none else (o.keys.lookup k).or (s k)

/-- The changes are written, the removals last. -/
def commit (s : Store κ ν) : Store κ ν :=
  o.remove.entries.foldl (fun s p => s.write ⟨p.1, none⟩)
    (o.keys.entries.foldl (fun s p => s.write ⟨p.1, some p.2⟩) s)

/-- The changes of `t` on top of those of `o`. -/
def stack (o t : Overlay κ ν) : Overlay κ ν where
  keys := t.remove.entries.foldl (fun m p => m.erase p.1) (t.keys.entries.foldl (fun m p => m.insert p.1 p.2) o.keys)
  remove := t.remove.entries.foldl (fun m p => m.insert p.1 ()) (t.keys.entries.foldl (fun m p => m.erase p.1) o.remove)

section Loops
variable {μ : Type} (m : AList fun _ : κ => μ) (l : AList fun _ : κ => ν) (k : κ)

theorem lookup_foldl_insert (f : ν → μ) :
    (l.entries.foldl (fun m p => m.insert p.1 (f p.2)) m).lookup k = ((l.lookup k).map f).or (m.lookup k) := by
  have h := foldl_keyed (fun (m : AList fun _ : κ => μ) k => m.lookup k)
    (fun m (p : (_ : κ) × ν) => m.insert p.1 (f p.2)) (fun _ v _ => some (f v)) (fun m p k => ?_) l m k
  · rw [h]
    cases l.lookup k <;> simp
  · by_cases hk : k = p.1
    · rw [hk, AList.lookup_insert, if_pos rfl]
    · rw [AList.lookup_insert_ne hk, if_neg hk]

theorem lookup_foldl_erase :
    (l.entries.foldl (fun m p => m.erase p.1) m).lookup k = if (l.lookup k).isSome then none else m.lookup k := by
  have h := foldl_keyed (fun (m : AList fun _ : κ => μ) k => m.lookup k) (fun m (p : (_ : κ) × ν) => m.erase p.1)
    (fun _ _ _ => none) (fun m p k => ?_) l m k
  · rw [h]
    cases l.lookup k <;> simp
  · by_cases hk : k = p.1
    · rw [hk, AList.lookup_erase, if_pos rfl]
    · rw [AList.lookup_erase_ne hk, if_neg hk]

theorem foldl_write (s : Store κ μ) (f : ν → Option μ) :
    l.entries.foldl (fun s p => s.write ⟨p.1, f p.2⟩) s k = ((l.lookup k).map f).getD (s k) := by
  have h := foldl_keyed (fun (s : Store κ μ) k => s k) (fun s (p : (_ : κ) × ν) => s.write ⟨p.1, f p.2⟩)
    (fun _ v _ => f v) (fun s p k => Store.write_apply s ⟨p.1, f p.2⟩ k) l s k
  exact h

end Loops

variable (o t : Overlay κ ν) (s : Store κ ν)

theorem commit_eq_view : o.commit s = o.view s := by
  funext k
  have hkeys := foldl_write o.keys k s some
  have hremove := foldl_write o.remove k (o.keys.entries.foldl (fun s p => s.write ⟨p.1, some p.2⟩) s) fun _ => none
  rw [commit, hremove, hkeys, view]
  cases o.remove.lookup k <;> cases o.keys.lookup k <;> rfl

theorem view_stack : (o.stack t).view s = t.view (o.view s) := by
  funext k
  have hkeys : (t.keys.entries.foldl (fun m p => m.insert p.1 p.2) o.keys).lookup k = _ :=
    lookup_foldl_insert o.keys t.keys k id
  rw [view, view, view, stack]
  rw [lookup_foldl_insert _ _ _ fun _ => (), lookup_foldl_erase, lookup_foldl_erase, hkeys]
  cases t.remove.lookup k <;> cases t.keys.lookup k <;> cases o.remove.lookup k <;> rfl

@[simp] theorem view_empty : (empty : Overlay κ ν).view s = s := rfl

theorem view_view : o.view (o.view s) = o.view s := by
  funext k
  rw [view, view]
  cases o.remove.lookup k <;> cases o.keys.lookup k <;> rfl

theorem view_of_isEmpty (h : o.isEmpty) : o.view s = s := by
  obtain ⟨⟨keys, hk⟩, ⟨remove, hr⟩⟩ := o
  simp only [isEmpty, Bool.and_eq_true, List.isEmpty_iff] at h
  obtain ⟨rfl, rfl⟩ := h
  rfl

end Overlay

end IniNode.Lib
