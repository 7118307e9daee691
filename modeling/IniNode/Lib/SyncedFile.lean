import Mathlib
/-!
# Files and what a crash leaves of them

A file is its contents with the length that was last synced. A crash keeps at least that much of it and drops the rest
from some point on. `Has f off data` says that the data is in the file at an offset; it is kept by everything that leaves
the bytes up to the end of the data alone.
-/

open List

namespace IniNode.Lib

variable {α : Type}

/-- A file and how much of it survives a crash. -/
structure SyncedFile (α : Type) where
  content : List α
  synced : Nat
  synced_le : synced ≤ content.length

namespace SyncedFile

def empty : SyncedFile α := ⟨[], 0, Nat.le_refl _⟩

variable (f : SyncedFile α)

def size : Nat := f.content.length

/-- A write at an offset; a hole reads as the default. -/
def writeAt [Inhabited α] (f : SyncedFile α) (off : Nat) (data : List α) : SyncedFile α where
  content := f.content.take off ++ replicate (off - f.content.length) default ++ data ++
    f.content.drop (off + data.length)
  synced := min f.synced off
  synced_le := by
    simp only [length_append, length_take, length_replicate]
    omega

def sync : SyncedFile α := ⟨f.content, f.content.length, Nat.le_refl _⟩

/-- The file is cut off at a length, or filled up to it. -/
def truncate [Inhabited α] (f : SyncedFile α) (n : Nat) : SyncedFile α where
  content := f.content.take n ++ replicate (n - f.content.length) default
  synced := min f.synced n
  synced_le := by
    have := f.synced_le
    simp only [length_append, length_take]
    omega

/-- What is left after a crash, at least what was synced. -/
def crash (keep : Nat) : SyncedFile α :=
  ⟨f.content.take (max f.synced keep), (f.content.take (max f.synced keep)).length, Nat.le_refl _⟩

def Synced : Prop := f.synced = f.size

/-- The data is in the file at the offset. -/
def Has (off : Nat) (data : List α) : Prop :=
  ∃ pre post, f.content = pre ++ data ++ post ∧ pre.length = off

variable {f : SyncedFile α} {off n : Nat} {data more : List α}

section

variable (h : f.Has off data)

include h

theorem Has.read : (f.content.drop off).take data.length = data := by
  obtain ⟨pre, post, heq, rfl⟩ := h
  rw [heq, append_assoc, drop_left, take_left]

theorem Has.sync : f.sync.Has off data := h

theorem Has.take {g : SyncedFile α} {post : List α} (hn : off + data.length ≤ n)
    (hg : g.content = f.content.take n ++ post) : g.Has off data := by
  obtain ⟨pre, post', heq, rfl⟩ := h
  refine ⟨pre, post'.take (n - (pre ++ data).length) ++ post, ?_, rfl⟩
  have htake : (pre ++ data).take n = pre ++ data := take_of_length_le (by simpa using hn)
  rw [hg, heq, take_append, htake, append_assoc]

theorem Has.crash (hs : off + data.length ≤ f.synced) (keep : Nat) : (f.crash keep).Has off data :=
  h.take (Nat.le_trans hs (Nat.le_max_left _ _)) (append_nil _).symm

theorem Has.truncate [Inhabited α] (hn : off + data.length ≤ n) : (f.truncate n).Has off data :=
  h.take hn rfl

end

section Append
variable [Inhabited α]

theorem content_writeAt_size : (f.writeAt f.size data).content = f.content ++ data := by
  simp [writeAt, size]

theorem size_writeAt_size : (f.writeAt f.size data).size = f.size + data.length := by
  rw [size, content_writeAt_size, length_append, size]

theorem synced_writeAt_size : (f.writeAt f.size data).synced = f.synced :=
  Nat.min_eq_left f.synced_le

theorem Has.append (h : f.Has off data) : (f.writeAt f.size more).Has off data := by
  obtain ⟨pre, post, heq, rfl⟩ := h
  refine ⟨pre, post ++ more, ?_, rfl⟩
  rw [content_writeAt_size, heq, append_assoc]

theorem has_appended : (f.writeAt f.size data).Has f.size data :=
  ⟨f.content, [], by rw [content_writeAt_size, append_nil], rfl⟩

theorem size_truncate : (f.truncate n).size = n := by
  simp only [size, truncate, length_append, length_take, length_replicate]
  omega

end Append

end SyncedFile

end IniNode.Lib
