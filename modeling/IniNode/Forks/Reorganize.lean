import IniNode.Forks.Lineage
/-!
# What a reorganization does

A reorganization moves the tip of the best chain only along the nodes it was given, and only when none of them failed its
checks; otherwise it may mark nodes it was to attach. The nodes that `getReorganizeNodes` gives are the two sides of the
fork, and none of those to attach is known to be invalid.
-/

open List

namespace IniNode.Forks

namespace Tree

variable {t : Tree} {env : Env}

@[simp] theorem best_flushToDB : t.flushToDB.best = t.best := by
  unfold flushToDB
  split <;> rfl

@[simp] theorem best_unsetStatusFlags (p : Ptr) (flags : BlockStatus) : (t.unsetStatusFlags p flags).best = t.best := rfl

@[simp] theorem best_markInvalidAncestor (p : Ptr) : (t.markInvalidAncestor p).best = t.best := rfl

@[simp] theorem best_invalidateDescendant (p : Ptr) : (t.invalidateDescendant p).best = t.best := by
  unfold invalidateDescendant
  split <;> rfl

theorem best_foldl {α : Type} {g : Tree → α → Tree} (hg : ∀ t p, (g t p).best = t.best) (ps : List α) (t : Tree) :
    (ps.foldl g t).best = t.best := by
  induction ps generalizing t with
  | nil => rfl
  | cons p ps ih => exact (ih (g t p)).trans (hg t p)

theorem best_foldl_mark (ps : List Ptr) (t : Tree) : (ps.foldl markInvalidAncestor t).best = t.best :=
  best_foldl (fun t p => best_markInvalidAncestor (t := t) p) ps t

end Tree

/-- The tip moved along the given nodes, or it stayed and nodes that were to be attached may be marked. -/
structure Reorganized (detach attach : List Ptr) (t u : Tree) : Prop where
  relabel : Relabel (· ∈ attach) t u
  moved : u.best = t.best ∨
    Clears t u ∧ (u.best ∈ attach ∨ ∃ d ∈ detach, (t.mem d).parent = some u.best)

namespace Reorganized

variable {env : Env} {detach attach : List Ptr} {t u : Tree}

theorem flushToDB (h : Reorganized detach attach t u) : Reorganized detach attach t u.flushToDB := by
  refine ⟨h.relabel.trans (Relabel.of_clears Relabel.flushToDB), ?_⟩
  rw [Tree.best_flushToDB]
  exact h.moved.imp_right fun ⟨hc, hm⟩ => ⟨hc.trans Relabel.flushToDB, hm⟩

variable (ns : List Ptr)

theorem verifyAttach (t : Tree) :
    Relabel (· ∈ ns) t (Tree.verifyAttach env ns t).1 ∧ (Tree.verifyAttach env ns t).1.best = t.best ∧
      ((Tree.verifyAttach env ns t).2 = true → Clears t (Tree.verifyAttach env ns t).1) := by
  induction ns generalizing t with
  | nil => exact ⟨Relabel.refl t, rfl, fun _ => Relabel.refl t⟩
  | cons n ns ih =>
    rw [Tree.verifyAttach]
    have hmono : ∀ p, p ∈ ns → p ∈ n :: ns := fun p => mem_cons_of_mem n
    split
    · exact ⟨Relabel.refl t, rfl, nofun⟩
    split
    · exact ⟨(ih t).1.mono hmono, (ih t).2⟩
    split
    · have hset : Clears t (t.setStatusFlags n { valid := true }) := Relabel.setStatusFlags n rfl
      obtain ⟨hr, hb, hc⟩ := ih (t.setStatusFlags n { valid := true })
      exact ⟨(Relabel.of_clears hset).trans (hr.mono hmono), hb, fun hok => hset.trans (hc hok)⟩
    · refine ⟨?_, Tree.best_foldl_mark ns _, nofun⟩
      apply Relabel.trans ((Relabel.setInvalid n _).mono _)
      · exact (Relabel.foldl Relabel.markInvalidAncestor ns _).mono hmono
      · rintro q rfl
        exact mem_cons_self
    · exact ⟨Relabel.refl t, rfl, nofun⟩

theorem verify (t : Tree) : Relabel (· ∈ attach) t (t.verifyReorganizationValidity env detach attach).1 ∧
      (t.verifyReorganizationValidity env detach attach).1.best = t.best ∧
      ((t.verifyReorganizationValidity env detach attach).2 = true →
        Clears t (t.verifyReorganizationValidity env detach attach).1) := by
  unfold Tree.verifyReorganizationValidity
  split
  · exact ⟨Relabel.refl t, rfl, fun _ => Relabel.refl t⟩
  split
  · exact ⟨Relabel.refl t, rfl, nofun⟩
  split
  · exact ⟨Relabel.refl t, rfl, nofun⟩
  · exact verifyAttach attach t

theorem detachAll (t : Tree) : Clears t (Tree.detachAll env ns t).1 ∧
      ((Tree.detachAll env ns t).1.best = t.best ∨
        ∃ d ∈ ns, (t.mem d).parent = some (Tree.detachAll env ns t).1.best) := by
  induction ns generalizing t with
  | nil => exact ⟨Relabel.refl t, .inl rfl⟩
  | cons n ns ih =>
    rw [Tree.detachAll]
    split
    · exact ⟨Relabel.refl t, .inl rfl⟩
    next q hq =>
      split
      · exact ⟨Relabel.refl t, .inl rfl⟩
      split
      · exact ⟨Relabel.flushToDB, .inl Tree.best_flushToDB⟩
      · have hone : Clears t (t.setBest q) := Relabel.setBest q
        obtain ⟨hc, hm⟩ := ih (t.setBest q)
        refine ⟨hone.trans hc, .inr ?_⟩
        obtain hm | ⟨d, hd, hm⟩ := hm
        · exact ⟨n, mem_cons_self, hq.trans (congrArg some hm.symm)⟩
        · exact ⟨d, mem_cons_of_mem n hd, (hone.parent d).symm.trans hm⟩

theorem attachAll (t : Tree) : Clears t (Tree.attachAll env ns t).1 ∧
      ((Tree.attachAll env ns t).1.best = t.best ∨ (Tree.attachAll env ns t).1.best ∈ ns) := by
  induction ns generalizing t with
  | nil => exact ⟨Relabel.refl t, .inl rfl⟩
  | cons n ns ih =>
    rw [Tree.attachAll]
    split
    · split
      · obtain ⟨hc, hm⟩ := ih (t.setBest n)
        refine ⟨(Relabel.setBest n).trans hc, .inr ?_⟩
        obtain hm | hm := hm
        · rw [hm]
          exact mem_cons_self
        · exact mem_cons_of_mem n hm
      · exact ⟨Relabel.refl t, .inl rfl⟩
    · split
      · exact ⟨Relabel.setBest n, .inr mem_cons_self⟩
      · exact ⟨Relabel.refl t, .inl rfl⟩
    · exact ⟨Relabel.refl t, .inl rfl⟩

theorem after {v : Tree} (hc : Clears t u) (hb : u.best = t.best) (h : Reorganized detach attach u v) :
    Reorganized detach attach t v := by
  refine ⟨(Relabel.of_clears hc).trans h.relabel, h.moved.imp (fun hv => hv.trans hb) ?_⟩
  rintro ⟨hv, hm⟩
  refine ⟨hc.trans hv, hm.imp_right ?_⟩
  rintro ⟨d, hd, hp⟩
  exact ⟨d, hd, (hc.parent d).symm.trans hp⟩

theorem reorganizeChain (t : Tree) : Reorganized detach attach t (t.reorganizeChain env detach attach).1 := by
  unfold Tree.reorganizeChain
  obtain ⟨hr, hb, hc⟩ := @verify env detach attach t
  split
  next u heq =>
    rw [heq] at hr hb
    exact ⟨hr, .inl hb⟩
  next u heq =>
    rw [heq] at hb hc
    refine after (hc rfl) hb ?_
    obtain ⟨hdc, hdm⟩ := @detachAll env detach u
    split
    next v heq =>
      rw [heq] at hdc hdm
      exact ⟨Relabel.of_clears hdc, hdm.imp_right fun h => ⟨hdc, .inr h⟩⟩
    next v heq =>
      rw [heq] at hdc hdm
      obtain ⟨hac, ham⟩ := @attachAll env attach v
      have hall := hdc.trans hac
      refine ⟨Relabel.of_clears hall, ?_⟩
      obtain ham | ham := ham
      · rw [ham]
        exact hdm.imp_right fun h => ⟨hall, .inr h⟩
      · exact .inr ⟨hall, .inl ham⟩

/-- The end of `ReconsiderBlock`: the checks come first, on their own. -/
theorem verified (t : Tree) : Reorganized detach attach t (match t.verifyReorganizationValidity env detach attach with
    | (t, false) => (t.flushToDB, true)
    | (t, true) => t.flushToDB.reorganizeChain env detach attach).1 := by
  obtain ⟨hr, hb, hc⟩ := @verify env detach attach t
  split
  next u heq =>
    rw [heq] at hr hb
    exact flushToDB ⟨hr, .inl hb⟩
  next u heq =>
    rw [heq] at hb hc
    exact after ((hc rfl).trans Relabel.flushToDB) (Tree.best_flushToDB.trans hb) (reorganizeChain _)

end Reorganized

/-! ## The two sides of the fork -/

/-- No block of the best chain is known to be invalid. -/
def Clean (t : Tree) : Prop := ∀ p ∈ t.bestChain, t.marked p = false

theorem mem_of_findFork {t : Tree} {node fork : Ptr} (h : t.findFork node = some fork) :
    fork ∈ lineage t.mem node ∧ fork ∈ t.bestChain ∧
      ∀ p ∈ (lineage t.mem node).takeWhile (· ≠ fork), p ∉ t.bestChain := by
  obtain ⟨hfork, above, below, heq, habove⟩ := find?_eq_some_iff_append.1 h
  have hfork : fork ∈ t.bestChain := by simpa using hfork
  have habove : ∀ a ∈ above, a ∉ t.bestChain := by simpa using habove
  refine ⟨heq ▸ mem_append_right _ mem_cons_self, hfork, fun p hp => habove p ?_⟩
  have hne : ∀ a ∈ above, decide (a ≠ fork) = true := by
    intro a ha
    simp only [decide_eq_true_eq]
    rintro rfl
    exact habove a ha hfork
  rw [heq, takeWhile_append_of_pos hne, takeWhile_cons_of_neg (by simp), append_nil] at hp
  exact hp

/-- What `getReorganizeNodes` gives: nothing, after marking nodes off a clean best chain, or the two sides of the fork,
with no mark on the side to attach. -/
inductive Sides (t : Tree) (node : Ptr) : Tree × List Ptr × List Ptr → Prop
  | nothing {u : Tree} (relabel : Relabel (fun p => Clean t → p ∉ t.bestChain) t u) (best : u.best = t.best) :
      Sides t node (u, [], [])
  | fork {fork : Ptr} (found : t.findFork node = some fork)
      (unmarked : ∀ p ∈ (lineage t.mem node).takeWhile (· ≠ fork), t.marked p = false) :
      Sides t node (t, t.bestChain.takeWhile (· ≠ fork), ((lineage t.mem node).takeWhile (· ≠ fork)).reverse)

theorem getReorganizeNodes_sides {t : Tree} (hl : Linked t.mem t.fresh) (hb : t.best < t.fresh) (node : Ptr) :
    Sides t node (t.getReorganizeNodes node) := by
  unfold Tree.getReorganizeNodes
  split
  · exact .nothing (Relabel.refl t) rfl
  next parent hparent =>
    split
    next hmarked =>
      -- a node of the best chain has its parent there, and that is not marked
      refine .nothing ((Relabel.markInvalidAncestor t node).mono ?_) rfl
      rintro p rfl hc hp
      have hpar : parent ∈ t.bestChain := hl.subset hb hp (hl.parent_mem (hl.lt_of_mem hb hp) hparent)
      exact absurd hmarked (by simp [hc parent hpar])
    · split
      · exact .nothing (Relabel.refl t) rfl
      next fork hfork =>
        obtain ⟨_, _, hoff⟩ := mem_of_findFork hfork
        dsimp only
        split
        · refine .nothing ((Relabel.foldl Relabel.markInvalidAncestor _ t).mono fun p hp => ?_) (Tree.best_foldl_mark _ t)
          exact fun _ => hoff p ((takeWhile_sublist _).subset hp)
        next hlen =>
          refine .fork hfork ?_
          have hall := (takeWhile_sublist (fun p => !t.marked p)
            (l := (lineage t.mem node).takeWhile (· ≠ fork))).eq_of_length_le (Nat.le_of_not_lt hlen)
          intro p hp
          simpa using takeWhile_eq_self_iff.1 hall p hp

/-- The best chain was turned to a node: nothing but marks off a clean best chain, or a reorganization along the two
sides of the fork. -/
inductive Turned (t : Tree) (node : Ptr) (u : Tree) : Prop
  | marked (relabel : Relabel (fun p => Clean t → p ∉ t.bestChain) t u) (best : u.best = t.best)
  | along {fork : Ptr} (found : t.findFork node = some fork)
      (unmarked : ∀ p ∈ (lineage t.mem node).takeWhile (· ≠ fork), t.marked p = false)
      (moved : Reorganized (t.bestChain.takeWhile (· ≠ fork)) ((lineage t.mem node).takeWhile (· ≠ fork)).reverse t u)

namespace Turned

variable {env : Env} {t u v : Tree} {node : Ptr}

theorem of_sides {r : Tree × List Ptr × List Ptr} (h : Sides t node r) (hr : Reorganized r.2.1 r.2.2 r.1 v) :
    Turned t node v := by
  obtain ⟨hrel, hbest⟩ | ⟨hfork, hun⟩ := h
  · refine .marked (hrel.trans (hr.relabel.mono nofun)) (Eq.trans ?_ hbest)
    obtain hb | ⟨-, hb | ⟨d, hd, -⟩⟩ := hr.moved
    · exact hb
    · exact absurd hb not_mem_nil
    · exact absurd hd not_mem_nil
  · exact .along hfork hun hr

theorem reorganizeTo (hl : Linked t.mem t.fresh) (hb : t.best < t.fresh) (node : Ptr) :
    Turned t node (t.reorganizeTo env node).1 :=
  of_sides (getReorganizeNodes_sides hl hb node) (Reorganized.reorganizeChain _).flushToDB

theorem reconsiderBranch (hl : Linked t.mem t.fresh) (hb : t.best < t.fresh) (node : Ptr) :
    Turned t node (t.reconsiderBranch env node).1 := by
  unfold Tree.reconsiderBranch
  split
  · exact .marked (Relabel.refl t) rfl
  · exact of_sides (getReorganizeNodes_sides hl hb node) (Reorganized.verified _)

end Turned

end IniNode.Forks
