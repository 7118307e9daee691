import IniNode.Forks.Sound
/-!
# Manual invalidation and rollback

What `InvalidateBlock`, `ReconsiderBlock` and `InvalidateHeaderChain` mark and which tips they choose from, and that every
call keeps the tree well formed.
-/

open List

namespace IniNode.Forks

open Lib

namespace Tree

variable {env : Env} {t : Tree} {node tip p : Ptr}

theorem mem_of_inactiveTips (h : p ∈ t.inactiveTips env) : p ∉ t.bestChain ∧ ∃ x, t.lookupNode x = some p := by
  obtain ⟨hp, -⟩ := mem_filter.1 h
  obtain ⟨hp, hoff⟩ := mem_filter.1 hp
  obtain ⟨x, -, hx⟩ := mem_filterMap.1 hp
  exact ⟨by simpa using hoff, x, hx⟩

theorem exists_of_isAncestor (h : t.isAncestor tip node = true) :
    ∃ a ∈ lineage t.mem tip, t.hash a = t.hash node ∧ a ≠ tip := by
  unfold isAncestor at h
  split at h
  · cases h
  next a ha =>
    obtain ⟨hheight, hequals⟩ := of_decide_eq_true h
    refine ⟨a, mem_of_find?_eq_some ha, hequals.1, ?_⟩
    rintro rfl
    exact hheight rfl

/-- The best tip is unmarked and has the most work of the unmarked tips. -/
theorem bestTip_spec (tips : List Ptr) : (∀ b, t.bestTip tips = some b → b ∈ tips ∧ t.marked b = false) ∧
      ∀ p ∈ tips, t.marked p = false → ∃ b, t.bestTip tips = some b ∧ t.work p ≤ t.work b := by
  induction tips using reverseRecOn with
  | nil => exact ⟨nofun, nofun⟩
  | append_singleton tips q ih =>
    obtain ⟨hmem, hmax⟩ := ih
    rw [bestTip, foldl_append, ← bestTip]
    simp only [foldl_cons, mem_append, mem_singleton]
    split
    next hq =>
      refine ⟨fun b hb => ⟨.inl (hmem b hb).1, (hmem b hb).2⟩, ?_⟩
      rintro p (hp | rfl) hun
      · exact hmax p hp hun
      · exact absurd hq (by simp [hun])
    next hq =>
      have hq : t.marked q = false := by simpa using hq
      split
      next hnone =>
        refine ⟨?_, ?_⟩
        · rintro b ⟨⟩
          exact ⟨.inr rfl, hq⟩
        · rintro p (hp | rfl) hun
          · obtain ⟨b, hb, -⟩ := hmax p hp hun
            exact absurd hb (by simp [hnone])
          · exact ⟨p, rfl, le_refl _⟩
      next c hc =>
        split
        next hlt =>
          refine ⟨?_, ?_⟩
          · rintro b ⟨⟩
            exact ⟨.inr rfl, hq⟩
          · rintro p (hp | rfl) hun
            · obtain ⟨b, hb, hle⟩ := hmax p hp hun
              cases hc.symm.trans hb
              exact ⟨q, rfl, hle.trans hlt.le⟩
            · exact ⟨p, rfl, le_refl _⟩
        next hge =>
          refine ⟨fun b hb => ⟨.inl (hmem b hb).1, (hmem b hb).2⟩, ?_⟩
          rintro p (hp | rfl) hun
          · exact hmax p hp hun
          · exact ⟨c, hc, Nat.le_of_not_lt hge⟩

theorem marked_putStatus {p q : Ptr} {s : BlockStatus} (hq : t.marked q = true)
    (hs : (t.status p).knownInvalid = true → s.knownInvalid = true) : (t.putStatus p s).marked q = true := by
  by_cases hqp : q = p
  · rw [hqp] at hq ⊢
    simpa [putStatus, marked, status] using hs hq
  · simpa [putStatus, marked, status, Function.update_of_ne hqp] using hq

theorem marked_invalidate {p q : Ptr} {flags : BlockStatus} (hq : t.marked q = true) :
    ((t.setStatusFlags p flags).unsetStatusFlags p { valid := true }).marked q = true := by
  apply marked_putStatus
  · refine marked_putStatus hq fun h => ?_
    simp only [BlockStatus.set, BlockStatus.knownInvalid, Bool.or_eq_true] at h ⊢
    exact h.imp .inl .inl
  · simp [BlockStatus.unset, BlockStatus.knownInvalid]

theorem marked_foldl {q : Ptr} (ps : List Ptr) (t : Tree) (hq : t.marked q = true) :
    (ps.foldl invalidateDescendant t).marked q = true := by
  induction ps generalizing t with
  | nil => exact hq
  | cons p ps ih =>
    refine ih _ ?_
    unfold invalidateDescendant
    split
    · exact hq
    · exact marked_invalidate hq

/-- The nodes above the block, on a branch through a node with its hash. -/
def above (t : Tree) (node p : Ptr) : Prop :=
  ∃ tip < t.fresh, (∃ a ∈ lineage t.mem tip, t.hash a = t.hash node) ∧
    p ∈ (lineage t.mem tip).takeWhile (· ≠ node)

theorem above_shape {u : Tree} (h : Shape t u) : u.above node p → t.above node p := by
  rintro ⟨tip, htip, ⟨a, ha, hhash⟩, hp⟩
  rw [h.lineage] at ha hp
  rw [h.hash, h.hash] at hhash
  exact ⟨tip, h.fresh ▸ htip, ⟨a, ha, hhash⟩, hp⟩

variable (node : Ptr)

theorem invalidateBranch_relabel (htip : tip < t.fresh) :
    Relabel (t.above node) t (t.invalidateBranch node tip) ∧ (t.invalidateBranch node tip).best = t.best := by
  unfold invalidateBranch
  split
  next h =>
    obtain ⟨a, ha, hhash, -⟩ := exists_of_isAncestor h
    refine ⟨(Relabel.foldl Relabel.invalidateDescendant _ t).mono fun p hp => ⟨tip, htip, ⟨a, ha, hhash⟩, hp⟩,
      ?_⟩
    exact best_foldl (fun t p => best_invalidateDescendant (t := t) p) _ t
  · exact ⟨Relabel.refl t, rfl⟩

theorem invalidateBranches_relabel {tips : List Ptr} (htips : ∀ tip ∈ tips, tip < t.fresh) :
    Relabel (t.above node) t (tips.foldl (fun t tip => t.invalidateBranch node tip) t) ∧
      (tips.foldl (fun t tip => t.invalidateBranch node tip) t).best = t.best := by
  induction tips generalizing t with
  | nil => exact ⟨Relabel.refl t, rfl⟩
  | cons tip tips ih =>
    obtain ⟨hone, hbest⟩ := invalidateBranch_relabel node (htips tip mem_cons_self)
    obtain ⟨hrest, hbest'⟩ := @ih (t.invalidateBranch node tip)
      fun q hq => hone.fresh.symm ▸ htips q (mem_cons_of_mem tip hq)
    exact ⟨hone.trans (hrest.mono fun p => above_shape hone.toShape), hbest'.trans hbest⟩

theorem reconsiderTips_clears (tips : List Ptr) (s : Tree × Option Ptr) :
    Clears s.1 (tips.foldl (reconsiderTip node) s).1 ∧ (tips.foldl (reconsiderTip node) s).1.best = s.1.best ∧
      ∀ tip, (tips.foldl (reconsiderTip node) s).2 = some tip →
        s.2 = some tip ∨ tip ∈ tips ∧ (tip = node ∨ ∃ a ∈ lineage s.1.mem tip, s.1.hash a = s.1.hash node) := by
  induction tips generalizing s with
  | nil => exact ⟨Relabel.refl _, rfl, fun _ => .inl⟩
  | cons q tips ih =>
    have hone : Clears s.1 (reconsiderTip node s q).1 ∧ (reconsiderTip node s q).1.best = s.1.best ∧
        ∀ tip, (reconsiderTip node s q).2 = some tip →
          s.2 = some tip ∨ tip = q ∧ (tip = node ∨ ∃ a ∈ lineage s.1.mem tip, s.1.hash a = s.1.hash node) := by
      unfold reconsiderTip
      split
      next h =>
        obtain ⟨a, ha, hhash, -⟩ := exists_of_isAncestor h
        refine ⟨Relabel.foldl_clears (fun t p => Relabel.unsetStatusFlags p _) _ s.1, ?_, ?_⟩
        · exact best_foldl (fun t p => best_unsetStatusFlags (t := t) p _) _ s.1
        · rintro tip ⟨⟩
          exact .inr ⟨rfl, .inr ⟨a, ha, hhash⟩⟩
      split
      next h =>
        refine ⟨Relabel.refl _, rfl, ?_⟩
        rintro tip ⟨⟩
        exact .inr ⟨h.symm, .inl rfl⟩
      · exact ⟨Relabel.refl _, rfl, fun _ => .inl⟩
    obtain ⟨hc, hb, htip⟩ := hone
    obtain ⟨hc', hb', htip'⟩ := ih (reconsiderTip node s q)
    refine ⟨hc.trans hc', hb'.trans hb, fun tip h => ?_⟩
    obtain h | ⟨hmem, h⟩ := htip' tip h
    · obtain h | ⟨heq, h⟩ := htip tip h
      · exact .inl h
      · exact .inr ⟨heq ▸ mem_cons_self, h⟩
    · refine .inr ⟨mem_cons_of_mem q hmem, h.imp_right ?_⟩
      rintro ⟨a, ha, hhash⟩
      rw [hc.lineage] at ha
      rw [hc.hash, hc.hash] at hhash
      exact ⟨a, ha, hhash⟩

end Tree

namespace Sound

variable {params : ChainParams} {env : Env} {t u : Tree} {node : Ptr}

theorem lt_of_mem_inactiveTips (h : Sound t) {p : Ptr} (hp : p ∈ t.inactiveTips env) : p < t.fresh := by
  obtain ⟨-, x, hx⟩ := Tree.mem_of_inactiveTips hp
  exact (h.index x p hx).1

theorem lt_of_mem_tips (h : Sound t) {p : Ptr} (hp : p ∈ t.inactiveTips env ++ [t.best]) : p < t.fresh :=
  forall_mem_append.2 ⟨fun _ => h.lt_of_mem_inactiveTips, forall_mem_singleton.2 h.best⟩ p hp

theorem activateBestTip (h : Sound t) : Moves t (t.activateBestTip env).1 := by
  unfold Tree.activateBestTip
  split
  · exact ⟨Relabel.refl t, h.best⟩
  next tip htip =>
    split
    · exact ⟨Relabel.refl t, h.best⟩
    · exact h.turned (h.lt_of_mem_tips ((Tree.bestTip_spec _).1 tip htip).1) (h.reorganizeTo tip)

/-- What `InvalidateBlock` does: nothing, or it marks the block and what is above it off the best chain, or it marks them
and disconnects them, and then may turn to another tip. -/
inductive Invalidated (env : Env) (t : Tree) (hash : Hash) (u : Tree) : Prop
  | nothing (same : u = t)
  | side {node : Ptr} (found : t.lookupNode hash = some node) (off : node ∉ t.bestChain)
      (relabel : Relabel (fun p => p = node ∨ t.above node p) t u) (best : u.best = t.best)
  | active {node : Ptr} {above : List Ptr} {w : Tree} (found : t.lookupNode hash = some node)
      (height : (t.mem node).height ≠ 0) (detach : ∀ d ∈ above ++ [node], d ∈ t.bestChain)
      (all : Clean t → above = t.bestChain.takeWhile (· ≠ node)) (relabel : Relabel (· ∈ above ++ [node]) t w)
      (best : w.best = t.best) (marks : ∀ q, t.marked q = true → w.marked q = true)
      (ends : u = (w.reorganizeChain env (above ++ [node]) []).1 ∧
        (w.reorganizeChain env (above ++ [node]) []).2 = false ∨
        u = ((w.reorganizeChain env (above ++ [node]) []).1.flushToDB.activateBestTip env).1 ∧
          (w.reorganizeChain env (above ++ [node]) []).2 = true)

theorem invalidated (h : Sound t) (hash : Hash) : Invalidated env t hash (t.invalidateBlock env hash).1 := by
  unfold Tree.invalidateBlock
  split
  · exact .nothing rfl
  next node hnode =>
    split
    · exact .nothing rfl
    next hheight =>
    split
    · exact .nothing rfl
    have hmark : Relabel (· = node) t
        ((t.setStatusFlags node { validateFailed := true }).unsetStatusFlags node { valid := true }) :=
      (Relabel.setInvalid node _).trans (Relabel.of_clears (Relabel.unsetStatusFlags node _))
    have hmbest : ((t.setStatusFlags node { validateFailed := true }).unsetStatusFlags node { valid := true }).best =
      t.best := rfl
    have hkeep := fun q => @Tree.marked_invalidate t node q { validateFailed := true }
    revert hmark hmbest hkeep
    dsimp only
    generalize (t.setStatusFlags node { validateFailed := true }).unsetStatusFlags node { valid := true } = m
    intro hmark hmbest hkeep
    have hsound := h.relabel_best hmark hmbest
    have hchain : m.bestChain = t.bestChain := by rw [Tree.bestChain, hmbest, hmark.lineage, Tree.bestChain]
    split
    next hoff =>
      obtain ⟨hrel, hbest⟩ := Tree.invalidateBranches_relabel node fun tip => @lt_of_mem_inactiveTips env m hsound tip
      have hrel : Relabel (fun p => p = node ∨ t.above node p) t _ :=
        (hmark.mono fun p => .inl).trans (hrel.mono fun p hp => .inr (Tree.above_shape hmark.toShape hp))
      split
      · exact .side hnode hoff hrel (hbest.trans hmbest)
      · exact .side hnode hoff (hrel.trans (Relabel.of_clears Relabel.flushToDB))
          (Tree.best_flushToDB.trans (hbest.trans hmbest))
    next hon =>
      have hon := not_not.1 hon
      generalize habove : (m.bestChain.takeWhile (· ≠ node)).filter (fun p => !m.marked p) = above
      have hall : Clean t → above = t.bestChain.takeWhile (· ≠ node) := by
        intro hc
        rw [← habove, hchain]
        refine filter_eq_self.2 fun p hp => ?_
        have hne : p ≠ node := by simpa using mem_takeWhile_imp hp
        simpa using hmark.unmarked (hc p ((takeWhile_sublist _).subset hp)) hne
      have hdetach : ∀ d ∈ above ++ [node], d ∈ t.bestChain := by
        refine forall_mem_append.2 ⟨fun d hd => ?_, forall_mem_singleton.2 hon⟩
        rw [← habove, hchain] at hd
        exact (takeWhile_sublist _).subset (mem_filter.1 hd).1
      have hrel : Relabel (· ∈ above ++ [node]) t (above.foldl Tree.invalidateDescendant m) := by
        refine (hmark.mono fun p hp => mem_append_right _ (mem_singleton.2 hp)).trans ?_
        exact (Relabel.foldl Relabel.invalidateDescendant above m).mono fun p => mem_append_left _
      have hbest : (above.foldl Tree.invalidateDescendant m).best = t.best :=
        (Tree.best_foldl (fun t p => Tree.best_invalidateDescendant (t := t) p) above m).trans hmbest
      have hmarks := fun q hq => Tree.marked_foldl above m (hkeep q hq)
      split
      next v heq => exact .active hnode hheight hdetach hall hrel hbest hmarks (.inl (by rw [heq]; exact ⟨rfl, rfl⟩))
      next v heq => exact .active hnode hheight hdetach hall hrel hbest hmarks (.inr (by rw [heq]; exact ⟨rfl, rfl⟩))

theorem disconnects (h : Sound t) {node : Ptr} {above : List Ptr} (hdetach : ∀ d ∈ above ++ [node], d ∈ t.bestChain) :
    Moves t (t.reorganizeChain env (above ++ [node]) []).1 :=
  h.reorganized (Reorganized.reorganizeChain t) (fun d hd => h.lt_of_mem_bestChain (hdetach d hd)) nofun

theorem invalidateBlock (h : Sound t) (hash : Hash) : Moves t (t.invalidateBlock env hash).1 := by
  obtain same | ⟨-, -, hrel, hbest⟩ | @⟨node, above, w, -, -, hdetach, -, hrel, hbest, -, hends⟩ :=
    @invalidated env t h hash
  · rw [same]
    exact ⟨Relabel.refl t, h.best⟩
  · exact Moves.of_relabel hrel (hbest ▸ h.best)
  have hw := h.relabel_best hrel hbest
  have hr : Moves t (w.reorganizeChain env (above ++ [node]) []).1 := by
    refine (Moves.of_relabel hrel (hbest ▸ h.best)).trans (hw.disconnects fun d hd => ?_)
    exact hrel.bestChain hbest ▸ hdetach d hd
  obtain ⟨heq, -⟩ | ⟨heq, -⟩ := hends
  · exact heq ▸ hr
  · exact heq ▸ hr.flushToDB.trans (h.moves hr.flushToDB).activateBestTip

/-- `ReconsiderBlock` drops flags, and then may turn to a tip on top of the block, or to the one it is at. -/
theorem reconsiderBlock_cases (h : Sound t) (hash : Hash) :
    Clears t (t.reconsiderBlock env hash).1 ∧ (t.reconsiderBlock env hash).1.best = t.best ∨
      ∃ m tip, Clears t m ∧ m.best = t.best ∧
        (tip = t.best ∨ ∃ x, t.lookupNode x = some tip ∧ ∃ a ∈ lineage t.mem tip, t.hash a = hash) ∧
        Turned m tip (t.reconsiderBlock env hash).1 := by
  unfold Tree.reconsiderBlock
  split
  · exact .inl ⟨Relabel.refl t, rfl⟩
  next node hnode =>
    obtain ⟨hn, rfl⟩ := h.index _ _ hnode
    split
    · exact .inl ⟨Relabel.refl t, rfl⟩
    have hclear : Clears t ((t.unsetStatusFlags node { invalidAncestor := true }).unsetStatusFlags node
        { validateFailed := true }) := (Relabel.unsetStatusFlags node _).trans (Relabel.unsetStatusFlags node _)
    have hbest : ((t.unsetStatusFlags node { invalidAncestor := true }).unsetStatusFlags node
        { validateFailed := true }).best = t.best := rfl
    revert hclear hbest
    dsimp only
    generalize (t.unsetStatusFlags node { invalidAncestor := true }).unsetStatusFlags node { validateFailed := true } = m
    intro hclear hbest
    obtain ⟨hc, hb, htip⟩ := Tree.reconsiderTips_clears node (m.inactiveTips env ++ [m.best]) (m, none)
    have hc := hclear.trans hc
    have hb := hb.trans hbest
    split
    next u heq =>
      rw [heq] at hc hb
      exact .inl ⟨hc, hb⟩
    next u tip heq =>
      rw [heq] at hc hb htip
      obtain ⟨hmem, hon⟩ := (htip tip rfl).resolve_left nofun
      have hu : Sound u := h.relabel_best hc hb
      refine .inr ⟨u, tip, hc, hb, ?_, Turned.reconsiderBranch hu.linked hu.best tip⟩
      obtain hmem | hmem := mem_append.1 hmem
      · obtain ⟨-, x, hx⟩ := Tree.mem_of_inactiveTips hmem
        rw [hclear.lookupNode] at hx
        refine .inr ⟨x, hx, ?_⟩
        obtain rfl | ⟨a, ha, hah⟩ := hon
        · exact ⟨tip, h.linked.self_mem hn, rfl⟩
        · rw [hclear.lineage] at ha
          rw [hclear.hash, hclear.hash] at hah
          exact ⟨a, ha, hah⟩
      · exact .inl ((mem_singleton.1 hmem).trans hbest)

theorem lt_of_tip (h : Sound t) {tip : Ptr} {hash : Hash}
    (htip : tip = t.best ∨ ∃ x, t.lookupNode x = some tip ∧ ∃ a ∈ lineage t.mem tip, t.hash a = hash) :
    tip < t.fresh := by
  obtain rfl | ⟨x, hx, -⟩ := htip
  · exact h.best
  · exact (h.index x tip hx).1

theorem reconsiderBlock (h : Sound t) (hash : Hash) : Moves t (t.reconsiderBlock env hash).1 := by
  obtain ⟨hc, hb⟩ | ⟨m, tip, hc, hb, htip, hturned⟩ := @reconsiderBlock_cases env t h hash
  · exact Moves.of_relabel hc (hb ▸ h.best)
  · exact (Moves.of_relabel hc (hb ▸ h.best)).trans
      ((h.relabel_best hc hb).turned (hc.fresh.symm ▸ h.lt_of_tip htip) hturned)

theorem lookup_of_erase {index : AList fun _ : Hash => Ptr} {x y : Hash} {p : Ptr}
    (h : (index.erase y).lookup x = some p) : index.lookup x = some p := by
  by_cases hx : x = y
  · rw [hx, AList.lookup_erase] at h
    cases h
  · rwa [AList.lookup_erase_ne hx] at h

theorem removeDisconnected (h : Sound t) (p : Ptr) : Sound (t.removeDisconnected p) :=
  h.restrict ⟨fun _ => rfl, rfl, rfl⟩ (fun _ _ hq => lookup_of_erase hq) h.best h.header

theorem removeAll (h : Sound t) (ps : List Ptr) :
    Sound (ps.foldl Tree.removeDisconnected t) ∧ (ps.foldl Tree.removeDisconnected t).mem = t.mem ∧
      (ps.foldl Tree.removeDisconnected t).fresh = t.fresh ∧ (ps.foldl Tree.removeDisconnected t).best = t.best ∧
      (ps.foldl Tree.removeDisconnected t).header = t.header := by
  induction ps generalizing t with
  | nil => exact ⟨h, rfl, rfl, rfl, rfl⟩
  | cons p ps ih => exact ih (h.removeDisconnected p)

/-- The blocks above the rollback point leave the best chain, and perhaps the index. -/
theorem detachAbove (h : Sound t) {detach : List Ptr} (hd : ∀ d ∈ detach, d < t.fresh) :
    Sound (t.detachAbove env detach).1 ∧ (t.detachAbove env detach).1.fresh = t.fresh := by
  unfold Tree.detachAbove
  split
  · exact ⟨h, rfl⟩
  have hr := h.reorganized (@Reorganized.reorganizeChain env detach [] t) hd nofun
  split
  next u heq =>
    rw [heq] at hr
    exact ⟨h.moves hr, hr.fresh⟩
  next u heq =>
    rw [heq] at hr
    split
    · exact ⟨h.moves hr, hr.fresh⟩
    · obtain ⟨hu, -, hfresh, -⟩ := (h.moves hr).removeAll detach
      exact ⟨hu.flushToDB, (fresh_flushToDB _).trans (hfresh.trans hr.fresh)⟩

theorem mem_of_nodeByHeight {rollbackHeight : Int} (h : t.nodeByHeight rollbackHeight = some node) :
    node ∈ t.bestChain ∧ (t.mem node).height = rollbackHeight :=
  ⟨mem_of_find?_eq_some h, by simpa using find?_some h⟩

/-- The header view is cut and its blocks above the cut are marked. -/
theorem markAbove_relabel (t : Tree) (rollbackHeight : Int) : Relabel (fun p => rollbackHeight < (t.mem p).height) t
        ((t.headerChain.filter fun p => rollbackHeight < (t.mem p).height).foldl Tree.invalidateDescendant t) ∧
      ((t.headerChain.filter fun p => rollbackHeight < (t.mem p).height).foldl Tree.invalidateDescendant t).best =
        t.best := by
  refine ⟨(Relabel.foldl Relabel.invalidateDescendant _ t).mono fun p hp => ?_, ?_⟩
  · simpa using (mem_filter.1 hp).2
  · exact Tree.best_foldl (fun t p => Tree.best_invalidateDescendant (t := t) p) _ t

theorem invalidateHeaderChain (h : Sound t) (rollbackHeight : Int) :
    Sound (t.invalidateHeaderChain env rollbackHeight).1 := by
  unfold Tree.invalidateHeaderChain
  split
  · exact h
  next rollbackNode hnode =>
    obtain ⟨hrel, hbest⟩ := markAbove_relabel t rollbackHeight
    have hlt := h.lt_of_mem_bestChain (mem_of_nodeByHeight hnode).1
    revert hrel hbest
    dsimp only
    generalize (t.headerChain.filter fun p => rollbackHeight < (t.mem p).height).foldl Tree.invalidateDescendant t = u
    intro hrel hbest
    have hu := h.relabel_best hrel hbest
    split
    · exact hu
    have hv := hu.setHeader (hrel.fresh.symm ▸ hlt)
    have hdetach := @detachAbove env _ hv
      ({ u with header := rollbackNode }.bestChain.filter fun p => rollbackHeight < (u.mem p).height)
      fun d hd => hv.lt_of_mem_bestChain (mem_filter.1 hd).1
    split
    next w heq =>
      rw [heq] at hdetach
      exact hdetach.1
    next w heq =>
      rw [heq] at hdetach
      have hw := hdetach.1.setBest (hdetach.2.symm ▸ hrel.fresh.symm ▸ hlt)
      split
      · exact hw
      · exact hw.flushToDB

theorem removeBlockData (h : Sound t) (hash : Hash) : Sound (t.removeBlockData env hash).1 :=
  removeBlockData_keeps h (h.shape ⟨fun _ => rfl, rfl, rfl⟩ h.best h.header) relabel_best

theorem lookup_of_eraseAll {xs : List Hash} {index : AList fun _ : Hash => Ptr} {x : Hash} {p : Ptr}
    (h : (xs.foldl (fun i hash => i.erase hash) index).lookup x = some p) : index.lookup x = some p := by
  induction xs generalizing index with
  | nil => exact h
  | cons y xs ih => exact lookup_of_erase (ih h)

theorem load (h : Sound t) (snapshot : Option Nat) : Sound (t.load snapshot) := by
  refine ⟨⟨h.linked.parent, h.linked.parentHash, fun p hp q hq => ?_, h.linked.root, h.linked.height⟩, h.best,
    h.header, fun x p hp => h.index x p (lookup_of_eraseAll hp)⟩
  -- a node is loaded with the work of its parent and its own
  change t.loadedWork q snapshot ≤ t.loadedWork p snapshot
  obtain ⟨l, hl⟩ : ∃ l, lineage t.mem q = q :: l :=
    head?_eq_some_iff.1 (h.linked.head?_lineage (h.linked.parent p hp q hq).1)
  unfold Tree.loadedWork
  rw [h.linked.lineage_some hp hq, hl]
  cases snapshot <;> simp

/-- Marking the blocks of the best chain as valid. -/
theorem markValid_clears (ps : List Ptr) (t : Tree) :
    Clears t (ps.foldl (fun t p => if (t.status p).valid then t else t.setStatusFlags p { valid := true }) t) ∧
      (ps.foldl (fun t p => if (t.status p).valid then t else t.setStatusFlags p { valid := true }) t).best = t.best := by
  refine ⟨Relabel.foldl_clears (fun t p => ?_) ps t, Tree.best_foldl (fun t p => ?_) ps t⟩
  · split
    · exact Relabel.refl t
    · exact Relabel.setStatusFlags p rfl
  · split <;> rfl

theorem restart (h : Sound t) (snapshot : Option Nat) : Sound (t.restart snapshot) := by
  have hload := h.load snapshot
  refine (hload.setHeader ?_).relabel_best (markValid_clears _ _).1 (markValid_clears _ _).2
  cases hl : (t.load snapshot).lookupNode (t.load snapshot).savedHeader with
  | none => exact h.best
  | some p => exact (hload.index _ p hl).1

theorem call (h : Sound t) (c : Call) : Sound (t.call params c).1 := by
  cases c with
  | processBlock env header accepts fastAdd => exact h.processBlock accepts fastAdd
  | releaseOrphan env header accepts fastAdd => exact h.maybeAcceptBlock accepts fastAdd
  | resumeBlockConnect env header accepts fastAdd => exact h.resumeBlockConnect accepts fastAdd
  | processBlockHeader header accepts flushDue => exact h.processBlockHeader accepts flushDue
  | invalidateBlock env hash => exact h.moves (h.invalidateBlock hash)
  | reconsiderBlock env hash => exact h.moves (h.reconsiderBlock hash)
  | invalidateHeaderChain env rollbackHeight => exact h.invalidateHeaderChain rollbackHeight
  | removeBlockData env hash => exact h.removeBlockData hash
  | purgeUtxosAboveHeight height => exact h
  | restart snapshot => exact h.restart snapshot

theorem genesis (params : ChainParams) (header : BlockHeader) : Sound (Tree.genesis params header) := by
  refine ⟨⟨nofun, nofun, nofun, fun _ _ _ => rfl, fun _ _ => le_refl _⟩, Nat.one_pos, Nat.one_pos, fun x p hp => ?_⟩
  have hp : (AList.insert (params.blockHash header) 0 ∅ : AList fun _ : Hash => Ptr).lookup x = some p := hp
  by_cases hx : x = params.blockHash header
  · rw [hx, AList.lookup_insert] at hp
    cases hp
    exact ⟨Nat.one_pos, hx.symm⟩
  · rw [AList.lookup_insert_ne hx] at hp
    cases hp

theorem run_keeps {I : Tree → Prop} {ok : Tree → Call → Prop} {calls : List Call} (h : Sound t) (hI : I t)
    (hcall : ∀ {t c}, I t → Sound t → ok t c → I (t.call params c).1) (hok : Along (Tree.step params) ok t calls)
    (hr : run (Tree.step params) t calls = some u) : Sound u ∧ I u := by
  refine run_invariant (I := fun t => Sound t ∧ I t) ?_ ⟨h, hI⟩ hok hr
  rintro s c u ⟨hs, hi⟩ hc hstep
  obtain rfl := Tree.step_eq hstep
  exact ⟨hs.call c, hcall hi hs hc⟩

end Sound

/-- In every run, whatever fails in it, the branch of a tip or of an indexed block leads to a block of height zero, each
block one above the next, naming it by its hash and with no less work. -/
theorem branches_unbroken {params : ChainParams} {header : BlockHeader} {calls : List Call} {t : Tree}
    (hr : run (Tree.step params) (Tree.genesis params header) calls = some t) (p : Ptr)
    (hp : p = t.best ∨ p = t.header ∨ ∃ x, t.lookupNode x = some p) :
    (lineage t.mem p).IsChain (fun a b => (t.mem a).height = (t.mem b).height + 1 ∧ (t.mem a).parentHash = t.hash b ∧
      t.work b ≤ t.work a) ∧ ∃ g ∈ (lineage t.mem p).getLast?, (t.mem g).height = 0 := by
  have h : Sound t := (Sound.run_keeps (I := fun _ => True) (Sound.genesis _ _) trivial (fun _ _ _ => trivial)
    (along_of_forall (fun _ _ => trivial) _ _) hr).1
  have hlt : p < t.fresh := by
    rcases hp with rfl | rfl | ⟨x, hx⟩
    exacts [h.best, h.header, (h.index x p hx).1]
  clear hp
  revert p
  refine h.linked.induct (fun p hp hroot => ?_) (fun p hp q hq hparent ih => ?_)
  · rw [h.linked.lineage_none hp hroot]
    exact ⟨.singleton p, p, rfl, h.linked.root p hp hroot⟩
  · rw [h.linked.lineage_some hp hparent]
    obtain ⟨hchain, g, hg, hzero⟩ := ih
    refine ⟨hchain.cons fun b hb => ?_, g, ?_, hzero⟩
    · obtain rfl := Option.mem_unique (h.linked.head?_lineage hq) hb
      exact ⟨(h.linked.parent p hp _ hparent).2, h.linked.parentHash p hp _ hparent, h.linked.work p hp _ hparent⟩
    · rw [Option.mem_def, getLast?_cons, Option.mem_def.1 hg]
      rfl

theorem branches_unbroken_second : ∃ t,
    run (Tree.step byNonce) Tree.firstBlock [.processBlock {} (numbered 1 2) true false] =
    some t ∧ ∃ g ∈ t.bestChain.getLast?, (t.mem g).height = 0 :=
  exists_run rfl fun _ hr => (branches_unbroken hr _ (.inl rfl)).2

end IniNode.Forks
