import IniNode.Forks.Manual
/-!
# Disconnecting blocks

A rollback of the best chain ends at the rollback point when the blocks above it can be read and disconnected.
-/

open List Option

namespace IniNode.Forks

/-- The blocks of the best chain down to the height can be read, and those above it disconnected. -/
def Detachable (env : Env) (t : Tree) (height : Int) : Prop :=
  ∀ a ∈ t.bestChain, height ≤ (t.mem a).height →
    t.loads env a = true ∧ (height < (t.mem a).height → env.disconnects (t.hash a) = true)
deriving Decidable

theorem Detachable.relabel {env : Env} {S : Ptr → Prop} {t u : Tree} {height : Int} (h : Detachable env t height)
    (hr : Relabel S t u) (hbest : u.best = t.best) : Detachable env u height := by
  intro a ha hle
  rw [hr.bestChain hbest] at ha
  rw [hr.height] at hle ⊢
  rw [Tree.loads, hr.hash, hr.bodies]
  exact h a ha hle

/-- The block of the node can be disconnected: its parent can be read and the transaction commits. -/
def Tree.Detaches (env : Env) (t : Tree) (p : Ptr) : Prop :=
  env.disconnects (t.hash p) = true ∧ ∀ q ∈ (t.mem p).parent, t.loads env q = true
deriving Decidable

/-- The blocks of the best chain above one of them. -/
def Tree.cutAt (t : Tree) (p : Ptr) : List Ptr := t.bestChain.takeWhile (· ≠ p)

namespace Sound

variable {env : Env} {t : Tree} {rollbackNode : Ptr}

/-- Disconnecting block after block from a node: it stays on the node's chain, and gets to the rollback point if every
block can be disconnected. -/
theorem detachAll_spec (h : Sound t) : ∀ p < t.fresh, rollbackNode ∈ lineage t.mem p → ∀ {u r}, Clears t u →
    u.best = p →
    Tree.detachAll env ((lineage t.mem p).takeWhile (· ≠ rollbackNode)) u = r → r.1.best ∈ lineage t.mem p ∧
      (r.2 = true ↔ ∀ a ∈ (lineage t.mem p).takeWhile (· ≠ rollbackNode), t.Detaches env a) ∧
      (r.2 = true → r.1.best = rollbackNode) := by
  refine h.linked.induct ?_ ?_
  · rintro p hp hnone hroll u _ - hbest rfl
    rw [h.linked.lineage_none hp hnone] at hroll ⊢
    obtain rfl := mem_singleton.1 hroll
    rw [takeWhile_cons_of_neg (by simp)]
    exact ⟨mem_singleton.2 hbest, ⟨nofun, fun _ => rfl⟩, fun _ => hbest⟩
  · rintro p hp q hq hparent ih hroll u _ hu hbest rfl
    rw [h.linked.lineage_some hp hparent] at hroll ⊢
    by_cases hpr : p = rollbackNode
    · rw [takeWhile_cons_of_neg (by simpa using hpr)]
      exact ⟨hbest ▸ mem_cons_self, ⟨nofun, fun _ => rfl⟩, fun _ => hbest.trans hpr⟩
    · have hroll : rollbackNode ∈ lineage t.mem q := (mem_cons.1 hroll).resolve_left (Ne.symm hpr)
      have hload : u.loads env q = t.loads env q := by rw [Tree.loads, hu.hash, hu.bodies, Tree.loads]
      rw [takeWhile_cons_of_pos (by simpa using hpr), Tree.detachAll, hu.parent, hparent]
      simp only [hbest, ne_eq, hload, hu.hash, forall_mem_cons]
      have hdetaches : t.Detaches env p ↔ env.disconnects (t.hash p) = true ∧ t.loads env q = true := by
        rw [Tree.Detaches, hparent]
        simp
      rw [hdetaches]
      cases hl : t.loads env q with
      | false => simp [hbest]
      | true =>
        cases hd : env.disconnects (t.hash p) with
        | false => simp [hbest]
        | true =>
          obtain ⟨hmem, hiff, hend⟩ := ih hroll (hu.trans (Relabel.setBest q)) rfl rfl
          simp only [true_and]
          exact ⟨mem_cons_of_mem p hmem, hiff, hend⟩

/-- The rollback passes the checks of a reorganization if its blocks can be read. -/
theorem verify_takeWhile (h : Sound t) :
    t.verifyReorganizationValidity env (t.cutAt rollbackNode) [] =
      (t, (t.cutAt rollbackNode).all (t.loads env)) := by
  have hmatch : t.matchesChain (t.cutAt rollbackNode) [] := by
    refine ⟨fun n hn => ?_, nofun⟩
    rw [Tree.cutAt, head?_takeWhile, Tree.bestChain, h.linked.head?_lineage h.best] at hn
    rw [some_inj.1 (eq_some_of_filter_eq_some hn)]
  unfold Tree.verifyReorganizationValidity
  split
  next hnil => rw [hnil.1, all_nil]
  next => cases (t.cutAt rollbackNode).all (t.loads env) <;> rfl

/-- A rollback of the best chain succeeds when its blocks can be disconnected. -/
theorem rollback (h : Sound t) (hdet : Detachable env t (t.mem rollbackNode).height) (hmem : rollbackNode ∈ t.bestChain) :
    (t.reorganizeChain env (t.cutAt rollbackNode) []).2 = true ∧
      (t.reorganizeChain env (t.cutAt rollbackNode) []).1.best = rollbackNode := by
  have hheight : ∀ a ∈ t.cutAt rollbackNode,
      a ∈ t.bestChain ∧ (t.mem rollbackNode).height < (t.mem a).height := by
    intro a ha
    rw [Tree.cutAt, Tree.bestChain, ← h.linked.filter_height h.best hmem, mem_filter] at ha
    exact ⟨ha.1, by simpa using ha.2⟩
  have hloads : (t.cutAt rollbackNode).all (t.loads env) = true := by
    rw [List.all_eq_true]
    intro a ha
    obtain ⟨hbest, hlt⟩ := hheight a ha
    exact (hdet a hbest hlt.le).1
  have hdetaches : ∀ a ∈ t.cutAt rollbackNode, t.Detaches env a := by
    intro a ha
    obtain ⟨hbest, hlt⟩ := hheight a ha
    refine ⟨(hdet a hbest hlt.le).2 hlt, fun q hq => ?_⟩
    have hafresh := h.lt_of_mem_bestChain hbest
    obtain ⟨-, hparent⟩ := h.linked.parent a hafresh q hq
    exact (hdet q (h.linked.subset h.best hbest (h.linked.parent_mem hafresh hq)) (by omega)).1
  rw [Tree.reorganizeChain, h.verify_takeWhile, hloads]
  dsimp only
  cases hr : Tree.detachAll env (t.cutAt rollbackNode) t with
  | mk u ok =>
    obtain ⟨-, hiff, hend⟩ := h.detachAll_spec _ h.best hmem (Relabel.refl t) rfl hr
    obtain rfl : ok = true := hiff.2 hdetaches
    exact ⟨rfl, hend rfl⟩

end Sound

/-! ## What disconnecting and invalidating keep -/

namespace Tree

variable {env : Env} {t : Tree}

theorem mem_flushToDB : t.flushToDB.mem = t.mem := by
  unfold flushToDB
  split <;> rfl

theorem mem_detachAll (ns : List Ptr) (t : Tree) : (detachAll env ns t).1.mem = t.mem := by
  induction ns generalizing t with
  | nil => rfl
  | cons n ns ih =>
    rw [detachAll]
    split
    · rfl
    split
    · rfl
    split
    · exact mem_flushToDB
    · exact (ih _).trans mem_flushToDB

theorem mem_reorganizeChain_nil (detach : List Ptr) (t : Tree) : (t.reorganizeChain env detach []).1.mem = t.mem := by
  have hverify : (t.verifyReorganizationValidity env detach []).1 = t := by
    unfold verifyReorganizationValidity
    split
    · rfl
    split
    · rfl
    split <;> rfl
  unfold reorganizeChain
  split
  next u heq =>
    rw [heq] at hverify
    exact congrArg mem hverify
  next u heq =>
    rw [heq] at hverify
    have hdetach := @mem_detachAll env detach u
    have hu : u = t := hverify
    split
    next v heq' =>
      rw [heq'] at hdetach
      exact hdetach.trans (congrArg mem hu)
    next v heq' =>
      rw [heq'] at hdetach
      exact hdetach.trans (congrArg mem hu)

theorem marked_self_invalidateDescendant (t : Tree) (p : Ptr) : (t.invalidateDescendant p).marked p = true := by
  unfold invalidateDescendant
  split
  next hp => exact hp
  next => simp [markInvalidAncestor, setStatusFlags, unsetStatusFlags, putStatus, marked, status, BlockStatus.set,
    BlockStatus.unset, BlockStatus.knownInvalid]

theorem marked_of_mem_foldl {q : Ptr} (ps : List Ptr) (t : Tree) (hq : q ∈ ps) :
    (ps.foldl invalidateDescendant t).marked q = true := by
  induction ps generalizing t with
  | nil => exact absurd hq not_mem_nil
  | cons p ps ih =>
    obtain rfl | hq := mem_cons.1 hq
    · exact marked_foldl ps _ (marked_self_invalidateDescendant t q)
    · exact ih _ hq

end Tree

/-! ## The rollback point -/

/-- The nodes have no invalid flag that they did not have; the index and the tips may differ. -/
structure Lighter (t u : Tree) : Prop where
  node : ∀ p, u.mem p = { t.mem p with status := u.status p }
  flags : ∀ p, NoWorse (u.status p) (t.status p)

namespace Lighter

variable {t u v : Tree}

theorem of_clears (h : Clears t u) : Lighter t u := ⟨h.node, h.noWorse⟩

theorem trans (h : Lighter t u) (h' : Lighter u v) : Lighter t v := by
  refine ⟨fun p => ?_, fun p => (h'.flags p).trans (h.flags p)⟩
  rw [h'.node p, h.node p]

theorem of_mem (h : u.mem = t.mem) : Lighter t u := by
  refine ⟨fun p => ?_, fun p => ?_⟩
  · rw [Tree.status, h]
  · rw [Tree.status, h]
    exact NoWorse.refl _

theorem lineage (h : Lighter t u) (p : Ptr) : lineage u.mem p = lineage t.mem p :=
  Shape.lineage (⟨h.node, rfl, rfl⟩ : Shape t { u with fresh := t.fresh, index := t.index }) p

end Lighter

namespace Sound

variable {env : Env} {t : Tree} {rollbackNode : Ptr}

theorem detachAbove_best (h : Sound t) (hdet : Detachable env t (t.mem rollbackNode).height)
    (hmem : rollbackNode ∈ t.bestChain) {detach : List Ptr}
    (hdetach : (t.bestChain.filter fun p => (t.mem rollbackNode).height < (t.mem p).height) = detach) :
    (t.detachAbove env detach).1.best = rollbackNode ∧ (t.detachAbove env detach).1.header = t.header ∧
      Lighter t (t.detachAbove env detach).1 := by
  have hcut : t.cutAt rollbackNode = detach := by
    rw [← hdetach]
    exact (h.linked.filter_height h.best hmem).symm
  unfold Tree.detachAbove
  split
  next hnil =>
    refine ⟨?_, rfl, Lighter.of_mem rfl⟩
    -- nothing lies above the rollback point, so it is the tip
    have hhead := h.linked.takeWhile_append h.best hmem
    rw [← Tree.bestChain, ← Tree.cutAt, hcut, hnil, nil_append] at hhead
    have hsome := (h.linked.head?_lineage h.best).symm.trans (congrArg head? hhead)
    rw [h.linked.head?_lineage (h.lt_of_mem_bestChain hmem)] at hsome
    exact some_inj.1 hsome
  next =>
    obtain ⟨hok, hbest⟩ := h.rollback hdet hmem
    have hr := @Reorganized.reorganizeChain env detach [] t
    have hmoves := h.reorganized hr (fun d hd => ?_) fun _ ha => absurd ha not_mem_nil
    · rw [hcut] at hok hbest
      split
      next u heq =>
        rw [heq] at hok
        cases hok
      next u heq =>
        rw [heq] at hr hbest hmoves
        have hclears : Clears t u := hr.relabel.mono fun p hp => not_mem_nil hp
        split
        · exact ⟨hbest, hclears.header, Lighter.of_clears hclears⟩
        · obtain ⟨-, hm, -, hb, hh⟩ := (h.moves hmoves).removeAll detach
          have hflush : Clears _ (detach.foldl Tree.removeDisconnected u).flushToDB := Relabel.flushToDB
          refine ⟨Tree.best_flushToDB.trans (hb.trans hbest), hflush.header.trans (hh.trans hclears.header), ?_⟩
          exact ((Lighter.of_clears hclears).trans (Lighter.of_mem hm)).trans (Lighter.of_clears hflush)
    · rw [← hcut] at hd
      exact h.lt_of_mem_bestChain ((takeWhile_sublist _).subset hd)

/-- Without the headers on disk a rollback only marks; else both tips end at the rollback point. -/
theorem invalidateHeaderChain_cases (h : Sound t) {rollbackHeight : Int}
    (hdet : env.reads = true → Detachable env t rollbackHeight) :
    (t.invalidateHeaderChain env rollbackHeight).1 = t ∨ ∃ rollbackNode ∈ t.bestChain, ∃ u,
      Relabel (fun p => (t.mem rollbackNode).height < (t.mem p).height) t u ∧ u.best = t.best ∧
      (env.reads = false ∧ (t.invalidateHeaderChain env rollbackHeight).1 = u ∨
        ∃ v, Lighter u v ∧ v.best = rollbackNode ∧ v.header = rollbackNode ∧
          ((t.invalidateHeaderChain env rollbackHeight).1 = v ∨
            (t.invalidateHeaderChain env rollbackHeight).1 = v.flushToDB)) := by
  unfold Tree.invalidateHeaderChain
  split
  · exact .inl rfl
  next rollbackNode hnode =>
    obtain ⟨hmem, rfl⟩ := mem_of_nodeByHeight hnode
    obtain ⟨hrel, hbest⟩ := markAbove_relabel t (t.mem rollbackNode).height
    refine .inr ⟨rollbackNode, hmem, _, hrel, hbest, ?_⟩
    revert hrel hbest
    dsimp only
    generalize (t.headerChain.filter fun p => (t.mem rollbackNode).height < (t.mem p).height).foldl
      Tree.invalidateDescendant t = u
    intro hrel hbest
    split
    next hreads => exact .inl ⟨by simpa using hreads, rfl⟩
    next hreads =>
      have hu : Sound { u with header := rollbackNode } :=
        (h.relabel_best hrel hbest).setHeader (hrel.fresh.symm ▸ h.lt_of_mem_bestChain hmem)
      have hchain := hrel.bestChain hbest
      have hudet : Detachable env u (u.mem rollbackNode).height := by
        rw [hrel.height]
        exact (hdet (by simpa using hreads)).relabel hrel hbest
      obtain ⟨hcut, hheader, hlight⟩ := @detachAbove_best env { u with header := rollbackNode } rollbackNode hu hudet
        (hchain ▸ hmem)
        ({ u with header := rollbackNode }.bestChain.filter fun p => (t.mem rollbackNode).height < (u.mem p).height)
        (by rw [hrel.height])
      split
      next w heq =>
        rw [heq] at hcut hheader hlight
        exact .inr ⟨w, ⟨hlight.node, hlight.flags⟩, hcut, hheader, .inl rfl⟩
      next w heq =>
        rw [heq] at hheader hlight
        refine .inr ⟨{ w with best := rollbackNode }, ⟨hlight.node, hlight.flags⟩, rfl, hheader, ?_⟩
        split
        · exact .inl rfl
        · exact .inr rfl

end Sound

end IniNode.Forks
