import IniNode.Forks.Detach
/-!
# Invalid marks on the best chain

When a connect fails, its block is marked as failed; when the same block is connected later, only the other invalid flag is
cleared. A rollback marks blocks before it has disconnected them, and a block whose node was replaced is connected by its
parent's hash. Calls that avoid this keep the best chain free of marks.
-/

open List

namespace IniNode.Forks

open Lib

variable {params : ChainParams} {env : Env} {S : Ptr → Prop} {header : BlockHeader} {t u : Tree} {node : Ptr}

namespace Clean

variable {detach attach : List Ptr}

theorem relabel (hc : Clean t) (hr : Relabel S t u) (hbest : u.best = t.best) (hS : ∀ p, S p → p ∉ t.bestChain) :
    Clean u := by
  intro p hp
  rw [hr.bestChain hbest] at hp
  exact hr.unmarked (hc p hp) fun h => hS p h hp

theorem clears (hc : Clean t) (hr : Clears t u) (hbest : u.best = t.best) : Clean u := hc.relabel hr hbest nofun

theorem grows (hc : Clean t) (h : Sound t) (hg : Grows t u) : Clean u := by
  intro p hp
  rw [hg.bestChain h] at hp
  exact (hg.flags p (h.lt_of_mem_bestChain hp)).unmarked (hc p hp)

/-- The tip moves to a node with no mark down to genesis. -/
theorem move (hr : Clears t u) (hbest : ∀ p ∈ lineage t.mem u.best, t.marked p = false) : Clean u := by
  intro p hp
  rw [Tree.bestChain, hr.lineage] at hp
  exact hr.unmarked (hbest p hp) id

theorem reorganized (hc : Clean t) (h : Sound t) (hr : Reorganized detach attach t u)
    (hd : ∀ d ∈ detach, d ∈ t.bestChain)
    (ha : ∀ a ∈ attach, a ∉ t.bestChain ∧ ∀ p ∈ lineage t.mem a, t.marked p = false) : Clean u := by
  obtain hbest | ⟨hclears, hbest | ⟨d, hdd, hbest⟩⟩ := hr.moved
  · exact hc.relabel hr.relabel hbest fun p hp => (ha p hp).1
  · exact move hclears (ha _ hbest).2
  · -- the parent of a detached node is on the best chain as well
    have hlt := h.lt_of_mem_bestChain (hd d hdd)
    have hmem := h.linked.parent_mem hlt hbest
    exact move hclears fun p hp => hc p (h.linked.subset h.best (hd d hdd) (h.linked.subset hlt hmem hp))

section

variable {fork : Ptr} (hc : Clean t) (h : Sound t) (hn : node < t.fresh) (hfork : t.findFork node = some fork)
  (hun : ∀ p ∈ (lineage t.mem node).takeWhile (· ≠ fork), t.marked p = false)

include hc h hn hfork hun

theorem unmarked_branch : ∀ p ∈ lineage t.mem node, t.marked p = false := by
  obtain ⟨hmem, hbest, -⟩ := mem_of_findFork hfork
  intro p hp
  rw [h.linked.takeWhile_append hn hmem] at hp
  obtain hp | hp := mem_append.1 hp
  · exact hun p hp
  · exact hc p (h.linked.subset h.best hbest hp)

theorem branch_of_fork {a : Ptr} (ha : a ∈ (lineage t.mem node).takeWhile (· ≠ fork)) :
    a ∉ t.bestChain ∧ ∀ p ∈ lineage t.mem a, t.marked p = false := by
  refine ⟨(mem_of_findFork hfork).2.2 a ha, fun p hp => hc.unmarked_branch h hn hfork hun p ?_⟩
  exact h.linked.subset hn ((takeWhile_sublist _).subset ha) hp

end

theorem turned (hc : Clean t) (h : Sound t) (hn : node < t.fresh) (ht : Turned t node u) : Clean u := by
  obtain ⟨hrel, hbest⟩ | ⟨hfork, hun, hr⟩ := ht
  · exact hc.relabel hrel hbest fun p hp => hp hc
  · refine hc.reorganized h hr (fun d hd => ?_) (fun a ha => ?_)
    · exact (takeWhile_sublist _).subset hd
    · exact hc.branch_of_fork h hn hfork hun (mem_reverse.1 ha)

end Clean

/-! ## Accepting blocks -/

/-- At most the node is marked on the best chain, and not because its own checks failed. -/
def AlmostClean (node : Ptr) (t : Tree) : Prop :=
  ∀ p ∈ t.bestChain, t.marked p = true → p = node ∧ (t.status p).validateFailed = false

/-- A block that extends the best chain by the hash of its tip stands on the node of the tip, has not failed its checks,
and if it has an invalid ancestor its connection does not break off after the tip has moved. -/
def Extends (env : Env) (t : Tree) (node : Ptr) : Prop :=
  (t.mem node).parentHash = t.hash t.best →
    (t.mem node).parent = some t.best ∧ (t.status node).validateFailed = false ∧
      ((t.status node).invalidAncestor = true → env.connect (t.hash node) ≠ .failedAfter)
deriving Decidable

namespace AlmostClean

theorem of_clean (hc : Clean t) : AlmostClean node t := fun p hp hm => absurd hm (by simp [hc p hp])

theorem clean (h : AlmostClean node t) (hn : (t.status node).invalidAncestor = false) : Clean t := by
  intro p hp
  cases hm : t.marked p with
  | false => rfl
  | true =>
    obtain ⟨rfl, hfailed⟩ := h p hp hm
    rw [Tree.marked, BlockStatus.knownInvalid, hfailed, hn] at hm
    cases hm

theorem extended (hc : Clean t) (h : Sound t) (hn : node < t.fresh) (he : Extended node t u)
    (hparent : (t.mem node).parent = some t.best) (hfailed : (t.status node).validateFailed = false) :
    (u.best = t.best → Clean u) ∧ AlmostClean node u := by
  have hstay : u.best = t.best → Clean u := by
    refine fun hbest => hc.relabel he.relabel hbest ?_
    rintro p rfl hp
    -- the node is one higher than the tip
    have hheight := (h.linked.parent p hn _ hparent).2
    obtain rfl | hlt := h.linked.eq_or_height_lt h.best hp <;> omega
  refine ⟨hstay, ?_⟩
  obtain hbest | ⟨hbest, hclears⟩ := he.moved
  · exact of_clean (hstay hbest)
  · intro p hp hm
    rw [Tree.bestChain, hbest, hclears.lineage, h.linked.lineage_some hn hparent] at hp
    obtain rfl | hp := mem_cons.1 hp
    · exact ⟨rfl, (hclears.noWorse p).not_validateFailed hfailed⟩
    · exact absurd hm (by simp [hclears.unmarked (hc p hp) id])

theorem connectBestChain (hc : Clean t) (h : Sound t) (hn : node < t.fresh) (hext : Extends env t node) (fastAdd : Bool) :
    ((t.connectBestChain env node fastAdd).2 = none → Clean (t.connectBestChain env node fastAdd).1) ∧
      AlmostClean node (t.connectBestChain env node fastAdd).1 := by
  unfold Tree.connectBestChain
  split
  next heq =>
    obtain ⟨hparent, hfailed, hafter⟩ := hext heq
    obtain ⟨he, herr⟩ := @Extended.extendBest env t node (fastAdd || (t.status node).valid)
    obtain ⟨hstay, halmost⟩ := extended hc h hn he hparent hfailed
    refine ⟨fun hnone => ?_, halmost⟩
    obtain hbest | ⟨-, hclears⟩ := he.moved
    · exact hstay hbest
    obtain hbest | hconnect := herr hnone
    · exact hstay hbest
    · apply halmost.clean
      apply (hclears.noWorse node).not_invalidAncestor
      simpa using mt hafter (not_not.2 hconnect)
  split
  · exact ⟨fun _ => hc, of_clean hc⟩
  split
  · exact ⟨fun _ => hc, of_clean hc⟩
  · have hu := hc.turned h hn (@Sound.reorganizeTo env t h node)
    exact ⟨fun _ => hu, of_clean hu⟩

theorem acceptedBlock (halmost : AlmostClean node t) (isMainChain : Bool) :
    Clean (t.acceptedBlock env node isMainChain).1 := by
  have hu : Clean (t.unsetStatusFlags node { invalidAncestor := true }) := by
    have hclears : Clears t (t.unsetStatusFlags node { invalidAncestor := true }) := Relabel.unsetStatusFlags node _
    have halmost' : AlmostClean node (t.unsetStatusFlags node { invalidAncestor := true }) := by
      intro p hp hm
      rw [Tree.bestChain, hclears.lineage] at hp
      obtain ⟨hpn, hfailed⟩ := halmost p hp ((hclears.marks hm).resolve_right id)
      exact ⟨hpn, (hclears.noWorse p).not_validateFailed hfailed⟩
    apply halmost'.clean
    simp [Tree.unsetStatusFlags, Tree.putStatus, Tree.status, BlockStatus.unset]
  unfold Tree.acceptedBlock
  dsimp only
  split
  · exact hu
  have hflush := hu.clears Relabel.flushToDB Tree.best_flushToDB
  split
  · exact hflush
  · exact hflush

end AlmostClean

/-- The block may be connected: its node extends the best chain, or its new node will. -/
structure Connectable (params : ChainParams) (env : Env) (t : Tree) (header : BlockHeader) : Prop where
  known : ∀ p ∈ t.lookupNode (params.blockHash header), Extends env t p
  new : t.lookupNode (params.blockHash header) = none → header.prevBlock = t.hash t.best →
    t.lookupNode header.prevBlock = some t.best

instance (params : ChainParams) (env : Env) (t : Tree) (header : BlockHeader) :
    Decidable (Connectable params env t header) :=
  decidable_of_iff (_ ∧ _) ⟨fun h => ⟨h.1, h.2⟩, fun h => ⟨h.known, h.new⟩⟩

theorem Extends.shape {env : Env} {t u : Tree} {node : Ptr} (h : Extends env t node) (hs : Shape t u)
    (hbest : u.best = t.best) (hle : NoWorse (u.status node) (t.status node)) : Extends env u node := by
  intro heq
  rw [hs.parentHash, hs.hash, hbest] at heq
  obtain ⟨hparent, hfailed, hafter⟩ := h heq
  rw [hs.parent, hs.hash, hbest]
  exact ⟨hparent, hle.not_validateFailed hfailed, fun ha => hafter (hle.invalidAncestor ha)⟩

namespace Connectable

theorem clears (h : Connectable params env t header) (hr : Clears t u) (hbest : u.best = t.best) :
    Connectable params env u header := by
  refine ⟨fun p hp => ?_, fun hnone heq => ?_⟩
  · rw [hr.lookupNode] at hp
    exact (h.known p hp).shape hr.toShape hbest (hr.noWorse p)
  · rw [hr.lookupNode] at hnone ⊢
    rw [hr.hash, hbest] at heq
    exact (h.new hnone heq).trans (congrArg some hbest.symm)

theorem storeBlock (h : Connectable params env t header) (ht : Sound t) {prev : Ptr}
    (hprev : t.lookupNode header.prevBlock = some prev) :
    Extends env (t.storeBlock params header prev).1 (t.storeBlock params header prev).2 := by
  unfold Tree.storeBlock
  dsimp only
  split
  next p hp =>
    have hset : Clears _ (Tree.setStatusFlags { t with bodies := insert (params.blockHash header) t.bodies } p
      { dataStored := true }) := Relabel.setStatusFlags p rfl
    exact (h.known p hp).shape ⟨hset.node, rfl, rfl⟩ rfl (hset.noWorse p)
  next hnone =>
    intro heq
    simp only [Tree.hash, Tree.status, Tree.addNode, Function.update_self,
      Function.update_of_ne (Nat.ne_of_lt ht.best)] at heq ⊢
    exact ⟨hprev.symm.trans (h.new hnone heq), trivial, fun hv => absurd hv Bool.false_ne_true⟩

end Connectable

namespace Clean

section

variable (hc : Clean t) (h : Sound t) (hcon : Connectable params env t header) (accepts fastAdd : Bool)

include hc h hcon accepts fastAdd

theorem maybeAcceptBlock : Clean (t.maybeAcceptBlock params env header accepts fastAdd).1 := by
  unfold Tree.maybeAcceptBlock
  split
  · exact hc
  next prev hprev =>
    split
    · exact hc
    have hstore := @Sound.storeBlock params header t h prev hprev
    have hext := hcon.storeBlock h hprev
    revert hstore hext
    generalize t.storeBlock params header prev = r
    rintro ⟨hgrows, hu, hnode⟩ hext
    have hclean := hc.grows h hgrows
    dsimp only
    split
    · exact hclean
    have hflush : Clears r.1 r.1.flushToDB := Relabel.flushToDB
    obtain ⟨hnone, halmost⟩ := @AlmostClean.connectBestChain env r.1.flushToDB r.2
      (hclean.clears hflush Tree.best_flushToDB) hu.flushToDB (hflush.fresh.symm ▸ hnode)
      (hext.shape hflush.toShape Tree.best_flushToDB (hflush.noWorse _)) fastAdd
    split
    next v heq =>
      rw [heq] at hnone
      exact hnone rfl
    next v isMainChain heq =>
      rw [heq] at halmost
      exact halmost.acceptedBlock isMainChain

theorem processBlock : Clean (t.processBlock params env header accepts fastAdd).1 :=
  Sound.processBlock_keeps (fun _ => hc.clears) fun _ hclears hbest =>
    (hc.clears hclears hbest).maybeAcceptBlock (h.relabel_best hclears hbest) (hcon.clears hclears hbest) accepts fastAdd

theorem resumeBlockConnect : Clean (t.resumeBlockConnect params env header accepts fastAdd).1 :=
  Sound.resumeBlockConnect_keeps hc (hc.maybeAcceptBlock h hcon accepts fastAdd)

end

theorem extendHeader (hc : Clean t) (node : Ptr) (flushDue : Bool) : Clean (t.extendHeader node flushDue) :=
  Sound.extendHeader_keeps hc (fun _ => hc) fun _ hu => hu.clears Relabel.flushToDB Tree.best_flushToDB

theorem processBlockHeader (hc : Clean t) (h : Sound t) (accepts flushDue : Bool) :
    Clean (t.processBlockHeader params header accepts flushDue).1 :=
  Sound.processBlockHeader_keeps (fun _ => hc.clears)
    (fun _ prev _ => (hc.grows h (Grows.addNode header prev _)).extendHeader _ flushDue)
    fun p _ _ hclears hbest => (hc.clears hclears hbest).extendHeader p flushDue

end Clean

/-! ## Leaving the best chain -/

namespace Clean

variable {v : Tree} {rollbackNode : Ptr}

theorem cut (hc : Clean t) (h : Sound t) (hmem : rollbackNode ∈ t.bestChain) (hr : Relabel S t u) (hl : Lighter u v)
    (hbest : v.best = rollbackNode) (hS : ∀ p ∈ lineage t.mem rollbackNode, ¬ S p) : Clean v := by
  intro p hp
  rw [Tree.bestChain, hbest, hl.lineage, hr.lineage] at hp
  exact (hl.flags p).unmarked (hr.unmarked (hc p (h.linked.subset h.best hmem hp)) (hS p hp))

theorem activateBestTip (hc : Clean t) (h : Sound t) : Clean (t.activateBestTip env).1 := by
  unfold Tree.activateBestTip
  split
  · exact hc
  next tip htip =>
    split
    · exact hc
    · exact hc.turned h (h.lt_of_mem_tips ((Tree.bestTip_spec _).1 tip htip).1) (h.reorganizeTo tip)

/-- No node above the block is on the best chain when the block itself is not. -/
theorem not_mem_of_above {node p : Ptr} (h : Sound t) (huniq : ∀ q < t.fresh, t.hash q = t.hash node → q = node)
    (hoff : node ∉ t.bestChain) (ha : t.above node p) : p ∉ t.bestChain := by
  obtain ⟨tip, htip, ⟨a, ha, hhash⟩, hp⟩ := ha
  obtain rfl := huniq a (h.linked.lt_of_mem htip ha) hhash
  exact fun hbest => hoff (h.linked.subset h.best hbest (h.linked.mem_of_takeWhile htip ha hp).1)

end Clean

/-- An invalidated block has one node; if it is on the best chain, the blocks down to its parent can be disconnected. -/
def Invalidatable (env : Env) (t : Tree) (hash : Hash) : Prop :=
  ∀ node ∈ t.lookupNode hash,
    if node ∈ t.bestChain then Detachable env t ((t.mem node).height - 1)
    else ∀ q < t.fresh, t.hash q = hash → q = node

instance (env : Env) (t : Tree) (hash : Hash) : Decidable (Invalidatable env t hash) :=
  inferInstanceAs (Decidable (∀ node ∈ t.lookupNode hash, ite _ _ _))

namespace Clean

/-- The blocks from the tip down to the invalidated one are marked and disconnected. -/
theorem cutActive (hc : Clean t) (h : Sound t) {node : Ptr} (hon : node ∈ t.bestChain)
    (hheight : (t.mem node).height ≠ 0)
    (hdet : Detachable env t ((t.mem node).height - 1)) {w : Tree} {above : List Ptr}
    (hall : above = t.bestChain.takeWhile (· ≠ node)) (hrel : Relabel (· ∈ above ++ [node]) t w)
    (hbest : w.best = t.best) :
    (w.reorganizeChain env (above ++ [node]) []).2 = true ∧ Clean (w.reorganizeChain env (above ++ [node]) []).1 ∧
      Sound (w.reorganizeChain env (above ++ [node]) []).1 := by
  have hn := h.lt_of_mem_bestChain hon
  obtain ⟨parent, hparent⟩ : ∃ parent, (t.mem node).parent = some parent :=
    Option.ne_none_iff_exists'.1 fun hnone => hheight (h.linked.root node hn hnone)
  obtain ⟨hpn, hpheight⟩ := h.linked.parent node hn parent hparent
  have hpmem : parent ∈ t.bestChain := h.linked.subset h.best hon (h.linked.parent_mem hn hparent)
  have hlist : above ++ [node] = t.bestChain.takeWhile (· ≠ parent) := by
    rw [hall]
    exact h.linked.takeWhile_parent h.best hon hparent
  have hchain := hrel.bestChain hbest
  rw [hlist] at hrel
  rw [hlist, ← hchain]
  have hw := h.relabel_best hrel hbest
  have hwdet : Detachable env w (w.mem parent).height := by
    rw [hrel.height, show (t.mem parent).height = (t.mem node).height - 1 by omega]
    exact hdet.relabel hrel hbest
  obtain ⟨hok, hcut⟩ := hw.rollback hwdet (hchain ▸ hpmem)
  have hr : Reorganized _ [] w _ := @Reorganized.reorganizeChain env (w.bestChain.takeWhile (· ≠ parent)) [] w
  refine ⟨hok, ?_, ?_⟩
  · refine hc.cut h hpmem hrel (Lighter.of_clears (hr.relabel.mono fun p hp => ?_)) hcut fun p hp hmark => ?_
    · exact not_mem_nil hp
    · exact h.linked.disjoint_takeWhile h.best hpmem hmark hp
  · exact hw.moves (hw.reorganized hr (fun d hd => hw.lt_of_mem_bestChain ((takeWhile_sublist _).subset hd)) nofun)

theorem invalidateBlock (hc : Clean t) (h : Sound t) {hash : Hash} (hinv : Invalidatable env t hash) :
    Clean (t.invalidateBlock env hash).1 := by
  obtain same | @⟨node, hnode, hoff, hrel, hbest⟩ |
    @⟨node, above, w, hnode, hheight, hdetach, hall, hrel, hbest, -, hends⟩ := @Sound.invalidated env t h hash
  · rw [same]
    exact hc
  · have huniq := hinv node hnode
    rw [if_neg hoff] at huniq
    refine hc.relabel hrel hbest ?_
    rintro p (rfl | habove)
    · exact hoff
    · exact not_mem_of_above h (fun q hq heq => huniq q hq (heq.trans (h.index _ _ hnode).2)) hoff habove
  · have hon := hdetach node (mem_append_right _ (mem_singleton.2 rfl))
    have hdet := hinv node hnode
    rw [if_pos hon] at hdet
    obtain ⟨hok, hclean, hsound⟩ := hc.cutActive h hon hheight hdet (hall hc) hrel hbest
    obtain ⟨-, hfail⟩ | ⟨heq, -⟩ := hends
    · cases hok.symm.trans hfail
    · rw [heq]
      exact (hclean.clears Relabel.flushToDB Tree.best_flushToDB).activateBestTip hsound.flushToDB

theorem invalidateHeaderChain (hc : Clean t) (h : Sound t) {rollbackHeight : Int} (hreads : env.reads = true)
    (hdet : Detachable env t rollbackHeight) : Clean (t.invalidateHeaderChain env rollbackHeight).1 := by
  obtain heq | ⟨rollbackNode, hmem, u, hrel, hbest, ⟨hnot, -⟩ | ⟨v, hlight, hb, -, hends⟩⟩ :=
    h.invalidateHeaderChain_cases fun _ => hdet
  · rwa [heq]
  · cases hreads.symm.trans hnot
  · have hv : Clean v := by
      refine hc.cut h hmem hrel hlight hb fun p hp => ?_
      obtain rfl | hlow := h.linked.eq_or_height_lt (h.lt_of_mem_bestChain hmem) hp <;> omega
    rcases hends with heq | heq <;> rw [heq]
    · exact hv
    · exact hv.clears Relabel.flushToDB Tree.best_flushToDB

theorem reconsiderBlock (hc : Clean t) (h : Sound t) (hash : Hash) : Clean (t.reconsiderBlock env hash).1 := by
  obtain ⟨hclears, hb⟩ | ⟨m, tip, hclears, hb, htip, hturned⟩ := @Sound.reconsiderBlock_cases env t h hash
  · exact hc.clears hclears hb
  · exact (hc.clears hclears hb).turned (h.relabel_best hclears hb) (hclears.fresh.symm ▸ h.lt_of_tip htip) hturned

theorem removeBlockData (hc : Clean t) (hash : Hash) : Clean (t.removeBlockData env hash).1 :=
  Sound.removeBlockData_keeps hc hc clears

end Clean

/-- No stored status of a block of the best chain says invalid. -/
def RowsUnmarked (t : Tree) : Prop := ∀ p ∈ t.bestChain, ∀ status ∈ t.rows (t.hash p), status.knownInvalid = false
deriving Decidable

theorem Clean.restart {t : Tree} {snapshot : Option Nat} (hc : Clean t) (hrows : RowsUnmarked t) :
    Clean (t.restart snapshot) := by
  refine Clean.clears (fun p hp => ?_) (Sound.markValid_clears _ _).1 (Sound.markValid_clears _ _).2
  have hchain : (t.load snapshot).bestChain = t.bestChain :=
    @lineage_congr (t.load snapshot).mem t.mem (fun _ => rfl) (fun _ => rfl) t.best
  have hp : p ∈ t.bestChain := hchain ▸ hp
  change ((t.rows (t.hash p)).getD (t.status p)).knownInvalid = false
  cases hrow : t.rows (t.hash p) with
  | none => exact hc p hp
  | some status => exact hrows p hp status hrow

/-! ## Runs -/

/-- The call does not connect a block that failed its checks or whose parent has another node than the tip, and when it
marks blocks of the best chain it can disconnect them. A restart finds no mark in their rows. -/
def Careful (params : ChainParams) (t : Tree) : Call → Prop
  | .processBlock env header _ _ => Connectable params env t header
  | .releaseOrphan env header _ _ => Connectable params env t header
  | .resumeBlockConnect env header _ _ => Connectable params env t header
  | .processBlockHeader _ _ _ => True
  | .invalidateBlock env hash => Invalidatable env t hash
  | .reconsiderBlock _ _ => True
  | .invalidateHeaderChain env rollbackHeight => env.reads = true ∧ Detachable env t rollbackHeight
  | .removeBlockData _ _ => True
  | .purgeUtxosAboveHeight _ => True
  | .restart _ => RowsUnmarked t

instance (params : ChainParams) (t : Tree) : (c : Call) → Decidable (Careful params t c)
  | .processBlock .. | .releaseOrphan .. | .resumeBlockConnect .. => inferInstanceAs (Decidable (Connectable ..))
  | .invalidateBlock .. => inferInstanceAs (Decidable (Invalidatable ..))
  | .invalidateHeaderChain .. => inferInstanceAs (Decidable (_ ∧ _))
  | .restart _ => inferInstanceAs (Decidable (RowsUnmarked t))
  | .processBlockHeader .. | .reconsiderBlock .. | .removeBlockData .. | .purgeUtxosAboveHeight _ => .isTrue trivial

theorem Clean.call {params : ChainParams} {t : Tree} {c : Call} (hc : Clean t) (h : Sound t) (hcare : Careful params t c) :
    Clean (t.call params c).1 := by
  cases c with
  | processBlock env header accepts fastAdd => exact hc.processBlock h hcare accepts fastAdd
  | releaseOrphan env header accepts fastAdd => exact hc.maybeAcceptBlock h hcare accepts fastAdd
  | resumeBlockConnect env header accepts fastAdd => exact hc.resumeBlockConnect h hcare accepts fastAdd
  | processBlockHeader header accepts flushDue => exact hc.processBlockHeader h accepts flushDue
  | invalidateBlock env hash => exact hc.invalidateBlock h hcare
  | reconsiderBlock env hash => exact hc.reconsiderBlock h hash
  | invalidateHeaderChain env rollbackHeight => exact hc.invalidateHeaderChain h hcare.1 hcare.2
  | removeBlockData env hash => exact hc.removeBlockData hash
  | purgeUtxosAboveHeight height => exact hc
  | restart snapshot => exact hc.restart hcare

theorem Clean.genesis (params : ChainParams) (header : BlockHeader) : Clean (Tree.genesis params header) := fun _ _ => rfl

/-- No block of the best chain is known to be invalid, in every run of careful calls. -/
theorem best_chain_unmarked {params : ChainParams} {header : BlockHeader} {calls : List Call} {t : Tree}
    (hcare : Along (Tree.step params) (Careful params) (Tree.genesis params header) calls)
    (hr : run (Tree.step params) (Tree.genesis params header) calls = some t) :
    ∀ p ∈ t.bestChain, t.marked p = false :=
  (Sound.run_keeps (Sound.genesis _ _) (Clean.genesis _ _) Clean.call hcare hr).2

/-- Two blocks are connected, the second is invalidated, its rival is connected and it is reconsidered; the headers are
then rolled back to the first block, and the second is connected again. -/
def rivals : List Call :=
  [.processBlock {} (numbered 1 2) true false, .processBlock {} (numbered 2 3) true false, .invalidateBlock {} 3,
    .processBlock {} (numbered 2 4) true false, .reconsiderBlock {} 3, .invalidateHeaderChain {} 1,
    .resumeBlockConnect {} (numbered 2 3) true false, .restart (some 6)]

theorem best_chain_unmarked_rivals :
    ∃ t, run (Tree.step byNonce) Tree.firstBlock rivals = some t ∧ t.bestChain.map t.hash = [3, 2, 1] ∧
      ∀ p ∈ t.bestChain, t.marked p = false := by
  have hchain : (run (Tree.step byNonce) Tree.firstBlock rivals).map (fun t => t.bestChain.map t.hash) =
      some [3, 2, 1] := by decide +kernel
  obtain ⟨t, hr, hchain⟩ := Option.map_eq_some_iff.1 hchain
  exact ⟨t, hr, hchain, best_chain_unmarked (by decide +kernel) hr⟩

/-- A block fails its check because of a stale utxo entry; the entry is purged and the block is connected, with its mark. -/
def purgedResidue : List Call :=
  [.processBlock { check := fun _ => .rule } (numbered 1 2) true false, .purgeUtxosAboveHeight 0,
    .resumeBlockConnect {} (numbered 1 2) true false]

theorem best_chain_marked :
    ∃ t, run (Tree.step byNonce) Tree.firstBlock purgedResidue = some t ∧ t.bestChain.map t.hash = [2, 1] ∧
      ∃ p ∈ t.bestChain, t.marked p = true := by
  exact ⟨_, rfl, by decide +kernel, by decide +kernel⟩

end IniNode.Forks
