import IniNode.Forks.Detach
/-!
# The work of the header tip

The two tips are moved by different functions. Only the acceptance of a block takes the header tip along; the record of
the header tip on disk is written by the flush before that, and a restart takes it as it is.
-/

open List

namespace IniNode.Forks

open Lib Relabel

variable {params : ChainParams} {env : Env} {S : Ptr → Prop} {header : BlockHeader} {t u : Tree} {w : Nat} {node : Ptr}

/-- The header tip has no less work than the tip of the best chain. -/
def Leads (t : Tree) : Prop := t.work t.best ≤ t.work t.header

/-! ## How far the best chain gets -/

/-- The block is connected, or its connection fails before the tip moves and the block before it has no more work than
the bound. -/
def Survives (env : Env) (t : Tree) (w : Nat) (a : Ptr) : Prop :=
  env.connect (t.hash a) = .ok ∨ env.connect (t.hash a) ≠ .failedAfter ∧ ∀ q ∈ (t.mem a).parent, t.work q ≤ w
deriving Decidable

namespace Reorganized

variable {detach attach : List Ptr} {fork : Ptr}

theorem work_le (h : Sound t) (hr : Reorganized detach attach t u) (hd : ∀ d ∈ detach, d ∈ t.bestChain)
    (hbest : t.work t.best ≤ w) (ha : ∀ a ∈ attach, t.work a ≤ w) : t.work u.best ≤ w := by
  obtain hb | ⟨-, hb | ⟨d, hdd, hb⟩⟩ := hr.moved
  · exact hb ▸ hbest
  · exact ha _ hb
  · have hlt := h.lt_of_mem_bestChain (hd d hdd)
    calc t.work u.best ≤ t.work d := h.linked.work d hlt _ hb
      _ ≤ t.work t.best := h.linked.work_le h.best (hd d hdd)
      _ ≤ w := hbest

theorem detachAll_fork {ns : List Ptr} (hu : Clears t u)
    (hchain : (ns ++ [fork]).IsChain fun a b => (t.mem a).parent = some b)
    (hhead : (ns ++ [fork]).head? = some u.best) (hok : (Tree.detachAll env ns u).2 = true) :
    (Tree.detachAll env ns u).1.best = fork := by
  induction ns generalizing u with
  | nil => exact (Option.some_inj.1 hhead).symm
  | cons n ns ih =>
    obtain ⟨q, hq⟩ : ∃ q, (ns ++ [fork]).head? = some q := by cases ns <;> exact ⟨_, rfl⟩
    have hparent : (u.mem n).parent = some q := (hu.parent n).trans (hchain.rel_head? hq)
    rw [Tree.detachAll, hparent] at hok ⊢
    dsimp only at hok ⊢
    split at hok
    · cases hok
    next hready =>
      rw [if_neg hready]
      split at hok
      · cases hok
      next hcommits =>
        rw [if_neg hcommits]
        exact @ih (u.setBest q) (hu.trans (setBest q)) hchain.tail hq hok

/-- When a block cannot be connected, the tip is a block that is not too heavy. -/
theorem attachAll_failed {ns : List Ptr} (h : Sound t) (hu : Clears t u) (hlt : ∀ a ∈ ns, a < t.fresh)
    (hchain : (u.best :: ns).IsChain fun b a => (t.mem a).parent = some b) (hs : ∀ a ∈ ns, Survives env t w a)
    (hfail : (Tree.attachAll env ns u).2 = false) : t.work (Tree.attachAll env ns u).1.best ≤ w := by
  induction ns generalizing u with
  | nil => cases hfail
  | cons n ns ih =>
    obtain ⟨hparent, hrest⟩ := isChain_cons_cons.1 hchain
    have hlink : (u.mem n).parentHash = u.hash u.best := by
      rw [hu.parentHash, hu.hash]
      exact h.linked.parentHash n (hlt n mem_cons_self) _ hparent
    have hsurv := hs n mem_cons_self
    rw [Tree.attachAll, hu.hash] at hfail ⊢
    split at hfail
    next hok =>
      rw [if_pos hlink] at hfail ⊢
      exact @ih (u.setBest n) (hu.trans (setBest n)) (fun a ha => hlt a (mem_cons_of_mem n ha)) hrest
        (fun a ha => hs a (mem_cons_of_mem n ha)) hfail
    next hafter => exact absurd hafter (hsurv.elim (fun hok => by simp [hok]) And.left)
    next hok hafter =>
      obtain hok' | ⟨-, hwork⟩ := hsurv
      · exact absurd hok' hok
      · exact hwork _ hparent

end Reorganized

namespace Sound

/-- The nodes to detach and to attach are on the best chain, and no heavier than the new tip. -/
theorem turned_work (h : Sound t) (hn : node < t.fresh) (hbest : t.work t.best ≤ w) (hnode : t.work node ≤ w)
    (ht : Turned t node u) : t.work u.best ≤ w := by
  obtain ⟨-, hb⟩ | ⟨hfork, -, hr⟩ := ht
  · exact hb ▸ hbest
  refine hr.work_le h (fun d hd => (takeWhile_sublist _).subset hd) hbest fun a ha => ?_
  have ha := (takeWhile_sublist _).subset (mem_reverse.1 ha)
  exact (h.linked.work_le hn ha).trans hnode

/-- A reorganization that fails leaves the tip at a block within the bound. -/
theorem reorganizeTo_failed (h : Sound t) (hn : node < t.fresh) (hbest : t.work t.best ≤ w)
    (hs : ∀ a ∈ lineage t.mem node, a ∉ t.bestChain → Survives env t w a)
    (hfail : (t.reorganizeTo env node).2 = false) : t.work (t.reorganizeTo env node).1.best ≤ w := by
  unfold Tree.reorganizeTo at hfail ⊢
  have hsides := h.sides node
  revert hsides hfail
  generalize t.getReorganizeNodes node = r
  rintro hfail (⟨hrel, hb⟩ | @⟨fork, hfork, _⟩)
  · have hu := h.relabel_best hrel hb
    rw [← hrel.work]
    refine (Reorganized.reorganizeChain _).flushToDB.work_le hu nofun ?_ nofun
    rw [hb, hrel.work]
    exact hbest
  obtain ⟨hmem, hfbest, hoff⟩ := mem_of_findFork hfork
  obtain ⟨hdchain, hdhead⟩ := h.linked.isChain_takeWhile h.best hfbest
  obtain ⟨hachain, -⟩ := h.linked.isChain_takeWhile hn hmem
  dsimp only at hfail ⊢
  rw [Tree.best_flushToDB]
  unfold Tree.reorganizeChain at hfail ⊢
  obtain ⟨-, hb, hok⟩ := @Reorganized.verify env (t.bestChain.takeWhile (· ≠ fork))
    ((lineage t.mem node).takeWhile (· ≠ fork)).reverse t
  split at hfail
  next u heq =>
    rw [heq] at hb
    exact hb ▸ hbest
  next u heq =>
    rw [heq] at hb hok
    have hu : Clears t u := hok rfl
    obtain ⟨hclears, hmoved⟩ := @Reorganized.detachAll env (t.bestChain.takeWhile (· ≠ fork)) u
    have hdetached := @Reorganized.detachAll_fork env t u fork (t.bestChain.takeWhile (· ≠ fork)) hu hdchain
      (hdhead.trans (congrArg some hb.symm))
    split at hfail
    next v heq' =>
      rw [heq'] at hmoved hclears
      have hall := hu.trans hclears
      have hr : Reorganized (t.bestChain.takeWhile (· ≠ fork)) [] t v := by
        refine ⟨of_clears hall, hmoved.imp (fun hv => hv.trans hb) ?_⟩
        rintro ⟨d, hd, hparent⟩
        exact ⟨hall, .inr ⟨d, hd, (hu.parent d).symm.trans hparent⟩⟩
      exact hr.work_le h (fun d hd => (takeWhile_sublist _).subset hd) hbest nofun
    next v heq' =>
      rw [heq'] at hdetached hclears
      have hvfork : v.best = fork := hdetached rfl
      refine Reorganized.attachAll_failed h (hu.trans hclears) (fun a ha => ?_) ?_ (fun a ha => ?_) hfail
      · exact h.lt_of_mem_takeWhile hn (mem_reverse.1 ha)
      · rw [hvfork, ← reverse_concat]
        exact isChain_reverse.2 hachain
      · have ha := mem_reverse.1 ha
        exact hs a ((takeWhile_sublist _).subset ha) (hoff a ha)

end Sound

/-! ## Accepting blocks and headers -/

/-- The block is no heavier than the header tip, or its branch is connected without a failure that leaves a heavier tip. -/
def Completes (env : Env) (t : Tree) (node : Ptr) : Prop :=
  t.work node ≤ t.work t.header ∨
    env.clears = true ∧ ∀ a ∈ lineage t.mem node, a ∉ t.bestChain → Survives env t (t.work t.header) a
deriving Decidable

/-- The same for a block that has no node yet, on top of `prev`. -/
def CompletesNew (params : ChainParams) (env : Env) (t : Tree) (header : BlockHeader) (prev : Ptr) : Prop :=
  t.work prev + calcWork header.bits ≤ t.work t.header ∨
    env.clears = true ∧
      (env.connect (params.blockHash header) = .ok ∨
        env.connect (params.blockHash header) ≠ .failedAfter ∧ t.work prev ≤ t.work t.header) ∧
      ∀ a ∈ lineage t.mem prev, a ∉ t.bestChain → Survives env t (t.work t.header) a
deriving Decidable

namespace Leads

theorem relabel (hr : Relabel S t u) (hbest : t.work u.best ≤ t.work t.header) : Leads u := by
  rw [Leads, hr.work, hr.work, hr.header]
  exact hbest

theorem clears (hl : Leads t) (hr : Clears t u) (hbest : u.best = t.best) : Leads u :=
  relabel hr (hbest.symm ▸ hl)

theorem grows (hl : Leads t) (h : Sound t) (hg : Grows t u) : Leads u := by
  rw [Leads, hg.best, hg.header, hg.work h.best, hg.work h.header]
  exact hl

/-- The tip is no heavier than the old tip or the block. -/
theorem connectBestChain_work (h : Sound t) (hn : node < t.fresh) {w : Nat} (hbest : t.work t.best ≤ w)
    (hnode : t.work node ≤ w) (fastAdd : Bool) : t.work (t.connectBestChain env node fastAdd).1.best ≤ w := by
  unfold Tree.connectBestChain
  split
  · obtain hb | ⟨hb, -⟩ := (@Extended.extendBest env t node (fastAdd || (t.status node).valid)).1.moved
    · rw [hb]
      exact hbest
    · rw [hb]
      exact hnode
  split
  · exact hbest
  split
  · exact hbest
  · exact h.turned_work hn hbest hnode (h.reorganizeTo node)

theorem connectBestChain_failed (hl : Leads t) (h : Sound t) (hn : node < t.fresh)
    (hs : ∀ a ∈ lineage t.mem node, a ∉ t.bestChain → Survives env t (t.work t.header) a) (fastAdd : Bool)
    (hfail : (t.connectBestChain env node fastAdd).2 = none) :
    t.work (t.connectBestChain env node fastAdd).1.best ≤ t.work t.header := by
  unfold Tree.connectBestChain at hfail ⊢
  split_ifs at hfail ⊢
  · obtain ⟨he, herr⟩ := @Extended.extendBest env t node (fastAdd || (t.status node).valid)
    obtain hb | hafter := herr hfail
    · exact hb ▸ hl
    by_cases hmem : node ∈ t.bestChain
    · obtain hb | ⟨hb, -⟩ := he.moved
      · exact hb ▸ hl
      · rw [hb]
        exact (h.linked.work_le h.best hmem).trans hl
    · have hsurv := hs node (h.linked.self_mem hn) hmem
      exact absurd hafter (hsurv.elim (fun hok => by simp [hok]) And.left)
  · exact hl
  · refine h.reorganizeTo_failed hn hl hs ?_
    cases hok : (t.reorganizeTo env node).2 with
    | false => rfl
    | true => exact absurd hfail (by simp [hok])

theorem extendBest_ne_side (t : Tree) (node : Ptr) (fastAdd : Bool) : (t.extendBest env node fastAdd).2 ≠ some false := by
  unfold Tree.extendBest
  split
  · exact nofun
  · split <;> exact nofun

/-- A block that stays on a side chain leaves the tree as it is. -/
theorem connectBestChain_side {fastAdd : Bool} (hside : (t.connectBestChain env node fastAdd).2 = some false) :
    (t.connectBestChain env node fastAdd).1 = t := by
  unfold Tree.connectBestChain at hside ⊢
  split_ifs at hside ⊢
  · exact absurd hside (extendBest_ne_side t node _)
  · rfl
  · cases hok : (t.reorganizeTo env node).2 <;> simp [hok] at hside

theorem acceptedBlock {isMainChain : Bool} (hbound : t.work t.best ≤ max (t.work t.header) (t.work node))
    (hside : isMainChain = false → Leads t) (hcomplete : t.work node ≤ t.work t.header ∨ env.clears = true) :
    Leads (t.acceptedBlock env node isMainChain).1 := by
  have hclears : Clears t (t.unsetStatusFlags node { invalidAncestor := true }) := unsetStatusFlags node _
  have hflush : Clears t (t.unsetStatusFlags node { invalidAncestor := true }).flushToDB := hclears.trans flushToDB
  have hbest : (t.unsetStatusFlags node { invalidAncestor := true }).flushToDB.best = t.best := Tree.best_flushToDB
  unfold Tree.acceptedBlock
  dsimp only
  split
  next hno =>
    have hle := hcomplete.resolve_right (by simpa using hno)
    exact relabel hclears (hbound.trans (max_le (le_refl _) hle))
  split
  next hadvance =>
    rw [hflush.work, hflush.work] at hadvance
    have hle : t.work t.best ≤ t.work node := hbound.trans (max_le hadvance.2.le (le_refl _))
    rw [← hflush.work, ← hflush.work] at hle
    exact hle
  next hstay =>
    rw [hflush.work, hflush.work] at hstay
    refine relabel hflush (hbest.symm ▸ ?_)
    cases isMainChain with
    | false => exact hside rfl
    | true => exact hbound.trans (max_le (le_refl _) (Nat.le_of_not_lt fun hlt => hstay ⟨rfl, hlt⟩))

end Leads

/-- What accepting a block needs: its node completes, or its new node will. -/
structure Tracked (params : ChainParams) (env : Env) (t : Tree) (header : BlockHeader) : Prop where
  known : ∀ p ∈ t.lookupNode (params.blockHash header), Completes env t p
  new : t.lookupNode (params.blockHash header) = none →
    ∀ prev ∈ t.lookupNode header.prevBlock, CompletesNew params env t header prev

instance (params : ChainParams) (env : Env) (t : Tree) (header : BlockHeader) : Decidable (Tracked params env t header) :=
  decidable_of_iff (_ ∧ _) ⟨fun h => ⟨h.1, h.2⟩, fun h => ⟨h.known, h.new⟩⟩

theorem Survives.of_eq {env : Env} {t u : Tree} {w : Nat} {a : Ptr} (h : Survives env t w a) (hhash : u.hash a = t.hash a)
    (hparent : (u.mem a).parent = (t.mem a).parent) (hwork : ∀ q, (t.mem a).parent = some q → u.work q = t.work q) :
    Survives env u w a := by
  rw [Survives, hhash, hparent]
  refine h.imp_right fun ⟨hafter, hle⟩ => ⟨hafter, fun q hq => ?_⟩
  rw [hwork q hq]
  exact hle q hq

theorem Completes.shape {env : Env} {t u : Tree} {node : Ptr} (h : Completes env t node) (hs : Shape t u)
    (hbest : u.best = t.best) (hheader : u.header = t.header) : Completes env u node := by
  rw [Completes, hs.work, hs.work, hheader, hs.lineage]
  refine h.imp_right fun ⟨hclears, hall⟩ => ⟨hclears, fun a ha hoff => ?_⟩
  rw [hs.bestChain hbest] at hoff
  exact (hall a ha hoff).of_eq (hs.hash a) (hs.parent a) fun q _ => hs.work q

theorem CompletesNew.addNode {params : ChainParams} {env : Env} {t : Tree} {header : BlockHeader} {prev : Ptr}
    (h : CompletesNew params env t header prev) (ht : Sound t) (hprev : t.lookupNode header.prevBlock = some prev)
    (status : BlockStatus) : Completes env (t.addNode params header prev status) t.fresh := by
  have hlt := (ht.index _ _ hprev).1
  have hgrows := @Grows.addNode params t header prev status
  have hsound := @Sound.addNode params header t ht prev hprev status
  have hfresh : t.fresh < (t.addNode params header prev status).fresh := Nat.lt_succ_self _
  have hnode := @Grows.mem_fresh params t header prev status
  revert hgrows hsound hfresh hnode
  generalize t.addNode params header prev status = u
  intro hgrows hsound hfresh hnode
  have hparent : (u.mem t.fresh).parent = some prev := by rw [hnode]; rfl
  have hwork : u.work t.fresh = t.work prev + calcWork header.bits := by rw [Tree.work, hnode]; rfl
  have hhash : u.hash t.fresh = params.blockHash header := by rw [Tree.hash, hnode]; rfl
  have hheader : u.work u.header = t.work t.header := by rw [hgrows.header, hgrows.work ht.header]
  rw [Completes, hwork, hheader, hsound.linked.lineage_some hfresh hparent, hgrows.lineage ht hlt, hgrows.bestChain ht]
  refine h.imp_right ?_
  rintro ⟨hclears, hblock, hall⟩
  refine ⟨hclears, fun a ha hoff => ?_⟩
  obtain rfl | ha := mem_cons.1 ha
  · rw [Survives, hhash, hparent]
    refine hblock.imp_right ?_
    rintro ⟨hafter, hle⟩
    refine ⟨hafter, ?_⟩
    rintro q ⟨⟩
    rwa [hgrows.work hlt]
  · have halt := ht.linked.lt_of_mem hlt ha
    refine (hall a ha hoff).of_eq (hgrows.hash halt) ?_ fun q hq => ?_
    · rw [hgrows.node a halt]
    · exact hgrows.work (ht.linked.parent a halt q hq).1

namespace Tracked

theorem clears (h : Tracked params env t header) (hr : Clears t u) (hbest : u.best = t.best) :
    Tracked params env u header := by
  refine ⟨fun p hp => ?_, fun hnone prev hprev => ?_⟩
  · rw [hr.lookupNode] at hp
    exact (h.known p hp).shape hr.toShape hbest hr.header
  · rw [hr.lookupNode] at hnone hprev
    rw [CompletesNew, hr.work, hr.work, hr.header, hr.lineage]
    refine (h.new hnone prev hprev).imp_right fun ⟨hclears, hblock, hall⟩ => ⟨hclears, hblock, fun a ha hoff => ?_⟩
    rw [hr.bestChain hbest] at hoff
    exact (hall a ha hoff).of_eq (hr.hash a) (hr.parent a) fun q _ => hr.work q

/-- The node that a stored block gets completes. -/
theorem storeBlock (h : Tracked params env t header) (ht : Sound t) {prev : Ptr}
    (hprev : t.lookupNode header.prevBlock = some prev) :
    Completes env (t.storeBlock params header prev).1 (t.storeBlock params header prev).2 := by
  unfold Tree.storeBlock
  dsimp only
  split
  next p hp =>
    have hset : Clears _ (Tree.setStatusFlags { t with bodies := insert (params.blockHash header) t.bodies } p
      { dataStored := true }) := setStatusFlags p rfl
    exact (h.known p hp).shape ⟨hset.node, rfl, rfl⟩ rfl rfl
  next hnone =>
    have hbody : Sound { t with bodies := insert (params.blockHash header) t.bodies } :=
      ht.shape ⟨fun _ => rfl, rfl, rfl⟩ ht.best ht.header
    have hnew : CompletesNew params env { t with bodies := insert (params.blockHash header) t.bodies } header prev :=
      h.new hnone prev hprev
    exact hnew.addNode hbody hprev _

end Tracked

namespace Leads

section

variable (hl : Leads t) (h : Sound t) (htrack : Tracked params env t header) (accepts fastAdd : Bool)

include hl h htrack accepts fastAdd

theorem maybeAcceptBlock : Leads (t.maybeAcceptBlock params env header accepts fastAdd).1 := by
  unfold Tree.maybeAcceptBlock
  split
  · exact hl
  next prev hprev =>
    split
    · exact hl
    have hstore := @Sound.storeBlock params header t h prev hprev
    have hcomp := htrack.storeBlock h hprev
    revert hstore hcomp
    generalize t.storeBlock params header prev = r
    rintro ⟨hgrows, hu, hnode⟩ hcomp
    have hlead := hl.grows h hgrows
    dsimp only
    split
    · exact hlead
    have hflush : Clears r.1 r.1.flushToDB := flushToDB
    have hcomp := hcomp.shape hflush.toShape Tree.best_flushToDB hflush.header
    have hlead := hlead.clears hflush Tree.best_flushToDB
    have hu := hu.flushToDB
    have hnode : r.2 < r.1.flushToDB.fresh := hflush.fresh.symm ▸ hnode
    revert hcomp hlead hu hnode
    generalize r.1.flushToDB = u
    intro hcomp hlead hu hnode
    have hmoves := @Sound.connectBestChain env u r.2 hu hnode fastAdd
    have hbound := @connectBestChain_work env u r.2 hu hnode _ (hlead.trans (le_max_left _ (u.work r.2)))
      (le_max_right (u.work u.header) _) fastAdd
    have hside := @connectBestChain_side env u r.2 fastAdd
    have hfail := fun hs => @connectBestChain_failed env u r.2 hlead hu hnode hs fastAdd
    split
    next v heq =>
      rw [heq] at hmoves hbound hfail
      refine relabel hmoves.toRelabel ?_
      obtain hle | ⟨-, hall⟩ := hcomp
      · exact hbound.trans (max_le (le_refl _) hle)
      · exact hfail hall rfl
    next v isMainChain heq =>
      rw [heq] at hmoves hbound hside
      apply acceptedBlock
      · rw [hmoves.work, hmoves.work, hmoves.work, hmoves.header]
        exact hbound
      · rintro rfl
        rw [show v = u from hside rfl]
        exact hlead
      · rw [hmoves.work, hmoves.work, hmoves.header]
        exact hcomp.imp_right And.left

theorem processBlock : Leads (t.processBlock params env header accepts fastAdd).1 :=
  Sound.processBlock_keeps (fun _ => hl.clears) fun _ hclears hbest =>
    (hl.clears hclears hbest).maybeAcceptBlock (h.relabel_best hclears hbest) (htrack.clears hclears hbest) accepts fastAdd

theorem resumeBlockConnect : Leads (t.resumeBlockConnect params env header accepts fastAdd).1 :=
  Sound.resumeBlockConnect_keeps hl (hl.maybeAcceptBlock h htrack accepts fastAdd)

end

end Leads

/-- A header that names the header tip as the block before it is not lighter. -/
structure Rises (params : ChainParams) (t : Tree) (header : BlockHeader) : Prop where
  known : ∀ p ∈ t.lookupNode (params.blockHash header),
    (t.mem p).parentHash = t.hash t.header → t.work t.header ≤ t.work p
  new : t.lookupNode (params.blockHash header) = none → header.prevBlock = t.hash t.header →
    ∀ prev ∈ t.lookupNode header.prevBlock, t.work t.header ≤ t.work prev + calcWork header.bits

instance (params : ChainParams) (t : Tree) (header : BlockHeader) : Decidable (Rises params t header) :=
  decidable_of_iff (_ ∧ _) ⟨fun h => ⟨h.1, h.2⟩, fun h => ⟨h.known, h.new⟩⟩

namespace Leads

theorem extendHeader (hl : Leads t) (hnode : (t.mem node).parentHash = t.hash t.header → t.work t.header ≤ t.work node)
    (flushDue : Bool) : Leads (t.extendHeader node flushDue) :=
  Sound.extendHeader_keeps hl (fun hrise => hl.trans (hrise.elim hnode le_of_lt))
    fun _ hu => hu.clears flushToDB Tree.best_flushToDB

theorem processBlockHeader (hl : Leads t) (h : Sound t) (hrise : Rises params t header) (accepts flushDue : Bool) :
    Leads (t.processBlockHeader params header accepts flushDue).1 := by
  refine Sound.processBlockHeader_keeps (fun _ => hl.clears) (fun hnone prev hprev => ?_) fun p u hp hclears hbest => ?_
  · have hgrows := @Grows.addNode params t header prev { headerStored := true }
    apply (hl.grows h hgrows).extendHeader
    intro hparent
    rw [Grows.mem_fresh, hgrows.header, hgrows.hash h.header] at hparent
    rw [hgrows.header, hgrows.work h.header, Tree.work, Tree.work, Grows.mem_fresh]
    exact hrise.new hnone hparent prev hprev
  · apply (hl.clears hclears hbest).extendHeader
    rw [hclears.parentHash, hclears.hash, hclears.work, hclears.work, hclears.header]
    exact hrise.known p hp

end Leads

/-! ## Manual invalidation and rollback -/

/-- No block of the index that is not known to be invalid is heavier than the header tip. -/
def HeaderHeaviest (t : Tree) : Prop :=
  ∀ x ∈ t.index.keys, ∀ p ∈ t.lookupNode x, t.marked p = false → t.work p ≤ t.work t.header
deriving Decidable

/-- No block of the index on top of the block is heavier than the header tip. -/
def BranchLighter (t : Tree) (hash : Hash) : Prop :=
  ∀ x ∈ t.index.keys, ∀ p ∈ t.lookupNode x, (∃ a ∈ lineage t.mem p, t.hash a = hash) →
    t.work p ≤ t.work t.header
deriving Decidable

theorem Tree.mem_keys {t : Tree} {x : Hash} {p : Ptr} (h : t.lookupNode x = some p) : x ∈ t.index.keys :=
  AList.mem_keys.1 (AList.lookup_isSome.1 (by rw [show t.index.lookup x = some p from h]; rfl))

namespace Leads

theorem activateBestTip (hl : Leads t) (h : Sound t)
    (hall : ∀ p ∈ t.inactiveTips env, t.marked p = false → t.work p ≤ t.work t.header) :
    Leads (t.activateBestTip env).1 := by
  unfold Tree.activateBestTip
  split
  · exact hl
  next tip htip =>
    obtain ⟨hmem, hun⟩ := (Tree.bestTip_spec _).1 tip htip
    split
    · exact hl
    have hlt := h.lt_of_mem_tips hmem
    have hturned := @Sound.reorganizeTo env t h tip
    refine relabel (h.turned hlt hturned).toRelabel (h.turned_work hlt hl ?_ hturned)
    obtain hmem | hmem := mem_append.1 hmem
    · exact hall tip hmem hun
    · exact mem_singleton.1 hmem ▸ hl

theorem invalidateBlock (hl : Leads t) (h : Sound t) (hheavy : HeaderHeaviest t) (hash : Hash) :
    Leads (t.invalidateBlock env hash).1 := by
  obtain same | ⟨-, -, hrel, hbest⟩ | @⟨node, above, w, -, -, hdetach, -, hrel, hbest, hmarks, hends⟩ :=
    @Sound.invalidated env t h hash
  · rw [same]
    exact hl
  · exact relabel hrel (hbest.symm ▸ hl)
  have hw := h.relabel_best hrel hbest
  rw [← hrel.bestChain hbest] at hdetach
  have hr := @Reorganized.reorganizeChain env (above ++ [node]) [] w
  have hmoves := @Sound.disconnects env w hw node above hdetach
  have hv := relabel hr.relabel (hr.work_le hw hdetach (relabel hrel (hbest.symm ▸ hl) : Leads w) nofun)
  have hmem := @Tree.mem_reorganizeChain_nil env (above ++ [node]) w
  revert hmoves hv hmem hends
  generalize w.reorganizeChain env (above ++ [node]) [] = r
  intro hends hmoves hv hmem
  obtain ⟨heq, -⟩ | ⟨heq, hok⟩ := hends
  · exact heq ▸ hv
  have hflush : Clears r.1 r.1.flushToDB := flushToDB
  rw [heq]
  refine (hv.clears hflush Tree.best_flushToDB).activateBestTip (hw.moves hmoves).flushToDB fun p hp hun => ?_
  -- the marks of the tree before are still there, so the tip was not marked
  have hun : t.marked p = false := by
    cases ht : t.marked p with
    | false => rfl
    | true =>
      have hwp := hmarks p ht
      rw [Tree.marked, Tree.status, ← hmem, ← Tree.mem_flushToDB, ← Tree.status] at hwp
      exact absurd hwp (by rw [← Tree.marked, hun]; exact Bool.false_ne_true)
  obtain ⟨-, x, hx⟩ := Tree.mem_of_inactiveTips hp
  rw [hflush.lookupNode, hmoves.lookupNode, hrel.lookupNode] at hx
  rw [hflush.work, hmoves.work, hrel.work, hflush.work, hmoves.work, hrel.work, hflush.header, hmoves.header, hrel.header]
  exact hheavy x (Tree.mem_keys hx) p hx hun

theorem reconsiderBlock (hl : Leads t) (h : Sound t) {hash : Hash} (hbranch : BranchLighter t hash) :
    Leads (t.reconsiderBlock env hash).1 := by
  obtain ⟨hc, hb⟩ | ⟨m, tip, hc, hb, htip, hturned⟩ := @Sound.reconsiderBlock_cases env t h hash
  · exact hl.clears hc hb
  have hm := h.relabel_best hc hb
  have hlt : tip < m.fresh := hc.fresh.symm ▸ h.lt_of_tip htip
  refine relabel (hm.turned hlt hturned).toRelabel (hm.turned_work hlt (hl.clears hc hb) ?_ hturned)
  rw [hc.work, hc.work, hc.header]
  obtain rfl | ⟨x, hx, hon⟩ := htip
  · exact hl
  · exact hbranch x (Tree.mem_keys hx) tip hx hon

theorem invalidateHeaderChain (hl : Leads t) (h : Sound t) {rollbackHeight : Int}
    (hdet : env.reads = true → Detachable env t rollbackHeight) :
    Leads (t.invalidateHeaderChain env rollbackHeight).1 := by
  obtain heq | ⟨_, -, u, hrel, hbest, ⟨-, heq⟩ | ⟨v, -, hb, hh, hends⟩⟩ := h.invalidateHeaderChain_cases hdet
  · rwa [heq]
  · rw [heq]
    exact relabel hrel (hbest.symm ▸ hl)
  · have hv : Leads v := (congrArg v.work (hb.trans hh.symm)).le
    rcases hends with heq | heq <;> rw [heq]
    · exact hv
    · exact hv.clears flushToDB Tree.best_flushToDB

theorem removeBlockData (hl : Leads t) (hash : Hash) : Leads (t.removeBlockData env hash).1 :=
  Sound.removeBlockData_keeps hl hl clears

end Leads

/-- The block in the header record, if the restart finds it, is loaded with no less work than the tip of the best chain. -/
def RecordAhead (t : Tree) (snapshot : Option Nat) : Prop :=
  t.finds t.savedHeader snapshot = true →
    ∀ p ∈ t.lookupNode t.savedHeader, t.loadedWork t.best snapshot ≤ t.loadedWork p snapshot
deriving Decidable

theorem Tree.finds_of_load {t : Tree} {snapshot : Option Nat} {x : Hash} {p : Ptr}
    (h : (t.load snapshot).lookupNode x = some p) : t.finds x snapshot = true ∧ t.lookupNode x = some p := by
  have hlookup : t.lookupNode x = some p := Sound.lookup_of_eraseAll h
  refine ⟨?_, hlookup⟩
  by_contra hnone
  have hmem : x ∈ t.index.keys.filter fun hash => !t.finds hash snapshot :=
    mem_filter.2 ⟨Tree.mem_keys hlookup, by simpa using hnone⟩
  obtain ⟨before, after, heq⟩ := append_of_mem hmem
  rw [load, heq, foldl_append, foldl_cons] at h
  have herased := Sound.lookup_of_eraseAll h
  rw [AList.lookup_erase] at herased
  cases herased

theorem Leads.restart {t : Tree} {snapshot : Option Nat} (hrecord : RecordAhead t snapshot) :
    Leads (t.restart snapshot) := by
  refine Leads.clears ?_ (Sound.markValid_clears _ _).1 (Sound.markValid_clears _ _).2
  cases hp : (t.load snapshot).lookupNode (t.load snapshot).savedHeader with
  | none => exact le_refl _
  | some p =>
    obtain ⟨hfound, hlookup⟩ := Tree.finds_of_load hp
    exact hrecord hfound p hlookup

/-! ## Runs -/

/-- A block call completes or stays below the header tip, the manual calls have no branch to go to that is heavier than
the header tip, a rollback of the headers can disconnect the blocks, and a restart finds an up-to-date header record. -/
def InStep (params : ChainParams) (t : Tree) : Call → Prop
  | .processBlock env header _ _ => Tracked params env t header
  | .releaseOrphan env header _ _ => Tracked params env t header
  | .resumeBlockConnect env header _ _ => Tracked params env t header
  | .processBlockHeader header _ _ => Rises params t header
  | .invalidateBlock _ _ => HeaderHeaviest t
  | .reconsiderBlock _ hash => BranchLighter t hash
  | .invalidateHeaderChain env rollbackHeight => env.reads = true → Detachable env t rollbackHeight
  | .removeBlockData _ _ => True
  | .purgeUtxosAboveHeight _ => True
  | .restart snapshot => RecordAhead t snapshot

instance (params : ChainParams) (t : Tree) (c : Call) : Decidable (InStep params t c) := by
  cases c <;> dsimp only [InStep] <;> infer_instance

theorem Leads.call {params : ChainParams} {t : Tree} {c : Call} (hl : Leads t) (h : Sound t) (hok : InStep params t c) :
    Leads (t.call params c).1 := by
  cases c with
  | processBlock env header accepts fastAdd => exact hl.processBlock h hok accepts fastAdd
  | releaseOrphan env header accepts fastAdd => exact hl.maybeAcceptBlock h hok accepts fastAdd
  | resumeBlockConnect env header accepts fastAdd => exact hl.resumeBlockConnect h hok accepts fastAdd
  | processBlockHeader header accepts flushDue => exact hl.processBlockHeader h hok accepts flushDue
  | invalidateBlock env hash => exact hl.invalidateBlock h hok hash
  | reconsiderBlock env hash => exact hl.reconsiderBlock h hok
  | invalidateHeaderChain env rollbackHeight => exact hl.invalidateHeaderChain h hok
  | removeBlockData env hash => exact hl.removeBlockData hash
  | purgeUtxosAboveHeight height => exact hl
  | restart snapshot => exact Leads.restart hok

/-- The header tip has no less work than the tip of the best chain, in every run of calls that keep the two in step. -/
theorem header_tip_leads {params : ChainParams} {header : BlockHeader} {calls : List Call} {t : Tree}
    (hok : Along (Tree.step params) (InStep params) (Tree.genesis params header) calls)
    (hr : run (Tree.step params) (Tree.genesis params header) calls = some t) : t.work t.best ≤ t.work t.header :=
  (Sound.run_keeps (I := Leads) (Sound.genesis _ _) (le_refl _) Leads.call hok hr).2

/-- Headers and blocks arrive, a block is invalidated and reconsidered, the headers are rolled back, and the node is
restarted: by a scan of the rows, and from the snapshot. -/
def rolledBack : List Call :=
  [.processBlockHeader (numbered 1 2) true true, .processBlock {} (numbered 1 2) true false,
    .processBlock {} (numbered 2 3) true false, .processBlock {} (numbered 2 4) true false, .invalidateBlock {} 3,
    .reconsiderBlock {} 3, .invalidateHeaderChain {} 1, .restart none, .restart (some 4)]

theorem header_tip_leads_rolled_back :
    ∃ t, run (Tree.step byNonce) Tree.firstBlock rolledBack = some t ∧ t.bestChain.map t.hash = [2, 1] ∧
      t.work t.best ≤ t.work t.header := by
  have hchain : (run (Tree.step byNonce) Tree.firstBlock rolledBack).map (fun t => t.bestChain.map t.hash) =
      some [2, 1] := by decide +kernel
  obtain ⟨t, hr, hchain⟩ := Option.map_eq_some_iff.1 hchain
  exact ⟨t, hr, hchain, header_tip_leads (by decide +kernel) hr⟩

/-- A block is connected and the node restarted from the snapshot: the header tip is the one before the block. -/
theorem header_tip_behind :
    ∃ t, run (Tree.step byNonce) Tree.firstBlock
        [.processBlock {} (numbered 1 2) true false, .restart (some 4)] = some t ∧
      t.bestChain.map t.hash = [2, 1] ∧ t.headerChain.map t.hash = [1] ∧ t.work t.header < t.work t.best := by
  exact ⟨_, rfl, by decide +kernel, by decide +kernel, by decide +kernel⟩

end IniNode.Forks
