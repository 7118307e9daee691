import IniNode.Forks.Reorganize
/-!
# Every call keeps the tree well formed

The index and both tips refer to nodes of the tree, and every node hangs on its parent down to genesis.
-/

open Function

namespace IniNode.Forks

variable {params : ChainParams} {env : Env} {S : Ptr → Prop} {header : BlockHeader} {t u v : Tree} {node : Ptr}

/-! ## Blocks that extend the best chain -/

/-- The block became the tip and no flag was set, or the tip stayed and the block may be marked. -/
structure Extended (node : Ptr) (t u : Tree) : Prop where
  relabel : Relabel (· = node) t u
  moved : u.best = t.best ∨ u.best = node ∧ Clears t u

namespace Extended

theorem clears (h : Extended node t u) (hc : Clears u v) (hbest : v.best = u.best) : Extended node t v :=
  ⟨h.relabel.trans (Relabel.of_clears hc), hbest ▸ h.moved.imp_right fun ⟨hb, hu⟩ => ⟨hb, hu.trans hc⟩⟩

theorem flushToDB (h : Extended node t u) : Extended node t u.flushToDB := h.clears Relabel.flushToDB Tree.best_flushToDB

theorem setValid (h : Extended node t u) : Extended node t (u.setStatusFlags node { valid := true }) :=
  h.clears (Relabel.setStatusFlags node rfl) rfl

theorem checkBlock (t : Tree) (node : Ptr) :
    Relabel (· = node) t (t.checkBlock env node).1 ∧ (t.checkBlock env node).1.best = t.best ∧
      ((t.checkBlock env node).2 = true → Clears t (t.checkBlock env node).1) := by
  unfold Tree.checkBlock
  split
  · have hset : Clears t (t.setStatusFlags node { valid := true }).flushToDB :=
      (Relabel.setStatusFlags node rfl).trans Relabel.flushToDB
    exact ⟨Relabel.of_clears hset, Tree.best_flushToDB, fun _ => hset⟩
  · exact ⟨(Relabel.setInvalid node _).trans (Relabel.of_clears Relabel.flushToDB), Tree.best_flushToDB, nofun⟩
  · exact ⟨Relabel.refl t, rfl, nofun⟩

/-- The block is connected, whatever comes after the tip has moved. -/
theorem connected (hu : Clears t u) : Extended node t (u.setBest node) :=
  ⟨Relabel.of_clears (hu.trans (Relabel.setBest node)), .inr ⟨rfl, hu.trans (Relabel.setBest node)⟩⟩

/-- An error leaves the tip, unless it came after the tip had moved. -/
theorem extendBest (t : Tree) (node : Ptr) (fastAdd : Bool) : Extended node t (t.extendBest env node fastAdd).1 ∧
      ((t.extendBest env node fastAdd).2 = none →
        (t.extendBest env node fastAdd).1.best = t.best ∨ env.connect (t.hash node) = .failedAfter) := by
  have hchecked : ∀ c, (if fastAdd then (t, true) else t.checkBlock env node) = c →
      Relabel (· = node) t c.1 ∧ c.1.best = t.best ∧ (c.2 = true → Clears t c.1) := by
    rintro c rfl
    split
    · exact ⟨Relabel.refl t, rfl, fun _ => Relabel.refl t⟩
    · exact checkBlock t node
  unfold Tree.extendBest
  split
  next u heq =>
    obtain ⟨hr, hb, -⟩ := hchecked _ heq
    exact ⟨⟨hr, .inl hb⟩, fun _ => .inl hb⟩
  next u heq =>
    obtain ⟨-, hb, hok⟩ := hchecked _ heq
    have hc := hok rfl
    have hhash : u.hash node = t.hash node := hc.hash node
    have hu : Extended node t u := ⟨Relabel.of_clears hc, .inl hb⟩
    have hflush : u.flushToDB.best = t.best := Tree.best_flushToDB.trans hb
    split
    · exact ⟨hu, fun _ => .inl hb⟩
    · exact ⟨hu.flushToDB, fun _ => .inl hflush⟩
    · have hfailed := hu.relabel.trans (Relabel.setInvalid node { validateFailed := true })
      have hstay : (u.setStatusFlags node { validateFailed := true }).flushToDB.best = t.best :=
        Tree.best_flushToDB.trans hb
      exact ⟨⟨hfailed.trans (Relabel.of_clears Relabel.flushToDB), .inl hstay⟩, fun _ => .inl hstay⟩
    next hafter => exact ⟨(connected hc).flushToDB, fun _ => .inr (hhash ▸ hafter)⟩
    · dsimp only
      split
      · exact ⟨(connected hc).setValid.flushToDB, nofun⟩
      · exact ⟨connected hc, nofun⟩

end Extended

/-! ## Well-formed trees -/

/-- Statuses change, and the best chain may get another tip. -/
structure Moves (t u : Tree) : Prop extends Relabel (fun _ => True) t u where
  tip : u.best < t.fresh

namespace Moves

theorem of_relabel (h : Relabel S t u) (hbest : u.best < t.fresh) : Moves t u := ⟨h.mono fun _ _ => trivial, hbest⟩

theorem trans (h : Moves t u) (h' : Moves u v) : Moves t v := ⟨h.toRelabel.trans h'.toRelabel, h.fresh ▸ h'.tip⟩

theorem flushToDB (h : Moves t u) : Moves t u.flushToDB := by
  refine ⟨h.toRelabel.trans (Relabel.of_clears Relabel.flushToDB), ?_⟩
  rw [Tree.best_flushToDB]
  exact h.tip

end Moves

/-- The tips and the index lead to linked nodes. -/
structure Sound (t : Tree) : Prop where
  linked : Linked t.mem t.fresh
  best : t.best < t.fresh
  header : t.header < t.fresh
  index : ∀ x p, t.lookupNode x = some p → p < t.fresh ∧ t.hash p = x

namespace Sound

variable {detach attach : List Ptr}

section

variable (h : Sound t)

include h

/-- The statuses change and nodes may leave the index. -/
theorem restrict (hs : Shape t { u with index := t.index })
    (hindex : ∀ x p, u.lookupNode x = some p → t.lookupNode x = some p) (hbest : u.best < t.fresh)
    (hheader : u.header < t.fresh) : Sound u := by
  have hfresh : u.fresh = t.fresh := hs.fresh
  refine ⟨hs.linked h.linked, hfresh.symm ▸ hbest, hfresh.symm ▸ hheader, fun x p hp => ?_⟩
  have hhash : u.hash p = t.hash p := hs.hash p
  rw [hfresh, hhash]
  exact h.index x p (hindex x p hp)

theorem shape (hs : Shape t u) (hbest : u.best < t.fresh) (hheader : u.header < t.fresh) : Sound u :=
  h.restrict ⟨hs.node, hs.fresh, rfl⟩ (fun x _ hp => hs.lookupNode x ▸ hp) hbest hheader

theorem relabel (hr : Relabel S t u) (hbest : u.best < t.fresh) : Sound u :=
  h.shape hr.toShape hbest (hr.header ▸ h.header)

theorem relabel_best (hr : Relabel S t u) (hbest : u.best = t.best) : Sound u :=
  h.relabel hr (hbest ▸ h.best)

theorem moves (hm : Moves t u) : Sound u := h.relabel hm.toRelabel hm.tip

theorem reorganized (hr : Reorganized detach attach t u) (hd : ∀ d ∈ detach, d < t.fresh)
    (ha : ∀ a ∈ attach, a < t.fresh) : Moves t u := by
  refine Moves.of_relabel hr.relabel ?_
  obtain hbest | ⟨_, hbest | ⟨d, hdd, hbest⟩⟩ := hr.moved
  · exact hbest ▸ h.best
  · exact ha _ hbest
  · exact (h.linked.parent d (hd d hdd) _ hbest).1

theorem sides (node : Ptr) : Sides t node (t.getReorganizeNodes node) :=
  getReorganizeNodes_sides h.linked h.best node

theorem lt_of_mem_bestChain {p : Ptr} (hp : p ∈ t.bestChain) : p < t.fresh := h.linked.lt_of_mem h.best hp

theorem lt_of_mem_takeWhile (hn : node < t.fresh) {f : Ptr → Bool} {p : Ptr}
    (hp : p ∈ (lineage t.mem node).takeWhile f) : p < t.fresh :=
  h.linked.lt_of_mem hn ((List.takeWhile_sublist _).subset hp)

theorem turned (hn : node < t.fresh) (ht : Turned t node u) : Moves t u := by
  obtain ⟨hrel, hbest⟩ | ⟨hfork, -, hr⟩ := ht
  · exact Moves.of_relabel hrel (hbest ▸ h.best)
  · refine h.reorganized hr (fun d hd => ?_) (fun a ha => ?_)
    · exact h.lt_of_mem_takeWhile h.best hd
    · exact h.lt_of_mem_takeWhile hn (List.mem_reverse.1 ha)

theorem reorganizeTo (node : Ptr) : Turned t node (t.reorganizeTo env node).1 :=
  Turned.reorganizeTo h.linked h.best node

theorem extended (hn : node < t.fresh) (he : Extended node t u) : Moves t u := by
  refine Moves.of_relabel he.relabel ?_
  obtain hbest | ⟨hbest, -⟩ := he.moved
  · exact hbest ▸ h.best
  · exact hbest ▸ hn

theorem connectBestChain (hn : node < t.fresh) (fastAdd : Bool) : Moves t (t.connectBestChain env node fastAdd).1 := by
  unfold Tree.connectBestChain
  split
  · exact h.extended hn (Extended.extendBest t node _).1
  split
  · exact ⟨Relabel.refl t, h.best⟩
  split
  · exact ⟨Relabel.refl t, h.best⟩
  · exact h.turned hn (h.reorganizeTo node)

end

end Sound

/-! ## New nodes -/

/-- Nodes are added; the old ones keep everything but their statuses, and none of them gets an invalid flag. -/
structure Grows (t u : Tree) : Prop where
  fresh : t.fresh ≤ u.fresh
  node : ∀ p < t.fresh, u.mem p = { t.mem p with status := u.status p }
  flags : ∀ p < t.fresh, NoWorse (u.status p) (t.status p)
  best : u.best = t.best
  header : u.header = t.header

namespace Grows

variable {p : Ptr}

theorem of_clears (h : Clears t u) (hbest : u.best = t.best) : Grows t u :=
  ⟨h.fresh.ge, fun p _ => h.node p, fun p _ => h.noWorse p, hbest, h.header⟩

theorem work (h : Grows t u) (hp : p < t.fresh) : u.work p = t.work p := by rw [Tree.work, h.node p hp]; rfl

theorem hash (h : Grows t u) (hp : p < t.fresh) : u.hash p = t.hash p := by rw [Tree.hash, h.node p hp]; rfl

theorem lineage (h : Grows t u) (ht : Sound t) (hp : p < t.fresh) : lineage u.mem p = lineage t.mem p := by
  refine ht.linked.lineage_congr (fun q hq => ?_) hp
  rw [h.node q hq]
  exact ⟨rfl, rfl⟩

theorem bestChain (h : Grows t u) (ht : Sound t) : u.bestChain = t.bestChain := by
  rw [Tree.bestChain, h.best]
  exact h.lineage ht ht.best

section

variable (header : BlockHeader) (prev : Ptr) (status : BlockStatus)

theorem mem_fresh : (t.addNode params header prev status).mem t.fresh =
    { initBlockNode t.mem params.blockHash header (some prev) with status } := update_self ..

theorem mem_old (hp : p < t.fresh) : (t.addNode params header prev status).mem p = t.mem p :=
  update_of_ne (Nat.ne_of_lt hp) _ _

theorem addNode : Grows t (t.addNode params header prev status) := by
  refine ⟨Nat.le_succ _, fun p hp => ?_, fun p hp => ?_, rfl, rfl⟩
  · rw [Tree.status, mem_old _ _ _ hp]
  · rw [Tree.status, mem_old _ _ _ hp]
    exact NoWorse.refl _

end

end Grows

namespace Sound

theorem addNode (h : Sound t) {prev : Ptr} (hlookup : t.lookupNode header.prevBlock = some prev) (status : BlockStatus) :
    Sound (t.addNode params header prev status) := by
  obtain ⟨hprev, hprevHash⟩ := h.index _ _ hlookup
  have hold : ∀ p < t.fresh, _ := fun p => @Grows.mem_old params t p header prev status
  have hnew := @Grows.mem_fresh params t header prev status
  have hnode : ∀ mem, mem = (t.addNode params header prev status).mem → ∀ p < t.fresh + 1,
      (∀ q, (mem p).parent = some q → (q < t.fresh + 1 ∧ (mem p).height = (mem q).height + 1) ∧
        (mem p).parentHash = (mem q).hash ∧ (mem q).workSum ≤ (mem p).workSum) ∧
      ((mem p).parent = none → (mem p).height = 0) ∧ 0 ≤ (mem p).height := by
    rintro mem rfl p hp
    obtain hlt | rfl := Nat.lt_or_eq_of_le (Nat.le_of_lt_succ hp)
    · rw [hold p hlt]
      refine ⟨fun q hq => ?_, h.linked.root p hlt, h.linked.height p hlt⟩
      obtain ⟨hqn, hheight⟩ := h.linked.parent p hlt q hq
      rw [hold q hqn]
      exact ⟨⟨Nat.lt_succ_of_lt hqn, hheight⟩, h.linked.parentHash p hlt q hq, h.linked.work p hlt q hq⟩
    · rw [hnew]
      refine ⟨?_, nofun, Int.add_nonneg (h.linked.height prev hprev) Int.one_nonneg⟩
      rintro q ⟨⟩
      rw [hold prev hprev]
      exact ⟨⟨Nat.lt_succ_of_lt hprev, rfl⟩, hprevHash.symm, Nat.le_add_right _ _⟩
  have hnode := hnode _ rfl
  refine ⟨⟨fun p hp q hq => ((hnode p hp).1 q hq).1, fun p hp q hq => ((hnode p hp).1 q hq).2.1,
    fun p hp q hq => ((hnode p hp).1 q hq).2.2, fun p hp => (hnode p hp).2.1, fun p hp => (hnode p hp).2.2⟩,
    Nat.lt_succ_of_lt h.best, Nat.lt_succ_of_lt h.header, fun x p hp => ?_⟩
  · by_cases hx : x = params.blockHash header
    · rw [hx, Tree.lookupNode, Tree.addNode, AList.lookup_insert] at hp
      cases hp
      refine ⟨Nat.lt_succ_self _, ?_⟩
      rw [Tree.hash, hnew, hx]
      rfl
    · rw [Tree.lookupNode, Tree.addNode, AList.lookup_insert_ne hx] at hp
      obtain ⟨hlt, hhash⟩ := h.index x p hp
      refine ⟨Nat.lt_succ_of_lt hlt, ?_⟩
      rw [Tree.hash, hold p hlt]
      exact hhash

theorem storeBlock (h : Sound t) {prev : Ptr} (hprev : t.lookupNode header.prevBlock = some prev) :
    Grows t (t.storeBlock params header prev).1 ∧ Sound (t.storeBlock params header prev).1 ∧
      (t.storeBlock params header prev).2 < (t.storeBlock params header prev).1.fresh := by
  have hbody : Sound { t with bodies := insert (params.blockHash header) t.bodies } :=
    h.shape ⟨fun _ => rfl, rfl, rfl⟩ h.best h.header
  unfold Tree.storeBlock
  dsimp only
  split
  next p hp =>
    have hset : Clears _ (Tree.setStatusFlags { t with bodies := insert (params.blockHash header) t.bodies } p
      { dataStored := true }) := Relabel.setStatusFlags p rfl
    exact ⟨⟨le_refl _, (Grows.of_clears hset rfl).node, (Grows.of_clears hset rfl).flags, rfl, rfl⟩,
      hbody.relabel_best hset rfl, (hbody.index _ p hp).1⟩
  · have hadd : Grows { t with bodies := insert (params.blockHash header) t.bodies }
      (Tree.addNode params _ header prev _) :=
      Grows.addNode header prev { dataStored := true, headerStored := true }
    exact ⟨⟨hadd.fresh, hadd.node, hadd.flags, rfl, rfl⟩, hbody.addNode hprev _, Nat.lt_succ_self _⟩

theorem flushToDB (h : Sound t) : Sound t.flushToDB := h.relabel_best Relabel.flushToDB Tree.best_flushToDB

theorem setHeader (h : Sound t) (hn : node < t.fresh) : Sound { t with header := node } :=
  h.shape ⟨fun _ => rfl, rfl, rfl⟩ h.best hn

theorem setBest (h : Sound t) (hn : node < t.fresh) : Sound { t with best := node } :=
  h.shape ⟨fun _ => rfl, rfl, rfl⟩ hn h.header

theorem fresh_flushToDB (t : Tree) : t.flushToDB.fresh = t.fresh := Relabel.flushToDB.fresh

theorem acceptedBlock (h : Sound t) (hn : node < t.fresh) (isMainChain : Bool) :
    Sound (t.acceptedBlock env node isMainChain).1 := by
  have hu : Sound (t.unsetStatusFlags node { invalidAncestor := true }) :=
    h.relabel_best (Relabel.unsetStatusFlags node _) rfl
  unfold Tree.acceptedBlock
  dsimp only
  split
  · exact hu
  split
  · exact hu.flushToDB.setHeader ((fresh_flushToDB _).symm ▸ hn)
  · exact hu.flushToDB

theorem maybeAcceptBlock (h : Sound t) (accepts fastAdd : Bool) :
    Sound (t.maybeAcceptBlock params env header accepts fastAdd).1 := by
  unfold Tree.maybeAcceptBlock
  split
  · exact h
  next prev hprev =>
    split
    · exact h
    have hstore := @storeBlock params header t h prev hprev
    revert hstore
    generalize t.storeBlock params header prev = r
    rintro ⟨-, hu, hnode⟩
    dsimp only
    split
    · exact hu
    have hnode : r.2 < r.1.flushToDB.fresh := (fresh_flushToDB r.1).symm ▸ hnode
    have hmoves := @connectBestChain env r.1.flushToDB r.2 hu.flushToDB hnode fastAdd
    have hv := hu.flushToDB.moves hmoves
    split
    next v heq =>
      rw [heq] at hv
      exact hv
    next v isMainChain heq =>
      rw [heq] at hv hmoves
      exact hv.acceptedBlock (hmoves.fresh.symm ▸ hnode) isMainChain

theorem blockExists_clears (t : Tree) (hash : Hash) :
    Clears t (t.blockExists hash).1 ∧ (t.blockExists hash).1.best = t.best := by
  unfold Tree.blockExists
  split
  · split
    · exact ⟨(Relabel.unsetStatusFlags _ _).trans Relabel.flushToDB, Tree.best_flushToDB⟩
    · exact ⟨Relabel.refl t, rfl⟩
  · exact ⟨Relabel.refl t, rfl⟩

theorem clearHeaderMark_clears (t : Tree) (prev node : Ptr) :
    Clears t (t.clearHeaderMark prev node).1 ∧ (t.clearHeaderMark prev node).1.best = t.best := by
  unfold Tree.clearHeaderMark
  split
  · exact ⟨Relabel.refl t, rfl⟩
  split
  · exact ⟨Relabel.unsetStatusFlags _ _, rfl⟩
  · exact ⟨Relabel.refl t, rfl⟩

/-! What holds after a call, from what holds after the calls it makes. -/

section Keeps

variable {I : Tree → Prop} {accepts fastAdd flushDue : Bool}

theorem processBlock_keeps (hsame : ∀ u, Clears t u → u.best = t.best → I u)
    (hnext : ∀ u, Clears t u → u.best = t.best → I (u.maybeAcceptBlock params env header accepts fastAdd).1) :
    I (t.processBlock params env header accepts fastAdd).1 := by
  obtain ⟨hclears, hbest⟩ := blockExists_clears t (params.blockHash header)
  unfold Tree.processBlock
  split
  next u heq =>
    rw [heq] at hclears hbest
    exact hsame u hclears hbest
  next u heq =>
    rw [heq] at hclears hbest
    exact hnext u hclears hbest

theorem resumeBlockConnect_keeps (hsame : I t) (hnext : I (t.maybeAcceptBlock params env header accepts fastAdd).1) :
    I (t.resumeBlockConnect params env header accepts fastAdd).1 := by
  unfold Tree.resumeBlockConnect
  dsimp only
  split
  · exact hsame
  split
  · exact hsame
  · exact hnext

theorem extendHeader_keeps (hsame : I t)
    (hmove : (t.mem node).parentHash = t.hash t.header ∨ t.work t.header < t.work node → I { t with header := node })
    (hflush : ∀ u, I u → I u.flushToDB) : I (t.extendHeader node flushDue) := by
  unfold Tree.extendHeader
  have hu : I (if (t.mem node).parentHash = t.hash t.header ∨ t.work t.header < t.work node
      then { t with header := node } else t) := by
    split
    next hmore => exact hmove hmore
    · exact hsame
  dsimp only
  split
  · exact hflush _ hu
  · exact hu

theorem processBlockHeader_keeps (hsame : ∀ u, Clears t u → u.best = t.best → I u)
    (hnew : t.lookupNode (params.blockHash header) = none → ∀ prev, t.lookupNode header.prevBlock = some prev →
      I ((t.addNode params header prev { headerStored := true }).extendHeader t.fresh flushDue))
    (hold : ∀ p u, t.lookupNode (params.blockHash header) = some p → Clears t u → u.best = t.best →
      I (u.extendHeader p flushDue)) :
    I (t.processBlockHeader params header accepts flushDue).1 := by
  have hself := hsame t (Relabel.refl t) rfl
  unfold Tree.processBlockHeader
  split
  · exact hself
  next prev hprev =>
    split
    · exact hself
    split
    next hnone =>
      split
      · exact hself
      · exact hnew hnone prev hprev
    next p hp =>
      obtain ⟨hclears, hbest⟩ := clearHeaderMark_clears t prev p
      split
      next u heq =>
        rw [heq] at hclears hbest
        exact hsame u hclears hbest
      next u heq =>
        rw [heq] at hclears hbest
        split
        · exact hsame u hclears hbest
        split
        · exact hsame u hclears hbest
        · exact hold p u hp hclears hbest

theorem removeBlockData_keeps {hash : Hash} (hsame : I t) (hbody : I { t with bodies := t.bodies.erase hash })
    (hclears : ∀ {u v}, I u → Clears u v → v.best = u.best → I v) : I (t.removeBlockData env hash).1 := by
  unfold Tree.removeBlockData
  split
  · exact hsame
  dsimp only
  split
  · exact hbody
  · exact hclears (hclears hbody (Relabel.unsetStatusFlags _ _) rfl) Relabel.flushToDB Tree.best_flushToDB

end Keeps

theorem processBlock (h : Sound t) (accepts fastAdd : Bool) :
    Sound (t.processBlock params env header accepts fastAdd).1 :=
  processBlock_keeps (fun _ => h.relabel_best) fun _ hc hb => (h.relabel_best hc hb).maybeAcceptBlock accepts fastAdd

theorem resumeBlockConnect (h : Sound t) (accepts fastAdd : Bool) :
    Sound (t.resumeBlockConnect params env header accepts fastAdd).1 :=
  resumeBlockConnect_keeps h (h.maybeAcceptBlock accepts fastAdd)

theorem extendHeader (h : Sound t) (hn : node < t.fresh) (flushDue : Bool) : Sound (t.extendHeader node flushDue) :=
  extendHeader_keeps h (fun _ => h.setHeader hn) fun _ => flushToDB

theorem processBlockHeader (h : Sound t) (accepts flushDue : Bool) :
    Sound (t.processBlockHeader params header accepts flushDue).1 :=
  processBlockHeader_keeps (fun _ => h.relabel_best)
    (fun _ _ hprev => (h.addNode hprev _).extendHeader (Nat.lt_succ_self _) flushDue)
    fun _ _ hp hc hb => (h.relabel_best hc hb).extendHeader (hc.fresh.symm ▸ (h.index _ _ hp).1) flushDue

end Sound

end IniNode.Forks
