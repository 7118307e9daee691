import IniNode.Forks.Detach
/-!
# A header rollback that fails

`InvalidateHeaderChain` with the snapshot of the best state, which `disconnectBlock` and the end of the call replace. The
call marks headers and moves the header tip before it knows that its database operations succeed, and takes nothing back.
-/

open List

namespace IniNode.Forks

open Lib

/-! ## The best state -/

/-- What the best state takes from a block. -/
structure BlockInfo where
  size : UInt64
  weight : UInt64
  numTxns : UInt64

structure BestState where
  hash : Hash
  height : Int
  bits : Nat
  blockSize : UInt64
  blockWeight : UInt64
  numTxns : UInt64
  totalTxns : UInt64
  medianTime : Int
deriving DecidableEq

def calcPastMedianTime (mem : Memory) (p : Ptr) : Int :=
  let timestamps := ((lineage mem p).take medianTimeBlocks).map fun q => (mem q).header.timestamp
  (timestamps.insertionSort (· ≤ ·))[timestamps.length / 2]?.getD 0

/-- `newBestState`, for a node whose block can be read. -/
def newBestState (blocks : Hash → BlockInfo) (t : Tree) (p : Ptr) (totalTxns : UInt64) : BestState :=
  let info := blocks (t.hash p)
  ⟨t.hash p, (t.mem p).height, (t.mem p).header.bits, info.size, info.weight, info.numTxns, totalTxns,
    calcPastMedianTime t.mem p⟩

/-- The block tree and `stateSnapshot`. -/
structure Chain where
  tree : Tree
  state : BestState

namespace Chain

variable (env : Env) (blocks : Hash → BlockInfo)

/-- `disconnectBlock`, on each node in turn. -/
def detachAll : List Ptr → Chain → Chain × Bool
  | [], c => (c, true)
  | n :: ns, c =>
    match (c.tree.mem n).parent with
    | none => (c, false)
    | some q =>
      if c.tree.hash n ≠ c.tree.hash c.tree.best ∨ !c.tree.loads env q then (c, false)
      else if !env.disconnects (c.tree.hash n) then ({ c with tree := c.tree.flushToDB }, false)
      else
        detachAll ns
          { tree := { c.tree.flushToDB with best := q }
            state := newBestState blocks c.tree q (c.state.totalTxns - (blocks (c.tree.hash n)).numTxns) }

variable (c : Chain) (detach : List Ptr)

/-- `reorganizeChain` without nodes to attach. -/
def reorganizeChain : Chain × Bool :=
  match c.tree.verifyReorganizationValidity env detach [] with
  | (t, false) => ({ c with tree := t }, false)
  | (t, true) => detachAll env blocks detach { c with tree := t }

def detachAbove : Chain × Bool :=
  if detach = [] then (c, true)
  else
    match c.reorganizeChain env blocks detach with
    | (c, false) => (c, false)
    | (c, true) =>
      if !env.removes then (c, false)
      else ({ c with tree := (detach.foldl Tree.removeDisconnected c.tree).flushToDB }, true)

/-- The number of transactions up to the rollback point; a block without a payload counts for nothing. -/
def rollbackTotalTxns : UInt64 :=
  (detach.filter fun p => c.tree.hash p ∈ c.tree.bodies).foldl
    (fun n p => n - (blocks (c.tree.hash p)).numTxns) c.state.totalTxns

def invalidateHeaderChain (rollbackHeight : Int) : Chain × Bool :=
  match c.tree.nodeByHeight rollbackHeight with
  | none => (c, false)
  | some rollbackNode =>
    let t := (c.tree.headerChain.filter fun p =>
      rollbackHeight < (c.tree.mem p).height).foldl Tree.invalidateDescendant c.tree
    if !env.reads then ({ c with tree := t }, false)
    else
      let t := { t with header := rollbackNode }
      let detach := t.bestChain.filter fun p => rollbackHeight < (t.mem p).height
      let totalTxns := rollbackTotalTxns blocks { c with tree := t } detach
      match ({ c with tree := t } : Chain).detachAbove env blocks detach with
      | (c, false) => (c, false)
      | (c, true) =>
        let c := { tree := { c.tree with best := rollbackNode }, state := newBestState blocks c.tree rollbackNode totalTxns }
        if !env.persists then (c, false) else ({ c with tree := c.tree.flushToDB }, true)

end Chain

/-! ## The tree of a chain -/

namespace Chain

variable {env : Env} {blocks : Hash → BlockInfo}

theorem tree_detachAll (ns : List Ptr) (c : Chain) :
    (detachAll env blocks ns c).map tree id = Tree.detachAll env ns c.tree := by
  induction ns generalizing c with
  | nil => rfl
  | cons n ns ih =>
    rw [detachAll, Tree.detachAll]
    cases (c.tree.mem n).parent with
    | none => rfl
    | some q =>
      dsimp only
      split_ifs
      · rfl
      · rfl
      · exact ih _

theorem tree_reorganizeChain (c : Chain) (detach : List Ptr) :
    (c.reorganizeChain env blocks detach).map tree id = c.tree.reorganizeChain env detach [] := by
  unfold reorganizeChain Tree.reorganizeChain
  obtain ⟨t, ok⟩ := c.tree.verifyReorganizationValidity env detach []
  cases ok with
  | false => rfl
  | true =>
    dsimp only
    rw [tree_detachAll]
    obtain ⟨u, ok⟩ := Tree.detachAll env detach t
    cases ok <;> rfl

theorem tree_detachAbove (c : Chain) (detach : List Ptr) :
    (c.detachAbove env blocks detach).map tree id = c.tree.detachAbove env detach := by
  unfold detachAbove Tree.detachAbove
  by_cases hnil : detach = []
  · rw [if_pos hnil, if_pos hnil]
    rfl
  · rw [if_neg hnil, if_neg hnil, ← tree_reorganizeChain]
    obtain ⟨u, ok⟩ := c.reorganizeChain env blocks detach
    cases ok with
    | false => rfl
    | true =>
      split_ifs <;> rfl

/-- The call does to the tree what it does without the snapshot. -/
theorem tree_invalidateHeaderChain (c : Chain) (rollbackHeight : Int) :
    (c.invalidateHeaderChain env blocks rollbackHeight).map tree id = c.tree.invalidateHeaderChain env rollbackHeight := by
  unfold invalidateHeaderChain Tree.invalidateHeaderChain
  cases c.tree.nodeByHeight rollbackHeight with
  | none => rfl
  | some rollbackNode =>
    dsimp only
    cases env.reads with
    | false => rfl
    | true =>
      rw [← tree_detachAbove ⟨_, c.state⟩]
      generalize Chain.detachAbove env blocks _ _ = r
      obtain ⟨u, ok⟩ := r
      cases ok with
      | false => rfl
      | true => cases env.persists <;> rfl

end Chain

/-! ## What a failed call leaves -/

/-- What a call that fails should leave as it was. -/
structure Kept (c d : Chain) : Prop where
  header : d.tree.header = c.tree.header
  best : d.tree.best = c.tree.best
  state : d.state = c.state
  status : ∀ p, d.tree.status p = c.tree.status p

theorem Kept.refl (c : Chain) : Kept c c := ⟨rfl, rfl, rfl, fun _ => rfl⟩

variable (env : Env) (t : Tree) (height : Int)

/-- The blocks above the height can be read, and disconnected from the tip on. -/
def CanDetach : Prop :=
  ∀ a ∈ t.bestChain, height < (t.mem a).height → t.loads env a = true ∧ t.Detaches env a
deriving Decidable

/-- The first thing that fails is the disconnection of the tip. -/
def FailsAtOnce : Prop :=
  (∃ a ∈ t.bestChain, height < (t.mem a).height ∧ t.loads env a = false) ∨ ¬ t.Detaches env t.best
deriving Decidable

section Sides

variable {env : Env} {blocks : Hash → BlockInfo} {c : Chain} {rollbackNode : Ptr}

theorem mem_above_iff (h : Sound c.tree) (hmem : rollbackNode ∈ c.tree.bestChain) {a : Ptr} :
    a ∈ c.tree.cutAt rollbackNode ↔
      a ∈ c.tree.bestChain ∧ (c.tree.mem rollbackNode).height < (c.tree.mem a).height := by
  rw [Tree.cutAt, Tree.bestChain, ← h.linked.filter_height h.best hmem, mem_filter, decide_eq_true_iff]

theorem reorganizeChain_takeWhile (h : Sound c.tree) :
    c.reorganizeChain env blocks (c.tree.cutAt rollbackNode) =
      if (c.tree.cutAt rollbackNode).all (c.tree.loads env) then
        Chain.detachAll env blocks (c.tree.cutAt rollbackNode) c
      else (c, false) := by
  rw [Chain.reorganizeChain, h.verify_takeWhile]
  cases (c.tree.cutAt rollbackNode).all (c.tree.loads env) <;> rfl

/-- The blocks above the rollback point are disconnected if each of them can be. -/
theorem reorganizeChain_ok_iff (h : Sound c.tree) (hmem : rollbackNode ∈ c.tree.bestChain) :
    (c.reorganizeChain env blocks (c.tree.cutAt rollbackNode)).2 = true ↔
      CanDetach env c.tree (c.tree.mem rollbackNode).height := by
  obtain ⟨-, hiff, -⟩ := @Sound.detachAll_spec env _ _ h _ h.best hmem _ _ (Relabel.refl c.tree) rfl rfl
  have htree := congrArg Prod.snd (@Chain.tree_detachAll env blocks (c.tree.cutAt rollbackNode) c)
  have hok : (Chain.detachAll env blocks (c.tree.cutAt rollbackNode) c).2 = true ↔
      ∀ a ∈ c.tree.cutAt rollbackNode, c.tree.Detaches env a :=
    (iff_of_eq (congrArg (· = true) htree)).trans hiff
  rw [reorganizeChain_takeWhile h]
  simp only [mem_above_iff h hmem] at hok
  constructor
  · intro hall a ha hlt
    split at hall
    next hloads =>
      exact ⟨List.all_eq_true.1 hloads a ((mem_above_iff h hmem).2 ⟨ha, hlt⟩), hok.1 hall a ⟨ha, hlt⟩⟩
    next => cases hall
  · intro hcan
    have hloads : (c.tree.cutAt rollbackNode).all (c.tree.loads env) = true := by
      rw [List.all_eq_true]
      intro a ha
      obtain ⟨ha, hlt⟩ := (mem_above_iff h hmem).1 ha
      exact (hcan a ha hlt).1
    rw [if_pos hloads]
    exact hok.2 fun a ⟨ha, hlt⟩ => (hcan a ha hlt).2

theorem takeWhile_eq_cons (h : Sound c.tree) (hmem : rollbackNode ∈ c.tree.bestChain)
    (hne : c.tree.best ≠ rollbackNode) :
    ∃ q < c.tree.fresh, (c.tree.mem c.tree.best).parent = some q ∧ rollbackNode ∈ lineage c.tree.mem q ∧
      c.tree.cutAt rollbackNode = c.tree.best :: (lineage c.tree.mem q).takeWhile (· ≠ rollbackNode) := by
  cases hparent : (c.tree.mem c.tree.best).parent with
  | none =>
    rw [Tree.bestChain, h.linked.lineage_none h.best hparent] at hmem
    exact absurd (mem_singleton.1 hmem).symm hne
  | some q =>
    have hchain : c.tree.bestChain = c.tree.best :: lineage c.tree.mem q := h.linked.lineage_some h.best hparent
    rw [hchain] at hmem
    rw [Tree.cutAt, hchain, takeWhile_cons_of_pos (by simpa using hne)]
    exact ⟨q, (h.linked.parent _ h.best q hparent).1, rfl, (mem_cons.1 hmem).resolve_left hne.symm, rfl⟩

theorem detaches_best_iff {q : Ptr} (hparent : (c.tree.mem c.tree.best).parent = some q) :
    c.tree.Detaches env c.tree.best ↔ env.disconnects (c.tree.hash c.tree.best) = true ∧ c.tree.loads env q = true := by
  rw [Tree.Detaches, hparent]
  simp

section

variable (h : Sound c.tree) (hmem : rollbackNode ∈ c.tree.bestChain)

include h hmem

theorem reorganizeChain_failsAtOnce (hne : c.tree.best ≠ rollbackNode)
    (hfails : FailsAtOnce env c.tree (c.tree.mem rollbackNode).height) :
    (c.reorganizeChain env blocks (c.tree.cutAt rollbackNode)).2 = false ∧
      Kept c (c.reorganizeChain env blocks (c.tree.cutAt rollbackNode)).1 := by
  rw [reorganizeChain_takeWhile h]
  split
  next hloads =>
    have hdet : ¬ c.tree.Detaches env c.tree.best := by
      obtain ⟨a, ha, hlt, hload⟩ | hdet := hfails
      · have := List.all_eq_true.1 hloads a ((mem_above_iff h hmem).2 ⟨ha, hlt⟩)
        rw [hload] at this
        cases this
      · exact hdet
    obtain ⟨q, -, hparent, -, hcons⟩ := takeWhile_eq_cons h hmem hne
    rw [detaches_best_iff hparent] at hdet
    rw [hcons, Chain.detachAll, hparent]
    dsimp only
    split
    · exact ⟨rfl, Kept.refl c⟩
    next hread =>
      split
      · refine ⟨rfl, Relabel.flushToDB.header, Tree.best_flushToDB, rfl, fun p => ?_⟩
        exact congrArg (fun mem => (mem p).status) Tree.mem_flushToDB
      next hdis => exact absurd ⟨by simpa using hdis, by simpa using hread⟩ hdet
  next => exact ⟨rfl, Kept.refl c⟩

theorem reorganizeChain_best_ne (hne : c.tree.best ≠ rollbackNode)
    (hfails : ¬ FailsAtOnce env c.tree (c.tree.mem rollbackNode).height) :
    (c.reorganizeChain env blocks (c.tree.cutAt rollbackNode)).1.tree.best ≠ c.tree.best := by
  obtain ⟨hread, hdet⟩ := not_or.1 hfails
  have hloads : (c.tree.cutAt rollbackNode).all (c.tree.loads env) = true := by
    rw [List.all_eq_true]
    intro a ha
    obtain ⟨ha, hlt⟩ := (mem_above_iff h hmem).1 ha
    by_contra hload
    exact hread ⟨a, ha, hlt, by simpa using hload⟩
  obtain ⟨q, hq, hparent, hroll, hcons⟩ := takeWhile_eq_cons h hmem hne
  obtain ⟨hdis, hload⟩ := (detaches_best_iff hparent).1 (not_not.1 hdet)
  obtain ⟨hbest, -, -⟩ :=
    @Sound.detachAll_spec env _ _ h _ hq hroll (c.tree.setBest q) _ (Relabel.setBest q) rfl rfl
  have htree := congrArg (fun r => r.1.best) (@Chain.tree_detachAll env blocks (c.tree.cutAt rollbackNode) c)
  rw [reorganizeChain_takeWhile h, if_pos hloads]
  intro heq
  have hbest : c.tree.best ∈ lineage c.tree.mem q := by
    rw [← heq]
    refine (htree.trans ?_ : _ = _) ▸ hbest
    rw [hcons, Tree.detachAll, hparent]
    simp [hload, hdis, Tree.setBest]
  have hheight := (h.linked.parent _ h.best q hparent).2
  obtain heq | hlt := h.linked.eq_or_height_lt hq hbest
  · rw [heq] at hheight
    omega
  · omega

theorem best_eq_iff : c.tree.cutAt rollbackNode = [] ↔ c.tree.best = rollbackNode := by
  constructor
  · intro hnil
    by_contra hne
    obtain ⟨q, -, -, -, hcons⟩ := takeWhile_eq_cons h hmem hne
    rw [hnil] at hcons
    cases hcons
  · rintro rfl
    obtain ⟨below, hbelow⟩ := head?_eq_some_iff.1 (h.linked.head?_lineage h.best)
    rw [Tree.cutAt, Tree.bestChain, hbelow, takeWhile_cons_of_neg (by simp)]

theorem detachAbove_ok_iff : (c.detachAbove env blocks (c.tree.cutAt rollbackNode)).2 = true ↔
      CanDetach env c.tree (c.tree.mem rollbackNode).height ∧ (c.tree.best ≠ rollbackNode → env.removes = true) := by
  have hok := @reorganizeChain_ok_iff env blocks c _ h hmem
  have hnil := best_eq_iff h hmem
  unfold Chain.detachAbove
  split
  next hempty =>
    refine ⟨fun _ => ⟨fun a ha hlt => ?_, fun hne => absurd (hnil.1 hempty) hne⟩, fun _ => rfl⟩
    have := (mem_above_iff h hmem).2 ⟨ha, hlt⟩
    rw [hempty] at this
    exact absurd this not_mem_nil
  next hcons =>
    have hne : c.tree.best ≠ rollbackNode := fun heq => hcons (hnil.2 heq)
    rw [← hok]
    generalize c.reorganizeChain env blocks (c.tree.cutAt rollbackNode) = r
    obtain ⟨d, ok⟩ := r
    cases ok with
    | false => simp
    | true => cases env.removes <;> simp [hne]

theorem detachAbove_failsAtOnce (hne : c.tree.best ≠ rollbackNode)
    (hfails : FailsAtOnce env c.tree (c.tree.mem rollbackNode).height) :
    (c.detachAbove env blocks (c.tree.cutAt rollbackNode)).2 = false ∧
      Kept c (c.detachAbove env blocks (c.tree.cutAt rollbackNode)).1 := by
  have hreorg := @reorganizeChain_failsAtOnce env blocks c _ h hmem hne hfails
  rw [Chain.detachAbove, if_neg fun hnil => hne ((best_eq_iff h hmem).1 hnil)]
  revert hreorg
  generalize c.reorganizeChain env blocks (c.tree.cutAt rollbackNode) = r
  rintro ⟨hok, hkept⟩
  obtain ⟨d, ok⟩ := r
  obtain rfl : ok = false := hok
  exact ⟨rfl, hkept⟩

theorem detachAbove_best_ne (hne : c.tree.best ≠ rollbackNode)
    (hfails : ¬ FailsAtOnce env c.tree (c.tree.mem rollbackNode).height)
    (herr : (c.detachAbove env blocks (c.tree.cutAt rollbackNode)).2 = false) :
    (c.detachAbove env blocks (c.tree.cutAt rollbackNode)).1.tree.best ≠ c.tree.best := by
  have hreorg := @reorganizeChain_best_ne env blocks c _ h hmem hne hfails
  rw [Chain.detachAbove, if_neg fun hnil => hne ((best_eq_iff h hmem).1 hnil)] at herr ⊢
  revert hreorg herr
  generalize c.reorganizeChain env blocks (c.tree.cutAt rollbackNode) = r
  intro herr hreorg
  obtain ⟨d, ok⟩ := r
  cases ok with
  | false => exact hreorg
  | true =>
    cases hr : env.removes with
    | false => simpa [hr] using hreorg
    | true => simp [hr] at herr

end

/-- The end of the call, once the blocks are disconnected and removed. -/
def Chain.finish (env : Env) (blocks : Hash → BlockInfo) (rollbackNode : Ptr) (totalTxns : UInt64) : Chain × Bool →
    Chain × Bool
  | (c, false) => (c, false)
  | (c, true) =>
    let c := { tree := { c.tree with best := rollbackNode }, state := newBestState blocks c.tree rollbackNode totalTxns }
    if !env.persists then (c, false) else ({ c with tree := c.tree.flushToDB }, true)

/-- The tree once the headers above the height are marked. -/
def Tree.markAbove : Tree :=
  (t.headerChain.filter fun p => height < (t.mem p).height).foldl Tree.invalidateDescendant t

variable {height : Int}

theorem invalidateHeaderChain_reads (hnode : c.tree.nodeByHeight height = some rollbackNode) (hreads : env.reads = true)
    {v : Tree} (hv : v = { c.tree.markAbove height with header := rollbackNode }) :
    c.invalidateHeaderChain env blocks height =
      Chain.finish env blocks rollbackNode
        (Chain.rollbackTotalTxns blocks { c with tree := v } (v.bestChain.filter fun p => height < (v.mem p).height))
        (({ c with tree := v } : Chain).detachAbove env blocks (v.bestChain.filter fun p => height < (v.mem p).height)) := by
  subst hv
  unfold Chain.invalidateHeaderChain
  rw [hnode, hreads]
  rfl

theorem finish_snd (totalTxns : UInt64) (r : Chain × Bool) :
    (Chain.finish env blocks rollbackNode totalTxns r).2 = true ↔ r.2 = true ∧ env.persists = true := by
  obtain ⟨d, ok⟩ := r
  cases ok <;> cases hp : env.persists <;> simp [Chain.finish, hp]

theorem header_finish (totalTxns : UInt64) (r : Chain × Bool) :
    (Chain.finish env blocks rollbackNode totalTxns r).1.tree.header = r.1.tree.header := by
  obtain ⟨d, ok⟩ := r
  cases ok with
  | false => rfl
  | true =>
    unfold Chain.finish
    dsimp only
    split
    · rfl
    · exact Relabel.flushToDB.header

theorem header_detachAbove (h : Sound c.tree) {detach : List Ptr} (hd : ∀ d ∈ detach, d < c.tree.fresh) :
    (c.detachAbove env blocks detach).1.tree.header = c.tree.header := by
  have htree := congrArg (fun r => r.1.header) (@Chain.tree_detachAbove env blocks c detach)
  refine (htree : _ = _).trans ?_
  unfold Tree.detachAbove
  split
  · rfl
  have hr := @Reorganized.reorganizeChain env detach [] c.tree
  have hmoves := h.reorganized hr hd nofun
  split
  next u heq =>
    rw [heq] at hr
    exact hr.relabel.header
  next u heq =>
    rw [heq] at hr hmoves
    split
    · exact hr.relabel.header
    · obtain ⟨-, -, -, -, hheader⟩ := (h.moves hmoves).removeAll detach
      exact Relabel.flushToDB.header.trans (hheader.trans hr.relabel.header)

/-- What the marks leave of the tree. -/
structure MarkedAbove (t : Tree) (rollbackNode : Ptr) (v : Tree) : Prop where
  shape : Shape t v
  bodies : v.bodies = t.bodies
  best : v.best = t.best
  header : v.header = rollbackNode
  sound : Sound v
  mem : rollbackNode ∈ v.bestChain
  filter : (v.bestChain.filter fun p => (v.mem rollbackNode).height < (v.mem p).height) = v.cutAt rollbackNode

theorem MarkedAbove.intro (h : Sound c.tree) (hnode : c.tree.nodeByHeight height = some rollbackNode) :
    MarkedAbove c.tree rollbackNode { c.tree.markAbove height with header := rollbackNode } := by
  obtain ⟨hmem, -⟩ := Sound.mem_of_nodeByHeight hnode
  obtain ⟨hrel, hbest⟩ := Sound.markAbove_relabel c.tree height
  have hlt := h.lt_of_mem_bestChain hmem
  have hsound : Sound { c.tree.markAbove height with header := rollbackNode } :=
    (h.relabel_best hrel hbest).setHeader (hrel.fresh.symm ▸ hlt)
  have hmem' : rollbackNode ∈ ({ c.tree.markAbove height with header := rollbackNode } : Tree).bestChain := by
    show rollbackNode ∈ lineage (c.tree.markAbove height).mem (c.tree.markAbove height).best
    rw [Tree.markAbove, hbest, hrel.lineage]
    exact hmem
  exact ⟨⟨hrel.node, hrel.fresh, hrel.index⟩, hrel.bodies, hbest, rfl, hsound, hmem',
    hsound.linked.filter_height hsound.best hmem'⟩

theorem MarkedAbove.canDetach_iff {t v : Tree} (hv : MarkedAbove t rollbackNode v) :
    CanDetach env v height ↔ CanDetach env t height := by
  have hloads : ∀ p, v.loads env p = t.loads env p := fun p => by
    rw [Tree.loads, hv.shape.hash, hv.bodies, Tree.loads]
  unfold CanDetach Tree.Detaches
  simp [Tree.bestChain, hv.best, hv.shape.lineage, hv.shape.height, hv.shape.parent, hv.shape.hash, hloads]

theorem markAbove_of_header (h : Sound c.tree) (hheight : (c.tree.mem c.tree.header).height = height) :
    ({ c.tree.markAbove height with header := c.tree.header } : Tree) = c.tree := by
  have hnil : (c.tree.headerChain.filter fun p => height < (c.tree.mem p).height) = [] := by
    rw [filter_eq_nil_iff]
    intro p hp
    rw [decide_eq_true_iff, ← hheight]
    obtain heq | hlt := h.linked.eq_or_height_lt h.header hp
    · rw [heq]
      exact Int.lt_irrefl _
    · omega
  rw [Tree.markAbove, hnil]
  rfl

theorem markAbove_status_iff : (∀ p, (c.tree.markAbove height).status p = c.tree.status p) ↔
      ∀ p ∈ c.tree.headerChain, height < (c.tree.mem p).height → c.tree.marked p = true := by
  constructor
  · intro hstatus p hp hlt
    have hmem : p ∈ c.tree.headerChain.filter fun p => height < (c.tree.mem p).height :=
      mem_filter.2 ⟨hp, decide_eq_true hlt⟩
    have hmarked := Tree.marked_of_mem_foldl _ c.tree hmem
    rwa [Tree.marked, ← Tree.markAbove, hstatus p] at hmarked
  · intro hmarked p
    suffices ∀ ps : List Ptr, (∀ q ∈ ps, c.tree.marked q = true) →
      ps.foldl Tree.invalidateDescendant c.tree = c.tree by
      rw [Tree.markAbove, this]
      intro q hq
      obtain ⟨hq, hlt⟩ := mem_filter.1 hq
      exact hmarked q hq (of_decide_eq_true hlt)
    intro ps hps
    induction ps with
    | nil => rfl
    | cons q ps ih =>
      obtain ⟨hq, hps⟩ := forall_mem_cons.1 hps
      rw [foldl_cons, Tree.invalidateDescendant, if_pos hq]
      exact ih hps

end Sides

/-- What makes a rollback to the node end as it began or succeed: with a reading transaction that fails, that the headers to
mark are known to be invalid; else that every operation succeeds, or that the header tip is the rollback point and either it
is the tip and the snapshot is its own, or the first disconnection fails. -/
def UndividedAt (blocks : Hash → BlockInfo) (c : Chain) (height : Int) (rollbackNode : Ptr) : Prop :=
  (env.reads = false → ∀ p ∈ c.tree.headerChain, height < (c.tree.mem p).height → c.tree.marked p = true) ∧
  (env.reads = true →
    (CanDetach env c.tree height ∧ (c.tree.best ≠ rollbackNode → env.removes = true) ∧ env.persists = true) ∨
    (c.tree.header = rollbackNode ∧
      (c.tree.best = rollbackNode → c.state = newBestState blocks c.tree rollbackNode c.state.totalTxns) ∧
      (c.tree.best ≠ rollbackNode → FailsAtOnce env c.tree height)))
deriving Decidable

/-- The call does all or nothing. -/
def Undivided (blocks : Hash → BlockInfo) (c : Chain) (height : Int) : Prop :=
  ∀ rollbackNode, c.tree.nodeByHeight height = some rollbackNode → UndividedAt env blocks c height rollbackNode
deriving Decidable

section Calls

variable {env : Env} {blocks : Hash → BlockInfo} {c : Chain} {rollbackNode : Ptr} {height : Int}

section

variable (h : Sound c.tree) (hnode : c.tree.nodeByHeight height = some rollbackNode) (hreads : env.reads = true)

include h hnode hreads

theorem invalidateHeaderChain_ok_iff : (c.invalidateHeaderChain env blocks height).2 = true ↔
      CanDetach env c.tree height ∧ (c.tree.best ≠ rollbackNode → env.removes = true) ∧ env.persists = true := by
  obtain ⟨-, hheight⟩ := Sound.mem_of_nodeByHeight hnode
  have hv := MarkedAbove.intro h hnode
  have hvheight := (hv.shape.height rollbackNode).trans hheight
  have hok := @detachAbove_ok_iff env blocks
    { c with tree := { c.tree.markAbove height with header := rollbackNode } } _ hv.sound hv.mem
  have hfilter := hv.filter
  rw [hvheight] at hok hfilter
  rw [invalidateHeaderChain_reads hnode hreads rfl, finish_snd, hfilter, hok, hv.canDetach_iff, hv.best, and_assoc]

theorem header_invalidateHeaderChain : (c.invalidateHeaderChain env blocks height).1.tree.header = rollbackNode := by
  have hv := MarkedAbove.intro h hnode
  rw [invalidateHeaderChain_reads hnode hreads rfl, header_finish]
  refine (@header_detachAbove env blocks { c with tree := _ } hv.sound _ fun d hd => ?_).trans rfl
  exact hv.sound.lt_of_mem_bestChain (mem_filter.1 hd).1

/-- When the header tip and the tip are the rollback point, only the snapshot can change. -/
theorem kept_of_tips (hheader : c.tree.header = rollbackNode) (hbest : c.tree.best = rollbackNode)
    (herr : (c.invalidateHeaderChain env blocks height).2 = false) :
    Kept c (c.invalidateHeaderChain env blocks height).1 ↔
    c.state = newBestState blocks c.tree rollbackNode c.state.totalTxns := by
  obtain ⟨hmem, hheight⟩ := Sound.mem_of_nodeByHeight hnode
  subst hheader
  have hv := (markAbove_of_header h hheight).symm
  have hnil : (c.tree.bestChain.filter fun p => height < (c.tree.mem p).height) = [] := by
    rw [← hheight]
    exact (h.linked.filter_height h.best hmem).trans ((best_eq_iff h hmem).2 hbest)
  rw [invalidateHeaderChain_reads hnode hreads hv, hnil] at herr ⊢
  have hpersists : env.persists = false := by
    have hnot := (not_congr (finish_snd _ _)).1 (Bool.eq_false_iff.1 herr)
    simpa [Chain.detachAbove] using hnot
  have hresult : Chain.finish env blocks c.tree.header (Chain.rollbackTotalTxns blocks { c with tree := c.tree } [])
      (({ c with tree := c.tree } : Chain).detachAbove env blocks []) =
        (⟨c.tree, newBestState blocks c.tree c.tree.header c.state.totalTxns⟩, false) := by
    have hself : ({ c.tree with best := c.tree.header } : Tree) = c.tree :=
      congrArg (fun b => ({ c.tree with best := b } : Tree)) hbest.symm
    simp only [Chain.detachAbove, if_true, Chain.finish, hpersists, hself]
    rfl
  rw [hresult]
  exact ⟨fun hk => hk.state.symm, fun hs => ⟨rfl, rfl, hs.symm, fun _ => rfl⟩⟩

/-- When the header tip is the rollback point and the tip is above it, a failed call keeps the tip only if it fails at
once. -/
theorem kept_of_header (hheader : c.tree.header = rollbackNode) (hbest : c.tree.best ≠ rollbackNode) :
    Kept c (c.invalidateHeaderChain env blocks height).1 ↔ FailsAtOnce env c.tree height := by
  obtain ⟨hmem, hheight⟩ := Sound.mem_of_nodeByHeight hnode
  subst hheader
  have hv := (markAbove_of_header h hheight).symm
  have hfilter : (c.tree.bestChain.filter fun p => height < (c.tree.mem p).height) =
      c.tree.cutAt c.tree.header := by
    rw [← hheight]
    exact h.linked.filter_height h.best hmem
  rw [invalidateHeaderChain_reads hnode hreads hv, hfilter]
  constructor
  · intro hkept
    by_contra hfails
    have hne := @detachAbove_best_ne env blocks c _ h hmem hbest (hheight ▸ hfails)
    have hkept := hkept.best
    revert hne hkept
    generalize c.detachAbove env blocks (c.tree.cutAt c.tree.header) = r
    intro hne hkept
    obtain ⟨d, ok⟩ := r
    cases ok with
    | false => exact hne rfl hkept
    | true =>
      cases hp : env.persists with
      | false | true => exact hbest ((by simpa [Chain.finish, hp] using hkept : c.tree.header = c.tree.best)).symm
  · intro hfails
    have hatonce := @detachAbove_failsAtOnce env blocks c _ h hmem hbest (hheight.symm ▸ hfails)
    revert hatonce
    generalize c.detachAbove env blocks (c.tree.cutAt c.tree.header) = r
    rintro ⟨hok, hkept⟩
    obtain ⟨d, ok⟩ := r
    obtain rfl : ok = false := hok
    exact hkept

end

end Calls

/-- In every state that calls lead to, a rollback that fails leaves the tips, the snapshot and the statuses as they were
just when nothing that it does before its failure matters. -/
theorem rollback_all_or_nothing_iff {params : ChainParams} {header : BlockHeader} {calls : List Call} {c : Chain}
    (hrun : run (Tree.step params) (Tree.genesis params header) calls = some c.tree) (env : Env)
    (blocks : Hash → BlockInfo) (height : Int) :
    ((c.invalidateHeaderChain env blocks height).2 = false → Kept c (c.invalidateHeaderChain env blocks height).1) ↔
      Undivided env blocks c height := by
  have h : Sound c.tree := (Sound.run_keeps (I := fun _ => True) (Sound.genesis _ _) trivial (fun _ _ _ => trivial)
    (along_of_forall (fun _ _ => trivial) _ _) hrun).1
  cases hnode : c.tree.nodeByHeight height with
  | none =>
    have hresult : c.invalidateHeaderChain env blocks height = (c, false) := by rw [Chain.invalidateHeaderChain, hnode]
    rw [hresult, Undivided, hnode]
    exact ⟨fun _ => nofun, fun _ _ => Kept.refl c⟩
  | some rollbackNode =>
    have hundivided : Undivided env blocks c height ↔ UndividedAt env blocks c height rollbackNode := by
      rw [Undivided, hnode]
      simp
    rw [hundivided, UndividedAt]
    cases hreads : env.reads with
    | false =>
      have hresult : c.invalidateHeaderChain env blocks height = ({ c with tree := c.tree.markAbove height }, false) := by
        rw [Chain.invalidateHeaderChain, hnode, hreads]
        rfl
      obtain ⟨hrel, hbest⟩ := Sound.markAbove_relabel c.tree height
      simp only [hresult, forall_const, Bool.false_eq_true, false_imp_iff, and_true, ← markAbove_status_iff]
      exact ⟨fun hk => hk.status, fun hs => ⟨hrel.header, hbest, rfl, hs⟩⟩
    | true =>
      have hok := @invalidateHeaderChain_ok_iff env blocks c _ _ h hnode hreads
      simp only [Bool.true_eq_false, false_imp_iff, forall_const, true_and]
      constructor
      · intro hkept
        by_cases hsucc : (c.invalidateHeaderChain env blocks height).2 = true
        · exact .inl (hok.1 hsucc)
        · have herr := Bool.eq_false_iff.2 hsucc
          have hkept := hkept herr
          have hheader := hkept.header.symm.trans (header_invalidateHeaderChain h hnode hreads)
          exact .inr ⟨hheader, fun hbest => (kept_of_tips h hnode hreads hheader hbest herr).1 hkept,
            fun hbest => (kept_of_header h hnode hreads hheader hbest).1 hkept⟩
      · rintro (hsucc | ⟨hheader, hsame, habove⟩) herr
        · rw [hok.2 hsucc] at herr
          cases herr
        · by_cases hbest : c.tree.best = rollbackNode
          · exact (kept_of_tips h hnode hreads hheader hbest herr).2 (hsame hbest)
          · exact (kept_of_header h hnode hreads hheader hbest).2 (habove hbest)

def twoBlocks : List Call := [.processBlock {} (numbered 1 2) true false, .processBlock {} (numbered 2 3) true false]

def oneTxnEach (_ : Hash) : BlockInfo := ⟨200, 800, 1⟩

def Chain.after (totalTxns : UInt64) : Chain := ⟨t, newBestState oneTxnEach t t.best totalTxns⟩

/-- A rollback to the tip whose last transaction fails leaves everything as it was. -/
theorem rollback_all_or_nothing_tip : ∃ t, run (Tree.step byNonce) Tree.firstBlock twoBlocks = some t ∧
      ((Chain.after t 3).invalidateHeaderChain { persists := false } oneTxnEach 2).2 = false ∧
      Kept (Chain.after t 3) ((Chain.after t 3).invalidateHeaderChain { persists := false } oneTxnEach 2).1 := by
  have hr : run (Tree.step byNonce) Tree.firstBlock twoBlocks = some _ := rfl
  exact ⟨_, hr, by decide +kernel, (rollback_all_or_nothing_iff (c := Chain.after _ 3) hr _ _ _).2 (by decide +kernel)
    (by decide +kernel)⟩

/-- The tip cannot be disconnected: the call fails, and the header tip is below the tip from then on. -/
theorem rollback_half_done : ∃ t, run (Tree.step byNonce) Tree.firstBlock twoBlocks = some t ∧
      ((Chain.after t 3).invalidateHeaderChain { disconnects := fun _ => false } oneTxnEach 1).2 = false ∧
      ¬ Kept (Chain.after t 3)
      ((Chain.after t 3).invalidateHeaderChain { disconnects := fun _ => false } oneTxnEach 1).1 := by
  refine ⟨_, rfl, by decide +kernel, fun hkept => ?_⟩
  have hheader := hkept.header
  revert hheader
  decide +kernel

end IniNode.Forks
