import IniNode.Index.ChainView
/-!
# The block index and its window

`blockIndex` keeps the nodes of the most recent blocks and gives the structs of the older ones back to a
pool. `evictWindow` decides with one set of bounds which nodes go and with another which links it cuts.
-/

open IniNode.Lib

namespace IniNode

def sugarPowAveragingWindow : Nat := 510

def medianTimeBlocks : Nat := 11

def difficultyProtectDepth : Nat := sugarPowAveragingWindow + medianTimeBlocks

def blockFlushBatchSize : Nat := 1000

/-- The value of an `int32` sum. -/
def int32 (x : Int) : Int := x.bmod (2 ^ 32)

theorem int32_of_lt {x : Int} (hl : -2 ^ 31 ≤ x) (hh : x < 2 ^ 31) : int32 x = x :=
  Int.bmod_eq_of_le (by omega) (by omega)

/-- `blockIndex`, with the memory its nodes are in. Addresses from `fresh` on have never been used;
`pool` is `blockNodePool`. -/
structure BlockIndex where
  mem : Memory
  fresh : Ptr
  pool : List Ptr
  index : AList fun _ : Hash => Ptr
  dirty : List Ptr
  bestChain : ChainView
  bestHeader : ChainView
  windowSize : Int
  ready : Bool
  evictCount : Nat

namespace BlockIndex

variable (bi : BlockIndex)

def lookupNode (hash : Hash) : Option Ptr := bi.index.lookup hash

def nodes : List Ptr := vals bi.index

def alloc (node : BlockNode) : BlockIndex :=
  { bi with mem := Function.update bi.mem bi.fresh node, fresh := bi.fresh + 1 }

def addNode (node : Ptr) : BlockIndex :=
  { bi with index := bi.index.insert (bi.mem node).hash node }

def windowBoundary (tipHeight : Int) : Int :=
  if bi.windowSize ≤ 0 ∨ tipHeight ≤ 0 then 0 else max (tipHeight - bi.windowSize) 0

theorem windowBoundary_nonneg (h : Int) : 0 ≤ bi.windowBoundary h := by
  unfold windowBoundary
  split <;> omega

def tipHeight (view : ChainView) : Int :=
  match view.tip with
  | none => -1
  | some p => (bi.mem p).height

/-! ## Eviction -/

/-- The bounds of one eviction: what lies below the two boundaries is out of the windows, what lies
between the two frontiers is close to the tip of the best chain. -/
structure Bounds where
  chain : Int
  header : Int
  frontierLow : Int
  frontierHigh : Int
deriving DecidableEq, Repr

/-- The bounds `evictWindow` works with, or none when it returns at once. -/
def bounds : Option Bounds :=
  let headerBoundary := bi.windowBoundary (bi.tipHeight bi.bestHeader)
  if bi.windowSize ≤ 0 ∨ bi.ready = false ∨ headerBoundary ≤ 0 then none
  else
    let chainTip := bi.tipHeight bi.bestChain
    some
      { chain := max (bi.windowBoundary chainTip - difficultyProtectDepth) 0
        header := max (headerBoundary - difficultyProtectDepth) 0
        frontierLow := int32 (chainTip - bi.windowSize)
        frontierHigh := int32 (chainTip + bi.windowSize) }

theorem bounds_eq {bi : BlockIndex} {b : Bounds} (h : bi.bounds = some b) :
    b = ⟨max (bi.windowBoundary (bi.tipHeight bi.bestChain) - difficultyProtectDepth) 0,
      max (bi.windowBoundary (bi.tipHeight bi.bestHeader) - difficultyProtectDepth) 0,
      int32 (bi.tipHeight bi.bestChain - bi.windowSize), int32 (bi.tipHeight bi.bestChain + bi.windowSize)⟩ := by
  unfold bounds at h
  dsimp only at h
  split at h
  · cases h
  · exact (Option.some.inj h).symm

variable (b : Bounds)

def Bounds.inFrontier (height : Int) : Prop := b.frontierLow ≤ height ∧ height ≤ b.frontierHigh
deriving Decidable

/-- What the first loop of `evictWindow` removes. -/
def outOfWindow (p : Ptr) : Prop :=
  (bi.mem p).height < b.header ∧ ¬ bi.bestChain.contains bi.mem p ∧ ¬ b.inFrontier (bi.mem p).height
deriving Decidable

/-- The height below which the second loop of `evictWindow` cuts the links of a node. -/
def severBound (p : Ptr) : Int :=
  if bi.bestChain.contains bi.mem p ∨
      (bi.mem p).height < b.header ∧ b.frontierLow ≤ (bi.mem p).height then b.chain
  else b.header

variable (mem : Memory)

/-- A link, unless it leads below the bound. -/
def cutBelow (bound : Int) (link : Option Ptr) : Option Ptr :=
  link.filter fun q => bound ≤ (mem q).height

/-- The memory after the second loop, over the nodes that stay in the index. -/
def severLinks (kept : List Ptr) : Memory := fun p =>
  let n := bi.mem p
  if p ∈ kept then
    { n with
      parent := cutBelow bi.mem (bi.severBound b p) n.parent
      ancestor := cutBelow bi.mem (bi.severBound b p) n.ancestor }
  else n

def severAnchor (anchor : Option Ptr) : Memory :=
  match anchor with
  | none => mem
  | some p => mem.sever p

variable (a : Option Ptr)

theorem severAnchor_apply (p : Ptr) :
    severAnchor mem a p = if a = some p then { mem p with parent := none, ancestor := none } else mem p := by
  cases a with
  | none => rfl
  | some q =>
    simp only [severAnchor, Memory.sever, Function.update_apply, Option.some.injEq]
    by_cases h : p = q
    · subst h
      simp
    · rw [if_neg h, if_neg (Ne.symm h)]

theorem severAnchor_parent (p : Ptr) : (severAnchor mem a p).parent = if a = some p then none else (mem p).parent := by
  rw [severAnchor_apply]
  split <;> rfl

theorem severAnchor_data (p : Ptr) : severAnchor mem a p =
      { mem p with parent := (severAnchor mem a p).parent, ancestor := (severAnchor mem a p).ancestor } := by
  rw [severAnchor_apply]
  split <;> rfl

def evicted : List Ptr :=
  match bi.bounds with
  | none => []
  | some b => bi.nodes.filter fun p => bi.outOfWindow b p

/-- What leaves the window goes to the pool. -/
def evictWindow : BlockIndex :=
  match bi.bounds with
  | none => bi
  | some b =>
    let index := retain (fun p => ¬ bi.outOfWindow b p) bi.index
    let mem := bi.severLinks b (vals index)
    let mem := severAnchor mem (bi.bestChain.anchor b.chain)
    let mem := severAnchor mem (bi.bestHeader.anchor b.header)
    { bi with
      mem
      index
      bestChain := bi.bestChain.pruneBelow b.chain
      bestHeader := bi.bestHeader.pruneBelow b.header
      pool := bi.evicted ++ bi.pool }

end BlockIndex

end IniNode
