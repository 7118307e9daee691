import IniNode.Index.Node
/-!
# Chain views

A flat view of one branch of the block tree, from the view's base up to its tip.
-/

namespace IniNode

/-- `chainView`: the node at each height from the base on, where one was found. -/
structure ChainView where
  nodes : List (Option Ptr) := []
  base : Int := 0
deriving DecidableEq, Repr

namespace ChainView

variable (c : ChainView)

def tip : Option Ptr := c.nodes.getLast?.join

def height : Int := if c.nodes = [] then -1 else c.base + c.nodes.length - 1

variable (height : Int)

def nodeByHeight : Option Ptr :=
  if height < c.base ∨ c.base + c.nodes.length ≤ height then none
  else (c.nodes[(height - c.base).toNat]?).join

def contains (mem : Memory) (c : ChainView) (node : Ptr) : Prop :=
  c.nodeByHeight (mem node).height = some node
deriving Decidable

/-- The walk of `setTip` down the parent pointers, which stops at the first node that is in its place. -/
def place (mem : Memory) (base : Int) : Nat → Option Ptr → List (Option Ptr) → List (Option Ptr)
  | 0, _, nodes => nodes
  | _, none, nodes => nodes
  | fuel + 1, some p, nodes =>
    if (mem p).height < base then nodes
    else
      let i := ((mem p).height - base).toNat
      if nodes[i]? = some (some p) then nodes
      else place mem base fuel (mem p).parent (nodes.set i (some p))

def setTip (mem : Memory) (c : ChainView) : Option Ptr → ChainView
  | none => { nodes := [], base := 0 }
  | some p =>
    if (mem p).height < c.base then c
    else
      let needed := ((mem p).height - c.base).toNat + 1
      let nodes := (c.nodes ++ List.replicate needed none).take needed
      { c with nodes := place mem c.base needed (some p) nodes }

/-- The node whose links `pruneBelow` cuts: the one that becomes the lowest of the view. -/
def anchor : Option Ptr :=
  if height ≤ c.base then none else c.nodeByHeight height

/-- `pruneBelow`, the view's side. -/
def pruneBelow : ChainView :=
  if height ≤ c.base then c
  else { nodes := c.nodes.drop (height - c.base).toNat, base := height }

theorem nodeByHeight_eq_some {c : ChainView} {h : Int} {p : Ptr} :
    c.nodeByHeight h = some p ↔ c.base ≤ h ∧ c.nodes[(h - c.base).toNat]? = some (some p) := by
  unfold nodeByHeight
  constructor
  · intro hp
    split at hp
    · cases hp
    · exact ⟨by omega, Option.join_eq_some_iff.1 hp⟩
  · rintro ⟨hb, hp⟩
    obtain ⟨hlt, -⟩ := List.getElem?_eq_some_iff.1 hp
    rw [if_neg (by omega), hp]
    rfl

theorem nodes_pruneBelow_subset (h : Int) : (c.pruneBelow h).nodes ⊆ c.nodes := by
  unfold pruneBelow
  split
  · exact List.Subset.refl _
  · exact List.drop_subset _ _

end ChainView

end IniNode
