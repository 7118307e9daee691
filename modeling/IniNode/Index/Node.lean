import IniNode.Chain.Db
import IniNode.Index.WorkMath
/-!
# Block nodes

The nodes of the in-memory block index. They refer to each other by address, an address whose struct is
recycled comes to hold another block, and several parts of the chain mutate them; so a node is looked up
in a memory rather than carried by value.
-/

namespace IniNode

/-- The parts of `chaincfg.Params` the block index depends on, with `BlockHash`, the hash of a header. -/
structure ChainParams where
  blockHash : BlockHeader → Hash
  genesisHash : Hash
  powLimit : Int
  powLimitBits : Nat
  powNoRetargeting : Bool

abbrev Ptr := Nat

/-- `blockNode`. The header is the one its fields spell, with the parent's hash as the previous block. -/
structure BlockNode where
  parent : Option Ptr := none
  ancestor : Option Ptr := none
  hash : Hash
  header : BlockHeader
  workSum : Nat
  height : Int
  status : BlockStatus := {}
deriving DecidableEq, Repr

abbrev Memory := Ptr → BlockNode

abbrev BlockNode.parentHash (n : BlockNode) : Hash := n.header.prevBlock

def BlockStatus.knownInvalid (s : BlockStatus) : Bool := s.validateFailed || s.invalidAncestor

/-! ## Ancestors -/

/-- `invertLowestOne`, on a height that is not negative. -/
def invertLowestOne (n : Nat) : Nat := n &&& (n - 1)

def getAncestorHeight (height : Int) : Int := (invertLowestOne (invertLowestOne height.toNat) : Nat)

/-- The loop of `Ancestor`: every round goes down at least one height, so the heights to go bound it. -/
def ancestorFrom (mem : Memory) (height : Int) : Nat → Option Ptr → Option Ptr
  | _, none => none
  | 0, some p => if (mem p).height = height then some p else none
  | fuel + 1, some p =>
    if (mem p).height = height then some p
    else if (mem p).ancestor.isSome ∧ height ≤ getAncestorHeight (mem p).height then
      ancestorFrom mem height fuel (mem p).ancestor
    else ancestorFrom mem height fuel (mem p).parent

variable (mem : Memory)

def ancestor (node : Ptr) (height : Int) : Option Ptr :=
  if height < 0 ∨ (mem node).height < height then none
  else ancestorFrom mem height ((mem node).height - height).toNat (some node)

/-- `buildAncestor`: what it sets the ancestor of a node with this parent and height to. -/
def buildAncestor (parent : Option Ptr) (height : Int) : Option Ptr :=
  parent.bind fun p => ancestor mem p (getAncestorHeight height)

def initBlockNode (blockHash : BlockHeader → Hash) (blockHeader : BlockHeader) (parent : Option Ptr) : BlockNode :=
  let height := match parent with
    | none => 0
    | some p => (mem p).height + 1
  { parent
    ancestor := buildAncestor mem parent height
    hash := blockHash blockHeader
    header := blockHeader
    workSum := match parent with
      | none => calcWork blockHeader.bits
      | some p => (mem p).workSum + calcWork blockHeader.bits
    height }

def BlockNode.links (n : BlockNode) : List Ptr := n.parent.toList ++ n.ancestor.toList

theorem BlockNode.mem_links {n : BlockNode} {q : Ptr} : q ∈ n.links ↔ n.parent = some q ∨ n.ancestor = some q := by
  simp [links]

def Memory.sever (node : Ptr) : Memory :=
  Function.update mem node { mem node with parent := none, ancestor := none }

/-- The hash of a header is one above its nonce. -/
def nonceParams : ChainParams where
  blockHash header := header.nonce + 1
  genesisHash := 1
  powLimit := compactToBig 0x1f3fffff
  powLimitBits := 0x1f3fffff
  powNoRetargeting := false

def headerOn (prevBlock : Hash) (nonce : Nat) : BlockHeader := ⟨1, prevBlock, 0, 0, 0x1f3fffff, nonce⟩

end IniNode
