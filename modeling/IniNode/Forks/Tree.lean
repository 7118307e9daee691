import IniNode.Index.Flush
/-!
# The block tree

The block index when all of it stays in memory, as it does without a header window. Nodes are objects: when a block is
removed from the index and comes back it gets a new node, and the children of the old one keep pointing at the old one.
A chain view is given by its tip: it holds the nodes that `setTip` finds down the parent pointers.
-/

namespace IniNode.Forks

open Lib

/-- The node and at most so many below it. -/
def lineageFrom (mem : Memory) : Nat → Ptr → List Ptr
  | 0, p => [p]
  | n + 1, p =>
    match (mem p).parent with
    | none => [p]
    | some q => p :: lineageFrom mem n q

/-- The nodes of the view whose tip is the node, from the tip down to genesis. -/
def lineage (mem : Memory) (p : Ptr) : List Ptr := lineageFrom mem (mem p).height.toNat p

/-- `BlockChain`, as far as it chooses between branches. `rows` is the status of each block in the block index bucket and
`savedHeader` the best header record. -/
structure Tree where
  mem : Memory
  fresh : Ptr
  index : AList fun _ : Hash => Ptr
  bodies : Finset Hash
  best : Ptr
  header : Ptr
  dirty : List Ptr := []
  rows : Store Hash BlockStatus
  savedHeader : Hash

namespace Tree

variable (t : Tree) (p : Ptr)

def hash : Hash := (t.mem p).hash

def work : Nat := (t.mem p).workSum

def status : BlockStatus := (t.mem p).status

/-- `KnownInvalid` of a node. -/
def marked : Bool := (t.status p).knownInvalid

def lookupNode (hash : Hash) : Option Ptr := t.index.lookup hash

def bestChain : List Ptr := lineage t.mem t.best

def headerChain : List Ptr := lineage t.mem t.header

def nodeByHeight (height : Int) : Option Ptr := t.bestChain.find? fun p => (t.mem p).height = height

def findFork : Option Ptr := (lineage t.mem p).find? (· ∈ t.bestChain)

def putStatus (status : BlockStatus) : Tree :=
  { t with mem := Function.update t.mem p { t.mem p with status }, dirty := p :: t.dirty }

def setStatusFlags (flags : BlockStatus) : Tree := t.putStatus p ((t.status p).set flags)

def unsetStatusFlags (flags : BlockStatus) : Tree := t.putStatus p ((t.status p).unset flags)

/-- A new node for the header, on top of `prev`, is added to the index. -/
def addNode (params : ChainParams) (t : Tree) (header : BlockHeader) (prev : Ptr) (status : BlockStatus) : Tree :=
  { t with
    mem := Function.update t.mem t.fresh { initBlockNode t.mem params.blockHash header (some prev) with status }
    fresh := t.fresh + 1
    index := t.index.insert (params.blockHash header) t.fresh
    dirty := t.fresh :: t.dirty }

def removeNode (hash : Hash) : Tree :=
  { t with index := t.index.erase hash, dirty := t.dirty.filter fun p => t.lookupNode hash ≠ some p }

/-- `flushToDB`, when the transaction commits. -/
def flushToDB : Tree :=
  if t.dirty = [] then t
  else
    { t with
      dirty := []
      rows := t.rows.writeAll (t.dirty.map fun p => ⟨t.hash p, some (t.status p)⟩)
      savedHeader := t.hash t.header }

def equals (a b : BlockNode) : Prop :=
  a.hash = b.hash ∧ a.workSum = b.workSum ∧ a.height = b.height ∧
    { a.header with prevBlock := zeroHash } = { b.header with prevBlock := zeroHash } ∧ a.status = b.status
deriving Decidable

/-- `IsAncestor`: whether the other node is an ancestor of the node. -/
def isAncestor (node other : Ptr) : Bool :=
  match (lineage t.mem node).find? fun p => (t.mem p).height = (t.mem other).height with
  | none => false
  | some p => (t.mem node).height ≠ (t.mem p).height ∧ equals (t.mem p) (t.mem other)

end Tree

/-- How a check ends. -/
inductive Verdict
  | ok
  | rule
  | other
deriving DecidableEq

/-- How far the connection of a block gets: the inputs are not found, `connectBlock` fails with a rule error or
another error, or it fails after the tip has moved. -/
inductive Connected
  | ok
  | noInputs
  | ruleFailed
  | failed
  | failedAfter
deriving DecidableEq

/-- What a call meets. `shuffle` is the order in which the index is walked. -/
structure Env where
  check : Hash → Verdict := fun _ => .ok
  connect : Hash → Connected := fun _ => .ok
  /-- The block and its spend journal can be read. -/
  loads : Hash → Bool := fun _ => true
  /-- The transaction of `disconnectBlock` commits. -/
  disconnects : Hash → Bool := fun _ => true
  /-- The flush before a block is connected commits, and the one after it. -/
  stores : Bool := true
  clears : Bool := true
  /-- The transactions of `InvalidateHeaderChain` succeed: the reading one, the one that removes blocks and the last. -/
  reads : Bool := true
  removes : Bool := true
  persists : Bool := true
  shuffle : List Hash → List Hash := id
  shuffle_perm : ∀ l, (shuffle l).Perm l := by exact fun l => List.Perm.refl l

end IniNode.Forks
