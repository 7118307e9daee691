import IniNode.Chain.IndexRows
import IniNode.Index.BlockIndex
/-!
# Adding nodes, changing them and writing them out

`newBlockNode` takes a struct from the pool when there is one. New and changed nodes are dirty until their rows
are written, by `flushToDB` at once or through the write queue later; either way `finishFlushLocked` then clears
the dirty set and now and then evicts what has left the window.
-/

open Function

namespace IniNode

def BlockStatus.set (s flags : BlockStatus) : BlockStatus where
  dataStored := s.dataStored || flags.dataStored
  valid := s.valid || flags.valid
  validateFailed := s.validateFailed || flags.validateFailed
  invalidAncestor := s.invalidAncestor || flags.invalidAncestor
  headerStored := s.headerStored || flags.headerStored

def BlockStatus.unset (s flags : BlockStatus) : BlockStatus where
  dataStored := s.dataStored && !flags.dataStored
  valid := s.valid && !flags.valid
  validateFailed := s.validateFailed && !flags.validateFailed
  invalidAncestor := s.invalidAncestor && !flags.invalidAncestor
  headerStored := s.headerStored && !flags.headerStored

namespace BlockIndex

/-! ## Nodes -/

variable (bi : BlockIndex)

def pooled (recycled : Option Ptr) : Option Ptr := recycled.filter (· ∈ bi.pool)

/-- The struct a new node is put in. -/
def newPtr (recycled : Option Ptr) : Ptr := (bi.pooled recycled).getD bi.fresh

/-- `newBlockNode`: the struct is overwritten before its ancestor is looked for. -/
def newBlockNode (params : ChainParams) (bi : BlockIndex) (blockHeader : BlockHeader) (parent : Option Ptr)
    (recycled : Option Ptr) : BlockIndex :=
  let p := bi.newPtr recycled
  let node := { initBlockNode bi.mem params.blockHash blockHeader parent with ancestor := none }
  let mem := update bi.mem p node
  { bi with
    mem := update mem p { node with ancestor := buildAncestor mem parent node.height }
    fresh := if (bi.pooled recycled).isSome then bi.fresh else bi.fresh + 1
    pool := bi.pool.erase p }

variable (node : Ptr)

def markDirty : BlockIndex :=
  { bi with dirty := if node ∈ bi.dirty then bi.dirty else node :: bi.dirty }

/-- `AddNode`. -/
def addDirtyNode : BlockIndex := (bi.addNode node).markDirty node

def putStatus (status : BlockStatus) : BlockIndex :=
  { bi with mem := update bi.mem node { bi.mem node with status } }

def setStatusFlags (flags : BlockStatus) : BlockIndex :=
  (bi.putStatus node ((bi.mem node).status.set flags)).markDirty node

def unsetStatusFlags (flags : BlockStatus) : BlockIndex :=
  (bi.putStatus node ((bi.mem node).status.unset flags)).markDirty node

/-- A severed node is linked to its parent again. -/
def relink (node prev : Ptr) : BlockIndex :=
  if (bi.mem node).parent = none then
    let mem := update bi.mem node { bi.mem node with parent := some prev }
    { bi with
      mem := update mem node
        { mem node with ancestor := buildAncestor mem (some prev) (mem node).height } }
  else bi

def removeNode (hash : Hash) : BlockIndex :=
  match bi.lookupNode hash with
  | none => bi
  | some p => { bi with index := bi.index.erase hash, dirty := bi.dirty.filter (· ≠ p) }

/-! ## Writing them out -/

def nodeRow : NodeRowSnapshot where
  hash := (bi.mem node).hash
  height := (bi.mem node).height
  row := ⟨(bi.mem node).header, (bi.mem node).status⟩
  hashIndex := true
  heightIndex := decide (bi.bestHeader.contains bi.mem node)
  heightIndexChain := decide (bi.bestChain.contains bi.mem node)

def snapshotDirty : List NodeRowSnapshot := bi.dirty.map bi.nodeRow

def evicts (forceEvict : Bool) : Bool :=
  forceEvict || decide (blockFlushBatchSize ≤ bi.evictCount + 1)

def finishFlush (forceEvict : Bool) : BlockIndex :=
  let bi' := { bi with dirty := [] }
  if forceEvict then bi'.evictWindow
  else if blockFlushBatchSize ≤ bi.evictCount + 1 then { bi' with evictCount := 0 }.evictWindow
  else { bi' with evictCount := bi.evictCount + 1 }

end BlockIndex

end IniNode
