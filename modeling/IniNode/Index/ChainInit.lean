import IniNode.Index.BlockIndex
/-!
# Loading the block index

`initChainState` rebuilds the window of the block index from the database. It has two ways to do so: from
the best-tip snapshot it reads the heights of the window one by one, and without one it scans every row
of the block index bucket. Both then set the views on the stored tips, prune them, and mark the blocks
below the tip as valid.
-/

namespace IniNode

/-- The variables of the loading loops. -/
structure Loader where
  bi : BlockIndex
  lastNode : Option Ptr
  runningWorkSum : Option Nat

/-- The index before anything is loaded: no node, both views empty, the window set and not yet ready. -/
def emptyIndex (windowSize : Int) : BlockIndex where
  mem _ :=
    { hash := zeroHash
      header := { version := 0, prevBlock := 0, merkleRoot := 0, timestamp := 0, bits := 0, nonce := 0 }
      workSum := 0
      height := 0 }
  fresh := 0
  pool := []
  index := ∅
  dirty := []
  bestChain := {}
  bestHeader := {}
  windowSize
  ready := false
  evictCount := 0

namespace Loader

/-- The parent of the row being loaded: the node loaded last when it fits, else the one the index has. -/
def parent (l : Loader) (header : BlockHeader) : Option Ptr :=
  match l.lastNode with
  | some p => if header.prevBlock = (l.bi.mem p).hash then some p else l.bi.lookupNode header.prevBlock
  | none => l.bi.lookupNode header.prevBlock

/-- Adds the node to the index and makes it the last one. -/
def add (l : Loader) (node : BlockNode) : Loader :=
  { l with bi := (l.bi.alloc node).addNode l.bi.fresh, lastNode := some l.bi.fresh }

/-! ## From the snapshot -/

variable (params : ChainParams)

/-- The node the snapshot loop makes of a row. The lowest of the window is given the snapshot's work. -/
def snapshotNode (startH : Int) (snapWork : Nat) (l : Loader) (h : Int) (row : NodeRow) : BlockNode :=
  let node := initBlockNode l.bi.mem params.blockHash row.header (l.parent row.header)
  { node with
    height := h
    status := row.status
    workSum := if h = startH then snapWork else node.workSum }

/-- The snapshot loop over the given number of heights. When a row is missing it breaks off, with the
nodes added so far left in the index. -/
def snapshotLoop (params : ChainParams) (db : Db) (startH : Int) (snapWork : Nat) :
    Nat → Int → Loader → Except BlockIndex Loader
  | 0, _, l => .ok l
  | n + 1, h, l =>
    match (db.heightIndex h).bind db.fetchBlockRowByHash with
    | none => .error l.bi
    | some (row, _) =>
      snapshotLoop params db startH snapWork n (h + 1) (l.add (snapshotNode params startH snapWork l h row))

/-- The snapshot, when the height index confirms it. -/
def usableSnapshot (db : Db) : Option TipSnapshot :=
  db.bestTipSnapshot.filter fun snap => db.heightIndex snap.height = some snap.hash

/-- The snapshot path; an index to start the full scan from when it is not taken to its end. -/
def loadSnapshot (params : ChainParams) (db : Db) (bi : BlockIndex) : Except BlockIndex Loader :=
  match usableSnapshot db with
  | none => .error bi
  | some snap =>
    let startH := bi.windowBoundary snap.height
    snapshotLoop params db startH snap.work (snap.height - startH + 1).toNat startH ⟨bi, none, some snap.work⟩

/-! ## From the block index bucket -/

structure ScanBounds where
  chainBoundary : Int
  headerBoundary : Int
  chainHigh : Int

variable (b : ScanBounds)

/-- Whether the scan makes a node of a row at this height. -/
def ScanBounds.inWindow (rowHeight : Int) : Prop :=
  (b.chainBoundary ≤ rowHeight ∧ rowHeight ≤ b.chainHigh) ∨ b.headerBoundary ≤ rowHeight
deriving Decidable

/-- The work of the rows below the header boundary, this one included. -/
def ScanBounds.work (l : Loader) (rowHeight : Int) (row : NodeRow) : Option Nat :=
  if rowHeight < b.headerBoundary then some (l.runningWorkSum.getD 0 + calcWork row.header.bits)
  else l.runningWorkSum

/-- The node the scan makes of a row. One without a parent in the window is given the work below it. -/
def scanNode (l : Loader) (rowHeight : Int) (row : NodeRow) : BlockNode :=
  let parent := l.parent row.header
  let node := initBlockNode l.bi.mem params.blockHash row.header parent
  let node :=
    if parent = none ∧ 0 < rowHeight then
      { node with height := rowHeight, workSum := l.runningWorkSum.getD 0 + node.workSum }
    else node
  { node with status := row.status }

/-- One round of the scan; none when the first row is not the genesis block. -/
def scanRound (l : Loader) (rowHeight : Int) (row : NodeRow) : Option Loader :=
  let l := { l with runningWorkSum := b.work l rowHeight row }
  if ¬ b.inWindow rowHeight then some l
  else if l.parent row.header = none ∧ rowHeight = 0 ∧ params.blockHash row.header ≠ params.genesisHash then none
  else some (l.add (scanNode params l rowHeight row))

/-- The scan over the rows of the bucket, each with its height. -/
def scanLoop (params : ChainParams) (b : ScanBounds) : List (Int × NodeRow) → Loader → Option Loader
  | [], l => some l
  | (rowHeight, row) :: rows, l => (scanRound params b l rowHeight row).bind (scanLoop params b rows)

/-- The height of the stored header tip, or of the chain tip when there is none. -/
def headerTipHeight (db : Db) (stateHeight : Int) : Int :=
  match db.bestHeaderState with
  | none => stateHeight
  | some (_, height) => height

def loadScan (db : Db) (rows : List (Int × NodeRow)) (state : BestChainState) (bi : BlockIndex) : Option Loader :=
  let b : ScanBounds :=
    { chainBoundary := bi.windowBoundary state.height
      headerBoundary := bi.windowBoundary (headerTipHeight db state.height)
      chainHigh := int32 (state.height + bi.windowSize) }
  scanLoop params b rows ⟨bi, none, none⟩

end Loader

/-! ## The tips -/

/-- `SetTip` and `PruneBelow` on both views. -/
def installTips (bi : BlockIndex) (tip headerTip : Ptr) (stateHeight : Int) : BlockIndex :=
  let bestChain := bi.bestChain.setTip bi.mem (some tip)
  let bestHeader := bi.bestHeader.setTip bi.mem (some headerTip)
  if bi.windowSize ≤ 0 then { bi with bestChain, bestHeader }
  else
    let chainBoundary := bi.windowBoundary stateHeight
    let headerBoundary := bi.windowBoundary (bi.mem headerTip).height
    { bi with
      mem := BlockIndex.severAnchor (BlockIndex.severAnchor bi.mem (bestChain.anchor chainBoundary))
        (bestHeader.anchor headerBoundary)
      bestChain := bestChain.pruneBelow chainBoundary
      bestHeader := bestHeader.pruneBelow headerBoundary }

/-- Marks the ancestors of the tip as valid, over at most the given number of nodes. -/
def markValid : Nat → Option Ptr → Memory → Memory
  | 0, _, mem => mem
  | _, none, mem => mem
  | n + 1, some p, mem =>
    markValid n (mem p).parent
      (Function.update mem p { mem p with status := { (mem p).status with valid := true } })

/-- The end of `initChainState`, once the nodes are loaded. -/
def setTips (db : Db) (state : BestChainState) (l : Loader) : Option BlockIndex :=
  (l.bi.lookupNode state.hash <|> l.lastNode).map fun tip =>
    let headerTip := (db.bestHeaderState.bind fun s => l.bi.lookupNode s.1).getD tip
    let bi := installTips l.bi tip headerTip state.height
    { bi with mem := markValid bi.fresh (some tip) bi.mem }

/-- `initChainState` on a database that has a chain state: `rows` is what a cursor over the block index
bucket yields. None when the database is refused. -/
def initChainState (params : ChainParams) (windowSize : Int) (db : Db) (rows : List (Int × NodeRow)) :
    Option BlockIndex :=
  db.bestState.bind fun state =>
    match Loader.loadSnapshot params db (emptyIndex windowSize) with
    | .ok l => setTips db state l
    | .error bi => (Loader.loadScan params db rows state bi).bind (setTips db state)

end IniNode
