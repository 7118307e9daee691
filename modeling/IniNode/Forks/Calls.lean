import IniNode.Forks.Tree
/-!
# The calls that move the tips

`ProcessBlock`, `ResumeBlockConnect`, `ProcessBlockHeader`, `InvalidateBlock`, `ReconsiderBlock`,
`InvalidateHeaderChain` and `RemoveBlockData` on the block tree, and a restart. What the checks of a block decide and
which database operations succeed are inputs. A function that can fail tells whether it succeeded; what it has done
before it failed stays done, as in the source.
-/

namespace IniNode.Forks

namespace Tree

variable (params : ChainParams) (env : Env)

/-! ## Reorganizing -/

variable (t : Tree) (p : Ptr)

def markInvalidAncestor : Tree := t.setStatusFlags p { invalidAncestor := true }

variable (node : Ptr)

/-- `getReorganizeNodes`: the nodes to detach and to attach. -/
def getReorganizeNodes : Tree × List Ptr × List Ptr :=
  match (t.mem node).parent with
  | none => (t, [], [])
  | some parent =>
    if t.marked parent then (t.markInvalidAncestor node, [], [])
    else
      match t.findFork node with
      | none => (t, [], [])
      | some fork =>
        let branch := (lineage t.mem node).takeWhile (· ≠ fork)
        let clean := branch.takeWhile fun p => !t.marked p
        if clean.length < branch.length then (clean.foldl markInvalidAncestor t, [], [])
        else (t, t.bestChain.takeWhile (· ≠ fork), branch.reverse)

/-- The block of a node can be read from the database. -/
def loads : Bool := t.hash p ∈ t.bodies ∧ env.loads (t.hash p)

/-- The loop of `verifyReorganizationValidity` over the nodes to attach. -/
def verifyAttach : List Ptr → Tree → Tree × Bool
  | [], t => (t, true)
  | n :: ns, t =>
    if !t.loads env n then (t, false)
    else if (t.status n).valid then verifyAttach ns t
    else
      match env.check (t.hash n) with
      | .ok => verifyAttach ns (t.setStatusFlags n { valid := true })
      | .rule => (ns.foldl markInvalidAncestor (t.setStatusFlags n { validateFailed := true }), false)
      | .other => (t, false)

/-- The nodes to detach start at the tip, and both lists end at the same fork point. -/
def matchesChain (detach attach : List Ptr) : Prop :=
  (∀ n ∈ detach.head?, t.hash n = t.hash t.best) ∧
    ∀ a ∈ attach.head?, ∀ d ∈ detach.getLast?, (t.mem a).parent.map t.hash = (t.mem d).parent.map t.hash
deriving Decidable

def verifyReorganizationValidity (detach attach : List Ptr) : Tree × Bool :=
  if detach = [] ∧ attach = [] then (t, true)
  else if ¬ t.matchesChain detach attach then (t, false)
  else if !detach.all (t.loads env) then (t, false)
  else verifyAttach env attach t

/-- `disconnectBlock`, on each node in turn. -/
def detachAll : List Ptr → Tree → Tree × Bool
  | [], t => (t, true)
  | n :: ns, t =>
    match (t.mem n).parent with
    | none => (t, false)
    | some q =>
      if t.hash n ≠ t.hash t.best ∨ !t.loads env q then (t, false)
      else if !env.disconnects (t.hash n) then (t.flushToDB, false)
      else detachAll ns { t.flushToDB with best := q }

/-- The rows are written and the node is the tip of the best chain. -/
def setBest : Tree := { t.flushToDB with best := node }

/-- `connectBlock`, on each node in turn. -/
def attachAll : List Ptr → Tree → Tree × Bool
  | [], t => (t, true)
  | n :: ns, t =>
    match env.connect (t.hash n) with
    | .ok => if (t.mem n).parentHash = t.hash t.best then attachAll ns (t.setBest n) else (t, false)
    | .failedAfter => (if (t.mem n).parentHash = t.hash t.best then t.setBest n else t, false)
    | _ => (t, false)

def reorganizeChain (detach attach : List Ptr) : Tree × Bool :=
  match t.verifyReorganizationValidity env detach attach with
  | (t, false) => (t, false)
  | (t, true) =>
    match detachAll env detach t with
    | (t, false) => (t, false)
    | (t, true) => attachAll env attach t

/-- A reorganization to a node, with the flush after it. -/
def reorganizeTo : Tree × Bool :=
  let (t, detach, attach) := t.getReorganizeNodes node
  let (t, ok) := t.reorganizeChain env detach attach
  (t.flushToDB, ok)

/-! ## Blocks and headers -/

/-- The check of `connectBestChain` on a block that extends the best chain: whether it passes. -/
def checkBlock : Tree × Bool :=
  match env.check (t.hash node) with
  | .ok => ((t.setStatusFlags node { valid := true }).flushToDB, true)
  | .rule => ((t.setStatusFlags node { validateFailed := true }).flushToDB, false)
  | .other => (t, false)

/-- A block that extends the best chain is connected: whether it ends on the main chain, or an error. -/
def extendBest (fastAdd : Bool) : Tree × Option Bool :=
  match if fastAdd then (t, true) else t.checkBlock env node with
  | (t, false) => (t, none)
  | (t, true) =>
    match env.connect (t.hash node) with
    | .noInputs => (t, none)
    | .failed => (t.flushToDB, none)
    | .ruleFailed => ((t.setStatusFlags node { validateFailed := true }).flushToDB, none)
    | .failedAfter => ((t.setBest node).flushToDB, none)
    | .ok =>
      let t := t.setBest node
      (if fastAdd || !(t.status node).valid then (t.setStatusFlags node { valid := true }).flushToDB else t, some true)

def connectBestChain (fastAdd : Bool) : Tree × Option Bool :=
  if (t.mem node).parentHash = t.hash t.best then t.extendBest env node (fastAdd || (t.status node).valid)
  else if (t.findFork node).isNone then (t, none)
  else if t.work node ≤ t.work t.best then (t, some false)
  else
    let (t, ok) := t.reorganizeTo env node
    (t, if ok then some true else none)

variable (header : BlockHeader)

/-- The node of a block whose data was stored: the node of its header, or a new one. -/
def storeBlock (prev : Ptr) : Tree × Ptr :=
  let hash := params.blockHash header
  let t := { t with bodies := insert hash t.bodies }
  match t.lookupNode hash with
  | some p => (t.setStatusFlags p { dataStored := true }, p)
  | none => (t.addNode params header prev { dataStored := true, headerStored := true }, t.fresh)

/-- The end of `maybeAcceptBlock`, once the block is on the chain it belongs to. -/
def acceptedBlock (isMainChain : Bool) : Tree × Bool :=
  let t := t.unsetStatusFlags node { invalidAncestor := true }
  if !env.clears then (t, false)
  else
    let t := t.flushToDB
    (if isMainChain ∧ t.work t.header < t.work node then { t with header := node } else t, true)

/-- `maybeAcceptBlock`; `accepts` is the result of the checks that come before the block is stored. -/
def maybeAcceptBlock (accepts fastAdd : Bool) : Tree × Bool :=
  match t.lookupNode header.prevBlock with
  | none => (t, false)
  | some prev =>
    if (prev ∉ t.bestChain ∧ t.marked prev) ∨ !accepts then (t, false)
    else
      let (t, node) := t.storeBlock params header prev
      if !env.stores then (t, false)
      else
        match t.flushToDB.connectBestChain env node fastAdd with
        | (t, none) => (t, false)
        | (t, some isMainChain) => t.acceptedBlock env node isMainChain

variable (hash : Hash)

/-- `blockExists`: a flag without a payload is dropped. -/
def blockExists : Tree × Bool :=
  match t.lookupNode hash with
  | some p =>
    if (t.status p).dataStored ∧ hash ∉ t.bodies then
      ((t.unsetStatusFlags p { dataStored := true }).flushToDB, false)
    else (t, hash ∈ t.bodies)
  | none => (t, hash ∈ t.bodies)

/-- `ProcessBlock`, for the block itself. An orphan that it releases goes to `maybeAcceptBlock` at once. -/
def processBlock (accepts fastAdd : Bool) : Tree × Bool :=
  match t.blockExists (params.blockHash header) with
  | (t, true) => (t, false)
  | (t, false) => t.maybeAcceptBlock params env header accepts fastAdd

/-- `ResumeBlockConnect`, of the stored block with the header. -/
def resumeBlockConnect (accepts fastAdd : Bool) : Tree × Bool :=
  let hash := params.blockHash header
  if (t.lookupNode hash).any (· ∈ t.bestChain) then (t, true)
  else if hash ∉ t.bodies ∨ !env.loads hash then (t, false)
  else t.maybeAcceptBlock params env header accepts fastAdd

/-- The invalid flags of a known header are dropped if its parent is on the best chain or on the best header chain. -/
def clearHeaderMark (prev node : Ptr) : Tree × Bool :=
  if !t.marked node then (t, true)
  else if prev ∈ t.bestChain ∨ prev ∈ t.headerChain then
    (t.unsetStatusFlags node
      (if (t.status node).validateFailed then { validateFailed := true } else { invalidAncestor := true }), true)
  else (t, false)

/-- The header becomes the tip of the header chain when it extends it or has more work. -/
def extendHeader (flushDue : Bool) : Tree :=
  let t :=
    if (t.mem node).parentHash = t.hash t.header ∨ t.work t.header < t.work node then { t with header := node } else t
  if flushDue then t.flushToDB else t

/-- `maybeAcceptBlockHeader`; `accepts` is the result of its checks, and `flushDue` says that the batch is full. -/
def processBlockHeader (accepts flushDue : Bool) : Tree × Bool :=
  match t.lookupNode header.prevBlock with
  | none => (t, false)
  | some prev =>
    if prev ∉ t.bestChain ∧ t.marked prev then (t, false)
    else
      match t.lookupNode (params.blockHash header) with
      | none =>
        if !accepts then (t, false)
        else ((t.addNode params header prev { headerStored := true }).extendHeader t.fresh flushDue, true)
      | some node =>
        match t.clearHeaderMark prev node with
        | (t, false) => (t, false)
        | (t, true) =>
          if node ∈ t.headerChain then (t, true)
          else if !accepts then (t, false)
          else (t.extendHeader node flushDue, true)

/-! ## Manual invalidation -/

/-- `InactiveTips`: the nodes off the best chain that are no parent of such a node. -/
def inactiveTips : List Ptr :=
  let orphans := ((env.shuffle t.index.keys).filterMap t.lookupNode).filter (· ∉ t.bestChain)
  orphans.filter fun p => !orphans.any fun q => (t.mem q).parent.map t.hash = some (t.hash p)

/-- A node that is not known to be invalid gets an invalid ancestor. -/
def invalidateDescendant : Tree :=
  if t.marked p then t else (t.markInvalidAncestor p).unsetStatusFlags p { valid := true }

def invalidateBranch (node tip : Ptr) : Tree :=
  if t.isAncestor tip node then ((lineage t.mem tip).takeWhile (· ≠ node)).foldl invalidateDescendant t else t

/-- The tip with the most work of those that are not known to be invalid; the first of several. -/
def bestTip (tips : List Ptr) : Option Ptr :=
  tips.foldl
    (fun best tip =>
      if t.marked tip then best
      else
        match best with
        | none => some tip
        | some b => if t.work b < t.work tip then some tip else best)
    none

/-- The end of `InvalidateBlock` on a block of the best chain: another branch may have more work now. -/
def activateBestTip : Tree × Bool :=
  match t.bestTip (t.inactiveTips env ++ [t.best]) with
  | none => (t, false)
  | some tip => if tip = t.best then (t, true) else t.reorganizeTo env tip

def invalidateBlock : Tree × Bool :=
  match t.lookupNode hash with
  | none => (t, false)
  | some node =>
    if (t.mem node).height = 0 then (t, false)
    else if t.marked node then (t, true)
    else
      let onBest := node ∈ t.bestChain
      let t := (t.setStatusFlags node { validateFailed := true }).unsetStatusFlags node { valid := true }
      if ¬ onBest then
        let t := (t.inactiveTips env).foldl (fun t tip => t.invalidateBranch node tip) t
        if !env.stores then (t, false) else (t.flushToDB, true)
      else
        let above := (t.bestChain.takeWhile (· ≠ node)).filter fun p => !t.marked p
        match (above.foldl invalidateDescendant t).reorganizeChain env (above ++ [node]) [] with
        | (t, false) => (t, false)
        | (t, true) => t.flushToDB.activateBestTip env

/-- One tip of the loop of `ReconsiderBlock`: the nodes of its branch above the block are given back their chance. -/
def reconsiderTip (s : Tree × Option Ptr) (tip : Ptr) : Tree × Option Ptr :=
  if s.1.isAncestor tip node then
    (((lineage s.1.mem tip).takeWhile (· ≠ node)).foldl
      (fun t p => t.unsetStatusFlags p { invalidAncestor := true }) s.1, some tip)
  else if tip = node then (s.1, some node)
  else s

/-- The end of `ReconsiderBlock`: the branch is taken if it has more work and passes its checks. -/
def reconsiderBranch (tip : Ptr) : Tree × Bool :=
  if t.work tip ≤ t.work t.best then (t, true)
  else
    let (t, detach, attach) := t.getReorganizeNodes tip
    match t.verifyReorganizationValidity env detach attach with
    | (t, false) => (t.flushToDB, true)
    | (t, true) => t.flushToDB.reorganizeChain env detach attach

def reconsiderBlock : Tree × Bool :=
  match t.lookupNode hash with
  | none => (t, false)
  | some node =>
    if (t.status node).valid then (t, true)
    else
      let t := t.unsetStatusFlags node { invalidAncestor := true }
      let t := t.unsetStatusFlags node { validateFailed := true }
      match (t.inactiveTips env ++ [t.best]).foldl (reconsiderTip node) (t, none) with
      | (t, none) => (t, false)
      | (t, some tip) => t.reconsiderBranch env tip

/-! ## Rolling back -/

/-- `removeDisconnectedBlocks`, when its transaction commits. -/
def removeDisconnected : Tree :=
  let hash := t.hash p
  ({ t with bodies := t.bodies.erase hash, rows := t.rows.write ⟨hash, none⟩ } : Tree).removeNode hash

def detachAbove (detach : List Ptr) : Tree × Bool :=
  if detach = [] then (t, true)
  else
    match t.reorganizeChain env detach [] with
    | (t, false) => (t, false)
    | (t, true) => if !env.removes then (t, false) else ((detach.foldl removeDisconnected t).flushToDB, true)

def invalidateHeaderChain (rollbackHeight : Int) : Tree × Bool :=
  match t.nodeByHeight rollbackHeight with
  | none => (t, false)
  | some rollbackNode =>
    let t := (t.headerChain.filter fun p => rollbackHeight < (t.mem p).height).foldl invalidateDescendant t
    if !env.reads then (t, false)
    else
      let t := { t with header := rollbackNode }
      match t.detachAbove env (t.bestChain.filter fun p => rollbackHeight < (t.mem p).height) with
      | (t, false) => (t, false)
      | (t, true) =>
        let t := { t with best := rollbackNode }
        if !env.persists then (t, false) else (t.flushToDB, true)

def removeBlockData : Tree × Bool :=
  if !env.removes then (t, false)
  else
    let t := { t with bodies := t.bodies.erase hash }
    match t.lookupNode hash with
    | none => (t, true)
    | some p => ((t.unsetStatusFlags p { dataStored := true }).flushToDB, true)

/-! ## Restarts -/

variable (snapshot : Option Nat)

/-- Whether a restart finds the block: it has a row and, when the index is loaded from the snapshot of the tip, is on the
best chain, which the height index leads along. -/
def finds : Bool := (t.rows hash).isSome && (snapshot.isNone || t.bestChain.any fun p => t.hash p = hash)

/-- The work that a node is loaded with. From the snapshot, the lowest node gets the work stored there. -/
def loadedWork : Nat :=
  let works := (lineage t.mem p).map fun q => calcWork (t.mem q).header.bits
  match snapshot with
  | none => works.sum
  | some work => work + works.dropLast.sum

/-- The nodes that `initChainState` loads, with the statuses of their rows: from the snapshot, if its work is given, or
else by the scan of all rows. -/
def load : Tree :=
  { t with
    index := (t.index.keys.filter fun hash => !t.finds hash snapshot).foldl (fun i hash => i.erase hash) t.index
    mem := fun p =>
      { t.mem p with status := (t.rows (t.hash p)).getD (t.status p), workSum := t.loadedWork p snapshot }
    dirty := [] }

/-- The nodes that a restart finds hang together: the tip is one of them, and the parent of each. -/
def reloads : Prop :=
  let found p := t.finds (t.hash p) snapshot = true ∧ t.lookupNode (t.hash p) = some p
  found t.best ∧ ∀ x ∈ t.index.keys, ∀ p ∈ t.lookupNode x, found p → ∀ q ∈ (t.mem p).parent, found q
deriving Decidable

/-- A clean restart: the best chain tip is the one stored when it was connected, the header tip is the one in the header
record if there is a node for it, and the blocks of the best chain are valid. -/
def restart : Tree :=
  let t := t.load snapshot
  let t := { t with header := (t.lookupNode t.savedHeader).getD t.best }
  t.bestChain.foldl (fun t p => if (t.status p).valid then t else t.setStatusFlags p { valid := true }) t

end Tree

/-! ## The machine -/

variable (params : ChainParams)

/-- `New` on an empty database. -/
def Tree.genesis (header : BlockHeader) : Tree :=
  let status : BlockStatus := { dataStored := true, valid := true }
  let node : BlockNode :=
    { initBlockNode (fun _ => ⟨none, none, 0, header, 0, 0, {}⟩) params.blockHash header none with status }
  { mem := fun _ => node
    fresh := 1
    index := AList.insert node.hash 0 ∅
    bodies := {node.hash}
    best := 0
    header := 0
    rows := fun hash => if hash = node.hash then some status else none
    savedHeader := node.hash }

/-- The calls that change the tree. -/
inductive Call
  | processBlock (env : Env) (header : BlockHeader) (accepts fastAdd : Bool)
  | releaseOrphan (env : Env) (header : BlockHeader) (accepts fastAdd : Bool)
  | resumeBlockConnect (env : Env) (header : BlockHeader) (accepts fastAdd : Bool)
  | processBlockHeader (header : BlockHeader) (accepts flushDue : Bool)
  | invalidateBlock (env : Env) (hash : Hash)
  | reconsiderBlock (env : Env) (hash : Hash)
  | invalidateHeaderChain (env : Env) (rollbackHeight : Int)
  | removeBlockData (env : Env) (hash : Hash)
  /-- It changes the utxo set only. -/
  | purgeUtxosAboveHeight (height : Int)
  /-- The work in the snapshot of the tip, if the index is loaded from it. -/
  | restart (snapshot : Option Nat)

/-- A call, with whether it returns without an error. -/
def Tree.call (t : Tree) : Call → Tree × Bool
  | .processBlock env header accepts fastAdd => t.processBlock params env header accepts fastAdd
  | .releaseOrphan env header accepts fastAdd => t.maybeAcceptBlock params env header accepts fastAdd
  | .resumeBlockConnect env header accepts fastAdd => t.resumeBlockConnect params env header accepts fastAdd
  | .processBlockHeader header accepts flushDue => t.processBlockHeader params header accepts flushDue
  | .invalidateBlock env hash => t.invalidateBlock env hash
  | .reconsiderBlock env hash => t.reconsiderBlock env hash
  | .invalidateHeaderChain env rollbackHeight => t.invalidateHeaderChain env rollbackHeight
  | .removeBlockData env hash => t.removeBlockData env hash
  | .purgeUtxosAboveHeight _ => (t, true)
  | .restart snapshot => (t.restart snapshot, true)

/-- Runs go on over a restart if the nodes it finds hang together. -/
def Tree.step (t : Tree) : Call → Option Tree
  | .restart snapshot => if t.reloads snapshot then some (t.restart snapshot) else none
  | c => some (t.call params c).1

theorem Tree.step_eq {params : ChainParams} {t u : Tree} {c : Call} (h : t.step params c = some u) :
    u = (t.call params c).1 := by
  cases c
  case restart snapshot =>
    rw [Tree.step] at h
    split at h
    · exact (Option.some.inj h).symm
    · cases h
  all_goals exact (Option.some.inj h).symm

/-! ## Numbered blocks -/

def byNonce : ChainParams := ⟨BlockHeader.nonce, 1, 0, 0, false⟩

/-- The header of a block with its number and that of the block before it. -/
def numbered (prevBlock nonce : Nat) : BlockHeader := ⟨0, prevBlock, 0, 0, 0x207fffff, nonce⟩

def Tree.firstBlock : Tree := Tree.genesis byNonce (numbered 0 1)

end IniNode.Forks
