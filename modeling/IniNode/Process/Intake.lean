import IniNode.Lib.Run
import IniNode.Lib.Store
import IniNode.Wire
import IniNode.Index.WorkMath
/-!
# Taking blocks in

`ProcessBlock` and `ProcessBlockHeader` with everything they decide themselves: whether a block is there
already, whether its parent is, which checks of the proof of work are made, the orphan pool and what is kept of it
on disk. What the checks of the block's position and its transactions say, whether a database transaction
succeeds, what the window evicts and which rows a commit writes are inputs of the step.
-/

open IniNode.Lib

namespace IniNode

/-! ## State -/

def maxOrphanBlocks : Nat := 16384

def maxOrphanBlockBytes : Int := 2 ^ 30

def consensusPowSkipDepth : Int := 2048

/-- `time.Hour`, in nanoseconds. -/
def hour : Int := 3600 * 10 ^ 9

structure OrphanBlock where
  block : Block
  expiration : Int
deriving DecidableEq

abbrev OrphanBlock.hash (o : OrphanBlock) : Hash := o.block.hash

abbrev OrphanBlock.prev (o : OrphanBlock) : Hash := o.block.prevBlock

/-- What `ProcessBlock` reads of a block node. -/
structure IntakeNode where
  height : Int
  haveData : Bool
deriving DecidableEq

/-- The limit on targets, `pow.BlockPoWHash` as a number, and `SerializeSize`. -/
structure IntakeParams where
  powLimit : Int
  powHash : BlockHeader → Int
  serializeSize : Block → Nat

/-- The parts of `BlockChain` that `ProcessBlock` works on. Two fields keep a history: the blocks that
`maybeAcceptBlock` accepted, and the blocks that have been part of the best chain. -/
structure Intake where
  index : Store Hash IntakeNode
  hashIndex : Store Hash Int
  heightIndex : Store Int Hash
  bodies : Store Hash Block
  headerTip : Hash
  headerHeight : Int
  orphans : AList fun _ : Hash => OrphanBlock := ∅
  prevOrphans : AList fun _ : Hash => List OrphanBlock := ∅
  oldestOrphan : Option OrphanBlock := none
  orphanDiskBytes : Int := 0
  accepted : List Hash
  connected : List Block

/-- What `connectBestChain` does with a block: fails, leaves it on a side chain, or makes it the tip, after
attaching the blocks of its branch. -/
inductive Connect
  | failed
  | sideChain
  | mainChain (branch : List Hash)

/-- What happens in one call of `maybeAcceptBlock` beside what it decides itself. -/
structure Acceptance where
  /-- The miner's guard, the invalid ancestor test and `checkBlockContext` pass. -/
  context : Bool := true
  /-- The transaction that stores the block succeeds. -/
  stored : Bool := true
  /-- The first flush of the index succeeds; these nodes leave the window with it. -/
  flushed : Bool := true
  evicted : List Hash := []
  connect : Connect := .mainChain []
  hashRows : List (Write Hash Int) := []
  heightRows : List (Write Int Hash) := []
  /-- The second flush succeeds. -/
  settled : Bool := true
  /-- The block has more work than the header tip. -/
  heavier : Bool := true

/-- What happens in one call of `ProcessBlock` beside what it decides itself. -/
structure Arrival where
  block : Block
  /-- The flags hold `BFNoPoWCheck`. -/
  noPoWCheck : Bool := false
  /-- The checks of `checkBlockSanity` beside the proof of work pass. -/
  sane : Bool := true
  /-- The checks against the last checkpoint pass. -/
  checkpoint : Bool := true
  /-- The transaction that stores an orphan succeeds. -/
  persisted : Bool := true
  /-- The transactions that delete a body succeed. -/
  deleted : Hash → Bool := fun _ => true
  /-- The order in which the orphans are ranged over, with the clock at each. -/
  visits : List (Hash × Int) := []
  now : Int := 0
  acceptance : Hash → Acceptance := fun _ => {}

inductive IntakeError
  | duplicateBlock
  | unexpectedDifficulty
  | highHash
  | sanity
  | checkpoint
  | previousBlockUnknown
  | context
  | database
  | connect
deriving DecidableEq

/-! ## Checks -/

variable (params : IntakeParams) (header : BlockHeader)

def checkProofOfWork (noPoWCheck : Bool) : Except IntakeError Unit :=
  let target := compactToBig header.bits
  if target ≤ 0 then .error .unexpectedDifficulty
  else if params.powLimit < target then .error .unexpectedDifficulty
  else if !noPoWCheck && decide (target < params.powHash header) then .error .highHash
  else .ok ()

/-- The header's hash does not exceed the target its bits encode. -/
def HasWork : Prop := params.powHash header ≤ compactToBig header.bits

/-- `checkBlockSanity`; `sane` is what the other checks say. -/
def checkBlockSanity (noPoWCheck sane : Bool) : Except IntakeError Unit :=
  match checkProofOfWork params header noPoWCheck with
  | .error e => .error e
  | .ok () => if sane then .ok () else .error .sanity

theorem checkProofOfWork_eq_ok {params : IntakeParams} {header : BlockHeader} {noPoWCheck : Bool} :
    checkProofOfWork params header noPoWCheck = .ok () ↔
      0 < compactToBig header.bits ∧ compactToBig header.bits ≤ params.powLimit ∧
        (noPoWCheck = false → HasWork params header) := by
  simp only [checkProofOfWork, HasWork]
  by_cases h0 : compactToBig header.bits ≤ 0
  · simp [h0, Int.not_lt.2 h0]
  · by_cases hl : params.powLimit < compactToBig header.bits
    · simp [hl, Int.not_le.2 hl]
    · by_cases hw : params.powHash header ≤ compactToBig header.bits
      · simp [h0, hl, Int.not_le.1 h0, Int.not_lt.1 hl]
      · simp [h0, hl, Int.not_le.1 h0, Int.not_lt.1 hl]

theorem checkBlockSanity_eq_ok {params : IntakeParams} {header : BlockHeader} {noPoWCheck sane : Bool} :
    checkBlockSanity params header noPoWCheck sane = .ok () ↔
      checkProofOfWork params header noPoWCheck = .ok () ∧ sane = true := by
  unfold checkBlockSanity
  split
  next e he => simp [he]
  next he => cases sane <;> simp [he]

namespace Intake

/-! ## The orphan pool -/

variable (c : Intake)

def waiting (parent : Hash) : List OrphanBlock := (c.prevOrphans.lookup parent).getD []

def removeOrphanBlock (orphan : OrphanBlock) : Intake :=
  let rest := (c.waiting orphan.prev).filter fun o => o.hash ≠ orphan.hash
  { c with
    orphans := c.orphans.erase orphan.hash
    prevOrphans :=
      if rest = [] then c.prevOrphans.erase orphan.prev else c.prevOrphans.insert orphan.prev rest }

variable (hash : Hash)

/-- `dbRemoveOrphanBlockData`. -/
def deleteBody : Intake := { c with bodies := c.bodies.write ⟨hash, none⟩ }

variable (block : Block)

/-- `dbStoreBlock` and `dbPutOrphanBlock`: a block that is there is left alone. -/
def storeBody : Intake :=
  { c with bodies := if (c.bodies block.hash).isSome then c.bodies else c.bodies.write ⟨block.hash, some block⟩ }

def removeOrphanBlockWithData (orphan : OrphanBlock) (deleted : Bool) : Intake :=
  let c := c.removeOrphanBlock orphan
  if deleted then
    let bytes := c.orphanDiskBytes - params.serializeSize orphan.block
    { c.deleteBody orphan.hash with orphanDiskBytes := if bytes < 0 then 0 else bytes }
  else c

variable (a : Arrival)

/-- One round of the loop of `addOrphanBlock`: an expired orphan goes, another may be the oldest. -/
def visitOrphan (c : Intake) (v : Hash × Int) : Intake :=
  match c.orphans.lookup v.1 with
  | none => c
  | some o =>
    if o.expiration < v.2 then c.removeOrphanBlockWithData params o (a.deleted o.hash)
    else if c.oldestOrphan.all fun old => o.expiration < old.expiration then { c with oldestOrphan := some o }
    else c

def insertOrphan (o : OrphanBlock) : Intake :=
  { c with
    orphans := c.orphans.insert o.hash o
    prevOrphans := c.prevOrphans.insert o.prev (c.waiting o.prev ++ [o]) }

/-- The oldest orphan makes room when the pool is full. There is no result where the code
would follow a nil pointer. -/
def evictOldest (c : Intake) : Option Intake :=
  if maxOrphanBlocks < c.orphans.entries.length + 1 then
    c.oldestOrphan.map fun old =>
      { c.removeOrphanBlockWithData params old (a.deleted old.hash) with oldestOrphan := none }
  else some c

/-- `addOrphanBlock`. The loop ranges over a map, so every orphan is visited once. -/
def addOrphanBlock : Option Intake :=
  if (a.visits.map Prod.fst).Perm c.orphans.keys then
    (evictOldest params a (a.visits.foldl (visitOrphan params a) c)).map fun c =>
      c.insertOrphan ⟨a.block, a.now + hour⟩
  else none

/-! ## Accepting -/

/-- `blockExists`: a data flag without a body is taken back. -/
def blockExists : Intake × Bool :=
  match c.index hash with
  | some ⟨height, true⟩ =>
    if (c.bodies hash).isSome then (c, true)
    else ({ c with index := c.index.write ⟨hash, some ⟨height, false⟩⟩ }, false)
  | _ => (c, (c.bodies hash).isSome && (c.hashIndex hash).isSome)

def evict (hashes : List Hash) : Intake :=
  { c with index := c.index.writeAll (hashes.map fun h => ⟨h, none⟩) }

/-- The node of a block whose body has been stored. -/
def addNode (height : Int) : Intake :=
  { c with index := c.index.write ⟨block.hash,
    some ⟨((c.index block.hash).map IntakeNode.height).getD height, true⟩⟩ }

/-- `connectBestChain`: the bodies of the branch are read from the database. -/
def connectBestChain : Connect → Option (Intake × Bool)
  | .failed => none
  | .sideChain => some (c, false)
  | .mainChain branch =>
    (branch.mapM c.bodies).map fun blocks => ({ c with connected := block :: blocks ++ c.connected }, true)

/-- The tip of the header view moves to a header with more work. -/
def followTip (height : Int) (follows : Bool) : Intake :=
  if follows then { c with headerTip := hash, headerHeight := height } else c

/-- The rows that flushes and commits write and delete. -/
def writeRows (hashRows : List (Write Hash Int)) (heightRows : List (Write Int Hash)) : Intake :=
  { c with hashIndex := c.hashIndex.writeAll hashRows, heightIndex := c.heightIndex.writeAll heightRows }

def maybeAcceptBlock (acc : Acceptance) : Intake × Except IntakeError Bool :=
  match c.index block.prevBlock with
  | none => (c, .error .previousBlockUnknown)
  | some prevNode =>
    let blockHeight := prevNode.height + 1
    if !acc.context then (c, .error .context)
    else if !acc.stored then (c, .error .database)
    else
      let c := (c.storeBody block).addNode block blockHeight
      if !acc.flushed then (c, .error .database)
      else
        let c := c.evict acc.evicted
        match connectBestChain c block acc.connect with
        | none => (c, .error .connect)
        | some (c, isMainChain) =>
          let c := c.writeRows acc.hashRows acc.heightRows
          if !acc.settled then (c, .error .database)
          else
            let c := c.followTip block.hash blockHeight (isMainChain && acc.heavier)
            ({ c with accepted := block.hash :: c.accepted }, .ok isMainChain)

/-- `processOrphans`, with the hashes still to process. The first of them keeps its place until no
orphan waits for it, and an orphan that is accepted goes to the end. -/
def processOrphans (a : Arrival) : Nat → List Hash → Intake → Option (Intake × Except IntakeError Unit)
  | _, [], c => some (c, .ok ())
  | 0, _ :: _, _ => none
  | fuel + 1, hash :: hashes, c =>
    match c.waiting hash with
    | [] => processOrphans a fuel hashes c
    | o :: _ =>
      match (c.removeOrphanBlock o).maybeAcceptBlock o.block (a.acceptance o.hash) with
      | (c, .error e) => some (if a.deleted o.hash then c.deleteBody o.hash else c, .error e)
      | (c, .ok _) => processOrphans a fuel (hash :: hashes ++ [o.hash]) c

/-- Every round of `processOrphans` takes an orphan out of the pool or a hash off the list. -/
def processFuel : Nat := 2 * c.orphans.entries.length + 1

/-! ## Processing -/

/-- The proof of work of a block is not checked deep below the header tip, nor where the rows below the window
name the block at its height. -/
def skipsPoW : Bool :=
  match c.index block.prevBlock with
  | some prevNode => decide (prevNode.height + 1 ≤ c.headerHeight - consensusPowSkipDepth)
  | none =>
    match c.hashIndex block.prevBlock with
    | none => false
    | some prevHeight => c.heightIndex (prevHeight + 1) == some block.hash

/-- The block is stored and the ledger raised, unless the transaction fails. -/
def persistOrphan : Intake :=
  if a.persisted then
    { c.storeBody a.block with orphanDiskBytes := c.orphanDiskBytes + params.serializeSize a.block }
  else c

/-- `ProcessBlock` on a block whose parent is not there. -/
def processOrphanBlock : Option (Intake × Except IntakeError (Bool × Bool)) :=
  match checkBlockSanity params a.block.header true a.sane with
  | .error e => some (c, .error e)
  | .ok () => ((c.persistOrphan params a).addOrphanBlock params a).map fun c => (c, .ok (false, true))

/-- `ProcessBlock` on a block whose parent is there. -/
def processConnected : Option (Intake × Except IntakeError (Bool × Bool)) :=
  match checkBlockSanity params a.block.header (a.noPoWCheck || c.skipsPoW a.block) a.sane with
  | .error e => some (c, .error e)
  | .ok () =>
    if !a.checkpoint then some (c, .error .checkpoint)
    else
      match c.maybeAcceptBlock a.block (a.acceptance a.block.hash) with
      | (c, .error e) => some (c, .error e)
      | (c, .ok isMainChain) =>
        (processOrphans a c.processFuel [a.block.hash] c).map fun
          | (c, .error e) => (c, .error e)
          | (c, .ok ()) => (c, .ok (isMainChain, false))

/-- `ProcessBlock`: whether the block is on the main chain, and whether it is an orphan. -/
def processBlock : Option (Intake × Except IntakeError (Bool × Bool)) :=
  match c.blockExists a.block.hash with
  | (c, true) => some (c, .error .duplicateBlock)
  | (c, false) =>
    if (c.orphans.lookup a.block.hash).isSome then some (c, .error .duplicateBlock)
    else
      match c.blockExists a.block.prevBlock with
      | (c, false) => c.processOrphanBlock params a
      | (c, true) => c.processConnected params a

/-- What happens in one call of `ProcessBlockHeader` beside what it decides itself. -/
structure HeaderArrival where
  hash : Hash
  header : BlockHeader
  noPoWCheck : Bool := false
  /-- The tests of the invalid flags pass. -/
  valid : Bool := true
  /-- The header is part of the best header chain already. -/
  known : Bool := false
  /-- The other checks pass: the timestamp's, and those of the header's position. -/
  sane : Bool := true
  context : Bool := true
  heavier : Bool := false
  evicted : List Hash := []
  hashRows : List (Write Hash Int) := []
  heightRows : List (Write Int Hash) := []

/-- `maybeAcceptBlockHeader`: whether the header is on the best header chain. -/
def processBlockHeader (a : HeaderArrival) : Intake × Except IntakeError Bool :=
  match c.index a.header.prevBlock with
  | none => (c, .error .previousBlockUnknown)
  | some prevNode =>
    if !a.valid then (c, .error .context)
    else if (c.index a.hash).isSome && a.known then (c, .ok true)
    else
      match checkBlockSanity params a.header a.noPoWCheck a.sane with
      | .error e => (c, .error e)
      | .ok () =>
        if !a.context then (c, .error .context)
        else
          let node := (c.index a.hash).getD ⟨prevNode.height + 1, false⟩
          let isMainChain := decide (a.header.prevBlock = c.headerTip) || a.heavier
          let c := { c with index := c.index.write ⟨a.hash, some node⟩ }
          let c := c.followTip a.hash node.height isMainChain
          ((c.evict a.evicted).writeRows a.hashRows a.heightRows, .ok isMainChain)

inductive Call
  | block (a : Arrival)
  | header (a : HeaderArrival)
  /-- A flush that another caller makes. -/
  | flush (evicted : List Hash) (hashRows : List (Write Hash Int)) (heightRows : List (Write Int Hash))

def step : Call → Option Intake
  | .block a => (c.processBlock params a).map Prod.fst
  | .header a => some (c.processBlockHeader params a).1
  | .flush evicted hashRows heightRows => some ((c.evict evicted).writeRows hashRows heightRows)

end Intake

end IniNode
