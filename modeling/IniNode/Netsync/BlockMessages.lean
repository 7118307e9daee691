import IniNode.Process.ProofOfWork
import IniNode.Netsync.Stable
/-!
# Headers and blocks in one run

The sync manager over the chain that takes blocks in. Headers reach the chain through the download of headers, with
the check of their work left out while `ibdMode` is set; blocks reach it through `handleBlockMsg`. The chain keeps
a history: the headers whose work has been checked.
-/

open IniNode.Lib

namespace IniNode

namespace Intake

/-! ## Rolling back -/

/-- What happens in one call of `InvalidateHeaderChain`: whether it succeeds, the blocks it disconnects and deletes,
the new header tip, if it gets that far, and the rows and evictions of its flushes. -/
structure Rollback where
  done : Bool := true
  removed : List Hash := []
  tip : Option (Hash × Int) := none
  evicted : List Hash := []
  hashRows : List (Write Hash Int) := []
  heightRows : List (Write Int Hash) := []

variable (c : Intake)

def removeOrphansWithParent (parent : Hash) : Intake := (c.waiting parent).foldl removeOrphanBlock c

def removeDisconnected (hash : Hash) : Intake :=
  { c.deleteBody hash with index := c.index.write ⟨hash, none⟩ }.removeOrphansWithParent hash

def invalidateHeaderChain (r : Rollback) : Intake :=
  let c := r.removed.foldl removeDisconnected c
  let (tip, height) := r.tip.getD (c.headerTip, c.headerHeight)
  ({ c with headerTip := tip, headerHeight := height }.evict r.evicted).writeRows r.hashRows r.heightRows

variable {P : Block → Prop} {c : Intake}

theorem AllBlocks.removeAll (h : AllBlocks P c) (os : List OrphanBlock) : AllBlocks P (os.foldl removeOrphanBlock c) := by
  induction os generalizing c with
  | nil => exact h
  | cons o os ih => exact ih (h.remove o)

theorem AllBlocks.removeDisconnected (h : AllBlocks P c) (hash : Hash) : AllBlocks P (c.removeDisconnected hash) := by
  apply AllBlocks.removeAll
  exact (h.deleteBody hash).of_eq rfl rfl rfl

theorem AllBlocks.invalidateHeaderChain (h : AllBlocks P c) (r : Rollback) :
    AllBlocks P (c.invalidateHeaderChain r) := by
  have hremoved : AllBlocks P (r.removed.foldl Intake.removeDisconnected c) := by
    induction r.removed generalizing c with
    | nil => exact h
    | cons hash hashes ih => exact ih (h.removeDisconnected hash)
  exact hremoved.of_eq rfl rfl rfl

/-! ## Which calls make the check -/

/-- `ProcessBlockHeader` checks the work of the header, and the header passes. -/
def checksHeader (params : IntakeParams) (c : Intake) (a : HeaderArrival) : Bool :=
  (c.index a.header.prevBlock).isSome && a.valid && !((c.index a.hash).isSome && a.known) && !a.noPoWCheck &&
    (checkProofOfWork params a.header false).isOk

/-- `ProcessBlock` checks the work of the block, and the block passes. -/
def checksBlock (params : IntakeParams) (c : Intake) (a : Arrival) : Bool :=
  !(c.blockExists a.block.hash).2 && (c.orphans.lookup a.block.hash).isNone && (c.blockExists a.block.prevBlock).2 &&
    !(a.noPoWCheck || c.skipsPoW a.block) && (checkProofOfWork params a.block.header false).isOk

theorem hasWork_of_isOk {params : IntakeParams} {header : BlockHeader}
    (h : (checkProofOfWork params header false).isOk = true) : HasWork params header := by
  cases hc : checkProofOfWork params header false with
  | error e => simp [hc, Except.toBool] at h
  | ok u => exact (checkProofOfWork_eq_ok.1 hc).2.2 rfl

/-- A block that gets past the sanity checks is exempt from the check of its work, or has passed it. -/
theorem checksBlock_of_sane {params : IntakeParams} {a : Arrival} (hf : a.noPoWCheck = false)
    (hunknown : ¬ c.Known a.block.hash) (hfresh : c.orphans.lookup a.block.hash = none)
    (hok : ¬ c.Unchecked a.block)
    (hs : checkBlockSanity params a.block.header (a.noPoWCheck || c.skipsPoW a.block) a.sane = .ok ()) :
    c.checksBlock params a = true := by
  obtain ⟨hparent, hskip⟩ := not_or.1 hok
  have hskip : c.skipsPoW a.block = false := Bool.not_eq_true _ ▸ hskip
  rw [hf, hskip] at hs
  have hwork := (checkBlockSanity_eq_ok.1 hs).1
  have h1 : (c.blockExists a.block.hash).2 = false := by
    rw [← Bool.not_eq_true, (blockExists_spec c _).2]
    exact hunknown
  have h2 : (c.blockExists a.block.prevBlock).2 = true := (blockExists_spec c _).2.2 (not_not.1 hparent)
  simp only [Bool.or_self] at hwork
  simp [checksBlock, h1, h2, hfresh, hf, hskip, hwork, Except.toBool]

end Intake

namespace Netsync

/-! ## The chain behind the manager -/

/-- The chain with its history: the headers that have passed `checkProofOfWork` with the hash looked at. `calls` counts
the calls that move headers. -/
structure CheckedChain where
  intake : Intake
  checked : List BlockHeader := []
  calls : Nat := 0

/-- What is not decided by the parts of the chain that are modelled: what happens in each call, and the other answers that
the chain gives the sync manager. -/
structure World where
  params : IntakeParams
  header : Nat → Intake.HeaderArrival
  rollback : Nat → Intake.Rollback
  queries : ChainApi CheckedChain

def headerError : IntakeError → HeaderError
  | .previousBlockUnknown => .previousBlockUnknown
  | .database => .other
  | _ => .rule

namespace CheckedChain

def note (c : CheckedChain) (passed : Bool) (h : BlockHeader) : List BlockHeader :=
  if passed then h :: c.checked else c.checked

variable (w : World)

def arrival (c : CheckedChain) (h : BlockHeader) (noPoWCheck : Bool) : Intake.HeaderArrival :=
  { w.header c.calls with hash := w.queries.blockHash h, header := h, noPoWCheck := noPoWCheck }

def processBlockHeader (c : CheckedChain) (h : BlockHeader) (noPoWCheck : Bool) : CheckedChain × Option HeaderError :=
  let a := c.arrival w h noPoWCheck
  let checked := c.note (c.intake.checksHeader w.params a) h
  match c.intake.processBlockHeader w.params a with
  | (intake, .ok _) => (⟨intake, checked, c.calls + 1⟩, none)
  | (intake, .error err) => (⟨intake, checked, c.calls + 1⟩, some (headerError err))

def invalidateHeaderChain (c : CheckedChain) : CheckedChain × Bool :=
  ({ c with intake := c.intake.invalidateHeaderChain (w.rollback c.calls), calls := c.calls + 1 },
    (w.rollback c.calls).done)

def processBlock (c : CheckedChain) (a : Arrival) : Option (CheckedChain × Except IntakeError (Bool × Bool)) :=
  let checked := c.note (c.intake.checksBlock w.params a) a.block.header
  (c.intake.processBlock w.params a).map fun (intake, r) => ({ c with intake := intake, checked := checked }, r)

end CheckedChain

variable (w : World)

/-- The chain as the sync manager sees it. -/
def World.api : ChainApi CheckedChain :=
  { w.queries with
    bestHeaderHeight := fun c => c.intake.headerHeight
    processBlockHeader := CheckedChain.processBlockHeader w
    invalidateHeaderChain := fun c _ => c.invalidateHeaderChain w }

/-! ## Block messages -/

/-- A block message, with what `handleBlockMsg` meets. -/
structure BlockMsg where
  arrival : Arrival
  /-- The peer was asked for the block. -/
  requested : Bool := true
  /-- The header chain has diverged from the best chain, at this height. -/
  diverged : Option Int := none
  /-- Many orphans have come in a row, and the height index names another block than the tip. -/
  flooded : Bool := false
  /-- The height that the coinbase of an orphan names. -/
  coinbaseHeight : Option Int := none

namespace Manager

/-- `UpdateLastBlockHeight`, unless the height is zero. -/
def updateLastBlockHeight {χ : Type} (s : Manager χ) (peer : Peer) (height : Int) : Manager χ :=
  if height ≠ 0 ∧ s.lastBlock peer < height then { s with lastBlock := Function.update s.lastBlock peer height } else s

def handleOrphan (e : Env) (s : Manager CheckedChain) (peer : Peer) (m : BlockMsg) : Manager CheckedChain :=
  let s := match m.diverged with
    | some forkHeight => (s.rollbackToForkPoint w.api e forkHeight).1
    | none => s
  let s := if m.flooded then s.rollbackFabricatedHeaderChain w.api e else s
  s.updateLastBlockHeight peer (m.coinbaseHeight.getD 0)

/-- `handleBlockMsg` on a block of height `height` that the chain has taken. -/
def handleTaken (s : Manager CheckedChain) (peer : Peer) (height : Int) : Manager CheckedChain :=
  let s := s.updateLastBlockHeight peer (w.api.bestHeight s.chain)
  if s.ibdMode ∧ w.api.bestHeaderHeight s.chain ≤ height then { s with ibdMode := false } else s

/-- `handleBlockMsg`, without the requests it sends. `checkHeadersList` never sets `BFNoPoWCheck`. -/
def handleBlockMsg (e : Env) (s : Manager CheckedChain) (peer : Peer) (m : BlockMsg) : Option (Manager CheckedChain) :=
  if (s.peerStates.lookup peer).isNone ∨ m.requested = false then some s
  else
    let height := ((s.chain.intake.index m.arrival.block.prevBlock).map IntakeNode.height).getD (-2) + 1
    (s.chain.processBlock w { m.arrival with noPoWCheck := false }).map fun
      | (chain, .error _) => { s with chain := chain }
      | (chain, .ok (_, true)) => { s with chain := chain }.handleOrphan w e peer m
      | (chain, .ok (_, false)) => { s with chain := chain }.handleTaken w peer height

end Manager

inductive SyncEvent
  /-- An event of the header download; the chain is moved by the other events only. -/
  | headers (a : Manager.Event CheckedChain)
  | block (peer : Peer) (m : BlockMsg)
  /-- A flush that another caller makes. -/
  | flush (evicted : List Hash) (hashRows : List (Write Hash Int)) (heightRows : List (Write Int Hash))

def syncStep (s : Manager CheckedChain) : Env × SyncEvent → Option (Manager CheckedChain)
  | (_, .headers (.moved _ lastBlock)) => some { s with lastBlock := lastBlock }
  | (e, .headers a) => s.step w.api (e, a)
  | (e, .block peer m) => s.handleBlockMsg w e peer m
  | (_, .flush evicted hashRows heightRows) =>
    some { s with chain.intake := (s.chain.intake.evict evicted).writeRows hashRows heightRows }

end Netsync

end IniNode
