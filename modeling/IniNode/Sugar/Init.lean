import IniNode.Lib.Run
import IniNode.Sugar.Chain
/-!
# Catching up

`Manager.Init` and the runs of the program around it. Four readers fetch the blocks above the tip of the index; what
they hand over arrives in any order and is merged through a map of pending results. What the readers and the height
index answer are inputs. The machine keeps two chains: the one the index follows while the program runs, and the one
the database has, from which the program starts again.
-/

open IniNode.Lib

namespace IniNode.Sugar

/-! ## The merge -/

inductive ReadError
  /-- The error code of a missing block body. -/
  | blockNotFound
  | notInMainChain
  | other
deriving DecidableEq

/-- `fetchResult`, for its height. -/
abbrev FetchResult := Except ReadError (Block × List SpentTxOut)

/-- Why `Init` fails. -/
inductive InitError
  | read
  | panicked
  | interrupted
deriving DecidableEq

def rebuildBatchBlocks : Nat := 1024

/-- The variables of the merge. -/
structure Rebuild where
  index : Index
  batch : Batch := {}
  batched : Nat := 0
  next : Nat
  pending : Store Nat FetchResult := fun _ => none

namespace Rebuild

/-- The result at `next` is taken: a height without a block is skipped, any other error ends the rebuild, a block goes
into the batch, and the batch is written when it is full or the block is the best one. An error comes with the index
as it was written. -/
def take (best : Nat) (r : Rebuild) : FetchResult → Except (InitError × Index) Rebuild
  | .error .blockNotFound | .error .notInMainChain =>
    .ok { r with next := r.next + 1, pending := r.pending.write ⟨r.next, none⟩ }
  | .error .other => .error (.read, r.index)
  | .ok (block, stxos) =>
    match connectBlockBatch r.next block stxos with
    | none => .error (.panicked, r.index)
    | some b =>
      let batch := r.batch.append b
      let r' := { r with next := r.next + 1, pending := r.pending.write ⟨r.next, none⟩ }
      if rebuildBatchBlocks ≤ r.batched + 1 ∨ r.next = best then
        .ok { r' with index := r.index.write (batch.storeIndexTip block.hash r.next), batch := {}, batched := 0 }
      else .ok { r' with batch := batch, batched := r.batched + 1 }

/-- The loop over `pending[next]`. -/
def consume (best : Nat) : Nat → Rebuild → Except (InitError × Index) Rebuild
  | 0, r => .ok r
  | fuel + 1, r =>
    match r.pending r.next with
    | none => .ok r
    | some cur => (r.take best cur).bind (consume best fuel)

/-- One result arrives. No height above `best` is asked for, so the loop ends there. -/
def receive (best : Nat) (r : Rebuild) (result : Nat × FetchResult) : Except (InitError × Index) Rebuild :=
  consume best (best + 1 - r.next) { r with pending := r.pending.write ⟨result.1, some result.2⟩ }

end Rebuild

/-! ## Init -/

/-- What `Init` meets: the rows of the height index above the best block, the heights that cannot be read, the order
in which the results arrive, and whether it is interrupted. -/
structure InitInput where
  above : Int → Option Hash := fun _ => none
  unread : Nat → Option ReadError := fun _ => none
  order : List Nat
  interrupted : Bool := false

variable (chain : Chain) (above : Int → Option Hash)

def mainChainHashByHeight (height : Int) : Option Hash :=
  if height < chain.length then
    if 0 ≤ height then (blockAt chain height.toNat).map fun p => p.1.hash else none
  else above height

/-- What a reader hands over for a height. -/
def fetch (unread : Nat → Option ReadError) (height : Nat) : FetchResult :=
  match unread height, blockAt chain height with
  | some e, _ => .error e
  | none, some p => .ok p
  | none, none => .error .notInMainChain

/-- `wipeIndex`: the txid table stays. -/
def wipeIndex (s : Index) : Index := { Index.empty with txIndex := s.txIndex }

/-- The index and its tip height that `Init` starts from. -/
def startingPoint (s : Index) : Index × Int :=
  match s.tip with
  | none => (s, -1)
  | some (tipHash, tipHeight) =>
    match mainChainHashByHeight chain above tipHeight with
    | some mainHash => if mainHash ≠ tipHash then (wipeIndex s, -1) else (s, tipHeight)
    | none => (s, tipHeight)

/-- `Init`, with the results of the readers as they arrive. -/
def init (inp : InitInput) (s : Index) : Except (InitError × Index) Index :=
  let (s, tipHeight) := startingPoint chain inp.above s
  let best := chain.length - 1
  if (best : Int) ≤ tipHeight then .ok s
  else do
    let r ← (inp.order.map fun h => (h, fetch chain inp.unread h)).foldlM (Rebuild.receive best)
      { index := s, next := (tipHeight + 1).toNat }
    if inp.interrupted then .error (.interrupted, r.index) else .ok r.index

/-! ## Runs of the program -/

/-- The index, the chain that it follows, the chain in the database, and whether the program runs. -/
structure Node where
  index : Index
  live : Chain
  saved : Chain
  up : Bool

/-- What happens to the chain or the program. -/
inductive Step
  | connect (block : Block) (stxos : List SpentTxOut)
  /-- The transaction of the batch fails, which is only logged: the chain goes on without the rows of the block. -/
  | lost (block : Block) (stxos : List SpentTxOut)
  | disconnect
  /-- The database of the chain is up to date. -/
  | commit
  /-- The program ends, or crashes; the chain is again the one of the database. -/
  | restart
  /-- The program runs without the index. -/
  | moved (chain : Chain)
  | init (inp : InitInput)

/-- The readers hand over each height above the tip of the index once, unless they are interrupted. -/
def Delivered (inp : InitInput) (s : Index) : Prop :=
  let heights := (List.range chain.length).filter fun h : Nat => (startingPoint chain inp.above s).2 < (h : Int)
  if inp.interrupted then inp.order.Nodup ∧ ∀ h ∈ inp.order, h ∈ heights else inp.order.Perm heights

instance (chain : Chain) (inp : InitInput) (s : Index) : Decidable (Delivered chain inp s) := by
  unfold Delivered
  infer_instance

def Node.step (n : Node) : Step → Option Node
  | .connect block stxos =>
    if n.up then
      (n.index.connectBlock n.live.length block stxos).map fun s =>
        { n with index := s, live := (block, stxos) :: n.live }
    else none
  | .lost block stxos => if n.up then some { n with live := (block, stxos) :: n.live } else none
  | .disconnect =>
    match n.live with
    | (block, stxos) :: below :: rest =>
      if n.up then
        (n.index.disconnectBlock (rest.length + 1) block stxos).map fun s => { n with index := s, live := below :: rest }
      else none
    | _ => none
  | .commit => some { n with saved := n.live }
  | .restart => some { n with live := n.saved, up := false }
  | .moved chain => if n.up then none else some { n with live := chain, saved := chain }
  | .init inp =>
    if n.up = false ∧ Delivered n.live inp n.index then
      match init n.live inp n.index with
      | .ok s => some { n with index := s, up := true }
      | .error (_, s) => some { n with index := s }
    else none

end IniNode.Sugar
