import IniNode.Netsync.FrontVotes
/-!
# The circuit breaker of rollbacks

`rollbackFabricatedHeaderChain` counts the rollbacks that did not help and refuses after the fifth. It takes a tip above the
height of the last cut for progress, and each deeper cut lowers that height, so blocks that are downloaded again count as
progress. The number of rollbacks between two new best heights is bounded as long as no call comes on such blocks.
-/

open IniNode.Lib

namespace IniNode.Netsync

variable {χ : Type}

namespace Manager

variable {A : ChainApi χ} {e : Env} {s : Manager χ}

/-! ## Restarting keeps the count -/

theorem count_stable (n : Nat) : RangeStable fun s : Manager χ => s.fabricatedRollbackCount = n where
  other h := h
  shrink h _ _ := h
  launch h _ _ _ _ := h
  second h _ _ := h

/-! ## One call -/

/-- The height that a call would cut to, before the cut is deepened. -/
def cutTarget (A : ChainApi χ) (s : Manager χ) : Int := max (A.bestHeight s.chain - 1) 0

/-- A call rolls the chain back: it calls `InvalidateHeaderChain`. -/
def RollsBack (A : ChainApi χ) (s : Manager χ) : Prop :=
  s.fetchHigherPeers (A.bestHeaderHeight s.chain) ≠ [] ∧ (s.nextCut (cutTarget A s)).2 ≤ maxFabricatedRollbacks
deriving Decidable

theorem chain_of_not_rollsBack (h : ¬ RollsBack A s) : (s.rollbackFabricatedHeaderChain A e).chain = s.chain := by
  rw [rollbackFabricatedHeaderChain]
  split
  · rfl
  next hpeers =>
    dsimp only
    rw [if_pos]
    exact Nat.lt_of_not_le fun hle => h ⟨hpeers, hle⟩

theorem count_rollback (h : s.fetchHigherPeers (A.bestHeaderHeight s.chain) ≠ []) :
    (s.rollbackFabricatedHeaderChain A e).fabricatedRollbackCount = (s.nextCut (cutTarget A s)).2 := by
  rw [rollbackFabricatedHeaderChain, if_neg h]
  dsimp only
  split
  · rfl
  · split
    · exact (count_stable _).starts.resetDownloadState rfl
    · rfl

theorem rollback_of_no_peer (h : s.fetchHigherPeers (A.bestHeaderHeight s.chain) = []) :
    s.rollbackFabricatedHeaderChain A e = s := by
  rw [rollbackFabricatedHeaderChain, if_pos h]

end Manager

/-! ## Runs -/

/-- The manager with a history: the greatest best height so far, and how many calls have rolled the chain back since it was
reached. -/
structure Breaker (χ : Type) where
  manager : Manager χ
  top : Int
  rollbacks : Nat := 0

inductive BreakerEvent (χ : Type)
  | rollbackFabricatedHeaderChain (e : Env)
  /-- Blocks are connected, peers come and go and announce heights. -/
  | connected (chain : χ) (lastBlock : Peer → Int) (peerStates : AList fun _ : Peer => Bool)

namespace Breaker

variable (A : ChainApi χ) (b : Breaker χ)

/-- A new best height starts the count again. -/
def note : Breaker χ :=
  if b.top < A.bestHeight b.manager.chain then { b with top := A.bestHeight b.manager.chain, rollbacks := 0 } else b

def step : BreakerEvent χ → Option (Breaker χ)
  | .rollbackFabricatedHeaderChain e =>
    some (note A { b with
      manager := b.manager.rollbackFabricatedHeaderChain A e
      rollbacks := if b.manager.RollsBack A then b.rollbacks + 1 else b.rollbacks })
  | .connected chain lastBlock peerStates =>
    some (note A { b with
      manager := { b.manager with chain := chain, lastBlock := lastBlock, peerStates := peerStates } })

/-- A call that finds the tip above the last cut finds a chain that has reached a new best height since. -/
def Progressed : BreakerEvent χ → Prop
  | .rollbackFabricatedHeaderChain _ =>
    b.manager.fetchHigherPeers (A.bestHeaderHeight b.manager.chain) ≠ [] →
      b.manager.fabricatedRollbackHeight < b.manager.cutTarget A → b.rollbacks = 0
  | .connected .. => True

instance (A : ChainApi χ) (b : Breaker χ) (a : BreakerEvent χ) : Decidable (Progressed A b a) := by
  cases a <;> dsimp only [Progressed] <;> infer_instance

/-- The rollbacks since the last new best height are counted by the manager, but for the first. -/
structure Counted (b : Breaker χ) : Prop where
  le : b.rollbacks ≤ b.manager.fabricatedRollbackCount + 1
  bounded : b.rollbacks ≤ maxFabricatedRollbacks + 1

variable {A : ChainApi χ} {b b' : Breaker χ}

theorem Counted.note (h : Counted b) : Counted (b.note A) := by
  unfold Breaker.note
  split
  · exact ⟨Nat.zero_le _, Nat.zero_le _⟩
  · exact h

/-- A tip above the last cut starts the count, and then the history has done so; otherwise the count goes up. -/
theorem Counted.le_nextCut {e : Env} (h : Counted b) (ha : Progressed A b (.rollbackFabricatedHeaderChain e))
    (hpeers : b.manager.fetchHigherPeers (A.bestHeaderHeight b.manager.chain) ≠ []) :
    b.rollbacks ≤ (b.manager.nextCut (b.manager.cutTarget A)).2 := by
  unfold Manager.nextCut
  split
  next htarget => exact Nat.le_of_eq (ha hpeers htarget)
  next => exact h.le

theorem Counted.step {a : BreakerEvent χ} (h : Counted b) (ha : Progressed A b a) (hstep : b.step A a = some b') :
    Counted b' := by
  cases a with
  | connected chain lastBlock peerStates =>
    obtain rfl := Option.some_inj.1 hstep
    apply Counted.note
    exact ⟨h.le, h.bounded⟩
  | rollbackFabricatedHeaderChain e =>
    obtain rfl := Option.some_inj.1 hstep
    apply Counted.note
    by_cases hpeers : b.manager.fetchHigherPeers (A.bestHeaderHeight b.manager.chain) = []
    · have hno : ¬ b.manager.RollsBack A := fun hroll => hroll.1 hpeers
      rw [Manager.rollback_of_no_peer hpeers, if_neg hno]
      exact h
    · have hcount := @Manager.count_rollback χ A e b.manager hpeers
      have hle := h.le_nextCut ha hpeers
      by_cases hroll : b.manager.RollsBack A
      · rw [if_pos hroll]
        exact ⟨hcount ▸ Nat.succ_le_succ hle, Nat.succ_le_succ (Nat.le_trans hle hroll.2)⟩
      · rw [if_neg hroll]
        exact ⟨hcount ▸ Nat.le_succ_of_le hle, h.bounded⟩

end Breaker

/-- Between two new best heights, at most six calls roll the chain back, and once they have, a call that keeps the condition
leaves the chain as it is. -/
theorem rollbacks_bounded {A : ChainApi χ} {s : Manager χ} {events : List (BreakerEvent χ)} {b : Breaker χ}
    (hok : Along (Breaker.step A) (Breaker.Progressed A) ⟨s, A.bestHeight s.chain, 0⟩ events)
    (hr : run (Breaker.step A) ⟨s, A.bestHeight s.chain, 0⟩ events = some b) :
    b.rollbacks ≤ maxFabricatedRollbacks + 1 ∧
      ∀ e, b.Progressed A (.rollbackFabricatedHeaderChain e) → b.rollbacks = maxFabricatedRollbacks + 1 →
        (b.manager.rollbackFabricatedHeaderChain A e).chain = b.manager.chain := by
  have hcounted : b.Counted :=
    run_invariant (I := Breaker.Counted) (fun _ _ _ h ha hstep => h.step ha hstep) ⟨Nat.zero_le _, Nat.zero_le _⟩ hok hr
  refine ⟨hcounted.bounded, fun e hprogressed hfull => Manager.chain_of_not_rollsBack fun hroll => ?_⟩
  have hle := Nat.le_trans (hcounted.le_nextCut hprogressed hroll.1) hroll.2
  rw [hfull] at hle
  exact Nat.not_succ_le_self _ hle

def threeBlocks : Manager (List Hash) := { twoPeers with chain := [7, 8, 9], lastBlock := fun _ => 10 }

/-- The tip is cut off by a call and downloaded again, a number of times. -/
def cutAgain : Nat → List (BreakerEvent (List Hash))
  | 0 => []
  | n + 1 =>
    .rollbackFabricatedHeaderChain { now := 0, shuffle := id } ::
      .connected [7, 8, 9] (fun _ => 10) twoPeers.peerStates :: cutAgain n

/-- Two calls in a row on one tip: the first cuts off the tip, the second a block more. -/
theorem rollbacks_bounded_twice :
    ∃ b, run (Breaker.step listChain) ⟨threeBlocks, listChain.bestHeight threeBlocks.chain, 0⟩ (cutAgain 2) =
      some b ∧ b.rollbacks = 2 ∧ b.rollbacks ≤ maxFabricatedRollbacks + 1 := by
  exact exists_run rfl fun b hr => ⟨by cases hr; decide +kernel, (rollbacks_bounded (by decide +kernel) hr).1⟩

/-- The third call takes the blocks that were downloaded again for progress, and so on: seven calls roll the chain back, and
the best height never exceeds the first one. -/
theorem rollbacks_unbounded :
    ∃ b, run (Breaker.step listChain) ⟨threeBlocks, listChain.bestHeight threeBlocks.chain, 0⟩ (cutAgain 7) =
      some b ∧ b.top = 3 ∧ b.rollbacks = 7 ∧ ¬ b.rollbacks ≤ maxFabricatedRollbacks + 1 := by
  exact ⟨_, rfl, by decide +kernel, by decide +kernel, by decide +kernel⟩

end IniNode.Netsync
