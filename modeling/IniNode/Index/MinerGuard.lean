import IniNode.Index.Sync
/-!
# Blocks of the node's own miner

A block that the miner submits must extend the header chain that the network confirmed. The guard asks the header
view, which knows no block below its base.
-/

open IniNode.Lib

namespace IniNode

/-- The rule errors of `maybeAcceptBlock` before the block is checked in its context. -/
inductive AcceptError
  | previousBlockUnknown
  | invalidAncestorBlock
  | minedBlockNotOnMainChain
deriving DecidableEq, Repr

namespace BlockChain

variable (b : BlockChain)

/-- The node of the block before, as `maybeAcceptBlock` looks it up. -/
def acceptedParent (prevHash : Hash) : Except AcceptError Ptr :=
  match b.bi.lookupNode prevHash with
  | none => .error .previousBlockUnknown
  | some prevNode =>
    if ¬ b.bi.bestChain.contains b.bi.mem prevNode ∧ (b.bi.mem prevNode).status.knownInvalid then
      .error .invalidAncestorBlock
    else .ok prevNode

/-- Whether the header view has another block than the one with the hash at a height. -/
def headerDiffers (height : Int) (hash : Hash) : Bool :=
  (b.bestHeader.nodeByHeight height).any fun headerNode => (b.bi.mem headerNode).hash ≠ hash

/-- `maybeAcceptBlock` with `BFMinerSubmit`, up to the checks of the block in its context. -/
def maybeAcceptMined (hash prevHash : Hash) : Except AcceptError Ptr :=
  (b.acceptedParent prevHash).bind fun prevNode =>
    let height := (b.bi.mem prevNode).height
    if b.bestHeader.tip.all fun headerTip => (b.bi.mem headerTip).height < height then .error .minedBlockNotOnMainChain
    else if b.headerDiffers height (b.bi.mem prevNode).hash then .error .minedBlockNotOnMainChain
    else if b.headerDiffers (height + 1) hash then .error .minedBlockNotOnMainChain
    else .ok prevNode

theorem headerDiffers_eq_false {b : BlockChain} {height : Int} {hash : Hash} :
    b.headerDiffers height hash = false ↔ ∀ q, b.bestHeader.nodeByHeight height = some q →
    (b.bi.mem q).hash = hash := by
  unfold headerDiffers
  cases b.bestHeader.nodeByHeight height with
  | none => exact iff_of_true rfl nofun
  | some q => simp

/-- What gets past the guard: the view reaches up to the parent, and has no other block at the two heights. -/
theorem maybeAcceptMined_eq_ok {b : BlockChain} {hash prevHash : Hash} {prev : Ptr} :
    b.maybeAcceptMined hash prevHash = .ok prev ↔ b.acceptedParent prevHash = .ok prev ∧
      (∃ tip, b.bestHeader.tip = some tip ∧ (b.bi.mem prev).height ≤ (b.bi.mem tip).height) ∧
      (∀ q, b.bestHeader.nodeByHeight (b.bi.mem prev).height = some q → (b.bi.mem q).hash = (b.bi.mem prev).hash) ∧
      ∀ q, b.bestHeader.nodeByHeight ((b.bi.mem prev).height + 1) = some q → (b.bi.mem q).hash = hash := by
  rw [← headerDiffers_eq_false, ← headerDiffers_eq_false]
  have htip : (∃ tip, b.bestHeader.tip = some tip ∧ (b.bi.mem prev).height ≤ (b.bi.mem tip).height) ↔
      (b.bestHeader.tip.all fun headerTip => (b.bi.mem headerTip).height < (b.bi.mem prev).height) = false := by
    cases b.bestHeader.tip <;> simp
  rw [htip]
  unfold maybeAcceptMined
  cases b.acceptedParent prevHash with
  | error e => exact iff_of_false nofun fun h => nomatch h.1
  | ok p =>
    constructor
    · intro h
      simp only [Except.bind] at h
      split at h
      · cases h
      split at h
      · cases h
      split at h
      · cases h
      cases h
      exact ⟨rfl, eq_false_of_ne_true ‹_›, eq_false_of_ne_true ‹_›, eq_false_of_ne_true ‹_›⟩
    · rintro ⟨hp, hall, hsame, hfree⟩
      cases hp
      simp [Except.bind, hall, hsame, hfree]

/-- A miner's block that is let through extends the header view, unless its parent lies below the blocks that the view
has, or in a gap of them. -/
theorem mined_on_header_chain_iff (hash prevHash : Hash) : (∀ prev, b.maybeAcceptMined hash prevHash = .ok prev →
      (∃ q, b.bestHeader.nodeByHeight (b.bi.mem prev).height = some q ∧ (b.bi.mem q).hash = (b.bi.mem prev).hash) ∧
      ∀ q, b.bestHeader.nodeByHeight ((b.bi.mem prev).height + 1) = some q → (b.bi.mem q).hash = hash) ↔
    ∀ prev tip, b.acceptedParent prevHash = .ok prev → b.bestHeader.tip = some tip →
      (b.bi.mem prev).height ≤ (b.bi.mem tip).height → b.headerDiffers ((b.bi.mem prev).height + 1) hash = false →
      b.bestHeader.nodeByHeight (b.bi.mem prev).height ≠ none := by
  constructor
  · intro h prev tip hparent htip hle hfree hnone
    obtain ⟨⟨q, hq, -⟩, -⟩ := h prev (maybeAcceptMined_eq_ok.2 ⟨hparent, ⟨tip, htip, hle⟩,
      fun q hq => absurd (hnone.symm.trans hq) nofun, headerDiffers_eq_false.1 hfree⟩)
    cases hnone.symm.trans hq
  · intro h prev hok
    obtain ⟨hparent, ⟨tip, htip, hle⟩, hsame, hfree⟩ := maybeAcceptMined_eq_ok.1 hok
    obtain ⟨q, hq⟩ := Option.ne_none_iff_exists'.1 (h prev tip hparent htip hle (headerDiffers_eq_false.2 hfree))
    exact ⟨⟨q, hq, hsame q hq⟩, hfree⟩

/-- A block on genesis, after the header view has left it behind, is let through. -/
theorem mined_below_header_view : ∃ b', run (step nonceParams []) (create nonceParams (headerOn 0 0) 1 1)
      (headerRun 0 524 ++ [.flush true true]) = some b' ∧
    b'.maybeAcceptMined 1000 1 = .ok 0 ∧ b'.bestHeader.nodeByHeight 0 = none := by
  have hst := syncStart_create 1
  obtain ⟨c, hrun, hc, hdirty, -⟩ := hst.headers [] 524
  obtain ⟨-, hbest, htip, hdata, hstays⟩ := hc.flush hst ⟨rfl, rfl⟩
    (List.ne_nil_of_mem (hdirty 524 (by decide) (Nat.le_refl 524)))
  obtain ⟨-, htipHeight, -⟩ := hc.main hst (Nat.le_refl 524)
  obtain ⟨-, hheight, hlook⟩ := hc.main hst (Nat.zero_le 524)
  have hzero : ((c.flushToDB true true).bi.mem 0).height = 0 := (congrArg BlockNode.height (hdata 0)).trans hheight
  have hnone : ∀ {k : Int}, k < 2 → (c.flushToDB true true).bestHeader.nodeByHeight k = none := by
    intro k hk
    rw [hbest, ChainView.nodeByHeight_pruneBelow, if_pos hk, if_neg (by decide)]
  refine ⟨c.flushToDB true true, ?_, maybeAcceptMined_eq_ok.2 ⟨?_, ⟨_, htip, ?_⟩, ?_, ?_⟩, hnone (by decide)⟩
  · rw [run_append, hrun]
    rfl
  · have hparent : (c.flushToDB true true).bi.lookupNode 1 = some 0 := hstays hlook (.inl hheight)
    have hstatus : ((c.flushToDB true true).bi.mem 0).status.knownInvalid = false := by
      rw [BlockNode.status_of_data (hdata 0), hc.side 0 (Nat.le_refl 0)]
      rfl
    rw [acceptedParent, hparent]
    exact if_neg fun hbad => Bool.false_ne_true (hstatus.symm.trans hbad.2)
  · have hheight : ((c.flushToDB true true).bi.mem 524).height = 524 :=
      (congrArg BlockNode.height (hdata 524)).trans htipHeight
    exact hzero ▸ Int.le_trans (by decide) (Int.le_of_eq hheight.symm)
  · intro q hq
    rw [hzero, hnone (by decide)] at hq
    cases hq
  · intro q hq
    rw [hzero, hnone (by decide)] at hq
    cases hq

end BlockChain

end IniNode
