import IniNode.Index.Structs
/-!
# The two holders of the header view

`b.bestHeader` and the view the index was given by `setWindow` are one object until `InvalidateHeaderChain`
replaces the former. From then on the index flushes and evicts by a header chain that is no longer in force:
`header_view_current_iff` says that the index follows `b.bestHeader` exactly in the runs without such a rebuild.
-/

open IniNode.Lib Option

namespace IniNode.BlockChain

variable {params : ChainParams} {checkpoints : List Checkpoint} {b b' : BlockChain}

/-! ## Who replaces the view -/

section Own

theorem own_setHeaderTip (b : BlockChain) (p : Ptr) : (b.setHeaderTip p).ownHeader.isSome = b.ownHeader.isSome := by
  cases h : b.ownHeader with
  | none => simp [setHeaderTip, h]
  | some view => simp [setHeaderTip, h]

theorem own_flushToDB (b : BlockChain) (forceEvict ok : Bool) : (b.flushToDB forceEvict ok).ownHeader = b.ownHeader := by
  unfold flushToDB
  split <;> rfl

theorem own_extendHeader (b : BlockChain) (p : Ptr) : (b.extendHeader p).ownHeader.isSome = b.ownHeader.isSome := by
  unfold extendHeader
  split
  · rfl
  · split
    · exact own_setHeaderTip b p
    · rfl

theorem own_countHeader (b : BlockChain) : b.countHeader.1.ownHeader = b.ownHeader := by
  unfold countHeader
  split <;> rfl

theorem own_followBestChain (b : BlockChain) : b.followBestChain.ownHeader.isSome = b.ownHeader.isSome := by
  unfold followBestChain
  split
  · split
    · exact own_setHeaderTip b _
    · rfl
  · rfl

theorem own_warmed {node : Option Ptr} {next : Option Checkpoint} (h : Warmed b node next b') :
    b'.ownHeader = b.ownHeader := by
  obtain ⟨mem, fresh, cache, rfl, -⟩ := h
  rfl

end Own

/-- Only the rebuild in `InvalidateHeaderChain` makes the view another object. -/
theorem own_move {a : ChainStep} (h : Move params checkpoints b a b') :
    b'.ownHeader = none ↔ b.ownHeader = none ∧ ∀ height, a ≠ .rebuildHeader height := by
  have same : b'.ownHeader.isSome = b.ownHeader.isSome → (∀ height, a ≠ .rebuildHeader height) →
      (b'.ownHeader = none ↔ b.ownHeader = none ∧ ∀ height, a ≠ .rebuildHeader height) := by
    intro hown hne
    rw [← not_isSome_iff_eq_none, hown, not_isSome_iff_eq_none]
    exact ⟨fun hn => ⟨hn, hne⟩, And.left⟩
  cases h with
  | headerOld => exact same (by rw [own_countHeader, own_extendHeader]) (by simp)
  | headerNew => exact same (by rw [own_countHeader, own_extendHeader]; rfl) (by simp)
  | flush => exact same (by rw [own_flushToDB]) (by simp)
  | headerTip => exact same (own_followBestChain b) (by simp)
  | lookup => exact same (by rw [own_warmed (warmed_materializeColdNode b _)]) (by simp)
  | repair => exact same (by rw [repairAncestorChain, own_warmed (warmed_repairFrom _ _ b)]) (by simp)
  | checkpoint => exact same (by rw [own_warmed (warmed_checkpoint checkpoints b)]) (by simp)
  | rebuildHeader => exact ⟨fun hn => (some_ne_none _ hn).elim, fun hall => (hall.2 _ rfl).elim⟩
  | headerKnown | blockOld | blockNew | connect | connectLost | disconnect | disconnectFailed | setStatus | unsetStatus
  | commit | rollback | rollbackFailed | remove | template => exact same rfl (by simp)

/-! ## The view in force -/

/-- The index holds the very view whose tip `BestHeader` reports: what it flushes gets a height row and what it
evicts is chosen by that view. -/
structure HeaderViewCurrent (b : BlockChain) : Prop where
  shared : b.ownHeader = none
  tip : b.bi.bestHeader.tip = b.bestHeader.tip
  rows : ∀ p ∈ b.bi.dirty, (b.bi.nodeRow p).heightIndex = true ↔ b.bestHeader.contains b.bi.mem p
  boundary : b.bi.windowBoundary (b.bi.tipHeight b.bi.bestHeader) = b.bi.windowBoundary (b.bi.tipHeight b.bestHeader)

theorem headerViewCurrent_iff (b : BlockChain) : b.HeaderViewCurrent ↔ b.ownHeader = none := by
  refine ⟨fun h => h.shared, fun h => ?_⟩
  have hview : b.bestHeader = b.bi.bestHeader := by rw [bestHeader, h, getD_none]
  refine ⟨h, by rw [hview], fun p _ => ?_, by rw [hview]⟩
  rw [hview]
  exact decide_eq_true_iff

/-- From a chain whose index holds `b.bestHeader`, as `New` leaves it, it still does so after a run exactly when
no `InvalidateHeaderChain` of the run came to rebuild the view. -/
theorem header_view_current_iff {as : List ChainStep} (hb : b.ownHeader = none)
    (hrun : run (step params checkpoints) b as = some b') :
    b'.HeaderViewCurrent ↔ ∀ height, .rebuildHeader height ∉ as := by
  rw [headerViewCurrent_iff]
  -- once replaced the view is never shared again, so the induction is on the state it has come to
  have gen : ∀ c, run (step params checkpoints) c as = some b' →
      (b'.ownHeader = none ↔ c.ownHeader = none ∧ ∀ height, .rebuildHeader height ∉ as) := by
    clear hb hrun
    induction as with
    | nil =>
      intro c hc
      cases hc
      simp
    | cons a as ih =>
      intro c hc
      obtain ⟨t, ht, hc⟩ := bind_eq_some_iff.1 hc
      rw [ih t hc, own_move (step_move ht)]
      simp [ne_comm (a := a), forall_and, and_assoc]
  rw [gen b hrun]
  exact and_iff_right hb

/-- A header is accepted and then rolled back by `InvalidateHeaderChain`, whose own flush writes the row of the
discarded header again; the header that replaces it gets none. -/
def headerRollback : List ChainStep :=
  [.header (headerOn 1 1) none,
    .setStatus 2 { invalidAncestor := true }, .unsetStatus 2 { valid := true }, .rebuildHeader 0, .rollback 0 1 1 true,
    .flush false true,
    .header (headerOn 1 2) none, .flush true true]

theorem header_view_stale : ∃ b', run (step nonceParams [])
    (create nonceParams (headerOn 0 0) 1 10) headerRollback = some b' ∧
    ¬ b'.HeaderViewCurrent ∧ (b'.bestHeader.tip.map fun p => (b'.bi.mem p).hash) = some 3 ∧
    (b'.bi.bestHeader.tip.map fun p => (b'.bi.mem p).hash) = some 2 ∧ b'.db.heightIndex 1 = some 2 := by
  refine ⟨_, rfl, fun h => ?_, rfl, rfl, rfl⟩
  exact some_ne_none _ h.shared

theorem header_view_current_created : ∃ b', run (step nonceParams []) (create nonceParams (headerOn 0 0) 1 10)
      [.header (headerOn 1 1) none, .flush true true] = some b' ∧ b'.HeaderViewCurrent :=
  exists_run rfl fun _ hrun => (header_view_current_iff rfl hrun).2 (by simp)

end IniNode.BlockChain
