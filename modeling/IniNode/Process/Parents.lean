import IniNode.Process.Calls
/-!
# The parent of a block

`blockExists` looks for the parent of a block in memory and then in the database, `maybeAcceptBlock` in memory only. A
parent that has left the window is found by the first and unknown to the second.
-/

open IniNode.Lib Option

namespace IniNode.Intake

variable {params : IntakeParams} {c : Intake} {block : Block}

/-- `ProcessBlock` refuses the block because its parent is unknown. -/
def Drops (params : IntakeParams) (c : Intake) (block : Block) : Prop :=
  ∃ a d, a.block = block ∧ c.processBlock params a = some (d, .error .previousBlockUnknown) ∧ d.accepted = c.accepted

theorem maybeAcceptBlock_ne_unknown (hi : (c.index block.prevBlock).isSome) (acc : Acceptance) :
    (c.maybeAcceptBlock block acc).2 ≠ .error .previousBlockUnknown := by
  obtain ⟨node, hn⟩ := isSome_iff_exists.1 hi
  simp only [maybeAcceptBlock, hn]
  split
  · nofun
  split
  · nofun
  split
  · nofun
  split
  · nofun
  · split <;> nofun

theorem checkBlockSanity_ne_unknown {header : BlockHeader} {noPoWCheck sane : Bool} :
    checkBlockSanity params header noPoWCheck sane ≠ .error .previousBlockUnknown := by
  unfold checkBlockSanity checkProofOfWork
  cases sane <;> dsimp only <;> split_ifs <;> simp

theorem blockExists_frame (c : Intake) (hash : Hash) :
    (∀ x, ((c.blockExists hash).1.index x).isSome = (c.index x).isSome) ∧
      ((c.blockExists hash).2 = true → (c.blockExists hash).1 = c) := by
  unfold blockExists
  split
  next height hn =>
    split
    · exact ⟨fun _ => rfl, fun _ => rfl⟩
    · refine ⟨fun x => ?_, nofun⟩
      dsimp only
      rw [Store.write_apply]
      split
      next hx => rw [hx, hn]; rfl
      next => rfl
  next => exact ⟨fun _ => rfl, fun _ => rfl⟩

theorem not_drops (hi : c.Known block.prevBlock → (c.index block.prevBlock).isSome) : ¬ Drops params c block := by
  rintro ⟨a, d, rfl, hd, hacc⟩
  have hframe := (blockExists_frame c a.block.hash).1 a.block.prevBlock
  have hr := (blockExists_spec c a.block.hash).1
  rw [processBlock] at hd
  split at hd
  · cases hd
  next c1 he =>
    rw [he] at hframe hr
    split at hd
    · cases hd
    have hsame := (blockExists_frame c1 a.block.prevBlock).2
    have hknown := (blockExists_spec c1 a.block.prevBlock).2
    split at hd
    · rw [processOrphanBlock] at hd
      split at hd
      next e hs =>
        cases hd
        exact checkBlockSanity_ne_unknown hs
      next =>
        obtain ⟨_, -, hd⟩ := map_eq_some_iff.1 hd
        cases hd
    next c2 he2 =>
      rw [he2] at hsame hknown
      obtain rfl : c2 = c1 := hsame rfl
      have hi1 : (c2.index a.block.prevBlock).isSome := hframe.trans (hi ((hr.known _).1 (hknown.1 rfl)))
      have hoff := maybeAcceptBlock_offered c2 a.block (a.acceptance a.block.hash)
      have hne := maybeAcceptBlock_ne_unknown hi1 (a.acceptance a.block.hash)
      rw [processConnected] at hd
      split at hd
      next e hs =>
        cases hd
        exact checkBlockSanity_ne_unknown hs
      split at hd
      · cases hd
      split at hd
      next e he' =>
        cases hd
        exact hne (congrArg Prod.snd he')
      next c3 m he' =>
        -- the block was accepted, and the orphans it releases only add to what was
        rw [he'] at hoff
        obtain ⟨⟨e, r⟩, hp, hd⟩ := map_eq_some_iff.1 hd
        have hmore : c2.accepted.length < e.accepted.length := by
          refine processOrphans_keeps (I := fun e => c2.accepted.length < e.accepted.length) ?_ ?_ hp
          · intro c d h o ok hlt _ hoff
            have hacc := hoff.accepted
            cases ok with
            | true => exact Nat.lt_trans hlt (by rw [if_pos rfl, hacc]; exact Nat.lt_succ_self _)
            | false =>
              have hlt' : c2.accepted.length < d.accepted.length := by rw [hacc]; exact hlt
              rw [if_neg Bool.false_ne_true]
              split <;> exact hlt'
          · rw [hoff.accepted]
            exact Nat.lt_succ_self _
        have hde : d = e := by cases r <;> exact (congrArg Prod.fst hd).symm
        rw [← hde, hacc, ← hr.accepted] at hmore
        exact Nat.lt_irrefl _ hmore

/-- The two agree on the parent of a block, and no block is given up for its parent, unless the parent has left the
window with its data and its row in the database. -/
theorem parent_resolved_iff (params : IntakeParams) (c : Intake) (block : Block) :
    ((c.blockExists block.prevBlock).2 = true → ∀ acc,
        ((c.blockExists block.prevBlock).1.maybeAcceptBlock block acc).2 ≠ .error .previousBlockUnknown) ∧
      ¬ Drops params c block ↔
    ¬ ((c.bodies block.prevBlock).isSome ∧ (c.hashIndex block.prevBlock).isSome ∧ c.index block.prevBlock = none) := by
  have hknown := (blockExists_spec c block.prevBlock).2
  have hsame := (blockExists_frame c block.prevBlock).2
  constructor
  · rintro ⟨h, -⟩ ⟨hbody, hrow, hnone⟩
    have hex := hknown.2 ⟨hbody, .inr hrow⟩
    refine h hex {} ?_
    rw [hsame hex, maybeAcceptBlock, hnone]
  · intro h
    have hi : c.Known block.prevBlock → (c.index block.prevBlock).isSome := by
      rintro ⟨hbody, hflag⟩
      rw [isSome_iff_ne_none]
      intro hnone
      rw [hnone] at hflag
      exact h ⟨hbody, hflag.resolve_left nofun, hnone⟩
    refine ⟨fun hex acc => ?_, not_drops hi⟩
    rw [hsame hex]
    exact maybeAcceptBlock_ne_unknown (hi (hknown.1 hex)) acc

/-- The window moves past the genesis block, and another block comes on top of it. -/
theorem parent_evicted : ∃ c d,
    run (step easyParams) genesisIntake [.block { block := blockOn 2 1 }, .flush [1] [] []] = some c ∧
    (c.blockExists 1).2 = true ∧ (c.maybeAcceptBlock (blockOn 3 1) {}).2 = .error .previousBlockUnknown ∧
    c.processBlock easyParams { block := blockOn 3 1 } = some (d, .error .previousBlockUnknown) ∧
    d.accepted = c.accepted ∧ d.orphans = ∅ :=
  ⟨_, _, rfl, rfl, rfl, rfl, rfl, rfl⟩

end IniNode.Intake
