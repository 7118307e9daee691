import IniNode.Process.Calls
/-!
# Proof of work

A block reaches the best chain through `maybeAcceptBlock`, or out of the database when its branch is attached; neither
looks at its proof of work. So the best chain has its work when every block that is stored or put into the pool has,
and that is so unless a block arrives whose check is skipped: one without its parent, one deep below the header
tip, or one that the rows below the window name.
-/

open IniNode.Lib

namespace IniNode.Intake

variable {params : IntakeParams} {c d : Intake} {o : OrphanBlock} {a : Arrival} {genesis : Block}

/-- `ProcessBlock` does not check the proof of work of the block itself. -/
def Unchecked (c : Intake) (block : Block) : Prop := ¬ c.Known block.prevBlock ∨ c.skipsPoW block = true

/-- The calls are made with `BFNone`. -/
def Unflagged : Call → Prop
  | .block a => a.noPoWCheck = false
  | .header a => a.noPoWCheck = false
  | .flush .. => True

/-- What a call must meet: a block whose check is skipped has its work all the same. -/
def KeepsWork (params : IntakeParams) (c : Intake) : Call → Prop
  | .block a => c.Unchecked a.block → HasWork params a.block.header
  | _ => True

/-- The block is the genesis block, or has its work. -/
def Worked (params : IntakeParams) (genesis block : Block) : Prop := block = genesis ∨ HasWork params block.header

/-- Whatever is in the best chain, on disk or waiting for its parent has a property. -/
structure AllBlocks (P : Block → Prop) (c : Intake) : Prop where
  connected : ∀ x ∈ c.connected, P x
  bodies : ∀ h x, c.bodies h = some x → P x
  waiting : ∀ p, ∀ o ∈ c.waiting p, P o.block

variable {P : Block → Prop}

section

variable (h : AllBlocks P c)

include h

theorem AllBlocks.of_eq (hc : d.connected = c.connected) (hb : d.bodies = c.bodies)
    (hp : d.prevOrphans = c.prevOrphans) : AllBlocks P d where
  connected := hc ▸ h.connected
  bodies := hb ▸ h.bodies
  waiting p := by
    rw [Intake.waiting, hp]
    exact h.waiting p

theorem AllBlocks.remove (o : OrphanBlock) : AllBlocks P (c.removeOrphanBlock o) where
  __ := h
  waiting p x hx := by
    rw [waiting_removeOrphanBlock] at hx
    split at hx
    · exact h.waiting p x (List.mem_of_mem_filter hx)
    · exact h.waiting p x hx

theorem AllBlocks.deleteBody (hash : Hash) : AllBlocks P (c.deleteBody hash) where
  __ := h
  bodies k x hx := by
    obtain ⟨-, ⟨⟩⟩ | ⟨-, hx⟩ := Store.of_write hx
    exact h.bodies k x hx

theorem AllBlocks.storeBody {block : Block} (hw : P block) : AllBlocks P (c.storeBody block) where
  __ := h
  bodies k x hx := by
    rw [bodies_storeBody] at hx
    split at hx
    · rcases Option.or_eq_some_iff.1 hx with hx | ⟨-, hx⟩
      · exact h.bodies k x hx
      · exact Option.some.inj hx ▸ hw
    · exact h.bodies k x hx

theorem AllBlocks.removeWithData (o : OrphanBlock) (deleted : Bool) :
    AllBlocks P (c.removeOrphanBlockWithData params o deleted) := by
  cases deleted with
  | false => exact h.remove o
  | true => exact ((h.remove o).deleteBody o.hash).of_eq rfl rfl rfl

end

theorem AllBlocks.visitOrphan (v : Hash × Int) (h : AllBlocks P c) : AllBlocks P (visitOrphan params a c v) := by
  rcases visitOrphan_cases params a c v with he | ⟨o, ho, he | he⟩
  · rw [he]
    exact h
  · rw [he]
    exact h.removeWithData o _
  · rw [he]
    exact h.of_eq rfl rfl rfl

section

variable (h : AllBlocks P c)

include h

theorem AllBlocks.evictOldest (he : Intake.evictOldest params a c = some d) : AllBlocks P d := by
  rcases evictOldest_eq_some he with ⟨-, rfl⟩ | ⟨-, old, -, rfl⟩
  · exact h
  · exact (h.removeWithData old _).of_eq rfl rfl rfl

theorem AllBlocks.insert (hw : P o.block) : AllBlocks P (c.insertOrphan o) where
  __ := h
  waiting p x hx := by
    rw [waiting_insertOrphan] at hx
    split at hx
    · exact List.forall_mem_append.2 ⟨h.waiting p, List.forall_mem_singleton.2 hw⟩ x hx
    · exact h.waiting p x hx

theorem AllBlocks.addOrphanBlock (hw : P a.block)
    (ha : c.addOrphanBlock params a = some d) : AllBlocks P d := by
  obtain ⟨c1, c2, rfl, h2, rfl⟩ := addOrphanBlock_eq_some ha
  exact ((visitOrphans_keeps AllBlocks.visitOrphan h a.visits).evictOldest h2).insert hw

theorem AllBlocks.offered {block : Block} {ok : Bool}
    (hw : P block) (hoff : Offered c block d ok) : AllBlocks P d := by
  have hbodies : ∀ k x, d.bodies k = some x → P x := by
    rcases hoff.bodies with hb | hb
    · exact hb ▸ h.bodies
    · exact hb ▸ (h.storeBody hw).bodies
  refine ⟨?_, hbodies, ?_⟩
  · intro x hx
    rcases hoff.connected x hx with rfl | hx | ⟨k, hk⟩
    · exact hw
    · exact h.connected x hx
    · exact hbodies k x hk
  · intro p
    rw [Intake.waiting, hoff.pool.prevOrphans]
    exact h.waiting p

/-- A call of `ProcessBlock` keeps the property when the block has it, wherever it gets past the sanity checks. -/
theorem AllBlocks.taken (horphan : ¬ c.Known a.block.prevBlock → P a.block)
    (hsane : checkBlockSanity params a.block.header (a.noPoWCheck || c.skipsPoW a.block) a.sane = .ok () → P a.block)
    (ht : Taken params a c d) : AllBlocks P d := by
  have hre : ∀ {e}, Reindexed c e → AllBlocks P e := fun hr => h.of_eq hr.connected hr.bodies hr.pool.prevOrphans
  cases ht with
  | rejected hr => exact hre hr
  | orphan c1 hr unknown fresh parent sane added =>
    refine AllBlocks.addOrphanBlock ?_ (horphan parent) added
    unfold persistOrphan
    split
    · exact ((hre hr).storeBody (horphan parent)).of_eq rfl rfl rfl
    · exact hre hr
  | refused c1 hr fresh parent sane offered => exact (hre hr).offered (hsane sane) offered
  | accepted c1 c2 r hr fresh parent sane offered released =>
    refine processOrphans_keeps ?_ ((hre hr).offered (hsane sane) offered) released
    intro c d p o ok hc ho hoff
    have hd := (hc.remove o).offered (hc.waiting p o ho) hoff
    cases ok with
    | true => exact hd
    | false =>
      cases hdel : a.deleted o.hash with
      | true => exact hd.deleteBody o.hash
      | false => exact hd

end

theorem AllBlocks.step {call : Call} (h : AllBlocks (Worked params genesis) c) (hf : Unflagged call)
    (hok : KeepsWork params c call) (hs : Intake.step params c call = some d) :
    AllBlocks (Worked params genesis) d := by
  rcases step_cases hs with ⟨a, rfl, ht⟩ | hi
  · refine h.taken (fun hp => .inr (hok (.inl hp))) ?_ ht
    -- a block that passes the sanity checks has its work, by the check or by the condition
    intro hsane
    right
    cases hskip : c.skipsPoW a.block with
    | true => exact hok (.inr hskip)
    | false =>
      rw [show a.noPoWCheck = false from hf, hskip] at hsane
      exact (checkProofOfWork_eq_ok.1 (checkBlockSanity_eq_ok.1 hsane).1).2.2 rfl
  · exact h.of_eq hi.connected hi.bodies hi.pool.prevOrphans

/-- The chain holds the genesis block and nothing else. -/
structure OnlyGenesis (genesis : Block) (c : Intake) : Prop where
  connected : ∀ x ∈ c.connected, x = genesis
  bodies : ∀ h x, c.bodies h = some x → x = genesis
  prevOrphans : c.prevOrphans = ∅

theorem OnlyGenesis.allBlocks (hg : OnlyGenesis genesis c) (hP : ∀ {x}, x = genesis → P x) : AllBlocks P c where
  connected x hx := hP (hg.connected x hx)
  bodies h x hx := hP (hg.bodies h x hx)
  waiting p o ho := by simp [Intake.waiting, hg.prevOrphans] at ho

/-- In every run of calls with `BFNone` from the genesis block, in which every block whose check is skipped has its
work, so has every block that is ever part of the best chain, the genesis block apart. -/
theorem best_chain_has_work {calls : List Call} (hg : OnlyGenesis genesis c) (hf : ∀ call ∈ calls, Unflagged call)
    (hok : Along (step params) (KeepsWork params) c calls) (hr : run (step params) c calls = some d) :
    ∀ x ∈ d.connected, x ≠ genesis → HasWork params x.header := by
  have hend : AllBlocks (Worked params genesis) d :=
    run_invariant (fun _ _ _ h hok hs => h.step hok.2 hok.1 hs) (hg.allBlocks .inl) (hok.and_forall hf) hr
  intro x hx hne
  exact (hend.connected x hx).resolve_left hne

/-- The headers on top of block 2 have no work, all others have. -/
def workless : IntakeParams where
  powLimit := compactToBig 0x207fffff
  powHash header := if header.prevBlock = 2 then 2 ^ 256 else 0
  serializeSize _ := 1

theorem best_chain_has_work_one : ∃ d, run (step workless) genesisIntake [.block { block := blockOn 2 1 }] = some d ∧
    (∀ x ∈ d.connected, x ≠ blockOn 1 0 → HasWork workless x.header) ∧ blockOn 2 1 ∈ d.connected := by
  refine exists_run rfl fun d hr => ⟨best_chain_has_work ⟨by decide, ?_, rfl⟩ ?_ ?_ hr, by cases hr; decide +kernel⟩
  · intro h x hx
    simp only [genesisIntake] at hx
    split at hx
    · exact (Option.some.inj hx).symm
    · cases hx
  · rintro _ (_ | ⟨_, ⟨⟩⟩)
    rfl
  · refine ⟨?_, fun _ _ => trivial⟩
    rintro (h | h)
    · exact absurd ⟨rfl, .inl rfl⟩ h
    · exact absurd h (by decide +kernel)

/-- A block without its work arrives before its parent; the parent has its work, and connects the orphan. -/
theorem workless_orphan_connected : ∃ d, run (step workless) genesisIntake
    [.block { block := blockOn 3 2 }, .block { block := blockOn 2 1 }] = some d ∧
      blockOn 3 2 ∈ d.connected ∧ ¬ HasWork workless (blockOn 3 2).header := by
  refine ⟨_, rfl, by decide +kernel, ?_⟩
  change ¬ ((2 : Int) ^ 256 ≤ compactToBig 0x207fffff)
  decide

end IniNode.Intake
