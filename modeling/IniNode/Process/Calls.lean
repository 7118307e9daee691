import IniNode.Process.OrphanPool
/-!
# What a call can do

`ProcessBlock` rejects a block, keeps it as an orphan, offers it to the chain in vain, or has it accepted and
then connects the orphans that waited for it. Every result about the calls is a case analysis over `Taken`.
-/

open IniNode.Lib Option

namespace IniNode.Intake

variable {params : IntakeParams} {c d : Intake} {a : Arrival} {r : Except IntakeError (Bool × Bool)} {hash : Hash}

/-- `blockExists` says so: the body is stored, and the node in memory or a row of the hash index vouches for it. -/
def Known (c : Intake) (hash : Hash) : Prop :=
  (c.bodies hash).isSome ∧ ((c.index hash).any IntakeNode.haveData ∨ (c.hashIndex hash).isSome)

/-- Only data flags in the index differ, and flags of bodies that are not there. -/
structure Reindexed (c d : Intake) : Prop where
  pool : SamePool c d
  bodies : d.bodies = c.bodies
  accepted : d.accepted = c.accepted
  connected : d.connected = c.connected
  known : ∀ h, d.Known h ↔ c.Known h
  skips : ∀ b, d.skipsPoW b = c.skipsPoW b

theorem Reindexed.refl (c : Intake) : Reindexed c c :=
  ⟨⟨rfl, rfl, rfl, rfl⟩, rfl, rfl, rfl, fun _ => Iff.rfl, fun _ => rfl⟩

theorem Reindexed.trans {e : Intake} (h : Reindexed c d) (h' : Reindexed d e) : Reindexed c e where
  pool := ⟨h'.pool.orphans.trans h.pool.orphans, h'.pool.prevOrphans.trans h.pool.prevOrphans,
    h'.pool.oldestOrphan.trans h.pool.oldestOrphan, h'.pool.orphanDiskBytes.trans h.pool.orphanDiskBytes⟩
  bodies := h'.bodies.trans h.bodies
  accepted := h'.accepted.trans h.accepted
  connected := h'.connected.trans h.connected
  known x := (h'.known x).trans (h.known x)
  skips b := (h'.skips b).trans (h.skips b)

theorem Reindexed.clear {height : Int} (hn : c.index hash = some ⟨height, true⟩)
    (hb : c.bodies hash = none) :
    Reindexed c { c with index := c.index.write ⟨hash, some ⟨height, false⟩⟩ } where
  pool := ⟨rfl, rfl, rfl, rfl⟩
  bodies := rfl
  accepted := rfl
  connected := rfl
  known x := by
    simp only [Known, Store.write_apply]
    by_cases hx : x = hash
    · rw [hx, hb]
      simp
    · rw [if_neg hx]
  skips b := by
    simp only [skipsPoW]
    by_cases hx : b.prevBlock = hash
    · simp [hx, hn]
    · simp [if_neg hx]

theorem blockExists_spec (c : Intake) (hash : Hash) :
    Reindexed c (c.blockExists hash).1 ∧ ((c.blockExists hash).2 = true ↔ c.Known hash) := by
  unfold blockExists
  split
  next height hn =>
    cases hb : c.bodies hash with
    | none => simpa [Known, hb] using Reindexed.clear hn hb
    | some b => simpa [Known, hb, hn] using Reindexed.refl c
  next hn =>
    refine ⟨Reindexed.refl c, ?_⟩
    have hflag : (c.index hash).any IntakeNode.haveData = false := by
      cases hi : c.index hash with
      | none => rfl
      | some n =>
        obtain ⟨height, _ | _⟩ := n
        · rfl
        · exact absurd hi (hn height)
    simp [Known, hflag]

theorem reindexed_blockExists {known : Bool} (h : c.blockExists hash = (d, known)) : Reindexed c d := by
  have hr := (blockExists_spec c hash).1
  rwa [h] at hr

theorem known_iff_blockExists {known : Bool} (h : c.blockExists hash = (d, known)) :
    known = true ↔ c.Known hash := by
  have hk := (blockExists_spec c hash).2
  rwa [h] at hk

/-- What one call of `ProcessBlock` does. -/
inductive Taken (params : IntakeParams) (a : Arrival) (c d : Intake) : Prop
  | rejected (h : Reindexed c d)
  | orphan (c1 : Intake) (h : Reindexed c c1) (unknown : ¬ c.Known a.block.hash)
    (fresh : c.orphans.lookup a.block.hash = none) (parent : ¬ c.Known a.block.prevBlock)
    (sane : checkBlockSanity params a.block.header true a.sane = .ok ())
    (added : (c1.persistOrphan params a).addOrphanBlock params a = some d)
  | refused (c1 : Intake) (h : Reindexed c c1) (fresh : c.orphans.lookup a.block.hash = none)
    (parent : c.Known a.block.prevBlock)
    (sane : checkBlockSanity params a.block.header (a.noPoWCheck || c.skipsPoW a.block) a.sane = .ok ())
    (offered : Offered c1 a.block d false)
  | accepted (c1 c2 : Intake) (r : Except IntakeError Unit) (h : Reindexed c c1)
    (fresh : c.orphans.lookup a.block.hash = none) (parent : c.Known a.block.prevBlock)
    (sane : checkBlockSanity params a.block.header (a.noPoWCheck || c.skipsPoW a.block) a.sane = .ok ())
    (offered : Offered c1 a.block c2 true)
    (released : processOrphans a c2.processFuel [a.block.hash] c2 = some (d, r))

theorem processConnected_taken {c1 : Intake} (hr : Reindexed c c1)
    (hf : c.orphans.lookup a.block.hash = none) (hk : c.Known a.block.prevBlock)
    (h : c1.processConnected params a = some (d, r)) : Taken params a c d := by
  rw [processConnected, hr.skips] at h
  split at h
  next =>
    cases h
    exact .rejected hr
  next hs =>
    split at h
    · cases h
      exact .rejected hr
    have hoff := maybeAcceptBlock_offered c1 a.block (a.acceptance a.block.hash)
    split at h
    next he =>
      rw [he] at hoff
      cases h
      exact .refused c1 hr hf hk hs hoff
    next c2 m he =>
      rw [he] at hoff
      obtain ⟨⟨d', r'⟩, hp, hd⟩ := map_eq_some_iff.1 h
      refine .accepted c1 c2 r' hr hf hk hs hoff ?_
      cases r' with
      | error e => cases hd; exact hp
      | ok u => cases hd; exact hp

theorem processBlock_taken (h : c.processBlock params a = some (d, r)) :
    Taken params a c d := by
  rw [processBlock] at h
  split at h
  next c1 he =>
    cases h
    exact .rejected (reindexed_blockExists he)
  next c1 he =>
    have hr1 := reindexed_blockExists he
    have hunknown : ¬ c.Known a.block.hash := fun hk => Bool.false_ne_true ((known_iff_blockExists he).2 hk)
    split at h
    · cases h
      exact .rejected hr1
    next hf =>
      have hfresh : c.orphans.lookup a.block.hash = none := by
        rw [← hr1.pool.orphans]
        exact not_isSome_iff_eq_none.1 hf
      split at h
      next c2 he2 =>
        have hr2 := hr1.trans (reindexed_blockExists he2)
        have hparent : ¬ c.Known a.block.prevBlock := fun hk =>
          Bool.false_ne_true ((known_iff_blockExists he2).2 ((hr1.known _).2 hk))
        rw [processOrphanBlock] at h
        split at h
        next =>
          cases h
          exact .rejected hr2
        next hs =>
          obtain ⟨d', hd', he'⟩ := map_eq_some_iff.1 h
          cases he'
          exact .orphan c2 hr2 hunknown hfresh hparent hs hd'
      next c2 he2 =>
        have hparent : c.Known a.block.prevBlock := (hr1.known _).1 ((known_iff_blockExists he2).1 rfl)
        exact processConnected_taken (hr1.trans (reindexed_blockExists he2)) hfresh hparent h

theorem processBlock_duplicate
    (hdup : c.Known a.block.hash ∨ c.orphans.lookup a.block.hash ≠ none) (h : c.processBlock params a = some (d, r)) :
    Reindexed c d := by
  rw [processBlock] at h
  split at h
  next c1 he =>
    cases h
    exact reindexed_blockExists he
  next c1 he =>
    have hr1 := reindexed_blockExists he
    have hknown : ¬ c.Known a.block.hash := fun hk => Bool.false_ne_true ((known_iff_blockExists he).2 hk)
    have hpool : (c1.orphans.lookup a.block.hash).isSome = true := by
      rw [hr1.pool.orphans, isSome_iff_ne_none]
      exact hdup.resolve_left hknown
    rw [if_pos hpool] at h
    cases h
    exact hr1

theorem step_block (h : step params c (.block a) = some d) : Taken params a c d := by
  obtain ⟨⟨d', r⟩, hp, rfl⟩ := map_eq_some_iff.1 h
  exact processBlock_taken hp

/-- A header and a flush leave the pool, the bodies and the histories alone. -/
structure Indexed (c d : Intake) : Prop where
  pool : SamePool c d
  bodies : d.bodies = c.bodies
  accepted : d.accepted = c.accepted
  connected : d.connected = c.connected

theorem Indexed.refl (c : Intake) : Indexed c c := ⟨⟨rfl, rfl, rfl, rfl⟩, rfl, rfl, rfl⟩

theorem processBlockHeader_indexed (c : Intake) (a : HeaderArrival) : Indexed c (c.processBlockHeader params a).1 := by
  unfold processBlockHeader
  split
  next => exact Indexed.refl c
  next prevNode hprev =>
    split
    · exact Indexed.refl c
    split
    · exact Indexed.refl c
    split
    next => exact Indexed.refl c
    next =>
      split
      · exact Indexed.refl c
      · dsimp only [followTip]
        split
        · exact ⟨⟨rfl, rfl, rfl, rfl⟩, rfl, rfl, rfl⟩
        · exact ⟨⟨rfl, rfl, rfl, rfl⟩, rfl, rfl, rfl⟩

theorem step_cases {call : Call} (h : step params c call = some d) :
    (∃ a, call = .block a ∧ Taken params a c d) ∨ Indexed c d := by
  cases call with
  | block a => exact .inl ⟨a, rfl, step_block h⟩
  | header a =>
    cases h
    exact .inr (processBlockHeader_indexed c a)
  | flush evicted hashRows heightRows =>
    cases h
    exact .inr ⟨⟨rfl, rfl, rfl, rfl⟩, rfl, rfl, rfl⟩

/-! ## Adding an orphan -/

theorem addOrphanBlock_eq_some (h : c.addOrphanBlock params a = some d) :
    ∃ c1 c2, a.visits.foldl (visitOrphan params a) c = c1 ∧ evictOldest params a c1 = some c2 ∧
      d = c2.insertOrphan ⟨a.block, a.now + hour⟩ := by
  rw [addOrphanBlock] at h
  split at h
  · obtain ⟨c2, h2, rfl⟩ := map_eq_some_iff.1 h
    exact ⟨_, c2, rfl, h2, rfl⟩
  · cases h

theorem visitOrphan_cases (params : IntakeParams) (a : Arrival) (c : Intake) (v : Hash × Int) :
    visitOrphan params a c v = c ∨
      ∃ o, c.orphans.lookup v.1 = some o ∧
        (visitOrphan params a c v = c.removeOrphanBlockWithData params o (a.deleted o.hash) ∨
          visitOrphan params a c v = { c with oldestOrphan := some o }) := by
  unfold visitOrphan
  split
  next => exact .inl rfl
  next o ho =>
    refine or_iff_not_imp_left.2 fun hne => ⟨o, ho, ?_⟩
    split
    · exact .inl rfl
    next hexp =>
      rw [if_neg hexp] at hne
      split
      · exact .inr rfl
      next hold => exact absurd (if_neg hold) hne

theorem visitOrphans_keeps {I : Intake → Prop}
    (hstep : ∀ {c : Intake} (v : Hash × Int), I c → I (visitOrphan params a c v))
    (hc : I c) (vs : List (Hash × Int)) : I (vs.foldl (visitOrphan params a) c) := by
  induction vs generalizing c with
  | nil => exact hc
  | cons v vs ih => exact ih (hstep v hc)

theorem evictOldest_eq_some (h : evictOldest params a c = some d) :
    (c.orphans.entries.length < maxOrphanBlocks ∧ d = c) ∨
      maxOrphanBlocks ≤ c.orphans.entries.length ∧ ∃ old, c.oldestOrphan = some old ∧
        d = { c.removeOrphanBlockWithData params old (a.deleted old.hash) with oldestOrphan := none } := by
  rw [evictOldest] at h
  split at h
  next hfull =>
    obtain ⟨old, hold, rfl⟩ := map_eq_some_iff.1 h
    exact .inr ⟨Nat.lt_succ_iff.1 hfull, old, hold, rfl⟩
  next hroom =>
    cases h
    exact .inl ⟨Nat.lt_of_succ_le (Nat.not_lt.1 hroom), rfl⟩

/-! ## A chain of one block -/

/-- A block on top of another, with the easiest target. -/
def blockOn (hash prev : Hash) : Block := ⟨hash, ⟨1, prev, 0, 0, 0x207fffff, 0⟩, []⟩

/-- Every header has its work, and every block has a size of one byte. -/
def easyParams : IntakeParams := ⟨compactToBig 0x207fffff, fun _ => 0, fun _ => 1⟩

theorem checkBlockSanity_blockOn (hash prev : Hash) (noPoWCheck : Bool) :
    checkBlockSanity easyParams (blockOn hash prev).header noPoWCheck true = .ok () := by
  have htarget : (0 : Int) < compactToBig 0x207fffff := by decide
  have hlimit : compactToBig 0x207fffff ≤ compactToBig 0x207fffff := Int.le_refl _
  exact checkBlockSanity_eq_ok.2
    ⟨checkProofOfWork_eq_ok.2 ⟨htarget, hlimit, fun _ => Int.le_of_lt htarget⟩, rfl⟩

/-- The chain whose only block is the genesis block. -/
def genesisIntake : Intake where
  index h := if h = 1 then some ⟨0, true⟩ else none
  hashIndex h := if h = 1 then some 0 else none
  heightIndex k := if k = 0 then some 1 else none
  bodies h := if h = 1 then some (blockOn 1 0) else none
  headerTip := 1
  headerHeight := 0
  accepted := [1]
  connected := [blockOn 1 0]

end IniNode.Intake
