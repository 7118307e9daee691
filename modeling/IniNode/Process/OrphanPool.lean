import IniNode.Process.Intake
/-!
# The orphan pool

What the operations of the pool do to it: `Grouped` says that `prevOrphans` lists exactly the orphans of the pool,
by parent. An orphan of the pool can be taken out and a new one put in; nothing else changes the two maps.
-/

open IniNode.Lib List Option

namespace IniNode.Intake

open AList
variable {params : IntakeParams} {c d : Intake} {o : OrphanBlock} {a : Arrival}

def InPool (c : Intake) (o : OrphanBlock) : Prop := c.orphans.lookup o.hash = some o

/-- `prevOrphans` lists exactly the orphans of the pool, grouped by their parents. -/
structure Grouped (c : Intake) : Prop where
  key : ∀ h o, c.orphans.lookup h = some o → o.hash = h
  listed : ∀ p o, o ∈ c.waiting p ↔ c.InPool o ∧ o.prev = p
  nodup : ∀ p, ((c.waiting p).map OrphanBlock.hash).Nodup
  nonempty : ∀ p, c.prevOrphans.lookup p ≠ some []

theorem Grouped.inPool (hg : Grouped c) {h : Hash} (ho : c.orphans.lookup h = some o) : c.InPool o := by
  rw [InPool, hg.key h o ho]
  exact ho

theorem Grouped.of_eq (hg : Grouped c) (ho : d.orphans = c.orphans) (hp : d.prevOrphans = c.prevOrphans) :
    Grouped d := by
  have hw : ∀ p, d.waiting p = c.waiting p := fun p => by rw [waiting, waiting, hp]
  refine ⟨?_, ?_, ?_, ?_⟩
  · rw [ho]
    exact hg.key
  · intro p x
    rw [hw, InPool, ho]
    exact hg.listed p x
  · intro p
    rw [hw]
    exact hg.nodup p
  · rw [hp]
    exact hg.nonempty

theorem bodies_storeBody (c : Intake) (b : Block) (h : Hash) :
    (c.storeBody b).bodies h = if h = b.hash then (c.bodies h).or (some b) else c.bodies h := by
  simp only [storeBody]
  cases hb : c.bodies b.hash with
  | some x =>
    rw [isSome_some, if_pos rfl]
    by_cases hh : h = b.hash
    · rw [if_pos hh, hh, hb]
      rfl
    · rw [if_neg hh]
  | none =>
    rw [isSome_none, if_neg Bool.false_ne_true, Store.write_apply]
    by_cases hh : h = b.hash
    · rw [if_pos hh, if_pos hh, hh, hb, none_or]
    · rw [if_neg hh, if_neg hh]

/-! ## Taking an orphan out -/

theorem lookup_prevOrphans_removeOrphanBlock (c : Intake) (o : OrphanBlock) (p : Hash) :
    (c.removeOrphanBlock o).prevOrphans.lookup p =
      if p = o.prev then some ((c.waiting p).filter fun x => x.hash ≠ o.hash) |>.filter (· ≠ [])
      else c.prevOrphans.lookup p := by
  simp only [removeOrphanBlock]
  by_cases hr : ((c.waiting o.prev).filter fun x => x.hash ≠ o.hash) = []
  · rw [if_pos hr]
    by_cases hp : p = o.prev
    · subst hp
      rw [lookup_erase, if_pos rfl, hr]
      rfl
    · rw [lookup_erase_ne hp, if_neg hp]
  · rw [if_neg hr]
    by_cases hp : p = o.prev
    · subst hp
      rw [lookup_insert, if_pos rfl, filter_some, if_pos (decide_eq_true hr)]
    · rw [lookup_insert_ne hp, if_neg hp]

theorem waiting_removeOrphanBlock (c : Intake) (o : OrphanBlock) (p : Hash) : (c.removeOrphanBlock o).waiting p =
      if p = o.prev then (c.waiting p).filter fun x => x.hash ≠ o.hash else c.waiting p := by
  rw [waiting, lookup_prevOrphans_removeOrphanBlock]
  by_cases hp : p = o.prev
  · rw [if_pos hp, if_pos hp]
    by_cases hr : ((c.waiting p).filter fun x => x.hash ≠ o.hash) = []
    · rw [hr]
      rfl
    · rw [filter_some, if_pos (decide_eq_true hr), getD_some]
  · rw [if_neg hp, if_neg hp, waiting]

theorem inPool_removeOrphanBlock {x : OrphanBlock} :
    (c.removeOrphanBlock o).InPool x ↔ c.InPool x ∧ x.hash ≠ o.hash := by
  simp only [InPool, removeOrphanBlock]
  by_cases h : x.hash = o.hash
  · rw [h]
    simp
  · simp [h]

theorem lookup_removeOrphanBlock {h : Hash} (hn : c.orphans.lookup h = none) :
    (c.removeOrphanBlock o).orphans.lookup h = none := by
  by_cases he : h = o.hash
  · rw [he]
    exact lookup_erase ..
  · exact (lookup_erase_ne he).trans hn

theorem length_removeOrphanBlock (ho : c.InPool o) :
    (c.removeOrphanBlock o).orphans.entries.length + 1 = c.orphans.entries.length := length_erase ho

theorem Grouped.removeOrphanBlock (hg : Grouped c) (ho : c.InPool o) : Grouped (c.removeOrphanBlock o) where
  key h x hx := by
    by_cases he : h = o.hash
    · rw [he, show (c.removeOrphanBlock o).orphans.lookup o.hash = none from lookup_erase ..] at hx
      cases hx
    · exact hg.key h x ((lookup_erase_ne he).symm.trans hx)
  listed p x := by
    rw [waiting_removeOrphanBlock, inPool_removeOrphanBlock]
    by_cases hp : p = o.prev
    · rw [if_pos hp, mem_filter, hg.listed]
      simp only [decide_not, Bool.not_eq_true', decide_eq_false_iff_not]
      tauto
    · rw [if_neg hp, hg.listed]
      constructor
      · rintro ⟨hx, hxp⟩
        refine ⟨⟨hx, fun he => hp ?_⟩, hxp⟩
        -- two orphans of the pool with one hash are one orphan
        rw [InPool, he] at hx
        rw [← hxp, mem_unique hx ho]
      · exact fun hx => ⟨hx.1.1, hx.2⟩
  nodup p := by
    rw [waiting_removeOrphanBlock]
    split
    · exact (filter_sublist.map _).nodup (hg.nodup p)
    · exact hg.nodup p
  nonempty p := by
    rw [lookup_prevOrphans_removeOrphanBlock]
    split
    · intro h
      exact absurd rfl (of_decide_eq_true (filter_eq_some_iff.1 h).2)
    · exact hg.nonempty p

variable (deleted : Bool)

@[simp] theorem orphans_removeOrphanBlockWithData :
    (c.removeOrphanBlockWithData params o deleted).orphans = (c.removeOrphanBlock o).orphans := by
  cases deleted <;> rfl

@[simp] theorem prevOrphans_removeOrphanBlockWithData :
    (c.removeOrphanBlockWithData params o deleted).prevOrphans = (c.removeOrphanBlock o).prevOrphans := by
  cases deleted <;> rfl

@[simp] theorem accepted_removeOrphanBlockWithData :
    (c.removeOrphanBlockWithData params o deleted).accepted = c.accepted := by
  cases deleted <;> rfl

@[simp] theorem oldestOrphan_removeOrphanBlockWithData :
    (c.removeOrphanBlockWithData params o deleted).oldestOrphan = c.oldestOrphan := by
  cases deleted <;> rfl

theorem Grouped.removeWithData (hg : Grouped c) (ho : c.InPool o) (deleted : Bool) :
    Grouped (c.removeOrphanBlockWithData params o deleted) :=
  (hg.removeOrphanBlock ho).of_eq (orphans_removeOrphanBlockWithData _) (prevOrphans_removeOrphanBlockWithData _)

/-! ## Putting an orphan in -/

theorem waiting_insertOrphan (c : Intake) (o : OrphanBlock) (p : Hash) :
    (c.insertOrphan o).waiting p = if p = o.prev then c.waiting p ++ [o] else c.waiting p := by
  simp only [waiting, insertOrphan]
  by_cases hp : p = o.prev
  · subst hp
    simp
  · rw [lookup_insert_ne hp, if_neg hp]

theorem inPool_insertOrphan {x : OrphanBlock} (hn : c.orphans.lookup o.hash = none) :
    (c.insertOrphan o).InPool x ↔ x = o ∨ c.InPool x := by
  simp only [InPool, insertOrphan]
  by_cases h : x.hash = o.hash
  · rw [h, hn]
    simp [eq_comm]
  · rw [lookup_insert_ne h]
    exact (or_iff_right fun hx : x = o => h (congrArg OrphanBlock.hash hx)).symm

theorem Grouped.insertOrphan (hg : Grouped c) (hn : c.orphans.lookup o.hash = none) : Grouped (c.insertOrphan o) where
  key h x hx := by
    by_cases he : h = o.hash
    · subst he
      rw [← mem_unique (lookup_insert c.orphans) hx]
    · exact hg.key h x ((lookup_insert_ne he).symm.trans hx)
  listed p x := by
    rw [waiting_insertOrphan, inPool_insertOrphan hn]
    by_cases hp : p = o.prev
    · rw [if_pos hp, mem_append, hg.listed, mem_singleton]
      constructor
      · rintro (hx | rfl)
        · exact ⟨.inr hx.1, hx.2⟩
        · exact ⟨.inl rfl, hp.symm⟩
      · rintro ⟨rfl | hx, hxp⟩
        · exact .inr rfl
        · exact .inl ⟨hx, hxp⟩
    · rw [if_neg hp, hg.listed]
      constructor
      · exact fun hx => ⟨.inr hx.1, hx.2⟩
      · rintro ⟨rfl | hx, hxp⟩
        · exact absurd hxp.symm hp
        · exact ⟨hx, hxp⟩
  nodup p := by
    rw [waiting_insertOrphan]
    split
    · rw [map_append, nodup_append]
      refine ⟨hg.nodup p, nodup_singleton _, ?_⟩
      intro h hh h' hh' he
      obtain ⟨x, hx, rfl⟩ := List.mem_map.1 hh
      have hin := ((hg.listed p x).1 hx).1
      rw [InPool, he, mem_singleton.1 hh', hn] at hin
      cases hin
    · exact hg.nodup p
  nonempty p := by
    simp only [Intake.insertOrphan]
    by_cases hp : p = o.prev
    · subst hp
      simp
    · rw [lookup_insert_ne hp]
      exact hg.nonempty p

theorem length_insertOrphan (hn : c.orphans.lookup o.hash = none) :
    (c.insertOrphan o).orphans.entries.length = c.orphans.entries.length + 1 := by
  rw [insertOrphan, entries_insert_of_notMem (lookup_eq_none.1 hn), length_cons]

@[simp] theorem orphans_persistOrphan (a : Arrival) : (c.persistOrphan params a).orphans = c.orphans := by
  unfold persistOrphan; split <;> rfl

@[simp] theorem oldestOrphan_persistOrphan (a : Arrival) :
    (c.persistOrphan params a).oldestOrphan = c.oldestOrphan := by
  unfold persistOrphan; split <;> rfl

@[simp] theorem accepted_persistOrphan (a : Arrival) : (c.persistOrphan params a).accepted = c.accepted := by
  unfold persistOrphan; split <;> rfl

/-! ## Offering a block to the chain -/

/-- The orphans are the same. -/
structure SamePool (c d : Intake) : Prop where
  orphans : d.orphans = c.orphans
  prevOrphans : d.prevOrphans = c.prevOrphans
  oldestOrphan : d.oldestOrphan = c.oldestOrphan
  orphanDiskBytes : d.orphanDiskBytes = c.orphanDiskBytes

theorem SamePool.grouped (h : SamePool c d) (hg : Grouped c) : Grouped d := hg.of_eq h.orphans h.prevOrphans

/-- What `maybeAcceptBlock` has done when it returns. -/
structure Offered (c : Intake) (block : Block) (d : Intake) (ok : Bool) : Prop where
  pool : SamePool c d
  bodies : d.bodies = c.bodies ∨ d.bodies = (c.storeBody block).bodies
  stored : ok = true → d.bodies = (c.storeBody block).bodies
  accepted : d.accepted = if ok then block.hash :: c.accepted else c.accepted
  connected : ∀ x ∈ d.connected, x = block ∨ x ∈ c.connected ∨ ∃ h, d.bodies h = some x

theorem mem_mapM_bodies {s : Store Hash Block} {hs : List Hash} {bs : List Block} (h : hs.mapM s = some bs) {b : Block}
    (hb : b ∈ bs) : ∃ h, s h = some b := by
  induction hs generalizing bs with
  | nil =>
    cases h
    cases hb
  | cons x hs ih =>
    rw [mapM_cons] at h
    obtain ⟨y, hy, h⟩ := bind_eq_some_iff.1 h
    obtain ⟨ys, hys, h⟩ := bind_eq_some_iff.1 h
    cases h
    rcases mem_cons.1 hb with rfl | hb
    · exact ⟨x, hy⟩
    · exact ih hys hb

theorem connectBestChain_eq_some {block : Block} {k : Connect} {m : Bool}
    (h : c.connectBestChain block k = some (d, m)) :
    ∃ blocks, d = { c with connected := blocks } ∧
      ∀ x ∈ blocks, x = block ∨ x ∈ c.connected ∨ ∃ h, c.bodies h = some x := by
  cases k with
  | failed => cases h
  | sideChain =>
    cases h
    exact ⟨c.connected, rfl, fun x hx => .inr (.inl hx)⟩
  | mainChain branch =>
    obtain ⟨bs, hbs, he⟩ := map_eq_some_iff.1 h
    cases he
    refine ⟨_, rfl, ?_⟩
    intro x hx
    rcases mem_append.1 hx with hx | hx
    · rcases mem_cons.1 hx with rfl | hx
      · exact .inl rfl
      · exact .inr (.inr (mem_mapM_bodies hbs hx))
    · exact .inr (.inl hx)

theorem Offered.refl (c : Intake) (block : Block) : Offered c block c false :=
  ⟨⟨rfl, rfl, rfl, rfl⟩, .inl rfl, nofun, rfl, fun _ hx => .inr (.inl hx)⟩

theorem maybeAcceptBlock_offered (c : Intake) (block : Block) (acc : Acceptance) :
    Offered c block (c.maybeAcceptBlock block acc).1 (c.maybeAcceptBlock block acc).2.isOk := by
  unfold maybeAcceptBlock
  split
  next => exact Offered.refl c block
  next prevNode hprev =>
    dsimp only
    split
    · exact Offered.refl c block
    split
    · exact Offered.refl c block
    split
    · exact ⟨⟨rfl, rfl, rfl, rfl⟩, .inr rfl, nofun, rfl, fun _ hx => .inr (.inl hx)⟩
    split
    · exact ⟨⟨rfl, rfl, rfl, rfl⟩, .inr rfl, nofun, rfl, fun _ hx => .inr (.inl hx)⟩
    next d m hd =>
      obtain ⟨blocks, rfl, hblocks⟩ := connectBestChain_eq_some hd
      split
      · exact ⟨⟨rfl, rfl, rfl, rfl⟩, .inr rfl, nofun, rfl, hblocks⟩
      · unfold followTip
        split
        · exact ⟨⟨rfl, rfl, rfl, rfl⟩, .inr rfl, fun _ => rfl, rfl, hblocks⟩
        · exact ⟨⟨rfl, rfl, rfl, rfl⟩, .inr rfl, fun _ => rfl, rfl, hblocks⟩

/-! ## Connecting orphans -/

/-- What holds before `processOrphans` and is kept by every orphan it takes out and offers to the chain,
deleting its body when it is refused, holds after it. -/
theorem processOrphans_keeps {I : Intake → Prop}
    (hstep : ∀ {c d : Intake} {h : Hash} {o : OrphanBlock} {ok : Bool}, I c → o ∈ c.waiting h →
      Offered (c.removeOrphanBlock o) o.block d ok →
      I (if ok then d else if a.deleted o.hash then d.deleteBody o.hash else d))
    {fuel : Nat} {hashes : List Hash} {r : Except IntakeError Unit} (hc : I c)
    (h : processOrphans a fuel hashes c = some (d, r)) : I d := by
  induction fuel generalizing hashes c with
  | zero =>
    cases hashes with
    | nil => cases h; exact hc
    | cons => cases h
  | succ fuel ih =>
    cases hashes with
    | nil => cases h; exact hc
    | cons hash hashes =>
      rw [processOrphans] at h
      split at h
      next => exact ih hc h
      next o l hl =>
        have ho : o ∈ c.waiting hash := hl ▸ mem_cons_self
        have hoff := maybeAcceptBlock_offered (c.removeOrphanBlock o) o.block (a.acceptance o.hash)
        split at h
        next d' e he =>
          rw [he] at hoff
          cases h
          exact hstep hc ho hoff
        next d' m he =>
          rw [he] at hoff
          exact ih (hstep hc ho hoff) h

theorem processOrphans_of_waiting_nil {hash : Hash} (fuel : Nat) (h : c.waiting hash = []) :
    processOrphans a (fuel + 1) [hash] c = some (c, .ok ()) := by
  rw [processOrphans, h]
  cases fuel <;> rfl

/-- `processOrphans` comes to an end: the orphans of the pool bound its rounds. -/
theorem processOrphans_isSome {fuel : Nat} {hashes : List Hash} (hg : Grouped c)
    (hf : 2 * c.orphans.entries.length + hashes.length ≤ fuel) : (processOrphans a fuel hashes c).isSome := by
  induction fuel generalizing hashes c with
  | zero =>
    cases hashes with
    | nil => rfl
    | cons => simp at hf
  | succ fuel ih =>
    cases hashes with
    | nil => rfl
    | cons hash hashes =>
      rw [processOrphans]
      simp only [length_cons] at hf
      split
      next => exact ih hg (by omega)
      next o l hl =>
        have ho : c.InPool o := ((hg.listed hash o).1 (hl ▸ mem_cons_self)).1
        have hoff := maybeAcceptBlock_offered (c.removeOrphanBlock o) o.block (a.acceptance o.hash)
        split
        · rfl
        next d m he =>
          rw [he] at hoff
          have hlen := length_removeOrphanBlock ho
          apply ih (hoff.pool.grouped (hg.removeOrphanBlock ho))
          rw [hoff.pool.orphans]
          simp only [length_append, length_cons, length_nil]
          omega

end IniNode.Intake
