import IniNode.Process.Calls
/-!
# Soundness of the orphan pool

The pool stays within its limit, `prevOrphans` groups exactly its orphans, and no accepted block loses its body, as
long as two things hold whenever a block arrives without its parent: if the pool is full, the cached oldest orphan
is still in it; and the block is not one that was accepted and that `blockExists` no longer knows. The cached
pointer is not cleared when its orphan is connected, so the first can fail: the overflow then takes out an orphan
that has long left, deletes the body of an accepted block and makes no room.
-/

open IniNode.Lib List Option

namespace IniNode.Intake

variable {params : IntakeParams} {c d : Intake} {o : OrphanBlock} {a : Arrival} {h : Hash} {vs : List (Hash × Int)}

/-- No orphan is accepted, and every accepted block has its body. -/
structure PoolSound (c : Intake) : Prop where
  grouped : Grouped c
  size : c.orphans.entries.length ≤ maxOrphanBlocks
  apart : ∀ h ∈ c.accepted, c.orphans.lookup h = none
  stored : ∀ h ∈ c.accepted, (c.bodies h).isSome

/-- The cached oldest orphan, if there is one, is in the pool. -/
def Cached (c : Intake) : Prop := ∀ old, c.oldestOrphan = some old → c.InPool old

/-- What a call must meet: a block without its parent finds the cached orphan in a full pool, and is
known if it was accepted before. -/
def KeepsPool (c : Intake) : Call → Prop
  | .block a => ¬ c.Known a.block.prevBlock →
      (maxOrphanBlocks ≤ c.orphans.entries.length → c.Cached) ∧
        (a.block.hash ∈ c.accepted → c.Known a.block.hash)
  | _ => True

theorem PoolSound.of_eq (hs : PoolSound c) (ho : d.orphans = c.orphans) (hp : d.prevOrphans = c.prevOrphans)
    (hb : d.bodies = c.bodies) (ha : d.accepted = c.accepted) : PoolSound d where
  grouped := hs.grouped.of_eq ho hp
  size := ho ▸ hs.size
  apart := by
    rw [ho, ha]
    exact hs.apart
  stored := by
    rw [hb, ha]
    exact hs.stored

variable {block : Block} {n : Nat}

theorem isSome_storeBody (hb : (c.bodies h).isSome) :
    ((c.storeBody block).bodies h).isSome := by
  rw [bodies_storeBody]
  split
  · rw [isSome_or, hb, Bool.true_or]
  · exact hb

theorem isSome_storeBody_self : ((c.storeBody block).bodies block.hash).isSome := by
  rw [bodies_storeBody, if_pos rfl, isSome_or, isSome_some, Bool.or_true]

/-! ## Orphans leave the pool -/

section

variable (hs : PoolSound c)

include hs

theorem PoolSound.not_accepted (ho : c.InPool o) : o.hash ∉ c.accepted := by
  intro ha
  rw [InPool, hs.apart _ ha] at ho
  cases ho

theorem PoolSound.remove (ho : c.InPool o) : PoolSound (c.removeOrphanBlock o) where
  grouped := hs.grouped.removeOrphanBlock ho
  size := by
    have := length_removeOrphanBlock ho
    have := hs.size
    omega
  apart h hh := lookup_removeOrphanBlock (hs.apart h hh)
  stored := hs.stored

theorem PoolSound.deleteBody (hh : h ∉ c.accepted) : PoolSound (c.deleteBody h) where
  grouped := hs.grouped.of_eq rfl rfl
  __ := hs
  stored x hx := by
    have hne : x ≠ h := fun he => hh (he ▸ hx)
    simp only [Intake.deleteBody, Store.write_apply, if_neg hne]
    exact hs.stored x hx

theorem PoolSound.removeWithData (ho : c.InPool o) (deleted : Bool) :
    PoolSound (c.removeOrphanBlockWithData params o deleted) := by
  have hr := hs.remove ho
  unfold removeOrphanBlockWithData
  split
  · exact (hr.deleteBody (hs.not_accepted ho)).of_eq rfl rfl rfl rfl
  · exact hr

theorem PoolSound.visitOrphan (v : Hash × Int) : PoolSound (visitOrphan params a c v) := by
  rcases visitOrphan_cases params a c v with h | ⟨o, ho, h | h⟩
  · rw [h]
    exact hs
  · rw [h]
    exact hs.removeWithData (hs.grouped.inPool ho) _
  · rw [h]
    exact hs.of_eq rfl rfl rfl rfl

theorem PoolSound.visitOrphans (vs : List (Hash × Int)) :
    PoolSound (vs.foldl (Intake.visitOrphan params a) c) := visitOrphans_keeps (fun v h => h.visitOrphan v) hs vs

end

/-! ## An orphan enters the pool -/

/-- The loop of `addOrphanBlock` either takes an orphan out, or leaves the pool as it is and caches
one of its orphans if it caches any. -/
theorem visitOrphans_cases (params : IntakeParams) (a : Arrival) (hg : Grouped c) (vs : List (Hash × Int)) :
    (vs.foldl (visitOrphan params a) c).orphans.entries.length < c.orphans.entries.length ∨
      (vs.foldl (visitOrphan params a) c).orphans = c.orphans ∧
        (c.Cached → (vs.foldl (visitOrphan params a) c).Cached) := by
  induction vs generalizing c with
  | nil => exact .inr ⟨rfl, id⟩
  | cons v vs ih =>
    rw [foldl_cons]
    rcases visitOrphan_cases params a c v with h | ⟨o, ho, h | h⟩
    · rw [h]
      exact ih hg
    · left
      have hin : c.InPool o := hg.inPool ho
      have hlen := length_removeOrphanBlock hin
      have hg' : Grouped (c.removeOrphanBlockWithData params o (a.deleted o.hash)) := hg.removeWithData hin _
      rw [h]
      rcases ih hg' with ih | ⟨ih, -⟩
      · rw [orphans_removeOrphanBlockWithData] at ih
        omega
      · rw [ih, orphans_removeOrphanBlockWithData]
        omega
    · rw [h]
      rcases ih (c := { c with oldestOrphan := some o }) (hg.of_eq rfl rfl) with ih | ⟨ih, hc⟩
      · exact .inl ih
      · refine .inr ⟨ih, fun _ => hc ?_⟩
        rintro old ⟨⟩
        exact hg.inPool ho

variable (v : Hash × Int)

theorem lookup_visitOrphan (hn : c.orphans.lookup h = none) : (visitOrphan params a c v).orphans.lookup h = none := by
  rcases visitOrphan_cases params a c v with h | ⟨o, ho, h | h⟩
  · rw [h]
    exact hn
  · rw [h, orphans_removeOrphanBlockWithData]
    exact lookup_removeOrphanBlock hn
  · rw [h]
    exact hn

theorem lookup_visitOrphans (hn : c.orphans.lookup h = none) (vs : List (Hash × Int)) :
    (vs.foldl (visitOrphan params a) c).orphans.lookup h = none :=
  visitOrphans_keeps (I := fun d => d.orphans.lookup h = none) lookup_visitOrphan hn vs

theorem accepted_visitOrphan : (visitOrphan params a c v).accepted = c.accepted := by
  rcases visitOrphan_cases params a c v with h | ⟨o, ho, h | h⟩
  · rw [h]
  · rw [h, accepted_removeOrphanBlockWithData]
  · rw [h]

theorem accepted_visitOrphans (vs : List (Hash × Int)) : (vs.foldl (visitOrphan params a) c).accepted = c.accepted :=
  visitOrphans_keeps (I := fun d => d.accepted = c.accepted) (fun v h => (accepted_visitOrphan v).trans h) rfl vs

theorem accepted_evictOldest (h : Intake.evictOldest params a c = some d) : d.accepted = c.accepted := by
  rcases evictOldest_eq_some h with ⟨-, rfl⟩ | ⟨-, old, -, rfl⟩
  · rfl
  · exact accepted_removeOrphanBlockWithData _

/-- If the pool overflows after the loop, and had its cached orphan when it was full, it has it still. -/
theorem inPool_of_overflow (hg : Grouped c) (hsize : c.orphans.entries.length ≤ maxOrphanBlocks)
    (hfull : maxOrphanBlocks ≤ c.orphans.entries.length → c.Cached) {old : OrphanBlock}
    (hlen : maxOrphanBlocks ≤ (vs.foldl (visitOrphan params a) c).orphans.entries.length)
    (hold : (vs.foldl (visitOrphan params a) c).oldestOrphan = some old) :
    InPool (vs.foldl (visitOrphan params a) c) old := by
  rcases visitOrphans_cases params a hg vs with hlt | ⟨hsame, hcached⟩
  · exact absurd (Nat.lt_of_le_of_lt hlen hlt) (Nat.not_lt.2 hsize)
  · exact hcached (hfull (hsame ▸ hlen)) old hold

theorem length_evicted {old : OrphanBlock} (ho : c.InPool old) (hsize : c.orphans.entries.length ≤ maxOrphanBlocks) :
    (c.removeOrphanBlockWithData params old (a.deleted old.hash)).orphans.entries.length < maxOrphanBlocks := by
  have hone := length_removeOrphanBlock ho
  rw [orphans_removeOrphanBlockWithData]
  omega

theorem PoolSound.evictOldest (hs : PoolSound c) (hfull : maxOrphanBlocks ≤ c.orphans.entries.length → c.Cached)
    (h : Intake.evictOldest params a (a.visits.foldl (Intake.visitOrphan params a) c) = some d) :
    PoolSound d ∧ d.orphans.entries.length < maxOrphanBlocks := by
  have hs1 : PoolSound (a.visits.foldl (Intake.visitOrphan params a) c) := hs.visitOrphans a.visits
  rcases evictOldest_eq_some h with ⟨hroom, rfl⟩ | ⟨hlen, old, hold, rfl⟩
  · exact ⟨hs1, hroom⟩
  · have hin := inPool_of_overflow hs.grouped hs.size hfull hlen hold
    exact ⟨(hs1.removeWithData hin _).of_eq rfl rfl rfl rfl, length_evicted hin hs1.size⟩

theorem lookup_evictOldest (hn : c.orphans.lookup h = none)
    (he : Intake.evictOldest params a c = some d) : d.orphans.lookup h = none := by
  rcases evictOldest_eq_some he with ⟨-, rfl⟩ | ⟨-, old, -, rfl⟩
  · exact hn
  · rw [orphans_removeOrphanBlockWithData]
    exact lookup_removeOrphanBlock hn

section

variable (hs : PoolSound c)

include hs

theorem PoolSound.insert (hroom : c.orphans.entries.length < maxOrphanBlocks)
    (hn : c.orphans.lookup o.hash = none) (ha : o.hash ∉ c.accepted) : PoolSound (c.insertOrphan o) where
  grouped := hs.grouped.insertOrphan hn
  size := by
    rw [length_insertOrphan hn]
    exact hroom
  apart h hh := by
    have hne : h ≠ o.hash := fun he => ha (he ▸ hh)
    exact (AList.lookup_insert_ne hne).trans (hs.apart h hh)
  stored := hs.stored

theorem PoolSound.persist : PoolSound (c.persistOrphan params a) := by
  unfold persistOrphan
  split
  · exact ⟨hs.grouped.of_eq rfl rfl, hs.size, hs.apart, fun h hh => isSome_storeBody (hs.stored h hh)⟩
  · exact hs

theorem PoolSound.addOrphanBlock (hfull : maxOrphanBlocks ≤ c.orphans.entries.length → c.Cached)
    (hn : c.orphans.lookup a.block.hash = none) (ha : a.block.hash ∉ c.accepted)
    (h : c.addOrphanBlock params a = some d) : PoolSound d := by
  obtain ⟨c1, c2, rfl, h2, rfl⟩ := addOrphanBlock_eq_some h
  obtain ⟨hs2, hroom⟩ := hs.evictOldest hfull h2
  apply hs2.insert hroom (lookup_evictOldest (lookup_visitOrphans hn a.visits) h2)
  rwa [accepted_evictOldest h2, accepted_visitOrphans]

/-! ## Blocks are offered to the chain -/

theorem PoolSound.offered {ok : Bool} (hn : c.orphans.lookup block.hash = none)
    (h : Offered c block d ok) : PoolSound d where
  grouped := h.pool.grouped hs.grouped
  size := h.pool.orphans ▸ hs.size
  apart x hx := by
    rw [h.pool.orphans]
    rw [h.accepted] at hx
    split at hx
    · rcases mem_cons.1 hx with rfl | hx
      · exact hn
      · exact hs.apart x hx
    · exact hs.apart x hx
  stored x hx := by
    rw [h.accepted] at hx
    split at hx
    next hok =>
      rw [h.stored hok]
      rcases mem_cons.1 hx with rfl | hx
      · exact isSome_storeBody_self
      · exact isSome_storeBody (hs.stored x hx)
    · rcases h.bodies with hb | hb
      · rw [hb]
        exact hs.stored x hx
      · rw [hb]
        exact isSome_storeBody (hs.stored x hx)

theorem PoolSound.release {ok : Bool} (ho : o ∈ c.waiting h)
    (hoff : Offered (c.removeOrphanBlock o) o.block d ok) (deleted : Bool) :
    PoolSound (if ok then d else if deleted then d.deleteBody o.hash else d) := by
  have hin : c.InPool o := ((hs.grouped.listed h o).1 ho).1
  have hsd : PoolSound d := (hs.remove hin).offered (AList.lookup_erase ..) hoff
  cases ok with
  | true => exact hsd
  | false =>
    cases deleted with
    | false => exact hsd
    | true =>
      apply hsd.deleteBody
      rw [hoff.accepted]
      exact hs.not_accepted hin

theorem PoolSound.taken (hok : KeepsPool c (.block a)) (h : Taken params a c d) : PoolSound d := by
  have hre : ∀ {e}, Reindexed c e → PoolSound e := fun hr =>
    hs.of_eq hr.pool.orphans hr.pool.prevOrphans hr.bodies hr.accepted
  cases h with
  | rejected hr => exact hre hr
  | orphan c1 hr unknown fresh parent sane added =>
    obtain ⟨hfull, hacc⟩ := hok parent
    refine (hre hr).persist.addOrphanBlock ?_ ?_ ?_ added
    · intro hlen old hold
      rw [orphans_persistOrphan, hr.pool.orphans] at hlen
      rw [oldestOrphan_persistOrphan, hr.pool.oldestOrphan] at hold
      rw [InPool, orphans_persistOrphan, hr.pool.orphans]
      exact hfull hlen old hold
    · rw [orphans_persistOrphan, hr.pool.orphans]
      exact fresh
    · rw [accepted_persistOrphan, hr.accepted]
      exact fun ha => unknown (hacc ha)
  | refused c1 hr fresh parent sane offered => exact (hre hr).offered (hr.pool.orphans ▸ fresh) offered
  | accepted c1 c2 r hr fresh parent sane offered released =>
    refine processOrphans_keeps ?_ ((hre hr).offered (hr.pool.orphans ▸ fresh) offered) released
    exact fun hs ho hoff => hs.release ho hoff _

theorem PoolSound.step {call : Call} (hok : KeepsPool c call)
    (h : Intake.step params c call = some d) : PoolSound d := by
  rcases step_cases h with ⟨a, rfl, ht⟩ | hi
  · exact hs.taken hok ht
  · exact hs.of_eq hi.pool.orphans hi.pool.prevOrphans hi.bodies hi.accepted

end

/-! ## Calls return -/

theorem oldestOrphan_visitOrphan (h : c.oldestOrphan.isSome) : (visitOrphan params a c v).oldestOrphan.isSome := by
  rcases visitOrphan_cases params a c v with he | ⟨o, ho, he | he⟩
  · rwa [he]
  · rw [he, oldestOrphan_removeOrphanBlockWithData]
    exact h
  · rw [he]
    rfl

/-- An orphan that a round leaves in the pool has been compared with the oldest. -/
theorem oldestOrphan_of_visited (hg : Grouped c) {v : Hash × Int}
    (h : ((visitOrphan params a c v).orphans.lookup v.1).isSome) :
    (visitOrphan params a c v).oldestOrphan.isSome := by
  unfold visitOrphan at h ⊢
  split
  next hn => simp [hn] at h
  next o ho =>
    simp only [ho] at h
    split
    next hexp =>
      rw [if_pos hexp, ← hg.key _ _ ho] at h
      simp [removeOrphanBlock] at h
    next hexp =>
      split
      · rfl
      next hold =>
        cases hc : c.oldestOrphan with
        | none => simp [hc] at hold
        | some old => rfl

theorem oldestOrphan_visitOrphans (vs : List (Hash × Int)) (h : c.oldestOrphan.isSome) :
    (vs.foldl (visitOrphan params a) c).oldestOrphan.isSome :=
  visitOrphans_keeps (I := fun d => d.oldestOrphan.isSome) oldestOrphan_visitOrphan h vs

/-- If the loop leaves an orphan it visited, it leaves a cached one. -/
theorem oldestOrphan_of_left (hs : PoolSound c) {v : Hash × Int} (hv : v ∈ vs)
    (h : ((vs.foldl (visitOrphan params a) c).orphans.lookup v.1).isSome) :
    (vs.foldl (visitOrphan params a) c).oldestOrphan.isSome := by
  induction vs generalizing c with
  | nil => cases hv
  | cons w vs ih =>
    rcases mem_cons.1 hv with rfl | hv
    · rw [foldl_cons] at h ⊢
      apply oldestOrphan_visitOrphans
      apply oldestOrphan_of_visited hs.grouped
      refine isSome_iff_ne_none.2 fun hn => ?_
      rw [lookup_visitOrphans hn] at h
      cases h
    · exact ih (hs.visitOrphan w) hv h

theorem addOrphanBlock_isSome (hs : PoolSound c) (hv : (a.visits.map Prod.fst).Perm c.orphans.keys) :
    (c.addOrphanBlock params a).isSome := by
  rw [addOrphanBlock, if_pos hv, isSome_map, evictOldest]
  split
  next hfull =>
    rw [isSome_map]
    -- a full pool is not empty, and whatever is left in it has been visited
    obtain ⟨e, he⟩ : ∃ e, e ∈ (a.visits.foldl (visitOrphan params a) c).orphans.entries := by
      apply exists_mem_of_length_pos
      have : 0 < maxOrphanBlocks := by decide
      omega
    have hleft : (a.visits.foldl (visitOrphan params a) c).orphans.lookup e.1 = some e.2 := AList.mem_lookup_iff.2 he
    have hkey : e.1 ∈ c.orphans.keys := by
      rw [← AList.mem_keys, ← AList.lookup_isSome]
      by_contra hn
      rw [lookup_visitOrphans (not_isSome_iff_eq_none.1 hn)] at hleft
      cases hleft
    obtain ⟨v, hv, hve⟩ := List.mem_map.1 (hv.mem_iff.2 hkey)
    apply oldestOrphan_of_left hs hv
    rw [hve, hleft]
    rfl
  next => rfl

/-- A call of `ProcessBlock` on a sound pool returns. -/
theorem processBlock_isSome (hs : PoolSound c) (hv : (a.visits.map Prod.fst).Perm c.orphans.keys) :
    (c.processBlock params a).isSome := by
  have hre : ∀ {e}, Reindexed c e → PoolSound e := fun hr =>
    hs.of_eq hr.pool.orphans hr.pool.prevOrphans hr.bodies hr.accepted
  rw [processBlock]
  split
  next => rfl
  next c1 he =>
    have hr1 : Reindexed c c1 := reindexed_blockExists he
    split
    · rfl
    split
    next c2 he2 =>
      have hr2 : Reindexed c c2 := hr1.trans (reindexed_blockExists he2)
      rw [processOrphanBlock]
      split
      next => rfl
      next =>
        rw [isSome_map]
        apply addOrphanBlock_isSome (hre hr2).persist
        rwa [orphans_persistOrphan, hr2.pool.orphans]
    next c2 he2 =>
      have hr2 : Reindexed c c2 := hr1.trans (reindexed_blockExists he2)
      rw [processConnected]
      split
      next => rfl
      next =>
        split
        · rfl
        have hoff := maybeAcceptBlock_offered c2 a.block (a.acceptance a.block.hash)
        split
        next => rfl
        next c3 m he3 =>
          rw [he3] at hoff
          rw [isSome_map]
          apply processOrphans_isSome (hoff.pool.grouped (hre hr2).grouped)
          exact Nat.le_refl _

/-! ## Runs -/

/-- The pool of a node that has just started. -/
structure EmptyPool (c : Intake) : Prop where
  orphans : c.orphans = ∅
  prevOrphans : c.prevOrphans = ∅
  oldestOrphan : c.oldestOrphan = none
  orphanDiskBytes : c.orphanDiskBytes = 0

theorem EmptyPool.grouped (hp : EmptyPool c) : Grouped c where
  key h o ho := by
    rw [hp.orphans] at ho
    cases ho
  listed p o := by
    simp [waiting, InPool, hp.orphans, hp.prevOrphans]
  nodup p := by
    simp [waiting, hp.prevOrphans]
  nonempty p := by
    simp [hp.prevOrphans]

theorem EmptyPool.sound (hp : EmptyPool c) (hb : ∀ h ∈ c.accepted, (c.bodies h).isSome) : PoolSound c where
  grouped := hp.grouped
  size := by
    rw [hp.orphans]
    exact Nat.zero_le _
  apart h _ := by
    rw [hp.orphans]
    exact AList.lookup_empty h
  stored := hb

/-- In every run whose calls find the cached orphan in a full pool and know what was accepted, the pool keeps
its limit, its index by parent is exact, and accepted blocks keep their bodies. -/
theorem orphan_pool_sound {calls : List Call} (hp : EmptyPool c) (hb : ∀ h ∈ c.accepted, (c.bodies h).isSome)
    (hok : Along (step params) KeepsPool c calls) (hr : run (step params) c calls = some d) :
    d.orphans.entries.length ≤ maxOrphanBlocks ∧ Grouped d ∧ ∀ h ∈ d.accepted, (d.bodies h).isSome := by
  have hs : PoolSound d := run_invariant (fun _ _ _ hs hok h => hs.step hok h) (hp.sound hb) hok hr
  exact ⟨hs.size, hs.grouped, hs.stored⟩

/-- An orphan becomes the oldest, then its parent comes and connects it. -/
def connectOldest : List Call :=
  [.block { block := blockOn 3 2 }, .block { block := blockOn 10 11, visits := [(3, 0)] },
    .block { block := blockOn 2 1 }]

theorem orphan_pool_sound_connected : ∃ d, run (step easyParams) genesisIntake connectOldest = some d ∧
    d.orphans.entries.length ≤ maxOrphanBlocks ∧ Grouped d ∧ ∀ h ∈ d.accepted, (d.bodies h).isSome := by
  refine exists_run rfl fun d hr => orphan_pool_sound ⟨rfl, rfl, rfl, rfl⟩ (by decide) ?_ hr
  refine .cons (fun _ => ⟨fun h => absurd h (by decide), fun h => absurd h (by decide)⟩) rfl ?_
  refine .cons (fun _ => ⟨fun h => absurd h (by decide +kernel), fun h => absurd h (by decide +kernel)⟩) rfl ?_
  exact ⟨fun h => absurd ⟨rfl, .inl rfl⟩ h, fun _ _ => trivial⟩

/-- After such a run the next `ProcessBlock` returns: a pool that overflows has an oldest orphan, and the release of
orphans ends. -/
theorem processBlock_returns {calls : List Call} (hp : EmptyPool c) (hb : ∀ h ∈ c.accepted, (c.bodies h).isSome)
    (hok : Along (step params) KeepsPool c calls) (hr : run (step params) c calls = some d)
    (hv : (a.visits.map Prod.fst).Perm d.orphans.keys) : (d.processBlock params a).isSome := by
  have hs : PoolSound d := run_invariant (fun _ _ _ hs hok h => hs.step hok h) (hp.sound hb) hok hr
  exact processBlock_isSome hs hv

theorem processBlock_returns_connected : ∃ d,
    run (step easyParams) genesisIntake [.block { block := blockOn 3 2 }] = some d ∧
    (d.processBlock easyParams { block := blockOn 2 1, visits := [(3, 0)] }).isSome := by
  refine exists_run rfl fun d hr =>
    processBlock_returns ⟨rfl, rfl, rfl, rfl⟩ (by decide) ?_ hr (by cases hr; exact .refl _)
  exact ⟨fun _ => ⟨fun h => absurd h (by decide), fun h => absurd h (by decide)⟩, fun _ _ => trivial⟩

/-! ## A full pool whose oldest orphan has been connected -/

/-- The state after an orphan became the oldest and was connected, with some other orphans in the pool. -/
structure Stale (n : Nat) (c : Intake) : Prop where
  length : c.orphans.entries.length = n
  young : ∀ h o, c.orphans.lookup h = some o → 10 ≤ h ∧ h < 2 * n + 10 ∧ o.expiration = hour
  oldest : c.oldestOrphan = some ⟨blockOn 3 2, hour⟩
  unknown : ∀ h, 10 ≤ h → c.index h = none ∧ c.hashIndex h = none
  accepted : 3 ∈ c.accepted

/-- A block whose parent is never seen, arriving while nothing has expired. -/
def stray (n : Nat) (c : Intake) : Arrival where
  block := blockOn (2 * n + 10) (2 * n + 11)
  visits := c.orphans.keys.map fun h => (h, 0)

theorem visitOrphans_idle (h : ∀ v ∈ vs, ∀ o, c.orphans.lookup v.1 = some o →
      v.2 ≤ o.expiration ∧ ∃ old, c.oldestOrphan = some old ∧ old.expiration ≤ o.expiration) :
    vs.foldl (visitOrphan params a) c = c := by
  induction vs with
  | nil => rfl
  | cons v vs ih =>
    have hv : visitOrphan params a c v = c := by
      unfold visitOrphan
      split
      next => rfl
      next o ho =>
        obtain ⟨hexp, old, hold, hle⟩ := h v mem_cons_self o ho
        rw [if_neg (Int.not_lt.2 hexp), hold, if_neg]
        simpa using hle
    rw [foldl_cons, hv]
    exact ih fun w hw => h w (mem_cons_of_mem _ hw)

theorem Stale.fresh (hs : Stale n c) : c.orphans.lookup (2 * n + 10) = none := by
  rw [← not_isSome_iff_eq_none]
  intro hsome
  obtain ⟨o, ho⟩ := isSome_iff_exists.1 hsome
  exact absurd (hs.young _ o ho).2.1 (Nat.lt_irrefl _)

theorem Stale.arrives (hs : Stale n c) : step easyParams c (.block (stray n c)) =
      (evictOldest easyParams (stray n c) (c.persistOrphan easyParams (stray n c))).map fun c' =>
        c'.insertOrphan ⟨blockOn (2 * n + 10) (2 * n + 11), hour⟩ := by
  have hex : ∀ h, 10 ≤ h → c.blockExists h = (c, false) := by
    intro h hh
    simp [blockExists, hs.unknown h hh]
  have hidle : (stray n c).visits.foldl (visitOrphan easyParams (stray n c)) (c.persistOrphan easyParams (stray n c)) =
      c.persistOrphan easyParams (stray n c) := by
    apply visitOrphans_idle
    intro v hv o ho
    rw [oldestOrphan_persistOrphan, hs.oldest]
    obtain ⟨h, -, rfl⟩ := List.mem_map.1 hv
    rw [(hs.young _ o ho).2.2]
    exact ⟨show 0 ≤ hour by decide, _, rfl, Int.le_refl _⟩
  have hperm : ((stray n c).visits.map Prod.fst).Perm (c.persistOrphan easyParams (stray n c)).orphans.keys := by
    rw [stray, List.map_map]
    exact Perm.of_eq (List.map_id _)
  have hself : c.blockExists (stray n c).block.hash = (c, false) := hex _ (show 10 ≤ 2 * n + 10 by omega)
  have hprev : c.blockExists (stray n c).block.prevBlock = (c, false) := hex _ (show 10 ≤ 2 * n + 11 by omega)
  have hpool : (c.orphans.lookup (stray n c).block.hash).isSome = false := by
    rw [show (stray n c).block.hash = 2 * n + 10 from rfl, hs.fresh]
    rfl
  have hsane : checkBlockSanity easyParams (stray n c).block.header true (stray n c).sane = .ok () :=
    checkBlockSanity_blockOn ..
  simp only [step, processBlock, hself, hpool, hprev, processOrphanBlock, hsane, addOrphanBlock, if_pos hperm, hidle,
    Bool.false_eq_true, if_false, Option.map_map]
  rfl

/-- While there is room, the pool grows and the cached orphan stays. -/
theorem Stale.fill (hs : Stale n c) (hn : n < maxOrphanBlocks) :
    ∃ call d, step easyParams c call = some d ∧ Stale (n + 1) d := by
  have hroom : ¬ maxOrphanBlocks < (c.persistOrphan easyParams (stray n c)).orphans.entries.length + 1 := by
    rw [orphans_persistOrphan, hs.length]
    omega
  refine ⟨_, _, hs.arrives.trans (by rw [evictOldest, if_neg hroom, map_some]), ?_⟩
  refine ⟨?_, ?_, hs.oldest, hs.unknown, hs.accepted⟩
  · rw [length_insertOrphan hs.fresh]
    exact congrArg (· + 1) hs.length
  · intro h o ho
    by_cases he : h = 2 * n + 10
    · subst he
      obtain rfl := mem_unique (AList.lookup_insert _) ho
      exact ⟨Nat.le_add_left .., show 2 * n + 10 < 2 * (n + 1) + 10 by omega, rfl⟩
    · have ho' : c.orphans.lookup h = some o := (AList.lookup_insert_ne he).symm.trans ho
      obtain ⟨h10, hlt, hexp⟩ := hs.young h o ho'
      exact ⟨h10, Nat.lt_trans hlt (by omega), hexp⟩

theorem Stale.fills (hs : Stale 1 c) (hn : n + 1 ≤ maxOrphanBlocks) :
    ∃ calls d, run (step easyParams) c calls = some d ∧ Stale (n + 1) d := by
  induction n with
  | zero => exact ⟨[], c, rfl, hs⟩
  | succ n ih =>
    obtain ⟨calls, e, hr, he⟩ := ih (Nat.le_of_succ_le hn)
    obtain ⟨call, d, hd, hs'⟩ := he.fill hn
    refine ⟨calls ++ [call], d, ?_, hs'⟩
    rw [run_append, hr, bind_some, run, hd]
    rfl

/-- When it is full, the connected orphan is taken out once more. -/
theorem Stale.overflow (hs : Stale maxOrphanBlocks c) :
    ∃ call d, step easyParams c call = some d ∧ d.orphans.entries.length = maxOrphanBlocks + 1 ∧ 3 ∈ d.accepted ∧
      d.bodies 3 = none := by
  have hfull : maxOrphanBlocks < (c.persistOrphan easyParams (stray maxOrphanBlocks c)).orphans.entries.length + 1 := by
    rw [orphans_persistOrphan, hs.length]
    omega
  have hgone : c.orphans.lookup 3 = none := by
    rw [← not_isSome_iff_eq_none]
    intro hsome
    obtain ⟨o, ho⟩ := isSome_iff_exists.1 hsome
    exact absurd (hs.young 3 o ho).1 (by decide)
  refine ⟨_, _, hs.arrives.trans (by rw [evictOldest, if_pos hfull, oldestOrphan_persistOrphan, hs.oldest]; rfl), ?_⟩
  have hsame : c.orphans.erase 3 = c.orphans := AList.ext (kerase_of_notMem_keys (AList.lookup_eq_none.1 hgone))
  refine ⟨?_, hs.accepted, ?_⟩
  · change ((c.orphans.erase 3).insert (2 * maxOrphanBlocks + 10) _).entries.length = _
    rw [hsame, AList.entries_insert_of_notMem (AList.lookup_eq_none.1 hs.fresh), length_cons, hs.length]
  · change (c.persistOrphan easyParams (stray maxOrphanBlocks c)).bodies.write ⟨3, none⟩ 3 = none
    simp

theorem stale_of_connectOldest : ∃ c, run (step easyParams) genesisIntake connectOldest = some c ∧ Stale 1 c := by
  refine ⟨_, rfl, rfl, ?_, rfl, ?_, by decide⟩
  · intro h o ho
    obtain ⟨⟩ := mem_singleton.1 (AList.mem_lookup_iff.1 ho)
    exact ⟨by decide, by decide, rfl⟩
  · intro h hh
    have h1 : h ≠ 1 := fun he => absurd (he ▸ hh) (by decide)
    have h2 : h ≠ 2 := fun he => absurd (he ▸ hh) (by decide)
    have h3 : h ≠ 3 := fun he => absurd (he ▸ hh) (by decide)
    change (genesisIntake.index.write ⟨2, some ⟨1, true⟩⟩).write ⟨3, some ⟨2, true⟩⟩ h = none ∧
      genesisIntake.hashIndex h = none
    simp [h1, h2, h3, genesisIntake]

/-- When the pool has filled up after that, the overflow deletes the body of the connected orphan, and the pool
passes its limit. -/
theorem connected_orphan_evicted : ∃ calls d, run (step easyParams) genesisIntake calls = some d ∧
    maxOrphanBlocks < d.orphans.entries.length ∧ 3 ∈ d.accepted ∧ d.bodies 3 = none := by
  obtain ⟨c, hc, hs⟩ := stale_of_connectOldest
  obtain ⟨calls, e, he, hse⟩ := hs.fills (Nat.le_refl maxOrphanBlocks)
  obtain ⟨call, d, hd, hlen, hacc, hbody⟩ := hse.overflow
  refine ⟨connectOldest ++ (calls ++ [call]), d, ?_, hlen ▸ Nat.lt_succ_self _, hacc, hbody⟩
  rw [run_append, hc, bind_some, run_append, he, bind_some, run, hd]
  rfl

end IniNode.Intake
