import IniNode.Process.PoolSound
/-!
# The ledger of persisted orphans

`orphanDiskBytes` is raised when an orphan is stored and lowered only when one expires or is evicted. So it is
the size of what the pool has on disk as long as no orphan leaves the pool in another way, and nothing holds it
below `maxOrphanBlockBytes` but the sizes of the orphans that arrive.
-/

open IniNode.Lib List

namespace IniNode.Intake

variable {params : IntakeParams} {c d : Intake} {o : OrphanBlock} {a : Arrival} {owed : Nat} {limit : Nat} {b : Block}

def persistedBytes (params : IntakeParams) (c : Intake) : Nat :=
  ((vals c.orphans).map fun o => ((c.bodies o.hash).map params.serializeSize).getD 0).sum

def poolBytes (params : IntakeParams) (c : Intake) : Nat :=
  ((vals c.orphans).map fun o => params.serializeSize o.block).sum

/-- What a call must meet. A block without its parent is stored, and what expires or is evicted is deleted; the body
that is there for it already has its size; a full pool has its cached orphan; and there is room on disk.
A block with its parent is not itself the parent of an orphan. -/
def KeepsLedger (params : IntakeParams) (c : Intake) : Call → Prop
  | .block a =>
      (¬ c.Known a.block.prevBlock →
        a.persisted = true ∧ (∀ h, a.deleted h = true) ∧
          (∀ b, c.bodies a.block.hash = some b → params.serializeSize b = params.serializeSize a.block) ∧
          (maxOrphanBlocks ≤ c.orphans.entries.length → c.Cached) ∧
          (c.poolBytes params + params.serializeSize a.block : Int) ≤ maxOrphanBlockBytes) ∧
      (c.Known a.block.prevBlock → ∀ o, c.InPool o → o.prev ≠ a.block.hash)
  | _ => True

/-- Every orphan of the pool is on disk, and the ledger is their size and what is owed for a block that is stored
and not in the pool yet. -/
structure Owes (params : IntakeParams) (owed : Nat) (c : Intake) : Prop where
  grouped : Grouped c
  kept : ∀ o, c.InPool o → (c.bodies o.hash).map params.serializeSize = some (params.serializeSize o.block)
  bytes : c.orphanDiskBytes = c.poolBytes params + owed

/-- The ledger is right and within its limits. -/
structure Balanced (params : IntakeParams) (c : Intake) : Prop where
  owes : Owes params 0 c
  size : c.orphans.entries.length ≤ maxOrphanBlocks
  limit : c.orphanDiskBytes ≤ maxOrphanBlockBytes

theorem Owes.persistedBytes (h : Owes params owed c) : c.persistedBytes params = c.poolBytes params := by
  unfold Intake.persistedBytes poolBytes
  congr 1
  apply map_congr_left
  intro o ho
  obtain ⟨k, hk⟩ := mem_vals.1 ho
  rw [h.kept o (h.grouped.inPool hk), Option.getD_some]

theorem Owes.of_eq (h : Owes params owed c) (hp : SamePool c d)
    (hb : ∀ o, c.InPool o → d.bodies o.hash = c.bodies o.hash) : Owes params owed d where
  grouped := hp.grouped h.grouped
  kept o ho := by
    rw [InPool, hp.orphans] at ho
    rw [hb o ho]
    exact h.kept o ho
  bytes := by
    rw [hp.orphanDiskBytes, poolBytes, hp.orphans]
    exact h.bytes

/-! ## Orphans leave the pool -/

theorem poolBytes_removeOrphanBlock (params : IntakeParams) (ho : c.InPool o) :
    c.poolBytes params = params.serializeSize o.block + (c.removeOrphanBlock o).poolBytes params := by
  have hp := ((vals_perm_erase ho).map fun o : OrphanBlock => params.serializeSize o.block).sum_nat
  rwa [map_cons] at hp

theorem Owes.removeWithData (h : Owes params owed c) (ho : c.InPool o) :
    Owes params owed (c.removeOrphanBlockWithData params o true) where
  grouped := h.grouped.removeWithData ho true
  kept x hx := by
    obtain ⟨hx, hne⟩ := inPool_removeOrphanBlock.1 hx
    change (c.bodies.write ⟨o.hash, none⟩ x.hash).map _ = _
    rw [Store.write_apply, if_neg hne]
    exact h.kept x hx
  bytes := by
    have hpool := poolBytes_removeOrphanBlock params ho
    have hbytes := h.bytes
    change (if c.orphanDiskBytes - params.serializeSize o.block < 0 then 0
      else c.orphanDiskBytes - params.serializeSize o.block) = ((c.removeOrphanBlock o).poolBytes params : Int) + owed
    omega

theorem bodies_removeOrphanBlockWithData {h : Hash} (hne : h ≠ o.hash) (deleted : Bool) :
    (c.removeOrphanBlockWithData params o deleted).bodies h = c.bodies h := by
  cases deleted with
  | false => rfl
  | true =>
    change c.bodies.write ⟨o.hash, none⟩ h = _
    rw [Store.write_apply, if_neg hne]

/-- A stored block on its way into the pool, whose orphans have at most so many bytes. -/
structure Pending (params : IntakeParams) (b : Block) (limit : Nat) (c : Intake) : Prop where
  owes : Owes params (params.serializeSize b) c
  fresh : c.orphans.lookup b.hash = none
  body : (c.bodies b.hash).map params.serializeSize = some (params.serializeSize b)
  pool : c.poolBytes params ≤ limit

theorem Pending.removeWithData (h : Pending params b limit c) (ho : c.InPool o) :
    Pending params b limit (c.removeOrphanBlockWithData params o true) where
  owes := h.owes.removeWithData ho
  fresh := by
    exact lookup_removeOrphanBlock h.fresh
  body := by
    have hne : b.hash ≠ o.hash := by
      intro he
      rw [InPool, ← he, h.fresh] at ho
      cases ho
    rw [bodies_removeOrphanBlockWithData hne]
    exact h.body
  pool := by
    have hpool := h.pool
    rw [poolBytes_removeOrphanBlock params ho] at hpool
    exact Nat.le_trans (Nat.le_add_left ..) hpool

theorem Pending.oldest (h : Pending params b limit c) (old : Option OrphanBlock) :
    Pending params b limit { c with oldestOrphan := old } :=
  ⟨⟨h.owes.grouped.of_eq rfl rfl, h.owes.kept, h.owes.bytes⟩, h.fresh, h.body, h.pool⟩

theorem Pending.visitOrphan (hd : ∀ h, a.deleted h = true) (v : Hash × Int)
    (h : Pending params b limit c) : Pending params b limit (visitOrphan params a c v) := by
  rcases visitOrphan_cases params a c v with he | ⟨o, ho, he | he⟩
  · rw [he]
    exact h
  · rw [he, hd]
    exact h.removeWithData (h.owes.grouped.inPool ho)
  · rw [he]
    exact h.oldest _

theorem Pending.evictOldest (h : Pending params b limit c) (hd : ∀ h, a.deleted h = true)
    (hsize : c.orphans.entries.length ≤ maxOrphanBlocks)
    (hfull : maxOrphanBlocks ≤ c.orphans.entries.length → c.Cached)
    (he : Intake.evictOldest params a (a.visits.foldl (Intake.visitOrphan params a) c) = some d) :
    Pending params b limit d ∧ d.orphans.entries.length < maxOrphanBlocks := by
  have h1 : Pending params b limit (a.visits.foldl (Intake.visitOrphan params a) c) :=
    visitOrphans_keeps (fun v h => h.visitOrphan hd v) h a.visits
  have hsize1 : (a.visits.foldl (Intake.visitOrphan params a) c).orphans.entries.length ≤ maxOrphanBlocks := by
    rcases visitOrphans_cases params a h.owes.grouped a.visits with hlt | ⟨hsame, -⟩
    · exact Nat.le_trans (Nat.le_of_lt hlt) hsize
    · rw [hsame]
      exact hsize
  rcases evictOldest_eq_some he with ⟨hroom, rfl⟩ | ⟨hlen, old, hold, rfl⟩
  · exact ⟨h1, hroom⟩
  · have hin := inPool_of_overflow h.owes.grouped hsize hfull hlen hold
    refine ⟨?_, length_evicted hin hsize1⟩
    rw [hd]
    exact (h1.removeWithData hin).oldest none

/-! ## An orphan enters the pool -/

theorem Pending.insert (h : Pending params o.block limit c) : Owes params 0 (c.insertOrphan o) ∧
      (c.insertOrphan o).orphanDiskBytes ≤ (limit + params.serializeSize o.block : Int) := by
  have hbytes : c.orphanDiskBytes = c.poolBytes params + params.serializeSize o.block := h.owes.bytes
  have hpool : (c.insertOrphan o).poolBytes params = params.serializeSize o.block + c.poolBytes params := by
    rw [poolBytes, insertOrphan, vals_insert h.fresh]
    rfl
  refine ⟨⟨h.owes.grouped.insertOrphan h.fresh, ?_, ?_⟩, ?_⟩
  · intro x hx
    rcases (inPool_insertOrphan h.fresh).1 hx with rfl | hx
    · exact h.body
    · exact h.owes.kept x hx
  · change c.orphanDiskBytes = _
    omega
  · change c.orphanDiskBytes ≤ _
    have := h.pool
    omega

section

variable (h : Balanced params c)

include h

theorem Balanced.persist (hn : c.orphans.lookup a.block.hash = none) (hp : a.persisted = true)
    (hb : ∀ b, c.bodies a.block.hash = some b → params.serializeSize b = params.serializeSize a.block) :
    Pending params a.block (c.poolBytes params) (c.persistOrphan params a) := by
  rw [persistOrphan, if_pos hp]
  refine ⟨⟨h.owes.grouped.of_eq rfl rfl, ?_, ?_⟩, hn, ?_, Nat.le_refl _⟩
  · intro o ho
    have hne : o.hash ≠ a.block.hash := by
      intro he
      change c.orphans.lookup o.hash = some o at ho
      rw [he, hn] at ho
      cases ho
    rw [bodies_storeBody, if_neg hne]
    exact h.owes.kept o ho
  · change c.orphanDiskBytes + _ = (c.poolBytes params : Int) + _
    rw [h.owes.bytes]
    omega
  · rw [bodies_storeBody, if_pos rfl]
    cases hc : c.bodies a.block.hash with
    | none => rfl
    | some b => exact congrArg some (hb b hc)

theorem Balanced.of_same (hp : SamePool c d)
    (hb : ∀ o, c.InPool o → d.bodies o.hash = c.bodies o.hash) : Balanced params d where
  owes := h.owes.of_eq hp hb
  size := hp.orphans ▸ h.size
  limit := hp.orphanDiskBytes ▸ h.limit

theorem Balanced.offered {block : Block} {ok : Bool}
    (hn : c.orphans.lookup block.hash = none) (hoff : Offered c block d ok) : Balanced params d := by
  apply h.of_same hoff.pool
  intro o ho
  have hne : o.hash ≠ block.hash := by
    intro he
    rw [InPool, he, hn] at ho
    cases ho
  rcases hoff.bodies with hb | hb
  · rw [hb]
  · rw [hb, bodies_storeBody, if_neg hne]

theorem Balanced.taken (hok : KeepsLedger params c (.block a)) (ht : Taken params a c d) :
    Balanced params d := by
  have hre : ∀ {e}, Reindexed c e → Balanced params e := fun hr => h.of_same hr.pool fun _ _ => by rw [hr.bodies]
  cases ht with
  | rejected hr => exact hre hr
  | orphan c1 hr unknown fresh parent sane added =>
    obtain ⟨hp, hd, hb, hfull, hlimit⟩ := hok.1 parent
    obtain ⟨c2, c3, rfl, h3, rfl⟩ := addOrphanBlock_eq_some added
    have hpend : Pending params a.block (c1.poolBytes params) (c1.persistOrphan params a) :=
      (hre hr).persist (hr.pool.orphans ▸ fresh) hp (hr.bodies ▸ hb)
    have hsame : (c1.persistOrphan params a).orphans = c.orphans := (orphans_persistOrphan a).trans hr.pool.orphans
    obtain ⟨hpend3, hroom⟩ := hpend.evictOldest hd (hsame ▸ h.size) (fun hlen old hold => by
      rw [oldestOrphan_persistOrphan, hr.pool.oldestOrphan] at hold
      rw [hsame] at hlen
      rw [InPool, hsame]
      exact hfull hlen old hold) h3
    obtain ⟨howes, hbytes⟩ := Pending.insert (o := ⟨a.block, a.now + hour⟩) hpend3
    refine ⟨howes, ?_, Int.le_trans hbytes ?_⟩
    · rw [length_insertOrphan hpend3.fresh]
      exact hroom
    · rw [poolBytes, hr.pool.orphans]
      exact hlimit
  | refused c1 hr fresh parent sane offered => exact (hre hr).offered (hr.pool.orphans ▸ fresh) offered
  | accepted c1 c2 r hr fresh parent sane offered released =>
    have hbal := (hre hr).offered (hr.pool.orphans ▸ fresh) offered
    have hnone : c2.waiting a.block.hash = [] := by
      rw [eq_nil_iff_forall_not_mem]
      intro o ho
      obtain ⟨hin, hprev⟩ := (hbal.owes.grouped.listed _ o).1 ho
      rw [InPool, offered.pool.orphans, hr.pool.orphans] at hin
      exact hok.2 parent o hin hprev
    rw [processFuel, processOrphans_of_waiting_nil _ hnone] at released
    cases released
    exact hbal

theorem Balanced.step {call : Call} (hok : KeepsLedger params c call)
    (hs : Intake.step params c call = some d) : Balanced params d := by
  rcases step_cases hs with ⟨a, rfl, ht⟩ | hi
  · exact h.taken hok ht
  · exact h.of_same hi.pool fun _ _ => by rw [hi.bodies]

end

theorem EmptyPool.balanced (hp : EmptyPool c) : Balanced params c where
  owes :=
    { grouped := hp.grouped
      kept := fun o ho => by
        rw [InPool, hp.orphans] at ho
        cases ho
      bytes := by
        rw [hp.orphanDiskBytes, poolBytes, hp.orphans]
        rfl }
  size := by
    rw [hp.orphans]
    exact Nat.zero_le _
  limit := by
    rw [hp.orphanDiskBytes]
    decide

/-- In every run whose calls keep the ledger, it is the size of what the pool has on disk, within the limit. -/
theorem orphan_disk_ledger {calls : List Call} (hp : EmptyPool c) (hok : Along (step params) (KeepsLedger params) c calls)
    (hr : run (step params) c calls = some d) :
    d.orphanDiskBytes = d.persistedBytes params ∧ d.orphanDiskBytes ≤ maxOrphanBlockBytes := by
  have h : Balanced params d := run_invariant (fun _ _ _ h hok hs => h.step hok hs) hp.balanced hok hr
  refine ⟨?_, h.limit⟩
  rw [h.owes.bytes, h.owes.persistedBytes]
  exact Int.add_zero _

theorem orphan_disk_ledger_two : ∃ d, run (step easyParams) genesisIntake
    [.block { block := blockOn 3 2 }, .block { block := blockOn 5 4, visits := [(3, 0)] }] = some d ∧
      d.orphanDiskBytes = d.persistedBytes easyParams ∧ d.orphanDiskBytes ≤ maxOrphanBlockBytes := by
  refine exists_run rfl fun d hr => orphan_disk_ledger ⟨rfl, rfl, rfl, rfl⟩ ?_ hr
  refine .cons ⟨fun _ => ⟨rfl, fun _ => rfl, nofun, fun h => absurd h (by decide), by decide⟩,
    fun h => absurd h.1 nofun⟩ rfl ?_
  exact ⟨⟨fun _ => ⟨rfl, fun _ => rfl, nofun, fun h => absurd h (by decide +kernel), by decide +kernel⟩,
    fun h => absurd h.1 (by decide +kernel)⟩, fun _ _ => trivial⟩

/-- An orphan is stored, its parent comes and connects it; the ledger still counts it. -/
theorem ledger_counts_connected : ∃ d, run (step easyParams) genesisIntake
    [.block { block := blockOn 3 2 }, .block { block := blockOn 2 1 }] = some d ∧
      d.orphanDiskBytes = 1 ∧ d.persistedBytes easyParams = 0 ∧ d.orphans.entries = [] := by
  exact ⟨_, rfl, by decide +kernel, by decide +kernel, rfl⟩

end IniNode.Intake
