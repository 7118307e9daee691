import IniNode.Index.Stored
import IniNode.Index.Sync
/-!
# The work that is stored with a tip

The chain state and the best-tip snapshot both name a block and the work of the chain up to it. Every write takes
the work from a node of the index, and `forwardRebuildMainChainMetadata` adds to the one that is stored. All of them
store the work of the block they name but `disconnectBlock`, whose chain state names the parent of the block it
disconnects and takes the work of the block itself.
-/

open IniNode.Lib List Option

namespace IniNode.BlockChain

open BlockIndex

variable {params : ChainParams} {checkpoints : List Checkpoint} {b b' : BlockChain}

/-! ## The work of a chain -/

/-- The sum of `calcWork` over the accepted headers from genesis to the block. -/
inductive ChainWork (known : Store Hash (BlockHeader × Int)) : Hash → Nat → Prop
  | genesis {x header} (hx : known x = some (header, 0)) : ChainWork known x (calcWork header.bits)
  | next {x header h w} (hx : known x = some (header, h)) (hh : h ≠ 0) (hw : ChainWork known header.prevBlock w) :
    ChainWork known x (w + calcWork header.bits)

/-- Both records have the work of the block they name. -/
structure WorkStored (known : Store Hash (BlockHeader × Int)) (db : Db) : Prop where
  bestState : ∀ {s}, db.bestState = some s → ChainWork known s.hash s.workSum
  snapshot : ∀ {s}, db.bestTipSnapshot = some s → ChainWork known s.hash s.work

/-- So will both records that an item writes. -/
structure ItemWork (known : Store Hash (BlockHeader × Int)) (item : WriteItem) : Prop where
  bestState : ChainWork known item.bestState.hash item.tipWork
  snapshot : ChainWork known item.bestTipHash item.tipWork

section Records
variable {known known' : Store Hash (BlockHeader × Int)} {db db' : Db} {x : Hash} {w : Nat}

theorem ChainWork.mono (h : ChainWork known x w) (hle : ∀ x v, known x = some v → known' x = some v) :
    ChainWork known' x w := by
  induction h with
  | genesis hx => exact .genesis (hle _ _ hx)
  | next hx hh _ ih => exact .next (hle _ _ hx) hh ih

theorem ChainWork.exists_known (h : ChainWork known x w) : ∃ v, known x = some v := by
  cases h with
  | genesis hx => exact ⟨_, hx⟩
  | next hx => exact ⟨_, hx⟩

theorem ChainWork.eq_of_genesis {header : BlockHeader} (h : ChainWork known x w)
    (hx : known x = some (header, 0)) : w = calcWork header.bits := by
  cases h with
  | genesis hx' => rw [(Prod.mk.inj (mem_unique hx' hx)).1]
  | next hx' hh => exact absurd (Prod.mk.inj (mem_unique hx' hx)).2 hh

theorem ChainWork.extend (hk : KnownSound params known) {header : BlockHeader} {h : Int}
    (hx : known x = some (header, h)) (hw : ChainWork known header.prevBlock w) :
    ChainWork known x (w + calcWork header.bits) := by
  refine .next hx ?_ hw
  rintro rfl
  rcases hk.link hx with ⟨hz, -⟩ | ⟨header', hlink⟩
  · obtain ⟨v, hv⟩ := hw.exists_known
    rw [hz, hk.zero] at hv
    cases hv
  · exact absurd (hk.nonneg hlink) (by decide)

theorem ChainWork.parent {header parent : BlockHeader} {h k : Int} (hk : KnownSound params known)
    (hw : ChainWork known x w) (hx : known x = some (header, h)) (hparent : known header.prevBlock = some (parent, k))
    (hzero : calcWork header.bits = 0) : ChainWork known header.prevBlock w := by
  cases hw with
  | genesis hx' =>
    obtain ⟨rfl, rfl⟩ := Prod.mk.inj (mem_unique hx' hx)
    rcases hk.link hx with ⟨hz, -⟩ | ⟨header', hlink⟩
    · rw [hz, hk.zero] at hparent
      cases hparent
    · exact absurd (hk.nonneg hlink) (by decide)
  | next hx' _ hw =>
    obtain ⟨rfl, rfl⟩ := Prod.mk.inj (mem_unique hx' hx)
    rw [hzero]
    exact hw

theorem WorkStored.mono (h : WorkStored known db) (hle : ∀ x v, known x = some v → known' x = some v) :
    WorkStored known' db := ⟨fun hs => (h.bestState hs).mono hle, fun hs => (h.snapshot hs).mono hle⟩

theorem WorkStored.of_eq (h : WorkStored known db) (hbest : db'.bestState = db.bestState)
    (hsnap : db'.bestTipSnapshot = db.bestTipSnapshot) : WorkStored known db' :=
  ⟨fun hs => h.bestState (hbest ▸ hs), fun hs => h.snapshot (hsnap ▸ hs)⟩

theorem records_flushToDB (db : Db) (rows : List NodeRowSnapshot) (bestHeader : Option (Hash × Int)) :
    (AsyncChain.flushToDB db rows bestHeader).bestState = db.bestState ∧
      (AsyncChain.flushToDB db rows bestHeader).bestTipSnapshot = db.bestTipSnapshot := by
  have hrow : ∀ (db : Db) (r : NodeRowSnapshot), (writeNodeRowSnapshot db r).bestState = db.bestState ∧
      (writeNodeRowSnapshot db r).bestTipSnapshot = db.bestTipSnapshot := by
    intro db r
    dsimp only [writeNodeRowSnapshot, Db.putHeightIndexGuarded]
    split_ifs <;> exact ⟨rfl, rfl⟩
  have hrows : (rows.foldl writeNodeRowSnapshot db).bestState = db.bestState ∧
      (rows.foldl writeNodeRowSnapshot db).bestTipSnapshot = db.bestTipSnapshot := by
    induction rows generalizing db with
    | nil => exact ⟨rfl, rfl⟩
    | cons r rows ih =>
      obtain ⟨hbest, hsnap⟩ := ih (writeNodeRowSnapshot db r)
      exact ⟨hbest.trans (hrow db r).1, hsnap.trans (hrow db r).2⟩
  cases bestHeader <;> exact hrows

/-- The stored bodies are those of accepted headers. -/
def BodiesKnown (known : Store Hash (BlockHeader × Int)) (db : Db) : Prop :=
  ∀ x block, db.blocks x = some block → block.hash = x ∧ ∃ h, known x = some (block.header, h)

/-- The segment that `forwardRebuildMainChainMetadata` collects leads from the block of the chain state to the one it
starts at, so the totals end up at that one with the work of its chain. -/
theorem ChainWork.foldl_rebuildBlock (hk : KnownSound params known) (hbodies : BodiesKnown known db) {cs : BestChainState}
    (hcs : ChainWork known cs.hash cs.workSum) {fuel : Nat} {cur : Hash} {segment : List Block}
    (hseg : AsyncChain.collectSegment db cs.hash fuel cur = some segment) (d : Db) :
    let cs' := (segment.reverse.foldl (AsyncChain.rebuildBlock calcWork) (d, cs)).2
    cs'.hash = cur ∧ ChainWork known cs'.hash cs'.workSum := by
  induction fuel generalizing cur segment with
  | zero => cases hseg
  | succ fuel ih =>
    obtain ⟨block, hblock, hrest⟩ := bind_eq_some_iff.1 hseg
    clear hseg
    obtain ⟨rfl, h, hx⟩ := hbodies cur block hblock
    split at hrest
    next hprev =>
      cases hrest
      refine ⟨rfl, ChainWork.extend hk hx ?_⟩
      rw [show block.header.prevBlock = cs.hash from hprev]
      exact hcs
    next =>
      split at hrest
      · cases hrest
      obtain ⟨rest, hseg, rfl⟩ := map_eq_some_iff.1 hrest
      obtain ⟨hhash, hwork⟩ := ih hseg
      rw [reverse_cons, foldl_append]
      refine ⟨rfl, ChainWork.extend hk hx ?_⟩
      rw [hhash] at hwork
      exact hwork

theorem WorkStored.forwardRebuild (hk : KnownSound params known) (h : WorkStored known db) (hbodies : BodiesKnown known db)
    {statusHash : Hash} {statusHeight : Int}
    (hw : AsyncChain.forwardRebuildMainChainMetadata calcWork db statusHash statusHeight = some db') :
    WorkStored known db' := by
  obtain ⟨cs, hcs, hw⟩ := bind_eq_some_iff.1 hw
  obtain ⟨segment, hseg, rfl⟩ := map_eq_some_iff.1 hw
  obtain ⟨-, hwork⟩ := ChainWork.foldl_rebuildBlock hk hbodies (h.bestState hcs) hseg db
  refine ⟨fun {s} hs => ?_, fun {s} hs => ?_⟩
  · cases hs
    exact hwork
  · cases hs
    exact hwork

end Records

/-! ## Every step keeps it -/

/-- The nodes of the index have the work of their chains, and so have the records, stored and queued. -/
structure Weighed (b : BlockChain) : Prop where
  node : ∀ {hash p}, b.bi.lookupNode hash = some p → ChainWork b.known hash (b.bi.mem p).workSum
  queue : ∀ item ∈ b.queue, ItemWork b.known item
  db : WorkStored b.known b.db

/-- What the steps that store the work of a node of the best chain have to meet: the node is the one the index has for
its hash, and a block that is disconnected has no work of its own. -/
def StoresWork (b : BlockChain) : ChainStep → Prop
  | .disconnect prev _ _ ok => ok = true → ∀ p, b.bi.bestChain.tip = some p →
      b.bi.lookupNode (b.bi.mem p).hash = some p ∧ b.bi.lookupNode (b.bi.mem p).parentHash = some prev ∧
        calcWork (b.bi.mem p).header.bits = 0
  | .rollback height _ _ ok => ok = true → ∀ p, b.bi.bestChain.nodeByHeight height = some p →
      b.bi.lookupNode (b.bi.mem p).hash = some p
  | _ => True

theorem Weighed.frame (h : b.Weighed) (hknown : b'.known = b.known) (hnode : ∀ x p, b'.bi.lookupNode x = some p →
      b.bi.lookupNode x = some p ∧ (b'.bi.mem p).workSum = (b.bi.mem p).workSum)
    (hqueue : ∀ item ∈ b'.queue, ItemWork b.known item) (hdb : WorkStored b.known b'.db) : b'.Weighed where
  node {x p} hp := by
    obtain ⟨hp, hwork⟩ := hnode x p hp
    rw [hknown, hwork]
    exact h.node hp
  queue := hknown ▸ hqueue
  db := hknown ▸ hdb

theorem Weighed.headerMoved (h : b.Weighed) (hm : HeaderMoved b b') : b'.Weighed := by
  obtain ⟨view, own, count, rfl⟩ := hm
  exact h.frame rfl (fun _ _ hp => ⟨hp, rfl⟩) h.queue h.db

theorem Weighed.warmed {node : Option Ptr} {next : Option Checkpoint} (hs : b.bi.IndexSound) (h : b.Weighed)
    (hw : Warmed b node next b') : b'.Weighed := by
  obtain ⟨mem, fresh, cache, rfl, -, hdata⟩ := hw
  exact h.frame rfl (fun x p hp => ⟨hp, BlockNode.workSum_of_data (hdata p (hs.used hp))⟩) h.queue h.db

theorem Weighed.finishFlush (h : b.Weighed) (forceEvict : Bool) : (b.finishFlush forceEvict).Weighed := by
  refine h.frame rfl (fun x p hp => ?_) h.queue h.db
  exact ⟨((lookupNode_finishFlush b.bi forceEvict x p).1 hp).1,
    BlockNode.workSum_of_data (finishFlush_data b.bi forceEvict p)⟩

theorem putStatus_workSum (bi : BlockIndex) (p q : Ptr) (status : BlockStatus) :
    ((bi.putStatus p status).mem q).workSum = (bi.mem q).workSum := by
  simp only [putStatus, Function.update_apply]
  split
  next hq => rw [hq]
  next => rfl

theorem Weighed.putStatus (h : b.Weighed) (p : Ptr) (status : BlockStatus) :
    Weighed { b with bi := (b.bi.putStatus p status).markDirty p } :=
  h.frame rfl (fun _ q hq => ⟨hq, putStatus_workSum b.bi _ q _⟩) h.queue h.db

theorem Weighed.makeNode {header : BlockHeader} {prev : Ptr} {recycled : Option Ptr} {status : BlockStatus}
    (hs : b.Sound params) (h : b.Weighed) (hprev : b.bi.lookupNode header.prevBlock = some prev)
    (hnew : b.bi.lookupNode (params.blockHash header) = none) (hz : params.blockHash header ≠ zeroHash)
    (hcol : ∀ header' h, b.known (params.blockHash header) = some (header', h) → header' = header) :
    (b.makeNode params header prev recycled status).Weighed := by
  have hs' : (b.makeNode params header prev recycled status).Sound params := hs.makeNode hprev hnew hz hcol
  have hle : ∀ x v, b.known x = some v → (b.makeNode params header prev recycled status).known x = some v :=
    fun x v hv => hs.known_makeNode hprev hcol hv
  constructor
  · intro x p hp
    have hnode := hs'.node hp
    rw [lookupNode_makeNode] at hp
    split at hp
    next =>
      cases hp
      rw [makeNode_mem_self] at hnode ⊢
      exact ChainWork.extend hs'.known hnode ((h.node hprev).mono hle)
    next =>
      rw [makeNode_mem_ne (hs.index.newPtr_fresh recycled hp)]
      exact (h.node hp).mono hle
  · exact fun item hi => ⟨(h.queue item hi).bestState.mono hle, (h.queue item hi).snapshot.mono hle⟩
  · exact h.db.mono hle

theorem Weighed.written (h : b.Weighed) : (∀ n ok, WorkStored b.known (b.commit n ok).db) ∧
    ∀ maxHeight batched, WorkStored b.known (b.syncNowBelow maxHeight batched).db := by
  refine writer_keeps h.db (fun item hi _ _ _ hw => ?_) fun h => h.of_eq rfl rfl
  obtain ⟨disk, -, rfl⟩ := writeItem_eq hw
  refine ⟨?_, ?_⟩
  · rintro s ⟨⟩
    exact (h.queue item hi).bestState
  · rintro s ⟨⟩
    exact (h.queue item hi).snapshot

theorem Weighed.syncNowBelow (h : b.Weighed) (maxHeight : Int) (batched : Nat) :
    (b.syncNowBelow maxHeight batched).Weighed :=
  h.frame rfl (fun _ _ hp => ⟨hp, rfl⟩) (fun _ hi => absurd hi not_mem_nil) (h.written.2 maxHeight batched)

/-- A block without work is disconnected: the chain state gets its work, which is also that of its parent. -/
theorem Weighed.disconnected (hs : b.Sound params) (h : b.Weighed) {p prev : Ptr}
    (hp : b.bi.lookupNode (b.bi.mem p).hash = some p) (hprev : b.bi.lookupNode (b.bi.mem p).parentHash = some prev)
    (hzero : calcWork (b.bi.mem p).header.bits = 0) (hlink : (b.bi.mem p).parent = some prev ∨ (b.bi.mem p).parent = none)
    (totalTxns : UInt64) : (b.disconnected p prev totalTxns).Weighed := by
  refine h.frame rfl (fun _ _ hq => ⟨hq, rfl⟩) h.queue ?_
  have hhash := hs.index.hash hprev
  have hbest : ChainWork b.known (b.bi.mem prev).hash (b.bi.mem p).workSum := by
    rw [hhash]
    exact (h.node hp).parent hs.known (hs.node hp) (hs.node hprev) hzero
  have hsnap : ChainWork b.known (b.bi.mem prev).hash (b.bi.mem prev).workSum := by
    rw [hhash]
    exact h.node hprev
  change WorkStored b.known (b.disconnectTx p prev totalTxns)
  dsimp only [disconnectTx]
  rcases hlink with hlink | hlink
  · rw [hlink]
    refine ⟨fun {s} hs => ?_, fun {s} hs => ?_⟩
    · cases hs
      exact hbest
    · cases hs
      exact hsnap
  · rw [hlink]
    refine ⟨fun {s} hs => ?_, fun {s} hs => h.db.snapshot hs⟩
    cases hs
    exact hbest

theorem Weighed.move (hs : b.Sound params) (h : b.Weighed) {a : ChainStep} (hcol : b.NoCollision params a)
    (hok : b.StoresWork a) (hm : Move params checkpoints b a b') : b'.Weighed := by
  cases hm with
  | headerKnown => exact h
  | headerOld => exact h.headerMoved (headerMoved_extendHeader b _).countHeader
  | headerNew hprev hnew =>
    exact (h.makeNode hs hprev hnew hcol.1 hcol.2).headerMoved (headerMoved_extendHeader _ _).countHeader
  | blockOld _ hp => exact (h.putStatus _ _).warmed (hs.index.mark hp _) (warmed_relink _ _ _)
  | blockNew hprev hnew => exact h.makeNode hs hprev hnew hcol.1 hcol.2
  | template =>
    refine h.frame rfl (fun _ _ hp => ⟨hp, ?_⟩) h.queue h.db
    rw [newBlockNode_mem_ne (hs.index.newPtr_fresh _ hp)]
  | flush forceEvict ok =>
    unfold BlockChain.flushToDB
    split
    · exact h
    · obtain ⟨hbest, hsnap⟩ := records_flushToDB b.db b.bi.snapshotDirty b.headerState
      refine Weighed.finishFlush
        (b := { b with db := AsyncChain.flushToDB b.db b.bi.snapshotDirty b.headerState }) ?_ forceEvict
      exact h.frame rfl (fun _ _ hp => ⟨hp, rfl⟩) h.queue (h.db.of_eq hbest hsnap)
  | connect hp =>
    -- both records of the item are of the node itself
    have hwork := h.node hp
    rw [← hs.index.hash hp] at hwork
    exact (h.finishFlush false).frame rfl (fun _ _ hq => ⟨hq, rfl⟩)
      (forall_mem_append.2 ⟨h.queue, forall_mem_singleton.2 ⟨hwork, hwork⟩⟩) h.db
  | connectLost => exact h.finishFlush false
  | headerTip => exact h.headerMoved (headerMoved_followBestChain b)
  | disconnect hp hlink =>
    rename_i prev totalTxns batched p
    obtain ⟨hown, hprev, hzero⟩ := hok rfl p hp
    exact (h.syncNowBelow (b.bi.mem prev).height batched).disconnected (hs.syncNowBelow _ _) hown hprev hzero hlink totalTxns
  | disconnectFailed => exact h.syncNowBelow _ _
  | setStatus | unsetStatus => exact h.putStatus _ _
  | commit n ok =>
    exact h.frame rfl (fun _ _ hp => ⟨hp, rfl⟩) (fun item hi => h.queue item (mem_of_mem_drop hi)) (h.written.1 n ok)
  | lookup => exact h.warmed hs.index (warmed_materializeColdNode b _)
  | repair => exact h.warmed hs.index (warmed_repairFrom _ _ b)
  | checkpoint => exact h.warmed hs.index (warmed_checkpoint checkpoints b)
  | rebuildHeader | rollbackFailed => exact h.frame rfl (fun _ _ hp => ⟨hp, rfl⟩) h.queue h.db
  | rollback hp =>
    have hwork := h.node (hok rfl _ hp)
    refine h.frame rfl (fun _ _ hp => ⟨hp, rfl⟩) h.queue ⟨fun {s} hs => ?_, fun {s} hs => ?_⟩
    · cases hs
      exact hwork
    · cases hs
      exact hwork
  | remove hp =>
    rename_i hash p
    obtain ⟨hmem, -, -⟩ := removeNode_frame b.bi hash
    refine h.frame rfl (fun x q hq => ⟨?_, ?_⟩) h.queue (h.db.of_eq rfl rfl)
    · exact (lookup_of_removeNode hq).2
    · exact congrArg BlockNode.workSum (congrFun hmem q)

theorem create_weighed (params : ChainParams) (header : BlockHeader) (totalTxns : UInt64) (windowSize : Int) :
    (create params header totalTxns windowSize).Weighed := by
  have hwork : ChainWork (create params header totalTxns windowSize).known (params.blockHash header)
      (calcWork header.bits) :=
    .genesis (if_pos rfl)
  refine ⟨fun {x p} hp => ?_, nofun, fun {s} hs => ?_, nofun⟩
  · obtain ⟨rfl, rfl⟩ := lookupNode_create hp
    exact hwork
  · cases hs
    exact hwork

/-- Along steps that store the work of nodes of the index and disconnect no block with work of its own, both records
have the work of the block they name, and a rebuild from the stored bodies keeps that. -/
theorem stored_work_agrees {as : List ChainStep} (hs : b.Sound params) (h : b.Weighed)
    (hok : Along (step params checkpoints) (fun b a => b.NoCollision params a ∧ b.StoresWork a) b as)
    (hrun : run (step params checkpoints) b as = some b') :
    WorkStored b'.known b'.db ∧ ∀ statusHash statusHeight db', BodiesKnown b'.known b'.db →
      AsyncChain.forwardRebuildMainChainMetadata calcWork b'.db statusHash statusHeight = some db' →
      WorkStored b'.known db' := by
  obtain ⟨hs', h'⟩ := hs.run_keeps h (fun hs h hcol hok hm => h.move hs hcol hok hm) hok hrun
  exact ⟨h'.db, fun _ _ _ hbodies hw => h'.db.forwardRebuild hs'.known hbodies hw⟩

theorem stored_work_agrees_connected : ∃ b', run (step nonceParams []) (create nonceParams (headerOn 0 0) 1 10)
      [.block (headerOn 1 1) none, .flush false true, .connect 2 plainItem true, .commit 1 true] = some b' ∧
    b'.db.bestState = some ⟨2, 1, 0, 2 * calcWork 0x1f3fffff⟩ ∧ WorkStored b'.known b'.db := by
  refine exists_run rfl fun b' hrun => ⟨by cases hrun; rfl, (stored_work_agrees ?_ (create_weighed _ _ 1 10) ?_ hrun).1⟩
  · exact create_sound rfl (by decide) 1 10
  refine ⟨⟨⟨by decide, fun _ _ hk => absurd hk.symm (some_ne_none _)⟩, trivial⟩,
    fun t _ => ⟨⟨trivial, trivial⟩, fun u _ => ?_⟩⟩
  exact ⟨⟨trivial, trivial⟩, fun v _ => ⟨⟨trivial, trivial⟩, fun _ _ => trivial⟩⟩

/-! ## The work of the wrong block -/

/-- `ProcessBlock` of a block on genesis, and `InvalidateBlock` of it. -/
def invalidateFirst : List ChainStep :=
  [.block (headerOn 1 1) none, .flush false true, .setStatus 2 { valid := true }, .flush false true,
    .connect 2 plainItem true, .headerTip, .commit 1 true,
    .setStatus 2 { validateFailed := true }, .unsetStatus 2 { valid := true }, .flush false true, .disconnect 0 1 0 true]

theorem stored_work_wrong : ∃ b' s, run (step nonceParams [])
    (create nonceParams (headerOn 0 0) 1 10) invalidateFirst = some b' ∧
    b'.db.bestState = some s ∧ s.hash = 1 ∧ s.workSum = 2 * calcWork 0x1f3fffff ∧
    ¬ ChainWork b'.known s.hash s.workSum := by
  refine ⟨_, _, rfl, rfl, rfl, rfl, fun hw => ?_⟩
  have hgenesis : 2 * calcWork 0x1f3fffff = calcWork 0x1f3fffff := @ChainWork.eq_of_genesis _ _ _ (headerOn 0 0) hw rfl
  exact absurd hgenesis (by decide)

end IniNode.BlockChain
