import IniNode.Index.Structs
/-!
# What the index says of its blocks

`Sound` says that the nodes of the index, the cold nodes, the rows of the database and the queued rows all
agree with the headers that were accepted, `known`. Every step keeps it, as long as no two headers share a
hash. `Keeps` is about a single struct, in the index or not: it stands for the same block until it is reused.
-/

open IniNode.Lib List Option Function

namespace IniNode.BlockChain

open BlockIndex BlockNode

variable {params : ChainParams} {checkpoints : List Checkpoint} {b b' : BlockChain}

/-! ## The headers that were accepted -/

/-- The accepted headers form chains down to genesis, and none of them has the hash that stands for no block. -/
structure KnownSound (params : ChainParams) (known : Store Hash (BlockHeader × Int)) : Prop where
  hash : ∀ {x header h}, known x = some (header, h) → params.blockHash header = x
  zero : known zeroHash = none
  nonneg : ∀ {x header h}, known x = some (header, h) → 0 ≤ h
  link : ∀ {x header h}, known x = some (header, h) →
    header.prevBlock = zeroHash ∧ h = 0 ∨ ∃ header', known header.prevBlock = some (header', h - 1)

/-- The stored rows are those of accepted headers, at their heights. -/
structure RowsSound (known : Store Hash (BlockHeader × Int)) (db : Db) : Prop where
  rows : ∀ {h x row}, db.blockIndex (h, x) = some row → known x = some (row.header, h)
  hashes : ∀ {x h}, db.hashIndex x = some h → ∃ header, known x = some (header, h)
  heights : ∀ {h x}, db.heightIndex h = some x → ∃ header, known x = some (header, h)

/-- The row is of an accepted header. -/
def RowSound (known : Store Hash (BlockHeader × Int)) (r : NodeRowSnapshot) : Prop :=
  known r.hash = some (r.row.header, r.height)

/-- So are the rows of the item, and its block. -/
structure ItemSound (known : Store Hash (BlockHeader × Int)) (item : WriteItem) : Prop where
  rows : ∀ r ∈ item.nodeRows, RowSound known r
  block : ∃ header, known item.blockHash = some (header, item.height)

section Rows
variable {known known' : Store Hash (BlockHeader × Int)} {db db' : Db}

section

variable (h : RowsSound known db) {height : Int} {x : Hash}

include h

theorem RowsSound.putHeightIndex
    (hx : ∃ header, known x = some (header, height)) : RowsSound known (db.putHeightIndex height x) where
  __ := h
  heights {k y} hy := by
    obtain ⟨rfl, ⟨⟩⟩ | ⟨-, hy⟩ := Store.of_write hy
    · exact hx
    · exact h.heights hy

theorem RowsSound.putHashIndex
    (hx : ∃ header, known x = some (header, height)) : RowsSound known (db.putHashIndex x height) where
  __ := h
  hashes {y k} hy := by
    obtain ⟨rfl, ⟨⟩⟩ | ⟨-, hy⟩ := Store.of_write hy
    · exact hx
    · exact h.hashes hy

theorem RowsSound.storeBlockNode {row : NodeRow}
    (hx : known x = some (row.header, height)) : RowsSound known (db.storeBlockNode x height row) where
  __ := h
  rows {k y r} hy := by
    obtain ⟨⟨⟩, ⟨⟩⟩ | ⟨-, hy⟩ := Store.of_write hy
    · exact hx
    · exact h.rows hy

theorem RowsSound.putHeightIndexGuarded
    (hx : ∃ header, known x = some (header, height)) (onChain : Bool) :
    RowsSound known (db.putHeightIndexGuarded height x onChain) := by
  unfold Db.putHeightIndexGuarded
  split
  · exact h
  · exact h.putHeightIndex hx

theorem RowsSound.writeNodeRowSnapshot {r : NodeRowSnapshot} (hr : RowSound known r) :
    RowsSound known (writeNodeRowSnapshot db r) := by
  have hex : ∃ header, known r.hash = some (header, r.height) := ⟨_, hr⟩
  have h1 := h.storeBlockNode hr
  have h2 : RowsSound known (if r.hashIndex then (db.storeBlockNode r.hash r.height r.row).putHashIndex r.hash r.height
      else db.storeBlockNode r.hash r.height r.row) := by
    split
    · exact h1.putHashIndex hex
    · exact h1
  unfold IniNode.writeNodeRowSnapshot
  by_cases hh : r.heightIndex = true
  · rw [if_pos hh]
    exact h2.putHeightIndexGuarded hex _
  · rw [if_neg hh]
    exact h2

variable {rows : List NodeRowSnapshot}

theorem RowsSound.foldl_rows (hrows : ∀ r ∈ rows, RowSound known r) :
    RowsSound known (rows.foldl IniNode.writeNodeRowSnapshot db) := by
  induction rows generalizing db with
  | nil => exact h
  | cons r rows ih =>
    exact ih (h.writeNodeRowSnapshot (hrows r mem_cons_self)) fun r' h' => hrows r' (mem_cons_of_mem _ h')

theorem RowsSound.flushToDB (hrows : ∀ r ∈ rows, RowSound known r)
    (bestHeader : Option (Hash × Int)) : RowsSound known (AsyncChain.flushToDB db rows bestHeader) := by
  have hfold := h.foldl_rows hrows
  cases bestHeader with
  | none => exact hfold
  | some tip => exact ⟨hfold.rows, hfold.hashes, hfold.heights⟩

theorem RowsSound.writeItem {item : WriteItem} (hi : ItemSound known item)
    (hw : writeItem db item = some db') : RowsSound known db' := by
  have hfold := h.foldl_rows hi.rows
  -- of the writes after the node rows, only those of `putBlockIndex` are about these buckets
  have hput := (hfold.putHashIndex hi.block).putHeightIndex hi.block
  obtain ⟨disk, -, rfl⟩ := writeItem_eq hw
  exact ⟨hput.rows, hput.hashes, hput.heights⟩

theorem RowsSound.mono (hle : ∀ x v, known x = some v → known' x = some v) : RowsSound known' db where
  rows hr := hle _ _ (h.rows hr)
  hashes hx := (h.hashes hx).imp fun _ => hle _ _
  heights hx := (h.heights hx).imp fun _ => hle _ _

end

theorem ItemSound.mono {item : WriteItem} (h : ItemSound known item)
    (hle : ∀ x v, known x = some v → known' x = some v) : ItemSound known' item where
  rows r hr := hle _ _ (h.rows r hr)
  block := h.block.imp fun _ => hle _ _

end Rows

/-! ## The whole state -/

/-- All that is recorded is of accepted headers. -/
structure Sound (params : ChainParams) (b : BlockChain) : Prop where
  index : b.bi.IndexSound
  known : KnownSound params b.known
  node : ∀ {hash p}, b.bi.lookupNode hash = some p → b.known hash = some ((b.bi.mem p).header, (b.bi.mem p).height)
  cold : ∀ {hash p}, b.coldCache.get hash = some p → p < b.bi.fresh ∧ p ∉ b.bi.pool ∧ p ∉ b.bi.nodes ∧
    (b.bi.mem p).hash = hash ∧ b.known hash = some ((b.bi.mem p).header, (b.bi.mem p).height)
  db : RowsSound b.known b.db
  queue : ∀ item ∈ b.queue, ItemSound b.known item

section

variable (hs : b.Sound params)

include hs

/-- A step that accepts no header: nodes may leave the index, and the stored and queued rows are sound. -/
theorem Sound.frame (hindex : b'.bi.IndexSound) (hknown : b'.known = b.known)
    (hlook : ∀ x p, b'.bi.lookupNode x = some p → b.bi.lookupNode x = some p)
    (hfresh : b.bi.fresh ≤ b'.bi.fresh) (hpool : ∀ p ∈ b'.bi.pool, p ∈ b.bi.pool ∨ p ∈ b.bi.nodes)
    (hident : ∀ p, p < b.bi.fresh → p ∉ b.bi.pool → (b'.bi.mem p).ident = (b.bi.mem p).ident)
    (hcold : ∀ x p, b'.coldCache.get x = some p → b.coldCache.get x = some p)
    (hdb : RowsSound b.known b'.db) (hqueue : ∀ item ∈ b'.queue, ItemSound b.known item) : b'.Sound params where
  index := hindex
  known := hknown ▸ hs.known
  node {x p} hp := by
    have hp := hlook x p hp
    have hi := hident p (hs.index.used hp) (hs.index.live hp)
    rw [hknown, header_of_ident hi, height_of_ident hi]
    exact hs.node hp
  cold {x p} hp := by
    obtain ⟨hlt, hnp, hnode, hhash, hkn⟩ := hs.cold (hcold x p hp)
    have hi := hident p hlt hnp
    refine ⟨Nat.lt_of_lt_of_le hlt hfresh, fun h => (hpool p h).elim hnp hnode, fun h => ?_, ?_, ?_⟩
    · obtain ⟨y, hy⟩ := mem_nodes.1 h
      exact hnode (mem_nodes.2 ⟨y, hlook y p hy⟩)
    · rw [hash_of_ident hi, hhash]
    · rw [hknown, header_of_ident hi, height_of_ident hi]
      exact hkn
  db := hknown ▸ hdb
  queue := hknown ▸ hqueue

theorem Sound.ofDb (hdb : RowsSound b.known b'.db) (hqueue : ∀ item ∈ b'.queue, ItemSound b.known item)
    (hmem : b'.bi.mem = b.bi.mem := by rfl) (hfresh : b'.bi.fresh = b.bi.fresh := by rfl)
    (hpool : b'.bi.pool = b.bi.pool := by rfl) (hindex : b'.bi.index = b.bi.index := by rfl)
    (hdirty : b'.bi.dirty = b.bi.dirty := by rfl) (hknown : b'.known = b.known := by rfl)
    (hcold : b'.coldCache = b.coldCache := by rfl) : b'.Sound params := by
  refine hs.frame ?_ hknown (fun x p hp => ?_) (Nat.le_of_eq hfresh.symm) (fun p hp => .inl (hpool ▸ hp))
    (fun p _ _ => by rw [hmem]) (fun x p hp => hcold ▸ hp) hdb hqueue
  · exact hs.index.frame hindex (Nat.le_of_eq hfresh.symm) hpool (fun p hp => .inl (hdirty ▸ hp)) fun p _ => by rw [hmem]
  · rwa [lookupNode, hindex] at hp

theorem Sound.rowSound {r : NodeRowSnapshot} (hr : r ∈ b.bi.snapshotDirty) : RowSound b.known r := by
  obtain ⟨p, hp, rfl⟩ := List.mem_map.1 hr
  obtain ⟨x, hx⟩ := hs.index.dirty p hp
  have hnode := hs.node hx
  rw [← hs.index.hash hx] at hnode
  exact hnode

theorem Sound.itemFor {hash : Hash} {p : Ptr} (hp : b.bi.lookupNode hash = some p) (item : WriteItem) :
    ItemSound b.known (b.itemFor p item) where
  rows _ hr := hs.rowSound hr
  block := ⟨(b.bi.mem p).header, by
    have hnode := hs.node hp
    rw [← hs.index.hash hp] at hnode
    exact hnode⟩

/-! ## Every step keeps it -/

theorem Sound.finishFlush (forceEvict : Bool) : (b.finishFlush forceEvict).Sound params := by
  obtain ⟨hfresh, -, hpool⟩ := finishFlush_frame b.bi forceEvict
  refine hs.frame (hs.index.finishFlush forceEvict) rfl (fun x p hp => ((lookupNode_finishFlush _ _ x p).1 hp).1)
    (Nat.le_of_eq hfresh.symm) (fun p hp => ?_) (fun p _ _ => ident_of_data (finishFlush_data _ _ p)) (fun x p hp => ?_)
    hs.db hs.queue
  · change p ∈ (b.bi.finishFlush forceEvict).pool at hp
    rw [hpool, mem_append, leaves] at hp
    rcases hp with hp | hp
    · split at hp
      · exact .inr ((evicted_subset b.bi).subset hp)
      · exact absurd hp not_mem_nil
    · exact .inl hp
  · change (if b.bi.evicts forceEvict ∧ b.bi.evicted ≠ [] then ColdCache.empty else b.coldCache).get x = some p at hp
    split at hp
    · cases hp
    · exact hp

theorem Sound.dirtyWritten : Sound params { b with db := AsyncChain.flushToDB b.db b.bi.snapshotDirty b.headerState } :=
  hs.ofDb (hs.db.flushToDB (fun _ hr => hs.rowSound hr) _) hs.queue

theorem Sound.flushToDB (forceEvict ok : Bool) : (b.flushToDB forceEvict ok).Sound params := by
  unfold BlockChain.flushToDB
  split
  · exact hs
  · exact hs.dirtyWritten.finishFlush forceEvict

theorem Sound.written : (∀ n ok, RowsSound b.known (b.commit n ok).db) ∧
    ∀ maxHeight batched, RowsSound b.known (b.syncNowBelow maxHeight batched).db :=
  writer_keeps hs.db (fun item hi _ _ h hw => h.writeItem (hs.queue item hi) hw) fun h => ⟨h.rows, h.hashes, h.heights⟩

theorem Sound.commit (n : Nat) (ok : Bool) : (b.commit n ok).Sound params :=
  hs.ofDb (hs.written.1 n ok) fun item hi => hs.queue item (mem_of_mem_drop hi)

theorem Sound.syncNowBelow (maxHeight : Int) (batched : Nat) :
    (b.syncNowBelow maxHeight batched).Sound params :=
  hs.ofDb (hs.written.2 maxHeight batched) fun _ hi => absurd hi not_mem_nil

theorem Sound.headerMoved (h : HeaderMoved b b') : b'.Sound params := by
  obtain ⟨view, own, count, rfl⟩ := h
  exact hs.ofDb hs.db hs.queue

end

/-- The header is not one whose hash another accepted header has. -/
def NoCollision (params : ChainParams) (b : BlockChain) : ChainStep → Prop
  | .header header _ | .block header _ => params.blockHash header ≠ zeroHash ∧
      ∀ header' h, b.known (params.blockHash header) = some (header', h) → header' = header
  | _ => True

section Accept
variable {header : BlockHeader} {prev : Ptr} {recycled : Option Ptr} {status : BlockStatus}

theorem Sound.known_makeNode (hs : b.Sound params) (hprev : b.bi.lookupNode header.prevBlock = some prev)
    (hcol : ∀ header' h, b.known (params.blockHash header) = some (header', h) → header' = header) {x : Hash}
    {v : BlockHeader × Int} (hv : b.known x = some v) :
    (b.makeNode params header prev recycled status).known x = some v := by
  change (b.known.write _) x = some v
  rw [Store.write_apply]
  split
  next hx =>
    obtain ⟨header', h⟩ := v
    subst hx
    obtain rfl := hcol header' h hv
    have hkprev := hs.node hprev
    rcases hs.known.link hv with ⟨hz, -⟩ | ⟨hdr, hlink⟩
    · rw [hz, hs.known.zero] at hkprev
      cases hkprev
    · obtain ⟨-, hh⟩ := Prod.mk.inj (mem_unique hkprev hlink)
      rw [hh]
      simp
  next => exact hv

theorem Sound.makeNode (hs : b.Sound params) (hprev : b.bi.lookupNode header.prevBlock = some prev)
    (hnew : b.bi.lookupNode (params.blockHash header) = none) (hz : params.blockHash header ≠ zeroHash)
    (hcol : ∀ header' h, b.known (params.blockHash header) = some (header', h) → header' = header) :
    (b.makeNode params header prev recycled status).Sound params := by
  have hle : ∀ x v, b.known x = some v → (b.makeNode params header prev recycled status).known x = some v :=
    fun x v hv => hs.known_makeNode hprev hcol hv
  have hself : (b.makeNode params header prev recycled status).known (params.blockHash header) =
      some (header, (b.bi.mem prev).height + 1) := by
    change (b.known.write _) _ = _
    rw [Store.write_apply, if_pos rfl]
  have hcases : ∀ x v, (b.makeNode params header prev recycled status).known x = some v →
      (x = params.blockHash header ∧ v = (header, (b.bi.mem prev).height + 1)) ∨ b.known x = some v := by
    intro x v hv
    obtain ⟨hx, hv⟩ | ⟨-, hv⟩ := Store.of_write hv
    · exact .inl ⟨hx, (Option.some.inj hv).symm⟩
    · exact .inr hv
  have hkprev := hs.node hprev
  constructor
  · exact makeNode_indexSound hs.index hnew
  · constructor
    · intro x hdr h hv
      rcases hcases x _ hv with ⟨rfl, hnode⟩ | hv
      · rw [(Prod.mk.inj hnode).1]
      · exact hs.known.hash hv
    · cases hzero : (b.makeNode params header prev recycled status).known zeroHash with
      | none => rfl
      | some v =>
        rcases hcases _ _ hzero with ⟨h, -⟩ | h
        · exact absurd h.symm hz
        · rw [hs.known.zero] at h
          cases h
    · intro x hdr h hv
      rcases hcases x _ hv with ⟨-, hv⟩ | hv
      · have hpos := hs.known.nonneg hkprev
        rw [(Prod.mk.inj hv).2]
        omega
      · exact hs.known.nonneg hv
    · intro x hdr h hv
      rcases hcases x _ hv with ⟨-, hv⟩ | hv
      · obtain ⟨rfl, rfl⟩ := Prod.mk.inj hv
        refine .inr ⟨(b.bi.mem prev).header, ?_⟩
        rw [Int.add_sub_cancel]
        exact hle _ _ hkprev
      · exact (hs.known.link hv).imp_right fun ⟨hdr', h'⟩ => ⟨hdr', hle _ _ h'⟩
  · intro x p hp
    rw [lookupNode_makeNode] at hp
    split at hp
    next hx =>
      cases hp
      rw [makeNode_mem_self, hx]
      exact hself
    next =>
      rw [makeNode_mem_ne (hs.index.newPtr_fresh recycled hp)]
      exact hle _ _ (hs.node hp)
  · intro x p hp
    obtain ⟨hlt, hnp, hnode, hhash, hkn⟩ := hs.cold hp
    have hne : p ≠ b.bi.newPtr recycled := by
      rintro rfl
      rcases newPtr_cases b.bi recycled with ⟨h, -⟩ | ⟨h, -⟩
      · exact hnp h
      · exact Nat.lt_irrefl _ (h ▸ hlt)
    rw [makeNode_mem_ne hne]
    refine ⟨Nat.lt_of_lt_of_le hlt le_makeNode_fresh, fun h => hnp (mem_of_mem_erase h), fun h => ?_, hhash, hle _ _ hkn⟩
    obtain ⟨y, hy⟩ := mem_nodes.1 h
    rw [lookupNode_makeNode] at hy
    split at hy
    · exact hne (Option.some.inj hy).symm
    · exact hnode (mem_nodes.2 ⟨y, hy⟩)
  · exact hs.db.mono hle
  · exact fun item hi => (hs.queue item hi).mono hle

end Accept

/-! ### Cold nodes -/

theorem get_put {c : ColdCache} {hash x : Hash} {p q : Ptr} (h : (c.put hash p).get x = some q) :
    c.get x = some q ∨ x = hash ∧ q = p := by
  have hins : (c.nodes.insert hash p).lookup x = some q → c.get x = some q ∨ x = hash ∧ q = p := by
    intro hq
    by_cases hx : x = hash
    · subst hx
      rw [AList.lookup_insert] at hq
      exact .inr ⟨rfl, (Option.some.inj hq).symm⟩
    · rw [AList.lookup_insert_ne hx] at hq
      exact .inl hq
  unfold ColdCache.put at h
  split at h
  · exact .inl h
  · split at h
    next evicted order _ =>
      split at h
      · change ((c.nodes.insert hash p).erase evicted).lookup x = some q at h
        by_cases hx : x = evicted
        · rw [hx, AList.lookup_erase] at h
          cases h
        · rw [AList.lookup_erase_ne hx] at h
          exact hins h
      · exact hins h
    next => exact hins h

theorem fetchBlockRowByHash_eq {db : Db} {hash : Hash} {row : NodeRow} {height : Int}
    (h : db.fetchBlockRowByHash hash = some (row, height)) :
    db.hashIndex hash = some height ∧ db.blockIndex (height, hash) = some row := by
  obtain ⟨k, hk, h⟩ := bind_eq_some_iff.1 h
  obtain ⟨r, hr, h⟩ := map_eq_some_iff.1 h
  cases h
  exact ⟨hk, hr⟩

section

variable (hs : b.Sound params)

include hs

theorem Sound.materializeColdNode (hash : Hash) : (b.materializeColdNode hash).2.Sound params := by
  rcases materializeColdNode_cases b hash with ⟨h, -⟩ | ⟨row, height, hp, hc, hrow, h⟩
  · rw [h]
    exact hs
  rw [h]
  obtain ⟨-, hrow⟩ := fetchBlockRowByHash_eq hrow
  have hmem : ∀ q, q ≠ b.bi.fresh → (b.bi.alloc (b.coldNode hash row height)).mem q = b.bi.mem q :=
    fun q hq => update_of_ne hq _ _
  constructor
  · exact hs.index.alloc _
  · exact hs.known
  · intro x p hp
    rw [hmem p (Nat.ne_of_lt (hs.index.used hp))]
    exact hs.node hp
  · intro x p hp
    rcases get_put hp with hp | ⟨rfl, rfl⟩
    · obtain ⟨hlt, hnp, hnode, hrest⟩ := hs.cold hp
      refine ⟨Nat.lt_succ_of_lt hlt, hnp, hnode, ?_⟩
      rw [hmem p (Nat.ne_of_lt hlt)]
      exact hrest
    · refine ⟨Nat.lt_succ_self _, fun h => Nat.lt_irrefl _ (hs.index.pool_used _ h), fun h => ?_, ?_, ?_⟩
      · obtain ⟨y, hy⟩ := mem_nodes.1 h
        exact Nat.lt_irrefl _ (hs.index.used hy)
      · simp only [BlockIndex.alloc, update_self]
        rfl
      · simp only [BlockIndex.alloc, update_self]
        exact hs.db.rows hrow
  · exact hs.db
  · exact hs.queue

theorem Sound.setParent (p : Ptr) (q : Option Ptr) :
    ({ b with bi := { b.bi with mem := update b.bi.mem p { b.bi.mem p with parent := q } } } : BlockChain).Sound
      params := by
  have hident : ∀ r, ((update b.bi.mem p { b.bi.mem p with parent := q }) r).ident = (b.bi.mem r).ident := by
    intro r
    by_cases hr : r = p
    · subst hr
      rw [update_self]
      rfl
    · rw [update_of_ne hr]
  refine hs.frame ?_ rfl (fun _ _ h => h) le_rfl (fun _ h => .inl h) (fun r _ _ => hident r) (fun _ _ h => h) hs.db hs.queue
  exact hs.index.frame rfl le_rfl rfl (fun _ h => .inl h) fun r _ => hash_of_ident (hident r)

theorem Sound.repairFrom (depth : Nat) (cur : Ptr) : (repairFrom depth cur b).Sound params := by
  induction depth generalizing cur b with
  | zero => exact hs
  | succ depth ih =>
    rw [BlockChain.repairFrom]
    split
    · exact ih hs _
    · split
      · exact hs
      · have hcold := hs.materializeColdNode (b.bi.mem cur).parentHash
        split
        next heq => rw [heq] at hcold; exact hcold
        next heq => rw [heq] at hcold; exact ih (hcold.setParent _ _) _

theorem Sound.fetchCheckpoint (hash : Hash) : (b.fetchCheckpoint hash).2.Sound params := by
  unfold BlockChain.fetchCheckpoint
  split
  · exact hs
  · exact hs.materializeColdNode hash

theorem Sound.withCheckpoint (node : Option Ptr) (next : Option Checkpoint) :
    ({ b with checkpointNode := node, nextCheckpoint := next } : BlockChain).Sound params :=
  hs.ofDb hs.db hs.queue

theorem Sound.checkpoint (checkpoints : List Checkpoint) :
    (b.findPreviousCheckpoint checkpoints).2.Sound params := by
  obtain ⟨node, next, h | ⟨hash, h⟩⟩ := findPreviousCheckpoint_state checkpoints b
  · rw [h]
    exact hs.withCheckpoint node next
  · rw [h]
    exact (hs.fetchCheckpoint hash).withCheckpoint node next

/-- `Sound` is kept by every step that does not accept a header with the hash of another one. -/
theorem Sound.move {a : ChainStep} (hcol : b.NoCollision params a)
    (hm : Move params checkpoints b a b') : b'.Sound params := by
  cases hm with
  | headerKnown => exact hs
  | headerOld => exact hs.headerMoved (headerMoved_extendHeader b _).countHeader
  | headerNew hprev hnew =>
    exact (hs.makeNode hprev hnew hcol.1 hcol.2).headerMoved (headerMoved_extendHeader _ _).countHeader
  | blockOld hprev hp =>
    rename_i header recycled prev p
    have hmark := hs.index.mark hp ((b.bi.mem p).status.set { dataStored := true })
    obtain ⟨hindex, hfresh, hpool, -⟩ := relink_frame (b.bi.setStatusFlags p { dataStored := true }) p prev
    refine hs.frame (hmark.relink p prev) rfl (fun x q hq => ?_) (Nat.le_of_eq hfresh.symm)
      (fun q hq => .inl (hpool ▸ hq)) (fun q _ _ => ?_) (fun _ _ h => h) hs.db hs.queue
    · change ((b.bi.setStatusFlags p _).relink p prev).index.lookup x = some q at hq
      rwa [hindex] at hq
    · exact (ident_of_data (relink_data _ p prev q)).trans (putStatus_ident b.bi p q _)
  | blockNew hprev hnew => exact hs.makeNode hprev hnew hcol.1 hcol.2
  | flush forceEvict ok => exact hs.flushToDB forceEvict ok
  | connect hp =>
    exact (hs.finishFlush false).ofDb hs.db (forall_mem_append.2 ⟨hs.queue, forall_mem_singleton.2 (hs.itemFor hp _)⟩)
  | connectLost => exact hs.finishFlush false
  | headerTip => exact hs.headerMoved (headerMoved_followBestChain b)
  | disconnect =>
    rename_i prev totalTxns batched p hp hprev
    have hsync := hs.syncNowBelow (b.bi.mem prev).height batched
    refine hsync.ofDb ?_ hsync.queue
    have hdb := hsync.db
    -- the rows of the disconnected block go, the others stay
    have hremove : ∀ {d : Db}, RowsSound b.known d → ∀ x h, RowsSound b.known (d.removeBlockIndex x h) := by
      intro d hd x h
      refine ⟨hd.rows, fun {y k} hy => ?_, fun {k y} hy => ?_⟩
      · obtain ⟨-, ⟨⟩⟩ | ⟨-, hy⟩ := Store.of_write hy
        exact hd.hashes hy
      · obtain ⟨-, ⟨⟩⟩ | ⟨-, hy⟩ := Store.of_write hy
        exact hd.heights hy
    refine hremove ?_ _ _
    cases ((b.syncNowBelow (b.bi.mem prev).height batched).bi.mem p).parent with
    | none | some q => exact ⟨hdb.rows, hdb.hashes, hdb.heights⟩
  | disconnectFailed => exact hs.syncNowBelow _ _
  | setStatus hp | unsetStatus hp =>
    exact hs.frame (hs.index.mark hp _) rfl (fun _ _ h => h) le_rfl (fun _ h => .inl h)
      (fun q _ _ => putStatus_ident b.bi _ q _) (fun _ _ h => h) hs.db hs.queue
  | commit n ok => exact hs.commit n ok
  | lookup hash => exact hs.materializeColdNode hash
  | repair => exact hs.repairFrom _ _
  | checkpoint => exact hs.checkpoint checkpoints
  | rollback =>
    refine hs.ofDb ⟨hs.db.rows, hs.db.hashes, fun {h x} hx => ?_⟩ hs.queue
    change (if _ then none else b.db.heightIndex h) = some x at hx
    split at hx
    · cases hx
    · exact hs.db.heights hx
  | rebuildHeader | rollbackFailed => exact hs.ofDb hs.db hs.queue
  | remove hp =>
    rename_i hash p
    obtain ⟨hmem, hfresh, hpool, -⟩ := removeNode_frame b.bi hash
    refine hs.frame (hs.index.removeNode hp) rfl (fun x q hq => ?_) (Nat.le_of_eq hfresh.symm)
      (fun q hq => .inl (hpool ▸ hq)) (fun q _ _ => by rw [← hmem]; rfl) (fun _ _ h => h)
      ⟨fun {h x row} hr => ?_, hs.db.hashes, hs.db.heights⟩ hs.queue
    · exact (lookup_of_removeNode hq).2
    · obtain ⟨-, ⟨⟩⟩ | ⟨-, hr⟩ := Store.of_write hr
      exact hs.db.rows hr
  | @template _ recycled _ _ =>
    refine hs.frame (newBlockNode_indexSound hs.index) rfl (fun _ _ h => h) le_newBlockNode_fresh
      (fun _ h => .inl (mem_of_mem_erase h)) (fun q hlt hnp => ?_) (fun _ _ h => h) hs.db hs.queue
    have hne : q ≠ b.bi.newPtr recycled := by
      rintro rfl
      rcases newPtr_cases b.bi recycled with ⟨h, -⟩ | ⟨h, -⟩
      · exact hnp h
      · exact Nat.lt_irrefl _ (h ▸ hlt)
    rw [newBlockNode_mem_ne hne]

/-- What every step keeps in a sound state, every run keeps. -/
theorem Sound.run_keeps {I : BlockChain → Prop} {ok : BlockChain → ChainStep → Prop} {as : List ChainStep} (hI : I b)
    (hmove : ∀ {b a b'}, b.Sound params → I b → b.NoCollision params a → ok b a →
      Move params checkpoints b a b' → I b')
    (hok : Along (step params checkpoints) (fun b a => b.NoCollision params a ∧ ok b a) b as)
    (hrun : run (step params checkpoints) b as = some b') : b'.Sound params ∧ I b' := by
  refine run_invariant (I := fun b => b.Sound params ∧ I b) ?_ ⟨hs, hI⟩ hok hrun
  rintro s a t ⟨hs, hI⟩ ⟨hcol, hok⟩ hstep
  exact ⟨hs.move hcol (step_move hstep), hmove hs hI hcol hok (step_move hstep)⟩

end

/-- Only a header or block that is new adds to the accepted headers. -/
theorem known_move {a : ChainStep} (hm : Move params checkpoints b a b') :
    b'.known = b.known ∨ ∃ header recycled prev, (a = .header header recycled ∨ a = .block header recycled) ∧
      b.bi.lookupNode header.prevBlock = some prev ∧
      b'.known = b.known.write ⟨params.blockHash header, some (header, (b.bi.mem prev).height + 1)⟩ := by
  have moved : ∀ {c}, HeaderMoved c b' → b'.known = c.known := by
    rintro c ⟨view, own, count, rfl⟩
    rfl
  have warm : ∀ {node next}, Warmed b node next b' → b'.known = b.known := by
    rintro node next ⟨mem, fresh, cache, rfl, -⟩
    rfl
  cases hm with
  | headerOld => exact .inl (moved (headerMoved_extendHeader b _).countHeader)
  | headerNew hprev =>
    exact .inr ⟨_, _, _, .inl rfl, hprev, (moved (headerMoved_extendHeader _ _).countHeader).trans rfl⟩
  | blockNew hprev => exact .inr ⟨_, _, _, .inr rfl, hprev, rfl⟩
  | flush =>
    unfold flushToDB
    split <;> exact .inl rfl
  | headerTip => exact .inl (moved (headerMoved_followBestChain b))
  | lookup => exact .inl (warm (warmed_materializeColdNode b _))
  | repair => exact .inl (warm (warmed_repairFrom _ _ b))
  | checkpoint => exact .inl (warm (warmed_checkpoint checkpoints b))
  | headerKnown | blockOld | connect | connectLost | disconnect | disconnectFailed | setStatus | unsetStatus
  | commit | rebuildHeader | rollback | rollbackFailed | remove | template => exact .inl rfl

/-! ## The start -/

variable {header : BlockHeader}

theorem lookupNode_create {totalTxns : UInt64} {windowSize : Int} {x : Hash} {p : Ptr}
    (hp : (create params header totalTxns windowSize).bi.lookupNode x = some p) : x = params.blockHash header ∧ p = 0 := by
  change ((∅ : AList fun _ : Hash => Ptr).insert (params.blockHash header) 0).lookup x = some p at hp
  by_cases hx : x = params.blockHash header
  · subst hx
    rw [AList.lookup_insert] at hp
    exact ⟨rfl, (Option.some.inj hp).symm⟩
  · rw [AList.lookup_insert_ne hx] at hp
    cases hp

theorem create_sound (hprev : header.prevBlock = zeroHash) (hz : params.blockHash header ≠ zeroHash)
    (totalTxns : UInt64) (windowSize : Int) : (create params header totalTxns windowSize).Sound params := by
  have hknown : ∀ x v, (create params header totalTxns windowSize).known x = some v →
      x = params.blockHash header ∧ v = (header, 0) := by
    intro x v hv
    change (if x = params.blockHash header then some (header, 0) else none) = some v at hv
    split at hv
    next hx => exact ⟨hx, (Option.some.inj hv).symm⟩
    next => cases hv
  have hself : (create params header totalTxns windowSize).known (params.blockHash header) = some (header, 0) := if_pos rfl
  constructor
  · constructor
    · intro x p hp
      obtain ⟨rfl, rfl⟩ := lookupNode_create hp
      rfl
    · intro x p hp
      obtain ⟨rfl, rfl⟩ := lookupNode_create hp
      exact Nat.zero_lt_one
    · exact fun _ => not_mem_nil
    · exact fun p hp => absurd hp not_mem_nil
    · exact nodup_nil
    · exact fun p hp => absurd hp not_mem_nil
  · constructor
    · intro x hdr h hv
      obtain ⟨rfl, heq⟩ := hknown _ _ hv
      rw [(Prod.mk.inj heq).1]
    · exact if_neg (Ne.symm hz)
    · intro x hdr h hv
      obtain ⟨-, heq⟩ := hknown _ _ hv
      exact Int.le_of_eq (Prod.mk.inj heq).2.symm
    · intro x hdr h hv
      obtain ⟨-, hv⟩ := hknown _ _ hv
      obtain ⟨rfl, rfl⟩ := Prod.mk.inj hv
      exact .inl ⟨hprev, rfl⟩
  · intro x p hp
    obtain ⟨rfl, rfl⟩ := lookupNode_create hp
    exact hself
  · intro x p hp
    cases hp
  · constructor
    · intro h x row hr
      obtain ⟨⟨⟩, ⟨⟩⟩ | ⟨-, ⟨⟩⟩ := Store.of_write hr
      exact hself
    · intro x h hx
      obtain ⟨rfl, ⟨⟩⟩ | ⟨-, ⟨⟩⟩ := Store.of_write hx
      exact ⟨header, hself⟩
    · intro h x hx
      obtain ⟨rfl, ⟨⟩⟩ | ⟨-, ⟨⟩⟩ := Store.of_write hx
      exact ⟨header, hself⟩
  · exact fun item hi => absurd hi not_mem_nil

/-! ## Records of a block -/

/-- What a node, indexed or cold, a stored row or a queued one says of a block. -/
inductive Records (b : BlockChain) : Hash → BlockHeader → Int → Prop
  | node {hash p} (h : b.bi.lookupNode hash = some p ∨ b.coldCache.get hash = some p) :
    Records b hash (b.bi.mem p).header (b.bi.mem p).height
  | row {hash height row} (h : b.db.blockIndex (height, hash) = some row) : Records b hash row.header height
  | queued {item r} (hi : item ∈ b.queue) (hr : r ∈ item.nodeRows) : Records b r.hash r.row.header r.height

theorem Sound.known_of_records (hs : b.Sound params) {x : Hash} {height : Int} (h : b.Records x header height) :
    b.known x = some (header, height) := by
  cases h with
  | node h => exact h.elim hs.node fun h => (hs.cold h).2.2.2.2
  | row h => exact hs.db.rows h
  | queued hi hr => exact (hs.queue _ hi).rows _ hr

/-- In every run without a collision the records of a block have one header, which has its hash, and one height, one above
its parent's and the one it is found under. -/
theorem records_agree (hprev : header.prevBlock = zeroHash) (hz : params.blockHash header ≠ zeroHash)
    {totalTxns : UInt64} {windowSize : Int} {as : List ChainStep}
    (hcol : Along (step params checkpoints) (NoCollision params) (create params header totalTxns windowSize) as)
    (hrun : run (step params checkpoints) (create params header totalTxns windowSize) as = some b')
    {x : Hash} {hd : BlockHeader} {k : Int} (h : b'.Records x hd k) :
    params.blockHash hd = x ∧ (∀ hd' k', b'.Records x hd' k' → hd' = hd ∧ k' = k) ∧
      (∀ hd' k', b'.Records hd.prevBlock hd' k' → k = k' + 1) ∧
      ∀ k', b'.db.hashIndex x = some k' ∨ b'.db.heightIndex k' = some x → k' = k := by
  have hs : b'.Sound params := run_invariant (fun _ _ _ hs hcol h => hs.move hcol (step_move h))
    (create_sound hprev hz totalTxns windowSize) hcol hrun
  have hx := hs.known_of_records h
  have heq {v} (hv : b'.known x = some v) : v = (hd, k) := some.inj (hv.symm.trans hx)
  refine ⟨hs.known.hash hx, fun hd' k' h' => ?_, fun hd' k' h' => ?_, fun k' h' => ?_⟩
  · exact Prod.mk.inj (heq (hs.known_of_records h'))
  · have hparent := hs.known_of_records h'
    rcases hs.known.link hx with ⟨hzero, -⟩ | ⟨hd1, hlink⟩
    · rw [hzero, hs.known.zero] at hparent
      cases hparent
    · rw [hlink] at hparent
      have := (Prod.mk.inj (some.inj hparent)).2
      omega
  · obtain ⟨hd', h'⟩ := h'.elim hs.db.hashes hs.db.heights
    exact (Prod.mk.inj (heq h')).2

theorem records_agree_flushed : ∃ b', run (step nonceParams []) (create nonceParams (headerOn 0 0) 1 10)
    [.block (headerOn 1 1) none, .flush true true] = some b' ∧ ∀ hd k, b'.Records 2 hd k →
      hd = headerOn 1 1 ∧ k = 1 := by
  refine exists_run rfl fun b' hrun => ?_
  refine (records_agree rfl (by decide) ?_ hrun (@Records.row _ 2 1 ⟨headerOn 1 1, _⟩ (by cases hrun; rfl))).2.1
  exact .cons ⟨by decide, nofun⟩ rfl ⟨trivial, fun _ _ => trivial⟩

/-! ## Structs that are not reused -/

/-- The step puts its new node, if it makes one, in this struct of the pool. -/
def Reuses (b : BlockChain) (p : Ptr) : ChainStep → Prop
  | .header _ recycled | .block _ recycled | .template _ recycled => b.bi.pooled recycled = some p
  | _ => False

/-- The structs stand for the same blocks, but for one, and no more of them may be in use. -/
structure Keeps (b b' : BlockChain) (p : Ptr) : Prop where
  fresh : p < b'.bi.fresh
  ident : (b'.bi.mem p).ident = (b.bi.mem p).ident

section Keeps
variable {p : Ptr}

theorem Keeps.refl (hp : p < b.bi.fresh) : Keeps b b p := ⟨hp, rfl⟩

theorem keeps_of_data (hp : p < b.bi.fresh) (hfresh : b'.bi.fresh = b.bi.fresh)
    (hdata : (b'.bi.mem p).data = (b.bi.mem p).data) : Keeps b b' p :=
  ⟨hfresh ▸ hp, ident_of_data hdata⟩

theorem Keeps.headerMoved {c : BlockChain} (hk : Keeps b c p) (h : HeaderMoved c b') : Keeps b b' p := by
  obtain ⟨view, own, count, rfl⟩ := h
  exact ⟨hk.fresh, hk.ident⟩

theorem ne_newPtr {recycled : Option Ptr} (hp : p < b.bi.fresh) (hre : b.bi.pooled recycled ≠ some p) :
    p ≠ b.bi.newPtr recycled := by
  rintro rfl
  rcases newPtr_cases b.bi recycled with ⟨-, h⟩ | ⟨h, -⟩
  · exact hre h
  · exact Nat.lt_irrefl _ (h ▸ hp)

theorem keeps_makeNode {header : BlockHeader} {prev : Ptr} {recycled : Option Ptr} {status : BlockStatus}
    (hp : p < b.bi.fresh) (hre : b.bi.pooled recycled ≠ some p) :
    Keeps b (b.makeNode params header prev recycled status) p :=
  ⟨Nat.lt_of_lt_of_le hp le_makeNode_fresh, by rw [makeNode_mem_ne (ne_newPtr hp hre)]⟩

theorem keeps_warmed {node : Option Ptr} {next : Option Checkpoint} (hp : p < b.bi.fresh) (h : Warmed b node next b') :
    Keeps b b' p := by
  obtain ⟨mem, fresh, cache, rfl, hle, hdata⟩ := h
  exact ⟨Nat.lt_of_lt_of_le hp hle, ident_of_data (hdata p hp)⟩

/-- A struct that the step does not reuse stands for the same block after it. -/
theorem Keeps.move (hp : p < b.bi.fresh) {a : ChainStep} (hre : ¬ b.Reuses p a) (hm : Move params checkpoints b a b') :
    Keeps b b' p := by
  cases hm with
  | headerOld => exact (Keeps.refl hp).headerMoved (headerMoved_extendHeader b _).countHeader
  | headerNew => exact (keeps_makeNode hp hre).headerMoved (headerMoved_extendHeader _ _).countHeader
  | blockOld =>
    refine ⟨?_, (ident_of_data (relink_data _ _ _ p)).trans (putStatus_ident b.bi _ p _)⟩
    rw [(relink_frame _ _ _).2.1]
    exact hp
  | blockNew => exact keeps_makeNode hp hre
  | template => exact ⟨Nat.lt_of_lt_of_le hp le_newBlockNode_fresh, by rw [newBlockNode_mem_ne (ne_newPtr hp hre)]⟩
  | flush forceEvict ok =>
    unfold flushToDB
    split
    · exact .refl hp
    · exact keeps_of_data hp (finishFlush_frame b.bi forceEvict).1 (finishFlush_data b.bi forceEvict p)
  | connect | connectLost => exact keeps_of_data hp (finishFlush_frame b.bi false).1 (finishFlush_data b.bi false p)
  | headerTip => exact (Keeps.refl hp).headerMoved (headerMoved_followBestChain b)
  | setStatus | unsetStatus => exact ⟨hp, putStatus_ident b.bi _ p _⟩
  | lookup => exact keeps_warmed hp (warmed_materializeColdNode b _)
  | repair => exact keeps_warmed hp (warmed_repairFrom _ _ b)
  | checkpoint => exact keeps_warmed hp (warmed_checkpoint checkpoints b)
  | remove =>
    obtain ⟨hmem, hfresh, -⟩ := removeNode_frame b.bi _
    exact keeps_of_data hp hfresh (congrArg data (congrFun hmem p))
  | headerKnown | disconnect | disconnectFailed | commit | rebuildHeader | rollback | rollbackFailed =>
    exact keeps_of_data hp rfl rfl

end Keeps

end IniNode.BlockChain
