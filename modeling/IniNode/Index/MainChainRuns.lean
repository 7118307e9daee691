import IniNode.Index.MainChain
/-!
# Main-chain queries along runs

Which steps keep the main-chain queries right, from any state. A flush has to write height rows of connected blocks
only; headers that are flushed before their blocks are connected are what the queries then mistake for the main chain.
-/

open IniNode.Lib List Option

namespace IniNode.BlockChain

open BlockIndex

variable {params : ChainParams} {checkpoints : List Checkpoint} {b b' : BlockChain} {h : Int}

/-! ## Taking the tip off -/

theorem chainAt_dropLast (hchain : b'.chain = b.chain.dropLast) {x : Hash} :
    b'.chainAt h = some x ↔ b.chainAt h = some x ∧ h < (b.chain.length : Int) - 1 := by
  rw [chainAt_eq_some, chainAt_eq_some, hchain, getElem?_dropLast, ite_none_right_eq_some]
  constructor
  · rintro ⟨hpos, hlt, hx⟩
    exact ⟨⟨hpos, hx⟩, by omega⟩
  · rintro ⟨⟨hpos, hx⟩, hlt⟩
    exact ⟨hpos, by omega, hx⟩

theorem heightIndex_disconnectTx (b : BlockChain) (node prev : Ptr) (totalTxns : UInt64) :
    (b.disconnectTx node prev totalTxns).heightIndex = b.db.heightIndex.write ⟨(b.bi.mem node).height, none⟩ := by
  dsimp only [disconnectTx]
  cases (b.bi.mem node).parent <;> rfl

theorem hashIndex_disconnectTx (b : BlockChain) (node prev : Ptr) (totalTxns : UInt64) :
    (b.disconnectTx node prev totalTxns).hashIndex = b.db.hashIndex.write ⟨(b.bi.mem node).hash, none⟩ := by
  dsimp only [disconnectTx]
  cases (b.bi.mem node).parent <;> rfl

theorem HasRows.disconnectTx (hs : b.Sound params) {node prev : Ptr} {totalTxns : UInt64} {hash : Hash}
    (hnode : b.bi.lookupNode hash = some node) {x : Hash} (hr : HasRows b.db h x) (hne : h ≠ (b.bi.mem node).height) :
    HasRows (b.disconnectTx node prev totalTxns) h x := by
  constructor
  · rw [heightIndex_disconnectTx, Store.write_apply, if_neg hne]
    exact hr.height
  · rw [hashIndex_disconnectTx, Store.write_apply, if_neg]
    · exact hr.hash
    · -- a block is known at one height
      intro hx
      change x = (b.bi.mem node).hash at hx
      obtain ⟨header, hknown⟩ := hs.db.heights hr.height
      have hown := hs.node hnode
      rw [← hs.index.hash hnode, ← hx, hknown] at hown
      exact hne (Prod.mk.inj (Option.some.inj hown)).2
  · rw [blockIndex_disconnectTx]
    exact hr.row

theorem Main.disconnected (hs : b.Sound params) (hm : b.Main) {p prev : Ptr} {totalTxns : UInt64} {batched : Nat}
    (htip : b.bi.bestChain.tip = some p) (hparent : (b.bi.mem p).parent = some prev)
    (hprev : b.bi.bestChain.nodeByHeight (b.chain.length - 2) = some prev)
    (hsync : b.SyncCommits (b.bi.mem prev).height batched) :
    ((b.syncNowBelow (b.bi.mem prev).height batched).disconnected p prev totalTxns).Main := by
  have htop := hm.top
  obtain ⟨hlow, hprevIn⟩ := ChainView.nodeByHeight_eq_some.1 hprev
  have hbase := hm.base
  have hprevHeight := (hm.chainAt_of_view hs hprev).2.height
  have hq := (hm.chainAt_of_view hs (hm.nodeByHeight_tip.trans htip)).2
  have hpHeight := hq.height
  obtain ⟨hgrows, hstored⟩ := hm.syncNowBelow hsync
  have hs1 := hs.syncNowBelow (b.bi.mem prev).height batched
  set b1 := b.syncNowBelow (b.bi.mem prev).height batched with hb1
  have hview : (b1.disconnected p prev totalTxns).bi.bestChain =
      { b.bi.bestChain with
        nodes := b.bi.bestChain.nodes.take (((b.chain.length : Int) - 2 - b.bi.bestChain.base).toNat + 1) } := by
    change b.bi.bestChain.setTip b.bi.mem (b.bi.mem p).parent = _
    rw [hparent, ChainView.setTip_cut, hprevHeight]
    rw [ChainView.contains, hprevHeight]
    exact hprev
  have hchain : (b1.disconnected p prev totalTxns).chain = b.chain.dropLast := rfl
  have hqueue : (b1.disconnected p prev totalTxns).queue = [] := rfl
  have hlen : ((b1.disconnected p prev totalTxns).chain.length : Int) = b.chain.length - 1 := by
    rw [hchain, length_dropLast]
    omega
  constructor
  · exact hm.window
  · rw [hview]
    dsimp only
    omega
  · rw [hview]
    simp only [length_take]
    omega
  · intro h x hle hx
    rw [hview] at hle
    obtain ⟨hx, hlt⟩ := (chainAt_dropLast hchain).1 hx
    obtain ⟨r, hr⟩ := hm.view hle hx
    refine ⟨r, ?_, hr.node, hr.height⟩
    obtain ⟨hle, hr⟩ := ChainView.nodeByHeight_eq_some.1 hr.view
    rw [hview, ChainView.nodeByHeight_eq_some]
    refine ⟨hle, ?_⟩
    rw [getElem?_take_of_lt (by dsimp only; omega)]
    exact hr
  · rw [hview, hqueue]
    dsimp only [length_nil]
    omega
  · intro h x hrow
    change (b1.disconnectTx p prev totalTxns).heightIndex h = some x at hrow
    rw [heightIndex_disconnectTx, Store.write_apply] at hrow
    split at hrow
    · cases hrow
    next hne =>
      have hx := hgrows.names hm.names hrow
      refine (chainAt_dropLast hchain).2 ⟨hx, ?_⟩
      have := chainAt_lt hx
      change ¬ h = (b.bi.mem p).height at hne
      omega
  · intro h x hx _
    obtain ⟨hx, hlt⟩ := (chainAt_dropLast hchain).1 hx
    refine HasRows.disconnectTx hs1 hq.node (hstored hx (by omega)) ?_
    change h ≠ (b.bi.mem p).height
    omega
  · intro i item hi
    cases hi

/-! ## What the steps have to meet -/

/-- What the steps have to meet so that the queries stay right. Height rows are written of connected blocks only, the
writer keeps up, no transaction fails, a block is disconnected down to its parent in the view, and nothing of the
connected chain is rolled back or removed. -/
def KeepsMain (b : BlockChain) : ChainStep → Prop
  | .flush _ ok => ok = true → b.DirtyOnChain ∧ b.QueueFits
  | .connect hash _ enqueued => b.QueueFits ∧
    (enqueued = true → ∀ p, b.bi.lookupNode hash = some p → b.Connectable p)
  | .disconnect prev _ batched ok => ok = true ∧ b.SyncCommits (b.bi.mem prev).height batched ∧
      b.bi.bestChain.nodeByHeight (b.chain.length - 2) = some prev ∧
      ∀ p, b.bi.bestChain.tip = some p → (b.bi.mem p).parent = some prev
  | .commit n ok => ok = true ∧ (flushBatch b.db (b.queue.take n)).isSome
  | .rollback height _ _ _ => height + 1 = b.chain.length
  | .remove hash => hash ∉ b.chain
  | _ => True

/-! ## The other steps -/

theorem Main.headerMoved (hm : b.Main) (h : HeaderMoved b b') : b'.Main := by
  obtain ⟨view, own, count, rfl⟩ := h
  exact hm.frame rfl rfl rfl rfl (Grows.refl _) fun hp => ⟨hp.node, rfl⟩

theorem Main.warmed {node : Option Ptr} {next : Option Checkpoint} (hs : b.bi.IndexSound) (hm : b.Main)
    (h : Warmed b node next b') : b'.Main := by
  obtain ⟨mem, fresh, cache, rfl, -, hdata⟩ := h
  refine hm.frame rfl rfl rfl rfl (Grows.refl _) fun hp => ⟨hp.node, ?_⟩
  exact BlockNode.height_of_ident (BlockNode.ident_of_data (hdata _ (hs.used hp.node)))

theorem Main.makeNode (hs : b.Sound params) (hm : b.Main) {header : BlockHeader}
    (hnew : b.bi.lookupNode (params.blockHash header) = none) (prev : Ptr) (recycled : Option Ptr) (status : BlockStatus) :
    (b.makeNode params header prev recycled status).Main := by
  refine hm.frame rfl rfl rfl rfl (Grows.refl _) fun {h x p} hp => ⟨lookupNode_makeNode_old hnew hp.node, ?_⟩
  rw [makeNode_mem_ne (hs.index.newPtr_fresh recycled hp.node)]

theorem Main.putStatus (hm : b.Main) (p : Ptr) (status : BlockStatus) :
    Main { b with bi := (b.bi.putStatus p status).markDirty p } := by
  refine hm.frame rfl rfl rfl rfl (Grows.refl _) fun {h x q} hq => ⟨hq.node, ?_⟩
  exact BlockNode.height_of_ident (putStatus_ident b.bi p q status)

theorem Main.setChainTip (hs : b.Sound params) (hm : b.Main) {p : Ptr} (hh : h + 1 = b.chain.length)
    (hp : b.bi.bestChain.nodeByHeight h = some p) : b.setChainTip (some p) = b := by
  have hheight := (hm.chainAt_of_view hs hp).2.height
  have htop := hm.top
  unfold BlockChain.setChainTip
  rw [ChainView.setTip_cut, take_of_length_le (by omega)]
  rw [ChainView.contains, hheight]
  exact hp

theorem Main.rolledBack (hm : b.Main) (hh : h + 1 = b.chain.length) (oldHeaderTip : Int) (totalTxns : UInt64) (p : Ptr) :
    (b.rolledBack h oldHeaderTip totalTxns p).Main := by
  have hindex : ∀ k, (b.rolledBack h oldHeaderTip totalTxns p).db.heightIndex k =
      if h < k ∧ k ≤ oldHeaderTip then none else b.db.heightIndex k := fun k => rfl
  refine hm.frame rfl rfl rfl rfl ⟨?_, ?_, id, fun _ hr => hr⟩ fun hp => ⟨hp.node, rfl⟩
  · intro hn k x hk
    rw [hindex] at hk
    split at hk
    · cases hk
    · exact hn hk
  · intro k x hx hk
    rw [hindex, if_neg]
    · exact hk
    · have := chainAt_lt hx.self
      omega

theorem Main.removed (hs : b.Sound params) (hm : b.Main) {hash : Hash} {p : Ptr} (hnot : hash ∉ b.chain) :
    (b.removed hash p).Main := by
  have hne : ∀ {h x}, b.chainAt h = some x → x ≠ hash := by
    rintro h x hx rfl
    exact hnot (mem_of_getElem? (chainAt_eq_some.1 hx).2)
  obtain ⟨hmem, -, -, hview, -, hwin⟩ := removeNode_frame b.bi hash
  refine hm.frame hwin hview rfl rfl ⟨id, fun _ hk => hk, id, ?_⟩ ?_
  · intro h x hx hrow
    change (b.db.blockIndex.write ⟨((b.bi.mem p).height, hash), none⟩ (h, x)).isSome
    rw [Store.write_apply, if_neg]
    · exact hrow
    · exact fun hk => hne hx (congrArg Prod.snd hk)
  · intro h x q hq
    have hx := (hm.chainAt_of_view hs hq.view).1
    rw [hs.index.hash hq.node] at hx
    refine ⟨?_, ?_⟩
    · change (b.bi.removeNode hash).lookupNode x = some q
      rw [lookupNode_removeNode, if_neg (hne hx), hq.node]
    · change ((b.bi.removeNode hash).mem q).height = _
      rw [hmem]

/-! ## Every step -/

theorem Main.move (hs : b.Sound params) (hm : b.Main) {a : ChainStep} (hok : b.KeepsMain a)
    (h : Move params checkpoints b a b') : b'.Main := by
  cases h with
  | headerKnown => exact hm
  | headerOld => exact hm.headerMoved (headerMoved_extendHeader b _).countHeader
  | headerNew hprev hnew => exact (hm.makeNode hs hnew _ _ _).headerMoved (headerMoved_extendHeader _ _).countHeader
  | blockOld hprev hp => exact (hm.putStatus _ _).warmed (hs.index.mark hp _) (warmed_relink _ _ _)
  | blockNew hprev hnew => exact hm.makeNode hs hnew _ _ _
  | template =>
    refine hm.frame rfl rfl rfl rfl (Grows.refl _) fun hp => ⟨hp.node, ?_⟩
    rw [newBlockNode_mem_ne (hs.index.newPtr_fresh _ hp.node)]
  | flush => exact hm.flushToDB hs hok
  | connect hp htip hparent => exact hm.connected hs hp htip hparent hok.1 (hok.2 rfl _ hp)
  | connectLost => exact hm.finishFlush hs hok.1 false
  | headerTip => exact hm.headerMoved (headerMoved_followBestChain b)
  | disconnect htip =>
    obtain ⟨-, hsync, hprev, hparent⟩ := hok
    exact hm.disconnected hs htip (hparent _ htip) hprev hsync
  | disconnectFailed => exact absurd hok.1 (by simp)
  | setStatus | unsetStatus => exact hm.putStatus _ _
  | commit n ok =>
    obtain ⟨rfl, hbatch⟩ := hok
    exact hm.commit hbatch
  | lookup => exact hm.warmed hs.index (warmed_materializeColdNode b _)
  | repair => exact hm.warmed hs.index (warmed_repairFrom _ _ b)
  | checkpoint => exact hm.warmed hs.index (warmed_checkpoint checkpoints b)
  | rebuildHeader => exact hm.frame rfl rfl rfl rfl (Grows.refl _) fun hp => ⟨hp.node, rfl⟩
  | rollback hp =>
    rw [hm.setChainTip hs hok hp]
    exact hm.rolledBack hok _ _ _
  | rollbackFailed hp =>
    rw [hm.setChainTip hs hok hp]
    exact hm
  | remove => exact hm.removed hs hok

theorem create_main (params : ChainParams) (header : BlockHeader) (totalTxns : UInt64) {windowSize : Int}
    (hw : 0 < windowSize) : (create params header totalTxns windowSize).Main := by
  have hview : (create params header totalTxns windowSize).bi.bestChain = ⟨[some 0], 0⟩ := rfl
  have hchain : (create params header totalTxns windowSize).chain = [params.blockHash header] := rfl
  have hat : ∀ {h x}, (create params header totalTxns windowSize).chainAt h = some x →
      h = 0 ∧ x = params.blockHash header := by
    intro h x hx
    obtain ⟨hpos, hx⟩ := chainAt_eq_some.1 hx
    rw [hchain, getElem?_singleton, ite_none_right_eq_some] at hx
    exact ⟨by omega, (Option.some.inj hx.2).symm⟩
  constructor
  · exact hw
  · rw [hview, hchain, length_singleton]
    decide
  · rfl
  · intro h x _ hx
    obtain ⟨rfl, rfl⟩ := hat hx
    exact ⟨0, rfl, AList.lookup_insert _, rfl⟩
  · exact Int.zero_le_ofNat 1
  · intro h x hx
    obtain ⟨rfl, ⟨⟩⟩ | ⟨-, ⟨⟩⟩ := Store.of_write hx
    rfl
  · intro h x hx _
    obtain ⟨rfl, rfl⟩ := hat hx
    refine ⟨rfl, ?_, ?_⟩
    · change (emptyDb.hashIndex.write ⟨params.blockHash header, some 0⟩ (params.blockHash header)).isSome
      rw [Store.write_apply, if_pos rfl]
      rfl
    · change (emptyDb.blockIndex.write ⟨(0, params.blockHash header), _⟩ (0, params.blockHash header)).isSome
      rw [Store.write_apply, if_pos rfl]
      rfl
  · intro i item hi
    cases hi

/-! ## The queries -/

/-- In every state that a run from the start reaches by steps that all keep the queries right, the connected blocks are
those up to the height of the view, and both queries answer from them alone. -/
theorem main_chain_queries {header : BlockHeader} (hprev : header.prevBlock = zeroHash)
    (hz : params.blockHash header ≠ zeroHash)
    {totalTxns : UInt64} {windowSize : Int} (hw : 0 < windowSize) {as : List ChainStep}
    (hok : Along (step params checkpoints) (fun b a => b.NoCollision params a ∧ b.KeepsMain a)
      (create params header totalTxns windowSize) as)
    (hrun : run (step params checkpoints) (create params header totalTxns windowSize) as = some b') :
    (∀ h, (b'.chainAt h).isSome ↔ 0 ≤ h ∧ h ≤ b'.bi.bestChain.height) ∧
      (∀ h, b'.blockHashByHeight h = b'.chainAt h) ∧
      ∀ x h, b'.blockHeightByHash x = some h ↔ b'.chainAt h = some x := by
  obtain ⟨hs, hm⟩ := (create_sound hprev hz totalTxns windowSize).run_keeps (create_main params header totalTxns hw)
    (fun hs hm _ hkeep h => hm.move hs hkeep h) hok hrun
  have htop := hm.top
  have hbase := hm.base
  have hheight : b'.bi.bestChain.height = b'.chain.length - 1 := by
    rw [ChainView.height, if_neg, htop]
    intro hnil
    rw [hnil, length_nil] at htop
    omega
  refine ⟨fun h => ?_, hm.blockHashByHeight_eq hs, hm.blockHeightByHash_iff hs⟩
  rw [isSome_iff_exists]
  constructor
  · rintro ⟨x, hx⟩
    have := chainAt_lt hx
    omega
  · rintro ⟨hpos, hle⟩
    exact exists_chainAt hpos (by omega)

theorem main_chain_queries_connected : ∃ b', run (step nonceParams []) (create nonceParams (headerOn 0 0) 1 10)
      [.block (headerOn 1 1) none, .flush false true, .connect 2 plainItem true, .commit 1 true,
        .header (headerOn 2 2) none] = some b' ∧ b'.chain = [1, 2] ∧ b'.headerState = some (3, 2) ∧
    (∀ h, b'.blockHashByHeight h = b'.chainAt h) ∧ ∀ x h, b'.blockHeightByHash x = some h ↔
      b'.chainAt h = some x := by
  refine exists_run rfl fun b' hrun => ⟨by cases hrun; rfl, by cases hrun; rfl, ?_⟩
  refine (main_chain_queries rfl (by decide) (by decide) ?_ hrun).2
  refine ⟨⟨⟨by decide, nofun⟩, trivial⟩, fun t ht => ?_⟩
  cases ht
  refine ⟨⟨trivial, fun _ => ⟨?_, Nat.zero_le _⟩⟩, fun t ht => ?_⟩
  · intro p hp hin
    obtain rfl := mem_singleton.1 hp
    exact absurd hin (by decide)
  cases ht
  refine ⟨⟨trivial, Nat.zero_le _, fun _ p hp => ?_⟩, fun t ht => ?_⟩
  · obtain rfl : 1 = p := Option.some.inj hp
    exact ⟨fun t ht => ht, .inr rfl, nofun, by decide⟩
  cases ht
  refine ⟨⟨trivial, rfl, rfl⟩, fun t ht => ?_⟩
  cases ht
  exact ⟨⟨⟨by decide, nofun⟩, trivial⟩, fun _ _ => trivial⟩

/-- `ProcessBlockHeader` of one header, and a flush. -/
theorem header_taken_for_main_chain : ∃ b', run (step nonceParams []) (create nonceParams (headerOn 0 0) 1 10)
      [.header (headerOn 1 1) none, .flush false true] = some b' ∧ b'.chain = [1] ∧ b'.bi.bestChain.height = 0 ∧
    b'.blockHashByHeight 1 = some 2 ∧ b'.blockHeightByHash 2 = some 1 :=
  ⟨_, rfl, rfl, rfl, rfl, rfl⟩

end IniNode.BlockChain
