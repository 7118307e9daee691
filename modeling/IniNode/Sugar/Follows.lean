import IniNode.Sugar.Undo
/-!
# Following a chain

The index may hold more timestamp and txid rows than the chain it was made of, from blocks that were disconnected or
wiped; `Extends` allows for them, and `Within` rules them out again. An index that follows a chain keeps doing so when a
block is connected, and when a block that spends no output of its own is disconnected.
-/

open IniNode.Lib List Option

namespace IniNode.Sugar

/-! ## More rows than a chain has -/

/-- The same index, but for the tip, with more rows in the timestamp and the txid table. -/
structure Extends (s t : Index) : Prop where
  addressIndex : s.addressIndex = t.addressIndex
  addressUnspent : s.addressUnspent = t.addressUnspent
  spentIndex : s.spentIndex = t.spentIndex
  timestampIndex : ∀ k v, t.timestampIndex k = some v → s.timestampIndex k = some v
  txIndex : ∀ h v, t.txIndex h = some v → s.txIndex h = some v

variable {s s' t t' : Index} {chain below : Chain} {block : Block} {stxos : List SpentTxOut}

theorem Extends.refl (s : Index) : Extends s s := ⟨rfl, rfl, rfl, fun _ _ h => h, fun _ _ h => h⟩

theorem Extends.write (h : Extends s t) (b : Batch) : Extends (s.write b) (t.write b) where
  addressIndex := by
    simp [Index.write, h.addressIndex]
  addressUnspent := by
    simp [Index.write, h.addressUnspent]
  spentIndex := by
    simp [Index.write, h.spentIndex]
  timestampIndex := Store.writeAll_mono h.timestampIndex _
  txIndex := Store.writeAll_mono h.txIndex _

theorem Extends.storeIndexTip {b : Batch} {hash : Hash} {height : Int} (h : Extends s (t.write b)) :
    Extends s (t.write (b.storeIndexTip hash height)) :=
  ⟨h.addressIndex, h.addressUnspent, h.spentIndex, h.timestampIndex, h.txIndex⟩

theorem write_append (s : Index) (a b : Batch) : s.write (a.append b) = (s.write a).write b := by
  simp [Index.write, Batch.append, Store.writeAll_append, Option.or_assoc]

/-- The rows of the timestamp and the txid table are all of blocks of the chain. -/
structure Within (s : Index) (chain : Chain) : Prop where
  times : ∀ k, (s.timestampIndex k).isSome → ∃ p ∈ chain, k = timestampKey p.1
  txs : ∀ h, (s.txIndex h).isSome → ∃ p ∈ chain, h ∈ p.1.transactions.map Tx.hash

theorem Within.write {b : Batch} {height : Int} (h : Within s chain) (hp : (block, stxos) ∈ chain)
    (hb : connectBlockBatch height block stxos = some b) : Within (s.write b) chain := by
  obtain ⟨es, -, rfl⟩ := map_eq_some_iff.1 hb
  constructor
  · intro k hk
    simp only [Index.write, Store.writeAll_cons, Store.writeAll_nil, Store.write_apply] at hk
    split at hk
    next heq => exact ⟨_, hp, heq⟩
    next => exact h.times k hk
  · intro hash hk
    by_cases hm : hash ∈ block.transactions.map Tx.hash
    · exact ⟨_, hp, hm⟩
    · refine h.txs hash ?_
      have heq : s.txIndex.writeAll (txRows height block) hash = s.txIndex hash :=
        Store.writeAll_untouched (by rwa [keys_txRows]) _
      rwa [← heq]

theorem indexOf_cons (h : indexOf ((block, stxos) :: below) = some s') :
    ∃ s b, indexOf below = some s ∧ connectBlockBatch below.length block stxos = some b ∧
      s' = s.write (b.storeIndexTip block.hash below.length) := by
  obtain ⟨s, hs, hs'⟩ := bind_eq_some_iff.1 h
  obtain ⟨b, hb, rfl⟩ := map_eq_some_iff.1 hs'
  exact ⟨s, b, hs, hb, rfl⟩

theorem rows_of_indexOf {p : Block × List SpentTxOut} (h : indexOf chain = some s) (hp : p ∈ chain) :
    s.timestampIndex (timestampKey p.1) = some () ∧
      ∀ hash ∈ p.1.transactions.map Tx.hash, (s.txIndex hash).isSome := by
  induction chain generalizing s with
  | nil => cases hp
  | cons q below ih =>
    obtain ⟨s0, b, hs0, hb, rfl⟩ := indexOf_cons h
    obtain ⟨es, -, rfl⟩ := map_eq_some_iff.1 hb
    have htx : ∀ hash, hash ∈ q.1.transactions.map Tx.hash ∨ (s0.txIndex hash).isSome →
        (s0.txIndex.writeAll (txRows below.length q.1) hash).isSome := by
      intro hash hor
      refine Store.isSome_writeAll (fun w hw => ?_) (by rwa [keys_txRows])
      obtain ⟨_, -, rfl⟩ := List.mem_map.1 hw
      rfl
    have htime : s0.timestampIndex.writeAll [⟨timestampKey q.1, some ()⟩] (timestampKey p.1) =
        if timestampKey p.1 = timestampKey q.1 then some () else s0.timestampIndex (timestampKey p.1) :=
      Store.write_apply ..
    refine ⟨htime.trans ?_, fun hash hm => htx hash ?_⟩
    · split
      · rfl
      next hne =>
        obtain rfl | hp := mem_cons.1 hp
        · exact absurd rfl hne
        · exact (ih hs0 hp).1
    · obtain rfl | hp := mem_cons.1 hp
      · exact .inl hm
      · exact .inr ((ih hs0 hp).2 hash hm)

/-- An index with no row from elsewhere is the index of the chain. -/
theorem Extends.eq (h : Extends s t) (ht : indexOf chain = some t) (hw : Within s chain) (htip : s.tip = t.tip) :
    s = t := by
  refine Index.ext h.addressIndex h.addressUnspent h.spentIndex ?_ ?_ htip
  · funext k
    cases hk : s.timestampIndex k with
    | none =>
      refine (eq_none_iff_forall_ne_some.2 fun v hv => ?_).symm
      cases hk.symm.trans (h.timestampIndex k v hv)
    | some v =>
      obtain ⟨p, hp, rfl⟩ := hw.times k (by rw [hk]; rfl)
      exact (rows_of_indexOf ht hp).1.symm
  · funext hash
    cases hk : s.txIndex hash with
    | none =>
      refine (eq_none_iff_forall_ne_some.2 fun v hv => ?_).symm
      cases hk.symm.trans (h.txIndex hash v hv)
    | some v =>
      obtain ⟨p, hp, hm⟩ := hw.txs hash (by rw [hk]; rfl)
      obtain ⟨v', hv'⟩ := isSome_iff_exists.1 ((rows_of_indexOf ht hp).2 hash hm)
      rw [hv', ← hk, h.txIndex hash v' hv']

theorem within_indexOf (h : indexOf chain = some s) : Within s chain := by
  induction chain generalizing s with
  | nil =>
    cases h
    exact ⟨by rintro _ ⟨⟩, by rintro _ ⟨⟩⟩
  | cons q below ih =>
    obtain ⟨s0, b, hs0, hb, rfl⟩ := indexOf_cons h
    have hbelow := ih hs0
    have hcons : Within s0 (q :: below) := by
      refine ⟨fun k hk => ?_, fun hash hk => ?_⟩
      · obtain ⟨p, hp, hkey⟩ := hbelow.times k hk
        exact ⟨p, mem_cons_of_mem _ hp, hkey⟩
      · obtain ⟨p, hp, hm⟩ := hbelow.txs hash hk
        exact ⟨p, mem_cons_of_mem _ hp, hm⟩
    have hwrite := hcons.write mem_cons_self hb
    exact ⟨hwrite.times, hwrite.txs⟩

/-! ## Blocks of a tree -/

/-- No transaction of the block is below it. -/
def NewTxs (below : Chain) (block : Block) : Prop :=
  ∀ p ∈ below, ∀ hash ∈ block.transactions.map Tx.hash, hash ∉ p.1.transactions.map Tx.hash

/-- The chain is one of a tree of blocks: a hash names one block with one journal, each block may stand on the chain
below it, and no transaction is in the chain twice. -/
def OnTree (tree : Hash → Option (Block × List SpentTxOut)) : Chain → Prop
  | [] => True
  | p :: below => tree p.1.hash = some p ∧ NextBlock below p.1 p.2 ∧ NewTxs below p.1 ∧ OnTree tree below

variable {tree : Hash → Option (Block × List SpentTxOut)}

theorem OnTree.valid (h : OnTree tree chain) : ValidChain chain := by
  induction chain with
  | nil => trivial
  | cons p below ih => exact ⟨h.2.1, ih h.2.2.2⟩

theorem OnTree.drop (h : OnTree tree chain) (n : Nat) : OnTree tree (chain.drop n) := by
  induction chain generalizing n with
  | nil =>
    rw [drop_nil]
    trivial
  | cons p below ih =>
    cases n with
    | zero => exact h
    | succ n => exact ih h.2.2.2 n

theorem OnTree.eq_of_tip {p q : Block × List SpentTxOut} {a b : Chain} (ha : OnTree tree (p :: a))
    (hb : OnTree tree (q :: b)) (hlen : a.length = b.length) (hhash : p.1.hash = q.1.hash) : p :: a = q :: b := by
  induction a generalizing p q b with
  | nil =>
    obtain rfl : b = [] := length_eq_zero_iff.1 hlen.symm
    rw [mem_unique ha.1 (hhash ▸ hb.1)]
  | cons p' a ih =>
    cases b with
    | nil => cases hlen
    | cons q' b =>
      obtain rfl : p = q := mem_unique ha.1 (hhash ▸ hb.1)
      have hlink : p'.1.hash = q'.1.hash := (ha.2.1.links p' rfl).symm.trans (hb.2.1.links q' rfl)
      rw [ih ha.2.2.2 hb.2.2.2 (Nat.succ.inj hlen) hlink]

/-- The lowest blocks of the chain. -/
def lower (chain : Chain) (height : Nat) : Chain := chain.drop (chain.length - height)

theorem lower_self (chain : Chain) : lower chain chain.length = chain := by
  rw [lower, Nat.sub_self, drop_zero]

theorem lower_zero (chain : Chain) : lower chain 0 = [] := drop_length

theorem length_lower {height : Nat} (h : height ≤ chain.length) : (lower chain height).length = height := by
  rw [lower, length_drop]
  omega

theorem lower_succ {height : Nat} (h : height < chain.length) :
    ∃ p, blockAt chain height = some p ∧ p ∈ chain ∧ lower chain (height + 1) = p :: lower chain height := by
  have hi : chain.length - 1 - height < chain.length := by omega
  refine ⟨chain[chain.length - 1 - height], ?_, getElem_mem _, ?_⟩
  · rw [blockAt, if_pos h, getElem?_eq_getElem hi]
  · rw [lower, lower, show chain.length - (height + 1) = chain.length - 1 - height by omega,
      drop_eq_getElem_cons hi, show chain.length - 1 - height + 1 = chain.length - height by omega]

/-- A chain whose tip is on another chain, at its height, is its lower part. -/
theorem OnTree.eq_lower {p q : Block × List SpentTxOut} {a : Chain} (ha : OnTree tree (p :: a))
    (hc : OnTree tree chain) (hq : blockAt chain a.length = some q) (hhash : p.1.hash = q.1.hash) :
    p :: a = lower chain (a.length + 1) := by
  have hlt : a.length < chain.length := by
    by_contra hge
    rw [blockAt, if_neg hge] at hq
    cases hq
  obtain ⟨q', hq', -, hlow⟩ := lower_succ hlt
  obtain rfl : q = q' := mem_unique hq hq'
  rw [hlow]
  refine ha.eq_of_tip (hlow ▸ hc.drop _) ?_ hhash
  rw [length_lower (Nat.le_of_lt hlt)]

/-! ## Following a chain -/

/-- The index is the one of the chain, with more timestamp and txid rows at most. -/
def Follows (s : Index) (chain : Chain) : Prop := ∃ t, indexOf chain = some t ∧ Extends s t ∧ s.tip = t.tip

theorem Follows.connect (h : Follows s below) (hs : s.connectBlock below.length block stxos = some s') :
    Follows s' ((block, stxos) :: below) := by
  obtain ⟨t, ht, hext, -⟩ := h
  obtain ⟨b, hb, rfl⟩ := map_eq_some_iff.1 hs
  refine ⟨t.write (b.storeIndexTip block.hash below.length), ?_, hext.write _, rfl⟩
  rw [indexOf, ht, bind_some, Index.connectBlock, hb]
  rfl

/-- A block that spends no output of its own can be disconnected; it leaves its timestamp and txid rows. -/
theorem Follows.disconnect {es : List Entry} (h : Follows s ((block, stxos) :: below))
    (hc : OnTree tree ((block, stxos) :: below)) (hes : blockEntries 0 block.transactions stxos = some es)
    (hown : ¬ SpendsOwn es) (hne : below ≠ [])
    (hs : s.disconnectBlock below.length block stxos = some s') : Follows s' below := by
  obtain ⟨t', ht', hext, -⟩ := h
  obtain ⟨t, ht, hconn⟩ := bind_eq_some_iff.1 ht'
  have ha := agrees_indexOf hc.2.2.2.valid ht
  have hn := hc.2.1
  obtain ⟨es', hes', hfits⟩ := hn.journal
  obtain rfl : es = es' := mem_unique hes hes'
  have hentries : entries block stxos = some es := by
    obtain ⟨es', hes'', -⟩ := map_eq_some_iff.1 hs
    rwa [hes.symm.trans (blockEntries_of_entries hes'')]
  rw [connectBlock_eq hentries, Option.some.injEq] at hconn
  rw [disconnectBlock_eq hentries, Option.some.injEq] at hs
  subst hconn hs
  refine ⟨t, ht, ⟨?_, ?_, ?_, ?_, ?_⟩, (tip_restored_iff ha hn).2 hne⟩
  · simp only [hext.addressIndex]
    exact deltas_restored ha
  · have := (unspent_restored_iff hfits).2 hown
    rw [← unspentOf_run hfits, ← ha.unspent] at this
    simp only [hext.addressUnspent]
    exact this
  · simp only [hext.spentIndex]
    exact spents_restored ha hfits
  · intro k v hk
    refine hext.timestampIndex k v ?_
    dsimp only
    rw [Store.write_apply, hk]
    exact ite_self _
  · intro hash v hk
    refine hext.txIndex hash v ?_
    -- a transaction of the chain below is not in the block
    obtain ⟨p, hp, hm⟩ := (within_indexOf ht).txs hash (by rw [hk]; rfl)
    have hnew : hash ∉ (txRows below.length block).map Write.key := by
      rw [keys_txRows]
      exact fun hmem => hc.2.2.1 p hp hash hmem hm
    exact (Store.writeAll_untouched hnew _).trans hk

end IniNode.Sugar
