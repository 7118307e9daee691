import IniNode.Chain.ReadYourWrites
/-!
# Purging the utxo set above a height

`PurgeUtxosAboveHeight` drops every output created above the tip from the cache and from the database. What is left of a
utxo set that belongs to a longer chain are its outputs of the shorter one. Outputs that the further blocks have spent
do not come back, so the result is the utxo set of the shorter chain exactly when these blocks spend none of its outputs.
-/

open IniNode.Lib List Option

namespace IniNode

/-! ## The cache -/

variable (height : Int)

/-- An unspent entry above the height. -/
def isStale : Option UtxoEntry → Bool
  | none => false
  | some e => !e.isSpent && height < e.blockHeight

/-- What the loop over the cache has dropped, and the map it is in. -/
structure Purge where
  map : EntryMap
  totalEntryMemory : UInt64
  dirtyOps : List OutPoint
  seen : List OutPoint
  purged : Nat

/-- The loop at an entry. -/
def purgeEntry (acc : Purge) (p : (_ : OutPoint) × Option UtxoEntry) : Purge :=
  if isStale height p.2 then
    { map := acc.map.erase p.1
      totalEntryMemory := acc.totalEntryMemory - memoryUsage p.2
      dirtyOps := acc.dirtyOps.filter (· ≠ p.1)
      seen := p.1 :: acc.seen
      purged := acc.purged + 1 }
  else acc

/-- The loop over a map. -/
def purgeMap (acc : Purge) (m : EntryMap) : Purge :=
  m.entries.foldl (purgeEntry height) { acc with map := m }

/-- The loop over the maps of the slice. -/
def purgeMaps (height : Int) : Purge → List EntryMap → Purge × List EntryMap
  | acc, [] => (acc, [])
  | acc, m :: ms =>
    let acc := purgeMap height acc m
    let r := purgeMaps height acc ms
    (r.1, acc.map :: r.2)

section Maps

variable (height : Int) (acc : Purge) (k : OutPoint) {m : EntryMap} {ms : List EntryMap}

theorem lookup_purgeMap : (purgeMap height acc m).map.lookup k = (m.lookup k).filter fun x => !isStale height x := by
  have h := foldl_keyed (fun (acc : Purge) k => acc.map.lookup k) (purgeEntry height)
    (fun _ x seen => if isStale height x = true then none else seen)
    (by
      intro acc p k
      unfold purgeEntry
      by_cases hk : k = p.1 <;> by_cases hs : isStale height p.2 = true <;> simp [hk, hs, lookup_erase_eq])
    m { acc with map := m } k
  refine Eq.trans h ?_
  cases m.lookup k with
  | none => rfl
  | some x => cases hs : isStale height x <;> simp [hs, filter_some]

theorem mem_of_mem_purgeMap (h : k ∈ (purgeMap height acc m).map) : k ∈ m := by
  by_contra hk
  have hlookup := lookup_purgeMap height acc k (m := m)
  rw [AList.lookup_eq_none.2 hk] at hlookup
  exact AList.lookup_eq_none.1 hlookup h

theorem thinned_purgeMaps : Thinned ms (purgeMaps height acc ms).2 := by
  induction ms generalizing acc with
  | nil => exact .nil
  | cons m ms ih => exact .cons (fun x hx => mem_of_mem_purgeMap _ _ _ hx) (ih _)

theorem lookupMaps_purgeMaps (hd : ms.Pairwise fun m m' => ∀ op ∈ m, op ∉ m') :
    lookupMaps k (purgeMaps height acc ms).2 = (lookupMaps k ms).filter fun x => !isStale height x := by
  induction ms generalizing acc with
  | nil => rfl
  | cons m ms ih =>
    obtain ⟨hd, hd'⟩ := pairwise_cons.1 hd
    rw [purgeMaps, lookupMaps_cons, lookupMaps_cons, ih _ hd', lookup_purgeMap]
    cases hm : m.lookup k with
    | none => simp
    | some x =>
      -- an outpoint is in one map only
      have hnone : lookupMaps k ms = none :=
        lookupMaps_eq_none.2 fun m' hm' => hd m' hm' k (AList.lookup_isSome.1 (by simp [hm]))
      simp [hnone]

end Maps

namespace UtxoCache

/-- The cache without the entries above a height, with the outpoints that were dropped and their number. -/
def purge (s : UtxoCache) (height : Int) : UtxoCache × List OutPoint × Nat :=
  let r := purgeMaps height ⟨∅, s.totalEntryMemory, s.dirtyOps, [], 0⟩ s.cachedEntries.maps
  ({ s with
      cachedEntries :=
        { s.cachedEntries with
          maps := r.2
          sized := (thinned_purgeMaps ..).length_eq.symm.trans s.cachedEntries.sized
          nonempty := (thinned_purgeMaps ..).ne_nil s.cachedEntries.nonempty
          disjoint := (thinned_purgeMaps ..).pairwise s.cachedEntries.disjoint }
      totalEntryMemory := r.1.totalEntryMemory
      dirtyOps := r.1.dirtyOps },
    r.1.seen, r.1.purged)

theorem get_purge (s : UtxoCache) (height : Int) (k : OutPoint) :
    (s.purge height).1.get k = (s.get k).filter fun x => !isStale height x :=
  lookupMaps_purgeMaps height _ k s.cachedEntries.disjoint

end UtxoCache

/-! ## The database -/

variable (seen : List OutPoint) (acc : UtxoBucket × Nat)

/-- One turn of the cursor: a row that is too high is deleted, and counted unless the cache has counted it. -/
def purgeRow (op : OutPoint) : UtxoBucket × Nat :=
  match acc.1 op with
  | none => acc
  | some c =>
    if height < c.blockHeight then (dbDeleteUtxoEntry acc.1 op, if op ∈ seen then acc.2 else acc.2 + 1) else acc

theorem purgeRow_apply (op k : OutPoint) : (purgeRow height seen acc op).1 k =
      if k = op then (acc.1 k).filter fun c => decide (c.blockHeight ≤ height) else acc.1 k := by
  unfold purgeRow
  split
  next hrow => grind
  next c hrow =>
    split
    next hlt =>
      have hdel : dbDeleteUtxoEntry acc.1 op k = if k = op then none else acc.1 k := Store.write_apply _ _ _
      grind
    next hle => grind

/-- The cursor deletes the rows it visits that are too high. -/
theorem purgeRows_apply (cursor : List OutPoint) (acc : UtxoBucket × Nat) (k : OutPoint) :
    (cursor.foldl (purgeRow height seen) acc).1 k =
      if k ∈ cursor then (acc.1 k).filter fun c => decide (c.blockHeight ≤ height) else acc.1 k := by
  induction cursor generalizing acc with
  | nil => simp
  | cons op cursor ih =>
    rw [foldl_cons, ih, purgeRow_apply]
    by_cases hk : k = op <;> by_cases hmem : k ∈ cursor <;> simp [hk]

/-- `PurgeUtxosAboveHeight`, with the outpoints the cursor visits and whether the transaction is committed: the cache, the
rows, the number of outputs and whether there was no error. -/
def purgeUtxosAboveHeight (s : UtxoCache) (disk : UtxoBucket) (cursor : List OutPoint) (commits : Bool) (height : Int) :
    UtxoCache × UtxoBucket × Nat × Bool :=
  let c := s.purge height
  let r := cursor.foldl (purgeRow height c.2.1) (disk, c.2.2)
  (c.1, if commits then r.1 else disk, r.2, commits)

/-! ## What is left -/

/-- The cache and the rows hold the utxo set of a chain, and no row is of another chain. -/
structure Stores (chain : List Block) (s : UtxoCache) (disk : UtxoBucket) : Prop where
  resolves : ∀ op, s.resolve disk op = utxoSet chain op
  rows : ∀ op c, disk op = some c → (ledger chain).origin op = some c

variable {chain more : List Block} {s : UtxoCache} {disk : UtxoBucket} {cursor : List OutPoint} {height : Int} {c : Coin}

theorem unspent_of_isStale {x : Option UtxoEntry} (h : isStale height x = true) :
    ∃ c, unspent x = some c ∧ height < c.blockHeight := by
  cases x with
  | none => cases h
  | some e =>
    obtain ⟨hs, hlt⟩ := by simpa [isStale] using h
    exact ⟨e.coin, by simp [unspent, hs], hlt⟩

theorem blockHeight_le_of_not_isStale {x : Option UtxoEntry} (h : isStale height x = false)
    (hc : unspent x = some c) : c.blockHeight ≤ height := by
  cases x with
  | none => cases hc
  | some e =>
    rw [unspent] at hc
    split at hc
    · cases hc
    · next hs =>
      obtain rfl := some_inj.1 hc
      simpa [isStale, hs, UtxoEntry.coin] using h

theorem Stores.resolve_purge (h : Stores chain s disk) (hcursor : ∀ op c, disk op = some c → op ∈ cursor)
    (op : OutPoint) :
    (purgeUtxosAboveHeight s disk cursor true height).1.resolve (purgeUtxosAboveHeight s disk cursor true height).2.1 op =
      (utxoSet chain op).filter fun c => decide (c.blockHeight ≤ height) := by
  have hrow : (purgeUtxosAboveHeight s disk cursor true height).2.1 op =
      (disk op).filter fun c => decide (c.blockHeight ≤ height) := by
    refine (purgeRows_apply height _ cursor _ op).trans ?_
    split
    · rfl
    · next hmem =>
      cases hd : disk op with
      | none => exact hd
      | some c => exact absurd (hcursor op c hd) hmem
  have hget : (purgeUtxosAboveHeight s disk cursor true height).1.get op = (s.get op).filter fun x => !isStale height x :=
    s.get_purge height op
  rw [← h.resolves op]
  cases hx : s.get op with
  | none =>
    rw [hx] at hget
    rw [UtxoCache.resolve_of_get_none hget, UtxoCache.resolve_of_get_none hx, hrow]
  | some x =>
    have hbefore : s.resolve disk op = unspent x := by rw [UtxoCache.resolve, UtxoCache.lookup, hx, getD_some]
    rw [hx] at hget
    cases hs : isStale height x with
    | true =>
      -- the row below the entry, if there is one, is of the same output
      obtain ⟨c, hc, hlt⟩ := unspent_of_isStale hs
      have hlive : (ledger chain).live op = some c := (h.resolves op).symm.trans (hbefore.trans hc)
      rw [UtxoCache.resolve_of_get_none (by rw [hget]; simp [hs]), hrow, hbefore, hc]
      cases hd : disk op with
      | none => simp [filter_some, Int.not_le.2 hlt]
      | some c' =>
        have heq : c' = c := some_inj.1 ((h.rows op c' hd).symm.trans ((ledger chain).live_origin op c hlive))
        simp [heq]
    | false =>
      have hafter : (purgeUtxosAboveHeight s disk cursor true height).1.resolve
          (purgeUtxosAboveHeight s disk cursor true height).2.1 op = unspent x := by
        rw [UtxoCache.resolve, UtxoCache.lookup, hget]
        simp [hs, filter_some]
      rw [hafter, hbefore]
      cases hc : unspent x with
      | none => rfl
      | some c => simp [filter_some, blockHeight_le_of_not_isStale hs hc]

/-! ## The further blocks -/

/-- What the further blocks spend and create. -/
def laterEvents : List Block → List Block → List UtxoEvent
  | _, [] => []
  | chain, b :: more => blockEvents (nextHeight chain) b ++ laterEvents (chain ++ [b]) more

theorem ledger_append (chain more : List Block) : ledger (chain ++ more) = (ledger chain).run (laterEvents chain more) := by
  induction more generalizing chain with
  | nil => rw [append_nil]; rfl
  | cons b more ih => rw [append_cons, ih, ledger_concat, laterEvents, Ledger.run_append]

variable {genesis : Hash}

theorem valid_laterEvents (h : ValidChain genesis (chain ++ more)) : (ledger chain).Valid (laterEvents chain more) := by
  induction more generalizing chain with
  | nil => trivial
  | cons b more ih =>
    rw [append_cons] at h
    rw [laterEvents, Ledger.valid_append, ← ledger_concat]
    exact ⟨(h.of_isPrefix (prefix_append _ _)).last.events, ih h⟩

variable {op : OutPoint}

theorem length_lt_of_create (h : .create op c ∈ laterEvents chain more) :
    (chain.length : Int) < c.blockHeight := by
  induction more generalizing chain with
  | nil => cases h
  | cons b more ih =>
    rcases mem_append.1 h with h | h
    · rw [blockHeight_of_create h, nextHeight]
      omega
    · have := ih h
      rw [length_append] at this
      omega

theorem blockHeight_le_length (h : (ledger chain).origin op = some c) :
    c.blockHeight ≤ chain.length := by
  induction chain using reverseRecOn with
  | nil => simp [Ledger.empty] at h
  | append_singleton chain b ih =>
    rw [length_append, length_singleton]
    rw [ledger_concat] at h
    rcases Ledger.origin_run_cases h with h | h
    · have := ih h
      omega
    · rw [blockHeight_of_create h, nextHeight]
      omega

theorem spend_mem_blockEvents {height : Int} {b : Block} :
    .spend op ∈ blockEvents height b ↔ ∃ tx ∈ b.transactions, isCoinBase tx = false ∧ op ∈ tx.txIn := by
  rw [blockEvents, mem_flatMap]
  refine exists_congr fun tx => and_congr_right fun _ => ?_
  have hout : .spend op ∉ outputEvents height tx := by
    intro hmem
    obtain ⟨p, -, hp⟩ := mem_filterMap.1 hmem
    split at hp <;> cases hp
  rw [txEvents, mem_append, or_iff_left hout, inputEvents]
  cases isCoinBase tx <;> simp

theorem spend_mem_laterEvents :
    .spend op ∈ laterEvents chain more ↔ ∃ b ∈ more, ∃ tx ∈ b.transactions, isCoinBase tx = false ∧
    op ∈ tx.txIn := by
  induction more generalizing chain with
  | nil => simp [laterEvents]
  | cons b more ih => simp [laterEvents, ih, spend_mem_blockEvents]

/-- The further blocks spend no output of the chain. -/
def SpendsOwn (chain more : List Block) : Prop :=
  ∀ b ∈ more, ∀ tx ∈ b.transactions, isCoinBase tx = false → ∀ op ∈ tx.txIn, utxoSet chain op = none
deriving Decidable

/-- Filtering the longer chain's outputs by height gives the shorter chain's, up to what was spent since. -/
theorem filter_utxoSet_iff (hv : ValidChain genesis (chain ++ more)) :
    (∀ op, ((utxoSet (chain ++ more) op).filter fun c : Coin =>
      decide (c.blockHeight ≤ chain.length)) = utxoSet chain op) ↔ SpendsOwn chain more := by
  have hes := valid_laterEvents hv
  unfold utxoSet
  rw [ledger_append]
  constructor
  · intro h b hb tx htx hcb op hop
    have hspent := hes.live_of_spend_mem (spend_mem_laterEvents.2 ⟨b, hb, tx, htx, hcb, hop⟩)
    rw [utxoSet, ← h op, hspent]
    rfl
  · intro h op
    by_cases hs : .spend op ∈ laterEvents chain more
    · obtain ⟨b, hb, tx, htx, hcb, hop⟩ := spend_mem_laterEvents.1 hs
      rw [hes.live_of_spend_mem hs]
      exact (h b hb tx htx hcb op hop).symm
    · by_cases hc : ∃ c, .create op c ∈ laterEvents chain more
      · obtain ⟨c, hc⟩ := hc
        have hlt := length_lt_of_create hc
        rw [hes.live_of_create_mem hc hs, Ledger.live_none_of_origin_none (hes.origin_none_of_create_mem hc)]
        simp [hlt]
      · have huntouched : op ∉ (laterEvents chain more).map Event.key := by
          intro hmem
          obtain ⟨e, he, rfl⟩ := List.mem_map.1 hmem
          cases e with
          | spend k => exact hs he
          | create k c => exact hc ⟨c, he⟩
        rw [Ledger.run_live_untouched huntouched]
        cases hl : (ledger chain).live op with
        | none => rfl
        | some c => simp [blockHeight_le_length ((ledger chain).live_origin op c hl)]

/-- Where the cache and the rows hold the utxo set of the chain with further blocks, purging above the chain's tip leaves
the utxo set of the chain exactly if the further blocks spend none of its outputs. -/
theorem purge_restores_iff (hv : ValidChain genesis (chain ++ more))
    (h : Stores (chain ++ more) s disk) (hcursor : ∀ op c, disk op = some c → op ∈ cursor) :
    (∀ op, (purgeUtxosAboveHeight s disk cursor true chain.length).1.resolve
        (purgeUtxosAboveHeight s disk cursor true chain.length).2.1 op = utxoSet chain op) ↔ SpendsOwn chain more := by
  rw [← filter_utxoSet_iff hv]
  exact forall_congr' fun op => by rw [h.resolve_purge hcursor op]

section Example

open AsyncChain

theorem stores_new (sz : SizeHelper) (maxTotalMemoryUsage : UInt64) (chain : List Block) :
    Stores chain (.new sz maxTotalMemoryUsage) (utxoSet chain) :=
  ⟨fun _ => UtxoCache.resolve_of_get_none rfl, (ledger chain).live_origin⟩

theorem validChain_secondBlock : ValidChain 10 ([firstBlock] ++ [secondBlock]) := validChain_firstBlock.concat (by decide)

theorem validChain_spendingBlock : ValidChain 10 ([firstBlock] ++ [spendingBlock]) :=
  validChain_firstBlock.concat (by decide)

/-- What a block that spends nothing leaves behind is removed. -/
theorem purge_restores_iff_secondBlock : SpendsOwn [firstBlock] [secondBlock] ∧
    ∀ op, (purgeUtxosAboveHeight (.new roomySizes 1000000) (utxoSet ([firstBlock] ++ [secondBlock]))
        [⟨101, 0⟩, ⟨102, 0⟩] true 1).1.resolve (purgeUtxosAboveHeight (.new roomySizes 1000000)
        (utxoSet ([firstBlock] ++ [secondBlock])) [⟨101, 0⟩, ⟨102, 0⟩] true 1).2.1 op = utxoSet [firstBlock] op := by
  have hrows : ∀ op c, utxoSet ([firstBlock] ++ [secondBlock]) op = some c →
      op ∈ [⟨101, 0⟩, (⟨102, 0⟩ : OutPoint)] := by
    intro op c h
    have hevents : laterEvents [] ([firstBlock] ++ [secondBlock]) =
        [.create ⟨101, 0⟩ ⟨50, [], 1, true⟩, .create ⟨102, 0⟩ ⟨50, [], 2, true⟩] := by decide
    have horigin := (ledger _).live_origin op c h
    rw [← nil_append ([firstBlock] ++ [secondBlock]), ledger_append] at horigin
    rcases Ledger.origin_run_cases horigin with hnone | hcreated
    · cases hnone
    · grind
  exact ⟨by decide, (purge_restores_iff validChain_secondBlock (stores_new _ _ _) hrows).2 (by decide)⟩

/-- The second block spends the first one's output. After the purge that output is missing. -/
theorem purge_loses_spent : ValidChain 10 ([firstBlock] ++ [spendingBlock]) ∧
    Stores ([firstBlock] ++ [spendingBlock]) (.new roomySizes 1000000) (utxoSet ([firstBlock] ++ [spendingBlock])) ∧
    utxoSet [firstBlock] ⟨101, 0⟩ = some ⟨50, [], 1, true⟩ ∧
    (purgeUtxosAboveHeight (.new roomySizes 1000000) (utxoSet ([firstBlock] ++ [spendingBlock]))
        [⟨102, 0⟩, ⟨103, 0⟩] true 1).1.resolve (purgeUtxosAboveHeight (.new roomySizes 1000000)
        (utxoSet ([firstBlock] ++ [spendingBlock])) [⟨102, 0⟩, ⟨103, 0⟩] true 1).2.1 ⟨101, 0⟩ = none :=
  ⟨validChain_spendingBlock, stores_new _ _ _, by decide, by decide⟩

end Example

end IniNode
