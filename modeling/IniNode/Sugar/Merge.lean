import IniNode.Lib.Outcome
import IniNode.Sugar.Follows
import IniNode.Sugar.Init
/-!
# The merge of the readers' results

While no height is skipped, the merge keeps `Built`: what is written follows a lower part of the chain, and with the
batch it is the index of the blocks below `next`. A result is taken at once or waits in the map, so when all of them
have arrived, in whatever order, every block is in the index.
-/

open IniNode.Lib Option

namespace IniNode.Sugar

variable {s s' : Index} {chain : Chain} {block : Block} {stxos : List SpentTxOut}

/-- What a reader may report when no height is skipped. -/
def Readable (unread : Nat → Option ReadError) (height : Nat) : Prop :=
  unread height = none ∨ unread height = some .other

/-- The rebuild so far: what is written follows a lower part of the chain, with the batch the index is the one of the
blocks below `next`, and nothing is left in the batch at the end. -/
structure Built (chain : Chain) (r : Rebuild) : Prop where
  next_le : r.next ≤ chain.length
  written : ∃ k, Follows r.index (lower chain k)
  batched : ∃ t, indexOf (lower chain r.next) = some t ∧ Extends (r.index.write r.batch) t
  within : Within (r.index.write r.batch) chain
  done : r.next = chain.length → r.batch = {} ∧ Follows r.index chain

/-- What taking a result does: skip the height, write the batch with the block, or keep the block in the batch. -/
inductive Taken (best : Nat) (r : Rebuild) : FetchResult → Rebuild → Prop
  | skipped (e : ReadError) (he : e ≠ .other) :
    Taken best r (.error e) { r with next := r.next + 1, pending := r.pending.write ⟨r.next, none⟩ }
  | written (block : Block) (stxos : List SpentTxOut) (b : Batch) (hb : connectBlockBatch r.next block stxos = some b) :
    Taken best r (.ok (block, stxos))
      { index := r.index.write ((r.batch.append b).storeIndexTip block.hash r.next), next := r.next + 1,
        pending := r.pending.write ⟨r.next, none⟩ }
  | kept (block : Block) (stxos : List SpentTxOut) (b : Batch) (hb : connectBlockBatch r.next block stxos = some b)
    (hbest : r.next ≠ best) :
    Taken best r (.ok (block, stxos))
      { index := r.index, batch := r.batch.append b, batched := r.batched + 1, next := r.next + 1,
        pending := r.pending.write ⟨r.next, none⟩ }

variable {best : Nat} {r r' : Rebuild} {cur : FetchResult} {e : InitError × Index}

theorem take_ok (h : r.take best cur = .ok r') : Taken best r cur r' := by
  rcases cur with (- | - | -) | ⟨block, stxos⟩
  · cases h
    exact .skipped .blockNotFound (by simp)
  · cases h
    exact .skipped .notInMainChain (by simp)
  · cases h
  · simp only [Rebuild.take] at h
    split at h
    next => cases h
    next b hb =>
      split at h
      · cases h
        exact .written block stxos b hb
      next hfull =>
        cases h
        exact .kept block stxos b hb fun hbest => hfull (.inr hbest)

theorem take_error (h : r.take best cur = .error e) : e.2 = r.index := by
  rcases cur with (- | - | -) | ⟨block, stxos⟩
  · cases h
  · cases h
  · cases h
    rfl
  · simp only [Rebuild.take] at h
    split at h
    · cases h
      rfl
    · split at h <;> cases h

theorem Taken.next_eq (h : Taken best r cur r') : r'.next = r.next + 1 := by
  cases h <;> rfl

theorem Taken.pending_eq (h : Taken best r cur r') : r'.pending = r.pending.write ⟨r.next, none⟩ := by
  cases h <;> rfl

theorem Built.batch {b : Batch} (h : Built chain r) (hlt : r.next < chain.length)
    (hat : blockAt chain r.next = some (block, stxos)) (hb : connectBlockBatch r.next block stxos = some b) :
    (∃ t, indexOf (lower chain (r.next + 1)) = some t ∧ Extends (r.index.write (r.batch.append b)) t ∧
      t.tip = some (block.hash, (r.next : Int))) ∧ Within (r.index.write (r.batch.append b)) chain := by
  obtain ⟨p, hp, hmem, hlow⟩ := lower_succ hlt
  obtain rfl : p = (block, stxos) := mem_unique hp hat
  obtain ⟨t, ht, hext⟩ := h.batched
  rw [write_append]
  refine ⟨⟨t.write (b.storeIndexTip block.hash r.next), ?_, (hext.write b).storeIndexTip, rfl⟩,
    h.within.write hmem hb⟩
  rw [hlow, indexOf, ht, bind_some, length_lower h.next_le, Index.connectBlock, hb]
  rfl

theorem fetch_ok {unread : Nat → Option ReadError} {height : Nat} {p : Block × List SpentTxOut}
    (h : fetch chain unread height = .ok p) : blockAt chain height = some p := by
  simp only [fetch] at h
  split at h
  · cases h
  next hat =>
    cases h
    exact hat
  · cases h

theorem fetch_readable {unread : Nat → Option ReadError} {height : Nat} {e : ReadError} (hlt : height < chain.length)
    (hread : Readable unread height) (h : fetch chain unread height = .error e) : e = .other := by
  obtain ⟨p, hp, -⟩ := lower_succ hlt
  obtain hr | hr := hread
  · rw [fetch, hr, hp] at h
    cases h
  · rw [fetch, hr] at h
    cases h
    rfl

theorem Built.take {unread : Nat → Option ReadError} (h : Built chain r) (hlt : r.next < chain.length)
    (hread : Readable unread r.next) (ht : Taken (chain.length - 1) r (fetch chain unread r.next) r') :
    Built chain r' := by
  generalize hf : fetch chain unread r.next = cur at ht
  cases ht with
  | skipped e he => exact absurd (fetch_readable hlt hread hf) he
  | written block stxos b hb =>
    obtain ⟨⟨t, ht, hext, htip⟩, hwithin⟩ := h.batch hlt (fetch_ok hf) hb
    have hext' : Extends (r.index.write ((r.batch.append b).storeIndexTip block.hash r.next)) t :=
      ⟨hext.addressIndex, hext.addressUnspent, hext.spentIndex, hext.timestampIndex, hext.txIndex⟩
    have hfollows : Follows (r.index.write ((r.batch.append b).storeIndexTip block.hash r.next))
        (lower chain (r.next + 1)) := ⟨t, ht, hext', htip.symm⟩
    refine ⟨hlt, ⟨_, hfollows⟩, ⟨t, ht, hext'⟩, ⟨hwithin.times, hwithin.txs⟩, fun hend => ⟨rfl, ?_⟩⟩
    rwa [← lower_self chain, ← hend]
  | kept block stxos b hb hbest =>
    obtain ⟨⟨t, ht, hext, -⟩, hwithin⟩ := h.batch hlt (fetch_ok hf) hb
    exact ⟨hlt, h.written, ⟨t, ht, hext⟩, hwithin, fun hend => absurd hend (by simp only; omega)⟩

/-- What waits in the map is what the readers found at the height. -/
def Fetched (chain : Chain) (unread : Nat → Option ReadError) (r : Rebuild) : Prop :=
  ∀ h x, r.pending h = some x → h < chain.length ∧ x = fetch chain unread h

section Merge
variable {unread : Nat → Option ReadError} {fuel : Nat}

/-- An error leaves an index that follows a lower part of the chain. -/
def Stopped (chain : Chain) (e : InitError × Index) : Prop := ∃ k, Follows e.2 (lower chain k)

theorem Built.consume (h : Built chain r) (hf : Fetched chain unread r)
    (hread : ∀ k, r.next ≤ k → k < chain.length → Readable unread k) (hfuel : chain.length ≤ fuel + r.next) :
    Outcome (fun r' => Built chain r' ∧ Fetched chain unread r' ∧ r.next ≤ r'.next ∧ r'.pending r'.next = none ∧
      ∀ k, r'.next ≤ k → r'.pending k = r.pending k) (Stopped chain) (r.consume (chain.length - 1) fuel) := by
  induction fuel generalizing r with
  | zero =>
    refine ⟨h, hf, Nat.le_refl _, ?_, fun _ _ => rfl⟩
    refine eq_none_iff_forall_ne_some.2 fun x hp => ?_
    have := (hf _ x hp).1
    omega
  | succ fuel ih =>
    rw [Rebuild.consume]
    split
    next hp => exact ⟨h, hf, Nat.le_refl _, hp, fun _ _ => rfl⟩
    next x hp =>
      obtain ⟨hlt, rfl⟩ := hf _ x hp
      cases ht : r.take (chain.length - 1) (fetch chain unread r.next) with
      | error e =>
        obtain ⟨k, hk⟩ := h.written
        exact ⟨k, (take_error ht).symm ▸ hk⟩
      | ok r1 =>
        have htaken := take_ok ht
        have hnext := htaken.next_eq
        have hpend : ∀ k, r1.pending k = if k = r.next then none else r.pending k := by
          intro k
          rw [htaken.pending_eq, Store.write_apply]
        have hf1 : Fetched chain unread r1 := by
          intro k x hk
          rw [hpend] at hk
          split at hk
          · cases hk
          · exact hf k x hk
        have hrest := ih (h.take hlt (hread _ (Nat.le_refl _) hlt) htaken) hf1 (fun k hk => hread k (by omega)) (by omega)
        refine Outcome.imp hrest fun r' ⟨hb, hf', hle, hnone, hkeep⟩ => ⟨hb, hf', by omega, hnone, fun k hk => ?_⟩
        rw [hkeep k hk, hpend, if_neg (by omega)]

/-- A result that was received is taken already or waits in the map. -/
def Arrived (chain : Chain) (unread : Nat → Option ReadError) (heights : List Nat) (r : Rebuild) : Prop :=
  ∀ h ∈ heights, h < r.next ∨ r.pending h = some (fetch chain unread h)

theorem Built.receive {start k : Nat} {done : List Nat} (hstart : start ≤ r.next) (hlt : k < chain.length)
    (hread : ∀ k, start ≤ k → k < chain.length → Readable unread k) (h : Built chain r) (hf : Fetched chain unread r)
    (ha : Arrived chain unread done r) :
    Outcome (fun r' => start ≤ r'.next ∧ Built chain r' ∧ Fetched chain unread r' ∧
        Arrived chain unread (done ++ [k]) r' ∧ r'.pending r'.next = none)
      (Stopped chain) (r.receive (chain.length - 1) (k, fetch chain unread k)) := by
  have hpend : ∀ j, r.pending.write ⟨k, some (fetch chain unread k)⟩ j =
      if j = k then some (fetch chain unread k) else r.pending j := Store.write_apply _ _
  have hf1 : Fetched chain unread { r with pending := r.pending.write ⟨k, some (fetch chain unread k)⟩ } := by
    intro j x hj
    dsimp only at hj
    rw [hpend] at hj
    split at hj
    next hjk =>
      cases hj
      exact ⟨hjk ▸ hlt, hjk ▸ rfl⟩
    next => exact hf j x hj
  have h1 : Built chain { r with pending := r.pending.write ⟨k, some (fetch chain unread k)⟩ } :=
    ⟨h.next_le, h.written, h.batched, h.within, h.done⟩
  have hrest := h1.consume hf1 (fun j hj => hread j (by simp only at hj; omega))
    (show chain.length ≤ chain.length - 1 + 1 - r.next + r.next by omega)
  refine Outcome.imp hrest fun r' ⟨hb, hf', hle, hnone, hkeep⟩ =>
    ⟨Nat.le_trans hstart hle, hb, hf', fun j hj => ?_, hnone⟩
  by_cases hnext : j < r'.next
  · exact .inl hnext
  · refine .inr ?_
    rw [hkeep j (by omega)]
    dsimp only
    rw [hpend]
    split
    next hjk => rw [hjk]
    next hjk =>
      have hj : j ∈ done := (List.mem_append.1 hj).resolve_right (by simpa using hjk)
      exact (ha j hj).resolve_left (by simp only at hle; omega)

theorem Built.rebuild {start : Nat} {order : List Nat} (h : Built chain { index := s, next := start })
    (hread : ∀ k, start ≤ k → k < chain.length → Readable unread k) (hlt : ∀ k ∈ order, k < chain.length) :
    Outcome (fun r => start ≤ r.next ∧ Built chain r ∧ Arrived chain unread order r ∧ r.pending r.next = none)
      (Stopped chain) ((order.map fun k => (k, fetch chain unread k)).foldlM (Rebuild.receive (chain.length - 1))
        { index := s, next := start }) := by
  rw [List.foldlM_map]
  have hloop := Outcome.foldlM (E := Stopped chain) (l := order) (b := ({ index := s, next := start } : Rebuild))
    (f := fun r k => r.receive (chain.length - 1) (k, fetch chain unread k))
    (I := fun done r => start ≤ r.next ∧ Built chain r ∧ Fetched chain unread r ∧ Arrived chain unread done r ∧
      r.pending r.next = none)
    ⟨Nat.le_refl _, h, fun _ _ hx => (by cases hx), fun _ hk => (by cases hk), rfl⟩ ?_
  · exact Outcome.imp hloop fun r ⟨hstart, hb, _, ha, hnone⟩ => ⟨hstart, hb, ha, hnone⟩
  · rintro done k r ⟨rest, hpre⟩ ⟨hstart, hb, hf, ha, -⟩
    exact hb.receive hstart (hlt k (by rw [← hpre]; simp)) hread hf ha

end Merge

end IniNode.Sugar
