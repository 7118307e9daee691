import IniNode.Sugar.Chain
/-!
# Connecting and disconnecting a block

`disconnectBlock` after `connectBlock`, table by table. The deltas and the spent index come back. The unspent
outputs do not when the block spends an output of its own: the undo walks the block forwards, so it deletes the output
and then restores it. The timestamp and the txid table are not undone at all.
-/

open IniNode.Lib List Option

namespace IniNode.Sugar

open Entry
variable {height : Int} {l : OutputLedger} {e : Entry} {es : List Entry} {s : Index} {below : Chain} {block : Block}
  {stxos : List SpentTxOut}

/-! ## Deltas and the spent index -/

theorem undo_eq (e : Entry) :
    (e.undo height).addressIndex = (e.add height).addressIndex.map (⟨·.key, none⟩) ∧
      (e.undo height).spentIndex = (e.add height).spentIndex.map (⟨·.key, none⟩) := by
  cases e with
  | spent txIn stxo txHash txIdx inIdx =>
    simp only [undo, undoSpent, add, addSpent]
    split <;> exact ⟨rfl, rfl⟩
  | received txHash txOut txIdx vIdx =>
    simp only [undo, undoReceived, add, addReceived]
    split <;> exact ⟨rfl, rfl⟩

theorem deltas_restored (ha : Agrees s below) :
    (s.addressIndex.writeAll (es.flatMap fun e => (e.add below.length).addressIndex)).writeAll
      (es.flatMap fun e => (e.undo below.length).addressIndex) = s.addressIndex := by
  simp only [undo_eq, ← map_flatMap]
  refine Store.writeAll_erase (by simp) (by rintro _ hw; obtain ⟨w, -, rfl⟩ := List.mem_map.1 hw; rfl) fun w hw => ?_
  -- a delta of this block has its height, and the index has no delta as high
  obtain ⟨e, -, he⟩ := mem_flatMap.1 hw
  refine not_isSome_iff_eq_none.1 fun hsome => ?_
  have := ha.deltas w.key hsome
  rw [height_of_mem_add he] at this
  omega

theorem spents_restored (ha : Agrees s below) (hfits : Fits below.length (ledgerOf below) es) :
    (s.spentIndex.writeAll (es.flatMap fun e => (e.add below.length).spentIndex)).writeAll
      (es.flatMap fun e => (e.undo below.length).spentIndex) = s.spentIndex := by
  simp only [undo_eq, ← map_flatMap]
  refine Store.writeAll_erase (by simp) (by rintro _ hw; obtain ⟨w, -, rfl⟩ := List.mem_map.1 hw; rfl) fun w hw => ?_
  -- an output the chain below had spent is not spent again
  refine not_isSome_iff_eq_none.1 fun hsome => ?_
  obtain ⟨hlive, ho⟩ := ha.spents w.key hsome
  have := hfits.valid.origin_none_of_mem (spend_mem_of_spentIndex hw) hlive
  rw [Event.key] at this
  rw [this] at ho
  cases ho

/-! ## Unspent outputs -/

/-- The writes of an undo to the unspent outputs. -/
def undoUnspent (height : Int) (es : List Entry) : List (Write AddressUnspentKey AddressUnspentValue) :=
  es.flatMap fun e => (e.undo height).addressUnspent

variable {t : Store AddressUnspentKey AddressUnspentValue} {k : AddressUnspentKey} {txIn : OutPoint}

theorem undoUnspent_cons : t.writeAll (undoUnspent height (e :: es)) k =
    (t.writeAll (e.undo height).addressUnspent).writeAll (undoUnspent height es) k := by
  rw [undoUnspent, flatMap_cons, Store.writeAll_append]
  rfl

theorem undoUnspent_received (h : ∀ e ∈ es, e.Touches k → e.undoValue = none) :
    t.writeAll (undoUnspent height es) k = if ∃ e ∈ es, e.Touches k then none else t k := by
  induction es generalizing t with
  | nil => simp [undoUnspent]
  | cons e es ih =>
    rw [undoUnspent_cons, ih fun e' he' => h e' (mem_cons_of_mem _ he'), writeAll_undo]
    by_cases hes : ∃ e ∈ es, e.Touches k
    · rw [if_pos hes, if_pos ⟨hes.choose, mem_cons_of_mem _ hes.choose_spec.1, hes.choose_spec.2⟩]
    · rw [if_neg hes]
      by_cases he : e.Touches k
      · rw [if_pos he, if_pos ⟨e, mem_cons_self, he⟩, h e mem_cons_self he]
      · rw [if_neg he, if_neg]
        simp only [exists_mem_cons_iff]
        exact fun h => h.elim he hes

theorem Fits.outPoint_ne_of_spent {v : AddressUnspentValue} (h : Fits height l es)
    (ho : l.origin txIn = some v) (hl : l.live txIn = none) (he : e ∈ es) : e.outPoint ≠ txIn := by
  rintro rfl
  have := h.valid.origin_none_of_mem (List.mem_map_of_mem he) (by rwa [key_event])
  rw [key_event, ho] at this
  cases this

theorem undoUnspent_spent {stxo : SpentTxOut} {txHash : Hash} {txIdx inIdx : Nat}
    (h : Fits height l es) (he : spent txIn stxo txHash txIdx inIdx ∈ es)
    (hk : (spent txIn stxo txHash txIdx inIdx).Touches k) :
    t.writeAll (undoUnspent height es) k = some (stxoValue stxo) := by
  induction es generalizing l t with
  | nil => cases he
  | cons e es ih =>
    rw [undoUnspent_cons]
    obtain rfl | he := mem_cons.1 he
    · have hne : ∀ e ∈ es, ¬ e.Touches k := by
        intro e he ht
        refine h.2.2.outPoint_ne_of_spent (l.live_origin _ _ h.2.1) ?_ he (ht.1.symm.trans hk.1)
        exact (l.step_spend_live ..).trans (if_pos rfl)
      rw [undoUnspent_received fun e he ht => absurd ht (hne e he), if_neg, writeAll_undo, if_pos hk]
      · rfl
      · exact fun ⟨e, he, ht⟩ => hne e he ht
    · exact ih h.2.2 he

def Entry.isSpent : Entry → Bool
  | .spent .. => true
  | .received .. => false

/-- One of the entries spends an output that another one creates, and the output has an address. -/
def SpendsOwn (es : List Entry) : Prop :=
  ∃ e ∈ es, ∃ e' ∈ es, e.isSpent ∧ (address e.script).isSome ∧ ¬ e'.isSpent ∧ e'.outPoint = e.outPoint
deriving Decidable

theorem Fits.live_of_received (h : Fits height l es) (he : e ∈ es) (hr : ¬ e.isSpent) : l.live e.outPoint = none := by
  cases e with
  | spent => exact absurd rfl hr
  | received txHash txOut txIdx vIdx =>
    exact Ledger.live_none_of_origin_none (h.valid.origin_none_of_create_mem (List.mem_map_of_mem he))

theorem Fits.live_of_spent {stxo : SpentTxOut} {txHash : Hash} {txIdx inIdx : Nat}
    (h : Fits height l es) (he : spent txIn stxo txHash txIdx inIdx ∈ es)
    (hr : ∀ e' ∈ es, ¬ e'.isSpent → e'.outPoint ≠ txIn) : l.live txIn = some (stxoValue stxo) := by
  induction es generalizing l with
  | nil => cases he
  | cons e es ih =>
    obtain rfl | he := mem_cons.1 he
    · exact h.2.1
    · have hlive := ih h.2.2 he fun e' he' => hr e' (mem_cons_of_mem _ he')
      cases e with
      | spent txIn' =>
        rw [event, Ledger.step_spend_live] at hlive
        split at hlive
        · cases hlive
        · exact hlive
      | received txHash' txOut txIdx' vIdx =>
        have hne : txIn ≠ ⟨txHash', vIdx⟩ := Ne.symm (hr _ mem_cons_self (by simp [isSpent]))
        rwa [event, Ledger.step_create_live, if_neg hne] at hlive

/-- The undo brings the unspent outputs back exactly if the block spends no output of its own. -/
theorem unspent_restored_iff (h : Fits height l es) :
    (unspentOf (l.run (es.map (event height)))).writeAll (undoUnspent height es) = unspentOf l ↔
      ¬ SpendsOwn es := by
  constructor
  · rintro heq ⟨e, he, e', he', hs, ha, hr, hop⟩
    cases e with
    | received => cases hs
    | spent txIn stxo txHash txIdx inIdx =>
      obtain ⟨a, ha⟩ := isSome_iff_exists.1 ha
      have hafter := undoUnspent_spent (t := unspentOf (l.run (es.map (event height)))) h he
        (k := ⟨a, txIn⟩) ⟨rfl, ha⟩
      have hlive : l.live txIn = none := by
        have := h.live_of_received he' hr
        rwa [hop] at this
      have hbefore : unspentOf l ⟨a, txIn⟩ = none := unspentOf_eq_none hlive
      rw [heq, hbefore] at hafter
      cases hafter
  · intro hown
    funext k
    by_cases hs : ∃ e ∈ es, e.isSpent ∧ e.Touches k
    · obtain ⟨e, he, hs, ht⟩ := hs
      cases e with
      | received => cases hs
      | spent txIn stxo txHash txIdx inIdx =>
        have hlive : l.live k.outPoint = some (stxoValue stxo) := by
          rw [ht.1]
          refine h.live_of_spent he fun e' he' hr hop => hown ?_
          exact ⟨_, he, e', he', rfl, by rw [ht.2]; rfl, hr, hop⟩
        rw [undoUnspent_spent h he ht, unspentOf_eq hlive]
        exact (if_pos ht.2).symm
    · rw [undoUnspent_received]
      · split
        next ht =>
          obtain ⟨e, he, ht⟩ := ht
          refine (unspentOf_eq_none ?_).symm
          rw [ht.1]
          exact h.live_of_received he fun hsp => hs ⟨e, he, hsp, ht⟩
        next ht =>
          rw [← unspentOf_run h, addUnspent_untouched fun e he hk => ht ⟨e, he, hk⟩]
      · intro e he ht
        cases e with
        | received => rfl
        | spent => exact absurd ⟨_, he, rfl, ht⟩ hs

/-! ## The whole index -/

theorem entries_eq (hes : blockEntries 0 block.transactions stxos = some es) :
    entries block stxos = if ∀ e ∈ es, ¬ tooLong e.script then some es else none := by
  rw [entries, hes, filter_some]
  simp

/-- The tip that the undo stores is the one that was there. -/
theorem tip_restored_iff (ha : Agrees s below) (hn : NextBlock below block stxos) :
    some (block.prevBlock, (below.length : Int) - 1) = s.tip ↔ below ≠ [] := by
  rw [ha.tip]
  cases below with
  | nil => simp
  | cons p below => simp [hn.links p rfl]

theorem txRows_restored_iff (hn : NextBlock below block stxos) :
    s.txIndex.writeAll (txRows below.length block) = s.txIndex ↔
      ∀ w ∈ txRows below.length block, s.txIndex w.key = w.value :=
  Store.writeAll_eq_self_iff (by rw [keys_txRows]; exact hn.distinct)

theorem timestamp_restored_iff : s.timestampIndex.write ⟨timestampKey block, some ()⟩ = s.timestampIndex ↔
      s.timestampIndex (timestampKey block) = some () :=
  Function.update_eq_self_iff.trans eq_comm

/-- A block that is connected and disconnected leaves the index as it was exactly if it is not the genesis block, the
hash of no script in it is longer than 32 bytes, it spends no output of its own that has an address, and its rows of
the timestamp and the txid table were there before. -/
theorem undo_restores_iff (ha : Agrees s below) (hn : NextBlock below block stxos)
    (hes : blockEntries 0 block.transactions stxos = some es) :
    ((s.connectBlock below.length block stxos).bind fun s' => s'.disconnectBlock below.length block stxos) = some s ↔
      below ≠ [] ∧ (∀ e ∈ es, ¬ tooLong e.script) ∧ ¬ SpendsOwn es ∧
        s.timestampIndex (timestampKey block) = some () ∧
          ∀ w ∈ txRows below.length block, s.txIndex w.key = w.value := by
  obtain ⟨es', hes', hfits⟩ := hn.journal
  obtain rfl : es = es' := mem_unique hes hes'
  have hentries := entries_eq hes
  by_cases hlong : ∀ e ∈ es, ¬ tooLong e.script
  · rw [if_pos hlong] at hentries
    have hunspent := unspent_restored_iff hfits
    rw [← unspentOf_run hfits, ← ha.unspent] at hunspent
    rw [connectBlock_eq hentries, bind_some, disconnectBlock_eq hentries, Option.some.injEq, Index.ext_iff]
    simp only [deltas_restored ha, spents_restored ha hfits, timestamp_restored_iff,
      txRows_restored_iff hn, tip_restored_iff ha hn]
    tauto
  · rw [if_neg hlong] at hentries
    have hfail : s.connectBlock below.length block stxos = none := by
      rw [Index.connectBlock, connectBlockBatch, hentries]
      rfl
    rw [hfail]
    simp only [bind_none, reduceCtorEq, false_iff]
    exact fun h => hlong h.2.1

/-! ## Two blocks -/

def payTo (b : UInt8) : List UInt8 := [0x76, 0xa9, 0x14] ++ replicate 20 b ++ [0x88, 0xac]

def genesisBlock : Block := ⟨100, ⟨1, 0, 0, 1000, 0, 0⟩, [⟨10, [], [⟨50, payTo 1⟩]⟩]⟩

/-- A block on the genesis block that spends its output. -/
def spendingBlock : Block :=
  ⟨101, ⟨1, 100, 0, 1001, 0, 0⟩, [⟨11, [], [⟨50, payTo 1⟩]⟩, ⟨12, [⟨10, 0⟩], [⟨50, payTo 2⟩]⟩]⟩

/-- The same block with a third transaction, which spends the output of the second. -/
def chainingBlock : Block :=
  { spendingBlock with transactions := spendingBlock.transactions ++ [⟨13, [⟨12, 0⟩], [⟨50, payTo 3⟩]⟩] }

theorem nextBlock_genesis : NextBlock [] genesisBlock [] where
  journal := ⟨_, rfl, by decide +kernel⟩
  distinct := by decide
  links := by simp

theorem validChain_genesis : ValidChain [(genesisBlock, [])] := ⟨nextBlock_genesis, trivial⟩

theorem nextBlock_spending : NextBlock [(genesisBlock, [])] spendingBlock [⟨50, payTo 1, 0, true⟩] where
  journal := ⟨_, rfl, by decide +kernel⟩
  distinct := by decide
  links := by
    rintro _ ⟨⟩
    rfl

theorem nextBlock_chaining :
    NextBlock [(genesisBlock, [])] chainingBlock [⟨50, payTo 1, 0, true⟩, ⟨50, payTo 2, 1, false⟩] where
  journal := ⟨_, rfl, by decide +kernel⟩
  distinct := by decide
  links := by
    rintro _ ⟨⟩
    rfl

/-- An index that has the block's timestamp and txid rows already, from a connect before, comes back. -/
theorem undo_restores_reconnected : ∃ s, Agrees s [(genesisBlock, [])] ∧
    ((s.connectBlock 1 spendingBlock [⟨50, payTo 1, 0, true⟩]).bind fun s' =>
      s'.disconnectBlock 1 spendingBlock [⟨50, payTo 1, 0, true⟩]) = some s := by
  obtain ⟨s, hs⟩ : ∃ s, indexOf [(genesisBlock, [])] = some s := ⟨_, rfl⟩
  obtain ⟨deltas, unspent, spents, tip⟩ := agrees_indexOf validChain_genesis hs
  have ha : Agrees { s with timestampIndex := fun _ => some (), txIndex := fun hash => some ⟨1, hash - 11⟩ }
      [(genesisBlock, [])] := ⟨deltas, unspent, spents, tip⟩
  refine ⟨_, ha, (undo_restores_iff ha nextBlock_spending rfl).2 ⟨by simp, ?_, ?_, rfl, ?_⟩⟩
  · decide +kernel
  · decide +kernel
  · dsimp only
    decide +kernel

/-- The index of the genesis block, after a block that spends an output of its own was connected and disconnected: it
lists that output as unspent, and has the rows of the block in the timestamp and the txid table. -/
theorem undo_leaves_rows : ∃ s s', ValidChain [(genesisBlock, [])] ∧ indexOf [(genesisBlock, [])] = some s ∧
    NextBlock [(genesisBlock, [])] chainingBlock [⟨50, payTo 1, 0, true⟩, ⟨50, payTo 2, 1, false⟩] ∧
    ((s.connectBlock 1 chainingBlock [⟨50, payTo 1, 0, true⟩, ⟨50, payTo 2, 1, false⟩]).bind fun s' =>
      s'.disconnectBlock 1 chainingBlock [⟨50, payTo 1, 0, true⟩, ⟨50, payTo 2, 1, false⟩]) = some s' ∧
    s.addressUnspent ⟨⟨.pubkeyAddress, hashIndex (replicate 20 2)⟩, ⟨12, 0⟩⟩ = none ∧
    s'.addressUnspent ⟨⟨.pubkeyAddress, hashIndex (replicate 20 2)⟩, ⟨12, 0⟩⟩ = some ⟨50, payTo 2, 1⟩ ∧
    s.timestampIndex ⟨1001, 101⟩ = none ∧ s'.timestampIndex ⟨1001, 101⟩ = some () ∧
    s.txIndex 11 = none ∧ s'.txIndex 11 = some ⟨1, 0⟩ :=
  ⟨_, _, validChain_genesis, rfl, nextBlock_chaining, rfl, by decide +kernel, by decide +kernel,
    by decide +kernel, by decide +kernel, by decide +kernel, by decide +kernel⟩

end IniNode.Sugar
