import IniNode.Utxo.UtxoSet
import IniNode.Utxo.View
/-!
# Undoing a block gives back the utxo set before it

For a valid block and the spend journal its connection collected, `disconnectTransactions` leaves a view
in which everything the block created is spent, everything it only spent is restored with the coin it
was created with, and nothing else has changed (`disconnectTransactions_spec`). Writing such a view leaves
the utxo set before the block, and `commit` leaves a view that agrees with it.
-/

open IniNode.Lib List Option

namespace IniNode.UtxoViewpoint

open Ledger
variable {view view' : UtxoViewpoint} {op : OutPoint} {tx : Tx} {height : Int} {l : UtxoLedger}

/-! ## The two loops over a transaction -/

/-- The outpoint is a spendable output of the transaction. -/
def Creates (tx : Tx) (op : OutPoint) : Prop := ∃ p ∈ tx.outputs, isUnspendable p.2.pkScript = false ∧ p.1 = op

theorem creates_iff : Creates tx op ↔ ∃ c, .create op c ∈ outputEvents height tx := by
  simp only [outputEvents, mem_filterMap]
  constructor
  · rintro ⟨p, hp, hu, rfl⟩
    exact ⟨newCoin tx height p.2, p, hp, by simp [hu]⟩
  · rintro ⟨c, p, hp, h⟩
    split at h
    · cases h
    next hu => cases h; exact ⟨p, hp, by simpa using hu, rfl⟩

/-- What a view holds for an output the block created. -/
def IsUndone (x : Option (Option UtxoEntry)) : Prop :=
  ∃ e, x = some (some e) ∧ e.isSpent = true ∧ e.isModified = true

/-- Spent entries are written back. -/
def SpentModified (view : UtxoViewpoint) : Prop :=
  ∀ op e, view.lookup op = some (some e) → e.isSpent = true → e.isModified = true

theorem SpentModified.insert (op : OutPoint) {e : UtxoEntry} (h : SpentModified view)
    (he : e.isSpent = true → e.isModified = true) : SpentModified (view.insert op (some e)) := by
  intro k x hx
  rw [lookup_insert_eq] at hx
  split at hx
  · cases hx; exact he
  · exact h k x hx

theorem SpentModified.lookupEntry (h : SpentModified view) {e : UtxoEntry} (he : view.lookupEntry op = some e) :
    e.isSpent = true → e.isModified = true := by
  unfold UtxoViewpoint.lookupEntry at he
  cases hx : view.lookup op with
  | none => simp [hx] at he
  | some x =>
    simp only [hx, getD_some] at he
    exact h op e (by rw [hx, he])

/-- Every spendable output of the transaction is marked spent; the rest of the view is unchanged. -/
theorem spendOutputs_spec (view : UtxoViewpoint) (tx : Tx) (height : Int) (coinBase : Bool) (op : OutPoint) :
    (Creates tx op → ∃ e, (view.spendOutputs tx height coinBase).lookup op = some (some e) ∧ e.isSpent = true) ∧
      (¬ Creates tx op → (view.spendOutputs tx height coinBase).lookup op = view.lookup op) := by
  unfold spendOutputs Creates
  induction tx.outputs generalizing view with
  | nil => simp
  | cons p ps ih =>
    rw [foldl_cons]
    cases hu : isUnspendable p.2.pkScript with
    | true => simpa [hu] using ih view
    | false =>
      simp only [Bool.false_eq_true, if_false]
      refine ⟨?_, ?_⟩
      · rintro ⟨q, hq, hqu, rfl⟩
        by_cases hin : ∃ q' ∈ ps, isUnspendable q'.2.pkScript = false ∧ q'.1 = q.1
        · exact (ih _).1 hin
        · rcases mem_cons.1 hq with rfl | hq
          · rw [(ih _).2 hin, lookup_insert_eq, if_pos rfl]
            exact ⟨_, rfl, UtxoEntry.spend_isSpent _⟩
          · exact absurd ⟨q, hq, hqu, rfl⟩ hin
      · intro hno
        rw [(ih _).2 fun ⟨q, hq, h⟩ => hno ⟨q, mem_cons_of_mem _ hq, h⟩, lookup_insert_eq, if_neg]
        rintro rfl
        exact hno ⟨p, mem_cons_self, hu, rfl⟩

theorem SpentModified.spendOutputs (hsm : SpentModified view) (tx : Tx) (height : Int) (coinBase : Bool) :
    SpentModified (view.spendOutputs tx height coinBase) := by
  refine foldlRecOn (motive := SpentModified) tx.outputs _ hsm fun v h p _ => ?_
  split
  · exact h
  · refine h.insert p.1 fun _ => UtxoEntry.spend_isModified fun hs => ?_
    cases he : v.lookupEntry p.1 with
    | none => simp [he] at hs
    | some e =>
      rw [he] at hs
      exact h.lookupEntry he hs

theorem spendOutputs_undone (hsm : SpentModified view) (tx : Tx) (height : Int) (coinBase : Bool) (op : OutPoint) :
    (Creates tx op → IsUndone ((view.spendOutputs tx height coinBase).lookup op)) ∧
      (¬ Creates tx op → (view.spendOutputs tx height coinBase).lookup op = view.lookup op) := by
  refine (spendOutputs_spec view tx height coinBase op).imp_left fun h hc => ?_
  obtain ⟨e, he, hs⟩ := h hc
  exact ⟨e, he, hs, hsm.spendOutputs tx height coinBase op e he hs⟩

variable (fetchEntryByHash : UtxoViewpoint → Hash → Option UtxoEntry)

/-- Inputs whose journal entries agree with one function and carry a height are restored with its
values. -/
theorem restoreInputs_spec {f : OutPoint → Option Coin} {ps : List (OutPoint × SpentTxOut)} (txHash : Hash)
    (hps : ∀ p ∈ ps, f p.1 = some p.2 ∧ p.2.blockHeight ≠ 0) (view : UtxoViewpoint) :
    ∃ view', restoreInputs fetchEntryByHash txHash view ps = .ok view' ∧ (SpentModified view → SpentModified view') ∧
      ∀ op, view'.lookup op = if op ∈ ps.map Prod.fst then (f op).map fun c => some (restored c)
        else view.lookup op := by
  induction ps generalizing view with
  | nil => exact ⟨view, rfl, id, fun op => by simp⟩
  | cons p ps ih =>
    obtain ⟨hf, hheight⟩ := hps p mem_cons_self
    obtain ⟨view', hok, hsm, hlook⟩ :=
      ih (fun q hq => hps q (mem_cons_of_mem _ hq)) (view.insert p.1 (some (restored p.2)))
    refine ⟨view', ?_, fun h => hsm (h.insert p.1 (by simp [restored])), fun op => ?_⟩
    · rw [restoreInputs, if_neg hheight, hok]
    · rw [hlook]
      by_cases hin : op ∈ ps.map Prod.fst
      · simp [hin]
      · by_cases hop : op = p.1
        · subst hop
          simp [hf]
        · simp [hin, hop]

theorem undoTx_spec {f : OutPoint → Option Coin} {sv : List SpentTxOut} (hlen : sv.length = tx.txIn.length)
    (hval : ∀ p ∈ tx.txIn.zip sv, f p.1 = some p.2 ∧ p.2.blockHeight ≠ 0) (view : UtxoViewpoint) (rest : List Tx)
    (front : List SpentTxOut) :
    ∃ view', undoTxs fetchEntryByHash height view (tx :: rest) (front ++ sv) =
        undoTxs fetchEntryByHash height view' rest front ∧ (SpentModified view → SpentModified view') ∧
      ∀ op, view'.lookup op = if op ∈ tx.txIn then (f op).map fun c => some (restored c)
        else (view.spendOutputs tx height false).lookup op := by
  obtain ⟨view', hok, hsm, hin⟩ := restoreInputs_spec fetchEntryByHash tx.hash
    (fun p hp => hval p (mem_reverse.1 hp)) (view.spendOutputs tx height false)
  refine ⟨view', ?_, fun h => hsm (h.spendOutputs tx height false), fun op => ?_⟩
  · have hn : (front ++ sv).length - tx.txIn.length = front.length := by simp [hlen]
    simp only [undoTxs, hn, drop_left, take_left, hok]
  · rw [hin, map_reverse, map_fst_zip (Nat.le_of_eq hlen.symm)]
    simp

/-! ## A block -/

/-- The view after the events have been undone: what they created is spent, what they only spent is as
it was live before them, and nothing else has changed. -/
structure Undone (l : UtxoLedger) (es : List UtxoEvent) (view view' : UtxoViewpoint) : Prop where
  created : ∀ op c, .create op c ∈ es → IsUndone (view'.lookup op)
  spent : ∀ op, (∀ c, .create op c ∉ es) → .spend op ∈ es →
    view'.lookup op = (l.live op).map fun c => some (restored c)
  other : ∀ op, (∀ c, .create op c ∉ es) → .spend op ∉ es → view'.lookup op = view.lookup op

theorem create_mem_txEvents {c : Coin} (h : .create op c ∈ txEvents height tx) : Creates tx op := by
  rcases mem_append.1 h with h | h
  · unfold inputEvents at h
    split at h <;> simp at h
  · exact creates_iff.2 ⟨c, h⟩

section Inputs
variable {ins : List OutPoint} (hins : inputEvents tx = ins.map .spend)
include hins

theorem spend_mem_txEvents : .spend op ∈ txEvents height tx ↔ op ∈ ins := by
  simp only [txEvents, hins, mem_append, outputEvents, mem_filterMap, List.mem_map]
  constructor
  · rintro (⟨k, hk, h⟩ | ⟨p, -, h⟩)
    · cases h; exact hk
    · split at h <;> simp at h
  · exact fun h => .inl ⟨op, h, rfl⟩

theorem spentValues_txEvents : l.spentValues (txEvents height tx) = l.spentValues (ins.map .spend) := by
  have hout : ∀ (l : UtxoLedger) (ps : List (OutPoint × TxOut)), l.spentValues (ps.filterMap fun p =>
      if isUnspendable p.2.pkScript then none else some (.create p.1 (newCoin tx height p.2))) = [] := by
    intro l ps
    induction ps generalizing l with
    | nil => rfl
    | cons p ps ih =>
      cases hu : isUnspendable p.2.pkScript with
      | true => simpa [hu] using ih l
      | false => simpa [hu, spentValues] using ih _
  rw [txEvents, spentValues_append, hins, outputEvents, hout, append_nil]

theorem valid_inputs {es : List UtxoEvent} (hv : l.Valid (txEvents height tx ++ es)) : l.Valid (ins.map .spend) := by
  rw [txEvents, hins, append_assoc] at hv
  exact (valid_append.1 hv).1

theorem Undone.cons {view1 view2 view3 : UtxoViewpoint} {es : List UtxoEvent}
    (hv : l.Valid (txEvents height tx ++ es)) (hts : Undone (l.run (txEvents height tx)) es view view1)
    (hout : ∀ op, (Creates tx op → IsUndone (view2.lookup op)) ∧
      (¬ Creates tx op → view2.lookup op = view1.lookup op))
    (hin : ∀ op, view3.lookup op = if op ∈ ins then (l.live op).map fun c => some (restored c)
      else view2.lookup op) :
    Undone l (txEvents height tx ++ es) view view3 := by
  have hnotIn : ∀ op c, .create op c ∈ txEvents height tx ++ es → op ∉ ins := by
    -- a created output was never live before, so the transaction cannot spend it
    intro op c hc hop
    have hdead := live_none_of_origin_none (hv.origin_none_of_create_mem hc)
    obtain ⟨c', hc', -⟩ := (valid_inputs hins hv).live_of_spend_only (k := op) (by simpa using hop) (by simp)
    cases hdead.symm.trans hc'
  have hno : ∀ op, (∀ c, .create op c ∉ txEvents height tx ++ es) →
      (∀ c, .create op c ∉ es) ∧ ¬ Creates tx op := by
    intro op h
    refine ⟨fun c hc => h c (mem_append_right _ hc), fun hcr => ?_⟩
    obtain ⟨c, hc⟩ := creates_iff.1 hcr
    exact h c (mem_append_left _ (mem_append_right _ hc))
  refine ⟨fun op c hc => ?_, fun op hc hs => ?_, fun op hc hs => ?_⟩
  · rw [hin, if_neg (hnotIn op c hc)]
    by_cases hcr : Creates tx op
    · exact (hout op).1 hcr
    · rw [(hout op).2 hcr]
      exact hts.created op c ((mem_append.1 hc).resolve_left fun h => hcr (create_mem_txEvents h))
  · rw [hin]
    split
    next => rfl
    next hop =>
      have hs' : .spend op ∈ es := (mem_append.1 hs).resolve_left fun h => hop ((spend_mem_txEvents hins).1 h)
      rw [(hout op).2 (hno op hc).2, hts.spent op (hno op hc).1 hs', run_live_untouched]
      intro hk
      obtain ⟨e, he, rfl⟩ := List.mem_map.1 hk
      cases e with
      | spend k => exact hop ((spend_mem_txEvents hins).1 he)
      | create k c => exact hc c (mem_append_left _ he)
  · have hop : op ∉ ins := fun h => hs (mem_append_left _ ((spend_mem_txEvents hins).2 h))
    rw [hin, if_neg hop, (hout op).2 (hno op hc).2]
    exact hts.other op (hno op hc).1 fun h => hs (mem_append_right _ h)

end Inputs

/-- The loop over the transactions of a block, from the last one on, consumes exactly the journal entries
their events collected and undoes them. -/
theorem undoTxs_spec (txs : List Tx) (hcb : ∀ tx ∈ txs, isCoinBase tx = false)
    (hv : l.Valid (txs.flatMap (txEvents height)))
    (hheight : ∀ op c, (l.run (txs.flatMap (txEvents height))).origin op = some c → c.blockHeight ≠ 0)
    (hsm : SpentModified view) (rest : List Tx) (front : List SpentTxOut) :
    ∃ view', undoTxs fetchEntryByHash height view (txs.reverse ++ rest)
        (front ++ l.spentValues (txs.flatMap (txEvents height))) = undoTxs fetchEntryByHash height view' rest front ∧
      SpentModified view' ∧ Undone l (txs.flatMap (txEvents height)) view view' := by
  induction txs generalizing l rest front with
  | nil =>
    exact ⟨view, by simp [spentValues], hsm, by simp, by simp, fun _ _ _ => rfl⟩
  | cons tx txs ih =>
    rw [flatMap_cons] at hv hheight ⊢
    have hins := inputEvents_of_not_coinBase (hcb tx mem_cons_self)
    obtain ⟨hvtx, hvtxs⟩ := valid_append.1 hv
    rw [Ledger.run_append] at hheight
    obtain ⟨hlen, hval⟩ := (valid_inputs hins hv).spentValues_spends
    set sv := l.spentValues (tx.txIn.map .spend) with hsv
    obtain ⟨view1, hok1, hsm1, hundone1⟩ :=
      ih (fun t ht => hcb t (mem_cons_of_mem _ ht)) hvtxs hheight (tx :: rest) (front ++ sv)
    have hpairs : ∀ p ∈ tx.txIn.zip sv, l.live p.1 = some p.2 ∧ p.2.blockHeight ≠ 0 := by
      intro p hp
      have hlive := hval p hp
      exact ⟨hlive, hheight p.1 p.2 (hvtxs.origin_stable (hvtx.origin_stable (l.live_origin _ _ hlive)))⟩
    obtain ⟨view3, hok3, hsm3, hin⟩ := undoTx_spec fetchEntryByHash hlen hpairs view1 rest front
    refine ⟨view3, ?_, hsm3 hsm1, Undone.cons hins hv hundone1 (spendOutputs_undone hsm1 tx height false) hin⟩
    rw [spentValues_append, spentValues_txEvents hins, reverse_cons, append_assoc,
      singleton_append, ← append_assoc, hok1, hok3]

theorem countSpentOutputs_eq {b : Block} {cb : Tx} {txs : List Tx} (hb : b.transactions = cb :: txs)
    (hcb : ∀ tx ∈ txs, isCoinBase tx = false) (hv : l.Valid (txs.flatMap (txEvents height))) :
    (l.spentValues (txs.flatMap (txEvents height))).length = countSpentOutputs b := by
  rw [countSpentOutputs, hb, tail_cons]
  clear hb
  induction txs generalizing l with
  | nil => rfl
  | cons tx txs ih =>
    have hins := inputEvents_of_not_coinBase (hcb tx mem_cons_self)
    rw [flatMap_cons] at hv ⊢
    have hvtxs := (valid_append.1 hv).2
    rw [spentValues_append, spentValues_txEvents hins, length_append,
      (valid_inputs hins hv).spentValues_spends.1, ih (fun t ht => hcb t (mem_cons_of_mem _ ht)) hvtxs,
      map_cons, sum_cons]

section Block
variable {genesis : Hash} {chain : List Block} {b : Block}

/-- The journal of a valid block comes from its transactions but the first. -/
theorem journal_eq (hb : ValidBlock genesis chain b) {cb : Tx} {txs : List Tx} (htxs : b.transactions = cb :: txs) :
    journal chain b = ((ledger chain).run (txEvents (nextHeight chain) cb)).spentValues
      (txs.flatMap (txEvents (nextHeight chain))) := by
  have hcb := hb.coinbase
  rw [htxs] at hcb
  have hins : inputEvents cb = ([] : List OutPoint).map .spend := inputEvents_coinBase hcb.1
  rw [journal, blockEvents, htxs, flatMap_cons, spentValues_append, spentValues_txEvents hins]
  rfl

theorem journal_length (hb : ValidBlock genesis chain b) : (journal chain b).length = countSpentOutputs b := by
  obtain ⟨cb, txs, htxs, -, hncb⟩ := hb.transactions_eq
  have hv := hb.events
  rw [blockEvents, htxs] at hv
  rw [journal_eq hb htxs, countSpentOutputs_eq htxs hncb (valid_append.1 hv).2]

theorem disconnectTransactions_spec (hb : ValidBlock genesis chain b) (hsm : SpentModified view) :
    ∃ view', disconnectTransactions fetchEntryByHash view b (nextHeight chain) (journal chain b) = .ok view' ∧
      SpentModified view' ∧ Undone (ledger chain) (blockEvents (nextHeight chain) b) view view' := by
  obtain ⟨cb, txs, htxs, hcb, hncb⟩ := hb.transactions_eq
  have hins : inputEvents cb = ([] : List OutPoint).map .spend := inputEvents_coinBase hcb
  have hev : blockEvents (nextHeight chain) b =
      txEvents (nextHeight chain) cb ++ txs.flatMap (txEvents (nextHeight chain)) := by
    rw [blockEvents, htxs, flatMap_cons]
  have hv := hb.events
  rw [hev] at hv
  have hheight : ∀ op c, ((ledger chain).run (blockEvents (nextHeight chain) b)).origin op = some c →
      c.blockHeight ≠ 0 := by
    intro op c h
    rw [← ledger_concat] at h
    exact blockHeight_ne_zero h
  rw [hev, Ledger.run_append] at hheight
  obtain ⟨view1, hok, hsm1, hundone⟩ :=
    undoTxs_spec fetchEntryByHash txs hncb (valid_append.1 hv).2 hheight hsm [] []
  refine ⟨_, ?_, hsm1.spendOutputs cb (nextHeight chain) true,
    hev ▸ Undone.cons hins hv hundone (spendOutputs_undone hsm1 cb (nextHeight chain) true) fun op => by simp⟩
  rw [append_nil, nil_append, ← journal_eq hb htxs] at hok
  rw [disconnectTransactions, if_neg (by simpa using journal_length hb), htxs, tail_cons, hok]
  rfl

end Block

/-! ## Writing and committing the view -/

/-- The row of an outpoint after its entry in a view has been written. -/
def rowPut (row : Option Coin) : Option UtxoEntry → Option Coin
  | none => row
  | some e => if e.isModified then unspent (some e) else row

theorem putUtxoView_apply (view : UtxoViewpoint) (disk : UtxoBucket) (op : OutPoint) :
    view.putUtxoView disk op = ((view.lookup op).map (rowPut (disk op))).getD (disk op) := by
  have h := foldl_keyed (fun (disk : UtxoBucket) op => disk op) putRow (fun _ x row => rowPut row x)
    (by
      intro disk p op
      obtain ⟨op', x⟩ := p
      cases x with
      | none => simp [putRow, rowPut]
      | some e =>
        cases hm : e.isModified <;> cases hs : e.isSpent <;>
          simp [putRow, rowPut, unspent, hm, hs, dbDeleteUtxoEntry, dbPutUtxoEntry])
    view disk op
  exact h

/-- What `commit` keeps of an entry. -/
def committed : Option UtxoEntry → Option (Option UtxoEntry)
  | none => none
  | some e => if e.isModified && e.isSpent then none else some (some { e with isModified := !e.isModified })

theorem commit_lookup (view : UtxoViewpoint) (op : OutPoint) : view.commit.lookup op = (view.lookup op).bind committed := by
  have h := foldl_keyed (fun (v : UtxoViewpoint) op => v.lookup op) commitEntry (fun _ x _ => committed x)
    (by
      intro v p op
      obtain ⟨op', x⟩ := p
      cases x with
      | none => simp [commitEntry, committed, lookup_erase_eq]
      | some e =>
        cases hm : e.isModified && e.isSpent <;>
          simp [commitEntry, committed, hm, lookup_erase_eq, lookup_insert_eq])
    view view op
  rw [commit, h]
  cases view.lookup op <;> rfl

/-- The events leave the outpoint alone. -/
def Untouched (es : List UtxoEvent) (op : OutPoint) : Prop := (∀ c, .create op c ∉ es) ∧ .spend op ∉ es

/-- Where the events leave it alone, the view holds unspent outputs of the set only. -/
def AgreesOff (es : List UtxoEvent) (view : UtxoViewpoint) (u : UtxoBucket) : Prop :=
  ∀ op x, Untouched es op → view.lookup op = some x → ∃ e, x = some e ∧ e.isSpent = false ∧ u op = some e.coin

/-- The view holds unspent outputs of the set only, as it does between the blocks of a reorganization. -/
abbrev Agrees (view : UtxoViewpoint) (u : UtxoBucket) : Prop := AgreesOff [] view u

theorem agrees_iff {u : UtxoBucket} : Agrees view u ↔
    ∀ op x, view.lookup op = some x → ∃ e, x = some e ∧ e.isSpent = false ∧ u op = some e.coin :=
  ⟨fun h op x => h op x ⟨by simp, by simp⟩, fun h op x _ => h op x⟩

section Write
variable {es : List UtxoEvent} (hv : l.Valid es) (hu : Undone l es view view') (ha : AgreesOff es view (l.run es).live)
include hv hu ha

/-- What is under an outpoint in a view the events were undone in: the output that was live before them,
an entry for an output they created, or nothing. -/
theorem Undone.lookup_cases (op : OutPoint) : (IsUndone (view'.lookup op) ∧ l.live op = none) ∨
    (∃ e, view'.lookup op = some (some e) ∧ e.isSpent = false ∧ (Untouched es op ∨ e.isModified = true) ∧
      l.live op = some e.coin) ∨
    (view'.lookup op = none ∧ Untouched es op) := by
  obtain ⟨hcreated, hspent, hother⟩ := hv.live_before op
  by_cases hc : ∃ c, .create op c ∈ es
  · exact .inl ⟨hu.created op _ hc.choose_spec, hcreated hc⟩
  · rw [not_exists] at hc
    by_cases hs : .spend op ∈ es
    · obtain ⟨c, hlive, -⟩ := hv.live_of_spend_only hs hc
      have := hu.spent op hc hs
      rw [hlive] at this
      exact .inr (.inl ⟨restored c, this, rfl, .inr rfl, hlive⟩)
    · rw [hother hc hs, hu.other op hc hs]
      cases hx : view.lookup op with
      | none => exact .inr (.inr ⟨rfl, hc, hs⟩)
      | some x =>
        obtain ⟨e, rfl, hsp, hlive⟩ := ha op x ⟨hc, hs⟩ hx
        exact .inr (.inl ⟨e, rfl, hsp, .inl ⟨hc, hs⟩, hlive⟩)

/-- Written over rows that are right where the events leave them alone, the view leaves what was live
before the events. -/
theorem Undone.putUtxoView {disk : UtxoBucket} (hdisk : ∀ op, Untouched es op → disk op = (l.run es).live op) :
    view'.putUtxoView disk = l.live := by
  funext op
  have hrow : Untouched es op → disk op = l.live op := fun h => (hdisk op h).trans ((hv.live_before op).2.2 h.1 h.2).symm
  rw [putUtxoView_apply]
  rcases hu.lookup_cases hv ha op with ⟨⟨e, he, hs, hm⟩, hl⟩ | ⟨e, he, hs, hm, hl⟩ | ⟨hnone, huntouched⟩
  · simp [he, hl, rowPut, unspent, hs, hm]
  · rcases hm with huntouched | hm
    · rw [he, hl]
      simp only [map_some, getD_some, rowPut, unspent, hs]
      split
      · rfl
      · rw [hrow huntouched, hl]
    · simp [he, hl, rowPut, unspent, hs, hm]
  · rw [hnone, ← hrow huntouched]
    rfl

theorem Undone.commit : Agrees view'.commit l.live := by
  rw [agrees_iff]
  intro op x hx
  rw [commit_lookup] at hx
  rcases hu.lookup_cases hv ha op with ⟨⟨e, he, hs, hm⟩, hl⟩ | ⟨e, he, hs, hm, hl⟩ | ⟨hnone, -⟩
  · simp [he, committed, hs, hm] at hx
  · simp only [he, bind_some, committed, hs, Bool.and_false, Bool.false_eq_true, if_false, Option.some.injEq] at hx
    exact ⟨_, hx.symm, rfl, hl⟩
  · simp [hnone] at hx

end Write

/-! ## Loading the inputs of a block -/

theorem addTxOuts_spec (hsm : SpentModified view) (tx : Tx) (height : Int) : SpentModified (view.addTxOuts tx height) ∧
      ∀ op, ¬ Creates tx op → (view.addTxOuts tx height).lookup op = view.lookup op := by
  unfold addTxOuts Creates
  induction tx.outputs generalizing view with
  | nil => exact ⟨hsm, fun _ _ => rfl⟩
  | cons p ps ih =>
    rw [foldl_cons]
    cases hu : isUnspendable p.2.pkScript with
    | true => simpa [hu] using ih hsm
    | false =>
      simp only [Bool.false_eq_true, if_false]
      obtain ⟨hsm', hlook⟩ :=
        ih (hsm.insert p.1 (e := UtxoCache.freshEntry ⟨p.2.value, p.2.pkScript, height, isCoinBase tx⟩)
        (by simp [UtxoCache.freshEntry]))
      refine ⟨hsm', fun op hno => ?_⟩
      rw [hlook op fun ⟨q, hq, h⟩ => hno ⟨q, mem_cons_of_mem _ hq, h⟩, lookup_insert_eq, if_neg]
      rintro rfl
      exact hno ⟨p, mem_cons_self, hu, rfl⟩

theorem mem_of_inFlight {b : Block} {hash : Hash} {i : Nat} (h : inFlight b hash = some (i, tx)) :
    tx ∈ b.transactions := by
  obtain ⟨p, hp, heq⟩ := map_eq_some_iff.1 h
  cases heq
  have hmem := mem_of_mem_filter (mem_of_getLast? hp)
  exact fst_mem_of_mem_zipIdx hmem

/-- What the search for a block's inputs leaves: only what the block touches is added to the view, and
only outputs it spends are fetched. -/
structure Searched (es : List UtxoEvent) (view : UtxoViewpoint) (acc : UtxoViewpoint × List OutPoint) : Prop where
  spentModified : SpentModified acc.1
  untouched : ∀ op, Untouched es op → acc.1.lookup op = view.lookup op
  needed : ∀ op ∈ acc.2, .spend op ∈ es

theorem Searched.findInput {b : Block} {acc : UtxoViewpoint × List OutPoint} (h : Searched (blockEvents height b) view acc)
    (i : Nat) (hop : .spend op ∈ blockEvents height b) :
    Searched (blockEvents height b) view (findInput b height i acc op) := by
  have hfetch : Searched (blockEvents height b) view (if op ∈ acc.1 then acc else (acc.1, acc.2 ++ [op])) := by
    split
    · exact h
    · exact ⟨h.1, h.2, forall_mem_append.2 ⟨h.needed, forall_mem_singleton.2 hop⟩⟩
  obtain ⟨v, needed⟩ := acc
  simp only [UtxoViewpoint.findInput]
  split
  next j originTx hj =>
    split
    · obtain ⟨hsm, hlook⟩ := addTxOuts_spec h.1 originTx height
      refine ⟨hsm, fun k hk => (hlook k fun hcr => ?_).trans (h.untouched k hk), h.needed⟩
      obtain ⟨c, hc⟩ := creates_iff.1 hcr
      exact hk.1 c (mem_flatMap.2 ⟨originTx, mem_of_inFlight hj, mem_append_right _ hc⟩)
    · exact hfetch
  next => exact hfetch

theorem findInputsToFetch_spec {b : Block} (hcb : ∀ tx ∈ b.transactions.tail, isCoinBase tx = false)
    (hsm : SpentModified view) (height : Int) :
    Searched (blockEvents height b) view (view.findInputsToFetch b height) := by
  have htx : ∀ (i : Nat) (ops : List OutPoint) acc, (∀ op ∈ ops, .spend op ∈ blockEvents height b) →
      Searched (blockEvents height b) view acc →
      Searched (blockEvents height b) view (ops.foldl (UtxoViewpoint.findInput b height i) acc) := by
    intro i ops
    induction ops with
    | nil => exact fun _ _ h => h
    | cons op ops ih =>
      intro acc hops h
      exact ih _ (fun k hk => hops k (mem_cons_of_mem _ hk)) (h.findInput i (hops op mem_cons_self))
  have hins : ∀ tx ∈ b.transactions.tail, ∀ op ∈ tx.txIn, .spend op ∈ blockEvents height b := by
    intro tx htx op hop
    exact mem_flatMap.2 ⟨tx, mem_of_mem_tail htx,
      (spend_mem_txEvents (inputEvents_of_not_coinBase (hcb tx htx))).2 hop⟩
  have hall : ∀ (ps : List (Tx × Nat)) acc, (∀ p ∈ ps, p.1 ∈ b.transactions.tail) →
      Searched (blockEvents height b) view acc →
      Searched (blockEvents height b) view
        (ps.foldl (fun acc p => p.1.txIn.foldl (UtxoViewpoint.findInput b height p.2) acc) acc) := by
    intro ps
    induction ps with
    | nil => exact fun _ _ h => h
    | cons p ps ih =>
      intro acc hps h
      exact ih _ (fun q hq => hps q (mem_cons_of_mem _ hq))
        (htx p.2 p.1.txIn acc (hins p.1 (hps p mem_cons_self)) h)
  exact hall _ _ (fun p hp => fst_mem_of_mem_zipIdx hp) ⟨hsm, fun _ _ => rfl, by simp⟩

theorem foldl_insert_spec (f : OutPoint → Option UtxoEntry) (ops : List OutPoint) (view : UtxoViewpoint) (op : OutPoint) :
    (((ops.zip (ops.map f)).foldl (fun v p => v.insert p.1 p.2) view).lookup op) =
      if op ∈ ops then some (f op) else view.lookup op := by
  induction ops generalizing view with
  | nil => rfl
  | cons k ops ih =>
    rw [map_cons, zip_cons_cons, foldl_cons, ih, lookup_insert_eq]
    by_cases hin : op ∈ ops <;> by_cases hk : op = k <;> simp [hk]

/-- Loading the inputs of a block changes the view only where the block touches it, and looks up only
outputs the block spends. -/
theorem fetchInputUtxos_spec (sz : SizeHelper) (cache : UtxoCache) (disk : UtxoBucket) {b : Block}
    (hcb : ∀ tx ∈ b.transactions.tail, isCoinBase tx = false) (hsm : SpentModified view)
    (hcache : ∀ op e, cache.get op = some (some e) → e.isSpent = true → e.isModified = true) (height : Int) :
    ∃ view' needed, view.fetchInputUtxos sz cache disk b height = (view', (cache.fetchEntries sz disk needed).2) ∧
      (∀ op ∈ needed, .spend op ∈ blockEvents height b) ∧ SpentModified view' ∧
      ∀ op, Untouched (blockEvents height b) op → view'.lookup op = view.lookup op := by
  obtain ⟨hsm', hun, hneeded⟩ := findInputsToFetch_spec hcb hsm height
  set found := view.findInputsToFetch b height
  have hlook : ∀ op, ((found.2.zip (found.2.map (cache.lookup disk))).foldl (fun v p => v.insert p.1 p.2)
      found.1).lookup op = if op ∈ found.2 then some (cache.lookup disk op) else found.1.lookup op :=
    foldl_insert_spec _ _ _
  refine ⟨(found.2.zip (found.2.map (cache.lookup disk))).foldl (fun v p => v.insert p.1 p.2) found.1, found.2, rfl,
    hneeded, ?_, fun op hop => ?_⟩
  · intro op e he hs
    rw [hlook] at he
    split at he
    · have he := Option.some.inj he
      unfold UtxoCache.lookup at he
      cases hx : cache.get op with
      | some x => rw [hx] at he; exact hcache op e (by rw [hx]; exact congrArg some he) hs
      | none =>
        rw [hx] at he
        obtain ⟨c, -, rfl⟩ := map_eq_some_iff.1 he
        cases hs
    · exact hsm' op e he hs
  · rw [hlook, if_neg fun h => hop.2 (hneeded op h)]
    exact hun op hop

end IniNode.UtxoViewpoint
