import IniNode.Utxo.Cache
import IniNode.Utxo.UtxoSet
/-!
# Connecting a block to the cache

`connectTransactions` performs the events of a block on the cache, one after the other
(`connectTransactions_eq`). While the cache finds every unspent output, each event of a valid block
succeeds and the cache goes on finding every output of the ledger (`Tracks`). `takeDelta` then turns the
touched outpoints into writes, each of which stores what the ledger has under its outpoint
(`takeDelta_spec`): the writes of a block's queue item are exactly its effect on the utxo set.
-/

open IniNode.Lib List Option

namespace IniNode.UtxoCache

open Ledger
variable (sz : SizeHelper)

/-! ## A block as events -/

def applyEvent (disk : UtxoBucket) (s : UtxoCache) (stxos : Option (List SpentTxOut)) :
    UtxoEvent → Except UtxoError (UtxoCache × Option (List SpentTxOut))
  | .spend op => s.addTxIn sz disk op stxos
  | .create op c => .ok (s.addCoin sz op c, stxos)

def applyEvents (disk : UtxoBucket) : UtxoCache → Option (List SpentTxOut) → List UtxoEvent →
    Except UtxoError (UtxoCache × Option (List SpentTxOut))
  | s, stxos, [] => .ok (s, stxos)
  | s, stxos, e :: es =>
    match s.applyEvent sz disk stxos e with
    | .ok (s, stxos) => applyEvents disk s stxos es
    | .error err => .error err

variable {disk : UtxoBucket} {stxos : Option (List SpentTxOut)} (s : UtxoCache)

theorem applyEvents_append (es es' : List UtxoEvent) : s.applyEvents sz disk stxos (es ++ es') =
      match s.applyEvents sz disk stxos es with
      | .ok (s, stxos) => s.applyEvents sz disk stxos es'
      | .error err => .error err := by
  induction es generalizing s stxos with
  | nil => rfl
  | cons e es ih =>
    simp only [cons_append, applyEvents]
    cases s.applyEvent sz disk stxos e with
    | error err => rfl
    | ok r => exact ih r.1

theorem addInputs_eq (ops : List OutPoint) :
    s.addInputs sz disk ops stxos = s.applyEvents sz disk stxos (ops.map .spend) := by
  induction ops generalizing s stxos with
  | nil => rfl
  | cons op ops ih =>
    simp only [addInputs, map_cons, applyEvents, applyEvent]
    cases s.addTxIn sz disk op stxos with
    | error err => rfl
    | ok r => exact ih r.1

theorem addTxIns_eq (tx : Tx) : s.addTxIns sz disk tx stxos = s.applyEvents sz disk stxos (inputEvents tx) := by
  unfold addTxIns inputEvents
  split
  · rfl
  · exact addInputs_eq sz s tx.txIn

theorem addTxOuts_eq (tx : Tx) (height : Int) :
    s.applyEvents sz disk stxos (outputEvents height tx) = .ok (s.addTxOuts sz tx height, stxos) := by
  unfold outputEvents addTxOuts
  induction tx.outputs generalizing s with
  | nil => rfl
  | cons p ps ih =>
    rw [foldl_cons, addTxOut_eq]
    cases hu : isUnspendable p.2.pkScript with
    | true => simpa [hu] using ih s
    | false => simpa [hu, applyEvents, applyEvent, newCoin] using ih _

theorem connectTransaction_eq (tx : Tx) (height : Int) :
    s.connectTransaction sz disk tx height stxos = s.applyEvents sz disk stxos (txEvents height tx) := by
  rw [txEvents, applyEvents_append, connectTransaction, addTxIns_eq]
  cases s.applyEvents sz disk stxos (inputEvents tx) with
  | error err => rfl
  | ok r => exact (addTxOuts_eq sz r.1 tx height).symm

theorem connectTransactions_eq (block : Block) (height : Int) :
    s.connectTransactions sz disk block height stxos = s.applyEvents sz disk stxos (blockEvents height block) := by
  unfold connectTransactions blockEvents
  induction block.transactions generalizing s stxos with
  | nil => rfl
  | cons tx txs ih =>
    rw [flatMap_cons, applyEvents_append, connectTxs, connectTransaction_eq]
    cases s.applyEvents sz disk stxos (txEvents height tx) with
    | error err => rfl
    | ok r => exact ih r.1

/-! ## Finding every output -/

/-- The cache, over the database behind it, finds every live output of the ledger. -/
def Finds (disk : UtxoBucket) (l : UtxoLedger) : Prop :=
  ∀ op c, l.live op = some c → s.resolve disk op = some c

variable {s : UtxoCache} {l : UtxoLedger} {op : OutPoint} {c : Coin}

theorem applyEvent_spend (stxos : Option (List SpentTxOut)) (hf : s.Finds disk l) (hl : l.live op = some c) :
    ∃ s' e, s.applyEvent sz disk stxos (.spend op) = .ok (s', stxos.map (· ++ [c])) ∧
      e.isSpent = false ∧ e.coin = c ∧ s.lookup disk op = some e ∧
      (∀ k, s'.get k = if k = op then spentEntry e else s.get k) ∧
      (∀ k, k ∈ s'.dirtyOps ↔ if k = op then e.isFresh = false else k ∈ s.dirtyOps) ∧
      s'.deltaPoints = (if s.trackDeltas then s.deltaPoints ++ [⟨op, true, none⟩] else s.deltaPoints) ∧
      SameMeta s s' := by
  obtain ⟨e, he, hs, hc⟩ := unspent_eq_some (hf op c hl)
  obtain ⟨s', hok, hget, hdirty, hdelta, hmeta⟩ := addTxIn_spec sz stxos he
  exact ⟨s', e, by rw [applyEvent, hok, hc], hs, hc, he, hget, hdirty, hdelta, hmeta⟩

theorem resolve_of_get_none (h : s.get op = none) : s.resolve disk op = disk op := by
  rw [resolve, lookup, h, getD_none, unspent_dbFetchUtxoEntry]

theorem resolve_congr {s' : UtxoCache} (h : s'.get op = s.get op) : s'.resolve disk op = s.resolve disk op := by
  simp [resolve, lookup, h]

theorem Finds.spend {s' : UtxoCache} {e : UtxoEntry} (hf : s.Finds disk l)
    (hget : ∀ k, s'.get k = if k = op then spentEntry e else s.get k) :
    s'.Finds disk (l.step (.spend op)) := by
  intro k c hl
  rw [step_spend_live] at hl
  split at hl
  · cases hl
  next hk => rw [resolve_congr ((hget k).trans (if_neg hk))]; exact hf k c hl

theorem Finds.create {s' : UtxoCache} (hf : s.Finds disk l)
    (hget : ∀ k, s'.get k = if k = op then some (some (freshEntry c)) else s.get k) :
    s'.Finds disk (l.step (.create op c)) := by
  intro k c' hl
  rw [step_create_live] at hl
  split at hl
  next hk =>
    cases hl
    simp [resolve, lookup, hget, hk, unspent, freshEntry, UtxoEntry.coin]
  next hk => rw [resolve_congr ((hget k).trans (if_neg hk))]; exact hf k c' hl

/-! ## Touched outpoints -/

/-- What is recorded of an event: the outpoint, with a tombstone if it is spent. -/
def touchedPoint : UtxoEvent → UtxoDelta
  | .spend op => ⟨op, true, none⟩
  | .create op _ => ⟨op, false, none⟩

theorem touchedPoint_op (e : UtxoEvent) : (touchedPoint e).op = e.key := by
  cases e <;> rfl

/-- What is known of an outpoint the block has touched. A put point's entry is gone or still fresh; an
outpoint with a tombstone is spent. -/
structure PointOk (s : UtxoCache) (l : UtxoLedger) (d : UtxoDelta) : Prop where
  created : (l.origin d.op).isSome
  put : d.tombstone = false → (s.get d.op = none ∧ l.live d.op = none) ∨
    ∃ e, s.get d.op = some (some e) ∧ e.isFresh = true ∧ e.isSpent = false ∧ l.live d.op = some e.coin
  tomb : d.tombstone = true → l.live d.op = none

theorem PointOk.congr {s' : UtxoCache} {l' : UtxoLedger} {d : UtxoDelta} (h : PointOk s l d)
    (hget : s'.get d.op = s.get d.op) (hl : l'.live d.op = l.live d.op) (ho : l'.origin d.op = l.origin d.op) :
    PointOk s' l' d :=
  ⟨by rw [ho]; exact h.created, by rw [hget, hl]; exact h.put, by rw [hl]; exact h.tomb⟩

/-- A relation between an outpoint's live coin, its origin and its cached entry that events keep: it
holds of a spent entry whose output is spent, and of the entry of a new output. -/
structure Kept (R : Option Coin → Option Coin → Option UtxoEntry → Prop) : Prop where
  spent : ∀ o e, e.isSpent = true → e.isModified = true → R none o (some e)
  fresh : ∀ c, R (some c) (some c) (some (freshEntry c))

/-- The cache tracks the ledger while a block is being connected: it finds every output, its entries
stand in the relation to the ledger, and, where `P` asks for it, the touched outpoints are recorded. -/
structure Tracks (R : Option Coin → Option Coin → Option UtxoEntry → Prop) (P : Prop) (disk : UtxoBucket)
    (s : UtxoCache) (l : UtxoLedger) : Prop where
  finds : s.Finds disk l
  cached : ∀ op x, s.get op = some x → R (l.live op) (l.origin op) x
  points : P → ∀ d ∈ s.deltaPoints, PointOk s l d

variable {R : Option Coin → Option Coin → Option UtxoEntry → Prop} {P : Prop}

theorem Tracks.step (stxos : Option (List SpentTxOut)) (hR : Kept R) (ht : Tracks R P disk s l) (e : UtxoEvent)
    (ha : l.Allows e) : ∃ s', s.applyEvent sz disk stxos e = .ok (s', stxos.map (· ++ l.spentValues [e])) ∧
      Tracks R P disk s' (l.step e) ∧
      (s.trackDeltas = true → s'.deltaPoints = s.deltaPoints ++ [touchedPoint e]) ∧
      (∀ k, k ≠ e.key → s'.get k = s.get k) ∧ SameMeta s s' := by
  cases e with
  | spend op =>
    obtain ⟨c, hc⟩ := isSome_iff_exists.1 ha
    obtain ⟨s', e, hok, hs, -, he, hget, -, hdelta, hmeta⟩ := applyEvent_spend sz stxos ht.finds hc
    refine ⟨s', by rw [hok]; simp [spentValues, hc], ⟨ht.finds.spend hget, ?_, ?_⟩,
      fun htrack => by rw [hdelta, if_pos htrack]; rfl, fun k hk => (hget k).trans (if_neg hk), hmeta⟩
    · intro k x hx
      rw [hget] at hx
      split at hx
      next hk =>
        subst hk
        rw [step_spend_live, if_pos rfl]
        unfold spentEntry at hx
        split at hx
        · cases hx
        · cases hx; exact hR.spent _ _ (UtxoEntry.spend_isSpent e) (UtxoEntry.spend_isModified (by simp [hs]))
      next hk =>
        rw [step_spend_live, if_neg hk]
        exact ht.cached k x hx
    · intro hP
      have hold : ∀ d ∈ s.deltaPoints, PointOk s' (l.step (.spend op)) d := by
        intro d hd
        by_cases hk : d.op = op
        · subst hk
          refine ⟨(ht.points hP d hd).created, fun hp => .inl ⟨?_, by simp⟩, by simp⟩
          -- a put point that is spent was still fresh, so it has left the cache
          rcases (ht.points hP d hd).put hp with ⟨-, hn⟩ | ⟨e', he', hfr, -⟩
          · cases hn.symm.trans hc
          · rw [lookup, he', getD_some, Option.some.injEq] at he
            rw [hget, if_pos rfl, ← he, spentEntry, if_pos hfr]
        · exact (ht.points hP d hd).congr ((hget _).trans (if_neg hk)) (step_live_ne hk) rfl
      intro d hd
      rw [hdelta] at hd
      split at hd
      · refine forall_mem_append.2 ⟨hold, forall_mem_singleton.2 ?_⟩ d hd
        exact ⟨by rw [step_spend_origin, l.live_origin _ c hc]; rfl, by simp, by simp⟩
      · exact hold d hd
  | create op c =>
    obtain ⟨hget, -, hdelta, hmeta⟩ := addCoin_spec sz s op c
    refine ⟨_, by simp [applyEvent, spentValues], ⟨ht.finds.create hget, ?_, ?_⟩,
      fun htrack => by rw [hdelta, if_pos htrack]; rfl, fun k hk => (hget k).trans (if_neg hk), hmeta⟩
    · intro k x hx
      rw [hget] at hx
      split at hx
      next hk =>
        subst hk; cases hx
        simpa using hR.fresh c
      next hk =>
        rw [step_create_live, step_create_origin, if_neg hk, if_neg hk]
        exact ht.cached k x hx
    · intro hP
      have hold : ∀ d ∈ s.deltaPoints, PointOk (s.addCoin sz op c) (l.step (.create op c)) d := by
        intro d hd
        -- a touched outpoint has been created already
        have hk : d.op ≠ op := by
          rintro rfl
          exact absurd (ht.points hP d hd).created (by rw [show l.origin d.op = none from ha]; simp)
        exact (ht.points hP d hd).congr ((hget _).trans (if_neg hk)) (step_live_ne hk) (step_origin_ne hk)
      intro d hd
      rw [hdelta] at hd
      split at hd
      · refine forall_mem_append.2 ⟨hold, forall_mem_singleton.2 ⟨by simp, fun _ => .inr ?_, by simp⟩⟩ d hd
        exact ⟨_, (hget op).trans (if_pos rfl), rfl, rfl, by simp [freshEntry, UtxoEntry.coin]⟩
      · exact hold d hd

/-- Every event of a valid block succeeds; the spent outputs are collected in order, and every
outpoint the block touches is recorded. -/
theorem Tracks.run (stxos : Option (List SpentTxOut)) (hR : Kept R) (ht : Tracks R P disk s l) (es : List UtxoEvent)
    (hv : l.Valid es) : ∃ s', s.applyEvents sz disk stxos es = .ok (s', stxos.map (· ++ l.spentValues es)) ∧
      Tracks R P disk s' (l.run es) ∧
      (s.trackDeltas = true → s'.deltaPoints = s.deltaPoints ++ es.map touchedPoint) ∧
      (∀ k, k ∉ es.map Event.key → s'.get k = s.get k) ∧ SameMeta s s' := by
  induction es generalizing s l stxos with
  | nil => exact ⟨s, by simp [applyEvents, spentValues], ht, by simp, by simp, .refl s⟩
  | cons e es ih =>
    obtain ⟨s1, hok1, ht1, hpts1, hframe1, hmeta1⟩ := ht.step sz stxos hR e hv.1
    obtain ⟨s2, hok2, ht2, hpts2, hframe2, hmeta2⟩ := ih _ ht1 hv.2
    refine ⟨s2, ?_, ht2, fun htrack => ?_, fun k hk => ?_, hmeta1.trans hmeta2⟩
    · rw [applyEvents, hok1]
      refine hok2.trans ?_
      cases e <;> cases stxos <;> simp [spentValues]
    · rw [hpts2 (hmeta1.trackDeltas.trans htrack), hpts1 htrack]
      simp
    · simp only [map_cons, mem_cons, not_or] at hk
      rw [hframe2 k hk.2, hframe1 k hk.1]

/-! ## Dirty outpoints -/

/-- What a flush would write is right: a dirty outpoint's entry is modified and stands for what the ledger
has, and every other row is right already. -/
structure Dirty (disk : UtxoBucket) (s : UtxoCache) (l : UtxoLedger) : Prop where
  dirty : ∀ op ∈ s.dirtyOps, ∃ e, s.get op = some (some e) ∧ e.isModified = true ∧ unspent (some e) = l.live op
  clean : ∀ op, op ∉ s.dirtyOps → disk op = l.live op

/-- A fresh entry is marked modified and has no row. -/
def FreshUnwritten (disk : UtxoBucket) (s : UtxoCache) : Prop :=
  ∀ op e, s.get op = some (some e) → e.isFresh = true → e.isModified = true ∧ disk op = none

section Dirty
variable {s' : UtxoCache} {stxos' : Option (List SpentTxOut)} (hdisk : ∀ op c, disk op = some c → (l.origin op).isSome)
include hdisk

theorem Dirty.step (hf : s.Finds disk l) (hd : Dirty disk s l) (hfresh : FreshUnwritten disk s) (e : UtxoEvent)
    (ha : l.Allows e) (hok : s.applyEvent sz disk stxos e = .ok (s', stxos')) :
    Dirty disk s' (l.step e) ∧ FreshUnwritten disk s' := by
  cases e with
  | spend op =>
    obtain ⟨c, hc⟩ := isSome_iff_exists.1 ha
    obtain ⟨s'', e, hok', hs, -, he, hget, hdirty, -⟩ := applyEvent_spend sz stxos hf hc
    cases hok.symm.trans hok'
    refine ⟨⟨fun k hk => ?_, fun k hk => ?_⟩, fun k x hx hxf => ?_⟩
    · rw [hdirty] at hk
      rw [hget]
      by_cases hkop : k = op
      · rw [if_pos hkop] at hk ⊢
        subst hkop
        refine ⟨e.spend, by simp [spentEntry, hk], UtxoEntry.spend_isModified (by simp [hs]), ?_⟩
        simp [unspent]
      · rw [if_neg hkop] at hk ⊢
        rw [step_spend_live, if_neg hkop]
        exact hd.dirty k hk
    · rw [hdirty] at hk
      rw [step_spend_live]
      by_cases hkop : k = op
      · rw [if_pos hkop] at hk ⊢
        subst hkop
        -- the entry was fresh, so it came from the cache and its output was never written
        have hef : e.isFresh = true := by simpa using hk
        unfold lookup at he
        cases hx : s.get k with
        | none =>
          rw [hx] at he
          obtain ⟨c', -, rfl⟩ := map_eq_some_iff.1 he
          cases hef
        | some x =>
          rw [hx, getD_some] at he
          exact (hfresh k e (by rw [hx, he]) hef).2
      · rw [if_neg hkop] at hk ⊢
        exact hd.clean k hk
    · rw [hget] at hx
      split at hx
      · unfold spentEntry at hx
        split at hx
        · cases hx
        next hnf => cases hx; simp [hnf] at hxf
      · exact hfresh k x hx hxf
  | create op c =>
    obtain ⟨hget, hdirty, -⟩ := addCoin_spec sz s op c
    cases hok
    refine ⟨⟨fun k hk => ?_, fun k hk => ?_⟩, fun k x hx hxf => ?_⟩
    · rw [hget, step_create_live]
      by_cases hkop : k = op
      · rw [if_pos hkop, if_pos hkop]
        exact ⟨_, rfl, rfl, rfl⟩
      · rw [if_neg hkop, if_neg hkop]
        exact hd.dirty k (((hdirty k).1 hk).resolve_left hkop)
    · have hk' := not_or.1 (mt (hdirty k).2 hk)
      rw [step_create_live, if_neg hk'.1]
      exact hd.clean k hk'.2
    · rw [hget] at hx
      split at hx
      next hkop =>
        cases hx
        refine ⟨rfl, ?_⟩
        cases hrow : disk k with
        | none => rfl
        | some c' =>
          have := hdisk k c' hrow
          rw [hkop, show l.origin op = none from ha] at this
          cases this
      next => exact hfresh k x hx hxf

theorem Dirty.run (hR : Kept R) (ht : Tracks R P disk s l) (hd : Dirty disk s l) (hfresh : FreshUnwritten disk s)
    (es : List UtxoEvent) (hv : l.Valid es) (hok : s.applyEvents sz disk stxos es = .ok (s', stxos')) :
    Dirty disk s' (l.run es) ∧ FreshUnwritten disk s' := by
  induction es generalizing s l stxos with
  | nil => cases hok; exact ⟨hd, hfresh⟩
  | cons e es ih =>
    obtain ⟨s1, hok1, ht1, -⟩ := ht.step sz stxos hR e hv.1
    obtain ⟨hd1, hfresh1⟩ := hd.step sz hdisk ht.finds hfresh e hv.1 hok1
    rw [applyEvents, hok1] at hok
    refine ih (fun op c h => ?_) ht1 hd1 hfresh1 hv.2 hok
    obtain ⟨c', hc'⟩ := isSome_iff_exists.1 (hdisk op c h)
    have hstable : (l.run [e]).origin op = some c' := Ledger.Valid.origin_stable ⟨hv.1, trivial⟩ hc'
    exact isSome_iff_exists.2 ⟨c', hstable⟩

end Dirty

/-! ## The writes of a block -/

/-- The delta stores what the ledger has under its outpoint. -/
structure DeltaOk (l : UtxoLedger) (d : UtxoDelta) : Prop where
  value : d.toWrite.value = l.live d.op
  unspent : ∀ e, d.entry = some e → e.isSpent = false

section TakeDelta
variable {s0 : UtxoCache}

/-- The caches `takeDelta` passes through: only entries of spent outputs are dropped. -/
structure Dropped (l : UtxoLedger) (s0 s : UtxoCache) : Prop where
  get : ∀ k, s.get k = s0.get k ∨ (s.get k = none ∧ l.live k = none)
  sameMeta : SameMeta s0 s

theorem takePoint_spec (ds : List UtxoDelta) (hd : Dropped l s0 s) {d : UtxoDelta} (hok : PointOk s0 l d) :
    ∃ s' d', takePoint (s, ds) d = (s', ds ++ [d']) ∧ d'.op = d.op ∧ DeltaOk l d' ∧ Dropped l s0 s' := by
  have hunspent : ∀ e : UtxoEntry, (none : Option UtxoEntry) = some e → e.isSpent = false := by simp
  cases ht : d.tombstone with
  | true =>
    have hdead := hok.tomb ht
    simp only [takePoint, ht]
    cases hg : s.get d.op with
    | none => exact ⟨s, _, rfl, rfl, ⟨by simpa [UtxoDelta.toWrite] using hdead.symm, hunspent⟩, hd⟩
    | some x =>
      refine ⟨s.uncacheEntry d.op x, _, rfl, rfl, ⟨by simpa [UtxoDelta.toWrite] using hdead.symm, hunspent⟩,
        fun k => ?_, hd.sameMeta.1, hd.sameMeta.2, hd.sameMeta.3, hd.sameMeta.4⟩
      rw [get_uncacheEntry]
      split
      next hk => exact .inr ⟨rfl, hk ▸ hdead⟩
      next => exact hd.get k
  | false =>
    -- a put point's entry is gone, or it is the output's own fresh entry
    have hcases : (s.get d.op = none ∧ l.live d.op = none) ∨
        ∃ e, s.get d.op = some (some e) ∧ e.isSpent = false ∧ l.live d.op = some e.coin := by
      rcases hd.get d.op with heq | hgone
      · rw [heq]
        rcases hok.put ht with h | ⟨e, he, -, hs, hl⟩
        · exact .inl h
        · exact .inr ⟨e, he, hs, hl⟩
      · exact .inl hgone
    rcases hcases with ⟨hg, hdead⟩ | ⟨e, hg, hs, hl⟩
    · simp only [takePoint, ht, hg]
      exact ⟨s, _, rfl, rfl, ⟨by simpa [UtxoDelta.toWrite] using hdead.symm, hunspent⟩, hd⟩
    · simp only [takePoint, ht, hg]
      refine ⟨s, _, rfl, rfl, ⟨by simp [UtxoDelta.toWrite, hl], ?_⟩, hd⟩
      rintro _ ⟨⟩
      exact hs

theorem foldl_takePoint (ds : List UtxoDelta) (hd : Dropped l s0 s) (points : List UtxoDelta)
    (hok : ∀ d ∈ points, PointOk s0 l d) :
    ∃ s' ds', points.foldl takePoint (s, ds) = (s', ds ++ ds') ∧ ds'.map UtxoDelta.op = points.map UtxoDelta.op ∧
      (∀ d ∈ ds', DeltaOk l d) ∧ Dropped l s0 s' := by
  induction points generalizing s ds with
  | nil => exact ⟨s, [], by simp, rfl, by simp, hd⟩
  | cons d points ih =>
    obtain ⟨s1, d1, h1, hop1, hok1, hd1⟩ := takePoint_spec ds hd (hok d mem_cons_self)
    obtain ⟨s2, ds2, h2, hop2, hok2, hd2⟩ :=
      ih (ds ++ [d1]) hd1 fun d' hd' => hok d' (mem_cons_of_mem _ hd')
    refine ⟨s2, d1 :: ds2, ?_, by simp [hop1, hop2], ?_, hd2⟩
    · rw [foldl_cons, h1, h2, append_assoc, singleton_append]
    · intro d' hd'
      rcases mem_cons.1 hd' with rfl | hd'
      · exact hok1
      · exact hok2 d' hd'

theorem takeDelta_eq (htrack : s.trackDeltas = true) : s.takeDelta = ((s.deltaPoints.foldl takePoint (s, [])).2,
      { (s.deltaPoints.foldl takePoint (s, [])).1 with deltaPoints := [], dirtyOps := [] }) := by
  unfold takeDelta
  rw [if_neg (by simp [htrack])]
  by_cases h : s.deltaPoints = []
  · rw [if_pos h, h, foldl_nil]
  · rw [if_neg h]

/-- `takeDelta` after a block: one delta for every touched outpoint, storing what the ledger now has
there. The cache drops entries of spent outputs only, and a touched outpoint it no longer holds is
spent. -/
theorem takeDelta_spec (ht : Tracks R True disk s l) (htrack : s.trackDeltas = true) :
    ∃ ds s', s.takeDelta = (ds, s') ∧ ds.map UtxoDelta.op = s.deltaPoints.map UtxoDelta.op ∧
      (∀ d ∈ ds, DeltaOk l d) ∧ Tracks R True disk s' l ∧
      (∀ k ∈ ds.map UtxoDelta.op, s'.get k = none → l.live k = none) ∧
      (∀ k, s'.get k = s.get k ∨ l.live k = none) ∧ s'.deltaPoints = [] ∧ s'.dirtyOps = [] ∧ SameMeta s s' := by
  obtain ⟨s1, ds, hfold, hops, hok, hd⟩ :=
    foldl_takePoint [] ⟨fun _ => .inl rfl, .refl s⟩ s.deltaPoints (ht.points trivial)
  rw [takeDelta_eq htrack, hfold]
  refine ⟨ds, _, rfl, hops, hok, ⟨?_, ?_, by simp⟩, ?_, fun k => (hd.get k).imp id And.right, rfl, rfl,
    hd.sameMeta.1, hd.sameMeta.2, hd.sameMeta.3, hd.sameMeta.4⟩
  · intro k c hl
    have heq : s1.get k = s.get k := (hd.get k).resolve_right fun h => absurd (hl.symm.trans h.2) (by simp)
    exact (resolve_congr heq).trans (ht.finds k c hl)
  · intro k x hx
    rcases hd.get k with heq | ⟨hnone, -⟩
    · exact ht.cached k x (heq.symm.trans hx)
    · cases hnone.symm.trans hx
  · intro k hk hnone
    rw [hops] at hk
    obtain ⟨d, hdm, rfl⟩ := List.mem_map.1 hk
    rcases hd.get d.op with heq | ⟨-, hdead⟩
    · have hp := ht.points trivial d hdm
      cases htomb : d.tombstone with
      | true => exact hp.tomb htomb
      | false =>
        rcases hp.put htomb with ⟨-, h⟩ | ⟨e, he, -⟩
        · exact h
        · cases (heq.trans he).symm.trans hnone
    · exact hdead

end TakeDelta

end IniNode.UtxoCache
