import IniNode.Index.LoadTips
/-!
# The two ways to load the block index

The snapshot path gives the lowest node of the window the work of the whole chain, where the full scan
gives it the work up to its own height; every node above adds its own work to its parent's on both paths.
All else is the same: `snapshot_agrees_iff`, on any database that creating the chain state and connecting
blocks leaves, says that the two agree exactly when the blocks above the lowest of the window have no work.
-/

open List Option

namespace IniNode

variable {params : ChainParams} {db : Db} {chain : List NodeRow} {rows : List (Int × NodeRow)}

/-! ## What is loaded in the end -/

/-- The index after loading: a node for each height from some height on, marked valid and linked from the
lowest height of the window on. -/
structure Opened (params : ChainParams) (chain : List NodeRow) (low start : Nat) (work : Nat → Nat)
    (bi : BlockIndex) : Prop where
  lookup : ∀ hash p, bi.lookupNode hash = some p ↔ ∃ row, chain[low + p]? = some row ∧ params.rowHash row = hash
  node : ∀ (j : Nat) (row : NodeRow), chain[low + j]? = some row →
    (bi.mem j).hash = params.rowHash row ∧ (bi.mem j).height = (low + j : Nat) ∧
    (bi.mem j).status = (if start ≤ low + j then { row.status with valid := true } else row.status) ∧
    (bi.mem j).workSum = work (low + j) ∧
    (bi.mem j).parent = if j = 0 ∨ low + j = start then none else some (j - 1)
  tip : bi.bestChain.tip = some (chain.length - 1 - low)

/-- The height of the header tip that is set on nodes from some height on: the stored one, if it is among them. -/
def loadedHeaderHeight (db : Db) (low : Nat) (tipHeight : Int) : Int :=
  match db.bestHeaderState with
  | none => tipHeight
  | some (_, height) => if (low : Int) ≤ height then height else tipHeight

section SetTips
variable {low start : Nat} {work : Nat → Nat} {w : Int} {l : Loader} {state : BestChainState}

theorem LoadedBy.lookup_row (hl : LoadedBy params chain low work w (chain.length - low) l) (hs : Stored params db chain)
    {i : Nat} {row : NodeRow} (hrow : chain[i]? = some row) {p : Ptr} :
    l.bi.lookupNode (params.rowHash row) = some p ↔ low ≤ i ∧ p = i - low := by
  have hlt := (List.getElem?_eq_some_iff.1 hrow).1
  rw [hl.loaded.lookup]
  constructor
  · rintro ⟨hp, hhash⟩
    obtain ⟨r, hr, hh, -⟩ := hl.loaded.node p hp
    obtain rfl : low + p = i := hs.index_inj hr hrow (hh.symm.trans hhash)
    exact ⟨Nat.le_add_right _ _, (Nat.add_sub_cancel_left ..).symm⟩
  · rintro ⟨hlow, rfl⟩
    have hp : i - low < chain.length - low := by omega
    obtain ⟨r, hr, hh, -⟩ := hl.loaded.node (i - low) hp
    rw [show low + (i - low) = i by omega, hrow] at hr
    cases hr
    exact ⟨hp, hh⟩

theorem LoadedBy.setTips (hs : Stored params db chain) (hl : LoadedBy params chain low work w (chain.length - low) l)
    (hbest : db.bestState = some state) (hstart : (emptyIndex w).windowBoundary state.height = start)
    (hlow : low ≤ start) (hhigh : start < chain.length) (hzero : w ≤ 0 → start = 0)
    (hbound : (emptyIndex w).windowBoundary (loadedHeaderHeight db low state.height) ≤ low) :
    ∃ bi, IniNode.setTips db state l = some bi ∧ Opened params chain low start work bi := by
  obtain ⟨hchain, hheader, hwindow⟩ := hl.frame
  have hwb : (emptyIndex w).windowBoundary = l.bi.windowBoundary := by
    unfold BlockIndex.windowBoundary
    rw [hwindow]
    rfl
  rw [hwb] at hstart hbound
  rw [← hwindow] at hzero
  obtain ⟨tip, totalTxns, htip, hstate, -⟩ := hs.best
  obtain rfl := mem_unique hbest hstate
  rw [getLast?_eq_getElem?] at htip
  have hlookup : l.bi.lookupNode (params.rowHash tip) = some (chain.length - 1 - low) :=
    (hl.lookup_row hs htip).2 ⟨by omega, rfl⟩
  -- the header tip is a loaded node whose window starts no higher than what is loaded
  obtain ⟨ht, hht, hhead, hhb⟩ : ∃ ht, ht < chain.length - low ∧
      (db.bestHeaderState.bind fun s => l.bi.lookupNode s.1).getD (chain.length - 1 - low) = ht ∧
      l.bi.windowBoundary (low + ht : Nat) ≤ low := by
    have htop : l.bi.windowBoundary ((chain.length : Int) - 1) ≤ low → ∃ ht, ht < chain.length - low ∧
        chain.length - 1 - low = ht ∧ l.bi.windowBoundary (low + ht : Nat) ≤ low := by
      intro hb
      refine ⟨chain.length - 1 - low, by omega, rfl, ?_⟩
      rwa [show ((low + (chain.length - 1 - low) : Nat) : Int) = (chain.length : Int) - 1 by omega]
    unfold loadedHeaderHeight at hbound
    rcases hs.header with hnone | ⟨i, row, hrow, hsome⟩
    · rw [hnone] at hbound ⊢
      exact htop hbound
    · rw [hsome] at hbound ⊢
      have hilt := (List.getElem?_eq_some_iff.1 hrow).1
      by_cases hi : low ≤ i
      · rw [bind_some, (hl.lookup_row hs hrow).2 ⟨hi, rfl⟩]
        refine ⟨i - low, by omega, rfl, ?_⟩
        dsimp only at hbound
        rw [if_pos (by omega)] at hbound
        rwa [show low + (i - low) = i by omega]
      · have hmiss : l.bi.lookupNode (params.rowHash row) = none := by
          rw [eq_none_iff_forall_ne_some]
          intro p hp
          exact hi ((hl.lookup_row hs hrow).1 hp).1
        rw [bind_some, hmiss]
        dsimp only at hbound
        rw [if_neg (by omega)] at hbound
        exact htop hbound
  have htipPtr : chain.length - 1 - low = chain.length - low - 1 := by omega
  rw [htipPtr] at hlookup hhead
  obtain ⟨hpar, hdata, hindex, hfresh, htipv⟩ :=
    hl.loaded.installTips hchain hheader (by omega) hstart hlow (by omega) hzero hht hhb
  generalize hI : installTips l.bi (chain.length - low - 1) ht ((chain.length : Int) - 1) = I
    at hpar hdata hindex hfresh htipv
  refine ⟨{ I with mem := markValid I.fresh (some (chain.length - low - 1)) I.mem }, ?_, ?_⟩
  · rw [IniNode.setTips, hlookup]
    show some _ = some _
    dsimp only
    rw [hhead, hI]
  have hmark := @markValid_apply (start - low) I.mem (chain.length - start) I.fresh
    (by rw [hfresh, hl.loaded.fresh]; omega) fun j hj => (hpar _ (by omega)).trans (if_congr (by omega) rfl rfl)
  rw [if_neg (by omega), show start - low + (chain.length - start) = chain.length - low by omega] at hmark
  refine ⟨fun hash p => ?_, fun j row hrow => ?_, htipPtr ▸ htipv⟩
  · rw [hindex]
    refine (hl.loaded.lookup hash p).trans ?_
    constructor
    · rintro ⟨hp, hhash⟩
      obtain ⟨row, hrow, hh, -⟩ := hl.loaded.node p hp
      exact ⟨row, hrow, hh.symm.trans hhash⟩
    · rintro ⟨row, hrow, rfl⟩
      rw [← hl.loaded.lookup, hl.lookup_row hs hrow]
      exact ⟨Nat.le_add_right _ _, (Nat.add_sub_cancel_left ..).symm⟩
  · have hj := (List.getElem?_eq_some_iff.1 hrow).1
    obtain ⟨r, hr, hhash, -, hstatus, hwork, hheight, -⟩ := hl.loaded.node j (by omega)
    obtain rfl := mem_unique hr hrow
    have hhash' : (I.mem j).hash = params.rowHash r := (congrArg BlockNode.hash (hdata j)).trans hhash
    have hheight' : (I.mem j).height = (low + j : Nat) := (congrArg BlockNode.height (hdata j)).trans hheight
    have hstatus' : (I.mem j).status = r.status := (congrArg BlockNode.status (hdata j)).trans hstatus
    have hwork' : (I.mem j).workSum = work (low + j) := (congrArg BlockNode.workSum (hdata j)).trans hwork
    dsimp only
    rw [hmark j]
    by_cases hin : start ≤ low + j
    · rw [if_pos (by omega), if_pos hin]
      exact ⟨hhash', hheight', by rw [hstatus'], hwork', hpar j (by omega)⟩
    · rw [if_neg (by omega), if_neg hin]
      exact ⟨hhash', hheight', hstatus', hwork', hpar j (by omega)⟩

end SetTips

/-! ## The two paths -/

/-- The work the snapshot path gives the heights from the lowest of the window on. -/
def snapshotWork (chain : List NodeRow) (start h : Nat) : Nat :=
  totalWork chain + totalWork ((chain.drop (start + 1)).take (h - start))

theorem accumulates_snapshotWork (chain : List NodeRow) (start : Nat) :
    Accumulates chain start (snapshotWork chain start) := by
  intro h row hlt hrow
  unfold snapshotWork
  have hget : (chain.drop (start + 1))[h - 1 - start]? = some row := by
    rw [getElem?_drop, show start + 1 + (h - 1 - start) = h by omega]
    exact hrow
  rw [show h - start = h - 1 - start + 1 by omega, totalWork_take_succ hget, Nat.add_assoc]

theorem totalWork_append (a b : List NodeRow) : totalWork (a ++ b) = totalWork a + totalWork b := by
  simp [totalWork]

/-- What the snapshot path gives a height too much is the work above the lowest height of the window. -/
theorem snapshotWork_eq {start h : Nat} (hh : start ≤ h) :
    snapshotWork chain start h = workUpTo chain h + totalWork (chain.drop (start + 1)) := by
  have htotal : totalWork chain = totalWork (chain.take (start + 1)) + totalWork (chain.drop (start + 1)) := by
    rw [← totalWork_append, take_append_drop]
  have hup : workUpTo chain h =
      totalWork (chain.take (start + 1)) + totalWork ((chain.drop (start + 1)).take (h - start)) := by
    rw [workUpTo, ← totalWork_append, ← take_add, show start + 1 + (h - start) = h + 1 by omega]
  rw [snapshotWork]
  omega

def windowStart (windowSize : Int) (chain : List NodeRow) : Nat :=
  ((emptyIndex windowSize).windowBoundary ((chain.length : Int) - 1)).toNat

theorem Stored.windowStart_eq (hs : Stored params db chain) (windowSize : Int) :
    (emptyIndex windowSize).windowBoundary ((chain.length : Int) - 1) = windowStart windowSize chain ∧
      windowStart windowSize chain < chain.length ∧ (windowSize ≤ 0 → windowStart windowSize chain = 0) := by
  obtain ⟨g, hg, -⟩ := hs.genesis
  have hlen := (List.getElem?_eq_some_iff.1 hg).1
  have hnn := (emptyIndex windowSize).windowBoundary_nonneg ((chain.length : Int) - 1)
  have hval : (emptyIndex windowSize).windowBoundary ((chain.length : Int) - 1) < chain.length ∧
      (windowSize ≤ 0 → (emptyIndex windowSize).windowBoundary ((chain.length : Int) - 1) = 0) := by
    unfold BlockIndex.windowBoundary
    have hw : (emptyIndex windowSize).windowSize = windowSize := rfl
    split <;> omega
  unfold windowStart
  omega

variable (bi : BlockIndex)

theorem windowBoundary_mono {h h' : Int} (hh : h ≤ h') : bi.windowBoundary h ≤ bi.windowBoundary h' := by
  unfold BlockIndex.windowBoundary
  split <;> split <;> omega

theorem loadedHeaderHeight_eq (db : Db) (low : Nat) (h : Int) : loadedHeaderHeight db low h =
    if low ≤ Loader.headerTipHeight db h then Loader.headerTipHeight db h else h := by
  unfold loadedHeaderHeight Loader.headerTipHeight
  cases db.bestHeaderState with
  | none => exact (ite_self _).symm
  | some s => rfl

theorem Stored.headerTipHeight (hs : Stored params db chain) :
    0 ≤ Loader.headerTipHeight db ((chain.length : Int) - 1) ∧
      Loader.headerTipHeight db ((chain.length : Int) - 1) ≤ (chain.length : Int) - 1 := by
  obtain ⟨g, hg, -⟩ := hs.genesis
  have hlen := (List.getElem?_eq_some_iff.1 hg).1
  unfold Loader.headerTipHeight
  rcases hs.header with hnone | ⟨i, row, hrow, hsome⟩
  · simp only [hnone]
    omega
  · have hlt := (List.getElem?_eq_some_iff.1 hrow).1
    simp only [hsome]
    omega

theorem initChainState_snapshot (hs : Stored params db chain) {snap : TipSnapshot}
    (hsnap : db.bestTipSnapshot = some snap) (windowSize : Int) (rows : List (Int × NodeRow)) :
    ∃ bi, initChainState params windowSize db rows = some bi ∧
      Opened params chain (windowStart windowSize chain) (windowStart windowSize chain)
        (snapshotWork chain (windowStart windowSize chain)) bi := by
  obtain ⟨tip, totalTxns, htip, hstate, hsome | ⟨-, hnone⟩⟩ := hs.best
  · obtain ⟨hboundary, hlt, hzero⟩ := hs.windowStart_eq windowSize
    generalize windowStart windowSize chain = start at hboundary hlt hzero ⊢
    have hrow := htip
    rw [getLast?_eq_getElem?] at hrow
    have hheight := (hs.heights (chain.length - 1) tip hrow).1
    rw [show ((chain.length - 1 : Nat) : Int) = (chain.length : Int) - 1 by omega] at hheight
    have husable : Loader.usableSnapshot db = some ⟨params.rowHash tip, chain.length - 1, totalWork chain⟩ := by
      unfold Loader.usableSnapshot
      rw [hsome, filter_some, if_pos (by simpa using hheight)]
    have hseed : snapshotWork chain start start = totalWork chain := by
      rw [snapshotWork, Nat.sub_self]
      rfl
    obtain ⟨l, hloop, hl⟩ :=
      (loadedBy_empty params chain start (snapshotWork chain start) windowSize (some (totalWork chain))).snapshotLoop hs
        (accumulates_snapshotWork chain start) (m := chain.length - start) (by omega)
    rw [Nat.zero_add] at hl
    obtain ⟨bi, htips, hopened⟩ := hl.setTips hs hstate hboundary (Nat.le_refl _) hlt hzero
      (hboundary ▸ windowBoundary_mono _ (by
        have := hs.headerTipHeight
        rw [loadedHeaderHeight_eq]
        dsimp only
        split <;> omega))
    refine ⟨bi, ?_, hopened⟩
    have hload : Loader.loadSnapshot params db (emptyIndex windowSize) = .ok l := by
      unfold Loader.loadSnapshot
      rw [husable]
      dsimp only
      rw [hboundary, ← hloop, hseed, show ((chain.length : Int) - 1 - start + 1).toNat = chain.length - start by omega]
      rfl
    rw [initChainState, hstate, hload]
    exact htips
  · rw [hnone] at hsnap
    cases hsnap

def Db.withoutSnapshot (db : Db) : Db := { db with bestTipSnapshot := none }

theorem initChainState_scan (hs : Stored params db chain) (hc : Cursor db rows) (windowSize : Int) :
    ∃ (low : Nat) (bi : BlockIndex), low ≤ windowStart windowSize chain ∧
      initChainState params windowSize db.withoutSnapshot rows = some bi ∧
      Opened params chain low (windowStart windowSize chain) (workUpTo chain) bi := by
  obtain ⟨tip, totalTxns, htip, hstate, -⟩ := hs.best
  obtain ⟨hboundary, hlt, hzero⟩ := hs.windowStart_eq windowSize
  generalize windowStart windowSize chain = start at hboundary hlt hzero ⊢
  obtain ⟨hpos, hle⟩ := hs.headerTipHeight
  generalize hheader : Loader.headerTipHeight db ((chain.length : Int) - 1) = headerHeight at hpos hle
  obtain ⟨low, hlow⟩ : ∃ low : Nat, (emptyIndex windowSize).windowBoundary headerHeight = low :=
    ⟨_, (Int.toNat_of_nonneg (BlockIndex.windowBoundary_nonneg _ _)).symm⟩
  have hlowStart : low ≤ start := by
    have := windowBoundary_mono (emptyIndex windowSize) hle
    omega
  have hlowHeader : (low : Int) ≤ headerHeight := by
    rw [← hlow]
    unfold BlockIndex.windowBoundary
    split <;> omega
  -- below the header window the work is added up, from there on the nodes are made
  generalize hb : Loader.ScanBounds.mk start low (int32 ((chain.length : Int) - 1 + windowSize)) = b
  have hbheader : b.headerBoundary = low := by rw [← hb]
  have hbchain : b.chainBoundary = start := by rw [← hb]
  obtain ⟨running, hrunning, hbelow⟩ : ∃ running : Option Nat, running.getD 0 = totalWork (chain.take low) ∧
      Loader.scanLoop params b (rowsFrom (0 : Nat) (chain.drop 0)) ⟨emptyIndex windowSize, none, none⟩ =
        Loader.scanLoop params b (rowsFrom low (chain.drop low)) ⟨emptyIndex windowSize, none, running⟩ :=
    scanLoop_below hbheader (by omega) (by omega) (Nat.zero_le low) rfl
  obtain ⟨l, hloop, hl⟩ := (loadedBy_empty params chain low (workUpTo chain) windowSize running).scanLoop hs hbheader
    (m := chain.length - low) (by omega) hrunning
  rw [Nat.zero_add] at hl
  obtain ⟨bi, htips, hopened⟩ := hl.setTips hs hstate hboundary hlowStart hlt hzero
    (by rw [loadedHeaderHeight_eq, hheader, if_pos hlowHeader]; exact Int.le_of_eq hlow)
  refine ⟨low, bi, hlowStart, ?_, hopened⟩
  have hscan : Loader.loadScan params db.withoutSnapshot rows
      ⟨params.rowHash tip, (chain.length : Int) - 1, totalTxns, totalWork chain⟩ (emptyIndex windowSize) = some l := by
    have hheader' : Loader.headerTipHeight db.withoutSnapshot ((chain.length : Int) - 1) = headerHeight :=
      hheader
    unfold Loader.loadScan
    rw [hheader', hlow, hboundary, hs.cursor hc]
    rw [← hb] at hbelow hloop
    exact hbelow.trans hloop
  have hsnap : Loader.loadSnapshot params db.withoutSnapshot (emptyIndex windowSize) =
      .error (emptyIndex windowSize) := rfl
  have hstate' : db.withoutSnapshot.bestState =
      some ⟨params.rowHash tip, (chain.length : Int) - 1, totalTxns, totalWork chain⟩ := hstate
  rw [initChainState, hstate', bind_some, hsnap]
  dsimp only
  rw [hscan]
  exact htips

/-! ## The comparison -/

def BlockIndex.parentLink (p : Ptr) : Option Hash := (bi.mem p).parent.map fun q => (bi.mem q).hash

/-- Every node of the one index is in the other, with the same hash, height, status, parent and work. -/
def SameNodes (s f : BlockIndex) : Prop :=
  ∀ hash p, s.lookupNode hash = some p → ∃ q, f.lookupNode hash = some q ∧ (s.mem p).hash = (f.mem q).hash ∧
    (s.mem p).height = (f.mem q).height ∧ (s.mem p).status = (f.mem q).status ∧
    s.parentLink p = f.parentLink q ∧ (s.mem p).workSum = (f.mem q).workSum

/-- The tip has the work of the snapshot. -/
def TipWork (db : Db) (bi : BlockIndex) : Prop :=
  ∀ snap, db.bestTipSnapshot = some snap → ∃ tip, bi.bestChain.tip = some tip ∧ (bi.mem tip).workSum = snap.work

theorem Opened.parentLink {low start : Nat} {work : Nat → Nat} {bi : BlockIndex}
    (ho : Opened params chain low start work bi) {j : Nat} {row : NodeRow} (hrow : chain[low + j]? = some row) :
    bi.parentLink j = if j = 0 ∨ low + j = start then none else chain[low + j - 1]?.map params.rowHash := by
  obtain ⟨-, -, -, -, hpar⟩ := ho.node j row hrow
  unfold BlockIndex.parentLink
  rw [hpar]
  split
  next => rfl
  next h =>
    have hlt := (List.getElem?_eq_some_iff.1 hrow).1
    have hget : chain[low + (j - 1)]? = some chain[low + (j - 1)] := getElem?_eq_getElem (by omega)
    rw [show low + j - 1 = low + (j - 1) by omega, hget, map_some, map_some, (ho.node (j - 1) _ hget).1]

theorem Opened.sameNodes {low start : Nat} {work work' : Nat → Nat} {s f : BlockIndex}
    (hs : Opened params chain start start work s) (hf : Opened params chain low start work' f) (hlow : low ≤ start) :
    SameNodes s f ↔ ∀ h, start ≤ h → h < chain.length → work h = work' h := by
  constructor
  · intro hsame h hh hhlt
    obtain ⟨i, rfl⟩ : ∃ i, h = start + i := ⟨h - start, by omega⟩
    have hrow : chain[start + i]? = some chain[start + i] := getElem?_eq_getElem hhlt
    obtain ⟨q, hq, -, hheight, -, -, hwork⟩ := hsame _ i ((hs.lookup _ i).2 ⟨_, hrow, rfl⟩)
    obtain ⟨row, hrow', -⟩ := (hf.lookup _ q).1 hq
    obtain ⟨-, hsh, -, hsw, -⟩ := hs.node i _ hrow
    obtain ⟨-, hfh, -, hfw, -⟩ := hf.node q _ hrow'
    -- the heights say which node of the other index it is
    rw [hsh, hfh] at hheight
    rw [← hsw, hwork, hfw, Int.ofNat.inj hheight]
  · intro hwork hash p hp
    obtain ⟨row, hrow, rfl⟩ := (hs.lookup hash p).1 hp
    have hplt := (List.getElem?_eq_some_iff.1 hrow).1
    have hpq : low + (start - low + p) = start + p := by rw [← Nat.add_assoc, Nat.add_sub_cancel' hlow]
    have hrow' : chain[low + (start - low + p)]? = some row := by rw [hpq]; exact hrow
    obtain ⟨hsh, hsheight, hsst, hsw, -⟩ := hs.node p row hrow
    obtain ⟨hfh, hfheight, hfst, hfw, -⟩ := hf.node (start - low + p) row hrow'
    refine ⟨start - low + p, (hf.lookup _ _).2 ⟨row, hrow', rfl⟩, hsh.trans hfh.symm, ?_, ?_, ?_, ?_⟩
    · rw [hsheight, hfheight, hpq]
    · rw [hsst, hfst, hpq]
    · rw [hs.parentLink hrow, hf.parentLink hrow', hpq]
      refine if_congr ?_ rfl rfl
      constructor <;> (intro h; omega)
    · rw [hsw, hfw, hpq]
      exact hwork _ (Nat.le_add_right start p) hplt

theorem SameNodes.refl : SameNodes bi bi := fun _ p hp => ⟨p, hp, rfl, rfl, rfl, rfl, rfl⟩

/-- The nodes loaded from the snapshot are those of the full scan, and the loaded tip has the stored work,
exactly when the blocks above the lowest of the window have no work. -/
theorem snapshot_agrees_iff (hw : Written params db chain) (hc : Cursor db rows) (windowSize : Int) :
    (∃ s f, initChainState params windowSize db rows = some s ∧
      initChainState params windowSize db.withoutSnapshot rows = some f ∧ SameNodes s f ∧ TipWork db s) ↔
    totalWork (chain.drop (windowStart windowSize chain + 1)) = 0 := by
  have hs := hw.stored
  obtain ⟨low, f, hlow, hinitf, hf⟩ := initChainState_scan hs hc windowSize
  obtain ⟨-, hlt, -⟩ := hs.windowStart_eq windowSize
  obtain ⟨tip, totalTxns, htip, hstate, hsnap | ⟨hone, hsnap⟩⟩ := hs.best
  · obtain ⟨s, hinits, hopened⟩ := initChainState_snapshot hs hsnap windowSize rows
    constructor
    · rintro ⟨s', f', hs', hf', hsame, -⟩
      obtain rfl := mem_unique hinits hs'
      obtain rfl := mem_unique hinitf hf'
      have := (hopened.sameNodes hf hlow).1 hsame _ (Nat.le_refl _) hlt
      rw [snapshotWork_eq (Nat.le_refl _)] at this
      omega
    · intro hzero
      have hwork : ∀ h, windowStart windowSize chain ≤ h →
          snapshotWork chain (windowStart windowSize chain) h = workUpTo chain h := fun h hh => by
        rw [snapshotWork_eq hh, hzero, Nat.add_zero]
      refine ⟨s, f, hinits, hinitf, (hopened.sameNodes hf hlow).2 fun h hh _ => hwork h hh, fun snap hsome => ?_⟩
      obtain rfl := mem_unique hsnap hsome
      refine ⟨_, hopened.tip, ?_⟩
      have hidx : windowStart windowSize chain + (chain.length - 1 - windowStart windowSize chain) = chain.length - 1 := by
        omega
      obtain ⟨-, -, -, htw, -⟩ := hopened.node (chain.length - 1 - windowStart windowSize chain) tip
        (by rw [hidx, ← getLast?_eq_getElem?]; exact htip)
      rw [htw, hidx, hwork _ (by omega), workUpTo, Nat.sub_add_cancel (by omega), take_length]
  · -- the chain of the genesis block alone has no snapshot: both are the full scan
    have hsame : db.withoutSnapshot = db := by
      unfold Db.withoutSnapshot
      rw [← hsnap]
    rw [hsame] at hinitf ⊢
    refine iff_of_true ⟨f, f, hinitf, hinitf, SameNodes.refl f, fun snap hsome => ?_⟩ ?_
    · rw [hsnap] at hsome
      cases hsome
    · rw [drop_eq_nil_of_le (by omega)]
      rfl

/-! ### A genesis block and one block on top -/

section TwoBlocks

def genesisRow : NodeRow :=
    ⟨⟨1, 0, 0, 0, 0x1f3fffff, 0⟩, { dataStored := true, valid := true, headerStored := true }⟩

variable (bits : Nat)

def secondRow : NodeRow := ⟨⟨1, 1, 0, 5, bits, 1⟩, { dataStored := true, valid := true, headerStored := true }⟩

def secondItem : WriteItem where
  height := 1
  block := ⟨2, (secondRow bits).header, []⟩
  nodeRows := [⟨2, 1, secondRow bits, true, true, true⟩]
  bestTipHash := 2
  tipHeight := 1
  tipWork := totalWork [genesisRow, secondRow bits]
  bestState := ⟨2, 1, 0⟩
  blockHash := 2
  stxos := []
  bestHeaderHash := 2
  bestHeaderHeight := 1
  utxoDelta := []

def genesisDb : Db :=
  (((emptyDb.storeBlockNode 1 0 genesisRow).putBlockIndex 1 0).putBestState ⟨1, 0, 1⟩
    (calcWork genesisRow.header.bits)).putBestHeaderState 1 0

def twoBlocksDb : Db := ((writeItem genesisDb (secondItem bits)).getD genesisDb)

theorem secondItem_of : ItemOf nonceParams [genesisRow] (secondRow bits) (secondItem bits) where
  blockHash := rfl
  height := rfl
  bestTipHash := rfl
  tipHeight := rfl
  tipWork := rfl
  bestState := ⟨rfl, rfl⟩
  nodeRows := ⟨true, true, rfl⟩
  bestHeader _ := ⟨1, secondRow bits, rfl, rfl, rfl⟩

theorem twoBlocks_written : Written nonceParams (twoBlocksDb bits) [genesisRow, secondRow bits] := by
  refine .connect (.create genesisRow 1 rfl) ?_ ?_ (secondItem_of bits) rfl
  · rintro last hlast
    cases hlast
    rfl
  · rw [map_singleton, mem_singleton]
    exact Nat.succ_ne_self 1

theorem twoBlocks_cursor : Cursor (twoBlocksDb bits) [(0, genesisRow), (1, secondRow bits)] where
  mem h row := by
    rw [show [(0, genesisRow), (1, secondRow bits)] = rowsFrom 0 [genesisRow, secondRow bits] from rfl, mem_rowsFrom]
    constructor
    · rintro ⟨i, rfl, hi⟩
      exact ⟨nonceParams.rowHash row, ((twoBlocks_written bits).stored.rows _ _ _).2 ⟨i, by simp, hi, rfl⟩⟩
    · rintro ⟨hash, hrow⟩
      obtain ⟨i, rfl, hi, -⟩ := ((twoBlocks_written bits).stored.rows _ _ _).1 hrow
      exact ⟨i, by simp, hi⟩
  nodup := by simp
  sorted := by simp

/-- With a window over both blocks, the tip is loaded with the work of the genesis block and twice its own. -/
theorem snapshot_counts_twice : Written nonceParams (twoBlocksDb 0x1f3fffff) [genesisRow, secondRow 0x1f3fffff] ∧
    Cursor (twoBlocksDb 0x1f3fffff) [(0, genesisRow), (1, secondRow 0x1f3fffff)] ∧
    ¬ ∃ s f,
      initChainState nonceParams 10 (twoBlocksDb 0x1f3fffff) [(0, genesisRow), (1, secondRow 0x1f3fffff)] = some s ∧
      initChainState nonceParams 10 (twoBlocksDb 0x1f3fffff).withoutSnapshot
        [(0, genesisRow), (1, secondRow 0x1f3fffff)] = some f ∧
      SameNodes s f ∧ TipWork (twoBlocksDb 0x1f3fffff) s := by
  refine ⟨twoBlocks_written _, twoBlocks_cursor _, ?_⟩
  rintro ⟨s, f, hs, -, -, htip⟩
  have hwork : (initChainState nonceParams 10 (twoBlocksDb 0x1f3fffff)
      [(0, genesisRow), (1, secondRow 0x1f3fffff)]).map
      (fun s => (s.bestChain.tip, (s.mem 1).workSum)) = some (some 1, 3 * calcWork 0x1f3fffff) := by decide +kernel
  rw [hs] at hwork
  obtain ⟨htip1, hwork1⟩ := Prod.mk.inj (Option.some.inj hwork)
  obtain ⟨tip, htip2, hwork2⟩ := htip ⟨2, 1, totalWork [genesisRow, secondRow 0x1f3fffff]⟩ rfl
  obtain rfl := mem_unique htip1 htip2
  rw [hwork1] at hwork2
  revert hwork2
  decide +kernel

/-- A second block whose bits stand for no work leaves nothing to count twice. -/
theorem snapshot_agrees_workless : ∃ s f,
      initChainState nonceParams 10 (twoBlocksDb 0) [(0, genesisRow), (1, secondRow 0)] = some s ∧
      initChainState nonceParams 10 (twoBlocksDb 0).withoutSnapshot [(0, genesisRow), (1, secondRow 0)] = some f ∧
      SameNodes s f ∧ TipWork (twoBlocksDb 0) s :=
  (snapshot_agrees_iff (twoBlocks_written 0) (twoBlocks_cursor 0) 10).2 (by decide +kernel)

end TwoBlocks

end IniNode
