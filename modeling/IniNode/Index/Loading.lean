import IniNode.Index.ChainInit
import IniNode.Index.Stored
/-!
# The loading loops

Both loops of `initChainState` make one node per height, from some height up to the tip, each with the node
before it as its parent. They differ in the work they start with: `Loaded` says what the nodes are for any
work that adds up along the chain, and both loops establish it.
-/

open List Option Function

namespace IniNode

/-- What a cursor yields over the block index bucket: every row once, the heights ascending. -/
structure Cursor (db : Db) (rows : List (Int × NodeRow)) : Prop where
  mem : ∀ h row, (h, row) ∈ rows ↔ ∃ hash, db.blockIndex (h, hash) = some row
  nodup : rows.Nodup
  sorted : rows.Pairwise fun a b => a.1 ≤ b.1

/-- The rows of a chain from a height on. -/
def rowsFrom (h : Int) : List NodeRow → List (Int × NodeRow)
  | [] => []
  | row :: chain => (h, row) :: rowsFrom (h + 1) chain

variable {params : ChainParams} {db : Db} {chain : List NodeRow} {rows : List (Int × NodeRow)}

theorem mem_rowsFrom {h g : Int} {row : NodeRow} :
    (g, row) ∈ rowsFrom h chain ↔ ∃ i : Nat, g = h + i ∧ chain[i]? = some row := by
  induction chain generalizing h with
  | nil => simp [rowsFrom]
  | cons r chain ih =>
    rw [rowsFrom, mem_cons, ih]
    constructor
    · rintro (hr | ⟨i, rfl, hi⟩)
      · obtain ⟨rfl, rfl⟩ := Prod.mk.inj hr
        exact ⟨0, by simp, rfl⟩
      · exact ⟨i + 1, by omega, hi⟩
    · rintro ⟨i, rfl, hi⟩
      cases i with
      | zero =>
        cases hi
        exact .inl (by simp)
      | succ i => exact .inr ⟨i, by omega, hi⟩

theorem pairwise_rowsFrom (h : Int) (chain : List NodeRow) : (rowsFrom h chain).Pairwise fun a b => a.1 < b.1 := by
  induction chain generalizing h with
  | nil => exact List.Pairwise.nil
  | cons r chain ih =>
    refine pairwise_cons.2 ⟨?_, ih _⟩
    rintro ⟨g, row⟩ hg
    obtain ⟨i, rfl, -⟩ := mem_rowsFrom.1 hg
    omega

theorem Stored.cursor (hs : Stored params db chain) (hc : Cursor db rows) : rows = rowsFrom 0 chain := by
  have hmem : ∀ x, x ∈ rows ↔ x ∈ rowsFrom 0 chain := by
    rintro ⟨h, row⟩
    rw [hc.mem, mem_rowsFrom]
    constructor
    · rintro ⟨hash, hrow⟩
      obtain ⟨i, rfl, hi, -⟩ := (hs.rows h hash row).1 hrow
      exact ⟨i, by simp, hi⟩
    · rintro ⟨i, rfl, hi⟩
      exact ⟨params.rowHash row, (hs.rows _ _ row).2 ⟨i, by simp, hi, rfl⟩⟩
  have hlt := pairwise_rowsFrom 0 chain
  have hnd : (rowsFrom 0 chain).Nodup := hlt.imp fun {a b} h hab => by rw [hab] at h; omega
  have hperm := (perm_ext_iff_of_nodup hc.nodup hnd).2 hmem
  refine Perm.eq_of_pairwise (fun a b ha hb hab hba => ?_) hc.sorted (hlt.imp fun h => Int.le_of_lt h) hperm
  -- the heights are distinct
  obtain ⟨g, row⟩ := a
  obtain ⟨g', row'⟩ := b
  obtain rfl : g = g' := Int.le_antisymm hab hba
  obtain ⟨i, rfl, hi⟩ := mem_rowsFrom.1 ((hmem _).1 ha)
  obtain ⟨j, hj, hj'⟩ := mem_rowsFrom.1 hb
  obtain rfl : i = j := by omega
  rw [mem_unique hi hj']

/-! ## The loops -/

/-- The blocks from some height on are loaded, as many as the index has nodes: the node of each height
is one address above that of the height below it. -/
structure Loaded (params : ChainParams) (chain : List NodeRow) (low : Nat) (work : Nat → Nat) (n : Nat)
    (bi : BlockIndex) : Prop where
  fresh : bi.fresh = n
  node : ∀ j, j < n → ∃ row, chain[low + j]? = some row ∧
    (bi.mem j).hash = params.rowHash row ∧ (bi.mem j).header = row.header ∧ (bi.mem j).status = row.status ∧
    (bi.mem j).workSum = work (low + j) ∧ (bi.mem j).height = (low + j : Nat) ∧
    (bi.mem j).parent = if j = 0 then none else some (j - 1)
  lookup : ∀ hash p, bi.lookupNode hash = some p ↔ p < n ∧ (bi.mem p).hash = hash

/-- The work grows by that of each block. -/
def Accumulates (chain : List NodeRow) (low : Nat) (work : Nat → Nat) : Prop :=
  ∀ h row, low < h → chain[h]? = some row → work h = work (h - 1) + calcWork row.header.bits

section Loops
variable {low n : Nat} {work : Nat → Nat} {bi : BlockIndex} {row : NodeRow}

section

variable (hs : Stored params db chain) (hl : Loaded params chain low work n bi) (hrow : chain[low + n]? = some row)

include hs hl hrow

theorem Loaded.lookup_isNone {p : Ptr} (hp : p < n) : (bi.mem p).hash ≠ params.rowHash row := by
  obtain ⟨r, hr, hhash, -⟩ := hl.node p hp
  rw [hhash]
  exact fun h => Nat.ne_of_lt hp (Nat.add_left_cancel (hs.index_inj hr hrow h))

theorem Loaded.add {node : BlockNode} (hhash : node.hash = params.rowHash row)
    (hheader : node.header = row.header) (hstatus : node.status = row.status) (hwork : node.workSum = work (low + n))
    (hheight : node.height = (low + n : Nat)) (hparent : node.parent = if n = 0 then none else some (n - 1)) :
    Loaded params chain low work (n + 1) ((bi.alloc node).addNode bi.fresh) := by
  obtain rfl := hl.fresh
  have hold : ∀ p, p < bi.fresh → update bi.mem bi.fresh node p = bi.mem p := fun p hp =>
    update_of_ne (Nat.ne_of_lt hp) _ _
  have hnew : update bi.mem bi.fresh node bi.fresh = node := update_self _ _ _
  refine ⟨rfl, fun j hj => ?_, fun hash p => ?_⟩
  · show ∃ row, _ ∧ (update bi.mem bi.fresh node j).hash = _ ∧ _
    rcases Nat.lt_succ_iff_lt_or_eq.1 hj with hj | rfl
    · rw [show ((bi.alloc node).addNode bi.fresh).mem j = bi.mem j from hold j hj, hold j hj]
      exact hl.node j hj
    · rw [show ((bi.alloc node).addNode bi.fresh).mem bi.fresh = node from hnew, hnew]
      exact ⟨row, hrow, hhash, hheader, hstatus, hwork, hheight, hparent⟩
  · show (bi.index.insert (update bi.mem bi.fresh node bi.fresh).hash bi.fresh).lookup hash = some p ↔
      p < bi.fresh + 1 ∧ (update bi.mem bi.fresh node p).hash = hash
    rw [hnew]
    by_cases hh : hash = node.hash
    · subst hh
      rw [AList.lookup_insert]
      constructor
      · intro h
        cases h
        exact ⟨Nat.lt_succ_self _, by rw [hnew]⟩
      · rintro ⟨hp, hph⟩
        rcases Nat.lt_succ_iff_lt_or_eq.1 hp with hp | rfl
        · rw [hold p hp, hhash] at hph
          exact absurd hph (hl.lookup_isNone hs hrow hp)
        · rfl
    · rw [AList.lookup_insert_ne hh]
      refine (hl.lookup hash p).trans ?_
      constructor
      · rintro ⟨hp, hph⟩
        exact ⟨Nat.lt_succ_of_lt hp, by rw [hold p hp]; exact hph⟩
      · rintro ⟨hp, hph⟩
        rcases Nat.lt_succ_iff_lt_or_eq.1 hp with hp | rfl
        · exact ⟨hp, by rwa [hold p hp] at hph⟩
        · rw [hnew] at hph
          exact absurd hph.symm hh

end

/-- The state of a loop that has loaded so many nodes. -/
structure LoadedBy (params : ChainParams) (chain : List NodeRow) (low : Nat) (work : Nat → Nat) (w : Int)
    (n : Nat) (l : Loader) : Prop where
  loaded : Loaded params chain low work n l.bi
  last : l.lastNode = if n = 0 then none else some (n - 1)
  frame : l.bi.bestChain = {} ∧ l.bi.bestHeader = {} ∧ l.bi.windowSize = w

variable {w : Int} {l : Loader}

theorem LoadedBy.parent (hs : Stored params db chain) (hl : LoadedBy params chain low work w n l)
    (hrow : chain[low + n]? = some row) : l.parent row.header = if n = 0 then none else some (n - 1) := by
  unfold Loader.parent
  rw [hl.last]
  by_cases hn : n = 0
  · rw [if_pos hn]
    rw [eq_none_iff_forall_ne_some]
    intro p hp
    have := ((hl.loaded.lookup _ p).1 hp).1
    rw [hn] at this
    exact absurd this (Nat.not_lt_zero _)
  · rw [if_neg hn]
    obtain ⟨r, hr, hhash, -⟩ := hl.loaded.node (n - 1) (by omega)
    have hlink := hs.link (low + (n - 1)) r row hr (by rw [show low + (n - 1) + 1 = low + n by omega]; exact hrow)
    dsimp only
    rw [if_pos (hlink.trans hhash.symm)]

/-- A node initialised on top of the loaded ones is at the next height with the next work. -/
theorem LoadedBy.init (ha : Accumulates chain low work) (hl : LoadedBy params chain low work w n l)
    (hrow : chain[low + n]? = some row) (hn : n ≠ 0) :
    (initBlockNode l.bi.mem params.blockHash row.header (some (n - 1))).height = (low + n : Nat) ∧
      (initBlockNode l.bi.mem params.blockHash row.header (some (n - 1))).workSum = work (low + n) := by
  obtain ⟨r, -, -, -, -, hwork, hheight, -⟩ := hl.loaded.node (n - 1) (by omega)
  constructor
  · show (l.bi.mem (n - 1)).height + 1 = _
    omega
  · show (l.bi.mem (n - 1)).workSum + calcWork row.header.bits = _
    rw [hwork, ha (low + n) row (by omega) hrow, show low + n - 1 = low + (n - 1) by omega]

theorem LoadedBy.add (hs : Stored params db chain) (hl : LoadedBy params chain low work w n l)
    (hrow : chain[low + n]? = some row) {node : BlockNode} (hhash : node.hash = params.rowHash row)
    (hheader : node.header = row.header) (hstatus : node.status = row.status) (hwork : node.workSum = work (low + n))
    (hheight : node.height = (low + n : Nat)) (hparent : node.parent = l.parent row.header) :
    LoadedBy params chain low work w (n + 1) (l.add node) where
  loaded := hl.loaded.add hs hrow hhash hheader hstatus hwork hheight (hparent.trans (hl.parent hs hrow))
  last := by
    show some l.bi.fresh = _
    rw [hl.loaded.fresh]
    rfl
  frame := hl.frame

theorem loadedBy_empty (params : ChainParams) (chain : List NodeRow) (low : Nat) (work : Nat → Nat) (w : Int)
    (running : Option Nat) : LoadedBy params chain low work w 0 ⟨emptyIndex w, none, running⟩ where
  loaded :=
    { fresh := rfl
      node := fun j hj => absurd hj (Nat.not_lt_zero j)
      lookup := fun hash p => by
        refine ⟨fun h => ?_, fun h => absurd h.1 (Nat.not_lt_zero p)⟩
        cases h }
  last := rfl
  frame := ⟨rfl, rfl, rfl⟩

/-! ## The snapshot loop -/

section

variable (hs : Stored params db chain) (ha : Accumulates chain low work) (hl : LoadedBy params chain low work w n l)

include hs ha hl

theorem LoadedBy.snapshotNode (hrow : chain[low + n]? = some row) :
    LoadedBy params chain low work w (n + 1)
      (l.add (Loader.snapshotNode params low (work low) l (low + n : Nat) row)) := by
  refine hl.add hs hrow rfl rfl rfl ?_ rfl rfl
  show (if ((low + n : Nat) : Int) = low then work low
    else (initBlockNode l.bi.mem params.blockHash row.header (l.parent row.header)).workSum) = _
  rw [hl.parent hs hrow]
  by_cases hn : n = 0
  · subst hn
    rw [if_pos (by simp)]
    rfl
  · rw [if_neg (by omega), if_neg hn]
    exact (hl.init ha hrow hn).2

theorem LoadedBy.snapshotLoop {m : Nat} (hm : low + n + m ≤ chain.length) :
    ∃ l', Loader.snapshotLoop params db low (work low) m (low + n : Nat) l = .ok l' ∧
      LoadedBy params chain low work w (n + m) l' := by
  induction m generalizing n l with
  | zero => exact ⟨l, rfl, hl⟩
  | succ m ih =>
    obtain ⟨row, hrow⟩ : ∃ row, chain[low + n]? = some row := ⟨_, getElem?_eq_getElem (by omega)⟩
    obtain ⟨hheight, hhash⟩ := hs.heights (low + n) row hrow
    have hfetch : (db.heightIndex (low + n : Nat)).bind db.fetchBlockRowByHash = some (row, ((low + n : Nat) : Int)) := by
      rw [hheight, bind_some, Db.fetchBlockRowByHash, hhash, bind_some,
        (hs.rows _ _ row).2 ⟨low + n, rfl, hrow, rfl⟩, map_some]
    obtain ⟨l', hl', hloaded⟩ := ih (hl.snapshotNode hs ha hrow) (by omega)
    refine ⟨l', ?_, by rwa [show n + 1 + m = n + (m + 1) by omega] at hloaded⟩
    rw [Loader.snapshotLoop, hfetch]
    exact hl'

end

/-! ## The scan -/

theorem totalWork_take_succ {h : Nat} (hrow : chain[h]? = some row) :
    totalWork (chain.take (h + 1)) = totalWork (chain.take h) + calcWork row.header.bits := by
  rw [take_add_one, hrow]
  simp [totalWork]

def workUpTo (chain : List NodeRow) (h : Nat) : Nat := totalWork (chain.take (h + 1))

theorem accumulates_workUpTo (chain : List NodeRow) (low : Nat) : Accumulates chain low (workUpTo chain) := by
  intro h row hlt hrow
  unfold workUpTo
  rw [totalWork_take_succ hrow, show h - 1 + 1 = h by omega]

theorem drop_eq_cons {h : Nat} (hrow : chain[h]? = some row) : chain.drop h = row :: chain.drop (h + 1) := by
  obtain ⟨hlt, rfl⟩ := List.getElem?_eq_some_iff.1 hrow
  exact drop_eq_getElem_cons hlt

variable {b : Loader.ScanBounds}

/-- Below the window only the work is added up. -/
theorem scanLoop_below (hheader : b.headerBoundary = low) (hchain : (low : Int) ≤ b.chainBoundary)
    (hlow : low ≤ chain.length) {i : Nat} (hi : i ≤ low) (hw : l.runningWorkSum.getD 0 = totalWork (chain.take i)) :
    ∃ w : Option Nat, w.getD 0 = totalWork (chain.take low) ∧
      Loader.scanLoop params b (rowsFrom i (chain.drop i)) l =
        Loader.scanLoop params b (rowsFrom low (chain.drop low)) { l with runningWorkSum := w } := by
  obtain ⟨m, rfl⟩ : ∃ m, low = i + m := ⟨low - i, by omega⟩
  induction m generalizing i l with
  | zero => exact ⟨l.runningWorkSum, hw, rfl⟩
  | succ m ih =>
    obtain ⟨row, hrow⟩ : ∃ row, chain[i]? = some row := ⟨_, getElem?_eq_getElem (by omega)⟩
    have hround : Loader.scanRound params b l i row =
        some { l with runningWorkSum := some (l.runningWorkSum.getD 0 + calcWork row.header.bits) } := by
      have hin : ¬ b.inWindow i := by
        rintro (h | h) <;> omega
      have hwork : b.work l i row = some (l.runningWorkSum.getD 0 + calcWork row.header.bits) := by
        exact if_pos (by omega)
      rw [Loader.scanRound, hwork]
      exact if_pos hin
    rw [drop_eq_cons hrow, rowsFrom, Loader.scanLoop, hround, show i + (m + 1) = i + 1 + m by omega]
    refine ih ?_ (by omega) (by omega) (by omega) (by omega)
    rw [totalWork_take_succ hrow, ← hw]
    rfl

theorem LoadedBy.scanNode (hs : Stored params db chain) (hl : LoadedBy params chain low (workUpTo chain) w n l)
    (hrow : chain[low + n]? = some row) (hw : l.runningWorkSum.getD 0 = totalWork (chain.take low)) :
    (Loader.scanNode params l (low + n : Nat) row).workSum = workUpTo chain (low + n) ∧
      (Loader.scanNode params l (low + n : Nat) row).height = (low + n : Nat) := by
  have hparent := hl.parent hs hrow
  unfold Loader.scanNode
  by_cases hn : n = 0
  · subst hn
    rw [if_pos rfl] at hparent
    simp only [hparent, true_and]
    by_cases hlow : low = 0
    · subst hlow
      refine ⟨?_, rfl⟩
      show calcWork row.header.bits = _
      rw [workUpTo, totalWork_take_succ hrow]
      simp [totalWork]
    · rw [if_pos (by omega)]
      refine ⟨?_, rfl⟩
      rw [workUpTo, totalWork_take_succ hrow, hw]
      rfl
  · rw [if_neg hn] at hparent
    simp only [hparent]
    exact (hl.init (accumulates_workUpTo chain low) hrow hn).symm

theorem Loader.scanNode_fields (params : ChainParams) (l : Loader) (h : Int) (row : NodeRow) :
    (scanNode params l h row).hash = params.rowHash row ∧ (scanNode params l h row).header = row.header ∧
      (scanNode params l h row).status = row.status ∧ (scanNode params l h row).parent = l.parent row.header := by
  unfold scanNode
  dsimp only
  split_ifs <;> exact ⟨rfl, rfl, rfl, rfl⟩

section

variable (hs : Stored params db chain) (hheader : b.headerBoundary = low)
    (hl : LoadedBy params chain low (workUpTo chain) w n l)

include hs hheader hl

theorem LoadedBy.scanRound (hrow : chain[low + n]? = some row)
    (hw : l.runningWorkSum.getD 0 = totalWork (chain.take low)) :
    ∃ l', Loader.scanRound params b l (low + n : Nat) row = some l' ∧
      LoadedBy params chain low (workUpTo chain) w (n + 1) l' ∧ l'.runningWorkSum = l.runningWorkSum := by
  have hin : b.inWindow (low + n : Nat) := .inr (by omega)
  have hwork : b.work l (low + n : Nat) row = l.runningWorkSum := by
    exact if_neg (by omega)
  -- a row at height zero is the genesis block
  have hgen : ¬ (l.parent row.header = none ∧ ((low + n : Nat) : Int) = 0 ∧
      params.blockHash row.header ≠ params.genesisHash) := by
    rintro ⟨-, hzero, hne⟩
    obtain ⟨g, hg, hgh⟩ := hs.genesis
    rw [show low + n = 0 by omega] at hrow
    obtain rfl := mem_unique hg hrow
    exact hne hgh
  have hround : Loader.scanRound params b l (low + n : Nat) row =
      some (l.add (Loader.scanNode params l (low + n : Nat) row)) := by
    rw [Loader.scanRound, hwork, if_neg (not_not.2 hin)]
    exact if_neg hgen
  obtain ⟨hhash, hhead, hstatus, hpar⟩ := Loader.scanNode_fields params l (low + n : Nat) row
  obtain ⟨hwork, hheight⟩ := hl.scanNode hs hrow hw
  exact ⟨_, hround, hl.add hs hrow hhash hhead hstatus hwork hheight hpar, rfl⟩

theorem LoadedBy.scanLoop {m : Nat} (hm : low + n + m = chain.length)
    (hw : l.runningWorkSum.getD 0 = totalWork (chain.take low)) :
    ∃ l', Loader.scanLoop params b (rowsFrom (low + n : Nat) (chain.drop (low + n))) l = some l' ∧
      LoadedBy params chain low (workUpTo chain) w (n + m) l' := by
  induction m generalizing n l with
  | zero =>
    rw [drop_eq_nil_of_le (by omega)]
    exact ⟨l, rfl, hl⟩
  | succ m ih =>
    obtain ⟨row, hrow⟩ : ∃ row, chain[low + n]? = some row := ⟨_, getElem?_eq_getElem (by omega)⟩
    obtain ⟨l1, hround, hl1, hrun⟩ := hl.scanRound hs hheader hrow hw
    obtain ⟨l', hloop, hl'⟩ := ih hl1 (by omega) (by rw [hrun]; exact hw)
    refine ⟨l', ?_, by rwa [show n + 1 + m = n + (m + 1) by omega] at hl'⟩
    rw [drop_eq_cons hrow, rowsFrom, Loader.scanLoop, hround]
    exact hloop

end

end Loops

end IniNode
