import IniNode.Index.MainChain
/-!
# Queries about the header chain

`HeaderHashByHeight` answers from the header view and, for what has left it, from the height index. `Headers` says what
makes the answers right: the view holds the upper end of the chain of the header tip, and what is below the view has its
rows. A new header tip on another branch is linked into the view by a walk down the parent links; where they lead to the
view (`Meets`), the view follows the branch.
-/

open List Option

namespace IniNode.BlockChain

open ChainView

variable {params : ChainParams} {checkpoints : List Checkpoint} {b b' : BlockChain} {h : Int}

/-! ## The query -/

def headerHashByHeight (b : BlockChain) (height : Int) : Option Hash :=
  let (node, b) :=
    match b.bestHeader.nodeByHeight height with
    | some p => (some p, b)
    | none => b.coldNodeAtHeight height
  node.map fun p => (b.bi.mem p).hash

def headerAt (b : BlockChain) (h : Int) : Option Hash :=
  b.bestHeader.tip.bind fun p => knownAncestor b.known (b.bi.mem p).hash h

/-! ## What makes the answers right -/

/-- The node at a height of the header view is the index's own node of the block. -/
structure HeaderNode (b : BlockChain) (h : Int) (x : Hash) (p : Ptr) : Prop where
  view : b.bi.bestHeader.nodeByHeight h = some p
  node : b.bi.lookupNode x = some p
  height : (b.bi.mem p).height = h

/-- Below the view, a height row is for the header chain. -/
def BelowView (b : BlockChain) (h : Int) (x : Hash) : Prop := h < b.bi.bestHeader.base → b.headerAt h = some x

theorem only_belowView {x : Hash} (hlt : h < b.bi.bestHeader.base) (hx : b.headerAt h = some x) : Only b.BelowView h x :=
  ⟨fun _ => hx, fun hy => mem_unique (hy hlt) hx⟩

/-- View and rows below it are of the header chain. -/
structure Headers (b : BlockChain) : Prop where
  own : b.ownHeader = none
  window : 0 < b.bi.windowSize
  base : 0 ≤ b.bi.bestHeader.base
  top : 0 < b.bi.bestHeader.nodes.length
  view : ∀ {h}, b.bi.bestHeader.base ≤ h → h < b.bi.bestHeader.base + b.bi.bestHeader.nodes.length →
    ∃ x p, b.headerAt h = some x ∧ b.HeaderNode h x p
  stored : ∀ {h x}, h < b.bi.bestHeader.base → b.headerAt h = some x → HasRows b.db h x
  queued : ∀ item ∈ b.queue, ItemNames b.BelowView item

theorem Headers.bestHeader_eq (hh : b.Headers) : b.bestHeader = b.bi.bestHeader := by
  rw [bestHeader, hh.own, getD_none]

theorem Headers.exists_tip (hh : b.Headers) : ∃ x p, b.bi.bestHeader.tip = some p ∧
    b.HeaderNode (b.bi.bestHeader.base + b.bi.bestHeader.nodes.length - 1) x p := by
  have htop := hh.top
  obtain ⟨x, p, -, hp⟩ := hh.view (h := b.bi.bestHeader.base + b.bi.bestHeader.nodes.length - 1) (by omega) (by omega)
  exact ⟨x, p, (nodeByHeight_top htop).symm.trans hp.view, hp⟩

section Queries
variable {p : Ptr} (hs : b.Sound params) (hh : b.Headers)
include hs hh

theorem Headers.exists_headerAt (hpos : 0 ≤ h) (hlt : h < b.bi.bestHeader.base + b.bi.bestHeader.nodes.length) :
    ∃ x header, b.headerAt h = some x ∧ b.known x = some (header, h) := by
  obtain ⟨x, p, htip, hp⟩ := hh.exists_tip
  have hknown := hs.node hp.node
  rw [hp.height] at hknown
  obtain ⟨y, header, hy, hheader⟩ := hs.known.ancestor hknown hpos (by omega)
  refine ⟨y, header, ?_, hheader⟩
  rw [headerAt, hh.bestHeader_eq, htip, bind_some, hs.index.hash hp.node, hy]

theorem Headers.headerAt_of_view (hp : b.bi.bestHeader.nodeByHeight h = some p) :
    b.headerAt h = some (b.bi.mem p).hash ∧ b.HeaderNode h (b.bi.mem p).hash p := by
  obtain ⟨hlow, hin⟩ := nodeByHeight_eq_some.1 hp
  have hlt := (List.getElem?_eq_some_iff.1 hin).1
  obtain ⟨x, q, hx, hq⟩ := hh.view hlow (by omega)
  obtain rfl := mem_unique hp hq.view
  rw [hs.index.hash hq.node]
  exact ⟨hx, hq⟩

theorem Headers.headerAt_eq {h k : Int} (hp : b.bi.bestHeader.nodeByHeight k = some p) (hle : h ≤ k) :
    b.headerAt h = knownAncestor b.known (b.bi.mem p).hash h := by
  obtain ⟨x, t, htip, -⟩ := hh.exists_tip
  have hx := (hh.headerAt_of_view hs hp).1
  rw [headerAt, hh.bestHeader_eq, htip] at hx ⊢
  exact hs.known.ancestor_trans hx hle

theorem Headers.headerHashByHeight_eq (hpos : 0 ≤ h) (hle : h ≤ b.bestHeader.height) :
    b.headerHashByHeight h = b.headerAt h := by
  rw [hh.bestHeader_eq, height] at hle
  unfold headerHashByHeight
  rw [hh.bestHeader_eq]
  cases hp : b.bi.bestHeader.nodeByHeight h with
  | some p => exact (hh.headerAt_of_view hs hp).1.symm
  | none =>
    have hbelow : h < b.bi.bestHeader.base := by
      by_contra hlow
      obtain ⟨x, p, -, hin⟩ := hh.view (h := h) (by omega) (by omega)
      cases hp.symm.trans hin.view
    obtain ⟨x, -, hx, -⟩ := hh.exists_headerAt hs hpos (by omega)
    have hrows := hh.stored hbelow hx
    obtain ⟨p, hnode⟩ := materialized_of_rows hs (by have := hh.window; omega) hrows
    unfold coldNodeAtHeight
    rw [hrows.height, hx]
    dsimp only
    rw [hnode, map_some, (hs.materialized hnode).1]

end Queries

/-! ## A new tip -/

/-- The walk down the parent links from the node goes over nodes of the index, each the block before the last, until it
is in the view. The link into the view may have been cut. -/
inductive Meets (b : BlockChain) : Ptr → Prop
  | view {p} (hp : b.bi.bestHeader.contains b.bi.mem p) : Meets b p
  | cut {p q} (hp : b.bi.lookupNode (b.bi.mem p).hash = some p) (hparent : (b.bi.mem p).parent = none)
    (hq : b.bi.bestHeader.nodeByHeight ((b.bi.mem p).height - 1) = some q)
    (hhash : (b.bi.mem q).hash = (b.bi.mem p).parentHash) : Meets b p
  | link {p q} (hp : b.bi.lookupNode (b.bi.mem p).hash = some p) (hparent : (b.bi.mem p).parent = some q)
    (hhash : (b.bi.mem q).hash = (b.bi.mem p).parentHash) (hq : Meets b q) : Meets b p

section Meets
variable {p : Ptr} {nodes : List (Option Ptr)} (hs : b.Sound params) (hh : b.Headers) {fuel i : Nat}
include hs hh

theorem Meets.node (h : b.Meets p) : b.bi.lookupNode (b.bi.mem p).hash = some p := by
  cases h with
  | view hp => exact (hh.headerAt_of_view hs hp).2.node
  | cut hp => exact hp
  | link hp => exact hp

theorem Meets.base_le (h : b.Meets p) : b.bi.bestHeader.base ≤ (b.bi.mem p).height := by
  induction h with
  | view hp => exact (nodeByHeight_eq_some.1 hp).1
  | cut hp hparent hq =>
    have := (nodeByHeight_eq_some.1 hq).1
    omega
  | link hp hparent hhash hq ih =>
    have := (hs.of_parent hp (hq.node hs hh) hhash.symm).1
    omega

theorem Meets.headerAt_eq (h : b.Meets p) {k : Int} (hk : k < b.bi.bestHeader.base) :
    knownAncestor b.known (b.bi.mem p).hash k = b.headerAt k := by
  induction h with
  | @view p hp =>
    have := (nodeByHeight_eq_some.1 hp).1
    exact (hh.headerAt_eq hs hp (by omega)).symm
  | cut hp hparent hq hhash =>
    have hin := (hh.headerAt_of_view hs hq).2
    have hlow := (nodeByHeight_eq_some.1 hq).1
    rw [(hs.of_parent hp hin.node hhash.symm).2 (by rw [hin.height]; omega)]
    exact (hh.headerAt_eq hs hq (by omega)).symm
  | link hp hparent hhash hq ih =>
    have := hq.base_le hs hh
    rw [(hs.of_parent hp (hq.node hs hh) hhash.symm).2 (by omega), ih]

/-- The slot of a view that holds the block of the branch at its height. -/
def Slot (b : BlockChain) (nodes : List (Option Ptr)) (p : Ptr) (i : Nat) : Prop :=
  ∃ x q, nodes[i]? = some (some q) ∧ b.bi.lookupNode x = some q ∧ (b.bi.mem q).height = b.bi.bestHeader.base + i ∧
    knownAncestor b.known (b.bi.mem p).hash (b.bi.bestHeader.base + i) = some x

omit hh in
theorem slot_self {i : Nat} (hp : b.bi.lookupNode (b.bi.mem p).hash = some p)
    (hi : (b.bi.mem p).height = b.bi.bestHeader.base + i) (hin : nodes[i]? = some (some p)) : b.Slot nodes p i := by
  have hknown := hs.node hp
  refine ⟨_, p, hin, hp, hi, ?_⟩
  rw [← hi]
  exact knownAncestor_self hknown (hs.known.nonneg hknown)

theorem Headers.slot_of_view {k : Int} (hp : b.bi.bestHeader.nodeByHeight k = some p)
    {i : Nat} (hi : b.bi.bestHeader.base + i ≤ k)
    (hsame : ∀ q, b.bi.bestHeader.nodes[i]? = some (some q) → nodes[i]? = some (some q)) : b.Slot nodes p i := by
  have hlt := (List.getElem?_eq_some_iff.1 (nodeByHeight_eq_some.1 hp).2).1
  obtain ⟨x, q, hx, hq⟩ := hh.view (h := b.bi.bestHeader.base + i) (by omega) (by omega)
  refine ⟨x, q, hsame q ?_, hq.node, hq.height, ?_⟩
  · have := (nodeByHeight_eq_some.1 hq.view).2
    rwa [show (b.bi.bestHeader.base + i - b.bi.bestHeader.base).toNat = i by omega] at this
  · rw [← hh.headerAt_eq hs hp hi, hx]

/-- What the walk of `setTip` leaves: the branch of the node up to its height, and what was there above it. -/
structure Placed (b : BlockChain) (p : Ptr) (i : Nat) (nodes nodes' : List (Option Ptr)) : Prop where
  slot : ∀ j ≤ i, b.Slot nodes' p j
  above : ∀ j, i < j → nodes'[j]? = nodes[j]?
  length : nodes'.length = nodes.length

theorem Headers.placed_of_contains (hp : b.bi.bestHeader.contains b.bi.mem p)
    (hi : (b.bi.mem p).height = b.bi.bestHeader.base + i)
    (hsame : ∀ {j q}, j ≤ i → (nodes[j]? = some (some q) ↔ b.bi.bestHeader.nodes[j]? = some (some q))) :
    b.Placed p i nodes (place b.bi.mem b.bi.bestHeader.base fuel (some p) nodes) := by
  have hidx : ((b.bi.mem p).height - b.bi.bestHeader.base).toNat = i := by omega
  have hin : nodes[i]? = some (some p) := by
    rw [hsame (Nat.le_refl i), ← hidx]
    exact (nodeByHeight_eq_some.1 hp).2
  have hstop : place b.bi.mem b.bi.bestHeader.base fuel (some p) nodes = nodes := by
    apply place_stop
    rintro t ⟨⟩
    refine .inr ?_
    rw [hidx]
    exact hin
  rw [hstop]
  exact ⟨fun j hj => hh.slot_of_view hs hp (by omega) fun q => (hsame hj).2, fun _ _ => rfl, rfl⟩

omit hs hh in
theorem place_link
    (hi : (b.bi.mem p).height = b.bi.bestHeader.base + i) (hin : ¬ b.bi.bestHeader.contains b.bi.mem p)
    (hsame : ∀ {j q}, j ≤ i → (nodes[j]? = some (some q) ↔ b.bi.bestHeader.nodes[j]? = some (some q))) :
    place b.bi.mem b.bi.bestHeader.base (fuel + 1) (some p) nodes =
      place b.bi.mem b.bi.bestHeader.base fuel (b.bi.mem p).parent (nodes.set i (some p)) := by
  rw [place_succ hi, if_neg]
  intro hslot
  refine hin (nodeByHeight_eq_some.2 ⟨by omega, ?_⟩)
  rw [show ((b.bi.mem p).height - b.bi.bestHeader.base).toNat = i by omega]
  exact (hsame (Nat.le_refl i)).1 hslot

theorem Meets.placed (h : b.Meets p)
    (hi : (b.bi.mem p).height = b.bi.bestHeader.base + i) (hfuel : i < fuel) (hlen : i < nodes.length)
    (hsame : ∀ {j q}, j ≤ i → (nodes[j]? = some (some q) ↔ b.bi.bestHeader.nodes[j]? = some (some q))) :
    b.Placed p i nodes (place b.bi.mem b.bi.bestHeader.base fuel (some p) nodes) := by
  induction h generalizing fuel i nodes with
  | view hp => exact hh.placed_of_contains hs hp hi hsame
  | @cut p q hp hparent hq hhash =>
    by_cases hin : b.bi.bestHeader.contains b.bi.mem p
    · exact hh.placed_of_contains hs hin hi hsame
    obtain ⟨fuel, rfl⟩ : ∃ n, fuel = n + 1 := ⟨fuel - 1, by omega⟩
    -- the node takes its slot, and the walk is over
    have hplace : place b.bi.mem b.bi.bestHeader.base (fuel + 1) (some p) nodes = nodes.set i (some p) := by
      rw [place_link hi hin hsame, hparent]
      exact place_stop fun t ht => nomatch ht
    rw [hplace]
    refine ⟨fun j hj => ?_, fun j hj => getElem?_set_ne (by omega), length_set⟩
    rcases Nat.lt_or_eq_of_le hj with hlt | rfl
    · have hnode := (hh.headerAt_of_view hs hq).2
      obtain ⟨x, r, hr, hrest⟩ : b.Slot (nodes.set i (some p)) q j := by
        refine hh.slot_of_view hs hq (by omega) fun r hr => ?_
        rw [getElem?_set_ne (by omega)]
        exact (hsame hj).2 hr
      refine ⟨x, r, hr, hrest.1, hrest.2.1, ?_⟩
      rw [(hs.of_parent hp hnode.node hhash.symm).2 (by rw [hnode.height]; omega)]
      exact hrest.2.2
    · exact slot_self hs hp hi (getElem?_set_self hlen)
  | @link p q hp hparent hhash hq ih =>
    by_cases hin : b.bi.bestHeader.contains b.bi.mem p
    · exact hh.placed_of_contains hs hin hi hsame
    obtain ⟨fuel, rfl⟩ : ∃ n, fuel = n + 1 := ⟨fuel - 1, by omega⟩
    obtain ⟨hheight, hanc⟩ := hs.of_parent hp (hq.node hs hh) hhash.symm
    have hbase := hq.base_le hs hh
    rw [place_link hi hin hsame, hparent]
    obtain ⟨hslot, habove, hlength⟩ := @ih (nodes.set i (some p)) fuel (i - 1) (by omega) (by omega)
      (by rw [length_set]; omega) fun {j r} hj => by
        rw [getElem?_set_ne (by omega)]
        exact hsame (by omega)
    refine ⟨fun j hj => ?_, fun j hj => ?_, hlength.trans length_set⟩
    · rcases Nat.lt_or_eq_of_le hj with hlt | rfl
      · obtain ⟨x, r, hr, hnode, hrheight, hx⟩ := hslot j (by omega)
        exact ⟨x, r, hr, hnode, hrheight, by rw [hanc (by omega), hx]⟩
      · refine slot_self hs hp hi ?_
        rw [habove j (by omega), getElem?_set_self hlen]
    · rw [habove j (by omega), getElem?_set_ne (by omega)]

theorem Meets.setTip (h : b.Meets p) : ∃ i : Nat, (b.bi.mem p).height = b.bi.bestHeader.base + i ∧
    (b.bi.bestHeader.setTip b.bi.mem (some p)).base = b.bi.bestHeader.base ∧
    (b.bi.bestHeader.setTip b.bi.mem (some p)).nodes.length = i + 1 ∧
    (∀ j ≤ i, b.Slot (b.bi.bestHeader.setTip b.bi.mem (some p)).nodes p j) ∧
    (b.bi.bestHeader.setTip b.bi.mem (some p)).tip = some p := by
  have hbase := h.base_le hs hh
  obtain ⟨i, hi⟩ : ∃ i : Nat, (b.bi.mem p).height = b.bi.bestHeader.base + i :=
    ⟨((b.bi.mem p).height - b.bi.bestHeader.base).toNat, by omega⟩
  have hlen := length_resized b.bi.bestHeader.nodes i
  obtain ⟨hslot, -, hlength⟩ :=
    h.placed hs hh hi (Nat.lt_succ_self i) (Nat.lt_of_lt_of_eq (Nat.lt_succ_self i) hlen.symm) getElem?_resized
  rw [setTip_eq hi]
  refine ⟨i, hi, rfl, hlength.trans hlen, hslot, ?_⟩
  -- the node of the tip's own slot is the tip's
  obtain ⟨x, q, hq, hnode, -, hx⟩ := hslot i (Nat.le_refl i)
  have hknown := hs.node (h.node hs hh)
  rw [← hi, knownAncestor_self hknown (hs.known.nonneg hknown)] at hx
  cases hx
  obtain rfl := mem_unique (h.node hs hh) hnode
  rw [tip, getLast?_eq_getElem?]
  rw [hlength, hlen, Nat.add_sub_cancel, hq]
  rfl

theorem Headers.setHeaderTip (h : b.Meets p) : (b.setHeaderTip p).Headers := by
  obtain ⟨i, hi, hbase, hlen, hslot, htip⟩ := h.setTip hs hh
  have hset : b.setHeaderTip p = { b with bi := { b.bi with bestHeader := b.bi.bestHeader.setTip b.bi.mem (some p) } } := by
    unfold BlockChain.setHeaderTip
    rw [hh.own]
  rw [hset]
  generalize b.bi.bestHeader.setTip b.bi.mem (some p) = view at *
  have hat : ∀ k, headerAt { b with bi := { b.bi with bestHeader := view } } k = knownAncestor b.known
      (b.bi.mem p).hash k := by
    intro k
    rw [headerAt, bestHeader, show BlockChain.ownHeader { b with bi := { b.bi with bestHeader := view } } = none from hh.own,
      getD_none, htip, bind_some]
  constructor
  · exact hh.own
  · exact hh.window
  · rw [hbase]
    exact hh.base
  · rw [hlen]
    exact Nat.succ_pos i
  · intro k hlow hhigh
    dsimp only at hlow hhigh
    rw [hbase] at hlow hhigh
    obtain ⟨x, q, hq, hnode, hheight, hx⟩ := hslot (k - b.bi.bestHeader.base).toNat (by omega)
    have hk : b.bi.bestHeader.base + ((k - b.bi.bestHeader.base).toNat : Int) = k := by omega
    rw [hk] at hx hheight
    refine ⟨x, q, (hat k).trans hx, ?_, hnode, hheight⟩
    rw [nodeByHeight_eq_some]
    rw [hbase]
    exact ⟨hlow, hq⟩
  · intro k x hlt hx
    rw [hbase] at hlt
    rw [hat, h.headerAt_eq hs hh hlt] at hx
    exact hh.stored hlt hx
  · intro item hitem
    refine (hh.queued item hitem).mono fun k x hk hlt => ?_
    rw [hbase] at hlt
    rw [hat, h.headerAt_eq hs hh hlt]
    exact hk hlt

end Meets

end IniNode.BlockChain
