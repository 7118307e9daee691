import IniNode.Index.BlockIndex
/-!
# What an eviction leaves behind

`evictWindow` gives the nodes it removes back to the pool, where the next new node may take them. A link
that still leads to one of them then leads to another block. A node of the best chain, and a node between
the frontiers, has its links cut only below the best chain's boundary, while off the best chain every node
between that boundary and the header boundary goes unless it is between the frontiers too.
`evictWindow_dangles_iff` says exactly which links are left dangling, and `side_chain_dangles` is an index
that has one: the side chain leaves the frontier between a header and its parent.
-/

open IniNode.Lib List Option

namespace IniNode.BlockIndex

variable {bi : BlockIndex} {b : Bounds} {p q : Ptr}

/-- A view of the index: its nodes are indexed, each at its own height. -/
def ViewOf (bi : BlockIndex) (c : ChainView) : Prop :=
  ∀ (i : Nat) (p : Ptr), c.nodes[i]? = some (some p) → p ∈ bi.nodes ∧ (bi.mem p).height = c.base + i

/-- An index whose pointers all lead to indexed nodes, with two views over it. -/
structure Linked (bi : BlockIndex) : Prop where
  links : ∀ p ∈ bi.nodes, ∀ q ∈ (bi.mem p).links, q ∈ bi.nodes
  chain : bi.ViewOf bi.bestChain
  header : bi.ViewOf bi.bestHeader

/-- A node an eviction leaves in use: in the index or in one of the views. -/
def InUse (bi : BlockIndex) (p : Ptr) : Prop :=
  p ∈ bi.nodes ∨ some p ∈ bi.bestChain.nodes ∨ some p ∈ bi.bestHeader.nodes

/-- After an eviction, no node in use links to a node it removed. -/
def NoneDangles (bi : BlockIndex) : Prop :=
  ∀ p, bi.evictWindow.InUse p → ∀ q ∈ (bi.evictWindow.mem p).links, q ∉ bi.evicted

/-- The nodes that become the lowest of their view, whose links are cut without regard to heights. -/
def Anchored (bi : BlockIndex) (b : Bounds) (p : Ptr) : Prop :=
  bi.bestChain.anchor b.chain = some p ∨ bi.bestHeader.anchor b.header = some p

/-- A node that is measured against the best chain's boundary. -/
def NearChain (bi : BlockIndex) (b : Bounds) (p : Ptr) : Prop :=
  bi.bestChain.contains bi.mem p ∨ (bi.mem p).height < b.header ∧ b.inFrontier (bi.mem p).height

/-- A node between the two boundaries, off the best chain and outside the frontiers. -/
def Between (bi : BlockIndex) (b : Bounds) (q : Ptr) : Prop :=
  b.chain ≤ (bi.mem q).height ∧ (bi.mem q).height < b.header ∧
    ¬ bi.bestChain.contains bi.mem q ∧ ¬ b.inFrontier (bi.mem q).height

/-! ## What an eviction does to the index, the links and the views -/

theorem mem_evicted (hb : bi.bounds = some b) : p ∈ bi.evicted ↔ p ∈ bi.nodes ∧ bi.outOfWindow b p := by
  simp [evicted, hb]

theorem mem_nodes_evictWindow (hb : bi.bounds = some b) :
    p ∈ bi.evictWindow.nodes ↔ p ∈ bi.nodes ∧ ¬ bi.outOfWindow b p := by
  simp [evictWindow, hb, nodes, mem_vals_retain]

theorem mem_links_severAnchor (mem : Memory) (a : Option Ptr) :
    q ∈ (severAnchor mem a p).links ↔ a ≠ some p ∧ q ∈ (mem p).links := by
  rw [severAnchor_apply]
  by_cases h : a = some p <;> simp [h, BlockNode.links]

theorem mem_links_severLinks (kept : List Ptr) : q ∈ (bi.severLinks b kept p).links ↔
      q ∈ (bi.mem p).links ∧ (p ∈ kept → bi.severBound b p ≤ (bi.mem q).height) := by
  unfold severLinks
  by_cases hp : p ∈ kept
  · simp only [hp, if_true, BlockNode.mem_links, cutBelow, filter_eq_some_iff, true_implies, decide_eq_true_eq]
    rw [or_and_right]
  · simp [hp]

theorem mem_links_evictWindow (hb : bi.bounds = some b) : q ∈ (bi.evictWindow.mem p).links ↔
      ¬ bi.Anchored b p ∧ q ∈ (bi.mem p).links ∧
        (p ∈ bi.evictWindow.nodes → bi.severBound b p ≤ (bi.mem q).height) := by
  have hmem : bi.evictWindow.mem =
      severAnchor (severAnchor (bi.severLinks b bi.evictWindow.nodes) (bi.bestChain.anchor b.chain))
        (bi.bestHeader.anchor b.header) := by
    simp [evictWindow, hb, nodes]
  rw [hmem, mem_links_severAnchor, mem_links_severAnchor, mem_links_severLinks, Anchored, not_or]
  constructor
  · rintro ⟨hh, hc, hq⟩
    exact ⟨⟨hc, hh⟩, hq⟩
  · rintro ⟨⟨hc, hh⟩, hq⟩
    exact ⟨hh, hc, hq⟩

theorem ViewOf.height_pruneBelow {c : ChainView} (hc : bi.ViewOf c) {h : Int}
    (hp : some p ∈ (c.pruneBelow h).nodes) : p ∈ bi.nodes ∧ h ≤ (bi.mem p).height := by
  unfold ChainView.pruneBelow at hp
  split at hp
  · obtain ⟨i, hi⟩ := mem_iff_getElem?.1 hp
    obtain ⟨hn, hh⟩ := hc i p hi
    exact ⟨hn, by omega⟩
  · obtain ⟨i, hi⟩ := mem_iff_getElem?.1 hp
    rw [getElem?_drop] at hi
    obtain ⟨hn, hh⟩ := hc _ p hi
    exact ⟨hn, by omega⟩

theorem ViewOf.contains {c : ChainView} (hc : bi.ViewOf c) (hp : some p ∈ c.nodes) : c.contains bi.mem p := by
  obtain ⟨i, hi⟩ := mem_iff_getElem?.1 hp
  obtain ⟨-, hh⟩ := hc i p hi
  refine ChainView.nodeByHeight_eq_some.2 ⟨by omega, ?_⟩
  rw [hh, show (c.base + i - c.base).toNat = i by omega]
  exact hi

/-- A node left in use is left in the index: the views only reach nodes that stay. -/
theorem Linked.mem_nodes_of_inUse (hl : bi.Linked) (hb : bi.bounds = some b) (hp : bi.evictWindow.InUse p) :
    p ∈ bi.evictWindow.nodes := by
  have hviews : bi.evictWindow.bestChain = bi.bestChain.pruneBelow b.chain ∧
      bi.evictWindow.bestHeader = bi.bestHeader.pruneBelow b.header := by
    simp [evictWindow, hb]
  unfold InUse at hp
  rw [hviews.1, hviews.2] at hp
  rcases hp with hp | hp | hp
  · exact hp
  · obtain ⟨hn, -⟩ := hl.chain.height_pruneBelow hp
    have hin := hl.chain.contains (ChainView.nodes_pruneBelow_subset _ _ hp)
    exact (mem_nodes_evictWindow hb).2 ⟨hn, fun hout => hout.2.1 hin⟩
  · obtain ⟨hn, hh⟩ := hl.header.height_pruneBelow hp
    exact (mem_nodes_evictWindow hb).2 ⟨hn, fun hout => absurd hout.1 (Int.not_lt.2 hh)⟩

/-! ## The dangling links -/

theorem NearChain.severBound (h : bi.NearChain b p) : bi.severBound b p = b.chain := by
  refine if_pos ?_
  rcases h with h | ⟨h, hf⟩
  · exact .inl h
  · exact .inr ⟨h, hf.1⟩

theorem NearChain.not_outOfWindow (h : bi.NearChain b p) : ¬ bi.outOfWindow b p := by
  rintro ⟨-, hc, hf⟩
  rcases h with h | ⟨-, h⟩
  · exact hc h
  · exact hf h

/-- A node that stays and keeps a link to a node that goes is measured against the best chain's boundary:
against the header boundary the link would have been cut. -/
theorem nearChain_of_dangling (hp : ¬ bi.outOfWindow b p) (hq : bi.outOfWindow b q)
    (hbound : bi.severBound b p ≤ (bi.mem q).height) : bi.NearChain b p := by
  unfold severBound at hbound
  by_cases hc : bi.bestChain.contains bi.mem p
  · exact .inl hc
  · by_cases hlow : (bi.mem p).height < b.header ∧ b.frontierLow ≤ (bi.mem p).height
    · refine .inr ⟨hlow.1, ?_⟩
      by_contra hf
      exact hp ⟨hlow.1, hc, hf⟩
    · rw [if_neg (not_or.2 ⟨hc, hlow⟩)] at hbound
      exact absurd hq.1 (Int.not_lt.2 hbound)

theorem NoneDangles.not_between (hl : bi.Linked) (h : bi.NoneDangles) (hb : bi.bounds = some b)
    (hp : p ∈ bi.nodes) (hnear : bi.NearChain b p) (hanc : ¬ bi.Anchored b p) (hq : q ∈ (bi.mem p).links) :
    ¬ bi.Between b q := by
  intro hbet
  have hkept := (mem_nodes_evictWindow hb).2 ⟨hp, hnear.not_outOfWindow⟩
  have hlink := (mem_links_evictWindow hb).2 ⟨hanc, hq, fun _ => hnear.severBound ▸ hbet.1⟩
  exact h p (.inl hkept) q hlink ((mem_evicted hb).2 ⟨hl.links p hp q hq, hbet.2⟩)

/-- An eviction leaves no dangling link exactly when no node near the best chain, the two anchors aside,
links to a node off the best chain, between the two boundaries and outside the frontiers. -/
theorem evictWindow_dangles_iff (bi : BlockIndex) (hl : bi.Linked) : bi.NoneDangles ↔
      ∀ b, bi.bounds = some b → ∀ p ∈ bi.nodes, bi.NearChain b p → ¬ bi.Anchored b p →
        ∀ q ∈ (bi.mem p).links, ¬ bi.Between b q := by
  constructor
  · intro h b hb p hp hnear hanc q hq
    exact h.not_between hl hb hp hnear hanc hq
  · intro h p hp q hq hev
    cases hb : bi.bounds with
    | none => simp [evicted, hb] at hev
    | some b =>
      have hkept := hl.mem_nodes_of_inUse hb hp
      obtain ⟨hn, hin⟩ := (mem_nodes_evictWindow hb).1 hkept
      obtain ⟨hanc, hlink, hbound⟩ := (mem_links_evictWindow hb).1 hq
      obtain ⟨-, hout⟩ := (mem_evicted hb).1 hev
      have hnear := nearChain_of_dangling hin hout (hbound hkept)
      exact h b hb p hn hnear hanc q hlink ⟨hnear.severBound ▸ hbound hkept, hout⟩

/-! ## A side chain that leaves the frontier -/

/-- The addresses of a header chain from genesis on with a fork of two headers on the genesis block: the
blocks up to height 3 are at 0 to 3, the fork at 4 and 5, and the headers from height 4 on at 6 and up. -/
def mainPtr (height : Nat) : Nat := if height ≤ 3 then height else height + 2

variable (p : Nat)

def forkHeight : Nat := if p ≤ 3 then p else if p ≤ 5 then p - 3 else p - 2

def forkParent : Option Nat :=
  if p = 0 then none else if p = 4 then some 0 else if p = 6 then some 3 else some (p - 1)

def forkHeader : BlockHeader where
  version := 4
  prevBlock := match forkParent p with
    | none => zeroHash
    | some q => q + 1
  merkleRoot := 0
  timestamp := 0
  bits := 0x1f3fffff
  nonce := p

def forkNode : BlockNode where
  parent := forkParent p
  ancestor := if p = 0 then none else some (mainPtr (getAncestorHeight (forkHeight p)).toNat)
  hash := p + 1
  header := forkHeader p
  workSum := (forkHeight p + 1) * calcWork 0x1f3fffff
  height := forkHeight p
  status := { headerStored := true }

/-- A window of one block over headers up to height 525, with the blocks up to some height connected. -/
def forked (connected : Nat) : BlockIndex where
  mem := forkNode
  fresh := 528
  pool := []
  index :=
    { entries := (range 528).map fun p => ⟨p + 1, p⟩
      nodupKeys := by
        have hkeys : ((range 528).map fun p => (⟨p + 1, p⟩ : (_ : Hash) × Ptr)).keys =
            (range 528).map (· + 1) := by
          rw [List.keys, List.map_map]
          rfl
        rw [NodupKeys, hkeys]
        exact nodup_range.map fun _ _ h => Nat.succ.inj h }
  dirty := []
  bestChain := { nodes := (range (connected + 1)).map fun h => some (mainPtr h) }
  bestHeader := { nodes := (range 526).map fun h => some (mainPtr h) }
  windowSize := 1
  ready := true
  evictCount := 0

theorem mem_nodes_forked {n p : Nat} : p ∈ (forked n).nodes ↔ p < 528 := by
  simp [nodes, vals, forked]

/-- The heights up to some height, each with its block, are a view of the index. -/
theorem forked_view (n : Nat) {m : Nat} (hm : m ≤ 526) :
    (forked n).ViewOf { nodes := (range m).map fun h => some (mainPtr h) } := by
  have hmain : ∀ h < 526, mainPtr h < 528 ∧ (forkNode (mainPtr h)).height = 0 + h := by decide +kernel
  intro i p hi
  simp only [getElem?_map, map_eq_some_iff, Option.some.injEq] at hi
  obtain ⟨h, hr, rfl⟩ := hi
  obtain ⟨hlt, rfl⟩ := List.getElem?_eq_some_iff.1 hr
  rw [length_range] at hlt
  rw [getElem_range, mem_nodes_forked]
  exact hmain i (by omega)

theorem forked_linked {n : Nat} (hn : n ≤ 525) : (forked n).Linked where
  links p hp q hq := by
    have hlinks : ∀ p < 528, ∀ q ∈ (forkNode p).links, q < 528 := by decide +kernel
    rw [mem_nodes_forked] at hp ⊢
    exact hlinks p hp q hq
  chain := forked_view n (by omega)
  header := forked_view n (Nat.le_refl _)

/-- The fork's second header is kept, being as high as the lower frontier, with its link to the first,
which is one below and goes: with three blocks connected the fork's first header is recycled while its
child still points at it. -/
theorem side_chain_dangles : (forked 3).Linked ∧ 0 < (forked 3).windowSize ∧ ¬ (forked 3).NoneDangles := by
  refine ⟨forked_linked (by decide), by decide, fun h => ?_⟩
  have hb : (forked 3).bounds = some ⟨0, 3, 2, 4⟩ := by decide +kernel
  refine h.not_between (forked_linked (by decide)) hb (p := 5) (q := 4) (mem_nodes_forked.2 (by decide))
    (.inr (by decide)) ?_ (by decide) ⟨by decide, by decide, by decide, by decide⟩
  rintro (hanc | hanc)
  · cases hanc
  · exact absurd hanc (by decide +kernel)

/-- With ten blocks connected the whole fork goes, and nothing that stays links to it. -/
theorem evictWindow_dangles_iff_forked : (forked 10).NoneDangles := by
  refine (evictWindow_dangles_iff (forked 10) (forked_linked (by decide))).2 ?_
  intro b hb p hp hnear _ q hq hbet
  have hbounds : (forked 10).bounds = some ⟨0, 3, 9, 11⟩ := by decide +kernel
  obtain rfl := mem_unique hbounds hb
  rcases hnear with hin | ⟨hlt, hfront⟩
  · -- the links of the best chain stay in it
    have hstay : ∀ p < 528, (forked 10).bestChain.contains forkNode p → ∀ q ∈ (forkNode p).links,
        (forked 10).bestChain.contains forkNode q := by decide +kernel
    exact hbet.2.2.1 (hstay p (mem_nodes_forked.1 hp) hin q hq)
  · exact absurd hlt (Int.not_lt.2 (Int.le_trans (by decide) hfront.1))

end IniNode.BlockIndex
