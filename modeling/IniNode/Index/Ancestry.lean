import IniNode.Index.Sound
import IniNode.Lib.Links
/-!
# The ancestors of a header

Every header that a node was ever made for is known with its height, and so is the header before it, down to genesis.
The ancestors of a block are what a walk over the known headers finds; neither links nor evictions matter to it.
-/

open IniNode.Lib Option

namespace IniNode.BlockChain

variable (known : Store Hash (BlockHeader × Int))

def knownParent (x : Hash) : Option Hash :=
  (known x).bind fun r => if (known r.1.prevBlock).isSome then some r.1.prevBlock else none

def knownAncestor (x : Hash) (h : Int) : Option Hash :=
  (known x).bind fun r => if 0 ≤ h ∧ h ≤ r.2 then hop (knownParent known) (r.2 - h).toNat (some x) else none

variable {params : ChainParams} {known known' : Store Hash (BlockHeader × Int)} {x y : Hash} {header : BlockHeader}
    {h k : Int}

theorem knownAncestor_eq (hx : known x = some (header, k)) (hpos : 0 ≤ h) (hle : h ≤ k) :
    knownAncestor known x h = hop (knownParent known) (k - h).toNat (some x) := by
  rw [knownAncestor, hx, bind_some, if_pos ⟨hpos, hle⟩]

theorem knownAncestor_self (hx : known x = some (header, k)) (hpos : 0 ≤ k) : knownAncestor known x k = some x := by
  rw [knownAncestor_eq hx hpos (Int.le_refl k), Int.sub_self]
  rfl

section Sound
variable (hs : KnownSound params known)
include hs

theorem KnownSound.parent (hx : known x = some (header, k)) (hpos : 0 < k) :
    knownParent known x = some header.prevBlock ∧ ∃ header', known header.prevBlock = some (header', k - 1) := by
  rcases hs.link hx with ⟨-, rfl⟩ | ⟨header', hlink⟩
  · omega
  · refine ⟨?_, header', hlink⟩
    rw [knownParent, hx, bind_some, hlink]
    rfl

theorem KnownSound.hop (hx : known x = some (header, k)) {n : Nat} (hn : (n : Int) ≤ k) :
    ∃ y header', hop (knownParent known) n (some x) = some y ∧ known y = some (header', k - n) := by
  induction n generalizing x header k with
  | zero => exact ⟨x, header, rfl, by simpa using hx⟩
  | succ n ih =>
    obtain ⟨hparent, header', hprev⟩ := hs.parent hx (by omega)
    obtain ⟨y, header'', hy, hknown⟩ := ih hprev (by omega)
    refine ⟨y, header'', ?_, ?_⟩
    · rw [hop_succ, hparent]
      exact hy
    · rw [hknown, show k - 1 - n = k - (n + 1 : Nat) by omega]

theorem KnownSound.ancestor (hx : known x = some (header, k)) (hpos : 0 ≤ h) (hle : h ≤ k) :
    ∃ y header', knownAncestor known x h = some y ∧ known y = some (header', h) := by
  obtain ⟨y, header', hy, hknown⟩ := hs.hop hx (n := (k - h).toNat) (by omega)
  refine ⟨y, header', ?_, ?_⟩
  · rw [knownAncestor_eq hx hpos hle, hy]
  · rw [hknown, show k - (k - h).toNat = h by omega]

theorem KnownSound.known_of_ancestor (hy : knownAncestor known x h = some y) :
    0 ≤ h ∧ ∃ header', known y = some (header', h) := by
  obtain ⟨⟨header, k⟩, hx, hin⟩ := bind_eq_some_iff.1 hy
  obtain ⟨⟨hpos, hle⟩, -⟩ := ite_none_right_eq_some.1 hin
  obtain ⟨z, header', hz, hknown⟩ := hs.ancestor hx hpos hle
  obtain rfl := mem_unique hy hz
  exact ⟨hpos, header', hknown⟩

theorem KnownSound.ancestor_parent (hx : known x = some (header, k)) (hlt : h < k) :
    knownAncestor known x h = knownAncestor known header.prevBlock h := by
  by_cases hpos : 0 ≤ h
  · obtain ⟨hparent, header', hprev⟩ := hs.parent hx (by omega)
    rw [knownAncestor_eq hx hpos (by omega), knownAncestor_eq hprev hpos (by omega),
      show (k - h).toNat = (k - 1 - h).toNat + 1 by omega, hop_succ, hparent]
  · have hnone : ∀ z, knownAncestor known z h = none := by
      intro z
      rw [knownAncestor, bind_eq_none_iff]
      exact fun r _ => if_neg fun hh => hpos hh.1
    rw [hnone, hnone]

theorem KnownSound.ancestor_trans (hy : knownAncestor known x k = some y) (hle : h ≤ k) :
    knownAncestor known x h = knownAncestor known y h := by
  obtain ⟨⟨header, j⟩, hx, hin⟩ := bind_eq_some_iff.1 hy
  obtain ⟨⟨hkpos, hkle⟩, hhop⟩ := ite_none_right_eq_some.1 hin
  obtain ⟨-, header', hknown⟩ := hs.known_of_ancestor hy
  by_cases hpos : 0 ≤ h
  · rw [knownAncestor_eq hx hpos (by omega), knownAncestor_eq hknown hpos hle, ← hhop, ← hop_add]
    congr 1
    omega
  · rw [knownAncestor, knownAncestor, hx, hknown, bind_some, bind_some, if_neg (fun hh => hpos hh.1),
      if_neg (fun hh => hpos hh.1)]

theorem KnownSound.ancestor_mono (hs' : KnownSound params known') (hle : ∀ x v, known x = some v → known' x = some v)
    (hx : known x = some (header, k)) (h : Int) : knownAncestor known' x h = knownAncestor known x h := by
  have hhop : ∀ (n : Nat) {x header k}, known x = some (header, k) → (n : Int) ≤ k →
      Lib.hop (knownParent known') n (some x) = Lib.hop (knownParent known) n (some x) := by
    intro n
    induction n with
    | zero => exact fun _ _ => rfl
    | succ n ih =>
      intro x header k hx hn
      obtain ⟨hparent, header', hprev⟩ := hs.parent hx (by omega)
      rw [hop_succ, hop_succ, hparent, (hs'.parent (hle _ _ hx) (by omega)).1]
      exact ih hprev (by omega)
  rw [knownAncestor, knownAncestor, hx, hle _ _ hx, bind_some, bind_some]
  split
  next hin => exact hhop _ hx (by omega)
  next => rfl

end Sound

theorem Sound.of_parent {b : BlockChain} (hs : b.Sound params) {p q : Ptr} (hp : b.bi.lookupNode x = some p)
    (hq : b.bi.lookupNode y = some q) (hparent : (b.bi.mem p).parentHash = y) :
    (b.bi.mem q).height = (b.bi.mem p).height - 1 ∧
      ∀ {h}, h ≤ (b.bi.mem q).height → knownAncestor b.known x h = knownAncestor b.known y h := by
  have hknown := hs.node hp
  have hknown' := hs.node hq
  subst hparent
  have hheight : (b.bi.mem q).height = (b.bi.mem p).height - 1 := by
    rcases hs.known.link hknown with ⟨hz, -⟩ | ⟨header, hlink⟩
    · rw [BlockNode.parentHash, hz, hs.known.zero] at hknown'
      cases hknown'
    · exact (Prod.mk.inj (mem_unique hknown' hlink)).2
  exact ⟨hheight, fun hle => hs.known.ancestor_parent hknown (by omega)⟩

end IniNode.BlockChain
