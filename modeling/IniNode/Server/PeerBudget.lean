import IniNode.Lib.Run
/-!
# The peer budget of the server

`handleAddPeerMsg` and `handleDonePeerMsg` over the three pools of peerState. An evicted peer stays in its pool until its
done message, so a second outbound peer can evict the same entry again, and the server then holds more connections than
MaxPeers. The order in which Go ranges over the inbound map is an input.
-/

open IniNode.Lib List

namespace IniNode.Server

structure ServerPeer where
  id : Nat
  inbound : Bool
  persistent : Bool := false
  isWhitelisted : Bool := false
  hasUndesiredUserAgent : Bool := false
  addr : Nat
  /-- The host part of the address, none if it cannot be split. -/
  host : Option Nat := some addr
  peerIP : Option Nat := some addr
deriving DecidableEq

structure Config where
  maxPeers : Nat
  maxPeersPerIP : Nat

/-- The pools, with the peers whose connection has been closed. -/
structure PeerState where
  inboundPeers : List ServerPeer := []
  outboundPeers : List ServerPeer := []
  persistentPeers : List ServerPeer := []
  banned : Nat → Option Nat := fun _ => none
  disconnected : List ServerPeer := []

namespace PeerState

variable (cfg : Config) (s : PeerState) (sp : ServerPeer)

def forAllPeers : List ServerPeer := s.inboundPeers ++ (s.outboundPeers ++ s.persistentPeers)

def count : Nat := s.inboundPeers.length + s.outboundPeers.length + s.persistentPeers.length

def connectedPeers : List ServerPeer := s.forAllPeers.filter (· ∉ s.disconnected)

def disconnect : PeerState := { s with disconnected := sp :: s.disconnected }

def delete (m : List ServerPeer) : List ServerPeer := m.filter (·.id ≠ sp.id)

def put (m : List ServerPeer) : List ServerPeer := sp :: delete sp m

def addPeer : PeerState :=
  if sp.inbound then { s with inboundPeers := put sp s.inboundPeers }
  else if sp.persistent then { s with persistentPeers := put sp s.persistentPeers }
  else { s with outboundPeers := put sp s.outboundPeers }

/-- The inbound peer at which the loop of the eviction stops. -/
def victim (order : Nat) : Option ServerPeer :=
  let peers := s.inboundPeers.filter (!·.isWhitelisted)
  peers[order % peers.length]?

def handleAddPeerMsg (shutdown : Bool) (now order : Nat) : PeerState :=
  if sp ∈ s.disconnected then s
  else if sp.hasUndesiredUserAgent || shutdown then s.disconnect sp
  else match sp.host with
  | none => s.disconnect sp
  | some host =>
    if (s.banned host).any (now < ·) then s.disconnect sp
    else
      let s := { s with banned := fun h => if h = host then none else s.banned h }
      if sp.inbound && !sp.isWhitelisted && cfg.maxPeersPerIP > 0 && sp.peerIP.isSome &&
          (s.connectedPeers.filter (·.peerIP = sp.peerIP)).length ≥ cfg.maxPeersPerIP then s.disconnect sp
      else if !sp.inbound && s.connectedPeers.any (fun ep => ep ≠ sp && ep.addr = sp.addr) then s.disconnect sp
      else if sp.inbound && s.inboundPeers.length ≥
          cfg.maxPeers - (s.outboundPeers.length + s.persistentPeers.length) then s.disconnect sp
      else if s.count ≥ cfg.maxPeers then
        match sp.inbound, s.victim order with
        | false, some ip => (s.disconnect ip).addPeer sp
        | _, _ => s.disconnect sp
      else s.addPeer sp

def handleDonePeerMsg : PeerState :=
  if sp.persistent then { s with persistentPeers := delete sp s.persistentPeers }
  else if sp.inbound then { s with inboundPeers := delete sp s.inboundPeers }
  else { s with outboundPeers := delete sp s.outboundPeers }

end PeerState

open PeerState

/-- A connection can also be lost at any time. -/
inductive Event where
  | add (sp : ServerPeer) (shutdown : Bool) (now order : Nat)
  | lose (sp : ServerPeer)
  | done (sp : ServerPeer)

def step (cfg : Config) (s : PeerState) : Event → Option PeerState
  | .add sp shutdown now order => some (s.handleAddPeerMsg cfg sp shutdown now order)
  | .lose sp => some (s.disconnect sp)
  | .done sp => some (s.handleDonePeerMsg sp)

/-- An outbound peer arrives below the budget, or the peer it evicts is still connected. -/
def evictsConnected (cfg : Config) (s : PeerState) : Event → Bool
  | .add sp _ _ order => sp.inbound || s.connectedPeers.length < cfg.maxPeers || (s.victim order).all (· ∉ s.disconnected)
  | _ => true

variable {cfg : Config} {s t : PeerState} {sp v : ServerPeer} {order : Nat}

theorem connectedPeers_disconnect : (s.disconnect v).connectedPeers = s.connectedPeers.filter (· ≠ v) := by
  simp [connectedPeers, disconnect, forAllPeers]

theorem length_disconnect_le : (s.disconnect v).connectedPeers.length ≤ s.connectedPeers.length :=
  connectedPeers_disconnect ▸ length_filter_le ..

theorem length_addPeer_le : (s.addPeer sp).connectedPeers.length ≤ s.connectedPeers.length + 1 := by
  have hput (m : List ServerPeer) :
      ((put sp m).filter (· ∉ s.disconnected)).length ≤ (m.filter (· ∉ s.disconnected)).length + 1 := by
    have := ((filter_sublist : (delete sp m).Sublist m).filter (· ∉ s.disconnected)).length_le
    grind [put, delete]
  have hi := hput s.inboundPeers
  have ho := hput s.outboundPeers
  have hp := hput s.persistentPeers
  unfold addPeer
  split_ifs <;> simp only [connectedPeers, forAllPeers, filter_append, length_append] at * <;> omega

theorem connectedPeers_le_count : s.connectedPeers.length ≤ s.count := by
  grind [forAllPeers, connectedPeers, PeerState.count]

theorem mem_of_victim (h : s.victim order = some v) : v ∈ s.inboundPeers ∧ v.isWhitelisted = false := by
  simpa using mem_of_getElem? h

/-- What adding a peer can do. -/
inductive Added (cfg : Config) (s : PeerState) (sp : ServerPeer) (order : Nat) : PeerState → Prop
  | ignored : Added cfg s sp order s
  | refused (b) : Added cfg s sp order ({ s with banned := b }.disconnect sp)
  | room (b) (h : s.count < cfg.maxPeers) : Added cfg s sp order ({ s with banned := b }.addPeer sp)
  | evicted (b) (v) (hout : sp.inbound = false) (hv : s.victim order = some v) :
    Added cfg s sp order (({ s with banned := b }.disconnect v).addPeer sp)

theorem added_handleAddPeerMsg (shutdown : Bool) (now : Nat) :
    Added cfg s sp order (s.handleAddPeerMsg cfg sp shutdown now order) := by
  unfold handleAddPeerMsg
  split_ifs
  · exact .ignored
  · exact .refused s.banned
  split
  · exact .refused s.banned
  split_ifs
  · exact .refused s.banned
  dsimp only
  split_ifs with _ _ _ hfull
  any_goals exact .refused _
  · split
    · exact .evicted _ _ ‹_› ‹_›
    · exact .refused _
  · exact .room _ (Nat.lt_of_not_le hfull)

theorem Added.length_le (h : Added cfg s sp order t) (hok : evictsConnected cfg s (.add sp false 0 order))
    (hle : s.connectedPeers.length ≤ cfg.maxPeers) : t.connectedPeers.length ≤ cfg.maxPeers := by
  cases h with
  | ignored => exact hle
  | refused b => exact Nat.le_trans length_disconnect_le hle
  | room b h => exact Nat.le_trans length_addPeer_le (Nat.lt_of_le_of_lt connectedPeers_le_count h)
  | evicted b v hout hv =>
    refine Nat.le_trans length_addPeer_le (?_ : (s.disconnect v).connectedPeers.length < cfg.maxPeers)
    simp only [evictsConnected, hout, hv, Bool.false_or, Bool.or_eq_true, decide_eq_true_eq, Option.all_some] at hok
    rcases hok with hlt | hc
    · exact Nat.lt_of_le_of_lt length_disconnect_le hlt
    · have hmem : v ∈ s.connectedPeers := mem_filter.2 ⟨mem_append_left _ (mem_of_victim hv).1, decide_eq_true hc⟩
      rw [connectedPeers_disconnect]
      exact Nat.lt_of_lt_of_le (length_filter_lt_length_iff_exists.2 ⟨v, hmem, by simp⟩) hle

theorem Added.mem_disconnected (h : Added cfg s sp order t) (hm : v ∈ t.disconnected) :
    v ∈ s.disconnected ∨ v = sp ∨ v ∈ s.inboundPeers ∧ v.isWhitelisted = false := by
  have hadd (s : PeerState) : (s.addPeer sp).disconnected = s.disconnected := by grind [addPeer]
  cases h with
  | ignored => exact .inl hm
  | refused b => exact (mem_cons.1 hm).elim (.inr ∘ .inl) .inl
  | room b h => rw [hadd] at hm; exact .inl hm
  | evicted b w hout hv =>
    rw [hadd] at hm
    exact (mem_cons.1 hm).elim (fun h => .inr (.inr (h ▸ mem_of_victim hv))) .inl

theorem step_length_le {e : Event} (hle : s.connectedPeers.length ≤ cfg.maxPeers) (hok : evictsConnected cfg s e)
    (hst : step cfg s e = some t) : t.connectedPeers.length ≤ cfg.maxPeers := by
  cases e with cases hst
  | add sp shutdown now order => exact (added_handleAddPeerMsg shutdown now).length_le hok hle
  | lose sp => exact Nat.le_trans length_disconnect_le hle
  | done sp =>
    refine Nat.le_trans (Sublist.length_le ?_) hle
    unfold handleDonePeerMsg
    split_ifs
    · exact ((filter_sublist.append_left _).append_left _).filter _
    · exact (filter_sublist.append_right _).filter _
    · exact ((filter_sublist.append_right _).append_left _).filter _

/-- As long as every eviction takes a peer that is still connected, no more than MaxPeers are. Whoever is disconnected to
make room is not whitelisted, in any case. -/
theorem connected_le_maxPeers {es : List Event} (hok : Along (step cfg) (evictsConnected cfg · ·) {} es)
    (hrun : run (step cfg) {} es = some s) :
    s.connectedPeers.length ≤ cfg.maxPeers ∧
      ∀ sp shutdown now order, ∀ v ∈ (s.handleAddPeerMsg cfg sp shutdown now order).disconnected,
        v ∉ s.disconnected → v ≠ sp → v ∈ s.inboundPeers ∧ v.isWhitelisted = false := by
  refine ⟨run_invariant (fun _ _ _ hle hok hst => step_length_le hle hok hst) (Nat.zero_le _) hok hrun, ?_⟩
  intro sp shutdown now order v hv hnew hne
  exact ((added_handleAddPeerMsg shutdown now).mem_disconnected hv).resolve_left hnew |>.resolve_left hne

/-- The n-th peer arrives. -/
def arrive (n : Nat) (inbound : Bool) : Event := .add { id := n, inbound, addr := n } false 0 0

theorem connected_le_maxPeers_evicted :
    ∃ s, run (step ⟨1, 0⟩) {} [arrive 0 true, arrive 1 false] = some s ∧ s.connectedPeers.length ≤ 1 :=
  exists_run rfl fun _ hrun => (connected_le_maxPeers (by decide) hrun).1

/-- The second outbound peer evicts the inbound one again, which is gone already. -/
theorem evicted_twice : ∃ s, run (step ⟨1, 0⟩) {} [arrive 0 true, arrive 1 false, arrive 2 false] = some s ∧
    s.connectedPeers.length = 2 := ⟨_, rfl, by decide⟩

end IniNode.Server
