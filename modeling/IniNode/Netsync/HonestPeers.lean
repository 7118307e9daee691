import IniNode.Netsync.BlockSync
/-!
# An honest peer is not disconnected

A peer's own request set is all the manager remembers of what it asked that peer for, and a block outside it closes the
connection. The invariant is that the set holds every answer that may still be travelling. Asking a peer keeps it, and so
does freeing hashes for others, since that touches only the set of all requests. A reset empties the peers' sets as well,
and a full set gives up an arbitrary entry; both forget requests that the peer is about to answer.
-/

open Function

namespace IniNode.Netsync

open Lib Finset

/-- The peer sends only blocks it was asked for on this connection, and each once. -/
def Honest (p : Peer) (d : Downloads) : DownloadStep → Prop
  | .block _ peer hash => peer = p → hash ∈ (d.talk p).asked ∧ hash ∉ (d.talk p).sent
  | _ => True

/-- Nothing is reset while the peer has answers to give, its request set has room for what it announces, and it does not
send a block that it reported as not found. -/
def Remembered (p : Peer) (d : Downloads) : DownloadStep → Prop
  | .resetDownloadState => (d.talk p).owed = ∅
  | .inv _ _ peer announced => peer = p → ∀ st, d.peerStates p = some st →
      st.requestedBlocks.card + (st.requestQueue ++ announced).length ≤ maxRequestedBlocks
  | .block _ peer hash => peer = p → hash ∉ (d.talk p).notFound
  | _ => True

/-- What the peer still owes is in its request set, and its connection was not closed. -/
structure Kept (p : Peer) (d : Downloads) : Prop where
  owed : ∀ st, d.peerStates p = some st → (d.talk p).owed ⊆ st.requestedBlocks
  connected : p ∉ d.disconnected

theorem Talk.owed_ask (t : Talk) (hash : Hash) : (t.ask hash).owed ⊆ insert hash t.owed := by
  intro x hx
  simp only [Talk.owed, Talk.ask, mem_sdiff, mem_insert, mem_erase, not_and] at hx ⊢
  by_cases hxh : x = hash
  · exact .inl hxh
  · exact .inr ⟨⟨hx.1.1.resolve_left hxh, hx.1.2⟩, hx.2 hxh⟩

/-- `e` comes from `d` by requests to peers and by changes to the slices and to the set of all requests. -/
inductive Asks (d : Downloads) : Downloads → Prop
  | refl : Asks d d
  | request {e : Downloads} (peer : Peer) (hash : Hash) : Asks d e → Asks d (e.request peer hash)
  | frame {e : Downloads} (requestedBlocks : Finset Hash) (blockSync : Option (List Peer))
      (blockSyncState : Option BlockSyncState) :
      Asks d e → Asks d { e with requestedBlocks, blockSync, blockSyncState }

namespace Asks

variable {d e f : Downloads} {env : BlockEnv} {peer : Peer}

theorem trans (h : Asks d e) (h' : Asks e f) : Asks d f := by
  induction h' with
  | refl => exact h
  | request peer hash _ ih => exact ih.request peer hash
  | frame requestedBlocks blockSync blockSyncState _ ih => exact ih.frame requestedBlocks blockSync blockSyncState

theorem foldl {α : Type} {g : Downloads → α → Downloads} (hg : ∀ d x, Asks d (g d x)) (xs : List α)
    (d : Downloads) : Asks d (xs.foldl g d) := by
  induction xs generalizing d with
  | nil => exact refl
  | cons x xs ih => exact (hg d x).trans (ih (g d x))

theorem releaseBlockSlice : Asks d (d.releaseBlockSlice peer) := refl.frame _ _ _

theorem setProgress : Asks d (d.setProgress env peer) := refl.frame _ _ _

theorem clearRequestedState (st : PeerSyncState) : Asks d (d.clearRequestedState st) := refl.frame _ _ _

theorem assignBlockSlice : Asks d (d.assignBlockSlice env peer).1 := by
  unfold Downloads.assignBlockSlice
  split
  · exact refl
  · exact refl.frame _ _ _

theorem dropPeer : Asks d (d.dropPeer peer) := by
  unfold Downloads.dropPeer
  split
  · exact refl
  · exact refl.frame _ _ _

theorem requestBlocks {requestEnd : Int} (n : Nat) (h : Int) (k : Nat) (d : Downloads) :
    Asks d (Downloads.requestBlocks env peer requestEnd n h k d).1 := by
  induction n generalizing h k d with
  | zero => exact refl
  | succ n ih =>
    rw [Downloads.requestBlocks]
    split
    · exact refl
    next hash _ =>
      split
      · exact ih _ _ _
      · have hone : Asks d (if env.haveBlock hash then d else d.request peer hash) := by
          split
          · exact refl
          · exact refl.request peer hash
        dsimp only
        generalize (if env.haveBlock hash then k else k + 1) = k'
        split
        · exact hone
        · exact hone.trans (ih _ _ _)

theorem heldSlice {bs : BlockSyncState} : Asks d (d.heldSlice env bs peer).1 := by
  unfold Downloads.heldSlice
  split
  · exact refl
  · exact assignBlockSlice

theorem fetchHeaderBlocks (d : Downloads) (peer : Peer) : Asks d (d.fetchHeaderBlocks env peer) := by
  unfold Downloads.fetchHeaderBlocks
  split
  · exact refl
  split
  · exact requestBlocks _ _ _ _
  next bs _ =>
    have hheld : Asks d (d.heldSlice env bs peer).1 := heldSlice
    split
    next heq =>
      rw [heq] at hheld
      exact hheld
    next d' sl heq =>
      rw [heq] at hheld
      dsimp only
      split
      · exact (hheld.trans (requestBlocks _ _ _ _)).trans releaseBlockSlice
      · exact hheld.trans (requestBlocks _ _ _ _)

theorem blockSyncAddPeer (d : Downloads) (peer : Peer) : Asks d (d.blockSyncAddPeer env peer) := by
  unfold Downloads.blockSyncAddPeer
  split
  · exact refl
  split
  · exact refl
  · exact (refl.frame d.requestedBlocks _ d.blockSyncState).trans (fetchHeaderBlocks _ peer)

theorem startSync {peers : List Peer} : Asks d (d.startSync env peers) :=
  (refl.frame d.requestedBlocks _ d.blockSyncState).trans (foldl blockSyncAddPeer peers _)

theorem startParallelBlockDownload {peers order : List Peer} :
    Asks d (d.startParallelBlockDownload env peers order) := by
  unfold Downloads.startParallelBlockDownload
  dsimp only
  split
  · exact refl.frame _ _ _
  · exact (refl.frame d.requestedBlocks _ _).trans (foldl fetchHeaderBlocks _ _)

theorem blkDownload : Asks d (d.blkDownload env) := by
  refine foldl (fun d peer => ?_) _ d
  split
  · exact refl
  · exact fetchHeaderBlocks d peer

theorem reissueStaleBlockSlice {start : Int} : Asks d (d.reissueStaleBlockSlice env start) := by
  unfold Downloads.reissueStaleBlockSlice
  split
  · exact refl
  dsimp only
  split
  · exact refl
  split
  · exact refl
  · exact (refl.frame _ d.blockSync _).trans assignBlockSlice

theorem reissueStalledBlockPeers : Asks d (d.reissueStalledBlockPeers env) := by
  refine foldl (fun d peer => ?_) _ d
  unfold Downloads.reissueStalledBlockPeer
  split
  · split
    · exact refl
    split
    · exact setProgress
    split
    · exact refl
    · apply Asks.trans _ setProgress
      apply Asks.trans _ (fetchHeaderBlocks _ peer)
      exact (clearRequestedState _).trans releaseBlockSlice
  · exact refl

theorem clearSyncPeer : Asks d (d.clearSyncPeer peer) := by
  unfold Downloads.clearSyncPeer
  cases d.peerStates peer with
  | none => exact refl
  | some st => exact clearRequestedState st

end Asks

namespace Kept

variable {p peer : Peer} {d e : Downloads} {env : BlockEnv} {hash : Hash}

section

variable (h : Kept p d)

include h

theorem frame (hstate : e.peerStates p = d.peerStates p) (htalk : e.talk p = d.talk p)
    (hdis : e.disconnected = d.disconnected) : Kept p e := by
  refine ⟨fun st hst => ?_, hdis ▸ h.connected⟩
  rw [htalk]
  exact h.owed st (hstate ▸ hst)

theorem request (peer : Peer) (hash : Hash) : Kept p (d.request peer hash) := by
  unfold Downloads.request
  split
  · exact h
  next st hst =>
    by_cases hp : peer = p
    · subst hp
      refine ⟨fun st' hst' => ?_, h.connected⟩
      simp only [Downloads.setPeer, update_self, Option.some.injEq] at hst' ⊢
      rw [← hst']
      exact (Talk.owed_ask _ _).trans (insert_subset_insert _ (h.owed st hst))
    · refine h.frame ?_ ?_ rfl
      · exact update_of_ne (Ne.symm hp) _ _
      · exact update_of_ne (Ne.symm hp) _ _

theorem asks (ha : Asks d e) : Kept p e := by
  induction ha with
  | refl => exact h
  | request peer hash _ ih => exact ih.request peer hash
  | frame _ _ _ _ ih => exact ih.frame rfl rfl rfl

theorem newPeer (peer : Peer) (syncCandidate : Bool) : Kept p (d.handleNewPeerMsg peer syncCandidate) := by
  by_cases hp : peer = p
  · subst hp
    refine ⟨fun st _ => ?_, notMem_erase _ _⟩
    have hnew : ((d.handleNewPeerMsg peer syncCandidate).talk peer).owed = ∅ := by
      simp [Downloads.handleNewPeerMsg, Talk.owed]
    rw [hnew]
    exact empty_subset _
  · refine ⟨fun st hst => ?_, fun hmem => h.connected (mem_of_mem_erase hmem)⟩
    simp only [Downloads.handleNewPeerMsg, Downloads.setPeer, update_of_ne (Ne.symm hp)] at hst ⊢
    exact h.owed st hst

theorem donePeer (peer : Peer) : Kept p (d.handleDonePeerMsg peer) := by
  unfold Downloads.handleDonePeerMsg
  split
  · exact h
  next st _ =>
    apply asks _ Asks.dropPeer
    apply asks _ (Asks.clearRequestedState st)
    refine ⟨fun st' hst' => h.owed st' ?_, h.connected⟩
    by_cases hp : p = peer
    · rw [hp] at hst'
      cases (update_self ..).symm.trans hst'
    · exact (update_of_ne hp ..).symm.trans hst'

theorem block (hhonest : Honest p d (.block env peer hash))
    (hrem : Remembered p d (.block env peer hash)) : Kept p (d.handleBlockMsg env peer hash) := by
  by_cases hp : peer = p
  · subst hp
    obtain ⟨hasked, hsent⟩ := hhonest rfl
    have howed : hash ∈ (d.talk peer).owed := by
      simp only [Talk.owed, mem_sdiff]
      exact ⟨⟨hasked, hsent⟩, hrem rfl⟩
    have hless : ∀ x ∈ ({ d.talk peer with sent := insert hash (d.talk peer).sent } : Talk).owed,
        x ∈ (d.talk peer).owed ∧ x ≠ hash := by
      intro x hx
      simp only [Talk.owed, mem_sdiff, mem_insert, not_or] at hx ⊢
      exact ⟨⟨⟨hx.1.1, hx.1.2.2⟩, hx.2⟩, hx.1.2.1⟩
    unfold Downloads.handleBlockMsg
    dsimp only
    split
    next hnone => exact ⟨fun st hst => absurd (hnone.symm.trans hst) nofun, h.connected⟩
    next st hst =>
      rw [if_neg fun hno => hno.1 (h.owed st hst howed)]
      apply asks _ Asks.setProgress
      refine ⟨fun st' hst' x hx => ?_, h.connected⟩
      simp only [Downloads.setPeer, update_self, Option.some.injEq] at hst' hx
      obtain ⟨hx, hne⟩ := hless x hx
      rw [← hst']
      exact mem_erase.2 ⟨hne, h.owed st hst hx⟩
  · unfold Downloads.handleBlockMsg
    dsimp only
    split
    · exact h.frame rfl (update_of_ne (Ne.symm hp) ..) rfl
    · split
      · refine ⟨fun st hst => ?_, fun hmem => ?_⟩
        · dsimp only
          rw [update_of_ne (Ne.symm hp)]
          exact h.owed st hst
        · exact (mem_insert.1 hmem).elim (fun heq => hp heq.symm) h.connected
      · apply asks _ Asks.setProgress
        refine h.frame ?_ ?_ rfl
        · exact update_of_ne (Ne.symm hp) ..
        · exact update_of_ne (Ne.symm hp) ..

theorem notFound (peer : Peer) (hashes : List Hash) : Kept p (d.handleNotFoundMsg peer hashes) := by
  unfold Downloads.handleNotFoundMsg
  dsimp only
  by_cases hp : peer = p
  · subst hp
    have hless : ∀ x ∈ ({ d.talk peer with notFound := (d.talk peer).notFound ∪ hashes.toFinset } : Talk).owed,
        x ∈ (d.talk peer).owed ∧ x ∉ hashes.toFinset := by
      intro x hx
      simp only [Talk.owed, mem_sdiff, mem_union, not_or] at hx ⊢
      exact ⟨⟨hx.1, hx.2.1⟩, hx.2.2⟩
    split
    next hnone => exact ⟨fun st hst => absurd (hnone.symm.trans hst) nofun, h.connected⟩
    next st hst =>
      refine ⟨fun st' hst' x hx => ?_, h.connected⟩
      simp only [Downloads.setPeer, update_self, Option.some.injEq] at hst' hx
      obtain ⟨hx, hno⟩ := hless x hx
      rw [← hst']
      exact mem_sdiff.2 ⟨h.owed st hst hx, fun hmem => hno (mem_of_mem_inter_left hmem)⟩
  · split
    · exact h.frame rfl (update_of_ne (Ne.symm hp) ..) rfl
    · refine h.frame ?_ ?_ rfl
      · exact update_of_ne (Ne.symm hp) ..
      · exact update_of_ne (Ne.symm hp) ..

theorem requestAnnounced
    (hroom : peer = p → ∀ st, d.peerStates p = some st → st.requestedBlocks.card + 1 ≤ maxRequestedBlocks) :
    Kept p (d.requestAnnounced env peer hash) := by
  unfold Downloads.requestAnnounced
  split
  · exact h
  next st hst =>
    by_cases hp : peer = p
    · subst hp
      refine ⟨fun st' hst' => ?_, h.connected⟩
      simp only [Downloads.setPeer, update_self, Option.some.injEq] at hst' ⊢
      rw [← hst']
      simp only [Downloads.limitAdd, if_neg (Nat.not_lt.2 (hroom rfl st hst))]
      exact (Talk.owed_ask _ _).trans (insert_subset_insert _ (h.owed st hst))
    · refine h.frame ?_ ?_ rfl
      · exact update_of_ne (Ne.symm hp) ..
      · exact update_of_ne (Ne.symm hp) ..

theorem requestQueued {queue : List Hash} {n : Nat}
    (hroom : peer = p → ∀ st, d.peerStates p = some st →
      st.requestedBlocks.card + queue.length ≤ maxRequestedBlocks) :
    Kept p (Downloads.requestQueued env peer queue n d).1 := by
  induction queue generalizing n d with
  | nil => exact h
  | cons hash queue ih =>
    have hone : peer = p → ∀ st, d.peerStates p = some st → st.requestedBlocks.card + 1 ≤ maxRequestedBlocks := by
      intro hp st hst
      exact le_trans (Nat.add_le_add_left (Nat.le_add_left 1 queue.length) _) (hroom hp st hst)
    have hrest : peer = p → ∀ st, (d.requestAnnounced env peer hash).peerStates p = some st →
        st.requestedBlocks.card + queue.length ≤ maxRequestedBlocks := by
      rintro rfl st' hst'
      unfold Downloads.requestAnnounced at hst'
      split at hst'
      next hnone => cases hnone.symm.trans hst'
      next st hst =>
        simp only [Downloads.setPeer, update_self, Option.some.injEq, Downloads.limitAdd,
          if_neg (Nat.not_lt.2 (hone rfl st hst))] at hst'
        have hsum := hroom rfl st hst
        have hcard := card_insert_le hash st.requestedBlocks
        rw [List.length_cons] at hsum
        rw [← hst']
        exact le_trans (Nat.add_le_add_right hcard _) (by omega)
    rw [Downloads.requestQueued]
    split
    · apply ih h
      intro hp st hst
      exact le_trans (Nat.add_le_add_left (Nat.le_succ _) _) (hroom hp st hst)
    · split
      · exact h.requestAnnounced hone
      · exact ih (h.requestAnnounced hone) hrest

theorem inv {ibdMode : Bool} {announced : List Hash}
    (hrem : Remembered p d (.inv env ibdMode peer announced)) : Kept p (d.handleInvMsg env ibdMode peer announced) := by
  unfold Downloads.handleInvMsg
  split
  · exact h
  next st hst =>
    have hfresh : (if ibdMode then []
        else announced.filter fun hash => !env.haveBlock hash).length ≤ announced.length := by
      split
      · exact Nat.zero_le _
      · exact List.length_filter_le _ _
    dsimp only
    generalize (if ibdMode then [] else announced.filter fun hash => !env.haveBlock hash) = fresh at hfresh ⊢
    have hdone : Kept p (Downloads.requestQueued env peer (st.requestQueue ++ fresh) 0 d).1 := by
      apply h.requestQueued
      rintro rfl st' hst'
      have hsum := hrem rfl st' hst'
      rw [Option.mem_unique hst hst']
      rw [List.length_append] at hsum ⊢
      omega
    split
    · exact hdone
    next st' hst' =>
      refine ⟨fun st'' hst'' => ?_, hdone.connected⟩
      by_cases hp : p = peer
      · subst hp
        simp only [Downloads.setPeer, update_self, Option.some.injEq] at hst''
        rw [← hst'']
        exact hdone.owed st' hst'
      · exact hdone.owed st'' ((update_of_ne hp ..).symm.trans hst'')

theorem reset (hrem : (d.talk p).owed = ∅) : Kept p d.resetDownloadState := by
  refine ⟨fun st _ => ?_, h.connected⟩
  change (d.talk p).owed ⊆ _
  rw [hrem]
  exact empty_subset _

theorem step {a : DownloadStep} (hhonest : Honest p d a) (hrem : Remembered p d a)
    (hs : downloadStep d a = some e) : Kept p e := by
  cases a with
  | newPeer peer syncCandidate => cases hs; exact h.newPeer peer syncCandidate
  | donePeer peer => cases hs; exact h.donePeer peer
  | dropHeaderPeer peer => cases hs; exact h.asks Asks.dropPeer
  | startSync env peers => cases hs; exact h.asks Asks.startSync
  | blockSyncAddPeer env peer => cases hs; exact h.asks (Asks.blockSyncAddPeer d peer)
  | startParallelBlockDownload env peers order => cases hs; exact h.asks Asks.startParallelBlockDownload
  | fetchHeaderBlocks env peer => cases hs; exact h.asks (Asks.fetchHeaderBlocks d peer)
  | blkDownload env => cases hs; exact h.asks Asks.blkDownload
  | block env peer hash => cases hs; exact h.block hhonest hrem
  | notFound peer hashes => cases hs; exact h.notFound peer hashes
  | inv env ibdMode peer announced => cases hs; exact h.inv hrem
  | reissueStaleBlockSlice env start => cases hs; exact h.asks Asks.reissueStaleBlockSlice
  | reissueStalledBlockPeers env => cases hs; exact h.asks Asks.reissueStalledBlockPeers
  | clearSyncPeer peer => cases hs; exact h.asks Asks.clearSyncPeer
  | resetDownloadState => cases hs; exact h.reset hrem

end

theorem start (regtest : Bool) : Kept p { regtest } :=
  ⟨nofun, notMem_empty p⟩

end Kept

/-- A peer that sends only what it was asked for keeps its connection, in every run in which nothing it still owes is
forgotten. -/
theorem honest_peer_stays {regtest : Bool} {p : Peer} {as : List DownloadStep} {d : Downloads}
    (hhonest : Along downloadStep (Honest p) { regtest } as) (hrem : Along downloadStep (Remembered p) { regtest } as)
    (hr : run downloadStep { regtest } as = some d) : p ∉ d.disconnected := by
  have hboth : Along downloadStep (fun d a => Honest p d a ∧ Remembered p d a) { regtest } as := hhonest.and hrem
  have hkept : Kept p d := by
    refine run_invariant (fun s a t hs hok hst => ?_) (Kept.start regtest) hboth hr
    exact hs.step hok.1 hok.2 hst
  exact hkept.connected

/-- The chain is connected up to height 5 and has the headers of two more blocks. -/
def twoAhead : BlockEnv where
  now := 0
  bestHeight := 5
  bestHeaderHeight := 7
  forkHeight := 5
  headerHashByHeight h := if 0 ≤ h ∧ h ≤ 7 then some (100 + h.toNat) else none
  haveBlock hash := hash ≤ 105
  bestDownloadState := (105, 5)
  headerSyncing := false
  maxPeerServeHeight := 7
  host _ := ""
  connected _ := true
  victim m := if h : m.Nonempty then m.min' h else 0
  victim_mem m h := by rw [dif_pos h]; exact m.min'_mem h

/-- The requests of a peer are freed and given to another one while its answers are travelling. -/
def freedRequests : List DownloadStep :=
  [.newPeer 1 true, .newPeer 2 true, .startParallelBlockDownload twoAhead [1, 2] [2, 1], .clearSyncPeer 1,
    .fetchHeaderBlocks twoAhead 2, .block twoAhead 1 106, .block twoAhead 1 107, .resetDownloadState]

theorem honest_peer_stays_freed : ∃ d, run downloadStep { regtest := false } freedRequests = some d ∧
      (d.talk 1).sent = {106, 107} ∧ (d.talk 2).asked = {106, 107} ∧ 1 ∉ d.disconnected := by
  have hr : run downloadStep { regtest := false } freedRequests = some _ := rfl
  refine ⟨_, hr, by decide +kernel, by decide +kernel, honest_peer_stays ?_ ?_ hr⟩
  · iterate 5 refine .cons trivial rfl ?_
    refine .cons (fun _ => by decide +kernel) rfl ?_
    refine .cons (fun _ => by decide +kernel) rfl ?_
    exact ⟨trivial, fun _ _ => trivial⟩
  · iterate 5 refine .cons trivial rfl ?_
    refine .cons (fun _ => by decide +kernel) rfl ?_
    refine .cons (fun _ => by decide +kernel) rfl ?_
    refine ⟨?_, fun _ _ => trivial⟩
    change Talk.owed _ = ∅
    decide +kernel

/-- The peer is asked for two blocks, the download is reset by a rollback, and the first answer closes its connection. -/
theorem honest_peer_dropped :
    ∃ as d, Along downloadStep (Honest 1) { regtest := false } as ∧ run downloadStep { regtest := false } as = some d ∧
      1 ∈ d.disconnected := by
  refine ⟨[.newPeer 1 true, .startParallelBlockDownload twoAhead [1] [1], .resetDownloadState, .block twoAhead 1 106],
    _, ?_, rfl, by decide +kernel⟩
  iterate 3 refine .cons trivial rfl ?_
  exact ⟨fun _ => by decide +kernel, fun _ _ => trivial⟩

end IniNode.Netsync
