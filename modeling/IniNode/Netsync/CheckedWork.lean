import IniNode.Netsync.BlockMessages
/-!
# Who checks the work

During the initial block download headers are taken without a look at their work, because the blocks will be checked, and
a block is taken without a look at its work when it is an orphan, deep below the header tip or named by the rows below
the window, because its header chain was agreed on. Where both exemptions meet, nobody checks. `WorkChecked` is kept by
every event that does not bring such a block.
-/

open IniNode.Lib List Option

namespace IniNode.Netsync

open Intake
variable {w : World} {genesis : Block} {c d : CheckedChain} {s s' : Manager CheckedChain} {e : Env}

/-- The block is the genesis block, or its header has passed the check. -/
def Vouched (genesis : Block) (c : CheckedChain) (block : Block) : Prop :=
  block = genesis ∨ block.header ∈ c.checked

/-- Whatever is in the best chain, on disk or waiting for its parent is vouched for; who passed the check has work. -/
structure WorkChecked (w : World) (genesis : Block) (c : CheckedChain) : Prop where
  blocks : c.intake.AllBlocks (Vouched genesis c)
  worked : ∀ h ∈ c.checked, HasWork w.params h

theorem Vouched.mono {block : Block} (h : Vouched genesis c block) (hsub : c.checked ⊆ d.checked) :
    Vouched genesis d block := h.imp_right fun hm => hsub hm

theorem AllBlocks.mono {P Q : Block → Prop} {c : Intake} (h : c.AllBlocks P) (hPQ : ∀ x, P x → Q x) :
    c.AllBlocks Q where
  connected x hx := hPQ x (h.connected x hx)
  bodies k x hx := hPQ x (h.bodies k x hx)
  waiting p o ho := hPQ _ (h.waiting p o ho)

theorem subset_note (passed : Bool) (h : BlockHeader) : c.checked ⊆ c.note passed h := by
  rw [CheckedChain.note]
  split
  · exact subset_cons_self h c.checked
  · exact List.Subset.refl c.checked

theorem worked_note {passed : Bool} {h : BlockHeader} (hc : ∀ x ∈ c.checked, HasWork w.params x)
    (hp : passed = true → HasWork w.params h) : ∀ x ∈ c.note passed h, HasWork w.params x := by
  intro x hx
  rw [CheckedChain.note] at hx
  split at hx
  next hpt =>
    rcases mem_cons.1 hx with rfl | hx
    · exact hp hpt
    · exact hc x hx
  next => exact hc x hx

theorem WorkChecked.processBlockHeader (h : WorkChecked w genesis c) (header : BlockHeader) (noPoWCheck : Bool) :
    WorkChecked w genesis (c.processBlockHeader w header noPoWCheck).1 := by
  have hidx : Intake.Indexed c.intake (c.intake.processBlockHeader w.params (c.arrival w header noPoWCheck)).1 :=
    processBlockHeader_indexed c.intake (c.arrival w header noPoWCheck)
  have hwork : c.intake.checksHeader w.params (c.arrival w header noPoWCheck) = true → HasWork w.params header := by
    intro hc
    simp only [checksHeader, Bool.and_eq_true] at hc
    exact hasWork_of_isOk hc.2
  have hblocks : ∀ {intake : Intake}
    {r}, c.intake.processBlockHeader w.params (c.arrival w header noPoWCheck) = (intake, r) →
      intake.AllBlocks (Vouched genesis c) := by
    intro intake r he
    rw [he] at hidx
    exact h.blocks.of_eq hidx.connected hidx.bodies hidx.pool.prevOrphans
  rw [CheckedChain.processBlockHeader]
  split
  next he => exact ⟨AllBlocks.mono (hblocks he) fun x hx => hx.mono (subset_note _ _), worked_note h.worked hwork⟩
  next he => exact ⟨AllBlocks.mono (hblocks he) fun x hx => hx.mono (subset_note _ _), worked_note h.worked hwork⟩

theorem WorkChecked.invalidateHeaderChain (h : WorkChecked w genesis c) :
    WorkChecked w genesis (c.invalidateHeaderChain w).1 :=
  ⟨h.blocks.invalidateHeaderChain _, h.worked⟩

theorem WorkChecked.ranges : RangeStable fun s : Manager CheckedChain => WorkChecked w genesis s.chain where
  other h := h
  shrink h _ _ := h
  launch h _ _ _ _ := h
  second h _ _ := h

theorem WorkChecked.stable : Stable w.api fun s => WorkChecked w genesis s.chain where
  toRangeStable := ranges
  breaker _ _ _ h := h
  setRange h _ _ := h
  answer h _ := h
  header h hc := hc ▸ h.processBlockHeader _ _
  rollback _ h := h.invalidateHeaderChain

/-- A block that `ProcessBlock` does not check has been checked as a header. -/
def CheckedBefore (c : CheckedChain) (block : Block) : Prop :=
  c.intake.Unchecked block → block.header ∈ c.checked

theorem WorkChecked.processBlock {a : Arrival} {r : Except IntakeError (Bool × Bool)} (h : WorkChecked w genesis c)
    (hf : a.noPoWCheck = false) (hok : CheckedBefore c a.block) (hp : c.processBlock w a = some (d, r)) :
    WorkChecked w genesis d := by
  obtain ⟨⟨intake, r'⟩, hi, hd⟩ := map_eq_some_iff.1 hp
  cases hd
  refine ⟨?_, worked_note h.worked ?_⟩
  · have hsub := subset_note (c := c) (c.intake.checksBlock w.params a) a.block.header
    have hblocks : c.intake.AllBlocks (Vouched genesis ⟨intake, _, c.calls⟩) :=
      AllBlocks.mono h.blocks fun x hx => hx.mono hsub
    -- a block that is there already is refused, whatever its work
    by_cases hdup : c.intake.Known a.block.hash ∨ c.intake.orphans.lookup a.block.hash ≠ none
    · have hr := processBlock_duplicate hdup hi
      exact hblocks.of_eq hr.connected hr.bodies hr.pool.prevOrphans
    · obtain ⟨hunknown, hfresh⟩ := not_or.1 hdup
      refine hblocks.taken (fun hparent => ?_) (fun hsane => ?_) (processBlock_taken hi)
      · exact .inr (hsub (hok (.inl hparent)))
      · by_cases hun : c.intake.Unchecked a.block
        · exact .inr (hsub (hok hun))
        · right
          rw [checksBlock_of_sane hf hunknown (not_not.1 hfresh) hun hsane]
          exact mem_cons_self
  · intro hc
    simp only [checksBlock, Bool.and_eq_true] at hc
    exact hasWork_of_isOk hc.2

/-! ## Runs -/

theorem chain_updateLastBlockHeight (s : Manager CheckedChain) (peer : Peer) (height : Int) :
    (s.updateLastBlockHeight peer height).chain = s.chain := by
  rw [Manager.updateLastBlockHeight]
  split <;> rfl

theorem WorkChecked.handleOrphan {peer : Peer} {m : BlockMsg} (h : WorkChecked w genesis s.chain) :
    WorkChecked w genesis (s.handleOrphan w e peer m).chain := by
  rw [Manager.handleOrphan, chain_updateLastBlockHeight]
  cases m.diverged with
  | none =>
    split
    · exact stable.restarts.rollbackFabricatedHeaderChain h
    · exact h
  | some forkHeight =>
    have hfork := @Restarts.rollbackToForkPoint _ _ w.api e s forkHeight stable.restarts h
    split
    · exact stable.restarts.rollbackFabricatedHeaderChain hfork
    · exact hfork

theorem chain_handleTaken (s : Manager CheckedChain) (peer : Peer) (height : Int) :
    (s.handleTaken w peer height).chain = s.chain := by
  rw [Manager.handleTaken]
  split
  · exact chain_updateLastBlockHeight s peer _
  · exact chain_updateLastBlockHeight s peer _

theorem WorkChecked.handleBlockMsg {peer : Peer} {m : BlockMsg} (h : WorkChecked w genesis s.chain)
    (hok : CheckedBefore s.chain m.arrival.block) (hs : s.handleBlockMsg w e peer m = some s') :
    WorkChecked w genesis s'.chain := by
  rw [Manager.handleBlockMsg] at hs
  split at hs
  · cases hs
    exact h
  · obtain ⟨⟨chain, r⟩, hp, hs⟩ := map_eq_some_iff.1 hs
    have hchain : WorkChecked w genesis chain :=
      h.processBlock (a := { m.arrival with noPoWCheck := false }) rfl hok hp
    match r with
    | .error _ =>
      cases hs
      exact hchain
    | .ok (_, true) =>
      cases hs
      exact WorkChecked.handleOrphan (s := { s with chain := chain }) hchain
    | .ok (_, false) =>
      cases hs
      rw [chain_handleTaken]
      exact hchain

/-- What an event must meet: a block that is exempt from the check was checked as a header. -/
def KeepsChecks (s : Manager CheckedChain) : Env × SyncEvent → Prop
  | (_, .block _ m) => CheckedBefore s.chain m.arrival.block
  | _ => True

theorem syncStep_headers {a : Manager.Event CheckedChain} (hm : ∀ chain lastBlock, a ≠ .moved chain lastBlock) :
    syncStep w s (e, .headers a) = s.step w.api (e, a) := by
  cases a with
  | moved chain lastBlock => exact absurd rfl (hm chain lastBlock)
  | _ => rfl

theorem WorkChecked.step {a : Env × SyncEvent} (h : WorkChecked w genesis s.chain) (hok : KeepsChecks s a)
    (hs : syncStep w s a = some s') : WorkChecked w genesis s'.chain := by
  obtain ⟨e, a⟩ := a
  cases a with
  | block peer m => exact h.handleBlockMsg hok hs
  | flush evicted hashRows heightRows =>
    cases hs
    exact ⟨h.blocks.of_eq rfl rfl rfl, h.worked⟩
  | headers a =>
    by_cases hm : ∃ chain lastBlock, a = .moved chain lastBlock
    · obtain ⟨chain, lastBlock, rfl⟩ := hm
      cases hs
      exact h
    · have hm : ∀ chain lastBlock, a ≠ .moved chain lastBlock := fun _ _ ha => hm ⟨_, _, ha⟩
      rw [syncStep_headers hm] at hs
      exact stable.step h hm hs

/-- In every run of the sync manager from the genesis block, in which every block that `ProcessBlock` does not check was
checked as a header, every block that is ever part of the best chain has passed the check of its work. -/
theorem synced_blocks_checked {events : List (Env × SyncEvent)} (hg : s.chain.intake.OnlyGenesis genesis)
    (hc : s.chain.checked = []) (hok : Along (syncStep w) KeepsChecks s events)
    (hr : run (syncStep w) s events = some s') :
    ∀ x ∈ s'.chain.intake.connected, x ≠ genesis → x.header ∈ s'.chain.checked ∧ HasWork w.params x.header := by
  have hstart : WorkChecked w genesis s.chain := ⟨hg.allBlocks .inl, by simp [hc]⟩
  have hend : WorkChecked w genesis s'.chain :=
    run_invariant (I := fun s => WorkChecked w genesis s.chain) (fun _ _ _ h hok hs => h.step hok hs) hstart hok hr
  intro x hx hne
  have hmem : x.header ∈ s'.chain.checked := (hend.blocks.connected x hx).resolve_left hne
  exact ⟨hmem, hend.worked _ hmem⟩

/-! ## Blocks that nobody checks -/

/-- A chain whose hashes count up: the hash of a header follows that of its parent. -/
def countingQueries : ChainApi CheckedChain where
  blockHash h := h.prevBlock + 1
  bestHeaderHeight c := c.intake.headerHeight
  bestHeight _ := 0
  isCurrent _ := false
  headerHashByHeight _ _ := none
  headerHeightByHash _ _ := none
  isValidHeader _ _ := true
  processBlockHeader c _ _ := (c, none)
  invalidateHeaderChain c _ := (c, true)

/-- Every check beside the proof of work passes. -/
def lenient (params : IntakeParams) : World where
  params := params
  header _ := { hash := 0, header := (blockOn 0 0).header }
  rollback _ := {}
  queries := countingQueries

/-- A manager in its initial block download, with one peer, at the genesis block. -/
def downloading : Manager CheckedChain where
  chain := { intake := genesisIntake }
  peerStates := (∅ : AList fun _ : Peer => Bool).insert 1 true
  lastBlock _ := 5000
  addr _ := "a"
  host _ := "a"
  rangeAt _ := { start := 0, peer := 0, assignedAt := 0 }
  syncAt _ := { peers := [], target := 0, nextHeight := 0, nextAssign := 0, ranges := ∅, peerRange := ∅, sliceLen := 0 }
  syncPeer := some 1
  ibdMode := true

def anyEnv : Env := { now := 0, shuffle := id }

/-- A header, then its block, right below the header tip. -/
def checkedRun : List (Env × SyncEvent) :=
  [(anyEnv, .headers (.headers 1 [(blockOn 2 1).header] 0)),
    (anyEnv, .block 1 { arrival := { block := blockOn 2 1 } })]

theorem synced_blocks_checked_one : ∃ s, run (syncStep (lenient easyParams)) downloading checkedRun = some s ∧
    blockOn 2 1 ∈ s.chain.intake.connected ∧ (blockOn 2 1).header ∈ s.chain.checked := by
  obtain ⟨s, hr, hs⟩ : ∃ s, run (syncStep (lenient easyParams)) downloading checkedRun = some s ∧
      blockOn 2 1 ∈ s.chain.intake.connected := ⟨_, rfl, by decide +kernel⟩
  have hg : downloading.chain.intake.OnlyGenesis (blockOn 1 0) := by
    refine ⟨by decide, ?_, rfl⟩
    intro h x hx
    simp only [downloading, genesisIntake] at hx
    split at hx
    · exact (Option.some.inj hx).symm
    · cases hx
  have hok : Along (syncStep (lenient easyParams)) KeepsChecks downloading checkedRun := by
    refine .cons trivial rfl ?_
    refine ⟨?_, fun _ _ => trivial⟩
    rintro (h | h)
    · exact absurd ⟨rfl, .inl rfl⟩ h
    · exact absurd h (by decide +kernel)
  exact ⟨s, hr, hs, (synced_blocks_checked hg rfl hok hr _ hs (by decide)).1⟩

def allWorkless : IntakeParams := ⟨compactToBig 0x207fffff, fun _ => 2 ^ 256, fun _ => 1⟩

def headersOn (k n : Nat) : List BlockHeader := (range' k n).map fun p => (blockOn (p + 1) p).header

def headersUpTo (k : Nat) : Intake :=
  { genesisIntake with
    index := fun h => if h = 1 then some ⟨0, true⟩ else if 2 ≤ h ∧ h ≤ k then some ⟨h - 1, false⟩ else none
    headerTip := k
    headerHeight := k - 1 }

theorem index_headersUpTo_self {k : Nat} (hk : 1 ≤ k) :
    ((headersUpTo k).index k).map IntakeNode.height = some (k - 1 : Int) := by
  rcases Nat.eq_or_lt_of_le hk with rfl | hk
  · rfl
  · simp [headersUpTo, show k ≠ 1 by omega, show 2 ≤ k from hk]

theorem processBlockHeader_headersUpTo {k n : Nat} (hk : 1 ≤ k) :
    (⟨headersUpTo k, [], n⟩ : CheckedChain).processBlockHeader (lenient allWorkless) (blockOn (k + 1) k).header true =
      (⟨headersUpTo (k + 1), [], n + 1⟩, none) := by
  obtain ⟨node, hnode, hheight⟩ := map_eq_some_iff.1 (index_headersUpTo_self hk)
  have hnew : (headersUpTo k).index (k + 1) = none := by
    simp [headersUpTo, show k ≠ 0 by omega]
  have htarget : (0 : Int) < compactToBig 0x207fffff := by decide
  have hlimit : compactToBig 0x207fffff ≤ compactToBig 0x207fffff := Int.le_refl _
  have hsane : checkBlockSanity allWorkless (blockOn (k + 1) k).header true true = .ok () :=
    checkBlockSanity_eq_ok.2 ⟨checkProofOfWork_eq_ok.2 ⟨htarget, hlimit, fun h => nomatch h⟩, rfl⟩
  have hindex : ((headersUpTo k).index.write ⟨k + 1, some ⟨k, false⟩⟩) = (headersUpTo (k + 1)).index := by
    funext h
    simp only [Store.write_apply, headersUpTo]
    grind
  have hparent : node.height + 1 = (k : Int) := by omega
  have hintake : (headersUpTo k).processBlockHeader allWorkless
      { hash := k + 1, header := (blockOn (k + 1) k).header, noPoWCheck := true } =
        (headersUpTo (k + 1), .ok true) := by
    have hprev : (blockOn (k + 1) k).header.prevBlock = k := rfl
    simp only [processBlockHeader, hprev, hnode, hnew, hsane, hparent, getD_none, followTip, hindex]
    simp [evict, writeRows, headersUpTo]
  rw [CheckedChain.processBlockHeader]
  have harr : (⟨headersUpTo k, [], n⟩ : CheckedChain).arrival (lenient allWorkless) (blockOn (k + 1) k).header true =
      { hash := k + 1, header := (blockOn (k + 1) k).header, noPoWCheck := true } := rfl
  simp [harr, show (lenient allWorkless).params = allWorkless from rfl, hintake, CheckedChain.note, checksHeader]

/-- A headers message with all of them is taken during the initial block download. -/
theorem processHeaders_headersOn (n : Nat) {k calls : Nat} {s : Manager CheckedChain} (hk : 1 ≤ k)
    (hibd : s.ibdMode = true) (hs : s.chain = ⟨headersUpTo k, [], calls⟩) :
    s.processHeaders (lenient allWorkless).api (headersOn k n) =
      ({ s with chain := ⟨headersUpTo (k + n), [], calls + n⟩ }, true) := by
  induction n generalizing k calls s with
  | zero =>
    obtain ⟨⟩ := s
    cases hs
    rfl
  | succ n ih =>
    have hstep : (lenient allWorkless).api.processBlockHeader s.chain (blockOn (k + 1) k).header s.ibdMode =
        (⟨headersUpTo (k + 1), [], calls + 1⟩, none) := by
      rw [hs, hibd]
      exact processBlockHeader_headersUpTo hk
    rw [show headersOn k (n + 1) = (blockOn (k + 1) k).header :: headersOn (k + 1) n from rfl, Manager.processHeaders, hstep]
    dsimp only
    rw [ih (s := { s with chain := ⟨headersUpTo (k + 1), [], calls + 1⟩ }) (Nat.le_add_left 1 k) hibd rfl]
    simp [Nat.add_assoc, Nat.add_comm 1 n]

def light (block : Block) : BlockMsg := { arrival := { block := block, acceptance := fun _ => { heavier := false } } }

def orphanRun : List (Env × SyncEvent) :=
  [(anyEnv, .headers (.headers 1 [(blockOn 2 1).header, (blockOn 3 2).header] 0)),
    (anyEnv, .block 1 (light (blockOn 3 2))), (anyEnv, .block 1 (light (blockOn 2 1)))]

/-- The first block comes when the header tip is at height 2049. -/
def deepRun : List (Env × SyncEvent) :=
  [(anyEnv, .headers (.headers 1 (headersOn 1 2000) 0)), (anyEnv, .headers (.headers 1 (headersOn 2001 49) 0)),
    (anyEnv, .block 1 (light (blockOn 2 1)))]

theorem step_headersOn {n k calls : Nat} {s : Manager CheckedChain} (hk : 1 ≤ k)
    (hpeer : s.peerStates.lookup 1 = some true)
    (hsync : s.headerSync = none) (hibd : s.ibdMode = true) (hlast : (k + n : Int) - 1 ≤ s.lastBlock 1)
    (hs : s.chain = ⟨headersUpTo k, [], calls⟩) :
    syncStep (lenient allWorkless) s (anyEnv, .headers (.headers 1 (headersOn k n) 0)) =
      some { s with chain := ⟨headersUpTo (k + n), [], calls + n⟩ } := by
  have hheight : ¬ s.lastBlock 1 < (lenient allWorkless).api.bestHeaderHeight ⟨headersUpTo (k + n), [], calls + n⟩ := by
    have : (lenient allWorkless).api.bestHeaderHeight ⟨headersUpTo (k + n), [], calls + n⟩ =
        ((k + n : Nat) : Int) - 1 := rfl
    omega
  rw [syncStep_headers (by rintro _ _ ⟨⟩), Manager.step, Manager.handleHeadersMsg, hpeer]
  simp [processHeaders_headersOn n hk hibd hs, hheight, hsync]

theorem headersUpTo_one : headersUpTo 1 = genesisIntake := by
  have hindex : (headersUpTo 1).index = genesisIntake.index := by
    simp only [headersUpTo, genesisIntake]
    grind
  calc headersUpTo 1 = { genesisIntake with index := (headersUpTo 1).index } := rfl
    _ = genesisIntake := by rw [hindex]

def aheadBy2049 : Manager CheckedChain := { downloading with chain := ⟨headersUpTo 2050, [], 2049⟩ }

theorem run_deepRun : run (syncStep (lenient allWorkless)) downloading deepRun =
    syncStep (lenient allWorkless) aheadBy2049 (anyEnv, .block 1 (light (blockOn 2 1))) := by
  have h1 : syncStep (lenient allWorkless) downloading (anyEnv, .headers (.headers 1 (headersOn 1 2000) 0)) =
      some { downloading with chain := ⟨headersUpTo 2001, [], 2000⟩ } := by
    refine (@step_headersOn 2000 1 0 downloading (Nat.le_refl 1) rfl rfl rfl (by decide) ?_).trans (by rfl)
    rw [headersUpTo_one]
    rfl
  have h2 : syncStep (lenient allWorkless) { downloading with chain := ⟨headersUpTo 2001, [], 2000⟩ }
      (anyEnv, .headers (.headers 1 (headersOn 2001 49) 0)) = some aheadBy2049 :=
    step_headersOn (by decide) rfl rfl rfl (by decide) rfl
  rw [deepRun, run, h1, bind_some, run, h2, bind_some]
  exact bind_fun_some _

/-- An orphan without work, and a block without work 2048 below the header tip: both reach the best chain. -/
theorem workless_blocks_synced :
    (∃ s, run (syncStep (lenient workless)) downloading orphanRun = some s ∧ s.ibdMode = true ∧
      blockOn 3 2 ∈ s.chain.intake.connected ∧ (blockOn 3 2).header ∉ s.chain.checked) ∧
    ∃ s, run (syncStep (lenient allWorkless)) downloading deepRun = some s ∧ s.ibdMode = true ∧
      blockOn 2 1 ∈ s.chain.intake.connected ∧ (blockOn 2 1).header ∉ s.chain.checked := by
  refine ⟨⟨_, rfl, by decide +kernel, by decide +kernel, by decide +kernel⟩, ?_⟩
  rw [run_deepRun]
  exact ⟨_, rfl, by decide +kernel, by decide +kernel, by decide +kernel⟩

end IniNode.Netsync
