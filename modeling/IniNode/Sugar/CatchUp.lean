import IniNode.Sugar.Merge
/-!
# Catching up is complete

Along runs whose steps meet `Sound`, the index follows some chain, which is the chain of the program while it runs.
`Init` then leaves exactly the index of the best chain.
-/

open IniNode.Lib List Option

namespace IniNode.Sugar

variable {tree : Hash → Option (Block × List SpentTxOut)} {s s' : Index} {chain : Chain}

/-! ## Init -/

/-- The main chain has another block at the height of the index's tip. -/
def Replaced (chain : Chain) (above : Int → Option Hash) (s : Index) : Prop :=
  ∃ hash height m, s.tip = some (hash, height) ∧ mainChainHashByHeight chain above height = some m ∧ m ≠ hash

/-- What `Init` needs to leave the index of the chain: the index is not ahead of the chain, every height it asks for is
either read or fails for another reason than a missing block, and no row that it keeps is of a block or a transaction
outside the chain. -/
structure Ready (chain : Chain) (inp : InitInput) (s : Index) : Prop where
  notAhead : ∀ hash height, s.tip = some (hash, height) → height < chain.length ∨ Replaced chain inp.above s
  readable : ∀ k < chain.length,
    (Replaced chain inp.above s ∨ ∀ hash height, s.tip = some (hash, height) → height < k) →
    Readable inp.unread k
  times : Replaced chain inp.above s ∨ ∀ k, (s.timestampIndex k).isSome → ∃ p ∈ chain, k = timestampKey p.1
  txs : ∀ hash, (s.txIndex hash).isSome → ∃ p ∈ chain, hash ∈ p.1.transactions.map Tx.hash

variable {inp : InitInput} {d : Chain}

theorem Follows.wipe (s : Index) : Follows (wipeIndex s) [] :=
  ⟨.empty, rfl, ⟨rfl, rfl, rfl, by rintro _ _ ⟨⟩, by rintro _ _ ⟨⟩⟩, rfl⟩

theorem Follows.tip (h : Follows s d) (hd : OnTree tree d) :
    s.tip = d.head?.map fun p => (p.1.hash, (d.length : Int) - 1) := by
  obtain ⟨t, ht, -, htip⟩ := h
  rw [htip]
  exact (agrees_indexOf hd.valid ht).tip

/-- Where `Init` starts from: an index of a lower part of the chain. -/
theorem startingPoint_follows (h : Follows s d) (hd : OnTree tree d) (hc : OnTree tree chain)
    (hready : Ready chain inp s) :
    ∃ k, k ≤ chain.length ∧ (startingPoint chain inp.above s).2 = (k : Int) - 1 ∧
      Follows (startingPoint chain inp.above s).1 (lower chain k) ∧
      Within (startingPoint chain inp.above s).1 chain ∧
      ∀ j, k ≤ j → j < chain.length → Readable inp.unread j := by
  have htip := h.tip hd
  cases d with
  | nil =>
    have hnone : s.tip = none := htip
    have hstart : startingPoint chain inp.above s = (s, -1) := by
      rw [startingPoint, hnone]
    have hnot : ¬ Replaced chain inp.above s := by
      rintro ⟨_, _, _, hsome, -⟩
      cases hnone.symm.trans hsome
    rw [hstart]
    refine ⟨0, Nat.zero_le _, rfl, by rwa [lower_zero], ⟨hready.times.resolve_left hnot, hready.txs⟩, ?_⟩
    intro j _ hj
    refine hready.readable j hj (.inr fun _ _ hsome => ?_)
    cases hnone.symm.trans hsome
  | cons p a =>
    have hsome : s.tip = some (p.1.hash, (a.length : Int)) := by
      rw [htip]
      simp
    by_cases hrep : Replaced chain inp.above s
    · obtain ⟨hash, height, m, htip', hm, hne⟩ := id hrep
      obtain ⟨rfl, rfl⟩ : p.1.hash = hash ∧ (a.length : Int) = height := by
        simpa using hsome.symm.trans htip'
      have hstart : startingPoint chain inp.above s = (wipeIndex s, -1) := by
        rw [startingPoint, hsome]
        simp [hm, if_pos hne]
      rw [hstart]
      refine ⟨0, Nat.zero_le _, rfl, by rw [lower_zero]; exact .wipe s, ⟨by rintro _ ⟨⟩, hready.txs⟩, ?_⟩
      exact fun j _ hj => hready.readable j hj (.inl hrep)
    · have hlt : a.length < chain.length := by
        have := (hready.notAhead _ _ hsome).resolve_right hrep
        omega
      obtain ⟨q, hq, -, -⟩ := lower_succ hlt
      have hmain : mainChainHashByHeight chain inp.above a.length = some q.1.hash := by
        rw [mainChainHashByHeight, if_pos (by omega), Int.toNat_natCast, hq]
        rfl
      have hhash : p.1.hash = q.1.hash := by
        by_contra hne
        exact hrep ⟨_, _, _, hsome, hmain, Ne.symm hne⟩
      have hstart : startingPoint chain inp.above s = (s, (a.length : Int)) := by
        rw [startingPoint, hsome]
        simp [hmain, hhash]
      rw [hstart]
      refine ⟨a.length + 1, hlt, by simp, hd.eq_lower hc hq hhash ▸ h,
        ⟨hready.times.resolve_left hrep, hready.txs⟩, fun j hle hj => ?_⟩
      refine hready.readable j hj (.inr fun _ _ htip' => ?_)
      obtain ⟨-, rfl⟩ : p.1.hash = _ ∧ (a.length : Int) = _ := by
        simpa using hsome.symm.trans htip'
      omega

theorem Delivered.lt {k : Nat} (h : Delivered chain inp s) (hk : k ∈ inp.order) : k < chain.length := by
  have hmem : k ∈ (range chain.length).filter
      fun h : Nat => (startingPoint chain inp.above s).2 < (h : Int) := by
    rw [Delivered] at h
    split at h
    · exact h.2 k hk
    · exact h.mem_iff.1 hk
  exact mem_range.1 (mem_of_mem_filter hmem)

theorem Delivered.mem {k : Nat} (h : Delivered chain inp s) (hi : inp.interrupted = false) (hlt : k < chain.length)
    (hk : (startingPoint chain inp.above s).2 < (k : Int)) : k ∈ inp.order := by
  rw [Delivered, hi] at h
  refine h.mem_iff.2 (mem_filter.2 ⟨mem_range.2 hlt, ?_⟩)
  exact decide_eq_true hk

/-- `Init` leaves the index of the chain, or fails with an index of a lower part. -/
theorem init_outcome (h : Follows s d) (hd : OnTree tree d) (hc : OnTree tree chain) (hready : Ready chain inp s)
    (hdel : Delivered chain inp s) :
    Outcome (fun s' => indexOf chain = some s') (Stopped chain) (init chain inp s) := by
  obtain ⟨k, hk, hheight, hfollows, hwithin, hread⟩ := startingPoint_follows h hd hc hready
  have hmem := fun j => hdel.mem (k := j)
  rw [hheight] at hmem
  rw [init]
  generalize startingPoint chain inp.above s = start at hheight hfollows hwithin
  obtain ⟨s0, tipHeight⟩ := start
  obtain rfl : tipHeight = (k : Int) - 1 := hheight
  have hexact : ∀ {s'}, Follows s' chain → Within s' chain → indexOf chain = some s' := by
    rintro s' ⟨t, ht, hext, htip⟩ hw
    rw [ht, hext.eq ht hw htip]
  dsimp only
  split
  next hbest =>
    refine hexact ?_ hwithin
    obtain rfl : k = chain.length := by omega
    rwa [lower_self] at hfollows
  next hbest =>
    have hbuilt : Built chain { index := s0, next := k } := by
      refine ⟨hk, ⟨k, hfollows⟩, ?_, hwithin, ?_⟩
      · obtain ⟨t, ht, hext, -⟩ := hfollows
        exact ⟨t, ht, hext⟩
      · rintro rfl
        exact ⟨rfl, lower_self chain ▸ hfollows⟩
    rw [show ((k : Int) - 1 + 1).toNat = k by omega]
    refine Outcome.bind (hbuilt.rebuild hread fun j hj => hdel.lt hj) fun r ⟨hstart, hb, ha, hnone⟩ => ?_
    split
    · exact hb.written
    next hi =>
      have hend : r.next = chain.length := by
        by_contra hne
        have hlt : r.next < chain.length := Nat.lt_of_le_of_ne hb.next_le hne
        have hin := hmem r.next (by simpa using hi) hlt (by omega)
        obtain hlt' | hpend := ha _ hin
        · omega
        · cases hnone.symm.trans hpend
      obtain ⟨hempty, hfoll⟩ := hb.done hend
      refine hexact hfoll ?_
      have := hb.within
      rwa [hempty] at this

/-! ## Runs -/

/-- Blocks that are connected, and chains that the program comes back with, are of the tree. -/
def Lawful (tree : Hash → Option (Block × List SpentTxOut)) (n : Node) : Step → Prop
  | .connect block stxos | .lost block stxos => OnTree tree ((block, stxos) :: n.live)
  | .moved chain => OnTree tree chain
  | _ => True

/-- No block is lost, none that spends an output of its own is disconnected, and `Init` has what it needs. -/
def Sound (n : Node) : Step → Prop
  | .lost .. => False
  | .disconnect => ∀ p ∈ n.live.head?, ∀ es, blockEntries 0 p.1.transactions p.2 = some es → ¬ SpendsOwn es
  | .init inp => Ready n.live inp n.index
  | _ => True

/-- The index follows a chain of the tree, the one of the program while it runs. -/
structure Kept (tree : Hash → Option (Block × List SpentTxOut)) (n : Node) : Prop where
  live : OnTree tree n.live
  saved : OnTree tree n.saved
  follows : ∃ d, OnTree tree d ∧ Follows n.index d ∧ (n.up → d = n.live)

theorem Kept.step {n n' : Node} {a : Step} (h : Kept tree n) (hok : Lawful tree n a ∧ Sound n a)
    (hs : n.step a = some n') : Kept tree n' := by
  obtain ⟨hlive, hsaved, d, hd, hfollows, hup⟩ := h
  obtain ⟨hlaw, hsound⟩ := hok
  cases a with
  | connect block stxos =>
    simp only [Node.step, ite_none_right_eq_some, map_eq_some_iff] at hs
    obtain ⟨hu, s, hs, rfl⟩ := hs
    obtain rfl := hup hu
    exact ⟨hlaw, hsaved, _, hlaw, hfollows.connect hs, fun _ => rfl⟩
  | lost => exact hsound.elim
  | disconnect =>
    obtain ⟨index, live, saved, up⟩ := n
    rcases live with - | ⟨⟨block, stxos⟩, - | ⟨q, rest⟩⟩
    · cases hs
    · cases hs
    · simp only [Node.step, ite_none_right_eq_some, map_eq_some_iff] at hs
      obtain ⟨hu, s, hs, rfl⟩ := hs
      obtain rfl := hup hu
      obtain ⟨es, hes, -⟩ := hlive.2.1.journal
      have hfollows' := hfollows.disconnect hlive hes (hsound _ rfl es hes) (by simp) (by simpa using hs)
      exact ⟨hlive.2.2.2, hsaved, _, hlive.2.2.2, hfollows', fun _ => rfl⟩
  | commit =>
    cases hs
    exact ⟨hlive, hlive, d, hd, hfollows, hup⟩
  | restart =>
    cases hs
    exact ⟨hsaved, hsaved, d, hd, hfollows, by rintro ⟨⟩⟩
  | moved chain =>
    simp only [Node.step, ite_none_left_eq_some, Option.some.injEq] at hs
    obtain ⟨hu, rfl⟩ := hs
    exact ⟨hlaw, hlaw, d, hd, hfollows, fun h => absurd h hu⟩
  | init inp =>
    obtain ⟨⟨hdown, hdel⟩, hs⟩ := ite_none_right_eq_some.1 hs
    have hout := init_outcome hfollows hd hlive hsound hdel
    cases hinit : init n.live inp n.index with
    | ok s =>
      rw [hinit] at hs hout
      cases hs
      exact ⟨hlive, hsaved, _, hlive, ⟨s, hout, .refl s, rfl⟩, fun _ => rfl⟩
    | error e =>
      rw [hinit] at hs hout
      cases hs
      obtain ⟨k, hk⟩ := hout
      exact ⟨hlive, hsaved, _, hlive.drop _, hk, fun h => absurd (hdown.symm.trans h) (by simp)⟩

/-- The program at its first start, with the chain it has. -/
def freshNode (chain : Chain) : Node := ⟨.empty, chain, chain, false⟩

theorem kept_fresh (h : OnTree tree chain) : Kept tree (freshNode chain) :=
  ⟨h, h, [], trivial, ⟨.empty, rfl, .refl _, rfl⟩, by rintro ⟨⟩⟩

/-- In every run of the program whose steps are sound, an `Init` that has what it needs and returns no error leaves the
index that connecting the blocks of the best chain one by one makes. -/
theorem catch_up_complete {c : Chain} {steps : List Step} {n : Node} (hc : OnTree tree c)
    (hok : Along Node.step (fun n a => Lawful tree n a ∧ Sound n a) (freshNode c) steps)
    (hr : run Node.step (freshNode c) steps = some n) (hready : Ready n.live inp n.index)
    (hdel : Delivered n.live inp n.index) (hinit : init n.live inp n.index = .ok s') : indexOf n.live = some s' := by
  have hkept : Kept tree n := run_invariant (fun _ _ _ h hok hs => h.step hok hs) (kept_fresh hc) hok hr
  obtain ⟨d, hd, hfollows, -⟩ := hkept.follows
  have hout := init_outcome hfollows hd hkept.live hready hdel
  rwa [hinit] at hout

/-! ## Runs over two blocks -/

/-- A block in the place of the one that spends the output of the genesis block. -/
def otherBlock : Block := ⟨102, ⟨1, 100, 0, 1002, 0, 0⟩, [⟨14, [], [⟨50, payTo 4⟩]⟩]⟩

def shortChain : Chain := [(genesisBlock, [])]

def longChain : Chain := (spendingBlock, [⟨50, payTo 1, 0, true⟩]) :: shortChain

def otherChain : Chain := (otherBlock, []) :: shortChain

def smallTree (hash : Hash) : Option (Block × List SpentTxOut) :=
  (otherChain ++ longChain).find? fun p => p.1.hash = hash

theorem onTree_short : OnTree smallTree shortChain :=
  ⟨by decide +kernel, nextBlock_genesis, by rintro _ ⟨⟩, trivial⟩

theorem onTree_long : OnTree smallTree longChain :=
  ⟨by decide +kernel, nextBlock_spending, by unfold NewTxs; decide +kernel, onTree_short⟩

theorem onTree_other : OnTree smallTree otherChain := by
  refine ⟨by decide +kernel, ⟨⟨_, rfl, by decide +kernel⟩, by decide, ?_⟩, by unfold NewTxs; decide +kernel,
    onTree_short⟩
  rintro _ ⟨⟩
  rfl

/-- A fresh index has what `Init` needs, if every block can be read. -/
theorem ready_fresh {chain : Chain} {order : List Nat} : Ready chain { order := order } .empty where
  notAhead := by rintro _ _ ⟨⟩
  readable _ _ _ := .inl rfl
  times := .inr (by rintro _ ⟨⟩)
  txs := by rintro _ ⟨⟩

theorem ready_indexOf {chain : Chain} {order : List Nat} (hc : ValidChain chain) (h : indexOf chain = some s) :
    Ready chain { order := order } s where
  notAhead := by
    intro hash height htip
    rw [(agrees_indexOf hc h).tip] at htip
    obtain ⟨p, -, heq⟩ := map_eq_some_iff.1 htip
    obtain ⟨-, rfl⟩ := Prod.mk.inj heq
    exact .inl (by omega)
  readable _ _ _ := .inl rfl
  times := .inr (within_indexOf h).times
  txs := (within_indexOf h).txs

def longIndex : Index := (indexOf longChain).getD .empty

theorem indexOf_longChain : indexOf longChain = some longIndex := rfl

/-- The index is made for the genesis block, follows one block, and finds the chain as it was after a restart. -/
theorem catch_up_restarted : ∃ n s', run Node.step (freshNode shortChain)
      [.init { order := [0] }, .connect spendingBlock [⟨50, payTo 1, 0, true⟩], .commit, .restart] = some n ∧
    init n.live { order := [] } n.index = .ok s' ∧ indexOf n.live = some s' := by
  have hr : run Node.step (freshNode shortChain)
      [.init { order := [0] }, .connect spendingBlock [⟨50, payTo 1, 0, true⟩], .commit, .restart] =
      some ⟨longIndex, longChain, longChain, false⟩ := rfl
  have hinit : init longChain { order := [] } longIndex = .ok longIndex := rfl
  have hdel : Delivered longChain { order := [] } longIndex := by decide +kernel
  refine ⟨_, _, hr, hinit, catch_up_complete onTree_short ?_ hr ?_ hdel hinit⟩
  · refine .cons ⟨trivial, ready_fresh⟩ rfl ?_
    refine .cons ⟨onTree_long, trivial⟩ rfl ?_
    refine .cons ⟨trivial, trivial⟩ rfl ?_
    exact ⟨⟨trivial, trivial⟩, fun _ _ => trivial⟩
  · exact ready_indexOf onTree_long.valid indexOf_longChain

/-- Three ways in which `Init` returns no error and leaves another index. The program stops after the index was written
and before the chain was: the index stays a block ahead. The best block cannot be read: nothing at all is written. The
chain has changed to another branch: the transactions of the old branch stay in the txid table. -/
theorem catch_up_incomplete : (∃ n s', Along Node.step (Lawful smallTree) (freshNode shortChain)
        [.init { order := [0] }, .connect spendingBlock [⟨50, payTo 1, 0, true⟩], .restart] ∧
      run Node.step (freshNode shortChain)
        [.init { order := [0] }, .connect spendingBlock [⟨50, payTo 1, 0, true⟩], .restart] = some n ∧
      Delivered n.live { order := [] } n.index ∧ init n.live { order := [] } n.index = .ok s' ∧
      n.live = shortChain ∧ s'.tip = some (101, 1)) ∧
    (∃ s', Delivered longChain
        { unread := fun h => if h = 1 then some .blockNotFound else none, order := [0, 1] } .empty ∧
      init longChain { unread := fun h => if h = 1 then some .blockNotFound else none, order := [0, 1] } .empty = .ok s' ∧
      s'.tip = none ∧ s'.timestampIndex ⟨1000, 100⟩ = none) ∧
    (∃ n s', Along Node.step (Lawful smallTree) (freshNode shortChain)
        [.init { order := [0] }, .connect spendingBlock [⟨50, payTo 1, 0, true⟩], .commit, .restart,
          .moved otherChain] ∧
      run Node.step (freshNode shortChain)
        [.init { order := [0] }, .connect spendingBlock [⟨50, payTo 1, 0, true⟩], .commit, .restart,
          .moved otherChain] = some n ∧
      Delivered n.live { order := [1, 0] } n.index ∧ init n.live { order := [1, 0] } n.index = .ok s' ∧
      n.live = otherChain ∧ s'.txIndex 12 = some ⟨1, 1⟩) := by
  refine ⟨⟨_, _, ?_, rfl, by decide +kernel, rfl, rfl, by decide +kernel⟩,
    ⟨_, by decide +kernel, rfl, by decide +kernel, by decide +kernel⟩,
    ⟨_, _, ?_, rfl, by decide +kernel, rfl, rfl, by decide +kernel⟩⟩
  · refine .cons trivial rfl ?_
    refine .cons onTree_long rfl ?_
    exact ⟨trivial, fun _ _ => trivial⟩
  · refine .cons trivial rfl ?_
    refine .cons onTree_long rfl ?_
    refine .cons trivial rfl ?_
    refine .cons trivial rfl ?_
    exact ⟨onTree_other, fun _ _ => trivial⟩

end IniNode.Sugar
