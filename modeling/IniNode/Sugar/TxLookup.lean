import IniNode.Sugar.CatchUp
/-!
# Looking up a transaction

`GetTxByHash` takes the height and the position of a transaction from the txid table and reads the block that is at the
height now. Rows of the table are written when a block is connected and never deleted, so a row of an abandoned block
leads to another transaction once the height is filled again. `RowsHonest` is kept by every step that does not fill a
place to which such a row points.
-/

open IniNode.Lib List Option

namespace IniNode.Sugar

/-! ## The lookup -/

/-- What `GetTxByHash` returns. -/
inductive TxLookup
  | unknown
  | failed
  | found (tx : Tx) (height : Int)
deriving DecidableEq

/-- The transaction of the chain at the height and the position of a row. -/
def txAt (chain : Chain) (v : TxIndexValue) : Option Tx :=
  (if 0 ≤ v.height then blockAt chain v.height.toNat else none).bind fun p => p.1.transactions[v.txIndex]?

/-- `BlockByHeight`. The best chain view holds the heights from `base` to the tip. With a header window the others are
looked up in the height index, above the tip too: what the rows lead to is `cold`. -/
def blockByHeight (chain : Chain) (base : Nat) (cold : Int → Option Block) (height : Int) : Option Block :=
  if base ≤ height ∧ height < chain.length then (blockAt chain height.toNat).map Prod.fst else cold height

/-- `GetTxByHash`, which does not compare the hash of what it finds. -/
def getTxByHash (s : Index) (chain : Chain) (base : Nat) (cold : Int → Option Block) (txid : Hash) : TxLookup :=
  match s.txIndex txid with
  | none => .unknown
  | some v =>
    match (blockByHeight chain base cold v.height).bind (·.transactions[v.txIndex]?) with
    | none => .failed
    | some tx => .found tx v.height

/-- A row leads to its transaction, or nowhere. -/
def Leads (chain : Chain) (txid : Hash) (v : TxIndexValue) : Prop := ∀ tx, txAt chain v = some tx → tx.hash = txid

/-- No row leads to a place of the chain where another transaction is. -/
def RowsHonest (t : Store Hash TxIndexValue) (chain : Chain) : Prop := ∀ txid v, t txid = some v → Leads chain txid v

variable {s s' : Index} {chain : Chain} {block : Block} {stxos : List SpentTxOut} {t : Store Hash TxIndexValue}

/-- Outside the view no row leads to another transaction either. -/
def ColdHonest (t : Store Hash TxIndexValue) (chain : Chain) (base : Nat) (cold : Int → Option Block) : Prop :=
  ∀ txid v, t txid = some v → ¬(base ≤ v.height ∧ v.height < chain.length) →
    ∀ block, cold v.height = some block → ∀ tx, block.transactions[v.txIndex]? = some tx → tx.hash = txid

theorem RowsHonest.hash_of_found {base : Nat} {cold : Int → Option Block} {txid : Hash} {tx : Tx} {height : Int}
    (h : RowsHonest s.txIndex chain) (hcold : ColdHonest s.txIndex chain base cold)
    (hf : getTxByHash s chain base cold txid = .found tx height) : tx.hash = txid := by
  rw [getTxByHash] at hf
  split at hf
  · cases hf
  next v hv =>
    split at hf
    · cases hf
    next tx' htx =>
      cases hf
      obtain ⟨block, hblock, htx⟩ := bind_eq_some_iff.1 htx
      unfold blockByHeight at hblock
      split at hblock
      next hin =>
        obtain ⟨p, hp, rfl⟩ := map_eq_some_iff.1 hblock
        have hpos : 0 ≤ v.height := by omega
        refine h txid v hv _ ?_
        rwa [txAt, if_pos hpos, hp]
      next hout => exact hcold txid v hv hout block hblock _ htx

/-! ## Rows that are written -/

/-- The rows that the writes put down lead to their transactions. -/
def WritesHonest (ws : List (Write Hash TxIndexValue)) (chain : Chain) : Prop :=
  ∀ w ∈ ws, ∀ v, w.value = some v → Leads chain w.key v

theorem RowsHonest.writeAll {ws : List (Write Hash TxIndexValue)}
    (h : ∀ txid ∉ ws.map Write.key, ∀ v, t txid = some v → Leads chain txid v) (hw : WritesHonest ws chain) :
    RowsHonest (t.writeAll ws) chain := by
  intro txid v hv
  obtain ⟨w, hmem, rfl, hval⟩ | ⟨hnot, hold⟩ := Store.of_writeAll hv
  · exact hw w hmem v hval
  · exact h txid hnot v hold

/-- A position of two bytes is enough for every transaction of the block, as the limit on its size sees to. -/
def Countable (block : Block) : Prop := block.transactions.length ≤ 2 ^ 16

theorem txAt_of_blockAt {height i : Nat} (h : blockAt chain height = some (block, stxos)) :
    txAt chain ⟨height, i⟩ = block.transactions[i]? := by
  simp [txAt, h]

variable {height : Nat}

theorem writesHonest_txRows (h : blockAt chain height = some (block, stxos)) (hc : Countable block) :
    WritesHonest (txRows height block) chain := by
  intro w hw v hv tx htx
  obtain ⟨⟨tx', i⟩, hmem, rfl⟩ := List.mem_map.1 hw
  have hat : block.transactions[i]? = some tx' := mem_zipIdx_iff_getElem?.1 hmem
  have hi : i < 2 ^ 16 := Nat.lt_of_lt_of_le (List.getElem?_eq_some_iff.1 hat).1 hc
  cases hv
  rw [txAt_of_blockAt h, Nat.mod_eq_of_lt hi, hat] at htx
  cases htx
  rfl

/-! ## A block more and a block less -/

variable {p : Block × List SpentTxOut}

theorem blockAt_cons (h : height < chain.length) :
    blockAt (p :: chain) height = blockAt chain height := by
  have hi : (p :: chain).length - 1 - height = chain.length - 1 - height + 1 := by
    simp only [length_cons]
    omega
  have hlt : height < (p :: chain).length := Nat.lt_succ_of_lt h
  rw [blockAt, blockAt, if_pos h, if_pos hlt, hi, getElem?_cons_succ]

theorem blockAt_cons_self (p : Block × List SpentTxOut) : blockAt (p :: chain) chain.length = some p := by
  simp [blockAt]

theorem txAt_cons {v : TxIndexValue} (h : v.height ≠ chain.length) :
    txAt (p :: chain) v = txAt chain v := by
  rw [txAt, txAt]
  split
  next h0 =>
    by_cases hlt : v.height.toNat < chain.length
    · rw [blockAt_cons hlt]
    · rw [blockAt, blockAt, if_neg hlt, if_neg (by simp only [length_cons]; omega)]
  next => rfl

theorem Leads.tail {txid : Hash} {v : TxIndexValue} (h : Leads (p :: chain) txid v) :
    Leads chain txid v := by
  intro tx htx
  by_cases hh : v.height = chain.length
  · rw [txAt, hh] at htx
    simp [blockAt] at htx
  · exact h tx ((txAt_cons hh).trans htx)

/-- No row of a transaction that is not in the block names a place that the block fills. -/
def FillsNoRow (t : Store Hash TxIndexValue) (height : Nat) (block : Block) : Prop :=
  ∀ txid ∉ block.transactions.map Tx.hash, ∀ v, t txid = some v → v.height = height →
    block.transactions.length ≤ v.txIndex

theorem RowsHonest.connect (h : RowsHonest s.txIndex chain) (hc : Countable block)
    (hfree : FillsNoRow s.txIndex chain.length block) (hs : s.connectBlock chain.length block stxos = some s') :
    RowsHonest s'.txIndex ((block, stxos) :: chain) := by
  obtain ⟨b, hb, -⟩ := map_eq_some_iff.1 hs
  obtain ⟨es, hes, -⟩ := map_eq_some_iff.1 hb
  rw [connectBlock_eq hes] at hs
  cases hs
  refine RowsHonest.writeAll (fun txid hnot v hv tx htx => ?_) (writesHonest_txRows (blockAt_cons_self _) hc)
  rw [keys_txRows] at hnot
  by_cases hh : v.height = chain.length
  · have hlen := hfree txid hnot v hv hh
    obtain ⟨height, i⟩ := v
    obtain rfl : height = chain.length := hh
    rw [txAt_of_blockAt (blockAt_cons_self _), getElem?_eq_none hlen] at htx
    cases htx
  · rw [txAt_cons hh] at htx
    exact h txid v hv tx htx

theorem RowsHonest.disconnect {height : Int} (h : RowsHonest s.txIndex (p :: chain))
    (hs : s.disconnectBlock height block stxos = some s') : RowsHonest s'.txIndex chain := by
  obtain ⟨es, hes, -⟩ := map_eq_some_iff.1 hs
  rw [disconnectBlock_eq hes] at hs
  cases hs
  exact fun txid v hv => (h txid v hv).tail

/-! ## Init -/

/-- The rows that are written, those in the batch, and what waits. -/
structure RebuildHonest (chain : Chain) (unread : Nat → Option ReadError) (r : Rebuild) : Prop where
  rows : RowsHonest r.index.txIndex chain
  batch : WritesHonest r.batch.txIndex chain
  fetched : Fetched chain unread r

section Init
variable {unread : Nat → Option ReadError} {best fuel k : Nat} {r r' : Rebuild}

theorem WritesHonest.append {ws ws' : List (Write Hash TxIndexValue)} (h : WritesHonest ws chain)
    (h' : WritesHonest ws' chain) : WritesHonest (ws ++ ws') chain :=
  fun w hw => (mem_append.1 hw).elim (h w) (h' w)

theorem RebuildHonest.take (hc : ∀ p ∈ chain, Countable p.1) (h : RebuildHonest chain unread r)
    (ht : Taken best r (fetch chain unread r.next) r') : RebuildHonest chain unread r' := by
  have hf : Fetched chain unread r' := by
    intro j x hj
    rw [ht.pending_eq] at hj
    obtain ⟨-, ⟨⟩⟩ | ⟨-, hj⟩ := Store.of_write hj
    exact h.fetched j x hj
  -- the rows of the block at `next`
  have hrows : ∀ {block stxos b}, fetch chain unread r.next = .ok (block, stxos) →
      connectBlockBatch r.next block stxos = some b → WritesHonest b.txIndex chain := by
    intro block stxos b hfetch hb
    obtain ⟨es, -, rfl⟩ := map_eq_some_iff.1 hb
    have hat := fetch_ok hfetch
    have hmem : (block, stxos) ∈ chain := by
      rw [blockAt] at hat
      split at hat
      · exact mem_of_getElem? hat
      · cases hat
    exact writesHonest_txRows hat (hc _ hmem)
  generalize hcur : fetch chain unread r.next = cur at ht
  cases ht with
  | skipped e _ => exact ⟨h.rows, h.batch, hf⟩
  | written block stxos b hb =>
    refine ⟨RowsHonest.writeAll (fun txid _ => h.rows txid) (h.batch.append (hrows hcur hb)), ?_, hf⟩
    rintro w ⟨⟩
  | kept block stxos b hb _ => exact ⟨h.rows, h.batch.append (hrows hcur hb), hf⟩

theorem RebuildHonest.consume (hc : ∀ p ∈ chain, Countable p.1) (h : RebuildHonest chain unread r) :
    Outcome (RebuildHonest chain unread) (fun _ => True) (r.consume best fuel) := by
  induction fuel generalizing r with
  | zero => exact h
  | succ fuel ih =>
    rw [Rebuild.consume]
    split
    · exact h
    next x hp =>
      obtain ⟨-, rfl⟩ := h.fetched _ x hp
      cases ht : r.take best (fetch chain unread r.next) with
      | error e => trivial
      | ok r1 => exact ih (h.take hc (take_ok ht))

theorem RebuildHonest.receive (hc : ∀ p ∈ chain, Countable p.1) (hlt : k < chain.length)
    (h : RebuildHonest chain unread r) :
    Outcome (RebuildHonest chain unread) (fun _ => True) (r.receive best (k, fetch chain unread k)) := by
  refine RebuildHonest.consume hc ⟨h.rows, h.batch, fun j x hj => ?_⟩
  obtain ⟨rfl, ⟨⟩⟩ | ⟨-, hj⟩ := Store.of_write hj
  · exact ⟨hlt, rfl⟩
  · exact h.fetched j x hj

theorem startingPoint_txIndex (chain : Chain) (above : Int → Option Hash) (s : Index) :
    (startingPoint chain above s).1.txIndex = s.txIndex := by
  rw [startingPoint]
  split
  · rfl
  · split
    · split <;> rfl
    · rfl

theorem RowsHonest.init {inp : InitInput} (hc : ∀ p ∈ chain, Countable p.1) (h : RowsHonest s.txIndex chain)
    (hdel : Delivered chain inp s) :
    Outcome (fun s' : Index => RowsHonest s'.txIndex chain) (fun _ => True) (init chain inp s) := by
  rw [← startingPoint_txIndex chain inp.above s] at h
  rw [Sugar.init]
  generalize startingPoint chain inp.above s = start at h
  obtain ⟨s0, tipHeight⟩ := start
  dsimp only
  split
  · exact h
  · rw [foldlM_map]
    refine Outcome.bind (Outcome.foldlM (I := fun _ => RebuildHonest chain inp.unread)
      ⟨h, by rintro w ⟨⟩, fun _ _ hx => by cases hx⟩ ?_) fun r hr => ?_
    · rintro done k r ⟨rest, hpre⟩ hr
      exact hr.receive hc (hdel.lt (by rw [← hpre]; simp))
    · split
      · trivial
      · exact hr.rows

end Init

/-! ## Runs -/

/-- No block has more transactions than a position can count. -/
def Counted : Step → Prop
  | .connect block _ | .lost block _ => Countable block
  | .moved chain => ∀ p ∈ chain, Countable p.1
  | _ => True

/-- A block that is connected fills no place of a row of another transaction, and in a chain with a block that is lost, or
that the program starts the index on, no row leads to another transaction. -/
def NoReuse (n : Node) : Step → Prop
  | .connect block _ => FillsNoRow n.index.txIndex n.live.length block
  | .lost block stxos => RowsHonest n.index.txIndex ((block, stxos) :: n.live)
  | .init _ => RowsHonest n.index.txIndex n.live
  | _ => True

/-- While the index runs, its rows are honest. -/
structure Honest (n : Node) : Prop where
  live : ∀ p ∈ n.live, Countable p.1
  saved : ∀ p ∈ n.saved, Countable p.1
  rows : n.up → RowsHonest n.index.txIndex n.live

theorem Honest.step {n n' : Node} {a : Step} (h : Honest n) (hok : Counted a ∧ NoReuse n a) (hs : n.step a = some n') :
    Honest n' := by
  obtain ⟨hcount, hreuse⟩ := hok
  cases a with
  | connect block stxos =>
    simp only [Node.step, ite_none_right_eq_some, map_eq_some_iff] at hs
    obtain ⟨hu, s, hs, rfl⟩ := hs
    exact ⟨forall_mem_cons.2 ⟨hcount, h.live⟩, h.saved, fun _ => (h.rows hu).connect hcount hreuse hs⟩
  | lost block stxos =>
    simp only [Node.step, ite_none_right_eq_some, Option.some.injEq] at hs
    obtain ⟨-, rfl⟩ := hs
    exact ⟨forall_mem_cons.2 ⟨hcount, h.live⟩, h.saved, fun _ => hreuse⟩
  | disconnect =>
    obtain ⟨index, live, saved, up⟩ := n
    rcases live with - | ⟨⟨block, stxos⟩, - | ⟨q, rest⟩⟩
    · cases hs
    · cases hs
    · simp only [Node.step, ite_none_right_eq_some, map_eq_some_iff] at hs
      obtain ⟨hu, s, hs, rfl⟩ := hs
      exact ⟨(forall_mem_cons.1 h.live).2, h.saved, fun _ => (h.rows hu).disconnect hs⟩
  | commit =>
    cases hs
    exact ⟨h.live, h.live, h.rows⟩
  | restart =>
    cases hs
    exact ⟨h.saved, h.saved, by rintro ⟨⟩⟩
  | moved chain =>
    simp only [Node.step, ite_none_left_eq_some, Option.some.injEq] at hs
    obtain ⟨hu, rfl⟩ := hs
    exact ⟨hcount, hcount, fun h => absurd h hu⟩
  | init inp =>
    obtain ⟨⟨hdown, hdel⟩, hs⟩ := ite_none_right_eq_some.1 hs
    have hout := RowsHonest.init h.live hreuse hdel
    cases hinit : init n.live inp n.index with
    | ok s =>
      rw [hinit] at hs hout
      cases hs
      exact ⟨h.live, h.saved, fun _ => hout⟩
    | error e =>
      rw [hinit] at hs
      cases hs
      exact ⟨h.live, h.saved, fun hup => absurd (hdown.symm.trans hup) (by simp)⟩

/-- In every run in which no place of a row is filled with another transaction, a transaction that is found is the one
that was asked for. -/
theorem found_is_asked {c : Chain} {steps : List Step} {n : Node} {base : Nat} {cold : Int → Option Block} {txid : Hash}
    {tx : Tx} {height : Int} (hc : ∀ p ∈ c, Countable p.1)
    (hok : Along Node.step (fun n a => Counted a ∧ NoReuse n a) (freshNode c) steps)
    (hr : run Node.step (freshNode c) steps = some n) (hup : n.up)
    (hcold : ColdHonest n.index.txIndex n.live base cold)
    (hf : getTxByHash n.index n.live base cold txid = .found tx height) : tx.hash = txid := by
  have hhonest : Honest n := run_invariant (fun _ _ _ h hok hs => h.step hok hs) ⟨hc, hc, by rintro ⟨⟩⟩ hok hr
  exact (hhonest.rows hup).hash_of_found hcold hf

/-- A block that is connected again finds its own rows at its height. -/
theorem FillsNoRow.again (h : FillsNoRow t height block) :
    FillsNoRow (t.writeAll (txRows height block)) height block := by
  intro txid hnot v hv hh
  obtain ⟨w, hw, rfl, -⟩ | ⟨-, hold⟩ := Store.of_writeAll hv
  · exact absurd (keys_txRows height block ▸ List.mem_map_of_mem hw) hnot
  · exact h txid hnot v hold hh

theorem fillsNoRow_genesis : FillsNoRow (Store.writeAll (fun _ => none) (txRows 0 genesisBlock)) 1 block := by
  intro txid _ v hv hh
  obtain ⟨w, hw, -, hval⟩ | ⟨-, hnone⟩ := Store.of_writeAll hv
  · obtain rfl := mem_singleton.1 hw
    cases hval
    cases hh
  · cases hnone

/-- A block is disconnected and connected again: its second transaction is found. -/
theorem found_is_asked_again : ∃ n tx, run Node.step (freshNode shortChain)
      [.init { order := [0] }, .connect spendingBlock [⟨50, payTo 1, 0, true⟩], .disconnect,
        .connect spendingBlock [⟨50, payTo 1, 0, true⟩]] = some n ∧
    getTxByHash n.index n.live 0 (fun _ => none) 12 = .found tx 1 ∧ tx.hash = 12 := by
  have hcount : Countable spendingBlock := by
    unfold Countable
    decide
  refine exists_run_with rfl fun n hr => ?_
  have hf : getTxByHash n.index n.live 0 (fun _ => none) 12 = .found ⟨12, [⟨10, 0⟩], [⟨50, payTo 2⟩]⟩ 1 := by
    cases hr
    rfl
  refine ⟨_, hf, found_is_asked (c := shortChain) ?_ ?_ hr (by cases hr; rfl) ?_ hf⟩
  · intro p hp
    obtain rfl := mem_singleton.1 hp
    unfold Countable
    decide
  · refine .cons ⟨trivial, by rintro _ _ ⟨⟩⟩ rfl ?_
    refine .cons ⟨hcount, fillsNoRow_genesis⟩ rfl ?_
    refine .cons ⟨trivial, trivial⟩ rfl ?_
    exact ⟨⟨hcount, fillsNoRow_genesis.again⟩, fun _ _ => trivial⟩
  · rintro _ _ _ _ _ ⟨⟩

/-- Another transaction is found for the first one of a block that was disconnected and replaced, and again when the
chain changed while the program did not run and the index was rebuilt. -/
theorem replaced_transaction_found :
    (∃ n, Along Node.step (fun n a => Lawful smallTree n a ∧ Counted a) (freshNode shortChain)
        [.init { order := [0] }, .connect spendingBlock [⟨50, payTo 1, 0, true⟩], .disconnect,
          .connect otherBlock []] ∧
      run Node.step (freshNode shortChain)
        [.init { order := [0] }, .connect spendingBlock [⟨50, payTo 1, 0, true⟩], .disconnect, .connect otherBlock []] =
        some n ∧
      n.up ∧ getTxByHash n.index n.live 0 (fun _ => none) 11 = .found ⟨14, [], [⟨50, payTo 4⟩]⟩ 1) ∧
    ∃ n, run Node.step (freshNode shortChain)
        [.init { order := [0] }, .connect spendingBlock [⟨50, payTo 1, 0, true⟩], .commit, .restart, .moved otherChain,
          .init { order := [0, 1] }] = some n ∧
      n.up ∧ getTxByHash n.index n.live 0 (fun _ => none) 11 = .found ⟨14, [], [⟨50, payTo 4⟩]⟩ 1 := by
  have hcount : Countable spendingBlock ∧ Countable otherBlock := by
    unfold Countable
    decide
  refine ⟨⟨_, ?_, rfl, rfl, rfl⟩, ⟨_, rfl, rfl, rfl⟩⟩
  refine .cons ⟨trivial, trivial⟩ rfl ?_
  refine .cons ⟨onTree_long, hcount.1⟩ rfl ?_
  refine .cons ⟨trivial, trivial⟩ rfl ?_
  exact ⟨⟨onTree_other, hcount.2⟩, fun _ _ => trivial⟩

end IniNode.Sugar
