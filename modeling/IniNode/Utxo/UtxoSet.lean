import IniNode.Lib.Ledger
import IniNode.Utxo.Entry
/-!
# The utxo set of a chain

What the utxo code is for: the outputs that are unspent after a chain of blocks. A block is read as
the events of its transactions in order: each input spends its outpoint, then each output that is
not provably unspendable is created. `ledger` runs the events of a whole chain; its live outpoints
are the utxo set. The genesis block adds nothing to it, so a chain is the list of the blocks above
genesis, and the block at position `i` has height `i + 1`.
-/

open IniNode.Lib List

namespace IniNode

abbrev UtxoEvent := Event OutPoint Coin

abbrev UtxoLedger := Ledger OutPoint Coin

/-- The coin an output of a transaction becomes at a height. -/
def newCoin (tx : Tx) (height : Int) (txOut : TxOut) : Coin :=
  ⟨txOut.value, txOut.pkScript, height, isCoinBase tx⟩

/-- The inputs a transaction spends: none for a coinbase. -/
def inputEvents (tx : Tx) : List UtxoEvent :=
  if isCoinBase tx then [] else tx.txIn.map .spend

variable (height : Int)

def outputEvents (tx : Tx) : List UtxoEvent :=
  tx.outputs.filterMap fun p =>
    if isUnspendable p.2.pkScript then none else some (.create p.1 (newCoin tx height p.2))

def txEvents (tx : Tx) : List UtxoEvent := inputEvents tx ++ outputEvents height tx

def blockEvents (block : Block) : List UtxoEvent :=
  block.transactions.flatMap (txEvents height)

variable (chain : List Block)

def nextHeight : Int := chain.length + 1

def ledger : UtxoLedger :=
  chain.zipIdx.foldl (fun l p => l.run (blockEvents (p.2 + 1) p.1)) Ledger.empty

def utxoSet : UtxoBucket := (ledger chain).live

@[simp] theorem ledger_nil : ledger [] = Ledger.empty := rfl

theorem ledger_concat (b : Block) : ledger (chain ++ [b]) = (ledger chain).run (blockEvents (nextHeight chain) b) := by
  simp [ledger, nextHeight, zipIdx_append]

/-- The spend journal of the block that comes next on a chain: the outputs it spends, in order. -/
def journal (b : Block) : List SpentTxOut :=
  (ledger chain).spentValues (blockEvents (nextHeight chain) b)

variable {tx : Tx} {op : OutPoint} {c : Coin}

theorem inputEvents_of_not_coinBase (h : isCoinBase tx = false) : inputEvents tx = tx.txIn.map .spend := by
  rw [inputEvents, h, if_neg (by simp)]

theorem inputEvents_coinBase (h : isCoinBase tx = true) : inputEvents tx = [] := if_pos h

theorem blockHeight_of_txEvents {height : Int}
    (h : .create op c ∈ txEvents height tx) : c.blockHeight = height := by
  rcases mem_append.1 h with h | h
  · unfold inputEvents at h
    split at h <;> simp at h
  · obtain ⟨p, -, h⟩ := mem_filterMap.1 h
    split at h
    · cases h
    · cases h; rfl

theorem blockHeight_of_create {height : Int} {b : Block}
    (h : .create op c ∈ blockEvents height b) : c.blockHeight = height := by
  obtain ⟨tx, -, h⟩ := mem_flatMap.1 h
  exact blockHeight_of_txEvents h

theorem blockHeight_ne_zero {chain : List Block} (h : (ledger chain).origin op = some c) :
    c.blockHeight ≠ 0 := by
  induction chain using reverseRecOn with
  | nil => simp [Ledger.empty] at h
  | append_singleton chain b ih =>
    rw [ledger_concat] at h
    rcases Ledger.origin_run_cases h with h | h
    · exact ih h
    · rw [blockHeight_of_create h, nextHeight]; omega

variable (genesis : Hash) (chain : List Block)

def tipHash : Hash := (chain.getLast?.map Block.hash).getD genesis

@[simp] theorem tipHash_concat (b : Block) : tipHash genesis (chain ++ [b]) = b.hash := by
  simp [tipHash]

/-! ## Valid chains -/

/-- The first transaction is the only coinbase. -/
def CoinBaseFirst : List Tx → Prop
  | [] => False
  | cb :: txs => isCoinBase cb = true ∧ ∀ tx ∈ txs, isCoinBase tx = false

instance : DecidablePred CoinBaseFirst
  | [] => isFalse id
  | _ :: _ => inferInstanceAs (Decidable (_ ∧ _))

/-- The block may be connected on top of the chain. Its first transaction is its only coinbase; no
input spends an output twice or one that does not exist; and no output is created a second time,
which BIP0030 and, since the height is in the coinbase, BIP0034 rule out. -/
structure ValidBlock (genesis : Hash) (chain : List Block) (b : Block) : Prop where
  extends_tip : b.prevBlock = tipHash genesis chain
  new_hash : b.hash ≠ genesis ∧ ∀ c ∈ chain, c.hash ≠ b.hash
  coinbase : CoinBaseFirst b.transactions
  events : (ledger chain).Valid (blockEvents (nextHeight chain) b)

instance (genesis : Hash) (chain : List Block) (b : Block) : Decidable (ValidBlock genesis chain b) :=
  decidable_of_iff (b.prevBlock = tipHash genesis chain ∧ (b.hash ≠ genesis ∧ ∀ c ∈ chain, c.hash ≠ b.hash) ∧
      CoinBaseFirst b.transactions ∧ (ledger chain).Valid (blockEvents (nextHeight chain) b))
    ⟨fun ⟨h1, h2, h3, h4⟩ => ⟨h1, h2, h3, h4⟩,
      fun ⟨h1, h2, h3, h4⟩ => ⟨h1, h2, h3, h4⟩⟩

theorem ValidBlock.transactions_eq {genesis : Hash} {chain : List Block} {b : Block} (h : ValidBlock genesis chain b) :
    ∃ cb txs, b.transactions = cb :: txs ∧ isCoinBase cb = true ∧ ∀ tx ∈ txs, isCoinBase tx = false := by
  have hcb := h.coinbase
  cases hb : b.transactions with
  | nil => rw [hb] at hcb; exact hcb.elim
  | cons cb txs => rw [hb] at hcb; exact ⟨cb, txs, rfl, hcb⟩

/-- Every block of the chain may be connected on top of those before it. -/
def ValidChain : Prop :=
  ∀ pre b, pre ++ [b] <+: chain → ValidBlock genesis pre b

variable {genesis : Hash} {chain pre : List Block} {b : Block}

theorem ValidChain.of_isPrefix (h : ValidChain genesis chain) (hp : pre <+: chain) : ValidChain genesis pre :=
  fun _ _ hp' => h _ _ (hp'.trans hp)

theorem ValidChain.concat (h : ValidChain genesis chain) (hb : ValidBlock genesis chain b) :
    ValidChain genesis (chain ++ [b]) := by
  intro pre c hp
  rcases prefix_concat_iff.1 hp with heq | hp
  · obtain ⟨rfl, hcb⟩ := append_inj' heq rfl
    rw [singleton_inj.1 hcb]
    exact hb
  · exact h pre c hp

theorem ValidChain.last (h : ValidChain genesis (chain ++ [b])) : ValidBlock genesis chain b :=
  h chain b (prefix_refl _)

theorem origin_of_isPrefix (h : ValidChain genesis chain) (hp : pre <+: chain)
    (ho : (ledger pre).origin op = some c) : (ledger chain).origin op = some c := by
  obtain ⟨suf, rfl⟩ := hp
  induction suf using reverseRecOn with
  | nil => simpa using ho
  | append_singleton suf b ih =>
    rw [← append_assoc] at h ⊢
    rw [ledger_concat]
    exact h.last.events.origin_stable (ih (h.of_isPrefix (prefix_append _ _)))

end IniNode
