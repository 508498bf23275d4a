import Chainlite.MiningCandidate

/-! No replay and no double spend: along a chain the nonces of an account count its transactions from
zero. A chain holds each of its transactions in memory, so there are fewer than `2 ^ 64` of them and a
counter of 64 bits does not come round. -/

open Std

namespace Chainlite

section
variable [Crypto] {p : Params}

/-- The nonces of the transactions sent by keys with the address `a`, in their order. -/
def noncesOf (txs : List Tx) (a : Addr20) : List ℕ :=
  (txs.filter fun t => t.type ≠ txCoinbase ∧ t.sender = a).map fun t => t.nonce.toNat

theorem length_noncesOf_le (txs : List Tx) (a : Addr20) : (noncesOf txs a).length ≤ txs.length := by
  rw [noncesOf, List.length_map]
  exact List.length_filter_le _ _

theorem noncesOf_snoc_other {txs : List Tx} {t : Tx} {a : Addr20}
    (h : t.type = txCoinbase ∨ t.sender ≠ a) : noncesOf (txs ++ [t]) a = noncesOf txs a := by
  have hout : ¬(t.type ≠ txCoinbase ∧ t.sender = a) := by tauto
  simp [noncesOf, hout]

theorem noncesOf_snoc_own {txs : List Tx} {t : Tx} {a : Addr20} (htype : t.type ≠ txCoinbase)
    (hsender : t.sender = a) : noncesOf (txs ++ [t]) a = noncesOf txs a ++ [t.nonce.toNat] := by
  simp [noncesOf, htype, hsender]

/-- Every account's nonces so far are `0, 1, ..., k - 1`, with `k` its next one. -/
def Counted (st : State) (done : List Tx) : Prop :=
  ∀ a, noncesOf done a = List.range (st.acct a).nonce.toNat

/-- A counter is at most the number of transactions. -/
theorem Counted.le {st : State} {done : List Tx} (h : Counted st done) (a : Addr20) :
    (st.acct a).nonce.toNat ≤ done.length := by
  rw [← List.length_range (n := (st.acct a).nonce.toNat), ← h a]
  exact length_noncesOf_le done a

/-- A transaction that is not a coinbase carries its sender's counter and advances it by one. -/
theorem TxValid.nonce_effect {st : State} {height : UInt64} {first : Bool} {t : Tx}
    (h : TxValid st p height first t) (htype : t.type ≠ txCoinbase) :
    t.nonce = (st.acct t.sender).nonce ∧ ∀ a, ((st.effect t).acct a).nonce =
      if a = t.sender then (st.acct a).nonce + 1 else (st.acct a).nonce := by
  cases h with
  | coinbase _ hcb => exact absurd hcb htype
  | transfer _ htr hnonce =>
      refine ⟨hnonce, fun a => ?_⟩
      rw [State.effect, if_neg htype, if_pos htr]
      simp
  | record _ hrec hnonce =>
      refine ⟨hnonce, fun a => ?_⟩
      rw [State.effect, if_neg htype, if_neg (by rw [hrec]; decide)]
      simp

theorem nonce_effect_coinbase {st : State} {t : Tx} (htype : t.type = txCoinbase) (a : Addr20) :
    ((st.effect t).acct a).nonce = (st.acct a).nonce := by
  rw [State.effect, if_pos htype, State.nonce_credit]

/-- **One application keeps the accounts counted.** -/
theorem Counted.effect {st : State} {done : List Tx} {t : Tx} {height : UInt64} {first : Bool}
    (h : Counted st done) (hvalid : TxValid st p height first t) (hlen : (done ++ [t]).length < 2 ^ 64) :
    Counted (st.effect t) (done ++ [t]) := by
  intro a
  by_cases htype : t.type = txCoinbase
  · rw [noncesOf_snoc_other (Or.inl htype), nonce_effect_coinbase htype, h a]
  · obtain ⟨hnonce, heffect⟩ := hvalid.nonce_effect htype
    rw [heffect a]
    by_cases ha : a = t.sender
    · -- as many nonces as the counter says have been used, so it is short of its last value
      have hcount := h.le a
      have hsucc : ((st.acct a).nonce + 1).toNat = (st.acct a).nonce.toNat + 1 := by
        rw [List.length_append, List.length_singleton] at hlen
        exact toNat_add_of_lt (show _ + 1 < 2 ^ 64 by omega)
      rw [if_pos ha, noncesOf_snoc_own htype ha.symm, hsucc, List.range_succ, h a, hnonce, ha]
    · rw [if_neg ha, noncesOf_snoc_other (Or.inr (Ne.symm ha)), h a]

namespace Chain

theorem ValidBlocks.counted {bs : List Block} (h : ValidBlocks p bs)
    (hlen : (bs.flatMap Block.txs).length < 2 ^ 64) : Counted (replay p bs).st (bs.flatMap Block.txs) := by
  refine h.tx_induction (motive := fun st done => done.length < 2 ^ 64 → Counted st done)
    (fun _ a => by simp [noncesOf]) ?_ hlen
  intro st done t height first hvalid ih hdone
  refine (ih ?_).effect hvalid hdone
  rw [List.length_append] at hdone
  omega

theorem Sound.counted {c : Chain} (h : Sound p c) (hlen : c.txs.length < 2 ^ 64) : Counted c.st c.txs := by
  rw [h.st]
  exact h.valid.counted hlen

/-- **No replay and no double spend.** -/
theorem nonces_consecutive {c : Chain} (h : Reachable p c) (hlen : c.txs.length < 2 ^ 64) :
    (∀ a, noncesOf c.txs a = List.range (c.st.acct a).nonce.toNat) ∧
    ∀ g rest, c.blocks = g :: rest → g.txs = [] ∧ ∀ b ∈ rest, ∃ cb others, b.txs = cb :: others ∧
      cb.type = txCoinbase ∧ cb.nonce = b.h.height ∧ ∀ t ∈ others, t.type ≠ txCoinbase := by
  obtain ⟨hsound, -⟩ := h.sound
  refine ⟨hsound.counted hlen, fun g rest hblocks => ?_⟩
  have hvalid := hsound.valid
  rw [hblocks] at hvalid
  refine ⟨((hvalid [] g rest rfl).genesis rfl).txs, fun b hb => ?_⟩
  obtain ⟨before, after, rfl⟩ := List.append_of_mem hb
  have hnext := (hvalid (g :: before) b after rfl).next (by simp)
  obtain ⟨cb, others, htxs, htype, hnonce, -, hothers⟩ := hnext.txs_eq
  exact ⟨cb, others, htxs, htype, hnonce, hothers⟩

end Chain

end

section
local instance noncesCrypto : Crypto := ownCrypto

theorem noncesOf_paidChain : noncesOf Chain.paidChain.txs (addrOf ownKey) = [0, 1] := by
  have htype : (txTransfer : UInt8) ≠ txCoinbase := by decide
  simp [Chain.txs_paidChain, noncesOf, coinbaseTx, Chain.payment, Tx.sender, htype]

/-- Two payments use the first two nonces, behind the coinbase of their block. -/
theorem nonces_consecutive_paid :
    [0, 1] = List.range (Chain.paidChain.st.acct (addrOf ownKey)).nonce.toNat ∧
      ∃ cb others, Chain.paidBlock.txs = cb :: others ∧ cb.type = txCoinbase ∧ cb.nonce = Chain.paidBlock.h.height ∧
        ∀ t ∈ others, t.type ≠ txCoinbase := by
  have hblocks : Chain.paidChain.blocks =
      makeGenesis Chain.easyParams :: ((Chain.coinbases (addrOf ownKey) 1).blocks.tail ++ [Chain.paidBlock]) := by
    rw [Chain.paidChain, Chain.grow_blocks]
    rfl
  have hlen : Chain.paidChain.txs.length < 2 ^ 64 := by
    rw [Chain.txs_paidChain]
    exact (show 4 < 2 ^ 64 by decide)
  have hall := Chain.nonces_consecutive (Chain.paidChain_reachable verify_doubleSign addrOf_ownKey) hlen
  have hmem : Chain.paidBlock ∈ (Chain.coinbases (addrOf ownKey) 1).blocks.tail ++ [Chain.paidBlock] :=
    List.mem_append_right _ (List.mem_singleton_self _)
  exact ⟨noncesOf_paidChain.symm.trans (hall.1 _), (hall.2 _ _ hblocks).2 _ hmem⟩

end

end Chainlite
