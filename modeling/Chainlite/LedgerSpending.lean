import Chainlite.LedgerConservation
import Chainlite.LedgerNonces

/-! Only the holder of a key can spend. A block advances the counter of an address by one for each of its
transactions that a key with this address has signed, and takes coin from it only by a transfer among these.
The balance is compared in the books of the chain, where a credit cannot wrap round. -/

open Std

namespace Chainlite

section
variable [Crypto] {p : Params}

/-- The transaction comes with a valid signature by a key with the address `a`. -/
def Tx.SignedBy (a : Addr20) (t : Tx) : Prop :=
  t.sender = a ∧ isZero t.fromKey = false ∧ sigVerify t.fromKey t.signHash t.sig = true

instance (a : Addr20) (t : Tx) : Decidable (t.SignedBy a) := inferInstanceAs (Decidable (_ ∧ _ ∧ _))

/-- The transactions signed by a key with the address `a`. -/
def signedBy (txs : List Tx) (a : Addr20) : List Tx := txs.filter fun t => t.SignedBy a

theorem signedBy_append (txs txs' : List Tx) (a : Addr20) :
    signedBy (txs ++ txs') a = signedBy txs a ++ signedBy txs' a := List.filter_append ..

theorem length_signedBy_singleton (t : Tx) (a : Addr20) :
    (signedBy [t] a).length = if t.SignedBy a then 1 else 0 := by
  by_cases h : t.SignedBy a
  · simp [signedBy, h]
  · simp [signedBy, h]

/-- Of the transactions that apply, a coinbase is signed by nobody and the others by their senders. -/
theorem TxValid.signedBy_iff {st : State} {height : UInt64} {first : Bool} {t : Tx} (h : TxValid st p height first t)
    (a : Addr20) : t.SignedBy a ↔ t.type ≠ txCoinbase ∧ t.sender = a := by
  have hother : t.Signed p → (t.SignedBy a ↔ t.sender = a) := fun hsigned =>
    ⟨fun h => h.1, fun hsender => ⟨hsender, hsigned.sender, hsigned.sig⟩⟩
  cases h with
  | coinbase _ htype hzero =>
      constructor
      · rintro ⟨-, hnonzero, -⟩
        rw [hzero] at hnonzero
        cases hnonzero
      · rintro ⟨hne, -⟩
        exact absurd htype hne
  | transfer hsigned htype =>
      rw [hother hsigned]
      exact (and_iff_right (by rw [htype]; decide)).symm
  | record hsigned htype =>
      rw [hother hsigned]
      exact (and_iff_right (by rw [htype]; decide)).symm

/-- **One application** advances the counter of an address when a key with this address has signed. -/
theorem TxValid.nonce_effect_signedBy {st : State} {height : UInt64} {first : Bool} {t : Tx}
    (h : TxValid st p height first t) (a : Addr20) :
    ((st.effect t).acct a).nonce = (st.acct a).nonce + UInt64.ofNat (signedBy [t] a).length := by
  rw [length_signedBy_singleton]
  by_cases hsigned : t.SignedBy a
  · obtain ⟨htype, hsender⟩ := (h.signedBy_iff a).mp hsigned
    rw [(h.nonce_effect htype).2 a, if_pos hsender.symm, if_pos hsigned]
    rfl
  · have hsame : ((st.effect t).acct a).nonce = (st.acct a).nonce := by
      by_cases htype : t.type = txCoinbase
      · exact nonce_effect_coinbase htype a
      · have hsender : a ≠ t.sender := fun ha => hsigned ((h.signedBy_iff a).mpr ⟨htype, ha.symm⟩)
        rw [(h.nonce_effect htype).2 a, if_neg hsender]
    rw [hsame, if_neg hsigned]
    exact (UInt64.add_zero _).symm

/-- The counters of a state, advanced by the signed transactions of a list. -/
def Advanced (start st : State) (done : List Tx) : Prop :=
  ∀ a, (st.acct a).nonce = (start.acct a).nonce + UInt64.ofNat (signedBy done a).length

theorem Advanced.effect {start st : State} {done : List Tx} {t : Tx} {height : UInt64} {first : Bool}
    (h : Advanced start st done) (hvalid : TxValid st p height first t) : Advanced start (st.effect t) (done ++ [t]) := by
  intro a
  rw [hvalid.nonce_effect_signedBy a, h a, signedBy_append, List.length_append, UInt64.ofNat_add, UInt64.add_assoc]

theorem transferredFrom_append (txs txs' : List Tx) (a : Addr20) :
    transferredFrom (txs ++ txs') a = transferredFrom txs a + transferredFrom txs' a := by
  simp [transferredFrom]

theorem received_append (txs txs' : List Tx) (a : Addr20) :
    Books.received (entries (txs ++ txs')) a = Books.received (entries txs) a + Books.received (entries txs') a := by
  simp [Books.received, entries]

/-- **A balance falls only by a transfer.** -/
theorem Balanced.exists_transfer {st st' : State} {done txs : List Tx} {a : Addr20} (h : Balanced st done)
    (h' : Balanced st' (done ++ txs)) (hless : (st'.acct a).balance < (st.acct a).balance) :
    ∃ t ∈ txs, t.type = txTransfer ∧ t.sender = a := by
  by_contra hnone
  push Not at hnone
  have hspent : transferredFrom txs a = 0 := by
    have hfilter : txs.filter (fun t => t.type = txTransfer ∧ t.sender = a) = [] := by
      refine List.filter_eq_nil_iff.mpr fun t ht hboth => ?_
      obtain ⟨htype, hsender⟩ := of_decide_eq_true hboth
      exact hnone t ht htype hsender
    rw [transferredFrom, hfilter]
    rfl
  have hbefore := h a
  have hafter := h' a
  rw [spent_entries] at hbefore hafter
  rw [transferredFrom_append, received_append, hspent] at hafter
  have hlt : (st'.acct a).balance.toNat < (st.acct a).balance.toNat := hless
  omega

namespace Chain

/-- The counters after a block. -/
theorem NextBlock.advanced {c : Chain} {b : Block} (h : NextBlock c b) : Advanced c.st (c.st.effects b.txs) b.txs := by
  obtain ⟨cb, rest, htxs, hcb, hrest⟩ := h.body
  have hstart : Advanced c.st c.st [] := fun a => (UInt64.add_zero _).symm
  have hfirst : Advanced c.st (c.st.effect cb) [cb] := hstart.effect hcb
  have hall : Advanced c.st ((c.st.effect cb).effects rest) ([cb] ++ rest) :=
    hrest.induction (motive := Advanced c.st) (fun st done t first hvalid hdone => hdone.effect hvalid) hfirst
  rw [htxs, State.effects_cons]
  exact hall

theorem NextBlock.valid_of_mem {c : Chain} {b : Block} (h : NextBlock c b) {t : Tx} (ht : t ∈ b.txs) :
    ∃ st first, TxValid st c.params b.h.height first t := by
  obtain ⟨cb, rest, htxs, hcb, hrest⟩ := h.body
  rw [htxs] at ht
  rcases List.mem_cons.mp ht with rfl | ht
  · exact ⟨c.st, true, hcb⟩
  · obtain ⟨st, hvalid⟩ := hrest.valid_of_mem ht
    exact ⟨st, false, hvalid⟩

/-- **Only the key holder can spend.** In an accepted block the counter of an address grows by the number of
transactions signed for it, its balance falls only if one of these is a transfer, and without any the counter
stays and the balance does not fall. -/
theorem only_key_holder_spends {c c' : Chain} (h : Reachable p c) {now : Clock} {b : Block}
    (hb : c.connectBlock now b = .ok c') (hsupply : p.reward.toNat * (c'.blocks.length - 1) < 2 ^ 64) (a : Addr20) :
    (c'.st.acct a).nonce = (c.st.acct a).nonce + UInt64.ofNat (signedBy b.txs a).length ∧
    (c'.txs.length < 2 ^ 64 → (c'.st.acct a).nonce.toNat = (c.st.acct a).nonce.toNat + (signedBy b.txs a).length) ∧
    ((c'.st.acct a).balance < (c.st.acct a).balance → ∃ t ∈ signedBy b.txs a, t.type = txTransfer) ∧
    (signedBy b.txs a = [] →
      (c'.st.acct a).nonce = (c.st.acct a).nonce ∧ (c.st.acct a).balance ≤ (c'.st.acct a).balance) := by
  obtain ⟨hsound, hne⟩ := h.sound
  obtain ⟨hsound', hblocks⟩ := hsound.connectBlock hb
  obtain ⟨haccepts, -, hgrow⟩ := connectBlock_ok_iff.mp hb
  have hnext := haccepts.next hne
  have hst : c'.st = c.st.effects b.txs := by rw [hgrow, grow_st]
  have htxs : c'.blocks.flatMap Block.txs = c.blocks.flatMap Block.txs ++ b.txs := by rw [hblocks]; simp
  have hnonce : (c'.st.acct a).nonce = (c.st.acct a).nonce + UInt64.ofNat (signedBy b.txs a).length := by
    rw [hst]
    exact hnext.advanced a
  have hbalance : (c'.st.acct a).balance < (c.st.acct a).balance → ∃ t ∈ signedBy b.txs a, t.type = txTransfer := by
    intro hless
    have hbefore : Balanced c.st (c.blocks.flatMap Block.txs) := by
      rw [hsound.st]
      refine hsound.valid.balanced (Nat.lt_of_le_of_lt (Nat.mul_le_mul_left _ ?_) hsupply)
      rw [hblocks, List.length_append]
      omega
    have hafter : Balanced c'.st (c.blocks.flatMap Block.txs ++ b.txs) := by
      rw [hsound'.st, ← htxs]
      exact hsound'.valid.balanced hsupply
    obtain ⟨t, ht, htype, hsender⟩ := hbefore.exists_transfer hafter hless
    obtain ⟨st, first, hvalid⟩ := hnext.valid_of_mem ht
    refine ⟨t, List.mem_filter.mpr ⟨ht, decide_eq_true ?_⟩, htype⟩
    exact (hvalid.signedBy_iff a).mpr ⟨by rw [htype]; decide, hsender⟩
  refine ⟨hnonce, fun hcount => ?_, hbalance, fun hnone => ⟨?_, ?_⟩⟩
  · -- the counter is the number of transactions sent so far, and there are fewer than 2 ^ 64 of them
    rw [txs, htxs, List.length_append] at hcount
    have hbefore : c.txs.length < 2 ^ 64 := Nat.lt_of_le_of_lt (Nat.le_add_right _ _) hcount
    have hsent : (c.st.acct a).nonce.toNat ≤ (c.blocks.flatMap Block.txs).length := (hsound.counted hbefore).le a
    have hsigned : (signedBy b.txs a).length ≤ b.txs.length := List.length_filter_le _ _
    rw [hnonce, UInt64.toNat_add, UInt64.toNat_ofNat', Nat.add_mod_mod, Nat.mod_eq_of_lt (by omega)]
  · rw [hnonce, hnone]
    exact UInt64.add_zero _
  · rw [← UInt64.not_lt]
    intro hless
    obtain ⟨t, ht, -⟩ := hbalance hless
    rw [hnone] at ht
    cases ht

end Chain

theorem signedBy_paidBlock (hsign : ∀ hash, sigVerify ownKey hash (doubleSign hash) = true) :
    signedBy Chain.paidBlock.txs (addrOf ownKey) = [Chain.payment 0, Chain.payment 1] := by
  have hcoinbase : ¬(coinbaseTx Chain.easyParams 2 (zeros 20)).SignedBy (addrOf ownKey) := fun h =>
    absurd h.2.1 (show isZero (zeros 64) ≠ false by decide)
  have hpayment : ∀ nonce, (Chain.payment nonce).SignedBy (addrOf ownKey) := fun _ =>
    ⟨rfl, (show isZero ownKey = false by decide), hsign _⟩
  have htxs : Chain.paidBlock.txs = [coinbaseTx Chain.easyParams 2 (zeros 20), Chain.payment 0, Chain.payment 1] := rfl
  rw [htxs, signedBy, List.filter_cons_of_neg (by simpa using hcoinbase),
    List.filter_cons_of_pos (by simpa using hpayment 0), List.filter_cons_of_pos (by simpa using hpayment 1),
    List.filter_nil]

end

section
local instance spendingCrypto : Crypto := ownCrypto

/-- Two payments move the counter of the payer by two and lower the balance. -/
theorem only_key_holder_spends_paid :
    (Chain.paidChain.st.acct (addrOf ownKey)).nonce = ((Chain.coinbases (addrOf ownKey) 1).st.acct (addrOf ownKey)).nonce + 2 ∧
    (Chain.paidChain.st.acct (addrOf ownKey)).balance < ((Chain.coinbases (addrOf ownKey) 1).st.acct (addrOf ownKey)).balance ∧
    ∃ t ∈ signedBy Chain.paidBlock.txs (addrOf ownKey), t.type = txTransfer := by
  have hsupply : Chain.easyParams.reward.toNat * (Chain.paidChain.blocks.length - 1) < 2 ^ 64 := by
    rw [Chain.paidChain, Chain.grow_blocks, List.length_append, Chain.length_coinbases]
    decide
  have hspends := Chain.only_key_holder_spends (Chain.coinbases_reachable (addrOf ownKey) 1)
    (Chain.connect_paidBlock verify_doubleSign addrOf_ownKey) hsupply (addrOf ownKey)
  have hless : (Chain.paidChain.st.acct (addrOf ownKey)).balance <
      ((Chain.coinbases (addrOf ownKey) 1).st.acct (addrOf ownKey)).balance := by
    rw [(Chain.payments_settle verify_doubleSign addrOf_ownKey 0).2, Chain.acct_coinbases]
    decide
  refine ⟨?_, hless, hspends.2.2.1 hless⟩
  rw [hspends.1, signedBy_paidBlock verify_doubleSign]
  rfl

end

end Chainlite
