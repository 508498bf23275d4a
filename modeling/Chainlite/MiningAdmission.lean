import Chainlite.MiningTemplate

/-! Admission to the pool agrees with validation. `add` and `apply_tx` are two lists of rules in different
orders; both are brought to the same three conditions: signed for this network, next nonce of the sender, and a
payable or well-sized body. -/

open Std

namespace Chainlite

section
variable [Crypto] {p : Params} {height : UInt64}

/-- The body of a transaction that an account can send now. -/
def Tx.Payable (t : Tx) (acct : Account) : Prop :=
  t.type = txTransfer ∧ t.payload = [] ∧ t.amount ≤ acct.balance ∨
    t.type = txRecord ∧ t.amount = 0 ∧ t.payload ≠ [] ∧ t.payload.length ≤ maxPayload

omit [Crypto] in
theorem Tx.Payable.ne_coinbase {t : Tx} {acct : Account} (h : t.Payable acct) : t.type ≠ txCoinbase := by
  rcases h with ⟨htype, -⟩ | ⟨htype, -⟩
  · rw [htype]
    decide
  · rw [htype]
    decide

/-- Validation away from the first place of a block. -/
theorem txValid_iff {st : State} {t : Tx} : TxValid st p height false t ↔
    t.Signed p ∧ t.nonce = (st.acct t.sender).nonce ∧ t.Payable (st.acct t.sender) := by
  constructor
  · intro h
    cases h with
    | transfer hsigned htype hnonce hpay hbal => exact ⟨hsigned, hnonce, Or.inl ⟨htype, hpay, hbal⟩⟩
    | record hsigned htype hnonce hamt hpay hsize => exact ⟨hsigned, hnonce, Or.inr ⟨htype, hamt, hpay, hsize⟩⟩
  · rintro ⟨hsigned, hnonce, ⟨htype, hpay, hbal⟩ | ⟨htype, hamt, hpay, hsize⟩⟩
    · exact .transfer hsigned htype hnonce hpay hbal
    · exact .record hsigned htype hnonce hamt hpay hsize

namespace Mempool

omit [Crypto] in
/-- The checks by type, for the next transaction of an account. -/
theorem shapeError_eq_none_iff {t : Tx} {acct : Account} (hnext : t.nonce = acct.nonce) :
    shapeError t acct = none ↔ t.Payable acct := by
  have hne : txTransfer ≠ txRecord := by decide
  unfold shapeError Tx.Payable
  split_ifs <;> grind

/-- `add` succeeds when the transaction is signed, within the window of its sender and well shaped, provided
that the pool has room for it. -/
theorem add_succeeds_iff {pool : Mempool} {t : Tx} {st : State} (hroom : pool.m.size < maxPoolTxs)
    (hid : pool.has t.txid = false) (hkey : (t.sender, t.nonce) ∉ pool.m) :
    (∃ pool', pool.add t st p = .ok pool') ↔
      t.type ≠ txCoinbase ∧ t.Signed p ∧ ¬t.nonce < (st.acct t.sender).nonce ∧
        ¬(st.acct t.sender).nonce + maxNonceAhead < t.nonce ∧ shapeError t (st.acct t.sender) = none := by
  have hfull : ¬maxPoolTxs ≤ pool.m.size := Nat.not_le.mpr hroom
  have hfresh : ¬pool.m.contains (t.sender, t.nonce) = true := by rwa [ExtTreeMap.contains_iff_mem]
  have hheld : ¬pool.has t.txid = true := by rw [hid]; decide
  simp only [add, guard_ok_iff, exists_and_left]
  constructor
  · rintro ⟨htype, hnet, -, -, hsender, hsig, hused, hfar, pool', h⟩
    refine ⟨htype, ⟨not_not.mp hnet, by simpa using hsender, by simpa using hsig⟩, hused, hfar, ?_⟩
    cases hshape : shapeError t (st.acct t.sender) with
    | none => rfl
    | some err => simp [hshape] at h
  · rintro ⟨htype, hsigned, hused, hfar, hshape⟩
    refine ⟨htype, not_not.mpr hsigned.netId, hfull, hheld, ?_, ?_, hused, hfar, ?_⟩
    · rw [hsigned.sender]
      decide
    · rw [hsigned.sig]
      decide
    · rw [hshape]
      exact ⟨_, if_neg hfresh⟩

/-- **Admission agrees with validation** for the next transaction of a sender whose window does not wrap. -/
theorem admission_agrees {st : State} (hnonces : ∀ a, (st.acct a).nonce.toNat < 2 ^ 64 - 16) {pool : Mempool} {t : Tx}
    (hroom : pool.size < 10000) (hid : pool.has t.txid = false) (hkey : (t.sender, t.nonce) ∉ pool.m) (p : Params)
    (height : UInt64) :
    ((∃ pool', pool.add t st p = .ok pool') ∧ t.nonce = (st.acct t.sender).nonce) ↔
      (applyTx st t p height false).1 = none := by
  have hvalid : (applyTx st t p height false).1 = none ↔ TxValid st p height false t := by
    constructor
    · intro h
      exact (applyTx_ok_iff.mp (Prod.ext h rfl)).1
    · intro h
      rw [applyTx_ok_iff.mpr ⟨h, rfl⟩]
  have hwindow : ¬(st.acct t.sender).nonce + maxNonceAhead < (st.acct t.sender).nonce := by
    have hbound := hnonces t.sender
    have hfits : (st.acct t.sender).nonce.toNat + maxNonceAhead.toNat < 2 ^ 64 := by
      rw [show maxNonceAhead.toNat = 16 from rfl]
      omega
    rw [UInt64.lt_iff_toNat_lt, toNat_add_of_lt hfits]
    omega
  rw [hvalid, txValid_iff, add_succeeds_iff hroom hid hkey]
  constructor
  · rintro ⟨⟨-, hsigned, -, -, hshape⟩, hnext⟩
    exact ⟨hsigned, hnext, (shapeError_eq_none_iff hnext).mp hshape⟩
  · rintro ⟨hsigned, hnext, hpayable⟩
    refine ⟨⟨hpayable.ne_coinbase, hsigned, ?_, ?_, (shapeError_eq_none_iff hnext).mpr hpayable⟩, hnext⟩
    · rw [hnext]
      exact UInt64.lt_irrefl _
    · rw [hnext]
      exact hwindow

end Mempool

end

section
local instance admissionCrypto : Crypto := Sha.crypto fun _ _ _ => true

/-- A note of one byte by a sender without an account, on an empty pool. -/
theorem admission_agrees_first_note :
    ∃ pool', Mempool.add {} { type := txRecord, netId := Chain.easyParams.netId, fromKey := ownKey, payload := [7] } ∅
      Chain.easyParams = .ok pool' := by
  have hnonces : ∀ a, ((∅ : State).acct a).nonce.toNat < 2 ^ 64 - 16 := by
    intro a
    rw [State.acct_empty]
    decide
  have happly : (applyTx ∅ { type := txRecord, netId := Chain.easyParams.netId, fromKey := ownKey, payload := [7] }
      Chain.easyParams 1 false).1 = none := by
    rw [applyTx_ok_iff.mpr ⟨.record ⟨rfl, by decide, rfl⟩ rfl (by rw [State.acct_empty]) rfl (by decide) (by decide),
      rfl⟩]
  exact ((Mempool.admission_agrees hnonces (by decide) (by simp [Mempool.has]) (by simp) Chain.easyParams 1).mpr
    happly).1

end

end Chainlite
