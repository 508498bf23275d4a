import Chainlite.MiningCandidate

/-! Order independence of settlement. Each application adds amounts modulo `2 ^ 64` to a few accounts and
creates their entries, whatever the state was; so two of them commute, entries included, also where one of
the orders in between would not be valid. -/

open Std

namespace Chainlite

section
variable [Crypto]

/-- The entries that exist after an application. -/
def Tx.touches (t : Tx) (a : Addr20) : Prop :=
  if t.type = txCoinbase then a = t.toAddr
  else if t.type = txTransfer then a = t.sender ∨ a = t.toAddr
  else a = t.sender

/-- What an application adds to the balance of `a`, modulo `2 ^ 64`. -/
def Tx.gain (t : Tx) (a : Addr20) : UInt64 :=
  if t.type = txCoinbase then if a = t.toAddr then t.amount else 0
  else if t.type = txTransfer then (if a = t.toAddr then t.amount else 0) - (if a = t.sender then t.amount else 0)
  else 0

/-- What it adds to the nonce of `a`. -/
def Tx.uses (t : Tx) (a : Addr20) : UInt64 :=
  if t.type = txCoinbase then 0 else if a = t.sender then 1 else 0

namespace State

omit [Crypto] in
theorem mem_credit {st : State} {a b : Addr20} {v : UInt64} : b ∈ st.credit a v ↔ b = a ∨ b ∈ st := by
  rw [credit, ExtTreeMap.mem_insert, LawfulEqCmp.compare_eq_iff_eq, @eq_comm _ a b]

omit [Crypto] in
theorem mem_debit {st : State} {a b : Addr20} {v : UInt64} : b ∈ st.debit a v ↔ b = a ∨ b ∈ st := by
  rw [debit, ExtTreeMap.mem_insert, LawfulEqCmp.compare_eq_iff_eq, @eq_comm _ a b]

omit [Crypto] in
theorem mem_bump {st : State} {a b : Addr20} : b ∈ st.bump a ↔ b = a ∨ b ∈ st := by
  rw [bump, ExtTreeMap.mem_insert, LawfulEqCmp.compare_eq_iff_eq, @eq_comm _ a b]

omit [Crypto] in
theorem mem_touch {st : State} {a b : Addr20} : b ∈ st.touch a ↔ b = a ∨ b ∈ st := by
  rw [touch, ExtTreeMap.mem_insert, LawfulEqCmp.compare_eq_iff_eq, @eq_comm _ a b]

theorem mem_effect {st : State} {t : Tx} {a : Addr20} : a ∈ st.effect t ↔ t.touches a ∨ a ∈ st := by
  unfold effect Tx.touches
  split_ifs
  · exact mem_credit
  · rw [mem_bump, mem_credit, mem_debit, mem_touch]
    tauto
  · rw [mem_bump, mem_touch]
    tauto

theorem balance_effect (st : State) (t : Tx) (a : Addr20) :
    ((st.effect t).acct a).balance = (st.acct a).balance + t.gain a := by
  unfold effect Tx.gain
  split_ifs <;> simp_all [sub_eq_add_neg]

theorem nonce_effect (st : State) (t : Tx) (a : Addr20) :
    ((st.effect t).acct a).nonce = (st.acct a).nonce + t.uses a := by
  unfold effect Tx.uses
  split_ifs <;> simp_all

omit [Crypto] in
/-- A state is its entries and what they read. -/
theorem ext_acct {st st' : State} (hmem : ∀ a, a ∈ st ↔ a ∈ st') (hacct : ∀ a, st.acct a = st'.acct a) :
    st = st' := by
  apply ExtTreeMap.ext_getElem?
  intro a
  have hget := hacct a
  by_cases ha : a ∈ st
  · have ha' := (hmem a).mp ha
    rw [acct, acct, ExtTreeMap.getD_eq_getD_getElem?, ExtTreeMap.getD_eq_getD_getElem?,
      ExtTreeMap.getElem?_eq_some_getElem ha, ExtTreeMap.getElem?_eq_some_getElem ha'] at hget
    rw [ExtTreeMap.getElem?_eq_some_getElem ha, ExtTreeMap.getElem?_eq_some_getElem ha']
    exact congrArg some hget
  · have ha' := fun h => ha ((hmem a).mpr h)
    rw [ExtTreeMap.getElem?_eq_none ha, ExtTreeMap.getElem?_eq_none ha']

/-- **Two applications commute.** -/
theorem effect_comm (st : State) (t u : Tx) : (st.effect t).effect u = (st.effect u).effect t := by
  apply ext_acct
  · intro a
    rw [mem_effect, mem_effect, mem_effect, mem_effect]
    tauto
  · intro a
    apply Account.ext
    · rw [balance_effect, balance_effect, balance_effect, balance_effect]
      exact add_right_comm _ _ _
    · rw [nonce_effect, nonce_effect, nonce_effect, nonce_effect]
      exact add_right_comm _ _ _

theorem effects_perm {txs txs' : List Tx} (h : txs.Perm txs') (st : State) : st.effects txs = st.effects txs' := by
  unfold effects
  apply h.foldl_eq'
  intro t _ u _ st
  exact effect_comm st t u

end State

/-- **Order independence of settlement.** The loop of `connect_block` from its second transaction on, over
the same transactions in two orders. -/
theorem settlement_order_independent {p : Params} {height : UInt64} {st st₁ st₂ : State} {txs txs' : List Tx}
    (hperm : txs.Perm txs') (h₁ : applyBody p height st 1 txs = .ok st₁)
    (h₂ : applyBody p height st 1 txs' = .ok st₂) : st₁ = st₂ := by
  obtain ⟨-, rfl⟩ := applyBody_succ_ok_iff.mp h₁
  obtain ⟨-, rfl⟩ := applyBody_succ_ok_iff.mp h₂
  exact State.effects_perm hperm st

end

section
local instance orderCrypto : Crypto := Sha.crypto fun _ _ _ => true

/-- The first record of the sender with the key `key`. -/
def firstRecord (key : Pub64) : Tx :=
  { type := txRecord, netId := Chain.easyParams.netId, fromKey := key, payload := [1] }

def otherKey : Pub64 := Vector.replicate 64 2

theorem settles_firstRecords {key key' : Pub64} (hkey : isZero key = false) (hkey' : isZero key' = false)
    (hne : (firstRecord key').sender ≠ (firstRecord key).sender) :
    applyBody Chain.easyParams 1 ∅ 1 [firstRecord key, firstRecord key'] =
      .ok (State.effects ∅ [firstRecord key, firstRecord key']) := by
  have huses : (firstRecord key).uses (firstRecord key').sender = 0 := by
    rw [Tx.uses, if_neg (by exact (by decide : ¬txRecord = txCoinbase)), if_neg hne]
  refine applyBody_succ_ok_iff.mpr ⟨⟨?_, ?_, trivial⟩, rfl⟩
  · exact .record ⟨rfl, hkey, rfl⟩ rfl (by rw [State.acct_empty]; rfl) rfl (List.cons_ne_nil 1 [])
      (by exact (by decide : 1 ≤ maxPayload))
  · refine .record ⟨rfl, hkey', rfl⟩ rfl ?_ rfl (List.cons_ne_nil 1 []) (by exact (by decide : 1 ≤ maxPayload))
    rw [State.nonce_effect, State.acct_empty, huses]
    rfl

theorem settlement_order_independent_records :
    State.effects ∅ [firstRecord ownKey, firstRecord otherKey] =
      State.effects ∅ [firstRecord otherKey, firstRecord ownKey] := by
  have hne : Sha.addrOf ownKey ≠ Sha.addrOf otherKey := by decide +kernel
  exact settlement_order_independent (.swap _ _ []) (settles_firstRecords (by decide) (by decide) hne.symm)
    (settles_firstRecords (by decide) (by decide) hne)

end

end Chainlite
