import Chainlite.NodeFlood
import Chainlite.NodeOrigin

/-! What becomes of a transaction that a node has taken. It leaves the pool in one way only: the chain has come to hold
a transaction of its sender with its nonce. Blocks that arrive, reorganisations, other transactions and the work for
miners do not lose it. -/

open Std

namespace Chainlite

/-- Events lead from the node `a` at the time `t` to another one, by way of the nodes `seen`. -/
inductive Onward [Crypto] (a : App) (t : Clock) : List App → App → Clock → Prop
  | here : Onward a t [a] a t
  | step {seen : List App} {a₁ : App} {t₁ t₂ : Clock} {r : Readings} (h : Onward a t seen a₁ t₁) (hr : r.Between t₁ t₂)
      (ev : Event) : Onward a t (seen ++ [a₁.step r ev]) (a₁.step r ev) t₂

/-- The chain holds a transaction of the same sender with the same nonce. -/
def Chain.Settled [Crypto] (c : Chain) (t : Tx) : Prop :=
  ∃ u ∈ c.txs, u.type ≠ txCoinbase ∧ u.sender = t.sender ∧ u.nonce = t.nonce

section
variable [Crypto] {p : Params}

theorem Onward.run {a a' : App} {t t' : Clock} {seen : List App} (h : Onward a t seen a' t') (hrun : NodeRun p a t) :
    NodeRun p a' t' := by
  induction h with
  | here => exact hrun
  | step _ hr ev ih => exact ih.step hr ev

/-- A nonce that the chain has passed was used on it. -/
theorem Chain.Sound.settled_of_lt {c : Chain} (h : Sound p c) (hlen : c.txs.length < 2 ^ 64) {t : Tx}
    (hbehind : t.nonce < (c.st.acct t.sender).nonce) : c.Settled t := by
  have hmem : t.nonce.toNat ∈ noncesOf c.txs t.sender := by
    rw [h.counted hlen, List.mem_range]
    exact UInt64.lt_iff_toNat_lt.mp hbehind
  obtain ⟨u, hu, hnonce⟩ := List.mem_map.mp hmem
  obtain ⟨hin, hown⟩ := List.mem_filter.mp hu
  rw [decide_eq_true_eq] at hown
  exact ⟨u, hin, hown.1, hown.2, UInt64.toNat_inj.mp hnonce⟩

/-- One event keeps an entry of the pool, or its nonce is behind the chain after it. -/
theorem CoreStep.pending {r : Readings} {s s' : Core} (h : CoreStep r s s') {k : PoolKey} {t : Tx}
    (ht : s.pool.m[k]? = some t) : s'.pool.m[k]? = some t ∨ k.2 < (s'.chain.st.acct k.1).nonce := by
  cases h with
  | quiet => exact Or.inl ht
  | handedOut => exact Or.inl ht
  | job => exact Or.inl ht
  | changed => exact Mempool.purge_keeps ht
  | pooled hfresh hadd =>
      obtain ⟨-, -, -, -, hkey, rfl⟩ := Mempool.add_ok hadd
      left
      rw [OrderedMap.getElem?_insert_eq, if_neg, ht]
      rintro rfl
      rw [ExtTreeMap.getElem?_eq_none hkey] at ht
      cases ht

/-- `/submit` leaves the chain. -/
theorem App.submit_chain (a : App) (body : String) : (a.submit body).1.chain = a.chain := by
  unfold App.submit
  split
  · rfl
  · split
    · rfl
    · split
      · rfl
      · split
        · rfl
        · split <;> rfl

theorem App.step_submit_chain (r : Readings) (a : App) (body : String) :
    (a.step r (.submit body)).chain = a.chain := a.submit_chain body

theorem App.step_keepalive_chain (r : Readings) (a : App) : (a.step r .keepalive).chain = a.chain := rfl

/-- What `/submit` does with a transaction that is new and admissible. -/
theorem App.submit_new {a : App} {t : Tx} {pool : Mempool} (hfits : t.Fits)
    (hfresh : (a.pool.has t.txid || a.chain.txidx.contains t.txid) = false)
    (hadd : a.pool.add t a.chain.st a.params = .ok pool) :
    a.submit (hexs t.serialize) = ({ a with pool := pool }, [.broadcast mTx t.serialize (-1)],
      ⟨200, "application/json", "\x7b\"txid\":\"" ++ hexs t.txid.toList ++ "\",\"status\":\"pending\"\x7d"⟩) := by
  unfold App.submit
  rw [unhex_hexs]
  dsimp only
  rw [Tx.parse_eq_iff.mpr ⟨hfits, rfl⟩]
  dsimp only
  rw [if_neg (not_not.mpr rfl), hfresh, hadd]
  rfl

/-- A transaction that `/submit` takes is pending after it. -/
theorem App.Submits.pending {a : App} {ev : Event} {t : Tx} (h : a.Submits ev t) (r : Readings) :
    (a.step r ev).pool.m[(t.sender, t.nonce)]? = some t := by
  obtain ⟨body, rfl, hfits, hraw, hstatus⟩ := h
  change (a.submit body).1.pool.m[(t.sender, t.nonce)]? = some t
  have hparse : Tx.parse t.serialize = .ok (t, []) := Tx.parse_eq_iff.mpr ⟨hfits, rfl⟩
  unfold App.submit at hstatus ⊢
  rw [hraw] at hstatus ⊢
  dsimp only at hstatus ⊢
  rw [hparse] at hstatus ⊢
  dsimp only at hstatus ⊢
  rw [if_neg (not_not.mpr rfl)] at hstatus ⊢
  split at hstatus
  · cases hstatus
  · rename_i hnew
    rw [if_neg hnew]
    cases hadd : a.pool.add t a.chain.st a.params with
    | error e =>
        rw [hadd] at hstatus
        cases hstatus
    | ok pool =>
        obtain ⟨-, -, -, -, -, rfl⟩ := Mempool.add_ok hadd
        exact (OrderedMap.getElem?_insert_eq a.pool.m _ _ t).trans (if_pos rfl)

/-- **A transaction that was taken is not lost.** Along every run from there, whatever arrives, it is still pending,
or at some moment on the way the chain held a transaction of its sender with its nonce. -/
theorem taken_until_settled {a a' : App} {t t₁ t' : Clock} (hrun : NodeRun p a t) {ev : Event} {u : Tx}
    (hsubmits : a.Submits ev u) {r : Readings} (hr : r.Between t t₁) {seen : List App}
    (honward : Onward (a.step r ev) t₁ seen a' t') (hlen : ∀ b ∈ seen, b.chain.txs.length < 2 ^ 64) :
    a'.pool.m[(u.sender, u.nonce)]? = some u ∨ ∃ b ∈ seen, b.chain.Settled u := by
  have hstarted : NodeRun p (a.step r ev) t₁ := hrun.step hr ev
  induction honward with
  | here => exact Or.inl (hsubmits.pending r)
  | @step seen a₁ t₁ t₂ r' h hr' ev' ih =>
      rcases ih (fun b hb => hlen b (List.mem_append_left _ hb)) with hpending | ⟨b, hb, hsettled⟩
      · rcases (App.step_core r' a₁ ev').pending (s := a₁.core) hpending with hkept | hbehind
        · exact Or.inl hkept
        · refine Or.inr ⟨_, List.mem_append_right _ (List.mem_singleton_self _), ?_⟩
          have hsound : Chain.Sound p (a₁.step r' ev').chain := ((h.run hstarted).step hr' ev').valid.sound
          exact hsound.settled_of_lt (hlen _ (List.mem_append_right _ (List.mem_singleton_self _))) hbehind
      · exact Or.inr ⟨b, List.mem_append_left _ hb, hsettled⟩

end

section
local instance pendingCrypto : Crypto := Sha.crypto fun _ _ _ => true

theorem submits_firstTransfer : easyNode.Submits (.submit (hexs firstTransfer.serialize)) firstTransfer := by
  obtain ⟨pool, hadd⟩ := @firstTransfer_admitted _ easyNode rfl rfl rfl rfl
  have hfits : firstTransfer.Fits := Nat.zero_le maxPayload
  have hresp := App.submit_new hfits (firstTransfer_unknown rfl rfl) hadd
  exact ⟨_, rfl, hfits, unhex_hexs _, by rw [hresp]⟩

/-- A transfer that was submitted is still there after the node has announced its tip. -/
theorem taken_until_settled_announced :
    ((easyNode.step easyReadings (.submit (hexs firstTransfer.serialize))).step easyReadings .keepalive).pool.m[
      (firstTransfer.sender, firstTransfer.nonce)]? = some firstTransfer ∨
    ∃ b ∈ [easyNode.step easyReadings (.submit (hexs firstTransfer.serialize))] ++
      [(easyNode.step easyReadings (.submit (hexs firstTransfer.serialize))).step easyReadings .keepalive],
      b.chain.Settled firstTransfer := by
  refine taken_until_settled easyNode_run submits_firstTransfer easyReadings_between
    (.step .here easyReadings_between .keepalive) fun b hb => ?_
  have hempty : easyNode.chain.txs = [] := rfl
  have hchain : b.chain = easyNode.chain := by
    rcases List.mem_cons.mp hb with rfl | hb
    · rw [App.step_submit_chain]
    · rw [List.mem_singleton.mp hb, App.step_keepalive_chain, App.step_submit_chain]
  rw [hchain, hempty]
  decide

end

end Chainlite
