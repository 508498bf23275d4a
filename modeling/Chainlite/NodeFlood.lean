import Chainlite.NodePool

/-! A node floods each transaction once. What has been flooded is in the pool under its sender and nonce, or
its nonce is behind the chain; in both cases `add` does not take it again. Along a chain that only grows the
nonces do not go back, so this is an invariant of every run, whatever the order of arrivals and blocks. -/

open Std

namespace Chainlite

/-- The payloads of the M_TX messages among broadcasts. -/
def floods (calls : List NetCall) : List Bytes :=
  calls.filterMap fun call =>
    match call with
    | .broadcast type payload _ => if type = mTx then some payload else none
    | .sendTo _ _ _ => none

section
variable [Crypto] {p : Params}

/-! ### What an event floods -/

/-- An event floods nothing, or the transaction that it adds to the pool. -/
inductive FloodStep (a : App) : App × List NetCall → Prop
  | none {a' : App} {calls : List NetCall} (h : floods calls = []) : FloodStep a (a', calls)
  | one {t : Tx} {pool : Mempool} (except : Int) (hfits : t.Fits)
      (hadd : a.pool.add t a.chain.st a.params = .ok pool) :
      FloodStep a ({ a with pool := pool }, [.broadcast mTx t.serialize except])

omit [Crypto] in
theorem OnlyTips.floods {calls : List NetCall} (h : OnlyTips calls) : floods calls = [] := h.broadcastOf (by decide)

namespace App

variable {r : Readings} {a : App}

/-- A message with a transaction leaves the chain. -/
theorem step_tx_chain (r : Readings) (a : App) (peer : Int) (payload : Bytes) :
    (a.step r (.msg peer mTx payload)).chain = a.chain := by
  change (a.handle r (.msg peer mTx payload)).1.chain = a.chain
  rw [handle_tx]
  unfold onTx
  split
  · split
    · rfl
    · split <;> rfl
  · rfl

/-- **What one event floods.** -/
theorem handle_floods (r : Readings) (a : App) (ev : Event) : FloodStep a (a.handle r ev) := by
  have hhandled := handled r a ev
  generalize a.handle r ev = out at hhandled ⊢
  cases hhandled with
  | ignored => exact .none rfl
  | net p2p => exact .none rfl
  | greeted peer => exact .none rfl
  | announced => exact .none rfl
  | served peer reply => exact .none rfl
  | ended => exact .none rfl
  | @asked peer => exact .none (maybeSync_onlyTips _ a peer).floods
  | @replied peer payload v => exact .none (handleBlocks_onlyTips peer v).floods
  | pooled except hfits _ hadd => exact .one except hfits hadd
  | connected => exact .none rfl
  | handedOut payto => exact .none rfl
  | job => exact .none rfl

end App

/-! ### The pool and the nonces -/

namespace Mempool

/-- What purging drops is behind the state. -/
theorem purge_keeps {pool : Mempool} {st : State} {k : PoolKey} {t : Tx} (ht : pool.m[k]? = some t) :
    (pool.purge st).m[k]? = some t ∨ k.2 < (st.acct k.1).nonce := by
  by_cases hstale : k.2 < (st.acct k.1).nonce
  · exact Or.inr hstale
  · refine Or.inl ?_
    change (pool.m.toList.foldl (purgeEntry st) pool).m[k]? = some t
    generalize pool.m.toList = entries
    induction entries generalizing pool with
    | nil => exact ht
    | cons entry rest ih =>
        rw [List.foldl_cons]
        apply ih
        rw [purgeEntry]
        split
        · rename_i hdropped
          refine (OrderedMap.getElem?_erase_eq_some pool.m entry.1 k t).mpr ⟨?_, ht⟩
          rintro rfl
          exact hstale hdropped
        · exact ht

end Mempool

namespace Chain

/-- The blocks of a list that connect one after another to `c`, up to the first that does not, give `c'`. -/
def Grows (now : Nat → Clock) (c c' : Chain) : Prop := ∃ v n err, connectAll now 0 c v = (c', n, err)

theorem Grows.refl (now : Nat → Clock) (c : Chain) : Grows now c c := ⟨[], 0, none, rfl⟩

theorem Grows.sound {now : Nat → Clock} {c c' : Chain} (h : Grows now c c') (hsound : Sound p c) :
    Sound p c' ∧ c.blocks <+: c'.blocks := by
  obtain ⟨v, n, err, h⟩ := h
  obtain ⟨hsound', done, -, hblocks, -⟩ := hsound.connectAll h
  exact ⟨hsound', hblocks ▸ List.prefix_append _ _⟩

omit [Crypto] in
theorem txs_prefix {c c' : Chain} (h : c.blocks <+: c'.blocks) : c.txs <+: c'.txs := by
  obtain ⟨more, hmore⟩ := h
  rw [txs, txs, ← hmore, List.flatMap_append]
  exact List.prefix_append _ _

/-- Along a chain that only grows no nonce goes back. -/
theorem Sound.nonce_le {c c' : Chain} (h : Sound p c) (h' : Sound p c') (hgrown : c.blocks <+: c'.blocks)
    (hlen : c'.txs.length < 2 ^ 64) (a : Addr20) : (c.st.acct a).nonce ≤ (c'.st.acct a).nonce := by
  have htxs := txs_prefix hgrown
  have hcounted := h.counted (Nat.lt_of_le_of_lt htxs.length_le hlen) a
  have hcounted' := h'.counted hlen a
  have hnonces : noncesOf c.txs a <+: noncesOf c'.txs a := (htxs.filter _).map _
  have hlength := hnonces.length_le
  rw [hcounted, hcounted', List.length_range, List.length_range] at hlength
  exact UInt64.le_iff_toNat_le.mpr hlength

end Chain

/-! ### Runs -/

/-- A node whose chain has grown by `connect_block` only, with what it has flooded so far. The clock may be
set back. -/
inductive FloodRun (p : Params) : App → List Bytes → Prop
  | start {now : Nat → Clock} {database : Option Db} {c : Chain} (minerAddr : Addr20) (mineOn : Bool)
      (heartbeat : UInt64) (h : (Chain.fresh p).init now database = .ok c) :
      FloodRun p (App.start p c minerAddr mineOn heartbeat) []
  | step {a : App} {log : List Bytes} (h : FloodRun p a log) (r : Readings) (ev : Event)
      (hgrows : Chain.Grows r.now a.chain (a.step r ev).chain) :
      FloodRun p (a.step r ev) (log ++ floods (a.handle r ev).2)

/-- Every event of a node leaves such a run, or it makes `try_replace` succeed. -/
theorem App.grows_or_replaces (r : Readings) (a : App) (ev : Event) :
    Chain.Grows r.now a.chain (a.step r ev).chain ∨
      ∃ cand fork, a.chain.tryReplace r.now cand = .ok ((a.step r ev).chain, fork) := by
  rcases (App.step_core r a ev).chain with hsame | hchange
  · have hsame : (a.step r ev).chain = a.chain := hsame
    rw [hsame]
    exact Or.inl (Chain.Grows.refl r.now a.chain)
  · have hchange : ChainChange r.now a.chain (a.step r ev).chain := hchange
    generalize (a.step r ev).chain = c' at hchange
    cases hchange with
    | extend h => exact Or.inl ⟨_, _, _, h⟩
    | replace h => exact Or.inr ⟨_, _, h⟩

/-- What has been flooded is pending or behind the chain. -/
def Flooded (s : Core) (raw : Bytes) : Prop :=
  ∃ t : Tx, t.Fits ∧ raw = t.serialize ∧
    (s.pool.m[(t.sender, t.nonce)]? = some t ∨ t.nonce < (s.chain.st.acct t.sender).nonce)

theorem Flooded.step {r : Readings} {s s' : Core} {raw : Bytes} (h : Flooded s raw) (hstep : CoreStep r s s')
    (hnonces : ∀ a, (s.chain.st.acct a).nonce ≤ (s'.chain.st.acct a).nonce) : Flooded s' raw := by
  obtain ⟨t, hfits, hraw, hheld⟩ := h
  refine ⟨t, hfits, hraw, ?_⟩
  cases hstep with
  | quiet => exact hheld
  | handedOut => exact hheld
  | job => exact hheld
  | pooled hfresh hadd =>
      obtain ⟨-, -, -, -, hkey, rfl⟩ := Mempool.add_ok hadd
      rcases hheld with hpending | hbehind
      · left
        rw [OrderedMap.getElem?_insert_eq, if_neg, hpending]
        intro heq
        rw [← heq] at hpending
        rw [ExtTreeMap.getElem?_eq_none hkey] at hpending
        cases hpending
      · exact Or.inr hbehind
  | changed job hjob hchange =>
      rcases hheld with hpending | hbehind
      · exact Mempool.purge_keeps hpending
      · exact Or.inr (UInt64.lt_of_lt_of_le hbehind (hnonces t.sender))

/-- What has been flooded is not added again. -/
theorem Flooded.not_added {s : Core} {t : Tx} {pool : Mempool} (h : Flooded s t.serialize) (hfits : t.Fits)
    (hadd : s.pool.add t s.chain.st p = .ok pool) : False := by
  obtain ⟨u, hufits, heq, hheld⟩ := h
  obtain rfl := Tx.serialize_injective hfits hufits heq
  obtain ⟨-, -, -, hnonce, hkey, -⟩ := Mempool.add_ok hadd
  rcases hheld with hpending | hbehind
  · rw [ExtTreeMap.getElem?_eq_none hkey] at hpending
    cases hpending
  · exact UInt64.not_lt.mpr hnonce hbehind

/-- The invariant of a run and of what it has flooded. -/
structure FloodInv (p : Params) (a : App) (log : List Bytes) : Prop where
  sound : Chain.Sound p a.chain
  flooded : ∀ raw ∈ log, Flooded a.core raw
  nodup : log.Nodup

theorem FloodInv.step {r : Readings} {a : App} {log : List Bytes} (h : FloodInv p a log) (ev : Event)
    (hgrows : Chain.Grows r.now a.chain (a.step r ev).chain) (hlen : (a.step r ev).chain.txs.length < 2 ^ 64) :
    FloodInv p (a.step r ev) (log ++ floods (a.handle r ev).2) := by
  obtain ⟨hsound, hgrown⟩ := hgrows.sound h.sound
  have hkept : ∀ raw ∈ log, Flooded (a.step r ev).core raw := fun raw hraw =>
    (h.flooded raw hraw).step (App.step_core r a ev) (h.sound.nonce_le hsound hgrown hlen)
  have hfloods := App.handle_floods r a ev
  have hpool : (a.step r ev).core = (a.handle r ev).1.core := rfl
  rw [hpool] at hkept
  refine ⟨hsound, ?_, ?_⟩
  · rw [hpool]
    intro raw hraw
    rcases List.mem_append.mp hraw with hraw | hraw
    · exact hkept raw hraw
    · generalize a.handle r ev = out at hfloods hraw
      cases hfloods with
      | none hnone =>
          rw [hnone] at hraw
          cases hraw
      | @one t pool except hfits hadd =>
          obtain rfl : raw = t.serialize := List.mem_singleton.mp hraw
          obtain ⟨-, -, -, -, -, rfl⟩ := Mempool.add_ok hadd
          refine ⟨t, hfits, rfl, Or.inl ?_⟩
          exact (OrderedMap.getElem?_insert_eq a.pool.m _ _ t).trans (if_pos rfl)
  · generalize a.handle r ev = out at hfloods
    cases hfloods with
    | none hnone =>
        rw [hnone, List.append_nil]
        exact h.nodup
    | @one t pool except hfits hadd =>
        refine List.Nodup.append h.nodup (List.nodup_singleton _) ?_
        intro raw hraw hnew
        obtain rfl : raw = t.serialize := List.mem_singleton.mp hnew
        exact (h.flooded _ hraw).not_added hfits hadd

theorem FloodRun.sound {a : App} {log : List Bytes} (h : FloodRun p a log) : Chain.Sound p a.chain := by
  induction h with
  | start _ _ _ h => exact (Chain.Sound.init h).1
  | step _ _ _ hgrows ih => exact (hgrows.sound ih).1

theorem FloodRun.inv {a : App} {log : List Bytes} (h : FloodRun p a log) (hlen : a.chain.txs.length < 2 ^ 64) :
    FloodInv p a log := by
  induction h with
  | start _ _ _ h => exact ⟨(Chain.Sound.init h).1, by simp, List.nodup_nil⟩
  | step hrun r ev hgrows ih =>
      have hshorter := (Chain.txs_prefix (hgrows.sound hrun.sound).2).length_le
      exact (ih (Nat.lt_of_le_of_lt hshorter hlen)).step ev hgrows hlen

/-- **A node never re-floods a transaction**, as long as its chain only grows. -/
theorem never_refloods {a : App} {log : List Bytes} (h : FloodRun p a log) (hlen : a.chain.txs.length < 2 ^ 64) :
    (∀ raw ∈ log, ∃ t : Tx, raw = t.serialize) ∧ ∀ t : Tx, log.count t.serialize ≤ 1 := by
  have hinv := h.inv hlen
  refine ⟨fun raw hraw => ?_, fun t => List.nodup_iff_count_le_one.mp hinv.nodup _⟩
  obtain ⟨t, -, hserial, -⟩ := hinv.flooded raw hraw
  exact ⟨t, hserial⟩

end

section
local instance floodCrypto : Crypto := Sha.crypto fun _ _ _ => true

/-- The first transfer of a sender is flooded by a node that has not seen any. -/
theorem floods_firstTransfer (peer : Int) :
    floods (easyNode.onTx peer firstTransfer.serialize).2 = [firstTransfer.serialize] := by
  obtain ⟨pool, hadd⟩ := @firstTransfer_admitted _ easyNode rfl rfl rfl rfl
  have hfits : firstTransfer.Fits := Nat.zero_le maxPayload
  rw [App.onTx_new peer hfits (firstTransfer_unknown rfl rfl) hadd]
  rfl

/-- What a log holds once and early it does not hold later. -/
theorem not_mem_of_count_le {early late : List Bytes} {raw : Bytes} (h : (early ++ late).count raw ≤ 1)
    (hearly : raw ∈ early) : raw ∉ late := by
  have hpos := List.count_pos_iff.mpr hearly
  rw [List.count_append] at h
  exact List.count_eq_zero.mp (by omega)

/-- Two peers send one transfer to a node; the second time it is not flooded. -/
theorem never_refloods_second_peer :
    firstTransfer.serialize ∉ floods ((easyNode.step easyReadings (.msg 1 mTx firstTransfer.serialize)).handle
      easyReadings (.msg 2 mTx firstTransfer.serialize)).2 := by
  have hquiet : ∀ (a : App) (peer : Int), Chain.Grows easyReadings.now a.chain
      (a.step easyReadings (.msg peer mTx firstTransfer.serialize)).chain := by
    intro a peer
    rw [App.step_tx_chain]
    exact .refl _ _
  have hstart : FloodRun Chain.easyParams easyNode [] := .start (zeros 20) true 0 (Chain.init_coinbases (zeros 20))
  have hrun := (hstart.step easyReadings (.msg 1 mTx firstTransfer.serialize) (hquiet _ _)).step easyReadings
    (.msg 2 mTx firstTransfer.serialize) (hquiet _ _)
  have hempty : easyNode.chain.txs = [] := rfl
  have hlen : ((easyNode.step easyReadings (.msg 1 mTx firstTransfer.serialize)).step easyReadings
      (.msg 2 mTx firstTransfer.serialize)).chain.txs.length < 2 ^ 64 := by
    rw [App.step_tx_chain, App.step_tx_chain, hempty]
    exact Nat.two_pow_pos 64
  have hcount := (never_refloods hrun hlen).2 firstTransfer
  refine not_mem_of_count_le hcount ?_
  rw [App.handle_tx, floods_firstTransfer]
  exact List.mem_append_right _ (List.mem_singleton_self _)

end

end Chainlite
