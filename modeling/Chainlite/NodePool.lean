import Chainlite.LedgerNonces
import Chainlite.MiningAdmission
import Chainlite.NodeForkChoice

/-! The representation invariant of the mempool over whole runs: its two structures agree, every entry is
filed under its own sender and nonce and could be mined in its turn, and none is behind the chain. -/

open Std

namespace Chainlite

section
variable [Crypto] {p : Params}

namespace Mempool

/-- The invariant of the pool itself. -/
structure Wf (p : Params) (pool : Mempool) : Prop where
  entry : ∀ (k : PoolKey) (t : Tx), pool.m[k]? = some t → k = (t.sender, t.nonce) ∧ WellShaped t p
  distinct : ∀ (k k' : PoolKey) (t t' : Tx), pool.m[k]? = some t → pool.m[k']? = some t' → t.txid = t'.txid → k = k'
  ids : ∀ id, id ∈ pool.ids ↔ ∃ (k : PoolKey) (t : Tx), pool.m[k]? = some t ∧ t.txid = id
  size : pool.m.size ≤ maxPoolTxs

/-- No entry is behind the state. -/
def Ahead (st : State) (pool : Mempool) : Prop :=
  ∀ (k : PoolKey) (t : Tx), pool.m[k]? = some t → (st.acct k.1).nonce ≤ k.2

theorem wf_empty : Wf p {} where
  entry k t h := by simp at h
  distinct k k' t t' h := by simp at h
  ids id := by simp
  size := by simp

/-! ### `add` -/

theorem Wf.add {pool pool' : Mempool} {t : Tx} {st : State} (hwf : pool.Wf p) (h : pool.add t st p = .ok pool') :
    pool'.Wf p := by
  obtain ⟨hshape, hsize, hid, -, hkey, rfl⟩ := add_ok h
  have hnone : pool.m[(t.sender, t.nonce)]? = none := ExtTreeMap.getElem?_eq_none hkey
  have hget := fun k => OrderedMap.getElem?_insert_eq pool.m (t.sender, t.nonce) k t
  have hother : ∀ {k : PoolKey} {u : Tx}, pool.m[k]? = some u → u.txid ≠ t.txid :=
    fun hu heq => hid ((hwf.ids _).mpr ⟨_, _, hu, heq⟩)
  refine ⟨fun k u hu => ?_, fun k k' u u' hu hu' heq => ?_, fun id => ?_, ?_⟩
  · rw [hget] at hu
    split at hu
    · rename_i hk
      cases hu
      exact ⟨hk.symm, hshape⟩
    · exact hwf.entry k u hu
  · rw [hget] at hu hu'
    split at hu <;> split at hu'
    · rename_i hk hk'
      exact hk.symm.trans hk'
    · cases hu
      exact absurd heq.symm (hother hu')
    · cases hu'
      exact absurd heq (hother hu)
    · exact hwf.distinct k k' u u' hu hu' heq
  · rw [ExtTreeSet.mem_insert, LawfulEqCmp.compare_eq_iff_eq, hwf.ids id]
    constructor
    · rintro (rfl | ⟨k, u, hu, hid⟩)
      · exact ⟨_, t, by rw [hget, if_pos rfl], rfl⟩
      · refine ⟨k, u, ?_, hid⟩
        rw [hget, if_neg ?_, hu]
        rintro rfl
        rw [hnone] at hu
        cases hu
    · rintro ⟨k, u, hu, hid⟩
      rw [hget] at hu
      split at hu
      · cases hu
        exact Or.inl hid
      · exact Or.inr ⟨k, u, hu, hid⟩
  · rw [ExtTreeMap.size_insert]
    split
    · exact hwf.size
    · exact hsize

theorem Ahead.add {pool pool' : Mempool} {t : Tx} {st : State} (hahead : Ahead st pool)
    (h : pool.add t st p = .ok pool') : Ahead st pool' := by
  obtain ⟨-, -, -, hnonce, -, rfl⟩ := add_ok h
  intro k u hu
  rw [OrderedMap.getElem?_insert_eq] at hu
  split at hu
  · rename_i hk
    cases hu
    subst hk
    exact hnonce
  · exact hahead k u hu

/-! ### `purge` -/

/-- Drop the entry at `k`, which is `t`. -/
theorem Wf.erase {pool : Mempool} {k : PoolKey} {t : Tx} (hwf : pool.Wf p) (hk : pool.m[k]? = some t) :
    Wf p { m := pool.m.erase k, ids := pool.ids.erase t.txid } := by
  have hget := OrderedMap.getElem?_erase_eq_some pool.m k
  refine ⟨fun k' u hu => ?_, fun k₁ k₂ u u' hu hu' heq => ?_, fun id => ?_, ?_⟩
  · exact hwf.entry k' u ((hget _ _).mp hu).2
  · exact hwf.distinct k₁ k₂ u u' ((hget _ _).mp hu).2 ((hget _ _).mp hu').2 heq
  · rw [ExtTreeSet.mem_erase, Ne, LawfulEqCmp.compare_eq_iff_eq, hwf.ids id]
    constructor
    · rintro ⟨hne, k', u, hu, rfl⟩
      refine ⟨k', u, (hget _ _).mpr ⟨?_, hu⟩, rfl⟩
      rintro rfl
      rw [hk] at hu
      cases hu
      exact hne rfl
    · rintro ⟨k', u, hu, rfl⟩
      obtain ⟨hne, hu⟩ := (hget _ _).mp hu
      exact ⟨fun heq => hne (hwf.distinct k k' t u hk hu heq), k', u, hu, rfl⟩
  · exact Nat.le_trans ExtTreeMap.size_erase_le hwf.size

/-- The step of `purge` for one entry. -/
def purgeEntry (st : State) (pool : Mempool) (entry : PoolKey × Tx) : Mempool :=
  if entry.1.2 < (st.acct entry.1.1).nonce then
    { m := pool.m.erase entry.1, ids := pool.ids.erase entry.2.txid }
  else pool

/-- Over a list of entries of the pool: it stays well formed, what is left was there before, and every
stale entry of the list is gone. -/
theorem foldl_purgeEntry (st : State) : ∀ (entries : List (PoolKey × Tx)) (pool : Mempool), pool.Wf p →
    (∀ e ∈ entries, pool.m[e.1]? = some e.2) → entries.Pairwise (fun e f => e.1 ≠ f.1) →
    (entries.foldl (purgeEntry st) pool).Wf p ∧
    (∀ (k : PoolKey) (t : Tx), (entries.foldl (purgeEntry st) pool).m[k]? = some t →
      pool.m[k]? = some t ∧ ∀ e ∈ entries, e.1 = k → ¬k.2 < (st.acct k.1).nonce)
  | [], pool, hwf, _, _ => ⟨hwf, fun k t h => ⟨h, fun e he => by simp at he⟩⟩
  | entry :: rest, pool, hwf, hmem, hkeys => by
      obtain ⟨hne, hrest⟩ := List.pairwise_cons.mp hkeys
      have hhere := hmem entry List.mem_cons_self
      rw [List.foldl_cons]
      by_cases hstale : entry.1.2 < (st.acct entry.1.1).nonce
      · rw [purgeEntry, if_pos hstale]
        have hget := OrderedMap.getElem?_erase_eq_some pool.m entry.1
        obtain ⟨hwf', hleft⟩ := foldl_purgeEntry st rest _ (hwf.erase hhere)
          (fun e he => (hget _ _).mpr ⟨hne e he, hmem e (List.mem_cons_of_mem _ he)⟩) hrest
        refine ⟨hwf', fun k t ht => ?_⟩
        obtain ⟨hk, hfresh⟩ := hleft k t ht
        obtain ⟨hnek, hk⟩ := (hget _ _).mp hk
        refine ⟨hk, fun e he heq => ?_⟩
        rcases List.mem_cons.mp he with rfl | he
        · exact absurd heq hnek
        · exact hfresh e he heq
      · rw [purgeEntry, if_neg hstale]
        obtain ⟨hwf', hleft⟩ := foldl_purgeEntry st rest pool hwf
          (fun e he => hmem e (List.mem_cons_of_mem _ he)) hrest
        refine ⟨hwf', fun k t ht => ?_⟩
        obtain ⟨hk, hfresh⟩ := hleft k t ht
        refine ⟨hk, fun e he heq => ?_⟩
        rcases List.mem_cons.mp he with rfl | he
        · exact heq ▸ hstale
        · exact hfresh e he heq

theorem Wf.purge {pool : Mempool} (hwf : pool.Wf p) (st : State) :
    (pool.purge st).Wf p ∧ Ahead st (pool.purge st) := by
  obtain ⟨hwf', hleft⟩ := foldl_purgeEntry st pool.m.toList pool hwf
    (fun e he => ExtTreeMap.mem_toList_iff_getElem?_eq_some.mp he) (OrderedMap.pairwise_keys_ne pool.m)
  refine ⟨hwf', fun k t ht => ?_⟩
  obtain ⟨hk, hfresh⟩ := hleft k t ht
  exact UInt64.not_lt.mp (hfresh (k, t) (ExtTreeMap.mem_toList_iff_getElem?_eq_some.mpr hk) rfl)

/-- `has` and `find` agree. -/
theorem Wf.has_eq_find {pool : Mempool} (hwf : pool.Wf p) (id : H256) :
    pool.has id = (pool.find id).isSome := by
  rw [Bool.eq_iff_iff, find, Option.isSome_map, List.find?_isSome, has, ExtTreeSet.contains_iff_mem, hwf.ids id]
  constructor
  · rintro ⟨k, t, ht, hid⟩
    exact ⟨(k, t), ExtTreeMap.mem_toList_iff_getElem?_eq_some.mpr ht, by simpa using hid⟩
  · rintro ⟨⟨k, t⟩, ht, hid⟩
    exact ⟨k, t, ExtTreeMap.mem_toList_iff_getElem?_eq_some.mp ht, by simpa using hid⟩

end Mempool

/-! ### Runs -/

structure Core.PoolWf (p : Params) (s : Core) : Prop where
  wf : s.pool.Wf p
  ahead : Mempool.Ahead s.chain.st s.pool

theorem Core.PoolWf.step {r : Readings} {s s' : Core} (h : s.PoolWf p) (hparams : s.params = p)
    (hstep : CoreStep r s s') : s'.PoolWf p := by
  cases hstep with
  | quiet => exact h
  | pooled _ hadd => exact ⟨h.wf.add (hparams ▸ hadd), h.ahead.add hadd⟩
  | handedOut => exact ⟨h.wf, h.ahead⟩
  | job => exact ⟨h.wf, h.ahead⟩
  | changed _ _ _ =>
      obtain ⟨hwf, hahead⟩ := h.wf.purge _
      exact ⟨hwf, hahead⟩

theorem Core.poolWf_start (p : Params) (c : Chain) (minerAddr : Addr20) (mineOn : Bool) (heartbeat : UInt64) :
    (App.start p c minerAddr mineOn heartbeat).core.PoolWf p :=
  ⟨Mempool.wf_empty, fun k t ht => by simp [App.core, App.start] at ht⟩

theorem NodeRun.poolWf {a : App} {now : Clock} (h : NodeRun p a now) : a.core.PoolWf p := by
  induction h with
  | start minerAddr mineOn heartbeat _ _ => exact Core.poolWf_start p _ minerAddr mineOn heartbeat
  | step hrun _ ev ih => exact ih.step hrun.valid.params (App.step_core _ _ ev)

theorem NodeRun.poolSize_lt {a : App} {now : Clock} (h : NodeRun p a now) : a.pool.size < 2 ^ 64 :=
  Nat.lt_of_le_of_lt h.poolWf.wf.size (by decide)

/-- The nonce of a confirmed transaction is below its sender's. -/
theorem Chain.Sound.confirmed_nonce_lt {c : Chain} (h : Sound p c) (hlen : c.txs.length < 2 ^ 64) {t : Tx}
    (ht : t ∈ c.txs) (htype : t.type ≠ txCoinbase) : t.nonce < (c.st.acct t.sender).nonce := by
  have hmem : t.nonce.toNat ∈ noncesOf c.txs t.sender :=
    List.mem_map.mpr ⟨t, List.mem_filter.mpr ⟨ht, by simpa using htype⟩, rfl⟩
  rw [h.counted hlen, List.mem_range] at hmem
  exact UInt64.lt_iff_toNat_lt.mpr hmem

/-- **The mempool is well formed after every event.** -/
theorem pool_well_formed {a : App} {now : Clock} (h : NodeRun p a now) :
    (∀ (k : PoolKey) (t : Tx), a.pool.m[k]? = some t → t.sender = k.1 ∧ t.nonce = k.2 ∧ Mempool.WellShaped t p ∧
      (a.chain.st.acct k.1).nonce ≤ k.2 ∧ (a.chain.txs.length < 2 ^ 64 → t ∉ a.chain.txs)) ∧
    (∀ (k k' : PoolKey) (t t' : Tx), a.pool.m[k]? = some t → a.pool.m[k']? = some t' → t.txid = t'.txid → k = k') ∧
    (∀ id, a.pool.has id = true ↔ ∃ (k : PoolKey) (t : Tx), a.pool.m[k]? = some t ∧ t.txid = id) ∧
    (∀ id, a.pool.has id = (a.pool.find id).isSome) ∧ a.pool.size ≤ 10000 := by
  have hvalid := h.valid
  obtain ⟨hwf, hahead⟩ := h.poolWf
  refine ⟨fun k t ht => ?_, hwf.distinct, fun id => ?_, hwf.has_eq_find, hwf.size⟩
  · obtain ⟨rfl, hshape⟩ := hwf.entry k t ht
    refine ⟨rfl, rfl, hshape, hahead _ _ ht, fun hlen hmem => ?_⟩
    have htype : t.type ≠ txCoinbase := by
      rcases hshape.shape with ⟨htype, -⟩ | ⟨htype, -⟩ <;> rw [htype] <;> decide
    have hlt := Chain.Sound.confirmed_nonce_lt (c := a.chain) hvalid.sound hlen hmem htype
    have hle : (a.chain.st.acct t.sender).nonce ≤ t.nonce := hahead _ _ ht
    exact absurd hlt (UInt64.not_lt.mpr hle)
  · rw [Mempool.has, ExtTreeSet.contains_iff_mem]
    exact hwf.ids id

/-- A transaction that is new and admissible is flooded. -/
theorem App.onTx_new {a : App} {t : Tx} {pool : Mempool} (peer : Int) (hfits : t.Fits)
    (hfresh : (a.pool.has t.txid || a.chain.txidx.contains t.txid) = false)
    (hadd : a.pool.add t a.chain.st a.params = .ok pool) :
    a.onTx peer t.serialize = ({ a with pool := pool }, [.broadcast mTx t.serialize peer]) := by
  unfold App.onTx
  rw [Tx.parse_eq_iff.mpr ⟨hfits, rfl⟩]
  dsimp only
  rw [hfresh, hadd]
  rfl

theorem App.step_pool (r : Readings) (a : App) (ev : Event) : (a.step r ev).pool = (a.handle r ev).1.pool := rfl

theorem App.handle_tx {a : App} {r : Readings} (peer : Int) (payload : Bytes) :
    a.handle r (.msg peer mTx payload) = a.onTx peer payload := rfl

theorem App.step_tx_entry {a : App} {t : Tx} {pool : Mempool} (r : Readings) (peer : Int) (hfits : t.Fits)
    (hfresh : (a.pool.has t.txid || a.chain.txidx.contains t.txid) = false)
    (hadd : a.pool.add t a.chain.st a.params = .ok pool) :
    (a.step r (.msg peer mTx t.serialize)).pool.m[(t.sender, t.nonce)]? = some t := by
  rw [step_pool, handle_tx, onTx_new peer hfits hfresh hadd]
  obtain ⟨-, -, -, -, -, hinsert⟩ := Mempool.add_ok hadd
  rw [hinsert]
  exact ExtTreeMap.getElem?_insert_self

/-- A node that has not seen any transfer takes the first one of a sender. -/
theorem firstTransfer_admitted {a : App} (hpool : a.pool = {}) (hst : a.chain.st = ∅) (hparams : a.params = Chain.easyParams)
    (hsig : sigVerify ownKey firstTransfer.signHash firstTransfer.sig = true) :
    ∃ pool, a.pool.add firstTransfer a.chain.st a.params = .ok pool := by
  have hsigned : firstTransfer.Signed Chain.easyParams := ⟨rfl, by decide, hsig⟩
  rw [hpool, hst, hparams]
  refine (Mempool.add_succeeds_iff (by decide) (by simp [Mempool.has]) (by simp)).mpr ⟨by decide, hsigned, ?_⟩
  rw [State.acct_empty]
  decide

theorem firstTransfer_unknown {a : App} (hpool : a.pool = {}) (htxidx : a.chain.txidx = ∅) :
    (a.pool.has firstTransfer.txid || a.chain.txidx.contains firstTransfer.txid) = false := by
  rw [hpool, htxidx]
  simp [Mempool.has]

end

section
local instance poolCrypto : Crypto := Sha.crypto fun _ _ _ => true

/-- The node with the transfer in its pool. -/
def takingNode : App := easyNode.step easyReadings (.msg 1 mTx firstTransfer.serialize)

theorem takingNode_run : NodeRun Chain.easyParams takingNode Chain.easyClock := easyNode_run.step easyReadings_between _

theorem takingNode_pool : takingNode.pool.m[(firstTransfer.sender, firstTransfer.nonce)]? = some firstTransfer := by
  obtain ⟨pool, hadd⟩ := @firstTransfer_admitted _ easyNode rfl rfl rfl rfl
  have hfits : firstTransfer.Fits := Nat.zero_le maxPayload
  rw [takingNode]
  exact App.step_tx_entry easyReadings 1 hfits (firstTransfer_unknown rfl rfl) hadd

/-- The entry of a pool that has taken a transfer. -/
theorem pool_well_formed_taken : takingNode.pool.m[(firstTransfer.sender, firstTransfer.nonce)]? = some firstTransfer ∧
    Mempool.WellShaped firstTransfer Chain.easyParams ∧
    (takingNode.chain.st.acct firstTransfer.sender).nonce ≤ firstTransfer.nonce ∧
    takingNode.pool.has firstTransfer.txid = true ∧ takingNode.pool.size ≤ 10000 := by
  obtain ⟨hentry, -, hids, -, hsize⟩ := pool_well_formed takingNode_run
  obtain ⟨-, -, hshape, hnonce, -⟩ := hentry _ _ takingNode_pool
  exact ⟨takingNode_pool, hshape, hnonce, (hids _).mpr ⟨_, _, takingNode_pool, rfl⟩, hsize⟩

end

end Chainlite
