import Chainlite.LedgerNonces
import Chainlite.LedgerTrace

/-! `collect` stops with a maximal set of transactions that can be included. Its outer loop is described by
`CollectLoop` as the source writes it: a derivation is a finite run. A turn without progress has tried every
entry on a state that reads like the last one; and no entry is picked twice, since that would take as many
entries of its sender as there are nonces. -/

open Std

namespace Chainlite

section
variable [Crypto] {p : Params} {height : UInt64}

namespace Mempool

variable {maxn : Nat} {base tmp : State} {out : List Tx} {entries : List (PoolKey × Tx)}

/-! ### The loop -/

/-- A run of `while (progress && out.size() < maxn)` to its end. -/
inductive CollectLoop (p : Params) (height : UInt64) (maxn : Nat) (entries : List (PoolKey × Tx)) :
    State → List Tx → Bool → State → List Tx → Prop
  | done {tmp : State} {out : List Tx} {progress : Bool} (h : ¬(progress = true ∧ out.length < maxn)) :
      CollectLoop p height maxn entries tmp out progress tmp out
  | turn {tmp tmp₁ tmp' : State} {out out₁ out' : List Tx} {progress progress₁ : Bool}
      (h : progress = true ∧ out.length < maxn)
      (hpass : collectPass p height maxn entries tmp out false = (tmp₁, out₁, progress₁))
      (hrest : CollectLoop p height maxn entries tmp₁ out₁ progress₁ tmp' out') :
      CollectLoop p height maxn entries tmp out progress tmp' out'

/-- The loop can end in one way only. -/
theorem CollectLoop.unique {progress : Bool} {tmp₁ tmp₂ : State} {out₁ out₂ : List Tx}
    (h₁ : CollectLoop p height maxn entries tmp out progress tmp₁ out₁)
    (h₂ : CollectLoop p height maxn entries tmp out progress tmp₂ out₂) : tmp₁ = tmp₂ ∧ out₁ = out₂ := by
  induction h₁ with
  | done hstop =>
      cases h₂ with
      | done => exact ⟨rfl, rfl⟩
      | turn hgo => exact absurd hgo hstop
  | turn hgo hpass _ ih =>
      cases h₂ with
      | done hstop => exact absurd hgo hstop
      | turn _ hpass' hrest =>
          rw [hpass] at hpass'
          cases hpass'
          exact ih hrest

/-- **The loop ends**, with what the fuelled one returns. Every turn that goes on has picked something. -/
theorem collectLoop_of_fuel (entries : List (PoolKey × Tx)) (fuel : Nat) (h : Picked p height base tmp out)
    (hfuel : maxn ≤ out.length + fuel) :
    ∃ tmp', CollectLoop p height maxn entries tmp out true tmp' (collectFrom p height maxn entries fuel tmp out) := by
  induction fuel generalizing tmp out with
  | zero => exact ⟨tmp, .done (by rintro ⟨-, hlt⟩; omega)⟩
  | succ fuel ih =>
      rw [collectFrom]
      split
      · rename_i hlt
        rcases hpass : collectPass p height maxn entries tmp out false with ⟨tmp₁, out₁, _ | _⟩
        · exact ⟨tmp₁, .turn ⟨rfl, hlt⟩ hpass (.done (by simp))⟩
        · obtain ⟨hpicked, -, -, hmore⟩ := collectPass_spec h hlt hpass
          have hlonger := (hmore rfl).resolve_left (by simp)
          obtain ⟨tmp', hrest⟩ := ih hpicked (by omega)
          exact ⟨tmp', .turn ⟨rfl, hlt⟩ hpass hrest⟩
      · rename_i hfull
        exact ⟨tmp, .done fun hgo => hfull hgo.2⟩

/-- What a turn keeps, the whole run keeps. -/
theorem CollectLoop.invariant {motive : State → List Tx → Prop} {progress : Bool} {tmp' : State} {out' : List Tx}
    (hpass : ∀ {tmp tmp₁ out out₁ progress₁}, motive tmp out → out.length < maxn →
      collectPass p height maxn entries tmp out false = (tmp₁, out₁, progress₁) → motive tmp₁ out₁)
    (hrun : CollectLoop p height maxn entries tmp out progress tmp' out') (h : motive tmp out) : motive tmp' out' := by
  induction hrun with
  | done => exact h
  | turn hgo hturn _ ih => exact ih (hpass h hgo.2 hturn)

/-! ### Entries -/

theorem collectPass_mem {progress progress' : Bool} {tmp' : State} {out' : List Tx}
    (hpass : collectPass p height maxn entries tmp out progress = (tmp', out', progress')) {t : Tx} (ht : t ∈ out') :
    t ∈ out ∨ ∃ key, (key, t) ∈ entries := by
  induction entries generalizing tmp out progress with
  | nil =>
      cases hpass
      exact Or.inl ht
  | cons entry rest ih =>
      obtain ⟨key, tx⟩ := entry
      -- what the rest of the turn picks is picked by the turn
      have hlater : ∀ {tmp₁ out₁ progress₁}, collectPass p height maxn rest tmp₁ out₁ progress₁ =
          (tmp', out', progress') → t ∈ out₁ ∨ ∃ key', (key', t) ∈ (key, tx) :: rest := by
        intro tmp₁ out₁ progress₁ hrest
        rcases ih hrest with hout | ⟨key', hkey'⟩
        · exact Or.inl hout
        · exact Or.inr ⟨key', List.mem_cons_of_mem _ hkey'⟩
      have hhere : t ∈ out ++ [tx] → t ∈ out ∨ ∃ key', (key', t) ∈ (key, tx) :: rest := by
        intro hmem
        rcases List.mem_append.mp hmem with hout | hnew
        · exact Or.inl hout
        · rw [List.mem_singleton.mp hnew]
          exact Or.inr ⟨key, List.mem_cons_self⟩
      rw [collectPass] at hpass
      split at hpass
      · exact hlater hpass
      · rcases happly : applyTx tmp tx p height false with ⟨_ | err, tmp₁⟩
        · simp only [happly] at hpass
          split at hpass
          · cases hpass
            exact hhere ht
          · rcases hlater hpass with hout | hentry
            · exact hhere hout
            · exact Or.inr hentry
        · simp only [happly] at hpass
          exact hlater hpass

/-! ### A turn without progress -/

/-- No entry applies to the state. -/
def Exhausted (p : Params) (height : UInt64) (entries : List (PoolKey × Tx)) (st : State) : Prop :=
  ∀ e ∈ entries, ¬TxValid st p height false e.2

theorem Exhausted.congr {st st' : State} (hsame : State.Same st st') (h : Exhausted p height entries st) :
    Exhausted p height entries st' := by
  intro e he hvalid
  have hback : State.Same st' st := fun a => (hsame a).symm
  exact h e he (hvalid.congr hback)

/-- A turn that picks nothing has found every entry unfit, on states that all read like the first. -/
theorem collectPass_idle {progress : Bool} {tmp' : State} {out' : List Tx}
    (hkeys : ∀ e ∈ entries, e.1 = (e.2.sender, e.2.nonce))
    (hpass : collectPass p height maxn entries tmp out progress = (tmp', out', false)) :
    progress = false ∧ State.Same tmp' tmp ∧ Exhausted p height entries tmp := by
  induction entries generalizing tmp out progress with
  | nil =>
      cases hpass
      exact ⟨rfl, State.Same.refl _, fun e he => by simp at he⟩
  | cons entry rest ih =>
      obtain ⟨key, tx⟩ := entry
      obtain ⟨hkey, hrest⟩ := List.forall_mem_cons.mp hkeys
      rw [collectPass] at hpass
      split at hpass
      · -- the key of the entry is not its sender's next nonce
        rename_i hskip
        obtain ⟨hprogress, hsame, hexhausted⟩ := ih hrest hpass
        refine ⟨hprogress, hsame, List.forall_mem_cons.mpr ⟨fun hvalid => hskip ?_, hexhausted⟩⟩
        have hkey : key = (tx.sender, tx.nonce) := hkey
        rw [hkey]
        exact (hvalid.nonce_effect hvalid.ne_coinbase).1
      · rcases happly : applyTx tmp tx p height false with ⟨_ | err, tmp₁⟩
        · -- a pick sets the flag, which stays set
          simp only [happly] at hpass
          split at hpass
          · cases hpass
          · exact absurd (ih hrest hpass).1 (by simp)
        · simp only [happly] at hpass
          obtain ⟨hprogress, hsame, hexhausted⟩ := ih hrest hpass
          have hsame₁ := applyTx_error_same happly
          refine ⟨hprogress, hsame.trans hsame₁, List.forall_mem_cons.mpr ⟨fun hvalid => ?_, hexhausted.congr hsame₁⟩⟩
          rw [applyTx_ok_iff.mpr ⟨hvalid, rfl⟩] at happly
          cases happly

/-- **Below the limit the loop ends only when nothing applies.** -/
theorem CollectLoop.exhausted {progress : Bool} {tmp' : State} {out' : List Tx}
    (hkeys : ∀ e ∈ entries, e.1 = (e.2.sender, e.2.nonce))
    (hrun : CollectLoop p height maxn entries tmp out progress tmp' out')
    (h : progress = false → Exhausted p height entries tmp) (hlt : out'.length < maxn) :
    Exhausted p height entries tmp' := by
  induction hrun with
  | done hstop =>
      apply h
      rw [← Bool.not_eq_true]
      exact fun hgo => hstop ⟨hgo, hlt⟩
  | turn _ hpass _ ih =>
      refine ih (fun hidle => ?_) hlt
      subst hidle
      obtain ⟨-, hsame, hexhausted⟩ := collectPass_idle hkeys hpass
      exact hexhausted.congr fun a => (hsame a).symm

/-! ### No entry twice -/

/-- The nonces of the transactions of `a`, in their order. -/
def sentBy (txs : List Tx) (a : Addr20) : List UInt64 :=
  (txs.filter fun t => t.sender = a).map fun t => t.nonce

/-- Transactions that settle use the nonces of each sender one after another, modulo `2 ^ 64`. -/
theorem sentBy_of_settles {st : State} {txs : List Tx} (h : Settles p height st txs) (a : Addr20) :
    sentBy txs a = (List.range (sentBy txs a).length).map fun i => (st.acct a).nonce + UInt64.ofNat i := by
  induction txs generalizing st with
  | nil => rfl
  | cons t rest ih =>
      obtain ⟨hvalid, hrest⟩ := h
      obtain ⟨hnonce, heffect⟩ := hvalid.nonce_effect hvalid.ne_coinbase
      have hih := ih hrest
      rw [heffect a] at hih
      by_cases ha : t.sender = a
      · have hcons : sentBy (t :: rest) a = t.nonce :: sentBy rest a := by
          rw [sentBy, List.filter_cons_of_pos (by simpa using ha)]
          rfl
        rw [if_pos ha.symm] at hih
        rw [hcons, List.length_cons, List.range_succ_eq_map, List.map_cons, List.map_map, hnonce, ha]
        congr 1
        · exact (UInt64.add_zero _).symm
        · rw [hih, List.length_map, List.length_range]
          apply List.map_congr_left
          intro i _
          rw [Function.comp_apply, Nat.succ_eq_add_one, UInt64.ofNat_add, UInt64.add_assoc,
            UInt64.add_comm 1]
          rfl
      · have hskip : sentBy (t :: rest) a = sentBy rest a := by
          rw [sentBy, List.filter_cons_of_neg (by simpa using ha)]
          rfl
        rw [if_neg (Ne.symm ha)] at hih
        rw [hskip]
        exact hih

omit [Crypto] in
/-- Fewer than `2 ^ 64` nonces in a row are distinct. -/
theorem nodup_consecutive (nonce : UInt64) {n : Nat} (hn : n ≤ 2 ^ 64) :
    ((List.range n).map fun i => nonce + UInt64.ofNat i).Nodup := by
  refine List.nodup_range.map_on fun i hi j hj heq => ?_
  have hi := List.mem_range.mp hi
  have hj := List.mem_range.mp hj
  have heq := congrArg UInt64.toNat (add_left_cancel heq)
  rwa [UInt64.toNat_ofNat', UInt64.toNat_ofNat', Nat.mod_eq_of_lt (by omega), Nat.mod_eq_of_lt (by omega)] at heq

/-- A sender has no more transactions among them than the pool has entries. -/
theorem length_sentBy_le {pool : Mempool} {st : State} {txs : List Tx} (h : Settles p height st txs)
    (hmem : ∀ t ∈ txs, (t.sender, t.nonce) ∈ pool.m) (hsize : pool.m.size ≤ maxPoolTxs) (a : Addr20) :
    (sentBy txs a).length ≤ pool.m.size := by
  by_contra hmore
  -- one nonce more than there are entries, each of them under a key of its own
  set first := (List.range (pool.m.size + 1)).map fun i => (st.acct a).nonce + UInt64.ofNat i with hfirst
  have hnodup : (first.map (Prod.mk a)).Nodup := by
    apply List.Nodup.map (Prod.mk_right_injective a)
    exact nodup_consecutive _ (by have : maxPoolTxs = 10000 := rfl; omega)
  have hsub : first.map (Prod.mk a) ⊆ pool.m.keys := by
    intro key hkey
    obtain ⟨nonce, hnonce, rfl⟩ := List.mem_map.mp hkey
    have hsent : nonce ∈ sentBy txs a := by
      rw [sentBy_of_settles h a]
      obtain ⟨i, hi, rfl⟩ := List.mem_map.mp hnonce
      refine List.mem_map.mpr ⟨i, List.mem_range.mpr ?_, rfl⟩
      have := List.mem_range.mp hi
      omega
    obtain ⟨t, ht, rfl⟩ := List.mem_map.mp hsent
    obtain ⟨ht, hsender⟩ := List.mem_filter.mp ht
    have hsender : t.sender = a := by simpa using hsender
    rw [ExtTreeMap.mem_keys, ← hsender]
    exact hmem t ht
  have hlen := (hnodup.subperm hsub).length_le
  rw [List.length_map, hfirst, List.length_map, List.length_range, ExtTreeMap.length_keys] at hlen
  omega

theorem nodup_keys_of_settles {pool : Mempool} {st : State} {txs : List Tx} (h : Settles p height st txs)
    (hmem : ∀ t ∈ txs, (t.sender, t.nonce) ∈ pool.m) (hsize : pool.m.size ≤ maxPoolTxs) :
    (txs.map fun t => (t.sender, t.nonce)).Nodup := by
  rw [List.Nodup, List.pairwise_map, List.pairwise_iff_forall_sublist]
  intro t u hsub heq
  obtain ⟨hsender, hnonce⟩ := Prod.mk.inj heq
  have hnodup : (sentBy txs u.sender).Nodup := by
    rw [sentBy_of_settles h u.sender]
    apply nodup_consecutive
    have hlen := length_sentBy_le h hmem hsize u.sender
    have : maxPoolTxs = 10000 := rfl
    omega
  have hfilter : [t, u].Sublist (txs.filter fun t => t.sender = u.sender) := by
    have := hsub.filter fun t => decide (t.sender = u.sender)
    simpa [hsender] using this
  rw [sentBy, List.Nodup, List.pairwise_map, List.pairwise_iff_forall_sublist] at hnodup
  exact hnodup hfilter hnonce

/-- **`collect` stops with a maximal includable set.** The run of its loop exists and is the only one; what it
returns are entries of the pool, none twice, that apply in their order; and below `maxn` no entry of the pool
applies afterwards. -/
theorem collect_maximal {pool : Mempool}
    (hkeys : ∀ (k : PoolKey) (t : Tx), pool.m[k]? = some t → t.sender = k.1 ∧ t.nonce = k.2)
    (hsize : pool.m.size ≤ 10000) (st : State) (p : Params) (height : UInt64) (maxn : Nat) :
    (∃ tmp, CollectLoop p height maxn pool.m.toList st [] true tmp (pool.collectUpTo st p height maxn) ∧
      ∀ tmp' out, CollectLoop p height maxn pool.m.toList st [] true tmp' out →
        tmp' = tmp ∧ out = pool.collectUpTo st p height maxn) ∧
    (∀ t ∈ pool.collectUpTo st p height maxn, pool.m[(t.sender, t.nonce)]? = some t) ∧
    ((pool.collectUpTo st p height maxn).map fun t => (t.sender, t.nonce)).Nodup ∧
    (pool.collectUpTo st p height maxn).length ≤ maxn ∧
    ∃ st', applyBody p height st 1 (pool.collectUpTo st p height maxn) = .ok st' ∧
      ((pool.collectUpTo st p height maxn).length < maxn →
        ∀ (k : PoolKey) (t : Tx), pool.m[k]? = some t → (applyTx st' t p height false).1 ≠ none) := by
  have hentries : ∀ e ∈ pool.m.toList, e.1 = (e.2.sender, e.2.nonce) := by
    intro e he
    obtain ⟨hsender, hnonce⟩ := hkeys e.1 e.2 (ExtTreeMap.mem_toList_iff_getElem?_eq_some.mp he)
    exact Prod.ext hsender.symm hnonce.symm
  have hpicked : Picked p height st st [] := ⟨trivial, State.Same.refl st⟩
  obtain ⟨tmp, hrun⟩ := collectLoop_of_fuel pool.m.toList maxn hpicked (Nat.le_add_left maxn 0)
  have hmem : ∀ t ∈ pool.collectUpTo st p height maxn, pool.m[(t.sender, t.nonce)]? = some t := by
    intro t ht
    have hfrom := hrun.invariant (motive := fun _ out => ∀ t ∈ out, ∃ key, (key, t) ∈ pool.m.toList)
      (fun hbefore _ hpass t ht => (collectPass_mem hpass ht).elim (hbefore t) id) (by simp)
    obtain ⟨key, hkey⟩ := hfrom t ht
    have hkey' : key = (t.sender, t.nonce) := hentries _ hkey
    rw [← hkey']
    exact ExtTreeMap.mem_toList_iff_getElem?_eq_some.mp hkey
  have hspec := hrun.invariant (motive := fun tmp out => Picked p height st tmp out ∧ out.length ≤ maxn)
    (fun hbefore hlt hpass => by
      obtain ⟨hpicked, hmax, -⟩ := collectPass_spec hbefore.1 hlt hpass
      exact ⟨hpicked, hmax⟩) ⟨hpicked, Nat.zero_le maxn⟩
  obtain ⟨⟨hsettles, hsame⟩, hmax⟩ := hspec
  refine ⟨⟨tmp, hrun, fun tmp' out hrun' => hrun'.unique hrun⟩, hmem, ?_, hmax,
    st.effects (pool.collectUpTo st p height maxn), applyBody_succ_ok_iff.mpr ⟨hsettles, rfl⟩, fun hlt k t ht hok => ?_⟩
  · exact nodup_keys_of_settles hsettles (fun t ht => ExtTreeMap.mem_iff_isSome_getElem?.mpr (by rw [hmem t ht]; rfl)) hsize
  · have hexhausted := (hrun.exhausted hentries (by simp) hlt).congr hsame
    refine hexhausted (k, t) (ExtTreeMap.mem_toList_iff_getElem?_eq_some.mpr ht) ?_
    exact (applyTx_ok_iff.mp (Prod.ext hok rfl)).1

end Mempool

end

section
local instance collectCrypto : Crypto := Sha.crypto fun _ _ _ => true

/-- A pool with one transaction. -/
def onePool : Mempool :=
  { m := (∅ : ExtTreeMap PoolKey Tx poolCmp).insert (firstTransfer.sender, 0) firstTransfer }

/-- The only entry of a pool applies to the empty state, so it is picked. -/
theorem collect_maximal_one_entry : onePool.collectUpTo ∅ Chain.easyParams 1 1000 ≠ [] := by
  have hkeys : ∀ (k : PoolKey) (t : Tx), onePool.m[k]? = some t → t.sender = k.1 ∧ t.nonce = k.2 := by
    intro k t ht
    rw [onePool, OrderedMap.getElem?_insert_eq] at ht
    split at ht
    · rename_i hk
      cases ht
      rw [← hk]
      exact ⟨rfl, rfl⟩
    · simp at ht
  have hsize : onePool.m.size ≤ 10000 := by
    have hle : onePool.m.size ≤ (∅ : ExtTreeMap PoolKey Tx poolCmp).size + 1 := ExtTreeMap.size_insert_le
    simp only [ExtTreeMap.size_empty] at hle
    omega
  have hentry : onePool.m[(firstTransfer.sender, (0 : UInt64))]? = some firstTransfer := by
    rw [onePool, OrderedMap.getElem?_insert_eq, if_pos rfl]
  have hvalid : TxValid ∅ Chain.easyParams 1 false firstTransfer :=
    .transfer ⟨rfl, by decide, rfl⟩ rfl (by rw [State.acct_empty]; rfl) rfl (UInt64.zero_le)
  obtain ⟨-, -, -, -, st', happly, hnone⟩ := Mempool.collect_maximal hkeys hsize ∅ Chain.easyParams 1 1000
  intro hempty
  rw [hempty] at happly hnone
  cases happly
  exact hnone (by decide) _ _ hentry (by rw [applyTx_ok_iff.mpr ⟨hvalid, rfl⟩])

end

end Chainlite
