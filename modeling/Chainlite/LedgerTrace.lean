import Chainlite.MiningTemplate

/-! A rejected transaction leaves no trace. `apply_tx` creates the sender's entry before its last checks, so
the map may have grown; but nothing that reads a state can tell an empty account from an absent one, and
`State.Same` is a congruence for all of it. -/

open Std

namespace Chainlite

section
variable [Crypto] {p : Params} {height : UInt64}

/-! ### Applications -/

/-- The same error or none, and states that read the same. -/
def SameResult (x y : Option TxError × State) : Prop := x.1 = y.1 ∧ State.Same x.2 y.2

omit [Crypto] in
theorem SameResult.error {st st' : State} (h : State.Same st st') (err : TxError) :
    SameResult (some err, st) (some err, st') := ⟨rfl, h⟩

omit [Crypto] in
theorem SameResult.success {st st' : State} (h : State.Same st st') : SameResult (none, st) (none, st') :=
  ⟨rfl, h⟩

omit [Crypto] in
theorem applyCoinbase_congr {st st' : State} (h : State.Same st st') (t : Tx) (first : Bool) :
    SameResult (applyCoinbase st t p height first) (applyCoinbase st' t p height first) := by
  unfold applyCoinbase
  split_ifs
  · exact .error h _
  · exact .error h _
  · exact .error h _
  · exact .error h _
  · exact .error h _
  · exact .success (h.credit _ _)

omit [Crypto] in
theorem applyByType_congr {st st' : State} (h : State.Same st st') (t : Tx) (a : Addr20) :
    SameResult (applyByType st t a) (applyByType st' t a) := by
  unfold applyByType
  rw [h a]
  split_ifs
  · exact .error h _
  · exact .error h _
  · exact .success (((h.debit _ _).credit _ _).bump _)
  · exact .error h _
  · exact .error h _
  · exact .success (h.bump _)
  · exact .error h _

/-- **Applications cannot tell such states apart.** -/
theorem applyTx_congr {st st' : State} (h : State.Same st st') (t : Tx) (p : Params) (height : UInt64) (first : Bool) :
    SameResult (applyTx st t p height first) (applyTx st' t p height first) := by
  have htouch := h.touch t.sender
  simp only [applyTx]
  rw [htouch t.sender]
  split_ifs
  · exact .error h _
  · exact applyCoinbase_congr h t first
  · exact .error h _
  · exact .error h _
  · exact .error h _
  · exact .error htouch _
  · exact applyByType_congr htouch t t.sender

/-! ### The mempool -/

namespace Mempool

theorem add_congr {st st' : State} (h : State.Same st st') (pool : Mempool) (t : Tx) (p : Params) :
    pool.add t st p = pool.add t st' p := by
  rw [add, add, h t.sender]

/-- One turn picks the same and goes on from states that read the same. -/
theorem collectPass_congr (p : Params) (height : UInt64) (maxn : Nat) {st st' : State} (h : State.Same st st')
    (entries : List (PoolKey × Tx)) (out : List Tx) (progress : Bool) :
    State.Same (collectPass p height maxn entries st out progress).1
        (collectPass p height maxn entries st' out progress).1 ∧
      (collectPass p height maxn entries st out progress).2 =
        (collectPass p height maxn entries st' out progress).2 := by
  induction entries generalizing st st' out progress with
  | nil => exact ⟨h, rfl⟩
  | cons entry rest ih =>
      obtain ⟨key, tx⟩ := entry
      rw [collectPass, collectPass, h key.1]
      split
      · exact ih h out progress
      · obtain ⟨herr, hsame⟩ := applyTx_congr h tx p height false
        rcases happly : applyTx st tx p height false with ⟨_ | err, st₁⟩ <;>
          rcases happly' : applyTx st' tx p height false with ⟨_ | err', st₁'⟩ <;>
          simp only [happly, happly', reduceCtorEq] at herr hsame ⊢
        · split
          · exact ⟨hsame, rfl⟩
          · exact ih hsame _ true
        · exact ih hsame out progress

theorem collectFrom_congr {maxn : Nat} (entries : List (PoolKey × Tx)) (fuel : Nat) {st st' : State}
    (h : State.Same st st') (out : List Tx) :
    collectFrom p height maxn entries fuel st out = collectFrom p height maxn entries fuel st' out := by
  induction fuel generalizing st st' out with
  | zero => rfl
  | succ fuel ih =>
      rw [collectFrom, collectFrom]
      split
      · obtain ⟨hsame, hout⟩ := collectPass_congr p height maxn h entries out false
        rcases hpass : collectPass p height maxn entries st out false with ⟨st₁, out₁, progress⟩
        rcases hpass' : collectPass p height maxn entries st' out false with ⟨st₁', out₁', progress'⟩
        rw [hpass, hpass'] at hsame hout
        cases hout
        cases progress with
        | false => rfl
        | true => exact ih hsame out₁
      · rfl

theorem purge_congr {st st' : State} (h : State.Same st st') (pool : Mempool) : pool.purge st = pool.purge st' := by
  unfold purge
  congr 1
  funext pool entry
  rw [h entry.1.1]

end Mempool

/-! ### Blocks -/

/-- The same error, or states that read the same. -/
inductive SameBody : Except (Nat × TxError) State → Except (Nat × TxError) State → Prop
  | error (err : Nat × TxError) : SameBody (.error err) (.error err)
  | ok {st st' : State} (h : State.Same st st') : SameBody (.ok st) (.ok st')

theorem applyBody_congr (p : Params) (height : UInt64) {st st' : State} (h : State.Same st st') (i : Nat)
    (txs : List Tx) :
    SameBody (applyBody p height st i txs) (applyBody p height st' i txs) := by
  induction txs generalizing st st' i with
  | nil => exact .ok h
  | cons t rest ih =>
      obtain ⟨herr, hsame⟩ := applyTx_congr h t p height (i == 0)
      rw [applyBody, applyBody]
      rcases happly : applyTx st t p height (i == 0) with ⟨_ | err, st₁⟩ <;>
        rcases happly' : applyTx st' t p height (i == 0) with ⟨_ | err', st₁'⟩ <;>
        simp only [happly, happly', reduceCtorEq] at herr hsame ⊢
      · exact ih hsame (i + 1)
      · cases herr
        exact .error _

/-- The same error, or chains that differ in states that read the same. -/
inductive Chain.SameConnect : Except ConnectError Chain → Except ConnectError Chain → Prop
  | error (err : ConnectError) : SameConnect (.error err) (.error err)
  | ok {c c' : Chain} (h : State.Same c.st c'.st) (hrest : c' = { c with st := c'.st }) :
      SameConnect (.ok c) (.ok c')

omit [Crypto] in
/-- A check that both make. -/
theorem Chain.SameConnect.guard {P : Prop} [Decidable P] {err : ConnectError} {x y : Except ConnectError Chain}
    (h : SameConnect x y) : SameConnect (if P then .error err else x) (if P then .error err else y) := by
  split
  · exact .error err
  · exact h

theorem Chain.SameConnect.append {st st' : State} (h : State.Same st st') (c : Chain) (b : Block) (w : UInt64) :
    SameConnect (.ok ({ c with st := st }.append b w)) (.ok ({ c with st := st' }.append b w)) := by
  unfold Chain.append persist sql
  dsimp only
  split
  · exact .ok h rfl
  · exact .ok h rfl

/-- **Validation cannot tell such states apart.** -/
theorem Chain.connectBlock_congr {st st' : State} (h : State.Same st st') (c : Chain) (now : Clock) (b : Block) :
    SameConnect (connectBlock now { c with st := st } b) (connectBlock now { c with st := st' } b) := by
  have hbody := applyBody_congr c.params b.h.height h 0 b.txs
  unfold connectBlock
  dsimp only
  cases c.blocks.getLast? with
  | none =>
      apply SameConnect.guard
      exact .append h c b 1
  | some tip =>
      -- the nine checks before the body do not read the state
      iterate 9 apply SameConnect.guard
      generalize applyBody c.params b.h.height st 0 b.txs = x at hbody
      generalize applyBody c.params b.h.height st' 0 b.txs = y at hbody
      cases hbody with
      | error err => exact .error _
      | ok hsame => exact .append hsame c b _

/-- **A rejected transaction leaves no trace.** After an error every account reads as before; and of two
states that read the same, with absent accounts counting as empty, every consumer makes the same. -/
theorem rejected_leaves_no_trace :
    (∀ (st st' : State) (t : Tx) (p : Params) (height : UInt64) (first : Bool) (err : TxError),
      applyTx st t p height first = (some err, st') →
      ∀ a, (st'.acct a).balance = (st.acct a).balance ∧ (st'.acct a).nonce = (st.acct a).nonce) ∧
    ∀ st st' : State, (∀ a, st.acct a = st'.acct a) →
      (∀ (t : Tx) (p : Params) (height : UInt64) (first : Bool),
        (applyTx st t p height first).1 = (applyTx st' t p height first).1 ∧
        ∀ a, (applyTx st t p height first).2.acct a = (applyTx st' t p height first).2.acct a) ∧
      (∀ (pool : Mempool) (t : Tx) (p : Params), pool.add t st p = pool.add t st' p) ∧
      (∀ (pool : Mempool) (p : Params) (height : UInt64) (maxn : Nat),
        pool.collectUpTo st p height maxn = pool.collectUpTo st' p height maxn) ∧
      (∀ pool : Mempool, pool.purge st = pool.purge st') ∧
      ∀ (c : Chain) (now : Clock) (b : Block),
        Chain.SameConnect (Chain.connectBlock now { c with st := st } b)
          (Chain.connectBlock now { c with st := st' } b) := by
  constructor
  · intro st st' t p height first err herr a
    have hsame : State.Same st' st := applyTx_error_same herr
    rw [hsame a]
    exact ⟨rfl, rfl⟩
  · intro st st' hread
    have hsame : State.Same st st' := hread
    refine ⟨fun t p height first => ?_, fun pool t p => ?_, fun pool p height maxn => ?_, fun pool => ?_,
      fun c now b => ?_⟩
    · exact applyTx_congr hsame t p height first
    · exact Mempool.add_congr hsame pool t p
    · exact Mempool.collectFrom_congr _ maxn hsame []
    · exact Mempool.purge_congr hsame pool
    · exact Chain.connectBlock_congr hsame c now b

end

section
local instance traceCrypto : Crypto := Sha.crypto fun _ _ _ => true

/-- A transfer that is five ahead of its sender. -/
def aheadTransfer : Tx := { firstTransfer with nonce := 5 }

theorem applyTx_aheadTransfer : applyTx ∅ aheadTransfer Chain.easyParams 1 false =
    (some (.badNonce 0 5), State.touch ∅ aheadTransfer.sender) := by
  have hsender : isZero aheadTransfer.fromKey = false := by decide
  have hnonce : ¬aheadTransfer.nonce = 0 := by decide
  have htype : ¬aheadTransfer.type = txCoinbase := by decide
  simp only [applyTx, State.acct_touch, State.acct_empty, hsender, hnonce, htype, ne_eq, not_false_eq_true, if_true,
    if_false, Bool.false_eq_true]
  rfl

/-- Its rejection adds an entry to the empty map, which purging does not see. -/
theorem rejected_leaves_no_trace_ahead :
    aheadTransfer.sender ∈ (applyTx ∅ aheadTransfer Chain.easyParams 1 false).2 ∧
      ((applyTx ∅ aheadTransfer Chain.easyParams 1 false).2.acct aheadTransfer.sender).nonce = 0 ∧
      ∀ pool : Mempool, pool.purge (applyTx ∅ aheadTransfer Chain.easyParams 1 false).2 = pool.purge ∅ := by
  rw [applyTx_aheadTransfer]
  have hread := rejected_leaves_no_trace.1 _ _ _ _ _ _ _ applyTx_aheadTransfer
  refine ⟨?_, by rw [(hread _).2, State.acct_empty], fun pool => ?_⟩
  · rw [State.touch]
    exact ExtTreeMap.mem_insert_self
  · refine (rejected_leaves_no_trace.2 _ _ fun a => ?_).2.2.2.1 pool
    exact State.acct_touch ∅ aheadTransfer.sender a

end

end Chainlite
