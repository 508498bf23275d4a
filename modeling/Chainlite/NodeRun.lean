import Chainlite.ChainClock
import Chainlite.NodeStep

/-! Runs of a node. What one event can do to the chain, the pool, the work handed out and the miner's job is
said once, by `CoreStep`; the sync machine and the peers only decide which of these happens. Invariants of
whole runs are then proved for each kind of step. -/

open Std

namespace Chainlite

variable [Crypto]

/-- The two ways a chain changes: some blocks of a list connect, or a whole candidate replaces it. -/
inductive ChainChange (now : Nat → Clock) (c : Chain) : Chain → Prop
  | extend {v : List Block} {c' : Chain} {n : Nat} {err : Option (Block × ConnectError)}
      (h : Chain.connectAll now 0 c v = (c', n, err)) (hn : 0 < n) : ChainChange now c c'
  | replace {cand : List Block} {c' : Chain} {fork : Nat}
      (h : c.tryReplace now cand = .ok (c', fork)) : ChainChange now c c'

theorem ChainChange.connect {now : Nat → Clock} {c c' : Chain} {b : Block}
    (h : c.connectBlock (now 0) b = .ok c') : ChainChange now c c' := by
  have hall : Chain.connectAll now 0 c [b] = (c', 1, none) := by
    rw [Chain.connectAll, h]
    rfl
  exact .extend hall (by decide)

/-- The part of a node that does not depend on its peers. -/
structure Core where
  params : Params
  chain : Chain
  pool : Mempool
  minerAddr : Addr20
  tipSeq : UInt64
  workCache : ExtTreeMap H256 (List Tx)
  job : Option (UInt64 × Block)

def App.core (a : App) : Core :=
  { params := a.params, chain := a.chain, pool := a.pool, minerAddr := a.minerAddr, tipSeq := a.tipSeq,
    workCache := a.workCache, job := a.job }

/-- The template for a payout address, as `/work` and the miner build it. -/
def Core.template (s : Core) (payto : Addr20) (time nonce : UInt64) : Block :=
  s.chain.template s.params s.pool payto time nonce

/-- A changed chain, with what `post_chain_change` does. -/
def Core.changed (s : Core) (c : Chain) : Core :=
  { s with chain := c, pool := s.pool.purge c.st, workCache := ∅, tipSeq := s.tipSeq + 1 }

/-- What one event can do. -/
inductive CoreStep (r : Readings) (s : Core) : Core → Prop
  | quiet : CoreStep r s s
  | pooled {t : Tx} {pool : Mempool} (hfresh : t.txid ∉ s.chain.txidx)
      (h : s.pool.add t s.chain.st s.params = .ok pool) : CoreStep r s { s with pool := pool }
  | handedOut (payto : Addr20) : CoreStep r s { s with
      workCache := (if maxWorkCache < s.workCache.size then ∅ else s.workCache).insert
        (s.template payto (r.now 0).seconds 0).h.merkle (s.template payto (r.now 0).seconds 0).txs }
  | job (job : Option (UInt64 × Block))
      (h : job = none ∨ job = some (s.tipSeq, s.template s.minerAddr (r.now 1).seconds 0)) :
      CoreStep r s { s with job := job }
  | changed {c : Chain} (job : Option (UInt64 × Block)) (hjob : job = s.job ∨ job = none)
      (h : ChainChange r.now s.chain c) : CoreStep r s { s.changed c with job := job }

/-- The chain stays, or it changes. -/
theorem CoreStep.chain {r : Readings} {s s' : Core} (h : CoreStep r s s') :
    s'.chain = s.chain ∨ ChainChange r.now s.chain s'.chain := by
  cases h with
  | quiet => exact Or.inl rfl
  | pooled => exact Or.inl rfl
  | handedOut => exact Or.inl rfl
  | job => exact Or.inl rfl
  | changed _ _ h => exact Or.inr h

namespace App

variable {r : Readings} {a : App}

theorem postChainChange_core {c : Chain} (h : ChainChange r.now a.chain c) :
    CoreStep r a.core (postChainChange { a with chain := c }).core :=
  CoreStep.changed a.job (Or.inl rfl) h

omit [Crypto] in
theorem maybeSync_core (ms : UInt64) (a : App) (peer : Int) : (a.maybeSync ms peer).1.core = a.core := by
  rcases maybeSync_cases ms a peer with hsame | ⟨-, -, hstarted⟩
  · rw [hsame]
  · rw [hstarted]
    rfl

theorem extendBlocks_core (peer : Int) (v : List Block) :
    CoreStep r a.core (a.extendBlocks r peer v).1.core := by
  unfold extendBlocks
  rcases hall : Chain.connectAll r.now 0 a.chain v with ⟨c, n, err⟩
  have hcore : CoreStep r a.core (if 0 < n then postChainChange { a with chain := c } else a).core := by
    split
    · rename_i hn
      exact postChainChange_core (.extend hall hn)
    · exact .quiet
  dsimp only
  generalize (if 0 < n then postChainChange { a with chain := c } else a) = a₁ at hcore ⊢
  split
  · exact hcore
  · split
    · exact hcore
    · split <;> exact hcore

theorem collectBlocks_core (peer : Int) (v : List Block) :
    CoreStep r a.core (a.collectBlocks r peer v).1.core := by
  unfold collectBlocks
  dsimp only
  split
  · exact .quiet
  · split
    · exact .quiet
    · cases hr : a.chain.tryReplace r.now (a.cand ++ v) with
      | error e => exact .quiet
      | ok res => exact postChainChange_core (.replace (hr.trans rfl))

theorem handleBlocks_core (peer : Int) (v : List Block) :
    CoreStep r a.core (a.handleBlocks r peer v).1.core := by
  unfold handleBlocks
  split
  · exact .quiet
  · dsimp only
    split
    · exact .quiet
    · exact extendBlocks_core (a := { a with syncLastMs := r.ms 0 }) peer v
    · exact collectBlocks_core (a := { a with syncLastMs := r.ms 0 }) peer v

/-- **One event, in full**, as far as the core goes. -/
theorem step_core (r : Readings) (a : App) (ev : Event) : CoreStep r a.core (a.step r ev).core := by
  change CoreStep r a.core (a.handle r ev).1.core
  have hhandled := handled r a ev
  generalize a.handle r ev = out at hhandled ⊢
  cases hhandled with
  | ignored => exact .quiet
  | net p2p => exact .quiet
  | greeted peer => exact .quiet
  | announced => exact .quiet
  | served peer reply => exact .quiet
  | ended => exact .quiet
  | @asked peer =>
      rw [maybeSync_core]
      exact .quiet
  | @replied peer payload v => exact handleBlocks_core peer v
  | @pooled t pool except hfits hnew hadd =>
      rw [Bool.or_eq_true, not_or] at hnew
      have hfresh : t.txid ∉ a.chain.txidx := by simpa using hnew.2
      exact CoreStep.pooled (s := a.core) hfresh hadd
  | connected tip except hjob hconnect => exact CoreStep.changed (s := a.core) _ hjob (.connect hconnect)
  | handedOut payto => exact .handedOut payto
  | job hev hjob => exact .job _ hjob

end App

/-! ### Runs -/

/-- The readings of an event made from the clock `t` on, at the latest at `t'`. -/
structure Readings.Between (r : Readings) (t t' : Clock) : Prop where
  after : ∀ k, t ≤ r.now k
  upto : ∀ k, r.now k ≤ t'

omit [Crypto] in
theorem Readings.Between.le {r : Readings} {t t' : Clock} (h : r.Between t t') : t ≤ t' :=
  Clock.le_trans (h.after 0) (h.upto 0)

/-- The node `a` has been reached by the time `t`, on a clock that was never set back. -/
inductive NodeRun (p : Params) : App → Clock → Prop
  | start {now : Nat → Clock} {database : Option Db} {c : Chain} {t : Clock} (minerAddr : Addr20) (mineOn : Bool)
      (heartbeat : UInt64) (hupto : ∀ k, now k ≤ t) (h : (Chain.fresh p).init now database = .ok c) :
      NodeRun p (App.start p c minerAddr mineOn heartbeat) t
  | step {a : App} {t t' : Clock} {r : Readings} (h : NodeRun p a t) (hr : r.Between t t') (ev : Event) :
      NodeRun p (a.step r ev) t'

/-! ### A node on an easy chain -/

def easyReadings : Readings := { now := fun _ => Chain.easyClock, ms := fun _ => 0 }

omit [Crypto] in
theorem easyReadings_between : easyReadings.Between Chain.easyClock Chain.easyClock :=
  ⟨fun _ => Clock.le_refl _, fun _ => Clock.le_refl _⟩

/-- A node without a database that mines a block whenever it can. -/
def easyNode : App := App.start Chain.easyParams (Chain.coinbases (zeros 20) 0) (zeros 20) true 0

theorem easyNode_run : NodeRun Chain.easyParams easyNode Chain.easyClock :=
  .start (zeros 20) true 0 (fun _ => Clock.le_refl _) (Chain.init_coinbases (zeros 20))

end Chainlite
