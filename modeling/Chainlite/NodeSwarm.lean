import Chainlite.LedgerNonces
import Chainlite.NodeOrigin
import Chainlite.NodePending
import Chainlite.StorageDurability

/-! Several nodes that talk to each other. A message that reaches a node has been sent by some node before; it may
come late, more than once, out of order or never. The nodes take their steps in any order, and a node may be stopped
and started again on the database it has left. Whatever happens, no transaction and no block comes from nowhere: what
a node has pending was submitted at some node, and what is on its chain was mined at some node from such transactions. -/

open Std

namespace Chainlite

variable {ι : Type}

/-- An event at a node, with the node as it was. -/
structure Act (ι : Type) where
  who : ι
  node : App
  readings : Readings
  ev : Event

/-- The nodes, all messages sent so far, and all that has happened. -/
structure Swarm (ι : Type) where
  node : ι → App
  clock : ι → Clock
  sent : List (UInt8 × Bytes) := []
  log : List (Act ι) := []

/-- The messages that reach the node have been sent. -/
def Event.Heard (ev : Event) (sent : List (UInt8 × Bytes)) : Prop :=
  ∀ peer type payload, ev = .msg peer type payload → (type, payload) ∈ sent

section
variable [Crypto] [DecidableEq ι]

namespace Swarm

def act (s : Swarm ι) (i : ι) (r : Readings) (ev : Event) (t : Clock) : Swarm ι where
  node := Function.update s.node i ((s.node i).step r ev)
  clock := Function.update s.clock i t
  sent := s.sent ++ ((s.node i).handle r ev).2.map NetCall.message
  log := s.log ++ [⟨i, s.node i, r, ev⟩]

omit [Crypto] in
/-- The node `i` is stopped and starts as `a`. -/
def restart (s : Swarm ι) (i : ι) (a : App) (t : Clock) : Swarm ι :=
  { s with node := Function.update s.node i a, clock := Function.update s.clock i t }

variable (s : Swarm ι) {i j : ι}

theorem act_self (r : Readings) (ev : Event) (t : Clock) :
    (s.act i r ev t).node i = (s.node i).step r ev ∧ (s.act i r ev t).clock i = t :=
  ⟨Function.update_self .., Function.update_self ..⟩

theorem act_other (h : j ≠ i) (r : Readings) (ev : Event) (t : Clock) :
    (s.act i r ev t).node j = s.node j ∧ (s.act i r ev t).clock j = s.clock j :=
  ⟨Function.update_of_ne h .., Function.update_of_ne h ..⟩

theorem act_submit_sent (r : Readings) (body : String) (t : Clock) :
    (s.act i r (.submit body) t).sent = s.sent ++ ((s.node i).submit body).2.1.map NetCall.message := rfl

omit [Crypto] in
theorem restart_self (a : App) (t : Clock) : (s.restart i a t).node i = a ∧ (s.restart i a t).clock i = t :=
  ⟨Function.update_self .., Function.update_self ..⟩

omit [Crypto] in
theorem restart_other (h : j ≠ i) (a : App) (t : Clock) :
    (s.restart i a t).node j = s.node j ∧ (s.restart i a t).clock j = s.clock j :=
  ⟨Function.update_of_ne h .., Function.update_of_ne h ..⟩

omit [DecidableEq ι] in
/-- `/submit` took the transaction at some node. -/
def Submitted (t : Tx) : Prop := ∃ act ∈ s.log, act.node.Submits act.ev t

omit [DecidableEq ι] in
/-- The block was mined at some node. -/
def Mined (b : Block) : Prop := ∃ act ∈ s.log, act.node.Mines act.readings act.ev b

end Swarm

inductive SwarmStep (p : Params) (s : Swarm ι) : Swarm ι → Prop
  | act (i : ι) {r : Readings} {t : Clock} (ev : Event) (hr : r.Between (s.clock i) t) (hheard : ev.Heard s.sent) :
      SwarmStep p s (s.act i r ev t)
  | restart (i : ι) {now : Nat → Clock} {db : Db} {c : Chain} {t : Clock} (minerAddr : Addr20) (mineOn : Bool)
      (heartbeat : UInt64) (hupto : ∀ k, now k ≤ t) (hdb : (s.node i).chain.db = some db)
      (hinit : (Chain.fresh p).init now (some db) = .ok c) :
      SwarmStep p s (s.restart i (App.start p c minerAddr mineOn heartbeat) t)

omit [DecidableEq ι] in
/-- The nodes as they are started for the first time. -/
structure Swarm.Started (p : Params) (s : Swarm ι) : Prop where
  node : ∀ i, ∃ (now : Nat → Clock) (c : Chain) (minerAddr : Addr20) (mineOn : Bool) (heartbeat : UInt64),
    (∀ k, now k ≤ s.clock i) ∧ (Chain.fresh p).init now (some {}) = .ok c ∧
      s.node i = App.start p c minerAddr mineOn heartbeat
  sent : s.sent = []
  log : s.log = []

inductive SwarmRun (p : Params) : Swarm ι → Prop
  | start {s : Swarm ι} (h : s.Started p) : SwarmRun p s
  | step {s s' : Swarm ι} (h : SwarmRun p s) (hstep : SwarmStep p s s') : SwarmRun p s'

variable {p : Params} {s s' : Swarm ι}

/-- Each node, taken alone, is a node that runs. -/
theorem SwarmRun.nodeRun (h : SwarmRun p s) (i : ι) : NodeRun p (s.node i) (s.clock i) := by
  induction h with
  | start hstart =>
      obtain ⟨now, c, minerAddr, mineOn, heartbeat, hupto, hinit, heq⟩ := hstart.node i
      rw [heq]
      exact .start minerAddr mineOn heartbeat hupto hinit
  | @step s s' _ hstep ih =>
      cases hstep with
      | @act j r t ev hr _ =>
          by_cases hi : i = j
          · subst hi
            obtain ⟨hnode, hclock⟩ := s.act_self r ev t
            rw [hnode, hclock]
            exact ih.step hr ev
          · obtain ⟨hnode, hclock⟩ := s.act_other hi r ev t
            rw [hnode, hclock]
            exact ih
      | @restart j now db c t minerAddr mineOn heartbeat hupto _ hinit =>
          by_cases hi : i = j
          · subst hi
            obtain ⟨hnode, hclock⟩ := s.restart_self (App.start p c minerAddr mineOn heartbeat) t
            rw [hnode, hclock]
            exact .start minerAddr mineOn heartbeat hupto hinit
          · obtain ⟨hnode, hclock⟩ := s.restart_other hi (App.start p c minerAddr mineOn heartbeat) t
            rw [hnode, hclock]
            exact ih

/-! ### Where everything comes from -/

omit [DecidableEq ι] in
/-- What the log accounts for: the submitted transactions, and the blocks mined from them. -/
def Swarm.origin (p : Params) (s : Swarm ι) : Origin where
  tx := s.Submitted
  block b := b.Fits ∧ (b = makeGenesis p ∨ s.Mined b) ∧ ∀ t ∈ b.txs, t.type ≠ txCoinbase → s.Submitted t
  fits _ h := h.1
  body _ h := h.2.2

omit [DecidableEq ι] in
theorem Swarm.origin_genesis (p : Params) (s : Swarm ι) : (s.origin p).block (makeGenesis p) :=
  ⟨⟨Nat.zero_le _, nofun⟩, Or.inl rfl, nofun⟩

omit [DecidableEq ι] in
/-- A longer log accounts for more. -/
theorem Swarm.origin_le (hlog : s.log ⊆ s'.log) : (s.origin p).Le (s'.origin p) := by
  have htx : ∀ t, s.Submitted t → s'.Submitted t := fun t ⟨act, hact, h⟩ => ⟨act, hlog hact, h⟩
  refine ⟨htx, fun b hb => ⟨hb.1, ?_, fun t ht htype => htx t (hb.2.2 t ht htype)⟩⟩
  rcases hb.2.1 with hgenesis | ⟨act, hact, h⟩
  · exact Or.inl hgenesis
  · exact Or.inr ⟨act, hlog hact, h⟩

/-- What an event submits or mines is in the log after it. -/
theorem Swarm.leads_act (s : Swarm ι) (i : ι) (r : Readings) (ev : Event) (t : Clock)
    (hsent : ∀ m ∈ s.sent, (s.origin p).Message m) (hheard : ev.Heard s.sent) :
    (s.origin p).Leads r (s.node i) ev ((s.act i r ev t).origin p) := by
  have hle : (s.origin p).Le ((s.act i r ev t).origin p) := origin_le (List.subset_append_left _ _)
  have hlast : (⟨i, s.node i, r, ev⟩ : Act ι) ∈ (s.act i r ev t).log :=
    List.mem_append_right _ List.mem_cons_self
  refine ⟨hle, fun peer type payload hev => hsent _ (hheard peer type payload hev), fun u hu => ⟨_, hlast, hu⟩, ?_⟩
  exact fun b hb hfits hbody => ⟨hfits, Or.inr ⟨_, hlast, hb⟩, fun u hu htype => hle.tx u (hbody u hu htype)⟩

/-- All that the nodes hold and have sent is accounted for. -/
structure Swarm.Accounted (p : Params) (s : Swarm ι) : Prop where
  node : ∀ i, (s.origin p).Node (s.node i)
  sent : ∀ m ∈ s.sent, (s.origin p).Message m

omit [Crypto] [DecidableEq ι] in
/-- A node that has just been started holds the chain and nothing else. -/
theorem Origin.Node.start {o : Origin} {c : Chainlite.Chain} (h : o.Chain c) (minerAddr : Addr20) (mineOn : Bool)
    (heartbeat : UInt64) : o.Node (App.start p c minerAddr mineOn heartbeat) where
  chain := h
  pool k t ht := by simp [App.start] at ht
  cand b hb := by cases hb
  cache root txs htxs := by simp [App.start] at htxs
  job seq b hjob := by cases hjob

omit [DecidableEq ι] in
theorem Swarm.Started.accounted (h : s.Started p) : s.Accounted p := by
  refine ⟨fun i => ?_, fun m hm => ?_⟩
  · obtain ⟨now, c, minerAddr, mineOn, heartbeat, -, hinit, heq⟩ := h.node i
    rw [heq]
    refine .start (Origin.Chain.init (s.origin_genesis p) (fun raw hraw => ?_) hinit) minerAddr mineOn heartbeat
    cases hraw
  · rw [h.sent] at hm
    cases hm

theorem Swarm.Accounted.act (h : s.Accounted p) {i : ι} (hsound : Chain.Sound p (s.node i).chain) (r : Readings)
    {ev : Event} (t : Clock) (hheard : ev.Heard s.sent) : (s.act i r ev t).Accounted p := by
  have hleads := s.leads_act i r ev t h.sent hheard
  obtain ⟨hnode, hcalls⟩ := Origin.Result.handle (h.node i) hsound ev hleads
  refine ⟨fun j => ?_, fun m hm => ?_⟩
  · by_cases hj : j = i
    · subst hj
      rw [(s.act_self r ev t).1]
      exact ⟨hnode.chain, hnode.pool, hnode.cand, hnode.cache, hnode.job⟩
    · rw [(s.act_other hj r ev t).1]
      exact (h.node j).mono hleads.le
  · rcases List.mem_append.mp hm with hm | hm
    · exact (h.sent m hm).mono hleads.le
    · obtain ⟨call, hcall, rfl⟩ := List.mem_map.mp hm
      exact hcalls call hcall

theorem Swarm.Accounted.restart (h : s.Accounted p) {i : ι} {now : Nat → Clock} {db : Db} {c : Chain}
    (hdb : (s.node i).chain.db = some db) (hinit : (Chain.fresh p).init now (some db) = .ok c) (minerAddr : Addr20)
    (mineOn : Bool) (heartbeat : UInt64) (t : Clock) :
    (s.restart i (App.start p c minerAddr mineOn heartbeat) t).Accounted p := by
  refine ⟨fun j => ?_, h.sent⟩
  by_cases hj : j = i
  · subst hj
    rw [(s.restart_self _ t).1]
    exact .start (Origin.Chain.init (s.origin_genesis p) ((h.node j).chain.disk db hdb) hinit) minerAddr mineOn heartbeat
  · rw [(s.restart_other hj _ t).1]
    exact h.node j

theorem SwarmRun.accounted (h : SwarmRun p s) : s.Accounted p := by
  induction h with
  | start hstart => exact hstart.accounted
  | step hrun hstep ih =>
      cases hstep with
      | act i ev hr hheard => exact ih.act (hrun.nodeRun i).valid.sound _ _ hheard
      | restart i minerAddr mineOn heartbeat hupto hdb hinit => exact ih.restart hdb hinit minerAddr mineOn heartbeat _

/-- **Nothing comes from nowhere.** However the nodes run and whatever is lost, repeated or reordered between them:
what a node has pending was submitted at some node, every block of its chain is the genesis or was mined at some node,
and every transaction on its chain is a coinbase or was submitted. -/
theorem nothing_from_nowhere (h : SwarmRun p s) (i : ι) :
    (∀ (k : PoolKey) (t : Tx), (s.node i).pool.m[k]? = some t → s.Submitted t) ∧
    (∀ b ∈ (s.node i).chain.blocks, b = makeGenesis p ∨ s.Mined b) ∧
    ∀ t ∈ (s.node i).chain.txs, t.type = txCoinbase ∨ s.Submitted t := by
  have hnode := h.accounted.node i
  refine ⟨hnode.pool, fun b hb => (hnode.chain.blocks b hb).2.1, fun t ht => ?_⟩
  obtain ⟨b, hb, htb⟩ := List.mem_flatMap.mp ht
  by_cases htype : t.type = txCoinbase
  · exact Or.inl htype
  · exact Or.inr ((hnode.chain.blocks b hb).2.2 t htb htype)

/-! ### Two nodes -/

def pairNodes : Swarm Bool where
  node _ := App.start Chain.easyParams Chain.onDisk (zeros 20) true 0
  clock _ := Chain.easyClock

theorem pair_started : pairNodes.Started Chain.easyParams :=
  ⟨fun _ => ⟨fun _ => Chain.easyClock, Chain.onDisk, zeros 20, true, 0, fun _ => Clock.le_refl _, Chain.init_onDisk, rfl⟩,
    rfl, rfl⟩

theorem pairNodes_fresh (i : Bool) : (pairNodes.node i).pool = {} ∧ (pairNodes.node i).chain.st = ∅ ∧
    (pairNodes.node i).params = Chain.easyParams ∧ (pairNodes.node i).chain.txidx = ∅ := ⟨rfl, rfl, rfl, rfl⟩

/-- A transfer is submitted at one node. -/
def pairSubmitted : Swarm Bool := pairNodes.act true easyReadings (.submit (hexs firstTransfer.serialize)) Chain.easyClock

/-- The other one hears it. -/
def pairHeard : Swarm Bool := pairSubmitted.act false easyReadings (.msg 0 mTx firstTransfer.serialize) Chain.easyClock

theorem pairSubmitted_sent : pairSubmitted.sent =
    [] ++ ((pairNodes.node true).submit (hexs firstTransfer.serialize)).2.1.map NetCall.message :=
  pairNodes.act_submit_sent easyReadings _ Chain.easyClock

theorem pairHeard_node : pairHeard.node false =
    (pairNodes.node false).step easyReadings (.msg 0 mTx firstTransfer.serialize) := by
  rw [pairHeard, (Swarm.act_self _ _ _ _).1, pairSubmitted, (Swarm.act_other _ (by decide) _ _ _).1]

end

section
local instance swarmCrypto : Crypto := Sha.crypto fun _ _ _ => true

theorem pairNodes_submit : ((pairNodes.node true).submit (hexs firstTransfer.serialize)).2.1 =
    [.broadcast mTx firstTransfer.serialize (-1)] := by
  obtain ⟨hpool, hst, hparams, htxidx⟩ := pairNodes_fresh true
  obtain ⟨pool, hadd⟩ := firstTransfer_admitted hpool hst hparams rfl
  have hfits : firstTransfer.Fits := Nat.zero_le maxPayload
  rw [App.submit_new hfits (firstTransfer_unknown hpool htxidx) hadd]

theorem pair_run : SwarmRun Chain.easyParams pairHeard := by
  refine .step (.step (.start pair_started) (.act true (.submit (hexs firstTransfer.serialize)) easyReadings_between ?_))
    (.act false (.msg 0 mTx firstTransfer.serialize) easyReadings_between ?_)
  · intro peer type payload heq
    cases heq
  · intro peer type payload heq
    obtain ⟨-, rfl, rfl⟩ := Event.msg.inj heq
    change NetCall.message (.broadcast mTx firstTransfer.serialize (-1)) ∈ pairSubmitted.sent
    rw [pairSubmitted_sent, pairNodes_submit]
    exact List.mem_cons_self

theorem pairHeard_pool :
    (pairHeard.node false).pool.m[(firstTransfer.sender, firstTransfer.nonce)]? = some firstTransfer := by
  obtain ⟨hpool, hst, hparams, htxidx⟩ := pairNodes_fresh false
  obtain ⟨pool, hadd⟩ := firstTransfer_admitted hpool hst hparams rfl
  have hfits : firstTransfer.Fits := Nat.zero_le maxPayload
  rw [pairHeard_node]
  exact App.step_tx_entry easyReadings 0 hfits (firstTransfer_unknown hpool htxidx) hadd

/-- What the second node has pending was submitted at the first. -/
theorem nothing_from_nowhere_pair :
    (pairHeard.node false).pool.m[(firstTransfer.sender, firstTransfer.nonce)]? = some firstTransfer ∧
      pairHeard.Submitted firstTransfer ∧
      (∀ b ∈ (pairHeard.node false).chain.blocks, b = makeGenesis Chain.easyParams ∨ pairHeard.Mined b) ∧
      ∀ t ∈ (pairHeard.node false).chain.txs, t.type = txCoinbase ∨ pairHeard.Submitted t := by
  obtain ⟨hpool, hblocks, htxs⟩ := nothing_from_nowhere pair_run false
  exact ⟨pairHeard_pool, hpool _ _ pairHeard_pool, hblocks, htxs⟩

end

end Chainlite
