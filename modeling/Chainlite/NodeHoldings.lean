import Chainlite.NodePool
import Chainlite.SyncInvariant

/-! What a node holds for others. Whatever its peers and its clients send, however the bytes are cut and in whatever order
its threads act, the mempool, the candidate chain and the cache of handed out work stay within fixed sizes, and between
two turns of the network thread a peer has less than one frame in its buffer. -/

open Std

namespace Chainlite

/-! ### The buffers of the peers -/

theorem length_of_incomplete {buf : Bytes} (h : nextFrame buf = .incomplete) : buf.length < 5 + maxFrame := by
  rcases nextFrame_cases buf with ⟨-, hshort | ⟨hsmall, hpart⟩⟩ | ⟨heq, -⟩ | ⟨-, -, -, heq⟩
  · omega
  · omega
  · rw [h] at heq
    cases heq
  · rw [h] at heq
    cases heq

/-- No peer of the table is dead, and none has a whole frame in its buffer. -/
def P2P.Waiting (net : P2P) : Prop :=
  ∀ (id : Int) (p : Peer), net.peers[id]? = some p → p.dead = false ∧ nextFrame p.inbuf = .incomplete

theorem P2P.Waiting.performAll {net : P2P} (h : net.Waiting) (calls : List NetCall) :
    (calls.foldl P2P.perform net).Waiting := by
  intro id q hq
  have hmap := net.getElem?_performAll (f := fun p => (p.dead, p.inbuf)) (fun _ _ => rfl) calls id
  rw [hq] at hmap
  obtain ⟨p, hp, heq⟩ := Option.map_eq_some_iff.mp hmap.symm
  obtain ⟨hdead, hinbuf⟩ := Prod.mk.inj heq
  rw [← hdead, ← hinbuf]
  exact h id p hp

section
variable {net : P2P} {id : Int} {p : Peer}

theorem recvAndParse_waiting {io : Sockets} (h : nextFrame p.inbuf = .incomplete)
    (hlive : (recvAndParse net id io p).1.dead = false) : nextFrame (recvAndParse net id io p).1.inbuf = .incomplete := by
  unfold recvAndParse at hlive ⊢
  by_cases hreadable : io.readable = true
  · rw [if_pos hreadable] at hlive ⊢
    dsimp only at hlive ⊢
    by_cases hdead : (recvAll io.closed p io.chunks).dead = true
    · rw [if_pos hdead] at hlive
      exact absurd (hdead.symm.trans hlive) (by decide)
    · rw [if_neg hdead] at hlive ⊢
      exact nextFrame_parseFrames net id hlive
  · rw [if_neg hreadable]
    exact h

/-- Serving a peer kills it, or leaves less than a frame. -/
theorem servePeer_waiting {connecting : Bool} {io : Sockets} (h : nextFrame p.inbuf = .incomplete) :
    (servePeer net id connecting io p).peer.dead = false →
      nextFrame (servePeer net id connecting io p).peer.inbuf = .incomplete := by
  unfold servePeer
  split_ifs
  · exact fun _ => h
  · exact fun _ => h
  · exact fun _ => h
  · exact fun _ => h
  · exact fun _ => h
  · have hwaiting : (recvAndParse net id io p).1.dead = false →
        nextFrame (recvAndParse net id io p).1.inbuf = .incomplete := recvAndParse_waiting h
    generalize recvAndParse net id io p = r at hwaiting
    dsimp only
    split
    · rename_i hsend
      have hlive : r.1.dead = false := by
        simp at hsend
        exact hsend.1.1
      have hsame : (sendSome io.sent r.1).inbuf = r.1.inbuf := by
        unfold sendSome
        split <;> rfl
      intro _
      rw [hsame]
      exact hwaiting hlive
    · exact hwaiting

end

namespace NetThread

variable {t : NetThread}

theorem add_waiting (h : t.p2p.Waiting) {p : Peer} (hlive : p.dead = false) (hempty : p.inbuf = []) (connecting : Bool) :
    (t.add p connecting).p2p.Waiting := by
  intro id q hq
  have hq : (t.p2p.peers.insert t.nextId p)[id]? = some q := hq
  rw [OrderedMap.getElem?_insert_eq] at hq
  split at hq
  · obtain rfl := Option.some.inj hq
    rw [hempty]
    exact ⟨hlive, rfl⟩
  · exact h id q hq

theorem tryConnect_waiting (h : t.p2p.Waiting) (dialed : String × Attempt) : (t.tryConnect dialed).p2p.Waiting := by
  unfold NetThread.tryConnect
  split_ifs
  · exact h
  · split
    · exact h
    · exact add_waiting h rfl rfl _
    · exact add_waiting h rfl rfl _
  · exact h

theorem tryConnectTargets_waiting (h : t.p2p.Waiting) (targets : List (String × Attempt)) :
    (t.tryConnectTargets targets).p2p.Waiting := by
  induction targets generalizing t with
  | nil => exact h
  | cons dialed rest ih => exact ih (tryConnect_waiting h dialed)

theorem accept_waiting (h : t.p2p.Waiting) (n : Nat) : (t.accept n).p2p.Waiting := by
  induction n generalizing t with
  | zero => exact h
  | succ n ih => exact ih (add_waiting h rfl rfl false)

/-- **One turn.** Who has been sent too much or broken off is erased. -/
theorem turn_waiting (h : t.p2p.Waiting) (accepted : Nat) (io : Int → Sockets) : (t.turn accepted io).1.p2p.Waiting := by
  intro id q hq
  have hget : (t.turn accepted io).1.p2p.peers[id]? =
      ((t.accept accepted).serveAll io).1.p2p.peers[id]?.filter fun p : Peer => !p.dead := ExtTreeMap.getElem?_filter'
  rw [hget, getElem?_serveAll] at hq
  obtain ⟨hserved, hlive⟩ := Option.filter_eq_some_iff.mp hq
  obtain ⟨p, hp, rfl⟩ := Option.map_eq_some_iff.mp hserved
  have hlive : ((t.accept accepted).served io id p).peer.dead = false := by simpa using hlive
  exact ⟨hlive, servePeer_waiting (accept_waiting h accepted id p hp).2 hlive⟩

end NetThread

/-! ### Pool, candidate and cache -/

theorem SyncFields.WellFormed.cand_le {s : SyncFields} (h : s.WellFormed) : s.cand.length ≤ maxCand := by
  cases hmode : s.mode with
  | idle =>
      rw [(h.idle hmode).1]
      exact Nat.zero_le _
  | extend =>
      rw [h.extend hmode]
      exact Nat.zero_le _
  | full => exact (h.full hmode).2

section
variable [Crypto]

theorem CoreStep.params {r : Readings} {s s' : Core} (h : CoreStep r s s') : s'.params = s.params := by
  cases h <;> rfl

/-- The cache is emptied before it grows further. -/
theorem CoreStep.cache_le {r : Readings} {s s' : Core} (h : CoreStep r s s')
    (hle : s.workCache.size ≤ maxWorkCache + 1) : s'.workCache.size ≤ maxWorkCache + 1 := by
  cases h with
  | quiet => exact hle
  | pooled => exact hle
  | handedOut payto =>
      refine ExtTreeMap.size_insert_le.trans (Nat.succ_le_succ ?_)
      split
      · exact Nat.zero_le _
      · rename_i hsmall
        exact Nat.not_lt.mp hsmall
  | job => exact hle
  | changed => exact Nat.zero_le _

/-! ### Runs -/

/-- What the threads keep between any two of their steps. -/
structure Syncing.Within (s : Syncing) : Prop where
  pool : s.app.core.PoolWf s.app.params
  cache : s.app.workCache.size ≤ maxWorkCache + 1
  waiting : s.app.p2p.Waiting

variable {s : Syncing}

theorem Syncing.Within.handle (h : s.Within) (hinv : SyncInv s) (r : Readings) {ev : Event} (hev : ev.Handed)
    (rest : List Ev) : ({ s with pending := rest }.handle r ev).Within := by
  have hcore := App.step_core r s.app ev
  have hparams : (s.app.step r ev).params = s.app.params := hcore.params
  refine ⟨?_, hcore.cache_le h.cache, ?_⟩
  · show (s.app.step r ev).core.PoolWf (s.app.step r ev).params
    rw [hparams]
    exact h.pool.step rfl hcore
  · show (s.app.step r ev).p2p.Waiting
    rw [hinv.step_p2p r hev]
    exact h.waiting.performAll _

theorem SyncRun.within (h : SyncRun s) : s.Within := by
  induction h with
  | start p c minerAddr mineOn heartbeat =>
      refine ⟨Core.poolWf_start p c minerAddr mineOn heartbeat, Nat.zero_le _, fun id q hq => ?_⟩
      have hq : (∅ : ExtTreeMap Int Peer)[id]? = some q := hq
      rw [ExtTreeMap.getElem?_empty] at hq
      cases hq
  | dial _ _ targets ih => exact ⟨ih.pool, ih.cache, NetThread.tryConnectTargets_waiting ih.waiting targets⟩
  | turn _ _ accepted io ih => exact ⟨ih.pool, ih.cache, NetThread.turn_waiting ih.waiting accepted io⟩
  | @dispatch s hrun ev rest hpending r ih =>
      exact ih.handle hrun.inv r (hrun.inv.handed (by rw [hpending]; exact List.mem_cons_self)) rest
  | @other s hrun r ev hother ih => exact ih.handle hrun.inv r hother.handed s.pending

/-- **What a node holds for others is bounded.** In every run, between any two steps of its threads: at most 10000 pending
transactions, 500000 blocks of a candidate chain and 65 cached bodies, and for each peer fewer bytes than the longest
frame has. -/
theorem holdings_bounded (h : SyncRun s) :
    s.app.pool.size ≤ 10000 ∧ s.app.cand.length ≤ 500000 ∧ s.app.workCache.size ≤ 65 ∧
      ∀ (id : Int) (p : Peer), s.app.p2p.peers[id]? = some p → p.dead = false ∧ p.inbuf.length < 5 + maxFrame := by
  obtain ⟨hpool, hcache, hwaiting⟩ := h.within
  refine ⟨hpool.wf.size, h.inv.well.cand_le, hcache, fun id p hp => ?_⟩
  obtain ⟨hlive, hincomplete⟩ := hwaiting id p hp
  exact ⟨hlive, length_of_incomplete hincomplete⟩

end

section
local instance holdingsCrypto : Crypto := syncCrypto

/-- A node that waits for a peer. -/
theorem holdings_bounded_greeted :
    syncingNode.app.pool.size ≤ 10000 ∧ syncingNode.app.cand.length ≤ 500000 ∧ syncingNode.app.workCache.size ≤ 65 ∧
      ∀ (id : Int) (p : Peer), syncingNode.app.p2p.peers[id]? = some p → p.dead = false ∧ p.inbuf.length < 5 + maxFrame :=
  holdings_bounded syncingNode_run

end

end Chainlite
