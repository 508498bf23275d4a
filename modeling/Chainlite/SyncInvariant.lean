import Chainlite.NetLoop
import Chainlite.NodeRun

/-! The sync machine over whole runs. The network thread fills a batch of events in each turn and handles them one after
another; timers, requests and the miner act at any time in between. Every event leaves the machine as it is, resets it,
starts a session with one request, or answers one reply with one request. So a node that waits for a peer has asked it
once more than it has heard, and when the batch is done the peer is there. -/

open Std

namespace Chainlite

/-! ### The machine -/

/-- The fields of the sync machine. -/
structure SyncFields where
  peer : Int
  mode : SyncMode
  extendGot : UInt64
  cand : List Block

def App.sync (a : App) : SyncFields :=
  { peer := a.syncPeer, mode := a.syncMode, extendGot := a.syncExtendGot, cand := a.cand }

def SyncFields.idle : SyncFields := { peer := -1, mode := .idle, extendGot := 0, cand := [] }

/-- What holds between events. -/
structure SyncFields.WellFormed (s : SyncFields) : Prop where
  waits : s.peer = -1 ↔ s.mode = .idle
  idle : s.mode = .idle → s.cand = [] ∧ s.extendGot = 0
  extend : s.mode = .extend → s.cand = []
  full : s.mode = .full → s.extendGot = 0 ∧ s.cand.length ≤ maxCand

theorem SyncFields.idle_wellFormed : SyncFields.idle.WellFormed :=
  ⟨iff_of_true rfl rfl, fun _ => ⟨rfl, rfl⟩, by rintro ⟨⟩, by rintro ⟨⟩⟩

/-- The GET_BLOCKS among the calls. -/
def requestsIn (calls : List NetCall) : Nat :=
  calls.countP fun
    | .sendTo _ type _ => type == mGetBlocks
    | .broadcast _ _ _ => false

/-- The BLOCKS replies that the event makes `handle_blocks` take for the session: one from the sync peer that can be
read, or none. -/
def repliesIn (a : App) : Event → Nat
  | .msg peer type payload =>
      if type = mBlocks ∧ peer = a.syncPeer then
        match App.readBlocks payload with
        | .ok (some _, _) => 1
        | _ => 0
      else 0
  | _ => 0

section
variable [Crypto]

/-- What one event does to the machine, `n` being the replies in it. The table of peers is left to the network. -/
inductive SyncStep (a : App) (n : Nat) (out : App × List NetCall) : Prop
  | same (hp2p : out.1.p2p = a.p2p) (hsync : out.1.sync = a.sync) (hnone : requestsIn out.2 = 0) (hn : n = 0)
  | reset (hp2p : out.1.p2p = a.p2p) (hsync : out.1.sync = .idle)
  | started (peer : Int) (hp2p : out.1.p2p = a.p2p) (hidle : a.syncPeer = -1) (hpeer : peer ≠ -1)
      (hready : a.p2p.IsReady peer)
      (hsync : out.1.sync = { peer := peer, mode := .extend, extendGot := 0, cand := [] })
      (hone : requestsIn out.2 = 1)
  | asked (hp2p : out.1.p2p = a.p2p) (hpeer : out.1.syncPeer = a.syncPeer) (hwell : out.1.sync.WellFormed)
      (hone : requestsIn out.2 = 1) (hn : n = 1)

omit [Crypto] in
theorem SyncStep.of_eq {a a' : App} {n : Nat} {out : App × List NetCall} (h : SyncStep a n out)
    (hp2p : a.p2p = a'.p2p) (hsync : a.sync = a'.sync) : SyncStep a' n out := by
  have hpeer : a.syncPeer = a'.syncPeer := congrArg SyncFields.peer hsync
  cases h with
  | same hnet hsame hnone hn => exact .same (hnet.trans hp2p) (hsame.trans hsync) hnone hn
  | reset hnet hreset => exact .reset (hnet.trans hp2p) hreset
  | started peer hnet hidle hne hready hstarted hone =>
      exact .started peer (hnet.trans hp2p) (hpeer.symm.trans hidle) hne (hp2p ▸ hready) hstarted hone
  | asked hnet hasked hwell hone hn => exact .asked (hnet.trans hp2p) (hasked.trans hpeer) hwell hone hn

omit [Crypto] in
theorem SyncStep.p2p_eq {a : App} {n : Nat} {out : App × List NetCall} (h : SyncStep a n out) : out.1.p2p = a.p2p := by
  cases h with
  | same hp2p => exact hp2p
  | reset hp2p => exact hp2p
  | started _ hp2p => exact hp2p
  | asked hp2p => exact hp2p

omit [Crypto] in
theorem SyncStep.wellFormed {a : App} {n : Nat} {out : App × List NetCall} (h : SyncStep a n out)
    (hwell : a.sync.WellFormed) : out.1.sync.WellFormed := by
  cases h with
  | same _ hsync =>
      rw [hsync]
      exact hwell
  | reset _ hsync =>
      rw [hsync]
      exact SyncFields.idle_wellFormed
  | started peer _ _ hne _ hsync =>
      rw [hsync]
      exact ⟨iff_of_false hne (by rintro ⟨⟩), (by rintro ⟨⟩), fun _ => rfl, (by rintro ⟨⟩)⟩
  | asked _ _ hwell => exact hwell

omit [Crypto] in
/-- Afterwards the machine waits for nobody, for the same peer, or for one that is ready. -/
theorem SyncStep.awaits {a : App} {n : Nat} {out : App × List NetCall} (h : SyncStep a n out) :
    out.1.syncPeer = -1 ∨ out.1.syncPeer = a.syncPeer ∨ a.p2p.IsReady out.1.syncPeer := by
  cases h with
  | same _ hsync => exact Or.inr (Or.inl (congrArg SyncFields.peer hsync))
  | reset _ hsync => exact Or.inl (congrArg SyncFields.peer hsync)
  | started peer _ _ _ hready hsync =>
      have hnew : out.1.syncPeer = peer := congrArg SyncFields.peer hsync
      exact Or.inr (Or.inr (hnew ▸ hready))
  | asked _ hsame => exact Or.inr (Or.inl hsame)

omit [Crypto] in
theorem P2P.peerTip_isReady {net : P2P} {id : Int} {tip : UInt64 × UInt64 × H256} (h : net.peerTip id = some tip) :
    net.IsReady id := by
  unfold P2P.peerTip at h
  split at h
  · cases h
  · rename_i p hp
    split at h
    · rename_i hready
      exact ⟨p, hp, hready⟩
    · cases h

namespace App

variable {r : Readings} {a : App}

omit [Crypto] in
theorem maybeSync_sync (ms : UInt64) {peer : Int} (hpeer : peer ≠ -1) : SyncStep a 0 (a.maybeSync ms peer) := by
  rcases maybeSync_cases ms a peer with hsame | ⟨hidle, ⟨_, htip⟩, hstarted⟩
  · rw [hsame]
    exact .same rfl rfl rfl rfl
  · rw [hstarted]
    exact .started peer rfl hidle hpeer (P2P.peerTip_isReady htip) rfl rfl

/-- `sync_mode == 1`: of its five ways out one switches to the other mode, one goes on, and three reset. -/
theorem extendBlocks_sync (hwell : a.sync.WellFormed) (hmode : a.syncMode = .extend) (peer : Int) (v : List Block) :
    SyncStep a 1 (a.extendBlocks r peer v) := by
  have hwaits : a.syncPeer ≠ -1 := fun hidle => by
    have hidle : a.syncMode = .idle := hwell.waits.mp hidle
    rw [hmode] at hidle
    cases hidle
  have hcand : a.cand = [] := hwell.extend hmode
  unfold extendBlocks
  rcases Chain.connectAll r.now 0 a.chain v with ⟨c, n, err⟩
  have hp2p : (if 0 < n then postChainChange { a with chain := c } else a).p2p = a.p2p := by
    split <;> rfl
  have hsync : (if 0 < n then postChainChange { a with chain := c } else a).sync = a.sync := by
    split <;> rfl
  dsimp only
  generalize (if 0 < n then postChainChange { a with chain := c } else a) = a₁ at hp2p hsync ⊢
  have hpeer : a₁.syncPeer = a.syncPeer := congrArg SyncFields.peer hsync
  have hmode : a₁.syncMode = .extend := (congrArg SyncFields.mode hsync).trans hmode
  have hgot : a₁.syncExtendGot = a.syncExtendGot := congrArg SyncFields.extendGot hsync
  have hcand : a₁.cand = [] := (congrArg SyncFields.cand hsync).trans hcand
  have hwaits : a₁.syncPeer ≠ -1 := by rwa [hpeer]
  split
  · rename_i hfork
    refine .asked hp2p hpeer ⟨iff_of_false hwaits (by rintro ⟨⟩), (by rintro ⟨⟩), (by rintro ⟨⟩), fun _ => ?_⟩ rfl rfl
    exact ⟨hfork.2.2, Nat.zero_le _⟩
  · split
    · exact .reset hp2p rfl
    · split
      · refine .asked hp2p hpeer ⟨iff_of_false hwaits ?_, fun hidle => ?_, fun _ => hcand, fun hfull => ?_⟩ rfl rfl
        · exact fun hidle => SyncMode.noConfusion (hmode.symm.trans hidle)
        · exact SyncMode.noConfusion (hmode.symm.trans hidle)
        · exact SyncMode.noConfusion (hmode.symm.trans hfull)
      · exact .reset hp2p rfl

/-- `sync_mode == 2`: it goes on while the candidate is short enough, and resets. -/
theorem collectBlocks_sync (hwell : a.sync.WellFormed) (hmode : a.syncMode = .full) (peer : Int) (v : List Block) :
    SyncStep a 1 (a.collectBlocks r peer v) := by
  have hwaits : a.syncPeer ≠ -1 := fun hidle => by
    have hidle : a.syncMode = .idle := hwell.waits.mp hidle
    rw [hmode] at hidle
    cases hidle
  have hgot : a.syncExtendGot = 0 := (hwell.full hmode).1
  unfold collectBlocks
  dsimp only
  split
  · exact .reset rfl rfl
  · rename_i hshort
    split
    · refine .asked rfl rfl ⟨iff_of_false hwaits ?_, fun hidle => ?_, fun hextend => ?_, fun _ => ?_⟩ rfl rfl
      · exact fun hidle => SyncMode.noConfusion (hmode.symm.trans hidle)
      · exact SyncMode.noConfusion (hmode.symm.trans hidle)
      · exact SyncMode.noConfusion (hmode.symm.trans hextend)
      · exact ⟨hgot, Nat.not_lt.mp hshort⟩
    · split <;> exact .reset rfl rfl

theorem handleBlocks_sync (hwell : a.sync.WellFormed) {peer : Int} (hpeer : peer ≠ -1) (v : List Block) :
    SyncStep a (if peer = a.syncPeer then 1 else 0) (a.handleBlocks r peer v) := by
  unfold handleBlocks
  by_cases hsame : peer = a.syncPeer
  · rw [if_pos hsame, if_neg (not_not.mpr hsame)]
    dsimp only
    split
    · rename_i hidle
      exact absurd (hsame.trans (hwell.waits.mpr hidle)) hpeer
    · rename_i hmode
      exact (extendBlocks_sync (a := { a with syncLastMs := r.ms 0 }) hwell hmode peer v).of_eq rfl rfl
    · rename_i hmode
      exact (collectBlocks_sync (a := { a with syncLastMs := r.ms 0 }) hwell hmode peer v).of_eq rfl rfl
  · rw [if_neg hsame, if_pos hsame]
    exact .same rfl rfl rfl rfl

omit [Crypto] in
theorem repliesIn_eq_zero {ev : Event} (h : ∀ v, ¬ev.Replies v) : repliesIn a ev = 0 := by
  unfold repliesIn
  split
  · rename_i peer type payload
    split
    · rename_i hmsg
      split
      · rename_i v rest hread
        exact absurd ⟨peer, payload, rest, by rw [hmsg.1], hread⟩ (h v)
      · rfl
    · rfl
  · rfl

/-- **What one event does to the machine.** -/
theorem handle_sync (hwell : a.sync.WellFormed) {ev : Event} (hnet : ∀ p2p, ev ≠ .net p2p)
    (hpeer : ∀ peer type payload, ev = .msg peer type payload → peer ≠ -1) :
    SyncStep a (repliesIn a ev) (a.handle r ev) := by
  have hhandled := handled r a ev
  generalize a.handle r ev = out at hhandled ⊢
  cases hhandled with
  | ignored _ hev => exact .same rfl rfl rfl (repliesIn_eq_zero hev)
  | net p2p hev => exact absurd hev (hnet p2p)
  | greeted peer hev => exact .same rfl rfl rfl (by rw [hev]; rfl)
  | announced hev => exact .same rfl rfl rfl (by rw [hev]; rfl)
  | served peer reply hev => exact .same rfl rfl rfl (repliesIn_eq_zero hev)
  | ended => exact .reset rfl rfl
  | @asked peer type payload hev htype =>
      have hn : repliesIn a ev = 0 := by
        rw [hev]
        exact if_neg fun h => htype h.1
      rw [hn]
      exact maybeSync_sync _ (hpeer peer type payload hev)
  | @replied peer payload v rest hev hread =>
      have hn : repliesIn a ev = if peer = a.syncPeer then 1 else 0 := by
        rw [hev]
        simp [repliesIn, hread]
      rw [hn]
      exact handleBlocks_sync hwell (hpeer peer mBlocks payload hev) v
  | pooled _ _ _ _ hev => exact .same rfl rfl rfl (repliesIn_eq_zero hev)
  | connected _ _ _ _ hev => exact .same rfl rfl rfl (repliesIn_eq_zero hev)
  | handedOut payto hev => exact .same rfl rfl rfl (repliesIn_eq_zero hev)
  | job hev => exact .same rfl rfl rfl (repliesIn_eq_zero hev)

end App

/-! ### Calls to the network -/

omit [Crypto] in
/-- A call only queues bytes: the table keeps its ids, and each of its peers what it is. -/
theorem P2P.getElem?_perform {α : Type} {f : Peer → α} (hf : ∀ p out, f { p with outbuf := out } = f p) (net : P2P)
    (call : NetCall) (id : Int) : (net.perform call).peers[id]?.map f = net.peers[id]?.map f := by
  cases call with
  | sendTo peer type payload =>
      show (net.sendTo peer type payload).peers[id]?.map f = _
      unfold P2P.sendTo
      split
      · rfl
      · rename_i p hp
        split
        · rfl
        · dsimp only
          rw [OrderedMap.getElem?_insert_eq]
          split
          · rename_i heq
            rw [← heq, hp]
            exact congrArg some (hf p _)
          · rfl
  | broadcast type payload except =>
      show (net.broadcast type payload except).peers[id]?.map f = _
      rw [P2P.broadcast, ExtTreeMap.getElem?_map, Option.map_map]
      congr 1
      funext p
      dsimp only [Function.comp_apply]
      split
      · exact hf p _
      · rfl

omit [Crypto] in
theorem P2P.getElem?_performAll {α : Type} {f : Peer → α} (hf : ∀ p out, f { p with outbuf := out } = f p) (net : P2P)
    (calls : List NetCall) (id : Int) : (calls.foldl P2P.perform net).peers[id]?.map f = net.peers[id]?.map f := by
  induction calls generalizing net with
  | nil => rfl
  | cons call rest ih => exact (ih (net.perform call)).trans (net.getElem?_perform hf call id)

omit [Crypto] in
theorem P2P.isReady_performAll (net : P2P) (calls : List NetCall) {id : Int} (h : net.IsReady id) :
    (calls.foldl P2P.perform net).IsReady id := by
  obtain ⟨p, hp, hready⟩ := h
  have hmap := net.getElem?_performAll (f := Peer.ready) (fun _ _ => rfl) calls id
  rw [hp] at hmap
  obtain ⟨q, hq, heq⟩ := Option.map_eq_some_iff.mp hmap
  exact ⟨q, hq, heq.trans hready⟩

omit [Crypto] in
theorem NetThread.Fresh.performAll {t : NetThread} (h : t.Fresh) (calls : List NetCall) :
    NetThread.Fresh { t with p2p := calls.foldl P2P.perform t.p2p } := by
  refine ⟨h.next, fun id q hq => ?_⟩
  have hmap := t.p2p.getElem?_performAll (f := Peer.ready) (fun _ _ => rfl) calls id
  have hq : (calls.foldl P2P.perform t.p2p).peers[id]? = some q := hq
  rw [hq] at hmap
  obtain ⟨p, hp, -⟩ := Option.map_eq_some_iff.mp hmap.symm
  exact h.keys id p hp

/-! ### Runs -/

/-- The requests and the replies of the current session. -/
structure Session where
  requests : Nat := 0
  replies : Nat := 0

/-- A session starts with the first request that is made while there is no peer. -/
def Session.count (session : Session) (a : App) (n : Nat) (calls : List NetCall) : Session :=
  if a.syncPeer = -1 then { requests := requestsIn calls, replies := 0 }
  else { requests := session.requests + requestsIn calls, replies := session.replies + n }

omit [Crypto] in
/-- A session that is going on has asked once more than it has heard. -/
theorem SyncStep.counted {a : App} {n : Nat} {out : App × List NetCall} (h : SyncStep a n out) {session : Session}
    (hcounted : a.syncPeer ≠ -1 → session.requests = session.replies + 1) (hwaits : out.1.syncPeer ≠ -1) :
    (session.count a n out.2).requests = (session.count a n out.2).replies + 1 := by
  cases h with
  | same _ hsync hnone hn =>
      have hbefore : a.syncPeer ≠ -1 := fun hidle => hwaits ((congrArg SyncFields.peer hsync).trans hidle)
      rw [Session.count, if_neg hbefore, hnone, hn]
      exact hcounted hbefore
  | reset _ hsync => exact absurd (congrArg SyncFields.peer hsync) hwaits
  | started _ _ hidle _ _ _ hone => rw [Session.count, if_pos hidle, hone]
  | asked _ hsame _ hone hn =>
      have hbefore : a.syncPeer ≠ -1 := hsame ▸ hwaits
      rw [Session.count, if_neg hbefore, hone, hn]
      exact congrArg (· + 1) (hcounted hbefore)

/-- A node with its network thread: what the thread keeps beside the table of peers, and the events of the batch that
are still to be handled. -/
structure Syncing where
  app : App
  nextId : Int := 1
  connecting : Int → Bool := fun _ => false
  pending : List Ev := []
  session : Session := {}

def Ev.toEvent : Ev → Event
  | .ready peer => .ready peer
  | .msg peer type payload => .msg peer type payload
  | .gone peer => .gone peer

/-- An event of a timer, of a request or of the miner. -/
def Event.Other : Event → Prop
  | .net _ => False
  | .ready _ => False
  | .gone _ => False
  | .msg _ _ _ => False
  | _ => True

namespace Syncing

def thread (s : Syncing) : NetThread := { p2p := s.app.p2p, nextId := s.nextId, connecting := s.connecting }

def withThread (s : Syncing) (t : NetThread) : Syncing :=
  { s with app := { s.app with p2p := t.p2p }, nextId := t.nextId, connecting := t.connecting }

/-- One event, with its requests and replies counted. -/
def handle (s : Syncing) (r : Readings) (ev : Event) : Syncing :=
  { s with
    app := s.app.step r ev
    session := s.session.count s.app (repliesIn s.app ev) (s.app.handle r ev).2 }

end Syncing

/-- The runs of a node on any chain, with any settings and peers. The network thread dials, goes through a turn and handles
the events of the turn in their order before it dials again; the other threads act between any two steps. -/
inductive SyncRun : Syncing → Prop
  | start (p : Params) (c : Chain) (minerAddr : Addr20) (mineOn : Bool) (heartbeat : UInt64) (netId : UInt32)
      (listenPort : UInt16) : SyncRun { app :=
        { App.start p c minerAddr mineOn heartbeat with p2p := { netId := netId, listenPort := listenPort } } }
  | dial {s : Syncing} (h : SyncRun s) (hdone : s.pending = []) (targets : List (String × Attempt)) :
      SyncRun (s.withThread (s.thread.tryConnectTargets targets))
  | turn {s : Syncing} (h : SyncRun s) (hdone : s.pending = []) (accepted : Nat) (io : Int → Sockets) :
      SyncRun { s.withThread (s.thread.turn accepted io).1 with pending := (s.thread.turn accepted io).2 }
  | dispatch {s : Syncing} (h : SyncRun s) {ev : Ev} {rest : List Ev} (hpending : s.pending = ev :: rest)
      (r : Readings) : SyncRun ({ s with pending := rest }.handle r ev.toEvent)
  | other {s : Syncing} (h : SyncRun s) (r : Readings) {ev : Event} (hother : ev.Other) : SyncRun (s.handle r ev)

/-! ### The invariant -/

/-- What holds between events. A peer that is waited for is in the table and ready, or its end is still to be handled. -/
structure SyncInv (s : Syncing) : Prop where
  well : s.app.sync.WellFormed
  fresh : s.thread.Fresh
  named : ∀ ev ∈ s.pending, 1 ≤ ev.peer
  counted : s.app.syncPeer ≠ -1 → s.session.requests = s.session.replies + 1
  awaited : s.app.syncPeer ≠ -1 → s.app.p2p.IsReady s.app.syncPeer ∨ Ev.gone s.app.syncPeer ∈ s.pending

variable {s : Syncing}

/-- The end of the sync peer resets the machine. -/
theorem App.step_gone (r : Readings) (a : App) : (a.step r (.gone a.syncPeer)).syncPeer = -1 := by
  show (a.onGone a.syncPeer).1.syncPeer = -1
  rw [App.onGone, if_pos rfl]
  rfl

/-- The events of a run: none puts a table in place of another, and the messages are of peers. -/
structure Event.Handed (ev : Event) : Prop where
  net : ∀ p2p, ev ≠ .net p2p
  peer : ∀ peer type payload, ev = .msg peer type payload → peer ≠ -1

omit [Crypto] in
theorem Event.Other.handed {ev : Event} (h : ev.Other) : ev.Handed := by
  constructor
  · rintro p2p rfl
    exact h
  · rintro peer type payload rfl
    exact absurd h id

omit [Crypto] in
theorem SyncInv.handed (h : SyncInv s) {ev : Ev} (hev : ev ∈ s.pending) : ev.toEvent.Handed := by
  have hnamed : 1 ≤ ev.peer := h.named ev hev
  constructor
  · cases ev <;> exact fun _ heq => by cases heq
  · intro peer type payload heq
    cases ev with
    | ready => cases heq
    | gone => cases heq
    | msg =>
        cases heq
        exact fun hminus => absurd (hminus ▸ hnamed : (1 : Int) ≤ -1) (by decide)

/-- An event changes the table by its calls. -/
theorem SyncInv.step_p2p (h : SyncInv s) (r : Readings) {ev : Event} (hev : ev.Handed) :
    (s.app.step r ev).p2p = (s.app.handle r ev).2.foldl P2P.perform s.app.p2p := by
  rw [← (App.handle_sync (r := r) h.well hev.net hev.peer).p2p_eq]
  rfl

/-- **One event**, `rest` being left of the batch. -/
theorem SyncInv.handle (h : SyncInv s) (r : Readings) {ev : Event} (hev : ev.Handed) {rest : List Ev}
    (hrest : ∀ e ∈ rest, e ∈ s.pending)
    (hgone : ∀ id, Ev.gone id ∈ s.pending → Ev.gone id ∈ rest ∨ ev = .gone id) :
    SyncInv ({ s with pending := rest }.handle r ev) := by
  have hstep := App.handle_sync (r := r) h.well hev.net hev.peer
  have htable := h.step_p2p r hev
  have hfresh : NetThread.Fresh { s.thread with p2p := (s.app.step r ev).p2p } := by
    rw [htable]
    exact h.fresh.performAll (s.app.handle r ev).2
  have hready : ∀ id, s.app.p2p.IsReady id → (s.app.step r ev).p2p.IsReady id := by
    intro id hid
    rw [htable]
    exact P2P.isReady_performAll _ _ hid
  refine ⟨hstep.wellFormed h.well, hfresh, fun e he => h.named e (hrest e he), hstep.counted h.counted, fun hwaits => ?_⟩
  have hwaits : (s.app.step r ev).syncPeer ≠ -1 := hwaits
  show (s.app.step r ev).p2p.IsReady (s.app.step r ev).syncPeer ∨ Ev.gone (s.app.step r ev).syncPeer ∈ rest
  rcases hstep.awaits.resolve_left hwaits with hsame | hthere
  · -- while the machine waits for the same peer, that peer is where it was
    have hsame : (s.app.step r ev).syncPeer = s.app.syncPeer := hsame
    rw [hsame] at hwaits ⊢
    rcases h.awaited hwaits with hthere | hend
    · exact Or.inl (hready _ hthere)
    · rcases hgone _ hend with hend | hev
      · exact Or.inr hend
      · refine absurd (hsame.symm.trans ?_) hwaits
        rw [hev]
        exact App.step_gone r s.app
  · exact Or.inl (hready _ hthere)

omit [Crypto] in
/-- A batch is filled when the one before it is done. -/
theorem SyncInv.turn (h : SyncInv s) (hdone : s.pending = []) (accepted : Nat) (io : Int → Sockets) :
    SyncInv { s.withThread (s.thread.turn accepted io).1 with pending := (s.thread.turn accepted io).2 } := by
  obtain ⟨hfresh, hnamed, hkept⟩ := h.fresh.turn io accepted
  refine ⟨h.well, hfresh, hnamed, h.counted, fun hwaits => ?_⟩
  rcases h.awaited hwaits with hthere | hend
  · exact hkept s.app.syncPeer hthere
  · rw [hdone] at hend
    exact absurd hend List.not_mem_nil

omit [Crypto] in
theorem SyncInv.dial (h : SyncInv s) (targets : List (String × Attempt)) :
    SyncInv (s.withThread (s.thread.tryConnectTargets targets)) := by
  have hgrown := h.fresh.tryConnectTargets targets
  exact ⟨h.well, hgrown.fresh, h.named, h.counted, fun hwaits => (h.awaited hwaits).imp_left (hgrown.ready _)⟩

theorem SyncRun.inv (h : SyncRun s) : SyncInv s := by
  induction h with
  | start =>
      refine ⟨SyncFields.idle_wellFormed, ⟨Int.le_refl 1, fun id p hp => ?_⟩, fun ev hev => ?_, ?_, ?_⟩
      · have hp : (∅ : ExtTreeMap Int Peer)[id]? = some p := hp
        rw [ExtTreeMap.getElem?_empty] at hp
        cases hp
      · exact absurd hev List.not_mem_nil
      · exact fun hwaits => absurd rfl hwaits
      · exact fun hwaits => absurd rfl hwaits
  | dial _ hdone targets ih => exact ih.dial targets
  | turn _ hdone accepted io ih => exact ih.turn hdone accepted io
  | @dispatch s _ ev rest hpending r ih =>
      have hhanded := ih.handed (show ev ∈ s.pending by rw [hpending]; exact List.mem_cons_self)
      refine ih.handle r hhanded (fun e he => by rw [hpending]; exact List.mem_cons_of_mem _ he) fun id hend => ?_
      rw [hpending] at hend
      rcases List.mem_cons.mp hend with heq | hend
      · exact Or.inr (by rw [← heq]; rfl)
      · exact Or.inl hend
  | other _ r hother ih => exact ih.handle r hother.handed (fun _ he => he) fun _ hend => Or.inl hend

/-- **The sync machine never waits on nothing.** In every run, between any two events, the fields of the machine agree, and
while there is a sync peer one request more has been made than replies have been handled. When a batch has been handled,
that peer is in the table and ready. -/
theorem sync_never_waits_on_nothing (h : SyncRun s) :
    (s.app.syncPeer = -1 ↔ s.app.syncMode = .idle) ∧
    (s.app.syncMode = .idle → s.app.cand = [] ∧ s.app.syncExtendGot = 0) ∧
    (s.app.syncMode = .extend → s.app.cand = []) ∧
    (s.app.syncMode = .full → s.app.syncExtendGot = 0 ∧ s.app.cand.length ≤ 500000) ∧
    (s.app.syncPeer ≠ -1 → s.session.requests = s.session.replies + 1) ∧
    (s.pending = [] → s.app.syncPeer ≠ -1 → ∃ p, s.app.p2p.peers[s.app.syncPeer]? = some p ∧ p.ready = true) := by
  obtain ⟨⟨hwaits, hidle, hextend, hfull⟩, -, -, hcounted, hawaited⟩ := h.inv
  refine ⟨hwaits, hidle, hextend, hfull, hcounted, fun hdone hpeer => ?_⟩
  rcases hawaited hpeer with hready | hend
  · exact hready
  · rw [hdone] at hend
    exact absurd hend List.not_mem_nil

end

section
local instance syncCrypto : Crypto := Sha.crypto fun _ _ _ => false

def tipBytes : Bytes := Writer.u64 3 ++ Writer.u64 8 ++ Writer.arr (zeros 32)

/-- A peer greets and announces a tip. -/
def greeting : Int → Sockets := fun _ =>
  { readable := true
    chunks := [frameInto [] mHello (helloPayload { netId := 7, listenPort := 8000 }), frameInto [] mTip tipBytes] }

/-- A node that has accepted a connection. -/
def acceptedNode : Syncing :=
  let s : Syncing := { app :=
    { App.start Chain.easyParams (Chain.fresh Chain.easyParams) (zeros 20) false 0 with
      p2p := { netId := 7, listenPort := 9000 } } }
  { s.withThread (s.thread.turn 1 fun _ => {}).1 with pending := (s.thread.turn 1 fun _ => {}).2 }

/-- It has received the greeting. -/
def greetedNode : Syncing :=
  { acceptedNode.withThread (acceptedNode.thread.turn 0 greeting).1 with
    pending := (acceptedNode.thread.turn 0 greeting).2 }

/-- It has handled the two events of the greeting. -/
def syncingNode : Syncing :=
  { { greetedNode with pending := [.msg 1 mTip tipBytes] }.handle easyReadings (Ev.ready 1).toEvent with
    pending := [] }.handle easyReadings (Ev.msg 1 mTip tipBytes).toEvent

theorem syncingNode_run : SyncRun syncingNode := by
  have haccepted : SyncRun acceptedNode :=
    (SyncRun.start Chain.easyParams (Chain.fresh Chain.easyParams) (zeros 20) false 0 7 9000).turn rfl 1 _
  have hgreeted : SyncRun greetedNode := haccepted.turn (by decide +kernel) 0 greeting
  have hpending : greetedNode.pending = [.ready 1, .msg 1 mTip tipBytes] := by decide +kernel
  exact (hgreeted.dispatch hpending easyReadings).dispatch rfl easyReadings

/-- It waits for the one reply that it has asked for, from a peer that is there. -/
theorem sync_never_waits_on_nothing_greeted :
    syncingNode.session.requests = syncingNode.session.replies + 1 ∧
    ∃ p, syncingNode.app.p2p.peers[(1 : Int)]? = some p ∧ p.ready = true := by
  have hpeer : syncingNode.app.syncPeer = 1 := by decide +kernel
  have hwaits : syncingNode.app.syncPeer ≠ -1 := by
    rw [hpeer]
    decide
  obtain ⟨-, -, -, -, hcounted, hready⟩ := sync_never_waits_on_nothing syncingNode_run
  refine ⟨hcounted hwaits, ?_⟩
  rw [← hpeer]
  exact hready rfl hwaits

end

end Chainlite
