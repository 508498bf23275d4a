import Chainlite.BaseOrderedMap
import Chainlite.NetLinks

/-! The network thread. A turn of `P2P::loop` dials the targets that are missing, waits, accepts connections, serves
every peer as its socket allows and erases the peers that are dead. The messages of the peers are handed on first, in the
order of the table, then one event for each ready peer that is gone. What the sockets do is any input. -/

open Std

namespace Chainlite

/-- What the socket of a peer does in one turn: the flags that `select` sets, the outcome of a pending connection, the
pieces that `recv` returns and whether the stream ends or fails behind them, and the number of bytes that `send` takes,
none when it fails. -/
structure Sockets where
  failed : Bool := false
  readable : Bool := false
  writable : Bool := false
  connectError : Bool := false
  chunks : List Bytes := []
  closed : Bool := false
  sent : Option Nat := some 0

/-- How an attempt to connect ends: with nothing, with a connection that is pending, or with one that is made at once. -/
inductive Attempt where
  | refused
  | pending
  | made

/-- The state of the network thread: the table of peers, the next id, and the peers whose connection is pending. -/
structure NetThread where
  p2p : P2P
  nextId : Int := 1
  connecting : Int → Bool := fun _ => false

/-- What serving a peer gives: its entry, whether its connection is still pending, and its events. -/
structure Served where
  peer : Peer
  connecting : Bool
  evs : List Ev

namespace NetThread

/-! ### New peers -/

def add (t : NetThread) (p : Peer) (connecting : Bool) : NetThread where
  p2p := { t.p2p with peers := t.p2p.peers.insert t.nextId p }
  nextId := t.nextId + 1
  connecting := fun id => if id = t.nextId then connecting else t.connecting id

def haveTarget (t : NetThread) (target : String) : Bool :=
  t.p2p.peers.toList.any fun e => e.2.target == target && !e.2.dead

/-- One target of `try_connect_targets`, with what comes of the attempt. -/
def tryConnect (t : NetThread) (dialed : String × Attempt) : NetThread :=
  if t.haveTarget dialed.1 then t
  else if ':' ∉ dialed.1.toList then t
  else
    match dialed.2 with
    | .refused => t
    | .pending => t.add { target := dialed.1 } true
    | .made => t.add (queueHello t.p2p { target := dialed.1 }) false

def tryConnectTargets (t : NetThread) (targets : List (String × Attempt)) : NetThread := targets.foldl tryConnect t

/-- The connections that the listener has accepted. -/
def accept (t : NetThread) : Nat → NetThread
  | 0 => t
  | n + 1 => (t.add (queueHello t.p2p {}) false).accept n

end NetThread

/-! ### One peer -/

/-- The loop around `recv`: the pieces are appended until there are too many bytes or the stream ends. -/
def recvAll (closed : Bool) : Peer → List Bytes → Peer
  | p, [] => if closed then { p with dead := true } else p
  | p, chunk :: rest =>
      let p := { p with inbuf := p.inbuf ++ chunk }
      if maxInbuf < p.inbuf.length then { p with dead := true } else recvAll closed p rest

def sendSome (sent : Option Nat) (p : Peer) : Peer :=
  match sent with
  | none => { p with dead := true }
  | some n => { p with outbuf := p.outbuf.drop n }

/-- A readable socket: everything is received, then parsed once. -/
def recvAndParse (net : P2P) (id : Int) (io : Sockets) (p : Peer) : Peer × List Ev :=
  if io.readable then
    let p := recvAll io.closed p io.chunks
    if p.dead then (p, []) else parseFrames net id p
  else (p, [])

def servePeer (net : P2P) (id : Int) (connecting : Bool) (io : Sockets) (p : Peer) : Served :=
  if p.dead then ⟨p, connecting, []⟩
  else if connecting then
    if io.failed then ⟨{ p with dead := true }, connecting, []⟩
    else if io.writable then
      if io.connectError then ⟨{ p with dead := true }, connecting, []⟩ else ⟨queueHello net p, false, []⟩
    else ⟨p, connecting, []⟩
  else
    let (p, evs) := recvAndParse net id io p
    if !p.dead && p.outbuf != [] && io.writable then ⟨sendSome io.sent p, connecting, evs⟩ else ⟨p, connecting, evs⟩

/-! ### The turn -/

namespace NetThread

def served (io : Int → Sockets) (t : NetThread) (id : Int) (p : Peer) : Served :=
  servePeer t.p2p id (t.connecting id) (io id) p

def serveAll (io : Int → Sockets) (t : NetThread) : NetThread × List Ev :=
  ({ t with
      p2p := { t.p2p with peers := t.p2p.peers.map fun id p => (t.served io id p).peer }
      connecting := fun id =>
        match t.p2p.peers[id]? with
        | none => t.connecting id
        | some p => (t.served io id p).connecting },
    t.p2p.peers.toList.flatMap fun e => (t.served io e.1 e.2).evs)

def eraseDead (t : NetThread) : NetThread × List Ev :=
  ({ t with p2p := { t.p2p with peers := t.p2p.peers.filter fun _ p => !p.dead } },
    (t.p2p.peers.toList.filter fun e => e.2.dead && e.2.ready).map fun e => .gone e.1)

/-- The part of a turn behind `select`. -/
def turn (accepted : Nat) (io : Int → Sockets) (t : NetThread) : NetThread × List Ev :=
  let (t, evs) := (t.accept accepted).serveAll io
  let (t, gone) := t.eraseDead
  (t, evs ++ gone)

end NetThread

/-! ### What serving keeps -/

def Ev.peer : Ev → Int
  | .ready peer => peer
  | .msg peer _ _ => peer
  | .gone peer => peer

/-- What serving a peer does: it stays ready once it is, and its events name it. -/
structure Serves (id : Int) (p q : Peer) (evs : List Ev) : Prop where
  ready : p.ready = true → q.ready = true
  named : ∀ ev ∈ evs, ev.peer = id

theorem Serves.quiet (id : Int) {p q : Peer} (h : q.ready = p.ready) : Serves id p q [] :=
  ⟨fun hready => h.trans hready, fun _ hev => absurd hev List.not_mem_nil⟩

theorem Serves.trans {id : Int} {p q s : Peer} {evs evs' : List Ev} (h : Serves id p q evs) (h' : Serves id q s evs') :
    Serves id p s (evs ++ evs') := by
  refine ⟨fun hready => h'.ready (h.ready hready), fun ev hev => ?_⟩
  rcases List.mem_append.mp hev with hev | hev
  · exact h.named ev hev
  · exact h'.named ev hev

section
variable (net : P2P) (id : Int)

theorem onFrame_serves (p : Peer) (type : UInt8) (payload : Bytes) :
    Serves id p (onFrame net id p type payload).1 (onFrame net id p type payload).2 := by
  unfold onFrame onHello onTip
  split_ifs
  · split
    · exact .quiet id rfl
    · dsimp only
      split_ifs
      · exact .quiet id rfl
      · exact .quiet id rfl
      · exact .quiet id rfl
      · exact ⟨fun _ => rfl, fun ev hev => by rw [List.mem_singleton.mp hev]; rfl⟩
  · split
    · exact .quiet id rfl
    · dsimp only
      split
      · exact .quiet id rfl
      · split
        · exact .quiet id rfl
        · exact ⟨fun hready => hready, fun ev hev => by rw [List.mem_singleton.mp hev]; rfl⟩
  · exact ⟨fun hready => hready, fun ev hev => by rw [List.mem_singleton.mp hev]; rfl⟩

theorem parseFrames_serves (p : Peer) : Serves id p (parseFrames net id p).1 (parseFrames net id p).2 := by
  induction p using parseFrames_induct net id with
  | incomplete p hframe =>
      rw [parseFrames_incomplete net id hframe]
      exact .quiet id rfl
  | tooBig p hframe =>
      rw [parseFrames_tooBig net id hframe]
      exact .quiet id rfl
  | whole p type payload rest hframe hbuf ih =>
      have hfirst : Serves id p (onFrame net id (p.withInbuf rest) type payload).1
          (onFrame net id (p.withInbuf rest) type payload).2 := by
        obtain ⟨hready, hnamed⟩ := onFrame_serves net id (p.withInbuf rest) type payload
        exact ⟨hready, hnamed⟩
      rw [parseFrames_whole net id hframe]
      generalize onFrame net id (p.withInbuf rest) type payload = r at hfirst ih
      dsimp only
      split
      · exact hfirst
      · exact hfirst.trans ih

theorem ready_recvAll (closed : Bool) (chunks : List Bytes) (p : Peer) :
    (recvAll closed p chunks).ready = p.ready := by
  induction chunks generalizing p with
  | nil =>
      rw [recvAll]
      split <;> rfl
  | cons chunk rest ih =>
      rw [recvAll]
      dsimp only
      split
      · rfl
      · exact ih _

theorem recvAndParse_serves (io : Sockets) (p : Peer) :
    Serves id p (recvAndParse net id io p).1 (recvAndParse net id io p).2 := by
  have hrecv := ready_recvAll io.closed io.chunks p
  unfold recvAndParse
  split_ifs with hreadable
  · dsimp only
    split
    · exact .quiet id hrecv
    · exact (Serves.quiet id hrecv).trans (parseFrames_serves net id _)
  · exact .quiet id rfl

theorem servePeer_serves (connecting : Bool) (io : Sockets) (p : Peer) :
    Serves id p (servePeer net id connecting io p).peer (servePeer net id connecting io p).evs := by
  unfold servePeer
  split_ifs
  · exact .quiet id rfl
  · exact .quiet id rfl
  · exact .quiet id rfl
  · exact .quiet id rfl
  · exact .quiet id rfl
  · have hrecv := recvAndParse_serves net id io p
    generalize recvAndParse net id io p = r at hrecv
    dsimp only
    split
    · have hsend : (sendSome io.sent r.1).ready = r.1.ready := by
        unfold sendSome
        split <;> rfl
      exact ⟨fun hready => hsend.trans (hrecv.ready hready), hrecv.named⟩
    · exact hrecv

end

/-! ### What a turn keeps -/

/-- Ids are positive and the next one is new. -/
structure NetThread.Fresh (t : NetThread) : Prop where
  next : 1 ≤ t.nextId
  keys : ∀ id p, t.p2p.peers[id]? = some p → 1 ≤ id ∧ id < t.nextId

/-- The peer is in the table and ready. -/
def P2P.IsReady (net : P2P) (id : Int) : Prop := ∃ p, net.peers[id]? = some p ∧ p.ready = true

/-- Nothing in the table is lost, and no id used again. -/
structure NetThread.Grown (t t' : NetThread) : Prop where
  fresh : t'.Fresh
  ready : ∀ id, t.p2p.IsReady id → t'.p2p.IsReady id

namespace NetThread

variable {t t' t'' : NetThread}

theorem Grown.refl (h : t.Fresh) : t.Grown t := ⟨h, fun _ hready => hready⟩

theorem Grown.trans (h : t.Grown t') (h' : t'.Grown t'') : t.Grown t'' :=
  ⟨h'.fresh, fun id hready => h'.ready id (h.ready id hready)⟩

theorem Fresh.add (h : t.Fresh) (p : Peer) (connecting : Bool) : t.Grown (t.add p connecting) := by
  constructor
  · have hnext := h.next
    refine ⟨by show 1 ≤ t.nextId + 1; omega, fun id q hq => ?_⟩
    have hq : (t.p2p.peers.insert t.nextId p)[id]? = some q := hq
    show 1 ≤ id ∧ id < t.nextId + 1
    rw [OrderedMap.getElem?_insert_eq] at hq
    split at hq
    · omega
    · have hkey := h.keys id q hq
      omega
  · rintro id ⟨q, hq, hready⟩
    have hkey := h.keys id q hq
    refine ⟨q, ?_, hready⟩
    show (t.p2p.peers.insert t.nextId p)[id]? = some q
    rw [OrderedMap.getElem?_insert_eq, if_neg (by omega)]
    exact hq

theorem Fresh.tryConnect (h : t.Fresh) (dialed : String × Attempt) : t.Grown (t.tryConnect dialed) := by
  unfold NetThread.tryConnect
  split_ifs
  · exact .refl h
  · split
    · exact .refl h
    · exact h.add _ _
    · exact h.add _ _
  · exact .refl h

theorem Fresh.tryConnectTargets (h : t.Fresh) (targets : List (String × Attempt)) :
    t.Grown (t.tryConnectTargets targets) := by
  induction targets generalizing t with
  | nil => exact .refl h
  | cons dialed rest ih =>
      have hfirst := h.tryConnect dialed
      exact hfirst.trans (ih hfirst.fresh)

theorem Fresh.accept (h : t.Fresh) (n : Nat) : t.Grown (t.accept n) := by
  induction n generalizing t with
  | zero => exact .refl h
  | succ n ih =>
      have hfirst := h.add (queueHello t.p2p {}) false
      exact hfirst.trans (ih hfirst.fresh)

variable (io : Int → Sockets)

theorem getElem?_serveAll (t : NetThread) (id : Int) :
    (t.serveAll io).1.p2p.peers[id]? = t.p2p.peers[id]?.map fun p => (t.served io id p).peer :=
  ExtTreeMap.getElem?_map

theorem Fresh.serveAll (h : t.Fresh) :
    t.Grown (t.serveAll io).1 ∧ ∀ ev ∈ (t.serveAll io).2, 1 ≤ ev.peer := by
  refine ⟨⟨⟨h.next, fun id q hq => ?_⟩, ?_⟩, fun ev hev => ?_⟩
  · rw [getElem?_serveAll] at hq
    obtain ⟨p, hp, -⟩ := Option.map_eq_some_iff.mp hq
    exact h.keys id p hp
  · rintro id ⟨p, hp, hready⟩
    refine ⟨(t.served io id p).peer, ?_, (servePeer_serves t.p2p id _ _ p).ready hready⟩
    rw [getElem?_serveAll, hp]
    rfl
  · obtain ⟨e, he, hev⟩ := List.mem_flatMap.mp hev
    have hp : t.p2p.peers[e.1]? = some e.2 := ExtTreeMap.mem_toList_iff_getElem?_eq_some.mp he
    rw [(servePeer_serves t.p2p e.1 _ _ e.2).named ev hev]
    exact (h.keys e.1 e.2 hp).1

/-- A ready peer stays, or its end is among the events. -/
theorem Fresh.eraseDead (h : t.Fresh) :
    t.eraseDead.1.Fresh ∧ (∀ ev ∈ t.eraseDead.2, 1 ≤ ev.peer) ∧
      ∀ id, t.p2p.IsReady id → t.eraseDead.1.p2p.IsReady id ∨ Ev.gone id ∈ t.eraseDead.2 := by
  have hget : ∀ id, t.eraseDead.1.p2p.peers[id]? = t.p2p.peers[id]?.filter fun p : Peer => !p.dead :=
    fun id => ExtTreeMap.getElem?_filter'
  refine ⟨⟨h.next, fun id q hq => ?_⟩, fun ev hev => ?_, ?_⟩
  · rw [hget] at hq
    exact h.keys id q (Option.filter_eq_some_iff.mp hq).1
  · obtain ⟨e, he, rfl⟩ := List.mem_map.mp hev
    have hp := ExtTreeMap.mem_toList_iff_getElem?_eq_some.mp (List.mem_filter.mp he).1
    exact (h.keys e.1 e.2 hp).1
  · rintro id ⟨p, hp, hready⟩
    cases hdead : p.dead with
    | false =>
        refine Or.inl ⟨p, ?_, hready⟩
        rw [hget, hp]
        exact Option.filter_eq_some_iff.mpr ⟨rfl, by rw [hdead]; rfl⟩
    | true =>
        have hmem := ExtTreeMap.mem_toList_iff_getElem?_eq_some.mpr hp
        refine Or.inr (List.mem_map.mpr ⟨(id, p), List.mem_filter.mpr ⟨hmem, ?_⟩, rfl⟩)
        rw [hdead, hready]
        rfl

/-- **One turn.** Ids stay positive and new, the events name peers of the table, and a peer that was ready still is, or
an event says that it is gone. -/
theorem Fresh.turn (h : t.Fresh) (accepted : Nat) :
    (t.turn accepted io).1.Fresh ∧ (∀ ev ∈ (t.turn accepted io).2, 1 ≤ ev.peer) ∧
      ∀ id, t.p2p.IsReady id → (t.turn accepted io).1.p2p.IsReady id ∨ Ev.gone id ∈ (t.turn accepted io).2 := by
  have haccept := h.accept accepted
  obtain ⟨hserve, hserved⟩ := haccept.fresh.serveAll io
  obtain ⟨hfresh, hgone, hkept⟩ := hserve.fresh.eraseDead
  refine ⟨hfresh, fun ev hev => ?_, fun id hready => ?_⟩
  · rcases List.mem_append.mp hev with hev | hev
    · exact hserved ev hev
    · exact hgone ev hev
  · rcases hkept id (hserve.ready id (haccept.ready id hready)) with hready | hend
    · exact Or.inl hready
    · exact Or.inr (List.mem_append_right _ hend)

end NetThread

end Chainlite
