import Chainlite.Block
import Chainlite.NetFraming

/-! Links between nodes. Two nodes that dial each other get two links, and each end decides alone, from its own
port and the one HELLO it receives, whether its link is the one to keep. A system of nodes takes its steps in any
order: nodes dial and accept, bytes travel in pieces, links are lost and dialed again. What an end has decided
depends on the two ports and on who dialed, so the ends of a link between two nodes never disagree. -/

open Std

namespace Chainlite

/-! ### One end -/

def helloPayload (net : P2P) : Bytes := Writer.u32 net.netId ++ Writer.u32 clVersion ++ Writer.u16 net.listenPort

def queueHello (net : P2P) (p : Peer) : Peer := { p with outbuf := frameInto p.outbuf mHello (helloPayload net) }

theorem readHello_helloPayload (net : P2P) : readHello (helloPayload net) = .ok ((net.netId, net.listenPort), []) := by
  have hreads : Wire.Reads readHello (helloPayload net) (net.netId, net.listenPort) := by
    rw [helloPayload, List.append_assoc]
    exact (Reader.u32_reads _).bind ((Reader.u32_reads _).bind ((Reader.u16_reads _).map _))
  have h := hreads []
  rwa [List.append_nil] at h

/-- A message that the node `net` sends: a HELLO is its own, and the length fits its field. -/
structure Sent (net : P2P) (m : UInt8 × Bytes) : Prop where
  size : m.2.length < 2 ^ 32
  hello : m.1 = mHello → m.2 = helloPayload net

/-- What an entry has decided about a node that advertises `port`. -/
structure Decided (net : P2P) (port : UInt16) (p : Peer) : Prop where
  ready : p.ready = true → p.peerPort = port ∧ (p.target ≠ "" ↔ net.listenPort < port)
  dropped : p.dedupDrop = true → ¬(p.target ≠ "" ↔ net.listenPort < port)

/-- What receiving leaves alone. -/
def Peer.SameLine (p q : Peer) : Prop := q.target = p.target ∧ q.outbuf = p.outbuf

section
variable (net other : P2P) (id : Int)

theorem onFrame_sameLine (p : Peer) (type : UInt8) (payload : Bytes) :
    p.SameLine (onFrame net id p type payload).1 := by
  unfold onFrame onHello onTip
  split_ifs
  · split
    · exact ⟨rfl, rfl⟩
    · dsimp only
      split_ifs <;> exact ⟨rfl, rfl⟩
  · split
    · exact ⟨rfl, rfl⟩
    · dsimp only
      split
      · exact ⟨rfl, rfl⟩
      · split <;> exact ⟨rfl, rfl⟩
  · exact ⟨rfl, rfl⟩

/-- A TIP decides nothing. -/
theorem onTip_decided {port : UInt16} {p : Peer} (h : Decided net port p) (payload : Bytes) :
    Decided net port (onTip id p payload).1 := by
  unfold onTip
  split
  · exact ⟨h.ready, h.dropped⟩
  · dsimp only
    split
    · exact ⟨h.ready, h.dropped⟩
    · split <;> exact ⟨h.ready, h.dropped⟩

/-- The HELLO of the other node decides as the two ports say. -/
theorem onHello_decided (hnet : other.netId = net.netId) (hport : other.listenPort ≠ 0) {p : Peer}
    (h : Decided net other.listenPort p) : Decided net other.listenPort (onHello net id p (helloPayload other)).1 := by
  rw [onHello, readHello_helloPayload]
  dsimp only
  rw [if_neg (not_not.mpr hnet)]
  by_cases hkeep : net.listenPort < other.listenPort ↔ p.target ≠ ""
  · rw [if_neg fun hdrop => hdrop.2 hkeep]
    split
    · exact ⟨fun hready => ⟨rfl, hkeep.symm⟩, h.dropped⟩
    · exact ⟨fun _ => ⟨rfl, hkeep.symm⟩, h.dropped⟩
  · rw [if_pos ⟨hport, hkeep⟩]
    exact ⟨fun hready => absurd (h.ready hready).2.symm hkeep, fun _ hiff => hkeep hiff.symm⟩

theorem onFrame_decided (hnet : other.netId = net.netId) (hport : other.listenPort ≠ 0) {p : Peer}
    (h : Decided net other.listenPort p) {m : UInt8 × Bytes} (hm : Sent other m) :
    Decided net other.listenPort (onFrame net id p m.1 m.2).1 := by
  unfold onFrame
  split_ifs with hhello htip
  · rw [hm.hello hhello]
    exact onHello_decided net other id hnet hport h
  · exact onTip_decided net id h m.2
  · exact h

/-! ### Bytes on the way -/

/-- The bytes are those of messages that the node `other` sends. -/
def Carries (bytes : Bytes) : Prop := ∃ msgs, bytes = stream msgs ∧ ∀ m ∈ msgs, Sent other m

theorem carries_nil : Carries other [] := ⟨[], rfl, fun m hm => by cases hm⟩

theorem Carries.frameInto {bytes : Bytes} (h : Carries other bytes) {m : UInt8 × Bytes} (hm : Sent other m) :
    Carries other (bytes ++ frameInto [] m.1 m.2) := by
  obtain ⟨msgs, rfl, hmsgs⟩ := h
  refine ⟨msgs ++ [m], by simp [stream], fun m' hm' => ?_⟩
  rcases List.mem_append.mp hm' with hm' | hm'
  · exact hmsgs m' hm'
  · rw [List.mem_singleton.mp hm']
    exact hm

/-- A complete frame at the start is a message of the node. -/
theorem Carries.nextFrame {buf more payload rest : Bytes} {type : UInt8} (h : Carries other (buf ++ more))
    (hframe : nextFrame buf = .whole type payload rest) : Sent other (type, payload) ∧ Carries other (rest ++ more) := by
  obtain ⟨msgs, heq, hmsgs⟩ := h
  have hnext := nextFrame_append_whole hframe more
  rw [heq] at hnext
  cases msgs with
  | nil => cases hnext
  | cons m msgs =>
      have hm := hmsgs m List.mem_cons_self
      by_cases hbig : maxFrame < m.2.length
      · have htoo := nextFrame_frameInto m.1 hm.size
        rw [if_pos hbig] at htoo
        have htoo : Chainlite.nextFrame (stream (m :: msgs)) = .tooBig := nextFrame_append_tooBig htoo (stream msgs)
        rw [htoo] at hnext
        cases hnext
      · rw [nextFrame_stream (Nat.not_lt.mp hbig)] at hnext
        obtain ⟨htype, hpayload, hrest⟩ := Frame.whole.inj hnext
        exact ⟨htype ▸ hpayload ▸ hm, msgs, hrest.symm, fun m' hm' => hmsgs m' (List.mem_cons_of_mem _ hm')⟩

/-- What parsing or receiving does to an entry when the other node's bytes are in its buffer, `more` to follow. -/
structure Received (more : Bytes) (p q : Peer) : Prop where
  line : p.SameLine q
  decided : Decided net other.listenPort q
  carries : q.dead = false → Carries other (q.inbuf ++ more)

theorem parseFrames_received (hnet : other.netId = net.netId) (hport : other.listenPort ≠ 0) {p : Peer} {more : Bytes}
    (h : Decided net other.listenPort p) (hcarries : Carries other (p.inbuf ++ more)) :
    Received net other more p (parseFrames net id p).1 := by
  induction p using parseFrames_induct net id with
  | incomplete p hframe =>
      rw [parseFrames_incomplete net id hframe]
      exact ⟨⟨rfl, rfl⟩, h, fun _ => hcarries⟩
  | tooBig p hframe =>
      rw [parseFrames_tooBig net id hframe]
      exact ⟨⟨rfl, rfl⟩, ⟨h.ready, h.dropped⟩, fun hlive => by cases hlive⟩
  | whole p type payload rest hframe hbuf ih =>
      obtain ⟨hsent, hmore⟩ := hcarries.nextFrame other hframe
      have hline : p.SameLine (onFrame net id (p.withInbuf rest) type payload).1 :=
        onFrame_sameLine net id (p.withInbuf rest) type payload
      have hdecided : Decided net other.listenPort (onFrame net id (p.withInbuf rest) type payload).1 :=
        onFrame_decided net other id hnet hport (p := p.withInbuf rest) ⟨h.ready, h.dropped⟩ hsent
      rw [parseFrames_whole net id hframe]
      generalize onFrame net id (p.withInbuf rest) type payload = r at hline hdecided hbuf ih
      dsimp only
      split
      · exact ⟨hline, hdecided, fun _ => by rwa [hbuf]⟩
      · obtain ⟨hline', hdecided', hcarries'⟩ := ih hdecided (by rwa [hbuf])
        exact ⟨⟨hline'.1.trans hline.1, hline'.2.trans hline.2⟩, hdecided', hcarries'⟩

/-- **Receiving from a node that sends its own HELLO.** -/
theorem onRecv_received (hnet : other.netId = net.netId) (hport : other.listenPort ≠ 0) {p : Peer} {chunk more : Bytes}
    (h : Decided net other.listenPort p) (hcarries : p.dead = false → Carries other (p.inbuf ++ (chunk ++ more))) :
    Received net other more p (onRecv net id p chunk).1 := by
  unfold onRecv
  dsimp only
  split_ifs with hdead
  · exact ⟨⟨rfl, rfl⟩, h, fun hlive => absurd (hlive.symm.trans hdead) (by decide)⟩
  · exact ⟨⟨rfl, rfl⟩, ⟨h.ready, h.dropped⟩, fun hlive => by cases hlive⟩
  · have hmore := hcarries (by simpa using hdead)
    rw [← List.append_assoc] at hmore
    obtain ⟨hline, hdecided, hrest⟩ :=
      parseFrames_received net other id hnet hport (p := p.withInbuf (p.inbuf ++ chunk)) ⟨h.ready, h.dropped⟩ hmore
    exact ⟨hline, hdecided, hrest⟩

end

/-! ### The system -/

/-- The nodes of one network: on different ports, none of them zero, each with the targets it dials. -/
structure Nodes (ι : Type) where
  netId : UInt32
  port : ι → UInt16
  targets : ι → List String
  distinct : Function.Injective port
  nonzero : ∀ a, port a ≠ 0

def Nodes.net {ι : Type} (ns : Nodes ι) (a : ι) : P2P := { netId := ns.netId, listenPort := ns.port a }

/-- One end of a link, with the entry its node keeps for it. The entry is `listed` while it is in the table of
the node and stays here when it has been erased; it is `opened` when the connection has been made or accepted.
`incoming` has been sent by the other end and not been received. -/
structure End (ι : Type) where
  host : ι
  peer : Peer := {}
  listed : Bool := false
  opened : Bool := false
  incoming : Bytes := []

structure Link (ι : Type) where
  dialer : End ι
  acceptor : End ι

/-- Every link there has been. -/
abbrev World (ι : Type) := List (Link ι)

def Link.ends {ι : Type} (l : Link ι) : List (End ι) := [l.dialer, l.acceptor]

/-- What an end has decided: to keep its link or to drop it. -/
def End.verdict {ι : Type} (e : End ι) : Option Bool :=
  if e.peer.dedupDrop then some false else if e.peer.ready then some true else none

/-- The table of peers of a node. -/
def World.table {ι : Type} [DecidableEq ι] (w : World ι) (a : ι) : List Peer :=
  ((w.flatMap Link.ends).filter fun e => e.host = a ∧ e.listed).map End.peer

namespace World

variable {ι : Type} [DecidableEq ι]

/-- There is a live entry for the target. -/
def haveTarget (w : World ι) (a : ι) (t : String) : Bool := (w.table a).any fun p => p.target == t && !p.dead

/-- One target of `try_connect_targets`. Where it leads is up to the network: nowhere when the address is bad or
the attempt fails at once. A connection that is made at once is one that is `opened` next. -/
def tryConnect (a : ι) (reaches : String → Option ι) (w : World ι) (t : String) : World ι :=
  if w.haveTarget a t then w
  else if ':' ∉ t.toList then w
  else
    match reaches t with
    | none => w
    | some b => w ++ [⟨{ host := a, peer := { target := t }, listed := true }, { host := b }⟩]

def tryConnectTargets (a : ι) (reaches : String → Option ι) (targets : List String) (w : World ι) : World ι :=
  targets.foldl (tryConnect a reaches) w

end World

section
variable {ι : Type} (ns : Nodes ι)

/-- What one end can do, `o` being the other one: the connection is made, or accepted, and the HELLO queued; the
node queues another message, whose length fits its field; some bytes are sent, some are received and parsed; the
link is lost; the entry of a dead peer is erased. -/
inductive EndStep (id : Int) (e o : End ι) : End ι → End ι → Prop
  | opened (hclosed : e.opened = false) (hlive : e.peer.dead = false) :
      EndStep id e o { e with opened := true, listed := true, peer := queueHello (ns.net e.host) e.peer } o
  | queued (type : UInt8) (payload : Bytes) (hlisted : e.listed = true) (hlive : e.peer.dead = false)
      (htype : type ≠ mHello) (hsize : payload.length < 2 ^ 32) :
      EndStep id e o { e with peer := { e.peer with outbuf := frameInto e.peer.outbuf type payload } } o
  | sent (n : Nat) (hopened : e.opened = true) (hlive : e.peer.dead = false) :
      EndStep id e o { e with peer := { e.peer with outbuf := e.peer.outbuf.drop n } }
        { o with incoming := o.incoming ++ e.peer.outbuf.take n }
  | received (n : Nat) (hopened : e.opened = true) (hlive : e.peer.dead = false) :
      EndStep id e o { e with peer := (onRecv (ns.net e.host) id e.peer (e.incoming.take n)).1,
                              incoming := e.incoming.drop n } o
  | lost (hlisted : e.listed = true) : EndStep id e o { e with peer := { e.peer with dead := true } } o
  | erased (hlisted : e.listed = true) (hdead : e.peer.dead = true) : EndStep id e o { e with listed := false } o

variable [DecidableEq ι]

/-- A step of the system: a node dials its targets, wherever they lead, or one end of a link acts. -/
inductive NetStep (w : World ι) : World ι → Prop
  | reconnect (a : ι) (reaches : String → Option ι) : NetStep w (w.tryConnectTargets a reaches (ns.targets a))
  | dialer {before after : World ι} {l : Link ι} (id : Int) {e o : End ι} (hw : w = before ++ l :: after)
      (h : EndStep ns id l.dialer l.acceptor e o) : NetStep w (before ++ ⟨e, o⟩ :: after)
  | acceptor {before after : World ι} {l : Link ι} (id : Int) {e o : End ι} (hw : w = before ++ l :: after)
      (h : EndStep ns id l.acceptor l.dialer e o) : NetStep w (before ++ ⟨o, e⟩ :: after)

inductive NetReachable : World ι → Prop
  | start : NetReachable []
  | step {w w' : World ι} (h : NetReachable w) (hstep : NetStep ns w w') : NetReachable w'

/-! ### What every step keeps -/

omit [DecidableEq ι]

/-- An end of a link stays where it is, with its target, and what is dead stays dead. -/
structure End.Keeps (e e' : End ι) : Prop where
  host : e'.host = e.host
  target : e'.peer.target = e.peer.target
  live : e'.peer.dead = false → e.peer.dead = false
  listed : e'.peer.dead = false → e.listed = true → e'.listed = true

/-- What holds of an end, `o` being the other one: it has decided as the ports say, and until it is dead all
bytes on their way to it are messages of the other node. -/
structure EndInv (e o : End ι) : Prop where
  decided : Decided (ns.net e.host) (ns.port o.host) e.peer
  carries : e.peer.dead = false → Carries (ns.net o.host) (e.peer.inbuf ++ (e.incoming ++ o.peer.outbuf))

variable {ns}

theorem EndInv.received {e o : End ι} (h : EndInv ns e o) (id : Int) (n : Nat) :
    Received (ns.net e.host) (ns.net o.host) (e.incoming.drop n ++ o.peer.outbuf) e.peer
      (onRecv (ns.net e.host) id e.peer (e.incoming.take n)).1 := by
  refine onRecv_received (ns.net e.host) (ns.net o.host) id rfl (ns.nonzero o.host) h.decided fun hlive => ?_
  rw [← List.append_assoc (e.incoming.take n), List.take_append_drop]
  exact h.carries hlive

theorem EndStep.keeps {id : Int} {e o e' o' : End ι} (h : EndStep ns id e o e' o') (hinv : EndInv ns e o) :
    e.Keeps e' ∧ o.Keeps o' := by
  have hother : o.Keeps o := ⟨rfl, rfl, fun hlive => hlive, fun _ hlisted => hlisted⟩
  cases h with
  | opened _ hlive => exact ⟨⟨rfl, rfl, fun _ => hlive, fun _ _ => rfl⟩, hother⟩
  | queued => exact ⟨⟨rfl, rfl, fun hlive => hlive, fun _ hlisted => hlisted⟩, hother⟩
  | sent => exact ⟨⟨rfl, rfl, fun hlive => hlive, fun _ hlisted => hlisted⟩,
      ⟨rfl, rfl, fun hlive => hlive, fun _ hlisted => hlisted⟩⟩
  | received n _ hlive => exact ⟨⟨rfl, (hinv.received id n).line.1, fun _ => hlive, fun _ hlisted => hlisted⟩, hother⟩
  | lost => exact ⟨⟨rfl, rfl, (by rintro ⟨⟩), (by rintro ⟨⟩)⟩, hother⟩
  | erased _ hdead =>
      exact ⟨⟨rfl, rfl, fun hlive => hlive, fun hlive => absurd (hdead.symm.trans hlive) (by decide)⟩, hother⟩

/-- A message that is queued travels behind those before it. -/
theorem EndInv.queued {e o : End ι} (h : EndInv ns o e) {m : UInt8 × Bytes} (hm : Sent (ns.net e.host) m)
    {e' : End ι} (hhost : e'.host = e.host) (houtbuf : e'.peer.outbuf = frameInto e.peer.outbuf m.1 m.2) :
    EndInv ns o e' := by
  refine ⟨hhost ▸ h.decided, fun hlive => ?_⟩
  rw [hhost, houtbuf, frameInto_eq, ← List.append_assoc o.incoming, ← List.append_assoc o.peer.inbuf]
  exact (h.carries hlive).frameInto _ hm

/-- **One step at one end of a link** keeps what holds of both ends. -/
theorem EndStep.inv {id : Int} {e o e' o' : End ι} (h : EndStep ns id e o e' o') (hinv : EndInv ns e o)
    (hinv' : EndInv ns o e) : EndInv ns e' o' ∧ EndInv ns o' e' := by
  cases h with
  | opened => exact ⟨⟨⟨hinv.decided.ready, hinv.decided.dropped⟩, hinv.carries⟩,
      hinv'.queued (m := (mHello, helloPayload (ns.net e.host))) ⟨by simp [helloPayload], fun _ => rfl⟩ rfl rfl⟩
  | queued type payload _ _ htype hsize => exact ⟨⟨⟨hinv.decided.ready, hinv.decided.dropped⟩, hinv.carries⟩,
      hinv'.queued (m := (type, payload)) ⟨hsize, fun hhello => absurd hhello htype⟩ rfl rfl⟩
  | sent n =>
      refine ⟨⟨⟨hinv.decided.ready, hinv.decided.dropped⟩, hinv.carries⟩, hinv'.decided, fun hlive => ?_⟩
      have hcarries := hinv'.carries hlive
      rw [← List.take_append_drop n e.peer.outbuf, ← List.append_assoc o.incoming] at hcarries
      exact hcarries
  | received n =>
      obtain ⟨hline, hdecided, hcarries⟩ := hinv.received id n
      refine ⟨⟨hdecided, hcarries⟩, hinv'.decided, fun hlive => ?_⟩
      rw [hline.2]
      exact hinv'.carries hlive
  | lost => exact ⟨⟨⟨hinv.decided.ready, hinv.decided.dropped⟩, by rintro ⟨⟩⟩, hinv'.decided, hinv'.carries⟩
  | erased => exact ⟨⟨hinv.decided, hinv.carries⟩, hinv'.decided, hinv'.carries⟩

variable (ns) in
/-- What holds of a link. -/
structure LinkInv (l : Link ι) : Prop where
  dialer : EndInv ns l.dialer l.acceptor
  acceptor : EndInv ns l.acceptor l.dialer
  outbound : l.dialer.peer.target ≠ ""
  inbound : l.acceptor.peer.target = ""
  listed : l.dialer.peer.dead = false → l.dialer.listed = true

/-- Two links of one node that are both alive go to different targets. -/
def Apart (l l' : Link ι) : Prop :=
  l.dialer.host = l'.dialer.host → l.dialer.peer.dead = false → l'.dialer.peer.dead = false →
    l.dialer.peer.target ≠ l'.dialer.peer.target

theorem LinkInv.kept {l : Link ι} (h : LinkInv ns l) {d a : End ι} (hdialer : l.dialer.Keeps d)
    (hacceptor : l.acceptor.Keeps a) (hinv : EndInv ns d a) (hinv' : EndInv ns a d) : LinkInv ns ⟨d, a⟩ :=
  ⟨hinv, hinv', by rw [hdialer.target]; exact h.outbound, hacceptor.target.trans h.inbound,
    fun hlive => hdialer.listed hlive (h.listed (hdialer.live hlive))⟩

theorem Apart.kept_left {l l' : Link ι} (h : Apart l l') {d a : End ι} (hdialer : l.dialer.Keeps d) :
    Apart ⟨d, a⟩ l' := by
  intro hhost hlive hlive'
  rw [hdialer.target]
  exact h (hdialer.host ▸ hhost) (hdialer.live hlive) hlive'

theorem Apart.kept_right {l l' : Link ι} (h : Apart l' l) {d a : End ι} (hdialer : l.dialer.Keeps d) :
    Apart l' ⟨d, a⟩ := by
  intro hhost hlive hlive'
  rw [hdialer.target]
  exact h (hhost.trans hdialer.host) hlive (hdialer.live hlive')

variable (ns) in
structure WorldInv (w : World ι) : Prop where
  links : ∀ l ∈ w, LinkInv ns l
  apart : w.Pairwise Apart

/-- A link that keeps its invariant and its dialer can be exchanged. -/
theorem WorldInv.exchange {before after : World ι} {l : Link ι} (h : WorldInv ns (before ++ l :: after)) {d a : End ι}
    (hdialer : l.dialer.Keeps d) (hlink : LinkInv ns ⟨d, a⟩) : WorldInv ns (before ++ ⟨d, a⟩ :: after) := by
  obtain ⟨hbefore, hrest, hacross⟩ := List.pairwise_append.mp h.apart
  obtain ⟨hl, hafter⟩ := List.pairwise_cons.mp hrest
  refine ⟨fun l' hl' => ?_, List.pairwise_append.mpr ⟨hbefore, List.pairwise_cons.mpr ⟨?_, hafter⟩, ?_⟩⟩
  · rcases List.mem_append.mp hl' with hl' | hl'
    · exact h.links l' (List.mem_append_left _ hl')
    · rcases List.mem_cons.mp hl' with rfl | hl'
      · exact hlink
      · exact h.links l' (List.mem_append_right _ (List.mem_cons_of_mem _ hl'))
  · exact fun l' hl' => (hl l' hl').kept_left hdialer
  · intro l' hl' l'' hl''
    rcases List.mem_cons.mp hl'' with rfl | hl''
    · exact (hacross l' hl' l List.mem_cons_self).kept_right hdialer
    · exact hacross l' hl' l'' (List.mem_cons_of_mem _ hl'')

/-- A node does not dial a target to which it has a live link. -/
theorem WorldInv.dial [DecidableEq ι] {w : World ι} (h : WorldInv ns w) (a b : ι) {t : String} (hcolon : ':' ∈ t.toList)
    (hhave : w.haveTarget a t = false) :
    WorldInv ns (w ++ [⟨{ host := a, peer := { target := t }, listed := true }, { host := b }⟩]) := by
  have hnew : LinkInv ns ⟨{ host := a, peer := { target := t }, listed := true }, { host := b }⟩ := by
    refine ⟨⟨⟨?_, ?_⟩, fun _ => carries_nil _⟩, ⟨⟨?_, ?_⟩, fun _ => carries_nil _⟩, ?_, rfl, fun _ => rfl⟩
    · rintro ⟨⟩
    · rintro ⟨⟩
    · rintro ⟨⟩
    · rintro ⟨⟩
    · rintro rfl
      exact absurd hcolon (by simp)
  refine ⟨fun l hl => ?_, List.pairwise_append.mpr ⟨h.apart, List.pairwise_singleton _ _, ?_⟩⟩
  · rcases List.mem_append.mp hl with hl | hl
    · exact h.links l hl
    · rw [List.mem_singleton.mp hl]
      exact hnew
  · intro l hl l' hl' hhost hlive _ htarget
    rw [List.mem_singleton.mp hl'] at hhost htarget
    have hentry : l.dialer.peer ∈ w.table a := by
      refine List.mem_map_of_mem (List.mem_filter.mpr ⟨List.mem_flatMap.mpr ⟨l, hl, List.mem_cons_self⟩, ?_⟩)
      simp [hhost, (h.links l hl).listed hlive]
    have hlacks := List.any_eq_false.mp hhave _ hentry
    simp [htarget, hlive] at hlacks

theorem WorldInv.tryConnectTargets [DecidableEq ι] {w : World ι} (h : WorldInv ns w) (a : ι)
    (reaches : String → Option ι) (targets : List String) : WorldInv ns (w.tryConnectTargets a reaches targets) := by
  induction targets generalizing w with
  | nil => exact h
  | cons t rest ih =>
      refine ih ?_
      unfold World.tryConnect
      split_ifs with hhave hcolon
      · exact h
      · split
        · exact h
        · exact h.dial a _ hcolon (by simpa using hhave)
      · exact h

theorem NetStep.inv [DecidableEq ι] {w w' : World ι} (hstep : NetStep ns w w') (h : WorldInv ns w) : WorldInv ns w' := by
  cases hstep with
  | reconnect a reaches => exact h.tryConnectTargets a reaches (ns.targets a)
  | @dialer before after l id e o hw hend =>
      subst hw
      have hl := h.links l (List.mem_append_right _ List.mem_cons_self)
      obtain ⟨hdialer, hacceptor⟩ := hend.keeps hl.dialer
      obtain ⟨hinv, hinv'⟩ := hend.inv hl.dialer hl.acceptor
      exact h.exchange hdialer (hl.kept hdialer hacceptor hinv hinv')
  | @acceptor before after l id e o hw hend =>
      subst hw
      have hl := h.links l (List.mem_append_right _ List.mem_cons_self)
      obtain ⟨hacceptor, hdialer⟩ := hend.keeps hl.acceptor
      obtain ⟨hinv', hinv⟩ := hend.inv hl.acceptor hl.dialer
      exact h.exchange hdialer (hl.kept hdialer hacceptor hinv hinv')

theorem NetReachable.inv [DecidableEq ι] {w : World ι} (h : NetReachable ns w) : WorldInv ns w := by
  induction h with
  | start => exact ⟨fun l hl => absurd hl List.not_mem_nil, List.Pairwise.nil⟩
  | step _ hstep ih => exact hstep.inv ih

/-! ### Agreement -/

theorem EndInv.verdict {e o : End ι} (h : EndInv ns e o) {v : Bool} (hv : e.verdict = some v) :
    (v = true ↔ (e.peer.target ≠ "" ↔ ns.port e.host < ns.port o.host)) := by
  unfold End.verdict at hv
  split_ifs at hv with hdropped hready
  · cases hv
    exact iff_of_false (by decide) (h.decided.dropped hdropped)
  · cases hv
    exact iff_of_true rfl (h.decided.ready hready).2

/-- Of two different ports exactly one is the lower one, and of the two ends exactly one has dialed. -/
theorem LinkInv.verdict_eq {l : Link ι} (h : LinkInv ns l) (hhosts : l.dialer.host ≠ l.acceptor.host) {v v' : Bool}
    (hv : l.dialer.verdict = some v) (hv' : l.acceptor.verdict = some v') : v = v' := by
  have hdialer := h.dialer.verdict hv
  have hacceptor := h.acceptor.verdict hv'
  have hports : ns.port l.dialer.host ≠ ns.port l.acceptor.host := fun heq => hhosts (ns.distinct heq)
  have hlower : ns.port l.acceptor.host < ns.port l.dialer.host ↔ ¬ns.port l.dialer.host < ns.port l.acceptor.host := by
    rw [UInt16.not_lt]
    exact ⟨UInt16.le_of_lt, fun hle => UInt16.lt_of_le_of_ne hle hports.symm⟩
  have hsame : v = true ↔ v' = true := by
    rw [hdialer, hacceptor, hlower]
    simp [h.outbound, h.inbound]
  exact Bool.eq_iff_iff.mpr hsame

/-- The live outbound entries of a node go to different targets. -/
theorem WorldInv.nodup_targets [DecidableEq ι] {w : World ι} (h : WorldInv ns w) (a : ι) :
    (((w.table a).filter fun p => p.target ≠ "" ∧ p.dead = false).map Peer.target).Nodup := by
  have hinbound : ∀ l ∈ w, ∀ e ∈ l.ends, e.peer.target ≠ "" → e = l.dialer := by
    intro l hl e he htarget
    rcases List.mem_cons.mp he with rfl | he
    · rfl
    · rw [List.mem_singleton.mp he] at htarget
      exact absurd (h.links l hl).inbound htarget
  rw [List.Nodup, List.pairwise_map, List.pairwise_filter, World.table, List.pairwise_map, List.pairwise_filter,
    List.pairwise_flatMap]
  constructor
  · intro l hl
    -- of the two ends of a link only one is outbound
    refine List.pairwise_cons.mpr ⟨fun e he => ?_, List.pairwise_singleton _ _⟩
    rw [List.mem_singleton.mp he]
    intro _ _ _ hout
    have hout := of_decide_eq_true hout
    exact absurd (h.links l hl).inbound hout.1
  · refine h.apart.imp_of_mem fun {l l'} hl hl' hapart e he e' he' hlisted hlisted' hout hout' => ?_
    have hlisted := of_decide_eq_true hlisted
    have hlisted' := of_decide_eq_true hlisted'
    have hout := of_decide_eq_true hout
    have hout' := of_decide_eq_true hout'
    obtain rfl := hinbound l hl e he hout.1
    obtain rfl := hinbound l' hl' e' he' hout'.1
    exact hapart (hlisted.1.trans hlisted'.1.symm) hout.2 hout'.2

/-- **One agreed link for each pair of nodes.** In every reachable state of any number of nodes on different ports:
an entry that is ready has the port of the other end, and is outbound exactly when its own node's port is lower;
the verdicts at the two ends of a link between two different nodes are equal; and no node has two live outbound
entries with one target. -/
theorem links_agree [DecidableEq ι] {w : World ι} (h : NetReachable ns w) :
    (∀ l ∈ w,
      (l.dialer.peer.ready = true → l.dialer.peer.peerPort = ns.port l.acceptor.host ∧
        (l.dialer.peer.target ≠ "" ↔ ns.port l.dialer.host < ns.port l.acceptor.host)) ∧
      (l.acceptor.peer.ready = true → l.acceptor.peer.peerPort = ns.port l.dialer.host ∧
        (l.acceptor.peer.target ≠ "" ↔ ns.port l.acceptor.host < ns.port l.dialer.host)) ∧
      (l.dialer.host ≠ l.acceptor.host →
        ∀ v v', l.dialer.verdict = some v → l.acceptor.verdict = some v' → v = v')) ∧
    ∀ a, (((w.table a).filter fun p => p.target ≠ "" ∧ p.dead = false).map Peer.target).Nodup := by
  have hinv := h.inv
  refine ⟨fun l hl => ?_, hinv.nodup_targets⟩
  have hlink := hinv.links l hl
  exact ⟨hlink.dialer.decided.ready, hlink.acceptor.decided.ready, fun hhosts _ _ => hlink.verdict_eq hhosts⟩

/-! ### A handshake -/

theorem NetReachable.dialerActs [DecidableEq ι] {l : Link ι} {e o : End ι} (h : NetReachable ns [l])
    (hend : EndStep ns 1 l.dialer l.acceptor e o) : NetReachable ns [⟨e, o⟩] :=
  h.step (@NetStep.dialer ι ns _ [l] [] [] l 1 e o rfl hend)

theorem NetReachable.acceptorActs [DecidableEq ι] {l : Link ι} {e o : End ι} (h : NetReachable ns [l])
    (hend : EndStep ns 1 l.acceptor l.dialer e o) : NetReachable ns [⟨o, e⟩] :=
  h.step (@NetStep.acceptor ι ns _ [l] [] [] l 1 e o rfl hend)

/-- The entry for a connection over which both HELLOs have been sent, and that of the node `b` been received. -/
def greeted (ns : Nodes ι) (a b : ι) (t : String) : End ι where
  host := a
  peer := (onRecv (ns.net a) 1 { target := t } (frameInto [] mHello (helloPayload (ns.net b)))).1
  listed := true
  opened := true

/-- A node dials, the link is accepted, and both HELLOs arrive. -/
theorem greeted_reachable [DecidableEq ι] {a : ι} (b : ι) {t : String} (ht : ns.targets a = [t])
    (hcolon : ':' ∈ t.toList) : NetReachable ns [⟨greeted ns a b t, greeted ns b a ""⟩] := by
  have hdialed : NetReachable ns [⟨{ host := a, peer := { target := t }, listed := true }, { host := b }⟩] := by
    have hstep := NetReachable.start.step (NetStep.reconnect a (fun _ => some b) : NetStep ns [] _)
    have hnone : ¬World.haveTarget [] a t = true := by simp [World.haveTarget, World.table]
    rw [ht, World.tryConnectTargets, List.foldl_cons, World.tryConnect, if_neg hnone, if_neg (not_not.mpr hcolon)] at hstep
    exact hstep
  have hopened := (hdialed.dialerActs (EndStep.opened rfl rfl)).acceptorActs (EndStep.opened rfl rfl)
  have hsent := (hopened.dialerActs (EndStep.sent 15 rfl rfl)).acceptorActs (EndStep.sent 15 rfl rfl)
  exact (hsent.dialerActs (EndStep.received 15 rfl rfl)).acceptorActs (EndStep.received 15 rfl rfl)

end

/-- A node that has its own address among its targets. -/
def selfDialer : Nodes Unit where
  netId := 7
  port := fun _ => 9000
  targets := fun _ => ["127.0.0.1:9000"]
  distinct := fun _ _ _ => rfl
  nonzero := fun _ => by decide

/-- On a link of a node to itself the end that dialed drops it and the other end keeps it. -/
theorem links_disagree_self : ∃ w, NetReachable selfDialer w ∧ ∃ l ∈ w,
    l.dialer.verdict = some false ∧ l.acceptor.verdict = some true :=
  ⟨_, greeted_reachable (a := ()) () rfl (by decide), _, List.mem_singleton_self _, rfl, rfl⟩

/-- Two nodes, of which the first one dials the other one. -/
def twoNodes : Nodes Bool where
  netId := 7
  port := fun a => if a then 9001 else 9000
  targets := fun a => if a then [] else ["127.0.0.1:9001"]
  distinct := by decide
  nonzero := by decide

theorem twoNodes_reachable : NetReachable twoNodes
    [⟨greeted twoNodes false true "127.0.0.1:9001", greeted twoNodes true false ""⟩] :=
  greeted_reachable true rfl (by decide)

/-- Both ends are ready, the outbound one at the node with the lower port. -/
theorem links_agree_two_nodes :
    (greeted twoNodes false true "127.0.0.1:9001").verdict = some true ∧
    (greeted twoNodes true false "").verdict = some true ∧
    (greeted twoNodes false true "127.0.0.1:9001").peer.peerPort = 9001 ∧
    ((greeted twoNodes false true "127.0.0.1:9001").peer.target ≠ "" ↔ twoNodes.port false < twoNodes.port true) :=
  ⟨rfl, rfl, ((links_agree twoNodes_reachable).1 _ (List.mem_singleton_self _)).1 rfl⟩

end Chainlite
