import Chainlite.NetLoop

/-! One link as a queue of messages. A node queues whole messages for a peer; the network thread sends the bytes as the
socket takes them, and the other thread receives them in other pieces and hands messages on. Whatever the pieces, and
however the two threads take turns, what has been handed on are the first messages that were queued, in their order and
each once, the HELLOs left out. A link that breaks loses the last of them and nothing else. -/

open Std

namespace Chainlite

/-- The messages among the events. -/
def messages (evs : List Ev) : List (UInt8 × Bytes) :=
  evs.filterMap fun
    | .msg _ type payload => some (type, payload)
    | _ => none

/-- The messages that a network thread does not keep to itself. -/
def unhello (msgs : List (UInt8 × Bytes)) : List (UInt8 × Bytes) := msgs.filter fun m => m.1 ≠ mHello

theorem messages_append (evs evs' : List Ev) : messages (evs ++ evs') = messages evs ++ messages evs' :=
  List.filterMap_append

theorem unhello_append (msgs msgs' : List (UInt8 × Bytes)) : unhello (msgs ++ msgs') = unhello msgs ++ unhello msgs' :=
  List.filter_append ..

theorem stream_append (msgs msgs' : List (UInt8 × Bytes)) : stream (msgs ++ msgs') = stream msgs ++ stream msgs' :=
  List.flatMap_append

/-- A message queued behind the others. -/
theorem stream_snoc (msgs : List (UInt8 × Bytes)) (m : UInt8 × Bytes) :
    stream (msgs ++ [m]) = stream msgs ++ frameInto [] m.1 m.2 := by
  rw [stream_append]
  exact congrArg _ (List.append_nil _)

theorem nextFrame_stream_big {m : UInt8 × Bytes} (hsize : m.2.length < 2 ^ 32) (hbig : maxFrame < m.2.length)
    (msgs : List (UInt8 × Bytes)) : nextFrame (stream (m :: msgs)) = .tooBig := by
  have htoo := nextFrame_frameInto m.1 hsize
  rw [if_pos hbig] at htoo
  exact nextFrame_append_tooBig htoo (stream msgs)

/-! ### What is taken off a stream -/

section
variable (net : P2P) (id : Int)

/-- A message is handed on, unless it is a HELLO or costs the link. -/
theorem messages_onFrame (p : Peer) (type : UInt8) (payload : Bytes) :
    messages (onFrame net id p type payload).2 = unhello [(type, payload)] ∨
      (onFrame net id p type payload).1.dead = true ∧ messages (onFrame net id p type payload).2 = [] := by
  unfold onFrame
  split_ifs with hhello htip
  · left
    have hnone : unhello [(type, payload)] = [] := by simp [unhello, hhello]
    rw [hnone]
    unfold onHello
    split
    · rfl
    · dsimp only
      split_ifs <;> rfl
  · by_cases hlong : 48 ≤ payload.length
    · obtain ⟨height, work, hash, htaken⟩ := onTip_long id hlong p
      left
      rw [htaken, htip]
      rfl
    · obtain ⟨hdead, hnone⟩ := onTip_short id (Nat.lt_of_not_le hlong) p
      right
      rw [hnone]
      exact ⟨hdead, rfl⟩
  · left
    simp [messages, unhello, hhello]

/-- What parsing does to the start of a stream whose end is yet to come: some messages are taken off it. -/
structure Taken (msgs : List (UInt8 × Bytes)) (more : Bytes) (q : Peer) (evs : List Ev) : Prop where
  split : ∃ taken rest, msgs = taken ++ rest ∧ messages evs = unhello taken ∧
    (q.dead = false → stream rest = q.inbuf ++ more)

/-- Nothing is said of the rest of the stream when the link is lost. -/
theorem Taken.of_dead (taken : List (UInt8 × Bytes)) {rest : List (UInt8 × Bytes)} {more : Bytes} {q : Peer} {evs : List Ev}
    (hdead : q.dead = true) (hevs : messages evs = unhello taken) : Taken (taken ++ rest) more q evs :=
  ⟨taken, rest, rfl, hevs, fun hlive => absurd (hdead.symm.trans hlive) (by decide)⟩

theorem parseFrames_taken {p : Peer} {msgs : List (UInt8 × Bytes)} {more : Bytes}
    (hsize : ∀ m ∈ msgs, m.2.length < 2 ^ 32) (h : stream msgs = p.inbuf ++ more) :
    Taken msgs more (parseFrames net id p).1 (parseFrames net id p).2 := by
  induction p using parseFrames_induct net id generalizing msgs with
  | incomplete p hframe =>
      rw [parseFrames_incomplete net id hframe]
      exact ⟨[], msgs, rfl, rfl, fun _ => h⟩
  | tooBig p hframe =>
      rw [parseFrames_tooBig net id hframe]
      exact .of_dead [] rfl rfl
  | whole p type payload rest hframe hbuf ih =>
      have hhanded := messages_onFrame net id (p.withInbuf rest) type payload
      have hnext := nextFrame_append_whole hframe more
      rw [← h] at hnext
      rw [parseFrames_whole net id hframe]
      generalize onFrame net id (p.withInbuf rest) type payload = r at hbuf hhanded ih
      -- the frame is the first message of the stream
      cases msgs with
      | nil => cases hnext
      | cons m msgs =>
          by_cases hbig : maxFrame < m.2.length
          · rw [nextFrame_stream_big (hsize m List.mem_cons_self) hbig] at hnext
            cases hnext
          · rw [nextFrame_stream (Nat.not_lt.mp hbig)] at hnext
            obtain ⟨rfl, rfl, hstream⟩ := Frame.whole.inj hnext
            dsimp only
            cases hdead : r.1.dead with
            | true =>
                rcases hhanded with hhanded | ⟨-, hnone⟩
                · exact .of_dead [m] hdead hhanded
                · exact .of_dead [] hdead hnone
            | false =>
                have hhanded : messages r.2 = unhello [(m.1, m.2)] := by
                  rcases hhanded with hhanded | ⟨hlost, -⟩
                  · exact hhanded
                  · exact absurd (hdead.symm.trans hlost) (by decide)
                obtain ⟨taken, left, rfl, hevs, hleft⟩ := ih
                  (fun m' hm' => hsize m' (List.mem_cons_of_mem _ hm')) (by rw [hbuf]; exact hstream)
                refine ⟨m :: taken, left, rfl, ?_, hleft⟩
                show messages (r.2 ++ _) = _
                rw [messages_append, hhanded, hevs, ← unhello_append]
                rfl

theorem recvAll_live {closed : Bool} {chunks : List Bytes} {p : Peer} (h : (recvAll closed p chunks).dead = false) :
    recvAll closed p chunks = p.withInbuf (p.inbuf ++ chunks.flatten) := by
  induction chunks generalizing p with
  | nil =>
      rw [recvAll] at h ⊢
      split at h
      · cases h
      · rename_i hopen
        rw [if_neg hopen, List.flatten_nil, List.append_nil, Peer.withInbuf_self]
  | cons chunk rest ih =>
      rw [recvAll] at h ⊢
      dsimp only at h ⊢
      split at h
      · cases h
      · rename_i hfits
        rw [if_neg hfits, ih h, List.flatten_cons, ← List.append_assoc]
        rfl

theorem outbuf_recvAll (closed : Bool) (chunks : List Bytes) (p : Peer) :
    (recvAll closed p chunks).outbuf = p.outbuf := by
  induction chunks generalizing p with
  | nil =>
      rw [recvAll]
      split <;> rfl
  | cons chunk rest ih =>
      rw [recvAll]
      dsimp only
      split
      · rfl
      · exact ih _

theorem outbuf_parseFrames (p : Peer) : (parseFrames net id p).1.outbuf = p.outbuf := by
  induction p using parseFrames_induct net id with
  | incomplete p hframe => rw [parseFrames_incomplete net id hframe]
  | tooBig p hframe => rw [parseFrames_tooBig net id hframe]
  | whole p type payload rest hframe hbuf ih =>
      have hline := (onFrame_sameLine net id (p.withInbuf rest) type payload).2
      rw [parseFrames_whole net id hframe]
      generalize onFrame net id (p.withInbuf rest) type payload = r at hline ih
      dsimp only
      split
      · exact hline
      · exact ih.trans hline

theorem outbuf_recvAndParse (io : Sockets) (p : Peer) : (recvAndParse net id io p).1.outbuf = p.outbuf := by
  have hout := outbuf_recvAll io.closed io.chunks p
  unfold recvAndParse
  split_ifs with hreadable
  · dsimp only
    split
    · exact hout
    · exact (outbuf_parseFrames net id _).trans hout
  · rfl

/-- **One reading of the socket** takes messages off what has arrived and leaves the rest for the next. -/
theorem recvAndParse_taken {io : Sockets} {p : Peer} {msgs : List (UInt8 × Bytes)} {more : Bytes}
    (hreadable : io.readable = true) (hsize : ∀ m ∈ msgs, m.2.length < 2 ^ 32)
    (h : stream msgs = p.inbuf ++ (io.chunks.flatten ++ more)) :
    Taken msgs more (recvAndParse net id io p).1 (recvAndParse net id io p).2 ∧
      ((recvAndParse net id io p).1.dead = false → nextFrame (recvAndParse net id io p).1.inbuf = .incomplete) := by
  unfold recvAndParse
  rw [if_pos hreadable]
  dsimp only
  cases hdead : (recvAll io.closed p io.chunks).dead with
  | true =>
      rw [if_pos rfl]
      exact ⟨.of_dead [] hdead rfl, fun hlive => absurd (hdead.symm.trans hlive) (by decide)⟩
  | false =>
      rw [if_neg (by decide)]
      have hall := recvAll_live hdead
      have hstream : stream msgs = (recvAll io.closed p io.chunks).inbuf ++ more := by
        rw [hall, Peer.inbuf_withInbuf, List.append_assoc]
        exact h
      exact ⟨parseFrames_taken net id hsize hstream, nextFrame_parseFrames net id⟩

end

/-! ### The two ends of a link -/

/-- One end: its node, the entry for the other one, the bytes that have arrived and not been read, and, for the record,
all messages that have been queued and all events that have been handed on. -/
structure Half where
  net : P2P := {}
  id : Int := 1
  peer : Peer := {}
  opened : Bool := false
  arriving : Bytes := []
  queued : List (UInt8 × Bytes) := []
  handed : List Ev := []

namespace Half

/-- The entry of a new connection. -/
structure New (x : Half) : Prop where
  inbuf : x.peer.inbuf = []
  outbuf : x.peer.outbuf = []
  arriving : x.arriving = []
  queued : x.queued = []
  handed : x.handed = []

def queue (x : Half) (m : UInt8 × Bytes) : Half :=
  { x with peer := { x.peer with outbuf := frameInto x.peer.outbuf m.1 m.2 }, queued := x.queued ++ [m] }

def connect (x : Half) : Half := { x.queue (mHello, helloPayload x.net) with opened := true }

def kill (x : Half) : Half := { x with peer := { x.peer with dead := true } }

/-- What `io.chunks` holds is read and parsed. -/
def receive (x : Half) (io : Sockets) : Half :=
  { x with
    peer := (recvAndParse x.net x.id io x.peer).1
    arriving := x.arriving.drop io.chunks.flatten.length
    handed := x.handed ++ (recvAndParse x.net x.id io x.peer).2 }

def send (x : Half) (sent : Option Nat) : Half := { x with peer := sendSome sent x.peer }

/-- Bytes come in from the other end. -/
def arrive (y : Half) (bytes : Bytes) : Half := { y with arriving := y.arriving ++ bytes }

end Half

/-- What one end can do: the connection is made or fails; the node queues a message whose length fits its field; some of
what has arrived is received and parsed; some of what is queued is sent, or the sending fails; the end of a dead peer
is reported. -/
inductive HalfStep (x y : Half) : Half → Half → Prop
  | connect (hclosed : x.opened = false) (hlive : x.peer.dead = false) : HalfStep x y x.connect y
  | fail : HalfStep x y x.kill y
  | queue (m : UInt8 × Bytes) (hlive : x.peer.dead = false) (hsize : m.2.length < 2 ^ 32) : HalfStep x y (x.queue m) y
  | receive (io : Sockets) (hopened : x.opened = true) (hlive : x.peer.dead = false) (hreadable : io.readable = true)
      (harrived : io.chunks.flatten <+: x.arriving) : HalfStep x y (x.receive io) y
  | send (sent : Option Nat) (hopened : x.opened = true) (hlive : x.peer.dead = false) :
      HalfStep x y (x.send sent) (y.arrive (x.peer.outbuf.take (sent.getD 0)))
  | gone (hdead : x.peer.dead = true) : HalfStep x y { x with handed := x.handed ++ [.gone x.id] } y

/-- The ends of a link, which act in any order. -/
inductive LineRun : Half → Half → Prop
  | start {x y : Half} (hx : x.New) (hy : y.New) : LineRun x y
  | step {x y x' y' : Half} (h : LineRun x y) (hstep : HalfStep x y x' y') : LineRun x' y'
  | swap {x y : Half} (h : LineRun x y) : LineRun y x

/-- From `x` to `y`: some of the messages that `x` has queued have been taken off by `y`, and the others are on their way
until `y` is dead. -/
structure Piped (x y : Half) : Prop where
  size : ∀ m ∈ x.queued, m.2.length < 2 ^ 32
  split : ∃ taken rest, x.queued = taken ++ rest ∧ messages y.handed = unhello taken ∧
    (y.peer.dead = false → stream rest = y.peer.inbuf ++ (y.arriving ++ x.peer.outbuf))
  waiting : y.peer.dead = false → nextFrame y.peer.inbuf = .incomplete

namespace Piped

variable {x y : Half}

theorem new (hx : x.New) (hy : y.New) : Piped x y where
  size m hm := by rw [hx.queued] at hm; cases hm
  split := by
    refine ⟨[], [], hx.queued, by rw [hy.handed]; rfl, fun _ => ?_⟩
    rw [hy.inbuf, hy.arriving, hx.outbuf]
    rfl
  waiting _ := by rw [hy.inbuf]; rfl

theorem queue (h : Piped x y) {m : UInt8 × Bytes} (hm : m.2.length < 2 ^ 32) : Piped (x.queue m) y := by
  obtain ⟨taken, rest, hqueued, hhanded, hway⟩ := h.split
  refine ⟨fun m' hm' => ?_, ⟨taken, rest ++ [m], ?_, hhanded, fun hlive => ?_⟩, h.waiting⟩
  · rcases List.mem_append.mp hm' with hm' | hm'
    · exact h.size m' hm'
    · rw [List.mem_singleton.mp hm']
      exact hm
  · show x.queued ++ [m] = _
    rw [hqueued, List.append_assoc]
  · show _ = y.peer.inbuf ++ (y.arriving ++ frameInto x.peer.outbuf m.1 m.2)
    rw [stream_snoc, hway hlive, frameInto_eq x.peer.outbuf]
    simp

theorem send (h : Piped x y) (sent : Option Nat) :
    Piped (x.send sent) (y.arrive (x.peer.outbuf.take (sent.getD 0))) := by
  obtain ⟨taken, rest, hqueued, hhanded, hway⟩ := h.split
  refine ⟨h.size, ⟨taken, rest, hqueued, hhanded, fun hlive => ?_⟩, h.waiting⟩
  show _ = y.peer.inbuf ++ ((y.arriving ++ x.peer.outbuf.take (sent.getD 0)) ++ (sendSome sent x.peer).outbuf)
  have hsent : (sendSome sent x.peer).outbuf = x.peer.outbuf.drop (sent.getD 0) := by
    cases sent with
    | none => rfl
    | some n => rfl
  rw [hway hlive, hsent, List.append_assoc y.arriving, List.take_append_drop]

theorem receive (h : Piped x y) {io : Sockets} (hlive : y.peer.dead = false) (hreadable : io.readable = true)
    (harrived : io.chunks.flatten <+: y.arriving) : Piped x (y.receive io) := by
  obtain ⟨taken, rest, hqueued, hhanded, hway⟩ := h.split
  obtain ⟨later, hlater⟩ := harrived
  have hstream : stream rest = y.peer.inbuf ++ (io.chunks.flatten ++ (later ++ x.peer.outbuf)) := by
    rw [hway hlive, ← hlater]
    simp
  have hsize : ∀ m ∈ rest, m.2.length < 2 ^ 32 := fun m hm => h.size m (by rw [hqueued]; exact List.mem_append_right _ hm)
  obtain ⟨⟨more, left, rfl, hevs, hleft⟩, hwaiting⟩ := recvAndParse_taken y.net y.id hreadable hsize hstream
  refine ⟨h.size, ⟨taken ++ more, left, by rw [hqueued, List.append_assoc], ?_, fun hlive' => ?_⟩, hwaiting⟩
  · show messages (y.handed ++ _) = _
    rw [messages_append, hhanded, hevs, unhello_append]
  · show _ = (recvAndParse y.net y.id io y.peer).1.inbuf ++ (y.arriving.drop io.chunks.flatten.length ++ x.peer.outbuf)
    rw [hleft hlive', ← hlater, List.drop_left]

/-- A dead end reads no more. -/
theorem kill (h : Piped x y) : Piped x y.kill := by
  obtain ⟨taken, rest, hqueued, hhanded, -⟩ := h.split
  have hdead : y.kill.peer.dead = true := rfl
  exact ⟨h.size, ⟨taken, rest, hqueued, hhanded, fun hlive => absurd (hdead.symm.trans hlive) (by decide)⟩,
    fun hlive => absurd (hdead.symm.trans hlive) (by decide)⟩

end Piped

/-- Both directions. -/
theorem HalfStep.piped {x y x' y' : Half} (hstep : HalfStep x y x' y') (h : Piped x y) (h' : Piped y x) :
    Piped x' y' ∧ Piped y' x' := by
  cases hstep with
  | connect _ hlive =>
      have hqueued := h.queue (m := (mHello, helloPayload x.net)) (by simp [helloPayload])
      exact ⟨⟨hqueued.size, hqueued.split, hqueued.waiting⟩, ⟨h'.size, h'.split, h'.waiting⟩⟩
  | fail => exact ⟨⟨h.size, h.split, h.waiting⟩, h'.kill⟩
  | queue m hlive hsize => exact ⟨h.queue hsize, ⟨h'.size, h'.split, h'.waiting⟩⟩
  | receive io _ hlive hreadable harrived =>
      obtain ⟨taken, rest, hqueued, hhanded, hway⟩ := h.split
      have hout := outbuf_recvAndParse x.net x.id io x.peer
      refine ⟨⟨h.size, ⟨taken, rest, hqueued, hhanded, fun hlive => ?_⟩, h.waiting⟩, h'.receive hlive hreadable harrived⟩
      show _ = y.peer.inbuf ++ (y.arriving ++ (recvAndParse x.net x.id io x.peer).1.outbuf)
      rw [hout]
      exact hway hlive
  | send sent _ hlive =>
      have hline : (sendSome sent x.peer).inbuf = x.peer.inbuf := by
        cases sent with
        | none => rfl
        | some n => rfl
      obtain ⟨taken, rest, hqueued, hhanded, hway⟩ := h'.split
      refine ⟨h.send sent, ⟨h'.size, ⟨taken, rest, hqueued, hhanded, fun _ => ?_⟩, fun _ => ?_⟩⟩
      · show _ = (sendSome sent x.peer).inbuf ++ (x.arriving ++ y.peer.outbuf)
        rw [hline]
        exact hway hlive
      · show nextFrame (sendSome sent x.peer).inbuf = _
        rw [hline]
        exact h'.waiting hlive
  | gone hdead =>
      obtain ⟨taken, rest, hqueued, hhanded, hway⟩ := h'.split
      refine ⟨⟨h.size, h.split, h.waiting⟩, ⟨h'.size, ⟨taken, rest, hqueued, ?_, hway⟩, h'.waiting⟩⟩
      show messages (x.handed ++ [.gone x.id]) = _
      rw [messages_append, hhanded]
      exact List.append_nil _

theorem LineRun.piped {x y : Half} (h : LineRun x y) : Piped x y ∧ Piped y x := by
  induction h with
  | start hx hy => exact ⟨.new hx hy, .new hy hx⟩
  | step _ hstep ih => exact hstep.piped ih.1 ih.2
  | swap _ ih => exact ih.symm

/-- What is left of a stream that cannot be parsed further is nothing, when no more is on its way. -/
theorem stream_eq_incomplete {msgs : List (UInt8 × Bytes)} {buf : Bytes} (hsize : ∀ m ∈ msgs, m.2.length < 2 ^ 32)
    (h : stream msgs = buf) (hwaiting : nextFrame buf = .incomplete) : msgs = [] := by
  cases msgs with
  | nil => rfl
  | cons m msgs =>
      rw [← h] at hwaiting
      by_cases hbig : maxFrame < m.2.length
      · rw [nextFrame_stream_big (hsize m List.mem_cons_self) hbig] at hwaiting
        cases hwaiting
      · rw [nextFrame_stream (Nat.not_lt.mp hbig)] at hwaiting
        cases hwaiting

/-- **A link is a queue.** However its two ends take turns and however the bytes are cut, what one end has handed on are
the first messages that the other one has queued for it, without the HELLOs: in their order, none lost between them, none
twice, none that was not queued. When the receiving end is alive and nothing is under way, it has handed on all of them. -/
theorem link_is_fifo {x y : Half} (h : LineRun x y) :
    messages y.handed <+: unhello x.queued ∧
      (y.peer.dead = false → y.arriving = [] → x.peer.outbuf = [] → messages y.handed = unhello x.queued) := by
  obtain ⟨hpiped, -⟩ := h.piped
  obtain ⟨taken, rest, hqueued, hhanded, hway⟩ := hpiped.split
  refine ⟨⟨unhello rest, ?_⟩, fun hlive harriving hout => ?_⟩
  · rw [hhanded, hqueued, unhello_append]
  · have hstream := hway hlive
    rw [harriving, hout, List.append_nil, List.append_nil] at hstream
    have hsize : ∀ m ∈ rest, m.2.length < 2 ^ 32 := fun m hm =>
      hpiped.size m (by rw [hqueued]; exact List.mem_append_right _ hm)
    have hnone := stream_eq_incomplete hsize hstream (hpiped.waiting hlive)
    rw [hhanded, hqueued, hnone, List.append_nil]

/-! ### The network thread and the node -/

theorem Half.arrive_nil (y : Half) : y.arrive [] = y := by
  rw [arrive, List.append_nil]

/-- **A turn of the network thread** at one entry is such steps. -/
theorem LineRun.serve {x y : Half} (h : LineRun x y) {io : Sockets} (harrived : io.chunks.flatten <+: x.arriving) :
    ∃ x' bytes, LineRun x' (y.arrive bytes) ∧ x'.peer = (servePeer x.net x.id (!x.opened) io x.peer).peer ∧
      (!x'.opened) = (servePeer x.net x.id (!x.opened) io x.peer).connecting ∧
      x'.handed = x.handed ++ (servePeer x.net x.id (!x.opened) io x.peer).evs := by
  have hidle : ∃ x' bytes, LineRun x' (y.arrive bytes) ∧ x'.peer = x.peer ∧ (!x'.opened) = (!x.opened) ∧
      x'.handed = x.handed ++ [] := ⟨x, [], by rw [y.arrive_nil]; exact h, rfl, rfl, (List.append_nil _).symm⟩
  have hkill : ∃ x' bytes, LineRun x' (y.arrive bytes) ∧ x'.peer = { x.peer with dead := true } ∧
      (!x'.opened) = (!x.opened) ∧ x'.handed = x.handed ++ [] :=
    ⟨x.kill, [], by rw [y.arrive_nil]; exact h.step .fail, rfl, rfl, (List.append_nil _).symm⟩
  unfold servePeer
  by_cases hdead : x.peer.dead = true
  · rw [if_pos hdead]
    exact hidle
  have hlive : x.peer.dead = false := by simpa using hdead
  rw [if_neg hdead]
  by_cases hopened : x.opened = true
  · rw [if_neg (by rw [hopened]; decide)]
    -- what is readable is received first
    obtain ⟨x₁, hrun, hpeer, hopen, hhanded⟩ : ∃ x₁, LineRun x₁ y ∧ x₁.peer = (recvAndParse x.net x.id io x.peer).1 ∧
        x₁.opened = true ∧ x₁.handed = x.handed ++ (recvAndParse x.net x.id io x.peer).2 := by
      by_cases hreadable : io.readable = true
      · exact ⟨x.receive io, h.step (.receive io hopened hlive hreadable harrived), rfl, hopened, rfl⟩
      · refine ⟨x, h, ?_, hopened, ?_⟩
        · rw [recvAndParse, if_neg hreadable]
        · rw [recvAndParse, if_neg hreadable, List.append_nil]
    generalize recvAndParse x.net x.id io x.peer = r at hpeer hhanded
    obtain ⟨p, evs⟩ := r
    dsimp only at hpeer hhanded ⊢
    split_ifs with hsend
    · have hlive₁ : x₁.peer.dead = false := by
        rw [hpeer]
        simp at hsend
        exact hsend.1.1
      refine ⟨x₁.send io.sent, _, hrun.step (.send io.sent hopen hlive₁), ?_, ?_, hhanded⟩
      · rw [← hpeer]
        rfl
      · show (!x₁.opened) = _
        rw [hopen, hopened]
    · exact ⟨x₁, [], by rw [y.arrive_nil]; exact hrun, hpeer, by rw [hopen, hopened], hhanded⟩
  · have hclosed : x.opened = false := by simpa using hopened
    rw [if_pos (by rw [hclosed]; rfl)]
    split_ifs
    · exact hkill
    · exact hkill
    · exact ⟨x.connect, [], by rw [y.arrive_nil]; exact h.step (.connect hclosed hlive), rfl, rfl, (List.append_nil _).symm⟩
    · exact hidle

/-- The type and the payload that go over the wire. -/
def NetCall.message : NetCall → UInt8 × Bytes
  | .sendTo _ type payload => (type, payload)
  | .broadcast type payload _ => (type, payload)

/-- **A call of the node** queues its message for the peer, or does nothing to the entry. -/
theorem LineRun.perform {x y : Half} (h : LineRun x y) {net : P2P} (hget : net.peers[x.id]? = some x.peer) {call : NetCall}
    (hsize : call.message.2.length < 2 ^ 32) : ∃ x', LineRun x' y ∧ (net.perform call).peers[x.id]? = some x'.peer ∧
      (x' = x ∨ x' = x.queue call.message) := by
  cases call with
  | sendTo peer type payload =>
      show ∃ x', LineRun x' y ∧ (net.sendTo peer type payload).peers[x.id]? = some x'.peer ∧ _
      by_cases hpeer : peer = x.id
      · subst hpeer
        rw [P2P.sendTo, hget]
        dsimp only
        by_cases hdead : x.peer.dead = true
        · rw [if_pos hdead]
          exact ⟨x, h, hget, Or.inl rfl⟩
        · rw [if_neg hdead]
          exact ⟨x.queue (type, payload), h.step (.queue _ (by simpa using hdead) hsize),
            ExtTreeMap.getElem?_insert_self, Or.inr rfl⟩
      · refine ⟨x, h, ?_, Or.inl rfl⟩
        rw [P2P.sendTo]
        split
        · exact hget
        · split
          · exact hget
          · exact (OrderedMap.getElem?_insert_eq ..).trans (by rw [if_neg hpeer]; exact hget)
  | broadcast type payload except =>
      have hmap : (net.perform (.broadcast type payload except)).peers[x.id]? = some
          (if x.peer.ready && !x.peer.dead && x.id != except then
            { x.peer with outbuf := frameInto x.peer.outbuf type payload } else x.peer) := by
        show (net.broadcast type payload except).peers[x.id]? = _
        rw [P2P.broadcast, ExtTreeMap.getElem?_map, hget]
        rfl
      rw [hmap]
      split_ifs with hready
      · have hlive : x.peer.dead = false := by
          simp at hready
          exact hready.1.2
        exact ⟨x.queue (type, payload), h.step (.queue _ hlive hsize), rfl, Or.inr rfl⟩
      · exact ⟨x, h, rfl, Or.inl rfl⟩

/-! ### A first message -/

/-- The ends of a link between two nodes that have just connected. -/
def dialingEnd : Half := { net := { netId := 1, listenPort := 7501 }, peer := { target := "127.0.0.1:7502" } }

def listeningEnd : Half := { net := { netId := 1, listenPort := 7502 } }

/-- The HELLO and a transaction have been sent. -/
def sentEnd : Half := (dialingEnd.connect.queue (mTx, [9])).send (some 100)

/-- What has been sent has arrived and been read, in two pieces. -/
def readEnd : Half :=
  (listeningEnd.arrive ((dialingEnd.connect.queue (mTx, [9])).peer.outbuf.take 100)).connect.receive
    { readable := true, chunks := [(dialingEnd.connect.queue (mTx, [9])).peer.outbuf.take 7,
      (dialingEnd.connect.queue (mTx, [9])).peer.outbuf.drop 7] }

theorem sentEnd_run : LineRun sentEnd readEnd := by
  have hstart : LineRun dialingEnd listeningEnd := .start ⟨rfl, rfl, rfl, rfl, rfl⟩ ⟨rfl, rfl, rfl, rfl, rfl⟩
  have hconnect := hstart.step (.connect rfl rfl)
  have hqueue := hconnect.step (.queue (mTx, [9]) rfl (by decide))
  have hsend := hqueue.step (.send (some 100) rfl rfl)
  have hanswer := hsend.swap.step (.connect rfl rfl)
  refine (hanswer.step (.receive _ rfl rfl rfl ?_)).swap
  exact List.prefix_iff_eq_take.mpr rfl

/-- The transaction is handed on, once. -/
theorem link_is_fifo_first : messages readEnd.handed <+: unhello sentEnd.queued ∧ messages readEnd.handed = [(mTx, [9])] :=
  ⟨(link_is_fifo sentEnd_run).1, (link_is_fifo sentEnd_run).2 rfl rfl rfl⟩

end Chainlite
