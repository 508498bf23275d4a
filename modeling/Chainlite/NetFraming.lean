import Chainlite.Net

/-! Framing over a byte stream. The bytes of a connection arrive in pieces of any size; each piece is appended
to the input buffer and `parse_frames` takes off the frames that are complete. What a piece adds to the buffer
does not change the frames before it, so how the stream was cut shows neither in the events nor in the peer. -/

open Std

namespace Chainlite

/-! ### The receive path -/

/-- The most bytes a peer may leave in the input buffer. -/
def maxInbuf : Nat := 16 * 1024 * 1024

/-- Received bytes are appended, and parsed unless there are too many. A dead peer receives nothing. -/
def onRecv (net : P2P) (id : Int) (p : Peer) (chunk : Bytes) : Peer × List Ev :=
  if p.dead then (p, [])
  else
    let p := { p with inbuf := p.inbuf ++ chunk }
    if maxInbuf < p.inbuf.length then ({ p with dead := true }, []) else parseFrames net id p

/-- The pieces of a stream, one after another. -/
def receive (net : P2P) (id : Int) : Peer → List Bytes → Peer × List Ev
  | p, [] => (p, [])
  | p, chunk :: rest =>
      let (p', evs) := onRecv net id p chunk
      let (p'', evs') := receive net id p' rest
      (p'', evs ++ evs')

/-- The input buffer never holds too many bytes. -/
def StaysWithin (net : P2P) (id : Int) : Peer → List Bytes → Prop
  | _, [] => True
  | p, chunk :: rest =>
      (p.dead = false → (p.inbuf ++ chunk).length ≤ maxInbuf) ∧ StaysWithin net id (onRecv net id p chunk).1 rest

/-! ### One frame -/

theorem nextFrame_cases (buf : Bytes) :
    (nextFrame buf = .incomplete ∧ (buf.length < 5 ∨ Wire.leNat (buf.take 4) ≤ maxFrame ∧
      buf.length < 5 + Wire.leNat (buf.take 4))) ∨
    (nextFrame buf = .tooBig ∧ 5 ≤ buf.length ∧ maxFrame < Wire.leNat (buf.take 4)) ∨
    (5 ≤ buf.length ∧ Wire.leNat (buf.take 4) ≤ maxFrame ∧ 5 + Wire.leNat (buf.take 4) ≤ buf.length ∧
      nextFrame buf = .whole (buf.getD 4 0) ((buf.drop 5).take (Wire.leNat (buf.take 4)))
        (buf.drop (5 + Wire.leNat (buf.take 4)))) := by
  rw [nextFrame]
  dsimp only
  split_ifs with hshort hbig hpart
  · exact Or.inl ⟨rfl, Or.inl hshort⟩
  · exact Or.inr (Or.inl ⟨rfl, by omega, hbig⟩)
  · exact Or.inl ⟨rfl, Or.inr ⟨by omega, hpart⟩⟩
  · exact Or.inr (Or.inr ⟨by omega, by omega, by omega, rfl⟩)

theorem nextFrame_length {buf payload rest : Bytes} {type : UInt8} (h : nextFrame buf = .whole type payload rest) :
    rest.length < buf.length := by
  rcases nextFrame_cases buf with ⟨heq, -⟩ | ⟨heq, -⟩ | ⟨hlen, -, -, heq⟩
  · rw [heq] at h
    cases h
  · rw [heq] at h
    cases h
  · rw [heq] at h
    cases h
    rw [List.length_drop]
    omega

/-- A frame that is complete is not changed by what follows it. -/
theorem nextFrame_append_whole {buf payload rest : Bytes} {type : UInt8} (h : nextFrame buf = .whole type payload rest)
    (more : Bytes) : nextFrame (buf ++ more) = .whole type payload (rest ++ more) := by
  rcases nextFrame_cases buf with ⟨heq, -⟩ | ⟨heq, -⟩ | ⟨hlen, hsmall, hwhole, heq⟩
  · rw [heq] at h
    cases h
  · rw [heq] at h
    cases h
  · rw [heq] at h
    cases h
    have hhead : (buf ++ more).take 4 = buf.take 4 := List.take_append_of_le_length (by omega)
    have htype : (buf ++ more).getD 4 0 = buf.getD 4 0 := by
      rw [List.getD_eq_getElem?_getD, List.getElem?_append_left (by omega), ← List.getD_eq_getElem?_getD]
    have hbody : ((buf ++ more).drop 5).take (Wire.leNat (buf.take 4)) = (buf.drop 5).take (Wire.leNat (buf.take 4)) := by
      rw [List.drop_append_of_le_length hlen, List.take_append_of_le_length (by rw [List.length_drop]; omega)]
    have hlonger : buf.length ≤ (buf ++ more).length := by simp
    rw [nextFrame, hhead, if_neg (by omega)]
    dsimp only
    rw [if_neg (by omega), if_neg (by omega), htype, hbody, List.drop_append_of_le_length hwhole]

theorem nextFrame_append_tooBig {buf : Bytes} (h : nextFrame buf = .tooBig) (more : Bytes) :
    nextFrame (buf ++ more) = .tooBig := by
  rcases nextFrame_cases buf with ⟨heq, -⟩ | ⟨-, hlen, hbig⟩ | ⟨-, -, -, heq⟩
  · rw [heq] at h
    cases h
  · have hhead : (buf ++ more).take 4 = buf.take 4 := List.take_append_of_le_length (by omega)
    have hlonger : buf.length ≤ (buf ++ more).length := by simp
    rw [nextFrame, hhead, if_neg (by omega)]
    exact if_pos hbig
  · rw [heq] at h
    cases h

/-- A frame is put behind what is there. -/
theorem frameInto_eq (out : Bytes) (type : UInt8) (payload : Bytes) :
    frameInto out type payload = out ++ frameInto [] type payload := by
  simp [frameInto]

/-- A single frame in the buffer is taken out whole, unless it is too big. -/
theorem nextFrame_frameInto (type : UInt8) {payload : Bytes} (hlen : payload.length < 2 ^ 32) :
    nextFrame (frameInto [] type payload) =
      if maxFrame < payload.length then .tooBig else .whole type payload [] := by
  have hframe : frameInto [] type payload = Writer.u32 (UInt32.ofNat payload.length) ++ type :: payload := by
    simp [frameInto]
  have hsize : (frameInto [] type payload).length = 5 + payload.length := by
    rw [hframe, List.length_append, List.length_cons, Writer.length_u32]
    omega
  have hhead : Wire.leNat ((frameInto [] type payload).take 4) = payload.length := by
    rw [hframe, List.take_left' (Writer.length_u32 _), Writer.u32, UInt32.toNat_ofNat_of_lt' hlen]
    exact Wire.leNat_leBytes 4 _ hlen
  have hrest : (frameInto [] type payload).drop 4 = type :: payload := by
    rw [hframe, List.drop_left' (Writer.length_u32 _)]
  have hbody : (frameInto [] type payload).drop 5 = payload := by
    rw [show 5 = 4 + 1 from rfl, ← List.drop_drop, hrest, List.drop_one, List.tail_cons]
  have htype : (frameInto [] type payload).getD 4 0 = type := by
    rw [List.getD_eq_getElem?_getD, ← List.head?_drop, hrest]
    rfl
  rw [nextFrame, if_neg (by omega), hhead]
  dsimp only
  split
  · rfl
  · rw [if_neg (by omega), htype, hbody, List.take_length, List.drop_of_length_le (by omega)]

/-! ### The loop -/

/-- The peer with other bytes in its input buffer. -/
def Peer.withInbuf (p : Peer) (buf : Bytes) : Peer := { p with inbuf := buf }

@[simp] theorem Peer.inbuf_withInbuf (p : Peer) (buf : Bytes) : (p.withInbuf buf).inbuf = buf := rfl
@[simp] theorem Peer.dead_withInbuf (p : Peer) (buf : Bytes) : (p.withInbuf buf).dead = p.dead := rfl
@[simp] theorem Peer.withInbuf_self (p : Peer) : p.withInbuf p.inbuf = p := rfl
@[simp] theorem Peer.withInbuf_withInbuf (p : Peer) (buf buf' : Bytes) :
    (p.withInbuf buf).withInbuf buf' = p.withInbuf buf' := rfl

variable (net : P2P) (id : Int)

/-- A message does not touch the input buffer. -/
theorem onFrame_inbuf (p : Peer) (type : UInt8) (payload buf : Bytes) :
    onFrame net id (p.withInbuf buf) type payload =
      ((onFrame net id p type payload).1.withInbuf buf, (onFrame net id p type payload).2) := by
  unfold onFrame onHello onTip Peer.withInbuf
  split_ifs
  · split
    · rfl
    · dsimp only
      split_ifs <;> rfl
  · split
    · rfl
    · dsimp only
      split
      · rfl
      · split <;> rfl
  · rfl

theorem inbuf_onFrame (p : Peer) (type : UInt8) (payload : Bytes) :
    (onFrame net id p type payload).1.inbuf = p.inbuf := by
  have h := onFrame_inbuf net id p type payload p.inbuf
  exact congrArg (fun r => r.1.inbuf) h

theorem parseFramesWithin_whole {p : Peer} {type : UInt8} {payload rest : Bytes}
    (h : nextFrame p.inbuf = .whole type payload rest) (fuel : Nat) :
    parseFramesWithin net id (fuel + 1) p =
      let r := onFrame net id (p.withInbuf rest) type payload
      if r.1.dead then r else
        ((parseFramesWithin net id fuel r.1).1, r.2 ++ (parseFramesWithin net id fuel r.1).2) := by
  rw [parseFramesWithin, h]
  rfl

/-- Any number of turns above the length of the buffer is enough. -/
theorem parseFramesWithin_eq {fuel : Nat} {p : Peer} (h : p.inbuf.length < fuel) :
    parseFramesWithin net id fuel p = parseFrames net id p := by
  have hstable : ∀ n fuel fuel' (p : Peer), p.inbuf.length = n → n < fuel → n < fuel' →
      parseFramesWithin net id fuel p = parseFramesWithin net id fuel' p := by
    intro n
    induction n using Nat.strongRecOn with
    | ind n ih =>
        intro fuel fuel' p hn hfuel hfuel'
        obtain ⟨fuel, rfl⟩ := Nat.exists_eq_succ_of_ne_zero (Nat.ne_zero_of_lt hfuel)
        obtain ⟨fuel', rfl⟩ := Nat.exists_eq_succ_of_ne_zero (Nat.ne_zero_of_lt hfuel')
        cases hframe : nextFrame p.inbuf with
        | incomplete => rw [parseFramesWithin, parseFramesWithin, hframe]
        | tooBig => rw [parseFramesWithin, parseFramesWithin, hframe]
        | whole type payload rest =>
            have hrest := nextFrame_length hframe
            have hbuf := inbuf_onFrame net id (p.withInbuf rest) type payload
            rw [parseFramesWithin_whole net id hframe, parseFramesWithin_whole net id hframe]
            dsimp only
            rw [ih rest.length (by omega) fuel fuel' _ (congrArg List.length hbuf) (by omega) (by omega)]
  exact hstable _ _ _ p rfl h (Nat.lt_succ_self _)

theorem parseFrames_incomplete {p : Peer} (h : nextFrame p.inbuf = .incomplete) : parseFrames net id p = (p, []) := by
  rw [parseFrames, parseFramesWithin, h]

theorem parseFrames_tooBig {p : Peer} (h : nextFrame p.inbuf = .tooBig) :
    parseFrames net id p = ({ p with dead := true }, []) := by
  rw [parseFrames, parseFramesWithin, h]

theorem parseFrames_whole {p : Peer} {type : UInt8} {payload rest : Bytes}
    (h : nextFrame p.inbuf = .whole type payload rest) :
    parseFrames net id p =
      let r := onFrame net id (p.withInbuf rest) type payload
      if r.1.dead then r else ((parseFrames net id r.1).1, r.2 ++ (parseFrames net id r.1).2) := by
  have hrest := nextFrame_length h
  have hbuf := inbuf_onFrame net id (p.withInbuf rest) type payload
  rw [parseFrames, parseFramesWithin_whole net id h]
  dsimp only
  rw [parseFramesWithin_eq net id ((congrArg List.length hbuf).trans_lt hrest)]

/-- **The induction that parsing goes by**: it stops at once, or the first frame is done and the rest of the buffer is
left. -/
theorem parseFrames_induct {motive : Peer → Prop} (incomplete : ∀ p : Peer, nextFrame p.inbuf = .incomplete → motive p)
    (tooBig : ∀ p : Peer, nextFrame p.inbuf = .tooBig → motive p)
    (whole : ∀ (p : Peer) (type : UInt8) (payload rest : Bytes), nextFrame p.inbuf = .whole type payload rest →
      (onFrame net id (p.withInbuf rest) type payload).1.inbuf = rest →
      motive (onFrame net id (p.withInbuf rest) type payload).1 → motive p) (p : Peer) : motive p := by
  induction hn : p.inbuf.length using Nat.strongRecOn generalizing p with
  | ind n ih =>
      cases hframe : nextFrame p.inbuf with
      | incomplete => exact incomplete p hframe
      | tooBig => exact tooBig p hframe
      | whole type payload rest =>
          have hrest := nextFrame_length hframe
          have hbuf : (onFrame net id (p.withInbuf rest) type payload).1.inbuf = rest :=
            inbuf_onFrame net id (p.withInbuf rest) type payload
          exact whole p type payload rest hframe hbuf (ih _ (by rw [hbuf]; omega) _ rfl)

/-- **More bytes come after the frames that are there**: parsing a longer buffer is parsing what was there,
then the bytes it left with the new ones after them. -/
theorem parseFrames_append {p : Peer} (hlive : p.dead = false) (more : Bytes) :
    parseFrames net id (p.withInbuf (p.inbuf ++ more)) =
      let r := parseFrames net id p
      let p' := r.1.withInbuf (r.1.inbuf ++ more)
      if r.1.dead then (p', r.2) else ((parseFrames net id p').1, r.2 ++ (parseFrames net id p').2) := by
  induction p using parseFrames_induct net id with
  | incomplete p hframe =>
      rw [parseFrames_incomplete net id hframe]
      simp [hlive]
  | tooBig p hframe =>
      rw [parseFrames_tooBig net id hframe, parseFrames_tooBig net id (nextFrame_append_tooBig hframe more)]
      rfl
  | whole p type payload rest hframe hbuf ih =>
      have hmore := onFrame_inbuf net id (p.withInbuf rest) type payload (rest ++ more)
      rw [Peer.withInbuf_withInbuf] at hmore
      rw [parseFrames_whole net id hframe, parseFrames_whole net id (nextFrame_append_whole hframe more),
        Peer.withInbuf_withInbuf, hmore]
      generalize onFrame net id (p.withInbuf rest) type payload = r at hbuf ih ⊢
      obtain ⟨p', evs⟩ := r
      have hbuf : p'.inbuf = rest := hbuf
      cases hdead : p'.dead with
      | true => simp [hdead, hbuf]
      | false =>
          have hnext := ih hdead
          dsimp only at hnext
          rw [hbuf] at hnext
          simp only [Peer.dead_withInbuf, hdead, Bool.false_eq_true, if_false, hnext]
          split
          · rfl
          · rw [List.append_assoc]

/-- What `parse_frames` leaves in the buffer of a live peer is no complete frame. -/
theorem nextFrame_parseFrames {p : Peer} (hlive : (parseFrames net id p).1.dead = false) :
    nextFrame (parseFrames net id p).1.inbuf = .incomplete := by
  induction p using parseFrames_induct net id with
  | incomplete p hframe =>
      rw [parseFrames_incomplete net id hframe]
      exact hframe
  | tooBig p hframe =>
      rw [parseFrames_tooBig net id hframe] at hlive
      cases hlive
  | whole p type payload rest hframe hbuf ih =>
      have hwhole := parseFrames_whole net id hframe
      generalize onFrame net id (p.withInbuf rest) type payload = r at ih hwhole
      cases hdead : r.1.dead with
      | true =>
          simp only [hdead, if_true] at hwhole
          rw [hwhole, hdead] at hlive
          cases hlive
      | false =>
          simp only [hdead, Bool.false_eq_true, if_false] at hwhole
          rw [hwhole] at hlive ⊢
          exact ih hlive

/-! ### Streams -/

/-- Two runs of the receive path end alike: the same events, the same peer, and if it is alive the same bytes
left over. -/
structure SameOutcome (r r' : Peer × List Ev) : Prop where
  events : r.2 = r'.2
  peer : r.1.withInbuf [] = r'.1.withInbuf []
  inbuf : r.1.dead = false → r.1.inbuf = r'.1.inbuf

theorem SameOutcome.dead {r r' : Peer × List Ev} (h : SameOutcome r r') : r.1.dead = r'.1.dead := by
  have hpeer := congrArg Peer.dead h.peer
  exact hpeer

theorem SameOutcome.symm {r r' : Peer × List Ev} (h : SameOutcome r r') : SameOutcome r' r :=
  ⟨h.events.symm, h.peer.symm, fun hlive => (h.inbuf (h.dead.trans hlive)).symm⟩

theorem SameOutcome.trans {r r' r'' : Peer × List Ev} (h : SameOutcome r r') (h' : SameOutcome r' r'') :
    SameOutcome r r'' :=
  ⟨h.events.trans h'.events, h.peer.trans h'.peer,
    fun hlive => (h.inbuf hlive).trans (h'.inbuf (h.dead ▸ hlive))⟩

theorem receive_dead {p : Peer} (h : p.dead = true) (chunks : List Bytes) : receive net id p chunks = (p, []) := by
  induction chunks with
  | nil => rfl
  | cons chunk rest ih =>
      have hnone : onRecv net id p chunk = (p, []) := by rw [onRecv, if_pos h]
      rw [receive, hnone]
      dsimp only
      rw [ih]
      rfl

/-- **The pieces of a stream are parsed as the whole of it**, from any peer with no complete frame waiting. -/
theorem receive_sameOutcome {p : Peer} (hlive : p.dead = false) (hwaiting : nextFrame p.inbuf = .incomplete)
    {chunks : List Bytes} (hwithin : StaysWithin net id p chunks) :
    SameOutcome (receive net id p chunks) (parseFrames net id (p.withInbuf (p.inbuf ++ chunks.flatten))) := by
  induction chunks generalizing p with
  | nil =>
      rw [List.flatten_nil, List.append_nil, Peer.withInbuf_self, parseFrames_incomplete net id hwaiting]
      exact ⟨rfl, rfl, fun _ => rfl⟩
  | cons chunk rest ih =>
      obtain ⟨hroom, hrest⟩ := hwithin
      have hrecv : onRecv net id p chunk = parseFrames net id (p.withInbuf (p.inbuf ++ chunk)) := by
        have halive : ¬p.dead = true := by rw [hlive]; decide
        rw [onRecv, if_neg halive]
        exact if_neg (Nat.not_lt.mpr (hroom hlive))
      have hsplit := parseFrames_append net id (p := p.withInbuf (p.inbuf ++ chunk)) hlive rest.flatten
      rw [Peer.withInbuf_withInbuf, Peer.inbuf_withInbuf, List.append_assoc] at hsplit
      rw [List.flatten_cons, hsplit, receive, hrecv]
      rw [hrecv] at hrest
      have hsettled := nextFrame_parseFrames net id (p := p.withInbuf (p.inbuf ++ chunk))
      generalize parseFrames net id (p.withInbuf (p.inbuf ++ chunk)) = r at hrest hsettled ⊢
      dsimp only
      cases hdead : r.1.dead with
      | true =>
          rw [receive_dead net id hdead, if_pos rfl, List.append_nil]
          exact ⟨rfl, rfl, fun h => absurd (hdead.symm.trans h) (by decide)⟩
      | false =>
          rw [if_neg (by decide)]
          obtain ⟨hevents, hpeer, hinbuf⟩ := ih hdead (hsettled hdead) hrest
          exact ⟨congrArg (r.2 ++ ·) hevents, hpeer, hinbuf⟩

/-! ### Messages -/

/-- A number or an array is read when there are enough bytes. -/
theorem map_blob_ok {α : Type} {k : Nat} (f : Bytes → α) {input : Bytes} (h : k ≤ input.length) :
    (do return f (← Reader.blob k) : Reader.Read α) input = .ok (f (input.take k), input.drop k) := by
  have hblob : Reader.blob k input = .ok (input.take k, input.drop k) := if_neg (Nat.not_lt.mpr h)
  exact Wire.bind_ok_iff.mpr ⟨_, _, hblob, rfl⟩

theorem map_blob_error {α : Type} {k : Nat} (f : Bytes → α) {input : Bytes} (h : input.length < k) :
    ∃ e, (do return f (← Reader.blob k) : Reader.Read α) input = .error e := by
  cases hread : (do return f (← Reader.blob k) : Reader.Read α) input with
  | error e => exact ⟨e, rfl⟩
  | ok result =>
      obtain ⟨bytes, rest, hblob, -⟩ := Wire.bind_ok_iff.mp hread
      obtain ⟨hlen, rfl⟩ := Reader.blob_ok hblob
      rw [List.length_append] at h
      omega

/-- A TIP that is long enough is stored and handed on. -/
theorem onTip_long {payload : Bytes} (h : 48 ≤ payload.length) (p : Peer) :
    ∃ height work hash, onTip id p payload =
      ({ p with tipHeight := height, tipWork := work, tipHash := hash }, [.msg id mTip payload]) := by
  have hheight : Reader.u64 payload = _ := map_blob_ok _ (show 8 ≤ payload.length by omega)
  have hwork : Reader.u64 (payload.drop 8) = _ := map_blob_ok _ (by rw [List.length_drop]; omega)
  have hhash : Reader.arr 32 ((payload.drop 8).drop 8) = _ :=
    map_blob_ok _ (by rw [List.length_drop, List.length_drop]; omega)
  rw [onTip, hheight]
  dsimp only
  rw [hwork]
  dsimp only
  rw [hhash]
  exact ⟨_, _, _, rfl⟩

/-- One that is too short costs the link. -/
theorem onTip_short {payload : Bytes} (h : payload.length < 48) (p : Peer) :
    (onTip id p payload).1.dead = true ∧ (onTip id p payload).2 = [] := by
  by_cases hheight : payload.length < 8
  · obtain ⟨e, he⟩ := map_blob_error (fun bytes => UInt64.ofNat (Wire.leNat bytes)) hheight
    have he : Reader.u64 payload = .error e := he
    rw [onTip, he]
    exact ⟨rfl, rfl⟩
  have hread : Reader.u64 payload = _ := map_blob_ok _ (Nat.not_lt.mp hheight)
  by_cases hwork : (payload.drop 8).length < 8
  · obtain ⟨e, he⟩ := map_blob_error (fun bytes => UInt64.ofNat (Wire.leNat bytes)) hwork
    have he : Reader.u64 (payload.drop 8) = .error e := he
    rw [onTip, hread]
    dsimp only
    rw [he]
    exact ⟨rfl, rfl⟩
  have hread' : Reader.u64 (payload.drop 8) = _ := map_blob_ok _ (Nat.not_lt.mp hwork)
  have hhash : ((payload.drop 8).drop 8).length < 32 := by
    rw [List.length_drop, List.length_drop]
    omega
  obtain ⟨e, he⟩ := map_blob_error (Reader.toArr 32) hhash
  have he : Reader.arr 32 ((payload.drop 8).drop 8) = .error e := he
  rw [onTip, hread]
  dsimp only
  rw [hread']
  dsimp only
  rw [he]
  exact ⟨rfl, rfl⟩

/-- A HELLO that passes the checks on the network id and on which end dials. -/
def HelloPasses (p : Peer) (payload : Bytes) : Prop :=
  ∃ port rest, readHello payload = .ok ((net.netId, port), rest) ∧
    (port ≠ 0 → (net.listenPort < port ↔ p.target ≠ ""))

/-- A HELLO that passes makes the peer ready, once. -/
theorem onHello_passes {p : Peer} {payload : Bytes} (h : HelloPasses net p payload) :
    ∃ port, onHello net id p payload =
      ({ p with peerPort := port, ready := true }, if p.ready then [] else [.ready id]) := by
  obtain ⟨port, rest, hread, hdial⟩ := h
  refine ⟨port, ?_⟩
  rw [onHello, hread]
  dsimp only
  rw [if_neg (not_not.mpr rfl), if_neg (by tauto)]
  cases hready : p.ready with
  | true => cases p; simp_all
  | false => rfl

/-- A message that an orderly peer sends: not too long, a HELLO that passes, a TIP with all of its fields. -/
structure Orderly (p : Peer) (m : UInt8 × Bytes) : Prop where
  size : m.2.length ≤ maxFrame
  hello : m.1 = mHello → HelloPasses net p m.2
  tip : m.1 = mTip → 48 ≤ m.2.length

/-- The bytes of a list of messages. -/
def stream (msgs : List (UInt8 × Bytes)) : Bytes := msgs.flatMap fun m => frameInto [] m.1 m.2

/-- The events for the messages that are handed on. -/
def handedOn (msgs : List (UInt8 × Bytes)) : List Ev :=
  (msgs.filter fun m => m.1 ≠ mHello).map fun m => .msg id m.1 m.2

/-- **One orderly message.** -/
theorem onFrame_orderly {p : Peer} {m : UInt8 × Bytes} (h : Orderly net p m) :
    (onFrame net id p m.1 m.2).1.dead = p.dead ∧ (onFrame net id p m.1 m.2).1.target = p.target ∧
      (onFrame net id p m.1 m.2).1.ready = (p.ready || m.1 = mHello) ∧
      (onFrame net id p m.1 m.2).2 = (if m.1 = mHello ∧ p.ready = false then [.ready id] else []) ++ handedOn id [m] := by
  rw [onFrame]
  by_cases hhello : m.1 = mHello
  · obtain ⟨port, hpass⟩ := onHello_passes net id (h.hello hhello)
    rw [if_pos hhello, hpass]
    refine ⟨rfl, rfl, by simp [hhello], ?_⟩
    cases hready : p.ready with
    | true => simp [handedOn, hhello]
    | false => simp [handedOn, hhello]
  · rw [if_neg hhello]
    have hevents : handedOn id [m] = [.msg id m.1 m.2] := by simp [handedOn, hhello]
    by_cases htip : m.1 = mTip
    · obtain ⟨height, work, hash, hlong⟩ := onTip_long id (h.tip htip) p
      rw [if_pos htip, hlong, hevents, htip]
      exact ⟨rfl, rfl, by simp [show mTip ≠ mHello by decide], by simp [show mTip ≠ mHello by decide]⟩
    · rw [if_neg htip, hevents]
      exact ⟨rfl, rfl, by simp [hhello], by simp [hhello]⟩

theorem Orderly.congr {p p' : Peer} (htarget : p'.target = p.target) {m : UInt8 × Bytes} (h : Orderly net p m) :
    Orderly net p' m := by
  refine ⟨h.size, fun hhello => ?_, h.tip⟩
  obtain ⟨port, rest, hread, hdial⟩ := h.hello hhello
  exact ⟨port, rest, hread, by rwa [htarget]⟩

theorem nextFrame_stream {m : UInt8 × Bytes} (hsize : m.2.length ≤ maxFrame) (msgs : List (UInt8 × Bytes)) :
    nextFrame (stream (m :: msgs)) = .whole m.1 m.2 (stream msgs) := by
  have hmax : maxFrame < 2 ^ 32 := by decide
  have hframe := nextFrame_frameInto m.1 (show m.2.length < 2 ^ 32 by omega)
  rw [if_neg (Nat.not_lt.mpr hsize)] at hframe
  exact nextFrame_append_whole hframe (stream msgs)

/-- A stream is parsed message by message. -/
theorem parseFrames_stream_cons {p : Peer} (hlive : p.dead = false) {m : UInt8 × Bytes} (hm : Orderly net p m)
    (msgs : List (UInt8 × Bytes)) :
    parseFrames net id (p.withInbuf (stream (m :: msgs))) =
      let r := onFrame net id p m.1 m.2
      ((parseFrames net id (r.1.withInbuf (stream msgs))).1,
        r.2 ++ (parseFrames net id (r.1.withInbuf (stream msgs))).2) := by
  have hwhole := parseFrames_whole net id (p := p.withInbuf (stream (m :: msgs))) (nextFrame_stream hm.size msgs)
  rw [Peer.withInbuf_withInbuf, onFrame_inbuf] at hwhole
  obtain ⟨hdead, -⟩ := onFrame_orderly net id hm
  rw [hwhole]
  dsimp only
  rw [Peer.dead_withInbuf, hdead, hlive, if_neg (by decide)]

theorem handedOn_cons (m : UInt8 × Bytes) (msgs : List (UInt8 × Bytes)) :
    handedOn id (m :: msgs) = handedOn id [m] ++ handedOn id msgs := by
  rw [← List.singleton_append, handedOn, handedOn, handedOn, List.filter_append, List.map_append]

/-- Every message to a ready peer is handed on in its place, a further HELLO apart. -/
theorem parseFrames_stream {p : Peer} (hlive : p.dead = false) (hready : p.ready = true) {msgs : List (UInt8 × Bytes)}
    (horderly : ∀ m ∈ msgs, Orderly net p m) :
    (parseFrames net id (p.withInbuf (stream msgs))).2 = handedOn id msgs ∧
      (parseFrames net id (p.withInbuf (stream msgs))).1.dead = false := by
  induction msgs generalizing p with
  | nil =>
      rw [parseFrames_incomplete net id (by rfl)]
      exact ⟨rfl, hlive⟩
  | cons m msgs ih =>
      have hm := horderly m List.mem_cons_self
      obtain ⟨hdead, htarget, hready', hevents⟩ := onFrame_orderly net id hm
      obtain ⟨hrest, hlast⟩ := ih (hdead.trans hlive) (by rw [hready', hready]; rfl)
        fun m' hm' => (horderly m' (List.mem_cons_of_mem _ hm')).congr net htarget
      rw [parseFrames_stream_cons net id hlive hm]
      refine ⟨?_, hlast⟩
      dsimp only
      rw [hrest, hevents, if_neg (by simp [hready]), List.nil_append, ← handedOn_cons]

/-- **Framing survives any segmentation.** A new peer entry ends alike however its stream was cut, as long as
the input buffer stays within its bound. When the stream is a list of messages, a HELLO that passes first, the
events are one ready event and then one event for each message that is no HELLO, in order. -/
theorem framing_survives_segmentation {p : Peer} (hlive : p.dead = false) (hempty : p.inbuf = []) :
    (∀ chunks chunks', chunks.flatten = chunks'.flatten → StaysWithin net id p chunks → StaysWithin net id p chunks' →
      SameOutcome (receive net id p chunks) (receive net id p chunks')) ∧
    ∀ hello msgs, p.ready = false → (∀ m ∈ (mHello, hello) :: msgs, Orderly net p m) →
      ∀ chunks, chunks.flatten = stream ((mHello, hello) :: msgs) → StaysWithin net id p chunks →
        (receive net id p chunks).2 =
          .ready id :: (msgs.filter fun m => m.1 ≠ mHello).map fun m => .msg id m.1 m.2 := by
  have hwhole : ∀ chunks, StaysWithin net id p chunks →
      SameOutcome (receive net id p chunks) (parseFrames net id (p.withInbuf chunks.flatten)) := by
    intro chunks hwithin
    have h := receive_sameOutcome net id hlive (by rw [hempty]; rfl) hwithin
    rwa [hempty, List.nil_append] at h
  refine ⟨fun chunks chunks' hflatten hwithin hwithin' => ?_, fun hello msgs hfresh horderly chunks hstream hwithin => ?_⟩
  · have h := hwhole chunks hwithin
    rw [hflatten] at h
    exact h.trans (hwhole chunks' hwithin').symm
  · have hm := horderly (mHello, hello) List.mem_cons_self
    obtain ⟨hdead, htarget, hready, hevents⟩ := onFrame_orderly net id hm
    obtain ⟨hrest, -⟩ := parseFrames_stream net id (hdead.trans hlive) (by rw [hready]; simp)
      fun m hm => (horderly m (List.mem_cons_of_mem _ hm)).congr net htarget
    rw [(hwhole chunks hwithin).events, hstream, parseFrames_stream_cons net id hlive hm]
    dsimp only at hevents ⊢
    rw [hrest, hevents, if_pos ⟨rfl, hfresh⟩]
    rfl

/-- A HELLO and a transaction, cut inside the first frame. -/
theorem framing_survives_segmentation_cut :
    (receive { netId := 7, listenPort := 9000 } 1 {}
      [[10, 0, 0], [0, 1, 7, 0, 0, 0, 1, 0, 0, 0, 64, 31, 2, 0, 0, 0, 5, 9], [8]]).2 = [.ready 1, .msg 1 mTx [9, 8]] := by
  refine (framing_survives_segmentation { netId := 7, listenPort := 9000 } 1 (p := {}) rfl rfl).2
    [7, 0, 0, 0, 1, 0, 0, 0, 64, 31] [(mTx, [9, 8])] rfl ?_ _ rfl ⟨fun _ => by decide, fun _ => by decide, fun _ => by decide, trivial⟩
  intro m hm
  rcases List.mem_cons.mp hm with rfl | hm
  · exact ⟨by decide, fun _ => ⟨8000, [], rfl, by decide⟩, fun h => absurd h (by decide)⟩
  · obtain rfl := List.mem_singleton.mp hm
    exact ⟨by decide, fun h => absurd h (by decide), fun h => absurd h (by decide)⟩

end Chainlite
