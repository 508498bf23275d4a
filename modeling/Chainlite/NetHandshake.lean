import Chainlite.NetFraming

/-! Messages before the handshake. `parse_frames` hands every message on, whether or not the HELLO has been
accepted. So the first frame of a connection decides: a HELLO either makes the peer ready or kills it, a TIP
that is too short kills it, and any other message reaches the node with no handshake at all. -/

open Std

namespace Chainlite

/-- Every message of the peer comes after its ready event. -/
def Gated (id : Int) (evs : List Ev) : Prop :=
  ∀ before type payload after, evs = before ++ .msg id type payload :: after → .ready id ∈ before

theorem gated_nil (id : Int) : Gated id [] := by
  intro before type payload after h
  simp at h

theorem gated_of_ready (id : Int) (evs : List Ev) : Gated id (.ready id :: evs) := by
  intro before type payload after h
  cases before with
  | nil => cases h
  | cons ev before =>
      obtain ⟨rfl, -⟩ := List.cons.inj h
      exact List.mem_cons_self

theorem not_gated_of_msg (id : Int) (type : UInt8) (payload : Bytes) (evs : List Ev) :
    ¬Gated id (.msg id type payload :: evs) := by
  intro h
  exact absurd (h [] type payload evs rfl) (by simp)

/-- The first frame that `parse_frames` takes off the stream, `buf` being received and not parsed. -/
def firstFrame : Bytes → List Bytes → Option (UInt8 × Bytes)
  | _, [] => none
  | buf, chunk :: rest =>
      if maxInbuf < (buf ++ chunk).length then none
      else
        match nextFrame (buf ++ chunk) with
        | .incomplete => firstFrame (buf ++ chunk) rest
        | .tooBig => none
        | .whole type payload _ => some (type, payload)

/-- The stream opens with a HELLO, with a TIP that is too short, or with no frame at all. -/
def OpensWithHello (chunks : List Bytes) : Prop :=
  ∀ type payload, firstFrame [] chunks = some (type, payload) → type = mHello ∨ type = mTip ∧ payload.length < 48

variable (net : P2P) (id : Int)

/-- What a HELLO does to a peer that is not ready: it kills it, or makes it ready. -/
theorem onHello_cases {p : Peer} (hfresh : p.ready = false) (payload : Bytes) :
    ((onHello net id p payload).1.dead = true ∧ (onHello net id p payload).2 = []) ∨
      (onHello net id p payload).2 = [.ready id] := by
  unfold onHello
  split
  · exact Or.inl ⟨rfl, rfl⟩
  · dsimp only
    split_ifs with hnet hdial hready
    · exact Or.inl ⟨rfl, rfl⟩
    · exact Or.inl ⟨rfl, rfl⟩
    · exact absurd (hfresh.symm.trans hready) (by decide)
    · exact Or.inr rfl

/-- **The first frame decides.** -/
theorem gated_parseFrames_iff {p : Peer} (hfresh : p.ready = false) {type : UInt8} {payload rest : Bytes}
    (hframe : nextFrame p.inbuf = .whole type payload rest) (chunks : List Bytes) :
    Gated id ((parseFrames net id p).2 ++ (receive net id (parseFrames net id p).1 chunks).2) ↔
      type = mHello ∨ type = mTip ∧ payload.length < 48 := by
  have hwhole := parseFrames_whole net id hframe
  dsimp only at hwhole
  by_cases hhello : type = mHello
  · refine iff_of_true ?_ (Or.inl hhello)
    have honFrame : onFrame net id (p.withInbuf rest) type payload = onHello net id (p.withInbuf rest) payload := by
      rw [onFrame, if_pos hhello]
    rw [honFrame] at hwhole
    rcases onHello_cases net id (p := p.withInbuf rest) hfresh payload with ⟨hdead, hnone⟩ | hready
    · rw [if_pos hdead] at hwhole
      rw [hwhole, hnone, receive_dead net id hdead]
      exact gated_nil id
    · rw [hwhole]
      split
      · rw [hready]
        exact gated_of_ready id _
      · dsimp only
        rw [hready]
        exact gated_of_ready id _
  · by_cases hshort : type = mTip ∧ payload.length < 48
    · refine iff_of_true ?_ (Or.inr hshort)
      obtain ⟨hdead, hnone⟩ := onTip_short id hshort.2 (p.withInbuf rest)
      have honFrame : onFrame net id (p.withInbuf rest) type payload = onTip id (p.withInbuf rest) payload := by
        rw [onFrame, if_neg hhello, if_pos hshort.1]
      rw [honFrame, if_pos hdead] at hwhole
      rw [hwhole, hnone, receive_dead net id hdead]
      exact gated_nil id
    · refine iff_of_false ?_ (by tauto)
      have hevents : (onFrame net id (p.withInbuf rest) type payload).2 = [.msg id type payload] := by
        rw [onFrame, if_neg hhello]
        split
        · rename_i htip
          have hlen : 48 ≤ payload.length := Nat.not_lt.mp fun hlt => hshort ⟨htip, hlt⟩
          obtain ⟨height, work, hash, hlong⟩ := onTip_long id hlen (p.withInbuf rest)
          rw [hlong, htip]
        · rfl
      rw [hwhole]
      split
      · rw [hevents]
        exact not_gated_of_msg id type payload _
      · dsimp only
        rw [hevents]
        exact not_gated_of_msg id type payload _

/-- The same along a stream, from a peer that has no complete frame waiting. -/
theorem gated_receive_iff {p : Peer} (hlive : p.dead = false) (hfresh : p.ready = false) (chunks : List Bytes) :
    Gated id (receive net id p chunks).2 ↔
      ∀ type payload, firstFrame p.inbuf chunks = some (type, payload) →
        type = mHello ∨ type = mTip ∧ payload.length < 48 := by
  induction chunks generalizing p with
  | nil => exact iff_of_true (gated_nil id) (fun type payload h => by cases h)
  | cons chunk rest ih =>
      have halive : ¬p.dead = true := by rw [hlive]; decide
      rw [receive, onRecv, if_neg halive, firstFrame]
      dsimp only
      by_cases hbig : maxInbuf < (p.inbuf ++ chunk).length
      · rw [if_pos hbig, if_pos hbig]
        dsimp only
        rw [receive_dead net id rfl]
        exact iff_of_true (gated_nil id) (fun type payload h => by cases h)
      · rw [if_neg hbig, if_neg hbig]
        cases hframe : nextFrame (p.inbuf ++ chunk) with
        | incomplete =>
            rw [parseFrames_incomplete net id hframe]
            exact ih (p := p.withInbuf (p.inbuf ++ chunk)) hlive hfresh
        | tooBig =>
            rw [parseFrames_tooBig net id hframe]
            dsimp only
            rw [receive_dead net id rfl]
            exact iff_of_true (gated_nil id) (fun type payload h => by cases h)
        | whole type payload tail =>
            refine (gated_parseFrames_iff net id (p := p.withInbuf (p.inbuf ++ chunk)) hfresh hframe rest).trans ?_
            constructor
            · rintro h type' payload' ⟨⟩
              exact h
            · exact fun h => h type payload rfl

/-- **When the handshake comes first.** On a new connection every message event comes after the ready event
exactly when the first frame is a HELLO, accepted or not, or one that kills the peer before it does anything. -/
theorem handshake_first_iff {p : Peer} (hlive : p.dead = false) (hfresh : p.ready = false) (hempty : p.inbuf = [])
    (chunks : List Bytes) : Gated id (receive net id p chunks).2 ↔ OpensWithHello chunks := by
  rw [gated_receive_iff net id hlive hfresh, hempty, OpensWithHello]

/-- A transaction with no HELLO before it is handed to the node. -/
theorem message_before_handshake :
    (receive { netId := 7, listenPort := 9000 } 1 {} [[1, 0, 0, 0, 5, 9]]).2 = [.msg 1 mTx [9]] ∧
      ¬Gated 1 (receive { netId := 7, listenPort := 9000 } 1 {} [[1, 0, 0, 0, 5, 9]]).2 := by
  have hevents : (receive { netId := 7, listenPort := 9000 } 1 {} [[1, 0, 0, 0, 5, 9]]).2 = [.msg 1 mTx [9]] := rfl
  rw [hevents]
  exact ⟨rfl, not_gated_of_msg 1 mTx [9] []⟩

theorem handshake_first_of_hello :
    Gated 1 (receive { netId := 7, listenPort := 9000 } 1 {}
      [[10, 0, 0, 0, 1, 7, 0, 0, 0, 1, 0, 0, 0, 64, 31, 1, 0, 0, 0, 5, 9]]).2 := by
  refine (handshake_first_iff { netId := 7, listenPort := 9000 } 1 rfl rfl rfl _).mpr fun type payload h => ?_
  have hfirst : firstFrame [] [[10, 0, 0, 0, 1, 7, 0, 0, 0, 1, 0, 0, 0, 64, 31, 1, 0, 0, 0, 5, 9]] =
      some (mHello, [7, 0, 0, 0, 1, 0, 0, 0, 64, 31]) := rfl
  rw [hfirst] at h
  cases h
  exact Or.inl rfl

end Chainlite
