import Chainlite.BlockCodec
import Chainlite.NodeWork
import Chainlite.ServeBlocks

/-! Pushing a block. A node that connects a block broadcasts its bytes as one frame, unless the block came in a BLOCKS
reply. The limits on the number of transactions and on the payload of each bound those bytes below the limit on a
frame, so a receiver hands the block on in its place among the frames of the link. -/

open Std

namespace Chainlite

/-- The payloads of the M_BLOCK messages among broadcasts. -/
def pushes (calls : List NetCall) : List Bytes :=
  calls.filterMap fun call =>
    match call with
    | .broadcast type payload _ => if type = mBlock then some payload else none
    | .sendTo _ _ _ => none

section
variable [Crypto] {p : Params}

/-! ### What an event pushes -/

/-- An event pushes nothing, and then the chain stays or the event is a BLOCKS reply; or it connects a block and
pushes its bytes. -/
inductive PushStep (r : Readings) (a : App) (ev : Event) : App × List NetCall → Prop
  | quiet {a' : App} {calls : List NetCall} (hcalls : pushes calls = []) (hchain : a'.chain = a.chain) :
      PushStep r a ev (a', calls)
  | synced {a' : App} {calls : List NetCall} (hcalls : pushes calls = []) (peer : Int) (payload : Bytes)
      (hev : ev = .msg peer mBlocks payload) : PushStep r a ev (a', calls)
  | pushed {a' : App} {b : Block} (tip : Bytes) (except : Int) (hconnect : a.chain.connectBlock (r.now 0) b = .ok a'.chain)
      (hnet : a'.p2p = a.p2p) :
      PushStep r a ev (a', [.broadcast mTip tip except, .broadcast mBlock b.serialize except])

omit [Crypto] in
theorem OnlyTips.pushes {calls : List NetCall} (h : OnlyTips calls) : pushes calls = [] := h.broadcastOf (by decide)

/-- **What one event pushes.** -/
theorem App.handle_pushes (r : Readings) (a : App) (ev : Event) : PushStep r a ev (a.handle r ev) := by
  have hhandled := App.handled r a ev
  generalize a.handle r ev = out at hhandled ⊢
  cases hhandled with
  | ignored => exact .quiet rfl rfl
  | net p2p => exact .quiet rfl rfl
  | greeted peer => exact .quiet rfl rfl
  | announced => exact .quiet rfl rfl
  | served peer reply => exact .quiet rfl rfl
  | ended => exact .quiet rfl rfl
  | @asked peer =>
      exact .quiet (App.maybeSync_onlyTips _ a peer).pushes (congrArg Core.chain (App.maybeSync_core _ a peer))
  | @replied peer payload v _ hev =>
      exact .synced (App.handleBlocks_onlyTips peer v).pushes peer payload hev
  | pooled => exact .quiet rfl rfl
  | connected tip except _ hconnect => exact .pushed tip except hconnect rfl
  | handedOut payto => exact .quiet rfl rfl
  | job => exact .quiet rfl rfl

/-! ### The frame of a block -/

/-- The frame reaches every other peer that is ready: it is at the end of what is queued for it. -/
def Queued (net net' : P2P) (except : Int) (frame : Bytes) : Prop :=
  ∀ id q, net.peers[id]? = some q → q.ready = true → q.dead = false → id ≠ except →
    ∃ q' before, net'.peers[id]? = some q' ∧ q'.outbuf = q.outbuf ++ before ++ frame

omit [Crypto] in
theorem getElem?_broadcast (net : P2P) (type : UInt8) (payload : Bytes) {except id : Int} {q : Peer}
    (h : net.peers[id]? = some q) (hready : q.ready = true) (hlive : q.dead = false) (hne : id ≠ except) :
    (net.broadcast type payload except).peers[id]? = some { q with outbuf := frameInto q.outbuf type payload } := by
  rw [P2P.broadcast]
  simp [h, hready, hlive, hne]

omit [Crypto] in
theorem queued_broadcasts (net : P2P) (tip payload : Bytes) (except : Int) :
    Queued net ([NetCall.broadcast mTip tip except, .broadcast mBlock payload except].foldl P2P.perform net) except
      (frameInto [] mBlock payload) := by
  intro id q hq hready hlive hne
  have htip := getElem?_broadcast net mTip tip hq hready hlive hne
  have hblock := getElem?_broadcast _ mBlock payload htip hready hlive hne
  refine ⟨_, frameInto [] mTip tip, hblock, ?_⟩
  dsimp only
  rw [frameInto_eq, frameInto_eq q.outbuf]

/-- No length and no count of the block is cut off by its width on the wire. -/
structure Block.Untruncated (b : Block) : Prop where
  frame : b.serialize.length ≤ maxFrame
  length : (UInt32.ofNat b.serialize.length).toNat = b.serialize.length
  count : (UInt32.ofNat b.txs.length).toNat = b.txs.length
  payloads : ∀ t ∈ b.txs, (UInt16.ofNat t.payload.length).toNat = t.payload.length

omit [Crypto] in
theorem Block.Fits.untruncated {b : Block} (h : b.Fits) : b.Untruncated := by
  have hbytes := h.length_le
  have hmax : maxBlockBytes ≤ maxFrame := by decide
  refine ⟨hbytes.trans hmax, ?_, ?_, fun t ht => ?_⟩
  · exact UInt32.toNat_ofNat_of_lt' (Nat.lt_of_le_of_lt (hbytes.trans hmax) (by decide))
  · exact UInt32.toNat_ofNat_of_lt' (Nat.lt_of_le_of_lt h.count (by decide))
  · exact UInt16.toNat_ofNat_of_lt' (Nat.lt_of_le_of_lt (h.payloads t ht) (by decide))

omit [Crypto] in
/-- A link that is alive after some frames has parsed them all. -/
theorem parseFrames_stream_alive (net : P2P) (id : Int) {q : Peer} {msgs : List (UInt8 × Bytes)}
    (hmsgs : ∀ m ∈ msgs, m.2.length < 2 ^ 32)
    (halive : (parseFrames net id (q.withInbuf (stream msgs))).1.dead = false) :
    (parseFrames net id (q.withInbuf (stream msgs))).1.inbuf = [] := by
  induction msgs generalizing q with
  | nil =>
      rw [parseFrames_incomplete net id rfl]
      rfl
  | cons m msgs ih =>
      have hframe := nextFrame_frameInto m.1 (hmsgs m List.mem_cons_self)
      have hstream : stream (m :: msgs) = frameInto [] m.1 m.2 ++ stream msgs := List.flatMap_cons
      by_cases hbig : maxFrame < m.2.length
      · rw [if_pos hbig] at hframe
        have hbuf : nextFrame (q.withInbuf (stream (m :: msgs))).inbuf = .tooBig := by
          rw [Peer.inbuf_withInbuf, hstream]
          exact nextFrame_append_tooBig hframe _
        rw [parseFrames_tooBig net id hbuf] at halive
        cases halive
      · rw [if_neg hbig] at hframe
        have hbuf : nextFrame (q.withInbuf (stream (m :: msgs))).inbuf = .whole m.1 m.2 (stream msgs) := by
          rw [Peer.inbuf_withInbuf, hstream]
          exact nextFrame_append_whole hframe _
        have hwhole := parseFrames_whole net id hbuf
        rw [Peer.withInbuf_withInbuf, onFrame_inbuf] at hwhole
        rw [hwhole] at halive ⊢
        cases hdead : (onFrame net id q m.1 m.2).1.dead with
        | true =>
            simp only [Peer.dead_withInbuf, hdead, if_true] at halive
            cases halive
        | false =>
            simp only [Peer.dead_withInbuf, hdead, Bool.false_eq_true, if_false] at halive ⊢
            exact ih (fun m' hm' => hmsgs m' (List.mem_cons_of_mem _ hm')) halive

omit [Crypto] in
/-- **A block among the frames of a link**: the frames before it are parsed as without it, and unless one of them has
cost the link, the block is handed on next. -/
theorem parseFrames_push (net : P2P) (id : Int) {q : Peer} (hlive : q.dead = false) {msgs : List (UInt8 × Bytes)}
    (hmsgs : ∀ m ∈ msgs, m.2.length < 2 ^ 32) {payload : Bytes} (hlen : payload.length ≤ maxFrame) (more : Bytes) :
    (parseFrames net id (q.withInbuf (stream msgs ++ (frameInto [] mBlock payload ++ more)))).2 =
      (parseFrames net id (q.withInbuf (stream msgs))).2 ++
        if (parseFrames net id (q.withInbuf (stream msgs))).1.dead then []
        else .msg id mBlock payload ::
          (parseFrames net id ((parseFrames net id (q.withInbuf (stream msgs))).1.withInbuf more)).2 := by
  have happend := parseFrames_append net id (p := q.withInbuf (stream msgs)) hlive (frameInto [] mBlock payload ++ more)
  rw [Peer.withInbuf_withInbuf, Peer.inbuf_withInbuf] at happend
  have hempty := parseFrames_stream_alive net id (q := q) hmsgs
  rw [happend]
  generalize parseFrames net id (q.withInbuf (stream msgs)) = r at hempty ⊢
  cases hdead : r.1.dead with
  | true => simp only [hdead, if_true, List.append_nil]
  | false =>
      have hframe := nextFrame_frameInto mBlock (Nat.lt_of_le_of_lt hlen (show maxFrame < 2 ^ 32 by decide))
      rw [if_neg (Nat.not_lt.mpr hlen)] at hframe
      have hwhole := parseFrames_whole net id (p := r.1.withInbuf (frameInto [] mBlock payload ++ more))
        (nextFrame_append_whole hframe more)
      have hblock (q : Peer) : onFrame net id q mBlock payload = (q, [.msg id mBlock payload]) := rfl
      rw [List.nil_append, Peer.withInbuf_withInbuf, hblock] at hwhole
      simp only [Peer.dead_withInbuf, hdead, Bool.false_eq_true, if_false] at hwhole ⊢
      rw [hempty hdead, List.nil_append, hwhole]
      rfl

/-- **Any accepted block can be pushed.** What a node broadcasts as a block are the bytes of a block that it has just
connected, and they are queued for every other ready peer. The bytes of an accepted block fit a frame, with no length
or count cut off, a receiver hands them on behind any complete frames that leave the link open, and reads the block
from them. -/
theorem accepted_block_pushed :
    (∀ {a : App} {t : Clock}, NodeRun p a t → ∀ (r : Readings) (ev : Event),
      ∀ payload ∈ pushes (a.handle r ev).2, ∃ b except, payload = b.serialize ∧
        a.chain.connectBlock (r.now 0) b = .ok (a.step r ev).chain ∧
        Queued a.p2p (a.step r ev).p2p except (frameInto [] mBlock b.serialize)) ∧
    ∀ {c c' : Chain} {now : Clock} {b : Block}, Chain.Reachable p c → c.connectBlock now b = .ok c' →
      b.Untruncated ∧ Block.parse b.serialize = some b ∧
      ∀ (net : P2P) (id : Int) (q : Peer) (msgs : List (UInt8 × Bytes)) (more : Bytes),
        q.ready = true → q.dead = false → (∀ m ∈ msgs, m.2.length < 2 ^ 32) →
        (parseFrames net id (q.withInbuf (stream msgs))).1.dead = false →
        (parseFrames net id (q.withInbuf (stream msgs ++ (frameInto [] mBlock b.serialize ++ more)))).2 =
          (parseFrames net id (q.withInbuf (stream msgs))).2 ++ .msg id mBlock b.serialize ::
            (parseFrames net id ((parseFrames net id (q.withInbuf (stream msgs))).1.withInbuf more)).2 := by
  refine ⟨fun {a _} _ r ev payload hpayload => ?_, fun {c c' now b} hc hconnect => ?_⟩
  · have hstep : a.step r ev = { (a.handle r ev).1 with
        p2p := (a.handle r ev).2.foldl P2P.perform (a.handle r ev).1.p2p } := rfl
    have hpush := App.handle_pushes r a ev
    rw [hstep]
    generalize a.handle r ev = result at hpush hpayload ⊢
    cases hpush with
    | quiet hcalls => rw [hcalls] at hpayload; cases hpayload
    | synced hcalls => rw [hcalls] at hpayload; cases hpayload
    | @pushed a' b tip except hconnect hnet =>
        obtain rfl : payload = b.serialize := List.mem_singleton.mp hpayload
        refine ⟨b, except, rfl, hconnect, ?_⟩
        rw [← hnet]
        exact queued_broadcasts a'.p2p tip b.serialize except
  · have hfits : b.Fits := by
      obtain ⟨hsound, hblocks⟩ := hc.sound.1.connectBlock hconnect
      exact hsound.valid.fits b (by rw [hblocks]; simp)
    refine ⟨hfits.untruncated, Block.parse_serialize hfits, fun net id q msgs more _ hlive hmsgs halive => ?_⟩
    rw [parseFrames_push net id hlive hmsgs hfits.untruncated.frame more, halive]
    rfl

end

section
local instance pushCrypto : Crypto := Sha.crypto fun _ _ _ => false

/-- Behind a transaction the block is handed on. -/
theorem accepted_block_pushed_first :
    (∀ payload ∈ pushes (busyNode.handle laterReadings (.msg 1 mBlock pushedBlock.serialize)).2, ∃ b except,
      payload = b.serialize ∧ busyNode.chain.connectBlock (laterReadings.now 0) b =
        .ok (busyNode.step laterReadings (.msg 1 mBlock pushedBlock.serialize)).chain ∧
      Queued busyNode.p2p (busyNode.step laterReadings (.msg 1 mBlock pushedBlock.serialize)).p2p except
        (frameInto [] mBlock b.serialize)) ∧
    (parseFrames {} 1 (({ ready := true } : Peer).withInbuf
      (stream [(mTx, [9])] ++ (frameInto [] mBlock pushedBlock.serialize ++ [])))).2 =
        [.msg 1 mTx [9], .msg 1 mBlock pushedBlock.serialize] :=
  ⟨accepted_block_pushed.1 busyNode_run laterReadings (.msg 1 mBlock pushedBlock.serialize),
    (accepted_block_pushed.2 (Chain.coinbases_reachable (zeros 20) 0) connect_pushedBlock).2.2 {} 1 { ready := true }
      [(mTx, [9])] [] rfl rfl (by decide) rfl⟩

/-- Behind a TIP that is too short it is not: the link is closed. -/
theorem accepted_block_lost :
    ¬∀ (p : Params) (c c' : Chain) (now : Clock) (b : Block), Chain.Reachable p c → c.connectBlock now b = .ok c' →
      ∀ (net : P2P) (id : Int) (q : Peer) (msgs : List (UInt8 × Bytes)), q.ready = true → q.dead = false →
        (∀ m ∈ msgs, m.2.length < 2 ^ 32) →
        .msg id mBlock b.serialize ∈
          (parseFrames net id (q.withInbuf (stream msgs ++ frameInto [] mBlock b.serialize))).2 := by
  intro h
  have hmem := h Chain.easyParams _ _ Chain.easyClock pushedBlock (Chain.coinbases_reachable (zeros 20) 0)
    connect_pushedBlock {} 1 { ready := true } [(mTip, [0])] rfl rfl (by decide)
  have hlost := parseFrames_push {} 1 (q := { ready := true }) rfl
    (show ∀ m ∈ [(mTip, [0])], m.2.length < 2 ^ 32 by decide) pushedBlock_fits.untruncated.frame []
  have hdead : (parseFrames {} 1 (({ ready := true } : Peer).withInbuf (stream [(mTip, [0])]))).1.dead = true := rfl
  have hnone : (parseFrames {} 1 (({ ready := true } : Peer).withInbuf (stream [(mTip, [0])]))).2 = [] := rfl
  rw [List.append_nil, hdead, hnone] at hlost
  rw [hlost] at hmem
  cases hmem

end

end Chainlite
