import Chainlite.Bytes

/-! The table of peers and the framing of messages: `[u32 length][u8 type][payload]`. The sockets are left
out, with the labels used in log lines: a peer is the bytes received and not yet parsed, the bytes queued
for it, the outcome of the handshake and the tip it announced last. -/

open Std

namespace Chainlite

def mHello : UInt8 := 1
def mTip : UInt8 := 2
def mGetBlocks : UInt8 := 3
def mBlocks : UInt8 := 4
def mTx : UInt8 := 5
def mBlock : UInt8 := 6

/-- The longest payload a frame may announce. -/
def maxFrame : Nat := 8 * 1024 * 1024

structure Peer where
  /-- Non-empty for an outbound connection. -/
  target : String := ""
  ready : Bool := false
  dead : Bool := false
  dedupDrop : Bool := false
  peerPort : UInt16 := 0
  inbuf : Bytes := []
  outbuf : Bytes := []
  tipHeight : UInt64 := 0
  tipWork : UInt64 := 0
  tipHash : H256 := zeros 32

/-- An event handed from the network thread to the node. -/
inductive Ev where
  | ready (peer : Int)
  | msg (peer : Int) (type : UInt8) (payload : Bytes)
  | gone (peer : Int)
  deriving DecidableEq

structure P2P where
  netId : UInt32 := 0
  listenPort : UInt16 := 0
  peers : ExtTreeMap Int Peer := ∅

def frameInto (out : Bytes) (type : UInt8) (payload : Bytes) : Bytes :=
  out ++ Writer.u32 (UInt32.ofNat payload.length) ++ [type] ++ payload

/-- What the node asks of the network: a message to one peer, or to all that are ready but one. -/
inductive NetCall where
  | sendTo (peer : Int) (type : UInt8) (payload : Bytes)
  | broadcast (type : UInt8) (payload : Bytes) (except : Int)
  deriving DecidableEq

namespace P2P

def sendTo (net : P2P) (peer : Int) (type : UInt8) (payload : Bytes) : P2P :=
  match net.peers[peer]? with
  | none => net
  | some p =>
      if p.dead then net
      else { net with peers := net.peers.insert peer { p with outbuf := frameInto p.outbuf type payload } }

def broadcast (net : P2P) (type : UInt8) (payload : Bytes) (except : Int) : P2P :=
  { net with peers := net.peers.map fun id p =>
      if p.ready && !p.dead && id != except then { p with outbuf := frameInto p.outbuf type payload } else p }

def perform (net : P2P) : NetCall → P2P
  | .sendTo peer type payload => net.sendTo peer type payload
  | .broadcast type payload except => net.broadcast type payload except

/-- The tip a ready peer announced last: height, work and hash. -/
def peerTip (net : P2P) (id : Int) : Option (UInt64 × UInt64 × H256) :=
  match net.peers[id]? with
  | none => none
  | some p => if p.ready then some (p.tipHeight, p.tipWork, p.tipHash) else none

end P2P

/-! ### Parsing frames -/

/-- What the start of the input buffer holds. -/
inductive Frame where
  | incomplete
  | tooBig
  | whole (type : UInt8) (payload rest : Bytes)

def nextFrame (inbuf : Bytes) : Frame :=
  if inbuf.length < 5 then .incomplete
  else
    let len := Wire.leNat (inbuf.take 4)
    if maxFrame < len then .tooBig
    else if inbuf.length < 5 + len then .incomplete
    else .whole (inbuf.getD 4 0) ((inbuf.drop 5).take len) (inbuf.drop (5 + len))

/-- The reader of a HELLO: network id, version and listening port. -/
def readHello : Reader.Read (UInt32 × UInt16) := do
  let nid ← Reader.u32
  let _version ← Reader.u32
  let theirPort ← Reader.u16
  return (nid, theirPort)

/-- A HELLO: the network id must match, and of two links between a pair of nodes only the one dialed by
the node with the lower port stays. -/
def onHello (net : P2P) (id : Int) (p : Peer) (payload : Bytes) : Peer × List Ev :=
  match readHello payload with
  | .error _ => ({ p with dead := true }, [])
  | .ok ((nid, theirPort), _) =>
      if nid ≠ net.netId then ({ p with dead := true }, [])
      else
        let p := { p with peerPort := theirPort }
        let iShouldDial := net.listenPort < theirPort
        let isOutbound := p.target ≠ ""
        if theirPort ≠ 0 ∧ ¬(iShouldDial ↔ isOutbound) then ({ p with dead := true, dedupDrop := true }, [])
        else if p.ready then (p, []) else ({ p with ready := true }, [.ready id])

/-- A TIP: the fields are stored one by one, so a short message may leave some of them. -/
def onTip (id : Int) (p : Peer) (payload : Bytes) : Peer × List Ev :=
  match Reader.u64 payload with
  | .error _ => ({ p with dead := true }, [])
  | .ok (height, rest) =>
      let p := { p with tipHeight := height }
      match Reader.u64 rest with
      | .error _ => ({ p with dead := true }, [])
      | .ok (work, rest) =>
          let p := { p with tipWork := work }
          match Reader.arr 32 rest with
          | .error _ => ({ p with dead := true }, [])
          | .ok (hash, _) => ({ p with tipHash := hash }, [.msg id mTip payload])

def onFrame (net : P2P) (id : Int) (p : Peer) (type : UInt8) (payload : Bytes) : Peer × List Ev :=
  if type = mHello then onHello net id p payload
  else if type = mTip then onTip id p payload
  else (p, [.msg id type payload])

/-- The loop of `parse_frames`; it returns when the peer is dead. Every turn takes at least five bytes off
the buffer, so its length bounds the turns. -/
def parseFramesWithin (net : P2P) (id : Int) : Nat → Peer → Peer × List Ev
  | 0, p => (p, [])
  | fuel + 1, p =>
      match nextFrame p.inbuf with
      | .incomplete => (p, [])
      | .tooBig => ({ p with dead := true }, [])
      | .whole type payload rest =>
          let (p', evs) := onFrame net id { p with inbuf := rest } type payload
          if p'.dead then (p', evs)
          else
            let (p'', evs') := parseFramesWithin net id fuel p'
            (p'', evs ++ evs')

def parseFrames (net : P2P) (id : Int) (p : Peer) : Peer × List Ev :=
  parseFramesWithin net id (p.inbuf.length + 1) p

end Chainlite
