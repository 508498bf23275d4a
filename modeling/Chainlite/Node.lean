import Chainlite.MiningTemplate
import Chainlite.Net

/-! The node: what each message, request, timer and miner step does under the lock of the application
object. A handler returns the node and the calls it makes to the network, in their order. An event comes
with its own readings of the two clocks. -/

open Std

namespace Chainlite

/-- Readings of `now_s()`, one for each block examined, and of `now_ms()`, in the order they are made. -/
structure Readings where
  now : Nat → Clock
  ms : Nat → UInt64

inductive SyncMode where
  | idle
  | extend
  | full
  deriving DecidableEq, Repr

structure App where
  params : Params
  chain : Chain
  pool : Mempool := {}
  p2p : P2P := {}
  minerAddr : Addr20 := zeros 20
  mineOn : Bool := true
  heartbeat : UInt64 := 0
  /-- Bumped on every chain change. -/
  tipSeq : UInt64 := 0
  syncPeer : Int := -1
  syncMode : SyncMode := .idle
  syncExtendGot : UInt64 := 0
  cand : List Block := []
  syncLastMs : UInt64 := 0
  /-- Bodies handed out by `/work`, by Merkle root. -/
  workCache : ExtTreeMap H256 (List Tx) := ∅
  /-- The locals `seq` and `cand` of the miner thread between its two critical sections. -/
  job : Option (UInt64 × Block) := none

structure HttpResp where
  status : Nat
  ctype : String
  body : String
  deriving DecidableEq

def err400 (e : String) : HttpResp := ⟨400, "application/json", "\x7b\"error\":\"" ++ e ++ "\"\x7d"⟩

def batchSize : Nat := 200
def maxReplyBlocks : Nat := 500
def maxCand : Nat := 500000
def syncTimeoutMs : UInt64 := 20000
def maxWorkCache : Nat := 64

namespace App

variable [Crypto]

/-! ### Helpers -/

def tipPayload (a : App) : Bytes :=
  Writer.u64 a.chain.height ++ Writer.u64 a.chain.work ++ Writer.arr a.chain.tipHash

def announceTip (a : App) (except : Int) : NetCall := .broadcast mTip a.tipPayload except

def postChainChange (a : App) : App :=
  { a with pool := a.pool.purge a.chain.st, workCache := ∅, tipSeq := a.tipSeq + 1 }

def resetSync (a : App) : App :=
  { a with syncPeer := -1, syncMode := .idle, syncExtendGot := 0, cand := [] }

/-- The payload of a GET_BLOCKS. -/
def getBlocksPayload (start : UInt64) : Bytes := Writer.u64 start ++ Writer.u32 (UInt32.ofNat batchSize)

def requestBlocks (ms : UInt64) (a : App) (peer : Int) (start : UInt64) : App × List NetCall :=
  ({ a with syncLastMs := ms }, [.sendTo peer mGetBlocks (getBlocksPayload start)])

def maybeSync (ms : UInt64) (a : App) (peer : Int) : App × List NetCall :=
  if a.syncPeer ≠ -1 then (a, [])
  else
    match a.p2p.peerTip peer with
    | none => (a, [])
    | some (_, pw, _) =>
        if pw ≤ a.chain.work then (a, [])
        else requestBlocks ms
          { a with syncPeer := peer, syncMode := .extend, syncExtendGot := 0, cand := [] } peer (a.chain.height + 1)

/-! ### Sync replies -/

/-- `sync_mode == 1`: the blocks are connected one by one. When not even the first one of a session
connects, the peer's history differs and its whole chain is asked for. -/
def extendBlocks (r : Readings) (a : App) (peer : Int) (v : List Block) : App × List NetCall :=
  match Chain.connectAll r.now 0 a.chain v with
  | (chain, okc, err) =>
      let a := if 0 < okc then postChainChange { a with chain := chain } else a
      if err ≠ none ∧ okc = 0 ∧ a.syncExtendGot = 0 then
        requestBlocks (r.ms 1) { a with syncMode := .full, cand := [] } peer 0
      else
        let a := { a with syncExtendGot := a.syncExtendGot + UInt64.ofNat okc }
        let caughtUp : Bool := match a.p2p.peerTip peer with
          | some (_, pw, _) => pw ≤ a.chain.work
          | none => false
        if caughtUp then (a.resetSync, [a.announceTip (-1)])
        else if 0 < okc ∧ v ≠ [] then requestBlocks (r.ms 1) a peer (a.chain.height + 1)
        else (a.resetSync, [])

/-- `sync_mode == 2`: the blocks are collected until the peer's height is reached, then the candidate is
tried as a whole. -/
def collectBlocks (r : Readings) (a : App) (peer : Int) (v : List Block) : App × List NetCall :=
  let a := { a with cand := a.cand ++ v }
  if maxCand < a.cand.length then (a.resetSync, [])
  else
    let reached : Bool := match a.cand.getLast?, a.p2p.peerTip peer with
      | some last, some (ph, _, _) => ph ≤ last.h.height
      | _, _ => false
    if v ≠ [] ∧ reached = false then requestBlocks (r.ms 1) a peer (UInt64.ofNat a.cand.length)
    else
      match a.chain.tryReplace r.now a.cand with
      | .ok (chain, _) =>
          let a := postChainChange { a with chain := chain }
          (a.resetSync, [a.announceTip (-1)])
      | .error _ => (a.resetSync, [])

def handleBlocks (r : Readings) (a : App) (peer : Int) (v : List Block) : App × List NetCall :=
  if peer ≠ a.syncPeer then (a, [])
  else
    let a := { a with syncLastMs := r.ms 0 }
    match a.syncMode with
    | .idle => (a, [])
    | .extend => extendBlocks r a peer v
    | .full => collectBlocks r a peer v

/-! ### Messages -/

def readGetBlocks : Reader.Read (UInt64 × UInt32) := do
  let start ← Reader.u64
  let cnt ← Reader.u32
  return (start, cnt)

/-- The blocks served for a request: at most 200 of them, from `start` on. -/
def servedBlocks (c : Chain) (start : UInt64) (cnt : UInt32) : List Block :=
  (c.blocks.drop start.toNat).take (min cnt.toNat batchSize)

/-- The payload of a BLOCKS message: the count, then every block with its length. -/
def blocksPayload (bs : List Block) : Bytes :=
  Writer.u32 (UInt32.ofNat bs.length) ++
    bs.flatMap fun b => Writer.u32 (UInt32.ofNat b.serialize.length) ++ b.serialize

def onGetBlocks (a : App) (peer : Int) (payload : Bytes) : App × List NetCall :=
  match readGetBlocks payload with
  | .error _ => (a, [])
  | .ok ((start, cnt), _) => (a, [.sendTo peer mBlocks (blocksPayload (servedBlocks a.chain start cnt))])

def readBlock : Reader.Read Block := do
  let len ← Reader.u32
  let raw ← Reader.blob len.toNat
  match Block.parse raw with
  | none => Wire.fail .badBlock
  | some b => return b

/-- The reader of a BLOCKS message; more than 500 blocks are not looked at. -/
def readBlocks : Reader.Read (Option (List Block)) := do
  let n ← Reader.u32
  if maxReplyBlocks < n.toNat then return none
  else do
    let v ← Wire.many readBlock n.toNat
    return some v

def onBlocks (r : Readings) (a : App) (peer : Int) (payload : Bytes) : App × List NetCall :=
  match readBlocks payload with
  | .ok (some v, _) => handleBlocks r a peer v
  | _ => (a, [])

def onTx (a : App) (peer : Int) (payload : Bytes) : App × List NetCall :=
  match Tx.parse payload with
  | .ok (t, []) =>
      if a.pool.has t.txid || a.chain.txidx.contains t.txid then (a, [])
      else
        match a.pool.add t a.chain.st a.params with
        | .ok pool => ({ a with pool := pool }, [.broadcast mTx payload peer])
        | .error _ => (a, [])
  | _ => (a, [])

def onBlock (r : Readings) (a : App) (peer : Int) (payload : Bytes) : App × List NetCall :=
  match Block.parse payload with
  | none => (a, [])
  | some b =>
      if a.chain.hasBlock b.h.hash then (a, [])
      else
        match a.chain.connectBlock (r.now 0) b with
        | .ok chain =>
            let a := postChainChange { a with chain := chain }
            (a, [a.announceTip peer, .broadcast mBlock payload peer])
        | .error _ => if a.chain.height < b.h.height then maybeSync (r.ms 0) a peer else (a, [])

def onMsg (r : Readings) (a : App) (peer : Int) (type : UInt8) (payload : Bytes) : App × List NetCall :=
  if type = mTip then maybeSync (r.ms 0) a peer
  else if type = mGetBlocks then onGetBlocks a peer payload
  else if type = mBlocks then onBlocks r a peer payload
  else if type = mTx then onTx a peer payload
  else if type = mBlock then onBlock r a peer payload
  else (a, [])

def onReady (a : App) (peer : Int) : App × List NetCall := (a, [.sendTo peer mTip a.tipPayload])

def onGone (a : App) (peer : Int) : App × List NetCall :=
  (if peer = a.syncPeer then a.resetSync else a, [])

/-- The timeout of `periodic_thread`. -/
def checkTimeout (ms : UInt64) (a : App) : App :=
  if a.syncPeer ≠ -1 ∧ syncTimeoutMs < ms - a.syncLastMs then a.resetSync else a

/-! ### Mining -/

/-- `hb_due`: there is a heartbeat, and that long has passed since the tip. -/
def heartbeatDue (now : Clock) (a : App) : Bool :=
  match a.chain.blocks.getLast? with
  | none => false
  | some tip => 0 < a.heartbeat && tip.h.time + a.heartbeat ≤ now.seconds

/-- The first critical section of the miner. Without transactions a block is due only after the
heartbeat. -/
def minerSnapshot (r : Readings) (a : App) : App :=
  if !a.mineOn then a
  else
    let height := a.chain.height + 1
    let txs := a.pool.collect a.chain.st a.params height
    if txs ≠ [] ∨ a.heartbeatDue (r.now 0) then
      { a with job := some (a.tipSeq, a.chain.template a.params a.pool a.minerAddr (r.now 1).seconds 0) }
    else { a with job := none }

/-- The candidate with the nonce that was found. -/
def withNonce (b : Block) (nonce : UInt64) : Block := { b with h := { b.h with nonce := nonce } }

/-- The second critical section: the candidate is connected unless the chain has changed. -/
def minerCommit (r : Readings) (a : App) (nonce : UInt64) : App × List NetCall :=
  match a.job with
  | none => (a, [])
  | some (seq, cand) =>
      let a := { a with job := none }
      if a.tipSeq ≠ seq then (a, [])
      else
        match a.chain.connectBlock (r.now 0) (withNonce cand nonce) with
        | .ok chain =>
            let a := postChainChange { a with chain := chain }
            (a, [a.announceTip (-1), .broadcast mBlock (withNonce cand nonce).serialize (-1)])
        | .error _ => (a, [])

/-! ### RPC -/

def submit (a : App) (body : String) : App × List NetCall × HttpResp :=
  match unhex body with
  | none => (a, [], err400 "body must be hex")
  | some raw =>
      match Tx.parse raw with
      | .error e => (a, [], err400 ("parse: " ++ e.text))
      | .ok (t, rest) =>
          if rest ≠ [] then (a, [], err400 ("parse: " ++ ParseError.trailingBytes.text))
          else if a.pool.has t.txid || a.chain.txidx.contains t.txid then (a, [], err400 "duplicate tx")
          else
            match a.pool.add t a.chain.st a.params with
            | .error e => (a, [], err400 e.text)
            | .ok pool =>
                ({ a with pool := pool }, [.broadcast mTx raw (-1)],
                  ⟨200, "application/json", "\x7b\"txid\":\"" ++ hexs t.txid.toList ++ "\",\"status\":\"pending\"\x7d"⟩)

/-- The template that `/work` hands out for the payout address. -/
def workBlock (r : Readings) (a : App) (payto : Addr20) : Block :=
  a.chain.template a.params a.pool payto (r.now 0).seconds 0

/-- `/work` for a known payout address. -/
def workFor (r : Readings) (a : App) (payto : Addr20) : App × HttpResp :=
  let b := workBlock r a payto
  let cache := if maxWorkCache < a.workCache.size then ∅ else a.workCache
  ({ a with workCache := cache.insert b.h.merkle b.txs },
    ⟨200, "application/json", "\x7b\"header\":\"" ++ hexs b.h.serialize ++ "\",\"bits\":" ++ toString b.h.bits ++
      ",\"height\":" ++ toString b.h.height ++ ",\"tip\":\"" ++ hexs a.chain.tipHash.toList ++
      "\",\"ntx\":" ++ toString b.txs.length ++ "\x7d"⟩)

def work (r : Readings) (a : App) (addr : Option String) : App × HttpResp :=
  match addr with
  | none => workFor r a a.minerAddr
  | some s =>
      match unhexN 20 s with
      | none => (a, err400 "bad addr")
      | some payto => workFor r a payto

def submitWork (r : Readings) (a : App) (body : String) : App × List NetCall × HttpResp :=
  match unhex body with
  | none => (a, [], err400 "body must be hex of 100-byte header")
  | some raw =>
      if raw.length ≠ headerSize then (a, [], err400 "body must be hex of 100-byte header")
      else
        match BlockHeader.parse raw with
        | .error _ => (a, [], err400 "bad header")
        | .ok (h, _) =>
            match a.workCache[h.merkle]? with
            | none => (a, [], err400 "unknown work (stale tip?)")
            | some txs =>
                match a.chain.connectBlock (r.now 0) { h := h, txs := txs } with
                | .error e => (a, [], err400 ("rejected: " ++ e.text))
                | .ok chain =>
                    let b : Block := { h := h, txs := txs }
                    let a := postChainChange { a with chain := chain }
                    (a, [a.announceTip (-1), .broadcast mBlock b.serialize (-1)],
                      ⟨200, "application/json", "\x7b\"ok\":true,\"height\":" ++ toString h.height ++
                        ",\"hash\":\"" ++ hexs h.hash.toList ++ "\"\x7d"⟩)

/-! ### Events -/

end App

/-- What can happen to a node. `net` is the network thread, which changes the table of peers in any way. -/
inductive Event where
  | net (p2p : P2P)
  | ready (peer : Int)
  | gone (peer : Int)
  | msg (peer : Int) (type : UInt8) (payload : Bytes)
  | keepalive
  | timeout
  | submit (body : String)
  | work (addr : Option String)
  | submitWork (body : String)
  | minerSnapshot
  | minerCommit (nonce : UInt64)

namespace App

variable [Crypto]

def handle (r : Readings) (a : App) : Event → App × List NetCall
  | .net p2p => ({ a with p2p := p2p }, [])
  | .ready peer => a.onReady peer
  | .gone peer => a.onGone peer
  | .msg peer type payload => a.onMsg r peer type payload
  | .keepalive => (a, [a.announceTip (-1)])
  | .timeout => (a.checkTimeout (r.ms 0), [])
  | .submit body => ((a.submit body).1, (a.submit body).2.1)
  | .work addr => ((a.work r addr).1, [])
  | .submitWork body => ((a.submitWork r body).1, (a.submitWork r body).2.1)
  | .minerSnapshot => (a.minerSnapshot r, [])
  | .minerCommit nonce => a.minerCommit r nonce

/-- One event: the handler, then its calls to the network. -/
def step (r : Readings) (a : App) (ev : Event) : App :=
  let (a', calls) := a.handle r ev
  { a' with p2p := calls.foldl P2P.perform a'.p2p }

/-- The node as `node_run` starts it on a database. -/
def start (p : Params) (c : Chain) (minerAddr : Addr20) (mineOn : Bool) (heartbeat : UInt64) : App :=
  { params := p, chain := c, minerAddr := minerAddr, mineOn := mineOn, heartbeat := heartbeat }

end App

end Chainlite
