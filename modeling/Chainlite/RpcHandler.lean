import Chainlite.NodeRecords
import Chainlite.Rpc

/-! The answers of the node: `handle_rpc` in full, with the texts of all its endpoints. Three of them are events of the
node; the others only read it. -/

open Std

namespace Chainlite

/-- What `handle_rpc` uses besides the node: the two copies of the viewer, on disk and in the program, and the ports. -/
structure RpcConfig where
  webFile : String := ""
  viewerHtml : String := ""
  rpcPort : UInt16 := 0
  rpcPeers : String := ""

def P2P.readyCount (net : P2P) : Nat := (net.peers.toList.filter fun entry => entry.2.ready && !entry.2.dead).length

def helpText : String :=
  "chainlite node RPC\n" ++
  "  GET  /            web viewer (explorer + wallet)\n" ++
  "  GET  /status\n" ++
  "  GET  /balance?addr=<hex40>\n" ++
  "  GET  /block?height=N | /block?hash=<hex64>\n" ++
  "  GET  /tx?id=<hex64>\n" ++
  "  GET  /mempool\n" ++
  "  GET  /records?limit=N[&addr=<hex40>]   (notes feed: every RECORD tx)\n" ++
  "  GET  /tail?n=N\n" ++
  "  GET  /prove?txid=<hex64>          (merkle inclusion proof)\n" ++
  "  POST /submit        body=<hex tx>\n" ++
  "  GET  /work?addr=<hex40>           (mining work for external miner)\n" ++
  "  POST /submitwork    body=<hex 100-byte header>\n"

/-- The page at `/`. -/
def viewerPage (c : RpcConfig) : HttpResp :=
  let html := if c.webFile = "" then c.viewerHtml else c.webFile
  if html = "" then
    ⟨200, "text/plain", "chainlite node RPC (no web viewer embedded or found)\nEndpoints: GET /help for the list.\n"⟩
  else ⟨200, "text/html; charset=utf-8", html⟩

/-- The pieces of a list with commas that are not empty. -/
def items (list : String) : List (List Char) := (Text.pieces ',' list.toList).filter (· ≠ [])

/-- `GET /nodes`. -/
def nodesPage (c : RpcConfig) : HttpResp :=
  let src := if c.rpcPeers = "" then toString c.rpcPort else c.rpcPeers
  ⟨200, "application/json", String.ofList (strf ("\x7b\"self\":".toList ++ (toString c.rpcPort).toList ++
    ",\"rpc\":[".toList ++ cstr (List.intercalate [','] (items src)) ++ "]\x7d".toList))⟩

section
variable [Crypto]

def jsonBlockSummary (b : Block) : String :=
  "\x7b\"height\":" ++ toString b.h.height ++ ",\"hash\":\"" ++ hexs b.h.hash.toList ++ "\",\"time\":" ++
    toString b.h.time ++ ",\"ntx\":" ++ toString b.txs.length ++ "\x7d"

/-- The answer of `/tx` for a transaction on the chain. -/
def txJson (id : H256) (height : UInt64) (index : UInt32) (conf : UInt64) (t : Tx) : String :=
  "\x7b\"txid\":\"" ++ hexs id.toList ++ "\",\"status\":\"confirmed\",\"height\":" ++ toString height ++ ",\"index\":" ++
    toString index ++ ",\"confirmations\":" ++ toString conf ++ ",\"type\":" ++ toString t.type ++ ",\"from\":\"" ++
    (if t.type = txCoinbase then "coinbase" else hexs t.sender.toList) ++ "\",\"to\":\"" ++ hexs t.toAddr.toList ++
    "\",\"amount\":" ++ toString t.amount ++ ",\"nonce\":" ++ toString t.nonce ++ ",\"payload_hex\":\"" ++
    hexs t.payload ++ "\"\x7d"

def pendingJson (id : H256) : String := "\x7b\"txid\":\"" ++ hexs id.toList ++ "\",\"status\":\"pending\"\x7d"

namespace App

/-- `GET /status`. -/
def status (a : App) : HttpResp :=
  ⟨200, "application/json", "\x7b\"height\":" ++ toString a.chain.height ++ ",\"tip\":\"" ++ hexs a.chain.tipHash.toList ++
    "\",\"work\":" ++ toString a.chain.work ++ ",\"peers\":" ++ toString a.p2p.readyCount ++ ",\"mempool\":" ++
    toString a.pool.size ++ ",\"mining\":" ++ (if a.mineOn then "true" else "false") ++ ",\"miner_addr\":\"" ++
    hexs a.minerAddr.toList ++ "\",\"net_id\":" ++ toString a.params.netId ++ ",\"bits\":" ++ toString a.params.bits ++
    ",\"reward\":" ++ toString a.params.reward ++ "\x7d"⟩

def balanceJson (addr : Addr20) (acct : Account) : String :=
  "\x7b\"addr\":\"" ++ hexs addr.toList ++ "\",\"balance\":" ++ toString acct.balance ++ ",\"nonce\":" ++
    toString acct.nonce ++ "\x7d"

/-- `GET /balance?addr=..`. -/
def balance (a : App) (addr : Option String) : HttpResp :=
  match unhexN 20 (addr.getD "") with
  | none => err400 "need addr=<hex40>"
  | some ad => ⟨200, "application/json", balanceJson ad (a.chain.st.acct ad)⟩

/-- `GET /tx?id=..`: the chain first, then the pool. -/
def tx (a : App) (id : Option String) : HttpResp :=
  match unhexN 32 (id.getD "") with
  | none => err400 "need id=<hex64>"
  | some id =>
      match a.chain.txidx[id]? with
      | some place =>
          let b := a.chain.blocks.getD place.1.toNat {}
          let t := b.txs.getD place.2.toNat {}
          ⟨200, "application/json", txJson id b.h.height place.2 (a.chain.height - b.h.height + 1) t⟩
      | none =>
          match a.pool.find id with
          | some _ => ⟨200, "application/json", pendingJson id⟩
          | none => err404 "tx not found (it may have been dropped in a reorg; resubmit)"

/-- `GET /mempool`. -/
def mempool (a : App) : HttpResp :=
  ⟨200, "application/json", "\x7b\"count\":" ++ toString a.pool.size ++ ",\"txids\":[" ++
    String.intercalate "," (a.pool.m.toList.map fun entry => "\"" ++ hexs entry.2.txid.toList ++ "\"") ++ "]\x7d"⟩

/-- `GET /tail?n=..`: the last blocks, 10 unless another number up to 100 is asked for. -/
def tail (a : App) (n : Option String) : HttpResp :=
  let n := match n with
    | some s => min (strtoull s.toList).toNat 100
    | none => 10
  ⟨200, "application/json", "\x7b\"blocks\":[" ++ String.intercalate ","
    ((a.chain.blocks.drop (a.chain.blocks.length - n)).map jsonBlockSummary) ++ "]\x7d"⟩

/-- `handle_rpc`. -/
def handleRpc (c : RpcConfig) (r : Readings) (a : App) (req : HttpReq) : App × List NetCall × HttpResp :=
  if req.path = "/" ∨ req.path = "/app" ∨ req.path = "/viewer.html" then (a, [], viewerPage c)
  else if req.path = "/help" then (a, [], ⟨200, "text/plain", helpText⟩)
  else if req.path = "/nodes" then (a, [], nodesPage c)
  else if req.path = "/status" then (a, [], a.status)
  else if req.path = "/balance" then (a, [], a.balance req.query["addr"]?)
  else if req.path = "/block" then (a, [], a.block req.query["height"]? req.query["hash"]?)
  else if req.path = "/tx" then (a, [], a.tx req.query["id"]?)
  else if req.path = "/mempool" then (a, [], a.mempool)
  else if req.path = "/records" then (a, [], a.records req.query["limit"]? req.query["addr"]?)
  else if req.path = "/tail" then (a, [], a.tail req.query["n"]?)
  else if req.path = "/submit" ∧ req.method = "POST" then a.submit req.body
  else if req.path = "/prove" then (a, [], a.prove req.query["txid"]?)
  else if req.path = "/work" then
    match a.work r req.query["addr"]? with
    | (a', resp) => (a', [], resp)
  else if req.path = "/submitwork" ∧ req.method = "POST" then a.submitWork r req.body
  else (a, [], err404 "unknown endpoint (GET / for help)")

end App

end

end Chainlite
