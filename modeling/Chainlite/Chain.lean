import Chainlite.Storage

/-! The chain: validation of the next block, replacement by a heavier candidate, and loading from
the database. A call reads the clock once for every block it examines; `now k` is the reading for
the block number `k` of the call. -/

open Std

namespace Chainlite

inductive ConnectError where
  | invalidGenesis
  | badVersion
  | wrongNetwork
  | badHeight
  | prevMismatch
  | badDifficulty
  | insufficientPow
  | futureTime
  | badTxCount
  | merkleMismatch
  | tx (i : Nat) (err : TxError)
  deriving DecidableEq, Repr

def ConnectError.text : ConnectError → String
  | .invalidGenesis => "invalid genesis"
  | .badVersion => "bad version"
  | .wrongNetwork => "wrong network"
  | .badHeight => "bad height"
  | .prevMismatch => "prev hash mismatch"
  | .badDifficulty => "bad difficulty"
  | .insufficientPow => "insufficient proof of work"
  | .futureTime => "timestamp too far in future"
  | .badTxCount => "bad tx count"
  | .merkleMismatch => "merkle mismatch"
  | .tx i err => "tx " ++ toString i ++ ": " ++ err.text

inductive ReplaceError where
  | emptyCandidate
  | invalid (height : UInt64) (err : ConnectError)
  | noMoreWork
  deriving DecidableEq, Repr

def ReplaceError.text : ReplaceError → String
  | .emptyCandidate => "empty candidate"
  | .invalid height err => "candidate height " ++ toString height ++ ": " ++ err.text
  | .noMoreWork => "candidate has no more work than current chain"

structure Chain where
  params : Params
  blocks : List Block := []
  hashes : List H256 := []
  st : State := ∅
  /-- Transaction id to height and index. -/
  txidx : ExtTreeMap H256 (UInt32 × UInt32) := ∅
  work : UInt64 := 0
  db : Option Db := none
  persisting : Bool := true

/-- The block every chain with the parameters `p` starts from. -/
def makeGenesis (p : Params) : Block :=
  { h := { version := clVersion, netId := p.netId, height := 0, time := p.genesisTime, bits := 0,
           nonce := 0, merkle := zeros 32 } }

namespace Chain

/-- A `Chain` on which only the parameters have been set. -/
def fresh (p : Params) : Chain := { params := p }

def height (c : Chain) : UInt64 :=
  match c.blocks.getLast? with
  | none => 0
  | some b => b.h.height

/-- The last hash; only read when there is one. -/
def tipHash (c : Chain) : H256 := c.hashes.getLast?.getD (zeros 32)

def hasBlock (c : Chain) (h : H256) : Bool := c.hashes.any (· == h)

/-- Execute statements on the database, when there is one. -/
def sql (c : Chain) (stmts : List Sql) : Chain := { c with db := c.db.map (·.run stmts) }

/-- Execute statements when the chain is persisted: `if (db && persisting)`. -/
def persist (c : Chain) (stmts : List Sql) : Chain := if c.persisting then c.sql stmts else c

/-- All transactions in chain order. -/
def txs (c : Chain) : List Tx := c.blocks.flatMap Block.txs

variable [Crypto]

/-- `txidx[txid] = (height, i)` for every transaction of a block. -/
def indexTxs (txidx : ExtTreeMap H256 (UInt32 × UInt32)) (b : Block) :
    ExtTreeMap H256 (UInt32 × UInt32) :=
  b.txs.zipIdx.foldl (fun m entry => m.insert entry.1.txid (b.h.height.toUInt32, UInt32.ofNat entry.2)) txidx

def append (c : Chain) (b : Block) (w : UInt64) : Chain :=
  persist { c with
    txidx := indexTxs c.txidx b
    blocks := c.blocks ++ [b]
    hashes := c.hashes ++ [b.h.hash]
    work := c.work + w } (dbInsert b)

/-- Validate `b` as the next block and append it. -/
def connectBlock (now : Clock) (c : Chain) (b : Block) : Except ConnectError Chain :=
  match c.blocks.getLast? with
  | none =>
      if b.h.hash ≠ (makeGenesis c.params).h.hash ∨ b.txs ≠ [] then .error .invalidGenesis
      else .ok (c.append b 1)
  | some tip =>
      if b.h.version ≠ clVersion then .error .badVersion
      else if b.h.netId ≠ c.params.netId then .error .wrongNetwork
      else if b.h.height ≠ tip.h.height + 1 then .error .badHeight
      else if b.h.prev ≠ c.tipHash then .error .prevMismatch
      else if b.h.bits ≠ c.params.bits then .error .badDifficulty
      else if !powOk b.h.hash b.h.bits then .error .insufficientPow
      else if now.seconds + maxTimeSkew < b.h.time then .error .futureTime
      else if b.txs = [] ∨ maxBlockTxs < b.txs.length then .error .badTxCount
      else if merkleRoot b.txids ≠ b.h.merkle then .error .merkleMismatch
      else
        match applyBody c.params b.h.height c.st 0 b.txs with
        | .error (i, err) => .error (.tx i err)
        | .ok st => .ok ({ c with st := st }.append b (workOf b.h.bits))

/-- Connect blocks one after another, `k` of them so far, with the number connected. An error comes with
the block that caused it and the chain as far as it got. -/
def connectAll (now : Nat → Clock) :
    Nat → Chain → List Block → Chain × Nat × Option (Block × ConnectError)
  | k, c, [] => (c, k, none)
  | k, c, b :: rest =>
      match c.connectBlock (now k) b with
      | .ok c' => connectAll now (k + 1) c' rest
      | .error err => (c, k, some (b, err))

/-- The first position at which two hash lists differ or one of them ends. -/
def forkPoint : List H256 → List H256 → Nat
  | x :: xs, y :: ys => if x = y then forkPoint xs ys + 1 else 0
  | _, _ => 0

/-- Adopt a full candidate chain when it is valid and has strictly more work. The result comes with
the fork height. -/
def tryReplace (now : Nat → Clock) (c : Chain) (cand : List Block) : Except ReplaceError (Chain × Nat) :=
  if cand = [] then .error .emptyCandidate
  else
    match connectAll now 0 { params := c.params, persisting := false } cand with
    | (_, _, some (b, err)) => .error (.invalid b.h.height err)
    | (tmp, _, none) =>
        if tmp.work ≤ c.work then .error .noMoreWork
        else
          let fork := forkPoint c.hashes tmp.hashes
          let c' := { c with
            blocks := tmp.blocks, hashes := tmp.hashes, st := tmp.st, txidx := tmp.txidx, work := tmp.work }
          .ok (c'.persist ([.beginImmediate] ++ dbTruncateFrom (UInt64.ofNat fork) ++
            (tmp.blocks.drop fork).flatMap dbInsert ++ [.commit]), fork)

/-- The loop of `init` over the stored blocks, up to the first one that does not parse or connect.
The count is the number of good rows. -/
def loadRows (now : Nat → Clock) : Nat → Chain → List Bytes → Chain × Nat
  | good, c, [] => (c, good)
  | good, c, raw :: rest =>
      match Block.parse raw with
      | none => (c, good)
      | some b =>
          match c.connectBlock (now good) b with
          | .error _ => (c, good)
          | .ok c' => loadRows now (good + 1) c' rest

/-- Connect the genesis block to an empty chain. -/
def ensureGenesis (now : Clock) (c : Chain) : Except ConnectError Chain :=
  if c.blocks = [] then c.connectBlock now (makeGenesis c.params) else .ok c

/-- Load the chain from a database, dropping the rows that do not belong to it, or start it. -/
def init (now : Nat → Clock) (c : Chain) (database : Option Db) : Except ConnectError Chain :=
  match database with
  | none => ensureGenesis (now 0) { c with db := none }
  | some db =>
      let raws := db.rawsByHeight
      let loaded := loadRows now 0 { c with db := some db, persisting := false } raws
      let c' := { loaded.1 with persisting := true }
      let c' := if loaded.2 < raws.length then
          c'.sql ([.beginImmediate] ++ dbTruncateFrom (UInt64.ofNat loaded.2) ++ [.commit])
        else c'
      ensureGenesis (now raws.length) c'

end Chain

end Chainlite
