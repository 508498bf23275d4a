import Chainlite.State

/-! The two tables of a node's database and the statements that change them. Every statement is
taken to succeed. `BEGIN IMMEDIATE` and `COMMIT` do not change the rows that the connection itself
reads, and the `CREATE TABLE IF NOT EXISTS` of the schema leaves existing rows alone. -/

open Std

namespace Chainlite

/-- The columns of `blocks` beside its primary key `height`. -/
structure BlockRow where
  hash : String
  prev : String
  time : Int64
  ntx : Int64
  raw : Bytes
  deriving DecidableEq

structure TxRow where
  txid : String
  height : Int64
  idx : Int64
  type : Int64
  fromAddr : String
  toAddr : String
  amount : Int64
  nonce : Int64
  payload : Bytes
  deriving DecidableEq

/-- The statements the node executes after the schema. -/
inductive Sql where
  | beginImmediate
  | commit
  | insertBlock (height : Int64) (row : BlockRow)
  | insertTx (row : TxRow)
  | deleteBlocksFrom (height : Int64)
  | deleteTxsFrom (height : Int64)

/-- `blocks` by its primary key, `txs` in the order of insertion. -/
structure Db where
  blocks : ExtTreeMap Int64 BlockRow := ∅
  txs : List TxRow := []

namespace Db

def exec (db : Db) : Sql → Db
  | .beginImmediate => db
  | .commit => db
  | .insertBlock height row => { db with blocks := db.blocks.insert height row }
  | .insertTx row => { db with txs := db.txs ++ [row] }
  | .deleteBlocksFrom height => { db with blocks := db.blocks.filter fun key _ => !decide (height ≤ key) }
  | .deleteTxsFrom height => { db with txs := db.txs.filter fun row => !decide (height ≤ row.height) }

def run (db : Db) (stmts : List Sql) : Db := stmts.foldl exec db

/-- `SELECT raw FROM blocks ORDER BY height`. -/
def rawsByHeight (db : Db) : List Bytes := db.blocks.toList.map fun entry => entry.2.raw

@[simp] theorem run_nil (db : Db) : db.run [] = db := rfl

@[simp] theorem run_cons (db : Db) (stmt : Sql) (stmts : List Sql) :
    db.run (stmt :: stmts) = (db.exec stmt).run stmts := rfl

theorem run_append (db : Db) (stmts stmts' : List Sql) :
    db.run (stmts ++ stmts') = (db.run stmts).run stmts' := List.foldl_append

end Db

/-- `DELETE` from both tables the rows of height `h` and above. -/
def dbTruncateFrom (h : UInt64) : List Sql :=
  [.deleteBlocksFrom h.toInt64, .deleteTxsFrom h.toInt64]

variable [Crypto]

def blockRow (b : Block) : BlockRow where
  hash := hexs b.h.hash.toList
  prev := hexs b.h.prev.toList
  time := b.h.time.toInt64
  ntx := Int64.ofNat b.txs.length
  raw := b.serialize

/-- The row of the transaction `t` at index `i` of a block of height `height`. -/
def txRow (height : Int64) (i : Nat) (t : Tx) : TxRow where
  txid := hexs t.txid.toList
  height := height
  idx := Int64.ofNat i
  type := Int64.ofNat t.type.toNat
  fromAddr := if t.type = txCoinbase then "coinbase" else hexs t.sender.toList
  toAddr := hexs t.toAddr.toList
  amount := t.amount.toInt64
  nonce := t.nonce.toInt64
  payload := t.payload

/-- One `INSERT OR REPLACE` for the block, then one `INSERT` for each transaction. -/
def dbInsert (b : Block) : List Sql :=
  .insertBlock b.h.height.toInt64 (blockRow b) ::
    b.txs.zipIdx.map fun entry => .insertTx (txRow b.h.height.toInt64 entry.2 entry.1)

end Chainlite
