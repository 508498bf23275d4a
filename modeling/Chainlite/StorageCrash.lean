import Chainlite.StorageDurability

/-! Stopping the process between two statements. A statement outside a transaction is on disk when it is done;
the statements of a transaction are on disk from its `COMMIT` on. A reorganisation is one transaction, while the
row of a connected block and the rows of its transactions are written one after another with nothing around
them. Stopping among these leaves a block whose transactions are not all in `txs`, and the next start does not
notice, as it goes by the `blocks` table alone. Everywhere else the next start finds whole blocks. -/

open Std

namespace Chainlite

/-! ### Transactions -/

/-- What is on disk, and the tables as the open transaction has left them. -/
structure Disk where
  durable : Db := {}
  pending : Option Db := none

/-- The statement is neither of the two that open and close a transaction. -/
def Sql.Plain : Sql → Prop
  | .beginImmediate => False
  | .commit => False
  | _ => True

/-- Statements in a transaction of their own. -/
def transaction (body : List Sql) : List Sql := [.beginImmediate] ++ body ++ [.commit]

namespace Disk

def exec (d : Disk) : Sql → Disk
  | .beginImmediate => { d with pending := some d.durable }
  | .commit => { durable := d.pending.getD d.durable }
  | stmt =>
      match d.pending with
      | some db => { d with pending := some (db.exec stmt) }
      | none => { d with durable := d.durable.exec stmt }

def run (d : Disk) (stmts : List Sql) : Disk := stmts.foldl exec d

theorem run_append (d : Disk) (stmts stmts' : List Sql) : d.run (stmts ++ stmts') = (d.run stmts).run stmts' :=
  List.foldl_append

theorem exec_auto (db : Db) {stmt : Sql} (h : stmt.Plain) : exec ⟨db, none⟩ stmt = ⟨db.exec stmt, none⟩ := by
  cases stmt with
  | beginImmediate => exact h.elim
  | commit => exact h.elim
  | _ => rfl

theorem exec_pending (db work : Db) {stmt : Sql} (h : stmt.Plain) :
    exec ⟨db, some work⟩ stmt = ⟨db, some (work.exec stmt)⟩ := by
  cases stmt with
  | beginImmediate => exact h.elim
  | commit => exact h.elim
  | _ => rfl

/-- Outside a transaction every statement is on disk when it is done. -/
theorem run_auto (db : Db) {stmts : List Sql} (h : ∀ stmt ∈ stmts, stmt.Plain) :
    run ⟨db, none⟩ stmts = ⟨db.run stmts, none⟩ := by
  induction stmts generalizing db with
  | nil => rfl
  | cons stmt rest ih =>
      show run (exec ⟨db, none⟩ stmt) rest = _
      rw [exec_auto db (h stmt List.mem_cons_self), ih _ fun s hs => h s (List.mem_cons_of_mem _ hs)]
      rfl

/-- Inside a transaction nothing changes on disk. -/
theorem run_pending (db work : Db) {stmts : List Sql} (h : ∀ stmt ∈ stmts, stmt.Plain) :
    run ⟨db, some work⟩ stmts = ⟨db, some (work.run stmts)⟩ := by
  induction stmts generalizing work with
  | nil => rfl
  | cons stmt rest ih =>
      show run (exec ⟨db, some work⟩ stmt) rest = _
      rw [exec_pending db work (h stmt List.mem_cons_self), ih _ fun s hs => h s (List.mem_cons_of_mem _ hs)]
      rfl

/-- A whole transaction does what its statements do. -/
theorem run_transaction (db : Db) {body : List Sql} (h : ∀ stmt ∈ body, stmt.Plain) :
    run ⟨db, none⟩ (transaction body) = ⟨db.run (transaction body), none⟩ := by
  have hbegin : run ⟨db, none⟩ [.beginImmediate] = ⟨db, some db⟩ := rfl
  rw [transaction, run_append, run_append, hbegin, run_pending db db h, Db.run_append, Db.run_append]
  rfl

/-- A transaction that is not finished has done nothing. -/
theorem durable_run_transaction_take (db : Db) {body : List Sql} (h : ∀ stmt ∈ body, stmt.Plain) {j : Nat}
    (hj : j < (transaction body).length) : (run ⟨db, none⟩ ((transaction body).take j)).durable = db := by
  cases j with
  | zero => rfl
  | succ j =>
      have hlen : j ≤ body.length := by
        simp [transaction] at hj
        omega
      have htake : (transaction body).take (j + 1) = [.beginImmediate] ++ body.take j := by
        simp [transaction, List.take_append_of_le_length hlen]
      have hbegin : run ⟨db, none⟩ [.beginImmediate] = ⟨db, some db⟩ := rfl
      rw [htake, run_append, hbegin, run_pending db db fun stmt hs => h stmt (List.mem_of_mem_take hs)]

end Disk

theorem plain_dbTruncateFrom (h : UInt64) : ∀ stmt ∈ dbTruncateFrom h, stmt.Plain := by
  intro stmt hs
  simp only [dbTruncateFrom, List.mem_cons, List.not_mem_nil, or_false] at hs
  rcases hs with rfl | rfl
  · trivial
  · trivial

section
variable [Crypto] {p : Params}

theorem plain_dbInsert (b : Block) : ∀ stmt ∈ dbInsert b, stmt.Plain := by
  intro stmt hs
  rcases List.mem_cons.mp hs with rfl | hs
  · trivial
  · obtain ⟨entry, -, rfl⟩ := List.mem_map.mp hs
    trivial

theorem length_dbInsert (b : Block) : (dbInsert b).length = b.txs.length + 1 := by
  simp [dbInsert]

/-- The statements of a reorganisation, between the two of its transaction. -/
theorem plain_rewrite (fork : UInt64) (bs : List Block) :
    ∀ stmt ∈ dbTruncateFrom fork ++ bs.flatMap dbInsert, stmt.Plain := by
  intro stmt hs
  rcases List.mem_append.mp hs with hs | hs
  · exact plain_dbTruncateFrom _ stmt hs
  · obtain ⟨b, -, hs⟩ := List.mem_flatMap.mp hs
    exact plain_dbInsert b stmt hs

namespace Chain

/-! ### The statements of a run -/

/-- The statements of a sequence of calls. -/
def log (c : Chain) : List Call → List Sql
  | [] => []
  | call :: rest => c.sqlOf call ++ log (c.perform call) rest

/-- `j` statements into the run, a connected block is written and the rows of its transactions are not yet
complete. -/
def Torn (c : Chain) (calls : List Call) (j : Nat) : Prop :=
  ∃ before now b after c', calls = before ++ .connect now b :: after ∧
    (c.performAll before).connectBlock now b = .ok c' ∧
    (log c before).length < j ∧ j ≤ (log c before).length + b.txs.length

theorem Torn.cons {c : Chain} {call : Call} {rest : List Call} {j : Nat} (h : Torn (c.perform call) rest j) :
    Torn c (call :: rest) ((c.sqlOf call).length + j) := by
  obtain ⟨before, now, b, after, c', rfl, hc, hlo, hhi⟩ := h
  refine ⟨call :: before, now, b, after, c', rfl, hc, ?_, ?_⟩
  · rw [log, List.length_append]
    omega
  · rw [log, List.length_append]
    omega

/-- Where the run was not stopped, the tables on disk are those of the connection. -/
theorem run_sqlOf (c : Chain) (call : Call) (db : Db) :
    Disk.run ⟨db, none⟩ (c.sqlOf call) = ⟨db.run (c.sqlOf call), none⟩ := by
  cases call with
  | connect now b =>
      rw [sqlOf]
      cases c.connectBlock now b with
      | error err => rfl
      | ok c' => exact Disk.run_auto db (plain_dbInsert b)
  | replace now cand =>
      rw [sqlOf]
      cases c.tryReplace now cand with
      | error err => rfl
      | ok result =>
          dsimp only
          rw [List.append_assoc [Sql.beginImmediate]]
          exact Disk.run_transaction db (plain_rewrite _ _)

/-- **Stopping inside a call** that is not a torn `db_insert` leaves the disk as it was before the call. -/
theorem durable_run_sqlOf_take {c : Chain} {call : Call} {rest : List Call} {j : Nat} (h : ¬Torn c (call :: rest) j)
    (hj : j < (c.sqlOf call).length) (db : Db) : (Disk.run ⟨db, none⟩ ((c.sqlOf call).take j)).durable = db := by
  cases call with
  | connect now b =>
      rw [sqlOf] at hj ⊢
      cases hc : c.connectBlock now b with
      | error err => simp [hc] at hj
      | ok c' =>
          simp only [hc, length_dbInsert] at hj
          have hzero : j = 0 := by
            by_contra hpos
            exact h ⟨[], now, b, rest, c', rfl, hc, Nat.pos_of_ne_zero hpos, by rw [log, List.length_nil]; omega⟩
          rw [hzero]
          rfl
  | replace now cand =>
      rw [sqlOf] at hj ⊢
      cases hr : c.tryReplace now cand with
      | error err => simp [hr] at hj
      | ok result =>
          simp only [hr] at hj ⊢
          rw [List.append_assoc [Sql.beginImmediate]] at hj ⊢
          exact Disk.durable_run_transaction_take db (plain_rewrite _ _) hj

/-! ### Stopping a run -/

/-- **What is on disk when a run stops** outside a torn `db_insert`: the tables of some list of blocks, each
with all of its transactions. -/
theorem mirrors_of_stop {c : Chain} {db : Db} {bs : List Block} (h : Stores c bs) (hdb : c.db = some db)
    (hsound : Sound p c) (hne : c.blocks ≠ []) {strings : List Bytes} (hfree : CollisionFree strings)
    {calls : List Call} (hsub : headersBy p (held c calls) ⊆ strings) (hroom : Roomy c calls) {j : Nat}
    (hwhole : ¬Torn c calls j) :
    ∃ bs', Mirrors (Disk.run ⟨db, none⟩ ((log c calls).take j)).durable bs' ∧ (∀ b ∈ bs', b.Fits) ∧
      bs'.length < 2 ^ 63 := by
  have hhere : ∃ bs', Mirrors db bs' ∧ (∀ b ∈ bs', b.Fits) ∧ bs'.length < 2 ^ 63 := by
    obtain ⟨db', hdb', hmirrors⟩ := h.tables
    obtain rfl : db = db' := Option.some.inj (hdb.symm.trans hdb')
    exact ⟨bs, hmirrors, h.fits, h.length ▸ hroom.head⟩
  induction calls generalizing c db bs j with
  | nil =>
      rw [log, List.take_nil]
      exact hhere
  | cons call rest ih =>
      rw [log, List.take_append]
      by_cases hj : j < (c.sqlOf call).length
      · rw [Nat.sub_eq_zero_of_le hj.le, List.take_zero, List.append_nil, durable_run_sqlOf_take hwhole hj]
        exact hhere
      · obtain ⟨i, rfl⟩ := Nat.exists_eq_add_of_le (Nat.not_lt.mp hj)
        obtain ⟨hsound', hne'⟩ := hsound.perform hne call
        have hdb' := (perform_db h.persisting call).1
        rw [hdb, Option.map_some] at hdb'
        have hrest : headersBy p (held (c.perform call) rest) ⊆ strings :=
          List.Subset.trans (headersBy_subset (List.subset_append_right _ _)) hsub
        have hnext : headersBy p (c.perform call).blocks ⊆ strings :=
          List.Subset.trans (headersBy_subset (mem_held _ _)) hrest
        have hstores := h.perform hsound hfree call hnext hroom.head hroom.tail.head
        rw [List.take_of_length_le (Nat.le_add_right _ _), Nat.add_sub_cancel_left, Disk.run_append, run_sqlOf]
        refine ih hstores hdb' hsound' hne' hrest hroom.tail (fun htorn => hwhole htorn.cons) ?_
        obtain ⟨db', hdb'', hmirrors⟩ := hstores.tables
        obtain rfl := Option.some.inj (hdb'.symm.trans hdb'')
        exact ⟨_, hmirrors, hstores.fits, hstores.length ▸ hroom.tail.head⟩

/-- What the first `init` executes. -/
theorem init_empty_db {now : Nat → Clock} {c : Chain} (h : (fresh p).init now (some {}) = .ok c) :
    c.db = some (({} : Db).run (initSql p 0 0)) := by
  obtain ⟨c', good, bs, hinit, hgood, -, -, hdb⟩ := init_spec p now {}
  obtain rfl : c = c' := Except.ok.inj (h.symm.trans hinit)
  have hnil : bs.length = 0 := by
    rw [← hgood.length]
    exact Nat.le_zero.mp hgood.first.length_le
  rw [hdb, hnil]
  rfl

/-- The tables on disk when the process stops after `j` statements of `init` and the calls after it. -/
def stoppedAfter (p : Params) (c₀ : Chain) (calls : List Call) (j : Nat) : Db :=
  (Disk.run {} ((initSql p 0 0 ++ log c₀ calls).take j)).durable

/-- **Crash consistency outside `db_insert`.** Wherever the process stops, the inside of the `db_insert` of a
connected block apart, the next `init` leaves in `txs` the transactions of the blocks it has loaded and no
other row, whatever its clock; or two distinct headers hashed on the way have one hash. -/
theorem txs_after_crash {now : Nat → Clock} {c₀ : Chain} (h₀ : (fresh p).init now (some {}) = .ok c₀)
    (calls : List Call) (hroom : Roomy c₀ calls) (j : Nat)
    (hwhole : ∀ i, j = (initSql p 0 0).length + i → ¬Torn c₀ calls i) (now' : Nat → Clock) :
    (∃ c db, (fresh p).init now' (some (stoppedAfter p c₀ calls j)) = .ok c ∧ c.db = some db ∧
      db.txs = txRows c.blocks) ∨ Collision (headersBy p (held c₀ calls)) := by
  rcases collisionFree_or_collision (headersBy p (held c₀ calls)) with hfree | hcol
  · refine Or.inl ?_
    obtain ⟨hsound, hne⟩ := Sound.init h₀
    have hstart : (initSql p 0 0).length = 1 := rfl
    obtain ⟨bs, hmirrors, hfits, hlen⟩ : ∃ bs, Mirrors (stoppedAfter p c₀ calls j) bs ∧ (∀ b ∈ bs, b.Fits) ∧
        bs.length < 2 ^ 63 := by
      rw [stoppedAfter]
      by_cases hj : j = 0
      · rw [hj, List.take_zero]
        exact ⟨[], mirrors_empty, by simp, by decide⟩
      · obtain ⟨i, rfl⟩ := Nat.exists_eq_add_of_le (Nat.one_le_iff_ne_zero.mpr hj)
        have hinit : Disk.run {} (initSql p 0 0) = ⟨({} : Db).run (initSql p 0 0), none⟩ :=
          Disk.run_auto {} (plain_dbInsert (makeGenesis p))
        rw [List.take_append, hstart, Nat.add_sub_cancel_left, List.take_of_length_le (by rw [hstart]; omega),
          Disk.run_append, hinit]
        exact mirrors_of_stop (Stores.init h₀).1 (init_empty_db h₀) hsound hne hfree (List.Subset.refl _) hroom
          (hwhole i rfl)
    obtain ⟨c, db, k, hinit, hdb, -, htables, -⟩ := init_mirrors (p := p) hmirrors hfits hlen now'
    exact ⟨c, db, hinit, hdb, htables.txs⟩
  · exact Or.inr hcol

/-! ### Stopping inside `db_insert` -/

/-- The tables after the genesis block and the row of the first block: its coinbase is not in `txs`. -/
theorem torn_onDisk : (stoppedAfter easyParams onDisk [.connect easyClock firstBlock] 2).blocks.toList =
      keyed ([makeGenesis easyParams, firstBlock].map blockRow) ∧
    (stoppedAfter easyParams onDisk [.connect easyClock firstBlock] 2).txs = [] := by
  have hlog : log onDisk [.connect easyClock firstBlock] = dbInsert firstBlock := by
    rw [log, sqlOf, connect_onDisk, log, List.append_nil]
  rw [stoppedAfter, hlog]
  have hempty : ({} : Db).blocks.toList = keyed [] := rfl
  have hgenesis := toList_insert_keyed hempty (by simp) (blockRow (makeGenesis easyParams))
  have hfirst := toList_insert_keyed hgenesis (by simp) (blockRow firstBlock)
  exact ⟨hfirst, rfl⟩

theorem txs_of_torn : ∃ c db, (fresh easyParams).init (fun _ => easyClock)
    (some (stoppedAfter easyParams onDisk [.connect easyClock firstBlock] 2)) = .ok c ∧ c.db = some db ∧
      c.blocks = [makeGenesis easyParams, firstBlock] ∧ db.txs = [] := by
  obtain ⟨hblocks, htxs⟩ := torn_onDisk
  obtain ⟨hsound, hne⟩ := (coinbases_reachable (zeros 20) 1).sound
  have hraws : (stoppedAfter easyParams onDisk [.connect easyClock firstBlock] 2).rawsByHeight =
      [makeGenesis easyParams, firstBlock].map Block.serialize := by
    rw [Db.rawsByHeight, hblocks]
    rfl
  obtain ⟨c, hinit, hloaded, hdb⟩ := init_all hraws hsound.valid hne (fun _ => coinbases_timely (zeros 20) 1)
    hsound.valid.fits
  exact ⟨c, _, hinit, hdb, hloaded, htxs⟩

/-! ### Stopping inside a reorganisation -/

/-- The blocks of another chain, one longer than the chain on disk with its first block. -/
def rivalBlocks : List Block := (coinbases (addrOf ownKey) 2).blocks

/-- The first block, and a reorganisation that drops it. -/
def rivalCalls : List Call := [.connect easyClock firstBlock, .replace (fun _ => easyClock) rivalBlocks]

theorem replace_onDisk : ∃ c' fork, (onDisk.grow firstBlock).tryReplace (fun _ => easyClock) rivalBlocks = .ok (c', fork) := by
  obtain ⟨hsound, hne⟩ := (coinbases_reachable (addrOf ownKey) 2).sound
  obtain ⟨hgrown, -⟩ := (Sound.init init_onDisk).1.connectBlock connect_onDisk
  have hwork : (onDisk.grow firstBlock).work < (replay easyParams rivalBlocks).work := by
    rw [rivalBlocks, ← hsound.work]
    exact (show (2 : UInt64) < 3 by decide)
  exact hgrown.tryReplace_ok hsound.valid hne (fun _ => coinbases_timely (addrOf ownKey) 2) hwork

theorem roomy_rival : Roomy onDisk rivalCalls := by
  obtain ⟨c', fork, hreplace⟩ := replace_onDisk
  obtain ⟨hgrown, -⟩ := (Sound.init init_onDisk).1.connectBlock connect_onDisk
  obtain ⟨-, hblocks, -⟩ := Sound.tryReplace hgrown.params hreplace
  have hperform : (onDisk.grow firstBlock).perform (.replace (fun _ => easyClock) rivalBlocks) = c' := by
    rw [perform, hreplace]
  refine .cons (show (1 : Nat) < 2 ^ 63 by decide) ?_
  rw [perform_onDisk]
  refine .cons (show (2 : Nat) < 2 ^ 63 by decide) (.nil ?_)
  rw [hperform, hblocks, rivalBlocks, length_coinbases]
  decide

end Chain

end

section
local instance crashCrypto : Crypto := Sha.crypto fun _ _ _ => false

/-- A stop after the row of the first block: the next `init` loads the block, and its coinbase has no row. -/
theorem txs_after_torn_insert : ∃ c db, (Chain.fresh Chain.easyParams).init (fun _ => Chain.easyClock)
    (some (Chain.stoppedAfter Chain.easyParams Chain.onDisk [.connect Chain.easyClock Chain.firstBlock] 2)) = .ok c ∧
      c.db = some db ∧ db.txs ≠ txRows c.blocks := by
  obtain ⟨c, db, hinit, hdb, hblocks, htxs⟩ := Chain.txs_of_torn
  refine ⟨c, db, hinit, hdb, ?_⟩
  rw [htxs, hblocks]
  exact List.cons_ne_nil _ _ |>.symm

/-- A stop inside a reorganisation, after the rows of the first block are deleted. -/
theorem txs_after_crash_reorganisation :
    (∃ c' fork, (Chain.onDisk.grow Chain.firstBlock).tryReplace (fun _ => Chain.easyClock) Chain.rivalBlocks = .ok (c', fork)) ∧
    ((∃ c db, (Chain.fresh Chain.easyParams).init (fun _ => Chain.easyClock)
        (some (Chain.stoppedAfter Chain.easyParams Chain.onDisk Chain.rivalCalls 6)) = .ok c ∧
          c.db = some db ∧ db.txs = txRows c.blocks) ∨
      Collision (Chain.headersBy Chain.easyParams (Chain.held Chain.onDisk Chain.rivalCalls))) := by
  refine ⟨Chain.replace_onDisk, Chain.txs_after_crash Chain.init_onDisk _ Chain.roomy_rival 6 ?_ _⟩
  rintro i hi ⟨before, now, b, after, c', hcalls, -, -, hinside⟩
  have hstart : (Chain.initSql Chain.easyParams 0 0).length = 1 := rfl
  cases before with
  | nil =>
      -- the block connected is the first one, all of whose rows are written by then
      obtain ⟨-, rfl⟩ := Chain.Call.connect.inj (List.cons.inj hcalls).1
      have hone : Chain.firstBlock.txs.length = 1 := rfl
      have hnil : (Chain.log Chain.onDisk []).length = 0 := rfl
      omega
  | cons call before =>
      -- no other call connects a block
      have hlater : Chain.Call.connect now b ∈ [Chain.Call.replace (fun _ => Chain.easyClock) Chain.rivalBlocks] := by
        rw [(List.cons.inj hcalls).2]
        exact List.mem_append_right _ List.mem_cons_self
      cases List.mem_singleton.mp hlater

end

end Chainlite
