import Chainlite.NodeRun
import Chainlite.StorageCrash

/-! The lives of a process on one database file. A life loads the chain, makes calls to it and is killed at some
statement, in the middle of a call or not; the next one finds what was on disk. The `txs` of a block may be lost in
this, but a start reads `blocks` only, and there every call shows whole or not at all. So each life goes on with the
chain as a call of the life before left it, and loses no more than the call that was in progress. -/

open Std

namespace Chainlite

section
variable [Crypto] {p : Params}

/-! ### The table `blocks` alone -/

/-- The table `blocks` holds the blocks, whatever is in `txs`. -/
def Keeps (db : Db) (bs : List Block) : Prop := db.blocks.toList = keyed (bs.map blockRow)

omit [Crypto] in
/-- No statement reads the other table. -/
theorem Db.blocks_run_congr {db db' : Db} (h : db.blocks = db'.blocks) (stmts : List Sql) :
    (db.run stmts).blocks = (db'.run stmts).blocks := by
  induction stmts generalizing db db' with
  | nil => exact h
  | cons stmt rest ih =>
      apply ih
      cases stmt with
      | beginImmediate => exact h
      | commit => exact h
      | insertBlock height row => exact congrArg (fun m => ExtTreeMap.insert m height row) h
      | insertTx row => exact h
      | deleteBlocksFrom height => exact congrArg (ExtTreeMap.filter fun key _ => !decide (height ≤ key)) h
      | deleteTxsFrom height => exact h

omit [Crypto] in
theorem Db.blocks_run_insertTxs (db : Db) {stmts : List Sql} (h : ∀ stmt ∈ stmts, ∃ row, stmt = .insertTx row) :
    (db.run stmts).blocks = db.blocks := by
  induction stmts generalizing db with
  | nil => rfl
  | cons stmt rest ih =>
      obtain ⟨row, rfl⟩ := h stmt List.mem_cons_self
      calc (db.run (.insertTx row :: rest)).blocks
          = (db.exec (.insertTx row)).blocks := ih _ fun s hs => h s (List.mem_cons_of_mem _ hs)
        _ = db.blocks := rfl

variable {db : Db} {bs bs' : List Block}

theorem keeps_empty : Keeps {} [] := rfl

theorem Keeps.mirrors (h : Keeps db bs) : Mirrors { db with txs := txRows bs } bs := ⟨h, rfl⟩

theorem Keeps.raws (h : Keeps db bs) : db.rawsByHeight = bs.map Block.serialize := h.mirrors.raws

/-- What statements do to both tables they do to `blocks`. -/
theorem Keeps.run {stmts : List Sql} (h : Mirrors (Db.run { db with txs := txRows bs } stmts) bs') :
    Keeps (db.run stmts) bs' := by
  have hsame : (db.run stmts).blocks = (Db.run { db with txs := txRows bs } stmts).blocks := by
    apply Db.blocks_run_congr
    rfl
  rw [Keeps, hsame]
  exact h.blocks

namespace Chain

/-! ### One call -/

theorem Sound.performAll {c : Chain} (h : Sound p c) (hne : c.blocks ≠ []) (calls : List Call) :
    Sound p (c.performAll calls) ∧ (c.performAll calls).blocks ≠ [] := by
  induction calls generalizing c with
  | nil => exact ⟨h, hne⟩
  | cons call rest ih =>
      obtain ⟨hsound, hne'⟩ := h.perform hne call
      exact ih hsound hne'

/-- A persisted chain whose blocks the file holds. -/
structure OnFile (p : Params) (db : Db) (c : Chain) : Prop where
  keeps : Keeps db c.blocks
  sound : Sound p c
  nonempty : c.blocks ≠ []
  persisting : c.persisting = true

section

variable {c : Chain} (h : OnFile p db c) {strings : List Bytes} (hfree : CollisionFree strings)
  (hlen : c.blocks.length < 2 ^ 63)
include h hfree hlen

theorem OnFile.connect {now : Clock} {b : Block} {c' : Chain} (hc : c.connectBlock now b = .ok c')
    (hsub : headersBy p c'.blocks ⊆ strings) : Keeps (db.run (dbInsert b)) c'.blocks := by
  obtain ⟨hsound', hblocks⟩ := h.sound.connectBlock hc
  have hlast : c'.blocks[c.blocks.length]? = some b := by
    rw [hblocks]
    simp
  have hpos : b.h.height = UInt64.ofNat c.blocks.length := hsound'.valid.height_getElem hfree hsub hlast
  rw [hblocks]
  exact Keeps.run (h.keeps.mirrors.insert hpos hlen)

theorem OnFile.replace {now : Nat → Clock} {cand : List Block} {c' : Chain} {fork : Nat}
    (hr : c.tryReplace now cand = .ok (c', fork)) (hsub : headersBy p c'.blocks ⊆ strings)
    (hlen' : c'.blocks.length < 2 ^ 63) :
    Keeps (db.run ([.beginImmediate] ++ dbTruncateFrom (UInt64.ofNat fork) ++ (c'.blocks.drop fork).flatMap dbInsert ++
      [.commit])) (c.blocks.take fork ++ c'.blocks.drop fork) := by
  obtain ⟨hsound', -⟩ := Sound.tryReplace h.sound.params hr
  obtain ⟨hfork, -⟩ := tryReplace_db h.persisting hr
  obtain ⟨hold, hnew, -⟩ := forkPoint_spec c.hashes c'.hashes
  rw [← hfork, h.sound.hashes, List.length_map] at hold
  rw [← hfork, hsound'.hashes, List.length_map] at hnew
  apply Keeps.run
  apply h.keeps.mirrors.reorganise (by omega) hold
  · intro i b hb
    rw [List.getElem?_drop] at hb
    exact hsound'.valid.height_getElem hfree hsub hb
  · rw [List.length_drop]
    omega

variable (call : Call) (hsub : hashedBy p c.blocks ⊆ strings) (hsub' : hashedBy p (c.perform call).blocks ⊆ strings)
  (hlen' : (c.perform call).blocks.length < 2 ^ 63)
include hsub hsub' hlen'

/-- **A call that is over** is on file. -/
theorem OnFile.perform : OnFile p (db.run (c.sqlOf call)) (c.perform call) := by
  obtain ⟨hsound', hne'⟩ := h.sound.perform h.nonempty call
  refine ⟨?_, hsound', hne', (perform_db h.persisting call).2⟩
  have hheaders := List.Subset.trans (headersBy_subset_hashedBy _) hsub'
  have hstored := storedAfter_eq h.sound h.nonempty h.persisting hfree call hsub hsub' (by omega) (by omega)
  cases call with
  | connect now b =>
      rw [Chain.perform] at hheaders ⊢
      rw [sqlOf]
      cases hc : c.connectBlock now b with
      | error err => exact h.keeps
      | ok c' =>
          simp only [hc] at hheaders
          exact h.connect hfree hlen hc hheaders
  | replace now cand =>
      rw [← hstored]
      rw [Chain.perform] at hheaders hlen'
      rw [sqlOf, storedAfter]
      cases hr : c.tryReplace now cand with
      | error err => exact h.keeps
      | ok result =>
          simp only [hr] at hheaders hlen'
          exact h.replace hfree hlen hr hheaders hlen'

/-- **Stopping inside a call.** A block that is being connected may be on file already; a reorganisation is not. -/
theorem OnFile.part {j : Nat} (hj : j < (c.sqlOf call).length) :
    OnFile p (Disk.run ⟨db, none⟩ ((c.sqlOf call).take j)).durable c ∨
      ∃ now b, call = .connect now b ∧
        OnFile p (Disk.run ⟨db, none⟩ ((c.sqlOf call).take j)).durable (c.perform call) := by
  have hwhole := h.perform hfree hlen call hsub hsub' hlen'
  cases call with
  | connect now b =>
      rw [sqlOf] at hj hwhole ⊢
      cases hc : c.connectBlock now b with
      | error err => simp [hc] at hj
      | ok c' =>
          simp only [hc] at hwhole ⊢
          cases j with
          | zero => exact Or.inl h
          | succ j =>
              refine Or.inr ⟨now, b, rfl, ?_, hwhole.sound, hwhole.nonempty, hwhole.persisting⟩
              rw [Disk.run_auto db fun stmt hs => plain_dbInsert b stmt (List.mem_of_mem_take hs)]
              -- the row of the block is the first statement; the rest of `db_insert` is about `txs`
              have hrest : ∀ stmt ∈ b.txs.zipIdx.map fun entry => Sql.insertTx (txRow b.h.height.toInt64 entry.2 entry.1),
                  ∃ row, stmt = .insertTx row := by
                intro stmt hs
                obtain ⟨entry, -, rfl⟩ := List.mem_map.mp hs
                exact ⟨_, rfl⟩
              have hsame : (db.run ((dbInsert b).take (j + 1))).blocks = (db.run (dbInsert b)).blocks := by
                rw [dbInsert, List.take_succ_cons, Db.run_cons, Db.run_cons, Db.blocks_run_insertTxs _ hrest]
                exact Db.blocks_run_insertTxs _ fun stmt hs => hrest stmt (List.mem_of_mem_take hs)
              rw [Keeps, hsame]
              exact hwhole.keeps
  | replace now cand =>
      left
      have hwhole : ¬Torn c [.replace now cand] j := by
        rintro ⟨before, now', b, after, c', heq, -⟩
        cases before with
        | nil => cases heq
        | cons call before => cases before <;> cases heq
      rw [durable_run_sqlOf_take hwhole hj]
      exact h

end

/-! ### The calls of a life -/

/-- `n` of the calls are over after `j` statements, `k` of which come before the calls. -/
def Over (c : Chain) (calls : List Call) (k j n : Nat) : Prop :=
  n ≤ calls.length ∧ ∀ m ≤ calls.length, m ≤ n ↔ m = 0 ∨ k + (log c (calls.take m)).length ≤ j

/-- The chain after `n` of the calls has the property, or the next call connects a block and the chain after it has. -/
def LeftAt (c : Chain) (calls : List Call) (n : Nat) (P : Chain → Prop) : Prop :=
  P (c.performAll (calls.take n)) ∨
    ∃ now b, calls[n]? = some (.connect now b) ∧ P (c.performAll (calls.take (n + 1)))

variable {c : Chain} {call : Call} {rest calls : List Call}

theorem Over.here {k j : Nat} (hj : j < k + (c.sqlOf call).length) : Over c (call :: rest) k j 0 := by
  refine ⟨Nat.zero_le _, fun m _ => ?_⟩
  cases m with
  | zero => simp
  | succ m =>
      rw [List.take_succ_cons, log, List.length_append]
      omega

theorem Over.there {j n : Nat} (h : Over (c.perform call) rest 0 j n) :
    Over c (call :: rest) 0 ((c.sqlOf call).length + j) (n + 1) := by
  obtain ⟨hn, hover⟩ := h
  refine ⟨Nat.succ_le_succ hn, fun m hm => ?_⟩
  cases m with
  | zero => simp
  | succ m =>
      have hrest := hover m (Nat.le_of_succ_le_succ hm)
      rw [List.take_succ_cons, log, List.length_append]
      rcases Nat.eq_zero_or_pos m with rfl | hpos
      · rw [List.take_zero, log, List.length_nil]
        omega
      · omega

theorem Over.after {j n : Nat} (h : Over c calls 0 j n) (k : Nat) : Over c calls k (k + j) n := by
  refine ⟨h.1, fun m hm => ?_⟩
  have hiff := h.2 m hm
  omega

theorem LeftAt.there {n : Nat} {P : Chain → Prop} (h : LeftAt (c.perform call) rest n P) :
    LeftAt c (call :: rest) (n + 1) P := by
  rcases h with hleft | ⟨now, b, hget, hleft⟩
  · exact Or.inl hleft
  · exact Or.inr ⟨now, b, hget, hleft⟩

theorem LeftAt.imp {n : Nat} {P Q : Chain → Prop} (h : LeftAt c calls n P)
    (himp : ∀ i, P (c.performAll (calls.take i)) → Q (c.performAll (calls.take i))) : LeftAt c calls n Q := by
  rcases h with hleft | ⟨now, b, hget, hleft⟩
  · exact Or.inl (himp n hleft)
  · exact Or.inr ⟨now, b, hget, himp (n + 1) hleft⟩

theorem LeftAt.exists {n : Nat} {P : Chain → Prop} (h : LeftAt c calls n P) : ∃ c', P c' := by
  rcases h with hleft | ⟨now, b, -, hleft⟩
  · exact ⟨_, hleft⟩
  · exact ⟨_, hleft⟩

/-- **Stopping among the calls**: those that are over are on file, and no trace of another but the block that was being
connected. -/
theorem OnFile.stopped (h : OnFile p db c) {strings : List Bytes} (hfree : CollisionFree strings)
    (hsub : hashedBy p (held c calls) ⊆ strings) (hroom : Roomy c calls) (j : Nat) :
    ∃ n, Over c calls 0 j n ∧ LeftAt c calls n (OnFile p (Disk.run ⟨db, none⟩ ((log c calls).take j)).durable) := by
  induction calls generalizing c db j with
  | nil =>
      refine ⟨0, ⟨Nat.le_refl _, fun m hm => ?_⟩, Or.inl ?_⟩
      · rw [Nat.le_zero.mp hm]
        simp
      · rw [log, List.take_nil]
        exact h
  | cons call rest ih =>
      have hhere : hashedBy p c.blocks ⊆ strings := List.Subset.trans (hashedBy_subset (mem_held _ _)) hsub
      have hrest : hashedBy p (held (c.perform call) rest) ⊆ strings :=
        List.Subset.trans (hashedBy_subset (List.subset_append_right _ _)) hsub
      have hnext : hashedBy p (c.perform call).blocks ⊆ strings :=
        List.Subset.trans (hashedBy_subset (mem_held _ _)) hrest
      rw [log, List.take_append]
      by_cases hj : j < (c.sqlOf call).length
      · rw [Nat.sub_eq_zero_of_le hj.le, List.take_zero, List.append_nil]
        refine ⟨0, Over.here (by omega), ?_⟩
        rcases h.part hfree hroom.head call hhere hnext hroom.tail.head hj with hleft | ⟨now, b, rfl, hleft⟩
        · exact Or.inl hleft
        · exact Or.inr ⟨now, b, rfl, hleft⟩
      · obtain ⟨i, rfl⟩ := Nat.exists_eq_add_of_le (Nat.not_lt.mp hj)
        rw [List.take_of_length_le (Nat.le_add_right _ _), Nat.add_sub_cancel_left, Disk.run_append, run_sqlOf]
        obtain ⟨n, hover, hleft⟩ :=
          ih (h.perform hfree hroom.head call hhere hnext hroom.tail.head) hrest hroom.tail i
        exact ⟨n + 1, hover.there, hleft.there⟩

/-! ### The start of a life -/

/-- The statements that `init` executes on a database. -/
def initLog (p : Params) (now : Nat → Clock) (db : Db) : List Sql :=
  initSql p (loadRows now 0 { fresh p with db := some db, persisting := false } db.rawsByHeight).2 db.rawsByHeight.length

theorem LongestGood.unique {now : Nat → Clock} {raws good good' : List Bytes} {bs bs' : List Block}
    (h : LongestGood p now raws good bs) (h' : LongestGood p now raws good' bs') : bs = bs' := by
  have hle := h'.longest good bs h.first h.parses h.connects
  have hge := h.longest good' bs' h'.first h'.parses h'.connects
  obtain rfl : good = good' := hle.eq_of_length_le hge.length_le
  exact h.parses.unique h'.parses

theorem loadRows_good (p : Params) (now : Nat → Clock) (db : Db) : ∃ good bs,
    (loadRows now 0 { fresh p with db := some db, persisting := false } db.rawsByHeight).2 = bs.length ∧
      LongestGood p now db.rawsByHeight good bs := by
  have hstart : Sound p { fresh p with db := some db, persisting := false } := Sound.fresh.of_memory rfl
  obtain ⟨c', good, bs, hload, -, -, hgood⟩ := loadRows_spec now 0 hstart Sound.fresh rfl rfl db.rawsByHeight
  refine ⟨good, bs, ?_, hgood.first, hgood.parses, hgood.connects, hgood.longest⟩
  rw [hload, Nat.zero_add]

/-- What `init` does to the database it is given. -/
theorem init_db {now : Nat → Clock} (h : (fresh p).init now (some db) = .ok c) :
    c.db = some (db.run (initLog p now db)) := by
  obtain ⟨c', good, bs, hinit, hgood, -, -, hdb⟩ := init_spec p now db
  obtain rfl : c = c' := Except.ok.inj (h.symm.trans hinit)
  obtain ⟨good', bs', hlength, hgood'⟩ := loadRows_good p now db
  rw [hdb, initLog, hlength, hgood'.unique hgood]

/-- What is on disk after `init` is what it wrote. -/
theorem run_initLog (p : Params) (now : Nat → Clock) (db : Db) :
    Disk.run ⟨db, none⟩ (initLog p now db) = ⟨db.run (initLog p now db), none⟩ := by
  rw [initLog, initSql, Disk.run_append, Db.run_append]
  split_ifs
  · rw [← transaction, Disk.run_transaction db (plain_dbTruncateFrom _)]
    exact Disk.run_auto _ (plain_dbInsert _)
  · exact Disk.run_transaction db (plain_dbTruncateFrom _)
  · exact Disk.run_auto db (plain_dbInsert _)
  · rfl

/-- What a life finds: the blocks of a chain that are on time, or none. -/
structure Found (p : Params) (db : Db) (t : Clock) (bs : List Block) : Prop where
  keeps : Keeps db bs
  valid : ValidBlocks p bs
  timely : AllTimely t bs
  length : bs.length < 2 ^ 63

theorem found_empty (t : Clock) : Found p {} t [] := ⟨keeps_empty, ValidBlocks.nil, allTimely_nil t, by decide⟩

theorem OnFile.found {t : Clock} (h : OnFile p db c) (htime : AllTimely t c.blocks) (hlen : c.blocks.length < 2 ^ 63) :
    Found p db t c.blocks := ⟨h.keeps, h.sound.valid, htime, hlen⟩

theorem longestGood_all {now : Nat → Clock} (h : ValidBlocks p bs) (htime : ∀ k, AllTimely (now k) bs) :
    LongestGood p now (bs.map Block.serialize) (bs.map Block.serialize) bs := by
  obtain ⟨c', hall, -⟩ := Sound.fresh.connectAll_rest (show ValidBlocks p ((fresh p).blocks ++ bs) from h) htime 0
  exact ⟨List.prefix_refl _, parses_serialize h.fits, ⟨c', hall⟩, fun other _ hother _ _ => hother⟩

/-- On an empty file `init` starts the chain; what it finds it loads, and writes nothing. -/
theorem Found.init {t : Clock} (h : Found p db t bs) {now : Nat → Clock} (hnow : ∀ k, t ≤ now k) :
    ∃ c, (fresh p).init now (some db) = .ok c ∧ OnFile p (db.run (initLog p now db)) c ∧
      ((bs = [] ∧ c.blocks = [makeGenesis p] ∧ initLog p now db = dbInsert (makeGenesis p)) ∨
        (c.blocks = bs ∧ initLog p now db = [])) := by
  obtain ⟨c, good, loaded, hinit, hgood, hblocks, hpersisting, -⟩ := init_spec p now db
  obtain ⟨good', loaded', hlength, hgood'⟩ := loadRows_good p now db
  obtain ⟨hsound, hne⟩ := Sound.init hinit
  have hall := longestGood_all h.valid fun k => h.timely.mono (hnow k)
  rw [h.keeps.raws] at hgood hgood'
  obtain rfl := hall.unique hgood
  obtain rfl := hall.unique hgood'
  have hlog : initLog p now db = initSql p bs.length bs.length := by
    rw [initLog, hlength, h.keeps.raws, List.length_map]
  by_cases hnil : bs = []
  · subst hnil
    rw [if_pos rfl] at hblocks
    refine ⟨c, hinit, ⟨?_, hsound, hne, hpersisting⟩, Or.inl ⟨rfl, hblocks, hlog⟩⟩
    rw [hlog, hblocks]
    exact Keeps.run (h.keeps.mirrors.insert rfl (by decide))
  · rw [if_neg hnil] at hblocks
    rw [initSql, if_neg (Nat.lt_irrefl _), if_neg (fun hzero => hnil (List.eq_nil_of_length_eq_zero hzero)),
      List.append_nil] at hlog
    refine ⟨c, hinit, ⟨?_, hsound, hne, hpersisting⟩, Or.inr ⟨hblocks, hlog⟩⟩
    rw [hlog, Db.run_nil, hblocks]
    exact h.keeps

/-- What a life whose chain is `c` leaves to the next one: its blocks, or an empty file when it has only made the
genesis. -/
structure Leaves (p : Params) (db : Db) (t : Clock) (c : Chain) : Prop where
  sound : Sound p c
  found : ∃ bs, Found p db t bs ∧ (bs = [] ∧ c.blocks = [makeGenesis p] ∨ bs = c.blocks ∧ bs ≠ [])

/-- The next life has the same chain. -/
theorem Leaves.init {t : Clock} (h : Leaves p db t c) {now : Nat → Clock} (hnow : ∀ k, t ≤ now k) :
    ∃ c₁, (fresh p).init now (some db) = .ok c₁ ∧ SameLedger c c₁ := by
  obtain ⟨bs, hfound, hblocks⟩ := h.found
  obtain ⟨c₁, hinit, hfile, hstart⟩ := hfound.init hnow
  have hsame : c.blocks = c₁.blocks := by
    rcases hblocks with ⟨rfl, hgenesis⟩ | ⟨rfl, hne⟩
    · rcases hstart with ⟨-, hfirst, -⟩ | ⟨hnil, -⟩
      · exact hgenesis.trans hfirst.symm
      · exact absurd hnil hfile.nonempty
    · rcases hstart with ⟨hnil, -, -⟩ | ⟨hloaded, -⟩
      · exact absurd hnil hne
      · exact hloaded.symm
  exact ⟨c₁, hinit, h.sound.sameLedger hfile.sound hsame⟩

/-! ### Lives -/

/-- What is on disk when the process is killed after `j` statements of `init` and the calls after it. -/
def killedAfter (p : Params) (now : Nat → Clock) (db : Db) (c₀ : Chain) (calls : List Call) (j : Nat) : Db :=
  (Disk.run ⟨db, none⟩ ((initLog p now db ++ log c₀ calls).take j)).durable

/-- What lives one after another leave on disk by the time `t`, on a clock that was never set back, and the blocks they
have held. -/
inductive Lives (p : Params) : Db → Clock → List Block → Prop
  | blank (t : Clock) : Lives p {} t []
  | killed {db : Db} {t t' : Clock} {held' : List Block} {now : Nat → Clock} {c₀ : Chain} {calls : List Call}
      (h : Lives p db t held') (hinit : (fresh p).init now (some db) = .ok c₀) (hnow : ∀ k, t ≤ now k ∧ now k ≤ t')
      (hcalls : ∀ call ∈ calls, call.Upto t') (hroom : Roomy c₀ calls) (j : Nat) :
      Lives p (killedAfter p now db c₀ calls j) t' (held' ++ held c₀ calls)

theorem Roomy.performAll {c : Chain} {calls : List Call} (h : Roomy c calls) (i : Nat) :
    (c.performAll (calls.take i)).blocks.length < 2 ^ 63 := h _ (List.take_prefix i calls)

/-- **One life.** What is on disk when it is killed is what was there before it had started the chain, or its chain after
the calls that are over. -/
theorem Found.killed {t t' : Clock} (h : Found p db t bs) {now : Nat → Clock} {c₀ : Chain}
    (hinit : (fresh p).init now (some db) = .ok c₀) (hnow : ∀ k, t ≤ now k ∧ now k ≤ t') {calls : List Call}
    (hcalls : ∀ call ∈ calls, call.Upto t') (hroom : Roomy c₀ calls) {strings : List Bytes} (hfree : CollisionFree strings)
    (hsub : hashedBy p (held c₀ calls) ⊆ strings) (j : Nat) :
    ∃ n, Over c₀ calls (initLog p now db).length j n ∧
      LeftAt c₀ calls n (Leaves p (killedAfter p now db c₀ calls j) t') := by
  obtain ⟨c, hc, hfile, hstart⟩ := h.init fun k => (hnow k).1
  obtain rfl : c₀ = c := Except.ok.inj (hinit.symm.trans hc)
  have htime : ∀ i, AllTimely t' (c₀.performAll (calls.take i)).blocks := fun i =>
    AllTimely.performAll (allTimely_init (fun k => (hnow k).2) hinit) fun call hmem => hcalls call (List.mem_of_mem_take hmem)
  by_cases hj : j < (initLog p now db).length
  · rcases hstart with ⟨rfl, hblocks, hlog⟩ | ⟨-, hlog⟩
    · have hzero : j = 0 := by
        rw [hlog, length_dbInsert] at hj
        exact Nat.lt_one_iff.mp hj
      refine ⟨0, ⟨Nat.zero_le _, fun m _ => ?_⟩, Or.inl ⟨hfile.sound, [], ?_, Or.inl ⟨rfl, hblocks⟩⟩⟩
      · omega
      · rw [killedAfter, hzero, List.take_zero]
        exact ⟨h.keeps, h.valid, allTimely_nil t', h.length⟩
    · rw [hlog] at hj
      exact absurd hj (Nat.not_lt_zero j)
  · obtain ⟨i, rfl⟩ := Nat.exists_eq_add_of_le (Nat.not_lt.mp hj)
    obtain ⟨n, hover, hleft⟩ := hfile.stopped hfree hsub hroom i
    have hdisk : killedAfter p now db c₀ calls ((initLog p now db).length + i) =
        (Disk.run ⟨db.run (initLog p now db), none⟩ ((log c₀ calls).take i)).durable := by
      rw [killedAfter, List.take_append, List.take_of_length_le (Nat.le_add_right _ _), Nat.add_sub_cancel_left,
        Disk.run_append, run_initLog]
    refine ⟨n, hover.after _, hleft.imp fun i hon => ⟨hon.sound, _, ?_, Or.inr ⟨rfl, hon.nonempty⟩⟩⟩
    rw [hdisk]
    exact hon.found (htime i) (hroom.performAll i)

/-- After any lives without a collision the file holds a chain that is on time, or nothing. -/
theorem Lives.found {t : Clock} {before : List Block} (h : Lives p db t before) {strings : List Bytes}
    (hfree : CollisionFree strings) (hsub : hashedBy p before ⊆ strings) : ∃ bs, Found p db t bs := by
  induction h with
  | blank t => exact ⟨[], found_empty t⟩
  | killed h hinit hnow hcalls hroom j ih =>
      obtain ⟨bs, hfound⟩ := ih (List.Subset.trans (hashedBy_subset (List.subset_append_left _ _)) hsub)
      obtain ⟨n, -, hleft⟩ := hfound.killed hinit hnow hcalls hroom hfree
        (List.Subset.trans (hashedBy_subset (List.subset_append_right _ _)) hsub) j
      obtain ⟨c, hleaves⟩ := hleft.exists
      obtain ⟨bs', hleaves, -⟩ := hleaves.found
      exact ⟨bs', hleaves⟩

/-- **A restart resumes.** After any number of lives on one file, each killed at any statement, the next start has the
chain as the life before it had it when the last of its calls was over, or as the call in progress would have left it
when that was connecting a block; a reorganisation happens whole or not at all. Or two distinct strings hashed on
the way have one hash. -/
theorem restart_resumes {t t' : Clock} {before : List Block} (hlives : Lives p db t before) {now : Nat → Clock} {c₀ : Chain}
    (hinit : (fresh p).init now (some db) = .ok c₀) (hnow : ∀ k, t ≤ now k ∧ now k ≤ t') {calls : List Call}
    (hcalls : ∀ call ∈ calls, call.Upto t') (hroom : Roomy c₀ calls) (j : Nat) {now' : Nat → Clock}
    (hlater : ∀ k, t' ≤ now' k) :
    (∃ n c₁, Over c₀ calls (initLog p now db).length j n ∧
      (fresh p).init now' (some (killedAfter p now db c₀ calls j)) = .ok c₁ ∧
      LeftAt c₀ calls n fun c => SameLedger c c₁) ∨ Collision (hashedBy p (before ++ held c₀ calls)) := by
  rcases collisionFree_or_collision (hashedBy p (before ++ held c₀ calls)) with hfree | hcol
  · left
    obtain ⟨bs, hfound⟩ := hlives.found hfree (hashedBy_subset (List.subset_append_left _ _))
    obtain ⟨n, hover, hleft⟩ := hfound.killed hinit hnow hcalls hroom hfree (hashedBy_subset (List.subset_append_right _ _)) j
    obtain ⟨c, hleaves⟩ := hleft.exists
    obtain ⟨c₁, hinit₁, -⟩ := hleaves.init hlater
    refine ⟨n, c₁, hover, hinit₁, hleft.imp fun i hleaves => ?_⟩
    obtain ⟨c₂, hinit₂, hsame⟩ := hleaves.init hlater
    obtain rfl : c₁ = c₂ := Except.ok.inj (hinit₁.symm.trans hinit₂)
    exact hsame
  · exact Or.inr hcol

/-! ### A node is such a life -/

/-- The calls of a life and the statements that go with them. -/
theorem performAll_db {c : Chain} (h : c.persisting = true) (calls : List Call) :
    (c.performAll calls).db = c.db.map (·.run (log c calls)) := by
  induction calls generalizing c with
  | nil => simp [performAll, log]
  | cons call rest ih =>
      obtain ⟨hdb, hpersisting⟩ := perform_db h call
      calc (c.performAll (call :: rest)).db
          = ((c.perform call).db).map (·.run (log (c.perform call) rest)) := ih hpersisting
        _ = c.db.map (·.run (log c (call :: rest))) := by
          rw [hdb, Option.map_map, log]
          exact congrArg (fun f => c.db.map f) (funext fun db => (Db.run_append db _ _).symm)

theorem run_log (c : Chain) (calls : List Call) (db : Db) :
    Disk.run ⟨db, none⟩ (log c calls) = ⟨db.run (log c calls), none⟩ := by
  induction calls generalizing c db with
  | nil => rfl
  | cons call rest ih => rw [log, Disk.run_append, run_sqlOf, ih, Db.run_append]

/-- **A life that nothing stops** leaves on disk what its chain has in its database. -/
theorem whole_life {now : Nat → Clock} {c₀ : Chain} (hinit : (fresh p).init now (some db) = .ok c₀) (calls : List Call) :
    (c₀.performAll calls).db =
      some (killedAfter p now db c₀ calls (initLog p now db ++ log c₀ calls).length) := by
  obtain ⟨c, good, bs, hc, -, -, hpersisting, -⟩ := init_spec p now db
  obtain rfl : c₀ = c := Except.ok.inj (hinit.symm.trans hc)
  rw [performAll_db hpersisting, init_db hinit, Option.map_some, killedAfter, List.take_length, Disk.run_append,
    run_initLog, run_log]

/-- The blocks of a list that connect are connected one by one. -/
theorem connectAll_calls {now : Nat → Clock} {k n : Nat} {c c' : Chain} {v : List Block}
    {err : Option (Block × ConnectError)} (h : connectAll now k c v = (c', n, err)) {t : Clock} (hnow : ∀ i, now i ≤ t) :
    ∃ calls : List Call, c' = c.performAll calls ∧ ∀ call ∈ calls, call.Upto t := by
  induction v generalizing k c with
  | nil =>
      cases h
      exact ⟨[], rfl, by simp⟩
  | cons b rest ih =>
      rw [connectAll] at h
      cases hb : c.connectBlock (now k) b with
      | error err =>
          rw [hb] at h
          cases h
          exact ⟨[], rfl, by simp⟩
      | ok d =>
          rw [hb] at h
          obtain ⟨calls, rfl, hcalls⟩ := ih h
          have hd : c.perform (.connect (now k) b) = d := by rw [perform, hb]
          refine ⟨.connect (now k) b :: calls, by rw [← hd]; rfl, fun call hmem => ?_⟩
          rcases List.mem_cons.mp hmem with rfl | hmem
          · exact hnow k
          · exact hcalls call hmem

end Chain

omit [Crypto] in
theorem Chain.Call.Upto.mono {call : Chain.Call} {t t' : Clock} (h : call.Upto t) (hle : t ≤ t') : call.Upto t' := by
  cases call with
  | connect now b => exact Clock.le_trans h hle
  | replace now cand => exact fun k => Clock.le_trans (h k) hle

theorem ChainChange.calls {now : Nat → Clock} {c c' : Chain} (h : ChainChange now c c') {t : Clock} (hnow : ∀ i, now i ≤ t) :
    ∃ calls : List Chain.Call, c' = c.performAll calls ∧ ∀ call ∈ calls, call.Upto t := by
  cases h with
  | extend h hn => exact Chain.connectAll_calls h hnow
  | @replace cand _ fork h =>
      have hc : c.perform (.replace now cand) = c' := by rw [Chain.perform, h]
      refine ⟨[.replace now cand], hc.symm, fun call hmem => ?_⟩
      rw [List.mem_singleton.mp hmem]
      exact hnow

/-- **A run of a node is a life**: it loads the chain, and what its events do to it are calls. -/
theorem NodeRun.life {a : App} {t : Clock} (h : NodeRun p a t) : ∃ now database c₀ calls,
    (∀ k, now k ≤ t) ∧ (Chain.fresh p).init now database = .ok c₀ ∧ a.chain = c₀.performAll calls ∧
      ∀ call ∈ calls, call.Upto t := by
  induction h with
  | start minerAddr mineOn heartbeat hupto h => exact ⟨_, _, _, [], hupto, h, rfl, by simp⟩
  | @step a t t' r h hr ev ih =>
      obtain ⟨now, database, c₀, calls, hupto, hinit, hchain, hcalls⟩ := ih
      have hmore : ∃ more : List Chain.Call, (a.step r ev).chain = a.chain.performAll more ∧ ∀ call ∈ more, call.Upto t' := by
        rcases (App.step_core r a ev).chain with hsame | hchange
        · exact ⟨[], hsame, by simp⟩
        · exact hchange.calls hr.upto
      obtain ⟨more, hnext, hlater⟩ := hmore
      refine ⟨now, database, c₀, calls ++ more, fun k => Clock.le_trans (hupto k) hr.le, hinit, ?_, fun call hmem => ?_⟩
      · rw [hnext, hchain]
        exact List.foldl_append.symm
      · rcases List.mem_append.mp hmem with hmem | hmem
        · exact Chain.Call.Upto.mono (hcalls call hmem) hr.le
        · exact hlater call hmem

end

/-! ### A torn first block -/

section
variable [Crypto]

namespace Chain

/-- What the first life leaves when it is killed between the row of the first block and the rows of its transactions. -/
def tornFile : Db := killedAfter easyParams (fun _ => easyClock) {} onDisk [.connect easyClock firstBlock] 2

theorem tornFile_lives : Lives easyParams tornFile easyClock ([] ++ held onDisk [.connect easyClock firstBlock]) := by
  refine .killed (.blank easyClock) init_onDisk (fun _ => ⟨Clock.le_refl _, Clock.le_refl _⟩) ?_ roomy_onDisk 2
  intro call hcall
  rw [List.mem_singleton.mp hcall]
  exact Clock.le_refl _

theorem init_tornFile : ∃ c, (fresh easyParams).init (fun _ => easyClock) (some tornFile) = .ok c ∧
    c.blocks = [makeGenesis easyParams, firstBlock] := by
  obtain ⟨c, db, hinit, -, hblocks, -⟩ := txs_of_torn
  exact ⟨c, hinit, hblocks⟩

/-- The block that follows the first one. -/
def secondBlock : Block := candidate easyParams (coinbases (zeros 20) 1) (zeros 20) [] easyParams.genesisTime 0

/-- A life on the torn file connects the second block. -/
theorem connect_tornFile : ∃ c₀, (fresh easyParams).init (fun _ => easyClock) (some tornFile) = .ok c₀ ∧
    c₀.blocks = [makeGenesis easyParams, firstBlock] ∧ c₀.connectBlock easyClock secondBlock = .ok (c₀.grow secondBlock) := by
  obtain ⟨c₀, hinit, hblocks⟩ := init_tornFile
  obtain ⟨hsound, hne⟩ := Sound.init hinit
  obtain ⟨hcoinbases, -⟩ := (coinbases_reachable (zeros 20) 2).sound
  have haccepts : (replay easyParams c₀.blocks).Accepts secondBlock :=
    hblocks ▸ hcoinbases.valid [makeGenesis easyParams, firstBlock] secondBlock [] rfl
  exact ⟨c₀, hinit, hblocks,
    connectBlock_ok_iff.mpr ⟨hsound.accepts_iff.mp haccepts, fun _ => candidate_timely.mpr (by decide), rfl⟩⟩

end Chain

end

section
local instance lifeCrypto : Crypto := Sha.crypto fun _ _ _ => false

/-- A second life on that file connects a block and is killed in the middle of it. -/
theorem restart_resumes_torn : ∃ c₀ c,
    (Chain.fresh Chain.easyParams).init (fun _ => Chain.easyClock) (some Chain.tornFile) = .ok c₀ ∧
    c₀.connectBlock Chain.easyClock Chain.secondBlock = .ok c ∧
      ((∃ n c₁, Chain.Over c₀ [.connect Chain.easyClock Chain.secondBlock]
          (Chain.initLog Chain.easyParams (fun _ => Chain.easyClock) Chain.tornFile).length
          ((Chain.initLog Chain.easyParams (fun _ => Chain.easyClock) Chain.tornFile).length + 1) n ∧
        (Chain.fresh Chain.easyParams).init (fun _ => Chain.easyClock)
          (some (Chain.killedAfter Chain.easyParams (fun _ => Chain.easyClock) Chain.tornFile c₀
            [.connect Chain.easyClock Chain.secondBlock]
            ((Chain.initLog Chain.easyParams (fun _ => Chain.easyClock) Chain.tornFile).length + 1))) = .ok c₁ ∧
        Chain.LeftAt c₀ [.connect Chain.easyClock Chain.secondBlock] n fun c => Chain.SameLedger c c₁) ∨
      Collision (Chain.hashedBy Chain.easyParams
        (([] ++ Chain.held Chain.onDisk [.connect Chain.easyClock Chain.firstBlock]) ++
          Chain.held c₀ [.connect Chain.easyClock Chain.secondBlock]))) := by
  obtain ⟨c₀, hinit, hblocks, hconnect⟩ := Chain.connect_tornFile
  have hperform : c₀.perform (.connect Chain.easyClock Chain.secondBlock) = c₀.grow Chain.secondBlock := by
    rw [Chain.perform, hconnect]
  refine ⟨c₀, _, hinit, hconnect, Chain.restart_resumes Chain.tornFile_lives hinit
    (fun _ => ⟨Clock.le_refl _, Clock.le_refl _⟩) ?_ ?_ _ fun _ => Clock.le_refl _⟩
  · intro call hcall
    rw [List.mem_singleton.mp hcall]
    exact Clock.le_refl _
  · refine .cons (by rw [hblocks]; decide) (.nil ?_)
    rw [hperform, Chain.grow_blocks, hblocks]
    exact (show (3 : Nat) < 2 ^ 63 by decide)

end

end Chainlite
