import Chainlite.BlockCodec
import Chainlite.SecurityCommitment
import Chainlite.StorageMirror

/-! Loading from a table of blobs. Whatever the blobs are, the loader keeps as many of them as parse and
connect one after another, drops the others, and starts the chain when nothing is left. Memory and file
then agree, because a blob that parses is the serialization of the block it parses to. -/

open Std

namespace Chainlite

section
variable [Crypto] {p : Params}

namespace Chain

/-- The blobs parse to the given blocks. -/
def Parses (raws : List Bytes) (bs : List Block) : Prop := raws.mapM Block.parse = some bs

/-- The blocks connect one after another, the first `k` of them being on the chain. -/
def Connects (now : Nat → Clock) (k : Nat) (c : Chain) (bs : List Block) : Prop :=
  ∃ c', connectAll now k c bs = (c', k + bs.length, none)

omit [Crypto] in
@[simp] theorem parses_nil_iff {bs : List Block} : Parses [] bs ↔ bs = [] := by
  simp [Parses, eq_comm]

omit [Crypto] in
theorem parses_cons_iff {raw : Bytes} {raws : List Bytes} {bs : List Block} :
    Parses (raw :: raws) bs ↔ ∃ b rest, Block.parse raw = some b ∧ Parses raws rest ∧ bs = b :: rest := by
  simp only [Parses, List.mapM_cons, Option.bind_eq_bind, Option.bind_eq_some_iff, Option.pure_def, Option.some.injEq]
  constructor
  · rintro ⟨b, hb, rest, hrest, rfl⟩
    exact ⟨b, rest, hb, hrest, rfl⟩
  · rintro ⟨b, rest, hb, hrest, rfl⟩
    exact ⟨b, hb, rest, hrest, rfl⟩

omit [Crypto] in
/-- A blob that parses is the serialization of its block. -/
theorem Parses.eq {raws : List Bytes} {bs : List Block} (h : Parses raws bs) : raws = bs.map Block.serialize := by
  induction raws generalizing bs with
  | nil => rw [parses_nil_iff.mp h]; rfl
  | cons raw raws ih =>
      obtain ⟨b, rest, hb, hrest, rfl⟩ := parses_cons_iff.mp h
      rw [List.map_cons, ← ih hrest, (Block.parse_eq_some_iff.mp hb).2]

omit [Crypto] in
theorem parses_serialize {bs : List Block} (h : ∀ b ∈ bs, b.Fits) : Parses (bs.map Block.serialize) bs := by
  induction bs with
  | nil => exact parses_nil_iff.mpr rfl
  | cons b rest ih =>
      refine parses_cons_iff.mpr ⟨b, rest, ?_, ih fun b' hb' => h b' (List.mem_cons_of_mem _ hb'), rfl⟩
      exact Block.parse_eq_some_iff.mpr ⟨h b List.mem_cons_self, rfl⟩

theorem connects_cons_iff {now : Nat → Clock} {k : Nat} {c : Chain} {b : Block} {bs : List Block} :
    Connects now k c (b :: bs) ↔ ∃ c', c.connectBlock (now k) b = .ok c' ∧ Connects now (k + 1) c' bs := by
  unfold Connects
  rw [connectAll, List.length_cons, Nat.add_comm bs.length, ← Nat.add_assoc]
  cases hb : c.connectBlock (now k) b with
  | error err => simp
  | ok c' => simp

/-- What connects to a chain is determined by its blocks. -/
theorem Sound.connectBlock_congr {c d c' : Chain} (hc : Sound p c) (hd : Sound p d) (hblocks : c.blocks = d.blocks)
    {now : Clock} {b : Block} (h : c.connectBlock now b = .ok c') : d.connectBlock now b = .ok (d.grow b) := by
  obtain ⟨haccepts, htime, -⟩ := connectBlock_ok_iff.mp h
  refine connectBlock_ok_iff.mpr ⟨hd.accepts_iff.mp ?_, hblocks ▸ htime, rfl⟩
  exact hblocks ▸ hc.accepts_iff.mpr haccepts

omit [Crypto] in
theorem persist_of_not_persisting {c : Chain} (h : c.persisting = false) (stmts : List Sql) : c.persist stmts = c := by
  rw [persist, h]
  rfl

omit [Crypto] in
theorem persist_of_persisting {c : Chain} (h : c.persisting = true) (stmts : List Sql) :
    (c.persist stmts).db = c.db.map (·.run stmts) ∧ (c.persist stmts).persisting = true := by
  rw [persist, if_pos h]
  exact ⟨rfl, h⟩

theorem grow_db {c : Chain} (h : c.persisting = true) (b : Block) :
    (c.grow b).db = c.db.map (·.run (dbInsert b)) ∧ (c.grow b).persisting = true := by
  rw [grow, append]
  refine persist_of_persisting ?_ (dbInsert b)
  exact h

theorem grow_not_persisting {c : Chain} (h : c.persisting = false) (b : Block) :
    (c.grow b).db = c.db ∧ (c.grow b).persisting = false := by
  rw [grow, append, persist_of_not_persisting (by exact h)]
  exact ⟨rfl, h⟩

/-- Of the blobs that follow the first `k`, `good` is the longest part, from the first on, that parses and connects;
`bs` are its blocks. -/
structure LongestFrom (now : Nat → Clock) (k : Nat) (c : Chain) (raws good : List Bytes) (bs : List Block) : Prop where
  first : good <+: raws
  parses : Parses good bs
  connects : Connects now k c bs
  longest : ∀ other bs', other <+: raws → Parses other bs' → Connects now k c bs' → other <+: good

theorem LongestFrom.nil (now : Nat → Clock) (k : Nat) (c : Chain) : LongestFrom now k c [] [] [] :=
  ⟨List.prefix_refl _, parses_nil_iff.mpr rfl, ⟨c, rfl⟩, fun _ _ hother _ _ => hother⟩

/-- Nothing is kept from a blob on that does not parse or connect. -/
theorem LongestFrom.stop {now : Nat → Clock} {k : Nat} {c : Chain} {raw : Bytes} (raws : List Bytes)
    (hbad : ∀ b c', Block.parse raw = some b → c.connectBlock (now k) b ≠ .ok c') :
    LongestFrom now k c (raw :: raws) [] [] := by
  refine ⟨List.nil_prefix, parses_nil_iff.mpr rfl, ⟨c, rfl⟩, fun other bs' hother hparses hconnects => ?_⟩
  cases other with
  | nil => exact List.prefix_refl _
  | cons raw' other =>
      obtain ⟨rfl, -⟩ := List.cons_prefix_cons.mp hother
      obtain ⟨b, rest, hb, -, rfl⟩ := parses_cons_iff.mp hparses
      obtain ⟨c', hc', -⟩ := connects_cons_iff.mp hconnects
      exact absurd hc' (hbad b c' hb)

theorem LongestFrom.cons {now : Nat → Clock} {k : Nat} {c c' : Chain} {raw : Bytes} {b : Block} {raws good : List Bytes}
    {bs : List Block} (hparse : Block.parse raw = some b) (hb : c.connectBlock (now k) b = .ok c')
    (h : LongestFrom now (k + 1) c' raws good bs) : LongestFrom now k c (raw :: raws) (raw :: good) (b :: bs) := by
  refine ⟨List.cons_prefix_cons.mpr ⟨rfl, h.first⟩, parses_cons_iff.mpr ⟨b, bs, hparse, h.parses, rfl⟩,
    connects_cons_iff.mpr ⟨c', hb, h.connects⟩, fun other bs' hother hparses hconnects => ?_⟩
  cases other with
  | nil => exact List.nil_prefix
  | cons raw' other =>
      obtain ⟨rfl, hbelow⟩ := List.cons_prefix_cons.mp hother
      obtain ⟨b', rest, hb', hrest, rfl⟩ := parses_cons_iff.mp hparses
      obtain rfl : b = b' := Option.some.inj (hparse.symm.trans hb')
      obtain ⟨d, hd, hrest_connects⟩ := connects_cons_iff.mp hconnects
      obtain rfl : c' = d := Except.ok.inj (hb.symm.trans hd)
      exact List.cons_prefix_cons.mpr ⟨rfl, h.longest other rest hbelow hrest hrest_connects⟩

/-- **The loop of `init`.** It keeps as many of the blobs as parse and connect, and touches no table. -/
theorem loadRows_spec (now : Nat → Clock) (k : Nat) {c d : Chain} (hc : Sound p c) (hd : Sound p d)
    (hblocks : c.blocks = d.blocks) (hquiet : c.persisting = false) (raws : List Bytes) :
    ∃ c' good bs, loadRows now k c raws = (c', k + bs.length) ∧ c'.blocks = c.blocks ++ bs ∧ c'.db = c.db ∧
      LongestFrom now k d raws good bs := by
  induction raws generalizing c d k with
  | nil => exact ⟨c, [], [], rfl, by simp, rfl, LongestFrom.nil now k d⟩
  | cons raw raws ih =>
      rw [loadRows]
      cases hparse : Block.parse raw with
      | none =>
          refine ⟨c, [], [], rfl, by simp, rfl, LongestFrom.stop raws ?_⟩
          intro b d' hb
          exact absurd (hparse.symm.trans hb) (by simp)
      | some b =>
          dsimp only
          cases hb : c.connectBlock (now k) b with
          | error err =>
              refine ⟨c, [], [], rfl, by simp, rfl, LongestFrom.stop raws ?_⟩
              intro b' d' hb' hok
              obtain rfl : b = b' := Option.some.inj (hparse.symm.trans hb')
              have hconnects := hd.connectBlock_congr hc hblocks.symm hok
              exact absurd (hb.symm.trans hconnects) (by simp)
          | ok c₁ =>
              have hd₁ := hc.connectBlock_congr hd hblocks hb
              obtain ⟨hsound, hgrown⟩ := hc.connectBlock hb
              obtain ⟨-, -, rfl⟩ := connectBlock_ok_iff.mp hb
              obtain ⟨hsound', hgrown'⟩ := hd.connectBlock hd₁
              obtain ⟨hdb, hquiet'⟩ := grow_not_persisting hquiet b
              obtain ⟨c', good, bs, hload, happend, hdb', hgood⟩ :=
                ih hsound hsound' (by rw [hgrown, hgrown', hblocks]) hquiet' (k := k + 1)
              refine ⟨c', raw :: good, b :: bs, ?_, ?_, hdb'.trans hdb, hgood.cons hparse hd₁⟩
              · dsimp only
                rw [hload, List.length_cons, Nat.add_comm bs.length, ← Nat.add_assoc]
              · rw [happend, hgrown, List.append_assoc]
                rfl

/-! ### After loading -/

/-- The statements of `init` when `good` of `total` blobs are kept. -/
def initSql (p : Params) (good total : Nat) : List Sql :=
  (if good < total then [.beginImmediate] ++ dbTruncateFrom (UInt64.ofNat good) ++ [.commit] else []) ++
    if good = 0 then dbInsert (makeGenesis p) else []

/-- `good` is the longest part of the blobs, from the first on, that parses and connects to an empty chain;
`bs` are its blocks. -/
structure LongestGood (p : Params) (now : Nat → Clock) (raws good : List Bytes) (bs : List Block) : Prop where
  first : good <+: raws
  parses : Parses good bs
  connects : Connects now 0 (fresh p) bs
  longest : ∀ other bs', other <+: raws → Parses other bs' → Connects now 0 (fresh p) bs' → other <+: good

theorem LongestGood.length {now : Nat → Clock} {raws good : List Bytes} {bs : List Block}
    (h : LongestGood p now raws good bs) : good.length = bs.length := by
  rw [h.parses.eq, List.length_map]

/-- Starting an empty chain. -/
theorem ensureGenesis_nil {c : Chain} (h : Sound p c) (hnil : c.blocks = []) (now : Clock) :
    c.ensureGenesis now = .ok (c.grow (makeGenesis p)) := by
  have haccepts : c.Accepts (makeGenesis p) := by
    rw [Accepts, if_pos hnil, h.params]
    exact ⟨rfl, rfl⟩
  rw [ensureGenesis, if_pos hnil, h.params]
  exact connectBlock_ok_iff.mpr ⟨haccepts, fun hne => absurd hnil hne, rfl⟩

/-- The chain that has been loaded, when what is not kept of `total` blobs has been deleted. -/
def dropRest (c : Chain) (good total : Nat) : Chain :=
  if good < total then
    Chain.sql { c with persisting := true } ([.beginImmediate] ++ dbTruncateFrom (UInt64.ofNat good) ++ [.commit])
  else { c with persisting := true }

omit [Crypto] in
theorem dropRest_spec (c : Chain) {db : Db} (hdb : c.db = some db) (good total : Nat) :
    (c.dropRest good total).memory = c.memory ∧ (c.dropRest good total).persisting = true ∧
      (c.dropRest good total).db = some (db.run (if good < total then
        [.beginImmediate] ++ dbTruncateFrom (UInt64.ofNat good) ++ [.commit] else [])) := by
  unfold dropRest
  split
  · refine ⟨rfl, rfl, ?_⟩
    rw [sql]
    dsimp only
    rw [hdb]
    rfl
  · exact ⟨rfl, rfl, hdb⟩

/-- **`init` on a database**: what it keeps and what it executes. -/
theorem init_spec (p : Params) (now : Nat → Clock) (db : Db) :
    ∃ c good bs, (fresh p).init now (some db) = .ok c ∧ LongestGood p now db.rawsByHeight good bs ∧
      c.blocks = (if bs = [] then [makeGenesis p] else bs) ∧ c.persisting = true ∧
      c.db = some (db.run (initSql p bs.length db.rawsByHeight.length)) := by
  have hstart : Sound p { fresh p with db := some db, persisting := false } := Sound.fresh.of_memory rfl
  obtain ⟨c', good, bs, hload, hblocks, hdb, hgood⟩ := loadRows_spec now 0 hstart Sound.fresh rfl rfl db.rawsByHeight
  have hlongest : LongestGood p now db.rawsByHeight good bs :=
    ⟨hgood.first, hgood.parses, hgood.connects, hgood.longest⟩
  have hsound := hstart.loadRows now 0 db.rawsByHeight
  rw [hload] at hsound
  rw [Nat.zero_add] at hload
  obtain ⟨hmemory, hpersisting, hcut_db⟩ := c'.dropRest_spec hdb bs.length db.rawsByHeight.length
  have hinit : (fresh p).init now (some db) =
      (c'.dropRest bs.length db.rawsByHeight.length).ensureGenesis (now db.rawsByHeight.length) := by
    rw [init, hload, dropRest]
  generalize c'.dropRest bs.length db.rawsByHeight.length = cut at hmemory hpersisting hcut_db hinit
  have hcut_sound : Sound p cut := hsound.of_memory hmemory
  have hcut_blocks : cut.blocks = bs := by
    have hsame : cut.memory.blocks = c'.memory.blocks := by rw [hmemory]
    exact hsame.trans hblocks
  rw [hinit]
  by_cases hnil : bs = []
  · subst hnil
    obtain ⟨hgrow_db, hgrow_persisting⟩ := grow_db hpersisting (makeGenesis p)
    refine ⟨_, good, [], ensureGenesis_nil hcut_sound hcut_blocks _, hlongest, ?_, hgrow_persisting, ?_⟩
    · rw [grow_blocks, hcut_blocks, if_pos rfl]
      rfl
    · rw [hgrow_db, hcut_db, initSql, Db.run_append]
      rfl
  · have hlen : bs.length ≠ 0 := fun h => hnil (List.eq_nil_of_length_eq_zero h)
    refine ⟨cut, good, bs, ?_, hlongest, ?_, hpersisting, ?_⟩
    · rw [ensureGenesis, if_neg (by rwa [hcut_blocks])]
    · rw [hcut_blocks, if_neg hnil]
    · rw [hcut_db, initSql, if_neg hlen, List.append_nil]

omit [Crypto] in
theorem Parses.unique {raws : List Bytes} {bs bs' : List Block} (h : Parses raws bs) (h' : Parses raws bs') : bs = bs' :=
  Option.some.inj (h.symm.trans h')

/-- What the statements of `init` leave of tables that hold blocks. -/
theorem mirrors_run_initSql {db : Db} {bs : List Block} (h : Mirrors db bs) (hlen : bs.length < 2 ^ 63) {k : Nat}
    (hk : k ≤ bs.length) :
    Mirrors (db.run (initSql p k bs.length)) (if k = 0 then [makeGenesis p] else bs.take k) := by
  have hcut : Mirrors (db.run (if k < bs.length then
      [.beginImmediate] ++ dbTruncateFrom (UInt64.ofNat k) ++ [.commit] else [])) (bs.take k) := by
    split
    · exact h.truncate hlen.le (by omega)
    · rw [List.take_of_length_le (by omega)]
      exact h
  rw [initSql, Db.run_append]
  by_cases hzero : k = 0
  · subst hzero
    rw [if_pos rfl, if_pos rfl]
    exact hcut.insert (by rfl) (by simp)
  · rw [if_neg hzero, if_neg hzero]
    exact hcut

/-- **`init` on tables that hold blocks** keeps the first of them, at whatever time it is called, and leaves
tables that hold the blocks it has loaded. -/
theorem init_mirrors {db : Db} {bs : List Block} (h : Mirrors db bs) (hfits : ∀ b ∈ bs, b.Fits)
    (hlen : bs.length < 2 ^ 63) (now : Nat → Clock) :
    ∃ c db' k, (fresh p).init now (some db) = .ok c ∧ c.db = some db' ∧ c.persisting = true ∧ Mirrors db' c.blocks ∧
      LongestGood p now (bs.map Block.serialize) ((bs.take k).map Block.serialize) (bs.take k) ∧
      c.blocks = if bs.take k = [] then [makeGenesis p] else bs.take k := by
  obtain ⟨c, good, loaded, hinit, hgood, hblocks, hpersisting, hdb⟩ := init_spec p now db
  rw [h.raws] at hgood hdb
  have hk : loaded.length ≤ bs.length := by
    rw [← hgood.length, ← List.length_map Block.serialize]
    exact hgood.first.length_le
  have hcut_good : good = (bs.take loaded.length).map Block.serialize := by
    rw [List.map_take, ← hgood.length]
    exact List.prefix_iff_eq_take.mp hgood.first
  have hloaded : loaded = bs.take loaded.length := by
    refine hgood.parses.unique ?_
    rw [hcut_good]
    exact parses_serialize fun b hb => hfits b (List.mem_of_mem_take hb)
  have htables := mirrors_run_initSql (p := p) h hlen hk
  refine ⟨c, _, loaded.length, hinit, hdb, hpersisting, ?_, ?_, ?_⟩
  · rw [hblocks, List.length_map]
    convert htables using 1
    by_cases hnil : loaded = []
    · rw [if_pos hnil, if_pos (by rw [hnil]; rfl)]
    · rw [if_neg hnil, if_neg (fun hzero => hnil (List.eq_nil_of_length_eq_zero hzero)), ← hloaded]
  · rw [← hcut_good, ← hloaded]
    exact hgood
  · rw [← hloaded]
    exact hblocks

/-- Blocks that are valid and on time are all loaded, and the tables stay as they are. -/
theorem init_all {db : Db} {bs : List Block} (hraws : db.rawsByHeight = bs.map Block.serialize)
    (hvalid : ValidBlocks p bs) (hne : bs ≠ []) {now : Nat → Clock} (htime : ∀ i, AllTimely (now i) bs)
    (hfits : ∀ b ∈ bs, b.Fits) : ∃ c, (fresh p).init now (some db) = .ok c ∧ c.blocks = bs ∧ c.db = some db := by
  obtain ⟨c, good, loaded, hinit, hgood, hblocks, -, hdb⟩ := init_spec p now db
  rw [hraws] at hgood hdb
  obtain ⟨c', hall, -⟩ := Sound.fresh.connectAll_rest (show ValidBlocks p ((fresh p).blocks ++ bs) from hvalid) htime 0
  have hwhole := hgood.longest _ bs (List.prefix_refl _) (parses_serialize hfits) ⟨c', hall⟩
  have hequal : good = bs.map Block.serialize := hgood.first.eq_of_length_le hwhole.length_le
  have hloaded : loaded = bs := hgood.parses.unique (hequal ▸ parses_serialize hfits)
  have hpos : bs.length ≠ 0 := fun h => hne (List.eq_nil_of_length_eq_zero h)
  rw [hloaded, if_neg hne] at hblocks
  rw [hloaded, List.length_map, initSql, if_neg (Nat.lt_irrefl _), if_neg hpos] at hdb
  exact ⟨c, hinit, hblocks, hdb⟩

/-- **What `init` leaves in the table** when the heights count from zero. -/
theorem blocks_run_initSql {db : Db} {rows : List BlockRow} (h : db.blocks.toList = keyed rows)
    (hlen : rows.length ≤ 2 ^ 63) {good : Nat} (hgood : good ≤ rows.length) :
    (db.run (initSql p good rows.length)).blocks.toList =
      keyed (if good = 0 then [blockRow (makeGenesis p)] else rows.take good) := by
  have hcut : (db.run (if good < rows.length then
      [.beginImmediate] ++ dbTruncateFrom (UInt64.ofNat good) ++ [.commit] else [])).blocks.toList =
        keyed (rows.take good) := by
    split
    · rename_i hlt
      have hfilter := toList_filter_keyed h hlen (k := good) (by omega)
      rw [dbTruncateFrom, UInt64.toInt64_ofNat']
      exact hfilter
    · rw [List.take_of_length_le (by omega)]
      exact h
  rw [initSql, Db.run_append]
  by_cases hzero : good = 0
  · subst hzero
    have hinsert := toList_insert_keyed hcut (by simp) (blockRow (makeGenesis p))
    rw [if_pos rfl, if_pos rfl]
    exact hinsert
  · rw [if_neg hzero, if_neg hzero]
    exact hcut

/-- **Recovery.** Whatever the blobs of the table are, `init` keeps the longest part of them that parses and
connects, or starts the chain, and the table then holds the blocks of the chain and no other row. -/
theorem init_recovers (p : Params) (now : Nat → Clock) (db : Db) (n : Nat)
    (hkeys : db.stored.map Prod.fst = (List.range n).map Int.ofNat) :
    ∃ c db' good bs, (fresh p).init now (some db) = .ok c ∧ c.db = some db' ∧
      LongestGood p now (db.stored.map Prod.snd) good bs ∧
      c.blocks = (if bs = [] then [makeGenesis p] else bs) ∧
      db'.stored = (c.blocks.map Block.serialize).zipIdx.map fun entry => (Int.ofNat entry.2, entry.1) := by
  have hraws : db.stored.map Prod.snd = db.rawsByHeight := by
    rw [Db.stored, List.map_map]
    rfl
  have hstored : db.blocks.toList.map (fun entry => entry.1.toInt) = (List.range n).map Int.ofNat := by
    rw [← hkeys, Db.stored, List.map_map]
    rfl
  obtain ⟨hkeyed, hn⟩ := eq_keyed hstored
  obtain ⟨rows, hrows⟩ : ∃ rows, rows = db.blocks.toList.map Prod.snd := ⟨_, rfl⟩
  rw [← hrows] at hkeyed
  have hraw : db.rawsByHeight = rows.map BlockRow.raw := by
    rw [Db.rawsByHeight, hrows, List.map_map]
    rfl
  have hlen : rows.length = n := by simpa [hrows, Db.stored] using congrArg List.length hkeys
  obtain ⟨c, good, bs, hinit, hgood, hblocks, -, hdb⟩ := init_spec p now db
  have hle : bs.length ≤ rows.length := by
    rw [← hgood.length, ← List.length_map BlockRow.raw, ← hraw]
    exact hgood.first.length_le
  refine ⟨c, _, good, bs, hinit, hdb, hraws ▸ hgood, hblocks, ?_⟩
  have htable := blocks_run_initSql (p := p) hkeyed (by omega) hle
  rw [Db.stored, hraw, List.length_map, htable, map_toInt_keyed BlockRow.raw (by split <;> simp; omega), hblocks]
  congr 2
  by_cases hnil : bs = []
  · subst hnil
    rfl
  · have hpos : bs.length ≠ 0 := fun h => hnil (List.eq_nil_of_length_eq_zero h)
    rw [if_neg hpos, if_neg hnil, List.map_take, ← hraw, ← hgood.length, ← hgood.parses.eq]
    exact (List.prefix_iff_eq_take.mp hgood.first).symm

end Chain

end

section
local instance recoveryCrypto : Crypto := Sha.crypto fun _ _ _ => false

/-- A table with two good rows and a damaged one. -/
def damaged : Db := (({} : Db).run ((Chain.coinbases (zeros 20) 1).blocks.flatMap dbInsert)).exec
  (.insertBlock 2 ⟨"", "", 0, 0, [255]⟩)

theorem rawsOf_damaged : damaged.stored.map Prod.snd =
    (Chain.coinbases (zeros 20) 1).blocks.map Block.serialize ++ [[255]] := rfl

theorem init_recovers_damaged : ∃ c db',
    (Chain.fresh Chain.easyParams).init (fun _ => Chain.easyClock) (some damaged) = .ok c ∧ c.db = some db' ∧
      c.blocks = (Chain.coinbases (zeros 20) 1).blocks ∧
      db'.stored = (c.blocks.map Block.serialize).zipIdx.map fun entry => (Int.ofNat entry.2, entry.1) := by
  obtain ⟨hsound, hne⟩ := (Chain.coinbases_reachable (zeros 20) 1).sound
  obtain ⟨c, db', good, bs, hinit, hdb, hgood, hblocks, hstored⟩ :=
    Chain.init_recovers Chain.easyParams (fun _ => Chain.easyClock) damaged 3 rfl
  rw [rawsOf_damaged] at hgood
  obtain ⟨d, hall, -⟩ := Chain.Sound.fresh.connectAll_rest hsound.valid (fun _ => Chain.coinbases_timely (zeros 20) 1) 0
  have hparses := Chain.parses_serialize hsound.valid.fits
  obtain ⟨rest, rfl⟩ := hgood.longest _ _ (List.prefix_append _ _) hparses ⟨d, hall⟩
  have hrest : rest <+: [[255]] := (List.prefix_append_right_inj _).mp hgood.first
  have hnone : rest = [] := by
    refine List.eq_nil_iff_forall_not_mem.mpr fun raw hraw => ?_
    obtain rfl := List.mem_singleton.mp (hrest.subset hraw)
    obtain ⟨b, -, hb⟩ := List.mem_map.mp (hgood.parses.eq ▸ List.mem_append_right _ hraw)
    have hlength := congrArg List.length hb
    rw [Block.length_serialize, List.length_singleton] at hlength
    omega
  subst hnone
  have hloaded : bs = (Chain.coinbases (zeros 20) 1).blocks := hgood.parses.unique (by rwa [List.append_nil])
  rw [hloaded, if_neg hne] at hblocks
  exact ⟨c, db', hinit, hdb, hblocks, hstored⟩

end

end Chainlite
