import Chainlite.BaseOrderedMap
import Chainlite.Storage

/-! What the two tables hold for a list of blocks, and what the statements of the node do to it: a new block is
one more row of `blocks` and a row of `txs` for each transaction, and a truncation leaves the rows of the first
blocks. Heights are keys as signed 64-bit integers. -/

open Std

namespace Chainlite

/-! ### Rows by position -/

/-- The keys below `2 ^ 63` are ordered as signed integers. -/
theorem key_lt_iff {i j : Nat} (hi : i < 2 ^ 63) (hj : j < 2 ^ 63) : Int64.ofNat i < Int64.ofNat j ↔ i < j := by
  rw [Int64.lt_iff_toInt_lt, Int64.toInt_ofNat_of_lt hi, Int64.toInt_ofNat_of_lt hj, Int.ofNat_lt]

theorem key_le_iff {i j : Nat} (hi : i < 2 ^ 63) (hj : j < 2 ^ 63) : Int64.ofNat i ≤ Int64.ofNat j ↔ i ≤ j := by
  rw [← Int64.not_lt, key_lt_iff hj hi, Nat.not_lt]

theorem decide_not_key_le {k i : Nat} (hk : k < 2 ^ 63) (hi : i < 2 ^ 63) :
    (!decide (Int64.ofNat k ≤ Int64.ofNat i)) = decide (i < k) := by
  rw [← decide_not, decide_eq_decide, key_le_iff hk hi, Nat.not_le]

theorem key_injective {i j : Nat} (hi : i < 2 ^ 63) (hj : j < 2 ^ 63) (h : Int64.ofNat i = Int64.ofNat j) : i = j := by
  have hint := congrArg Int64.toInt h
  rw [Int64.toInt_ofNat_of_lt hi, Int64.toInt_ofNat_of_lt hj] at hint
  exact Int.ofNat.inj hint

theorem zipIdx_filter_lt {α : Type} (xs : List α) (k : Nat) :
    xs.zipIdx.filter (fun entry => decide (entry.2 < k)) = (xs.take k).zipIdx := by
  induction xs using List.reverseRecOn with
  | nil => simp
  | append_singleton xs x ih =>
      rw [List.zipIdx_append, List.filter_append, ih, List.take_append, List.zipIdx_append]
      by_cases hk : xs.length < k
      · have htake : [x].take (k - xs.length) = [x] := List.take_of_length_le (by simp; omega)
        rw [htake, List.take_of_length_le hk.le]
        simp [hk]
      · have htake : [x].take (k - xs.length) = [] := by
          rw [Nat.sub_eq_zero_of_le (Nat.not_lt.mp hk), List.take_zero]
        rw [htake]
        simp [hk]

/-- The rows of a table whose keys are `0`, `1` and so on. -/
def keyed {α : Type} (rows : List α) : List (Int64 × α) :=
  rows.zipIdx.map fun entry => (Int64.ofNat entry.2, entry.1)

section
variable {α : Type} {rows : List α}

theorem mem_keyed {key : Int64} {row : α} :
    (key, row) ∈ keyed rows ↔ ∃ i, rows[i]? = some row ∧ key = Int64.ofNat i := by
  rw [keyed, List.mem_map]
  constructor
  · rintro ⟨⟨row, i⟩, hmem, heq⟩
    obtain ⟨rfl, rfl⟩ := Prod.mk.inj heq
    exact ⟨i, List.mem_zipIdx_iff_getElem?.mp hmem, rfl⟩
  · rintro ⟨i, hget, rfl⟩
    exact ⟨(row, i), List.mem_zipIdx_iff_getElem?.mpr hget, rfl⟩

theorem keyed_sorted (hlen : rows.length ≤ 2 ^ 63) : (keyed rows).Pairwise fun e f => compare e.1 f.1 = .lt := by
  rw [keyed, List.pairwise_map, List.pairwise_iff_getElem]
  intro i j hi hj hlt
  rw [List.length_zipIdx] at hi hj
  rw [List.getElem_zipIdx, List.getElem_zipIdx, Nat.zero_add, Nat.zero_add]
  exact Std.compare_eq_lt.mpr ((key_lt_iff (by omega) (by omega)).mpr hlt)

theorem keyed_snoc (rows : List α) (row : α) :
    keyed (rows ++ [row]) = keyed rows ++ [(Int64.ofNat rows.length, row)] := by
  simp [keyed, List.zipIdx_append]

theorem map_snd_keyed (rows : List α) : (keyed rows).map Prod.snd = rows := by
  rw [keyed, List.map_map]
  exact List.zipIdx_map_fst 0 rows

/-- Keys that count from zero as integers. -/
theorem eq_keyed {entries : List (Int64 × α)} {n : Nat}
    (h : entries.map (fun entry => entry.1.toInt) = (List.range n).map Int.ofNat) :
    entries = keyed (entries.map Prod.snd) ∧ n ≤ 2 ^ 63 := by
  have hlen : entries.length = n := by simpa using congrArg List.length h
  have hkey : ∀ i (hi : i < entries.length), entries[i].1.toInt = (i : Int) := by
    intro i hi
    have := congrArg (fun keys => keys[i]?) h
    simpa [hi, show i < n by omega] using this
  have hbound : n ≤ 2 ^ 63 := by
    by_contra hbig
    have hlast : 2 ^ 63 < entries.length := by omega
    have hlt := Int64.toInt_lt entries[2 ^ 63].1
    rw [hkey (2 ^ 63) hlast] at hlt
    exact absurd hlt (by decide)
  refine ⟨?_, hbound⟩
  apply List.ext_getElem
  · simp [keyed]
  · intro i hi hi'
    simp only [keyed, List.getElem_map, List.getElem_zipIdx, Nat.zero_add]
    refine Prod.ext (Int64.toInt_inj.mp ?_) rfl
    rw [hkey i hi, Int64.toInt_ofNat_of_lt (by omega)]

/-- The rows of a table with their heights as integers. -/
theorem map_toInt_keyed {β : Type} (f : α → β) (hlen : rows.length ≤ 2 ^ 63) :
    (keyed rows).map (fun entry => (entry.1.toInt, f entry.2)) =
      (rows.map f).zipIdx.map fun entry => (Int.ofNat entry.2, entry.1) := by
  rw [keyed, List.map_map, List.zipIdx_map, List.map_map]
  apply List.map_congr_left
  rintro ⟨row, i⟩ hmem
  have hi := (List.getElem?_eq_some_iff.mp (List.mem_zipIdx_iff_getElem?.mp hmem)).1
  have hkey := Int64.toInt_ofNat_of_lt (show i < 2 ^ 63 by omega)
  exact Prod.ext hkey rfl

variable {m : ExtTreeMap Int64 α}

theorem toList_insert_keyed (h : m.toList = keyed rows) (hlen : rows.length < 2 ^ 63) (row : α) :
    (m.insert (Int64.ofNat rows.length) row).toList = keyed (rows ++ [row]) := by
  have hget : ∀ key row, m[key]? = some row ↔ (key, row) ∈ keyed rows := by
    intro key row
    rw [← h, ExtTreeMap.mem_toList_iff_getElem?_eq_some]
  refine OrderedMap.toList_eq_of_mem_iff _ (keyed_sorted (by rw [List.length_append, List.length_singleton]; omega)) ?_
  intro key other
  rw [OrderedMap.getElem?_insert_eq, keyed_snoc, List.mem_append, List.mem_singleton, Prod.mk.injEq, ← hget]
  by_cases hnew : Int64.ofNat rows.length = key
  · subst hnew
    have hfresh : m[Int64.ofNat rows.length]? = none := by
      rw [Option.eq_none_iff_forall_ne_some]
      intro old hold
      obtain ⟨i, hi, hkey⟩ := mem_keyed.mp ((hget _ _).mp hold)
      have hi : i < rows.length := (List.getElem?_eq_some_iff.mp hi).1
      exact absurd (key_injective hlen (by omega) hkey) (by omega)
    rw [if_pos rfl, hfresh]
    simp [eq_comm]
  · rw [if_neg hnew]
    simp [Ne.symm hnew]

theorem toList_filter_keyed (h : m.toList = keyed rows) (hlen : rows.length ≤ 2 ^ 63) {k : Nat} (hk : k < 2 ^ 63) :
    (m.filter fun key _ => !decide (Int64.ofNat k ≤ key)).toList = keyed (rows.take k) := by
  rw [ExtTreeMap.toList_filter, h, keyed, keyed, List.filter_map, ← zipIdx_filter_lt]
  congr 1
  apply List.filter_congr
  rintro ⟨row, i⟩ hmem
  have hi := (List.getElem?_eq_some_iff.mp (List.mem_zipIdx_iff_getElem?.mp hmem)).1
  exact decide_not_key_le hk (by omega)

end

/-! ### What the tables hold -/

/-- The columns of `blocks` that a reload depends on: the heights, as integers, and the blobs. -/
def Db.stored (db : Db) : List (Int × Bytes) :=
  db.blocks.toList.map fun entry => (entry.1.toInt, entry.2.raw)

section
variable [Crypto]

/-- The rows of `txs` for a block of the given height. -/
def txRowsOf (height : Int64) (b : Block) : List TxRow :=
  b.txs.zipIdx.map fun entry => txRow height entry.2 entry.1

/-- The rows of `txs`, block by block and index by index. -/
def txRows (bs : List Block) : List TxRow :=
  bs.zipIdx.flatMap fun entry => txRowsOf (Int64.ofNat entry.2) entry.1

/-- The tables hold exactly the blocks and their transactions. -/
structure Mirrors (db : Db) (bs : List Block) : Prop where
  blocks : db.blocks.toList = keyed (bs.map blockRow)
  txs : db.txs = txRows bs

theorem mirrors_empty : Mirrors {} [] := ⟨rfl, rfl⟩

variable {db : Db} {bs : List Block}

theorem Mirrors.raws (h : Mirrors db bs) : db.rawsByHeight = bs.map Block.serialize := by
  have hrows := map_snd_keyed (bs.map blockRow)
  rw [Db.rawsByHeight, h.blocks]
  have := congrArg (List.map BlockRow.raw) hrows
  rwa [List.map_map, List.map_map] at this

theorem txRows_snoc (bs : List Block) (b : Block) :
    txRows (bs ++ [b]) = txRows bs ++ txRowsOf (Int64.ofNat bs.length) b := by
  simp [txRows, List.zipIdx_append]

omit [Crypto] in
theorem run_insertTxs (db : Db) (rows : List TxRow) :
    db.run (rows.map Sql.insertTx) = { db with txs := db.txs ++ rows } := by
  induction rows generalizing db with
  | nil => simp
  | cons row rows ih =>
      rw [List.map_cons, Db.run_cons, ih]
      simp [Db.exec]

/-- The statements of `db_insert` for a block whose height is `n`. -/
theorem dbInsert_eq {b : Block} {n : Nat} (hb : b.h.height = UInt64.ofNat n) :
    dbInsert b = .insertBlock (Int64.ofNat n) (blockRow b) :: (txRowsOf (Int64.ofNat n) b).map Sql.insertTx := by
  rw [dbInsert, hb, UInt64.toInt64_ofNat', txRowsOf, List.map_map]
  rfl

/-- **A new block is one more row.** -/
theorem Mirrors.insert (h : Mirrors db bs) {b : Block} (hb : b.h.height = UInt64.ofNat bs.length)
    (hlen : bs.length < 2 ^ 63) : Mirrors (db.run (dbInsert b)) (bs ++ [b]) := by
  rw [dbInsert_eq hb, Db.run_cons, run_insertTxs]
  constructor
  · have hinsert := toList_insert_keyed h.blocks (by rwa [List.length_map]) (blockRow b)
    rw [List.length_map] at hinsert
    rw [List.map_append]
    exact hinsert
  · rw [txRows_snoc, ← h.txs]
    rfl

theorem height_of_mem_txRowsOf {height : Int64} {b : Block} {row : TxRow} (h : row ∈ txRowsOf height b) :
    row.height = height := by
  obtain ⟨entry, -, rfl⟩ := List.mem_map.mp h
  rfl

/-- The rows below a height, out of the rows of all blocks. -/
theorem filter_txRows (hlen : bs.length ≤ 2 ^ 63) {k : Nat} (hk : k < 2 ^ 63) :
    (txRows bs).filter (fun row => !decide (Int64.ofNat k ≤ row.height)) = txRows (bs.take k) := by
  have hblock : ∀ entry ∈ bs.zipIdx, (txRowsOf (Int64.ofNat entry.2) entry.1).filter
      (fun row => !decide (Int64.ofNat k ≤ row.height)) =
        if entry.2 < k then txRowsOf (Int64.ofNat entry.2) entry.1 else [] := by
    rintro ⟨b, i⟩ hmem
    have hi := (List.getElem?_eq_some_iff.mp (List.mem_zipIdx_iff_getElem?.mp hmem)).1
    have hkeep := decide_not_key_le hk (show i < 2 ^ 63 by omega)
    split
    · rename_i hlt
      refine List.filter_eq_self.mpr fun row hrow => ?_
      rw [height_of_mem_txRowsOf hrow, hkeep]
      exact decide_eq_true hlt
    · rename_i hge
      refine List.filter_eq_nil_iff.mpr fun row hrow => ?_
      rw [height_of_mem_txRowsOf hrow, hkeep]
      simpa using hge
  rw [txRows, txRows, ← zipIdx_filter_lt, List.filter_flatMap, List.flatMap_congr hblock]
  generalize bs.zipIdx = entries
  induction entries with
  | nil => rfl
  | cons entry entries ih =>
      by_cases hlt : entry.2 < k
      · simp [hlt, ih]
      · simp [hlt, ih]

/-- **Truncation leaves the rows of the first blocks**, in both tables. -/
theorem Mirrors.truncate (h : Mirrors db bs) (hlen : bs.length ≤ 2 ^ 63) {k : Nat} (hk : k < 2 ^ 63) :
    Mirrors (db.run (dbTruncateFrom (UInt64.ofNat k))) (bs.take k) := by
  rw [dbTruncateFrom, UInt64.toInt64_ofNat', Db.run_cons, Db.run_cons, Db.run_nil]
  constructor
  · have hfilter := toList_filter_keyed h.blocks (by rwa [List.length_map]) hk
    rw [List.map_take]
    exact hfilter
  · show db.txs.filter (fun row => !decide (Int64.ofNat k ≤ row.height)) = _
    rw [h.txs, filter_txRows hlen hk]

/-! ### Several blocks -/

theorem Mirrors.insertAll (h : Mirrors db bs) {bs' : List Block}
    (hheight : ∀ i b, bs'[i]? = some b → b.h.height = UInt64.ofNat (bs.length + i))
    (hlen : (bs ++ bs').length ≤ 2 ^ 63) : Mirrors (db.run (bs'.flatMap dbInsert)) (bs ++ bs') := by
  induction bs' generalizing db bs with
  | nil => simpa using h
  | cons b rest ih =>
      have hb : b.h.height = UInt64.ofNat bs.length := hheight 0 b rfl
      have hroom : bs.length < 2 ^ 63 := by
        rw [List.length_append, List.length_cons] at hlen
        omega
      rw [show bs ++ b :: rest = bs ++ [b] ++ rest by simp] at hlen ⊢
      rw [List.flatMap_cons, Db.run_append]
      refine ih (h.insert hb hroom) (fun i b' hb' => ?_) hlen
      rw [List.length_append, List.length_singleton, Nat.add_assoc, Nat.add_comm 1]
      exact hheight (i + 1) b' hb'

/-- **A reorganisation** leaves the blocks below the fork and stores the new ones on top of them. -/
theorem Mirrors.reorganise (h : Mirrors db bs) (hlen : bs.length ≤ 2 ^ 63) {k : Nat} {added : List Block}
    (hk : k ≤ bs.length) (hheight : ∀ i b, added[i]? = some b → b.h.height = UInt64.ofNat (k + i))
    (hroom : k + added.length < 2 ^ 63) :
    Mirrors (db.run ([.beginImmediate] ++ dbTruncateFrom (UInt64.ofNat k) ++ added.flatMap dbInsert ++ [.commit]))
      (bs.take k ++ added) := by
  have htake : (bs.take k).length = k := List.length_take_of_le hk
  have hcut := h.truncate hlen (show k < 2 ^ 63 by omega)
  rw [Db.run_append, Db.run_append]
  apply hcut.insertAll
  · intro i b hb
    rw [htake]
    exact hheight i b hb
  · rw [List.length_append, htake]
    omega

end

end Chainlite
