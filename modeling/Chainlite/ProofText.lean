import Chainlite.BaseHashPath
import Chainlite.Node

/-! Inclusion proofs as text: what `/prove` writes and what `clctl verify` reads. The reader goes line by line,
knows five kinds of lines, takes the last good one of each kind and collects the siblings; every other line is
passed over. What is written for a transaction is read back field by field. -/

open Std

namespace Chainlite

/-! ### Merkle proofs -/

/-- The sibling at one level, and whether it is on the left. -/
abbrev MerkleStep := HashTree.Step H256

section
variable [Crypto]

def merkleProof (level : List H256) (idx : Nat) : List MerkleStep := HashTree.path merkleParent (zeros 32) level idx

def merkleApply (leaf : H256) (steps : List MerkleStep) : H256 := HashTree.climb merkleParent leaf steps

/-- The buffers hashed by `merkleApply`. -/
def pathBuffers (leaf : H256) (steps : List MerkleStep) : List Bytes :=
  (HashTree.climbPairs merkleParent leaf steps).map fun pair => parentBuffer pair.1 pair.2

end

/-! ### What the node answers -/

def err404 (e : String) : HttpResp := ⟨404, "application/json", "\x7b\"error\":\"" ++ e ++ "\"\x7d"⟩

def siblingLine (s : MerkleStep) : String := "sibling " ++ (if s.left then "L" else "R") ++ " " ++ hexs s.h.toList

/-- The text of a proof. -/
def proofText (txid : H256) (height : UInt64) (index : UInt32) (blockhash : H256) (header : Bytes)
    (steps : List MerkleStep) : String :=
  String.join (([ "CHAINLITE-PROOF v1", "txid " ++ hexs txid.toList, "height " ++ toString height,
    "index " ++ toString index, "blockhash " ++ hexs blockhash.toList, "header " ++ hexs header ] ++
    steps.map siblingLine ++ [ "end" ]).map (· ++ "\n"))

section
variable [Crypto]

/-- The answer of `/prove` for the transaction at `index` of a block. -/
def proofOf (id : H256) (b : Block) (index : UInt32) : String :=
  proofText id b.h.height index b.h.hash b.h.serialize (merkleProof b.txids index.toNat)

/-- The answer of `/block`. -/
def blockJson (b : Block) : String :=
  "\x7b\"height\":" ++ toString b.h.height ++ ",\"hash\":\"" ++ hexs b.h.hash.toList ++ "\",\"prev\":\"" ++
    hexs b.h.prev.toList ++ "\",\"merkle\":\"" ++ hexs b.h.merkle.toList ++ "\",\"time\":" ++ toString b.h.time ++
    ",\"bits\":" ++ toString b.h.bits ++ ",\"nonce\":" ++ toString b.h.nonce ++ ",\"ntx\":" ++
    toString b.txs.length ++ ",\"txids\":[" ++
    String.intercalate "," (b.txids.map fun id => "\"" ++ hexs id.toList ++ "\"") ++ "]\x7d"

end

/-- `isspace` in the C locale. -/
def isSpace (c : Char) : Bool := c == ' ' || (9 ≤ c.toNat && c.toNat ≤ 13)

/-- `strtoull(s, nullptr, 10)`: the digits after blanks and a sign. A number that does not fit gives the
greatest one, a minus sign the negated one. -/
def strtoull (s : List Char) : UInt64 :=
  let s := s.dropWhile isSpace
  let (negative, s) := match s with
    | '-' :: rest => (true, rest)
    | '+' :: rest => (false, rest)
    | s => (false, s)
  let n := Nat.ofDigitChars 10 (s.takeWhile Char.isDigit) 0
  if 2 ^ 64 ≤ n then UInt64.ofNat (2 ^ 64 - 1) else if negative then -UInt64.ofNat n else UInt64.ofNat n

namespace App

variable [Crypto]

/-- `GET /prove?txid=..`. The index only holds places on the chain. -/
def prove (a : App) (txid : Option String) : HttpResp :=
  match unhexN 32 (txid.getD "") with
  | none => err400 "need txid=<hex64>"
  | some id =>
      match a.chain.txidx[id]? with
      | none => err404 "tx not confirmed on this chain"
      | some place => ⟨200, "text/plain", proofOf id (a.chain.blocks.getD place.1.toNat {}) place.2⟩

/-- The block that `/block` is asked for, by height or by hash. -/
def blockFor (a : App) (height hash : Option String) : Option Block :=
  match height, hash with
  | some s, _ => a.chain.blocks[(strtoull s.toList).toNat]?
  | none, some s =>
      match unhexN 32 s with
      | none => none
      | some want => (a.chain.hashes.findIdx? (· == want)).bind fun i => a.chain.blocks[i]?
  | none, none => none

/-- `GET /block?height=..` or `GET /block?hash=..`. -/
def block (a : App) (height hash : Option String) : HttpResp :=
  match a.blockFor height hash with
  | none => err404 "block not found"
  | some b => ⟨200, "application/json", blockJson b⟩

end App

/-! ### What `clctl verify` reads -/

/-- The lines of a text; a last one need not be terminated. -/
def lines : List Char → List (List Char)
  | [] => []
  | c :: rest =>
      if c = '\n' then [] :: lines rest
      else
        match lines rest with
        | [] => [[c]]
        | line :: more => (c :: line) :: more

/-- The line without blanks and carriage returns at its end. -/
def trimEnd (line : List Char) : List Char := line.rdropWhile fun c => c == '\r' || c == ' '

/-- The locals that the loop over the lines fills. -/
structure ProofFile where
  txid : H256 := zeros 32
  blockhash : H256 := zeros 32
  height : UInt64 := UInt64.ofNat (2 ^ 64 - 1)
  headerRaw : Bytes := []
  steps : List MerkleStep := []
  okHdr : Bool := false
  okTxid : Bool := false
  okBh : Bool := false
  deriving DecidableEq

/-- The step on a sibling line. The character after the side is not looked at. -/
def readSibling (line : List Char) : Option MerkleStep :=
  if "sibling ".toList.isPrefixOf line ∧ 10 < line.length then
    (unhexN 32 (String.ofList (line.drop 10))).map fun v => ⟨v, line.getD 8 ' ' == 'L'⟩
  else none

/-- One line, without the blanks at its end. -/
def readLine (f : ProofFile) (line : List Char) : ProofFile :=
  if "txid ".toList.isPrefixOf line then
    match unhexN 32 (String.ofList (line.drop 5)) with
    | some v => { f with txid := v, okTxid := true }
    | none => f
  else if "height ".toList.isPrefixOf line then { f with height := strtoull (line.drop 7) }
  else if "blockhash ".toList.isPrefixOf line then
    match unhexN 32 (String.ofList (line.drop 10)) with
    | some v => { f with blockhash := v, okBh := true }
    | none => f
  else if "header ".toList.isPrefixOf line then
    match unhex (String.ofList (line.drop 7)) with
    | some v => if v.length = headerSize then { f with headerRaw := v, okHdr := true } else f
    | none => f
  else
    match readSibling line with
    | some s => { f with steps := f.steps ++ [s] }
    | none => f

def readProof (content : List Char) : ProofFile := ((lines content).map trimEnd).foldl readLine {}

/-! ### What is written is read back -/

/-- Characters that neither end a line nor are cut off at its end. -/
def Plain (c : Char) : Prop := c ≠ '\n' ∧ c ≠ '\r' ∧ c ≠ ' '

instance (c : Char) : Decidable (Plain c) := inferInstanceAs (Decidable (_ ∧ _))

theorem plain_hexDigit : ∀ n < 16, Plain (hexDigit n) := by decide

theorem plain_of_mem_hexs {bytes : Bytes} {c : Char} (h : c ∈ (hexs bytes).toList) : Plain c := by
  rw [hexs, String.toList_ofList] at h
  obtain ⟨byte, -, hc⟩ := List.mem_flatMap.mp h
  rcases List.mem_cons.mp hc with rfl | hc
  · exact plain_hexDigit _ (high_digit_lt byte)
  · rw [List.mem_singleton.mp hc]
    exact plain_hexDigit _ (low_digit_lt byte)

theorem plain_of_isDigit {c : Char} (h : c.isDigit = true) : Plain c := by
  refine ⟨?_, ?_, ?_⟩ <;> rintro rfl <;> exact absurd h (by decide)

theorem hexs_ne_nil {bytes : Bytes} (h : bytes ≠ []) : (hexs bytes).toList ≠ [] := by
  obtain ⟨byte, rest, rfl⟩ := List.exists_cons_of_ne_nil h
  simp [hexs]

theorem unhexN_hexs {n : Nat} (v : Vector UInt8 n) : unhexN n (hexs v.toList) = some v := by
  rw [unhexN, unhex_hexs]
  simp [Vector.toList]

theorem toList_toString_uint64 (n : UInt64) : (toString n).toList = Nat.toDigits 10 n.toNat := Nat.toList_repr

theorem toList_toString_uint32 (n : UInt32) : (toString n).toList = Nat.toDigits 10 n.toNat := Nat.toList_repr

theorem not_isSpace_of_isDigit {c : Char} (h : c.isDigit = true) : isSpace c = false := by
  simp only [Char.isDigit, Bool.and_eq_true, decide_eq_true_eq] at h
  have hge : 48 ≤ c.toNat := h.1
  have hne : c ≠ ' ' := by
    rintro rfl
    exact absurd hge (by decide)
  simp [isSpace, hne]
  omega

/-- The value of a text of decimal digits. -/
abbrev decimal (digits : List Char) : Nat := Nat.ofDigitChars 10 digits 0

theorem dropWhile_isSpace_cons {c : Char} (hc : c.isDigit = true) (rest : List Char) :
    (c :: rest).dropWhile isSpace = c :: rest := by
  rw [List.dropWhile_cons, not_isSpace_of_isDigit hc]
  rfl

theorem takeWhile_isDigit {digits rest : List Char} (h : ∀ c ∈ digits, c.isDigit = true)
    (hrest : ∀ c ∈ rest.head?, c.isDigit = false) : (digits ++ rest).takeWhile Char.isDigit = digits := by
  have hstop : rest.takeWhile Char.isDigit = [] := by
    cases rest with
    | nil => rfl
    | cons y rest => rw [List.takeWhile_cons, hrest y rfl]; rfl
  rw [List.takeWhile_append_of_pos h, hstop, List.append_nil]

/-- Digits are read up to the first other character. -/
theorem toNat_strtoull {digits rest : List Char} (hne : digits ≠ []) (h : ∀ c ∈ digits, c.isDigit = true)
    (hrest : ∀ c ∈ rest.head?, c.isDigit = false) :
    (strtoull (digits ++ rest)).toNat = min (decimal digits) (2 ^ 64 - 1) := by
  obtain ⟨c, tail, rfl⟩ := List.exists_cons_of_ne_nil hne
  have hc : c.isDigit = true := h c List.mem_cons_self
  have hstart : (c :: tail ++ rest).dropWhile isSpace = c :: (tail ++ rest) := dropWhile_isSpace_cons hc (tail ++ rest)
  have htake : (c :: (tail ++ rest)).takeWhile Char.isDigit = c :: tail := takeWhile_isDigit h hrest
  unfold strtoull
  rw [hstart]
  dsimp only
  split
  · rename_i heq
    injection heq with heq
    rw [heq] at hc
    exact absurd hc (by decide)
  · rename_i heq
    injection heq with heq
    rw [heq] at hc
    exact absurd hc (by decide)
  · rw [htake]
    split
    · rename_i hbig
      rw [Nat.min_eq_right ((Nat.sub_le _ _).trans hbig)]
      rfl
    · rename_i hsmall
      rw [Nat.min_eq_left (Nat.le_sub_one_of_lt (Nat.not_le.mp hsmall)), if_neg Bool.false_ne_true, UInt64.toNat_ofNat']
      exact Nat.mod_eq_of_lt (Nat.not_le.mp hsmall)

/-- Digits that start at once are read to their end. -/
theorem strtoull_digits {digits : List Char} (hne : digits ≠ []) (h : ∀ c ∈ digits, c.isDigit = true)
    (hlt : decimal digits < 2 ^ 64) : strtoull digits = UInt64.ofNat (decimal digits) := by
  have hread : (strtoull (digits ++ [])).toNat = _ := toNat_strtoull hne h (by simp)
  rw [List.append_nil, Nat.min_eq_left (Nat.le_sub_one_of_lt hlt)] at hread
  rw [← hread, UInt64.ofNat_toNat]

theorem isDigit_of_mem_toDigits {n : Nat} {c : Char} (h : c ∈ Nat.toDigits 10 n) : c.isDigit = true :=
  Nat.isDigit_of_mem_toDigits (by decide) (by decide) h

/-- The decimal text of a number gives it back. -/
theorem strtoull_toString (n : UInt64) : strtoull (toString n).toList = n := by
  have hvalue : decimal (Nat.toDigits 10 n.toNat) = n.toNat := Nat.ofDigitChars_ten_toDigits
  rw [toList_toString_uint64, strtoull_digits Nat.toDigits_ne_nil (fun c => isDigit_of_mem_toDigits)
    (by rw [hvalue]; exact n.toNat_lt), hvalue, UInt64.ofNat_toNat]

/-! ### Lines -/

theorem lines_append {line : List Char} (h : ∀ c ∈ line, c ≠ '\n') (rest : List Char) :
    lines (line ++ '\n' :: rest) = line :: lines rest := by
  induction line with
  | nil => simp [lines]
  | cons c line ih =>
      obtain ⟨hc, h⟩ := List.forall_mem_cons.mp h
      rw [List.cons_append, lines, if_neg hc, ih h]

/-- A line that is read back as it was written. -/
structure CleanLine (line : List Char) : Prop where
  noBreak : ∀ c ∈ line, c ≠ '\n'
  trimmed : trimEnd line = line

theorem lines_unlines {ls : List (List Char)} (h : ∀ line ∈ ls, CleanLine line) :
    (lines (ls.flatMap (· ++ ['\n']))).map trimEnd = ls := by
  induction ls with
  | nil => rfl
  | cons line rest ih =>
      obtain ⟨hline, hrest⟩ := List.forall_mem_cons.mp h
      rw [List.flatMap_cons, List.append_assoc, List.singleton_append, lines_append hline.noBreak, List.map_cons,
        hline.trimmed, ih hrest]

theorem cleanLine_append {front word : List Char} (hfront : ∀ c ∈ front, c ≠ '\n') (hne : word ≠ [])
    (hword : ∀ c ∈ word, Plain c) : CleanLine (front ++ word) := by
  refine ⟨fun c hc => ?_, ?_⟩
  · rcases List.mem_append.mp hc with hc | hc
    · exact hfront c hc
    · exact (hword c hc).1
  · refine List.rdropWhile_eq_self_iff.mpr fun hnil hlast => ?_
    rw [List.getLast_append_of_ne_nil hnil hne] at hlast
    obtain ⟨-, hcr, hblank⟩ := hword _ (List.getLast_mem hne)
    simp [hcr, hblank] at hlast

theorem readLine_txid (f : ProofFile) (body : List Char) : readLine f ("txid ".toList ++ body) =
    (unhexN 32 (String.ofList body)).elim f fun v => { f with txid := v, okTxid := true } := by
  have hdrop : ("txid ".toList ++ body).drop 5 = body := rfl
  unfold readLine
  rw [if_pos (by simp), hdrop]
  cases unhexN 32 (String.ofList body) <;> rfl

theorem readLine_height (f : ProofFile) (body : List Char) :
    readLine f ("height ".toList ++ body) = { f with height := strtoull body } := by
  have hdrop : ("height ".toList ++ body).drop 7 = body := rfl
  have htxid : "txid ".toList.isPrefixOf ("height ".toList ++ body) = false := rfl
  unfold readLine
  rw [htxid, if_neg (by decide), if_pos (by simp), hdrop]

theorem readLine_blockhash (f : ProofFile) (body : List Char) : readLine f ("blockhash ".toList ++ body) =
    (unhexN 32 (String.ofList body)).elim f fun v => { f with blockhash := v, okBh := true } := by
  have hdrop : ("blockhash ".toList ++ body).drop 10 = body := rfl
  have htxid : "txid ".toList.isPrefixOf ("blockhash ".toList ++ body) = false := rfl
  have hheight : "height ".toList.isPrefixOf ("blockhash ".toList ++ body) = false := rfl
  unfold readLine
  rw [htxid, hheight, if_neg (by decide), if_neg (by decide), if_pos (by simp), hdrop]
  cases unhexN 32 (String.ofList body) <;> rfl

theorem readLine_header (f : ProofFile) (body : List Char) : readLine f ("header ".toList ++ body) =
    (unhex (String.ofList body)).elim f fun v =>
      if v.length = headerSize then { f with headerRaw := v, okHdr := true } else f := by
  have hdrop : ("header ".toList ++ body).drop 7 = body := rfl
  have htxid : "txid ".toList.isPrefixOf ("header ".toList ++ body) = false := rfl
  have hheight : "height ".toList.isPrefixOf ("header ".toList ++ body) = false := rfl
  have hhash : "blockhash ".toList.isPrefixOf ("header ".toList ++ body) = false := rfl
  unfold readLine
  rw [htxid, hheight, hhash, if_neg (by decide), if_neg (by decide), if_neg (by decide), if_pos (by simp), hdrop]
  cases unhex (String.ofList body) <;> rfl

theorem readSibling_word (body : List Char) : readSibling ("sibling ".toList ++ body) =
    if 2 < body.length then
      (unhexN 32 (String.ofList (body.drop 2))).map fun v => ⟨v, body.getD 0 ' ' == 'L'⟩
    else none := by
  have hword : "sibling ".toList.length = 8 := rfl
  unfold readSibling
  rw [List.length_append, hword]
  by_cases hlen : 2 < body.length
  · rw [if_pos ⟨by simp, by omega⟩, if_pos hlen]
    rfl
  · rw [if_neg (fun hline => hlen (by omega)), if_neg hlen]

theorem toList_siblingLine (s : MerkleStep) : (siblingLine s).toList =
    "sibling ".toList ++ (if s.left then 'L' else 'R') :: ' ' :: (hexs s.h.toList).toList := by
  unfold siblingLine
  cases s.left <;> simp

theorem readSibling_siblingLine (s : MerkleStep) : readSibling (siblingLine s).toList = some s := by
  have hne : (hexs s.h.toList).toList ≠ [] := hexs_ne_nil (by simp)
  have hlen : 2 < ((if s.left then 'L' else 'R') :: ' ' :: (hexs s.h.toList).toList).length := by
    have hpos := List.length_pos_iff.mpr (hne)
    rw [List.length_cons, List.length_cons]
    omega
  have hdrop : ((if s.left then 'L' else 'R') :: ' ' :: (hexs s.h.toList).toList).drop 2 = (hexs s.h.toList).toList := rfl
  have hside : ((if s.left then 'L' else 'R') :: ' ' :: (hexs s.h.toList).toList).getD 0 ' ' =
      if s.left then 'L' else 'R' := rfl
  rw [toList_siblingLine, readSibling_word, if_pos hlen, hdrop, hside, String.ofList_toList, unhexN_hexs]
  obtain ⟨h, left⟩ := s
  cases left <;> rfl

/-- A line of another kind is left to the reader of siblings. -/
theorem readLine_sibling (f : ProofFile) {line : List Char} (h : "sibling ".toList.isPrefixOf line) :
    readLine f line = { f with steps := f.steps ++ (readSibling line).toList } := by
  obtain ⟨rest, rfl⟩ := List.isPrefixOf_iff_prefix.mp h
  have htxid : "txid ".toList.isPrefixOf ("sibling ".toList ++ rest) = false := rfl
  have hheight : "height ".toList.isPrefixOf ("sibling ".toList ++ rest) = false := rfl
  have hhash : "blockhash ".toList.isPrefixOf ("sibling ".toList ++ rest) = false := rfl
  have hheader : "header ".toList.isPrefixOf ("sibling ".toList ++ rest) = false := rfl
  unfold readLine
  rw [htxid, hheight, hhash, hheader, if_neg (by decide), if_neg (by decide), if_neg (by decide), if_neg (by decide)]
  cases readSibling ("sibling ".toList ++ rest) <;> simp

/-- The siblings are read off the lines one by one. -/
theorem readLine_steps (f : ProofFile) (line : List Char) :
    (readLine f line).steps = f.steps ++ (readSibling line).toList := by
  by_cases h : "sibling ".toList.isPrefixOf line
  · rw [readLine_sibling f h]
  · have hnone : readSibling line = none := if_neg fun hline => h hline.1
    unfold readLine
    rw [hnone]
    simp only [Option.toList_none, List.append_nil]
    split_ifs <;> first | rfl | (split <;> first | rfl | (split_ifs <;> rfl))

theorem readProof_steps (content : List Char) :
    (readProof content).steps = ((lines content).map trimEnd).filterMap readSibling := by
  have hfold : ∀ (ls : List (List Char)) (f : ProofFile),
      (ls.foldl readLine f).steps = f.steps ++ ls.filterMap readSibling := by
    intro ls
    induction ls with
    | nil => intro f; simp
    | cons line rest ih =>
        intro f
        rw [List.foldl_cons, ih, readLine_steps, List.append_assoc, List.filterMap_cons]
        cases readSibling line <;> rfl
  exact hfold _ _

theorem foldl_siblingLines (steps : List MerkleStep) (f : ProofFile) :
    (steps.map fun s => (siblingLine s).toList).foldl readLine f = { f with steps := f.steps ++ steps } := by
  induction steps generalizing f with
  | nil => simp
  | cons s rest ih =>
      have hsibling : "sibling ".toList.isPrefixOf (siblingLine s).toList := by
        rw [toList_siblingLine]
        simp
      rw [List.map_cons, List.foldl_cons, readLine_sibling f hsibling, readSibling_siblingLine, ih]
      simp

/-- The lines of a proof. -/
theorem toList_proofText (txid : H256) (height : UInt64) (index : UInt32) (blockhash : H256) (header : Bytes)
    (steps : List MerkleStep) : (proofText txid height index blockhash header steps).toList =
    (["CHAINLITE-PROOF v1".toList, "txid ".toList ++ (hexs txid.toList).toList,
      "height ".toList ++ (toString height).toList, "index ".toList ++ (toString index).toList,
      "blockhash ".toList ++ (hexs blockhash.toList).toList, "header ".toList ++ (hexs header).toList] ++
      (steps.map fun s => (siblingLine s).toList) ++ ["end".toList]).flatMap (· ++ ['\n']) := by
  rw [proofText, String.toList_join, List.flatMap_map]
  simp only [List.flatMap_append, List.flatMap_cons, List.flatMap_nil, List.flatMap_map, String.toList_append]
  rfl

theorem cleanLine_hexs {front : List Char} (hfront : ∀ c ∈ front, c ≠ '\n') {bytes : Bytes} (h : bytes ≠ []) :
    CleanLine (front ++ (hexs bytes).toList) :=
  cleanLine_append hfront (hexs_ne_nil h) fun _ hc => plain_of_mem_hexs hc

theorem cleanLine_decimal {front : List Char} (hfront : ∀ c ∈ front, c ≠ '\n') (n : Nat) :
    CleanLine (front ++ Nat.toDigits 10 n) :=
  cleanLine_append hfront Nat.toDigits_ne_nil fun _ hc => plain_of_isDigit (isDigit_of_mem_toDigits hc)

theorem cleanLine_siblingLine (s : MerkleStep) : CleanLine (siblingLine s).toList := by
  rw [toList_siblingLine, List.append_cons, List.append_cons]
  refine cleanLine_hexs ?_ (by simp)
  cases s.left <;> simp

/-- **The reader gets back what is written.** -/
theorem readProof_proofText (txid : H256) (height : UInt64) (index : UInt32) (blockhash : H256) {header : Bytes}
    (hlen : header.length = headerSize) (steps : List MerkleStep) :
    readProof (proofText txid height index blockhash header steps).toList =
      { txid := txid, blockhash := blockhash, height := height, headerRaw := header, steps := steps, okHdr := true,
        okTxid := true, okBh := true } := by
  have hheader : header ≠ [] := by
    rintro rfl
    exact absurd hlen (by decide)
  rw [toList_proofText, readProof, lines_unlines]
  · simp only [List.foldl_append, List.foldl_cons, List.foldl_nil, foldl_siblingLines, readLine_txid, readLine_height,
      readLine_blockhash, readLine_header, String.ofList_toList, unhexN_hexs, unhex_hexs, strtoull_toString,
      Option.elim_some, if_pos hlen]
    rfl
  · intro line hmem
    rcases List.mem_append.mp hmem with hmem | hmem
    · rcases List.mem_append.mp hmem with hmem | hmem
      · simp only [List.mem_cons, List.not_mem_nil, or_false] at hmem
        rcases hmem with rfl | rfl | rfl | rfl | rfl | rfl
        · exact ⟨by simp, rfl⟩
        · exact cleanLine_hexs (by simp) (by simp)
        · rw [toList_toString_uint64]
          exact cleanLine_decimal (by simp) _
        · rw [toList_toString_uint32]
          exact cleanLine_decimal (by simp) _
        · exact cleanLine_hexs (by simp) (by simp)
        · exact cleanLine_hexs (by simp) hheader
      · obtain ⟨s, -, rfl⟩ := List.mem_map.mp hmem
        exact cleanLine_siblingLine s
    · rw [List.mem_singleton.mp hmem]
      exact ⟨by simp, rfl⟩

/-! ### What `clctl verify` checks -/

/-- The outcome of the checks that need no node. -/
inductive Verdict where
  | malformed
  | badHeader
  | checked (hash height merkle pow : Bool)
  deriving DecidableEq

variable [Crypto]

/-- `cmd_verify` up to the cross-check with other nodes. -/
def cmdVerify (content : List Char) : Verdict :=
  let f := readProof content
  if !f.okTxid || !f.okBh || !f.okHdr || f.height == UInt64.ofNat (2 ^ 64 - 1) then .malformed
  else
    match BlockHeader.parse f.headerRaw with
    | .error _ => .badHeader
    | .ok (h, _) =>
        .checked (sha256d f.headerRaw == f.blockhash) (h.height == f.height) (merkleApply f.txid f.steps == h.merkle)
          (f.height == 0 || powOk f.blockhash h.bits)

/-- All of the checks succeed. -/
def Passes (content : List Char) : Prop := cmdVerify content = .checked true true true true

/-- What it takes to pass, for a text with the header `h`. -/
theorem passes_iff {content : List Char} {f : ProofFile} (hread : readProof content = f) {h : BlockHeader}
    (hraw : f.headerRaw = h.serialize) :
    Passes content ↔ (f.okTxid ∧ f.okBh ∧ f.okHdr ∧ f.height ≠ UInt64.ofNat (2 ^ 64 - 1)) ∧ h.hash = f.blockhash ∧
      h.height = f.height ∧ merkleApply f.txid f.steps = h.merkle ∧
      (f.height = 0 ∨ powOk f.blockhash h.bits = true) := by
  have hparse : BlockHeader.parse f.headerRaw = .ok (h, []) := by
    have hreads := BlockHeader.parse_reads h []
    rwa [List.append_nil, ← hraw] at hreads
  unfold Passes cmdVerify
  rw [hread]
  dsimp only
  rw [hparse, hraw]
  generalize UInt64.ofNat (2 ^ 64 - 1) = unset
  by_cases hgood : f.okTxid ∧ f.okBh ∧ f.okHdr ∧ f.height ≠ unset
  · obtain ⟨htxid, hbh, hhdr, hheight⟩ := hgood
    rw [if_neg (by simp [htxid, hbh, hhdr, hheight])]
    simp [htxid, hbh, hhdr, hheight, BlockHeader.hash]
  · rw [if_pos (by simp only [not_and_or] at hgood; simpa [or_assoc] using hgood)]
    simp only [reduceCtorEq, false_iff]
    exact fun hall => hgood hall.1

end Chainlite
