import Chainlite.ProofDecimal

/-! Changes of one character in a proof, line by line. What a line gives is bound by its word and by the value of
what stands behind it: within a line a change is noticed unless it is in a part that the reader skips or writes a
hexadecimal digit in the other case. -/

open Std

namespace Chainlite

/-! ### Lines as they are written -/

/-- A line of a proof: what stands behind its word, and what the line gives. -/
inductive Written : LineKind → List Char → Option Field → Prop where
  | title : Written .title [] none
  | txid (v : H256) : Written .txid (hexs v.toList).toList (some (.txid v))
  | height {n : UInt64} (hpos : 0 < n.toNat) (hlt : n.toNat < 2 ^ 32) :
      Written .height (Nat.toDigits 10 n.toNat) (some (.height n))
  | index (i : Nat) : Written .index (Nat.toDigits 10 i) none
  | blockhash (v : H256) : Written .blockhash (hexs v.toList).toList (some (.blockhash v))
  | header {v : Bytes} (hlen : v.length = headerSize) : Written .header (hexs v).toList (some (.header v))
  | sibling (s : MerkleStep) :
      Written .sibling ((if s.left then 'L' else 'R') :: ' ' :: (hexs s.h.toList).toList) (some (.sibling s))
  | last : Written .last [] none

/-- The changes of a character, other than a line break, that leave what the line gives. -/
def Skipped (kind : LineKind) (col : Nat) (old c : Char) : Prop :=
  match kind with
  | .title | .index | .last => True
  | .height => False
  | .txid | .blockhash | .header => kind.word.length ≤ col ∧ hexval c = hexval old
  | .sibling =>
      (col = 8 ∧ old = 'R' ∧ c ≠ 'L' ∧ c ≠ '\n') ∨ (col = 9 ∧ c ≠ '\n') ∨ (10 ≤ col ∧ hexval c = hexval old)

/-! ### Hexadecimal -/

theorem unhexN_eq_some_iff {n : Nat} {s : String} {v : Vector UInt8 n} : unhexN n s = some v ↔ unhex s = some v.toList := by
  constructor
  · intro h
    unfold unhexN at h
    cases hread : unhex s with
    | none => rw [hread] at h; cases h
    | some bytes =>
        rw [hread] at h
        dsimp only at h
        split at h
        · cases h
          simp
        · cases h
  · intro h
    rw [unhexN, h]
    simp [Vector.toList]

theorem hexval_ne_none_of_mem {bytes : Bytes} {c : Char} (h : c ∈ (hexs bytes).toList) : hexval c ≠ none := by
  rw [hexs, String.toList_ofList] at h
  obtain ⟨byte, -, hc⟩ := List.mem_flatMap.mp h
  rcases List.mem_cons.mp hc with rfl | hc
  · rw [hexval_hexDigit _ (high_digit_lt byte)]
    exact Option.some_ne_none _
  · rw [List.mem_singleton.mp hc, hexval_hexDigit _ (low_digit_lt byte)]
    exact Option.some_ne_none _

/-- Text that is cut at its end gives the bytes only if nothing has been cut. -/
theorem unhex_trimEnd_iff {s : List Char} {bytes : Bytes} (hlen : s.length ≤ 2 * bytes.length) :
    unhex (String.ofList (trimEnd s)) = some bytes ↔ s.map hexval = (hexs bytes).toList.map hexval := by
  rw [unhex, String.toList_ofList, unhexChars_eq_some_iff]
  constructor
  · intro h
    have hcount := congrArg List.length h
    rw [List.length_map, List.length_map, length_hexs] at hcount
    have htrim : trimEnd s = s := (trimEnd_isPrefix s).eq_of_length_le (by omega)
    rwa [htrim] at h
  · intro h
    have htrim : trimEnd s = s := by
      refine List.rdropWhile_eq_self_iff.mpr fun hne hlast => ?_
      have hmem : hexval (s.getLast hne) ∈ (hexs bytes).toList.map hexval := h ▸ List.mem_map_of_mem (List.getLast_mem hne)
      obtain ⟨digit, hdigit, hval⟩ := List.mem_map.mp hmem
      apply hexval_ne_none_of_mem hdigit
      rw [hval]
      rcases Bool.or_eq_true_iff.mp hlast with hcr | hblank
      · rw [eq_of_beq hcr]
        rfl
      · rw [eq_of_beq hblank]
        rfl
    rw [htrim]
    exact h

theorem unhex_trimEnd_hexs (bytes : Bytes) : unhex (String.ofList (trimEnd (hexs bytes).toList)) = some bytes :=
  (unhex_trimEnd_iff (length_hexs bytes).le).mpr rfl

section

variable {bytes : Bytes} {front after : List Char} {old : Char} (h : (hexs bytes).toList = front ++ old :: after)
include h

theorem unhex_edit_iff (c : Char) :
    unhex (String.ofList (trimEnd (front ++ c :: after))) = some bytes ↔ hexval c = hexval old := by
  have hlen := length_hexs bytes
  rw [h] at hlen
  rw [unhex_trimEnd_iff (by simpa using hlen.le), h]
  simp

theorem unhex_cut_ne : unhex (String.ofList (trimEnd front)) ≠ some bytes := by
  have hlen := length_hexs bytes
  rw [h, List.length_append, List.length_cons] at hlen
  intro hread
  have hcount := congrArg List.length ((unhex_trimEnd_iff (by omega)).mp hread)
  rw [List.length_map, List.length_map, length_hexs] at hcount
  omega

theorem hexval_break_ne : hexval '\n' ≠ hexval old := by
  have hmem : old ∈ (hexs bytes).toList := h ▸ List.mem_append_right _ List.mem_cons_self
  exact fun heq => hexval_ne_none_of_mem hmem heq.symm

end

theorem unhex_join_ne {bytes bytes' : Bytes} (hlen : bytes'.length = bytes.length) (c : Char) {next : List Char}
    (hne : next ≠ []) (htrim : trimEnd next = next) :
    unhex (String.ofList (trimEnd ((hexs bytes).toList ++ c :: next))) ≠ some bytes' := by
  have hwhole : trimEnd ((hexs bytes).toList ++ c :: next) = (hexs bytes).toList ++ c :: next := by
    rw [List.append_cons, trimEnd_append, htrim, if_neg hne]
  intro hread
  rw [hwhole, unhex, String.toList_ofList, unhexChars_eq_some_iff] at hread
  have hcount := congrArg List.length hread
  rw [List.length_map, List.length_map, List.length_append, List.length_cons, length_hexs, length_hexs, hlen] at hcount
  omega

/-! ### What a line gives -/

theorem kind_of_field {kind : LineKind} {body : List Char} {F : Field} (h : field (kind.word ++ body) = some F) :
    F.kind = kind := by
  rw [field_word] at h
  split at h
  · cases h
  · exact LineKind.kind_of_read h

theorem unhex_nil_ne {v : Bytes} (hne : v ≠ []) : unhex (String.ofList []) ≠ some v := by
  rintro ⟨⟩
  exact hne rfl

theorem field_vector_iff {kind : LineKind} {f : H256 → Field} (hf : Function.Injective f)
    (hread : ∀ body, kind.read body = (unhexN 32 (String.ofList body)).map f) {body : List Char} {v : H256} :
    field (kind.word ++ body) = some (f v) ↔ unhex (String.ofList (trimEnd body)) = some v.toList := by
  rw [field_word]
  split
  · rename_i hnil
    rw [hnil]
    exact iff_of_false (by simp) (unhex_nil_ne (by simp))
  · rw [hread, ← unhexN_eq_some_iff, Option.map_eq_some_iff]
    exact ⟨fun ⟨w, hw, heq⟩ => hf heq ▸ hw, fun hv => ⟨v, hv, rfl⟩⟩

theorem field_txid_iff {body : List Char} {v : H256} :
    field (LineKind.txid.word ++ body) = some (.txid v) ↔ unhex (String.ofList (trimEnd body)) = some v.toList :=
  field_vector_iff (fun _ _ => Field.txid.inj) fun _ => rfl

theorem field_blockhash_iff {body : List Char} {v : H256} : field (LineKind.blockhash.word ++ body) = some (.blockhash v) ↔
    unhex (String.ofList (trimEnd body)) = some v.toList :=
  field_vector_iff (fun _ _ => Field.blockhash.inj) fun _ => rfl

theorem field_header_iff {body : List Char} {v : Bytes} : field (LineKind.header.word ++ body) = some (.header v) ↔
    unhex (String.ofList (trimEnd body)) = some v ∧ v.length = headerSize := by
  rw [field_word]
  split
  · rename_i hnil
    rw [hnil]
    refine iff_of_false (by simp) ?_
    rintro ⟨⟨⟩, hlen⟩
    exact absurd hlen (by decide)
  · rw [LineKind.read, Option.bind_eq_some_iff]
    constructor
    · rintro ⟨w, hw, heq⟩
      split at heq
      · rename_i hlen
        cases heq
        exact ⟨hw, hlen⟩
      · cases heq
    · rintro ⟨hv, hlen⟩
      exact ⟨v, hv, if_pos hlen⟩

theorem field_sibling_iff {side blank : Char} {body : List Char} {s : MerkleStep} :
    field (LineKind.sibling.word ++ side :: blank :: body) = some (.sibling s) ↔
      unhex (String.ofList (trimEnd body)) = some s.h.toList ∧ (side == 'L') = s.left := by
  have hsplit : side :: blank :: body = [side, blank] ++ body := rfl
  by_cases hnil : trimEnd body = []
  · have hshort : (trimEnd [side, blank]).length ≤ 2 := (trimEnd_isPrefix _).length_le
    rw [field_word, hsplit, trimEnd_append, if_pos hnil, hnil, LineKind.read, if_neg (Nat.not_lt.mpr hshort)]
    exact iff_of_false (by simp) fun h => unhex_nil_ne (by simp) h.1
  · have hlong : 2 < ([side, blank] ++ trimEnd body).length := by
      have hpos := List.length_pos_iff.mpr hnil
      simpa using hpos
    rw [field_word, hsplit, trimEnd_append, if_neg hnil, if_neg (by simp), LineKind.read, if_pos hlong,
      ← unhexN_eq_some_iff, Option.map_eq_some_iff]
    constructor
    · rintro ⟨v, hv, heq⟩
      cases heq
      exact ⟨hv, rfl⟩
    · rintro ⟨hv, hside⟩
      refine ⟨s.h, hv, ?_⟩
      obtain ⟨h, left⟩ := s
      exact congrArg (fun l => Field.sibling ⟨h, l⟩) hside

theorem left_of_field {side : Char} {rest : List Char} {s : MerkleStep}
    (h : field (LineKind.sibling.word ++ side :: rest) = some (.sibling s)) : s.left = (side == 'L') := by
  rw [field_word] at h
  split at h
  · cases h
  · rename_i hne
    obtain ⟨x, tail, hx⟩ := List.exists_cons_of_ne_nil hne
    have hprefix := trimEnd_isPrefix (side :: rest)
    rw [hx] at hprefix h
    obtain ⟨rfl, -⟩ := List.cons_prefix_cons.mp hprefix
    rw [LineKind.read] at h
    split at h
    · obtain ⟨v, -, heq⟩ := Option.map_eq_some_iff.mp h
      cases heq
      rfl
    · cases h

theorem field_height_eq (body : List Char) : field (LineKind.height.word ++ body) =
    if trimEnd body = [] then none else some (.height (strtoull (trimEnd body))) := field_word .height body

theorem field_index_eq (body : List Char) : field (LineKind.index.word ++ body) = none := by
  rw [field_word]
  split <;> rfl

/-! ### A line that has been changed -/

theorem word_no_break (kind : LineKind) : ∀ c ∈ kind.word, c ≠ '\n' := by
  have hnot : '\n' ∉ kind.word := by cases kind <;> decide
  rintro c hc rfl
  exact hnot hc

theorem split_word {word body before after : List Char} {old : Char} (h : word ++ body = before ++ old :: after) :
    before.length < word.length ∨ ∃ front, before = word ++ front ∧ body = front ++ old :: after := by
  rcases List.append_eq_append_iff.mp h with ⟨front, hbefore, hbody⟩ | ⟨rest, hword, hrest⟩
  · exact Or.inr ⟨front, hbefore, hbody⟩
  · cases rest with
    | nil => exact Or.inr ⟨[], by simpa using hword.symm, hrest.symm⟩
    | cons x rest =>
        left
        rw [hword]
        simp

/-- Of a sibling line the digits count, and whether the side is an `L`. -/
theorem sibling_edit_iff {s : MerkleStep} {front after : List Char} {old c : Char}
    (hbody : (if s.left then 'L' else 'R') :: ' ' :: (hexs s.h.toList).toList = front ++ old :: after) (hc : c ≠ old)
    (hbreak : c ≠ '\n') : field (LineKind.sibling.word ++ (front ++ c :: after)) = some (.sibling s) ↔
      Skipped .sibling (8 + front.length) old c := by
  have hsame := unhex_trimEnd_hexs s.h.toList
  have hown : ((if s.left then 'L' else 'R') == 'L') = s.left := by cases s.left <;> rfl
  match front with
  | [] =>
      obtain ⟨rfl, rfl⟩ := List.cons.inj hbody
      rw [List.nil_append, field_sibling_iff, and_iff_right hsame]
      cases hleft : s.left with
      | true =>
          rw [hleft, if_pos rfl] at hc
          simp [Skipped, hc]
      | false => simp [Skipped, hbreak]
  | [side] =>
      obtain ⟨rfl, hrest⟩ := List.cons.inj hbody
      obtain ⟨rfl, rfl⟩ := List.cons.inj hrest
      rw [List.singleton_append, field_sibling_iff, and_iff_right hsame]
      exact iff_of_true hown (Or.inr (Or.inl ⟨rfl, hbreak⟩))
  | side :: blank :: front =>
      obtain ⟨rfl, hrest⟩ := List.cons.inj hbody
      obtain ⟨-, hhex⟩ := List.cons.inj hrest
      rw [List.cons_append, List.cons_append, field_sibling_iff, unhex_edit_iff hhex, and_iff_left hown]
      constructor
      · intro hval
        exact Or.inr (Or.inr ⟨by rw [List.length_cons, List.length_cons]; omega, hval⟩)
      · rintro (⟨hcol, -⟩ | ⟨hcol, -⟩ | ⟨-, hval⟩)
        · rw [List.length_cons, List.length_cons] at hcol
          omega
        · rw [List.length_cons, List.length_cons] at hcol
          omega
        · exact hval

/-- A sibling line that is broken gives no sibling. -/
theorem sibling_cut_ne {s : MerkleStep} {front after : List Char} {old : Char}
    (hbody : (if s.left then 'L' else 'R') :: ' ' :: (hexs s.h.toList).toList = front ++ old :: after) :
    field (LineKind.sibling.word ++ front) ≠ some (.sibling s) := by
  match front with
  | [] =>
      have hnone : field (LineKind.sibling.word ++ []) = none := rfl
      rw [hnone]
      simp
  | [side] =>
      have hshort : (trimEnd [side]).length ≤ 1 := (trimEnd_isPrefix _).length_le
      rw [field_word, LineKind.read, if_neg (show ¬2 < (trimEnd [side]).length by omega), ite_self]
      simp
  | side :: blank :: front =>
      obtain ⟨-, hrest⟩ := List.cons.inj hbody
      obtain ⟨-, hhex⟩ := List.cons.inj hrest
      rw [Ne, field_sibling_iff]
      exact fun hread => unhex_cut_ne hhex hread.1

namespace Written

variable {kind : LineKind} {body : List Char} {F : Option Field}

theorem clean (h : Written kind body F) : CleanLine (kind.word ++ body) := by
  have hword := word_no_break kind
  cases h with
  | title => exact ⟨by simpa using hword, rfl⟩
  | last => exact ⟨by simpa using hword, rfl⟩
  | txid v => exact cleanLine_hexs hword (by simp)
  | blockhash v => exact cleanLine_hexs hword (by simp)
  | header hlen =>
      refine cleanLine_hexs hword ?_
      rintro rfl
      exact absurd hlen (by decide)
  | height hpos hlt => exact cleanLine_decimal hword _
  | index i => exact cleanLine_decimal hword _
  | sibling s =>
      rw [List.append_cons, List.append_cons]
      refine cleanLine_hexs ?_ (by simp)
      intro c hc
      rw [List.append_assoc, List.mem_append] at hc
      rcases hc with hc | hc
      · exact hword c hc
      · revert hc c
        cases s.left <;> simp

theorem wordless (h : Written kind body F) : Wordless body := by
  have hhex : ∀ bytes : Bytes, Wordless (hexs bytes).toList := fun bytes =>
    wordless_of_no_blank fun c hc => (plain_of_mem_hexs hc).2.2
  have hdecimal : ∀ n, Wordless (Nat.toDigits 10 n) := fun n =>
    wordless_of_no_blank fun c hc => (plain_of_isDigit (isDigit_of_mem_toDigits hc)).2.2
  cases h with
  | title => exact wordless_of_no_blank (by simp)
  | last => exact wordless_of_no_blank (by simp)
  | txid v => exact hhex _
  | blockhash v => exact hhex _
  | header hlen => exact hhex _
  | height hpos hlt => exact hdecimal _
  | index i => exact hdecimal _
  | sibling s =>
      refine ((hhex _).cons ?_).cons ?_
      · decide
      · cases s.left <;> decide

/-- The line gives what was written. -/
theorem field_eq (h : Written kind body F) : field (kind.word ++ body) = F := by
  cases h with
  | title => rfl
  | last => rfl
  | txid v => exact field_txid_iff.mpr (unhex_trimEnd_hexs _)
  | blockhash v => exact field_blockhash_iff.mpr (unhex_trimEnd_hexs _)
  | header hlen => exact field_header_iff.mpr ⟨unhex_trimEnd_hexs _, hlen⟩
  | height hpos hlt =>
      rename_i n
      have htrim : trimEnd (Nat.toDigits 10 n.toNat) = Nat.toDigits 10 n.toNat :=
        trimEnd_digits fun c => isDigit_of_mem_toDigits
      rw [field_height_eq, htrim, if_neg Nat.toDigits_ne_nil, ← toList_toString_uint64, strtoull_toString]
  | index i => exact field_index_eq _
  | sibling s =>
      refine field_sibling_iff.mpr ⟨unhex_trimEnd_hexs _, ?_⟩
      cases s.left <;> rfl

/-- Only lines that give nothing may change in their words. -/
theorem word_iff (h : Written kind body F) {col : Nat} (hlt : col < kind.word.length) (old c : Char) :
    none = F ↔ Skipped kind col old c := by
  cases h with
  | title => exact iff_of_true rfl trivial
  | index i => exact iff_of_true rfl trivial
  | last => exact iff_of_true rfl trivial
  | height hpos hlt => exact iff_of_false (by simp) id
  | txid v => exact iff_of_false (by simp) fun hskip => Nat.not_le.mpr hlt hskip.1
  | blockhash v => exact iff_of_false (by simp) fun hskip => Nat.not_le.mpr hlt hskip.1
  | header hlen => exact iff_of_false (by simp) fun hskip => Nat.not_le.mpr hlt hskip.1
  | sibling s =>
      have hlt : col < 8 := hlt
      refine iff_of_false (by simp) ?_
      rintro (⟨rfl, -⟩ | ⟨rfl, -⟩ | ⟨hle, -⟩) <;> omega

/-- **A change within a line is noticed unless it is skipped.** -/
theorem edit_iff (h : Written kind body F) {before after : List Char} {old c : Char}
    (hline : kind.word ++ body = before ++ old :: after) (hc : c ≠ old) (hbreak : c ≠ '\n') :
    field (before ++ c :: after) = F ↔ Skipped kind before.length old c := by
  rcases split_word hline with hlt | ⟨front, rfl, hbody⟩
  · rw [field_edit_word hline hlt hc]
    exact h.word_iff hlt old c
  · have hle : kind.word.length ≤ (kind.word ++ front).length := by simp
    rw [List.append_assoc]
    cases h with
    | title => simp at hbody
    | last => simp at hbody
    | index i => exact iff_of_true (field_index_eq _) trivial
    | txid v =>
        rw [field_txid_iff, unhex_edit_iff hbody]
        exact (and_iff_right hle).symm
    | blockhash v =>
        rw [field_blockhash_iff, unhex_edit_iff hbody]
        exact (and_iff_right hle).symm
    | header hlen =>
        rw [field_header_iff, and_iff_left hlen, unhex_edit_iff hbody]
        exact (and_iff_right hle).symm
    | height hpos hlt =>
        refine iff_of_false (fun heq => ?_) id
        rw [field_height_eq] at heq
        split at heq
        · cases heq
        · have hread : strtoull (trimEnd (front ++ c :: after)) = _ := Field.height.inj (Option.some.inj heq)
          exact strtoull_edit_ne hpos hlt hbody hc hread
    | sibling s =>
        have hcol : (LineKind.sibling.word ++ front).length = 8 + front.length := List.length_append
        rw [hcol]
        exact sibling_edit_iff hbody hc hbreak

/-- **A line that is broken gives nothing any more**, if it gave something. -/
theorem cut_iff (h : Written kind body F) {before after : List Char} {old : Char}
    (hline : kind.word ++ body = before ++ old :: after) : field before = F ↔ Skipped kind before.length old '\n' := by
  rcases split_word hline with hlt | ⟨front, rfl, hbody⟩
  · rw [field_cut_word hline hlt]
    exact h.word_iff hlt old '\n'
  · cases h with
    | title => simp at hbody
    | last => simp at hbody
    | index i => exact iff_of_true (field_index_eq _) trivial
    | txid v =>
        rw [field_txid_iff]
        exact iff_of_false (unhex_cut_ne hbody) fun hskip => hexval_break_ne hbody hskip.2
    | blockhash v =>
        rw [field_blockhash_iff]
        exact iff_of_false (unhex_cut_ne hbody) fun hskip => hexval_break_ne hbody hskip.2
    | header hlen =>
        rw [field_header_iff, and_iff_left hlen]
        exact iff_of_false (unhex_cut_ne hbody) fun hskip => hexval_break_ne hbody hskip.2
    | height hpos hlt =>
        refine iff_of_false (fun heq => ?_) id
        have htrim : trimEnd front = front := trimEnd_digits (digits_of_split hbody).1
        rw [field_height_eq, htrim] at heq
        split at heq
        · cases heq
        · rename_i hne
          exact strtoull_front_ne hpos hbody hne (Field.height.inj (Option.some.inj heq))
    | sibling s =>
        refine iff_of_false (sibling_cut_ne hbody) ?_
        rintro (⟨-, -, -, hbreak⟩ | ⟨-, hbreak⟩ | ⟨hcol, hval⟩)
        · exact hbreak rfl
        · exact hbreak rfl
        · match front with
          | [] => exact absurd hcol (by decide)
          | [side] => exact absurd hcol (show ¬10 ≤ 8 + 1 by decide)
          | side :: blank :: front =>
              obtain ⟨-, hrest⟩ := List.cons.inj hbody
              obtain ⟨-, hhex⟩ := List.cons.inj hrest
              exact hexval_break_ne hhex hval

/-- The side of a sibling line changes in its own place only. -/
theorem left_of_edit {s s' : MerkleStep} (h : Written .sibling body (some (.sibling s))) {before after : List Char}
    {old c : Char} (hline : LineKind.sibling.word ++ body = before ++ old :: after) (hc : c ≠ old)
    (hedit : field (before ++ c :: after) = some (.sibling s')) : before.length = 8 ∨ s'.left = s.left := by
  rcases split_word hline with hlt | ⟨front, rfl, hbody⟩
  · rw [field_edit_word hline hlt hc] at hedit
    cases hedit
  · cases front with
    | nil => exact Or.inl rfl
    | cons side front =>
        right
        cases h
        obtain ⟨rfl, -⟩ := List.cons.inj hbody
        rw [List.append_assoc, List.cons_append] at hedit
        rw [left_of_field hedit]
        cases s.left <;> rfl

theorem left_of_cut {s s' : MerkleStep} (h : Written .sibling body (some (.sibling s))) {before after : List Char}
    {old : Char} (hline : LineKind.sibling.word ++ body = before ++ old :: after)
    (hcut : field before = some (.sibling s')) : s'.left = s.left := by
  rcases split_word hline with hlt | ⟨front, rfl, hbody⟩
  · rw [field_cut_word hline hlt] at hcut
    cases hcut
  · cases front with
    | nil => cases hcut
    | cons side front =>
        cases h
        obtain ⟨rfl, -⟩ := List.cons.inj hbody
        rw [left_of_field hcut]
        cases s.left <;> rfl

/-- The side of a sibling line, changed in its own place. -/
theorem field_turn {s : MerkleStep} (h : Written .sibling body (some (.sibling s))) {before after : List Char}
    {old : Char} (hline : LineKind.sibling.word ++ body = before ++ old :: after) (hlen : before.length = 8) (c : Char) :
    old = (if s.left then 'L' else 'R') ∧ field (before ++ c :: after) = some (.sibling ⟨s.h, c == 'L'⟩) := by
  rcases split_word hline with hlt | ⟨front, rfl, hbody⟩
  · exact absurd hlen hlt.ne
  · have hnil : front = [] := by
      rw [List.length_append] at hlen
      exact List.length_eq_zero_iff.mp (Nat.add_left_cancel (n := 8) hlen)
    subst hnil
    cases h
    obtain ⟨rfl, rfl⟩ := List.cons.inj hbody
    refine ⟨rfl, ?_⟩
    rw [List.append_nil, field_sibling_iff]
    exact ⟨unhex_trimEnd_hexs _, rfl⟩

/-- A line that is joined with the next one gives nothing, if its word is not `height`. -/
theorem join_eq_none (h : Written kind body F) (hkind : kind ≠ .height) (c : Char) {next : List Char}
    (hne : next ≠ []) (htrim : trimEnd next = next) : field (kind.word ++ (body ++ c :: next)) = none := by
  refine Option.eq_none_iff_forall_ne_some.mpr fun F' hF => ?_
  have hsame := kind_of_field hF
  cases h with
  | title => cases F' <;> cases hsame
  | index i => cases F' <;> cases hsame
  | last => cases F' <;> cases hsame
  | height hpos hlt => exact hkind rfl
  | txid v =>
      cases F' <;> cases hsame
      exact unhex_join_ne (by simp) c hne htrim (field_txid_iff.mp hF)
  | blockhash v =>
      cases F' <;> cases hsame
      exact unhex_join_ne (by simp) c hne htrim (field_blockhash_iff.mp hF)
  | header hlen =>
      cases F' <;> cases hsame
      obtain ⟨hread, hlen'⟩ := field_header_iff.mp hF
      exact unhex_join_ne (hlen'.trans hlen.symm) c hne htrim hread
  | sibling s =>
      cases F' <;> cases hsame
      exact unhex_join_ne (by simp) c hne htrim (field_sibling_iff.mp hF).1

/-- The number on a line that is joined with the next one. -/
theorem field_join_height {n : UInt64} (c : Char) {next : List Char} (hne : next ≠ []) (htrim : trimEnd next = next) :
    field (LineKind.height.word ++ (Nat.toDigits 10 n.toNat ++ c :: next)) =
      some (.height (strtoull (Nat.toDigits 10 n.toNat ++ c :: next))) := by
  rw [field_height_eq, List.append_cons, trimEnd_append, htrim, if_neg hne, if_neg (by simp)]

end Written

end Chainlite
