import Chainlite.ProofText

/-! The reader of proofs by fields. A line gives at most one field, by the word that it begins with and by what
stands behind the word; the reader keeps the fields in the order of the lines. A line that has been changed in one
character is still of its own kind or of none. -/

open Std

namespace Chainlite

/-- The lines of a proof. -/
inductive LineKind where
  | title
  | txid
  | height
  | index
  | blockhash
  | header
  | sibling
  | last
  deriving DecidableEq

/-- What one line gives. -/
inductive Field where
  | txid (v : H256)
  | height (n : UInt64)
  | blockhash (v : H256)
  | header (v : Bytes)
  | sibling (s : MerkleStep)
  deriving DecidableEq

namespace Field

def kind : Field → LineKind
  | txid _ => .txid
  | height _ => .height
  | blockhash _ => .blockhash
  | header _ => .header
  | sibling _ => .sibling

def put (f : ProofFile) : Field → ProofFile
  | txid v => { f with txid := v, okTxid := true }
  | height n => { f with height := n }
  | blockhash v => { f with blockhash := v, okBh := true }
  | header v => { f with headerRaw := v, okHdr := true }
  | sibling s => { f with steps := f.steps ++ [s] }

end Field

namespace LineKind

/-- The word that a line begins with. -/
def word : LineKind → List Char
  | title => "CHAINLITE-PROOF v1".toList
  | txid => "txid ".toList
  | height => "height ".toList
  | index => "index ".toList
  | blockhash => "blockhash ".toList
  | header => "header ".toList
  | sibling => "sibling ".toList
  | last => "end".toList

/-- What is read behind the word. -/
def read : LineKind → List Char → Option Field
  | txid, body => (unhexN 32 (String.ofList body)).map Field.txid
  | height, body => some (Field.height (strtoull body))
  | blockhash, body => (unhexN 32 (String.ofList body)).map Field.blockhash
  | header, body => (unhex (String.ofList body)).bind fun v => if v.length = headerSize then some (Field.header v) else none
  | sibling, body =>
      if 2 < body.length then
        (unhexN 32 (String.ofList (body.drop 2))).map fun v => Field.sibling ⟨v, body.getD 0 ' ' == 'L'⟩
      else none
  | title, _ => none
  | index, _ => none
  | last, _ => none

/-- The kinds that the reader knows, in the order in which it tries them. -/
def known : List LineKind := [txid, height, blockhash, header, sibling]

theorem kind_of_read {kind : LineKind} {body : List Char} {F : Field} (h : kind.read body = some F) : F.kind = kind := by
  cases kind with
  | title => cases h
  | index => cases h
  | last => cases h
  | height => cases h; rfl
  | txid =>
      obtain ⟨v, -, rfl⟩ := Option.map_eq_some_iff.mp h
      rfl
  | blockhash =>
      obtain ⟨v, -, rfl⟩ := Option.map_eq_some_iff.mp h
      rfl
  | header =>
      obtain ⟨v, -, hv⟩ := Option.bind_eq_some_iff.mp h
      split at hv
      · cases hv; rfl
      · cases hv
  | sibling =>
      rw [read] at h
      split at h
      · obtain ⟨v, -, rfl⟩ := Option.map_eq_some_iff.mp h
        rfl
      · cases h

end LineKind

theorem Field.kind_mem_known (F : Field) : F.kind ∈ LineKind.known := by
  cases F <;> simp [Field.kind, LineKind.known]

/-- What a line gives, without the blanks at its end. -/
def fieldOf (line : List Char) : Option Field :=
  (LineKind.known.find? fun kind => kind.word.isPrefixOf line).bind fun kind => kind.read (line.drop kind.word.length)

theorem fieldOf_word (kind : LineKind) (body : List Char) : fieldOf (kind.word ++ body) = kind.read body := by
  cases kind <;> rfl

theorem fieldOf_unknown {line : List Char} (h : ∀ kind ∈ LineKind.known, ¬kind.word <+: line) : fieldOf line = none := by
  have hnone : (LineKind.known.find? fun kind => kind.word.isPrefixOf line) = none := by
    apply List.find?_eq_none.mpr
    intro kind hkind hword
    exact h kind hkind (List.isPrefixOf_iff_prefix.mp hword)
  rw [fieldOf, hnone]
  rfl

theorem readLine_word (f : ProofFile) {kind : LineKind} (hkind : kind ∈ LineKind.known) (body : List Char) :
    readLine f (kind.word ++ body) = (kind.read body).elim f (Field.put f) := by
  cases kind with
  | title => exact absurd hkind (by decide)
  | index => exact absurd hkind (by decide)
  | last => exact absurd hkind (by decide)
  | txid =>
      show readLine f ("txid ".toList ++ body) = _
      rw [readLine_txid, LineKind.read]
      cases unhexN 32 (String.ofList body) <;> rfl
  | height => exact readLine_height f body
  | blockhash =>
      show readLine f ("blockhash ".toList ++ body) = _
      rw [readLine_blockhash, LineKind.read]
      cases unhexN 32 (String.ofList body) <;> rfl
  | header =>
      show readLine f ("header ".toList ++ body) = _
      rw [readLine_header, LineKind.read]
      cases unhex (String.ofList body) with
      | none => rfl
      | some v =>
          rw [Option.elim_some, Option.bind_some]
          split <;> rfl
  | sibling =>
      show readLine f ("sibling ".toList ++ body) = _
      rw [readLine_sibling f (by simp), readSibling_word, LineKind.read]
      split
      · cases unhexN 32 (String.ofList (body.drop 2)) <;> simp [Field.put]
      · simp

theorem readLine_unknown (f : ProofFile) {line : List Char} (h : ∀ kind ∈ LineKind.known, ¬kind.word <+: line) :
    readLine f line = f := by
  have hword : ∀ kind ∈ LineKind.known, ¬kind.word.isPrefixOf line = true := fun kind hkind hprefix =>
    h kind hkind (List.isPrefixOf_iff_prefix.mp hprefix)
  have htxid : ¬"txid ".toList.isPrefixOf line = true := hword .txid (by decide)
  have hheight : ¬"height ".toList.isPrefixOf line = true := hword .height (by decide)
  have hblockhash : ¬"blockhash ".toList.isPrefixOf line = true := hword .blockhash (by decide)
  have hheader : ¬"header ".toList.isPrefixOf line = true := hword .header (by decide)
  have hsibling : ¬"sibling ".toList.isPrefixOf line = true := hword .sibling (by decide)
  unfold readLine readSibling
  rw [if_neg htxid, if_neg hheight, if_neg hblockhash, if_neg hheader, if_neg fun hline => hsibling hline.1]

/-- The reader keeps what the line gives. -/
theorem readLine_eq (f : ProofFile) (line : List Char) : readLine f line = (fieldOf line).elim f (Field.put f) := by
  by_cases h : ∃ kind ∈ LineKind.known, kind.word <+: line
  · obtain ⟨kind, hkind, body, rfl⟩ := h
    rw [readLine_word f hkind, fieldOf_word]
  · have hnone : ∀ kind ∈ LineKind.known, ¬kind.word <+: line := fun kind hkind hword => h ⟨kind, hkind, hword⟩
    rw [readLine_unknown f hnone, fieldOf_unknown hnone]
    rfl

/-- What a line of a text gives. -/
def field (line : List Char) : Option Field := fieldOf (trimEnd line)

/-- What the lines of a text give, in their order. -/
def fields (content : List Char) : List Field := (lines content).filterMap field

/-- The reader puts together what the lines give. -/
theorem readProof_eq (content : List Char) : readProof content = (fields content).foldl Field.put {} := by
  have hfold : ∀ (ls : List (List Char)) (f : ProofFile),
      (ls.map trimEnd).foldl readLine f = (ls.filterMap field).foldl Field.put f := by
    intro ls
    induction ls with
    | nil => intro f; rfl
    | cons line rest ih =>
        intro f
        rw [List.map_cons, List.foldl_cons, readLine_eq, ih, List.filterMap_cons, field]
        cases fieldOf (trimEnd line) <;> rfl
  exact hfold _ _

/-! ### What has been read -/

/-- The kinds of which a line is asked for. -/
def LineKind.needed : List LineKind := [.txid, .height, .blockhash, .header]

/-- A line of the kind has been read. -/
def ProofFile.Has (f : ProofFile) : LineKind → Prop
  | .txid => f.okTxid = true
  | .height => f.height ≠ UInt64.ofNat (2 ^ 64 - 1)
  | .blockhash => f.okBh = true
  | .header => f.okHdr = true
  | _ => False

theorem has_put {f : ProofFile} {F : Field} {kind : LineKind} (h : (Field.put f F).Has kind) :
    f.Has kind ∨ F.kind = kind := by
  cases F <;> cases kind <;> first | exact Or.inl h | exact Or.inr rfl

theorem has_foldl {L : List Field} {f : ProofFile} {kind : LineKind} (h : (L.foldl Field.put f).Has kind) :
    f.Has kind ∨ ∃ F ∈ L, F.kind = kind := by
  induction L generalizing f with
  | nil => exact Or.inl h
  | cons F L ih =>
      rcases ih h with hput | ⟨F', hF', hkind⟩
      · exact (has_put hput).imp_right fun hkind => ⟨F, List.mem_cons_self, hkind⟩
      · exact Or.inr ⟨F', List.mem_cons_of_mem _ hF', hkind⟩

/-- What has been read was on a line. -/
theorem exists_of_has {content : List Char} {kind : LineKind} (h : (readProof content).Has kind) :
    ∃ F ∈ fields content, F.kind = kind := by
  rw [readProof_eq] at h
  refine (has_foldl h).resolve_left ?_
  cases kind with
  | height => exact fun hne => hne rfl
  | _ => exact nofun

/-! ### Lines and words -/

theorem trimEnd_isPrefix (line : List Char) : trimEnd line <+: line := List.rdropWhile_prefix _ _

theorem trimEnd_append (front back : List Char) :
    trimEnd (front ++ back) = if trimEnd back = [] then trimEnd front else front ++ trimEnd back := by
  unfold trimEnd List.rdropWhile
  rw [List.reverse_append, List.dropWhile_append]
  simp only [List.reverse_eq_nil_iff, List.isEmpty_iff]
  split <;> simp

theorem field_word (kind : LineKind) (body : List Char) :
    field (kind.word ++ body) = if trimEnd body = [] then none else kind.read (trimEnd body) := by
  rw [field, trimEnd_append]
  split
  · cases kind <;> rfl
  · exact fieldOf_word kind _

theorem field_unknown {line : List Char} (h : ∀ kind ∈ LineKind.known, ¬kind.word <+: line) : field line = none :=
  fieldOf_unknown fun kind hkind hword => h kind hkind (hword.trans (trimEnd_isPrefix line))

/-- What a line gives is of the kind of its word. -/
theorem word_of_fieldOf {line : List Char} {F : Field} (h : fieldOf line = some F) : F.kind.word <+: line := by
  obtain ⟨kind, hfind, hread⟩ := Option.bind_eq_some_iff.mp h
  obtain rfl := LineKind.kind_of_read hread
  have hprefix := List.find?_some hfind
  exact List.isPrefixOf_iff_prefix.mp hprefix

theorem word_of_field {line : List Char} {F : Field} (h : field line = some F) : F.kind.word <+: line :=
  (word_of_fieldOf h).trans (trimEnd_isPrefix line)

/-- The number of places in which two texts differ. -/
def mismatches (s s' : List Char) : Nat := (List.zipWith (fun c c' => c != c') s s').count true

theorem mismatches_append_self (s rest : List Char) : mismatches s (s ++ rest) = 0 := by
  induction s with
  | nil => rfl
  | cons c s ih =>
      rw [mismatches, List.cons_append, List.zipWith_cons_cons, List.count_cons, bne_self_eq_false]
      exact ih

theorem mismatches_le_append (s front rest : List Char) : mismatches s front ≤ mismatches s (front ++ rest) := by
  induction front generalizing s with
  | nil => simp [mismatches]
  | cons c front ih =>
      cases s with
      | nil => simp [mismatches]
      | cons x s =>
          unfold mismatches at ih ⊢
          rw [List.cons_append, List.zipWith_cons_cons, List.zipWith_cons_cons, List.count_cons, List.count_cons]
          exact Nat.add_le_add_right (ih s) _

/-- A change in one place counts for one at most. -/
theorem mismatches_edit (s before after : List Char) (old c : Char) :
    mismatches s (before ++ old :: after) ≤ mismatches s (before ++ c :: after) + 1 := by
  induction before generalizing s with
  | nil =>
      cases s with
      | nil => simp [mismatches]
      | cons x s =>
          unfold mismatches
          rw [List.nil_append, List.nil_append, List.zipWith_cons_cons, List.zipWith_cons_cons, List.count_cons,
            List.count_cons]
          split <;> split <;> omega
  | cons y before ih =>
      cases s with
      | nil => simp [mismatches]
      | cons x s =>
          have htail := ih s
          unfold mismatches at htail ⊢
          rw [List.cons_append, List.cons_append, List.zipWith_cons_cons, List.zipWith_cons_cons, List.count_cons,
            List.count_cons]
          omega

/-- Two words differ in more than one place. -/
theorem two_le_mismatches {kind kind' : LineKind} (hkind : kind ∈ LineKind.known) (hne : kind ≠ kind') :
    2 ≤ mismatches kind.word kind'.word := by
  have hall : ∀ kind ∈ LineKind.known, ∀ kind' ∈ [LineKind.title, .txid, .height, .index, .blockhash, .header,
      .sibling, .last], kind ≠ kind' → 2 ≤ mismatches kind.word kind'.word := by decide
  exact hall kind hkind kind' (by cases kind' <;> decide) hne

/-- A line changed in one place has no other word than its own. -/
theorem word_of_edit {kind kind' : LineKind} (hkind : kind ∈ LineKind.known) {body before after : List Char}
    {old c : Char} (hline : kind'.word ++ body = before ++ old :: after)
    (hword : kind.word <+: before ++ c :: after) : kind = kind' := by
  by_contra hne
  have hzero : mismatches kind.word (before ++ c :: after) = 0 := by
    obtain ⟨rest, hrest⟩ := hword
    rw [← hrest]
    exact mismatches_append_self _ _
  have htwo := calc 2
      _ ≤ mismatches kind.word kind'.word := two_le_mismatches hkind hne
      _ ≤ mismatches kind.word (before ++ old :: after) := hline ▸ mismatches_le_append _ _ _
      _ ≤ mismatches kind.word (before ++ c :: after) + 1 := mismatches_edit _ _ _ _ _
  omega

/-- The word does not stand any more once it has been changed in one place. -/
theorem length_word_le_of_edit {word before after : List Char} {old c : Char} (hold : word <+: before ++ old :: after)
    (hnew : word <+: before ++ c :: after) (hc : c ≠ old) : word.length ≤ before.length := by
  by_contra hlt
  have hlen := Nat.not_le.mp hlt
  have hget : ∀ x, word <+: before ++ x :: after → word[before.length] = x := by
    intro x hword
    have hsome := List.prefix_iff_getElem?.mp hword before.length hlen
    simpa using hsome.symm
  exact hc ((hget c hnew).symm.trans (hget old hold))

theorem field_edit_word {kind : LineKind} {body before after : List Char} {old c : Char}
    (hline : kind.word ++ body = before ++ old :: after) (hlt : before.length < kind.word.length) (hc : c ≠ old) :
    field (before ++ c :: after) = none := by
  apply field_unknown
  intro kind' hkind hword
  obtain rfl := word_of_edit hkind hline hword
  have hle := length_word_le_of_edit (hline ▸ List.prefix_append _ _) hword hc
  omega

theorem field_cut_word {kind : LineKind} {body before after : List Char} {old : Char}
    (hline : kind.word ++ body = before ++ old :: after) (hlt : before.length < kind.word.length) :
    field before = none := by
  apply field_unknown
  intro kind' hkind hword
  obtain rfl := word_of_edit hkind hline (hword.trans (List.prefix_append before (old :: after)))
  have hle := hword.length_le
  omega

/-- No word begins inside another one. -/
theorem mismatches_drop_pos {kind kind' : LineKind} (hkind : kind ∈ LineKind.known) {start : Nat} (hpos : 0 < start)
    (hlt : start < kind'.word.length) : 0 < mismatches kind.word (kind'.word.drop start) := by
  have hall : ∀ kind ∈ LineKind.known, ∀ kind' ∈ [LineKind.title, .txid, .height, .index, .blockhash, .header,
      .sibling, .last], ∀ start < kind'.word.length, 0 < start → 0 < mismatches kind.word (kind'.word.drop start) := by
    decide
  exact hall kind hkind kind' (by cases kind' <;> decide) start hlt hpos

/-- No word begins anywhere in the text. -/
def Wordless (body : List Char) : Prop := ∀ s, s <:+ body → ∀ kind ∈ LineKind.known, ¬kind.word <+: s

theorem wordless_of_no_blank {body : List Char} (h : ∀ c ∈ body, c ≠ ' ') : Wordless body := by
  intro s hs kind hkind hword
  have hblank : ' ' ∈ kind.word := by
    revert hkind
    cases kind <;> decide
  exact h ' ' (hs.subset (hword.subset hblank)) rfl

theorem Wordless.cons {body : List Char} (h : Wordless body) {c : Char}
    (hc : ∀ kind ∈ LineKind.known, kind.word.head? ≠ some c) : Wordless (c :: body) := by
  intro s hs kind hkind hword
  rcases List.suffix_cons_iff.mp hs with rfl | hs
  · obtain ⟨rest, hrest⟩ := hword
    have hne : kind.word ≠ [] := by cases kind <;> decide
    obtain ⟨x, word, hx⟩ := List.exists_cons_of_ne_nil hne
    rw [hx] at hrest
    obtain ⟨rfl, -⟩ := List.cons.inj hrest
    exact hc kind hkind (by rw [hx]; rfl)
  · exact h s hs kind hkind hword

/-- The rest of a line that is broken is not read. -/
theorem field_after {kind : LineKind} {body before after : List Char} {old : Char} (hbody : Wordless body)
    (hline : kind.word ++ body = before ++ old :: after) : field after = none := by
  apply field_unknown
  intro kind' hkind hword
  have hafter : after = (kind.word ++ body).drop (before.length + 1) := by
    rw [hline, ← List.drop_drop, List.drop_left]
    rfl
  rcases Nat.lt_or_ge (before.length + 1) kind.word.length with hlt | hge
  · have hpos := mismatches_drop_pos hkind (Nat.zero_lt_of_lt (Nat.lt_add_one before.length)) hlt
    have hle := mismatches_le_append kind'.word (kind.word.drop (before.length + 1)) body
    rw [← List.drop_append_of_le_length hlt.le, ← hafter] at hle
    obtain ⟨rest, hrest⟩ := hword
    rw [← hrest, mismatches_append_self] at hle
    omega
  · rw [List.drop_append, List.drop_eq_nil_of_le hge, List.nil_append] at hafter
    exact hbody after (hafter ▸ List.drop_suffix _ _) kind' hkind hword

end Chainlite
