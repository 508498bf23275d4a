import Chainlite.ProofEdit
import Chainlite.ViewerLines

/-! Texts that both verifiers read alike. Where the lines that count can be read by both, the browser and `clctl` keep the
same values and the same siblings; and a proof that a node writes is such a text. -/

namespace Chainlite

open Script (isBlank trim splitBlanks parseInt)

/-! ### Lines that both can read -/

/-- What stands behind the word on such a line: as many hexadecimal digits as the value has, those of the block hash in
lower case; a number that is not the greatest one, and that is zero for both or for neither; a side and a hash with one
blank between them, the side and the blank being one byte each. -/
inductive Legible : LineKind → List Char → Prop
  | txid {body : List Char} (v : H256) (h : unhexChars body = some v.toList) : Legible .txid body
  | height {body : List Char} (hne : body ≠ []) (hend : ∀ c ∈ body.getLast?, isBlank c = false)
      (hmax : strtoull body ≠ UInt64.ofNat (2 ^ 64 - 1)) (hzero : parseInt false body = some 0 ↔ strtoull body = 0) :
      Legible .height body
  | blockhash (v : H256) : Legible .blockhash (hexs v.toList).toList
  | header {body : List Char} {raw : Bytes} (hlen : raw.length = headerSize) (h : unhexChars body = some raw) :
      Legible .header body
  | sibling {side blank : Char} {body : List Char} (v : H256) (hside : side.toNat < 128 ∧ isBlank side = false)
      (hblank : blank.toNat < 128 ∧ isBlank blank = true) (h : unhexChars body = some v.toList) :
      Legible .sibling (side :: blank :: body)

/-- The word comes first, and only blanks and carriage returns follow. -/
def LegibleLine (kind : LineKind) (line : List Char) : Prop :=
  ∃ body tail, line = kind.word ++ body ++ tail ∧ (∀ c ∈ tail, c = '\r' ∨ c = ' ') ∧ Legible kind body

/-- One of the verifiers takes the line for one of the kind. -/
def seen (kind : LineKind) (line : List Char) : Bool :=
  kind.word.isPrefixOf (trim line) || kind.word.isPrefixOf (trimEnd line)

/-- There is a height, and both verifiers can read the lines that count: the last one for each of the four values, and
those of all siblings. -/
structure LegibleText (text : List Char) : Prop where
  last : ∀ kind ∈ LineKind.needed, ∀ line, ((lines text).filter (seen kind)).getLast? = some line →
    LegibleLine kind line
  siblings : ∀ line ∈ lines text, seen .sibling line = true → LegibleLine .sibling line
  height : ∃ line ∈ lines text, seen .height line = true

theorem ne_nil_of_unhex {body : List Char} {bytes : Bytes} (h : unhexChars body = some bytes) (hne : bytes ≠ []) :
    body ≠ [] := by
  rintro rfl
  exact hne (Option.some.inj h).symm

theorem vector_ne_nil (v : H256) : v.toList ≠ [] := by simp

theorem Legible.ends {kind : LineKind} {body : List Char} (h : Legible kind body) :
    body ≠ [] ∧ ∀ c ∈ body.getLast?, isBlank c = false := by
  have hhex : ∀ {body : List Char} {bytes : Bytes}, unhexChars body = some bytes → bytes ≠ [] →
      body ≠ [] ∧ ∀ c ∈ body.getLast?, isBlank c = false := fun h hne =>
    ⟨ne_nil_of_unhex h hne, fun c hc => Viewer.not_isBlank_of_unhex h c (List.mem_of_getLast? hc)⟩
  cases h with
  | txid v h => exact hhex h (vector_ne_nil v)
  | height hne hend => exact ⟨hne, hend⟩
  | blockhash v => exact hhex (unhex_hexs v.toList) (vector_ne_nil v)
  | header hlen h =>
      refine hhex h ?_
      rintro rfl
      exact absurd hlen (by decide)
  | @sibling side blank body v _ _ h =>
      obtain ⟨hne, hlast⟩ := hhex h (vector_ne_nil v)
      refine ⟨List.cons_ne_nil _ _, fun c hc => hlast c ?_⟩
      obtain ⟨x, rest, rfl⟩ := List.exists_cons_of_ne_nil hne
      rwa [List.getLast?_cons_cons, List.getLast?_cons_cons] at hc

/-- **A legible line is trimmed alike** by both verifiers. -/
theorem LegibleLine.trimmed {kind : LineKind} {line : List Char} (h : LegibleLine kind line) :
    ∃ body, Legible kind body ∧ trim line = kind.word ++ body ∧ trimEnd line = kind.word ++ body := by
  obtain ⟨body, tail, rfl, htail, hbody⟩ := h
  obtain ⟨hne, hlast⟩ := hbody.ends
  have hlast' : ∀ c ∈ (kind.word ++ body).getLast?, isBlank c = false := by
    rw [List.getLast?_append_of_ne_nil _ hne]
    exact hlast
  have hword : ∀ c ∈ (kind.word ++ body).head?, isBlank c = false := by
    cases hbody <;> exact fun c hc => by obtain rfl := Option.some.inj hc; decide
  have hblank : ∀ c ∈ tail, isBlank c = true := by
    intro c hc
    rcases htail c hc with rfl | rfl <;> rfl
  have hcut : ∀ c ∈ tail, (c == '\r' || c == ' ') = true := by
    intro c hc
    rcases htail c hc with rfl | rfl <;> rfl
  refine ⟨body, hbody, ?_, ?_⟩
  · rw [Script.trim_append _ hblank, Script.trim_eq_self hword hlast']
  · rw [trimEnd, Script.rdropWhile_append_of_all _ hcut, List.rdropWhile_eq_self_iff]
    intro hne' hend
    have hkept := hlast' _ (List.getLast?_eq_some_getLast hne')
    rcases Bool.or_eq_true_iff.mp hend with hcr | hsp
    · rw [eq_of_beq hcr] at hkept
      exact absurd hkept (by decide)
    · rw [eq_of_beq hsp] at hkept
      exact absurd hkept (by decide)

/-! ### What is read off a legible text -/

theorem seen_of_field {line : List Char} {F : Field} (h : field line = some F) : seen F.kind line = true :=
  Bool.or_eq_true_iff.mpr (Or.inr (List.isPrefixOf_iff_prefix.mpr (word_of_fieldOf h)))

theorem seen_of_view {line : List Char} {view : LineKind × List Char} (h : Viewer.view line = some view) :
    seen view.1 line = true := by
  obtain ⟨kind, body⟩ := view
  obtain ⟨-, heq⟩ := Viewer.of_viewOf h
  rw [seen, heq]
  simp

theorem Field.put_again {F G : Field} (hkind : F.kind ∈ LineKind.needed) (h : G.kind = F.kind) (f : ProofFile) :
    Field.put (Field.put f G) F = Field.put f F := by
  cases F with
  | sibling s => exact absurd hkind (by simp [Field.kind, LineKind.needed])
  | txid v => cases G <;> first | rfl | cases h
  | height n => cases G <;> first | rfl | cases h
  | blockhash v => cases G <;> first | rfl | cases h
  | header v => cases G <;> first | rfl | cases h

theorem Field.put_other {F G : Field} (h : G.kind ≠ F.kind) (f : ProofFile) :
    Field.put (Field.put f G) F = Field.put (Field.put f F) G := by
  cases F <;> cases G <;> first | rfl | exact absurd rfl h

namespace Viewer

theorem put_again {kind : LineKind} (hkind : kind ∈ LineKind.needed) (body body' : List Char) (f : ProofForm) :
    put (put f (kind, body')) (kind, body) = put f (kind, body) := by
  cases kind with
  | sibling => exact absurd hkind (by decide)
  | _ => rfl

theorem put_other {kind kind' : LineKind} (h : kind' ≠ kind) (body body' : List Char) (f : ProofForm) :
    put (put f (kind', body')) (kind, body) = put (put f (kind, body)) (kind', body') := by
  cases kind <;> cases kind' <;> first | rfl | exact absurd rfl h

end Viewer

section

variable {text : List Char}

/-- The line that counts is the same for both verifiers, and both have kept it. -/
theorem LegibleText.kept (h : LegibleText text) {kind : LineKind} (hkind : kind ∈ LineKind.needed)
    (hthere : ∃ line ∈ lines text, seen kind line = true) : ∃ body, Legible kind body ∧
      (∀ F, kind.read body = some F → Field.put (readProof text) F = readProof text) ∧
      Viewer.put (Viewer.readForm text) (kind, body) = Viewer.readForm text := by
  obtain ⟨line, hlast⟩ : ∃ line, ((lines text).filter (seen kind)).getLast? = some line := by
    obtain ⟨line, hline, hseen⟩ := hthere
    refine Option.ne_none_iff_exists'.mp fun hnone => ?_
    have hnil := List.getLast?_eq_none_iff.mp hnone
    exact List.filter_eq_nil_iff.mp hnil line hline hseen
  obtain ⟨body, hbody, htrim, htrimEnd⟩ := (h.last kind hkind line hlast).trimmed
  refine ⟨body, hbody, fun F hread => ?_, ?_⟩
  · have hF : F.kind = kind := LineKind.kind_of_read hread
    have hfield : field line = some F := by rw [field, htrimEnd, fieldOf_word, hread]
    rw [readProof_eq, fields]
    refine put_last_line Field.kind (seen kind) (fun f G hG G' hG' => ?_) (fun f G hG G' hG' => ?_)
      (fun l G hG hk => ?_) hlast hfield hF ({} : ProofFile)
    · exact Field.put_again (hG ▸ hkind) (hG'.trans hG.symm) f
    · exact Field.put_other (fun heq => hG' (heq.trans hG)) f
    · rw [← hk]
      exact seen_of_field hG
  · have hview : Viewer.view line = some (kind, body) := by
      rw [Viewer.view, htrim, Viewer.viewOf_word (LineKind.mem_viewed (LineKind.needed_subset hkind))]
    rw [Viewer.readForm_eq, Viewer.views]
    refine put_last_line Prod.fst (k := kind) (seen kind) (fun f v hv v' hv' => ?_) (fun f v hv v' hv' => ?_)
      (fun l v hv hk => ?_) hlast hview rfl ({} : Viewer.ProofForm)
    · obtain ⟨k, b⟩ := v
      obtain ⟨k', b'⟩ := v'
      obtain rfl : k = kind := hv
      obtain rfl : k' = k := hv'
      exact Viewer.put_again hkind b b' f
    · obtain ⟨k, b⟩ := v
      obtain ⟨k', b'⟩ := v'
      obtain rfl : k = kind := hv
      exact Viewer.put_other hv' b b' f
    · rw [← hk]
      exact seen_of_view hv

/-! ### Values -/

theorem digit_of_isDigit {c : Char} (h : c.isDigit = true) : Script.digit 10 c = some (c.toNat - '0'.toNat) := by
  obtain ⟨hlow, hhigh⟩ := digit_bounds h
  have h0 : '0'.toNat = 48 := rfl
  have h9 : '9'.toNat = 57 := rfl
  have hdigit : '0' ≤ c ∧ c ≤ '9' := ⟨hlow, hhigh⟩
  rw [Script.digit, if_pos hdigit]
  exact if_pos (by omega)

/-- Both readers of numbers read a decimal number. -/
theorem parseInt_digits {body : List Char} (hne : body ≠ []) (h : ∀ c ∈ body, c.isDigit = true) :
    parseInt false body = some (decimal body : Int) := by
  have hvalue : ∀ (s : List Char) (n : Nat), (∀ c ∈ s, c.isDigit = true) →
      s.foldl (fun n c => n * 10 + (Script.digit 10 c).getD 0) n = Nat.ofDigitChars 10 s n := by
    intro s
    induction s with
    | nil => exact fun n _ => rfl
    | cons c s ih =>
        intro n hs
        obtain ⟨hc, hs⟩ := List.forall_mem_cons.mp hs
        rw [List.foldl_cons, ih _ hs, Nat.ofDigitChars_cons, digit_of_isDigit hc, Option.getD_some, Nat.mul_comm]
  have hbounds : ∀ c ∈ body, 48 ≤ c.toNat ∧ c.toNat ≤ 57 := fun c hc => digit_bounds (h c hc)
  rw [Script.parseInt_eq, if_neg (by decide), Script.digits_of_all hne]
  · rw [hvalue body 0 h]
    rfl
  · intro c hc
    rw [digit_of_isDigit (h c hc)]
    rfl
  · intro c hc
    obtain ⟨hlow, hhigh⟩ := hbounds c (List.mem_of_mem_head? hc)
    refine ⟨Script.not_isBlank_of_ascii (by omega) (by omega), ?_, ?_⟩
    · rintro rfl
      exact absurd hlow (by decide)
    · rintro rfl
      exact absurd hlow (by decide)
  · intro c hc
    obtain ⟨-, hhigh⟩ := hbounds c (List.mem_of_mem_tail (List.mem_of_mem_head? hc))
    refine ⟨?_, ?_⟩
    · rintro rfl
      exact absurd hhigh (by decide)
    · rintro rfl
      exact absurd hhigh (by decide)

/-- A decimal number that is less than the greatest one can be read by both. -/
theorem Legible.decimal {body : List Char} (hne : body ≠ []) (h : ∀ c ∈ body, c.isDigit = true)
    (hlt : decimal body < 2 ^ 64 - 1) : Legible .height body := by
  have hvalue : strtoull body = UInt64.ofNat (Chainlite.decimal body) := strtoull_digits hne h (by omega)
  have htoNat : (strtoull body).toNat = Chainlite.decimal body := by
    rw [hvalue, UInt64.toNat_ofNat_of_lt' (by show Chainlite.decimal body < 2 ^ 64; omega)]
  refine .height hne (fun c hc => ?_) (fun heq => ?_) ?_
  · obtain ⟨hlow, hhigh⟩ := digit_bounds (h c (List.mem_of_getLast? hc))
    have h0 : '0'.toNat = 48 := rfl
    have h9 : '9'.toNat = 57 := rfl
    exact Script.not_isBlank_of_ascii (by omega) (by omega)
  · rw [heq, UInt64.toNat_ofNat_of_lt' (by decide)] at htoNat
    omega
  · rw [parseInt_digits hne h, ← UInt64.toNat_inj, htoNat, Option.some.injEq, Int.natCast_eq_zero]
    rfl

/-- What the two readers have read is the same. -/
structure ReadAlike (f : ProofFile) (g : Viewer.ProofForm) : Prop where
  txid : f.okTxid = true ∧ ∃ body, g.txid = some body ∧ body ≠ [] ∧ Viewer.fromHex body = f.txid.toList
  blockhash : f.okBh = true ∧ g.blockhash = some (hexs f.blockhash.toList).toList
  header : f.okHdr = true ∧ f.headerRaw.length = headerSize ∧
    ∃ body, g.header = some body ∧ body ≠ [] ∧ Viewer.fromHex body = f.headerRaw
  height : f.height ≠ UInt64.ofNat (2 ^ 64 - 1) ∧ (g.height = some 0 ↔ f.height = 0)
  steps : List.Forall₂ (fun s s' => s.1 = s'.left ∧ ∃ hex, s.2 = some hex ∧ Viewer.fromHex hex = s'.h.toList)
    g.steps f.steps

theorem unhexN_of_unhex {body : List Char} {v : H256} (h : unhexChars body = some v.toList) :
    unhexN 32 (String.ofList body) = some v := by
  rw [unhexN_eq_some_iff, unhex, String.toList_ofList]
  exact h

/-- A legible sibling is the same for both. -/
theorem Legible.sibling_step {body : List Char} (h : Legible .sibling body) :
    ∃ hex s, Viewer.stepOf body = (s.left, some hex) ∧ Viewer.fromHex hex = s.h.toList ∧
      readSibling (LineKind.sibling.word ++ body) = some s := by
  cases h with
  | @sibling side blank hex v hside hsep hhex =>
      obtain ⟨x, rest, rfl⟩ := List.exists_cons_of_ne_nil (ne_nil_of_unhex hhex (vector_ne_nil v))
      have hblank := Viewer.not_isBlank_of_unhex hhex
      have hword : ∀ c ∈ "sibling".toList, isBlank c = false := by simp [isBlank]
      have hsplit : splitBlanks (LineKind.sibling.word ++ side :: blank :: x :: rest) =
          ["sibling".toList, [side], x :: rest] := by
        calc splitBlanks (LineKind.sibling.word ++ side :: blank :: x :: rest)
          _ = "sibling".toList :: splitBlanks ([side] ++ blank :: x :: rest) :=
              Script.splitBlanks_append hword rfl hside.2
          _ = "sibling".toList :: [side] :: splitBlanks (x :: rest) := by
              rw [Script.splitBlanks_append (by simpa using hside.2) hsep.2 (hblank x List.mem_cons_self)]
          _ = _ := by rw [Script.splitBlanks_word hblank]
      refine ⟨x :: rest, ⟨v, side == 'L'⟩, ?_, Viewer.fromHex_eq hhex, ?_⟩
      · rw [Viewer.stepOf, hsplit]
        show (some [side] == some ['L'], some (x :: rest)) = _
        simp
      · show readSibling ("sibling ".toList ++ side :: blank :: x :: rest) = _
        rw [readSibling_word, if_pos (by simp)]
        show (unhexN 32 (String.ofList (x :: rest))).map _ = _
        rw [unhexN_of_unhex hhex]
        rfl

/-- The siblings are read alike, line by line. -/
theorem steps_alike {ls : List (List Char)} (h : ∀ line ∈ ls, seen .sibling line = true → LegibleLine .sibling line) :
    List.Forall₂ (fun s s' => s.1 = s'.left ∧ ∃ hex, s.2 = some hex ∧ Viewer.fromHex hex = s'.h.toList)
      (((ls.filterMap Viewer.view).filter fun v => v.1 = .sibling).map fun v => Viewer.stepOf v.2)
      ((ls.map trimEnd).filterMap readSibling) := by
  induction ls with
  | nil => exact List.Forall₂.nil
  | cons line ls ih =>
      obtain ⟨hline, hls⟩ := List.forall_mem_cons.mp h
      have hrest := ih hls
      rw [List.filterMap_cons, List.map_cons, List.filterMap_cons]
      by_cases hseen : seen .sibling line = true
      · obtain ⟨body, hbody, htrim, htrimEnd⟩ := (hline hseen).trimmed
        obtain ⟨hex, s, hstep, hhex, hread⟩ := hbody.sibling_step
        rw [Viewer.view, htrim, Viewer.viewOf_word (by decide), htrimEnd, hread]
        dsimp only
        rw [List.filter_cons, if_pos (by rfl), List.map_cons, hstep]
        exact List.Forall₂.cons ⟨rfl, hex, rfl, hhex⟩ hrest
      · have hread : readSibling (trimEnd line) = none :=
          if_neg fun hword => hseen (Bool.or_eq_true_iff.mpr (Or.inr hword.1))
        rw [hread]
        dsimp only
        cases hview : Viewer.view line with
        | none => exact hrest
        | some view =>
            dsimp only
            rw [List.filter_cons, if_neg]
            · exact hrest
            · intro hkind
              have hseen' := seen_of_view hview
              rw [of_decide_eq_true hkind] at hseen'
              exact hseen hseen'

/-- **A legible text is read alike** when there is a line for each value. -/
theorem LegibleText.alike (h : LegibleText text)
    (hthere : ∀ kind ∈ LineKind.needed, ∃ line ∈ lines text, seen kind line = true) :
    ReadAlike (readProof text) (Viewer.readForm text) := by
  have hkept : ∀ kind (hkind : kind ∈ LineKind.needed), _ := fun kind hkind => h.kept hkind (hthere kind hkind)
  refine ⟨?_, ?_, ?_, ?_, ?_⟩
  · obtain ⟨body, hbody, hput, hput'⟩ := hkept .txid (by decide)
    have hends := hbody.ends
    cases hbody with
    | txid v hhex =>
        have hread : LineKind.txid.read body = some (.txid v) := by rw [LineKind.read, unhexN_of_unhex hhex]; rfl
        rw [← hput _ hread, ← hput']
        exact ⟨rfl, body, rfl, hends.1, Viewer.fromHex_eq hhex⟩
  · obtain ⟨body, hbody, hput, hput'⟩ := hkept .blockhash (by decide)
    cases hbody with
    | blockhash v =>
        have hread : LineKind.blockhash.read (hexs v.toList).toList = some (.blockhash v) := by
          rw [LineKind.read, String.ofList_toList, unhexN_hexs]
          rfl
        rw [← hput _ hread, ← hput']
        exact ⟨rfl, rfl⟩
  · obtain ⟨body, hbody, hput, hput'⟩ := hkept .header (by decide)
    have hends := hbody.ends
    cases hbody with
    | @header _ raw hlen hhex =>
        have hread : LineKind.header.read body = some (.header raw) := by
          rw [LineKind.read, unhex, String.toList_ofList, hhex]
          exact if_pos hlen
        rw [← hput _ hread, ← hput']
        exact ⟨rfl, hlen, body, rfl, hends.1, Viewer.fromHex_eq hhex⟩
  · obtain ⟨body, hbody, hput, hput'⟩ := hkept .height (by decide)
    cases hbody with
    | height _ _ hmax hzero =>
        have hread : LineKind.height.read body = some (.height (strtoull body)) := rfl
        rw [← hput _ hread, ← hput']
        exact ⟨hmax, hzero⟩
  · rw [Viewer.steps_readForm, readProof_steps]
    exact steps_alike h.siblings

end

/-! ### Texts as they are written -/

namespace Written

variable {kind : LineKind} {body : List Char} {F : Option Field}

theorem legible (h : Written kind body F) (hkind : kind ∈ LineKind.known) : Legible kind body := by
  cases h with
  | title => exact absurd hkind (by decide)
  | index => exact absurd hkind (by decide)
  | last => exact absurd hkind (by decide)
  | txid v => exact .txid v (unhex_hexs v.toList)
  | blockhash v => exact .blockhash v
  | header hlen => exact .header hlen (unhex_hexs _)
  | height _ hlt =>
      refine .decimal Nat.toDigits_ne_nil (fun c => isDigit_of_mem_toDigits) ?_
      rw [decimal, Nat.ofDigitChars_ten_toDigits]
      omega
  | sibling s =>
      refine .sibling s.h ?_ (by decide) (unhex_hexs _)
      cases s.left <;> decide

theorem trim_eq (h : Written kind body F) : trim (kind.word ++ body) = kind.word ++ body := by
  by_cases hkind : kind ∈ LineKind.known
  · obtain ⟨body', hbody, htrim, htrimEnd⟩ :=
      LegibleLine.trimmed ⟨body, [], (List.append_nil _).symm, by simp, h.legible hkind⟩
    rw [htrim, ← htrimEnd, h.clean.trimmed]
  · cases h with
    | title => rfl
    | last => rfl
    | index i =>
        have hne : Nat.toDigits 10 i ≠ [] := Nat.toDigits_ne_nil
        refine Script.trim_eq_self (fun c hc => ?_) fun c hc => ?_
        · obtain rfl := Option.some.inj hc
          rfl
        · rw [List.getLast?_append_of_ne_nil _ hne] at hc
          obtain ⟨hlow, hhigh⟩ := digit_bounds (isDigit_of_mem_toDigits (List.mem_of_getLast? hc))
          have h0 : '0'.toNat = 48 := rfl
          have h9 : '9'.toNat = 57 := rfl
          exact Script.not_isBlank_of_ascii (by omega) (by omega)
    | _ => exact absurd (by simp [LineKind.known]) hkind

end Written

/-- A line that is written is seen as what it is. -/
theorem ProofLine.kind_of_seen (l : ProofLine) {kind : LineKind} (hkind : kind ∈ LineKind.known)
    (h : seen kind l.text = true) : kind = l.kind := by
  by_contra hne
  have hword := LineKind.isPrefixOf_word_ne (LineKind.mem_viewed hkind) hne l.body
  rw [seen, ProofLine.text, l.written.trim_eq, l.written.clean.trimmed, hword] at h
  cases h

/-- **What is written is legible.** -/
theorem legibleText_unlines {ls : List ProofLine} (h : ∃ l ∈ ls, l.kind = .height) :
    LegibleText (ProofLine.unlines ls) := by
  have hlegible : ∀ kind ∈ LineKind.known, ∀ line ∈ lines (ProofLine.unlines ls), seen kind line = true →
      LegibleLine kind line := by
    intro kind hkind line hline hseen
    rw [ProofLine.lines_unlines] at hline
    obtain ⟨l, -, rfl⟩ := List.mem_map.mp hline
    obtain rfl := l.kind_of_seen hkind hseen
    exact ⟨l.body, [], (List.append_nil _).symm, by simp, l.written.legible hkind⟩
  refine ⟨fun kind hkind line hlast => ?_, hlegible .sibling (by decide), ?_⟩
  · obtain ⟨hline, hseen⟩ := List.mem_filter.mp (List.mem_of_getLast? hlast)
    exact hlegible kind (LineKind.needed_subset hkind) line hline hseen
  · obtain ⟨l, hl, hkind⟩ := h
    refine ⟨l.text, by rw [ProofLine.lines_unlines]; exact List.mem_map_of_mem hl, ?_⟩
    rw [seen, ProofLine.text, l.written.trim_eq, hkind]
    simp

end Chainlite
