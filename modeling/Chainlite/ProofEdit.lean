import Chainlite.ProofLines

/-! Changes of one character in the text of a proof. The change is on one line, or it joins two; the other lines
give what they gave. What the reader gets is the same, or a field is lost or changed. -/

open Std

namespace Chainlite

/-! ### Places in a text -/

/-- The number of the line that follows a text. -/
def lineOf (before : List Char) : Nat := before.count '\n'

/-- The place on that line. -/
def columnOf (before : List Char) : Nat := (before.rtakeWhile (· != '\n')).length

theorem lineOf_append_break (line before : List Char) (h : ∀ c ∈ line, c ≠ '\n') :
    lineOf (line ++ '\n' :: before) = lineOf before + 1 := by
  have hnone : line.count '\n' = 0 := List.count_eq_zero.mpr fun hmem => h _ hmem rfl
  rw [lineOf, List.count_append, hnone, List.count_cons_self, Nat.zero_add, lineOf]

theorem columnOf_append_break (line before : List Char) :
    columnOf (line ++ '\n' :: before) = columnOf before := by
  unfold columnOf List.rtakeWhile
  rw [List.reverse_append, List.reverse_cons, List.append_assoc, List.singleton_append, List.takeWhile_append]
  split
  · rename_i hwhole
    rw [List.length_reverse, List.length_reverse, hwhole]
    simp
  · rfl

theorem lineOf_line {line : List Char} (h : ∀ c ∈ line, c ≠ '\n') : lineOf line = 0 :=
  List.count_eq_zero.mpr fun hmem => h _ hmem rfl

theorem columnOf_line {line : List Char} (h : ∀ c ∈ line, c ≠ '\n') : columnOf line = line.length := by
  have hwhole : line.rtakeWhile (· != '\n') = line := by
    rw [List.rtakeWhile_eq_self_iff]
    intro c hc
    simpa using h c hc
  rw [columnOf, hwhole]

theorem lines_single {line : List Char} (hne : line ≠ []) (h : ∀ c ∈ line, c ≠ '\n') : lines line = [line] := by
  induction line with
  | nil => exact absurd rfl hne
  | cons c rest ih =>
      obtain ⟨hc, hrest⟩ := List.forall_mem_cons.mp h
      rw [lines, if_neg hc]
      by_cases hnil : rest = []
      · rw [hnil]
        rfl
      · rw [ih hnil hrest]

/-! ### The lines of a proof -/

/-- A line of a proof with what it gives. -/
structure ProofLine where
  kind : LineKind
  body : List Char
  gives : Option Field
  written : Written kind body gives

namespace ProofLine

def text (l : ProofLine) : List Char := l.kind.word ++ l.body

/-- The text made of the lines. -/
def unlines (ls : List ProofLine) : List Char := ls.flatMap fun l => l.text ++ ['\n']

theorem noBreak (l : ProofLine) : ∀ c ∈ l.text, c ≠ '\n' := l.written.clean.noBreak

theorem field_text (l : ProofLine) : field l.text = l.gives := l.written.field_eq

theorem kind_gives (l : ProofLine) {F : Field} (h : l.gives = some F) : F.kind = l.kind := by
  obtain ⟨kind, body, gives, hwritten⟩ := l
  cases hwritten <;> cases h <;> rfl

theorem sibling_of_gives (l : ProofLine) {s : MerkleStep} (h : l.gives = some (.sibling s)) :
    ∃ body, l.text = LineKind.sibling.word ++ body ∧ Written .sibling body (some (.sibling s)) := by
  obtain ⟨kind, body, gives, hwritten⟩ := l
  have h : gives = some (.sibling s) := h
  subst h
  cases hwritten
  exact ⟨_, rfl, .sibling s⟩

/-- A line of a kind that the reader knows gives something. -/
theorem gives_ne_none (l : ProofLine) {kind : LineKind} (h : l.kind = kind) (hknown : kind ∈ LineKind.known) :
    l.gives ≠ none := by
  obtain ⟨kind', body, gives, hwritten⟩ := l
  have h : kind' = kind := h
  subst h
  cases hwritten <;> first | exact Option.some_ne_none _ | exact absurd hknown (by decide)

/-- What is not read may change. -/
theorem skipped_of_gives_none (l : ProofLine) (h : l.gives = none) (col : Nat) (old c : Char) :
    Skipped l.kind col old c := by
  obtain ⟨kind, body, gives, hwritten⟩ := l
  cases hwritten <;> first | exact trivial | cases h

theorem gives_eq_none (l : ProofLine) {kind : LineKind} (h : l.kind = kind) (hunknown : kind ∉ LineKind.known) :
    l.gives = none := by
  refine Option.eq_none_iff_forall_ne_some.mpr fun F hF => hunknown ?_
  rw [← h, ← l.kind_gives hF]
  exact F.kind_mem_known

theorem gives_append_cons (front : List ProofLine) (l : ProofLine) (back : List ProofLine) :
    (front ++ l :: back).filterMap gives = front.filterMap gives ++ l.gives.toList ++ back.filterMap gives := by
  rw [List.filterMap_append, List.filterMap_cons]
  cases l.gives <;> simp

theorem text_ne_nil (l : ProofLine) : l.text ≠ [] := by
  obtain ⟨kind, body, gives, h⟩ := l
  cases kind <;> exact List.cons_ne_nil _ _

theorem unlines_cons (l : ProofLine) (ls : List ProofLine) : unlines (l :: ls) = l.text ++ '\n' :: unlines ls := by
  rw [unlines, List.flatMap_cons, List.append_assoc, List.singleton_append]
  rfl

theorem unlines_eq (ls : List ProofLine) : unlines ls = (ls.map text).flatMap (· ++ ['\n']) := by
  rw [List.flatMap_map]
  rfl

theorem lines_unlines_append (ls : List ProofLine) (rest : List Char) :
    lines (unlines ls ++ rest) = ls.map text ++ lines rest := by
  induction ls with
  | nil => rfl
  | cons l ls ih =>
      rw [unlines_cons, List.append_assoc, List.cons_append, lines_append l.noBreak, ih, List.map_cons, List.cons_append]

theorem lines_unlines (ls : List ProofLine) : lines (unlines ls) = ls.map text := by
  have hlines := lines_unlines_append ls []
  rwa [List.append_nil, lines, List.append_nil] at hlines

theorem filterMap_field_text (ls : List ProofLine) : (ls.map text).filterMap field = ls.filterMap gives := by
  rw [List.filterMap_map]
  exact congrArg (fun f => ls.filterMap f) (funext field_text)

theorem fields_unlines (ls : List ProofLine) : fields (unlines ls) = ls.filterMap gives := by
  rw [fields, lines_unlines, filterMap_field_text]

/-- A place in the text is on a line, or it is the break behind one. -/
theorem place_of_unlines {ls : List ProofLine} {before after : List Char} {old : Char}
    (h : unlines ls = before ++ old :: after) : ∃ (front : List ProofLine) (l : ProofLine) (back : List ProofLine)
      (head : List Char), ls = front ++ l :: back ∧ before = unlines front ++ head ∧ lineOf before = front.length ∧
      columnOf before = head.length ∧
      ((∃ tail, l.text = head ++ old :: tail ∧ after = tail ++ '\n' :: unlines back) ∨
        (l.text = head ∧ old = '\n' ∧ after = unlines back)) := by
  induction ls generalizing before with
  | nil => simp [unlines] at h
  | cons l ls ih =>
      rw [unlines_cons] at h
      rcases List.append_eq_append_iff.mp h with ⟨rest, hbefore, hrest⟩ | ⟨rest, htext, hrest⟩
      · cases rest with
        | nil =>
            obtain ⟨rfl, rfl⟩ := List.cons.inj hrest
            rw [List.append_nil] at hbefore
            subst hbefore
            exact ⟨[], l, ls, l.text, rfl, rfl, lineOf_line l.noBreak, columnOf_line l.noBreak, Or.inr ⟨rfl, rfl, rfl⟩⟩
        | cons x rest =>
            obtain ⟨rfl, htail⟩ := List.cons.inj hrest
            obtain ⟨front, l', back, head, rfl, hhead, hline, hcol, hplace⟩ := ih htail
            refine ⟨l :: front, l', back, head, rfl, ?_, ?_, ?_, hplace⟩
            · rw [hbefore, hhead, unlines_cons, List.append_assoc, List.cons_append]
            · rw [hbefore, lineOf_append_break _ _ l.noBreak, hline, List.length_cons]
            · rw [hbefore, columnOf_append_break, hcol]
      · have hbefore : ∀ c ∈ before, c ≠ '\n' := fun c hc => l.noBreak c (htext ▸ List.mem_append_left _ hc)
        refine ⟨[], l, ls, before, rfl, rfl, lineOf_line hbefore, columnOf_line hbefore, ?_⟩
        cases rest with
        | nil =>
            obtain ⟨rfl, rfl⟩ := List.cons.inj hrest
            exact Or.inr ⟨by rw [htext, List.append_nil], rfl, rfl⟩
        | cons x rest =>
            obtain ⟨rfl, rfl⟩ := List.cons.inj hrest
            exact Or.inl ⟨rest, htext, rfl⟩

/-! ### The lines after a change -/

variable (front back : List ProofLine) {l : ProofLine} {head tail : List Char} {old c : Char}

theorem fields_break (htext : l.text = head ++ old :: tail) :
    fields (unlines front ++ head ++ '\n' :: (tail ++ '\n' :: unlines back)) =
      front.filterMap gives ++ (field head).toList ++ back.filterMap gives := by
  have hhead : ∀ x ∈ head, x ≠ '\n' := fun x hx => l.noBreak x (htext ▸ List.mem_append_left _ hx)
  have htail : ∀ x ∈ tail, x ≠ '\n' := fun x hx =>
    l.noBreak x (htext ▸ List.mem_append_right _ (List.mem_cons_of_mem _ hx))
  have hlines : lines (unlines front ++ head ++ '\n' :: (tail ++ '\n' :: unlines back)) =
      front.map text ++ head :: tail :: back.map text := by
    rw [List.append_assoc, lines_unlines_append, lines_append hhead, lines_append htail, lines_unlines]
  rw [fields, hlines, List.filterMap_append, filterMap_field_text, List.filterMap_cons, List.filterMap_cons,
    field_after l.written.wordless htext, filterMap_field_text]
  cases field head <;> simp

theorem fields_within (htext : l.text = head ++ old :: tail) (hbreak : c ≠ '\n') :
    fields (unlines front ++ head ++ c :: (tail ++ '\n' :: unlines back)) =
      front.filterMap gives ++ (field (head ++ c :: tail)).toList ++ back.filterMap gives := by
  have hedited : ∀ x ∈ head ++ c :: tail, x ≠ '\n' := by
    intro x hx
    rcases List.mem_append.mp hx with hx | hx
    · exact l.noBreak x (htext ▸ List.mem_append_left _ hx)
    · rcases List.mem_cons.mp hx with rfl | hx
      · exact hbreak
      · exact l.noBreak x (htext ▸ List.mem_append_right _ (List.mem_cons_of_mem _ hx))
  have hlines : lines (unlines front ++ head ++ c :: (tail ++ '\n' :: unlines back)) =
      front.map text ++ (head ++ c :: tail) :: back.map text := by
    rw [List.append_assoc, lines_unlines_append, ← List.cons_append, ← List.append_assoc, lines_append hedited,
      lines_unlines]
  rw [fields, hlines, List.filterMap_append, filterMap_field_text, List.filterMap_cons, filterMap_field_text]
  cases field (head ++ c :: tail) <;> simp

/-- A change on a line, also one that breaks it, concerns what this line gives. -/
theorem fields_edit (htext : l.text = head ++ old :: tail) (hc : c ≠ old) : ∃ r : Option Field,
    fields (unlines front ++ head ++ c :: (tail ++ '\n' :: unlines back)) =
      front.filterMap gives ++ r.toList ++ back.filterMap gives ∧
    (r = l.gives ↔ Skipped l.kind head.length old c) ∧ (∀ F ∈ r, F.kind = l.kind) ∧
    ∀ s s', l.gives = some (.sibling s) → r = some (.sibling s') → (head.length = 8 ∧ c ≠ '\n') ∨ s'.left = s.left := by
  by_cases hbreak : c = '\n'
  · subst hbreak
    refine ⟨field head, fields_break front back htext, l.written.cut_iff htext, ?_, ?_⟩
    · intro F hF
      exact word_of_edit F.kind_mem_known htext ((word_of_field hF).trans (List.prefix_append head (old :: tail)))
    · intro s s' hs hr
      obtain ⟨body, hbody, hwritten⟩ := l.sibling_of_gives hs
      exact Or.inr (hwritten.left_of_cut (hbody.symm.trans htext) hr)
  · refine ⟨field (head ++ c :: tail), fields_within front back htext hbreak, l.written.edit_iff htext hc hbreak, ?_, ?_⟩
    · intro F hF
      exact word_of_edit F.kind_mem_known htext (word_of_field hF)
    · intro s s' hs hr
      obtain ⟨body, hbody, hwritten⟩ := l.sibling_of_gives hs
      exact (hwritten.left_of_edit (hbody.symm.trans htext) hc hr).imp_left fun hlen => ⟨hlen, hbreak⟩

/-- Without its break, a line is read together with the next one. -/
theorem fields_join (l next : ProofLine) (hc : c ≠ '\n') :
    fields (unlines front ++ l.text ++ c :: unlines (next :: back)) =
      front.filterMap gives ++ (field (l.text ++ c :: next.text)).toList ++ back.filterMap gives := by
  have hjoined : ∀ x ∈ l.text ++ c :: next.text, x ≠ '\n' := by
    intro x hx
    rcases List.mem_append.mp hx with hx | hx
    · exact l.noBreak x hx
    · rcases List.mem_cons.mp hx with rfl | hx
      · exact hc
      · exact next.noBreak x hx
  have hlines : lines (unlines front ++ l.text ++ c :: unlines (next :: back)) =
      front.map text ++ (l.text ++ c :: next.text) :: back.map text := by
    rw [List.append_assoc, lines_unlines_append, unlines_cons, ← List.cons_append, ← List.append_assoc,
      lines_append hjoined, lines_unlines]
  rw [fields, hlines, List.filterMap_append, filterMap_field_text, List.filterMap_cons, filterMap_field_text]
  cases field (l.text ++ c :: next.text) <;> simp

theorem field_join_eq_none {l : ProofLine} (hkind : l.kind ≠ .height) (c : Char) (next : ProofLine) :
    field (l.text ++ c :: next.text) = none := by
  rw [text, List.append_assoc]
  exact l.written.join_eq_none hkind c next.text_ne_nil next.written.clean.trimmed

/-- The height is read together with the index behind it. -/
theorem field_join_height {l next : ProofLine} (hl : l.kind = .height) (hnext : next.kind = .index) (c : Char) :
    ∃ n m : UInt64, l.gives = some (.height n) ∧ field (l.text ++ c :: next.text) = some (.height m) ∧
      (m = n ↔ c.isDigit = false) := by
  have hhead : ∀ x ∈ next.text.head?, x.isDigit = false := by
    intro x hx
    rw [text, hnext] at hx
    cases hx
    rfl
  have hne := next.text_ne_nil
  have htrim : trimEnd next.text = next.text := next.written.clean.trimmed
  obtain ⟨kind, body, gives, hwritten⟩ := l
  have hl : kind = .height := hl
  subst hl
  cases hwritten with
  | height hpos hlt =>
      rename_i n
      refine ⟨n, _, rfl, ?_, strtoull_join_iff hpos hlt c hhead⟩
      rw [text, List.append_assoc]
      exact Written.field_join_height c hne htrim

/-- The break of the last line does not matter, if the line gives nothing. -/
theorem fields_last {l : ProofLine} (hkind : l.kind = .last) (hc : c ≠ '\n') :
    fields (unlines front ++ l.text ++ [c]) = front.filterMap gives := by
  have hlast : ∀ x ∈ l.text ++ [c], x ≠ '\n' := by
    intro x hx
    rcases List.mem_append.mp hx with hx | hx
    · exact l.noBreak x hx
    · rw [List.mem_singleton.mp hx]
      exact hc
  have hfield : field (l.text ++ [c]) = none := by
    rw [text, hkind, List.append_assoc, field_word]
    exact ite_self none
  rw [fields, List.append_assoc, lines_unlines_append, lines_single (by simp) hlast, List.filterMap_append,
    filterMap_field_text, List.filterMap_cons, hfield, List.filterMap_nil, List.append_nil]

end ProofLine

/-! ### A proof line by line -/

/-- The kind of a line by its number, for a proof with so many siblings. -/
def lineKind (siblings : Nat) : Nat → LineKind
  | 0 => .title
  | 1 => .txid
  | 2 => .height
  | 3 => .index
  | 4 => .blockhash
  | 5 => .header
  | i + 6 => if i < siblings then .sibling else .last

theorem eq_two_of_lineKind {siblings i : Nat} (h : lineKind siblings i = .height) : i = 2 := by
  match i with
  | 0 => cases h
  | 1 => cases h
  | 2 => rfl
  | 3 => cases h
  | 4 => cases h
  | 5 => cases h
  | i + 6 =>
      rw [lineKind] at h
      split at h <;> cases h

/-- What a proof gives. -/
def proofFields (txid : H256) (height : UInt64) (blockhash : H256) (header : Bytes) (steps : List MerkleStep) :
    List Field :=
  [.txid txid, .height height, .blockhash blockhash, .header header] ++ steps.map Field.sibling

def lastLine : ProofLine := ⟨_, _, _, .last⟩

def siblingLines (steps : List MerkleStep) : List ProofLine := steps.map fun s => ⟨_, _, _, .sibling s⟩

def proofLines (txid : H256) {height : UInt64} (hpos : 0 < height.toNat) (hlt : height.toNat < 2 ^ 32) (index : UInt32)
    (blockhash : H256) {header : Bytes} (hlen : header.length = headerSize) (steps : List MerkleStep) : List ProofLine :=
  [⟨_, _, _, .title⟩, ⟨_, _, _, .txid txid⟩, ⟨_, _, _, .height hpos hlt⟩, ⟨_, _, _, .index index.toNat⟩,
    ⟨_, _, _, .blockhash blockhash⟩, ⟨_, _, _, .header hlen⟩] ++ siblingLines steps ++ [lastLine]

section

variable {txid : H256} {height : UInt64} {hpos : 0 < height.toNat} {hlt : height.toNat < 2 ^ 32} {index : UInt32}
  {blockhash : H256} {header : Bytes} {hlen : header.length = headerSize} {steps : List MerkleStep}

variable (hpos hlt index hlen) in
theorem unlines_proofLines : ProofLine.unlines (proofLines txid hpos hlt index blockhash hlen steps) =
    (proofText txid height index blockhash header steps).toList := by
  have hsiblings : (siblingLines steps).map ProofLine.text = steps.map fun s => (siblingLine s).toList := by
    rw [siblingLines, List.map_map]
    apply List.map_congr_left
    intro s hs
    exact (toList_siblingLine s).symm
  rw [toList_proofText, ← hsiblings, toList_toString_uint64, toList_toString_uint32, ProofLine.unlines_eq, proofLines,
    List.map_append, List.map_append]
  rfl

theorem gives_siblingLines (steps : List MerkleStep) :
    (siblingLines steps).filterMap ProofLine.gives = steps.map Field.sibling := by
  rw [siblingLines, List.filterMap_map]
  exact congrFun List.filterMap_eq_map' steps

variable (hpos hlt index hlen) in
theorem gives_proofLines : (proofLines txid hpos hlt index blockhash hlen steps).filterMap ProofLine.gives =
    proofFields txid height blockhash header steps := by
  rw [proofLines, List.filterMap_append, List.filterMap_append, gives_siblingLines]
  simp [proofFields, lastLine]

theorem length_siblingLines : (siblingLines steps).length = steps.length := List.length_map _

theorem kind_proofLines {i : Nat} {l : ProofLine} (hl : (proofLines txid hpos hlt index blockhash hlen steps)[i]? = some l) :
    l.kind = lineKind steps.length i := by
  match i with
  | 0 => cases hl; rfl
  | 1 => cases hl; rfl
  | 2 => cases hl; rfl
  | 3 => cases hl; rfl
  | 4 => cases hl; rfl
  | 5 => cases hl; rfl
  | i + 6 =>
      have hrest : (siblingLines steps ++ [lastLine])[i]? = some l := hl
      rw [lineKind]
      split
      · rename_i hi
        rw [List.getElem?_append_left (by rwa [length_siblingLines])] at hrest
        obtain ⟨s, -, rfl⟩ := List.mem_map.mp (List.mem_of_getElem? hrest)
        rfl
      · rename_i hi
        rw [List.getElem?_append_right (by rw [length_siblingLines]; omega)] at hrest
        have hmem := List.mem_of_getElem? hrest
        rw [List.mem_singleton.mp hmem]
        rfl

theorem length_proofLines : (proofLines txid hpos hlt index blockhash hlen steps).length = steps.length + 7 := by
  rw [proofLines, List.length_append, List.length_append, length_siblingLines, List.length_singleton]
  show 6 + steps.length + 1 = steps.length + 7
  omega

/-! ### Around a sibling -/

theorem exists_of_lineKind {siblings i : Nat} (h : lineKind siblings i = .sibling) : ∃ k, i = k + 6 ∧ k < siblings := by
  match i with
  | 0 => cases h
  | 1 => cases h
  | 2 => cases h
  | 3 => cases h
  | 4 => cases h
  | 5 => cases h
  | k + 6 =>
      rw [lineKind] at h
      split at h
      · rename_i hk
        exact ⟨k, rfl, hk⟩
      · cases h

variable (hpos hlt index hlen) in
theorem gives_take {k : Nat} (hk : k ≤ steps.length) :
    ((proofLines txid hpos hlt index blockhash hlen steps).take (k + 6)).filterMap ProofLine.gives =
      proofFields txid height blockhash header (steps.take k) := by
  have htake : (siblingLines steps ++ [lastLine]).take k = siblingLines (steps.take k) := by
    rw [List.take_append_of_le_length (by rwa [length_siblingLines]), siblingLines, siblingLines, List.map_take]
  have hsix : (proofLines txid hpos hlt index blockhash hlen steps).take (k + 6) =
      [⟨_, _, _, .title⟩, ⟨_, _, _, .txid txid⟩, ⟨_, _, _, .height hpos hlt⟩, ⟨_, _, _, .index index.toNat⟩,
        ⟨_, _, _, .blockhash blockhash⟩, ⟨_, _, _, .header hlen⟩] ++
        (siblingLines steps ++ [lastLine]).take k := rfl
  rw [hsix, htake, List.filterMap_append, gives_siblingLines]
  simp [proofFields]

variable (hpos hlt index hlen) in
theorem gives_drop {k : Nat} (hk : k < steps.length) :
    ((proofLines txid hpos hlt index blockhash hlen steps).drop (k + 7)).filterMap ProofLine.gives =
      (steps.drop (k + 1)).map Field.sibling := by
  have hsix : (proofLines txid hpos hlt index blockhash hlen steps).drop (k + 7) =
      (siblingLines steps ++ [lastLine]).drop (k + 1) := rfl
  rw [hsix, List.drop_append_of_le_length (by rwa [length_siblingLines]), List.filterMap_append, siblingLines,
    ← List.map_drop, ← siblingLines, gives_siblingLines]
  simp [lastLine]

theorem sibling_proofLines {k : Nat} {l : ProofLine} (hk : k < steps.length)
    (hl : (proofLines txid hpos hlt index blockhash hlen steps)[k + 6]? = some l) :
    ∃ s, steps[k]? = some s ∧ l.gives = some (.sibling s) := by
  have hrest : (siblingLines steps ++ [lastLine])[k]? = some l := hl
  rw [List.getElem?_append_left (by rwa [length_siblingLines]), siblingLines, List.getElem?_map] at hrest
  obtain ⟨s, hs, rfl⟩ := Option.map_eq_some_iff.mp hrest
  exact ⟨s, hs, rfl⟩

/-- A proof with one sibling exchanged. -/
theorem proofFields_set {k : Nat} (hk : k < steps.length) (s : MerkleStep) :
    proofFields txid height blockhash header (steps.set k s) =
      proofFields txid height blockhash header (steps.take k) ++ Field.sibling s :: (steps.drop (k + 1)).map Field.sibling := by
  rw [List.set_eq_take_append_cons_drop, if_pos hk]
  simp [proofFields]

/-! ### Lines that are joined -/

/-- Of two lines that follow each other one gives something. -/
theorem gives_of_adjacent {i : Nat} {l next : ProofLine}
    (hl : (proofLines txid hpos hlt index blockhash hlen steps)[i]? = some l)
    (hnext : (proofLines txid hpos hlt index blockhash hlen steps)[i + 1]? = some next) :
    l.kind ≠ .last ∧ (l.gives ≠ none ∨ next.gives ≠ none) := by
  have hrange := (List.getElem?_eq_some_iff.mp hnext).1
  have hkind := kind_proofLines hl
  have hkind' := kind_proofLines hnext
  rw [length_proofLines] at hrange
  match i with
  | 0 =>
      have hfirst : l.kind = .title := hkind
      have hsecond : next.kind = .txid := hkind'
      exact ⟨hfirst.trans_ne (by decide), Or.inr (next.gives_ne_none hsecond (by decide))⟩
  | 1 =>
      have hfirst : l.kind = .txid := hkind
      exact ⟨hfirst.trans_ne (by decide), Or.inl (l.gives_ne_none hfirst (by decide))⟩
  | 2 =>
      have hfirst : l.kind = .height := hkind
      exact ⟨hfirst.trans_ne (by decide), Or.inl (l.gives_ne_none hfirst (by decide))⟩
  | 3 =>
      have hfirst : l.kind = .index := hkind
      have hsecond : next.kind = .blockhash := hkind'
      exact ⟨hfirst.trans_ne (by decide), Or.inr (next.gives_ne_none hsecond (by decide))⟩
  | 4 =>
      have hfirst : l.kind = .blockhash := hkind
      exact ⟨hfirst.trans_ne (by decide), Or.inl (l.gives_ne_none hfirst (by decide))⟩
  | 5 =>
      have hfirst : l.kind = .header := hkind
      exact ⟨hfirst.trans_ne (by decide), Or.inl (l.gives_ne_none hfirst (by decide))⟩
  | i + 6 =>
      rw [lineKind, if_pos (by omega)] at hkind
      exact ⟨hkind.trans_ne (by decide), Or.inl (l.gives_ne_none hkind (by decide))⟩

end

/-! ### What a change does -/

/-- A field is lost or has another value. -/
inductive Spoiled (L : List Field) : List Field → Prop where
  | lost {L' : List Field} (hsub : L'.Sublist L) (hlen : L'.length < L.length) : Spoiled L L'
  | changed {front back : List Field} {F F' : Field} (hL : L = front ++ F :: back) (hkind : F'.kind = F.kind)
      (hne : F' ≠ F) (hside : ∀ s s', F = .sibling s → F' = .sibling s' → s'.left = s.left) :
      Spoiled L (front ++ F' :: back)

/-- The changes of a character that leave what the reader gets. -/
def Kept (siblings : Nat) (before : List Char) (old c : Char) : Prop :=
  if old = '\n' then
    lineKind siblings (lineOf before) = .last ∨ (lineKind siblings (lineOf before) = .height ∧ c.isDigit = false)
  else Skipped (lineKind siblings (lineOf before)) (columnOf before) old c

/-- The changes that turn the side of a sibling. -/
def Turned (siblings : Nat) (before : List Char) (old c : Char) : Prop :=
  lineKind siblings (lineOf before) = .sibling ∧ columnOf before = 8 ∧ c ≠ '\n' ∧ (old = 'L' ∨ c = 'L')

/-- A line spoils the rest by what it gives itself. -/
theorem spoiled_of_edit {front back : List Field} {l : ProofLine} {r : Option Field} (hne : r ≠ l.gives)
    (hgives : l.gives ≠ none) (hkind : ∀ F ∈ r, F.kind = l.kind)
    (hside : ∀ s s', l.gives = some (.sibling s) → r = some (.sibling s') → s'.left = s.left) :
    Spoiled (front ++ l.gives.toList ++ back) (front ++ r.toList ++ back) := by
  obtain ⟨F, hF⟩ := Option.ne_none_iff_exists'.mp hgives
  rw [hF] at hne hside ⊢
  rw [List.append_assoc, List.append_assoc]
  cases r with
  | none =>
      refine Spoiled.lost ?_ ?_
      · exact (List.sublist_append_right _ _).append_left _
      · simp
  | some F' =>
      refine Spoiled.changed rfl ?_ (fun heq => hne (congrArg some heq)) fun s s' hs hs' => ?_
      · exact (hkind F' rfl).trans (l.kind_gives hF).symm
      · exact hside s s' (congrArg some hs) (congrArg some hs')

/-- A change on a line of a text. -/
theorem fields_of_edit (front back : List ProofLine) {l : ProofLine} {head tail : List Char} {old c : Char}
    (htext : l.text = head ++ old :: tail) (hc : c ≠ old) :
    (Skipped l.kind head.length old c →
      fields (ProofLine.unlines front ++ head ++ c :: (tail ++ '\n' :: ProofLine.unlines back)) =
        (front ++ l :: back).filterMap ProofLine.gives) ∧
    (¬Skipped l.kind head.length old c →
      ¬(l.kind = .sibling ∧ head.length = 8 ∧ c ≠ '\n' ∧ (old = 'L' ∨ c = 'L')) →
      Spoiled ((front ++ l :: back).filterMap ProofLine.gives)
        (fields (ProofLine.unlines front ++ head ++ c :: (tail ++ '\n' :: ProofLine.unlines back)))) := by
  obtain ⟨r, hfields, hskip, hrkind, hside⟩ := ProofLine.fields_edit front back htext hc
  rw [hfields, ← hskip, ProofLine.gives_append_cons]
  refine ⟨fun heq => by rw [heq], fun hne hturn => spoiled_of_edit hne (fun hnone => hne ?_) hrkind ?_⟩
  · exact hskip.mpr (l.skipped_of_gives_none hnone _ _ _)
  · intro s s' hs hs'
    refine (hside s s' hs hs').resolve_left fun ⟨hlen, hbreak⟩ => ?_
    -- A change in the place of the side is a turn, unless an `R` becomes something that counts as one.
    have hsibling : l.kind = .sibling := (l.kind_gives hs).symm
    obtain ⟨body, hbody, hwritten⟩ := l.sibling_of_gives hs
    obtain ⟨hold, -⟩ := hwritten.field_turn (hbody.symm.trans htext) hlen c
    have hsides : ¬(old = 'L' ∨ c = 'L') := fun hsides => hturn ⟨hsibling, hlen, hbreak, hsides⟩
    rw [not_or] at hsides
    apply hne
    rw [hskip, hsibling]
    refine Or.inl ⟨hlen, ?_, hsides.2, hbreak⟩
    rw [hold] at hsides ⊢
    cases hleft : s.left with
    | true => exact absurd (if_pos hleft) hsides.1
    | false => rfl

/-- A line that is joined with the next one. -/
theorem fields_of_join (front back : List ProofLine) {l next : ProofLine} {c : Char} (hc : c ≠ '\n')
    (hgives : l.gives ≠ none ∨ next.gives ≠ none) (hindex : l.kind = .height → next.kind = .index) :
    (l.kind = .height ∧ c.isDigit = false →
      fields (ProofLine.unlines front ++ l.text ++ c :: ProofLine.unlines (next :: back)) =
        (front ++ l :: next :: back).filterMap ProofLine.gives) ∧
    (¬(l.kind = .height ∧ c.isDigit = false) →
      Spoiled ((front ++ l :: next :: back).filterMap ProofLine.gives)
        (fields (ProofLine.unlines front ++ l.text ++ c :: ProofLine.unlines (next :: back)))) := by
  have hsplit : (next :: back).filterMap ProofLine.gives = next.gives.toList ++ back.filterMap ProofLine.gives :=
    ProofLine.gives_append_cons [] next back
  rw [ProofLine.fields_join front back l next hc, ProofLine.gives_append_cons, hsplit]
  by_cases hheight : l.kind = .height
  · obtain ⟨n, m, hn, hm, hsame⟩ := ProofLine.field_join_height hheight (hindex hheight) c
    rw [hn, hm, next.gives_eq_none (hindex hheight) (by decide), Option.toList_none, List.nil_append,
      and_iff_right hheight, ← hsame]
    refine ⟨fun heq => by rw [heq], fun hne => ?_⟩
    rw [List.append_assoc, List.append_assoc]
    refine Spoiled.changed rfl rfl (fun heq => hne (Field.height.inj heq)) fun s s' hs => ?_
    cases hs
  · rw [ProofLine.field_join_eq_none hheight]
    refine ⟨fun hkept => absurd hkept.1 hheight, fun _ => Spoiled.lost ?_ ?_⟩
    · rw [Option.toList_none, List.append_nil, List.append_assoc, ← List.append_assoc l.gives.toList]
      exact (List.sublist_append_right _ _).append_left _
    · have hpos : 0 < l.gives.toList.length + next.gives.toList.length := by
        rcases hgives with hgives | hgives
        · obtain ⟨F, hF⟩ := Option.ne_none_iff_exists'.mp hgives
          simp [hF]
        · obtain ⟨F, hF⟩ := Option.ne_none_iff_exists'.mp hgives
          simp [hF]
      rw [Option.toList_none, List.append_nil, List.length_append, List.length_append, List.length_append,
        List.length_append]
      omega

section

variable {txid : H256} {height : UInt64} {index : UInt32} {blockhash : H256} {header : Bytes} {steps : List MerkleStep}
  {before after : List Char} {old c : Char}

/-- **A change of one character is noticed by the reader, or it is one of those that leave everything.** -/
theorem fields_of_change (hpos : 0 < height.toNat) (hlt : height.toNat < 2 ^ 32) (hlen : header.length = headerSize)
    (htext : (proofText txid height index blockhash header steps).toList = before ++ old :: after) (hc : c ≠ old) :
    (Kept steps.length before old c → fields (before ++ c :: after) = proofFields txid height blockhash header steps) ∧
    (¬Kept steps.length before old c → ¬Turned steps.length before old c →
      Spoiled (proofFields txid height blockhash header steps) (fields (before ++ c :: after))) := by
  rw [← unlines_proofLines hpos hlt index hlen] at htext
  rw [← gives_proofLines hpos hlt index hlen]
  obtain ⟨front, l, back, head, hls, rfl, hline, hcol, hplace⟩ := ProofLine.place_of_unlines htext
  have hl : (proofLines txid hpos hlt index blockhash hlen steps)[front.length]? = some l := by
    rw [hls, List.getElem?_append_right (Nat.le_refl _), Nat.sub_self]
    rfl
  have hkind := kind_proofLines hl
  rw [Kept, Turned, hline, hcol, ← hkind]
  rcases hplace with ⟨tail, hltext, rfl⟩ | ⟨rfl, rfl, rfl⟩
  · have hold : old ≠ '\n' := l.noBreak old (hltext ▸ List.mem_append_right _ List.mem_cons_self)
    rw [if_neg hold, hls]
    exact fields_of_edit front back hltext hc
  · rw [if_pos rfl]
    cases back with
    | nil =>
        have hlast : l.kind = .last := by
          have hcount := congrArg List.length hls
          rw [length_proofLines, List.length_append, List.length_singleton] at hcount
          rw [hkind, show front.length = steps.length + 6 by omega, lineKind, if_neg (Nat.lt_irrefl _)]
        have hfields : fields (ProofLine.unlines front ++ l.text ++ c :: ProofLine.unlines []) = _ :=
          ProofLine.fields_last front hlast hc
        rw [hfields, hls, ProofLine.gives_append_cons, l.gives_eq_none hlast (by decide)]
        exact ⟨fun _ => by simp, fun hnot _ => absurd (Or.inl hlast) hnot⟩
    | cons next back =>
        have hnext : (proofLines txid hpos hlt index blockhash hlen steps)[front.length + 1]? = some next := by
          rw [hls, List.getElem?_append_right (Nat.le_add_right front.length 1), Nat.add_sub_cancel_left]
          rfl
        obtain ⟨hlast, hgives⟩ := gives_of_adjacent hl hnext
        have hindex : l.kind = .height → next.kind = .index := by
          intro hheight
          rw [kind_proofLines hnext, eq_two_of_lineKind (hkind.symm.trans hheight)]
          rfl
        have hjoin := fields_of_join front back hc hgives hindex
        rw [or_iff_right hlast, hls]
        exact ⟨hjoin.1, fun hnot _ => hjoin.2 hnot⟩

/-- **A change of side turns one sibling.** -/
theorem fields_of_turn (hpos : 0 < height.toNat) (hlt : height.toNat < 2 ^ 32) (hlen : header.length = headerSize)
    (htext : (proofText txid height index blockhash header steps).toList = before ++ old :: after) (hc : c ≠ old)
    (hturn : Turned steps.length before old c) : ∃ k s, lineOf before = k + 6 ∧ steps[k]? = some s ∧
      old = (if s.left then 'L' else 'R') ∧ fields (before ++ c :: after) =
        proofFields txid height blockhash header (steps.set k ⟨s.h, !s.left⟩) := by
  rw [← unlines_proofLines hpos hlt index hlen] at htext
  obtain ⟨hkind, hlen8, hbreak, hsides⟩ := hturn
  obtain ⟨k, hline, hk⟩ := exists_of_lineKind hkind
  obtain ⟨front, l, back, head, hls, rfl, hfront, hcol, hplace⟩ := ProofLine.place_of_unlines htext
  rw [hline] at hfront
  rw [hcol] at hlen8
  have hl : (proofLines txid hpos hlt index blockhash hlen steps)[k + 6]? = some l := by
    rw [hls, hfront, List.getElem?_append_right (Nat.le_refl _), Nat.sub_self]
    rfl
  obtain ⟨s, hs, hgives⟩ := sibling_proofLines hk hl
  obtain ⟨body, hbody, hwritten⟩ := l.sibling_of_gives hgives
  rcases hplace with ⟨tail, hltext, rfl⟩ | ⟨rfl, rfl, rfl⟩
  · obtain ⟨hold, hfield⟩ := hwritten.field_turn (hbody.symm.trans hltext) hlen8 c
    refine ⟨k, s, hline, hs, hold, ?_⟩
    have hnew : (c == 'L') = !s.left := by
      cases hleft : s.left with
      | true =>
          rw [hleft, if_pos rfl] at hold
          simpa [hold] using hc
      | false =>
          rw [hleft, if_neg Bool.false_ne_true] at hold
          simpa [hold] using hsides
    have hbefore : front.filterMap ProofLine.gives = proofFields txid height blockhash header (steps.take k) := by
      rw [← gives_take hpos hlt index hlen hk.le, hls, hfront, List.take_left]
    have hafter : back.filterMap ProofLine.gives = (steps.drop (k + 1)).map Field.sibling := by
      have hcount : (front ++ [l]).length = k + 7 := by
        rw [List.length_append, List.length_singleton, ← hfront]
      rw [← gives_drop hpos hlt index hlen hk, hls, List.append_cons, List.drop_left' hcount]
    rw [ProofLine.fields_within front back hltext hbreak, hfield, hnew, hbefore, hafter, proofFields_set hk]
    simp
  · rw [hbody] at hlen8
    cases hwritten
    have hcount : 8 + _ = 8 := List.length_append.symm.trans hlen8
    rw [List.length_cons] at hcount
    omega

end

end Chainlite
