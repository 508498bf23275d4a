import Chainlite.BaseFind

/-! Records written as text, one field after another, each a quoted name, a colon and a value. A reader that searches for
the quoted name and the colon finds the field of that name, since a quote that closes a name or a value is followed by
what no name begins with. -/

namespace Text

variable {α : Type} [DecidableEq α]

/-- What follows the first occurrence of a pattern. -/
def after (pat text : List α) : Option (List α) := (find pat text).map fun i => text.drop (i + pat.length)

theorem after_of_prefix (pat rest : List α) : after pat (pat ++ rest) = some rest := by
  rw [after, find_of_prefix (List.prefix_append _ _), Option.map_some, Nat.zero_add, List.drop_left]

/-- A part that the search passes over makes no difference. -/
theorem after_skip (front : List α) {pat rest : List α} (h : find pat (front ++ rest) = (find pat rest).map (· + front.length)) :
    after pat (front ++ rest) = after pat rest := by
  have hdrop : ∀ i, (front ++ rest).drop (i + front.length + pat.length) = rest.drop (i + pat.length) := by
    intro i
    rw [show i + front.length + pat.length = front.length + (i + pat.length) by omega, ← List.drop_drop, List.drop_left]
  rw [after, after, h, Option.map_map]
  exact congrArg (fun f => (find pat rest).map f) (funext hdrop)

theorem after_append {pat text rest : List α} (h : after pat text = some rest) (more : List α) :
    after pat (text ++ more) = some (rest ++ more) := by
  obtain ⟨i, hi, rfl⟩ := Option.map_eq_some_iff.mp h
  rw [after, find_append hi, Option.map_some, List.drop_append_of_le_length (find_add_length_le hi)]

/-- What is found in the beginning of a text is found in the text. -/
theorem after_of_part {pat part text rest : List α} (hpart : part <+: text) (h : after pat part = some rest) :
    ∃ rest', after pat text = some rest' ∧ rest <+: rest' := by
  obtain ⟨more, rfl⟩ := hpart
  exact ⟨rest ++ more, after_append h more, List.prefix_append _ _⟩

/-- The same place is found with one more character of the text in the pattern. -/
theorem after_extend {pat text rest : List α} {c : α} (h : after pat text = some (c :: rest)) :
    after (pat ++ [c]) text = some rest := by
  obtain ⟨i, hi, hrest⟩ := Option.map_eq_some_iff.mp h
  obtain ⟨hle, hat, hfirst⟩ := find_eq_some_iff.mp hi
  have hsplit : text.drop i = pat ++ c :: rest := by
    obtain ⟨more, hmore⟩ := hat
    rw [← List.drop_drop, ← hmore, List.drop_left] at hrest
    rw [← hmore, hrest]
  have hlonger : find (pat ++ [c]) text = some i := by
    refine find_eq_some_iff.mpr ⟨hle, ?_, fun j hj hpre => hfirst j hj ((List.prefix_append _ _).trans hpre)⟩
    rw [hsplit]
    exact ⟨rest, by simp⟩
  rw [after, hlonger, Option.map_some, ← List.drop_drop, hsplit]
  simp

/-! ### Quoted names -/

section
variable {q c : α} {key : List α}

/-- The name in quotes and the colon. -/
def named (q c : α) (key : List α) : List α := q :: (key ++ [q, c])

/-- What may follow the quote that closes a value: it is not the beginning of the name. -/
def Stops (q c : α) (key rest : List α) : Prop := ∃ x tail, rest = x :: tail ∧ x ∉ key ∧ x ≠ q ∧ x ≠ c

/-- Between two quotes stands another name, or no colon follows. -/
theorem after_quoted (hkey : q ∉ key) {part rest : List α} (hpart : q ∉ part)
    (hother : part = key → rest.head? ≠ some c) :
    after (named q c key) (q :: (part ++ q :: rest)) = after (named q c key) (q :: rest) := by
  have hnot : ¬named q c key <+: q :: (part ++ q :: rest) := by
    intro hpre
    have hpre : key ++ q :: [c] <+: part ++ q :: rest := (List.cons_prefix_cons.mp hpre).2
    obtain ⟨more, hmore⟩ := hpre
    rw [List.append_assoc, List.cons_append] at hmore
    have hcut := congrArg (cutFirst q) hmore
    rw [cutFirst_append hkey, cutFirst_append hpart] at hcut
    injection hcut with hcut
    injection hcut with hsame hrest
    refine hother hsame.symm ?_
    rw [← hrest]
    rfl
  refine after_skip (q :: part) ?_
  calc find (named q c key) (q :: (part ++ q :: rest))
      = (find (named q c key) (part ++ q :: rest)).map (· + 1) := find_cons_of_not hnot
    _ = (find (named q c key) (q :: rest)).map (· + (q :: part).length) := by
        rw [named, find_skip hpart, Option.map_map]
        rfl

/-- A quote that no name follows, and then no quote for a while. -/
theorem after_closing {x : α} (part : List α) {rest : List α} (hx : x ∉ key) (hxq : x ≠ q) (hstart : (part ++ rest).head? = some x)
    (hpart : q ∉ part) : after (named q c key) (q :: (part ++ rest)) = after (named q c key) rest := by
  have hnot : ¬named q c key <+: q :: (part ++ rest) := by
    intro hpre
    obtain ⟨tail, htail⟩ := List.head?_eq_some_iff.mp hstart
    have hpre : key ++ [q, c] <+: part ++ rest := (List.cons_prefix_cons.mp hpre).2
    rw [htail] at hpre
    cases key with
    | nil => exact hxq (List.cons_prefix_cons.mp hpre).1.symm
    | cons y key => exact hx ((List.cons_prefix_cons.mp hpre).1 ▸ List.mem_cons_self)
  refine after_skip (q :: part) ?_
  calc find (named q c key) (q :: (part ++ rest))
      = (find (named q c key) (part ++ rest)).map (· + 1) := find_cons_of_not hnot
    _ = (find (named q c key) rest).map (· + (q :: part).length) := by
        rw [named, find_skip hpart, Option.map_map]
        rfl

/-! ### Fields -/

/-- A value: as it stands, or in quotes. -/
inductive Value (α : Type) where
  | bare (text : List α)
  | quoted (text : List α)

def Value.text (q : α) : Value α → List α
  | .bare text => text
  | .quoted text => q :: (text ++ [q])

def Value.inner : Value α → List α
  | .bare text => text
  | .quoted text => text

/-- The fields, the first behind `lead` and the others behind `sep`, and then `rest`. -/
def fields (q c lead sep : α) : List (List α × Value α) → List α → List α
  | [], rest => rest
  | (name, value) :: more, rest => lead :: (named q c name ++ (value.text q ++ fields q c sep sep more rest))

/-- A field of another name is passed over. -/
theorem after_field (hkey : q ∉ key) (hcolon : c ∉ key) (hqc : q ≠ c) {lead : α} (hlead : lead ≠ q) {name : List α}
    (hname : q ∉ name) (hother : name ≠ key) {value : Value α} (hvalue : q ∉ value.inner) {rest : List α}
    (hstops : Stops q c key rest) :
    after (named q c key) (lead :: (named q c name ++ (value.text q ++ rest))) = after (named q c key) rest := by
  obtain ⟨x, tail, rfl, hx, hxq, hxc⟩ := hstops
  have hfirst : after (named q c key) (lead :: (named q c name ++ (value.text q ++ x :: tail))) =
      after (named q c key) (q :: (c :: (value.text q ++ x :: tail))) := by
    have hsplit : named q c name ++ (value.text q ++ x :: tail) = q :: (name ++ q :: (c :: (value.text q ++ x :: tail))) := by
      simp [named]
    calc after (named q c key) (lead :: (named q c name ++ (value.text q ++ x :: tail)))
        = after (named q c key) (named q c name ++ (value.text q ++ x :: tail)) :=
          after_skip [lead] (find_skip (by simpa using hlead.symm) _)
      _ = after (named q c key) (q :: (c :: (value.text q ++ x :: tail))) := by
          rw [hsplit]
          exact after_quoted hkey hname fun heq => absurd heq hother
  rw [hfirst]
  cases value with
  | bare text => exact after_closing (c :: text) hcolon hqc.symm rfl (List.not_mem_cons_of_ne_of_not_mem hqc hvalue)
  | quoted text =>
      have hclose : (x :: tail).head? ≠ some c := fun heq => hxc (Option.some.inj heq)
      have hvalue : q ∉ text := hvalue
      have hopen : q ∉ [c] := List.not_mem_cons_of_ne_of_not_mem hqc List.not_mem_nil
      have hname : [c] ≠ key := fun heq => hcolon (heq ▸ List.mem_cons_self)
      calc after (named q c key) (q :: (c :: (q :: (text ++ [q]) ++ x :: tail)))
          = after (named q c key) (q :: ([c] ++ q :: (text ++ q :: x :: tail))) := by simp
        _ = after (named q c key) (q :: (text ++ q :: x :: tail)) := after_quoted hkey hopen fun heq => absurd heq hname
        _ = after (named q c key) (q :: ([] ++ x :: tail)) := after_quoted hkey hvalue fun _ => hclose
        _ = after (named q c key) (x :: tail) := after_closing [] hx hxq rfl List.not_mem_nil

/-- **A field is found by its name** behind fields of other names. -/
theorem after_fields (hkey : q ∉ key) (hcolon : c ∉ key) (hqc : q ≠ c) {lead sep : α} (hlead : lead ≠ q) (hsep : sep ≠ q)
    (hsepkey : sep ∉ key) (hsepc : sep ≠ c) {before more : List (List α × Value α)}
    (hbefore : ∀ f ∈ before, q ∉ f.1 ∧ f.1 ≠ key ∧ q ∉ f.2.inner) (value : Value α) (rest : List α) :
    after (named q c key) (fields q c lead sep (before ++ (key, value) :: more) rest) =
      some (value.text q ++ fields q c sep sep more rest) := by
  induction before generalizing lead with
  | nil =>
      calc after (named q c key) (lead :: (named q c key ++ (value.text q ++ fields q c sep sep more rest)))
          = after (named q c key) (named q c key ++ (value.text q ++ fields q c sep sep more rest)) :=
            after_skip [lead] (find_skip (by simpa using hlead.symm) _)
        _ = some (value.text q ++ fields q c sep sep more rest) := after_of_prefix _ _
  | cons f before ih =>
      obtain ⟨⟨hname, hother, hvalue⟩, hbefore⟩ := List.forall_mem_cons.mp hbefore
      have hstops : Stops q c key (fields q c sep sep (before ++ (key, value) :: more) rest) := by
        cases before with
        | nil => exact ⟨sep, _, rfl, hsepkey, hsep, hsepc⟩
        | cons g before => exact ⟨sep, _, rfl, hsepkey, hsep, hsepc⟩
      rw [List.cons_append, fields, after_field hkey hcolon hqc hlead hname hother hvalue hstops]
      exact ih hsep hbefore

end

end Text
