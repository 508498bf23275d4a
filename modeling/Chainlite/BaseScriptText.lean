import Chainlite.BaseScript

/-! The strings of the browser's language, as far as a line-by-line reader needs them: trimming, splitting at line breaks
and at white space, and the reader of numbers. A reader of numbers skips white space, takes a sign and a prefix `0x`, and
stops at the first character that is no digit; without a digit it gives no number. -/

namespace Chainlite

namespace Script

/-- White space and line terminators, as `trim` and `\s` take them. -/
def isBlank (c : Char) : Bool :=
  (9 ≤ c.toNat && c.toNat ≤ 13) || (0x2000 ≤ c.toNat && c.toNat ≤ 0x200a) ||
    [0x20, 0xa0, 0x1680, 0x2028, 0x2029, 0x202f, 0x205f, 0x3000, 0xfeff].contains c.toNat

def trim (s : List Char) : List Char := (s.dropWhile isBlank).rdropWhile isBlank

/-- `s.split(/\r?\n/)`. -/
def splitLines : List Char → List (List Char)
  | [] => [[]]
  | '\r' :: '\n' :: rest => [] :: splitLines rest
  | c :: rest =>
      if c = '\n' then [] :: splitLines rest
      else
        match splitLines rest with
        | [] => [[c]]
        | line :: more => (c :: line) :: more

/-- `s.split(/\s+/)`: a run of white space is one separator. -/
def splitBlanks : List Char → List (List Char)
  | [] => [[]]
  | c :: rest =>
      if isBlank c then
        if rest.head?.any isBlank then splitBlanks rest else [] :: splitBlanks rest
      else
        match splitBlanks rest with
        | [] => [[c]]
        | word :: more => (c :: word) :: more

/-- The code units of a text, those above the basic plane standing for none of its characters. -/
def codeUnits (s : List Char) : List Char :=
  s.flatMap fun c => if c.toNat < 0x10000 then [c] else ['\ufffd', '\ufffd']

def digit (radix : Nat) (c : Char) : Option Nat :=
  let v :=
    if '0' ≤ c ∧ c ≤ '9' then c.toNat - '0'.toNat
    else if 'a' ≤ c ∧ c ≤ 'z' then c.toNat - 'a'.toNat + 10
    else if 'A' ≤ c ∧ c ≤ 'Z' then c.toNat - 'A'.toNat + 10
    else radix
  if v < radix then some v else none

/-- The number in front, when there is a digit. -/
def digits (radix : Nat) (s : List Char) : Option Nat :=
  match s.takeWhile fun c => (digit radix c).isSome with
  | [] => none
  | ds => some (ds.foldl (fun n c => n * radix + (digit radix c).getD 0) 0)

def sign : List Char → Bool × List Char
  | '-' :: rest => (true, rest)
  | '+' :: rest => (false, rest)
  | s => (false, s)

/-- The radix, and what stands behind its prefix. -/
def radixOf (hex : Bool) : List Char → Nat × List Char
  | '0' :: 'x' :: rest => (16, rest)
  | '0' :: 'X' :: rest => (16, rest)
  | s => (if hex then 16 else 10, s)

/-- `parseInt(s)`, or `parseInt(s, 16)` when `hex` is set; none stands for `NaN`. The browser rounds a number that is
too long for it, and none of these is zero. -/
def parseInt (hex : Bool) (s : List Char) : Option Int :=
  let (negative, s) := sign (s.dropWhile isBlank)
  let (radix, s) := radixOf hex s
  (digits radix s).map fun n : Nat => if negative then -(n : Int) else n

/-! ### Characters -/

theorem not_isBlank_of_ascii {c : Char} (hlow : 0x20 < c.toNat) (hhigh : c.toNat < 0xa0) : isBlank c = false := by
  simp only [isBlank, List.contains_cons, List.contains_nil, Bool.or_false, Bool.or_eq_false_iff, Bool.and_eq_false_iff,
    decide_eq_false_iff_not, beq_eq_false_iff_ne]
  omega

theorem codeUnits_eq_self {s : List Char} (h : ∀ c ∈ s, c.toNat < 0x10000) : codeUnits s = s := by
  induction s with
  | nil => rfl
  | cons c s ih =>
      obtain ⟨hc, hs⟩ := List.forall_mem_cons.mp h
      have hfirst : codeUnits (c :: s) = (if c.toNat < 0x10000 then [c] else ['\ufffd', '\ufffd']) ++ codeUnits s := rfl
      rw [hfirst, if_pos hc, ih hs]
      rfl

/-! ### Trimming -/

theorem dropWhile_of_head {s : List Char} (h : ∀ c ∈ s.head?, isBlank c = false) : s.dropWhile isBlank = s := by
  cases s with
  | nil => rfl
  | cons c rest => rw [List.dropWhile_cons, h c rfl, if_neg (by decide)]

theorem trim_eq_self {s : List Char} (hhead : ∀ c ∈ s.head?, isBlank c = false)
    (hlast : ∀ c ∈ s.getLast?, isBlank c = false) : trim s = s := by
  rw [trim, dropWhile_of_head hhead, List.rdropWhile_eq_self_iff]
  intro hne hblank
  rw [hlast _ (List.getLast?_eq_some_getLast hne)] at hblank
  exact absurd hblank (by decide)

theorem rdropWhile_append_of_all {p : Char → Bool} (s : List Char) {tail : List Char} (h : ∀ c ∈ tail, p c = true) :
    (s ++ tail).rdropWhile p = s.rdropWhile p := by
  unfold List.rdropWhile
  rw [List.reverse_append, List.dropWhile_append_of_pos fun c hc => h c (List.mem_reverse.mp hc)]

/-- Blanks at the end do not count. -/
theorem trim_append (s : List Char) {tail : List Char} (h : ∀ c ∈ tail, isBlank c = true) :
    trim (s ++ tail) = trim s := by
  unfold trim
  by_cases hblank : ∀ c ∈ s, isBlank c = true
  · have hs : s.dropWhile isBlank = [] := List.dropWhile_eq_nil_iff.mpr hblank
    have hall : (s ++ tail).dropWhile isBlank = [] := by
      rw [List.dropWhile_append_of_pos hblank]
      exact List.dropWhile_eq_nil_iff.mpr h
    rw [hs, hall]
  · have hne : s.dropWhile isBlank ≠ [] := fun hnil => hblank (List.dropWhile_eq_nil_iff.mp hnil)
    rw [List.dropWhile_append, if_neg (by simpa using hne)]
    exact rdropWhile_append_of_all _ h

/-- A word without blanks is trimmed, and so is a text that begins and ends with one. -/
theorem trim_of_no_blank {s : List Char} (h : ∀ c ∈ s, isBlank c = false) : trim s = s :=
  trim_eq_self (fun c hc => h c (List.mem_of_mem_head? hc)) fun c hc => h c (List.mem_of_getLast? hc)

/-! ### Words -/

theorem splitBlanks_word {w : List Char} (h : ∀ c ∈ w, isBlank c = false) : splitBlanks w = [w] := by
  induction w with
  | nil => rfl
  | cons c w ih =>
      obtain ⟨hc, hw⟩ := List.forall_mem_cons.mp h
      rw [splitBlanks, hc, if_neg (by decide), ih hw]

/-- A word is followed by a blank, and that by a character that is none. -/
theorem splitBlanks_append {w : List Char} (h : ∀ c ∈ w, isBlank c = false) {blank next : Char} {rest : List Char}
    (hblank : isBlank blank = true) (hnext : isBlank next = false) :
    splitBlanks (w ++ blank :: next :: rest) = w :: splitBlanks (next :: rest) := by
  induction w with
  | nil => rw [List.nil_append, splitBlanks, if_pos hblank, if_neg (by simp [hnext])]
  | cons c w ih =>
      obtain ⟨hc, hw⟩ := List.forall_mem_cons.mp h
      rw [List.cons_append, splitBlanks, hc, if_neg (by decide), ih hw]

/-! ### Numbers -/

theorem digits_of_all {radix : Nat} {s : List Char} (hne : s ≠ []) (h : ∀ c ∈ s, (digit radix c).isSome = true) :
    digits radix s = some (s.foldl (fun n c => n * radix + (digit radix c).getD 0) 0) := by
  have htake : s.takeWhile (fun c => (digit radix c).isSome) = s := List.takeWhile_eq_self_iff.mpr h
  rw [digits, htake]
  cases s with
  | nil => exact absurd rfl hne
  | cons c s => rfl

/-- What begins with a digit and has no prefix is read at once. -/
theorem parseInt_eq {hex : Bool} {s : List Char} (hhead : ∀ c ∈ s.head?, isBlank c = false ∧ c ≠ '-' ∧ c ≠ '+')
    (hsecond : ∀ c ∈ s.tail.head?, c ≠ 'x' ∧ c ≠ 'X') :
    parseInt hex s = (digits (if hex then 16 else 10) s).map fun n : Nat => (n : Int) := by
  have hsign : sign s = (false, s) := by
    unfold sign
    split
    · exact absurd rfl (hhead '-' rfl).2.1
    · exact absurd rfl (hhead '+' rfl).2.2
    · rfl
  have hradix : radixOf hex s = (if hex then 16 else 10, s) := by
    unfold radixOf
    split
    · exact absurd rfl (hsecond 'x' rfl).1
    · exact absurd rfl (hsecond 'X' rfl).2
    · rfl
  rw [parseInt, dropWhile_of_head fun c hc => (hhead c hc).1, hsign]
  dsimp only
  rw [hradix]
  rfl

end Script

end Chainlite
