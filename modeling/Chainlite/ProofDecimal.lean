import Chainlite.ProofFields

/-! Decimal numbers in a proof. The reader takes digits up to the first other character, behind blanks and a sign.
A number that has been changed in one place or cut is read as another one; one that is followed by something is
read as it was, unless what follows starts with a digit. -/

open Std

namespace Chainlite

/-! ### What is cut off -/

theorem trimEnd_plain {s : List Char} (h : ∀ c ∈ s, Plain c) : trimEnd s = s := by
  refine List.rdropWhile_eq_self_iff.mpr fun hne hlast => ?_
  obtain ⟨-, hcr, hblank⟩ := h _ (List.getLast_mem hne)
  simp [hcr, hblank] at hlast

theorem trimEnd_digits {s : List Char} (h : ∀ c ∈ s, c.isDigit = true) : trimEnd s = s :=
  trimEnd_plain fun c hc => plain_of_isDigit (h c hc)

/-- What is not trimmed itself is not trimmed in front of anything. -/
theorem trimEnd_append_of_trimmed {front : List Char} (h : trimEnd front = front) (back : List Char) :
    trimEnd (front ++ back) = front ++ trimEnd back := by
  rw [trimEnd_append]
  split
  · rename_i hback
    rw [h, hback, List.append_nil]
  · rfl

/-- One character in front of what is not trimmed goes with the whole or stays. -/
theorem trimEnd_cons {back : List Char} (h : trimEnd back = back) (c : Char) :
    trimEnd (c :: back) = [] ∨ trimEnd (c :: back) = c :: back := by
  rw [← List.singleton_append, trimEnd_append, h]
  split
  · rename_i hnil
    rw [hnil, List.append_nil, trimEnd, List.rdropWhile_singleton]
    split
    · exact Or.inl rfl
    · exact Or.inr rfl
  · exact Or.inr rfl

/-! ### Digits and their value -/

theorem decimal_append (front : List Char) (c : Char) (after : List Char) :
    decimal (front ++ c :: after) = 10 ^ after.length * (10 * decimal front + (c.toNat - '0'.toNat)) + decimal after := by
  rw [decimal, Nat.ofDigitChars_append, Nat.ofDigitChars_cons, Nat.ofDigitChars_eq_ofDigitChars_zero]

theorem digit_bounds {c : Char} (h : c.isDigit = true) : '0'.toNat ≤ c.toNat ∧ c.toNat ≤ '9'.toNat := by
  simp only [Char.isDigit, Bool.and_eq_true, decide_eq_true_eq] at h
  exact h

/-- Another digit in one place gives another value. -/
theorem decimal_edit_ne {front after : List Char} {old c : Char} (hold : old.isDigit = true) (hc : c.isDigit = true)
    (hne : c ≠ old) : decimal (front ++ c :: after) ≠ decimal (front ++ old :: after) := by
  obtain ⟨hold0, -⟩ := digit_bounds hold
  obtain ⟨hc0, -⟩ := digit_bounds hc
  have hdigit : c.toNat ≠ old.toNat := fun heq => hne (Char.toNat_inj.mp heq)
  rw [decimal_append, decimal_append]
  intro heq
  have hmul := Nat.eq_of_mul_eq_mul_left (Nat.pow_pos (by decide)) (Nat.add_right_cancel heq)
  omega

/-- The first digits of a number give less. -/
theorem decimal_front_lt {front after : List Char} {old : Char} (hpos : 0 < decimal (front ++ old :: after)) :
    decimal front < decimal (front ++ old :: after) := by
  rw [decimal_append] at hpos ⊢
  have hpow : 1 ≤ 10 ^ after.length := Nat.one_le_pow _ _ (by decide)
  have hmul := Nat.le_mul_of_pos_left (10 * decimal front + (old.toNat - '0'.toNat)) hpow
  omega

theorem decimal_lt_pow {digits : List Char} (h : ∀ c ∈ digits, c.isDigit = true) :
    decimal digits < 10 ^ digits.length := by
  induction digits with
  | nil => decide
  | cons c rest ih =>
      obtain ⟨hc, hrest⟩ := List.forall_mem_cons.mp h
      have hlt := ih hrest
      obtain ⟨-, h9⟩ := digit_bounds hc
      have hsplit := decimal_append [] c rest
      have hzero : decimal [] = 0 := rfl
      have hmul : 10 ^ rest.length * (c.toNat - '0'.toNat) ≤ 10 ^ rest.length * 9 :=
        Nat.mul_le_mul_left _ (by
          have h0 : '0'.toNat = 48 := rfl
          have h9' : '9'.toNat = 57 := rfl
          omega)
      rw [List.nil_append, hzero, Nat.mul_zero, Nat.zero_add] at hsplit
      rw [hsplit, List.length_cons, Nat.pow_succ]
      omega

/-- A number is not written with a zero in front. -/
theorem decimal_back_lt {n : Nat} (hpos : 0 < n) {old : Char} {after : List Char}
    (h : Nat.toDigits 10 n = old :: after) : decimal after < n := by
  have hdigits : ∀ c ∈ after, c.isDigit = true := fun c hc =>
    isDigit_of_mem_toDigits (h ▸ List.mem_cons_of_mem _ hc)
  cases hafter : after with
  | nil => exact hpos
  | cons y rest =>
      rw [← hafter]
      refine (decimal_lt_pow hdigits).trans_le (Nat.not_lt.mp fun hlt => ?_)
      have hlen := (Nat.length_toDigits_le_iff (by decide) (by simp [hafter])).mpr hlt
      rw [h, List.length_cons] at hlen
      omega

/-- Behind another character, digits are read after a blank or a sign alone. -/
theorem strtoull_cons {c : Char} {digits : List Char} (hc : c.isDigit = false) (h : ∀ x ∈ digits, x.isDigit = true)
    (hlt : decimal digits < 2 ^ 64) : strtoull (c :: digits) = 0 ∨ strtoull (c :: digits) = UInt64.ofNat (decimal digits) ∨
      strtoull (c :: digits) = -UInt64.ofNat (decimal digits) := by
  have htake : digits.takeWhile Char.isDigit = digits := List.takeWhile_eq_self_iff.mpr h
  have hnot : ¬2 ^ 64 ≤ decimal digits := Nat.not_le.mpr hlt
  cases hspace : isSpace c with
  | true =>
      have hself : digits.dropWhile isSpace = digits := by
        cases digits with
        | nil => rfl
        | cons x rest => exact dropWhile_isSpace_cons (h x List.mem_cons_self) rest
      have hskip : strtoull (c :: digits) = strtoull digits := by
        unfold strtoull
        rw [List.dropWhile_cons, hspace, if_pos rfl, hself]
      rw [hskip]
      by_cases hne : digits = []
      · left
        rw [hne]
        rfl
      · right
        left
        exact strtoull_digits hne h hlt
  | false =>
      have hstart : (c :: digits).dropWhile isSpace = c :: digits := by
        rw [List.dropWhile_cons, hspace]
        rfl
      unfold strtoull
      rw [hstart]
      dsimp only
      split
      · rename_i heq
        obtain ⟨-, rfl⟩ := List.cons.inj heq
        right
        right
        rw [htake, if_neg hnot, if_pos rfl]
      · rename_i heq
        obtain ⟨-, rfl⟩ := List.cons.inj heq
        right
        left
        rw [htake, if_neg hnot]
        rfl
      · left
        rw [List.takeWhile_cons, hc]
        rfl

/-! ### The height -/

/-- The digits of a number around one of them. -/
theorem digits_of_split {n : Nat} {front after : List Char} {old : Char}
    (h : Nat.toDigits 10 n = front ++ old :: after) : (∀ x ∈ front, x.isDigit = true) ∧ old.isDigit = true ∧
      (∀ x ∈ after, x.isDigit = true) ∧ decimal (front ++ old :: after) = n := by
  have hdigits : ∀ x ∈ front ++ old :: after, x.isDigit = true := fun x hx => isDigit_of_mem_toDigits (h ▸ hx)
  obtain ⟨hfront, hrest⟩ := List.forall_mem_append.mp hdigits
  obtain ⟨hold, hafter⟩ := List.forall_mem_cons.mp hrest
  refine ⟨hfront, hold, hafter, ?_⟩
  rw [← h]
  exact Nat.ofDigitChars_ten_toDigits

section

variable {n : UInt64} (hpos : 0 < n.toNat) (hlt : n.toNat < 2 ^ 32)
include hpos hlt

omit hpos in
/-- A number with another digit is another one. -/
theorem strtoull_digit_ne {front after : List Char} {old c : Char} (h : Nat.toDigits 10 n.toNat = front ++ old :: after)
    (hne : c ≠ old) (hc : c.isDigit = true) : strtoull (trimEnd (front ++ c :: after)) ≠ n := by
  obtain ⟨hfront, hold, hafter, hvalue⟩ := digits_of_split h
  have hall : ∀ x ∈ front ++ c :: after, x.isDigit = true :=
    List.forall_mem_append.mpr ⟨hfront, List.forall_mem_cons.mpr ⟨hc, hafter⟩⟩
  have hread : (strtoull (front ++ c :: after ++ [])).toNat = _ := toNat_strtoull (by simp) hall (by simp)
  have hother : decimal (front ++ c :: after) ≠ decimal (front ++ old :: after) := decimal_edit_ne hold hc hne
  intro heq
  rw [trimEnd_digits hall] at heq
  rw [List.append_nil, heq] at hread
  omega

/-- A number whose first digit gives way to something else is another one, also behind a blank or a sign. -/
theorem strtoull_first_ne {after : List Char} {old c : Char} (h : Nat.toDigits 10 n.toNat = old :: after)
    (hc : c.isDigit = false) : strtoull (trimEnd (c :: after)) ≠ n := by
  have hafter : ∀ x ∈ after, x.isDigit = true := fun x hx => isDigit_of_mem_toDigits (h ▸ List.mem_cons_of_mem _ hx)
  have hless : decimal after < n.toNat := decimal_back_lt hpos h
  have hback : (UInt64.ofNat (decimal after)).toNat = decimal after := by
    rw [UInt64.toNat_ofNat']
    exact Nat.mod_eq_of_lt (by omega)
  intro heq
  rcases trimEnd_cons (trimEnd_digits hafter) c with htrim | htrim
  · rw [htrim] at heq
    rw [← heq] at hpos
    exact absurd hpos (by decide)
  · rw [htrim] at heq
    rcases strtoull_cons hc hafter (by omega) with hread | hread | hread
    · rw [← heq, hread] at hpos
      exact absurd hpos (by decide)
    · rw [← heq, hread, hback] at hless
      exact Nat.lt_irrefl _ hless
    · have hneg := congrArg UInt64.toNat (hread.symm.trans heq)
      rw [UInt64.toNat_neg, hback, show UInt64.size = 2 ^ 64 from rfl] at hneg
      omega

/-- A number changed in one place is another one. -/
theorem strtoull_edit_ne {front after : List Char} {old c : Char} (h : Nat.toDigits 10 n.toNat = front ++ old :: after)
    (hne : c ≠ old) : strtoull (trimEnd (front ++ c :: after)) ≠ n := by
  cases hc : c.isDigit with
  | true => exact strtoull_digit_ne hlt h hne hc
  | false =>
      by_cases hnil : front = []
      · subst hnil
        exact strtoull_first_ne hpos hlt h hc
      · obtain ⟨hfront, -, -, hvalue⟩ := digits_of_split h
        have hstop : ∀ x ∈ (trimEnd (c :: after)).head?, x.isDigit = false := by
          intro x hx
          obtain ⟨tail, htail⟩ := List.head?_eq_some_iff.mp hx
          have hprefix := trimEnd_isPrefix (c :: after)
          rw [htail] at hprefix
          obtain ⟨rfl, -⟩ := List.cons_prefix_cons.mp hprefix
          exact hc
        have hread := toNat_strtoull hnil hfront hstop
        have hless := decimal_front_lt (hvalue ▸ hpos)
        intro heq
        rw [trimEnd_append_of_trimmed (trimEnd_digits hfront)] at heq
        rw [heq] at hread
        omega

omit hlt in
/-- A number that is cut is another one. -/
theorem strtoull_front_ne {front after : List Char} {old : Char} (h : Nat.toDigits 10 n.toNat = front ++ old :: after)
    (hne : front ≠ []) : strtoull front ≠ n := by
  obtain ⟨hfront, -, -, hvalue⟩ := digits_of_split h
  have hless := decimal_front_lt (hvalue ▸ hpos)
  have hread : (strtoull (front ++ [])).toNat = _ := toNat_strtoull hne hfront (by simp)
  intro heq
  rw [List.append_nil, heq] at hread
  have hmax := n.toNat_lt
  omega

/-- What follows a number on its line is read with it when it starts with a digit, and only then. -/
theorem strtoull_join_iff (c : Char) {next : List Char} (hnext : ∀ x ∈ next.head?, x.isDigit = false) :
    strtoull (Nat.toDigits 10 n.toNat ++ c :: next) = n ↔ c.isDigit = false := by
  have hdigits : ∀ x ∈ Nat.toDigits 10 n.toNat, x.isDigit = true := fun x => isDigit_of_mem_toDigits
  have hvalue : decimal (Nat.toDigits 10 n.toNat) = n.toNat := Nat.ofDigitChars_ten_toDigits
  rw [← UInt64.toNat_inj]
  cases hc : c.isDigit with
  | false =>
      rw [toNat_strtoull Nat.toDigits_ne_nil hdigits (by simpa using hc), hvalue]
      exact iff_of_true (by omega) rfl
  | true =>
      have hall : ∀ x ∈ Nat.toDigits 10 n.toNat ++ [c], x.isDigit = true := by
        intro x hx
        rcases List.mem_append.mp hx with hx | hx
        · exact hdigits x hx
        · rwa [List.mem_singleton.mp hx]
      have hmore : decimal (Nat.toDigits 10 n.toNat ++ [c]) = 10 * n.toNat + (c.toNat - '0'.toNat) := by
        rw [decimal_append, hvalue]
        simp [decimal]
      rw [List.append_cons, toNat_strtoull (by simp) hall hnext, hmore]
      refine iff_of_false (fun heq => ?_) (by simp)
      omega

end

end Chainlite
