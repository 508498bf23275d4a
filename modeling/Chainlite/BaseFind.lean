import Mathlib.Data.List.Infix

/-! Searching in texts, over any alphabet: the first place of a pattern, the parts of a text around a separator, the
pieces between separators, and a stream that is read chunk by chunk until a pattern has arrived. -/

namespace Text

variable {α : Type} [DecidableEq α]

/-! ### The first place of a pattern -/

/-- The first position at which the pattern stands. -/
def find (pat : List α) : List α → Option Nat
  | [] => if pat = [] then some 0 else none
  | c :: rest => if pat.isPrefixOf (c :: rest) then some 0 else (find pat rest).map (· + 1)

theorem find_eq_some_iff {pat text : List α} {i : Nat} :
    find pat text = some i ↔ i ≤ text.length ∧ pat <+: text.drop i ∧ ∀ j < i, ¬pat <+: text.drop j := by
  induction text generalizing i with
  | nil =>
      rw [find]
      constructor
      · intro h
        split_ifs at h with hnil
        obtain rfl := Option.some.inj h
        exact ⟨Nat.le_refl _, by simp [hnil], fun j hj => absurd hj (Nat.not_lt_zero j)⟩
      · rintro ⟨hle, hpre, -⟩
        obtain rfl := Nat.le_zero.mp hle
        rw [if_pos (List.prefix_nil.mp hpre)]
  | cons c rest ih =>
      rw [find]
      split
      · rename_i hpre
        rw [List.isPrefixOf_iff_prefix] at hpre
        constructor
        · intro h
          obtain rfl := Option.some.inj h
          exact ⟨Nat.zero_le _, hpre, fun j hj => absurd hj (Nat.not_lt_zero j)⟩
        · rintro ⟨-, -, hfirst⟩
          rcases Nat.eq_zero_or_pos i with rfl | hpos
          · rfl
          · exact absurd hpre (hfirst 0 hpos)
      · rename_i hpre
        rw [List.isPrefixOf_iff_prefix] at hpre
        rw [Option.map_eq_some_iff]
        constructor
        · rintro ⟨j, hj, rfl⟩
          obtain ⟨hle, hat, hfirst⟩ := ih.mp hj
          refine ⟨Nat.succ_le_succ hle, hat, fun k hk => ?_⟩
          cases k with
          | zero => exact hpre
          | succ k => exact hfirst k (Nat.lt_of_succ_lt_succ hk)
        · rintro ⟨hle, hat, hfirst⟩
          cases i with
          | zero => exact absurd hat hpre
          | succ i =>
              exact ⟨i, ih.mpr ⟨Nat.le_of_succ_le_succ hle, hat,
                fun j hj => hfirst (j + 1) (Nat.succ_lt_succ hj)⟩, rfl⟩

/-- What follows does not move the first place. -/
theorem find_append {pat text : List α} {i : Nat} (h : find pat text = some i) (more : List α) :
    find pat (text ++ more) = some i := by
  obtain ⟨hle, hat, hfirst⟩ := find_eq_some_iff.mp h
  refine find_eq_some_iff.mpr ⟨?_, ?_, fun j hj hpre => hfirst j hj ?_⟩
  · rw [List.length_append]
    omega
  · rw [List.drop_append_of_le_length hle]
    exact hat.trans (List.prefix_append _ _)
  · have hlen := hat.length_le
    rw [List.length_drop] at hlen
    rw [List.drop_append_of_le_length (by omega)] at hpre
    refine List.prefix_of_prefix_length_le hpre (List.prefix_append _ _) ?_
    rw [List.length_drop]
    omega

/-- The pattern ends within the text. -/
theorem find_add_length_le {pat text : List α} {i : Nat} (h : find pat text = some i) : i + pat.length ≤ text.length := by
  obtain ⟨hle, hat, -⟩ := find_eq_some_iff.mp h
  have hlen := hat.length_le
  rw [List.length_drop] at hlen
  omega

/-- A text that holds the pattern up to its first place holds it. -/
theorem find_of_append {pat text more : List α} {i : Nat} (h : find pat (text ++ more) = some i)
    (hle : i + pat.length ≤ text.length) : find pat text = some i := by
  obtain ⟨-, hat, hfirst⟩ := find_eq_some_iff.mp h
  refine find_eq_some_iff.mpr ⟨by omega, ?_, fun j hj hpre => hfirst j hj ?_⟩
  · rw [List.drop_append_of_le_length (by omega)] at hat
    refine List.prefix_of_prefix_length_le hat (List.prefix_append _ _) ?_
    rw [List.length_drop]
    omega
  · rw [List.drop_append_of_le_length (by omega)]
    exact hpre.trans (List.prefix_append _ _)

/-- A part of the text in which the pattern cannot begin. -/
theorem find_skip {c : α} {pat front : List α} (h : c ∉ front) (rest : List α) :
    find (c :: pat) (front ++ rest) = (find (c :: pat) rest).map (· + front.length) := by
  induction front with
  | nil => simp
  | cons x front ih =>
      obtain ⟨hx, hfront⟩ := List.ne_and_not_mem_of_not_mem_cons h
      have hpre : (c :: pat).isPrefixOf (x :: (front ++ rest)) = false := by
        rw [List.isPrefixOf, beq_false_of_ne hx, Bool.false_and]
      rw [List.cons_append, find, hpre, if_neg Bool.false_ne_true, ih hfront, Option.map_map]
      rfl

/-- The pattern does not stand here. -/
theorem find_cons_of_not {pat rest : List α} {c : α} (h : ¬pat <+: c :: rest) :
    find pat (c :: rest) = (find pat rest).map (· + 1) := by
  rw [find, if_neg (by rwa [List.isPrefixOf_iff_prefix])]

theorem find_of_prefix {pat text : List α} (h : pat <+: text) : find pat text = some 0 :=
  find_eq_some_iff.mpr ⟨Nat.zero_le _, h, fun j hj => absurd hj (Nat.not_lt_zero j)⟩

/-- A pattern that begins with `c` has its first place after a part without `c`. -/
theorem find_after {c : α} {pat front : List α} (h : c ∉ front) (rest : List α) :
    find (c :: pat) (front ++ (c :: pat) ++ rest) = some front.length := by
  rw [List.append_assoc, find_skip h, find_of_prefix (List.prefix_append _ _)]
  exact congrArg some (Nat.zero_add _)

omit [DecidableEq α] in
/-- A pattern without `d` that stands before `d :: rest` ends there. -/
theorem prefix_of_append {d : α} {pat front rest : List α} (hd : d ∉ pat) (h : pat <+: front ++ d :: rest) :
    pat <+: front := by
  rcases Nat.le_total pat.length front.length with hle | hlt
  · exact List.prefix_of_prefix_length_le h (List.prefix_append _ _) hle
  · have hfront : front <+: pat := List.prefix_of_prefix_length_le (List.prefix_append _ _) h hlt
    obtain ⟨more, rfl⟩ := hfront
    cases more with
    | nil => rw [List.append_nil]
    | cons x more =>
        obtain ⟨rfl, -⟩ := List.cons_prefix_cons.mp ((List.prefix_append_right_inj front).mp h)
        exact absurd (List.mem_append_right front List.mem_cons_self) hd

/-- A part that ends with `d` is passed over when the pattern has no `d` but has some `x` that is not in the part. -/
theorem find_skip_line {d x : α} {pat front : List α} (hd : d ∉ pat) (hx : x ∈ pat) (h : x ∉ front) (rest : List α) :
    find pat (front ++ d :: rest) = (find pat (d :: rest)).map (· + front.length) := by
  induction front with
  | nil => simp
  | cons y front ih =>
      have hpre : ¬pat <+: y :: (front ++ d :: rest) := fun hpre => h ((prefix_of_append hd hpre).subset hx)
      rw [List.cons_append, find_cons_of_not hpre, ih (List.not_mem_of_not_mem_cons h), Option.map_map]
      rfl

/-- The first place of a doubled separator `[c, d]` is after lines that are not empty and hold no `c`. -/
theorem find_double {c d : α} (hcd : c ≠ d) {ls : List (List α)} (hne : ls ≠ []) (h : ∀ l ∈ ls, c ∉ l ∧ l ≠ [])
    (rest : List α) : find [c, d, c, d] (List.intercalate [c, d] ls ++ ([c, d, c, d] ++ rest)) =
      some (List.intercalate [c, d] ls).length := by
  induction ls with
  | nil => exact absurd rfl hne
  | cons l more ih =>
      obtain ⟨⟨hl, -⟩, hmore⟩ := List.forall_mem_cons.mp h
      cases more with
      | nil =>
          rw [List.intercalate_singleton, ← List.append_assoc]
          exact find_after hl rest
      | cons next more =>
          have hnext := ih (List.cons_ne_nil next more) hmore
          obtain ⟨⟨hc, hfull⟩, -⟩ := List.forall_mem_cons.mp hmore
          obtain ⟨y, next', rfl⟩ := List.exists_cons_of_ne_nil hfull
          have hy : c ≠ y := List.ne_of_not_mem_cons hc
          obtain ⟨tail, htail⟩ : ∃ tail, List.intercalate [c, d] ((y :: next') :: more) ++ ([c, d, c, d] ++ rest) =
              y :: tail := by
            cases more with
            | nil => exact ⟨_, rfl⟩
            | cons _ _ => exact ⟨_, by rw [List.intercalate_cons_cons]; rfl⟩
          have hhere : ¬[c, d, c, d] <+: c :: d :: y :: tail := by
            rintro ⟨t, ht⟩
            injection ht with _ ht
            injection ht with _ ht
            injection ht with ht _
            exact hy ht
          have hsplit : List.intercalate [c, d] (l :: (y :: next') :: more) ++ ([c, d, c, d] ++ rest) =
              l ++ c :: d :: y :: tail := by
            rw [List.intercalate_cons_cons, List.append_assoc, htail, List.append_assoc]
            rfl
          have hlast : find [c, d, c, d] ([d] ++ y :: tail) = (find [c, d, c, d] (y :: tail)).map (· + 1) :=
            find_skip (by simpa using hcd) _
          calc find [c, d, c, d] (List.intercalate [c, d] (l :: (y :: next') :: more) ++ ([c, d, c, d] ++ rest))
              = (find [c, d, c, d] (c :: d :: y :: tail)).map (· + l.length) := by rw [hsplit, find_skip hl]
            _ = (find [c, d, c, d] (y :: tail)).map (· + 1 + 1 + l.length) := by
                rw [find_cons_of_not hhere, show d :: y :: tail = [d] ++ y :: tail from rfl, hlast, Option.map_map,
                  Option.map_map]
                rfl
            _ = some (List.intercalate [c, d] (l :: (y :: next') :: more)).length := by
                rw [← htail, hnext, List.intercalate_cons_cons]
                simp only [Option.map_some, List.length_append, List.length_cons, List.length_nil]
                congr 1
                omega

/-! ### Around a separator -/

/-- The parts before and after the first `c`. -/
def cutFirst (c : α) : List α → Option (List α × List α)
  | [] => none
  | x :: rest => if x = c then some ([], rest) else (cutFirst c rest).map fun parts => (x :: parts.1, parts.2)

/-- The parts before and after the last `c`. -/
def cutLast (c : α) : List α → Option (List α × List α)
  | [] => none
  | x :: rest =>
      match cutLast c rest with
      | some parts => some (x :: parts.1, parts.2)
      | none => if x = c then some ([], rest) else none

theorem cutFirst_append {c : α} {front : List α} (h : c ∉ front) (back : List α) :
    cutFirst c (front ++ c :: back) = some (front, back) := by
  induction front with
  | nil => exact if_pos rfl
  | cons x front ih =>
      obtain ⟨hx, hfront⟩ := List.ne_and_not_mem_of_not_mem_cons h
      rw [List.cons_append, cutFirst, if_neg (Ne.symm hx), ih hfront]
      rfl

/-- The parts put together again. -/
theorem cutFirst_eq_some {c : α} {text front back : List α} (h : cutFirst c text = some (front, back)) :
    text = front ++ c :: back ∧ c ∉ front := by
  induction text generalizing front with
  | nil => cases h
  | cons x text ih =>
      rw [cutFirst] at h
      split at h
      · rename_i hx
        injection h with h
        injection h with hfront hback
        subst hfront hback hx
        exact ⟨rfl, List.not_mem_nil⟩
      · rename_i hx
        obtain ⟨⟨front', back'⟩, hcut, heq⟩ := Option.map_eq_some_iff.mp h
        injection heq with hfront hback
        subst hfront hback
        obtain ⟨htext, hnot⟩ := ih hcut
        exact ⟨congrArg (x :: ·) htext, List.not_mem_cons_of_ne_of_not_mem (Ne.symm hx) hnot⟩

theorem cutFirst_eq_none {c : α} {text : List α} (h : c ∉ text) : cutFirst c text = none := by
  induction text with
  | nil => rfl
  | cons x text ih =>
      obtain ⟨hx, htext⟩ := List.ne_and_not_mem_of_not_mem_cons h
      rw [cutFirst, if_neg (Ne.symm hx), ih htext]
      rfl

theorem cutLast_eq_none {c : α} {text : List α} (h : c ∉ text) : cutLast c text = none := by
  induction text with
  | nil => rfl
  | cons x text ih =>
      obtain ⟨hx, htext⟩ := List.ne_and_not_mem_of_not_mem_cons h
      rw [cutLast, ih htext]
      exact if_neg (Ne.symm hx)

theorem cutLast_append (front : List α) {c : α} {back : List α} (h : c ∉ back) :
    cutLast c (front ++ c :: back) = some (front, back) := by
  induction front with
  | nil =>
      rw [List.nil_append, cutLast, cutLast_eq_none h]
      exact if_pos rfl
  | cons x front ih => rw [List.cons_append, cutLast, ih]

/-! ### Pieces -/

/-- The pieces between separators; a last one that is empty is left out. -/
def pieces (sep : α) : List α → List (List α)
  | [] => []
  | c :: rest =>
      if c = sep then [] :: pieces sep rest
      else
        match pieces sep rest with
        | [] => [[c]]
        | piece :: more => (c :: piece) :: more

theorem pieces_append {sep : α} {piece : List α} (h : sep ∉ piece) (rest : List α) :
    pieces sep (piece ++ sep :: rest) = piece :: pieces sep rest := by
  induction piece with
  | nil => exact if_pos rfl
  | cons c piece ih =>
      obtain ⟨hc, hpiece⟩ := List.ne_and_not_mem_of_not_mem_cons h
      rw [List.cons_append, pieces, if_neg (Ne.symm hc), ih hpiece]

theorem pieces_last {sep : α} {piece : List α} (h : sep ∉ piece) (hne : piece ≠ []) : pieces sep piece = [piece] := by
  induction piece with
  | nil => exact absurd rfl hne
  | cons c piece ih =>
      obtain ⟨hc, hpiece⟩ := List.ne_and_not_mem_of_not_mem_cons h
      rw [pieces, if_neg (Ne.symm hc)]
      cases piece with
      | nil => rfl
      | cons d piece => rw [ih hpiece (List.cons_ne_nil d piece)]

/-- Pieces that are not empty and hold no separator are read back from the text that joins them. -/
theorem pieces_intercalate {sep : α} {parts : List (List α)} (h : ∀ part ∈ parts, sep ∉ part ∧ part ≠ []) :
    pieces sep (List.intercalate [sep] parts) = parts := by
  induction parts with
  | nil => rfl
  | cons part rest ih =>
      obtain ⟨⟨hsep, hne⟩, hrest⟩ := List.forall_mem_cons.mp h
      cases rest with
      | nil =>
          rw [List.intercalate_singleton]
          exact pieces_last hsep hne
      | cons next rest =>
          rw [List.intercalate_cons_cons, List.append_assoc, List.singleton_append, pieces_append hsep, ih hrest]

/-! ### Reading a stream until a pattern has arrived -/

/-- Chunks are appended to what has been read, as long as this is shorter than `limit`, until the pattern is in it.
An empty chunk is the end of the stream. The result is what has been read, the place of the pattern and the chunks not
yet read. -/
def readUntil (pat : List α) (limit : Nat) : List α → List (List α) → Option (List α × Nat × List (List α))
  | _, [] => none
  | got, chunk :: chunks =>
      if got.length < limit then
        if chunk = [] then none
        else
          match find pat (got ++ chunk) with
          | some i => some (got ++ chunk, i, chunks)
          | none => readUntil pat limit (got ++ chunk) chunks
      else none

/-- **However the stream is cut**, a pattern that ends within the limit is found at its place. -/
theorem readUntil_of_find {pat got : List α} {limit : Nat} {chunks : List (List α)} {i : Nat}
    (hchunks : ∀ chunk ∈ chunks, chunk ≠ []) (hgot : find pat got = none)
    (h : find pat (got ++ chunks.flatten) = some i) (hlimit : i + pat.length ≤ limit) :
    ∃ read rest, readUntil pat limit got chunks = some (read, i, rest) ∧ find pat read = some i ∧
      (∀ chunk ∈ rest, chunk ≠ []) ∧ read ++ rest.flatten = got ++ chunks.flatten := by
  induction chunks generalizing got with
  | nil =>
      rw [List.flatten_nil, List.append_nil, hgot] at h
      cases h
  | cons chunk chunks ih =>
      obtain ⟨hchunk, hrest⟩ := List.forall_mem_cons.mp hchunks
      have hshort : got.length < i + pat.length := by
        refine Nat.lt_of_not_le fun hle => ?_
        rw [find_of_append h hle] at hgot
        cases hgot
      rw [readUntil, if_pos (Nat.lt_of_lt_of_le hshort hlimit), if_neg hchunk]
      rw [List.flatten_cons, ← List.append_assoc] at h ⊢
      cases hfind : find pat (got ++ chunk) with
      | some j =>
          rw [find_append hfind] at h
          obtain rfl := Option.some.inj h
          exact ⟨got ++ chunk, chunks, rfl, hfind, hrest, rfl⟩
      | none => exact ih hrest hfind h

/-- What was found is a place of the pattern in the stream. -/
theorem readUntil_eq_some {pat got read : List α} {limit i : Nat} {chunks rest : List (List α)}
    (h : readUntil pat limit got chunks = some (read, i, rest)) :
    find pat read = some i ∧ read ++ rest.flatten = got ++ chunks.flatten := by
  induction chunks generalizing got with
  | nil => cases h
  | cons chunk chunks ih =>
      rw [readUntil] at h
      split at h
      · split at h
        · cases h
        · rw [List.flatten_cons, ← List.append_assoc]
          cases hfind : find pat (got ++ chunk) with
          | some j =>
              rw [hfind] at h
              injection h with h
              injection h with hread h
              injection h with hi hrest
              subst hread hi hrest
              exact ⟨hfind, rfl⟩
          | none =>
              rw [hfind] at h
              exact ih h
      · cases h

omit [DecidableEq α]

/-- Chunks are appended until `n` have been read or the stream ends. -/
def readUpTo (n : Nat) : List α → List (List α) → List α
  | got, [] => got
  | got, chunk :: chunks =>
      if got.length < n then
        if chunk = [] then got else readUpTo n (got ++ chunk) chunks
      else got

/-- Of a stream that is not longer than asked for, all is read. -/
theorem readUpTo_all {n : Nat} {got : List α} {chunks : List (List α)} (hchunks : ∀ chunk ∈ chunks, chunk ≠ [])
    (h : (got ++ chunks.flatten).length ≤ n) : readUpTo n got chunks = got ++ chunks.flatten := by
  induction chunks generalizing got with
  | nil => simp [readUpTo]
  | cons chunk chunks ih =>
      obtain ⟨hchunk, hrest⟩ := List.forall_mem_cons.mp hchunks
      have hpos : 0 < chunk.length := List.length_pos_iff.mpr hchunk
      rw [List.flatten_cons, ← List.append_assoc] at h ⊢
      rw [List.length_append, List.length_append] at h
      rw [readUpTo, if_pos (by omega), if_neg hchunk, ih hrest]
      rw [List.length_append, List.length_append]
      omega

/-- What is read is the beginning of the stream. -/
theorem readUpTo_isPrefix (n : Nat) (got : List α) (chunks : List (List α)) :
    readUpTo n got chunks <+: got ++ chunks.flatten := by
  induction chunks generalizing got with
  | nil => simp [readUpTo]
  | cons chunk chunks ih =>
      rw [readUpTo, List.flatten_cons, ← List.append_assoc]
      split
      · split
        · rw [List.append_assoc]
          exact List.prefix_append _ _
        · exact ih (got ++ chunk)
      · rw [List.append_assoc]
        exact List.prefix_append _ _

end Text
