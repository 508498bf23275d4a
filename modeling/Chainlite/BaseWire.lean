import Mathlib

/-! Byte strings read from the front and written at the back. A reader consumes the front of its
input or fails; `Reads r out a` says that it reads `out` as `a` whatever follows, which is the
property that composes: a format whose parts read back reads back as a whole, and a format that
reads back is injective. `Exact r enc` is the converse: what `r` accepts are the bytes of its result.
Nothing here depends on a particular format. -/

namespace Wire

/-- A reader with errors in `ε`: the unread input is its state. -/
abbrev Reader (ε α : Type) := StateT (List UInt8) (Except ε) α

variable {ε α β : Type}

/-- The reader `r` reads exactly `out`, as `a`, in front of any other input. -/
def Reads (r : Reader ε α) (out : List UInt8) (a : α) : Prop :=
  ∀ rest, r (out ++ rest) = .ok (a, rest)

theorem Reads.pure (a : α) : Reads (Pure.pure a : Reader ε α) [] a := fun _ => rfl

theorem Reads.bind {r : Reader ε α} {next : α → Reader ε β} {out out' : List UInt8} {a : α} {b : β}
    (hr : Reads r out a) (hnext : Reads (next a) out' b) :
    Reads (r >>= next) (out ++ out') b := by
  intro rest
  rw [List.append_assoc]
  change (r (out ++ (out' ++ rest)) >>= fun result => next result.1 result.2) = _
  rw [hr]
  exact hnext rest

/-- The last read, followed by a step that reads nothing. -/
theorem Reads.bind_last {r : Reader ε α} {next : α → Reader ε β} {out : List UInt8} {a : α} {b : β}
    (hr : Reads r out a) (hnext : Reads (next a) [] b) : Reads (r >>= next) out b := by
  have h := hr.bind hnext
  rwa [List.append_nil] at h

/-- One more field at the end of a record: the last read is followed by `pure`. -/
theorem Reads.map {r : Reader ε α} {out : List UInt8} {a : α} (f : α → β) (hr : Reads r out a) :
    Reads (r >>= fun x => Pure.pure (f x)) out (f a) :=
  hr.bind_last (Reads.pure (f a))

/-- What reads back is determined by its bytes. -/
theorem Reads.injective {r : Reader ε α} {out : List UInt8} {a a' : α}
    (h : Reads r out a) (h' : Reads r out a') : a = a' := by
  have heq := (h []).symm.trans (h' [])
  injection heq with hpair
  exact (Prod.mk.inj hpair).1

/-- Fail with `e`. -/
def fail (e : ε) : Reader ε α := fun _ => .error e

/-- The next `k` bytes, or the error `e` when fewer are left. -/
def take (e : ε) (k : Nat) : Reader ε (List UInt8) := fun input =>
  if input.length < k then .error e else .ok (input.take k, input.drop k)

theorem take_reads (e : ε) (out : List UInt8) : Reads (take e out.length) out out := by
  intro rest
  have hlen : ¬(out ++ rest).length < out.length := by simp
  rw [take, if_neg hlen, List.take_left, List.drop_left]

/-- Read `n` items one after another. -/
def many (r : Reader ε α) : Nat → Reader ε (List α)
  | 0 => Pure.pure []
  | n + 1 => r >>= fun x => many r n >>= fun xs => Pure.pure (x :: xs)

theorem many_reads {r : Reader ε α} {enc : α → List UInt8} :
    ∀ xs : List α, (∀ x ∈ xs, Reads r (enc x) x) → Reads (many r xs.length) (xs.flatMap enc) xs
  | [], _ => Reads.pure []
  | x :: xs, h => by
      rw [List.flatMap_cons, List.length_cons, many]
      exact (h x List.mem_cons_self).bind
        ((many_reads xs fun y hy => h y (List.mem_cons_of_mem x hy)).map (x :: ·))

/-! ### Exact readers -/

/-- Whatever the reader accepts, it has read the bytes of its result. -/
def Exact (r : Reader ε α) (enc : α → List UInt8) : Prop :=
  ∀ input a rest, r input = .ok (a, rest) → input = enc a ++ rest

theorem bind_ok_iff {r : Reader ε α} {next : α → Reader ε β} {input rest : List UInt8} {b : β} :
    (r >>= next) input = .ok (b, rest) ↔ ∃ a mid, r input = .ok (a, mid) ∧ next a mid = .ok (b, rest) := by
  change (r input >>= fun result => next result.1 result.2) = _ ↔ _
  cases r input with
  | error e => simp [bind, Except.bind]
  | ok result =>
      obtain ⟨a, mid⟩ := result
      simp [bind, Except.bind]

theorem pure_ok_iff {a b : α} {input rest : List UInt8} :
    (Pure.pure a : Reader ε α) input = .ok (b, rest) ↔ a = b ∧ input = rest := by
  change Except.ok (a, input) = .ok (b, rest) ↔ _
  rw [Except.ok.injEq, Prod.mk.injEq]

theorem fail_ok_iff {e : ε} {input rest : List UInt8} {a : α} :
    (fail e : Reader ε α) input = .ok (a, rest) ↔ False := by
  simp [fail]

theorem take_ok_iff {e : ε} {k : Nat} {input out rest : List UInt8} :
    take e k input = .ok (out, rest) ↔ out.length = k ∧ input = out ++ rest := by
  constructor
  · intro h
    unfold take at h
    split at h
    · cases h
    · rename_i hlen
      cases h
      exact ⟨List.length_take_of_le (Nat.not_lt.mp hlen), (List.take_append_drop k input).symm⟩
  · rintro ⟨rfl, rfl⟩
    exact take_reads e out rest

theorem Exact.many {r : Reader ε α} {enc : α → List UInt8} {good : α → Prop} (hr : Exact r enc)
    (hgood : ∀ input a rest, r input = .ok (a, rest) → good a) (n : Nat) {input rest : List UInt8} {xs : List α}
    (h : Wire.many r n input = .ok (xs, rest)) :
    xs.length = n ∧ (∀ x ∈ xs, good x) ∧ input = xs.flatMap enc ++ rest := by
  induction n generalizing input xs with
  | zero =>
      obtain ⟨rfl, rfl⟩ := pure_ok_iff.mp h
      simp
  | succ n ih =>
      obtain ⟨x, mid, hx, h⟩ := bind_ok_iff.mp h
      obtain ⟨ys, mid', hys, h⟩ := bind_ok_iff.mp h
      obtain ⟨rfl, rfl⟩ := pure_ok_iff.mp h
      obtain ⟨hlen, hall, rfl⟩ := ih hys
      refine ⟨by simp [hlen], ?_, ?_⟩
      · exact List.forall_mem_cons.mpr ⟨hgood _ _ _ hx, hall⟩
      · rw [hr _ _ _ hx, List.flatMap_cons, List.append_assoc]

/-! ### Readers of a fixed size -/

/-- The reader never fails on `k` bytes or more: it takes the first `k`. -/
def Takes (r : Reader ε α) (k : Nat) : Prop :=
  ∀ input, k ≤ input.length → ∃ a, r input = .ok (a, input.drop k)

theorem Takes.pure (a : α) : Takes (Pure.pure a : Reader ε α) 0 := fun _ _ => ⟨a, rfl⟩

theorem Takes.bind {r : Reader ε α} {next : α → Reader ε β} {k l : Nat} (hr : Takes r k)
    (hnext : ∀ a, Takes (next a) l) : Takes (r >>= next) (k + l) := by
  intro input hlen
  obtain ⟨a, ha⟩ := hr input (by omega)
  obtain ⟨b, hb⟩ := hnext a (input.drop k) (by rw [List.length_drop]; omega)
  rw [List.drop_drop] at hb
  exact ⟨b, bind_ok_iff.mpr ⟨a, _, ha, hb⟩⟩

theorem Takes.map {r : Reader ε α} {k : Nat} (f : α → β) (hr : Takes r k) :
    Takes (r >>= fun x => Pure.pure (f x)) k := hr.bind fun a => Takes.pure (f a)

theorem take_takes (e : ε) (k : Nat) : Takes (take e k) k := by
  intro input hlen
  rw [take, if_neg (Nat.not_lt.mpr hlen)]
  exact ⟨_, rfl⟩

/-! ### Little-endian integers -/

/-- The low `width` bytes of `value`, least significant first. -/
def leBytes (width value : Nat) : List UInt8 :=
  (List.range width).map fun i => UInt8.ofNat (value >>> (8 * i))

/-- The integer whose little-endian bytes are given, read from the most significant one down. -/
def leNat (bytes : List UInt8) : Nat :=
  bytes.foldr (fun byte value => (value <<< 8) ||| byte.toNat) 0

@[simp] theorem length_leBytes (width value : Nat) : (leBytes width value).length = width := by
  simp [leBytes]

theorem leBytes_succ (width value : Nat) :
    leBytes (width + 1) value = UInt8.ofNat value :: leBytes width (value >>> 8) := by
  simp only [leBytes, List.range_succ_eq_map, List.map_cons, List.map_map, Nat.mul_zero,
    Nat.shiftRight_zero]
  congr 1
  apply List.map_congr_left
  intro i _
  change UInt8.ofNat (value >>> (8 * (i + 1))) = UInt8.ofNat (value >>> 8 >>> (8 * i))
  rw [← Nat.shiftRight_add, Nat.mul_add, Nat.mul_one, Nat.add_comm]

theorem leNat_leBytes (width value : Nat) (hvalue : value < 2 ^ (8 * width)) :
    leNat (leBytes width value) = value := by
  induction width generalizing value with
  | zero =>
      have : value = 0 := by simpa using hvalue
      subst this
      rfl
  | succ width ih =>
      have hhigh : value >>> 8 < 2 ^ (8 * width) := by
        rw [Nat.shiftRight_eq_div_pow, Nat.div_lt_iff_lt_mul (by decide), ← Nat.pow_add]
        exact hvalue
      rw [leBytes_succ, leNat, List.foldr_cons]
      change (leNat (leBytes width (value >>> 8)) <<< 8) ||| _ = value
      rw [ih _ hhigh, ← Nat.shiftLeft_add_eq_or_of_lt (by exact UInt8.toNat_lt _), UInt8.toNat_ofNat',
        Nat.shiftRight_eq_div_pow, Nat.shiftLeft_eq]
      omega

theorem leNat_cons (byte : UInt8) (bytes : List UInt8) : leNat (byte :: bytes) = byte.toNat + 2 ^ 8 * leNat bytes := by
  change (leNat bytes <<< 8) ||| byte.toNat = _
  rw [← Nat.shiftLeft_add_eq_or_of_lt (by exact UInt8.toNat_lt _), Nat.shiftLeft_eq]
  omega

theorem leNat_lt (bytes : List UInt8) : leNat bytes < 2 ^ (8 * bytes.length) := by
  induction bytes with
  | nil => decide
  | cons byte bytes ih =>
      have := byte.toNat_lt
      rw [leNat_cons, List.length_cons, Nat.mul_succ, Nat.pow_add]
      omega

/-- The bytes of an integer read from bytes are those bytes. -/
theorem leBytes_leNat (bytes : List UInt8) : leBytes bytes.length (leNat bytes) = bytes := by
  induction bytes with
  | nil => rfl
  | cons byte bytes ih =>
      have hlt := byte.toNat_lt
      have hhigh : leNat (byte :: bytes) >>> 8 = leNat bytes := by
        rw [leNat_cons, Nat.shiftRight_eq_div_pow]
        omega
      have hlow : UInt8.ofNat (leNat (byte :: bytes)) = byte := by
        rw [← UInt8.toNat_inj, UInt8.toNat_ofNat', leNat_cons]
        omega
      rw [List.length_cons, leBytes_succ, hhigh, ih, hlow]

end Wire
