import Chainlite.BaseWire

/-! Byte strings, fixed-size byte arrays, hexadecimal text and the little-endian format of
`common.h`. `Writer` appends to a vector, so a record is written as the concatenation of its
fields; `Reader` throws when the input is short, which is the error of the reader monad. -/

namespace Chainlite

abbrev Bytes := List UInt8
abbrev H256 := Vector UInt8 32
abbrev Addr20 := Vector UInt8 20
abbrev Pub64 := Vector UInt8 64
abbrev Sig64 := Vector UInt8 64

/-- Hashes are keys of maps. -/
instance h256TransOrd : Std.TransOrd H256 := inferInstanceAs (Std.TransOrd (Vector UInt8 32))

/-- The value-initialised array `{}`. -/
def zeros (n : Nat) : Vector UInt8 n := Vector.replicate n 0

def isZero {n : Nat} (a : Vector UInt8 n) : Bool := a.toList.all (· == 0)

/-- A reading of `time(nullptr)`: the seconds of a non-negative signed 64-bit `time_t`. -/
structure Clock where
  seconds : UInt64
  nonneg : seconds.toNat < 2 ^ 63

instance : LE Clock := ⟨fun s t => s.seconds ≤ t.seconds⟩

theorem Clock.le_refl (t : Clock) : t ≤ t := UInt64.le_refl _

theorem Clock.le_trans {s t u : Clock} (h : s ≤ t) (h' : t ≤ u) : s ≤ u := UInt64.le_trans h h'

theorem toNat_add_of_lt {x y : UInt64} (h : x.toNat + y.toNat < 2 ^ 64) :
    (x + y).toNat = x.toNat + y.toNat := by
  rw [UInt64.toNat_add, Nat.mod_eq_of_lt h]

theorem ofNat_pred_add_one {n : Nat} (hn : 0 < n) : UInt64.ofNat (n - 1) + 1 = UInt64.ofNat n := by
  obtain ⟨m, rfl⟩ := Nat.exists_eq_succ_of_ne_zero hn.ne'
  exact (UInt64.ofNat_add m 1).symm

/-- A check that returns an error has let everything else through. -/
theorem guard_ok_iff {ε α : Type} {c : Prop} [Decidable c] {e : ε} {x : Except ε α} {y : α} :
    (if c then .error e else x) = .ok y ↔ ¬c ∧ x = .ok y := by
  by_cases h : c <;> simp [h]

/-! ### Hexadecimal -/

def hexDigit (n : Nat) : Char := "0123456789abcdef".toList.getD n '0'

/-- Lower-case hexadecimal text. -/
def hexs (bytes : Bytes) : String :=
  String.ofList (bytes.flatMap fun c : UInt8 => [hexDigit (c >>> 4).toNat, hexDigit (c &&& 15).toNat])

def hexval (c : Char) : Option Nat :=
  if '0' ≤ c ∧ c ≤ '9' then some (c.toNat - '0'.toNat)
  else if 'a' ≤ c ∧ c ≤ 'f' then some (c.toNat - 'a'.toNat + 10)
  else if 'A' ≤ c ∧ c ≤ 'F' then some (c.toNat - 'A'.toNat + 10)
  else none

def unhexChars : List Char → Option Bytes
  | [] => some []
  | [_] => none
  | h :: l :: rest => do
      let high ← hexval h
      let low ← hexval l
      let bytes ← unhexChars rest
      return UInt8.ofNat ((high <<< 4) ||| low) :: bytes

/-- Bytes of a text of hexadecimal digit pairs, in either case. -/
def unhex (s : String) : Option Bytes := unhexChars s.toList

/-- Exactly `n` bytes of hexadecimal text. -/
def unhexN (n : Nat) (s : String) : Option (Vector UInt8 n) :=
  match unhex s with
  | none => none
  | some bytes => if h : bytes.length = n then some ⟨bytes.toArray, by simpa using h⟩ else none

theorem hexval_hexDigit : ∀ n < 16, hexval (hexDigit n) = some n := by decide

theorem high_digit (c : UInt8) : (c >>> 4).toNat = c.toNat / 16 := by
  rw [UInt8.toNat_shiftRight]
  exact Nat.shiftRight_eq_div_pow c.toNat 4

theorem low_digit (c : UInt8) : (c &&& 15).toNat = c.toNat % 16 := by
  rw [UInt8.toNat_and]
  exact Nat.and_two_pow_sub_one_eq_mod c.toNat 4

theorem high_digit_lt (c : UInt8) : (c >>> 4).toNat < 16 := by
  have := c.toNat_lt
  rw [high_digit]
  omega

theorem low_digit_lt (c : UInt8) : (c &&& 15).toNat < 16 := by
  rw [low_digit]
  omega

/-- The two digits of a byte give it back. -/
theorem join_digits (c : UInt8) : UInt8.ofNat (((c >>> 4).toNat <<< 4) ||| (c &&& 15).toNat) = c := by
  apply UInt8.toNat_inj.mp
  rw [UInt8.toNat_ofNat', high_digit, low_digit,
    ← Nat.shiftLeft_add_eq_or_of_lt (show c.toNat % 16 < 2 ^ 4 by omega), Nat.shiftLeft_eq]
  have := c.toNat_lt
  omega

theorem unhex_hexs (bytes : Bytes) : unhex (hexs bytes) = some bytes := by
  rw [unhex, hexs, String.toList_ofList]
  induction bytes with
  | nil => rfl
  | cons c rest ih =>
      rw [List.flatMap_cons, List.cons_append, List.cons_append, List.nil_append, unhexChars,
        hexval_hexDigit _ (low_digit_lt c), hexval_hexDigit _ (high_digit_lt c), ih]
      exact congrArg (fun b => some (b :: rest)) (join_digits c)

theorem hexval_lt {c : Char} {n : Nat} (h : hexval c = some n) : n < 16 := by
  unfold hexval at h
  split_ifs at h with hdigit hlower hupper
  · have hle : c.toNat ≤ '9'.toNat := hdigit.2
    have hsub := Option.some.inj h
    have h9 : '9'.toNat = 57 := rfl
    have h0 : '0'.toNat = 48 := rfl
    omega
  · have hle : c.toNat ≤ 'f'.toNat := hlower.2
    have hsub := Option.some.inj h
    have hf : 'f'.toNat = 102 := rfl
    have ha : 'a'.toNat = 97 := rfl
    omega
  · have hle : c.toNat ≤ 'F'.toNat := hupper.2
    have hsub := Option.some.inj h
    have hf : 'F'.toNat = 70 := rfl
    have ha : 'A'.toNat = 65 := rfl
    omega

/-- The digits of a byte made of two. -/
theorem digits_join : ∀ h < 16, ∀ l < 16,
    (UInt8.ofNat ((h <<< 4) ||| l) >>> 4).toNat = h ∧ (UInt8.ofNat ((h <<< 4) ||| l) &&& 15).toNat = l := by
  decide

/-- The text counts through the values of its digits alone. -/
theorem unhexChars_congr {s s' : List Char} (h : s.map hexval = s'.map hexval) : unhexChars s = unhexChars s' := by
  induction s using unhexChars.induct generalizing s' with
  | case1 =>
      rw [List.map_eq_nil_iff.mp h.symm]
  | case2 c =>
      obtain ⟨c', rfl, -⟩ : ∃ c', s' = [c'] ∧ hexval c' = hexval c := by
        simpa [List.map_eq_cons_iff] using h.symm
      rfl
  | case3 x y rest ih =>
      obtain ⟨x', tail, rfl, hx, htail⟩ := List.map_eq_cons_iff.mp h.symm
      obtain ⟨y', rest', rfl, hy, hrest⟩ := List.map_eq_cons_iff.mp htail
      rw [unhexChars, unhexChars, hx, hy, ih hrest.symm]

/-- **Hexadecimal text is read by the values of its digits.** -/
theorem unhexChars_eq_some_iff {s : List Char} {bytes : Bytes} :
    unhexChars s = some bytes ↔ s.map hexval = (hexs bytes).toList.map hexval := by
  constructor
  · intro h
    induction s using unhexChars.induct generalizing bytes with
    | case1 => cases h; rfl
    | case2 => cases h
    | case3 x y rest ih =>
        simp only [unhexChars, Option.bind_eq_bind, Option.bind_eq_some_iff, Option.pure_def, Option.some.injEq] at h
        obtain ⟨high, hx, low, hy, tail, htail, rfl⟩ := h
        obtain ⟨hhigh, hlow⟩ := digits_join high (hexval_lt hx) low (hexval_lt hy)
        have hrest := ih htail
        rw [hexs, String.toList_ofList] at hrest ⊢
        rw [List.map_cons, List.map_cons, List.flatMap_cons, hhigh, hlow, hrest, hx, hy]
        simp [hexval_hexDigit, hexval_lt hx, hexval_lt hy]
  · intro h
    rw [unhexChars_congr h]
    exact unhex_hexs bytes

theorem length_hexs (bytes : Bytes) : (hexs bytes).toList.length = 2 * bytes.length := by
  rw [hexs, String.toList_ofList, List.length_flatMap]
  simp [Nat.mul_comm]

/-! ### Writer -/

namespace Writer

def u8 (v : UInt8) : Bytes := [v]
def u16 (v : UInt16) : Bytes := Wire.leBytes 2 v.toNat
def u32 (v : UInt32) : Bytes := Wire.leBytes 4 v.toNat
def u64 (v : UInt64) : Bytes := Wire.leBytes 8 v.toNat
def arr {n : Nat} (a : Vector UInt8 n) : Bytes := a.toList

@[simp] theorem length_u8 (v : UInt8) : (u8 v).length = 1 := rfl
@[simp] theorem length_u16 (v : UInt16) : (u16 v).length = 2 := Wire.length_leBytes _ _
@[simp] theorem length_u32 (v : UInt32) : (u32 v).length = 4 := Wire.length_leBytes _ _
@[simp] theorem length_u64 (v : UInt64) : (u64 v).length = 8 := Wire.length_leBytes _ _
@[simp] theorem length_arr {n : Nat} (a : Vector UInt8 n) : (arr a).length = n := by simp [arr]

end Writer

/-! ### Reader -/

/-- The exceptions thrown while a message or a record is parsed. -/
inductive ParseError where
  | shortRead
  | payloadTooBig
  | trailingBytes
  | badBlock
  deriving DecidableEq, Repr

/-- The text of `what()`. -/
def ParseError.text : ParseError → String
  | .shortRead => "short read"
  | .payloadTooBig => "payload too big"
  | .trailingBytes => "trailing bytes"
  | .badBlock => "bad block"

namespace Reader

abbrev Read (α : Type) := Wire.Reader ParseError α

/-- `need(k)`, then the `k` bytes. -/
def blob (k : Nat) : Read Bytes := Wire.take .shortRead k

def u8 : Read UInt8 := do return UInt8.ofNat (Wire.leNat (← blob 1))
def u16 : Read UInt16 := do return UInt16.ofNat (Wire.leNat (← blob 2))
def u32 : Read UInt32 := do return UInt32.ofNat (Wire.leNat (← blob 4))
def u64 : Read UInt64 := do return UInt64.ofNat (Wire.leNat (← blob 8))

/-- The array whose elements are the given bytes, padded with zeros or cut to size. -/
def toArr (n : Nat) (bytes : Bytes) : Vector UInt8 n := Vector.ofFn fun i => bytes.getD i 0

def arr (n : Nat) : Read (Vector UInt8 n) := do return toArr n (← blob n)

open Wire

theorem blob_reads (bytes : Bytes) : Reads (blob bytes.length) bytes bytes := take_reads _ bytes

theorem blob_takes (k : Nat) : Takes (blob k) k := take_takes _ k

theorem u8_reads (v : UInt8) : Reads u8 (Writer.u8 v) v := by
  have h := (blob_reads (Writer.u8 v)).map fun bytes => UInt8.ofNat (leNat bytes)
  have hv : UInt8.ofNat (leNat (Writer.u8 v)) = v := by simp [Writer.u8, leNat]
  rwa [hv] at h

theorem u16_reads (v : UInt16) : Reads u16 (Writer.u16 v) v := by
  have h := (blob_reads (Writer.u16 v)).map fun bytes => UInt16.ofNat (leNat bytes)
  have hv : leNat (Writer.u16 v) = v.toNat := leNat_leBytes 2 _ v.toNat_lt
  rwa [hv, UInt16.ofNat_toNat, Writer.length_u16] at h

theorem u32_reads (v : UInt32) : Reads u32 (Writer.u32 v) v := by
  have h := (blob_reads (Writer.u32 v)).map fun bytes => UInt32.ofNat (leNat bytes)
  have hv : leNat (Writer.u32 v) = v.toNat := leNat_leBytes 4 _ v.toNat_lt
  rwa [hv, UInt32.ofNat_toNat, Writer.length_u32] at h

theorem u64_reads (v : UInt64) : Reads u64 (Writer.u64 v) v := by
  have h := (blob_reads (Writer.u64 v)).map fun bytes => UInt64.ofNat (leNat bytes)
  have hv : leNat (Writer.u64 v) = v.toNat := leNat_leBytes 8 _ v.toNat_lt
  rwa [hv, UInt64.ofNat_toNat, Writer.length_u64] at h

theorem toArr_toList {n : Nat} (a : Vector UInt8 n) : toArr n a.toList = a := by
  ext i hi
  simp [toArr, List.getD_eq_getElem?_getD]

theorem toList_toArr {n : Nat} {bytes : Bytes} (h : bytes.length = n) : (toArr n bytes).toList = bytes := by
  subst h
  apply List.ext_getElem
  · simp
  · intro i hi hi'
    simp [toArr]

theorem arr_reads {n : Nat} (a : Vector UInt8 n) : Reads (arr n) (Writer.arr a) a := by
  have h := (blob_reads (Writer.arr a)).map (toArr n)
  rwa [Writer.length_arr, show toArr n (Writer.arr a) = a from toArr_toList a] at h

/-! ### Nothing else is accepted -/

theorem blob_ok {k : Nat} {input out rest : Bytes} (h : blob k input = .ok (out, rest)) :
    out.length = k ∧ input = out ++ rest := take_ok_iff.mp h

/-- A reader that takes a fixed number of bytes is exact when its result has these bytes. -/
theorem exact_of_blob {α : Type} {k : Nat} {f : Bytes → α} {enc : α → Bytes}
    (henc : ∀ out : Bytes, out.length = k → enc (f out) = out) :
    Exact (do return f (← blob k) : Read α) enc := by
  intro input a rest h
  obtain ⟨out, mid, hout, h⟩ := bind_ok_iff.mp h
  obtain ⟨rfl, rfl⟩ := pure_ok_iff.mp h
  obtain ⟨hlen, rfl⟩ := blob_ok hout
  rw [henc out hlen]

theorem u8_exact : Exact u8 Writer.u8 := by
  refine exact_of_blob fun out hlen => ?_
  obtain ⟨byte, rfl⟩ := List.length_eq_one_iff.mp hlen
  show [UInt8.ofNat (leNat [byte])] = [byte]
  rw [leNat_cons]
  simp [leNat]

theorem u16_exact : Exact u16 Writer.u16 := by
  refine exact_of_blob fun out hlen => ?_
  have hlt := leNat_lt out
  have hbytes := leBytes_leNat out
  rw [hlen] at hlt hbytes
  rw [Writer.u16, UInt16.toNat_ofNat_of_lt' hlt, hbytes]

theorem u32_exact : Exact u32 Writer.u32 := by
  refine exact_of_blob fun out hlen => ?_
  have hlt := leNat_lt out
  have hbytes := leBytes_leNat out
  rw [hlen] at hlt hbytes
  rw [Writer.u32, UInt32.toNat_ofNat_of_lt' hlt, hbytes]

theorem u64_exact : Exact u64 Writer.u64 := by
  refine exact_of_blob fun out hlen => ?_
  have hlt := leNat_lt out
  have hbytes := leBytes_leNat out
  rw [hlen] at hlt hbytes
  rw [Writer.u64, UInt64.toNat_ofNat_of_lt' hlt, hbytes]

theorem arr_exact (n : Nat) : Exact (arr n) (Writer.arr (n := n)) := by
  refine exact_of_blob fun out hlen => ?_
  exact toList_toArr hlen

end Reader

end Chainlite
