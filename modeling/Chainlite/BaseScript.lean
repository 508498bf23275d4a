import Chainlite.BaseWire

/-! The integer operators of the browser's language. A number takes part in a bitwise operation with its low 32 bits, as
a signed word except in `>>>`; an integer of any size keeps all its bits; an element of a byte array is stored modulo
256. The loops that write a number byte by byte write its little-endian bytes. -/

namespace Chainlite

namespace Script

/-- The 32-bit word that a number is converted to. -/
def word (n : Int) : BitVec 32 := BitVec.ofInt 32 n

/-- `a & b`. -/
def band (a b : Int) : Int := (word a &&& word b).toInt

/-- `a | b`. -/
def bor (a b : Int) : Int := (word a ||| word b).toInt

/-- `a << k`, for `k` below 32. -/
def shl (a : Int) (k : Nat) : Int := (word a <<< k).toInt

/-- `a >> k`, for `k` below 32. -/
def shr (a : Int) (k : Nat) : Int := ((word a).sshiftRight k).toInt

/-- `a >>> k`, for `k` below 32. -/
def ushr (a : Int) (k : Nat) : Int := (word a >>> k).toNat

/-- What a byte array holds after `b[i] = n`. -/
def element (n : Int) : UInt8 := UInt8.ofNat (n % 256).toNat

/-- The loop `b[i] = low(v); v = next(v)`. -/
def bytesLoop (low next : Int → Int) : Nat → Int → List UInt8
  | 0, _ => []
  | count + 1, v => element (low v) :: bytesLoop low next count (next v)

/-! ### Natural numbers -/

theorem toNat_word (n : Nat) : (word n).toNat = n % 2 ^ 32 := by
  rw [word, BitVec.toNat_ofInt]
  exact Int.toNat_natCast _

theorem element_natCast (n : Nat) : element n = UInt8.ofNat n := by
  rw [element, ← UInt8.toNat_inj, UInt8.toNat_ofNat', UInt8.toNat_ofNat']
  have hcast : ((n : Int) % 256).toNat = n % 256 := Int.toNat_natCast _
  rw [hcast]
  exact Nat.mod_mod n 256

theorem ofNat_mod (n : Nat) : UInt8.ofNat (n % 256) = UInt8.ofNat n := by
  rw [← UInt8.toNat_inj, UInt8.toNat_ofNat', UInt8.toNat_ofNat']
  exact Nat.mod_mod n 256

/-- A word whose high bit is clear is its number. -/
theorem toInt_eq_toNat {x : BitVec 32} (h : x.toNat < 2 ^ 31) : x.toInt = x.toNat :=
  BitVec.toInt_eq_toNat_of_lt (by omega)

theorem band_natCast (n : Nat) : band n 255 = (n % 256 : Nat) := by
  have hmask : (word n &&& word 255).toNat = n % 256 := by
    rw [BitVec.toNat_and, toNat_word, show (word 255).toNat = 2 ^ 8 - 1 from rfl, Nat.and_two_pow_sub_one_eq_mod]
    omega
  rw [band, toInt_eq_toNat (by rw [hmask]; omega), hmask]

theorem element_band (n : Nat) : element (band n 255) = UInt8.ofNat n := by
  rw [band_natCast, element_natCast, ofNat_mod]

/-- The same mask on an integer of any size. -/
theorem element_land (n : Nat) : element (Int.land n 255) = UInt8.ofNat n := by
  have hmask : Int.land n 255 = (n % 256 : Nat) := congrArg Nat.cast (Nat.and_two_pow_sub_one_eq_mod n 8)
  rw [hmask, element_natCast, ofNat_mod]

theorem ushr_natCast {n : Nat} (h : n < 2 ^ 32) (k : Nat) : ushr n k = (n >>> k : Nat) := by
  rw [ushr, BitVec.toNat_ushiftRight, toNat_word, Nat.mod_eq_of_lt h]

theorem shr_natCast {n : Nat} (h : n < 2 ^ 31) (k : Nat) : shr n k = (n >>> k : Nat) := by
  have hword : (word n).toNat = n := by rw [toNat_word, Nat.mod_eq_of_lt (by omega)]
  have hpos : (word n).msb = false := by
    rw [BitVec.msb_eq_decide, hword]
    exact decide_eq_false (by omega)
  have hle : n >>> k ≤ n := Nat.shiftRight_le n k
  have hnat : ((word n).sshiftRight k).toNat = n >>> k := by
    rw [BitVec.sshiftRight_eq_of_msb_false hpos, BitVec.toNat_ushiftRight, hword]
  rw [shr, toInt_eq_toNat (by omega), hnat]

/-! ### Words -/

theorem word_bor (a b : Int) : word (bor a b) = word a ||| word b := BitVec.ofInt_toInt

theorem word_shl (a : Int) (k : Nat) : word (shl a k) = word a <<< k := BitVec.ofInt_toInt

theorem ushr_zero (a : Int) : ushr a 0 = (word a).toNat := by
  rw [ushr, BitVec.ushiftRight_zero]

/-- A number is put in front of the `k` low bits. -/
theorem toNat_or_shl {x : BitVec 32} {n k : Nat} (hx : x.toNat < 2 ^ k) (hn : n * 2 ^ k < 2 ^ 32) :
    (x ||| word n <<< k).toNat = x.toNat + n * 2 ^ k := by
  have hpos : 0 < 2 ^ k := Nat.two_pow_pos k
  have hsmall : n < 2 ^ 32 := Nat.lt_of_le_of_lt (Nat.le_mul_of_pos_right n hpos) hn
  calc (x ||| word n <<< k).toNat
    _ = x.toNat ||| (n * 2 ^ k) % 2 ^ 32 := by
        rw [BitVec.toNat_or, BitVec.toNat_shiftLeft, toNat_word, Nat.mod_eq_of_lt hsmall, Nat.shiftLeft_eq]
    _ = n <<< k ||| x.toNat := by rw [Nat.mod_eq_of_lt hn, Nat.or_comm, Nat.shiftLeft_eq]
    _ = x.toNat + n * 2 ^ k := by rw [← Nat.shiftLeft_add_eq_or_of_lt hx, Nat.shiftLeft_eq, Nat.add_comm]

/-- Four bytes put together are a little-endian number. -/
theorem ushr_bytes {a b c d : Nat} (ha : a < 256) (hb : b < 256) (hc : c < 256) (hd : d < 256) :
    ushr (bor (bor (bor a (shl b 8)) (shl c 16)) (shl d 24)) 0 = (a + b * 2 ^ 8 + c * 2 ^ 16 + d * 2 ^ 24 : Nat) := by
  have hone : (word a).toNat = a := by rw [toNat_word, Nat.mod_eq_of_lt (by omega)]
  have htwo : (word a ||| word b <<< 8).toNat = a + b * 2 ^ 8 := by
    rw [toNat_or_shl (by omega) (by omega), hone]
  have hthree : (word a ||| word b <<< 8 ||| word c <<< 16).toNat = a + b * 2 ^ 8 + c * 2 ^ 16 := by
    rw [toNat_or_shl (by omega) (by omega), htwo]
  rw [ushr_zero, word_bor, word_bor, word_bor, word_shl, word_shl, word_shl, toNat_or_shl (by omega) (by omega), hthree]

/-! ### Loops -/

/-- **A loop writes the little-endian bytes** of a number below a bound, when each turn stores its low byte and shifts it
by eight bits. -/
theorem bytesLoop_eq {low next : Int → Int} {bound : Nat}
    (hlow : ∀ n < bound, element (low (n : Nat)) = UInt8.ofNat n) (hnext : ∀ n < bound, next (n : Nat) = (n >>> 8 : Nat))
    {n : Nat} (hn : n < bound) (count : Nat) : bytesLoop low next count n = Wire.leBytes count n := by
  induction count generalizing n with
  | zero => rfl
  | succ count ih =>
      have hless : n >>> 8 < bound := Nat.lt_of_le_of_lt (Nat.shiftRight_le n 8) hn
      rw [bytesLoop, hlow n hn, hnext n hn, ih hless, Wire.leBytes_succ]

end Script

end Chainlite
