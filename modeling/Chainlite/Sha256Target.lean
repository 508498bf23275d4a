import Chainlite.Sha256
import Mathlib.Data.Nat.Size

/-! The proof of work as a target. The leading zero bits of a hash are the bits that its number, read big-endian, falls
short of 256, so a hash meets a difficulty when its number is below a power of two. -/

namespace Chainlite

/-- The number whose bytes are given, the most significant one first. -/
def beNat : Bytes → Nat
  | [] => 0
  | byte :: rest => byte.toNat * 2 ^ (8 * rest.length) + beNat rest

/-- A leading digit below a power of two leaves the number below it. -/
theorem mul_add_lt {digit low k n : Nat} (hdigit : digit < 2 ^ k) (hlow : low < 2 ^ n) :
    digit * 2 ^ n + low < 2 ^ (k + n) := by
  calc digit * 2 ^ n + low
    _ < digit * 2 ^ n + 2 ^ n := Nat.add_lt_add_left hlow _
    _ = (digit + 1) * 2 ^ n := (Nat.succ_mul _ _).symm
    _ ≤ 2 ^ k * 2 ^ n := Nat.mul_le_mul_right _ hdigit
    _ = 2 ^ (k + n) := (Nat.pow_add _ _ _).symm

theorem beNat_lt (bytes : Bytes) : beNat bytes < 2 ^ (8 * bytes.length) := by
  induction bytes with
  | nil => decide
  | cons byte rest ih =>
      have hwidth : 8 * (byte :: rest).length = 8 + 8 * rest.length := by
        rw [List.length_cons, Nat.mul_succ, Nat.add_comm]
      rw [beNat, hwidth]
      exact mul_add_lt byte.toNat_lt ih

/-- The shifts of a byte stop at its highest bit. -/
theorem highZeros_bounds {byte : UInt8} (h : byte ≠ 0) : highZeros 8 byte ≤ 7 ∧
    2 ^ (7 - highZeros 8 byte) ≤ byte.toNat ∧ byte.toNat < 2 ^ (8 - highZeros 8 byte) := by
  have hall : ∀ n : Fin 256, UInt8.ofNat n ≠ 0 → highZeros 8 (UInt8.ofNat n) ≤ 7 ∧
      2 ^ (7 - highZeros 8 (UInt8.ofNat n)) ≤ n.val ∧ n.val < 2 ^ (8 - highZeros 8 (UInt8.ofNat n)) := by
    decide +kernel
  have hbyte := hall ⟨byte.toNat, byte.toNat_lt⟩
  rw [UInt8.ofNat_toNat] at hbyte
  exact hbyte h

/-- The leading zero bits and the bits of the number make up all the bits. -/
theorem leadingZerosFrom_add_size (bytes : Bytes) : leadingZerosFrom bytes + (beNat bytes).size = 8 * bytes.length := by
  induction bytes with
  | nil => rfl
  | cons byte rest ih =>
      rw [leadingZerosFrom, beNat, List.length_cons]
      by_cases hzero : byte = 0
      · rw [if_pos hzero, hzero, show (0 : UInt8).toNat = 0 from rfl, Nat.zero_mul, Nat.zero_add]
        omega
      · obtain ⟨hseven, hlow, hhigh⟩ := highZeros_bounds hzero
        rw [if_neg hzero]
        have hupper : (byte.toNat * 2 ^ (8 * rest.length) + beNat rest).size ≤ 8 - highZeros 8 byte + 8 * rest.length := by
          rw [Nat.size_le]
          exact mul_add_lt hhigh (beNat_lt rest)
        have hlower : 7 - highZeros 8 byte + 8 * rest.length < (byte.toNat * 2 ^ (8 * rest.length) + beNat rest).size := by
          rw [Nat.lt_size, Nat.pow_add]
          exact (Nat.mul_le_mul_right _ hlow).trans (Nat.le_add_right _ _)
        omega

/-- A hash has so many leading zero bits when its number is below the target. -/
theorem le_leadingZeroBits_iff (h : H256) (bits : Nat) :
    bits ≤ leadingZeroBits h ↔ bits ≤ 256 ∧ beNat h.toList < 2 ^ (256 - bits) := by
  have hsum := leadingZerosFrom_add_size h.toList
  rw [Vector.length_toList] at hsum
  rw [leadingZeroBits, ← Nat.size_le]
  omega

/-- **The proof of work is a target test**, and a harder one the more bits are asked for. -/
theorem pow_ok_iff_target (h : H256) (bits : UInt32) :
    (powOk h bits = true ↔ bits.toNat ≤ 256 ∧ beNat h.toList < 2 ^ (256 - bits.toNat)) ∧
      ∀ fewer ≤ bits, powOk h bits = true → powOk h fewer = true := by
  have hiff : ∀ bits, powOk h bits = true ↔ bits.toNat ≤ leadingZeroBits h := fun bits => decide_eq_true_iff
  refine ⟨(hiff bits).trans (le_leadingZeroBits_iff h bits.toNat), fun fewer hle hpow => ?_⟩
  rw [hiff] at hpow ⊢
  exact (UInt32.le_iff_toNat_le.mp hle).trans hpow

/-- The hash of zeros meets every difficulty up to 256 bits. -/
theorem pow_ok_iff_target_zeros : powOk (zeros 32) 20 = true :=
  (pow_ok_iff_target (zeros 32) 256).2 20 (by decide) ((pow_ok_iff_target (zeros 32) 256).1.mpr (by decide))

end Chainlite
