import Chainlite.Bytes

/-! SHA-256 as `sha256.h` computes it: a streaming context with a 64-byte buffer, its compression
function and its padding, the double hash, and the proof-of-work helpers. -/

namespace Chainlite

namespace Sha

def K : List UInt32 := [
  0x428a2f98, 0x71374491, 0xb5c0fbcf, 0xe9b5dba5, 0x3956c25b, 0x59f111f1, 0x923f82a4, 0xab1c5ed5,
  0xd807aa98, 0x12835b01, 0x243185be, 0x550c7dc3, 0x72be5d74, 0x80deb1fe, 0x9bdc06a7, 0xc19bf174,
  0xe49b69c1, 0xefbe4786, 0x0fc19dc6, 0x240ca1cc, 0x2de92c6f, 0x4a7484aa, 0x5cb0a9dc, 0x76f988da,
  0x983e5152, 0xa831c66d, 0xb00327c8, 0xbf597fc7, 0xc6e00bf3, 0xd5a79147, 0x06ca6351, 0x14292967,
  0x27b70a85, 0x2e1b2138, 0x4d2c6dfc, 0x53380d13, 0x650a7354, 0x766a0abb, 0x81c2c92e, 0x92722c85,
  0xa2bfe8a1, 0xa81a664b, 0xc24b8b70, 0xc76c51a3, 0xd192e819, 0xd6990624, 0xf40e3585, 0x106aa070,
  0x19a4c116, 0x1e376c08, 0x2748774c, 0x34b0bcb5, 0x391c0cb3, 0x4ed8aa4a, 0x5b9cca4f, 0x682e6ff3,
  0x748f82ee, 0x78a5636f, 0x84c87814, 0x8cc70208, 0x90befffa, 0xa4506ceb, 0xbef9a3f7, 0xc67178f2]

/-- The eight working words `a .. h`, and the chaining state `st[0..7]`. -/
structure Words where
  a : UInt32
  b : UInt32
  c : UInt32
  d : UInt32
  e : UInt32
  f : UInt32
  g : UInt32
  h : UInt32
  deriving DecidableEq

def IV : Words :=
  ⟨0x6a09e667, 0xbb67ae85, 0x3c6ef372, 0xa54ff53a, 0x510e527f, 0x9b05688c, 0x1f83d9ab, 0x5be0cd19⟩

def rotr (x n : UInt32) : UInt32 := (x >>> n) ||| (x <<< (32 - n))

/-- The big-endian word at bytes `4 i .. 4 i + 3` of a block. -/
def word (blk : Bytes) (i : Nat) : UInt32 :=
  ((blk.getD (i * 4) 0).toUInt32 <<< 24) ||| ((blk.getD (i * 4 + 1) 0).toUInt32 <<< 16) |||
    ((blk.getD (i * 4 + 2) 0).toUInt32 <<< 8) ||| (blk.getD (i * 4 + 3) 0).toUInt32

/-- Append `w[i]` to the message schedule `w[0 .. i - 1]`. -/
def extend (w : List UInt32) (i : Nat) : List UInt32 :=
  let w15 := w.getD (i - 15) 0
  let w2 := w.getD (i - 2) 0
  let s0 := rotr w15 7 ^^^ rotr w15 18 ^^^ (w15 >>> 3)
  let s1 := rotr w2 17 ^^^ rotr w2 19 ^^^ (w2 >>> 10)
  w ++ [w.getD (i - 16) 0 + s0 + w.getD (i - 7) 0 + s1]

def schedule (blk : Bytes) : List UInt32 :=
  (List.range' 16 48).foldl extend ((List.range 16).map (word blk))

/-- One round, with `K[i]` and `w[i]`. -/
def round (s : Words) (kw : UInt32 × UInt32) : Words :=
  let S1 := rotr s.e 6 ^^^ rotr s.e 11 ^^^ rotr s.e 25
  let ch := (s.e &&& s.f) ^^^ (~~~s.e &&& s.g)
  let t1 := s.h + S1 + ch + kw.1 + kw.2
  let S0 := rotr s.a 2 ^^^ rotr s.a 13 ^^^ rotr s.a 22
  let mj := (s.a &&& s.b) ^^^ (s.a &&& s.c) ^^^ (s.b &&& s.c)
  let t2 := S0 + mj
  ⟨t1 + t2, s.a, s.b, s.c, s.d + t1, s.e, s.f, s.g⟩

/-- One 64-byte block compression. -/
def compress (st : Words) (blk : Bytes) : Words :=
  let s := (K.zip (schedule blk)).foldl round st
  ⟨st.a + s.a, st.b + s.b, st.c + s.c, st.d + s.d, st.e + s.e, st.f + s.f, st.g + s.g, st.h + s.h⟩

/-- The streaming context. `buf` holds the `buflen` buffered bytes. -/
structure Ctx where
  st : Words := IV
  buf : Bytes := []
  total : UInt64 := 0

/-- The loop of `update`: fill the buffer, compress it when it holds 64 bytes. Every turn takes at
least one byte while the buffer is not full, so the length of the input is enough fuel. -/
def Ctx.absorb : Nat → Ctx → Bytes → Ctx
  | 0, c, _ => c
  | fuel + 1, c, p =>
      if p.isEmpty then c
      else
        let k := min p.length (64 - c.buf.length)
        let buf := c.buf ++ p.take k
        if buf.length = 64 then absorb fuel { c with st := compress c.st buf, buf := [] } (p.drop k)
        else absorb fuel { c with buf := buf } (p.drop k)

def Ctx.update (c : Ctx) (p : Bytes) : Ctx :=
  Ctx.absorb p.length { c with total := c.total + UInt64.ofNat p.length } p

/-- `while (buflen != 56) update(&z, 1)`; 64 turns go once round the buffer. -/
def Ctx.padZeros : Nat → Ctx → Ctx
  | 0, c => c
  | fuel + 1, c => if c.buf.length = 56 then c else padZeros fuel (c.update [0])

/-- The four big-endian bytes of a word. -/
def wordBytes (w : UInt32) : Bytes :=
  [(w >>> 24).toUInt8, (w >>> 16).toUInt8, (w >>> 8).toUInt8, w.toUInt8]

def Words.toBytes (s : Words) : Bytes :=
  [s.a, s.b, s.c, s.d, s.e, s.f, s.g, s.h].flatMap wordBytes

def Ctx.final (c : Ctx) : H256 :=
  let bits := c.total * 8
  let c := Ctx.padZeros 64 (c.update [0x80])
  let len := (List.range 8).map fun i => (bits >>> UInt64.ofNat (56 - 8 * i)).toUInt8
  Reader.toArr 32 (c.update len).st.toBytes

def sha256 (b : Bytes) : H256 := (({} : Ctx).update b).final

/-- Double SHA-256: hash ids and proof of work use it. -/
def sha256d (b : Bytes) : H256 := sha256 (sha256 b).toList

example : hexs (sha256 "abc".toUTF8.toList).toList =
    "ba7816bf8f01cfea414140de5dae2223b00361a396177a9cb410ff61f20015ad" := by decide +kernel

end Sha

/-! ### Proof of work -/

/-- The inner loop of `leading_zero_bits`: shift until the high bit is set. A non-zero byte needs
fewer than eight turns. -/
def highZeros : Nat → UInt8 → Nat
  | 0, _ => 0
  | fuel + 1, b => if b &&& 0x80 != 0 then 0 else highZeros fuel (b <<< 1) + 1

def leadingZerosFrom : Bytes → Nat
  | [] => 0
  | b :: rest => if b = 0 then 8 + leadingZerosFrom rest else highZeros 8 b

def leadingZeroBits (h : H256) : Nat := leadingZerosFrom h.toList

def powOk (h : H256) (bits : UInt32) : Bool := bits.toNat ≤ leadingZeroBits h

/-- The work of one block: `2 ^ bits`, saturated at the largest 64-bit value from 63 bits on. -/
def workOf (bits : UInt32) : UInt64 :=
  if 63 ≤ bits then 0xffffffffffffffff else 1 <<< bits.toUInt64

theorem powOk_zero (h : H256) : powOk h 0 = true := by simp [powOk]

theorem workOf_of_lt {bits : UInt32} (hbits : bits.toNat < 63) : (workOf bits).toNat = 2 ^ bits.toNat := by
  have hsat : ¬63 ≤ bits := by simpa [UInt32.le_iff_toNat_le] using hbits
  have hmod : bits.toNat % 64 = bits.toNat := Nat.mod_eq_of_lt (by omega)
  rw [workOf, if_neg hsat]
  simp only [UInt64.toNat_shiftLeft, UInt32.toNat_toUInt64, UInt64.reduceToNat, Nat.one_shiftLeft, hmod]
  exact Nat.mod_eq_of_lt (Nat.pow_lt_pow_right (by decide) (by omega))

theorem workOf_pos (bits : UInt32) : 0 < (workOf bits).toNat := by
  by_cases hbits : bits.toNat < 63
  · rw [workOf_of_lt hbits]
    exact Nat.two_pow_pos _
  · have hsat : 63 ≤ bits := by simpa [UInt32.le_iff_toNat_le] using hbits
    rw [workOf, if_pos hsat]
    decide

/-! ### Cryptographic primitives

The model is parametric in the hash, the address derivation and the signature check: nothing is
assumed about them, so what is proved holds of the functions below with any signature check. -/

class Crypto where
  sha256d : Bytes → H256
  addrOf : Pub64 → Addr20
  sigVerify : Pub64 → H256 → Sig64 → Bool

export Crypto (sha256d addrOf sigVerify)

/-- The first 20 bytes of the SHA-256 of a public key. -/
def Sha.addrOf (pub : Pub64) : Addr20 := Reader.toArr 20 (Sha.sha256 pub.toList).toList

/-- The primitives of the program. Signatures are checked by the operating system: `verify`. -/
@[reducible] def Sha.crypto (verify : Pub64 → H256 → Sig64 → Bool) : Crypto where
  sha256d := Sha.sha256d
  addrOf := Sha.addrOf
  sigVerify := verify

end Chainlite
