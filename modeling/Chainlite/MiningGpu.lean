import Chainlite.BlockCodec
import Chainlite.Node
import Chainlite.Sha256Standard

/-! The device code of the GPU miner: its own SHA-256 of a header, unrolled into two blocks and one, and the test of
a nonce. It hashes as the node does, and it takes a nonce when the node takes the block. -/

namespace Chainlite

namespace Gpu

open Sha (Words)

/-! ### Device SHA-256 -/

def dK : List UInt32 := [
  0x428a2f98, 0x71374491, 0xb5c0fbcf, 0xe9b5dba5, 0x3956c25b, 0x59f111f1, 0x923f82a4, 0xab1c5ed5,
  0xd807aa98, 0x12835b01, 0x243185be, 0x550c7dc3, 0x72be5d74, 0x80deb1fe, 0x9bdc06a7, 0xc19bf174,
  0xe49b69c1, 0xefbe4786, 0x0fc19dc6, 0x240ca1cc, 0x2de92c6f, 0x4a7484aa, 0x5cb0a9dc, 0x76f988da,
  0x983e5152, 0xa831c66d, 0xb00327c8, 0xbf597fc7, 0xc6e00bf3, 0xd5a79147, 0x06ca6351, 0x14292967,
  0x27b70a85, 0x2e1b2138, 0x4d2c6dfc, 0x53380d13, 0x650a7354, 0x766a0abb, 0x81c2c92e, 0x92722c85,
  0xa2bfe8a1, 0xa81a664b, 0xc24b8b70, 0xc76c51a3, 0xd192e819, 0xd6990624, 0xf40e3585, 0x106aa070,
  0x19a4c116, 0x1e376c08, 0x2748774c, 0x34b0bcb5, 0x391c0cb3, 0x4ed8aa4a, 0x5b9cca4f, 0x682e6ff3,
  0x748f82ee, 0x78a5636f, 0x84c87814, 0x8cc70208, 0x90befffa, 0xa4506ceb, 0xbef9a3f7, 0xc67178f2]

def rr (x n : UInt32) : UInt32 := (x >>> n) ||| (x <<< (32 - n))

/-- `w[i]` of the first sixteen words, from the bytes of a block. -/
def load (blk : Bytes) (i : Nat) : UInt32 :=
  ((blk.getD (i * 4) 0).toUInt32 <<< 24) ||| ((blk.getD (i * 4 + 1) 0).toUInt32 <<< 16) |||
    ((blk.getD (i * 4 + 2) 0).toUInt32 <<< 8) ||| (blk.getD (i * 4 + 3) 0).toUInt32

/-- `w[i]` of the others, behind `w[0 .. i - 1]`. -/
def extend (w : List UInt32) (i : Nat) : List UInt32 :=
  let s0 := rr (w.getD (i - 15) 0) 7 ^^^ rr (w.getD (i - 15) 0) 18 ^^^ (w.getD (i - 15) 0 >>> 3)
  let s1 := rr (w.getD (i - 2) 0) 17 ^^^ rr (w.getD (i - 2) 0) 19 ^^^ (w.getD (i - 2) 0 >>> 10)
  w ++ [w.getD (i - 16) 0 + s0 + w.getD (i - 7) 0 + s1]

/-- One round, with `dK[i]` and `w[i]`. -/
def round (s : Words) (kw : UInt32 × UInt32) : Words :=
  let S1 := rr s.e 6 ^^^ rr s.e 11 ^^^ rr s.e 25
  let ch := (s.e &&& s.f) ^^^ (~~~s.e &&& s.g)
  let t1 := s.h + S1 + ch + kw.1 + kw.2
  let S0 := rr s.a 2 ^^^ rr s.a 13 ^^^ rr s.a 22
  let mj := (s.a &&& s.b) ^^^ (s.a &&& s.c) ^^^ (s.b &&& s.c)
  let t2 := S0 + mj
  ⟨t1 + t2, s.a, s.b, s.c, s.d + t1, s.e, s.f, s.g⟩

def sha256Block (blk : Bytes) (st : Words) : Words :=
  let w := (List.range' 16 48).foldl extend ((List.range 16).map (load blk))
  let s := (dK.zip w).foldl round st
  ⟨st.a + s.a, st.b + s.b, st.c + s.c, st.d + s.d, st.e + s.e, st.f + s.f, st.g + s.g, st.h + s.h⟩

/-- The loop `for (i = 0; i < count; i++) buf[offset + i] = f(i)`. -/
def store (buf : Bytes) (offset count : Nat) (f : Nat → UInt8) : Bytes :=
  (List.range count).foldl (fun buf i => buf.set (offset + i) (f i)) buf

/-- The words of a state, each with its most significant byte first. -/
def wordsOut (st : Words) : Bytes :=
  [st.a, st.b, st.c, st.d, st.e, st.f, st.g, st.h].flatMap fun w : UInt32 =>
    [(w >>> 24).toUInt8, (w >>> 16).toUInt8, (w >>> 8).toUInt8, w.toUInt8]

def iv : Words :=
  ⟨0x6a09e667, 0xbb67ae85, 0x3c6ef372, 0xa54ff53a, 0x510e527f, 0x9b05688c, 0x1f83d9ab, 0x5be0cd19⟩

/-- `(uint8_t)(bits >> (56 - 8 * i))`. -/
def lengthByte (bits : UInt64) (i : Nat) : UInt8 := (bits >>> UInt64.ofNat (56 - 8 * i)).toUInt8

/-- Two blocks for the header, one for its digest. `blk` and `blk2` start with what is in memory. -/
def sha256d100 (blk blk2 msg : Bytes) : Bytes :=
  let blk := store blk 0 64 fun i => msg.getD i 0
  let st := sha256Block blk iv
  let blk := store blk 0 36 fun i => msg.getD (64 + i) 0
  let blk := blk.set 36 0x80
  let blk := store blk 37 19 fun _ => 0
  let blk := store blk 56 8 (lengthByte (100 * 8))
  let dig := wordsOut (sha256Block blk st)
  let blk2 := store blk2 0 32 fun i => dig.getD i 0
  let blk2 := blk2.set 32 0x80
  let blk2 := store blk2 33 23 fun _ => 0
  let blk2 := store blk2 56 8 (lengthByte (32 * 8))
  wordsOut (sha256Block blk2 iv)

/-- `while (!(b & 0x80)) { n++; b <<= 1; }`. A non-zero byte needs fewer than eight turns. -/
def shiftZeros : Nat → UInt8 → Int → Int
  | 0, _, n => n
  | fuel + 1, b, n => if b &&& 0x80 != 0 then n else shiftZeros fuel (b <<< 1) (n + 1)

/-- The loop of `lead_zeros` over the bytes that are left. -/
def leadZerosFrom : Bytes → Int → Int
  | [], _ => 256
  | b :: rest, n => if b = 0 then leadZerosFrom rest (n + 8) else shiftZeros 8 b n

def leadZeros (h : Bytes) : Int := leadZerosFrom h 0

/-- What one turn of `mine_kernel` tests: the thread's copy of the header, with the nonce at bytes 92 to 99. -/
def accepts (hdr : Bytes) (bits : UInt32) (nonce : UInt64) : Bool :=
  let memory := List.replicate 64 0
  let buf := store (List.replicate 100 0) 0 100 fun i => hdr.getD i 0
  let buf := store buf 92 8 fun b => (nonce >>> UInt64.ofNat (8 * b)).toUInt8
  bits.toInt32.toInt ≤ leadZeros (sha256d100 memory memory buf)

/-! ### One compression function -/

theorem sha256Block_eq (blk : Bytes) (st : Words) : sha256Block blk st = Sha.compress st blk := rfl

theorem wordsOut_eq (st : Words) : wordsOut st = st.toBytes := rfl

/-! ### The blocks -/

/-- Bytes stored one by one replace those behind `front`. -/
theorem store_append (front old : Bytes) {offset count : Nat} (hfront : front.length = offset)
    (hcount : count ≤ old.length) (f : Nat → UInt8) :
    store (front ++ old) offset count f = front ++ (List.range count).map f ++ old.drop count := by
  rw [← hfront]
  exact foldl_set_append front old f count hcount

theorem map_range_eq {bytes : Bytes} {count : Nat} {f : Nat → UInt8} (hcount : bytes.length = count)
    (hf : ∀ i < count, f i = bytes.getD i 0) : (List.range count).map f = bytes := by
  apply List.ext_getElem
  · simp [hcount]
  · intro i hi hi'
    rw [List.getElem_map, List.getElem_range, hf i (hcount ▸ hi'), List.getD_eq_getElem _ _ hi']

/-- A copy over a whole array. -/
theorem store_copy {old bytes : Bytes} {count : Nat} {f : Nat → UInt8} (hold : old.length = count)
    (hcount : bytes.length = count) (hf : ∀ i < count, f i = bytes.getD i 0) : store old 0 count f = bytes := by
  have hcopy := store_append [] old rfl (Nat.le_of_eq hold.symm) f
  rw [map_range_eq hcount hf, ← hold, List.drop_length, List.append_nil, List.nil_append, List.nil_append] at hcopy
  rw [← hold]
  exact hcopy

theorem set_eq_store (buf : Bytes) (offset : Nat) (byte : UInt8) :
    buf.set offset byte = store buf offset 1 fun _ => byte := rfl

/-- The last block of a message: its last bytes, the mark, zeros and the length. -/
theorem store_padded {old : Bytes} (content : Bytes) {count : Nat} (zeros : Nat) {f : Nat → UInt8} (hold : old.length = 64)
    (hcount : content.length = count) (hzeros : count + 1 + zeros = 56)
    (hf : ∀ i < count, f i = content.getD i 0)
    (bits : UInt64) :
    store (store ((store old 0 count f).set count 0x80) (count + 1) zeros fun _ => 0) 56 8 (lengthByte bits) =
      content ++ [0x80] ++ List.replicate zeros 0 ++ (Wire.leBytes 8 bits.toNat).reverse := by
  have hcopied : store old 0 count f = content ++ old.drop count := by
    have h := store_append [] old rfl (show count ≤ old.length by omega) f
    rwa [map_range_eq hcount hf, List.nil_append, List.nil_append] at h
  have hmarked : (content ++ old.drop count).set count 0x80 = content ++ [0x80] ++ old.drop (count + 1) := by
    have h := store_append content (old.drop count) hcount (show 1 ≤ _ by rw [List.length_drop]; omega) fun _ => 0x80
    rwa [← set_eq_store, List.drop_drop] at h
  have hfilled : store (content ++ [0x80] ++ old.drop (count + 1)) (count + 1) zeros (fun _ => 0) =
      content ++ [0x80] ++ List.replicate zeros 0 ++ old.drop 56 := by
    have h := store_append (content ++ [0x80]) (old.drop (count + 1))
      (show (content ++ [0x80]).length = count + 1 by rw [List.length_append, hcount]; rfl)
      (show zeros ≤ (old.drop (count + 1)).length by rw [List.length_drop]; omega) fun _ => 0
    rwa [List.drop_drop, hzeros, List.map_const', List.length_range] at h
  have hclosed : store (content ++ [0x80] ++ List.replicate zeros 0 ++ old.drop 56) 56 8 (lengthByte bits) =
      content ++ [0x80] ++ List.replicate zeros 0 ++ (Wire.leBytes 8 bits.toNat).reverse := by
    have hroom : (old.drop 56).length = 8 := by rw [List.length_drop, hold]
    have hbytes : (List.range 8).map (lengthByte bits) = (Wire.leBytes 8 bits.toNat).reverse := Sha.bigEndian_eq bits
    have hfront : (content ++ [0x80] ++ List.replicate zeros 0).length = 56 := by
      rw [List.length_append, List.length_append, hcount, List.length_replicate]
      exact hzeros
    have h := store_append _ _ hfront (Nat.le_of_eq hroom.symm) (lengthByte bits)
    rwa [hbytes, ← hroom, List.drop_length, List.append_nil, hroom] at h
  rw [hcopied, hmarked, hfilled, hclosed]

/-! ### The same hash -/

/-- A message that ends in its first block after `front`. -/
theorem digest_eq (message front last : Bytes) (hpadded : Sha.padded message = front ++ last) (hlast : last.length = 64) :
    (front = [] → Sha.digest message = wordsOut (sha256Block last iv)) ∧
      (front.length = 64 → Sha.digest message = wordsOut (sha256Block last (sha256Block front iv))) := by
  constructor
  · rintro rfl
    rw [Sha.digest, Sha.folded, hpadded, List.nil_append, (Blocks.state_block _ _ (by decide) hlast).1, wordsOut_eq,
      sha256Block_eq]
    rfl
  · intro hfront
    rw [Sha.digest, Sha.folded, hpadded, Blocks.state_cons _ _ (by decide) hfront,
      (Blocks.state_block _ _ (by decide) hlast).1, wordsOut_eq, sha256Block_eq, sha256Block_eq]
    rfl

/-- **The device hashes a header as the node does**, whatever its buffers held. -/
theorem sha256d100_eq {blk blk2 msg : Bytes} (hblk : blk.length = 64) (hblk2 : blk2.length = 64)
    (hmsg : msg.length = 100) : sha256d100 blk blk2 msg = (Sha.sha256d msg).toList := by
  have hfront : (msg.take 64).length = 64 := by rw [List.length_take, hmsg]; rfl
  -- the first hash: one whole block of the header, then the rest of it with the padding
  have hfirst : store blk 0 64 (fun i => msg.getD i 0) = msg.take 64 :=
    store_copy hblk hfront fun i hi => by simp [List.getD_eq_getElem?_getD, hi]
  have hsecond := store_padded (msg.drop 64) 19 (f := fun i => msg.getD (64 + i) 0) hfront
    (by rw [List.length_drop, hmsg]) rfl (fun i _ => by simp [List.getD_eq_getElem?_getD]) (100 * 8)
  have hdigest := (digest_eq msg (msg.take 64) (msg.drop 64 ++ [0x80] ++
    List.replicate 19 0 ++ (Wire.leBytes 8 ((100 * 8 : UInt64).toNat)).reverse) (by
      rw [Sha.padded, hmsg, ← List.append_assoc, ← List.append_assoc, ← List.append_assoc, List.take_append_drop]
      rfl) (by simp [hmsg])).2 hfront
  -- the second hash: the digest with its padding
  have hlen : (Sha.sha256 msg).toList.length = 32 := Vector.length_toList
  have hthird := store_padded (Sha.sha256 msg).toList 23 (f := fun i => (Sha.sha256 msg).toList.getD i 0)
    hblk2 hlen rfl (fun _ _ => rfl) (32 * 8)
  have hdigest2 := (digest_eq (Sha.sha256 msg).toList [] ((Sha.sha256 msg).toList ++
    [0x80] ++ List.replicate 23 0 ++ (Wire.leBytes 8 ((32 * 8 : UInt64).toNat)).reverse) (by
      rw [Sha.padded, hlen, List.nil_append]
      rfl) (by
      rw [List.length_append, List.length_append, List.length_append, hlen]
      rfl)).1 rfl
  rw [Sha.sha256d, Sha.sha256_eq_digest (by rw [hlen]; decide), hdigest2]
  rw [← Sha.sha256_eq_digest (by rw [hmsg]; decide)] at hdigest
  unfold sha256d100
  dsimp only
  rw [hfirst, hsecond, ← hdigest, hthird]

/-! ### The same judgement -/

theorem shiftZeros_eq (fuel : Nat) (b : UInt8) (n : Int) : shiftZeros fuel b n = n + highZeros fuel b := by
  induction fuel generalizing b n with
  | zero => simp [shiftZeros, highZeros]
  | succ fuel ih =>
      rw [shiftZeros, highZeros]
      split
      · simp
      · rw [ih, Nat.cast_add, Nat.cast_one, Int.add_assoc, Int.add_comm 1]

theorem leadZerosFrom_eq (bytes : Bytes) {n : Int} (h : n + 8 * bytes.length = 256) :
    leadZerosFrom bytes n = n + leadingZerosFrom bytes := by
  induction bytes generalizing n with
  | nil => simpa [leadZerosFrom, leadingZerosFrom] using h.symm
  | cons b rest ih =>
      rw [List.length_cons] at h
      rw [leadZerosFrom, leadingZerosFrom]
      split
      · rw [ih (by omega), Nat.cast_add, ← Int.add_assoc]
        rfl
      · exact shiftZeros_eq 8 b n

theorem leadZeros_eq (h : H256) : leadZeros h.toList = leadingZeroBits h := by
  rw [leadZeros, leadZerosFrom_eq _ (by rw [Vector.length_toList]; rfl), Int.zero_add, leadingZeroBits]

theorem toInt_toInt32 {bits : UInt32} (h : bits.toNat < 2 ^ 31) : bits.toInt32.toInt = bits.toNat := by
  show bits.toBitVec.toInt = bits.toNat
  rw [BitVec.toInt_eq_toNat_of_lt]
  · rfl
  · show 2 * bits.toNat < 2 ^ 32
    omega

theorem length_store (buf : Bytes) (offset count : Nat) (f : Nat → UInt8) :
    (store buf offset count f).length = buf.length := by
  induction count with
  | zero => rfl
  | succ count ih =>
      rw [store, List.range_succ, List.foldl_append, List.foldl_cons, List.foldl_nil, List.length_set]
      exact ih

theorem patchNonce_eq (hdr : Bytes) (nonce : UInt64) :
    patchNonce hdr nonce = store hdr 92 8 fun b => (nonce >>> UInt64.ofNat (8 * b)).toUInt8 := rfl

theorem accepts_eq {hdr : Bytes} (hhdr : hdr.length = 100) {bits : UInt32} (hbits : bits.toNat < 2 ^ 31)
    (nonce : UInt64) : accepts hdr bits nonce = powOk (Sha.sha256d (patchNonce hdr nonce)) bits := by
  have hcopy : store (List.replicate 100 0) 0 100 (fun i => hdr.getD i 0) = hdr :=
    store_copy (List.length_replicate ..) hhdr fun _ _ => rfl
  have hlen : (patchNonce hdr nonce).length = 100 := (length_store hdr 92 8 _).trans hhdr
  unfold accepts
  dsimp only
  rw [hcopy, ← patchNonce_eq, sha256d100_eq (List.length_replicate ..) (List.length_replicate ..) hlen, leadZeros_eq,
    toInt_toInt32 hbits, powOk]
  exact decide_eq_decide.mpr Int.ofNat_le

end Gpu

/-- **The GPU miner hashes and judges as the node does**: on every header, and so on those that `/work` returns, which
read back with the nonce that was tried. -/
theorem gpu_judges_as_node (verify : Pub64 → H256 → Sig64 → Bool) :
    letI := Sha.crypto verify
    (∀ blk blk2 msg : Bytes, blk.length = 64 → blk2.length = 64 → msg.length = 100 →
      Gpu.sha256d100 blk blk2 msg = (Sha.sha256d msg).toList) ∧
    (∀ (hdr : Bytes) (nonce : UInt64) (bits : UInt32), hdr.length = 100 → bits.toNat < 2 ^ 31 →
      ∃ h, BlockHeader.parse (patchNonce hdr nonce) = .ok (h, []) ∧
        (Gpu.accepts hdr bits nonce = true ↔ powOk h.hash bits = true)) ∧
    ∀ (r : Readings) (a : App) (payto : Addr20) (nonce : UInt64) (bits : UInt32), bits.toNat < 2 ^ 31 →
      let h := (a.workBlock r payto).h
      BlockHeader.parse (patchNonce h.serialize nonce) = .ok ({ h with nonce := nonce }, []) ∧
        (Gpu.accepts h.serialize bits nonce = true ↔ powOk { h with nonce := nonce }.hash bits = true) := by
  let _ := Sha.crypto verify
  refine ⟨fun _ _ _ hblk hblk2 hmsg => Gpu.sha256d100_eq hblk hblk2 hmsg, fun hdr nonce bits hhdr hbits => ?_,
    fun r a payto nonce bits hbits => ?_⟩
  · obtain ⟨h, hparse, hbytes⟩ := BlockHeader.parse_total
      (show (patchNonce hdr nonce).length = headerSize from (Gpu.length_store hdr 92 8 _).trans hhdr)
    refine ⟨h, hparse, ?_⟩
    rw [Gpu.accepts_eq hhdr hbits, hbytes]
    rfl
  · have hlen : (a.workBlock r payto).h.serialize.length = 100 := BlockHeader.length_serialize _
    have hreads := BlockHeader.parse_reads { (a.workBlock r payto).h with nonce := nonce } []
    rw [List.append_nil, ← patchNonce_serialize] at hreads
    refine ⟨hreads, ?_⟩
    rw [Gpu.accepts_eq hlen hbits, patchNonce_serialize]
    rfl

/-- A header of zeros, hashed and judged with the nonce 7. -/
theorem gpu_judges_as_node_zeros :
    Gpu.sha256d100 (List.replicate 64 0) (List.replicate 64 1) (List.replicate 100 0) =
        (Sha.sha256d (List.replicate 100 0)).toList ∧
      ∃ h, BlockHeader.parse (patchNonce (List.replicate 100 0) 7) = .ok (h, []) ∧
        (Gpu.accepts (List.replicate 100 0) 20 7 = true ↔
          powOk (@BlockHeader.hash (Sha.crypto fun _ _ _ => false) h) 20 = true) :=
  ⟨(gpu_judges_as_node fun _ _ _ => false).1 _ _ _ (List.length_replicate ..) (List.length_replicate ..)
      (List.length_replicate ..),
    (gpu_judges_as_node fun _ _ _ => false).2.1 _ 7 20 (List.length_replicate ..) (by decide)⟩

end Chainlite
