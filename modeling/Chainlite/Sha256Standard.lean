import Chainlite.BaseBlocks
import Chainlite.Sha256

/-! The streaming SHA-256 against the standard. However a message is passed to `update`, the context holds the state
after its whole blocks and the bytes left over; `final` passes the padding through `update` as well. So the digest is
that of the padded message, block by block. -/

namespace Chainlite

namespace Sha

/-! ### The standard -/

/-- The number of zero bytes between the byte `0x80` and the length. -/
def zeroCount (length : Nat) : Nat := (119 - length % 64) % 64

/-- The message with its padding: `0x80`, zero bytes, and the length in bits as 64 bits, big-endian. -/
def padded (message : Bytes) : Bytes :=
  message ++ [0x80] ++ List.replicate (zeroCount message.length) 0 ++ (Wire.leBytes 8 (8 * message.length)).reverse

/-- The state after the whole blocks of a message. -/
abbrev folded (message : Bytes) : Words := Blocks.state 64 compress IV message

/-- The digest of the standard: the compression function folded over the blocks of the padded message. -/
def digest (message : Bytes) : Bytes := (folded (padded message)).toBytes

/-- The padding has the fewest zero bytes that fill the last block. -/
theorem zeroCount_isLeast (length : Nat) : IsLeast { zeros | 64 ∣ length + 1 + zeros + 8 } (zeroCount length) := by
  constructor
  · show 64 ∣ length + 1 + zeroCount length + 8
    rw [zeroCount]
    omega
  · intro zeros hzeros
    have hzeros : 64 ∣ length + 1 + zeros + 8 := hzeros
    rw [zeroCount]
    omega

/-! ### `update` -/

/-- The context after the bytes of a message. -/
structure Ctx.Holds (c : Ctx) (message : Bytes) : Prop where
  st : c.st = folded message
  buf : c.buf = Blocks.rest 64 message
  total : c.total = UInt64.ofNat message.length

theorem Ctx.holds_nil : ({} : Ctx).Holds [] := ⟨rfl, rfl, rfl⟩

/-- The loop of `update`. -/
theorem Ctx.absorb_spec {fuel : Nat} {c : Ctx} {p message : Bytes} (hfuel : p.length ≤ fuel)
    (hst : c.st = folded message) (hbuf : c.buf = Blocks.rest 64 message) :
    (absorb fuel c p).st = folded (message ++ p) ∧ (absorb fuel c p).buf = Blocks.rest 64 (message ++ p) ∧
      (absorb fuel c p).total = c.total := by
  induction fuel generalizing c p message with
  | zero =>
      have hnil : p = [] := List.eq_nil_of_length_eq_zero (Nat.le_zero.mp hfuel)
      rw [hnil, List.append_nil]
      exact ⟨hst, hbuf, rfl⟩
  | succ fuel ih =>
      rw [absorb]
      by_cases hnil : p = []
      · rw [hnil, List.append_nil]
        exact ⟨hst, hbuf, rfl⟩
      · have hne : ¬p.isEmpty = true := by simpa using hnil
        have hpos := List.length_pos_iff.mpr hnil
        have hroom : c.buf.length < 64 := by
          rw [hbuf]
          exact Blocks.rest_length_lt (by decide) message
        obtain ⟨hstate, hrest⟩ := Blocks.state_append compress IV (show 0 < 64 by decide) message
          (p.take (min p.length (64 - c.buf.length)))
        have hsplit : message ++ p.take (min p.length (64 - c.buf.length)) ++
            p.drop (min p.length (64 - c.buf.length)) = message ++ p := by
          rw [List.append_assoc, List.take_append_drop]
        have hfuel' : (p.drop (min p.length (64 - c.buf.length))).length ≤ fuel := by
          rw [List.length_drop]
          omega
        have htake : (p.take (min p.length (64 - c.buf.length))).length = min p.length (64 - c.buf.length) :=
          List.length_take_of_le (Nat.min_le_left _ _)
        rw [← hbuf] at hstate hrest
        rw [if_neg hne]
        dsimp only
        split
        · rename_i hfull
          obtain ⟨hblock, hempty⟩ := Blocks.state_block compress c.st (show 0 < 64 by decide) hfull
          rw [← hsplit]
          refine ih hfuel' ?_ ?_
          · rw [folded, hstate, ← folded, ← hst, hblock]
          · rw [hrest, hempty]
        · rename_i hpart
          have hshort : (c.buf ++ p.take (min p.length (64 - c.buf.length))).length < 64 := by
            rw [List.length_append, htake] at hpart ⊢
            omega
          rw [← hsplit]
          refine ih hfuel' ?_ ?_
          · rw [folded, hstate, ← folded, ← hst, Blocks.state_short compress _ hshort]
          · rw [hrest, Blocks.rest_short hshort]

/-- **One call of `update`.** -/
theorem Ctx.Holds.update {c : Ctx} {message : Bytes} (h : c.Holds message) (p : Bytes) :
    (c.update p).Holds (message ++ p) := by
  obtain ⟨hst, hbuf, htotal⟩ := absorb_spec (c := { c with total := c.total + UInt64.ofNat p.length }) (Nat.le_refl _)
    h.st h.buf
  refine ⟨hst, hbuf, htotal.trans ?_⟩
  rw [h.total, List.length_append, UInt64.ofNat_add]

/-- Any number of calls of `update`. -/
theorem Ctx.Holds.updates {c : Ctx} {message : Bytes} (h : c.Holds message) (pieces : List Bytes) :
    (pieces.foldl Ctx.update c).Holds (message ++ pieces.flatten) := by
  induction pieces generalizing c message with
  | nil => simpa using h
  | cons piece pieces ih =>
      rw [List.foldl_cons, List.flatten_cons, ← List.append_assoc]
      exact ih (h.update piece)

/-! ### `final` -/

/-- One byte more in the buffer, and an empty one after the last. -/
theorem Ctx.length_update_byte {c : Ctx} (h : c.buf.length < 64) (byte : UInt8) :
    (c.update [byte]).buf.length = (c.buf.length + 1) % 64 := by
  have htake : [byte].take (min 1 (64 - c.buf.length)) = [byte] := List.take_of_length_le (by
    rw [List.length_singleton]
    omega)
  have hlen : (c.buf ++ [byte]).length = c.buf.length + 1 := by simp
  rw [Ctx.update, List.length_singleton, absorb]
  dsimp only [List.isEmpty_cons, List.length_singleton]
  rw [if_neg (by decide), htake, hlen]
  split
  · rename_i hfull
    rw [hfull]
    rfl
  · rename_i hpart
    rw [absorb, hlen, Nat.mod_eq_of_lt (by omega)]

/-- **The padding loop of `final` terminates**, for every number of buffered bytes. -/
theorem Ctx.padZeros_terminates {c : Ctx} (h : c.buf.length < 64) {fuel : Nat}
    (hfuel : (120 - c.buf.length) % 64 ≤ fuel) :
    padZeros fuel c = (fun c => c.update [0])^[(120 - c.buf.length) % 64] c ∧ (padZeros fuel c).buf.length = 56 ∧
      ∀ turn < (120 - c.buf.length) % 64, ((fun c => Ctx.update c [0])^[turn] c).buf.length ≠ 56 := by
  induction fuel generalizing c with
  | zero =>
      have hdone : (120 - c.buf.length) % 64 = 0 := Nat.le_zero.mp hfuel
      rw [hdone, padZeros]
      exact ⟨rfl, by omega, fun turn hturn => absurd hturn (Nat.not_lt_zero _)⟩
  | succ fuel ih =>
      rw [padZeros]
      by_cases hdone : c.buf.length = 56
      · rw [if_pos hdone]
        have hzero : (120 - c.buf.length) % 64 = 0 := by omega
        rw [hzero]
        exact ⟨rfl, hdone, fun turn hturn => absurd hturn (Nat.not_lt_zero _)⟩
      · rw [if_neg hdone]
        have hnext := Ctx.length_update_byte h 0
        have hturns : (120 - c.buf.length) % 64 = (120 - (c.update [0]).buf.length) % 64 + 1 := by
          rw [hnext]
          omega
        obtain ⟨hpad, hlast, hbefore⟩ := ih (c := c.update [0]) (by rw [hnext]; omega) (by omega)
        rw [hturns, Function.iterate_succ_apply]
        refine ⟨hpad, hlast, fun turn hturn => ?_⟩
        cases turn with
        | zero => exact hdone
        | succ turn => exact hbefore turn (Nat.lt_of_succ_lt_succ hturn)

theorem Ctx.Holds.zeros {c : Ctx} {message : Bytes} (h : c.Holds message) (count : Nat) :
    ((fun c => Ctx.update c [0])^[count] c).Holds (message ++ List.replicate count 0) := by
  induction count generalizing c message with
  | zero => simpa using h
  | succ count ih =>
      rw [Function.iterate_succ_apply, List.replicate_succ, List.append_cons]
      exact ih (h.update [0])

theorem toUInt8_shiftRight (bits : UInt64) {k : Nat} (hk : k < 64) :
    (bits >>> UInt64.ofNat k).toUInt8 = UInt8.ofNat (bits.toNat >>> k) := by
  rw [← UInt8.toNat_inj, UInt64.toNat_toUInt8, UInt64.toNat_shiftRight, UInt8.toNat_ofNat', UInt64.toNat_ofNat',
    Nat.mod_mod_of_dvd k (show 64 ∣ 2 ^ 64 by decide), Nat.mod_eq_of_lt hk]

/-- The bytes of a 64-bit number, the most significant one first. -/
theorem bigEndian_eq (bits : UInt64) : ((List.range 8).map fun i => (bits >>> UInt64.ofNat (56 - 8 * i)).toUInt8) =
    (Wire.leBytes 8 bits.toNat).reverse := by
  rw [Wire.leBytes, ← List.map_reverse]
  have hreverse : (List.range 8).reverse = (List.range 8).map fun i => 7 - i := rfl
  rw [hreverse, List.map_map]
  apply List.map_congr_left
  intro i hi
  have hi : i < 8 := List.mem_range.mp hi
  rw [toUInt8_shiftRight bits (by omega), Function.comp_apply, show 56 - 8 * i = 8 * (7 - i) by omega]

theorem length_toBytes (s : Words) : s.toBytes.length = 32 := rfl

/-- **The digest of a context is that of its bytes.** -/
theorem Ctx.Holds.final {c : Ctx} {message : Bytes} (h : c.Holds message) (hlen : message.length < 2 ^ 61) :
    c.final.toList = digest message := by
  have hbits : (c.total * 8).toNat = 8 * message.length := by
    rw [h.total, UInt64.toNat_mul, UInt64.toNat_ofNat', Nat.mod_eq_of_lt (show message.length < 2 ^ 64 by omega),
      show (8 : UInt64).toNat = 8 from rfl, Nat.mod_eq_of_lt (show message.length * 8 < 2 ^ 64 by omega), Nat.mul_comm]
  have hmark := h.update [0x80]
  have hbuffered : (c.update [0x80]).buf.length = (message.length + 1) % 64 := by
    rw [hmark.buf, Blocks.length_rest, List.length_append, List.length_singleton]
  have hturns : (120 - (c.update [0x80]).buf.length) % 64 = zeroCount message.length := by
    rw [hbuffered, zeroCount]
    omega
  obtain ⟨hpad, -⟩ := Ctx.padZeros_terminates (show (c.update [0x80]).buf.length < 64 by rw [hbuffered]; omega)
    (show _ ≤ 64 by omega)
  rw [hturns] at hpad
  have hzeros := hmark.zeros (zeroCount message.length)
  rw [← hpad] at hzeros
  have hwhole := hzeros.update (Wire.leBytes 8 (8 * message.length)).reverse
  unfold Ctx.final
  dsimp only
  rw [bigEndian_eq, hbits, Reader.toList_toArr (length_toBytes _), hwhole.st]
  rfl

/-- **SHA-256 is the function of the standard**, however the message is passed to `update`; and the loop that pads it
ends for every number of buffered bytes, when there are 56 of them and not before. -/
theorem sha256_matches_standard :
    (∀ (message : Bytes) (pieces : List Bytes), message.length < 2 ^ 61 → pieces.flatten = message →
      (pieces.foldl Ctx.update {}).final.toList = digest message) ∧
    (∀ length, IsLeast { zeros | 64 ∣ length + 1 + zeros + 8 } (zeroCount length)) ∧
    ∀ c : Ctx, c.buf.length < 64 → ∃ turns, Ctx.padZeros 64 c = (fun c => c.update [0])^[turns] c ∧
      (Ctx.padZeros 64 c).buf.length = 56 ∧ ∀ turn < turns, ((fun c => Ctx.update c [0])^[turn] c).buf.length ≠ 56 := by
  refine ⟨?_, zeroCount_isLeast, ?_⟩
  · rintro message pieces hlen rfl
    have hholds := Ctx.holds_nil.updates pieces
    rw [List.nil_append] at hholds
    exact hholds.final hlen
  · intro c hbuf
    exact ⟨_, Ctx.padZeros_terminates hbuf (by omega)⟩

theorem sha256_eq_digest {message : Bytes} (hlen : message.length < 2 ^ 61) : (sha256 message).toList = digest message :=
  (Ctx.holds_nil.update message).final hlen

/-- A message in three pieces, one of them empty. -/
theorem sha256_matches_standard_pieces :
    (([[97], [], [98, 99]].foldl Ctx.update {}).final).toList = digest [97, 98, 99] :=
  sha256_matches_standard.1 [97, 98, 99] [[97], [], [98, 99]] (by decide) rfl

end Sha

end Chainlite
