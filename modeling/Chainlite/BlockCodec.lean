import Chainlite.Block

/-! The wire format is a bijection onto its image. What the parsers accept are the bytes of their results and
nothing else, so a block that arrives as raw bytes is stored and sent on as exactly these bytes. -/

namespace Chainlite

open Wire Reader

namespace Tx

theorem parse_ok {input rest : Bytes} {t : Tx} (h : parse input = .ok (t, rest)) :
    t.Fits ∧ input = t.serialize ++ rest := by
  obtain ⟨type, r₁, htype, h⟩ := bind_ok_iff.mp h
  obtain ⟨netId, r₂, hnetId, h⟩ := bind_ok_iff.mp h
  obtain ⟨fromKey, r₃, hfromKey, h⟩ := bind_ok_iff.mp h
  obtain ⟨toAddr, r₄, htoAddr, h⟩ := bind_ok_iff.mp h
  obtain ⟨amount, r₅, hamount, h⟩ := bind_ok_iff.mp h
  obtain ⟨nonce, r₆, hnonce, h⟩ := bind_ok_iff.mp h
  obtain ⟨pl, r₇, hpl, h⟩ := bind_ok_iff.mp h
  split at h
  · exact (fail_ok_iff.mp h).elim
  · rename_i hmax
    obtain ⟨payload, r₈, hpayload, h⟩ := bind_ok_iff.mp h
    obtain ⟨sig, r₉, hsig, h⟩ := bind_ok_iff.mp h
    obtain ⟨rfl, rfl⟩ := pure_ok_iff.mp h
    obtain ⟨hlen, hsplit⟩ := blob_ok hpayload
    have hcount : UInt16.ofNat payload.length = pl := by rw [hlen, UInt16.ofNat_toNat]
    refine ⟨by rw [Fits, hlen]; exact Nat.not_lt.mp hmax, ?_⟩
    rw [u8_exact _ _ _ htype, u32_exact _ _ _ hnetId, arr_exact 64 _ _ _ hfromKey, arr_exact 20 _ _ _ htoAddr,
      u64_exact _ _ _ hamount, u64_exact _ _ _ hnonce, u16_exact _ _ _ hpl, hsplit, arr_exact 64 _ _ _ hsig]
    simp [serialize, ser, hcount]

/-- The check of M_TX and of `/submit`: a transaction that is the whole input. -/
theorem parse_eq_iff {raw : Bytes} {t : Tx} : parse raw = .ok (t, []) ↔ t.Fits ∧ raw = t.serialize := by
  constructor
  · intro h
    obtain ⟨hfits, heq⟩ := parse_ok h
    exact ⟨hfits, by simpa using heq⟩
  · rintro ⟨hfits, rfl⟩
    have h := parse_reads hfits []
    rwa [List.append_nil] at h

/-- What is signed determines all but the signature. -/
theorem ser_unsigned_injective {t u : Tx} (h : t.ser false = u.ser false) : t = { u with sig := t.sig } := by
  have hser : ∀ x : Tx, x.ser false = Writer.u8 x.type ++ (Writer.u32 x.netId ++ (Writer.arr x.fromKey ++
      (Writer.arr x.toAddr ++ (Writer.u64 x.amount ++ (Writer.u64 x.nonce ++
      (Writer.u16 (UInt16.ofNat x.payload.length) ++ x.payload)))))) := by
    intro x
    simp [ser]
  rw [hser, hser] at h
  obtain ⟨htype, h⟩ := List.append_inj h (by simp)
  obtain ⟨hnetId, h⟩ := List.append_inj h (by simp)
  obtain ⟨hfromKey, h⟩ := List.append_inj h (by simp)
  obtain ⟨htoAddr, h⟩ := List.append_inj h (by simp)
  obtain ⟨hamount, h⟩ := List.append_inj h (by simp)
  obtain ⟨hnonce, h⟩ := List.append_inj h (by simp)
  obtain ⟨-, hpayload⟩ := List.append_inj h (by simp)
  have htype := (u8_reads _).injective (htype ▸ u8_reads _)
  have hnetId := (u32_reads _).injective (hnetId ▸ u32_reads _)
  have hfromKey := Vector.toList_inj.mp hfromKey
  have htoAddr := Vector.toList_inj.mp htoAddr
  have hamount := (u64_reads _).injective (hamount ▸ u64_reads _)
  have hnonce := (u64_reads _).injective (hnonce ▸ u64_reads _)
  cases t
  cases u
  simp_all

end Tx

theorem BlockHeader.parse_exact : Exact BlockHeader.parse BlockHeader.serialize := by
  intro input header rest h
  obtain ⟨version, r₁, hversion, h⟩ := bind_ok_iff.mp h
  obtain ⟨netId, r₂, hnetId, h⟩ := bind_ok_iff.mp h
  obtain ⟨prev, r₃, hprev, h⟩ := bind_ok_iff.mp h
  obtain ⟨merkle, r₄, hmerkle, h⟩ := bind_ok_iff.mp h
  obtain ⟨height, r₅, hheight, h⟩ := bind_ok_iff.mp h
  obtain ⟨time, r₆, htime, h⟩ := bind_ok_iff.mp h
  obtain ⟨bits, r₇, hbits, h⟩ := bind_ok_iff.mp h
  obtain ⟨nonce, r₈, hnonce, h⟩ := bind_ok_iff.mp h
  obtain ⟨rfl, rfl⟩ := pure_ok_iff.mp h
  rw [u32_exact _ _ _ hversion, u32_exact _ _ _ hnetId, arr_exact 32 _ _ _ hprev, arr_exact 32 _ _ _ hmerkle,
    u64_exact _ _ _ hheight, u64_exact _ _ _ htime, u32_exact _ _ _ hbits, u64_exact _ _ _ hnonce]
  simp [serialize]

theorem BlockHeader.parse_takes : Takes BlockHeader.parse headerSize := by
  exact ((blob_takes 4).map _).bind fun _ => ((blob_takes 4).map _).bind fun _ => ((blob_takes 32).map _).bind fun _ =>
    ((blob_takes 32).map _).bind fun _ => ((blob_takes 8).map _).bind fun _ => ((blob_takes 8).map _).bind fun _ =>
    ((blob_takes 4).map _).bind fun _ => ((blob_takes 8).map _).map _

/-- Any 100 bytes are a header. -/
theorem BlockHeader.parse_total {raw : Bytes} (h : raw.length = headerSize) :
    ∃ header, parse raw = .ok (header, []) ∧ raw = header.serialize := by
  obtain ⟨header, hparse⟩ := parse_takes raw (Nat.le_of_eq h.symm)
  rw [← h, List.drop_length] at hparse
  have hbytes := parse_exact raw header [] hparse
  rw [List.append_nil] at hbytes
  exact ⟨header, hparse, hbytes⟩

namespace Block

theorem parseBody_ok {input rest : Bytes} {b : Block} (h : parseBody input = .ok (some b, rest)) :
    b.Fits ∧ input = b.serialize ++ rest := by
  obtain ⟨header, r₁, hheader, h⟩ := bind_ok_iff.mp h
  obtain ⟨n, r₂, hn, h⟩ := bind_ok_iff.mp h
  split at h
  · obtain ⟨hnone, -⟩ := pure_ok_iff.mp h
    cases hnone
  · rename_i hmax
    obtain ⟨txs, r₃, htxs, h⟩ := bind_ok_iff.mp h
    obtain ⟨heq, rfl⟩ := pure_ok_iff.mp h
    cases heq
    have hexact : Exact Tx.parse Tx.serialize := fun _ _ _ ht => (Tx.parse_ok ht).2
    have hgood : ∀ input t rest, Tx.parse input = .ok (t, rest) → t.Fits := fun _ _ _ ht => (Tx.parse_ok ht).1
    obtain ⟨hlen, hfits, hsplit⟩ := hexact.many hgood n.toNat htxs
    have hcount : UInt32.ofNat txs.length = n := by rw [hlen, UInt32.ofNat_toNat]
    refine ⟨⟨by rw [hlen]; exact Nat.not_lt.mp hmax, hfits⟩, ?_⟩
    rw [BlockHeader.parse_exact _ _ _ hheader, u32_exact _ _ _ hn, hsplit]
    simp [serialize, hcount]

theorem parse_eq_some_iff {raw : Bytes} {b : Block} : parse raw = some b ↔ b.Fits ∧ raw = b.serialize := by
  constructor
  · intro h
    unfold parse at h
    split at h
    · rename_i hbody
      cases h
      obtain ⟨hfits, heq⟩ := parseBody_ok hbody
      exact ⟨hfits, by simpa using heq⟩
    · cases h
  · rintro ⟨hfits, rfl⟩
    exact parse_serialize hfits

end Block

/-- **The codec is a bijection onto its image**, for blocks and for transactions: what is within the limits
reads back, what is accepted is within the limits and has exactly the bytes it was read from, and everything
else is refused. The bytes that are signed determine every field but the signature. -/
theorem codec_exact :
    ((∀ b : Block, b.Fits → Block.parse b.serialize = some b) ∧
      (∀ raw b, Block.parse raw = some b → b.Fits ∧ b.serialize = raw) ∧
      ∀ raw, (∀ b : Block, b.Fits → b.serialize ≠ raw) → Block.parse raw = none) ∧
    ((∀ t : Tx, t.Fits → Tx.parse t.serialize = .ok (t, [])) ∧
      ∀ raw t, Tx.parse raw = .ok (t, []) → t.Fits ∧ t.serialize = raw) ∧
    ∀ t u : Tx, t.ser false = u.ser false → t = { u with sig := t.sig } := by
  refine ⟨⟨fun b hb => Block.parse_serialize hb, fun raw b h => ?_, fun raw hother => ?_⟩,
    ⟨fun t ht => Tx.parse_eq_iff.mpr ⟨ht, rfl⟩, fun raw t h => ?_⟩, fun t u => Tx.ser_unsigned_injective⟩
  · obtain ⟨hfits, hraw⟩ := Block.parse_eq_some_iff.mp h
    exact ⟨hfits, hraw.symm⟩
  · rw [Option.eq_none_iff_forall_ne_some]
    intro b h
    obtain ⟨hfits, hraw⟩ := Block.parse_eq_some_iff.mp h
    exact hother b hfits hraw.symm
  · obtain ⟨hfits, hraw⟩ := Tx.parse_eq_iff.mp h
    exact ⟨hfits, hraw.symm⟩

/-- A transfer and a record. -/
def noteBlock : Block := { txs := [{ amount := 7 }, { type := txRecord, nonce := 1, payload := [1, 2, 3] }] }

theorem codec_exact_note : Block.parse noteBlock.serialize = some noteBlock ∧
    Tx.parse ({ type := txRecord, payload := [1, 2, 3] } : Tx).serialize =
      .ok ({ type := txRecord, payload := [1, 2, 3] }, []) := by
  have hpayload : ∀ t ∈ noteBlock.txs, t.Fits := by
    simp [noteBlock, Tx.Fits, maxPayload]
  exact ⟨codec_exact.1.1 _ ⟨by decide, hpayload⟩, codec_exact.2.1.1 _ (show 3 ≤ maxPayload by decide)⟩

end Chainlite
