import Chainlite.BaseScriptText
import Chainlite.ProofText
import Chainlite.ViewerTx

/-! The proof verifier in the browser. `verifyProof` of `viewer.html` reads the lines of a proof with its own reader, which
trims them on both sides and takes the last one of each kind whatever it holds, and makes three checks before it asks the
nodes. On hexadecimal digits, header fields and hashes its helpers compute what the node's do. -/

namespace Chainlite

namespace Viewer

open Script (band bor shl ushr element isBlank trim splitLines splitBlanks codeUnits parseInt)

/-! ### Helpers -/

/-- `x.toString(16).padStart(2,'0')` for each byte. -/
def toHex (b : Bytes) : List Char := b.flatMap fun x => (Nat.toDigits 16 x.toNat).leftpad 2 '0'

/-- Two characters for each byte; what is no number is stored as zero, and an odd character at the end is dropped. -/
def fromHex (s : List Char) : Bytes :=
  let s := codeUnits (trim s)
  (List.range (s.length / 2)).map fun i => element ((parseInt true ((s.drop (i * 2)).take 2)).getD 0)

/-- `b[i]` in a bitwise operation: there is zero behind the end. -/
def byteAt (b : Bytes) (i : Nat) : Int := (b.getD i 0).toNat

def u32leRead (b : Bytes) (o : Nat) : Int :=
  ushr (bor (bor (bor (byteAt b o) (shl (byteAt b (o + 1)) 8)) (shl (byteAt b (o + 2)) 16)) (shl (byteAt b (o + 3)) 24)) 0

/-- The inner loop of `leadingZeroBits`. A byte that is not zero needs fewer than eight turns. -/
def zeroBits : Nat → Int → Nat
  | 0, _ => 0
  | fuel + 1, x => if band x 0x80 = 0 then zeroBits fuel (shl x 1) + 1 else 0

def leadingZeroBitsFrom (n : Nat) : Bytes → Nat
  | [] => 256
  | b :: rest => if b = 0 then leadingZeroBitsFrom (n + 8) rest else n + zeroBits 8 b.toNat

def leadingZeroBits (h : Bytes) : Nat := leadingZeroBitsFrom 0 h

/-! ### The verifier -/

/-- The locals that the loop over the lines fills; a height or index that is no number is none. A sibling has its side
and, when there is a third word on its line, that word. -/
structure ProofForm where
  txid : Option (List Char) := none
  height : Option Int := none
  index : Option Int := none
  blockhash : Option (List Char) := none
  header : Option (List Char) := none
  steps : List (Bool × Option (List Char)) := []

def readLn (f : ProofForm) (ln : List Char) : ProofForm :=
  if "txid ".toList.isPrefixOf ln then { f with txid := some (ln.drop 5) }
  else if "height ".toList.isPrefixOf ln then { f with height := parseInt false (ln.drop 7) }
  else if "index ".toList.isPrefixOf ln then { f with index := parseInt false (ln.drop 6) }
  else if "blockhash ".toList.isPrefixOf ln then { f with blockhash := some (ln.drop 10) }
  else if "header ".toList.isPrefixOf ln then { f with header := some (ln.drop 7) }
  else if "sibling ".toList.isPrefixOf ln then
    let p := splitBlanks ln
    { f with steps := f.steps ++ [(p[1]? == some ['L'], p[2]?)] }
  else f

def readForm (text : List Char) : ProofForm := ((splitLines text).map trim).foldl readLn {}

/-- The loop over the siblings. `fromHex` throws when there is no third word. -/
def climb (acc : Bytes) : List (Bool × Option (List Char)) → Option Bytes
  | [] => some acc
  | (_, none) :: _ => none
  | (left, some h) :: rest =>
      let sib := fromHex h
      climb (sha256d (if left then cat [sib, acc] else cat [acc, sib])) rest

/-- How `verifyProof` gets as far as the nodes: the local checks, or none. -/
inductive Outcome where
  | malformed
  | thrown
  | checked (hash merkle pow : Bool)
  deriving DecidableEq

/-- `verifyProof` up to the cross-check with the nodes. -/
def verifyProof (text : List Char) : Outcome :=
  let f := readForm text
  match f.txid, f.header, f.blockhash with
  | some txid, some header, some blockhash =>
      if txid = [] ∨ header = [] then .malformed
      else
        let hbytes := fromHex header
        match climb (fromHex txid) f.steps with
        | none => .thrown
        | some acc =>
            let bits := u32leRead hbytes 88
            .checked (toHex (sha256d hbytes) == blockhash) (toHex acc == toHex ((hbytes.drop 40).take 32))
              (f.height == some 0 || bits ≤ leadingZeroBits (fromHex blockhash))
  | _, _, _ => .malformed

/-! ### Hexadecimal -/

theorem toHex_byte : ∀ n < 256, (Nat.toDigits 16 n).leftpad 2 '0' = [hexDigit (n / 16), hexDigit (n % 16)] := by
  decide +kernel

theorem toHex_eq (b : Bytes) : toHex b = (hexs b).toList := by
  rw [toHex, hexs, String.toList_ofList]
  congr 1
  funext x
  rw [toHex_byte x.toNat x.toNat_lt, high_digit, low_digit]

theorem digit_eq_hexval (c : Char) : Script.digit 16 c = hexval c := by
  have h0 : '0'.toNat = 48 := rfl
  have h9 : '9'.toNat = 57 := rfl
  have ha : 'a'.toNat = 97 := rfl
  have hf : 'f'.toNat = 102 := rfl
  have hz : 'z'.toNat = 122 := rfl
  have hA : 'A'.toNat = 65 := rfl
  have hF : 'F'.toNat = 70 := rfl
  have hZ : 'Z'.toNat = 90 := rfl
  have hle : ∀ x y : Char, x ≤ y ↔ x.toNat ≤ y.toNat := fun x y => Iff.rfl
  simp only [Script.digit, hexval, hle, h0, h9, ha, hf, hz, hA, hF, hZ]
  split_ifs <;> first | rfl | (simp only [Option.some.injEq]; omega) | omega

/-- Hexadecimal digits are letters and figures. -/
theorem hexval_bounds {c : Char} {n : Nat} (h : hexval c = some n) : 48 ≤ c.toNat ∧ c.toNat ≤ 102 ∧ c.toNat ≠ 88 := by
  have h0 : '0'.toNat = 48 := rfl
  have h9 : '9'.toNat = 57 := rfl
  have ha : 'a'.toNat = 97 := rfl
  have hf : 'f'.toNat = 102 := rfl
  have hA : 'A'.toNat = 65 := rfl
  have hF : 'F'.toNat = 70 := rfl
  have hle : ∀ x y : Char, x ≤ y ↔ x.toNat ≤ y.toNat := fun x y => Iff.rfl
  simp only [hexval, hle, h0, h9, ha, hf, hA, hF] at h
  split_ifs at h <;> omega

theorem not_isBlank_of_hexval {c : Char} {n : Nat} (h : hexval c = some n) : isBlank c = false := by
  obtain ⟨hlow, hhigh, -⟩ := hexval_bounds h
  exact Script.not_isBlank_of_ascii (by omega) (by omega)

/-- A text that can be read as hexadecimal consists of digits. -/
theorem hexval_of_mem {s : List Char} {bytes : Bytes} (h : unhexChars s = some bytes) {c : Char} (hc : c ∈ s) :
    ∃ n, hexval c = some n := by
  have hmem : hexval c ∈ (hexs bytes).toList.map hexval := unhexChars_eq_some_iff.mp h ▸ List.mem_map_of_mem hc
  rw [hexs, String.toList_ofList] at hmem
  obtain ⟨d, hd, hval⟩ := List.mem_map.mp hmem
  obtain ⟨byte, -, hd⟩ := List.mem_flatMap.mp hd
  rcases List.mem_cons.mp hd with rfl | hd
  · exact ⟨_, hval.symm.trans (hexval_hexDigit _ (high_digit_lt byte))⟩
  · obtain rfl := List.mem_singleton.mp hd
    exact ⟨_, hval.symm.trans (hexval_hexDigit _ (low_digit_lt byte))⟩

theorem not_isBlank_of_unhex {s : List Char} {bytes : Bytes} (h : unhexChars s = some bytes) :
    ∀ c ∈ s, isBlank c = false := fun _ hc => not_isBlank_of_hexval (hexval_of_mem h hc).choose_spec

/-- Two digits are the byte that the node reads. -/
theorem element_parseInt {x y : Char} {high low : Nat} (hx : hexval x = some high) (hy : hexval y = some low) :
    element ((parseInt true [x, y]).getD 0) = UInt8.ofNat ((high <<< 4) ||| low) := by
  obtain ⟨hxlow, hxhigh, -⟩ := hexval_bounds hx
  obtain ⟨hylow, hyhigh, hyX⟩ := hexval_bounds hy
  have hread : parseInt true [x, y] = some ((high * 16 + low : Nat) : Int) := by
    rw [Script.parseInt_eq, if_pos rfl, Script.digits_of_all (by simp)]
    · simp [digit_eq_hexval, hx, hy]
    · intro c hc
      rw [digit_eq_hexval]
      rcases List.mem_cons.mp hc with rfl | hc
      · rw [hx]
        rfl
      · rw [List.mem_singleton.mp hc, hy]
        rfl
    · intro c hc
      obtain rfl := Option.some.inj hc
      refine ⟨not_isBlank_of_hexval hx, ?_, ?_⟩
      · rintro rfl
        exact absurd hxlow (by decide)
      · rintro rfl
        exact absurd hxlow (by decide)
    · intro c hc
      obtain rfl := Option.some.inj hc
      refine ⟨?_, ?_⟩
      · rintro rfl
        exact absurd hyhigh (by decide)
      · rintro rfl
        exact absurd rfl hyX
  have hjoin : ∀ a < 16, ∀ b < 16, a * 16 + b = (a <<< 4) ||| b := by decide
  rw [hread, Option.getD_some, Script.element_natCast, hjoin high (hexval_lt hx) low (hexval_lt hy)]

/-- **The browser decodes hexadecimal digits as the node does.** -/
theorem fromHex_eq {s : List Char} {bytes : Bytes} (h : unhexChars s = some bytes) : fromHex s = bytes := by
  have htrim : trim s = s := Script.trim_of_no_blank (not_isBlank_of_unhex h)
  have hunits : codeUnits s = s := Script.codeUnits_eq_self fun c hc => by
    have hhigh := (hexval_bounds (hexval_of_mem h hc).choose_spec).2.1
    omega
  rw [fromHex, htrim, hunits]
  clear htrim hunits
  induction s using unhexChars.induct generalizing bytes with
  | case1 => cases h; rfl
  | case2 => cases h
  | case3 x y rest ih =>
      simp only [unhexChars, Option.bind_eq_bind, Option.bind_eq_some_iff, Option.pure_def, Option.some.injEq] at h
      obtain ⟨high, hx, low, hy, tail, htail, rfl⟩ := h
      have hhalf : (x :: y :: rest).length / 2 = rest.length / 2 + 1 := by
        rw [List.length_cons, List.length_cons]
        omega
      have hshift : ∀ i, (x :: y :: rest).drop ((i + 1) * 2) = rest.drop (i * 2) := by
        intro i
        rw [Nat.succ_mul]
        rfl
      rw [hhalf, List.range_succ_eq_map, List.map_cons, List.map_map, ← ih htail, ← element_parseInt hx hy]
      refine congrArg₂ List.cons rfl (List.map_congr_left fun i _ => ?_)
      rw [← hshift]
      rfl

/-! ### Numbers in the header -/

theorem u32leRead_serialize (h : BlockHeader) : u32leRead h.serialize 88 = h.bits.toNat := by
  have hdrop : h.serialize.drop 88 = Writer.u32 h.bits ++ Writer.u64 h.nonce := by
    have hfront : (Writer.u32 h.version ++ Writer.u32 h.netId ++ Writer.arr h.prev ++ Writer.arr h.merkle ++
        Writer.u64 h.height ++ Writer.u64 h.time).length = 88 := by
      simp [Writer.arr]
    rw [BlockHeader.serialize, List.append_assoc _ (Writer.u32 h.bits), List.drop_left' hfront]
  have hbyte : ∀ i, byteAt h.serialize (88 + i) = ((Writer.u32 h.bits ++ Writer.u64 h.nonce).getD i 0).toNat := by
    intro i
    rw [byteAt, ← hdrop, List.getD_eq_getElem?_getD, List.getD_eq_getElem?_getD, List.getElem?_drop]
  have hlt := h.bits.toNat_lt
  have hvalue : (h.bits.toNat % 256) + (h.bits.toNat >>> 8 % 256) * 2 ^ 8 + (h.bits.toNat >>> 16 % 256) * 2 ^ 16 +
      (h.bits.toNat >>> 24 % 256) * 2 ^ 24 = h.bits.toNat := by
    simp only [Nat.shiftRight_eq_div_pow]
    omega
  have hfour : Wire.leBytes 4 h.bits.toNat = [UInt8.ofNat h.bits.toNat, UInt8.ofNat (h.bits.toNat >>> 8),
      UInt8.ofNat (h.bits.toNat >>> 16), UInt8.ofNat (h.bits.toNat >>> 24)] := rfl
  rw [u32leRead, hbyte 1, hbyte 2, hbyte 3, show byteAt h.serialize 88 = _ from hbyte 0, Writer.u32, hfour]
  simp only [List.cons_append, List.getD_cons_zero, List.getD_cons_succ, UInt8.toNat_ofNat']
  rw [Script.ushr_bytes (Nat.mod_lt _ (by decide)) (Nat.mod_lt _ (by decide)) (Nat.mod_lt _ (by decide))
    (Nat.mod_lt _ (by decide)), hvalue]

theorem slice_serialize (h : BlockHeader) : (h.serialize.drop 40).take 32 = h.merkle.toList := by
  have hfront : (Writer.u32 h.version ++ Writer.u32 h.netId ++ Writer.arr h.prev).length = 40 := by simp [Writer.arr]
  have hmerkle : (Writer.arr h.merkle).length = 32 := by simp [Writer.arr]
  simp only [BlockHeader.serialize, List.append_assoc]
  rw [← List.append_assoc, ← List.append_assoc, List.drop_left' hfront, List.take_left' hmerkle]
  rfl

/-! ### Leading zeros -/

theorem zeroBits_eq (b : UInt8) : zeroBits 8 b.toNat = highZeros 8 b := by
  have hall : ∀ n < 256, zeroBits 8 (n : Nat) = highZeros 8 (UInt8.ofNat n) := by decide +kernel
  have h := hall b.toNat b.toNat_lt
  rwa [UInt8.ofNat_toNat] at h

theorem leadingZeroBitsFrom_eq {bytes : Bytes} {n : Nat} (h : n + 8 * bytes.length = 256) :
    leadingZeroBitsFrom n bytes = n + leadingZerosFrom bytes := by
  induction bytes generalizing n with
  | nil => exact h.symm
  | cons b rest ih =>
      rw [List.length_cons] at h
      rw [leadingZeroBitsFrom, leadingZerosFrom]
      split
      · rw [ih (by omega), Nat.add_assoc]
      · rw [zeroBits_eq]

theorem leadingZeroBits_eq (h : H256) : leadingZeroBits h.toList = Chainlite.leadingZeroBits h := by
  rw [leadingZeroBits, leadingZeroBitsFrom_eq (by rw [Vector.length_toList]), Nat.zero_add, Chainlite.leadingZeroBits]

/-! ### The path -/

theorem merkleApply_cons [Crypto] (leaf : H256) (s : MerkleStep) (rest : List MerkleStep) :
    merkleApply leaf (s :: rest) = merkleApply (s.up merkleParent leaf) rest := rfl

theorem climb_cons (acc : Bytes) (left : Bool) (h : List Char) (rest : List (Bool × Option (List Char))) :
    climb acc ((left, some h) :: rest) =
      climb (sha256d (if left then cat [fromHex h, acc] else cat [acc, fromHex h])) rest := rfl

/-- **The path climbs as in the node** when every sibling is read as the node reads it. -/
theorem climb_eq (verify : Pub64 → H256 → Sig64 → Bool) {steps : List (Bool × Option (List Char))} {steps' : List MerkleStep}
    (h : List.Forall₂ (fun s s' => s.1 = s'.left ∧ ∃ hex, s.2 = some hex ∧ fromHex hex = s'.h.toList) steps steps')
    (leaf : H256) :
    letI := Sha.crypto verify
    climb leaf.toList steps = some (merkleApply leaf steps').toList := by
  let _ := Sha.crypto verify
  induction h generalizing leaf with
  | nil => rfl
  | @cons s s' rest rest' hs _ ih =>
      obtain ⟨left, word⟩ := s
      obtain ⟨hleft, hex, hword, hhex⟩ := hs
      obtain rfl : word = some hex := hword
      have hparent : ∀ l r : H256, sha256d (cat [l.toList, r.toList]) = (merkleParent l r).toList := by
        intro l r
        have hbuf : cat [l.toList, r.toList] = parentBuffer l r := by rw [cat_eq]; simp [parentBuffer]
        rw [hbuf, sha256d_eq (by rw [length_parentBuffer]; decide)]
        rfl
      have hup : sha256d (if left then cat [s'.h.toList, leaf.toList] else cat [leaf.toList, s'.h.toList]) =
          (s'.up merkleParent leaf).toList := by
        have hleft : left = s'.left := hleft
        rw [hleft, HashTree.Step.up, HashTree.Step.pair]
        cases s'.left with
        | true => exact hparent _ _
        | false => exact hparent _ _
      rw [climb_cons, hhex, hup, merkleApply_cons]
      exact ih (s'.up merkleParent leaf)

end Viewer

end Chainlite
