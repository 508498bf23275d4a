import Chainlite.ViewerLegible

/-! The two verifiers of proofs. `clctl` alone compares the stated height with the one in the header. On a text whose lines
can be read by both, the browser's three checks and that comparison succeed exactly when all checks of `clctl` do. -/

namespace Chainlite

/-! ### The verdicts -/

section

variable {text : List Char}

/-- The header in the text carries the height that the text states. -/
def HeightStated (text : List Char) : Prop :=
  ∃ h rest, BlockHeader.parse (readProof text).headerRaw = .ok (h, rest) ∧ h.height = (readProof text).height

theorem hexs_injective {b b' : Bytes} (h : (hexs b).toList = (hexs b').toList) : b = b' := by
  have hread := unhex_hexs b
  rw [String.toList_inj.mp h, unhex_hexs] at hread
  exact (Option.some.inj hread).symm

theorem beq_hexs (x y : H256) : ((hexs x.toList).toList == (hexs y.toList).toList) = (x == y) := by
  rw [Bool.eq_iff_iff, beq_iff_eq, beq_iff_eq]
  exact ⟨fun h => Vector.toList_inj.mp (hexs_injective h), fun h => h ▸ rfl⟩

/-- **The three checks of the browser**, on what has been read alike. -/
theorem ReadAlike.verifyProof_eq (verify : Pub64 → H256 → Sig64 → Bool)
    (h : ReadAlike (readProof text) (Viewer.readForm text)) {header : BlockHeader}
    (hraw : (readProof text).headerRaw = header.serialize) :
    letI := Sha.crypto verify
    Viewer.verifyProof text = .checked (header.hash == (readProof text).blockhash)
      (merkleApply (readProof text).txid (readProof text).steps == header.merkle)
      ((readProof text).height == 0 || powOk (readProof text).blockhash header.bits) := by
  let _ := Sha.crypto verify
  obtain ⟨⟨-, tbody, htxid, htne, htbytes⟩, ⟨-, hhash⟩, ⟨-, hlen, hbody, hheader, hhne, hhbytes⟩, ⟨-, hheight⟩, hsteps⟩ := h
  have hlong : header.serialize.length < 2 ^ 61 := by
    rw [← hraw, hlen]
    decide
  have hclimb := Viewer.climb_eq verify hsteps (readProof text).txid
  rw [hraw] at hhbytes
  have hverify : Viewer.verifyProof text =
      .checked (Viewer.toHex (Viewer.sha256d header.serialize) == (hexs (readProof text).blockhash.toList).toList)
        (Viewer.toHex (merkleApply (readProof text).txid (readProof text).steps).toList ==
          Viewer.toHex ((header.serialize.drop 40).take 32))
        ((Viewer.readForm text).height == some 0 || decide (Viewer.u32leRead header.serialize 88 ≤
          Viewer.leadingZeroBits (Viewer.fromHex (hexs (readProof text).blockhash.toList).toList))) := by
    rw [Viewer.verifyProof]
    dsimp only
    rw [htxid, hheader, hhash]
    dsimp only
    rw [if_neg (by simp [htne, hhne]), htbytes, hclimb, hhbytes]
  have hhash : Viewer.toHex (Viewer.sha256d header.serialize) = (hexs header.hash.toList).toList := by
    rw [Viewer.toHex_eq, Viewer.sha256d_eq hlong]
    rfl
  have hpow : decide (Viewer.u32leRead header.serialize 88 ≤
      Viewer.leadingZeroBits (Viewer.fromHex (hexs (readProof text).blockhash.toList).toList)) =
      powOk (readProof text).blockhash header.bits := by
    rw [Viewer.fromHex_eq (unhex_hexs _), Viewer.leadingZeroBits_eq, Viewer.u32leRead_serialize, powOk]
    exact decide_eq_decide.mpr Int.ofNat_le
  have hzero : ((Viewer.readForm text).height == some 0) = ((readProof text).height == 0) := by
    rw [Bool.eq_iff_iff, beq_iff_eq, beq_iff_eq]
    exact hheight
  rw [hverify, hhash, hpow, hzero, Viewer.slice_serialize, Viewer.toHex_eq, Viewer.toHex_eq, beq_hexs, beq_hexs]

/-- The checks of `clctl` are these and the one of the height. -/
theorem ReadAlike.cmdVerify_eq [Crypto] (h : ReadAlike (readProof text) (Viewer.readForm text)) {header : BlockHeader}
    (hparse : BlockHeader.parse (readProof text).headerRaw = .ok (header, []))
    (hraw : (readProof text).headerRaw = header.serialize) :
    cmdVerify text = .checked (header.hash == (readProof text).blockhash) (header.height == (readProof text).height)
      (merkleApply (readProof text).txid (readProof text).steps == header.merkle)
      ((readProof text).height == 0 || powOk (readProof text).blockhash header.bits) := by
  have hgood : ¬(!(readProof text).okTxid || !(readProof text).okBh || !(readProof text).okHdr ||
      (readProof text).height == UInt64.ofNat (2 ^ 64 - 1)) = true := by
    rw [h.txid.1, h.blockhash.1, h.header.1]
    simpa using h.height.1
  rw [cmdVerify, if_neg hgood, hparse, BlockHeader.hash, hraw]

theorem seen_of_has {kind : LineKind} (h : (readProof text).Has kind) :
    ∃ line ∈ lines text, seen kind line = true := by
  obtain ⟨F, hF, rfl⟩ := exists_of_has h
  obtain ⟨line, hline, hfield⟩ := List.mem_filterMap.mp hF
  exact ⟨line, hline, seen_of_field hfield⟩

/-- A text that passes has a line for each value. -/
theorem Passes.seen [Crypto] (h : Passes text) {kind : LineKind} (hkind : kind ∈ LineKind.needed) :
    ∃ line ∈ lines text, seen kind line = true := by
  have hgood : ¬(!(readProof text).okTxid || !(readProof text).okBh || !(readProof text).okHdr ||
      (readProof text).height == UInt64.ofNat (2 ^ 64 - 1)) = true := by
    intro hbad
    rw [Passes, cmdVerify, if_pos hbad] at h
    cases h
  apply seen_of_has
  simp only [Bool.or_eq_true, Bool.not_eq_true', beq_iff_eq, not_or, Bool.not_eq_false] at hgood
  obtain ⟨⟨⟨htxid, hbh⟩, hhdr⟩, hheight⟩ := hgood
  cases kind with
  | txid => exact htxid
  | height => exact hheight
  | blockhash => exact hbh
  | header => exact hhdr
  | _ => exact absurd hkind (by decide)

/-- So does a text of which the browser makes its checks, but for the height. -/
theorem seen_of_checked {hash merkle pow : Bool} (h : Viewer.verifyProof text = .checked hash merkle pow)
    {kind : LineKind} (hkind : kind ∈ LineKind.needed) (hheight : kind ≠ .height) :
    ∃ line ∈ lines text, seen kind line = true := by
  have hvalue : (Viewer.readForm text).value kind ≠ none := by
    rw [Viewer.verifyProof] at h
    dsimp only at h
    split at h
    · rename_i htxid hheader hhash
      cases kind with
      | txid => exact Option.ne_none_iff_exists'.mpr ⟨_, htxid⟩
      | blockhash => exact Option.ne_none_iff_exists'.mpr ⟨_, hhash⟩
      | header => exact Option.ne_none_iff_exists'.mpr ⟨_, hheader⟩
      | height => exact absurd rfl hheight
      | _ => exact absurd hkind (by decide)
    · cases h
  rw [Viewer.readForm_eq] at hvalue
  obtain ⟨view, hview, rfl⟩ := (Viewer.value_foldl hvalue).resolve_left (by cases kind <;> exact fun hne => hne rfl)
  obtain ⟨line, hline, hseen⟩ := List.mem_filterMap.mp hview
  exact ⟨line, hline, seen_of_view hseen⟩

/-- A block hash that passes is written in lower case. -/
theorem hash_of_checked {merkle pow : Bool} (h : Viewer.verifyProof text = .checked true merkle pow) :
    ∃ bytes, (Viewer.readForm text).blockhash = some (hexs bytes).toList := by
  rw [Viewer.verifyProof] at h
  dsimp only at h
  split at h
  · rename_i hhash
    split at h
    · cases h
    · split at h
      · cases h
      · have hdigits := eq_of_beq (Viewer.Outcome.checked.inj h).1
        rw [Viewer.toHex_eq] at hdigits
        exact ⟨_, hhash.trans (congrArg some hdigits.symm)⟩
  · cases h

/-- What both verifiers say about a legible text with a line for each value. -/
theorem LegibleText.verdicts (verify : Pub64 → H256 → Sig64 → Bool) (h : LegibleText text)
    (hthere : ∀ kind ∈ LineKind.needed, ∃ line ∈ lines text, seen kind line = true) :
    letI := Sha.crypto verify
    Passes text ↔ Viewer.verifyProof text = .checked true true true ∧ HeightStated text := by
  let _ := Sha.crypto verify
  have halike := h.alike hthere
  obtain ⟨header, hparse, hraw⟩ := BlockHeader.parse_total halike.header.2.1
  have hviewer := halike.verifyProof_eq verify hraw
  have hcmd := halike.cmdVerify_eq hparse hraw
  have hstated : HeightStated text ↔ header.height = (readProof text).height := by
    constructor
    · rintro ⟨header', rest, hparse', hheight⟩
      rw [hparse] at hparse'
      cases hparse'
      exact hheight
    · exact fun hheight => ⟨header, [], hparse, hheight⟩
  rw [Passes, hcmd, hviewer, hstated, ← beq_iff_eq (a := header.height)]
  generalize (header.hash == (readProof text).blockhash) = hash
  generalize (merkleApply (readProof text).txid (readProof text).steps == header.merkle) = merkle
  generalize ((readProof text).height == 0 || powOk (readProof text).blockhash header.bits) = pow
  generalize (header.height == (readProof text).height) = height
  rw [Verdict.checked.injEq, Viewer.Outcome.checked.injEq]
  tauto

/-- **The two verifiers agree on legible texts.** The three local checks of the browser are reached and succeed, and the
header carries the height that the text states, exactly when all offline checks of `clctl verify` succeed. -/
theorem verifiers_agree (verify : Pub64 → H256 → Sig64 → Bool) (h : LegibleText text) :
    letI := Sha.crypto verify
    Viewer.verifyProof text = .checked true true true ∧ HeightStated text ↔ Passes text := by
  let _ := Sha.crypto verify
  constructor
  · rintro ⟨hviewer, hheight⟩
    have hthere : ∀ kind ∈ LineKind.needed, ∃ line ∈ lines text, seen kind line = true := by
      intro kind hkind
      by_cases hk : kind = .height
      · rw [hk]
        exact h.height
      · exact seen_of_checked hviewer hkind hk
    exact (h.verdicts verify hthere).mpr ⟨hviewer, hheight⟩
  · exact fun hpasses => (h.verdicts verify fun _ hkind => hpasses.seen hkind).mp hpasses

end

/-! ### Texts on which they differ -/

section
local instance verdictCrypto : Crypto := Sha.crypto fun _ _ _ => false

/-- The header of a block at height 1, without proof of work. -/
def easyHeader : BlockHeader := { height := 1 }

/-- A proof for that block that states some height. -/
def easyProof (height : UInt64) : List Char :=
  (proofText (zeros 32) height 0 easyHeader.hash easyHeader.serialize []).toList

theorem readProof_easyProof (height : UInt64) : readProof (easyProof height) =
    { txid := zeros 32, blockhash := easyHeader.hash, height := height, headerRaw := easyHeader.serialize, steps := [],
      okHdr := true, okTxid := true, okBh := true } :=
  readProof_proofText _ _ _ _ (BlockHeader.length_serialize _) _

theorem legible_easyProof {height : UInt64} (hpos : 0 < height.toNat) (hlt : height.toNat < 2 ^ 32) :
    LegibleText (easyProof height) := by
  have hlines : ProofLine.unlines (proofLines (zeros 32) hpos hlt 0 easyHeader.hash
      (BlockHeader.length_serialize easyHeader) []) = easyProof height := unlines_proofLines ..
  rw [← hlines]
  exact legibleText_unlines ⟨⟨_, _, _, .height hpos hlt⟩, by simp [proofLines], rfl⟩

theorem seen_easyProof {height : UInt64} (hlt : height.toNat < 2 ^ 32) {kind : LineKind} (hkind : kind ∈ LineKind.needed) :
    ∃ line ∈ lines (easyProof height), seen kind line = true := by
  apply seen_of_has
  rw [readProof_easyProof]
  cases kind with
  | height =>
      rintro rfl
      exact absurd hlt (by decide)
  | title => exact absurd hkind (by decide)
  | index => exact absurd hkind (by decide)
  | sibling => exact absurd hkind (by decide)
  | last => exact absurd hkind (by decide)
  | _ => rfl

/-- The browser accepts every stated height. -/
theorem verifyProof_easyProof {height : UInt64} (hpos : 0 < height.toNat) (hlt : height.toNat < 2 ^ 32) :
    Viewer.verifyProof (easyProof height) = .checked true true true := by
  have hread := readProof_easyProof height
  have halike := (legible_easyProof hpos hlt).alike fun _ hkind => seen_easyProof hlt hkind
  have hraw : (readProof (easyProof height)).headerRaw = easyHeader.serialize := by rw [hread]
  rw [halike.verifyProof_eq _ hraw, hread]
  dsimp only
  generalize easyHeader.hash = hash
  have hpow : powOk hash easyHeader.bits = true := powOk_zero hash
  have hmerkle : merkleApply (zeros 32) [] = easyHeader.merkle := rfl
  rw [hpow, hmerkle, beq_self_eq_true, beq_self_eq_true, Bool.or_true]

theorem heightStated_easyProof_iff (height : UInt64) : HeightStated (easyProof height) ↔ height = 1 := by
  have hparse : BlockHeader.parse easyHeader.serialize = .ok (easyHeader, []) := by
    have hreads := BlockHeader.parse_reads easyHeader []
    rwa [List.append_nil] at hreads
  rw [HeightStated, readProof_easyProof]
  dsimp only
  rw [hparse]
  constructor
  · rintro ⟨_, _, heq, hheight⟩
    cases heq
    exact hheight.symm
  · rintro rfl
    exact ⟨_, _, rfl, rfl⟩

theorem passes_easyProof_iff {height : UInt64} (hpos : 0 < height.toNat) (hlt : height.toNat < 2 ^ 32) :
    Passes (easyProof height) ↔ height = 1 := by
  have hverdicts := (legible_easyProof hpos hlt).verdicts (fun _ _ _ => false) fun _ hkind =>
    seen_easyProof hlt hkind
  have hpasses : Passes (easyProof height) ↔
      Viewer.verifyProof (easyProof height) = .checked true true true ∧ HeightStated (easyProof height) := hverdicts
  rw [hpasses, heightStated_easyProof_iff]
  exact and_iff_right (verifyProof_easyProof hpos hlt)

theorem verifiers_agree_easy : Passes (easyProof 1) := by
  have hlegible : LegibleText (easyProof 1) := legible_easyProof (by decide) (by decide)
  exact (verifiers_agree _ hlegible).mp ⟨verifyProof_easyProof (by decide) (by decide), (heightStated_easyProof_iff 1).mpr rfl⟩

/-- A line with a side and no hash, which `clctl` passes over. -/
def bareSibling : List Char := LineKind.sibling.word ++ ['L']

theorem lines_bareSibling (text : List Char) : lines (bareSibling ++ '\n' :: text) = bareSibling :: lines text :=
  lines_append (List.forall_mem_append.mpr ⟨word_no_break _, by simp⟩) text

theorem readProof_bareSibling (text : List Char) : readProof (bareSibling ++ '\n' :: text) = readProof text := by
  have hfield : field bareSibling = none := by decide
  rw [readProof_eq, readProof_eq, fields, fields, lines_bareSibling, List.filterMap_cons, hfield]

theorem verifyProof_bareSibling (text : List Char) {hash merkle pow : Bool} :
    Viewer.verifyProof (bareSibling ++ '\n' :: text) ≠ .checked hash merkle pow := by
  have hview : Viewer.view bareSibling = some (.sibling, ['L']) := by decide
  have hstep : Viewer.stepOf ['L'] = (true, none) := by decide
  obtain ⟨rest, hsteps⟩ : ∃ rest, (Viewer.readForm (bareSibling ++ '\n' :: text)).steps = (true, none) :: rest := by
    rw [Viewer.steps_readForm, Viewer.views, lines_bareSibling, List.filterMap_cons, hview]
    dsimp only
    rw [List.filter_cons, if_pos (by rfl), List.map_cons, hstep]
    exact ⟨_, rfl⟩
  intro h
  rw [Viewer.verifyProof] at h
  dsimp only at h
  split at h
  · split at h
    · cases h
    · rw [hsteps] at h
      cases h
  · cases h

/-- A line with no hash behind the word, which `clctl` passes over too. -/
def bareHash : List Char := LineKind.blockhash.word ++ ['x']

theorem lines_bareHash : lines (easyProof 1 ++ bareHash) = lines (easyProof 1) ++ [bareHash] := by
  have hlines : ProofLine.unlines (proofLines (zeros 32) (show 0 < (1 : UInt64).toNat by decide) (by decide) 0 easyHeader.hash
      (BlockHeader.length_serialize easyHeader) []) = easyProof 1 := unlines_proofLines ..
  have hline : lines bareHash = [bareHash] :=
    lines_single (by simp [bareHash]) (List.forall_mem_append.mpr ⟨word_no_break _, by simp⟩)
  rw [← hlines, ProofLine.lines_unlines_append, hline, ProofLine.lines_unlines]

theorem readProof_bareHash : readProof (easyProof 1 ++ bareHash) = readProof (easyProof 1) := by
  have hfield : field bareHash = none := by decide
  have hnone : [bareHash].filterMap field = [] := by rw [List.filterMap_cons, hfield]; rfl
  rw [readProof_eq, readProof_eq, fields, fields, lines_bareHash, List.filterMap_append, hnone, List.append_nil]

/-- The browser compares the hash with what it has read last. -/
theorem verifyProof_bareHash : Viewer.verifyProof (easyProof 1 ++ bareHash) ≠ .checked true true true := by
  have hview : Viewer.view bareHash = some (.blockhash, ['x']) := by decide
  have hlast : [bareHash].filterMap Viewer.view = [(.blockhash, ['x'])] := by rw [List.filterMap_cons, hview]; rfl
  have hhash : (Viewer.readForm (easyProof 1 ++ bareHash)).blockhash = some ['x'] := by
    rw [Viewer.readForm_eq, Viewer.views, lines_bareHash, List.filterMap_append, hlast, List.foldl_append]
    rfl
  intro h
  obtain ⟨bytes, hbytes⟩ := hash_of_checked h
  have hlength := congrArg List.length (Option.some.inj (hhash.symm.trans hbytes))
  rw [length_hexs, List.length_singleton] at hlength
  omega

/-- On other texts the verifiers disagree: the browser does not compare the heights, it cannot do without a hash, and it
keeps what it has read last. -/
theorem verifiers_disagree :
    (Viewer.verifyProof (easyProof 2) = .checked true true true ∧ ¬Passes (easyProof 2)) ∧
      (Passes (bareSibling ++ '\n' :: easyProof 1) ∧
        Viewer.verifyProof (bareSibling ++ '\n' :: easyProof 1) ≠ .checked true true true) ∧
      Passes (easyProof 1 ++ bareHash) ∧ Viewer.verifyProof (easyProof 1 ++ bareHash) ≠ .checked true true true := by
  have hpasses : Passes (easyProof 1) := (passes_easyProof_iff (by decide) (by decide)).mpr rfl
  refine ⟨⟨verifyProof_easyProof (by decide) (by decide), ?_⟩, ⟨?_, verifyProof_bareSibling _⟩, ?_, verifyProof_bareHash⟩
  · rw [passes_easyProof_iff (by decide) (by decide)]
    decide
  · rw [Passes, cmdVerify, readProof_bareSibling]
    exact hpasses
  · rw [Passes, cmdVerify, readProof_bareHash]
    exact hpasses

end

end Chainlite
