import Chainlite.ProofCompleteness
import Chainlite.ProofEdit
import Chainlite.ProofPath
import Chainlite.SecurityInclusion

/-! A proof with one character changed. What is checked binds every field: without a field the file is malformed,
another value of one does not fit the others, with fewer siblings the climb does not start from a transaction, and
a sibling on the other side leads elsewhere, unless it is a copy of the node it stands beside. What the reader does
not look at is bound to nothing. -/

open Std

namespace Chainlite

/-! ### What has been read -/

theorem foldl_siblings (steps : List MerkleStep) (f : ProofFile) :
    (steps.map Field.sibling).foldl Field.put f = { f with steps := f.steps ++ steps } := by
  induction steps generalizing f with
  | nil => simp
  | cons s rest ih =>
      rw [List.map_cons, List.foldl_cons, ih]
      simp [Field.put]

theorem readProof_proofFields {content : List Char} {txid : H256} {height : UInt64} {blockhash : H256} {header : Bytes}
    {steps : List MerkleStep} (h : fields content = proofFields txid height blockhash header steps) :
    readProof content =
      { txid := txid, blockhash := blockhash, height := height, headerRaw := header, steps := steps, okHdr := true,
        okTxid := true, okBh := true } := by
  rw [readProof_eq, h, proofFields, List.foldl_append, foldl_siblings]
  rfl

/-! ### Fields that have been spoiled -/

theorem cons_of_sublist {L L' : List Field} {F : Field} (h : L'.Sublist (F :: L)) (hF : ∃ F' ∈ L', F'.kind = F.kind)
    (hL : ∀ F' ∈ L, F'.kind ≠ F.kind) : ∃ M, L' = F :: M ∧ M.Sublist L := by
  rcases List.sublist_cons_iff.mp h with hsub | ⟨M, rfl, hsub⟩
  · obtain ⟨F', hF', hkind⟩ := hF
    exact absurd hkind (hL F' (hsub.subset hF'))
  · exact ⟨M, rfl, hsub⟩

section

variable {txid : H256} {height : UInt64} {blockhash : H256} {header : Bytes} {steps : List MerkleStep}

/-- If all the lines that are asked for are left, siblings have been lost. -/
theorem fewer_of_lost {L' : List Field} (hsub : L'.Sublist (proofFields txid height blockhash header steps))
    (hlen : L'.length < (proofFields txid height blockhash header steps).length)
    (hneeded : ∀ kind ∈ LineKind.needed, ∃ F ∈ L', F.kind = kind) :
    ∃ rest, L' = proofFields txid height blockhash header rest ∧ rest.length < steps.length := by
  have hother : ∀ {F : Field} {M : List Field} {kind : LineKind}, (∃ F' ∈ F :: M, F'.kind = kind) → F.kind ≠ kind →
      ∃ F' ∈ M, F'.kind = kind := by
    rintro F M kind ⟨F', hF', hkind⟩ hne
    rcases List.mem_cons.mp hF' with rfl | hF'
    · exact absurd hkind hne
    · exact ⟨F', hF', hkind⟩
  have htxid := hneeded .txid (by decide)
  obtain ⟨M₁, rfl, hM₁⟩ := cons_of_sublist hsub htxid (by simp [Field.kind])
  have hheight := hother (hneeded .height (by decide)) (by simp [Field.kind])
  obtain ⟨M₂, rfl, hM₂⟩ := cons_of_sublist hM₁ hheight (by simp [Field.kind])
  have hblockhash := hother (hother (hneeded .blockhash (by decide)) (by simp [Field.kind])) (by simp [Field.kind])
  obtain ⟨M₃, rfl, hM₃⟩ := cons_of_sublist hM₂ hblockhash (by simp [Field.kind])
  have hheader := hother (hother (hother (hneeded .header (by decide)) (by simp [Field.kind])) (by simp [Field.kind]))
    (by simp [Field.kind])
  obtain ⟨M₄, rfl, hM₄⟩ := cons_of_sublist hM₃ hheader (by simp [Field.kind])
  obtain ⟨rest, hrest, rfl⟩ := List.sublist_map_iff.mp hM₄
  refine ⟨rest, rfl, ?_⟩
  simpa [proofFields] using hlen

/-- A field with another value is one of the four, or a sibling on the same side. -/
theorem changed_cases {front back : List Field} {F F' : Field}
    (hL : proofFields txid height blockhash header steps = front ++ F :: back) (hkind : F'.kind = F.kind) (hne : F' ≠ F)
    (hside : ∀ s s', F = .sibling s → F' = .sibling s' → s'.left = s.left) :
    (∃ txid', txid' ≠ txid ∧ front ++ F' :: back = proofFields txid' height blockhash header steps) ∨
    (∃ height', height' ≠ height ∧ front ++ F' :: back = proofFields txid height' blockhash header steps) ∨
    (∃ blockhash', blockhash' ≠ blockhash ∧ front ++ F' :: back = proofFields txid height blockhash' header steps) ∨
    (∃ header', header' ≠ header ∧ front ++ F' :: back = proofFields txid height blockhash header' steps) ∨
    ∃ steps', steps' ≠ steps ∧ steps.map HashTree.Step.left = steps'.map HashTree.Step.left ∧
      front ++ F' :: back = proofFields txid height blockhash header steps' := by
  match front with
  | [] =>
      simp only [proofFields, List.cons_append, List.nil_append, List.cons.injEq] at hL
      obtain ⟨rfl, rfl⟩ := hL
      cases F' <;> cases hkind
      rename_i v
      exact Or.inl ⟨v, fun heq => hne (congrArg _ heq), rfl⟩
  | [_] =>
      simp only [proofFields, List.cons_append, List.nil_append, List.cons.injEq] at hL
      obtain ⟨rfl, rfl, rfl⟩ := hL
      cases F' <;> cases hkind
      rename_i v
      exact Or.inr (Or.inl ⟨v, fun heq => hne (congrArg _ heq), rfl⟩)
  | [_, _] =>
      simp only [proofFields, List.cons_append, List.nil_append, List.cons.injEq] at hL
      obtain ⟨rfl, rfl, rfl, rfl⟩ := hL
      cases F' <;> cases hkind
      rename_i v
      exact Or.inr (Or.inr (Or.inl ⟨v, fun heq => hne (congrArg _ heq), rfl⟩))
  | [_, _, _] =>
      simp only [proofFields, List.cons_append, List.nil_append, List.cons.injEq] at hL
      obtain ⟨rfl, rfl, rfl, rfl, rfl⟩ := hL
      cases F' <;> cases hkind
      rename_i v
      exact Or.inr (Or.inr (Or.inr (Or.inl ⟨v, fun heq => hne (congrArg _ heq), rfl⟩)))
  | _ :: _ :: _ :: _ :: front =>
      simp only [proofFields, List.cons_append, List.nil_append, List.cons.injEq] at hL
      obtain ⟨rfl, rfl, rfl, rfl, hsteps⟩ := hL
      obtain ⟨front', back', rfl, rfl, hback⟩ := List.map_eq_append_iff.mp hsteps
      obtain ⟨s, back', rfl, rfl, rfl⟩ := List.map_eq_cons_iff.mp hback
      cases F' <;> cases hkind
      rename_i s'
      have hleft : s'.left = s.left := hside s s' rfl rfl
      refine Or.inr (Or.inr (Or.inr (Or.inr ⟨front' ++ s' :: back', ?_, ?_, ?_⟩)))
      · intro heq
        exact hne (congrArg _ (List.cons.inj (List.append_cancel_left heq)).1)
      · simp [hleft]
      · simp [proofFields]

end

section

variable [Crypto]

theorem Passes.has {content : List Char} (h : Passes content) {kind : LineKind} (hkind : kind ∈ LineKind.needed) :
    (readProof content).Has kind := by
  unfold Passes cmdVerify at h
  dsimp only at h
  split at h
  · cases h
  · rename_i hgood
    simp only [Bool.or_eq_true, Bool.not_eq_true', beq_iff_eq, not_or, Bool.not_eq_false] at hgood
    obtain ⟨⟨⟨htxid, hblockhash⟩, hheader⟩, hheight⟩ := hgood
    cases kind with
    | txid => exact htxid
    | height => exact hheight
    | blockhash => exact hblockhash
    | header => exact hheader
    | _ => exact absurd hkind (by decide)

/-- The header that has been read hashes to the hash that has been read. -/
theorem Passes.hash {content : List Char} (h : Passes content) :
    sha256d (readProof content).headerRaw = (readProof content).blockhash := by
  unfold Passes cmdVerify at h
  dsimp only at h
  split at h
  · cases h
  · split at h
    · cases h
    · injection h with hhash
      exact eq_of_beq hhash

/-! ### The verdict -/

theorem passes_of_fields_eq {content content' : List Char} (h : fields content = fields content') :
    Passes content ↔ Passes content' := by
  rw [Passes, Passes, cmdVerify, cmdVerify, readProof_eq, readProof_eq, h]

/-- The strings hashed for a text: its header and its path. -/
def verifyHashed (content : List Char) : List Bytes :=
  (readProof content).headerRaw :: pathBuffers (readProof content).txid (readProof content).steps

/-- The strings hashed for the body of a block and for two texts. -/
def tamperHashed (b : Block) (content content' : List Char) : List Bytes :=
  b.txs.map Tx.serialize ++ merkleBuffers b.txids ++ verifyHashed content ++ verifyHashed content'

theorem verifyHashed_subset (b : Block) (content content' : List Char) :
    verifyHashed content ⊆ tamperHashed b content content' :=
  fun _ hx => List.mem_append_left _ (List.mem_append_right _ hx)

theorem verifyHashed_subset' (b : Block) (content content' : List Char) :
    verifyHashed content' ⊆ tamperHashed b content content' :=
  fun _ hx => List.mem_append_right _ hx

theorem inclusionHashed_subset (b : Block) (content content' : List Char) :
    inclusionHashed b content' ⊆ tamperHashed b content content' := by
  intro x hx
  rw [inclusionHashed, siblings, ← readProof_steps] at hx
  rcases List.mem_append.mp hx with hx | hx
  · exact List.mem_append_left _ (List.mem_append_left _ hx)
  · exact List.mem_append_right _ (List.mem_cons_of_mem _ hx)

/-- The fields of the proof of a transaction. -/
def fieldsOf (id : H256) (b : Block) (j : Nat) : List Field :=
  proofFields id b.h.height b.h.hash b.h.serialize (merkleProof b.txids j)

section

variable {c : Chain} {b : Block} {j : Nat} {t : Tx} {content content' : List Char} (hnext : c.NextBlock b)
  (ht : b.txs[j]? = some t) (hread : fields content = fieldsOf t.txid b j)
  (hfree : CollisionFree (tamperHashed b content content'))

include ht in
theorem getElem?_txids : b.txids[j]? = some t.txid := by
  rw [Block.txids, List.getElem?_map, ht]
  rfl

include hnext ht in
theorem merkleApply_proof : merkleApply t.txid (merkleProof b.txids j) = b.h.merkle :=
  (HashTree.climb_path (getElem?_txids ht)).trans hnext.merkle

theorem length_merkleProof (b : Block) (j : Nat) : (merkleProof b.txids j).length = Nat.clog 2 b.txs.length := by
  have hcount := congrArg List.length (HashTree.sides_path merkleParent (zeros 32) b.txids j)
  rwa [List.length_map, List.length_map, List.length_range, Block.txids, List.length_map] at hcount

include hnext ht hread hfree

/-- Another path on the same sides does not pass. -/
theorem same_of_passes {id : H256} {steps : List MerkleStep}
    (hread' : fields content' = proofFields id b.h.height b.h.hash b.h.serialize steps)
    (hsides : (merkleProof b.txids j).map HashTree.Step.left = steps.map HashTree.Step.left) (hpasses : Passes content') :
    t.txid = id ∧ merkleProof b.txids j = steps := by
  have hrec := readProof_proofFields hread
  have hrec' := readProof_proofFields hread'
  obtain ⟨-, -, -, happly, -⟩ := (passes_iff hrec' rfl).mp hpasses
  have hmeet : merkleApply t.txid (merkleProof b.txids j) = merkleApply id steps :=
    (merkleApply_proof hnext ht).trans happly.symm
  refine (same_of_merkleApply_eq hsides hmeet).resolve_right ?_
  rintro ⟨x, hx, y, hy, hne, heq⟩
  refine hne (hfree x (verifyHashed_subset b content content' ?_) y (verifyHashed_subset' b content content' ?_) heq)
  · rw [verifyHashed, hrec]
    exact List.mem_cons_of_mem _ hx
  · rw [verifyHashed, hrec']
    exact List.mem_cons_of_mem _ hy

/-- **A text that has lost a field or has another value does not pass.** -/
theorem not_passes_of_spoiled (hspoiled : Spoiled (fieldsOf t.txid b j) (fields content')) : ¬Passes content' := by
  intro hpasses
  have hrec := readProof_proofFields hread
  have hneeded : ∀ kind ∈ LineKind.needed, ∃ F ∈ fields content', F.kind = kind :=
    fun kind hkind => exists_of_has (hpasses.has hkind)
  generalize hL' : fields content' = L' at hspoiled hneeded
  cases hspoiled with
  | lost hsub hlen =>
      obtain ⟨rest, hrest, hfewer⟩ := fewer_of_lost hsub hlen hneeded
      have hrec' := readProof_proofFields (hL'.trans hrest)
      have hmem := hnext.txid_mem_iff hpasses (by rw [hrec']) (hfree.mono (inclusionHashed_subset b content content'))
      rw [siblings, ← readProof_steps, hrec'] at hmem
      have hcount : rest.length = Nat.clog 2 b.txs.length := hmem.mp (List.mem_of_getElem? (getElem?_txids ht))
      rw [length_merkleProof, ← hcount] at hfewer
      exact Nat.lt_irrefl _ hfewer
  | changed hL hkind hne hside =>
      rcases changed_cases hL hkind hne hside with ⟨id, hid, hL''⟩ | ⟨height, hheight, hL''⟩ | ⟨hash, hhash, hL''⟩ |
        ⟨header, hheader, hL''⟩ | ⟨steps, hsteps, hsides, hL''⟩
      · exact hid (same_of_passes hnext ht hread hfree (hL'.trans hL'') rfl hpasses).1.symm
      · obtain ⟨-, -, heq, -⟩ := (passes_iff (readProof_proofFields (hL'.trans hL'')) rfl).mp hpasses
        exact hheight heq.symm
      · obtain ⟨-, heq, -⟩ := (passes_iff (readProof_proofFields (hL'.trans hL'')) rfl).mp hpasses
        exact hhash heq.symm
      · have hrec' := readProof_proofFields (hL'.trans hL'')
        have heq := hpasses.hash
        rw [hrec'] at heq
        refine hheader (hfree header (verifyHashed_subset' b content content' ?_) b.h.serialize
          (verifyHashed_subset b content content' ?_) heq)
        · rw [verifyHashed, hrec']
          exact List.mem_cons_self
        · rw [verifyHashed, hrec]
          exact List.mem_cons_self
      · exact hsteps (same_of_passes hnext ht hread hfree (hL'.trans hL'') hsides hpasses).2.symm

omit hread in
/-- A sibling is a copy of the node it stands beside exactly at the end of a level of odd size. -/
theorem own_sibling_iff (hfits : ∀ u ∈ b.txs, u.Fits) {k : Nat} {s : MerkleStep}
    (hs : (merkleProof b.txids j)[k]? = some s) :
    s.h = merkleApply t.txid ((merkleProof b.txids j).take k) ↔
      s.left = false ∧ j / 2 ^ k = (b.txs.length - 1) / 2 ^ k := by
  have hserial : ∀ u ∈ b.txs, u.serialize ∈ tamperHashed b content content' := fun u hu =>
    List.mem_append_left _ (List.mem_append_left _ (List.mem_append_left _ (List.mem_map_of_mem hu)))
  have hnode : ∀ pair ∈ HashTree.nodes merkleParent b.txids,
      parentBuffer pair.1 pair.2 ∈ tamperHashed b content content' := fun pair hpair =>
    List.mem_append_left _ (List.mem_append_left _ (List.mem_append_right _ (List.mem_map_of_mem hpair)))
  have hleaves : b.txids.Nodup :=
    List.Nodup.map_on (fun u hu v hv => txid_injOn hfree hfits hserial hu hv) hnext.nodup
  have hinj : ∀ pair ∈ HashTree.nodes merkleParent b.txids, ∀ pair' ∈ HashTree.nodes merkleParent b.txids,
      merkleParent pair.1 pair.2 = merkleParent pair'.1 pair'.2 → pair = pair' := fun pair hpair pair' hpair' heq =>
    Prod.ext_iff.mpr (parentBuffer_injective (hfree _ (hnode pair hpair) _ (hnode pair' hpair') heq))
  have hk := (List.getElem?_eq_some_iff.mp hs).1
  have hcount : b.txids.length = b.txs.length := List.length_map _
  rw [length_merkleProof, ← hcount] at hk
  have hne : b.txids ≠ [] := List.ne_nil_of_mem (List.mem_of_getElem? (getElem?_txids ht))
  have hsib := HashTree.getElem?_path merkleParent (zeros 32) b.txids j k
  rw [if_pos hk] at hsib
  obtain rfl := Option.some.inj (hs.symm.trans hsib)
  have habove : (HashTree.above merkleParent b.txids k)[j / 2 ^ k]? =
      some (merkleApply t.txid ((merkleProof b.txids j).take k)) := HashTree.getElem?_above (getElem?_txids ht) hk.le
  refine (HashTree.beside_eq_iff (HashTree.nodup_above hleaves hinj hk.le) habove).trans ?_
  rw [HashTree.length_above hne, hcount, Nat.testBit_eq_decide_div_mod_eq, decide_eq_false_iff_not]
  omega

/-- **A sibling on the other side passes exactly when it is a copy of the node it stands beside.** -/
theorem passes_turn_iff (hfits : ∀ u ∈ b.txs, u.Fits) (hpasses : Passes content) {k : Nat} {s : MerkleStep}
    (hs : (merkleProof b.txids j)[k]? = some s) (hturn : fields content' =
      proofFields t.txid b.h.height b.h.hash b.h.serialize ((merkleProof b.txids j).set k ⟨s.h, !s.left⟩)) :
    Passes content' ↔ s.left = false ∧ j / 2 ^ k = (b.txs.length - 1) / 2 ^ k := by
  have hrec := readProof_proofFields hread
  have hrec' := readProof_proofFields hturn
  rw [← own_sibling_iff hnext ht hfree hfits hs]
  constructor
  · intro hpasses'
    by_contra hother
    obtain ⟨-, -, -, happly, -⟩ := (passes_iff hrec' rfl).mp hpasses'
    have hmeet : HashTree.climb merkleParent t.txid ((merkleProof b.txids j).set k ⟨s.h, !s.left⟩) =
        HashTree.climb merkleParent t.txid (merkleProof b.txids j) := happly.trans (merkleApply_proof hnext ht).symm
    obtain ⟨pair, hpair, pair', hpair', hne, heq⟩ := HashTree.collide_of_climb_set hs hother hmeet
    have hx : parentBuffer pair.1 pair.2 ∈ verifyHashed content := by
      rw [verifyHashed, hrec]
      exact List.mem_cons_of_mem _ (List.mem_map_of_mem hpair)
    have hy : parentBuffer pair'.1 pair'.2 ∈ verifyHashed content' := by
      rw [verifyHashed, hrec']
      exact List.mem_cons_of_mem _ (List.mem_map_of_mem hpair')
    refine hne (Prod.ext_iff.mpr (parentBuffer_injective ?_))
    exact hfree _ (verifyHashed_subset b content content' hx) _ (verifyHashed_subset' b content content' hy) heq
  · intro hown
    obtain ⟨hfields, hhash, hheight, happly, hpow⟩ := (passes_iff hrec rfl).mp hpasses
    refine (passes_iff hrec' rfl).mpr ⟨hfields, hhash, hheight, ?_, hpow⟩
    exact (HashTree.climb_set_own hs hown).trans happly

end

/-! ### Every change -/

/-- The changes that are not noticed in the proof of the transaction number `j` of `n`: those that leave what the
reader gets, and the turn of a sibling that is a copy of the node it stands beside. -/
def Unnoticed (n j : Nat) (before : List Char) (old c : Char) : Prop :=
  Kept (Nat.clog 2 n) before old c ∨
    (Turned (Nat.clog 2 n) before old c ∧ old = 'R' ∧ j / 2 ^ (lineOf before - 6) = (n - 1) / 2 ^ (lineOf before - 6))

theorem fields_proofOf {id : H256} {b : Block} {index : UInt32} (hpos : 0 < b.h.height.toNat)
    (hlt : b.h.height.toNat < 2 ^ 32) : fields (proofOf id b index).toList = fieldsOf id b index.toNat := by
  rw [proofOf, ← unlines_proofLines hpos hlt index b.h.length_serialize, ProofLine.fields_unlines]
  exact gives_proofLines hpos hlt index b.h.length_serialize

/-- **A change of one character in the proof of a transaction passes exactly when it is not noticed.** -/
theorem passes_change_iff {c : Chain} {b : Block} {t : Tx} {index : UInt32} (hnext : c.NextBlock b)
    (hfits : ∀ u ∈ b.txs, u.Fits) (hpos : 0 < b.h.height.toNat) (hlt : b.h.height.toNat < 2 ^ 32)
    (ht : b.txs[index.toNat]? = some t) {before after : List Char} {old x : Char}
    (htext : (proofOf t.txid b index).toList = before ++ old :: after) (hx : x ≠ old)
    (hfree : CollisionFree (tamperHashed b (proofOf t.txid b index).toList (before ++ x :: after))) :
    Passes (before ++ x :: after) ↔ Unnoticed b.txs.length index.toNat before old x := by
  have hread : fields (proofOf t.txid b index).toList = fieldsOf t.txid b index.toNat := fields_proofOf hpos hlt
  have hpasses : Passes (proofOf t.txid b index).toList := by
    refine passes_proofOf hnext.merkle hnext.pow (fun hmax => ?_) ht
    rw [hmax] at hlt
    exact absurd hlt (by decide)
  have hlen := length_merkleProof b index.toNat
  have hchange := fields_of_change hpos hlt b.h.length_serialize htext hx
  rw [hlen] at hchange
  by_cases hkept : Kept (Nat.clog 2 b.txs.length) before old x
  · refine iff_of_true ?_ (Or.inl hkept)
    exact (passes_of_fields_eq (hread.trans (hchange.1 hkept).symm)).mp hpasses
  · rw [Unnoticed, or_iff_right hkept]
    by_cases hturn : Turned (Nat.clog 2 b.txs.length) before old x
    · rw [and_iff_right hturn]
      rw [← hlen] at hturn
      obtain ⟨k, s, hline, hs, hold, hfields⟩ := fields_of_turn hpos hlt b.h.length_serialize htext hx hturn
      rw [passes_turn_iff hnext ht hread hfree hfits hpasses hs hfields, hline, Nat.add_sub_cancel, hold]
      cases s.left <;> simp
    · have hspoiled := hchange.2 hkept hturn
      exact iff_of_false (not_passes_of_spoiled hnext ht hread hfree hspoiled) fun h => hturn h.1

/-! ### What a node answers -/

variable {p : Params}

/-- A proof that a node answers with is that of a transaction on its chain. -/
theorem App.exists_of_prove {a : App} (h : Chain.Reachable p a.chain) (hlen : a.chain.blocks.length ≤ 2 ^ 32)
    (hfree : CollisionFree (Chain.ledgerBy p a.chain.blocks)) {query : Option String} {text : String}
    (hprove : a.prove query = ⟨200, "text/plain", text⟩) : ∃ (i j : Nat) (b : Block) (t : Tx),
      a.chain.blocks[i]? = some b ∧ b.txs[j]? = some t ∧ text = proofOf t.txid b (UInt32.ofNat j) := by
  obtain ⟨hsound, -⟩ := h.sound
  unfold App.prove at hprove
  split at hprove
  · cases hprove
  · rename_i id hid
    split at hprove
    · cases hprove
    · rename_i place hplace
      rw [hsound.txidx, hsound.valid.txidx_iff hfree hlen] at hplace
      obtain ⟨i, b, j, t, hb, ht, rfl, rfl⟩ := Chain.mem_indexEntries.mp hplace
      obtain ⟨-, hheight, -⟩ := hsound.valid.place_eq hfree hlen hb ht
      have hblock : a.chain.blocks.getD b.h.height.toUInt32.toNat {} = b := by
        rw [hheight, List.getD_eq_getElem?_getD, hb]
        rfl
      injection hprove with hstatus htype hbody
      dsimp only at hbody
      rw [hblock] at hbody
      exact ⟨i, j, b, t, hb, ht, hbody.symm⟩

/-- **Which changes of one character a proof survives.** On a reachable chain with heights below `2 ^ 32`, the text
that `/prove` answers with is the proof of a transaction of the chain, and with one character replaced by another it
is not valid any more exactly when the change is not one of the unnoticed ones; or strings hashed for the chain, for
the block or for the two texts collide. -/
theorem changed_proof_invalid_iff {a : App} (h : Chain.Reachable p a.chain) (hlen : a.chain.blocks.length ≤ 2 ^ 32)
    {query : Option String} {text : String} (hprove : a.prove query = ⟨200, "text/plain", text⟩) :
    (∃ (i j : Nat) (b : Block) (t : Tx), a.chain.blocks[i]? = some b ∧ b.txs[j]? = some t ∧
      text = proofOf t.txid b (UInt32.ofNat j) ∧
      ∀ (before after : List Char) (old x : Char), text.toList = before ++ old :: after → x ≠ old →
        (¬Passes (before ++ x :: after) ↔ ¬Unnoticed b.txs.length j before old x) ∨
        Collision (tamperHashed b text.toList (before ++ x :: after))) ∨
    Collision (Chain.ledgerBy p a.chain.blocks) := by
  rcases collisionFree_or_collision (Chain.ledgerBy p a.chain.blocks) with hfree | hcol
  · left
    obtain ⟨i, j, b, t, hb, ht, rfl⟩ := App.exists_of_prove h hlen hfree hprove
    refine ⟨i, j, b, t, hb, ht, rfl, fun before after old x htext hx => ?_⟩
    obtain ⟨hsound, -⟩ := h.sound
    obtain ⟨hheight, -, hindex⟩ := hsound.valid.place_eq hfree hlen hb ht
    have hi := (List.getElem?_eq_some_iff.mp hb).1
    have hpos := hsound.valid.pos_of_mem hb (List.mem_of_getElem? ht)
    have hnext := hsound.valid.nextBlock hb (List.mem_of_getElem? ht)
    have hfits : ∀ u ∈ b.txs, u.Fits := fun u hu => (hsound.valid.fits b (List.mem_of_getElem? hb)).payloads u hu
    rcases collisionFree_or_collision (tamperHashed b (proofOf t.txid b (UInt32.ofNat j)).toList (before ++ x :: after))
      with hfree' | hcol
    · have hiff := passes_change_iff hnext hfits (by omega) (by omega) (by rw [hindex]; exact ht) htext hx hfree'
      rw [hindex] at hiff
      exact Or.inl (not_congr hiff)
    · exact Or.inr hcol
  · exact Or.inr hcol

end

section

variable [Crypto]

/-- The first letter of a proof is not looked at. -/
theorem title_changed {b : Block} (hpos : 0 < b.h.height.toNat) (hlt : b.h.height.toNat < 2 ^ 32) (id : H256)
    (index : UInt32) : ∃ after, (proofOf id b index).toList = 'C' :: after ∧
      fields ('X' :: after) = fields (proofOf id b index).toList := by
  obtain ⟨after, htext⟩ : ∃ after, (proofOf id b index).toList = 'C' :: after := by
    rw [proofOf, toList_proofText]
    exact ⟨_, rfl⟩
  refine ⟨after, htext, ?_⟩
  rw [fields_proofOf hpos hlt]
  have hchange : (Kept _ [] 'C' 'X' → fields ([] ++ 'X' :: after) = _) ∧ _ :=
    fields_of_change hpos hlt b.h.length_serialize htext (by decide)
  refine hchange.1 ?_
  rw [Kept, if_neg (by decide)]
  exact trivial

end

section
local instance tamperCrypto : Crypto := Sha.crypto fun _ _ _ => false

/-- A node on a chain with one coinbase. -/
def provingNode : App := App.start Chain.easyParams (Chain.coinbases (zeros 20) 1) (zeros 20) false 0

/-- The block with the coinbase. -/
def provingBlock : Block :=
  Chain.candidate Chain.easyParams (Chain.coinbases (zeros 20) 0) (zeros 20) [] Chain.easyParams.genesisTime 0

/-- The proof of that coinbase. -/
def provingText : String := proofOf (coinbaseTx Chain.easyParams 1 (zeros 20)).txid provingBlock 0

/-- The strings hashed for the chain and the proof. -/
def provingStrings : List Bytes := [(makeGenesis Chain.easyParams).h.serialize, provingBlock.h.serialize,
  (coinbaseTx Chain.easyParams 1 (zeros 20)).serialize]

theorem provingStrings_nodup : (provingStrings.map sha256d).Nodup := by
  decide +kernel

theorem provingStrings_free : CollisionFree provingStrings := by
  intro x hx y hy heq
  exact List.inj_on_of_nodup_map provingStrings_nodup hx hy heq

theorem provingLedger_subset : Chain.ledgerBy Chain.easyParams (Chain.coinbases (zeros 20) 1).blocks ⊆ provingStrings := by
  have hledger : Chain.ledgerBy Chain.easyParams (Chain.coinbases (zeros 20) 1).blocks =
      (makeGenesis Chain.easyParams).h.serialize :: provingStrings := rfl
  rw [hledger]
  exact List.cons_subset.mpr ⟨List.mem_cons_self, List.Subset.refl _⟩

theorem provingBody_subset : provingBlock.txs.map Tx.serialize ++ merkleBuffers provingBlock.txids ⊆ provingStrings := by
  have hbody : provingBlock.txs.map Tx.serialize ++ merkleBuffers provingBlock.txids =
      [(coinbaseTx Chain.easyParams 1 (zeros 20)).serialize] := rfl
  rw [hbody, provingStrings]
  simp

theorem verifyHashed_proving {content : List Char}
    (h : fields content = fieldsOf (coinbaseTx Chain.easyParams 1 (zeros 20)).txid provingBlock 0) :
    verifyHashed content ⊆ provingStrings := by
  have hpath : merkleProof provingBlock.txids 0 = [] := rfl
  rw [fieldsOf, hpath] at h
  rw [verifyHashed, readProof_proofFields h, provingStrings]
  simp [pathBuffers, HashTree.climbPairs]

/-- The proof of the coinbase with another first letter. -/
theorem changed_title_passes :
    Chain.Reachable Chain.easyParams provingNode.chain ∧
    provingNode.prove (some (hexs (coinbaseTx Chain.easyParams 1 (zeros 20)).txid.toList)) =
      ⟨200, "text/plain", provingText⟩ ∧
    ∃ after, provingText.toList = 'C' :: after ∧ Passes ('X' :: after) ∧
      ¬Collision (Chain.ledgerBy Chain.easyParams provingNode.chain.blocks ++
        tamperHashed provingBlock provingText.toList ('X' :: after)) := by
  have hreach : Chain.Reachable Chain.easyParams provingNode.chain := Chain.coinbases_reachable (zeros 20) 1
  have hfree := provingStrings_free.mono provingLedger_subset
  have hlen : provingNode.chain.blocks.length ≤ 2 ^ 32 := by decide
  have hpasses : Passes provingText.toList := App.passes_prove (i := 1) (j := 0) hreach hlen hfree rfl rfl
  have hread : fields provingText.toList = fieldsOf (coinbaseTx Chain.easyParams 1 (zeros 20)).txid provingBlock 0 :=
    fields_proofOf (by decide) (by decide)
  obtain ⟨after, htext, hfields⟩ := title_changed (b := provingBlock) (by decide) (by decide)
    (coinbaseTx Chain.easyParams 1 (zeros 20)).txid 0
  refine ⟨hreach, App.prove_eq (i := 1) (j := 0) hreach hlen hfree rfl rfl (unhexN_hexs _), after, htext, ?_, ?_⟩
  · exact (passes_of_fields_eq hfields).mpr hpasses
  · have hsub : Chain.ledgerBy Chain.easyParams provingNode.chain.blocks ++
        tamperHashed provingBlock provingText.toList ('X' :: after) ⊆ provingStrings := by
      refine List.append_subset.mpr ⟨provingLedger_subset, List.append_subset.mpr ⟨List.append_subset.mpr ⟨?_, ?_⟩, ?_⟩⟩
      · exact provingBody_subset
      · exact verifyHashed_proving hread
      · exact verifyHashed_proving (hfields.trans hread)
    rintro ⟨x, hx, y, hy, hne, heq⟩
    exact hne (provingStrings_free x (hsub hx) y (hsub hy) heq)

theorem changed_proof_invalid_iff_coinbase :
    (∃ (i j : Nat) (b : Block) (t : Tx), provingNode.chain.blocks[i]? = some b ∧ b.txs[j]? = some t ∧
      provingText = proofOf t.txid b (UInt32.ofNat j) ∧
      ∀ (before after : List Char) (old x : Char), provingText.toList = before ++ old :: after → x ≠ old →
        (¬Passes (before ++ x :: after) ↔ ¬Unnoticed b.txs.length j before old x) ∨
        Collision (tamperHashed b provingText.toList (before ++ x :: after))) ∨
    Collision (Chain.ledgerBy Chain.easyParams provingNode.chain.blocks) := by
  have hreach : Chain.Reachable Chain.easyParams provingNode.chain := Chain.coinbases_reachable (zeros 20) 1
  have hfree := provingStrings_free.mono provingLedger_subset
  have hlen : provingNode.chain.blocks.length ≤ 2 ^ 32 := by decide
  exact changed_proof_invalid_iff hreach hlen
    (App.prove_eq (i := 1) (j := 0) hreach hlen hfree rfl rfl (unhexN_hexs _))

end

end Chainlite
