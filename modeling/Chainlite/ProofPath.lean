import Chainlite.ProofText
import Chainlite.SecurityCommitment

/-! Merkle proofs as paths. The proof of a leaf is complete for every shape of the tree, whatever the parent
function; and a proof that has been tampered with does not reach the same node, unless `sha256d` collides on
the two ways. -/

open Std

namespace Chainlite

section
variable [Crypto]

/-! ### Completeness -/

/-- **Merkle proofs are complete for every tree shape.** `merkle_root`, `merkle_proof` and `merkle_apply` are
the tree, the path and the climb at `merkle_parent`; the rest holds at every parent function. -/
theorem merkle_proof_complete {leaves : List H256} {i : Nat} (hi : i < leaves.length) :
    merkleApply leaves[i] (merkleProof leaves i) = merkleRoot leaves ∧
    ∀ parent : H256 → H256 → H256,
      HashTree.climb parent leaves[i] (HashTree.path parent (zeros 32) leaves i) =
        HashTree.root parent (zeros 32) leaves ∧
      (∀ (k : Nat) (s : MerkleStep), (HashTree.path parent (zeros 32) leaves i)[k]? = some s →
        (HashTree.padded (HashTree.above parent leaves k))[(i / 2 ^ k) ^^^ 1]? = some s.h) ∧
      (HashTree.path parent (zeros 32) leaves i).map HashTree.Step.left =
        (List.range (Nat.clog 2 leaves.length)).map i.testBit := by
  have hleaf : leaves[i]? = some leaves[i] := List.getElem?_eq_getElem hi
  refine ⟨HashTree.climb_path hleaf, fun parent => ⟨HashTree.climb_path hleaf, fun k s hs => ?_, ?_⟩⟩
  · exact HashTree.sibling_read hi hs
  · exact HashTree.sides_path parent (zeros 32) leaves i

/-! ### Tampering -/

theorem length_of_mem_pathBuffers {leaf : H256} {steps : List MerkleStep} {x : Bytes}
    (hx : x ∈ pathBuffers leaf steps) : x.length = 64 := by
  obtain ⟨pair, -, rfl⟩ := List.mem_map.mp hx
  simp [parentBuffer]

/-- Two climbs on the same sides that meet are the same, or `sha256d` collides on the two ways. -/
theorem same_of_merkleApply_eq {leaf leaf' : H256} {steps steps' : List MerkleStep}
    (hsides : steps.map HashTree.Step.left = steps'.map HashTree.Step.left)
    (hmeet : merkleApply leaf steps = merkleApply leaf' steps') : (leaf = leaf' ∧ steps = steps') ∨
    ∃ x ∈ pathBuffers leaf steps, ∃ y ∈ pathBuffers leaf' steps', x ≠ y ∧ sha256d x = sha256d y := by
  refine (HashTree.same_of_climb_eq hsides hmeet).imp_right ?_
  rintro ⟨pair, hpair, pair', hpair', hdiffer, heq⟩
  exact ⟨_, List.mem_map_of_mem hpair, _, List.mem_map_of_mem hpair',
    fun hsame => hdiffer (Prod.ext_iff.mpr (parentBuffer_injective hsame)), heq⟩

/-- **Tampered Merkle paths never reach the root.** -/
theorem tampered_path_misses {leaf leaf' : H256} {steps steps' : List MerkleStep}
    (hsides : steps.map HashTree.Step.left = steps'.map HashTree.Step.left)
    (hne : leaf ≠ leaf' ∨ steps.map HashTree.Step.h ≠ steps'.map HashTree.Step.h) :
    merkleApply leaf steps ≠ merkleApply leaf' steps' ∨
    ∃ x ∈ pathBuffers leaf steps, ∃ y ∈ pathBuffers leaf' steps',
      x.length = 64 ∧ y.length = 64 ∧ x ≠ y ∧ sha256d x = sha256d y := by
  by_cases hmeet : merkleApply leaf steps = merkleApply leaf' steps'
  · right
    rcases same_of_merkleApply_eq hsides hmeet with ⟨rfl, rfl⟩ | ⟨x, hx, y, hy, hdiffer, heq⟩
    · simp at hne
    · exact ⟨x, hx, y, hy, length_of_mem_pathBuffers hx, length_of_mem_pathBuffers hy, hdiffer, heq⟩
  · exact Or.inl hmeet

end

section
local instance pathCrypto : Crypto := Sha.crypto fun _ _ _ => false

/-- The last of three leaves, beside its own copy. -/
theorem merkle_proof_complete_three_leaves :
    merkleApply (zeros 32) (merkleProof [Vector.replicate 32 1, Vector.replicate 32 2, zeros 32] 2) =
      merkleRoot [Vector.replicate 32 1, Vector.replicate 32 2, zeros 32] := by
  have hi : 2 < [Vector.replicate 32 1, Vector.replicate 32 2, zeros 32].length := by decide
  exact (merkle_proof_complete hi).1

/-- Another leaf beside the same sibling. -/
theorem tampered_path_misses_one_step :
    merkleApply (zeros 32) [⟨zeros 32, true⟩] ≠ merkleApply (Vector.replicate 32 1) [⟨zeros 32, true⟩] ∨
      ∃ x ∈ pathBuffers (zeros 32) [⟨zeros 32, true⟩], ∃ y ∈ pathBuffers (Vector.replicate 32 1) [⟨zeros 32, true⟩],
        x.length = 64 ∧ y.length = 64 ∧ x ≠ y ∧ sha256d x = sha256d y :=
  tampered_path_misses rfl (Or.inl (by decide))

end

end Chainlite
