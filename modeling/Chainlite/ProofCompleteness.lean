import Chainlite.LedgerIndex
import Chainlite.ProofText
import Chainlite.SecurityInclusion

/-! Inclusion proofs are complete. For a transaction on a chain, the index gives its block and its place there,
the path leads from its id to the root in the header, and `clctl verify` reads from the text what was written.
The text depends on the block and on the place in it alone, so it stays the same as long as the block is there. -/

open Std

namespace Chainlite

section
variable [Crypto] {p : Params}

/-- The proof of a transaction passes, for a block that names its root and meets its target. -/
theorem passes_proofOf {b : Block} {t : Tx} {index : UInt32} (hroot : merkleRoot b.txids = b.h.merkle)
    (hpow : powOk b.h.hash b.h.bits = true) (hheight : b.h.height ≠ UInt64.ofNat (2 ^ 64 - 1))
    (ht : b.txs[index.toNat]? = some t) : Passes (proofOf t.txid b index).toList := by
  have hleaf : b.txids[index.toNat]? = some t.txid := by
    rw [Block.txids, List.getElem?_map, ht]
    rfl
  have hread := readProof_proofText t.txid b.h.height index b.h.hash b.h.length_serialize (merkleProof b.txids index.toNat)
  refine (passes_iff hread rfl).mpr ⟨⟨rfl, rfl, rfl, hheight⟩, rfl, rfl, ?_, Or.inr hpow⟩
  calc merkleApply t.txid (merkleProof b.txids index.toNat)
      = merkleRoot b.txids := HashTree.climb_path hleaf
    _ = b.h.merkle := hroot

namespace App

variable {a : App} (h : Chain.Reachable p a.chain) (hlen : a.chain.blocks.length ≤ 2 ^ 32)
  (hfree : CollisionFree (Chain.ledgerBy p a.chain.blocks)) {i j : Nat} {b : Block} {t : Tx}
  (hb : a.chain.blocks[i]? = some b) (ht : b.txs[j]? = some t)
include h hlen hfree hb ht

/-- `/prove` finds the transaction where it is. -/
theorem prove_eq {query : String} (hquery : unhexN 32 query = some t.txid) :
    a.prove (some query) = ⟨200, "text/plain", proofOf t.txid b (UInt32.ofNat j)⟩ := by
  obtain ⟨hsound, -⟩ := h.sound
  obtain ⟨-, hheight, -⟩ := hsound.valid.place_eq hfree hlen hb ht
  have hplace : a.chain.txidx[t.txid]? = some (b.h.height.toUInt32, UInt32.ofNat j) := by
    rw [hsound.txidx, hsound.valid.txidx_iff hfree hlen]
    exact Chain.mem_indexEntries.mpr ⟨i, b, j, t, hb, ht, rfl, rfl⟩
  have hblock : a.chain.blocks.getD b.h.height.toUInt32.toNat {} = b := by
    rw [hheight, List.getD_eq_getElem?_getD, hb]
    rfl
  rw [prove, Option.getD_some, hquery]
  simp only [hplace, hblock]

/-- `/block` finds the block at its height. -/
theorem block_eq (hash : Option String) :
    a.block (some (toString b.h.height)) hash = ⟨200, "application/json", blockJson b⟩ := by
  obtain ⟨hsound, -⟩ := h.sound
  obtain ⟨hheight, -, -⟩ := hsound.valid.place_eq hfree hlen hb ht
  rw [block, blockFor, strtoull_toString, hheight, hb]

theorem passes_prove : Passes (proofOf t.txid b (UInt32.ofNat j)).toList := by
  obtain ⟨hsound, -⟩ := h.sound
  obtain ⟨hheight, -, hindex⟩ := hsound.valid.place_eq hfree hlen hb ht
  have hnext := hsound.valid.nextBlock hb (List.mem_of_getElem? ht)
  have hi := (List.getElem?_eq_some_iff.mp hb).1
  refine passes_proofOf hnext.merkle hnext.pow (fun hmax => ?_) (by rw [hindex]; exact ht)
  rw [hmax] at hheight
  have hmax : 2 ^ 64 - 1 = i := hheight
  omega

omit h hlen hfree hb ht in
/-- **Inclusion proofs are complete and stay valid.** On a reachable chain with heights below `2 ^ 32`, what
`/prove` answers for a transaction names it and the header of its block and passes the checks of `clctl verify`; and
whenever the block is on the chain of the node, `/prove` gives the same answer and `/block` at the height of the block reports the block; or two of the
chain's headers and transactions have one hash. -/
theorem inclusion_proofs_complete {a : App} (h : Chain.Reachable p a.chain) (hlen : a.chain.blocks.length ≤ 2 ^ 32)
    {i j : Nat} {b : Block} {t : Tx} (hb : a.chain.blocks[i]? = some b) (ht : b.txs[j]? = some t) {query : String}
    (hquery : unhexN 32 query = some t.txid) :
    (∃ text, a.prove (some query) = ⟨200, "text/plain", text⟩ ∧ Passes text.toList ∧
      ((readProof text.toList).txid = t.txid ∧ (readProof text.toList).headerRaw = b.h.serialize) ∧
      ∀ a' : App, Chain.Reachable p a'.chain → a'.chain.blocks.length ≤ 2 ^ 32 → b ∈ a'.chain.blocks →
        (a'.prove (some query) = ⟨200, "text/plain", text⟩ ∧
          ∀ hash, a'.block (some (toString i)) hash = ⟨200, "application/json", blockJson b⟩) ∨
        Collision (Chain.ledgerBy p a'.chain.blocks)) ∨
    Collision (Chain.ledgerBy p a.chain.blocks) := by
  rcases collisionFree_or_collision (Chain.ledgerBy p a.chain.blocks) with hfree | hcol
  · refine Or.inl ⟨_, prove_eq h hlen hfree hb ht hquery, passes_prove h hlen hfree hb ht, ?_, fun a' h' hlen' hb' => ?_⟩
    · rw [proofOf, readProof_proofText _ _ _ _ b.h.length_serialize]
      exact ⟨rfl, rfl⟩
    have hheight : (toString b.h.height) = toString i := by
      rw [← (h.sound.1.valid.place_eq hfree hlen hb ht).1]
      rfl
    rcases collisionFree_or_collision (Chain.ledgerBy p a'.chain.blocks) with hfree' | hcol'
    · obtain ⟨i', hi'⟩ := List.mem_iff_getElem?.mp hb'
      refine Or.inl ⟨prove_eq h' hlen' hfree' hi' ht hquery, fun hash => ?_⟩
      rw [← hheight]
      exact block_eq h' hlen' hfree' hi' ht hash
    · exact Or.inr hcol'
  · exact Or.inr hcol

end App

end

section
local instance proveCrypto : Crypto := ownCrypto

/-- A node on a chain with a coinbase and a transfer. -/
def pairNode : App := App.start Chain.easyParams (pairChain ownKey doubleSign) (zeros 20) false 0

/-- The block after it. -/
def afterPair : Block :=
  Chain.candidate Chain.easyParams (pairChain ownKey doubleSign) (zeros 20) [] Chain.easyParams.genesisTime 0

/-- The node, one block later. -/
def laterNode : App := { pairNode with chain := (pairChain ownKey doubleSign).grow afterPair }

/-- The proof of the transfer has the coinbase for its sibling, and is the same one block later. -/
theorem inclusion_proofs_complete_pair :
    (∃ text, pairNode.prove (some (hexs (idleTransfer ownKey doubleSign).txid.toList)) = ⟨200, "text/plain", text⟩ ∧
      Passes text.toList ∧ (readProof text.toList).txid = (idleTransfer ownKey doubleSign).txid ∧
      ((laterNode.prove (some (hexs (idleTransfer ownKey doubleSign).txid.toList)) = ⟨200, "text/plain", text⟩ ∧
          laterNode.block (some "1") none = ⟨200, "application/json", blockJson (pairBlock ownKey doubleSign)⟩) ∨
        Collision (Chain.ledgerBy Chain.easyParams laterNode.chain.blocks))) ∨
    Collision (Chain.ledgerBy Chain.easyParams pairNode.chain.blocks) := by
  obtain ⟨hsound, hne⟩ := pairChain_own.sound
  have hlater : Chain.Reachable Chain.easyParams laterNode.chain :=
    pairChain_own.connect (Chain.connect_candidate hsound hne (show 0 < maxBlockTxs by decide) trivial)
  have hproofs := App.inclusion_proofs_complete (a := pairNode) (i := 1) (j := 1) (t := idleTransfer ownKey doubleSign)
    pairChain_own (show 2 ≤ 2 ^ 32 by decide) rfl rfl (unhexN_hexs _)
  refine hproofs.imp_left fun ⟨text, hprove, hpasses, htxid, hstays⟩ => ⟨text, hprove, hpasses, htxid.1, ?_⟩
  have hmem : pairBlock ownKey doubleSign ∈ laterNode.chain.blocks := by
    rw [laterNode, Chain.grow_blocks]
    exact List.mem_append_left _ (List.mem_append_right _ List.mem_cons_self)
  have hlength : laterNode.chain.blocks.length ≤ 2 ^ 32 := by
    rw [laterNode, Chain.grow_blocks]
    exact (show 3 ≤ 2 ^ 32 by decide)
  exact (hstays laterNode hlater hlength hmem).imp_left fun hsame => ⟨hsame.1, hsame.2 none⟩

end

end Chainlite
