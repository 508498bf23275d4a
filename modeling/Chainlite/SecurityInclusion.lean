import Chainlite.ProofText
import Chainlite.SecurityCommitment

/-! What an inclusion proof shows. A path that ends at the root of a block started from one of its nodes, at the
level that the number of siblings says. The reader takes any number of siblings, so a text can pass with an inner
node in the place of a transaction: the root itself needs no sibling at all. With as many siblings as the tree
has levels above the leaves the id is that of a transaction, and only then. -/

open Std

namespace Chainlite

section
variable [Crypto] {p : Params}

/-- The siblings on the lines of a text. -/
def siblings (content : List Char) : List MerkleStep := ((lines content).map trimEnd).filterMap readSibling

/-- The strings hashed for the body of a block and for the path of a text. -/
def inclusionHashed (b : Block) (content : List Char) : List Bytes :=
  b.txs.map Tx.serialize ++ merkleBuffers b.txids ++ pathBuffers (readProof content).txid (siblings content)

namespace Chain

/-- Without a collision, a text that passes names a transaction exactly when its path has the right length. -/
theorem NextBlock.txid_mem_iff {c : Chain} {b : Block} (h : c.NextBlock b) {content : List Char}
    (hpasses : Passes content) (hheader : (readProof content).headerRaw = b.h.serialize)
    (hfree : CollisionFree (inclusionHashed b content)) :
    (readProof content).txid ∈ b.txids ↔ (siblings content).length = Nat.clog 2 b.txs.length := by
  obtain ⟨cb, rest, htxs, -⟩ := h.body
  have hroot : HashTree.climb merkleParent (readProof content).txid (siblings content) =
      HashTree.root merkleParent (zeros 32) b.txids := by
    obtain ⟨-, -, -, happly, -⟩ := (passes_iff rfl hheader).mp hpasses
    rw [readProof_steps] at happly
    exact happly.trans h.merkle.symm
  have hserial : ∀ t ∈ b.txs, t.serialize ∈ inclusionHashed b content := fun t ht =>
    List.mem_append_left _ (List.mem_append_left _ (List.mem_map_of_mem ht))
  have hnode : ∀ pair ∈ HashTree.nodes merkleParent b.txids, parentBuffer pair.1 pair.2 ∈ inclusionHashed b content :=
    fun pair hpair => List.mem_append_left _ (List.mem_append_right _ (List.mem_map_of_mem hpair))
  have hstep : ∀ pair ∈ HashTree.climbPairs merkleParent (readProof content).txid (siblings content),
      parentBuffer pair.1 pair.2 ∈ inclusionHashed b content :=
    fun pair hpair => List.mem_append_right _ (List.mem_map_of_mem hpair)
  rw [← show b.txids.length = b.txs.length from List.length_map _]
  refine HashTree.mem_iff_of_climb_eq_root (by simp [Block.txids, htxs]) hroot ?_ ?_
  · intro pair hpair pair' hpair' heq
    exact Prod.ext_iff.mpr (parentBuffer_injective (hfree _ (hnode pair hpair) _ (hstep pair' hpair') heq))
  · intro id hid pair hpair
    obtain ⟨t, ht, rfl⟩ := List.mem_map.mp hid
    refine txid_ne_merkleParent hfree (hserial t ht) ?_
    rcases List.mem_append.mp hpair with hpair | hpair
    · exact hnode pair hpair
    · exact hstep pair hpair

end Chain

/-- **What a proof that passes shows.** With the header of a block after the genesis block, its id is that of one
of the block's transactions exactly when it has as many siblings as the block's tree has levels above the leaves;
or two of the strings hashed collide. -/
theorem inclusion_sound_iff {c : Chain} (h : Chain.Reachable p c) {i : Nat} {b : Block}
    (hb : c.blocks[i + 1]? = some b) {content : List Char} (hpasses : Passes content)
    (hheader : (readProof content).headerRaw = b.h.serialize) :
    ((readProof content).txid ∈ b.txids ↔ (siblings content).length = Nat.clog 2 b.txs.length) ∨
    Collision (inclusionHashed b content) := by
  have hnext := h.sound.1.valid.nextBlock_succ hb
  rcases collisionFree_or_collision (inclusionHashed b content) with hfree | hcol
  · exact Or.inl (hnext.txid_mem_iff hpasses hheader hfree)
  · exact Or.inr hcol

/-- The text that names the root of a block as a transaction of it. -/
def rootText (b : Block) : String := proofText b.h.merkle b.h.height 0 b.h.hash b.h.serialize []

theorem readProof_rootText (b : Block) : readProof (rootText b).toList =
    { txid := b.h.merkle, blockhash := b.h.hash, height := b.h.height, headerRaw := b.h.serialize, steps := [],
      okHdr := true, okTxid := true, okBh := true } :=
  readProof_proofText b.h.merkle b.h.height 0 b.h.hash b.h.length_serialize []

/-- The root of every block passes for a transaction. -/
theorem passes_rootText {b : Block} (hpow : powOk b.h.hash b.h.bits = true)
    (hheight : b.h.height ≠ UInt64.ofNat (2 ^ 64 - 1)) : Passes (rootText b).toList :=
  (passes_iff (readProof_rootText b) rfl).mpr ⟨⟨rfl, rfl, rfl, hheight⟩, rfl, rfl, rfl, Or.inr hpow⟩

theorem siblings_rootText (b : Block) : siblings (rootText b).toList = [] := by
  rw [siblings, ← readProof_steps, readProof_rootText]

/-! ### A block with two transactions -/

/-- A transfer of nothing to the zero address. -/
def idleTransfer (key : Pub64) (sign : H256 → Sig64) : Tx :=
  let t : Tx := { type := txTransfer, netId := Chain.easyParams.netId, fromKey := key }
  { t with sig := sign t.signHash }

/-- A block with a coinbase and a transfer on the genesis block. -/
def pairBlock (key : Pub64) (sign : H256 → Sig64) : Block :=
  Chain.candidate Chain.easyParams (Chain.coinbases (zeros 20) 0) (zeros 20) [idleTransfer key sign]
    Chain.easyParams.genesisTime 0

def pairChain (key : Pub64) (sign : H256 → Sig64) : Chain := (Chain.coinbases (zeros 20) 0).grow (pairBlock key sign)

theorem connect_pairBlock {key : Pub64} {sign : H256 → Sig64} (hkey : isZero key = false)
    (hsign : ∀ hash, sigVerify key hash (sign hash) = true) :
    (Chain.coinbases (zeros 20) 0).connectBlock Chain.easyClock (pairBlock key sign) = .ok (pairChain key sign) := by
  obtain ⟨hsound, hne⟩ := (Chain.coinbases_reachable (zeros 20) 0).sound
  have hnonce : (((Chain.coinbases (zeros 20) 0).st.credit (zeros 20) Chain.easyParams.reward).acct
      (addrOf key)).nonce = 0 := by
    rw [State.nonce_credit, Chain.coinbases, Chain.grow_st]
    exact congrArg Account.nonce (State.acct_empty _)
  have hsettles : ∀ height, Settles Chain.easyParams height
      ((Chain.coinbases (zeros 20) 0).st.credit (zeros 20) Chain.easyParams.reward) [idleTransfer key sign] :=
    fun height => ⟨TxValid.transfer ⟨rfl, hkey, hsign _⟩ rfl hnonce.symm rfl UInt64.zero_le, trivial⟩
  exact Chain.connect_candidate hsound hne (show 1 < maxBlockTxs by decide) (hsettles _)

theorem pairChain_reachable {key : Pub64} {sign : H256 → Sig64} (hkey : isZero key = false)
    (hsign : ∀ hash, sigVerify key hash (sign hash) = true) :
    Chain.Reachable Chain.easyParams (pairChain key sign) :=
  (Chain.coinbases_reachable (zeros 20) 0).connect (connect_pairBlock hkey hsign)

end

section
local instance inclusionCrypto : Crypto := ownCrypto

/-- The hashes of the two transactions and of their parent. -/
theorem pair_nodup : [(coinbaseTx Chain.easyParams 1 (zeros 20)).txid, (idleTransfer ownKey doubleSign).txid,
    merkleParent (coinbaseTx Chain.easyParams 1 (zeros 20)).txid (idleTransfer ownKey doubleSign).txid].Nodup := by
  decide +kernel

theorem pairBlock_free : CollisionFree
    (inclusionHashed (pairBlock ownKey doubleSign) (rootText (pairBlock ownKey doubleSign)).toList) := by
  have hnodup : ((inclusionHashed (pairBlock ownKey doubleSign)
      (rootText (pairBlock ownKey doubleSign)).toList).map sha256d).Nodup := by
    rw [inclusionHashed, siblings_rootText]
    exact pair_nodup
  exact fun x hx y hy heq => List.inj_on_of_nodup_map hnodup hx hy heq

theorem pairChain_own : Chain.Reachable Chain.easyParams (pairChain ownKey doubleSign) :=
  pairChain_reachable (by decide) verify_doubleSign

theorem passes_pairRoot : Passes (rootText (pairBlock ownKey doubleSign)).toList :=
  passes_rootText (powOk_zero _) (by decide)

theorem headerRaw_pairRoot : (readProof (rootText (pairBlock ownKey doubleSign)).toList).headerRaw =
    (pairBlock ownKey doubleSign).h.serialize := by
  rw [readProof_rootText]

/-- The root of a block with two transactions, no collision among the strings hashed. -/
theorem inclusion_of_root :
    Chain.Reachable Chain.easyParams (pairChain ownKey doubleSign) ∧
    (pairChain ownKey doubleSign).blocks[1]? = some (pairBlock ownKey doubleSign) ∧
    Passes (rootText (pairBlock ownKey doubleSign)).toList ∧
    (readProof (rootText (pairBlock ownKey doubleSign)).toList).headerRaw = (pairBlock ownKey doubleSign).h.serialize ∧
    (readProof (rootText (pairBlock ownKey doubleSign)).toList).txid ∉ (pairBlock ownKey doubleSign).txids ∧
    ¬Collision (inclusionHashed (pairBlock ownKey doubleSign) (rootText (pairBlock ownKey doubleSign)).toList) := by
  have hblock : (pairChain ownKey doubleSign).blocks[0 + 1]? = some (pairBlock ownKey doubleSign) := rfl
  refine ⟨pairChain_own, hblock, passes_pairRoot, headerRaw_pairRoot, ?_, ?_⟩
  · have hnext := pairChain_own.sound.1.valid.nextBlock_succ hblock
    have htwo : (pairBlock ownKey doubleSign).txs.length = 2 := rfl
    rw [hnext.txid_mem_iff passes_pairRoot headerRaw_pairRoot pairBlock_free, siblings_rootText, htwo]
    decide
  · rintro ⟨x, hx, y, hy, hne, heq⟩
    exact hne (pairBlock_free x hx y hy heq)

theorem inclusion_sound_iff_root :
    ((readProof (rootText (pairBlock ownKey doubleSign)).toList).txid ∈ (pairBlock ownKey doubleSign).txids ↔
      (siblings (rootText (pairBlock ownKey doubleSign)).toList).length =
        Nat.clog 2 (pairBlock ownKey doubleSign).txs.length) ∨
    Collision (inclusionHashed (pairBlock ownKey doubleSign) (rootText (pairBlock ownKey doubleSign)).toList) :=
  inclusion_sound_iff (i := 0) pairChain_own rfl passes_pairRoot headerRaw_pairRoot

end

end Chainlite
