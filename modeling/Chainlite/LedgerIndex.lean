import Chainlite.BaseOrderedMap
import Chainlite.SecurityCommitment

/-! The transaction index is exact. It is written last-wins, so what it holds is what was written only if no
two transactions of a chain have one id. Nothing occurs twice on a chain: the nonce of a coinbase is the height
of its block, and the nonces of an account are all different. Ids are then different unless two of the
serializations collide. -/

open Std

namespace Chainlite

section
variable [Crypto] {p : Params}

theorem noncesOf_append (txs txs' : List Tx) (a : Addr20) :
    noncesOf (txs ++ txs') a = noncesOf txs a ++ noncesOf txs' a := by
  simp [noncesOf]

theorem mem_noncesOf {txs : List Tx} {t : Tx} (ht : t ∈ txs) (htype : t.type ≠ txCoinbase) :
    t.nonce.toNat ∈ noncesOf txs t.sender :=
  List.mem_map_of_mem (List.mem_filter.mpr ⟨ht, by simpa using htype⟩)

namespace Chain

/-! ### The entries of the index -/

/-- What `append` writes to the index for a block. -/
def indexEntries (b : Block) : List (H256 × UInt32 × UInt32) :=
  b.txs.zipIdx.map fun entry => (entry.1.txid, b.h.height.toUInt32, UInt32.ofNat entry.2)

theorem indexTxs_eq (m : ExtTreeMap H256 (UInt32 × UInt32)) (b : Block) :
    indexTxs m b = (indexEntries b).foldl (fun m entry => m.insert entry.1 entry.2) m := by
  rw [indexTxs, indexEntries, List.foldl_map]

/-- The index of a chain is written entry by entry in chain order. -/
theorem replay_txidx (bs : List Block) :
    (replay p bs).txidx = (bs.flatMap indexEntries).foldl (fun m entry => m.insert entry.1 entry.2) ∅ := by
  induction bs using List.reverseRecOn with
  | nil => rfl
  | append_singleton bs b ih =>
      rw [replay_snoc, grow_replay, List.flatMap_append, List.foldl_append, ← ih]
      simp [indexTxs_eq]

theorem map_fst_indexEntries (bs : List Block) :
    (bs.flatMap indexEntries).map Prod.fst = (bs.flatMap Block.txs).map Tx.txid := by
  induction bs with
  | nil => rfl
  | cons b rest ih =>
      have hblock : (indexEntries b).map Prod.fst = b.txs.map Tx.txid := by
        rw [indexEntries, List.map_map]
        show b.txs.zipIdx.map (Tx.txid ∘ Prod.fst) = _
        rw [← List.map_map, List.zipIdx_map_fst]
      rw [List.flatMap_cons, List.map_append, hblock, ih, List.flatMap_cons, List.map_append]

theorem mem_indexEntries {bs : List Block} {id : H256} {place : UInt32 × UInt32} :
    (id, place) ∈ bs.flatMap indexEntries ↔ ∃ (i : Nat) (b : Block) (j : Nat) (t : Tx),
      bs[i]? = some b ∧ b.txs[j]? = some t ∧ t.txid = id ∧ place = (b.h.height.toUInt32, UInt32.ofNat j) := by
  constructor
  · intro h
    obtain ⟨b, hb, hentry⟩ := List.mem_flatMap.mp h
    obtain ⟨i, hi⟩ := List.mem_iff_getElem?.mp hb
    obtain ⟨⟨t, j⟩, ht, heq⟩ := List.mem_map.mp hentry
    obtain ⟨rfl, rfl⟩ := Prod.mk.inj heq
    exact ⟨i, b, j, t, hi, List.mem_zipIdx_iff_getElem?.mp ht, rfl, rfl⟩
  · rintro ⟨i, b, j, t, hi, hj, rfl, rfl⟩
    refine List.mem_flatMap.mpr ⟨b, List.mem_of_getElem? hi, ?_⟩
    exact List.mem_map.mpr ⟨(t, j), List.mem_zipIdx_iff_getElem?.mpr hj, rfl⟩

/-! ### Nothing occurs twice -/

/-- The headers and transactions that a chain has hashed, with the header of the genesis block it expects. -/
def ledgerBy (p : Params) (bs : List Block) : List Bytes :=
  (makeGenesis p).h.serialize :: bs.flatMap fun b => b.h.serialize :: b.txs.map Tx.serialize

omit [Crypto] in
theorem headersBy_subset_ledgerBy (bs : List Block) : headersBy p bs ⊆ ledgerBy p bs := by
  refine List.cons_subset_cons _ fun x hx => ?_
  obtain ⟨b, hb, rfl⟩ := List.mem_map.mp hx
  exact List.mem_flatMap.mpr ⟨b, hb, List.mem_cons_self⟩

omit [Crypto] in
theorem tx_mem_ledgerBy {bs : List Block} {t : Tx} (ht : t ∈ bs.flatMap Block.txs) : t.serialize ∈ ledgerBy p bs := by
  obtain ⟨b, hb, ht⟩ := List.mem_flatMap.mp ht
  exact List.mem_cons_of_mem _ (List.mem_flatMap.mpr ⟨b, hb, List.mem_cons_of_mem _ (List.mem_map_of_mem ht)⟩)

theorem ValidBlocks.length_txs_le {bs : List Block} (h : ValidBlocks p bs) :
    (bs.flatMap Block.txs).length ≤ bs.length * maxBlockTxs := by
  rw [List.length_flatMap, ← List.length_map fun b : Block => b.txs.length]
  refine List.sum_le_card_nsmul _ _ fun n hn => ?_
  obtain ⟨b, hb, rfl⟩ := List.mem_map.mp hn
  exact (h.fits b hb).count

/-- A coinbase on a chain carries the height of its block. -/
theorem ValidBlocks.coinbase_nonce {bs : List Block} (h : ValidBlocks p bs) {strings : List Bytes}
    (hfree : CollisionFree strings) (hsub : headersBy p bs ⊆ strings) {i : Nat} {b : Block} (hb : bs[i]? = some b)
    {t : Tx} (ht : t ∈ b.txs) (htype : t.type = txCoinbase) : t.nonce = UInt64.ofNat i := by
  obtain ⟨cb, rest, htxs, -, hnonce, -, hrest⟩ := (h.nextBlock hb ht).txs_eq
  rw [← h.height_getElem hfree hsub hb]
  rw [htxs] at ht
  rcases List.mem_cons.mp ht with rfl | ht
  · exact hnonce
  · exact absurd htype (hrest t ht)

/-- **No transaction occurs twice on a chain.** -/
theorem ValidBlocks.nodup_txs {bs : List Block} (h : ValidBlocks p bs) {strings : List Bytes}
    (hfree : CollisionFree strings) (hsub : headersBy p bs ⊆ strings) (hlen : bs.length < 2 ^ 64)
    (hcount : (bs.flatMap Block.txs).length < 2 ^ 64) : (bs.flatMap Block.txs).Nodup := by
  induction bs using List.reverseRecOn with
  | nil => exact List.nodup_nil
  | append_singleton bs b ih =>
      obtain ⟨hbs, hb⟩ := validBlocks_snoc.mp h
      have hcounted := h.counted hcount
      rw [List.length_append, List.length_singleton] at hlen
      rw [List.flatMap_append, List.flatMap_singleton] at hcount hcounted ⊢
      rw [List.length_append] at hcount
      refine (ih hbs (List.Subset.trans (headersBy_subset (List.subset_append_left _ _)) hsub) (by omega)
        (by omega)).append ?_ ?_
      · by_cases hnil : bs = []
        · rw [(hb.genesis (by rw [replay_blocks, hnil])).txs]
          exact List.nodup_nil
        · exact (hb.next (by rwa [replay_blocks])).nodup
      · intro t hold hnew
        by_cases htype : t.type = txCoinbase
        · obtain ⟨b', hb', ht⟩ := List.mem_flatMap.mp hold
          obtain ⟨i, hi⟩ := List.mem_iff_getElem?.mp hb'
          have hlt : i < bs.length := (List.getElem?_eq_some_iff.mp hi).1
          have hlast : t.nonce = UInt64.ofNat bs.length := h.coinbase_nonce hfree hsub (by simp) hnew htype
          have hfirst : t.nonce = UInt64.ofNat i :=
            h.coinbase_nonce hfree hsub (by rw [List.getElem?_append_left hlt]; exact hi) ht htype
          have heq := congrArg UInt64.toNat (hfirst.symm.trans hlast)
          rw [UInt64.toNat_ofNat', UInt64.toNat_ofNat', Nat.mod_eq_of_lt (by omega), Nat.mod_eq_of_lt (by omega)] at heq
          omega
        · have hnonces : (noncesOf (bs.flatMap Block.txs ++ b.txs) t.sender).Nodup := by
            rw [hcounted]
            exact List.nodup_range
          rw [noncesOf_append] at hnonces
          exact (List.disjoint_of_nodup_append hnonces) (mem_noncesOf hold htype) (mem_noncesOf hnew htype)

/-- The index holds the place of every transaction and nothing else. -/
theorem ValidBlocks.txidx_iff {bs : List Block} (h : ValidBlocks p bs) (hfree : CollisionFree (ledgerBy p bs))
    (hlen : bs.length ≤ 2 ^ 32) {id : H256} {place : UInt32 × UInt32} :
    (replay p bs).txidx[id]? = some place ↔ (id, place) ∈ bs.flatMap indexEntries := by
  have hheaders := headersBy_subset_ledgerBy (p := p) bs
  have hcount : (bs.flatMap Block.txs).length < 2 ^ 64 := by
    have hmax : 2 ^ 32 * maxBlockTxs < 2 ^ 64 := by decide
    exact Nat.lt_of_le_of_lt (h.length_txs_le.trans (Nat.mul_le_mul_right _ hlen)) hmax
  have hfits : ∀ t ∈ bs.flatMap Block.txs, t.Fits := by
    intro t ht
    obtain ⟨b, hb, ht⟩ := List.mem_flatMap.mp ht
    exact (h.fits b hb).payloads t ht
  have hids : ((bs.flatMap indexEntries).map Prod.fst).Nodup := by
    rw [map_fst_indexEntries]
    refine List.Nodup.map_on ?_ (h.nodup_txs hfree hheaders (by omega) hcount)
    exact fun t ht u hu => txid_injOn hfree hfits (fun t ht => tx_mem_ledgerBy ht) ht hu
  rw [replay_txidx, OrderedMap.getElem?_foldl_insert ∅ hids]
  simp

/-- The height of a block and the index of a transaction, as they are stored. -/
theorem ValidBlocks.place_eq {bs : List Block} (h : ValidBlocks p bs) (hfree : CollisionFree (ledgerBy p bs))
    (hlen : bs.length ≤ 2 ^ 32) {i j : Nat} {b : Block} {t : Tx} (hb : bs[i]? = some b) (ht : b.txs[j]? = some t) :
    b.h.height.toNat = i ∧ b.h.height.toUInt32.toNat = i ∧ (UInt32.ofNat j).toNat = j := by
  have hi := (List.getElem?_eq_some_iff.mp hb).1
  have hj := (List.getElem?_eq_some_iff.mp ht).1
  have hcount := (h.fits b (List.mem_of_getElem? hb)).count
  have hmax : maxBlockTxs < 2 ^ 32 := by decide
  rw [h.height_getElem hfree (headersBy_subset_ledgerBy bs) hb, UInt64.toNat_toUInt32, UInt64.toNat_ofNat',
    UInt32.toNat_ofNat']
  refine ⟨Nat.mod_eq_of_lt (by omega), ?_, Nat.mod_eq_of_lt (by omega)⟩
  rw [Nat.mod_eq_of_lt (show i < 2 ^ 64 by omega), Nat.mod_eq_of_lt (by omega)]

/-- **The transaction index is exact.** With heights below `2 ^ 32`, the blocks stand at their heights and are
linked by their hashes, every transaction is found at its place, and every place in the index is that of a
transaction with the id it is filed under; or two of the chain's headers and transactions have one hash. -/
theorem txidx_exact {c : Chain} (h : Reachable p c) (hlen : c.blocks.length ≤ 2 ^ 32) :
    (c.hashes = c.blocks.map (fun b => b.h.hash) ∧
      (∀ (i : Nat) (b : Block), c.blocks[i]? = some b → b.h.height.toNat = i) ∧
      (∀ (i : Nat) (b : Block), c.blocks[i + 1]? = some b → c.hashes[i]? = some b.h.prev) ∧
      (∀ (i : Nat) (b : Block) (j : Nat) (t : Tx), c.blocks[i]? = some b → b.txs[j]? = some t →
        ∃ place, c.txidx[t.txid]? = some place ∧ place.1.toNat = i ∧ place.2.toNat = j) ∧
      ∀ id place, c.txidx[id]? = some place → ∃ (b : Block) (t : Tx), c.blocks[place.1.toNat]? = some b ∧
        b.txs[place.2.toNat]? = some t ∧ t.txid = id) ∨
    Collision (ledgerBy p c.blocks) := by
  obtain ⟨hsound, -⟩ := h.sound
  have hvalid := hsound.valid
  rcases collisionFree_or_collision (ledgerBy p c.blocks) with hfree | hcol
  · refine Or.inl ⟨hsound.hashes, fun i b hb => ?_, fun i b hb => ?_, fun i b j t hb ht => ?_, fun id place hplace => ?_⟩
    · have hi := (List.getElem?_eq_some_iff.mp hb).1
      rw [hvalid.height_getElem hfree (headersBy_subset_ledgerBy _) hb, UInt64.toNat_ofNat']
      exact Nat.mod_eq_of_lt (by omega)
    · have hi := (List.getElem?_eq_some_iff.mp hb).1
      have htake : c.blocks.take (i + 1) = c.blocks.take i ++ [c.blocks[i]] := List.take_succ_eq_append_getElem (by omega)
      rw [(hvalid.nextBlock_succ hb).prev, htake, replay_tipHash_snoc, hsound.hashes]
      simp [show i < c.blocks.length by omega]
    · obtain ⟨-, hheight, hindex⟩ := hvalid.place_eq hfree hlen hb ht
      refine ⟨(b.h.height.toUInt32, UInt32.ofNat j), ?_, hheight, hindex⟩
      rw [hsound.txidx, hvalid.txidx_iff hfree hlen]
      exact mem_indexEntries.mpr ⟨i, b, j, t, hb, ht, rfl, rfl⟩
    · rw [hsound.txidx, hvalid.txidx_iff hfree hlen] at hplace
      obtain ⟨i, b, j, t, hb, ht, hid, rfl⟩ := mem_indexEntries.mp hplace
      obtain ⟨-, hheight, hindex⟩ := hvalid.place_eq hfree hlen hb ht
      exact ⟨b, t, by rw [hheight]; exact hb, by rw [hindex]; exact ht, hid⟩
  · exact Or.inr hcol

end Chain

end

section
local instance indexCrypto : Crypto := Sha.crypto fun _ _ _ => false

theorem txidx_exact_two_blocks :
    (∀ id place, (Chain.coinbases (zeros 20) 2).txidx[id]? = some place → ∃ (b : Block) (t : Tx),
      (Chain.coinbases (zeros 20) 2).blocks[place.1.toNat]? = some b ∧ b.txs[place.2.toNat]? = some t ∧ t.txid = id) ∨
    Collision (Chain.ledgerBy Chain.easyParams (Chain.coinbases (zeros 20) 2).blocks) :=
  (Chain.txidx_exact (Chain.coinbases_reachable (zeros 20) 2) (by rw [Chain.length_coinbases]; decide)).imp_left
    fun h => h.2.2.2.2

end

end Chainlite
