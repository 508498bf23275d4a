import Chainlite.ChainClock
import Chainlite.LedgerNonces

/-! The tip hash commits to the whole ledger. Two chains with one tip are compared from their tips down:
equal header hashes are equal headers, the Merkle root of a header fixes the body up to the repetition of
its end, and a body with a repeated transaction is not valid. What stands in the way of any of these steps
is a pair of distinct strings, both hashed by the chains, with the same hash. -/

open Std

namespace Chainlite

section
variable [Crypto] {p : Params}

/-- Two distinct strings of the list have one hash. -/
def Collision (strings : List Bytes) : Prop :=
  ∃ x ∈ strings, ∃ y ∈ strings, x ≠ y ∧ sha256d x = sha256d y

def CollisionFree (strings : List Bytes) : Prop :=
  ∀ x ∈ strings, ∀ y ∈ strings, sha256d x = sha256d y → x = y

theorem collisionFree_or_collision (strings : List Bytes) : CollisionFree strings ∨ Collision strings := by
  by_cases h : Collision strings
  · exact Or.inr h
  · refine Or.inl fun x hx y hy heq => ?_
    by_contra hne
    exact h ⟨x, hx, y, hy, hne, heq⟩

theorem CollisionFree.mono {strings strings' : List Bytes} (h : CollisionFree strings')
    (hsub : strings ⊆ strings') : CollisionFree strings :=
  fun x hx y hy => h x (hsub hx) y (hsub hy)

/-! ### Bodies -/

/-- The nonce of a settled transaction is its sender's counter, advanced by some of those before it. -/
theorem Settles.nonce_of_mem {height : UInt64} {st : State} {txs : List Tx} (h : Settles p height st txs)
    {t : Tx} (ht : t ∈ txs) :
    ∃ m < txs.length, t.nonce = (st.acct t.sender).nonce + UInt64.ofNat m := by
  induction txs generalizing st with
  | nil => simp at ht
  | cons u rest ih =>
      obtain ⟨hnonce, heffect⟩ := h.1.nonce_effect h.1.ne_coinbase
      rcases List.mem_cons.mp ht with rfl | ht
      · exact ⟨0, by simp, by simpa using hnonce⟩
      · obtain ⟨m, hm, hlater⟩ := ih h.2 ht
        rw [heffect t.sender] at hlater
        split at hlater
        · refine ⟨m + 1, by simpa using hm, ?_⟩
          rw [hlater, UInt64.ofNat_add, UInt64.add_assoc, UInt64.add_comm 1]
          rfl
        · exact ⟨m, Nat.lt_of_lt_of_le hm (by simp), hlater⟩

/-- Nothing in a settled list is repeated: the nonce of a transaction has been passed when it could
come again. -/
theorem Settles.nodup {height : UInt64} {st : State} {txs : List Tx} (h : Settles p height st txs)
    (hlen : txs.length < 2 ^ 64) : txs.Nodup := by
  induction txs generalizing st with
  | nil => exact List.nodup_nil
  | cons t rest ih =>
      rw [List.length_cons] at hlen
      refine List.nodup_cons.mpr ⟨fun hmem => ?_, ih h.2 (by omega)⟩
      obtain ⟨hnonce, heffect⟩ := h.1.nonce_effect h.1.ne_coinbase
      obtain ⟨m, hm, hlater⟩ := h.2.nonce_of_mem hmem
      rw [heffect t.sender, if_pos rfl, ← hnonce] at hlater
      have hzero : 1 + UInt64.ofNat m = 0 := by
        rw [UInt64.add_assoc] at hlater
        exact left_eq_add.mp hlater
      have hnat := congrArg UInt64.toNat hzero
      rw [UInt64.toNat_add, UInt64.toNat_ofNat'] at hnat
      have : (1 : UInt64).toNat = 1 := rfl
      have : (0 : UInt64).toNat = 0 := rfl
      omega

/-- A coinbase and a settled list after it. -/
theorem nodup_body {height : UInt64} {st st' : State} {cb : Tx} {rest : List Tx}
    (hcb : TxValid st p height true cb) (hrest : Settles p height st' rest) (hlen : rest.length < 2 ^ 64) :
    (cb :: rest).Nodup := by
  refine List.nodup_cons.mpr ⟨fun hmem => ?_, hrest.nodup hlen⟩
  obtain ⟨st, hvalid⟩ := hrest.valid_of_mem hmem
  cases hcb with
  | coinbase _ htype => exact hvalid.ne_coinbase htype

theorem fits_body {height : UInt64} {st st' : State} {cb : Tx} {rest : List Tx}
    (hcb : TxValid st p height true cb) (hrest : Settles p height st' rest) : ∀ t ∈ cb :: rest, t.Fits := by
  intro t ht
  rcases List.mem_cons.mp ht with rfl | ht
  · exact hcb.fits
  · obtain ⟨st, hvalid⟩ := hrest.valid_of_mem ht
    exact hvalid.fits

theorem Chain.NextBlock.nodup {c : Chain} {b : Block} (h : c.NextBlock b) : b.txs.Nodup := by
  obtain ⟨cb, rest, htxs, hcb, hrest⟩ := h.body
  have hcount := h.count
  rw [htxs, List.length_cons] at hcount
  have hmax : maxBlockTxs < 2 ^ 64 := by decide
  rw [htxs]
  exact nodup_body hcb hrest (by omega)

/-- An accepted block is within the limits of the parser. -/
theorem Chain.NextBlock.fits {c : Chain} {b : Block} (h : c.NextBlock b) : b.Fits := by
  obtain ⟨cb, rest, htxs, hcb, hrest⟩ := h.body
  exact ⟨h.count, htxs ▸ fits_body hcb hrest⟩

theorem Chain.ValidBlocks.fits {bs : List Block} (h : Chain.ValidBlocks p bs) : ∀ b ∈ bs, b.Fits := by
  intro b hb
  obtain ⟨before, after, rfl⟩ := List.append_of_mem hb
  have haccepts := h before b after rfl
  by_cases hnil : before = []
  · subst hnil
    have htxs := (haccepts.genesis rfl).txs
    exact ⟨by simp [htxs], by simp [htxs]⟩
  · exact (haccepts.next (by rwa [replay_blocks])).fits

/-- The blocks after the genesis block. -/
theorem Chain.ValidBlocks.nextBlock_succ {bs : List Block} (h : Chain.ValidBlocks p bs) {i : Nat} {b : Block}
    (hb : bs[i + 1]? = some b) : (Chain.replay p (bs.take (i + 1))).NextBlock b := by
  obtain ⟨hi, rfl⟩ := List.getElem?_eq_some_iff.mp hb
  have haccepts := h (bs.take (i + 1)) bs[i + 1] (bs.drop (i + 2)) (by simp)
  refine haccepts.next ?_
  rw [Chain.replay_blocks, ← List.length_pos_iff, List.length_take]
  omega

/-- A block with transactions is not the genesis block. -/
theorem Chain.ValidBlocks.pos_of_mem {bs : List Block} (h : Chain.ValidBlocks p bs) {i : Nat} {b : Block} (hb : bs[i]? = some b)
    {t : Tx} (ht : t ∈ b.txs) : 0 < i := by
  refine Nat.pos_of_ne_zero ?_
  rintro rfl
  cases bs with
  | nil => cases hb
  | cons b' rest =>
      cases hb
      have haccepts := h [] b rest rfl
      rw [(haccepts.genesis rfl).txs] at ht
      cases ht

theorem Chain.ValidBlocks.nextBlock {bs : List Block} (h : Chain.ValidBlocks p bs) {i : Nat} {b : Block} (hb : bs[i]? = some b)
    {t : Tx} (ht : t ∈ b.txs) : (Chain.replay p (bs.take i)).NextBlock b := by
  obtain ⟨m, rfl⟩ := Nat.exists_eq_add_one.mpr (h.pos_of_mem hb ht)
  exact h.nextBlock_succ hb

theorem Block.serialize_mem_hashed (b : Block) {t : Tx} (ht : t ∈ b.txs) : t.serialize ∈ b.hashed :=
  List.mem_append_left _ (List.mem_cons_of_mem _ (List.mem_map_of_mem ht))

theorem txid_injOn {txs : List Tx} {strings : List Bytes} (hfree : CollisionFree strings)
    (hfits : ∀ t ∈ txs, t.Fits) (hmem : ∀ t ∈ txs, t.serialize ∈ strings) {t u : Tx} (ht : t ∈ txs)
    (hu : u ∈ txs) (heq : t.txid = u.txid) : t = u :=
  Tx.serialize_injective (hfits t ht) (hfits u hu) (hfree _ (hmem t ht) _ (hmem u hu) heq)

/-- A transaction is longer than the buffer of a Merkle node, so no leaf is an inner node. -/
theorem txid_ne_merkleParent {t : Tx} {l r : H256} {strings : List Bytes} (hfree : CollisionFree strings)
    (ht : t.serialize ∈ strings) (hbuf : parentBuffer l r ∈ strings) : t.txid ≠ merkleParent l r := by
  intro heq
  have hlen := congrArg List.length (hfree _ ht _ hbuf heq)
  rw [Tx.length_serialize, length_parentBuffer] at hlen
  omega

/-- **The Merkle root commits to a body** in which nothing is repeated. -/
theorem txs_eq_of_merkleRoot {txs txs' : List Tx} {strings : List Bytes} (hfree : CollisionFree strings)
    (hfits : ∀ t ∈ txs ++ txs', t.Fits) (hne : txs ≠ []) (hne' : txs' ≠ []) (hnodup : txs.Nodup)
    (hnodup' : txs'.Nodup) (hserial : ∀ t ∈ txs ++ txs', t.serialize ∈ strings)
    (hbuffers : ∀ x ∈ merkleBuffers (txs.map Tx.txid) ++ merkleBuffers (txs'.map Tx.txid), x ∈ strings)
    (hroot : merkleRoot (txs.map Tx.txid) = merkleRoot (txs'.map Tx.txid)) : txs = txs' := by
  have hbuffer : ∀ pair ∈ HashTree.nodes merkleParent (txs.map Tx.txid) ++
      HashTree.nodes merkleParent (txs'.map Tx.txid), parentBuffer pair.1 pair.2 ∈ strings := by
    intro pair hpair
    apply hbuffers
    rcases List.mem_append.mp hpair with hpair | hpair
    · exact List.mem_append_left _ (List.mem_map_of_mem hpair)
    · exact List.mem_append_right _ (List.mem_map_of_mem hpair)
  have hinj : ∀ t ∈ txs ++ txs', ∀ u ∈ txs ++ txs', t.txid = u.txid → t = u :=
    fun t ht u hu => txid_injOn hfree hfits hserial ht hu
  have htwins : HashTree.Twins (txs.map Tx.txid) (txs'.map Tx.txid) := by
    refine HashTree.twins_of_root_eq (by simpa using hne) (by simpa using hne') ?_ ?_ hroot
    · intro pair hpair pair' hpair' heq
      have := hfree _ (hbuffer pair hpair) _ (hbuffer pair' hpair') heq
      exact Prod.ext_iff.mpr (parentBuffer_injective this)
    · intro x hx pair hpair
      rw [← List.map_append] at hx
      obtain ⟨t, ht, rfl⟩ := List.mem_map.mp hx
      exact txid_ne_merkleParent hfree (hserial t ht) (hbuffer pair hpair)
  have hids : txs.map Tx.txid = txs'.map Tx.txid := by
    refine htwins.eq_of_nodup ?_ ?_
    · exact List.Nodup.map_on (fun t ht u hu => hinj t (by simp [ht]) u (by simp [hu])) hnodup
    · exact List.Nodup.map_on (fun t ht u hu => hinj t (by simp [ht]) u (by simp [hu])) hnodup'
  have hpre : txs <+: txs' := HashTree.map_isPrefix_of_injOn
    (fun t ht u hu => hinj t (by simp [ht]) u (by simp [hu])) (hids ▸ List.prefix_refl _)
  exact hpre.eq_of_length (by simpa using congrArg List.length hids)

/-- Two blocks that may stand on a chain have one header only if they are one block. -/
theorem Chain.NextBlock.eq_of_header {c c' : Chain} {b b' : Block} (h : c.NextBlock b) (h' : c'.NextBlock b')
    {strings : List Bytes} (hfree : CollisionFree strings) (hsub : b.hashed ⊆ strings)
    (hsub' : b'.hashed ⊆ strings) (heq : b.h = b'.h) : b = b' := by
  obtain ⟨cb, rest, htxs, -⟩ := h.body
  obtain ⟨cb', rest', htxs', -⟩ := h'.body
  have hbody : b.txs = b'.txs := by
    refine txs_eq_of_merkleRoot hfree ?_ (by simp [htxs]) (by simp [htxs']) h.nodup h'.nodup ?_ ?_ ?_
    · intro t ht
      rcases List.mem_append.mp ht with ht | ht
      · exact h.fits.payloads t ht
      · exact h'.fits.payloads t ht
    · intro t ht
      rcases List.mem_append.mp ht with ht | ht
      · exact hsub (b.serialize_mem_hashed ht)
      · exact hsub' (b'.serialize_mem_hashed ht)
    · intro x hx
      rcases List.mem_append.mp hx with hx | hx
      · exact hsub (List.mem_append_right _ hx)
      · exact hsub' (List.mem_append_right _ hx)
    · exact h.merkle.trans (heq ▸ h'.merkle.symm)
  cases b
  cases b'
  simp_all

/-! ### Chains -/

namespace Chain

/-- The headers a chain has hashed: that of the genesis block it expects, and those of its blocks. -/
def headersBy (p : Params) (bs : List Block) : List Bytes :=
  (makeGenesis p).h.serialize :: bs.map fun b => b.h.serialize

/-- Every string a chain has hashed. -/
def hashedBy (p : Params) (bs : List Block) : List Bytes :=
  (makeGenesis p).h.serialize :: bs.flatMap Block.hashed

theorem hashed_subset {bs : List Block} {b : Block} (hb : b ∈ bs) : b.hashed ⊆ hashedBy p bs :=
  fun _ hx => List.mem_cons_of_mem _ (List.mem_flatMap.mpr ⟨b, hb, hx⟩)

theorem header_mem_hashedBy {bs : List Block} {b : Block} (hb : b ∈ bs) : b.h.serialize ∈ hashedBy p bs :=
  hashed_subset hb (by simp [Block.hashed])

omit [Crypto] in
theorem header_mem_headersBy {bs : List Block} {b : Block} (hb : b ∈ bs) : b.h.serialize ∈ headersBy p bs :=
  List.mem_cons_of_mem _ (List.mem_map_of_mem hb)

omit [Crypto] in
theorem headersBy_subset {bs bs' : List Block} (h : bs ⊆ bs') : headersBy p bs ⊆ headersBy p bs' :=
  List.cons_subset_cons _ (List.map_subset _ h)

theorem headersBy_subset_hashedBy (bs : List Block) : headersBy p bs ⊆ hashedBy p bs := by
  intro x hx
  rcases List.mem_cons.mp hx with rfl | hx
  · exact List.mem_cons_self
  · obtain ⟨b, hb, rfl⟩ := List.mem_map.mp hx
    exact header_mem_hashedBy hb

theorem hashedBy_subset {bs bs' : List Block} (h : bs ⊆ bs') : hashedBy p bs ⊆ hashedBy p bs' := by
  refine List.cons_subset_cons _ fun x hx => ?_
  obtain ⟨b, hb, hxb⟩ := List.mem_flatMap.mp hx
  exact List.mem_flatMap.mpr ⟨b, h hb, hxb⟩

theorem hashedBy_append_left (bs bs' : List Block) : hashedBy p bs ⊆ hashedBy p (bs ++ bs') :=
  hashedBy_subset (List.subset_append_left _ _)

section
variable {strings : List Bytes} (hfree : CollisionFree strings)
include hfree

theorem header_eq_of_hash {g h : BlockHeader} (hg : g.serialize ∈ strings) (hh : h.serialize ∈ strings)
    (heq : g.hash = h.hash) : g = h :=
  BlockHeader.serialize_injective (hfree _ hg _ hh heq)

/-- Without a collision the first block is the genesis block itself. -/
theorem GenesisBlock.eq {b : Block} {bs : List Block} (h : GenesisBlock p b) (hb : b ∈ bs)
    (hsub : headersBy p bs ⊆ strings) : b = makeGenesis p := by
  have hheader : b.h = (makeGenesis p).h :=
    header_eq_of_hash hfree (hsub (header_mem_headersBy hb)) (hsub List.mem_cons_self) h.hash
  cases b with
  | mk header txs =>
      simp only at hheader
      rw [hheader, show txs = [] from h.txs]
      rfl

/-- Without a collision the heights count from zero. -/
theorem ValidBlocks.height {bs : List Block} (h : ValidBlocks p bs) (hsub : headersBy p bs ⊆ strings)
    (hne : bs ≠ []) : (replay p bs).height = UInt64.ofNat (bs.length - 1) := by
  refine ValidBlocks.induction (motive := fun bs => headersBy p bs ⊆ strings → bs ≠ [] →
    (replay p bs).height = UInt64.ofNat (bs.length - 1)) (fun _ hne => absurd rfl hne) ?_ h hsub hne
  intro bs b _ hb ih hsub _
  rw [replay_height_snoc, List.length_append, List.length_singleton, Nat.add_sub_cancel]
  by_cases hnil : bs = []
  · subst hnil
    rw [(hb.genesis rfl).eq hfree (by simp) hsub]
    rfl
  · have hprev := ih (fun x hx => hsub (headersBy_subset (List.subset_append_left _ _) hx)) hnil
    rw [(hb.next (by rwa [replay_blocks])).height, hprev]
    exact ofNat_pred_add_one (List.length_pos_of_ne_nil hnil)

/-- Without a collision every block has the height of its position. -/
theorem ValidBlocks.height_getElem {bs : List Block} (h : ValidBlocks p bs) (hsub : headersBy p bs ⊆ strings) {i : Nat}
    {b : Block} (hb : bs[i]? = some b) : b.h.height = UInt64.ofNat i := by
  obtain ⟨hi, rfl⟩ := List.getElem?_eq_some_iff.mp hb
  have htake : bs.take (i + 1) = bs.take i ++ [bs[i]] := List.take_succ_eq_append_getElem hi
  have hpre : bs.take (i + 1) <+: bs := List.take_prefix _ _
  have hheight := (h.of_isPrefix hpre).height hfree
    (List.Subset.trans (headersBy_subset hpre.subset) hsub) (by rw [htake]; exact List.concat_ne_nil _ _)
  rw [htake, replay_height_snoc, List.length_append, List.length_take_of_le hi.le] at hheight
  exact hheight

/-- A genesis block on one side and a later block on the other have different heights. -/
theorem genesis_ne_next {g b : Block} {bs : List Block} (hg : GenesisBlock p g) (hgsub : headersBy p [g] ⊆ strings)
    (h : ValidBlocks p (bs ++ [b])) (hsub : headersBy p (bs ++ [b]) ⊆ strings) (hne : bs ≠ [])
    (hlen : (bs ++ [b]).length < 2 ^ 64) : g.h ≠ b.h := by
  intro heq
  have hheight := h.height hfree hsub (by simp)
  rw [replay_height_snoc, ← heq, hg.eq hfree List.mem_cons_self hgsub] at hheight
  have hzero : bs.length % 2 ^ 64 = 0 := by
    have := congrArg UInt64.toNat hheight
    rw [UInt64.toNat_ofNat', List.length_append, List.length_singleton, Nat.add_sub_cancel] at this
    exact this.symm
  rw [List.length_append, List.length_singleton] at hlen
  rw [Nat.mod_eq_of_lt (by omega)] at hzero
  exact hne (List.eq_nil_of_length_eq_zero hzero)

/-- **One tip, one chain.** -/
theorem ValidBlocks.eq_of_tipHash {bs bs' : List Block} (h : ValidBlocks p bs) (h' : ValidBlocks p bs')
    (hsub : hashedBy p bs ⊆ strings) (hsub' : hashedBy p bs' ⊆ strings) (hne : bs ≠ []) (hne' : bs' ≠ [])
    (hlen : bs.length < 2 ^ 64) (hlen' : bs'.length < 2 ^ 64)
    (htip : (replay p bs).tipHash = (replay p bs').tipHash) : bs = bs' := by
  -- from the tips down: the induction is on one list, the other shrinks with it
  induction bs using List.reverseRecOn generalizing bs' with
  | nil => exact absurd rfl hne
  | append_singleton init b ih =>
      obtain ⟨init', b', rfl⟩ := (List.eq_nil_or_concat' bs').resolve_left hne'
      obtain ⟨hinit, hb⟩ := validBlocks_snoc.mp h
      obtain ⟨hinit', hb'⟩ := validBlocks_snoc.mp h'
      rw [replay_tipHash_snoc, replay_tipHash_snoc] at htip
      have hheader : b.h = b'.h := header_eq_of_hash hfree (hsub (header_mem_hashedBy (by simp)))
        (hsub' (header_mem_hashedBy (by simp))) htip
      have hlast : hashedBy p [b] ⊆ strings := fun x hx => hsub (hashedBy_subset (by simp) hx)
      have hlast' : hashedBy p [b'] ⊆ strings := fun x hx => hsub' (hashedBy_subset (by simp) hx)
      have hheaders := List.Subset.trans (headersBy_subset_hashedBy _) hsub
      have hheaders' := List.Subset.trans (headersBy_subset_hashedBy _) hsub'
      have hgenesis := List.Subset.trans (headersBy_subset_hashedBy _) hlast
      have hgenesis' := List.Subset.trans (headersBy_subset_hashedBy _) hlast'
      by_cases hnil : init = [] <;> by_cases hnil' : init' = []
      · subst hnil hnil'
        rw [(hb.genesis rfl).eq hfree List.mem_cons_self hgenesis,
          (hb'.genesis rfl).eq hfree List.mem_cons_self hgenesis']
      · subst hnil
        exact absurd hheader (genesis_ne_next hfree (hb.genesis rfl) hgenesis h' hheaders' hnil' hlen')
      · subst hnil'
        exact absurd hheader.symm (genesis_ne_next hfree (hb'.genesis rfl) hgenesis' h hheaders hnil hlen)
      · have hnext := hb.next (by rwa [replay_blocks])
        have hnext' := hb'.next (by rwa [replay_blocks])
        have hblock : b = b' := hnext.eq_of_header hnext' hfree
          (fun x hx => hlast (hashed_subset List.mem_cons_self hx))
          (fun x hx => hlast' (hashed_subset List.mem_cons_self hx)) hheader
        have hprev : (replay p init).tipHash = (replay p init').tipHash := by
          rw [← hnext.prev, ← hnext'.prev, hheader]
        rw [List.length_append, List.length_singleton] at hlen hlen'
        rw [hblock, ih hinit hinit' (fun x hx => hsub (hashedBy_append_left _ _ hx))
          (fun x hx => hsub' (hashedBy_append_left _ _ hx)) hnil hnil' (by omega) (by omega) hprev]

end

/-- **The tip hash commits to the ledger.** Two chains with one tip hash agree on their blocks and on all
that is derived from them, or they have hashed two distinct strings to one value; the same goes for two
bodies connected to one chain under one header. -/
theorem tip_commits_to_ledger {c c' : Chain} (h : Reachable p c) (h' : Reachable p c')
    (hlen : c.blocks.length < 2 ^ 64) (hlen' : c'.blocks.length < 2 ^ 64) :
    (c.tipHash = c'.tipHash →
      SameLedger c c' ∨ Collision (hashedBy p c.blocks ++ hashedBy p c'.blocks)) ∧
    ∀ now now' b b' c₁ c₁', c.connectBlock now b = .ok c₁ → c.connectBlock now' b' = .ok c₁' → b.h = b'.h →
      b.txs = b'.txs ∨ Collision (b.hashed ++ b'.hashed) := by
  obtain ⟨hsound, hne⟩ := h.sound
  obtain ⟨hsound', hne'⟩ := h'.sound
  refine ⟨fun htip => ?_, fun now now' b b' c₁ c₁' hb hb' hheader => ?_⟩
  · rcases collisionFree_or_collision (hashedBy p c.blocks ++ hashedBy p c'.blocks) with hfree | hcol
    · rw [hsound.tipHash, hsound'.tipHash] at htip
      have hblocks := hsound.valid.eq_of_tipHash hfree hsound'.valid (List.subset_append_left _ _)
        (List.subset_append_right _ _) hne hne' hlen hlen' htip
      exact Or.inl (hsound.sameLedger hsound' hblocks)
    · exact Or.inr hcol
  · rcases collisionFree_or_collision (b.hashed ++ b'.hashed) with hfree | hcol
    · obtain ⟨haccepts, -⟩ := connectBlock_ok_iff.mp hb
      obtain ⟨haccepts', -⟩ := connectBlock_ok_iff.mp hb'
      have := (haccepts.next hne).eq_of_header (haccepts'.next hne) hfree (List.subset_append_left _ _)
        (List.subset_append_right _ _) hheader
      exact Or.inl (by rw [this])
    · exact Or.inr hcol

end Chain

end

section
local instance commitmentCrypto : Crypto := Sha.crypto fun _ _ _ => false

/-- Two blocks connected one by one, and the same blocks adopted from a candidate. -/
theorem tip_commits_to_ledger_adopted : ∃ c' fork,
    (Chain.coinbases (zeros 20) 0).tryReplace (fun _ => Chain.easyClock) (Chain.coinbases (zeros 20) 2).blocks =
      .ok (c', fork) ∧
    (Chain.SameLedger (Chain.coinbases (zeros 20) 2) c' ∨
      Collision (Chain.hashedBy Chain.easyParams (Chain.coinbases (zeros 20) 2).blocks ++
        Chain.hashedBy Chain.easyParams c'.blocks)) := by
  have hstart := Chain.coinbases_reachable (zeros 20) 0
  have hconnected := Chain.coinbases_reachable (zeros 20) 2
  obtain ⟨hsound, hne⟩ := hconnected.sound
  have hwork : (Chain.coinbases (zeros 20) 0).work < (Chain.replay Chain.easyParams (Chain.coinbases (zeros 20) 2).blocks).work := by
    rw [← hsound.work]
    exact (show (1 : UInt64) < 3 by decide)
  obtain ⟨c', fork, hreplace⟩ := hstart.sound.1.tryReplace_ok hsound.valid hne
    (fun _ => Chain.coinbases_timely (zeros 20) 2) hwork
  obtain ⟨hsound', hblocks, -⟩ := Chain.Sound.tryReplace hstart.sound.1.params hreplace
  have htip : (Chain.coinbases (zeros 20) 2).tipHash = c'.tipHash := by
    rw [hsound.tipHash, hsound'.tipHash, hblocks]
  have hlength : (Chain.coinbases (zeros 20) 2).blocks.length < 2 ^ 64 := by
    rw [Chain.length_coinbases]
    decide
  exact ⟨c', fork, hreplace, (Chain.tip_commits_to_ledger hconnected (hstart.replace hreplace) hlength
    (by rw [hblocks]; exact hlength)).1 htip⟩

end

end Chainlite
