import Chainlite.LedgerConservation
import Chainlite.Mempool

/-! A template built by the node is a valid block. `collect` validates against the state without the
coinbase, `connectBlock` applies the coinbase first: what settles on a state settles on a richer one, as
long as the supply leaves room for every sum. -/

open Std

namespace Chainlite

section
variable [Crypto] {p : Params} {height : UInt64}

/-! ### States with the same accounts -/

/-- The states read the same; one of them may hold more empty accounts. -/
def State.Same (st st' : State) : Prop := ∀ a, st.acct a = st'.acct a

namespace State.Same

omit [Crypto]
variable {st st' : State}

theorem refl (st : State) : Same st st := fun _ => rfl

theorem trans {st'' : State} (h : Same st st') (h' : Same st' st'') : Same st st'' :=
  fun a => (h a).trans (h' a)

theorem credit (h : Same st st') (a : Addr20) (v : UInt64) : Same (st.credit a v) (st'.credit a v) := by
  intro b
  rw [State.credit, State.credit, acct_insert, acct_insert, h a, h b]

theorem debit (h : Same st st') (a : Addr20) (v : UInt64) : Same (st.debit a v) (st'.debit a v) := by
  intro b
  rw [State.debit, State.debit, acct_insert, acct_insert, h a, h b]

theorem bump (h : Same st st') (a : Addr20) : Same (st.bump a) (st'.bump a) := by
  intro b
  rw [State.bump, State.bump, acct_insert, acct_insert, h a, h b]

theorem touch (h : Same st st') (a : Addr20) : Same (st.touch a) (st'.touch a) := by
  intro b
  rw [acct_touch, acct_touch, h b]

end State.Same

theorem State.Same.effect {st st' : State} (h : State.Same st st') (t : Tx) :
    State.Same (st.effect t) (st'.effect t) := by
  unfold State.effect
  split
  · exact h.credit _ _
  · split
    · exact (((h.touch _).debit _ _).credit _ _).bump _
    · exact (h.touch _).bump _

theorem TxValid.congr {st st' : State} {first : Bool} {t : Tx} (hsame : State.Same st st')
    (h : TxValid st p height first t) : TxValid st' p height first t := by
  cases h with
  | coinbase hnet htype hfrom hsig hpay hamt hnonce =>
      exact .coinbase hnet htype hfrom hsig hpay hamt hnonce
  | transfer hsigned htype hnonce hpay hbal =>
      exact .transfer hsigned htype (by rw [← hsame]; exact hnonce) hpay (by rw [← hsame]; exact hbal)
  | record hsigned htype hnonce hamt hpay hsize =>
      exact .record hsigned htype (by rw [← hsame]; exact hnonce) hamt hpay hsize

/-- A transaction that does not apply leaves the accounts as they were. -/
theorem applyTx_error_same {st st' : State} {t : Tx} {first : Bool} {err : TxError}
    (h : applyTx st t p height first = (some err, st')) : State.Same st' st := by
  have hcoinbase : ∀ {e st₁}, applyCoinbase st t p height first = (some e, st₁) → st₁ = st := by
    intro e st₁ h
    unfold applyCoinbase at h
    split_ifs at h <;> grind
  have hbyType : ∀ {e st₁ st₂}, applyByType st₂ t t.sender = (some e, st₁) → st₁ = st₂ := by
    intro e st₁ st₂ h
    unfold applyByType at h
    split_ifs at h <;> grind
  simp only [applyTx] at h
  split_ifs at h
  · rw [← (Prod.mk.inj h).2]; exact State.Same.refl _
  · rw [hcoinbase h]; exact State.Same.refl _
  · rw [← (Prod.mk.inj h).2]; exact State.Same.refl _
  · rw [← (Prod.mk.inj h).2]; exact State.Same.refl _
  · rw [← (Prod.mk.inj h).2]; exact State.Same.refl _
  · rw [← (Prod.mk.inj h).2]; exact State.acct_touch _ _
  · rw [hbyType h]; exact State.acct_touch _ _

/-! ### What `collect` picks -/

namespace Mempool

variable {maxn : Nat} {base tmp : State} {out : List Tx}

/-- What has been picked settles on the base state and leads to the working copy. -/
structure Picked (p : Params) (height : UInt64) (base tmp : State) (out : List Tx) : Prop where
  settles : Settles p height base out
  same : State.Same tmp (base.effects out)

theorem Picked.snoc (h : Picked p height base tmp out) {tx : Tx} (hvalid : TxValid tmp p height false tx) :
    Picked p height base (tmp.effect tx) (out ++ [tx]) := by
  refine ⟨Settles.append_iff.mpr ⟨h.settles, hvalid.congr h.same, trivial⟩, ?_⟩
  rw [State.effects_append]
  exact h.same.effect tx

theorem Picked.error (h : Picked p height base tmp out) {tx : Tx} {err : TxError} {tmp' : State}
    (herr : applyTx tmp tx p height false = (some err, tmp')) : Picked p height base tmp' out :=
  ⟨h.settles, (applyTx_error_same herr).trans h.same⟩

/-- One turn: what is picked still settles, is at most `maxn`, and is more if there was progress. -/
theorem collectPass_spec {entries : List (PoolKey × Tx)} {progress progress' : Bool} {tmp' : State}
    {out' : List Tx} (h : Picked p height base tmp out) (hlen : out.length < maxn)
    (hpass : collectPass p height maxn entries tmp out progress = (tmp', out', progress')) :
    Picked p height base tmp' out' ∧ out'.length ≤ maxn ∧ out.length ≤ out'.length ∧
      (progress' = true → progress = true ∨ out.length < out'.length) := by
  induction entries generalizing tmp out progress with
  | nil =>
      cases hpass
      exact ⟨h, Nat.le_of_lt hlen, Nat.le_refl _, Or.inl⟩
  | cons entry rest ih =>
      obtain ⟨key, tx⟩ := entry
      rw [collectPass] at hpass
      split at hpass
      · exact ih h hlen hpass
      · rcases happly : applyTx tmp tx p height false with ⟨_ | err, tmp₁⟩
        · obtain ⟨hvalid, rfl⟩ := applyTx_ok_iff.mp happly
          have hlen' : (out ++ [tx]).length = out.length + 1 := by simp
          simp only [happly] at hpass
          split at hpass
          · cases hpass
            exact ⟨h.snoc hvalid, by omega, by omega, fun _ => Or.inr (by omega)⟩
          · obtain ⟨hpicked, hmax, hmore, -⟩ := ih (h.snoc hvalid) (by omega) hpass
            exact ⟨hpicked, hmax, by omega, fun _ => Or.inr (by omega)⟩
        · simp only [happly] at hpass
          exact ih (h.error happly) hlen hpass

theorem collectFrom_spec (entries : List (PoolKey × Tx)) (fuel : Nat) (h : Picked p height base tmp out)
    (hlen : out.length ≤ maxn) :
    Settles p height base (collectFrom p height maxn entries fuel tmp out) ∧
      (collectFrom p height maxn entries fuel tmp out).length ≤ maxn := by
  induction fuel generalizing tmp out with
  | zero => exact ⟨h.settles, hlen⟩
  | succ fuel ih =>
      rw [collectFrom]
      split
      · rename_i hlt
        rcases hpass : collectPass p height maxn entries tmp out false with ⟨tmp', out', _ | _⟩
        · obtain ⟨hpicked, hmax, -⟩ := collectPass_spec h hlt hpass
          exact ⟨hpicked.settles, hmax⟩
        · obtain ⟨hpicked, hmax, -⟩ := collectPass_spec h hlt hpass
          exact ih hpicked hmax
      · exact ⟨h.settles, hlen⟩

theorem collect_spec (pool : Mempool) (base : State) (p : Params) (height : UInt64) :
    Settles p height base (pool.collect base p height) ∧ (pool.collect base p height).length ≤ maxCollected :=
  collectFrom_spec _ _ ⟨trivial, State.Same.refl _⟩ (by decide)

end Mempool

/-! ### Richer states -/

/-- The nonces are the same and no balance is smaller. -/
structure State.Richer (st st' : State) : Prop where
  nonce : ∀ a, (st.acct a).nonce = (st'.acct a).nonce
  balance : ∀ a, (st.acct a).balance ≤ (st'.acct a).balance

namespace State.Richer

omit [Crypto]
variable {st st' : State}

theorem touch (h : Richer st st') (a : Addr20) : Richer (st.touch a) (st'.touch a) :=
  ⟨fun b => by rw [acct_touch, acct_touch, h.nonce b], fun b => by rw [acct_touch, acct_touch]; exact h.balance b⟩

theorem bump (h : Richer st st') (a : Addr20) : Richer (st.bump a) (st'.bump a) :=
  ⟨fun b => by rw [nonce_bump, nonce_bump, h.nonce b], fun b => by rw [balance_bump, balance_bump]; exact h.balance b⟩

theorem debit (h : Richer st st') {a : Addr20} {v : UInt64} (hv : v ≤ (st.acct a).balance) :
    Richer (st.debit a v) (st'.debit a v) := by
  refine ⟨fun b => by rw [nonce_debit, nonce_debit, h.nonce b], fun b => ?_⟩
  rw [balance_debit, balance_debit]
  split
  · rename_i hba
    subst hba
    have hle := h.balance b
    have hv' := UInt64.le_trans hv hle
    rw [UInt64.le_iff_toNat_le] at hle ⊢
    rw [UInt64.toNat_sub_of_le _ _ hv, UInt64.toNat_sub_of_le _ _ hv']
    omega
  · exact h.balance b

theorem credit (h : Richer st st') {a : Addr20} {v : UInt64}
    (hroom : (st'.acct a).balance.toNat + v.toNat < 2 ^ 64) : Richer (st.credit a v) (st'.credit a v) := by
  refine ⟨fun b => by rw [nonce_credit, nonce_credit, h.nonce b], fun b => ?_⟩
  rw [balance_credit, balance_credit]
  split
  · rename_i hba
    subst hba
    have hle := h.balance b
    rw [UInt64.le_iff_toNat_le] at hle ⊢
    rw [toNat_add_of_lt hroom, toNat_add_of_lt (by omega)]
    omega
  · exact h.balance b

/-- A state is no poorer for a credit that fits. -/
theorem of_credit (st : State) {a : Addr20} {v : UInt64}
    (hroom : (st.acct a).balance.toNat + v.toNat < 2 ^ 64) : Richer st (st.credit a v) := by
  refine ⟨fun b => by rw [nonce_credit], fun b => ?_⟩
  rw [balance_credit]
  split
  · rename_i hba
    subst hba
    rw [UInt64.le_iff_toNat_le, toNat_add_of_lt hroom]
    omega
  · exact UInt64.le_refl _

end State.Richer

theorem TxValid.richer {st st' : State} {t : Tx} (hrich : State.Richer st st')
    (h : TxValid st p height false t) : TxValid st' p height false t := by
  cases h with
  | transfer hsigned htype hnonce hpay hbal =>
      exact .transfer hsigned htype (hnonce.trans (hrich.nonce _)) hpay (UInt64.le_trans hbal (hrich.balance _))
  | record hsigned htype hnonce hamt hpay hsize =>
      exact .record hsigned htype (hnonce.trans (hrich.nonce _)) hamt hpay hsize

/-- An application keeps one state richer than the other, when the sums of the richer one have room. -/
theorem State.Richer.effect {st st' : State} {t : Tx} (hrich : State.Richer st st')
    (h : TxValid st p height false t)
    (hroom : t.type = txTransfer →
      ((st'.debit t.sender t.amount).acct t.toAddr).balance.toNat + t.amount.toNat < 2 ^ 64) :
    State.Richer (st.effect t) (st'.effect t) := by
  unfold State.effect
  cases h with
  | transfer _ htype _ _ hbal =>
      rw [if_neg (by rw [htype]; decide), if_pos htype, if_neg (by rw [htype]; decide), if_pos htype]
      have hdebit := (hrich.touch t.sender).debit (by rwa [State.acct_touch] : t.amount ≤ _)
      refine (hdebit.credit ?_).bump _
      have := hroom htype
      rw [State.balance_debit] at this ⊢
      rwa [State.acct_touch]
  | record _ htype =>
      rw [if_neg (by rw [htype]; decide), if_neg (by rw [htype]; decide), if_neg (by rw [htype]; decide),
        if_neg (by rw [htype]; decide)]
      exact (hrich.touch _).bump _

/-- **What settles on a state settles on a richer one** whose coin is all accounted for. -/
theorem Settles.richer {st st' : State} {done txs : List Tx} (h : Settles p height st txs)
    (hrich : State.Richer st st') (hbalanced : Balanced st' done)
    (hminted : Books.minted (entries done) < 2 ^ 64) : Settles p height st' txs := by
  induction txs generalizing st st' done with
  | nil => trivial
  | cons t rest ih =>
      have hvalid := h.1.richer hrich
      have hminted' : Books.minted (entries (done ++ [t])) = Books.minted (entries done) := by
        rw [entries_snoc, Books.minted_snoc, t.created_of_ne_coinbase h.1.ne_coinbase, Nat.add_zero]
      refine ⟨hvalid, ih h.2 (hrich.effect h.1 fun htype => ?_) (hbalanced.effect hvalid ?_) ?_⟩
      · cases hvalid with
        | transfer _ _ _ _ hbal => exact hbalanced.transfer_fits hbal hminted
        | record _ hrec => rw [hrec] at htype; exact absurd htype (by decide)
      · rwa [hminted']
      · rwa [hminted']

/-! ### The template -/

/-- The byte patching of the miner's inner loop: `hdr[NONCE_OFFSET + k] = nonce >> (8 * k)`. -/
def patchNonce (hdr : Bytes) (nonce : UInt64) : Bytes :=
  (List.range 8).foldl (fun hdr k => hdr.set (nonceOffset + k) (nonce >>> UInt64.ofNat (8 * k)).toUInt8) hdr

/-- The inner loop itself: at most `tries` nonces from `nonce` on. -/
def searchNonce (bits : UInt32) : Nat → Bytes → UInt64 → Option UInt64
  | 0, _, _ => none
  | tries + 1, hdr, nonce =>
      let hdr := patchNonce hdr nonce
      if powOk (sha256d hdr) bits then some nonce else searchNonce bits tries hdr (nonce + 1)

/-- The block that the miner and `/work` build from the pool. -/
def Chain.template (p : Params) (c : Chain) (pool : Mempool) (payto : Addr20) (time nonce : UInt64) : Block :=
  c.candidate p payto (pool.collect c.st p (c.height + 1)) time nonce

omit [Crypto] in
/-- Setting the bytes after `front` one by one replaces them. -/
theorem foldl_set_append (front old : Bytes) (f : Nat → UInt8) (n : Nat) (hn : n ≤ old.length) :
    (List.range n).foldl (fun hdr k => hdr.set (front.length + k) (f k)) (front ++ old) =
      front ++ (List.range n).map f ++ old.drop n := by
  induction n with
  | zero => simp
  | succ n ih =>
      have hlen : ((List.range n).map f).length = n := by simp
      have hsplit : old.drop n = old[n] :: old.drop (n + 1) := List.drop_eq_getElem_cons hn
      rw [List.range_succ, List.foldl_append, ih (by omega), List.foldl_cons, List.foldl_nil, hsplit,
        List.append_assoc, List.set_append_right _ _ (by omega), Nat.add_sub_cancel_left,
        List.set_append_right _ _ (by omega), hlen, Nat.sub_self, List.set_cons_zero, List.map_append]
      simp

omit [Crypto] in
/-- Patching the serialized header is serializing the header with the nonce. -/
theorem patchNonce_serialize (h : BlockHeader) (nonce : UInt64) :
    patchNonce h.serialize nonce = { h with nonce := nonce }.serialize := by
  have hbytes : (List.range 8).map (fun k => (nonce >>> UInt64.ofNat (8 * k)).toUInt8) = Writer.u64 nonce := by
    rw [Writer.u64, Wire.leBytes]
    apply List.map_congr_left
    intro k hk
    have hk' : 8 * k < 64 := by
      have := List.mem_range.mp hk
      omega
    apply UInt8.toNat_inj.mp
    rw [UInt64.toNat_toUInt8, UInt64.toNat_shiftRight, UInt64.toNat_ofNat', UInt8.toNat_ofNat',
      Nat.mod_eq_of_lt (by omega : 8 * k < 2 ^ 64), Nat.mod_eq_of_lt hk']
  set front := Writer.u32 h.version ++ Writer.u32 h.netId ++ Writer.arr h.prev ++ Writer.arr h.merkle ++
    Writer.u64 h.height ++ Writer.u64 h.time ++ Writer.u32 h.bits with hfront
  have hlen : front.length = nonceOffset := by simp [hfront, nonceOffset]
  have hpatch := foldl_set_append front (Writer.u64 h.nonce)
    (fun k => (nonce >>> UInt64.ofNat (8 * k)).toUInt8) 8 (by simp)
  rw [hlen, hbytes, List.drop_of_length_le (by simp), List.append_nil] at hpatch
  exact hpatch

theorem hash_patchNonce (h : BlockHeader) (nonce : UInt64) :
    sha256d (patchNonce h.serialize nonce) = { h with nonce := nonce }.hash := by
  rw [patchNonce_serialize]
  rfl

/-- A nonce that the loop finds meets the difficulty, in the header that is then submitted. -/
theorem searchNonce_meets {bits : UInt32} {tries : Nat} {h : BlockHeader} {start found : UInt64}
    (hfound : searchNonce bits tries h.serialize start = some found) :
    powOk { h with nonce := found }.hash bits = true := by
  induction tries generalizing h start with
  | zero => simp [searchNonce] at hfound
  | succ tries ih =>
      simp only [searchNonce, hash_patchNonce] at hfound
      split at hfound
      · rename_i hpow
        cases hfound
        exact hpow
      · rw [patchNonce_serialize] at hfound
        exact ih (h := { h with nonce := start }) hfound

namespace Chain

/-- The transactions picked from a pool settle after the coinbase of their block. -/
theorem collect_settles {c : Chain} (hsound : Sound p c) (hne : c.blocks ≠ [])
    (hsupply : p.reward.toNat * c.blocks.length < 2 ^ 64) (pool : Mempool) (payto : Addr20) (height : UInt64) :
    Settles p height (c.st.credit payto p.reward) (pool.collect c.st p height) := by
  have hpos := List.length_pos_of_ne_nil hne
  have hsplit : p.reward.toNat * c.blocks.length = p.reward.toNat * (c.blocks.length - 1) + p.reward.toNat := by
    rw [← Nat.mul_succ, Nat.succ_eq_add_one, Nat.sub_add_cancel hpos]
  have hbalanced := hsound.valid.balanced (by omega : p.reward.toNat * (c.blocks.length - 1) < 2 ^ 64)
  have hminted := hsound.valid.minted
  rw [← hsound.st] at hbalanced
  -- the books with the coinbase of the new block
  have hminted' : Books.minted (entries (c.blocks.flatMap Block.txs ++ [coinbaseTx p height payto])) < 2 ^ 64 := by
    rw [entries_snoc, Books.minted_snoc, hminted, Tx.entry_coinbase rfl]
    exact hsplit ▸ hsupply
  have hcoinbase := hbalanced.effect (coinbaseTx_valid p height payto c.st) hminted'
  rw [effect_coinbaseTx] at hcoinbase
  exact (pool.collect_spec c.st p height).1.richer
    (State.Richer.of_credit c.st (hbalanced.coinbase_fits (t := coinbaseTx p height payto) rfl hminted'))
    hcoinbase hminted'

theorem template_accepted {c : Chain} (hsound : Sound p c) (hne : c.blocks ≠ [])
    (hsupply : p.reward.toNat * c.blocks.length < 2 ^ 64) {pool : Mempool} {payto : Addr20}
    {time nonce : UInt64} (hpow : powOk (c.template p pool payto time nonce).h.hash p.bits = true) :
    c.Accepts (c.template p pool payto time nonce) :=
  candidate_accepted hsound.params hne
    (Nat.lt_of_le_of_lt (pool.collect_spec c.st p (c.height + 1)).2 (by decide))
    (collect_settles hsound hne hsupply pool payto _) hpow

/-- **A template is a valid block.** `reward * blocks.size()` is the supply with the block on top. Patching
the bytes of the serialized header, as the miner does, hashes the header with that nonce. -/
theorem template_connects {c : Chain} (h : Reachable p c) (hsupply : p.reward.toNat * c.blocks.length < 2 ^ 64) :
    (∀ (pool : Mempool) (payto : Addr20) (time nonce : UInt64) (now : Clock),
      powOk (c.template p pool payto time nonce).h.hash p.bits = true →
      time ≤ now.seconds + maxTimeSkew →
      ∃ c', c.connectBlock now (c.template p pool payto time nonce) = .ok c') ∧
    ∀ (header : BlockHeader) (nonce : UInt64),
      sha256d (patchNonce header.serialize nonce) = { header with nonce := nonce }.hash := by
  obtain ⟨hsound, hne⟩ := h.sound
  refine ⟨fun pool payto time nonce now hpow htime => ?_, hash_patchNonce⟩
  exact ⟨_, connectBlock_ok_iff.mpr ⟨template_accepted hsound hne hsupply hpow, fun _ => htime, rfl⟩⟩

end Chain

end

section
local instance templateCrypto : Crypto := ownCrypto

/-- A pool takes a payment, and the template with it connects. -/
theorem template_connects_payment : ∃ pool c',
    Mempool.add {} (Chain.payment 0) (Chain.coinbases (addrOf ownKey) 1).st Chain.easyParams = .ok pool ∧
    ((Chain.coinbases (addrOf ownKey) 1).template Chain.easyParams pool (zeros 20) 1753000000 7).txs.length = 2 ∧
    (Chain.coinbases (addrOf ownKey) 1).connectBlock Chain.easyClock
      ((Chain.coinbases (addrOf ownKey) 1).template Chain.easyParams pool (zeros 20) 1753000000 7) = .ok c' := by
  have hpicked : (Mempool.add {} (Chain.payment 0) (Chain.coinbases (addrOf ownKey) 1).st Chain.easyParams).toOption.map
      (fun pool => ((Chain.coinbases (addrOf ownKey) 1).template Chain.easyParams pool (zeros 20) 1753000000 7).txs.length) =
        some 2 := by decide +kernel
  cases hadd : Mempool.add {} (Chain.payment 0) (Chain.coinbases (addrOf ownKey) 1).st Chain.easyParams with
  | error err =>
      rw [hadd] at hpicked
      cases hpicked
  | ok pool =>
      rw [hadd] at hpicked
      obtain ⟨c', hconnect⟩ := (Chain.template_connects (Chain.coinbases_reachable (addrOf ownKey) 1)
        (by rw [Chain.length_coinbases]; decide)).1 pool (zeros 20) 1753000000 7 Chain.easyClock (powOk_zero _) (by decide)
      exact ⟨pool, c', rfl, Option.some.inj hpicked, hconnect⟩

end

end Chainlite
