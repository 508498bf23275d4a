import Chainlite.BaseBooks
import Chainlite.BaseOrderedMap
import Chainlite.MiningCandidate

/-! Conservation of coin. The transactions of a chain are entries of double-entry books: a coinbase
mints, a transfer moves, a record only names its sender. As long as the coin minted fits 64 bits the
stored balances are the holdings of the books, in exact integers. The bound on a single account comes
from the bound on the whole supply, so it is the balance of all accounts together that is carried from
one application to the next. -/

open Std

namespace Chainlite

section
variable [Crypto]

def Tx.entry (t : Tx) : Books.Entry Addr20 :=
  if t.type = txCoinbase then .mint t.toAddr t.amount.toNat
  else if t.type = txTransfer then .move t.sender t.toAddr t.amount.toNat
  else .note t.sender

/-- The books of a list of transactions. -/
def entries (txs : List Tx) : List (Books.Entry Addr20) := txs.map Tx.entry

theorem entries_snoc (txs : List Tx) (t : Tx) : entries (txs ++ [t]) = entries txs ++ [t.entry] := by
  simp [entries]

theorem Tx.entry_coinbase {t : Tx} (h : t.type = txCoinbase) : t.entry = .mint t.toAddr t.amount.toNat := by
  rw [entry, if_pos h]

theorem Tx.entry_transfer {t : Tx} (h : t.type = txTransfer) :
    t.entry = .move t.sender t.toAddr t.amount.toNat := by
  rw [entry, if_neg (by rw [h]; decide), if_pos h]

theorem Tx.entry_record {t : Tx} (h : t.type = txRecord) : t.entry = .note t.sender := by
  rw [entry, if_neg (by rw [h]; decide), if_neg (by rw [h]; decide)]

theorem Tx.created_of_ne_coinbase {t : Tx} (h : t.type ≠ txCoinbase) : t.entry.created = 0 := by
  rw [entry, if_neg h]
  split_ifs <;> rfl

/-! ### The calls of `apply_tx` -/

/-- One call of `apply_tx`, with the state it is made in. -/
structure ApplyCall where
  st : State
  t : Tx
  height : UInt64
  isFirst : Bool

/-- The calls that the loop of `connect_block` makes from index `i` on, up to the first error. -/
def bodyCalls (p : Params) (height : UInt64) : State → Nat → List Tx → List ApplyCall
  | _, _, [] => []
  | st, i, t :: rest =>
      ⟨st, t, height, i == 0⟩ ::
        match applyTx st t p height (i == 0) with
        | (none, st') => bodyCalls p height st' (i + 1) rest
        | (some _, _) => []

/-- The `+=` of a coinbase and the `-=` and `+=` of a transfer, where the call gets to them, are exact. -/
def ApplyCall.NoWrap (p : Params) (call : ApplyCall) : Prop :=
  (applyTx call.st call.t p call.height call.isFirst).1 = none →
    (call.t.type = txCoinbase →
      (call.st.acct call.t.toAddr).balance.toNat + call.t.amount.toNat < 2 ^ 64) ∧
    (call.t.type = txTransfer →
      call.t.amount.toNat ≤ (call.st.acct call.t.sender).balance.toNat ∧
      ((call.st.debit call.t.sender call.t.amount).acct call.t.toAddr).balance.toNat +
        call.t.amount.toNat < 2 ^ 64)

/-! ### The balance of the books -/

/-- The stored balances are the holdings of the books. -/
def Balanced (st : State) (done : List Tx) : Prop :=
  ∀ a, (st.acct a).balance.toNat + Books.spent (entries done) a = Books.received (entries done) a

variable {p : Params} {height : UInt64} {st : State} {done : List Tx} {t : Tx}

theorem Balanced.covered (h : Balanced st done) : Books.Covered (entries done) := by
  intro a
  have := h a
  omega

theorem Balanced.held (h : Balanced st done) (a : Addr20) :
    Books.held (entries done) a = (st.acct a).balance.toNat := by
  have := h a
  unfold Books.held
  omega

theorem Balanced.le_minted (h : Balanced st done) (a : Addr20) :
    (st.acct a).balance.toNat ≤ Books.minted (entries done) := by
  rw [← h.held a]
  exact Books.held_le_minted h.covered a

theorem Balanced.add_le_minted (h : Balanced st done) {a b : Addr20} (hne : a ≠ b) :
    (st.acct a).balance.toNat + (st.acct b).balance.toNat ≤ Books.minted (entries done) := by
  rw [← h.held a, ← h.held b]
  exact Books.held_add_held_le_minted h.covered hne

/-- A coinbase fits while the supply with it does. -/
theorem Balanced.coinbase_fits (h : Balanced st done) (htype : t.type = txCoinbase)
    (hminted : Books.minted (entries (done ++ [t])) < 2 ^ 64) :
    (st.acct t.toAddr).balance.toNat + t.amount.toNat < 2 ^ 64 := by
  rw [entries_snoc, Books.minted_snoc, t.entry_coinbase htype] at hminted
  have := h.le_minted t.toAddr
  simp only [Books.Entry.created] at hminted
  omega

/-- The recipient's balance has room for what leaves the sender's, the same account or another. -/
theorem Balanced.transfer_fits (h : Balanced st done) (hbal : t.amount ≤ (st.acct t.sender).balance)
    (hminted : Books.minted (entries done) < 2 ^ 64) :
    ((st.debit t.sender t.amount).acct t.toAddr).balance.toNat + t.amount.toNat < 2 ^ 64 := by
  have hbal' : t.amount.toNat ≤ (st.acct t.sender).balance.toNat := hbal
  rw [State.balance_debit]
  split
  · rename_i hself
    rw [hself, UInt64.toNat_sub_of_le _ _ hbal]
    have := (st.acct t.sender).balance.toNat_lt
    omega
  · rename_i hne
    have := h.add_le_minted hne
    omega

theorem Balanced.noWrap (h : Balanced st done) {first : Bool}
    (hminted : Books.minted (entries (done ++ [t])) < 2 ^ 64) :
    ApplyCall.NoWrap p ⟨st, t, height, first⟩ := by
  intro hok
  obtain ⟨hvalid, -⟩ := applyTx_ok_iff.mp (Prod.ext hok rfl :
    applyTx st t p height first = (none, (applyTx st t p height first).2))
  refine ⟨fun htype => h.coinbase_fits htype hminted, fun htype => ?_⟩
  cases hvalid with
  | coinbase _ hcb => rw [hcb] at htype; exact absurd htype (by decide)
  | record _ hrec => rw [hrec] at htype; exact absurd htype (by decide)
  | transfer _ _ _ _ hbal =>
      refine ⟨hbal, h.transfer_fits hbal ?_⟩
      rw [entries_snoc, Books.minted_snoc] at hminted
      omega

/-- **One application keeps the books balanced.** -/
theorem Balanced.effect (h : Balanced st done) {first : Bool} (hvalid : TxValid st p height first t)
    (hminted : Books.minted (entries (done ++ [t])) < 2 ^ 64) :
    Balanced (st.effect t) (done ++ [t]) := by
  intro a
  have ha := h a
  rw [entries_snoc, Books.spent_snoc, Books.received_snoc]
  cases hvalid with
  | coinbase _ htype =>
      have hfits := h.coinbase_fits htype hminted
      rw [State.effect, if_pos htype, t.entry_coinbase htype, State.balance_credit]
      simp only [Books.Entry.spentBy, Books.Entry.receivedBy]
      by_cases hto : a = t.toAddr
      · subst hto
        rw [if_pos rfl, if_pos rfl, toNat_add_of_lt hfits]
        omega
      · rw [if_neg hto, if_neg (Ne.symm hto)]
        omega
  | transfer _ htype _ _ hbal =>
      have hfits := h.transfer_fits hbal (by rw [entries_snoc, Books.minted_snoc] at hminted; omega)
      have hbal' : t.amount.toNat ≤ (st.acct t.sender).balance.toNat := hbal
      rw [State.effect, if_neg (by rw [htype]; decide), if_pos htype, t.entry_transfer htype,
        State.balance_bump, State.balance_credit, State.balance_debit, State.acct_touch]
      rw [State.balance_debit] at hfits
      simp only [Books.Entry.spentBy, Books.Entry.receivedBy]
      -- the sender and the recipient may be one account: the cases are on each of them separately
      by_cases hto : a = t.toAddr <;> by_cases hsender : a = t.sender
      · rw [← hto, if_pos hsender] at hfits
        rw [if_pos hto, if_pos hsender, if_pos hsender.symm, if_pos hto.symm, toNat_add_of_lt hfits,
          UInt64.toNat_sub_of_le _ _ (hsender ▸ hbal)]
        rw [← hsender] at hbal'
        omega
      · rw [← hto, if_neg hsender] at hfits
        rw [if_pos hto, if_neg hsender, if_neg (Ne.symm hsender), if_pos hto.symm, toNat_add_of_lt hfits]
        omega
      · rw [if_neg hto, if_pos hsender, if_pos hsender.symm, if_neg (Ne.symm hto),
          UInt64.toNat_sub_of_le _ _ (hsender ▸ hbal)]
        rw [← hsender] at hbal'
        omega
      · rw [if_neg hto, if_neg hsender, if_neg (Ne.symm hsender), if_neg (Ne.symm hto)]
        omega
  | record _ htype =>
      rw [State.effect, if_neg (by rw [htype]; decide), if_neg (by rw [htype]; decide),
        t.entry_record htype, State.balance_bump, State.acct_touch]
      simpa [Books.Entry.spentBy, Books.Entry.receivedBy] using ha

/-- All balances together are the coin minted. -/
theorem Balanced.sum (h : Balanced st done) :
    (st.toList.map fun entry => entry.2.balance.toNat).sum = Books.minted (entries done) := by
  rw [OrderedMap.sum_toList_eq_of_subset st {} (fun x => x.balance.toNat) rfl
    (st.keys.toFinset ∪ Books.parties (entries done)) Finset.subset_union_left,
    ← Books.sum_held h.covered _ Finset.subset_union_right]
  exact Finset.sum_congr rfl fun a _ => (h.held a).symm

/-- Only the call at index 0 can mint, so room for one reward is room for all the calls of a body, those
before an error included. -/
theorem Balanced.bodyCalls (h : Balanced st done) {i : Nat} {txs : List Tx}
    (hroom : Books.minted (entries done) + (if i = 0 then p.reward.toNat else 0) < 2 ^ 64) :
    ∀ call ∈ bodyCalls p height st i txs, call.NoWrap p := by
  induction txs generalizing st done i with
  | nil => simp [Chainlite.bodyCalls]
  | cons t rest ih =>
      intro call hcall
      rw [Chainlite.bodyCalls, List.mem_cons] at hcall
      have hminted : TxValid st p height (i == 0) t → Books.minted (entries (done ++ [t])) ≤
          Books.minted (entries done) + (if i = 0 then p.reward.toNat else 0) := by
        intro hvalid
        rw [entries_snoc, Books.minted_snoc, Nat.add_le_add_iff_left]
        generalize hfirst : (i == 0) = first at hvalid
        cases hvalid with
        | coinbase _ htype _ _ _ hamt =>
            rw [if_pos (by simpa using hfirst), t.entry_coinbase htype, hamt]
            exact Nat.le_refl _
        | transfer _ htype => rw [t.entry_transfer htype]; exact Nat.zero_le _
        | record _ htype => rw [t.entry_record htype]; exact Nat.zero_le _
      rcases happly : applyTx st t p height (i == 0) with ⟨_ | err, st'⟩
      · obtain ⟨hvalid, rfl⟩ := applyTx_ok_iff.mp happly
        have hfits := Nat.lt_of_le_of_lt (hminted hvalid) hroom
        rcases hcall with rfl | hcall
        · exact h.noWrap hfits
        · rw [happly] at hcall
          exact ih (h.effect hvalid hfits) (by simpa using hfits) call hcall
      · rw [happly] at hcall
        rcases hcall with rfl | hcall
        · intro hok
          rw [happly] at hok
          exact absurd hok (by simp)
        · simp at hcall

end

/-! ### The whole chain -/

/-- The coinbases paid to `a`. -/
def coinbasesTo (txs : List Tx) (a : Addr20) : ℕ :=
  txs.countP fun t => t.type = txCoinbase ∧ t.toAddr = a

/-- The sum of the transfers to `a`. -/
def transferredTo (txs : List Tx) (a : Addr20) : ℕ :=
  ((txs.filter fun t => t.type = txTransfer ∧ t.toAddr = a).map fun t => t.amount.toNat).sum

/-- The sum of the transfers sent by keys with the address `a`. -/
def transferredFrom [Crypto] (txs : List Tx) (a : Addr20) : ℕ :=
  ((txs.filter fun t => t.type = txTransfer ∧ t.sender = a).map fun t => t.amount.toNat).sum

section
variable [Crypto] {p : Params}

theorem spent_entries (txs : List Tx) (a : Addr20) :
    Books.spent (entries txs) a = transferredFrom txs a := by
  induction txs with
  | nil => rfl
  | cons t txs ih =>
      simp only [Books.spent, entries, List.map_cons, List.sum_cons, transferredFrom, List.filter_cons] at ih ⊢
      rw [ih]
      by_cases htr : t.type = txTransfer
      · rw [t.entry_transfer htr]
        by_cases ha : t.sender = a <;> simp [Books.Entry.spentBy, htr, ha]
      · have hnone : t.entry.spentBy a = 0 := by
          unfold Tx.entry
          split_ifs <;> rfl
        simp [hnone, htr]

/-- The coinbases of the list are all worth `reward`. -/
def PaysReward (p : Params) (txs : List Tx) : Prop := ∀ t ∈ txs, t.type = txCoinbase → t.amount = p.reward

theorem received_entries {txs : List Tx} (hpays : PaysReward p txs) (a : Addr20) :
    Books.received (entries txs) a = p.reward.toNat * coinbasesTo txs a + transferredTo txs a := by
  induction txs with
  | nil => rfl
  | cons t txs ih =>
      have ih := ih fun u hu => hpays u (List.mem_cons_of_mem _ hu)
      have hamt := hpays t List.mem_cons_self
      have hne : txCoinbase ≠ txTransfer := by decide
      simp only [Books.received, entries, List.map_cons, List.sum_cons, transferredTo, coinbasesTo,
        List.filter_cons, List.countP_cons] at ih ⊢
      rw [ih]
      by_cases hcb : t.type = txCoinbase
      · rw [t.entry_coinbase hcb, hamt hcb]
        by_cases ha : t.toAddr = a
        · simp only [Books.Entry.receivedBy, hcb, hne, ha, if_true, and_true, decide_true,
            decide_false, Bool.false_eq_true, if_false, Nat.mul_add]
          omega
        · simp [Books.Entry.receivedBy, ha]
      · by_cases htr : t.type = txTransfer
        · rw [t.entry_transfer htr]
          by_cases ha : t.toAddr = a
          · simp only [Books.Entry.receivedBy, htr, hne.symm, ha, if_true, and_true, decide_true,
              decide_false, Bool.false_eq_true, if_false, List.map_cons, List.sum_cons, Nat.add_zero]
            omega
          · simp [Books.Entry.receivedBy, ha]
        · have hnone : t.entry.receivedBy a = 0 := by
            rw [Tx.entry, if_neg hcb, if_neg htr]
            rfl
          simp [hnone, hcb, htr]

theorem minted_entries {txs : List Tx} (hpays : PaysReward p txs) :
    Books.minted (entries txs) = p.reward.toNat * txs.countP fun t => t.type = txCoinbase := by
  induction txs with
  | nil => rfl
  | cons t txs ih =>
      have ih := ih fun u hu => hpays u (List.mem_cons_of_mem _ hu)
      have hamt := hpays t List.mem_cons_self
      simp only [Books.minted, entries, List.map_cons, List.sum_cons, List.countP_cons] at ih ⊢
      rw [ih]
      by_cases hcb : t.type = txCoinbase
      · rw [t.entry_coinbase hcb, hamt hcb]
        simp only [Books.Entry.created, hcb, decide_true, if_true, Nat.mul_add]
        omega
      · simp [t.created_of_ne_coinbase hcb, hcb]

namespace Chain

theorem ValidBlocks.paysReward {bs : List Block} (h : ValidBlocks p bs) : PaysReward p (bs.flatMap Block.txs) := by
  refine h.tx_induction (motive := fun _ done => PaysReward p done) (by simp [PaysReward]) ?_
  intro st done t height first hvalid ih u hu hcb
  rcases List.mem_append.mp hu with hu | hu
  · exact ih u hu hcb
  · obtain rfl := List.mem_singleton.mp hu
    cases hvalid with
    | coinbase _ _ _ _ _ hamt => exact hamt
    | transfer _ htype => rw [htype] at hcb; exact absurd hcb (by decide)
    | record _ htype => rw [htype] at hcb; exact absurd hcb (by decide)

/-- Every block but the genesis has one coinbase. -/
theorem ValidBlocks.count_coinbases {bs : List Block} (h : ValidBlocks p bs) :
    ((bs.flatMap Block.txs).countP fun t => t.type = txCoinbase) = bs.length - 1 := by
  refine ValidBlocks.induction (motive := fun bs =>
    ((bs.flatMap Block.txs).countP fun t => t.type = txCoinbase) = bs.length - 1) rfl ?_ h
  intro bs b _ hb ih
  rw [List.flatMap_append, List.flatMap_singleton, List.countP_append, ih, List.length_append,
    List.length_singleton]
  by_cases hnil : bs = []
  · rw [(hb.genesis (by rw [replay_blocks, hnil])).txs, hnil]
    rfl
  · obtain ⟨cb, rest, htxs, hcb, -, -, hrest⟩ := (hb.next (by rwa [replay_blocks])).txs_eq
    have hnone : rest.countP (fun t => t.type = txCoinbase) = 0 := by
      rw [List.countP_eq_zero]
      intro t ht
      simpa using hrest t ht
    have hpos := List.length_pos_of_ne_nil hnil
    rw [htxs, List.countP_cons, hnone, hcb]
    simp only [decide_true, if_true]
    omega

/-- The coin minted by a chain: one reward for each block after the genesis. -/
theorem ValidBlocks.minted {bs : List Block} (h : ValidBlocks p bs) :
    Books.minted (entries (bs.flatMap Block.txs)) = p.reward.toNat * (bs.length - 1) := by
  rw [minted_entries h.paysReward, h.count_coinbases]

theorem ValidBlocks.balanced {bs : List Block} (h : ValidBlocks p bs)
    (hsupply : p.reward.toNat * (bs.length - 1) < 2 ^ 64) :
    Balanced (replay p bs).st (bs.flatMap Block.txs) := by
  rw [← h.minted] at hsupply
  refine h.tx_induction (motive := fun st done => Books.minted (entries done) < 2 ^ 64 → Balanced st done)
    (fun _ a => by simp [entries, Books.spent, Books.received]) ?_ hsupply
  intro st done t height first hvalid ih hminted
  refine Balanced.effect (ih ?_) hvalid hminted
  rw [entries_snoc, Books.minted_snoc] at hminted
  omega

omit [Crypto] in
/-- The supply bound of a chain, for the blocks before any of its blocks. -/
theorem supply_before {before after : List Block} {b : Block}
    (hsupply : p.reward.toNat * ((before ++ b :: after).length - 1) < 2 ^ 64) :
    p.reward.toNat * before.length < 2 ^ 64 := by
  refine Nat.lt_of_le_of_lt (Nat.mul_le_mul_left _ ?_) hsupply
  simp

/-- **Conservation of coin.** While `reward * n` fits 64 bits, `n` the number of blocks after the
genesis, every balance is what the coinbases and transfers of the chain say in exact integers, all of
them add up to `reward * n`, and no addition or subtraction of `apply_tx` wrapped in connecting the
blocks of the chain. Nor does one wrap in connecting any further block, accepted or not, that
the supply has room for. -/
theorem coin_conserved {c : Chain} (h : Reachable p c)
    (hsupply : p.reward.toNat * (c.blocks.length - 1) < 2 ^ 64) :
    (∀ a, ((c.st.acct a).balance.toNat : ℤ) =
      p.reward.toNat * coinbasesTo c.txs a + transferredTo c.txs a - transferredFrom c.txs a) ∧
    (c.st.toList.map fun entry => entry.2.balance.toNat).sum = p.reward.toNat * (c.blocks.length - 1) ∧
    (∀ before (b : Block) after, c.blocks = before ++ b :: after →
      ∀ call ∈ bodyCalls p b.h.height (replay p before).st 0 b.txs, call.NoWrap p) ∧
    (p.reward.toNat * c.blocks.length < 2 ^ 64 →
      ∀ b : Block, ∀ call ∈ bodyCalls p b.h.height c.st 0 b.txs, call.NoWrap p) := by
  obtain ⟨hsound, hne⟩ := h.sound
  have hbal := hsound.valid.balanced hsupply
  have hminted := hsound.valid.minted
  rw [← hsound.st] at hbal
  -- the calls for a block on top of valid blocks, its coinbase being the only one that mints
  have hcalls : ∀ bs, ValidBlocks p bs → p.reward.toNat * bs.length < 2 ^ 64 →
      bs ≠ [] → ∀ b : Block, ∀ call ∈ bodyCalls p b.h.height (replay p bs).st 0 b.txs, call.NoWrap p := by
    intro bs hvalid hroom hbs b
    have hpos := List.length_pos_of_ne_nil hbs
    have hsplit : p.reward.toNat * bs.length = p.reward.toNat * (bs.length - 1) + p.reward.toNat := by
      rw [← Nat.mul_succ, Nat.succ_eq_add_one, Nat.sub_add_cancel hpos]
    refine (hvalid.balanced (by omega)).bodyCalls ?_
    rw [hvalid.minted, if_pos rfl]
    omega
  refine ⟨fun a => ?_, ?_, ?_, ?_⟩
  · have ha := hbal a
    rw [spent_entries, received_entries hsound.valid.paysReward] at ha
    unfold txs
    omega
  · rw [hbal.sum, hminted]
  · intro before b after hblocks
    have hvalid := hsound.valid
    rw [hblocks] at hvalid hsupply
    by_cases hnil : before = []
    · subst hnil
      have hgenesis := (hvalid [] b after rfl).genesis rfl
      rw [hgenesis.txs]
      simp [bodyCalls]
    · exact hcalls before hvalid.of_append (supply_before hsupply) hnil b
  · intro hroom b
    rw [hsound.st]
    exact hcalls c.blocks hsound.valid hroom hne b

end Chain

end

section
local instance conservationCrypto : Crypto := Sha.crypto fun _ _ _ => false

theorem coin_conserved_three_blocks :
    ((Chain.coinbases (zeros 20) 3).st.toList.map fun entry => entry.2.balance.toNat).sum = 150 :=
  have hsupply : Chain.easyParams.reward.toNat * ((Chain.coinbases (zeros 20) 3).blocks.length - 1) < 2 ^ 64 := by
    rw [Chain.length_coinbases]
    decide
  ((Chain.coin_conserved (Chain.coinbases_reachable _ 3) hsupply).2.1).trans (by
    rw [Chain.length_coinbases]
    rfl)

end

end Chainlite
