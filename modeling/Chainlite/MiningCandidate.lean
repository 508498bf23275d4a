import Chainlite.LedgerHistory

/-! The block that the miner and `/work` assemble on top of the tip: a coinbase for the payout address,
then the transactions picked for it. It is acceptable when the transactions settle after the coinbase and
the header hash meets the difficulty. -/

open Std

namespace Chainlite

def coinbaseTx (p : Params) (height : UInt64) (payto : Addr20) : Tx where
  type := txCoinbase
  netId := p.netId
  toAddr := payto
  amount := p.reward
  nonce := height

/-- A signature that is the hash twice. -/
def doubleSign (hash : H256) : Sig64 := hash ++ hash

def ownKey : Pub64 := Vector.replicate 64 1

def Chain.easyParams : Params := { bits := 0 }

/-- A transfer of nothing, the first transaction of its sender. -/
def firstTransfer : Tx := { netId := Chain.easyParams.netId, fromKey := ownKey }

namespace Chain

variable [Crypto]

/-- The body and the header of the next block, as `miner_thread` and `/work` fill them in. -/
def candidate (p : Params) (c : Chain) (payto : Addr20) (txs : List Tx) (time nonce : UInt64) : Block :=
  let height := c.height + 1
  let all := coinbaseTx p height payto :: txs
  { h := { version := clVersion, netId := p.netId, prev := c.tipHash, merkle := merkleRoot (all.map Tx.txid),
           height := height, time := time, bits := p.bits, nonce := nonce }
    txs := all }

theorem coinbaseTx_valid (p : Params) (height : UInt64) (payto : Addr20) (st : State) :
    TxValid st p height true (coinbaseTx p height payto) := by
  refine TxValid.coinbase rfl rfl ?_ ?_ rfl rfl rfl
  · show isZero (zeros 64) = true
    decide
  · show isZero (zeros 64) = true
    decide

theorem effect_coinbaseTx (p : Params) (height : UInt64) (payto : Addr20) (st : State) :
    st.effect (coinbaseTx p height payto) = st.credit payto p.reward := if_pos rfl

theorem candidate_accepted {p : Params} {c : Chain} {payto : Addr20} {txs : List Tx} {time nonce : UInt64}
    (hparams : c.params = p) (hne : c.blocks ≠ []) (hcount : txs.length < maxBlockTxs)
    (hsettles : Settles p (c.height + 1) (c.st.credit payto p.reward) txs)
    (hpow : powOk (candidate p c payto txs time nonce).h.hash p.bits = true) :
    c.Accepts (candidate p c payto txs time nonce) := by
  subst hparams
  rw [Accepts, if_neg hne]
  refine ⟨rfl, rfl, rfl, rfl, rfl, hpow, hcount, rfl, _, _, rfl, coinbaseTx_valid _ _ _ _, ?_⟩
  rwa [effect_coinbaseTx]

theorem candidate_timely {p : Params} {c : Chain} {payto : Addr20} {txs : List Tx} {time nonce : UInt64}
    {now : Clock} : Timely now (candidate p c payto txs time nonce) ↔ time ≤ now.seconds + maxTimeSkew :=
  Iff.rfl

/-! ### Chains of coinbases

With no difficulty every header hash is good enough, and candidates without transactions stack up on the
genesis block. -/

def easyClock : Clock := ⟨easyParams.genesisTime, by decide⟩

/-- The genesis block and `n` blocks that hold a coinbase for `payto` each. -/
def coinbases (payto : Addr20) : Nat → Chain
  | 0 => (fresh easyParams).grow (makeGenesis easyParams)
  | n + 1 =>
      let c := coinbases payto n
      c.grow (candidate easyParams c payto [] easyParams.genesisTime 0)

theorem init_coinbases (payto : Addr20) :
    (fresh easyParams).init (fun _ => easyClock) none = .ok (coinbases payto 0) := by
  have hgenesis : (fresh easyParams).Accepts (makeGenesis easyParams) := by
    rw [Accepts, if_pos (show (fresh easyParams).blocks = [] from rfl)]
    exact ⟨rfl, rfl⟩
  show (fresh easyParams).connectBlock easyClock (makeGenesis easyParams) = .ok (coinbases payto 0)
  exact connectBlock_ok_iff.mpr ⟨hgenesis, fun hne => absurd rfl hne, rfl⟩

/-- With no difficulty a candidate whose transactions settle connects. -/
theorem connect_candidate {c : Chain} {payto : Addr20} {txs : List Tx} (hsound : Sound easyParams c)
    (hne : c.blocks ≠ []) (hcount : txs.length < maxBlockTxs)
    (hsettles : Settles easyParams (c.height + 1) (c.st.credit payto easyParams.reward) txs) :
    c.connectBlock easyClock (candidate easyParams c payto txs easyParams.genesisTime 0) =
      .ok (c.grow (candidate easyParams c payto txs easyParams.genesisTime 0)) := by
  have haccepts : c.Accepts (candidate easyParams c payto txs easyParams.genesisTime 0) :=
    candidate_accepted hsound.params hne hcount hsettles (powOk_zero _)
  have htime : Timely easyClock (candidate easyParams c payto txs easyParams.genesisTime 0) :=
    candidate_timely.mpr (by decide)
  exact connectBlock_ok_iff.mpr ⟨haccepts, fun _ => htime, rfl⟩

/-- The next candidate connects. -/
theorem connect_coinbases {payto : Addr20} {n : Nat} (hsound : Sound easyParams (coinbases payto n))
    (hne : (coinbases payto n).blocks ≠ []) : (coinbases payto n).connectBlock easyClock
      (candidate easyParams (coinbases payto n) payto [] easyParams.genesisTime 0) = .ok (coinbases payto (n + 1)) :=
  connect_candidate hsound hne (by decide) trivial

theorem coinbases_reachable (payto : Addr20) (n : Nat) : Reachable easyParams (coinbases payto n) := by
  induction n with
  | zero => exact Reachable.init (init_coinbases payto)
  | succ n ih =>
      obtain ⟨hsound, hne⟩ := ih.sound
      exact ih.connect (connect_coinbases hsound hne)

theorem coinbases_timely (payto : Addr20) (n : Nat) : AllTimely easyClock (coinbases payto n).blocks := by
  induction n with
  | zero =>
      rw [coinbases, grow_blocks]
      exact fun b hb => absurd hb (by simp [fresh])
  | succ n ih =>
      rw [coinbases, grow_blocks]
      exact ih.snoc fun _ => candidate_timely.mpr (by decide)

theorem length_coinbases (payto : Addr20) (n : Nat) : (coinbases payto n).blocks.length = n + 1 := by
  induction n with
  | zero => rfl
  | succ n ih =>
      rw [coinbases, grow_blocks, List.length_append, ih]
      rfl

/-! ### A chain with signed transactions -/

/-- A transfer of 7 coins to the zero address, signed with its hash twice. -/
def payment (nonce : UInt64) : Tx :=
  let t : Tx := { netId := easyParams.netId, fromKey := ownKey, amount := 7, nonce := nonce }
  { t with sig := doubleSign t.signHash }

/-- Two payments out of one coinbase. -/
def paidBlock : Block :=
  candidate easyParams (coinbases (addrOf ownKey) 1) (zeros 20) [payment 0, payment 1] easyParams.genesisTime 0

def paidChain : Chain := (coinbases (addrOf ownKey) 1).grow paidBlock

theorem acct_coinbases (payto : Addr20) : (coinbases payto 1).st.acct payto = { balance := easyParams.reward } := by
  have hempty : (coinbases payto 0).st = ∅ := rfl
  rw [coinbases, grow_st, candidate]
  dsimp only
  rw [State.effects_cons, State.effects_nil, effect_coinbaseTx, hempty, State.credit, State.acct_insert, if_pos rfl,
    State.acct_empty]
  rfl

/-- What a payment needs and does. -/
theorem payment_spends (hsign : ∀ hash, sigVerify ownKey hash (doubleSign hash) = true) (hown : addrOf ownKey ≠ zeros 20)
    {st : State} (height : UInt64) {nonce : UInt64} (hnonce : (st.acct (addrOf ownKey)).nonce = nonce)
    (hbalance : 7 ≤ (st.acct (addrOf ownKey)).balance) :
    TxValid st easyParams height false (payment nonce) ∧
      ((st.effect (payment nonce)).acct (addrOf ownKey)).nonce = nonce + 1 ∧
      ((st.effect (payment nonce)).acct (addrOf ownKey)).balance = (st.acct (addrOf ownKey)).balance - 7 := by
  have heffect : st.effect (payment nonce) =
      (((st.touch (addrOf ownKey)).debit (addrOf ownKey) 7).credit (zeros 20) 7).bump (addrOf ownKey) := rfl
  refine ⟨.transfer ⟨rfl, (show isZero ownKey = false by decide), hsign _⟩ rfl hnonce.symm rfl hbalance, ?_, ?_⟩
  · rw [heffect]
    simp [hnonce]
  · rw [heffect]
    simp [hown]

/-- The account of the payer before the first payment. -/
theorem acct_paying (hown : addrOf ownKey ≠ zeros 20) :
    (((coinbases (addrOf ownKey) 1).st.credit (zeros 20) easyParams.reward).acct (addrOf ownKey)).nonce = 0 ∧
      (((coinbases (addrOf ownKey) 1).st.credit (zeros 20) easyParams.reward).acct (addrOf ownKey)).balance = 50 := by
  rw [State.nonce_credit, State.balance_credit, if_neg hown, acct_coinbases]
  exact ⟨rfl, rfl⟩

theorem payments_settle (hsign : ∀ hash, sigVerify ownKey hash (doubleSign hash) = true) (hown : addrOf ownKey ≠ zeros 20)
    (height : UInt64) :
    Settles easyParams height ((coinbases (addrOf ownKey) 1).st.credit (zeros 20) easyParams.reward)
        [payment 0, payment 1] ∧
      (paidChain.st.acct (addrOf ownKey)).balance = 36 := by
  obtain ⟨hnonce, hbalance⟩ := acct_paying hown
  obtain ⟨hfirst, hnonce₁, hbalance₁⟩ := payment_spends hsign hown height hnonce (by rw [hbalance]; decide)
  rw [hbalance] at hbalance₁
  obtain ⟨hsecond, -, hbalance₂⟩ := payment_spends hsign hown height hnonce₁ (by rw [hbalance₁]; decide)
  refine ⟨⟨hfirst, hsecond, trivial⟩, ?_⟩
  rw [paidChain, grow_st, paidBlock, candidate]
  dsimp only
  rw [State.effects_cons, effect_coinbaseTx, State.effects_cons, State.effects_cons, State.effects_nil]
  exact hbalance₂.trans (by rw [hbalance₁]; rfl)

theorem connect_paidBlock (hsign : ∀ hash, sigVerify ownKey hash (doubleSign hash) = true)
    (hown : addrOf ownKey ≠ zeros 20) : (coinbases (addrOf ownKey) 1).connectBlock easyClock paidBlock = .ok paidChain := by
  obtain ⟨hsound, hne⟩ := (coinbases_reachable (addrOf ownKey) 1).sound
  exact connect_candidate hsound hne (show 2 < maxBlockTxs by decide) (payments_settle hsign hown _).1

theorem paidChain_reachable (hsign : ∀ hash, sigVerify ownKey hash (doubleSign hash) = true)
    (hown : addrOf ownKey ≠ zeros 20) : Reachable easyParams paidChain :=
  (coinbases_reachable (addrOf ownKey) 1).connect (connect_paidBlock hsign hown)

theorem txs_paidChain : paidChain.txs = [coinbaseTx easyParams 1 (addrOf ownKey), coinbaseTx easyParams 2 (zeros 20),
    payment 0, payment 1] := rfl

end Chain

/-- SHA-256, with signatures that are the hash twice. -/
@[reducible] def ownCrypto : Crypto := Sha.crypto fun _ hash sig => sig == doubleSign hash

section
local instance paidCrypto : Crypto := ownCrypto

theorem verify_doubleSign (hash : H256) : sigVerify ownKey hash (doubleSign hash) = true := beq_self_eq_true _

theorem addrOf_ownKey : addrOf ownKey ≠ zeros 20 := by decide +kernel

end

end Chainlite
