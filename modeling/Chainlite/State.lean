import Chainlite.Block

/-! The account state and `apply_tx`. The map is the ordered map of the source; looking an account
up with `st[a]` creates it, so a rejected transaction may leave an empty account behind, and the
model returns the state with the error. What one application can do is said once, by `TxValid` and
`State.effect`. -/

open Std

namespace Chainlite

@[ext]
structure Account where
  balance : UInt64 := 0
  nonce : UInt64 := 0
  deriving DecidableEq, Repr

abbrev State := ExtTreeMap Addr20 Account

namespace State

/-- The account at `a`, empty when there is none. -/
def acct (st : State) (a : Addr20) : Account := st.getD a {}

/-- `st[a]`: the entry exists afterwards. -/
def touch (st : State) (a : Addr20) : State := st.insert a (st.acct a)

def credit (st : State) (a : Addr20) (v : UInt64) : State :=
  st.insert a { st.acct a with balance := (st.acct a).balance + v }

def debit (st : State) (a : Addr20) (v : UInt64) : State :=
  st.insert a { st.acct a with balance := (st.acct a).balance - v }

def bump (st : State) (a : Addr20) : State :=
  st.insert a { st.acct a with nonce := (st.acct a).nonce + 1 }

theorem acct_insert (st : State) (a b : Addr20) (x : Account) :
    acct (st.insert a x) b = if b = a then x else st.acct b := by
  simp only [acct, ExtTreeMap.getD_insert, LawfulEqCmp.compare_eq_iff_eq, @eq_comm _ a b]

@[simp] theorem acct_empty (a : Addr20) : acct (∅ : State) a = {} := by simp [acct]

@[simp] theorem acct_touch (st : State) (a b : Addr20) : (st.touch a).acct b = st.acct b := by
  rw [touch, acct_insert]
  split
  · rename_i h
    rw [h]
  · rfl

@[simp] theorem balance_credit (st : State) (a b : Addr20) (v : UInt64) :
    ((st.credit a v).acct b).balance =
      if b = a then (st.acct b).balance + v else (st.acct b).balance := by
  rw [credit, acct_insert]
  split <;> simp_all

@[simp] theorem nonce_credit (st : State) (a b : Addr20) (v : UInt64) :
    ((st.credit a v).acct b).nonce = (st.acct b).nonce := by
  rw [credit, acct_insert]
  split <;> simp_all

@[simp] theorem balance_debit (st : State) (a b : Addr20) (v : UInt64) :
    ((st.debit a v).acct b).balance =
      if b = a then (st.acct b).balance - v else (st.acct b).balance := by
  rw [debit, acct_insert]
  split <;> simp_all

@[simp] theorem nonce_debit (st : State) (a b : Addr20) (v : UInt64) :
    ((st.debit a v).acct b).nonce = (st.acct b).nonce := by
  rw [debit, acct_insert]
  split <;> simp_all

@[simp] theorem balance_bump (st : State) (a b : Addr20) :
    ((st.bump a).acct b).balance = (st.acct b).balance := by
  rw [bump, acct_insert]
  split <;> simp_all

@[simp] theorem nonce_bump (st : State) (a b : Addr20) :
    ((st.bump a).acct b).nonce = if b = a then (st.acct b).nonce + 1 else (st.acct b).nonce := by
  rw [bump, acct_insert]
  split <;> simp_all

end State

/-! ### Applying a transaction -/

inductive TxError where
  | wrongNetworkId
  | coinbaseNotFirst
  | coinbaseFromSig
  | coinbasePayload
  | badCoinbaseAmount
  | coinbaseNonce
  | firstNotCoinbase
  | missingSender
  | badSignature
  | badNonce (want got : UInt64)
  | transferPayload
  | insufficientBalance
  | recordAmount
  | badPayloadSize
  | unknownType
  deriving DecidableEq, Repr

def TxError.text : TxError → String
  | .wrongNetworkId => "wrong network id"
  | .coinbaseNotFirst => "coinbase must be first tx"
  | .coinbaseFromSig => "coinbase must have zero from/sig"
  | .coinbasePayload => "coinbase payload not allowed"
  | .badCoinbaseAmount => "bad coinbase amount"
  | .coinbaseNonce => "coinbase nonce must equal height"
  | .firstNotCoinbase => "first tx must be coinbase"
  | .missingSender => "missing sender"
  | .badSignature => "bad signature"
  | .badNonce want got => s!"bad nonce (want {want} got {got})"
  | .transferPayload => "transfer payload not allowed"
  | .insufficientBalance => "insufficient balance"
  | .recordAmount => "record amount must be 0"
  | .badPayloadSize => "bad payload size"
  | .unknownType => "unknown tx type"

variable [Crypto]

def Tx.sender (t : Tx) : Addr20 := addrOf t.fromKey

/-- The branch of `apply_tx` for a coinbase. -/
def applyCoinbase (st : State) (t : Tx) (p : Params) (height : UInt64) (isFirst : Bool) :
    Option TxError × State :=
  if !isFirst then (some .coinbaseNotFirst, st)
  else if !isZero t.fromKey || !isZero t.sig then (some .coinbaseFromSig, st)
  else if !t.payload.isEmpty then (some .coinbasePayload, st)
  else if t.amount ≠ p.reward then (some .badCoinbaseAmount, st)
  else if t.nonce ≠ height then (some .coinbaseNonce, st)
  else (none, st.credit t.toAddr t.amount)

/-- The branches of `apply_tx` by type, once the nonce of the sender `a` is right. -/
def applyByType (st : State) (t : Tx) (a : Addr20) : Option TxError × State :=
  if t.type = txTransfer then
    if !t.payload.isEmpty then (some .transferPayload, st)
    else if (st.acct a).balance < t.amount then (some .insufficientBalance, st)
    else (none, ((st.debit a t.amount).credit t.toAddr t.amount).bump a)
  else if t.type = txRecord then
    if t.amount ≠ 0 then (some .recordAmount, st)
    else if t.payload.isEmpty || maxPayload < t.payload.length then (some .badPayloadSize, st)
    else (none, st.bump a)
  else (some .unknownType, st)

/-- Validate and apply one transaction: no error on success, and the state as it is left. -/
def applyTx (st : State) (t : Tx) (p : Params) (height : UInt64) (isFirst : Bool) :
    Option TxError × State :=
  if t.netId ≠ p.netId then (some .wrongNetworkId, st)
  else if t.type = txCoinbase then applyCoinbase st t p height isFirst
  else if isFirst then (some .firstNotCoinbase, st)
  else if isZero t.fromKey then (some .missingSender, st)
  else if !sigVerify t.fromKey t.signHash t.sig then (some .badSignature, st)
  else
    let st := st.touch t.sender
    let want := (st.acct t.sender).nonce
    if t.nonce ≠ want then (some (.badNonce want t.nonce), st) else applyByType st t t.sender

/-- The checks on a signed transaction that do not depend on the state. -/
structure Tx.Signed (t : Tx) (p : Params) : Prop where
  netId : t.netId = p.netId
  sender : isZero t.fromKey = false
  sig : sigVerify t.fromKey t.signHash t.sig = true

/-- The three kinds of transaction that apply to a state, the first of a block being a coinbase. -/
inductive TxValid (st : State) (p : Params) (height : UInt64) : Bool → Tx → Prop
  | coinbase {t : Tx} (netId : t.netId = p.netId) (type : t.type = txCoinbase)
      (noSender : isZero t.fromKey = true) (noSig : isZero t.sig = true) (payload : t.payload = [])
      (amount : t.amount = p.reward) (nonce : t.nonce = height) : TxValid st p height true t
  | transfer {t : Tx} (signed : t.Signed p) (type : t.type = txTransfer)
      (nonce : t.nonce = (st.acct t.sender).nonce) (payload : t.payload = [])
      (balance : t.amount ≤ (st.acct t.sender).balance) : TxValid st p height false t
  | record {t : Tx} (signed : t.Signed p) (type : t.type = txRecord)
      (nonce : t.nonce = (st.acct t.sender).nonce) (amount : t.amount = 0)
      (payload : t.payload ≠ []) (size : t.payload.length ≤ maxPayload) :
      TxValid st p height false t

/-- What a transaction that applies does to the state. -/
def State.effect (st : State) (t : Tx) : State :=
  if t.type = txCoinbase then st.credit t.toAddr t.amount
  else if t.type = txTransfer then
    (((st.touch t.sender).debit t.sender t.amount).credit t.toAddr t.amount).bump t.sender
  else (st.touch t.sender).bump t.sender

omit [Crypto] in
theorem applyCoinbase_ok_iff {st st' : State} {t : Tx} {p : Params} {height : UInt64} {isFirst : Bool} :
    applyCoinbase st t p height isFirst = (none, st') ↔
      isFirst = true ∧ isZero t.fromKey = true ∧ isZero t.sig = true ∧ t.payload = [] ∧
        t.amount = p.reward ∧ t.nonce = height ∧ st.credit t.toAddr t.amount = st' := by
  unfold applyCoinbase
  split_ifs <;> grind

omit [Crypto] in
theorem applyByType_ok_iff {st st' : State} {t : Tx} {a : Addr20} :
    applyByType st t a = (none, st') ↔
      (t.type = txTransfer ∧ t.payload = [] ∧ t.amount ≤ (st.acct a).balance ∧
        ((st.debit a t.amount).credit t.toAddr t.amount).bump a = st') ∨
      (t.type = txRecord ∧ t.amount = 0 ∧ t.payload ≠ [] ∧ t.payload.length ≤ maxPayload ∧
        st.bump a = st') := by
  have hne : txTransfer ≠ txRecord := by decide
  unfold applyByType
  split_ifs <;> grind

/-- **One application, in full.** -/
theorem applyTx_ok_iff {st st' : State} {t : Tx} {p : Params} {height : UInt64} {isFirst : Bool} :
    applyTx st t p height isFirst = (none, st') ↔
      TxValid st p height isFirst t ∧ st' = st.effect t := by
  constructor
  · intro h
    simp only [applyTx] at h
    split_ifs at h with hnet htype hfirst hsender hsig hnonce
    · simp at h
    · obtain ⟨rfl, hfrom, hsig, hpay, hamt, hnonce, rfl⟩ := applyCoinbase_ok_iff.mp h
      exact ⟨.coinbase (not_not.mp hnet) htype hfrom hsig hpay hamt hnonce, by
        rw [State.effect, if_pos htype]⟩
    · simp at h
    · simp at h
    · simp at h
    · simp at h
    · have hsigned : t.Signed p := ⟨not_not.mp hnet, by simpa using hsender, by simpa using hsig⟩
      rw [not_not, State.acct_touch] at hnonce
      obtain rfl : isFirst = false := by simpa using hfirst
      rcases applyByType_ok_iff.mp h with ⟨htr, hpay, hbal, rfl⟩ | ⟨hrec, hamt, hpay, hsize, rfl⟩
      · exact ⟨.transfer hsigned htr hnonce hpay (by simpa using hbal), by
          rw [State.effect, if_neg htype, if_pos htr]⟩
      · have htr : t.type ≠ txTransfer := by rw [hrec]; decide
        exact ⟨.record hsigned hrec hnonce hamt hpay hsize, by
          rw [State.effect, if_neg htype, if_neg htr]⟩
  · rintro ⟨hvalid, rfl⟩
    cases hvalid with
    | coinbase hnet htype hfrom hsig hpay hamt hnonce =>
        rw [applyTx, if_neg (not_not.mpr hnet), if_pos htype, applyCoinbase_ok_iff, State.effect,
          if_pos htype]
        exact ⟨rfl, hfrom, hsig, hpay, hamt, hnonce, rfl⟩
    | transfer hsigned htype hnonce hpay hbal =>
        have hcb : t.type ≠ txCoinbase := by rw [htype]; decide
        simp only [applyTx, hsigned.netId, hsigned.sender, hsigned.sig, State.acct_touch, hnonce, hcb,
          ne_eq, not_true_eq_false, if_false, Bool.false_eq_true, Bool.not_true]
        rw [applyByType_ok_iff, State.effect, if_neg hcb, if_pos htype]
        exact Or.inl ⟨htype, hpay, by simpa using hbal, rfl⟩
    | record hsigned htype hnonce hamt hpay hsize =>
        have hcb : t.type ≠ txCoinbase := by rw [htype]; decide
        have htr : t.type ≠ txTransfer := by rw [htype]; decide
        simp only [applyTx, hsigned.netId, hsigned.sender, hsigned.sig, State.acct_touch, hnonce, hcb,
          ne_eq, not_true_eq_false, if_false, Bool.false_eq_true, Bool.not_true]
        rw [applyByType_ok_iff, State.effect, if_neg hcb, if_neg htr]
        exact Or.inr ⟨htype, hamt, hpay, hsize, rfl⟩

/-! ### A block body -/

/-- The loop of `connect_block` over the transactions from index `i` on. -/
def applyBody (p : Params) (height : UInt64) : State → Nat → List Tx → Except (Nat × TxError) State
  | st, _, [] => .ok st
  | st, i, t :: rest =>
      match applyTx st t p height (i == 0) with
      | (none, st') => applyBody p height st' (i + 1) rest
      | (some err, _) => .error (i, err)

/-- The transactions apply one after another, none of them in the first place of a block. -/
def Settles (p : Params) (height : UInt64) : State → List Tx → Prop
  | _, [] => True
  | st, t :: rest => TxValid st p height false t ∧ Settles p height (st.effect t) rest

def State.effects (st : State) (txs : List Tx) : State := txs.foldl State.effect st

@[simp] theorem State.effects_nil (st : State) : st.effects [] = st := rfl

@[simp] theorem State.effects_cons (st : State) (t : Tx) (txs : List Tx) :
    st.effects (t :: txs) = (st.effect t).effects txs := rfl

theorem State.effects_append (st : State) (txs txs' : List Tx) :
    st.effects (txs ++ txs') = (st.effects txs).effects txs' := List.foldl_append

variable {p : Params} {height : UInt64}

theorem Settles.append_iff {st : State} {txs txs' : List Tx} :
    Settles p height st (txs ++ txs') ↔
      Settles p height st txs ∧ Settles p height (st.effects txs) txs' := by
  induction txs generalizing st with
  | nil => simp [Settles]
  | cons t txs ih => simp only [List.cons_append, Settles, ih, State.effects_cons, and_assoc]

theorem applyBody_cons_ok_iff {st st' : State} {i : Nat} {t : Tx} {rest : List Tx} :
    applyBody p height st i (t :: rest) = .ok st' ↔
      TxValid st p height (i == 0) t ∧ applyBody p height (st.effect t) (i + 1) rest = .ok st' := by
  rw [applyBody]
  rcases happly : applyTx st t p height (i == 0) with ⟨_ | err, st₁⟩
  · obtain ⟨hvalid, rfl⟩ := applyTx_ok_iff.mp happly
    simp only [hvalid, true_and]
  · simp only [reduceCtorEq, false_iff, not_and]
    intro hvalid
    rw [applyTx_ok_iff.mpr ⟨hvalid, rfl⟩] at happly
    simp at happly

theorem applyBody_succ_ok_iff {st st' : State} {i : Nat} {txs : List Tx} :
    applyBody p height st (i + 1) txs = .ok st' ↔ Settles p height st txs ∧ st' = st.effects txs := by
  induction txs generalizing st i with
  | nil => simp [applyBody, Settles, eq_comm]
  | cons t txs ih => rw [applyBody_cons_ok_iff, ih, Settles, State.effects_cons, and_assoc]; rfl

/-- A body applies when it is a coinbase followed by transactions that apply in their order. -/
theorem applyBody_ok_iff {st st' : State} {txs : List Tx} (hne : txs ≠ []) :
    applyBody p height st 0 txs = .ok st' ↔
      ∃ cb rest, txs = cb :: rest ∧ TxValid st p height true cb ∧
        Settles p height (st.effect cb) rest ∧ st' = st.effects txs := by
  cases txs with
  | nil => exact absurd rfl hne
  | cons cb rest =>
      rw [applyBody_cons_ok_iff, applyBody_succ_ok_iff]
      constructor
      · rintro ⟨hcb, hrest, rfl⟩
        exact ⟨cb, rest, rfl, hcb, hrest, rfl⟩
      · rintro ⟨_, _, heq, hcb, hrest, hst⟩
        obtain ⟨rfl, rfl⟩ := List.cons.inj heq
        exact ⟨hcb, hrest, hst⟩

theorem TxValid.ne_coinbase {st : State} {t : Tx} (h : TxValid st p height false t) : t.type ≠ txCoinbase := by
  cases h with
  | transfer _ htype => rw [htype]; decide
  | record _ htype => rw [htype]; decide

/-- A transaction that applies is within the limits of the parser. -/
theorem TxValid.fits {st : State} {first : Bool} {t : Tx} (h : TxValid st p height first t) : t.Fits := by
  cases h with
  | coinbase _ _ _ _ hpay => simp [Tx.Fits, hpay]
  | transfer _ _ _ hpay => simp [Tx.Fits, hpay]
  | record _ _ _ _ _ hsize => exact hsize

theorem Settles.valid_of_mem {st : State} {txs : List Tx} (h : Settles p height st txs) {t : Tx}
    (ht : t ∈ txs) : ∃ st', TxValid st' p height false t := by
  obtain ⟨before, after, rfl⟩ := List.append_of_mem ht
  exact ⟨_, (Settles.append_iff.mp h).2.1⟩

end Chainlite
