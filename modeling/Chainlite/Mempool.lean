import Chainlite.State

/-! The transactions waiting for a block, keyed by sender and nonce so that two of them cannot spend the
same nonce, with the set of their ids beside them. `collect` picks transactions in an order in which they
apply, `purge` drops those whose nonce the chain has used. -/

open Std

namespace Chainlite

abbrev PoolKey := Addr20 × UInt64

/-- The order of `std::pair`: the address first, then the nonce. -/
def poolCmp : PoolKey → PoolKey → Ordering := compareLex (compareOn Prod.fst) (compareOn Prod.snd)

instance : TransCmp poolCmp := inferInstanceAs (TransCmp (compareLex (compareOn Prod.fst) (compareOn Prod.snd)))

instance : LawfulEqCmp poolCmp where
  eq_of_compare {x y} h := by
    obtain ⟨hfst, hsnd⟩ := compareLex_eq_eq.mp h
    exact Prod.ext (LawfulEqCmp.eq_of_compare hfst) (LawfulEqCmp.eq_of_compare hsnd)

inductive PoolError where
  | coinbase
  | wrongNetworkId
  | full
  | alreadyPending
  | missingSender
  | badSignature
  | nonceUsed
  | nonceTooFar
  | insufficientBalance
  | transferPayload
  | recordAmount
  | badPayloadSize
  | unknownType
  | conflicting
  deriving DecidableEq, Repr

def PoolError.text : PoolError → String
  | .coinbase => "coinbase not allowed in mempool"
  | .wrongNetworkId => "wrong network id"
  | .full => "mempool full"
  | .alreadyPending => "already in mempool"
  | .missingSender => "missing sender"
  | .badSignature => "bad signature"
  | .nonceUsed => "nonce already used"
  | .nonceTooFar => "nonce too far ahead"
  | .insufficientBalance => "insufficient balance"
  | .transferPayload => "transfer payload not allowed"
  | .recordAmount => "record amount must be 0"
  | .badPayloadSize => "bad payload size"
  | .unknownType => "unknown tx type"
  | .conflicting => "conflicting tx (same sender+nonce) already pending"

structure Mempool where
  m : ExtTreeMap PoolKey Tx poolCmp := ∅
  ids : ExtTreeSet H256 := ∅

def maxPoolTxs : Nat := 10000
def maxNonceAhead : UInt64 := 16
def maxCollected : Nat := 1000

namespace Mempool

def size (pool : Mempool) : Nat := pool.m.size

def has (pool : Mempool) (id : H256) : Bool := pool.ids.contains id

variable [Crypto]

def find (pool : Mempool) (id : H256) : Option Tx :=
  (pool.m.toList.find? fun entry => entry.2.txid == id).map Prod.snd

/-- The checks of `add` by type. The balance is looked at only when the transaction is the next one of
its sender. -/
def shapeError (t : Tx) (acct : Account) : Option PoolError :=
  if t.type = txTransfer then
    if t.nonce = acct.nonce ∧ acct.balance < t.amount then some .insufficientBalance
    else if !t.payload.isEmpty then some .transferPayload
    else none
  else if t.type = txRecord then
    if t.amount ≠ 0 then some .recordAmount
    else if t.payload.isEmpty || maxPayload < t.payload.length then some .badPayloadSize
    else none
  else some .unknownType

def add (pool : Mempool) (t : Tx) (st : State) (p : Params) : Except PoolError Mempool :=
  if t.type = txCoinbase then .error .coinbase
  else if t.netId ≠ p.netId then .error .wrongNetworkId
  else if maxPoolTxs ≤ pool.m.size then .error .full
  else if pool.has t.txid then .error .alreadyPending
  else if isZero t.fromKey then .error .missingSender
  else if !sigVerify t.fromKey t.signHash t.sig then .error .badSignature
  else
    let acct := st.acct t.sender
    if t.nonce < acct.nonce then .error .nonceUsed
    else if acct.nonce + maxNonceAhead < t.nonce then .error .nonceTooFar
    else
      match shapeError t acct with
      | some err => .error err
      | none =>
          let key := (t.sender, t.nonce)
          if pool.m.contains key then .error .conflicting
          else .ok { m := pool.m.insert key t, ids := pool.ids.insert t.txid }

/-- One turn of the outer loop of `collect`: the state, what has been picked, and whether this turn picked
anything. It stops early once `maxn` transactions have been picked. -/
def collectPass (p : Params) (height : UInt64) (maxn : Nat) :
    List (PoolKey × Tx) → State → List Tx → Bool → State × List Tx × Bool
  | [], tmp, out, progress => (tmp, out, progress)
  | (key, tx) :: rest, tmp, out, progress =>
      if key.2 ≠ (tmp.acct key.1).nonce then collectPass p height maxn rest tmp out progress
      else
        match applyTx tmp tx p height false with
        | (none, tmp') =>
            if maxn ≤ (out ++ [tx]).length then (tmp', out ++ [tx], true)
            else collectPass p height maxn rest tmp' (out ++ [tx]) true
        | (some _, tmp') => collectPass p height maxn rest tmp' out progress

/-- The outer loop of `collect`. A turn that makes progress picks at least one transaction, so `fuel`
turns are enough when `fuel` of them reach `maxn`. -/
def collectFrom (p : Params) (height : UInt64) (maxn : Nat) (entries : List (PoolKey × Tx)) :
    Nat → State → List Tx → List Tx
  | 0, _, out => out
  | fuel + 1, tmp, out =>
      if out.length < maxn then
        match collectPass p height maxn entries tmp out false with
        | (tmp', out', true) => collectFrom p height maxn entries fuel tmp' out'
        | (_, out', false) => out'
      else out

/-- Transactions that apply one after another to a copy of `base`. -/
def collect (pool : Mempool) (base : State) (p : Params) (height : UInt64) : List Tx :=
  collectFrom p height maxCollected pool.m.toList maxCollected base []

/-- `collect` with its last argument given. -/
def collectUpTo (pool : Mempool) (base : State) (p : Params) (height : UInt64) (maxn : Nat) : List Tx :=
  collectFrom p height maxn pool.m.toList maxn base []

/-- Drop the transactions whose nonce the chain has consumed. -/
def purge (pool : Mempool) (st : State) : Mempool :=
  pool.m.toList.foldl (fun pool entry =>
    if entry.1.2 < (st.acct entry.1.1).nonce then
      { m := pool.m.erase entry.1, ids := pool.ids.erase entry.2.txid }
    else pool) pool

/-! ### `add` -/

/-- The shapes a pooled transaction can have. -/
structure WellShaped (t : Tx) (p : Params) : Prop where
  signed : t.Signed p
  shape : t.type = txTransfer ∧ t.payload = [] ∨
    t.type = txRecord ∧ t.amount = 0 ∧ t.payload ≠ [] ∧ t.payload.length ≤ maxPayload

omit [Crypto] in
theorem shapeError_eq_none {t : Tx} {acct : Account} (h : shapeError t acct = none) :
    t.type = txTransfer ∧ t.payload = [] ∨
      t.type = txRecord ∧ t.amount = 0 ∧ t.payload ≠ [] ∧ t.payload.length ≤ maxPayload := by
  unfold shapeError at h
  split_ifs at h <;> grind

/-- What `add` has checked when it adds. -/
theorem add_ok {pool pool' : Mempool} {t : Tx} {st : State} {p : Params} (h : pool.add t st p = .ok pool') :
    WellShaped t p ∧ pool.m.size < maxPoolTxs ∧ t.txid ∉ pool.ids ∧ (st.acct t.sender).nonce ≤ t.nonce ∧
      (t.sender, t.nonce) ∉ pool.m ∧
      pool' = { m := pool.m.insert (t.sender, t.nonce) t, ids := pool.ids.insert t.txid } := by
  simp only [add, guard_ok_iff] at h
  obtain ⟨-, hnet, hfull, hpending, hsender, hsig, hnonce, -, h⟩ := h
  cases hshape : shapeError t (st.acct t.sender) with
  | some err => simp [hshape] at h
  | none =>
      rw [hshape] at h
      obtain ⟨hfresh, h⟩ := guard_ok_iff.mp h
      injection h with h
      exact ⟨⟨⟨not_not.mp hnet, by simpa using hsender, by simpa using hsig⟩, shapeError_eq_none hshape⟩,
        Nat.lt_of_not_le hfull, by simpa [has] using hpending, UInt64.not_lt.mp hnonce, by simpa using hfresh,
        h.symm⟩

end Mempool

end Chainlite
