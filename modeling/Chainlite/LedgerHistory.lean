import Chainlite.ChainReplay

/-! The transactions of a valid chain, one after another. An invariant that relates the state to the
transactions applied so far is proved for one application and holds of every chain. -/

open Std

namespace Chainlite

section
variable [Crypto] {p : Params} {height : UInt64}

/-- A relation kept by every application that succeeds holds between the state and a settled list. -/
theorem Settles.induction {motive : State → List Tx → Prop}
    (step : ∀ st done t first, TxValid st p height first t → motive st done →
      motive (st.effect t) (done ++ [t]))
    {st : State} {done txs : List Tx} (h : Settles p height st txs) (hstart : motive st done) :
    motive (st.effects txs) (done ++ txs) := by
  induction txs generalizing st done with
  | nil => simpa using hstart
  | cons t rest ih =>
      have := ih h.2 (step st done t false h.1 hstart)
      rwa [List.append_assoc] at this

end

namespace Chain

variable [Crypto] {p : Params}

/-- A block after the genesis: one coinbase, then transactions of other types. -/
theorem NextBlock.txs_eq {c : Chain} {b : Block} (h : NextBlock c b) :
    ∃ cb rest, b.txs = cb :: rest ∧ cb.type = txCoinbase ∧ cb.nonce = b.h.height ∧
      cb.amount = c.params.reward ∧ ∀ t ∈ rest, t.type ≠ txCoinbase := by
  obtain ⟨cb, rest, htxs, hcb, hrest⟩ := h.body
  cases hcb with
  | coinbase _ htype _ _ _ hamt hnonce =>
      refine ⟨cb, rest, htxs, htype, hnonce, hamt, fun t ht => ?_⟩
      obtain ⟨st, hvalid⟩ := hrest.valid_of_mem ht
      exact hvalid.ne_coinbase

theorem Accepts.next {c : Chain} {b : Block} (h : c.Accepts b) (hne : c.blocks ≠ []) : NextBlock c b := by
  rwa [Accepts, if_neg hne] at h

theorem Accepts.genesis {c : Chain} {b : Block} (h : c.Accepts b) (hnil : c.blocks = []) :
    GenesisBlock c.params b := by
  rwa [Accepts, if_pos hnil] at h

/-- Induction along the transactions of a valid chain, one application at a time. -/
theorem ValidBlocks.tx_induction {motive : State → List Tx → Prop} (empty : motive ∅ [])
    (step : ∀ st done t height first, TxValid st p height first t → motive st done →
      motive (st.effect t) (done ++ [t]))
    {bs : List Block} (h : ValidBlocks p bs) : motive (replay p bs).st (bs.flatMap Block.txs) := by
  refine ValidBlocks.induction (motive := fun bs => motive (replay p bs).st (bs.flatMap Block.txs))
    empty ?_ h
  intro bs b _ hb ih
  rw [replay_st_snoc, List.flatMap_append, List.flatMap_singleton]
  by_cases hnil : bs = []
  · have htxs := (hb.genesis (by rw [replay_blocks, hnil])).txs
    rw [htxs]
    simpa using ih
  · obtain ⟨cb, rest, htxs, hcb, hrest⟩ := (hb.next (by rwa [replay_blocks])).body
    rw [replay_params] at hcb hrest
    rw [htxs, State.effects_cons]
    have := hrest.induction (fun st done t first => step st done t b.h.height first)
      (step _ _ cb b.h.height true hcb ih)
    rwa [List.append_assoc] at this

end Chain

end Chainlite
