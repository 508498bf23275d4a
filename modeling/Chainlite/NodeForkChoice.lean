import Chainlite.NodeRun

/-! Fork-choice safety over whole runs: whatever arrives, the node's chain is one that a fresh node accepts
from its genesis block on, and it is only ever exchanged for one with more work. -/

open Std

namespace Chainlite

section
variable [Crypto] {p : Params}

/-- A change appends blocks, or it brings more work; either way the chain is one of valid blocks. -/
theorem ChainChange.sound {now : Nat → Clock} {c c' : Chain} (h : ChainChange now c c') (hsound : Chain.Sound p c)
    (hne : c.blocks ≠ []) : Chain.Sound p c' ∧ c'.blocks ≠ [] ∧
      ((∃ bs, bs ≠ [] ∧ c'.blocks = c.blocks ++ bs) ∨ c.work < c'.work) := by
  cases h with
  | extend h hn =>
      obtain ⟨hsound', done, -, hblocks, hcount, -⟩ := hsound.connectAll h
      have hdone : done ≠ [] := by
        rintro rfl
        simp at hcount
        omega
      exact ⟨hsound', by simp [hblocks, hne], Or.inl ⟨done, hdone, hblocks⟩⟩
  | replace h =>
      obtain ⟨hsound', hblocks, hcand, hwork⟩ := Chain.Sound.tryReplace hsound.params h
      exact ⟨hsound', hblocks ▸ hcand, Or.inr hwork⟩

theorem ChainChange.timely {now : Nat → Clock} {c c' : Chain} {t : Clock} (h : ChainChange now c c')
    (htime : Chain.AllTimely t c.blocks) (hnow : ∀ k, now k ≤ t) : Chain.AllTimely t c'.blocks := by
  cases h with
  | extend h _ => exact htime.connectAll hnow h
  | replace h => exact Chain.allTimely_tryReplace hnow h

/-- While the exact work fits 64 bits, a change brings more of it. -/
theorem ChainChange.work_lt {now : Nat → Clock} {c c' : Chain} (h : ChainChange now c c')
    (hsound : Chain.Sound p c) (hne : c.blocks ≠ []) (hwork : Chain.exactWork c'.blocks < 2 ^ 64) :
    c.work < c'.work := by
  obtain ⟨hsound', -, ⟨bs, hbs, hblocks⟩ | hmore⟩ := h.sound hsound hne
  · exact hsound.work_lt_append hsound' hne hbs hblocks hwork
  · exact hmore

/-- The chain of a node is valid at the time `t`. -/
structure Core.Valid (p : Params) (s : Core) (t : Clock) : Prop where
  params : s.params = p
  sound : Chain.Sound p s.chain
  nonempty : s.chain.blocks ≠ []
  timely : Chain.AllTimely t s.chain.blocks

theorem Core.Valid.step {r : Readings} {s s' : Core} {t t' : Clock} (h : s.Valid p t) (hr : r.Between t t')
    (hstep : CoreStep r s s') : s'.Valid p t' := by
  have htime := h.timely.mono hr.le
  cases hstep with
  | quiet => exact ⟨h.params, h.sound, h.nonempty, htime⟩
  | pooled => exact ⟨h.params, h.sound, h.nonempty, htime⟩
  | handedOut => exact ⟨h.params, h.sound, h.nonempty, htime⟩
  | job => exact ⟨h.params, h.sound, h.nonempty, htime⟩
  | changed job _ hchange =>
      obtain ⟨hsound, hne, -⟩ := hchange.sound h.sound h.nonempty
      exact ⟨h.params, hsound, hne, hchange.timely htime hr.upto⟩

theorem NodeRun.valid {a : App} {t : Clock} (h : NodeRun p a t) : a.core.Valid p t := by
  induction h with
  | start _ _ _ hupto h =>
      obtain ⟨hsound, hne⟩ := Chain.Sound.init h
      exact ⟨rfl, hsound, hne, Chain.allTimely_init hupto h⟩
  | step _ hr ev ih => exact ih.step hr (App.step_core _ _ ev)

theorem ChainChange.reachable {now : Nat → Clock} {c c' : Chain} (h : ChainChange now c c')
    (hc : Chain.Reachable p c) : Chain.Reachable p c' := by
  cases h with
  | extend h _ => exact hc.connectAll h
  | replace h => exact hc.replace h

/-- The chain of a node is always one that the chain's own operations reach. -/
theorem NodeRun.reachable {a : App} {t : Clock} (h : NodeRun p a t) : Chain.Reachable p a.chain := by
  induction h with
  | start _ _ _ _ h => exact .init h
  | @step a _ _ r _ _ ev ih =>
      rcases (App.step_core r a ev).chain with hsame | hchange
      · rwa [show (a.step r ev).chain = a.chain from hsame]
      · exact hchange.reachable ih

/-- **Fork-choice safety.** In every reached state the blocks of the node connect one after another to a
fresh chain, at any later time, and give the same ledger; and every event that can come next leaves the
block list as it is or increases the work. -/
theorem fork_choice_safe {a : App} {t : Clock} (h : NodeRun p a t) :
    (∀ now : Nat → Clock, (∀ k, t ≤ now k) → ∃ c,
      Chain.connectAll now 0 (Chain.fresh p) a.chain.blocks = (c, a.chain.blocks.length, none) ∧
      Chain.SameLedger a.chain c) ∧
    ∀ (r : Readings) (t' : Clock) (ev : Event), r.Between t t' →
      Chain.exactWork (a.step r ev).chain.blocks < 2 ^ 64 →
      (a.step r ev).chain.blocks = a.chain.blocks ∨ a.chain.work < (a.step r ev).chain.work := by
  have hvalid := h.valid
  have hsound : Chain.Sound p a.chain := hvalid.sound
  refine ⟨fun now hnow => ?_, fun r t' ev _ hwork => ?_⟩
  · obtain ⟨c, hall, hfresh, hblocks⟩ := Chain.Sound.fresh.connectAll_rest hsound.valid
      (fun k => hvalid.timely.mono (hnow k)) 0
    rw [Nat.zero_add] at hall
    exact ⟨c, hall, hsound.sameLedger hfresh hblocks.symm⟩
  · rcases (App.step_core r a ev).chain with hsame | hchange
    · exact Or.inl (congrArg Chain.blocks hsame)
    · exact Or.inr (hchange.work_lt hsound hvalid.nonempty hwork)

/-- The calls to the network leave the chain. -/
theorem App.step_chain (r : Readings) (a : App) (ev : Event) : (a.step r ev).chain = (a.handle r ev).1.chain := rfl

/-- A pushed block that is new and connects is on the chain after it. -/
theorem App.step_block_chain {a : App} {r : Readings} {b : Block} {c : Chain} (peer : Int)
    (hparse : Block.parse b.serialize = some b) (hnew : a.chain.hasBlock b.h.hash = false)
    (hconnect : a.chain.connectBlock (r.now 0) b = .ok c) : (a.step r (.msg peer mBlock b.serialize)).chain = c := by
  rw [step_chain, handle, onMsg, if_neg (by decide), if_neg (by decide), if_neg (by decide), if_neg (by decide),
    if_pos rfl, onBlock, hparse]
  dsimp only
  rw [hnew, if_neg Bool.false_ne_true, hconnect]
  rfl

/-! ### A first block -/

/-- The block of a coinbase on the genesis block. -/
def pushedBlock : Block :=
  Chain.candidate Chain.easyParams (Chain.coinbases (zeros 20) 0) (zeros 20) [] Chain.easyParams.genesisTime 0

theorem pushedBlock_fits : pushedBlock.Fits := by
  refine ⟨show 1 ≤ maxBlockTxs by decide, fun t ht => ?_⟩
  rw [List.mem_singleton.mp ht]
  exact Nat.zero_le maxPayload

theorem connect_pushedBlock : (Chain.coinbases (zeros 20) 0).connectBlock Chain.easyClock pushedBlock =
    .ok (Chain.coinbases (zeros 20) 1) := by
  obtain ⟨hsound, hne⟩ := (Chain.coinbases_reachable (zeros 20) 0).sound
  exact Chain.connect_coinbases hsound hne

/-- The node when the block has come. -/
def grownNode : App := easyNode.step easyReadings (.msg 1 mBlock pushedBlock.serialize)

theorem grownNode_run : NodeRun Chain.easyParams grownNode Chain.easyClock := easyNode_run.step easyReadings_between _

theorem grownNode_chain (hnew : easyNode.chain.hasBlock pushedBlock.h.hash = false) :
    grownNode.chain = Chain.coinbases (zeros 20) 1 :=
  App.step_block_chain 1 (Block.parse_serialize pushedBlock_fits) hnew connect_pushedBlock

end

section
local instance forkChoiceCrypto : Crypto := Sha.crypto fun _ _ _ => false

theorem pushedBlock_new : easyNode.chain.hasBlock pushedBlock.h.hash = false := by
  decide +kernel

/-- The block is more work, and the blocks after it replay to the same ledger. -/
theorem fork_choice_safe_pushed : easyNode.chain.work < grownNode.chain.work ∧
    ∃ c, Chain.connectAll (fun _ => Chain.easyClock) 0 (Chain.fresh Chain.easyParams) grownNode.chain.blocks = (c, 2, none) ∧
      Chain.SameLedger grownNode.chain c := by
  have hchain := grownNode_chain pushedBlock_new
  have hlength : grownNode.chain.blocks.length = 2 := by rw [hchain, Chain.length_coinbases]
  have hwork : Chain.exactWork grownNode.chain.blocks < 2 ^ 64 := by
    obtain ⟨hsound, hne⟩ := (Chain.coinbases_reachable (zeros 20) 1).sound
    rw [hchain, hsound.valid.exactWork hne, Chain.length_coinbases]
    decide
  constructor
  · have hstep : easyNode.step easyReadings (.msg 1 mBlock pushedBlock.serialize) = grownNode := rfl
    have hgrows := (fork_choice_safe easyNode_run).2 easyReadings Chain.easyClock
      (.msg 1 mBlock pushedBlock.serialize) easyReadings_between
    rw [hstep] at hgrows
    refine (hgrows hwork).resolve_left fun hsame => ?_
    have hold : easyNode.chain.blocks.length = 1 := Chain.length_coinbases (zeros 20) 0
    have hequal : grownNode.chain.blocks.length = easyNode.chain.blocks.length := congrArg List.length hsame
    omega
  · obtain ⟨c, hall, hsame⟩ := (fork_choice_safe grownNode_run).1 (fun _ => Chain.easyClock) fun _ => Clock.le_refl _
    exact ⟨c, hlength ▸ hall, hsame⟩

end

end Chainlite
