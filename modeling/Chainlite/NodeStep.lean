import Chainlite.BlockCodec
import Chainlite.Node

/-! What one event does to a node. Each way out of a handler is a case of `Handled`, with the guards that lead to it and
the calls that it makes; what holds of every event is then proved by these cases, and no handler is unfolded again. -/

open Std

namespace Chainlite

/-- Only tips are broadcast. -/
def OnlyTips (calls : List NetCall) : Prop :=
  ∀ type payload except, NetCall.broadcast type payload except ∈ calls → type = mTip

theorem OnlyTips.nil : OnlyTips [] := nofun

theorem OnlyTips.sendTo (peer : Int) (type : UInt8) (payload : Bytes) : OnlyTips [.sendTo peer type payload] :=
  fun _ _ _ h => NetCall.noConfusion (List.mem_singleton.mp h)

theorem OnlyTips.tip (payload : Bytes) (except : Int) : OnlyTips [.broadcast mTip payload except] :=
  fun _ _ _ h => (NetCall.broadcast.inj (List.mem_singleton.mp h)).1

/-- The payload of a broadcast of this type. -/
def NetCall.broadcastOf (type : UInt8) : NetCall → Option Bytes
  | .broadcast type' payload _ => if type' = type then some payload else none
  | .sendTo _ _ _ => none

theorem OnlyTips.broadcastOf {calls : List NetCall} (h : OnlyTips calls) {type : UInt8} (htype : type ≠ mTip) :
    calls.filterMap (NetCall.broadcastOf type) = [] := by
  apply List.filterMap_eq_nil_iff.mpr
  intro call hcall
  cases call with
  | sendTo => rfl
  | broadcast type' payload except =>
      have hne : ¬type' = type := by
        rw [h type' payload except hcall]
        exact htype.symm
      exact if_neg hne

/-- The event is a BLOCKS message with these blocks. -/
def Event.Replies (ev : Event) (v : List Block) : Prop :=
  ∃ peer payload rest, ev = .msg peer mBlocks payload ∧ App.readBlocks payload = .ok (some v, rest)

theorem Event.not_replies (ev : Event) (h : ∀ peer payload, ev ≠ .msg peer mBlocks payload) (v : List Block) :
    ¬ev.Replies v := fun ⟨peer, payload, _, heq, _⟩ => h peer payload heq

theorem Event.not_replies_of_type {type : UInt8} (h : type ≠ mBlocks) (peer : Int) (payload : Bytes) (v : List Block) :
    ¬(Event.msg peer type payload).Replies v :=
  Event.not_replies _ (fun _ _ heq => h (Event.msg.inj heq).2.1) v

variable [Crypto]

/-- What an event leads to. A tip or a block from a peer may start a session, the blocks of a reply go to the session,
and all else is said in full. -/
inductive Handled (r : Readings) (a : App) (ev : Event) : App × List NetCall → Prop
  | ignored (hnet : ∀ p2p, ev ≠ .net p2p) (hev : ∀ v, ¬ev.Replies v) : Handled r a ev (a, [])
  | net (p2p : P2P) (hev : ev = .net p2p) : Handled r a ev ({ a with p2p := p2p }, [])
  | greeted (peer : Int) (hev : ev = .ready peer) : Handled r a ev (a, [.sendTo peer mTip a.tipPayload])
  | announced (hev : ev = .keepalive) : Handled r a ev (a, [a.announceTip (-1)])
  | served (peer : Int) (reply : Bytes) (hev : ∀ v, ¬ev.Replies v) : Handled r a ev (a, [.sendTo peer mBlocks reply])
  | ended (hev : ∀ v, ¬ev.Replies v) : Handled r a ev (a.resetSync, [])
  | asked {peer : Int} {type : UInt8} {payload : Bytes} (hev : ev = .msg peer type payload) (htype : type ≠ mBlocks) :
      Handled r a ev (a.maybeSync (r.ms 0) peer)
  | replied {peer : Int} {payload : Bytes} {v : List Block} {rest : Bytes} (hev : ev = .msg peer mBlocks payload)
      (hread : App.readBlocks payload = .ok (some v, rest)) : Handled r a ev (a.handleBlocks r peer v)
  | pooled {t : Tx} {pool : Mempool} (except : Int) (hfits : t.Fits)
      (hnew : ¬(a.pool.has t.txid || a.chain.txidx.contains t.txid) = true)
      (hadd : a.pool.add t a.chain.st a.params = .ok pool) (hev : ∀ v, ¬ev.Replies v) :
      Handled r a ev ({ a with pool := pool }, [.broadcast mTx t.serialize except])
  | connected {b : Block} {c : Chain} {job : Option (UInt64 × Block)} (tip : Bytes) (except : Int)
      (hjob : job = a.job ∨ job = none) (hconnect : a.chain.connectBlock (r.now 0) b = .ok c)
      (hev : ∀ v, ¬ev.Replies v) :
      Handled r a ev ({ App.postChainChange { a with chain := c } with job := job },
        [.broadcast mTip tip except, .broadcast mBlock b.serialize except])
  | handedOut (payto : Addr20) (hev : ∀ v, ¬ev.Replies v) : Handled r a ev ((a.workFor r payto).1, [])
  | job {job : Option (UInt64 × Block)} (hev : ∀ v, ¬ev.Replies v)
      (hjob : job = none ∨ job = some (a.tipSeq,
        a.chain.template a.params a.pool a.minerAddr (r.now 1).seconds 0)) : Handled r a ev ({ a with job := job }, [])

namespace App

variable {r : Readings} {a : App}

omit [Crypto] in
/-- A session starts when there is none and the peer has more work. -/
theorem maybeSync_cases (ms : UInt64) (a : App) (peer : Int) :
    a.maybeSync ms peer = (a, []) ∨ a.syncPeer = -1 ∧ (∃ tip, a.p2p.peerTip peer = some tip) ∧
      a.maybeSync ms peer = requestBlocks ms
        { a with syncPeer := peer, syncMode := .extend, syncExtendGot := 0, cand := [] } peer (a.chain.height + 1) := by
  unfold maybeSync
  split
  · exact Or.inl rfl
  · rename_i hidle
    split
    · exact Or.inl rfl
    · rename_i htip
      split
      · exact Or.inl rfl
      · exact Or.inr ⟨not_not.mp hidle, ⟨_, htip⟩, rfl⟩

omit [Crypto] in
theorem maybeSync_onlyTips (ms : UInt64) (a : App) (peer : Int) : OnlyTips (a.maybeSync ms peer).2 := by
  rcases maybeSync_cases ms a peer with hsame | ⟨-, -, hstarted⟩
  · rw [hsame]
    exact .nil
  · rw [hstarted]
    exact .sendTo _ _ _

/-- A session asks for more, or it ends with a tip or without. -/
theorem handleBlocks_onlyTips (peer : Int) (v : List Block) : OnlyTips (a.handleBlocks r peer v).2 := by
  have hextend : ∀ a : App, OnlyTips (a.extendBlocks r peer v).2 := by
    intro a
    unfold extendBlocks
    rcases Chain.connectAll r.now 0 a.chain v with ⟨c, n, err⟩
    dsimp only
    generalize (if 0 < n then postChainChange { a with chain := c } else a) = a₁
    split
    · exact .sendTo _ _ _
    · split
      · exact .tip _ _
      · split
        · exact .sendTo _ _ _
        · exact .nil
  have hcollect : ∀ a : App, OnlyTips (a.collectBlocks r peer v).2 := by
    intro a
    unfold collectBlocks
    dsimp only
    split
    · exact .nil
    · split
      · exact .sendTo _ _ _
      · split
        · exact .tip _ _
        · exact .nil
  unfold handleBlocks
  split
  · exact .nil
  · dsimp only
    split
    · exact .nil
    · exact hextend _
    · exact hcollect _

theorem onTx_handled (peer : Int) (payload : Bytes) : Handled r a (.msg peer mTx payload) (a.onTx peer payload) := by
  have hev := Event.not_replies_of_type (show mTx ≠ mBlocks by decide) peer payload
  unfold onTx
  split
  · rename_i t hparse
    obtain ⟨hfits, rfl⟩ := Tx.parse_eq_iff.mp hparse
    split
    · exact .ignored nofun hev
    · rename_i hnew
      split
      · rename_i hadd
        exact .pooled peer hfits hnew hadd hev
      · exact .ignored nofun hev
  · exact .ignored nofun hev

theorem onBlock_handled (peer : Int) (payload : Bytes) :
    Handled r a (.msg peer mBlock payload) (a.onBlock r peer payload) := by
  have hev := Event.not_replies_of_type (show mBlock ≠ mBlocks by decide) peer payload
  unfold onBlock
  split
  · exact .ignored nofun hev
  · rename_i b hparse
    obtain ⟨-, rfl⟩ := Block.parse_eq_some_iff.mp hparse
    split
    · exact .ignored nofun hev
    · split
      · rename_i hconnect
        exact .connected _ peer (Or.inl rfl) hconnect hev
      · split
        · exact .asked rfl (by decide)
        · exact .ignored nofun hev

theorem onMsg_handled (peer : Int) (type : UInt8) (payload : Bytes) :
    Handled r a (.msg peer type payload) (a.onMsg r peer type payload) := by
  unfold onMsg
  split_ifs with htip hget hblocks htx hblock
  · exact .asked rfl (by rw [htip]; decide)
  · have hev := Event.not_replies_of_type (show type ≠ mBlocks by rw [hget]; decide) peer payload
    unfold onGetBlocks
    split
    · exact .ignored nofun hev
    · exact .served peer _ hev
  · subst hblocks
    unfold onBlocks
    split
    · rename_i hread
      exact .replied rfl hread
    · rename_i hunread
      refine .ignored nofun ?_
      rintro v ⟨_, _, rest, heq, hread⟩
      obtain ⟨-, -, rfl⟩ := Event.msg.inj heq
      exact hunread v rest hread
  · subst htx
    exact onTx_handled peer payload
  · subst hblock
    exact onBlock_handled peer payload
  · exact .ignored nofun (Event.not_replies_of_type hblocks peer payload)

theorem submit_handled (body : String) : Handled r a (.submit body) ((a.submit body).1, (a.submit body).2.1) := by
  have hev := Event.not_replies (.submit body) nofun
  unfold submit
  split
  · exact .ignored nofun hev
  · split
    · exact .ignored nofun hev
    · rename_i t rest hparse
      split
      · exact .ignored nofun hev
      · rename_i hrest
        obtain ⟨hfits, hraw⟩ := Tx.parse_ok hparse
        rw [not_not.mp hrest, List.append_nil] at hraw
        subst hraw
        split
        · exact .ignored nofun hev
        · rename_i hnew
          split
          · exact .ignored nofun hev
          · rename_i hadd
            exact .pooled (-1) hfits hnew hadd hev

theorem work_handled (addr : Option String) : Handled r a (.work addr) ((a.work r addr).1, []) := by
  have hev := Event.not_replies (.work addr) nofun
  unfold work
  split
  · exact .handedOut a.minerAddr hev
  · split
    · exact .ignored nofun hev
    · exact .handedOut _ hev

theorem submitWork_handled (body : String) :
    Handled r a (.submitWork body) ((a.submitWork r body).1, (a.submitWork r body).2.1) := by
  have hev := Event.not_replies (.submitWork body) nofun
  unfold submitWork
  split
  · exact .ignored nofun hev
  · split
    · exact .ignored nofun hev
    · split
      · exact .ignored nofun hev
      · split
        · exact .ignored nofun hev
        · split
          · exact .ignored nofun hev
          · rename_i hconnect
            exact .connected _ (-1) (Or.inl rfl) hconnect hev

theorem minerSnapshot_handled : Handled r a .minerSnapshot (a.minerSnapshot r, []) := by
  have hev := Event.not_replies (.minerSnapshot) nofun
  unfold minerSnapshot
  split
  · exact .ignored nofun hev
  · dsimp only
    split
    · exact .job hev (Or.inr rfl)
    · exact .job hev (Or.inl rfl)

theorem minerCommit_handled (nonce : UInt64) : Handled r a (.minerCommit nonce) (a.minerCommit r nonce) := by
  have hev := Event.not_replies (.minerCommit nonce) nofun
  unfold minerCommit
  split
  · exact .ignored nofun hev
  · dsimp only
    split
    · exact .job hev (Or.inl rfl)
    · split
      · rename_i hconnect
        exact .connected _ (-1) (Or.inr rfl) hconnect hev
      · exact .job hev (Or.inl rfl)

/-- **One event, in full.** -/
theorem handled (r : Readings) (a : App) (ev : Event) : Handled r a ev (a.handle r ev) := by
  cases ev with
  | net p2p => exact .net p2p rfl
  | ready peer => exact .greeted peer rfl
  | gone peer =>
      have hev := Event.not_replies (.gone peer) nofun
      unfold handle onGone
      dsimp only
      split
      · exact .ended hev
      · exact .ignored nofun hev
  | msg peer type payload => exact onMsg_handled peer type payload
  | keepalive => exact .announced rfl
  | timeout =>
      have hev := Event.not_replies (.timeout) nofun
      unfold handle checkTimeout
      dsimp only
      split
      · exact .ended hev
      · exact .ignored nofun hev
  | submit body => exact submit_handled body
  | work addr => exact work_handled addr
  | submitWork body => exact submitWork_handled body
  | minerSnapshot => exact minerSnapshot_handled
  | minerCommit nonce => exact minerCommit_handled nonce

end App

end Chainlite
