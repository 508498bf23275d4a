import Chainlite.NodeForkChoice
import Chainlite.ServeBlocks

/-! A sync session with a heavier peer. The node asks for blocks, the peer's handler answers, and the reply
goes through the node's handler, round after round. A chain that is the start of the peer's is extended batch
by batch; any other chain fails at the first block, and then the whole of the peer's chain is collected and
adopted. Each round brings at least one block nearer the end. -/

open Std

namespace Chainlite

/-- What makes progress in every step arrives. -/
theorem eventually_of_progress {α : Type} {f : Nat → α} {going done : α → Prop} (left : α → Nat)
    (hstep : ∀ k, going (f k) → done (f (k + 1)) ∨ going (f (k + 1)) ∧ left (f (k + 1)) < left (f k))
    {k : Nat} (hstart : going (f k)) : ∃ n, done (f n) := by
  obtain ⟨m, hm⟩ : ∃ m, left (f k) = m := ⟨_, rfl⟩
  induction m using Nat.strong_induction_on generalizing k with
  | _ m ih =>
      rcases hstep k hstart with hdone | ⟨hgoing, hless⟩
      · exact ⟨k + 1, hdone⟩
      · exact ih _ (hm ▸ hless) hgoing rfl

section
variable [Crypto] {p : Params}

/-! ### The session -/

namespace App

/-- What the node `b`, which knows its peer as `me`, answers to a call of it: the reply to a GET_BLOCKS. -/
def answer (b : App) (me : Int) : NetCall → Option Bytes
  | .sendTo _ type payload =>
      if type = mGetBlocks then
        match (b.onGetBlocks me payload).2 with
        | [.sendTo _ _ reply] => some reply
        | _ => none
      else none
  | .broadcast _ _ _ => none

/-- One round: the request among the calls is answered, and the reply handled. Without a request nothing
happens. -/
def round (r : Readings) (b : App) (peer me : Int) (s : App × List NetCall) : App × List NetCall :=
  match s.2.findSome? (b.answer me) with
  | none => s
  | some reply => s.1.onMsg r peer mBlocks reply

def session (rs : Nat → Readings) (b : App) (peer me : Int) (s : App × List NetCall) : Nat → App × List NetCall
  | 0 => s
  | n + 1 => round (rs n) b peer me (session rs b peer me s n)

end App

/-- The node waits for the blocks of its peer from number `k` on. -/
structure Asks (peer : Int) (k : Nat) (s : App × List NetCall) : Prop where
  syncPeer : s.1.syncPeer = peer
  call : s.2 = [.sendTo peer mGetBlocks (App.getBlocksPayload (UInt64.ofNat k))]

/-- The node is idle again, with the chain of its peer, and has announced it. -/
structure Synced (b : App) (s : App × List NetCall) : Prop where
  idle : s.1.syncPeer = -1 ∧ s.1.syncMode = .idle
  blocks : s.1.chain.blocks = b.chain.blocks
  call : s.2 = [s.1.announceTip (-1)]

variable {b : App} {peer me : Int} {s : App × List NetCall}

/-- In one round the node gets the next batch. -/
theorem round_of_asks {k : Nat} (h : Asks peer k s) (hk : k < 2 ^ 64) (hvalid : Chain.ValidBlocks p b.chain.blocks)
    (r : Readings) :
    App.round r b peer me s = s.1.handleBlocks r peer ((b.chain.blocks.drop k).take batchSize) := by
  have hserved : App.servedBlocks b.chain (UInt64.ofNat k) (UInt32.ofNat batchSize) =
      (b.chain.blocks.drop k).take batchSize := by
    rw [App.servedBlocks, UInt64.toNat_ofNat_of_lt' hk]
    rfl
  have hread := readBlocks_reads (hvalid.fits_served (UInt64.ofNat k) (UInt32.ofNat batchSize))
    ((length_servedBlocks_le _ _ _).trans (by decide)) []
  rw [List.append_nil, hserved] at hread
  have hanswer : App.answer b me (.sendTo peer mGetBlocks (App.getBlocksPayload (UInt64.ofNat k))) =
      some (App.blocksPayload ((b.chain.blocks.drop k).take batchSize)) := by
    rw [App.answer, if_pos rfl, App.getBlocksPayload, onGetBlocks_eq, hserved]
  rw [App.round, h.call, List.findSome?_cons, hanswer]
  show s.1.onBlocks r peer _ = _
  rw [App.onBlocks, hread]

theorem Synced.round (h : Synced b s) (r : Readings) : Synced b (App.round r b peer me s) := by
  have hnone : s.2.findSome? (b.answer me) = none := by
    rw [h.call]
    rfl
  rw [App.round, hnone]
  exact h

/-! ### Extending -/

/-- A peer with a valid chain that is not too long and whose work and heights are exact. -/
structure Source (p : Params) (b : App) (t : Clock) : Prop where
  valid : b.core.Valid p t
  work : Chain.exactWork b.chain.blocks < 2 ^ 64
  short : b.chain.blocks.length ≤ maxCand
  heights : ∀ bs, bs <+: b.chain.blocks → bs ≠ [] →
    (Chain.replay p bs).height = UInt64.ofNat (bs.length - 1)

/-- `sync_mode == 1` on a chain that is the start of the peer's. -/
structure Extending (p : Params) (b : App) (peer : Int) (s : App × List NetCall) : Prop where
  asks : Asks peer s.1.chain.blocks.length s
  mode : s.1.syncMode = .extend
  tip : s.1.p2p.peerTip peer = some (b.chain.height, b.chain.work, b.chain.tipHash)
  sound : Chain.Sound p s.1.chain
  nonempty : s.1.chain.blocks ≠ []
  pre : s.1.chain.blocks <+: b.chain.blocks
  behind : s.1.chain.blocks.length < b.chain.blocks.length

/-- A batch that connects as a whole. -/
theorem extendBlocks_all {r : Readings} {a : App} {v : List Block} {c : Chain} {ph pw : UInt64} {hash : H256}
    (hall : Chain.connectAll r.now 0 a.chain v = (c, v.length, none)) (hv : v ≠ [])
    (htip : a.p2p.peerTip peer = some (ph, pw, hash)) : ∃ a' : App,
    a'.chain = c ∧ a'.p2p = a.p2p ∧ a'.syncPeer = a.syncPeer ∧ a'.syncMode = a.syncMode ∧
    a.extendBlocks r peer v =
      if pw ≤ c.work then (a'.resetSync, [a'.announceTip (-1)]) else App.requestBlocks (r.ms 1) a' peer (c.height + 1) := by
  have hpos : 0 < v.length := List.length_pos_of_ne_nil hv
  refine ⟨{ App.postChainChange { a with chain := c } with
    syncExtendGot := a.syncExtendGot + UInt64.ofNat v.length }, rfl, rfl, rfl, rfl, ?_⟩
  rw [App.extendBlocks, hall]
  dsimp only
  rw [if_pos hpos, if_neg (by simp)]
  rw [show (App.postChainChange { a with chain := c }).p2p.peerTip peer = some (ph, pw, hash) from htip]
  dsimp only
  simp only [decide_eq_true_eq]
  by_cases hle : pw ≤ c.work
  · rw [if_pos hle]
    exact if_pos hle
  · rw [if_neg hle]
    exact (if_neg hle).trans (if_pos ⟨hpos, hv⟩)

theorem handleBlocks_extend {r : Readings} {a : App} {v : List Block} (hpeer : a.syncPeer = peer)
    (hmode : a.syncMode = .extend) :
    a.handleBlocks r peer v = App.extendBlocks r { a with syncLastMs := r.ms 0 } peer v := by
  rw [App.handleBlocks, if_neg (not_not.mpr hpeer.symm)]
  dsimp only
  rw [hmode]

theorem handleBlocks_collect {r : Readings} {a : App} {v : List Block} (hpeer : a.syncPeer = peer)
    (hmode : a.syncMode = .full) :
    a.handleBlocks r peer v = App.collectBlocks r { a with syncLastMs := r.ms 0 } peer v := by
  rw [App.handleBlocks, if_neg (not_not.mpr hpeer.symm)]
  dsimp only
  rw [hmode]

/-- A node that asks for the block after its tip asks by its number. -/
theorem Source.next_height {t : Clock} (hb : Source p b t) {c : Chain} (hsound : Chain.Sound p c)
    (hne : c.blocks ≠ []) (hpre : c.blocks <+: b.chain.blocks) : c.height + 1 = UInt64.ofNat c.blocks.length := by
  rw [hsound.height, hb.heights c.blocks hpre hne]
  exact ofNat_pred_add_one (List.length_pos_of_ne_nil hne)

/-- A node that has the first blocks of the peer's chain and asks for the next gets some more of them. -/
theorem Source.batch {t : Clock} (hb : Source p b t) {done : List Block} (hasks : Asks peer done.length s)
    (hpre : done <+: b.chain.blocks) (hlt : done.length < b.chain.blocks.length) (r : Readings) :
    ∃ v, v ≠ [] ∧ done ++ v <+: b.chain.blocks ∧ done.length < (done ++ v).length ∧
      App.round r b peer me s = s.1.handleBlocks r peer v := by
  have hsource : Chain.Sound p b.chain := hb.valid.sound
  have hshort := hb.short
  have hmax : maxCand < 2 ^ 64 := by decide
  have hround : App.round r b peer me s = _ := round_of_asks hasks (by omega) hsource.valid r
  obtain ⟨rest, hrest⟩ := hpre
  rw [← hrest, List.length_append] at hlt
  rw [← hrest, List.drop_left] at hround
  have hlonger : done.length < (done ++ rest.take batchSize).length := by
    have hbatch : 0 < batchSize := by decide
    rw [List.length_append, List.length_take]
    omega
  refine ⟨rest.take batchSize, ?_, ?_, hlonger, hround⟩
  · intro hnil
    rw [hnil, List.append_nil] at hlonger
    exact Nat.lt_irrefl _ hlonger
  · rw [← hrest]
    exact (List.prefix_append_right_inj done).mpr (List.take_prefix batchSize rest)

/-- **A round of extending** adds a batch, and ends the session when that was the last one. -/
theorem Extending.round {t : Clock} (h : Extending p b peer s) (hb : Source p b t) {r : Readings}
    (hr : ∀ k, t ≤ r.now k) :
    Synced b (App.round r b peer me s) ∨ Extending p b peer (App.round r b peer me s) ∧
      b.chain.blocks.length - (App.round r b peer me s).1.chain.blocks.length <
        b.chain.blocks.length - s.1.chain.blocks.length := by
  have hsource : Chain.Sound p b.chain := hb.valid.sound
  have hbehind := h.behind
  obtain ⟨v, hv, hpre, hlonger, hround⟩ := hb.batch h.asks h.pre h.behind r
  obtain ⟨c, hall, hsound, hblocks⟩ := h.sound.connectAll_rest (hsource.valid.of_isPrefix hpre)
    (fun k => (hb.valid.timely.mono (hr k)).of_isPrefix hpre) 0
  rw [Nat.zero_add] at hall
  obtain ⟨a', hchain, hp2p, hpeer, hmode, heq⟩ :=
    extendBlocks_all (a := { s.1 with syncLastMs := r.ms 0 }) hall hv h.tip
  have hne : c.blocks ≠ [] := by rw [hblocks]; exact List.append_ne_nil_of_left_ne_nil h.nonempty _
  rw [← hblocks] at hpre hlonger
  rw [hround, handleBlocks_extend h.asks.syncPeer h.mode, heq]
  have hworks := hsound.work_lt_iff hsource hne hb.valid.nonempty
    (Nat.lt_of_le_of_lt (Chain.exactWork_le_of_isPrefix hne hpre) hb.work) hb.work
  by_cases hle : b.chain.work ≤ c.work
  · -- no less work is no fewer blocks
    rw [if_pos hle]
    have hlast : c.blocks = b.chain.blocks := by
      refine hpre.eq_of_length_le (Nat.le_of_not_lt fun hlt => ?_)
      exact absurd (hworks.mpr hlt) (UInt64.not_lt.mpr hle)
    exact Or.inl ⟨⟨rfl, rfl⟩, (congrArg Chain.blocks hchain).trans hlast, rfl⟩
  · rw [if_neg hle, hb.next_height hsound hne hpre, ← hchain]
    have hmore : a'.chain.blocks.length < b.chain.blocks.length := by
      rw [hchain]
      exact hworks.mp (UInt64.not_le.mp hle)
    rw [← hchain] at hsound hne hpre hlonger
    refine Or.inr ⟨⟨⟨hpeer.trans h.asks.syncPeer, rfl⟩, hmode.trans h.mode, ?_, hsound, hne, hpre, hmore⟩, ?_⟩
    · exact (congrArg (P2P.peerTip · peer) hp2p).trans h.tip
    · show b.chain.blocks.length - a'.chain.blocks.length < _
      omega

/-! ### Collecting -/

/-- `sync_mode == 2` with the first blocks of the peer's chain collected. -/
structure Collecting (p : Params) (b : App) (peer : Int) (s : App × List NetCall) : Prop where
  asks : Asks peer s.1.cand.length s
  mode : s.1.syncMode = .full
  tip : s.1.p2p.peerTip peer = some (b.chain.height, b.chain.work, b.chain.tipHash)
  sound : Chain.Sound p s.1.chain
  lighter : s.1.chain.work < b.chain.work
  pre : s.1.cand <+: b.chain.blocks
  behind : s.1.cand.length < b.chain.blocks.length

/-- The height of a candidate has reached that of the peer when the candidate is the peer's chain. -/
theorem Source.reached_iff {t : Clock} (hb : Source p b t) {bs : List Block} {last : Block}
    (hpre : bs <+: b.chain.blocks) (hlast : bs.getLast? = some last) :
    b.chain.height ≤ last.h.height ↔ bs = b.chain.blocks := by
  have hsource : Chain.Sound p b.chain := hb.valid.sound
  have hshort := hb.short
  have hmax : maxCand < 2 ^ 64 := by decide
  have hne : bs ≠ [] := by
    rintro rfl
    simp at hlast
  have hheight : last.h.height = UInt64.ofNat (bs.length - 1) := by
    rw [← hb.heights bs hpre hne, Chain.height, Chain.replay_blocks, hlast]
  have hpos := List.length_pos_of_ne_nil hne
  have hle := hpre.length_le
  rw [hheight, hsource.height, hb.heights _ (List.prefix_refl _) hb.valid.nonempty, UInt64.le_iff_toNat_le,
    UInt64.toNat_ofNat_of_lt' (show _ < 2 ^ 64 by omega), UInt64.toNat_ofNat_of_lt' (show _ < 2 ^ 64 by omega)]
  constructor
  · intro hge
    exact hpre.eq_of_length_le (by omega)
  · intro heq
    rw [heq]

/-- **A round of collecting** adds a batch; the last one completes the candidate, which is adopted. -/
theorem Collecting.round {t : Clock} (h : Collecting p b peer s) (hb : Source p b t) {r : Readings}
    (hr : ∀ k, t ≤ r.now k) :
    Synced b (App.round r b peer me s) ∨ Collecting p b peer (App.round r b peer me s) ∧
      b.chain.blocks.length - (App.round r b peer me s).1.cand.length <
        b.chain.blocks.length - s.1.cand.length := by
  have hsource : Chain.Sound p b.chain := hb.valid.sound
  have hshort := hb.short
  have hbehind := h.behind
  obtain ⟨v, hv, hpre, hlonger, hround⟩ := hb.batch h.asks h.pre h.behind r
  have hle := hpre.length_le
  obtain ⟨last, hlast⟩ : ∃ last, (s.1.cand ++ v).getLast? = some last :=
    ⟨_, List.getLast?_eq_some_getLast (List.append_ne_nil_of_right_ne_nil _ hv)⟩
  rw [hround, handleBlocks_collect h.asks.syncPeer h.mode, App.collectBlocks]
  dsimp only
  rw [if_neg (by omega), hlast, h.tip]
  dsimp only
  by_cases hdone : s.1.cand ++ v = b.chain.blocks
  · have hreached := (hb.reached_iff hpre hlast).mpr hdone
    rw [if_neg (by simp [hreached])]
    have hvalid : Chain.ValidBlocks p (s.1.cand ++ v) := hdone ▸ hsource.valid
    have htime : ∀ k, Chain.AllTimely (r.now k) (s.1.cand ++ v) := fun k => hdone ▸ hb.valid.timely.mono (hr k)
    obtain ⟨c, fork, hreplace⟩ := h.sound.tryReplace_ok hvalid (hdone ▸ hb.valid.nonempty) htime
      (by rw [hdone, ← hsource.work]; exact h.lighter)
    rw [hreplace]
    obtain ⟨-, hblocks, -⟩ := Chain.Sound.tryReplace h.sound.params hreplace
    exact Or.inl ⟨⟨rfl, rfl⟩, hblocks.trans hdone, rfl⟩
  · have hreached : ¬b.chain.height ≤ last.h.height := fun hreached => hdone ((hb.reached_iff hpre hlast).mp hreached)
    rw [if_pos ⟨hv, by simpa using hreached⟩]
    have hmore : (s.1.cand ++ v).length < b.chain.blocks.length :=
      Nat.lt_of_le_of_ne hle fun heq => hdone (hpre.eq_of_length heq)
    refine Or.inr ⟨⟨⟨h.asks.syncPeer, rfl⟩, h.mode, h.tip, h.sound, h.lighter, hpre, hmore⟩, ?_⟩
    show b.chain.blocks.length - (s.1.cand ++ v).length < _
    omega

/-! ### The fork -/

/-- Valid chains of one length with one tip hash have the same headers. -/
theorem Chain.ValidBlocks.headers_eq {strings : List Bytes} (hfree : CollisionFree strings) {bs bs' : List Block}
    (h : Chain.ValidBlocks p bs) (h' : Chain.ValidBlocks p bs') (hsub : Chain.headersBy p bs ⊆ strings)
    (hsub' : Chain.headersBy p bs' ⊆ strings) (hlen : bs.length = bs'.length)
    (htip : (Chain.replay p bs).tipHash = (Chain.replay p bs').tipHash) : bs.map Block.h = bs'.map Block.h := by
  -- from the tips down, as for whole blocks
  induction bs using List.reverseRecOn generalizing bs' with
  | nil => rw [List.eq_nil_of_length_eq_zero hlen.symm]
  | append_singleton init b ih =>
      obtain ⟨init', b', rfl⟩ := (List.eq_nil_or_concat' bs').resolve_left (by rintro rfl; simp at hlen)
      obtain ⟨hinit, hb⟩ := Chain.validBlocks_snoc.mp h
      obtain ⟨hinit', hb'⟩ := Chain.validBlocks_snoc.mp h'
      rw [Chain.replay_tipHash_snoc, Chain.replay_tipHash_snoc] at htip
      have hheader : b.h = b'.h := Chain.header_eq_of_hash hfree (hsub (Chain.header_mem_headersBy (by simp)))
        (hsub' (Chain.header_mem_headersBy (by simp))) htip
      rw [List.length_append, List.length_append, List.length_singleton, List.length_singleton,
        Nat.add_right_cancel_iff] at hlen
      rw [List.map_append, List.map_append, List.map_singleton, List.map_singleton, hheader]
      by_cases hnil : init = []
      · subst hnil
        rw [List.eq_nil_of_length_eq_zero hlen.symm]
      · have hnil' : init' ≠ [] := by
          rintro rfl
          exact hnil (List.eq_nil_of_length_eq_zero hlen)
        have hprev : (Chain.replay p init).tipHash = (Chain.replay p init').tipHash := by
          rw [← (hb.next (by rwa [Chain.replay_blocks])).prev, ← (hb'.next (by rwa [Chain.replay_blocks])).prev, hheader]
        rw [ih hinit hinit' (List.Subset.trans (Chain.headersBy_subset (List.subset_append_left _ _)) hsub)
          (List.Subset.trans (Chain.headersBy_subset (List.subset_append_left _ _)) hsub') hlen hprev]

/-- On a chain with other headers the peer's next block does not connect. -/
theorem connectBlock_fork {a : App} {t t' : Clock} (ha : a.core.Valid p t) (hb : b.core.Valid p t')
    (hfree : CollisionFree (Chain.headersBy p a.chain.blocks ++ Chain.headersBy p b.chain.blocks))
    {x : Block} {after : List Block} {before : List Block} (hblocks : b.chain.blocks = before ++ x :: after)
    (hlen : before.length = a.chain.blocks.length)
    (hfork : ¬a.chain.blocks.map Block.h <+: b.chain.blocks.map Block.h) (now : Clock) :
    ∃ err, a.chain.connectBlock now x = .error err := by
  have hsound : Chain.Sound p a.chain := ha.sound
  have hsource : Chain.Sound p b.chain := hb.sound
  have hvalid := hsource.valid
  rw [hblocks] at hvalid
  cases hconnect : a.chain.connectBlock now x with
  | error err => exact ⟨err, rfl⟩
  | ok c =>
      have hnext := (Chain.connectBlock_ok_iff.mp hconnect).1.next ha.nonempty
      have hbefore : before ≠ [] := by
        rintro rfl
        exact ha.nonempty (List.eq_nil_of_length_eq_zero hlen.symm)
      have hnext' := (hvalid before x after rfl).next (by rwa [Chain.replay_blocks])
      have hheaders := hsound.valid.headers_eq hfree (hvalid.of_append) (List.subset_append_left _ _)
        (List.Subset.trans (Chain.headersBy_subset (by rw [hblocks]; exact List.subset_append_left _ _))
          (List.subset_append_right _ _)) hlen.symm
        (by rw [← hsound.tipHash, ← hnext.prev, hnext'.prev])
      refine absurd ?_ hfork
      rw [hheaders, hblocks, List.map_append]
      exact List.prefix_append _ _

/-- The first block of a session does not connect. -/
theorem extendBlocks_fork {r : Readings} {a : App} {x : Block} {v : List Block} {err : ConnectError}
    (hgot : a.syncExtendGot = 0) (hfails : a.chain.connectBlock (r.now 0) x = .error err) :
    a.extendBlocks r peer (x :: v) = App.requestBlocks (r.ms 1) { a with syncMode := .full, cand := [] } peer 0 := by
  have hnone : Chain.connectAll r.now 0 a.chain (x :: v) = (a.chain, 0, some (x, err)) := by
    rw [Chain.connectAll, hfails]
  rw [App.extendBlocks, hnone]
  dsimp only
  rw [if_neg (Nat.lt_irrefl 0), if_pos ⟨by simp, rfl, hgot⟩]

omit [Crypto] in
/-- The session after `maybe_sync` on an idle node. -/
theorem maybeSync_behind {ms : UInt64} {a : App} {ph pw : UInt64} {hash : H256} (hidle : a.syncPeer = -1)
    (htip : a.p2p.peerTip peer = some (ph, pw, hash)) (hbehind : a.chain.work < pw) :
    a.maybeSync ms peer = App.requestBlocks ms
      { a with syncPeer := peer, syncMode := .extend, syncExtendGot := 0, cand := [] } peer (a.chain.height + 1) := by
  rw [App.maybeSync, if_neg (not_not.mpr hidle), htip]
  exact if_neg (UInt64.not_le.mpr hbehind)

/-! ### The whole session -/

theorem session_synced {rs : Nat → Readings} {n m : Nat} (h : Synced b (App.session rs b peer me s n)) (hle : n ≤ m) :
    Synced b (App.session rs b peer me s m) := by
  induction m, hle using Nat.le_induction with
  | base => exact h
  | succ m _ ih => exact ih.round (rs m)

theorem session_extending {t : Clock} (hb : Source p b t) {rs : Nat → Readings} (hrs : ∀ n k, t ≤ (rs n).now k)
    {k : Nat} (h : Extending p b peer (App.session rs b peer me s k)) :
    ∃ n, Synced b (App.session rs b peer me s n) :=
  eventually_of_progress (fun s => b.chain.blocks.length - s.1.chain.blocks.length)
    (fun k hgoing => Extending.round hgoing hb (hrs k)) h

theorem session_collecting {t : Clock} (hb : Source p b t) {rs : Nat → Readings} (hrs : ∀ n k, t ≤ (rs n).now k)
    {k : Nat} (h : Collecting p b peer (App.session rs b peer me s k)) :
    ∃ n, Synced b (App.session rs b peer me s n) :=
  eventually_of_progress (fun s => b.chain.blocks.length - s.1.cand.length)
    (fun k hgoing => Collecting.round hgoing hb (hrs k)) h

/-- The idle node `a` is behind its ready peer `b`, whose recorded tip is the truth, by the time `t`. -/
structure Behind (p : Params) (a b : App) (peer : Int) (t : Clock) : Prop where
  node : a.core.Valid p t
  source : b.core.Valid p t
  idle : a.syncPeer = -1
  tip : a.p2p.peerTip peer = some (b.chain.height, b.chain.work, b.chain.tipHash)
  lighter : a.chain.work < b.chain.work
  short : b.chain.blocks.length ≤ maxCand
  nodeWork : Chain.exactWork a.chain.blocks < 2 ^ 64
  sourceWork : Chain.exactWork b.chain.blocks < 2 ^ 64

section
variable {a : App} {t : Clock} (h : Behind p a b peer t)
  (hfree : CollisionFree (Chain.headersBy p a.chain.blocks ++ Chain.headersBy p b.chain.blocks))
include h hfree

theorem Behind.toSource : Source p b t := by
  have hsource : Chain.Sound p b.chain := h.source.sound
  refine ⟨h.source, h.sourceWork, h.short, fun bs hpre hne => ?_⟩
  refine (hsource.valid.of_isPrefix hpre).height hfree ?_ hne
  exact List.Subset.trans (Chain.headersBy_subset hpre.subset) (List.subset_append_right _ _)

theorem Behind.asks (ms : UInt64) : Asks peer a.chain.blocks.length (a.maybeSync ms peer) := by
  have hsound : Chain.Sound p a.chain := h.node.sound
  have hnext : a.chain.height + 1 = UInt64.ofNat a.chain.blocks.length := by
    rw [hsound.height, hsound.valid.height hfree (List.subset_append_left _ _) h.node.nonempty]
    exact ofNat_pred_add_one (List.length_pos_of_ne_nil h.node.nonempty)
  rw [maybeSync_behind h.idle h.tip h.lighter, hnext]
  exact ⟨rfl, rfl⟩

omit hfree in
theorem Behind.started (ms : UInt64) : (a.maybeSync ms peer).1.syncMode = .extend ∧
    (a.maybeSync ms peer).1.syncExtendGot = 0 ∧ (a.maybeSync ms peer).1.chain = a.chain ∧
    (a.maybeSync ms peer).1.p2p = a.p2p := by
  rw [maybeSync_behind h.idle h.tip h.lighter]
  exact ⟨rfl, rfl, rfl, rfl⟩

/-- A chain that is the start of the peer's is extended. -/
theorem Behind.extending (ms : UInt64) (hpre : a.chain.blocks <+: b.chain.blocks)
    (hlonger : a.chain.blocks.length < b.chain.blocks.length) : Extending p b peer (a.maybeSync ms peer) := by
  have hasks := h.asks hfree ms
  rw [maybeSync_behind h.idle h.tip h.lighter] at hasks ⊢
  exact ⟨hasks, rfl, h.tip, h.node.sound, h.node.nonempty, hpre, hlonger⟩

/-- A chain with other headers leads to collecting, after one round. -/
theorem Behind.collecting (ms : UInt64) (r : Readings)
    (hfork : ¬a.chain.blocks.map Block.h <+: b.chain.blocks.map Block.h)
    (hlonger : a.chain.blocks.length < b.chain.blocks.length) :
    Collecting p b peer (App.round r b peer me (a.maybeSync ms peer)) := by
  have hsource : Chain.Sound p b.chain := h.source.sound
  have hshort := h.short
  have hmax : maxCand < 2 ^ 64 := by decide
  have hsplit := List.take_append_drop a.chain.blocks.length b.chain.blocks
  have hround : App.round r b peer me (a.maybeSync ms peer) = _ := round_of_asks (h.asks hfree ms) (by omega) hsource.valid r
  cases hnext : b.chain.blocks.drop a.chain.blocks.length with
  | nil => exact absurd (List.drop_eq_nil_iff.mp hnext) (Nat.not_le.mpr hlonger)
  | cons x after =>
      rw [hnext] at hsplit hround
      obtain ⟨err, hfails⟩ := connectBlock_fork h.node h.source hfree hsplit.symm
        (List.length_take_of_le hlonger.le) hfork (r.now 0)
      obtain ⟨hmode, hgot, hchain, hp2p⟩ := h.started ms
      have hpeer := (h.asks hfree ms).syncPeer
      generalize (a.maybeSync ms peer).1 = a₁ at hround hmode hgot hchain hp2p hpeer
      rw [← hchain] at hfails
      rw [hround, handleBlocks_extend hpeer hmode, show batchSize = 199 + 1 from rfl, List.take_succ_cons,
        extendBlocks_fork (a := { a₁ with syncLastMs := r.ms 0 }) hgot hfails]
      refine ⟨⟨hpeer, rfl⟩, rfl, ?_, hchain ▸ h.node.sound, ?_, List.nil_prefix, Nat.zero_lt_of_lt hlonger⟩
      · exact (congrArg (P2P.peerTip · peer) hp2p).trans h.tip
      · exact (congrArg Chain.work hchain).trans_lt h.lighter

/-- Without a collision among the headers the session ends, whether the peer's chain continues the node's or
has other headers. -/
theorem Behind.synced (ms : UInt64) {rs : Nat → Readings} (hrs : ∀ n k, t ≤ (rs n).now k)
    (hchain : a.chain.blocks <+: b.chain.blocks ∨ ¬a.chain.blocks.map Block.h <+: b.chain.blocks.map Block.h) :
    ∃ n, Synced b (App.session rs b peer me (a.maybeSync ms peer) n) := by
  have hlonger : a.chain.blocks.length < b.chain.blocks.length :=
    (Chain.Sound.work_lt_iff h.node.sound h.source.sound h.node.nonempty h.source.nonempty h.nodeWork
      h.sourceWork).mp h.lighter
  rcases hchain with hpre | hfork
  · exact session_extending (k := 0) (h.toSource hfree) hrs (h.extending hfree ms hpre hlonger)
  · exact session_collecting (k := 1) (h.toSource hfree) hrs (h.collecting hfree ms (rs 0) hfork hlonger)

end

/-- One header with two bodies is a collision. -/
theorem Behind.collision {a : App} {t : Clock} (h : Behind p a b peer t)
    (hheaders : a.chain.blocks.map Block.h <+: b.chain.blocks.map Block.h)
    (hbodies : ¬a.chain.blocks <+: b.chain.blocks) :
    Collision (Chain.hashedBy p a.chain.blocks ++ Chain.hashedBy p b.chain.blocks) := by
  rcases collisionFree_or_collision (Chain.hashedBy p a.chain.blocks ++ Chain.hashedBy p b.chain.blocks) with
    hfree | hcol
  · have hsound : Chain.Sound p a.chain := h.node.sound
    have hsource : Chain.Sound p b.chain := h.source.sound
    have hlen := Chain.length_le_exactWork a.chain.blocks
    have hnodeWork := h.nodeWork
    have htake := List.prefix_iff_eq_take.mp hheaders
    rw [List.length_map, ← List.map_take] at htake
    have hle : (b.chain.blocks.take a.chain.blocks.length).length ≤ a.chain.blocks.length := List.length_take_le _ _
    refine absurd ?_ hbodies
    rw [List.prefix_iff_eq_take]
    refine hsound.valid.eq_of_tipHash hfree (hsource.valid.of_isPrefix (List.take_prefix _ _))
      (List.subset_append_left _ _) ?_ h.node.nonempty ?_ (by omega) (by omega) ?_
    · exact List.Subset.trans (Chain.hashedBy_subset (List.take_subset _ _)) (List.subset_append_right _ _)
    · intro hnil
      rw [hnil] at htake
      exact h.node.nonempty (List.map_eq_nil_iff.mp htake)
    · have hhashes := congrArg (List.map BlockHeader.hash) htake
      rw [List.map_map, List.map_map] at hhashes
      rw [Chain.tipHash, Chain.tipHash, Chain.replay_hashes, Chain.replay_hashes]
      exact congrArg (fun hashes => hashes.getLast?.getD (zeros 32)) hhashes
  · exact hcol

/-- **A sync session with a heavier peer converges.** From some round on the node is idle and has the blocks
of its peer. What may stand in the way is two headers with one hash, or, on a chain with the peer's headers
and other bodies, two strings with one hash among all that were hashed. -/
theorem sync_converges {a b : App} {peer me : Int} {t : Clock} (h : Behind p a b peer t) (ms : UInt64)
    {rs : Nat → Readings} (hrs : ∀ n k, t ≤ (rs n).now k) :
    (∃ N, ∀ n ≥ N, (App.session rs b peer me (a.maybeSync ms peer) n).1.syncPeer = -1 ∧
      (App.session rs b peer me (a.maybeSync ms peer) n).1.chain.blocks = b.chain.blocks) ∨
    Collision (Chain.headersBy p a.chain.blocks ++ Chain.headersBy p b.chain.blocks) ∨
    (a.chain.blocks.map Block.h <+: b.chain.blocks.map Block.h ∧ ¬a.chain.blocks <+: b.chain.blocks ∧
      Collision (Chain.hashedBy p a.chain.blocks ++ Chain.hashedBy p b.chain.blocks)) := by
  rcases collisionFree_or_collision (Chain.headersBy p a.chain.blocks ++ Chain.headersBy p b.chain.blocks) with
    hfree | hcol
  · by_cases hbodies : a.chain.blocks.map Block.h <+: b.chain.blocks.map Block.h ∧ ¬a.chain.blocks <+: b.chain.blocks
    · exact Or.inr (Or.inr ⟨hbodies.1, hbodies.2, h.collision hbodies.1 hbodies.2⟩)
    · rw [not_and, not_not] at hbodies
      obtain ⟨N, hsynced⟩ : ∃ n, Synced b (App.session rs b peer me (a.maybeSync ms peer) n) :=
        h.synced hfree ms hrs (Decidable.or_iff_not_imp_right.mpr (by simpa using hbodies))
      refine Or.inl ⟨N, fun n hn => ?_⟩
      have hn := session_synced hsynced hn
      exact ⟨hn.idle.1, hn.blocks⟩
  · exact Or.inr (Or.inl hcol)

end

section
local instance sessionCrypto : Crypto := Sha.crypto fun _ _ _ => false

/-- A node with a block on the genesis block. -/
def aheadNode : App := App.start Chain.easyParams (Chain.coinbases (zeros 20) 1) (zeros 20) false 0

/-- The link to it, with its tip. -/
def aheadPeer : Peer where
  ready := true
  tipHeight := aheadNode.chain.height
  tipWork := aheadNode.chain.work
  tipHash := aheadNode.chain.tipHash

/-- A node with the genesis block only, linked to the other one. -/
def behindNode : App := { easyNode with p2p := { peers := (∅ : ExtTreeMap Int Peer).insert 1 aheadPeer } }

theorem behindNode_behind : Behind Chain.easyParams behindNode aheadNode 1 Chain.easyClock := by
  obtain ⟨hsound, hne⟩ := (Chain.coinbases_reachable (zeros 20) 0).sound
  obtain ⟨hsound', hne'⟩ := (Chain.coinbases_reachable (zeros 20) 1).sound
  have hpeer : behindNode.p2p.peers[(1 : Int)]? = some aheadPeer := ExtTreeMap.getElem?_insert_self
  refine ⟨⟨rfl, hsound, hne, Chain.coinbases_timely (zeros 20) 0⟩,
    ⟨rfl, hsound', hne', Chain.coinbases_timely (zeros 20) 1⟩, rfl, ?_, by decide, by decide, by decide, by decide⟩
  rw [P2P.peerTip, hpeer]
  rfl

theorem sync_converges_one_block :
    (∃ N, ∀ n ≥ N,
      (App.session (fun _ => easyReadings) aheadNode 1 2 (behindNode.maybeSync 0 1) n).1.syncPeer = -1 ∧
      (App.session (fun _ => easyReadings) aheadNode 1 2 (behindNode.maybeSync 0 1) n).1.chain.blocks =
        aheadNode.chain.blocks) ∨
    Collision (Chain.headersBy Chain.easyParams behindNode.chain.blocks ++
      Chain.headersBy Chain.easyParams aheadNode.chain.blocks) ∨
    (behindNode.chain.blocks.map Block.h <+: aheadNode.chain.blocks.map Block.h ∧
      ¬behindNode.chain.blocks <+: aheadNode.chain.blocks ∧
      Collision (Chain.hashedBy Chain.easyParams behindNode.chain.blocks ++
        Chain.hashedBy Chain.easyParams aheadNode.chain.blocks)) :=
  sync_converges behindNode_behind 0 fun _ _ => Clock.le_refl _

end

end Chainlite
