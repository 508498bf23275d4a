import Chainlite.NodeForkChoice
import Chainlite.SecurityCommitment

/-! Mining work is never stale when it is committed. Every change of the chain bumps `tip_seq`, clears the
cache of bodies and adds work, so while the work fits 64 bits the counter does not come round: an unchanged
`tip_seq` means an unchanged chain, and what is in the cache was built on the current tip. -/

open Std

namespace Chainlite

section
variable [Crypto] {p : Params}

/-! ### Bodies built on a tip -/

/-- The body of a template on the chain `c`. -/
def OnTip (p : Params) (c : Chain) (txs : List Tx) : Prop :=
  ∃ (pool : Mempool) (payto : Addr20),
    txs = coinbaseTx p (c.height + 1) payto :: pool.collect c.st p (c.height + 1)

theorem onTip_template (p : Params) (c : Chain) (pool : Mempool) (payto : Addr20) (time nonce : UInt64) :
    OnTip p c (c.template p pool payto time nonce).txs := ⟨pool, payto, rfl⟩

theorem OnTip.nodup {c : Chain} {txs : List Tx} (h : OnTip p c txs) : txs.Nodup := by
  obtain ⟨pool, payto, rfl⟩ := h
  obtain ⟨hsettles, hlen⟩ := pool.collect_spec c.st p (c.height + 1)
  exact nodup_body (Chain.coinbaseTx_valid p _ payto c.st) hsettles (Nat.lt_of_le_of_lt hlen (by decide))

theorem OnTip.fits {c : Chain} {txs : List Tx} (h : OnTip p c txs) : ∀ t ∈ txs, t.Fits := by
  obtain ⟨pool, payto, rfl⟩ := h
  exact fits_body (Chain.coinbaseTx_valid p _ payto c.st) (pool.collect_spec c.st p (c.height + 1)).1

/-- A header of the right form over a body built on the tip makes an acceptable block. -/
theorem OnTip.accepted {c : Chain} {txs : List Tx} (h : OnTip p c txs) (hsound : Chain.Sound p c)
    (hne : c.blocks ≠ []) (hsupply : p.reward.toNat * c.blocks.length < 2 ^ 64)
    {pool : Mempool} {payto : Addr20} {time nonce : UInt64}
    (hroot : merkleRoot (txs.map Tx.txid) = (c.template p pool payto time nonce).h.merkle)
    (hpow : powOk (c.template p pool payto time nonce).h.hash p.bits = true) :
    c.Accepts { h := (c.template p pool payto time nonce).h, txs := txs } := by
  obtain ⟨pool', payto', rfl⟩ := h
  have hparams := hsound.params
  rw [Chain.Accepts, if_neg hne]
  refine ⟨rfl, hparams ▸ rfl, rfl, rfl, hparams ▸ rfl, hpow, ?_, hroot, _, _, rfl, ?_, ?_⟩
  · have := (pool'.collect_spec c.st p (c.height + 1)).2
    rw [List.length_cons]
    exact Nat.succ_le_of_lt (Nat.lt_of_le_of_lt this (by decide))
  · rw [hparams]
    exact Chain.coinbaseTx_valid p _ payto' c.st
  · rw [Chain.effect_coinbaseTx, hparams]
    exact Chain.collect_settles hsound hne hsupply pool' payto' _

/-- Bodies built on tips of different heights have different Merkle roots, or there is a collision. -/
theorem OnTip.height_eq {c c' : Chain} {txs txs' : List Tx} (h : OnTip p c txs) (h' : OnTip p c' txs')
    {strings : List Bytes} (hfree : CollisionFree strings) (hserial : ∀ t ∈ txs ++ txs', t.serialize ∈ strings)
    (hbuffers : ∀ x ∈ merkleBuffers (txs.map Tx.txid) ++ merkleBuffers (txs'.map Tx.txid), x ∈ strings)
    (hroot : merkleRoot (txs.map Tx.txid) = merkleRoot (txs'.map Tx.txid)) : c.height = c'.height := by
  have hfits : ∀ t ∈ txs ++ txs', t.Fits := by
    intro t ht
    rcases List.mem_append.mp ht with ht | ht
    · exact h.fits t ht
    · exact h'.fits t ht
  have hne : txs ≠ [] ∧ txs' ≠ [] := by
    obtain ⟨_, _, rfl⟩ := h
    obtain ⟨_, _, rfl⟩ := h'
    exact ⟨by simp, by simp⟩
  have heq := txs_eq_of_merkleRoot hfree hfits hne.1 hne.2 h.nodup h'.nodup hserial hbuffers hroot
  obtain ⟨_, _, rfl⟩ := h
  obtain ⟨_, _, rfl⟩ := h'
  have hnonce := congrArg Tx.nonce (List.cons.inj heq).1
  exact add_right_cancel hnonce

/-! ### The cache -/

/-- Every cached body has the root it is filed under and was built on the current tip. -/
def Core.CacheWf (p : Params) (s : Core) : Prop :=
  ∀ (root : H256) (txs : List Tx), s.workCache[root]? = some txs →
    merkleRoot (txs.map Tx.txid) = root ∧ OnTip p s.chain txs

theorem Core.CacheWf.step {r : Readings} {s s' : Core} (h : s.CacheWf p) (hparams : s.params = p)
    (hstep : CoreStep r s s') : s'.CacheWf p := by
  cases hstep with
  | quiet => exact h
  | pooled => exact h
  | job => exact h
  | handedOut payto =>
      intro root txs htxs
      rw [OrderedMap.getElem?_insert_eq] at htxs
      split at htxs
      · rename_i hroot
        cases htxs
        exact ⟨hroot, hparams ▸ onTip_template s.params s.chain s.pool payto (r.now 0).seconds 0⟩
      · split at htxs
        · simp at htxs
        · exact h root txs htxs
  | changed _ _ _ =>
      intro root txs htxs
      simp [Core.changed] at htxs

theorem NodeRun.cacheWf {a : App} {now : Clock} (h : NodeRun p a now) : a.core.CacheWf p := by
  induction h with
  | start _ _ _ _ _ => exact fun root txs htxs => by simp [App.core, App.start] at htxs
  | step hrun _ ev ih => exact ih.step hrun.valid.params (App.step_core _ _ ev)

/-! ### The counter -/

/-- Events lead from `a` at the time `t` to `a'` at the time `t'`, and the exact work of every chain on the
way fits 64 bits. -/
inductive Leads (a : App) (t : Clock) : App → Clock → Prop
  | refl (hwork : Chain.exactWork a.chain.blocks < 2 ^ 64) : Leads a t a t
  | step {a₁ : App} {t₁ t₂ : Clock} {r : Readings} (h : Leads a t a₁ t₁) (hr : r.Between t₁ t₂) (ev : Event)
      (hwork : Chain.exactWork (a₁.step r ev).chain.blocks < 2 ^ 64) : Leads a t (a₁.step r ev) t₂

theorem Leads.run {a a' : App} {t t' : Clock} (h : Leads a t a' t') (hrun : NodeRun p a t) : NodeRun p a' t' := by
  induction h with
  | refl => exact hrun
  | step _ hr ev _ ih => exact ih.step hr ev

theorem Leads.work_lt {a a' : App} {t t' : Clock} (h : Leads a t a' t') :
    Chain.exactWork a'.chain.blocks < 2 ^ 64 := by
  cases h with
  | refl hwork => exact hwork
  | step _ _ _ hwork => exact hwork

theorem Leads.start_work_lt {a a' : App} {t t' : Clock} (h : Leads a t a' t') :
    Chain.exactWork a.chain.blocks < 2 ^ 64 := by
  induction h with
  | refl hwork => exact hwork
  | step _ _ _ _ ih => exact ih

/-- The counter moves exactly when the chain does, and the chain moves to more work. -/
theorem CoreStep.seq {r : Readings} {s s' : Core} {t : Clock} (h : CoreStep r s s') (hvalid : s.Valid p t)
    (hwork : Chain.exactWork s'.chain.blocks < 2 ^ 64) :
    s'.tipSeq = s.tipSeq ∧ s'.chain = s.chain ∨ s'.tipSeq = s.tipSeq + 1 ∧ s.chain.work < s'.chain.work := by
  cases h with
  | quiet => exact Or.inl ⟨rfl, rfl⟩
  | pooled => exact Or.inl ⟨rfl, rfl⟩
  | handedOut => exact Or.inl ⟨rfl, rfl⟩
  | job => exact Or.inl ⟨rfl, rfl⟩
  | changed _ _ hchange => exact Or.inr ⟨rfl, hchange.work_lt hvalid.sound hvalid.nonempty hwork⟩

/-- Along a run the counter has been bumped `n` times and the work has grown by at least `n`. -/
theorem Leads.seq {a a' : App} {t t' : Clock} (h : Leads a t a' t') (hrun : NodeRun p a t) :
    ∃ n : ℕ, a'.tipSeq = a.tipSeq + UInt64.ofNat n ∧ a.chain.work.toNat + n ≤ a'.chain.work.toNat ∧
      (n = 0 → a'.chain = a.chain) := by
  induction h with
  | refl => exact ⟨0, by simp, Nat.le_refl _, fun _ => rfl⟩
  | @step a₁ t₁ t₂ r h hr ev hwork ih =>
      obtain ⟨n, hseq, hgrown, hsame⟩ := ih
      rcases (App.step_core r a₁ ev).seq (h.run hrun).valid hwork with ⟨hseq', hchain⟩ | ⟨hseq', hmore⟩
      · have hchain' : (a₁.step r ev).chain = a₁.chain := hchain
        refine ⟨n, hseq'.trans hseq, ?_, fun hn => hchain'.trans (hsame hn)⟩
        rw [hchain']
        exact hgrown
      · refine ⟨n + 1, ?_, ?_, fun hn => by omega⟩
        · have hbump : (a₁.step r ev).tipSeq = a₁.tipSeq + 1 := hseq'
          rw [hbump, hseq, UInt64.ofNat_add, UInt64.add_assoc]
          rfl
        · have hmore' : a₁.chain.work.toNat < (a₁.step r ev).chain.work.toNat := hmore
          omega

/-- **An unchanged counter means an unchanged chain.** -/
theorem Leads.chain_eq {a a' : App} {t t' : Clock} (h : Leads a t a' t') (hrun : NodeRun p a t)
    (hseq : a'.tipSeq = a.tipSeq) : a'.chain = a.chain := by
  obtain ⟨n, hn, hgrown, hsame⟩ := h.seq hrun
  have hzero : UInt64.ofNat n = 0 := left_eq_add.mp (hseq.symm.trans hn)
  have hmod := congrArg UInt64.toNat hzero
  rw [UInt64.toNat_ofNat'] at hmod
  have hlt := a'.chain.work.toNat_lt
  refine hsame ?_
  have : n % 2 ^ 64 = 0 := hmod
  omega

/-- A chain that has changed is longer than it was. -/
theorem Leads.chain_eq_or_longer {a a' : App} {t t' : Clock} (h : Leads a t a' t') (hrun : NodeRun p a t) :
    a'.chain = a.chain ∨ a.chain.blocks.length < a'.chain.blocks.length := by
  obtain ⟨n, -, hgrown, hsame⟩ := h.seq hrun
  by_cases hn : n = 0
  · exact Or.inl (hsame hn)
  · refine Or.inr ?_
    have hvalid := hrun.valid
    have hvalid' := (h.run hrun).valid
    have hmore : a.chain.work < a'.chain.work := UInt64.lt_iff_toNat_lt.mpr (by omega)
    exact (Chain.Sound.work_lt_iff hvalid.sound hvalid'.sound hvalid.nonempty hvalid'.nonempty h.start_work_lt
      h.work_lt).mp hmore

/-! ### Commits -/

theorem minerSnapshot_job {r : Readings} {a : App} {seq : UInt64} {cand : Block} (hmine : a.mineOn = true)
    (hjob : (a.minerSnapshot r).job = some (seq, cand)) :
    seq = a.tipSeq ∧ cand = a.chain.template a.params a.pool a.minerAddr (r.now 1).seconds 0 := by
  unfold App.minerSnapshot at hjob
  rw [hmine, if_neg (by simp)] at hjob
  dsimp only at hjob
  split at hjob
  · cases hjob
    exact ⟨rfl, rfl⟩
  · cases hjob

theorem minerSnapshot_chain (r : Readings) (a : App) :
    (a.minerSnapshot r).chain = a.chain ∧ (a.minerSnapshot r).tipSeq = a.tipSeq := by
  unfold App.minerSnapshot
  split
  · exact ⟨rfl, rfl⟩
  · dsimp only
    split <;> exact ⟨rfl, rfl⟩

/-- On an unchanged counter the candidate of a snapshot connects with every nonce that meets the target. -/
theorem Leads.candidate_connects {a a' : App} {t t₁ t' : Clock} {r : Readings} {seq : UInt64} {cand : Block}
    (hleads : Leads (a.step r .minerSnapshot) t₁ a' t') (hrun : NodeRun p a t) (hr : r.Between t t₁)
    (hmine : a.mineOn = true) (hjob : (a.step r .minerSnapshot).job = some (seq, cand)) (hseq : a'.tipSeq = seq) :
    a'.chain = a.chain ∧ (p.reward.toNat * a'.chain.blocks.length < 2 ^ 64 → ∀ {now : Clock} {nonce : UInt64},
      powOk (App.withNonce cand nonce).h.hash p.bits = true → cand.h.time ≤ now.seconds + maxTimeSkew →
      a'.chain.connectBlock now (App.withNonce cand nonce) = .ok (a'.chain.grow (App.withNonce cand nonce))) := by
  have hvalid := hrun.valid
  have hparams : a.params = p := hvalid.params
  have hsnap : (a.step r .minerSnapshot).chain = a.chain ∧ (a.step r .minerSnapshot).tipSeq = a.tipSeq :=
    minerSnapshot_chain r a
  obtain ⟨rfl, rfl⟩ := minerSnapshot_job hmine hjob
  have hchain := (hleads.chain_eq (hrun.step hr .minerSnapshot) (hseq.trans hsnap.2.symm)).trans hsnap.1
  refine ⟨hchain, fun hsupply now nonce hpow htime => ?_⟩
  rw [hchain] at hsupply ⊢
  rw [hparams] at hpow ⊢
  exact Chain.connectBlock_ok_iff.mpr
    ⟨Chain.template_accepted hvalid.sound hvalid.nonempty hsupply hpow, fun _ => htime, rfl⟩

theorem Leads.le {a a' : App} {t t' : Clock} (h : Leads a t a' t') : t ≤ t' := by
  induction h with
  | refl => exact Clock.le_refl _
  | step _ hr _ _ ih => exact Clock.le_trans ih hr.le

omit [Crypto] in
/-- A time that has been is not too far in the future. -/
theorem Clock.le_add_skew {s t : Clock} (h : s ≤ t) : s.seconds ≤ t.seconds + maxTimeSkew := by
  have hsmall := t.nonneg
  have hle : s.seconds.toNat ≤ t.seconds.toNat := UInt64.le_iff_toNat_le.mp h
  have hskew : maxTimeSkew.toNat = 7200 := rfl
  have hsum := @toNat_add_of_lt t.seconds maxTimeSkew (by omega)
  rw [UInt64.le_iff_toNat_le, hsum]
  omega

/-- **A round of the CPU miner.** A nonce that the inner loop finds for the candidate of a snapshot extends the chain, when
the job still waits and the counter has not moved. -/
theorem App.minerCommit_found {a a' : App} {t t₁ t' t₂ : Clock} (hrun : NodeRun p a t) {r r' : Readings}
    (hr : r.Between t t₁) (hmine : a.mineOn = true) {seq : UInt64} {cand : Block}
    (hjob : (a.step r .minerSnapshot).job = some (seq, cand)) (hleads : Leads (a.step r .minerSnapshot) t₁ a' t')
    (hwaits : a'.job = some (seq, cand)) (hseq : a'.tipSeq = seq) (hr' : r'.Between t' t₂)
    (hsupply : p.reward.toNat * a.chain.blocks.length < 2 ^ 64) {tries : Nat} {start nonce : UInt64}
    (hfound : searchNonce cand.h.bits tries cand.h.serialize start = some nonce) :
    (a'.step r' (.minerCommit nonce)).chain = a.chain.grow (App.withNonce cand nonce) := by
  obtain ⟨hchain, hconnects⟩ := hleads.candidate_connects hrun hr hmine hjob hseq
  obtain ⟨-, hcand⟩ := minerSnapshot_job hmine hjob
  have hbits : cand.h.bits = p.bits := by
    rw [hcand, ← hrun.valid.params]
    rfl
  have hpow : powOk (App.withNonce cand nonce).h.hash p.bits = true := by
    rw [← hbits]
    exact searchNonce_meets hfound
  have htime : cand.h.time ≤ (r'.now 0).seconds + maxTimeSkew := by
    rw [hcand]
    exact Clock.le_add_skew (Clock.le_trans (hr.upto 1) (Clock.le_trans hleads.le (hr'.after 0)))
  have hconnect := hconnects (by rwa [hchain]) hpow htime
  have hpresent : ¬(a'.tipSeq ≠ seq) := not_not.mpr hseq
  show (a'.minerCommit r' nonce).1.chain = a.chain.grow (App.withNonce cand nonce)
  unfold App.minerCommit
  rw [hwaits]
  dsimp only
  rw [if_neg hpresent, hconnect, hchain]
  rfl

/-- A reply of `/submitwork` that says the block was rejected. -/
def Rejected (resp : HttpResp) : Prop := ∃ reason : String, resp = err400 ("rejected: " ++ reason)

omit [Crypto] in
theorem not_rejected_of_status {resp : HttpResp} (h : resp.status = 200) : ¬Rejected resp := by
  rintro ⟨reason, rfl⟩
  exact absurd h (by simp [err400])

omit [Crypto] in
theorem not_rejected_unknown : ¬Rejected (err400 "unknown work (stale tip?)") := by
  rintro ⟨reason, heq⟩
  have hchars := congrArg (fun resp => resp.body.toList) heq
  simp [err400] at hchars

/-- What `/submitwork` does with the text of a header. -/
theorem submitWork_header (r : Readings) (a : App) (h : BlockHeader) :
    a.submitWork r (hexs h.serialize) =
      match a.workCache[h.merkle]? with
      | none => (a, [], err400 "unknown work (stale tip?)")
      | some txs =>
          match a.chain.connectBlock (r.now 0) { h := h, txs := txs } with
          | .error e => (a, [], err400 ("rejected: " ++ e.text))
          | .ok chain =>
              let b : Block := { h := h, txs := txs }
              let a := App.postChainChange { a with chain := chain }
              (a, [a.announceTip (-1), .broadcast mBlock b.serialize (-1)],
                ⟨200, "application/json", "\x7b\"ok\":true,\"height\":" ++ toString h.height ++
                  ",\"hash\":\"" ++ hexs h.hash.toList ++ "\"\x7d"⟩) := by
  have hparse : BlockHeader.parse h.serialize = .ok (h, []) := by
    have := BlockHeader.parse_reads h []
    rwa [List.append_nil] at this
  have hlength : ¬h.serialize.length ≠ headerSize := not_not.mpr h.length_serialize
  unfold App.submitWork
  cases hcache : a.workCache[h.merkle]? with
  | none => simp only [unhex_hexs, if_neg hlength, hparse, hcache]
  | some txs =>
      cases hconnect : a.chain.connectBlock (r.now 0) { h := h, txs := txs } with
      | error e => simp only [unhex_hexs, if_neg hlength, hparse, hcache, hconnect]
      | ok chain => simp only [unhex_hexs, if_neg hlength, hparse, hcache, hconnect]

theorem not_rejected_of_uncached {r : Readings} {a : App} {h : BlockHeader} (hcache : a.workCache[h.merkle]? = none) :
    ¬Rejected (a.submitWork r (hexs h.serialize)).2.2 := by
  rw [submitWork_header, hcache]
  exact not_rejected_unknown

theorem not_rejected_of_connects {r : Readings} {a : App} {h : BlockHeader} {txs : List Tx}
    (hcache : a.workCache[h.merkle]? = some txs)
    (hconnects : ∃ c, a.chain.connectBlock (r.now 0) { h := h, txs := txs } = .ok c) :
    ¬Rejected (a.submitWork r (hexs h.serialize)).2.2 := by
  obtain ⟨c, hconnect⟩ := hconnects
  rw [submitWork_header, hcache]
  dsimp only
  rw [hconnect]
  exact not_rejected_of_status rfl

/-- What stands between a cached body and a header handed out for it: strings hashed by the two chains, by
the block that was handed out and for the body. -/
def App.workHashed (p : Params) (a a' : App) (b : Block) (txs : List Tx) : List Bytes :=
  Chain.hashedBy p a.chain.blocks ++ Chain.hashedBy p a'.chain.blocks ++ b.hashed ++
    (txs.map Tx.serialize ++ merkleBuffers (txs.map Tx.txid))

/-- A body that the cache holds under the root of a block handed out earlier was built on the chain of that
block. -/
theorem Leads.chain_eq_of_root {a a' : App} {t t' : Clock} (h : Leads a t a' t') (hrun : NodeRun p a t)
    {pool : Mempool} {payto : Addr20} {time nonce : UInt64} {txs : List Tx} (hbody : OnTip p a'.chain txs)
    (hroot : merkleRoot (txs.map Tx.txid) = (a.chain.template p pool payto time nonce).h.merkle)
    (hfree : CollisionFree (App.workHashed p a a' (a.chain.template p pool payto time nonce) txs)) :
    a'.chain = a.chain := by
  have hvalid := hrun.valid
  have hvalid' := (h.run hrun).valid
  refine (h.chain_eq_or_longer hrun).resolve_right fun hlonger => ?_
  have hsound : Chain.Sound p a.chain := hvalid.sound
  have hsound' : Chain.Sound p a'.chain := hvalid'.sound
  have hlen := Chain.length_le_exactWork a'.chain.blocks
  have hlt := h.work_lt
  have hheights : a'.chain.height = a.chain.height := by
    refine hbody.height_eq (onTip_template p a.chain pool payto time nonce) hfree ?_ ?_ hroot
    · intro tx htx
      rcases List.mem_append.mp htx with htx | htx
      · exact List.mem_append_right _ (List.mem_append_left _ (List.mem_map_of_mem htx))
      · exact List.mem_append_left _ (List.mem_append_right _ (Block.serialize_mem_hashed _ htx))
    · intro x hx
      rcases List.mem_append.mp hx with hx | hx
      · exact List.mem_append_right _ (List.mem_append_right _ hx)
      · exact List.mem_append_left _ (List.mem_append_right _ (List.mem_append_right _ hx))
  have hsub : Chain.headersBy p a.chain.blocks ⊆ App.workHashed p a a' (a.chain.template p pool payto time nonce) txs :=
    fun x hx => List.mem_append_left _ (List.mem_append_left _
      (List.mem_append_left _ (Chain.headersBy_subset_hashedBy _ hx)))
  have hsub' : Chain.headersBy p a'.chain.blocks ⊆ App.workHashed p a a' (a.chain.template p pool payto time nonce) txs :=
    fun x hx => List.mem_append_left _ (List.mem_append_left _
      (List.mem_append_right _ (Chain.headersBy_subset_hashedBy _ hx)))
  rw [hsound.height, hsound'.height, hsound.valid.height hfree hsub hvalid.nonempty,
    hsound'.valid.height hfree hsub' hvalid'.nonempty] at hheights
  have hpos : 0 < a.chain.blocks.length := List.length_pos_of_ne_nil hvalid.nonempty
  have hnat := congrArg UInt64.toNat hheights
  simp only [UInt64.toNat_ofNat'] at hnat
  omega

/-- A header handed out on the chain of `a`, with a nonce that meets the difficulty, is not rejected
later. -/
theorem Leads.not_rejected {a a' : App} {t t' : Clock} (hleads : Leads a t a' t') (hrun : NodeRun p a t)
    (hsupply : p.reward.toNat * a'.chain.blocks.length < 2 ^ 64) {r : Readings} {pool : Mempool} {payto : Addr20}
    {time nonce : UInt64} {b : Block} (hb : b = a.chain.template p pool payto time nonce)
    (hpow : powOk b.h.hash p.bits = true) (htime : b.h.time ≤ (r.now 0).seconds + maxTimeSkew) :
    ¬Rejected (a'.submitWork r (hexs b.h.serialize)).2.2 ∨
      ∃ txs, a'.workCache[b.h.merkle]? = some txs ∧ Collision (App.workHashed p a a' b txs) := by
  have hvalid := hrun.valid
  cases hcache : a'.workCache[b.h.merkle]? with
  | none => exact Or.inl (not_rejected_of_uncached hcache)
  | some txs =>
      obtain ⟨hroot, hbody⟩ := (hleads.run hrun).cacheWf b.h.merkle txs hcache
      rcases collisionFree_or_collision (App.workHashed p a a' b txs) with hfree | hcol
      · subst hb
        have hchain := hleads.chain_eq_of_root hrun hbody hroot hfree
        have hbody : OnTip p a.chain txs := hchain ▸ hbody
        have haccepts := hbody.accepted hvalid.sound hvalid.nonempty (hchain ▸ hsupply) hroot hpow
        refine Or.inl (not_rejected_of_connects hcache ?_)
        rw [hchain]
        exact ⟨_, Chain.connectBlock_ok_iff.mpr ⟨haccepts, fun _ => htime, rfl⟩⟩
      · exact Or.inr ⟨txs, rfl, hcol⟩

/-- **Mining work is never stale when it is committed.** A candidate of the miner connects if the counter is
the recorded one, and then the chain is the one it was built on. Every body in the cache has the root it is
filed under and was built on the current tip, and a header handed out by `/work`, with any nonce that meets
the difficulty, is not rejected as a block. -/
theorem mining_work_fresh {a : App} {t : Clock} (hrun : NodeRun p a t) :
    (∀ (r : Readings) (t₁ : Clock) (seq : UInt64) (cand : Block) (a' : App) (t' : Clock),
      r.Between t t₁ → a.mineOn = true → (a.step r .minerSnapshot).job = some (seq, cand) →
      Leads (a.step r .minerSnapshot) t₁ a' t' → a'.tipSeq = seq →
      a'.chain = a.chain ∧ (p.reward.toNat * a'.chain.blocks.length < 2 ^ 64 → ∀ (now : Clock) (nonce : UInt64),
        powOk (App.withNonce cand nonce).h.hash p.bits = true → cand.h.time ≤ now.seconds + maxTimeSkew →
        ∃ c', a'.chain.connectBlock now (App.withNonce cand nonce) = .ok c')) ∧
    (∀ (root : H256) (txs : List Tx), a.workCache[root]? = some txs →
      merkleRoot (txs.map Tx.txid) = root ∧ OnTip p a.chain txs) ∧
    ∀ (r₀ : Readings) (payto : Addr20) (a' : App) (t' : Clock), Leads a t a' t' →
      p.reward.toNat * a'.chain.blocks.length < 2 ^ 64 → ∀ (r : Readings) (nonce : UInt64),
      let b := App.withNonce (a.workBlock r₀ payto) nonce
      powOk b.h.hash p.bits = true → b.h.time ≤ (r.now 0).seconds + maxTimeSkew →
      ¬Rejected (a'.submitWork r (hexs b.h.serialize)).2.2 ∨
        ∃ txs, a'.workCache[b.h.merkle]? = some txs ∧ Collision (App.workHashed p a a' b txs) := by
  have hvalid := hrun.valid
  have hparams : a.params = p := hvalid.params
  refine ⟨fun r t₁ seq cand a' t' hr hmine hjob hleads hseq => ?_, hrun.cacheWf, ?_⟩
  · obtain ⟨hchain, hconnects⟩ := hleads.candidate_connects hrun hr hmine hjob hseq
    exact ⟨hchain, fun hsupply now nonce hpow htime => ⟨_, hconnects hsupply hpow htime⟩⟩
  · intro r₀ payto a' t' hleads hsupply r nonce b hpow htime
    have hb : b = a.chain.template p a.pool payto (r₀.now 0).seconds nonce := by
      simp only [b, App.workBlock, hparams]
      rfl
    rw [hb] at hpow htime ⊢
    exact hleads.not_rejected hrun hsupply rfl hpow htime

end

section
local instance workCrypto : Crypto := Sha.crypto fun _ _ _ => false

/-- The readings a second after the genesis block. -/
def laterReadings : Readings := { now := fun _ => ⟨Chain.easyParams.genesisTime + 1, by decide⟩, ms := fun _ => 0 }

theorem laterReadings_between : laterReadings.Between Chain.easyClock (laterReadings.now 0) :=
  ⟨fun _ => show Chain.easyParams.genesisTime ≤ Chain.easyParams.genesisTime + 1 by decide, fun _ => Clock.le_refl _⟩

/-- A node that mines a block a second after the last one. -/
def busyNode : App := { easyNode with heartbeat := 1 }

theorem busyNode_run : NodeRun Chain.easyParams busyNode Chain.easyClock :=
  .start (zeros 20) true 1 (fun _ => Clock.le_refl _) (Chain.init_coinbases (zeros 20))

/-- The candidate of the snapshot connects with the nonce 5, and the header of a template is not rejected
with it. -/
theorem mining_work_fresh_first_block :
    (∃ c', (busyNode.step laterReadings .minerSnapshot).chain.connectBlock (laterReadings.now 0)
      (App.withNonce (busyNode.workBlock laterReadings (zeros 20)) 5) = .ok c') ∧
    (¬Rejected (busyNode.submitWork laterReadings
        (hexs (App.withNonce (busyNode.workBlock laterReadings (zeros 20)) 5).h.serialize)).2.2 ∨
      ∃ txs, busyNode.workCache[(App.withNonce (busyNode.workBlock laterReadings (zeros 20)) 5).h.merkle]? = some txs ∧
        Collision (App.workHashed Chain.easyParams busyNode busyNode
          (App.withNonce (busyNode.workBlock laterReadings (zeros 20)) 5) txs)) := by
  have hjob : (busyNode.step laterReadings .minerSnapshot).job =
      some (0, busyNode.workBlock laterReadings (zeros 20)) := by
    have hdue : busyNode.heartbeatDue (laterReadings.now 0) = true := by decide
    show (busyNode.minerSnapshot laterReadings).job = _
    rw [App.minerSnapshot, if_neg (by decide)]
    dsimp only
    rw [if_pos (Or.inr hdue)]
    rfl
  constructor
  · exact ((mining_work_fresh busyNode_run).1 laterReadings (laterReadings.now 0) 0
      (busyNode.workBlock laterReadings (zeros 20)) _ _ laterReadings_between rfl hjob (.refl (by decide)) rfl).2
      (by decide) (laterReadings.now 0) 5 (powOk_zero _) (by decide)
  · exact (mining_work_fresh busyNode_run).2.2 laterReadings (zeros 20) busyNode Chain.easyClock
      (.refl (by decide)) (by decide) laterReadings 5 (powOk_zero _) (by decide)

end

end Chainlite
