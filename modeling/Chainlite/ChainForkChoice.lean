import Chainlite.StorageDurability

/-! `try_replace` chooses the longest valid chain. A candidate is fed to a chain of its own, which agrees with
a fresh one in everything but the persistence flag; at one difficulty more work is more blocks, as long as the
sum fits 64 bits. Where it does not, the counter comes round and the work of a longer chain is smaller. -/

open Std

namespace Chainlite

section
variable [Crypto] {p : Params}

namespace Chain

/-! ### Candidates -/

/-- Feeding blocks to chains that differ in their databases only. -/
theorem connectAll_of_memory {now : Nat → Clock} {k n : Nat} {c c' d : Chain} {bs : List Block}
    (hmemory : d.memory = c.memory) (h : connectAll now k c bs = (c', n, none)) :
    ∃ d', connectAll now k d bs = (d', n, none) ∧ d'.memory = c'.memory := by
  induction bs generalizing c d k with
  | nil =>
      cases h
      exact ⟨d, rfl, hmemory⟩
  | cons b rest ih =>
      have hblocks : d.memory.blocks = c.memory.blocks := by rw [hmemory]
      rw [connectAll] at h
      cases hb : c.connectBlock (now k) b with
      | error err => simp [hb] at h
      | ok c₁ =>
          rw [hb] at h
          obtain ⟨haccepts, htime, rfl⟩ := connectBlock_ok_iff.mp hb
          have hd : d.connectBlock (now k) b = .ok (d.grow b) := by
            refine connectBlock_ok_iff.mpr ⟨?_, ?_, rfl⟩
            · rw [← accepts_memory, hmemory, accepts_memory]
              exact haccepts
            · rwa [show d.blocks = c.blocks from hblocks]
          have hgrown : (d.grow b).memory = (c.grow b).memory := by rw [grow_memory, grow_memory, hmemory]
          rw [connectAll, hd]
          exact ih hgrown h

/-- The chain that a candidate is tried on. -/
def scratch (p : Params) : Chain := { params := p, persisting := false }

/-- **One call of `try_replace`, in full.** -/
theorem tryReplace_ok_iff {now : Nat → Clock} {c c' : Chain} {cand : List Block} {fork : Nat} :
    c.tryReplace now cand = .ok (c', fork) ↔ cand ≠ [] ∧ ∃ tmp n,
      connectAll now 0 (scratch c.params) cand = (tmp, n, none) ∧ c.work < tmp.work ∧
        fork = forkPoint c.hashes tmp.hashes ∧
        c' = persist { c with
            blocks := tmp.blocks, hashes := tmp.hashes, st := tmp.st, txidx := tmp.txidx, work := tmp.work }
          ([.beginImmediate] ++ dbTruncateFrom (UInt64.ofNat fork) ++ (tmp.blocks.drop fork).flatMap dbInsert ++
            [.commit]) := by
  unfold tryReplace
  rw [guard_ok_iff]
  apply and_congr_right
  intro _
  change _ ↔ ∃ tmp n, connectAll now 0 { params := c.params, persisting := false } cand = (tmp, n, none) ∧ _
  rcases htmp : connectAll now 0 { params := c.params, persisting := false } cand with ⟨tmp, n, _ | ⟨b, err⟩⟩
  · dsimp only
    rw [guard_ok_iff, UInt64.not_le]
    constructor
    · rintro ⟨hwork, heq⟩
      cases heq
      exact ⟨tmp, n, rfl, hwork, rfl, rfl⟩
    · rintro ⟨_, _, heq, hwork, rfl, rfl⟩
      cases heq
      exact ⟨hwork, rfl⟩
  · simp

/-! ### The fork -/

omit [Crypto] in
/-- The fork is the length of the longest common beginning of the two hash lists. -/
theorem forkPoint_isGreatest (xs ys : List H256) :
    IsGreatest { n | ∃ front, front <+: xs ∧ front <+: ys ∧ front.length = n } (forkPoint xs ys) := by
  constructor
  · obtain ⟨hx, -, htake⟩ := forkPoint_spec xs ys
    refine ⟨xs.take (forkPoint xs ys), List.take_prefix _ _, ?_, List.length_take_of_le hx⟩
    rw [htake]
    exact List.take_prefix _ _
  · rintro n ⟨front, hxs, hys, rfl⟩
    induction front generalizing xs ys with
    | nil => exact Nat.zero_le _
    | cons x front ih =>
        obtain ⟨xs', rfl⟩ := hxs
        obtain ⟨ys', rfl⟩ := hys
        rw [List.cons_append, List.cons_append, forkPoint, if_pos rfl, List.length_cons]
        exact Nat.succ_le_succ (ih _ _ (List.prefix_append _ _) (List.prefix_append _ _))

/-! ### Work and length -/

/-- The exact work of a valid chain fits when one more block at full weight would. -/
theorem ValidBlocks.exactWork_lt {bs : List Block} (h : ValidBlocks p bs) (hne : bs ≠ [])
    (hfits : 1 + bs.length * 2 ^ p.bits.toNat < 2 ^ 64) : Chain.exactWork bs < 2 ^ 64 := by
  have hpos := List.length_pos_of_ne_nil hne
  rw [h.exactWork hne]
  rcases Nat.lt_or_ge bs.length 2 with hone | htwo
  · -- a genesis block alone, whatever the difficulty
    rw [show bs.length - 1 = 0 by omega, Nat.zero_mul]
    decide
  · have hbits : p.bits.toNat < 63 := by
      by_contra hlarge
      have hpow : 2 ^ 63 ≤ 2 ^ p.bits.toNat := Nat.pow_le_pow_right (by decide) (by omega)
      have hmul := Nat.mul_le_mul htwo hpow
      omega
    rw [workOf_of_lt hbits]
    have hle : (bs.length - 1) * 2 ^ p.bits.toNat ≤ bs.length * 2 ^ p.bits.toNat :=
      Nat.mul_le_mul_right _ (Nat.sub_le _ _)
    omega

/-- **Strict choice of the longest valid chain, in one piece.** -/
theorem replaces_iff_longer {c : Chain} (h : Reachable p c) (now : Nat → Clock) (cand : List Block)
    (hold : 1 + c.blocks.length * 2 ^ p.bits.toNat < 2 ^ 64) (hnew : 1 + cand.length * 2 ^ p.bits.toNat < 2 ^ 64) :
    ((∃ result, c.tryReplace now cand = .ok result) ↔
      (∃ d n, connectAll now 0 (fresh p) cand = (d, n, none)) ∧ c.blocks.length < cand.length) ∧
    (∀ c' fork, c.tryReplace now cand = .ok (c', fork) →
      c.perform (.replace now cand) = c' ∧ ∃ d n, connectAll now 0 (fresh p) cand = (d, n, none) ∧ SameLedger c' d ∧
        IsGreatest { n | ∃ front, front <+: c.hashes ∧ front <+: c'.hashes ∧ front.length = n } fork) ∧
    ∀ err, c.tryReplace now cand = .error err →
      c.perform (.replace now cand) = c ∧ c.sqlOf (.replace now cand) = [] := by
  obtain ⟨hsound, hne⟩ := h.sound
  have hparams := hsound.params
  have hmemory : (scratch c.params).memory = (fresh p).memory := by rw [hparams]; rfl
  have hscratch : Sound p (scratch c.params) := Sound.fresh.of_memory hmemory
  -- of the two chains the one with more blocks has more work
  have hmore : ∀ {tmp n}, connectAll now 0 (scratch c.params) cand = (tmp, n, none) → cand ≠ [] →
      (c.work < tmp.work ↔ c.blocks.length < cand.length) := by
    intro tmp n htmp hcand
    obtain ⟨htmpSound, done, -, hdone, -, hall, -⟩ := hscratch.connectAll htmp
    have hblocks : tmp.blocks = cand := by
      rw [hdone, hall rfl]
      rfl
    have hvalid := htmpSound.valid
    rw [← hblocks] at hcand hnew ⊢
    exact hsound.work_lt_iff htmpSound hne hcand (hsound.valid.exactWork_lt hne hold)
      (hvalid.exactWork_lt hcand hnew)
  refine ⟨⟨?_, ?_⟩, ?_, ?_⟩
  · rintro ⟨⟨c', fork⟩, hr⟩
    obtain ⟨hcand, tmp, n, htmp, hwork, -, -⟩ := tryReplace_ok_iff.mp hr
    obtain ⟨d, hd, -⟩ := connectAll_of_memory hmemory.symm htmp
    exact ⟨⟨d, n, hd⟩, (hmore htmp hcand).mp hwork⟩
  · rintro ⟨⟨d, n, hd⟩, hlonger⟩
    have hcand : cand ≠ [] := List.ne_nil_of_length_pos (Nat.lt_of_le_of_lt (Nat.zero_le _) hlonger)
    obtain ⟨tmp, htmp, -⟩ := connectAll_of_memory hmemory hd
    exact ⟨_, tryReplace_ok_iff.mpr ⟨hcand, tmp, n, htmp, (hmore htmp hcand).mpr hlonger, rfl, rfl⟩⟩
  · intro c' fork hr
    obtain ⟨hsound', hblocks, -, -⟩ := Sound.tryReplace hparams hr
    refine ⟨by rw [perform, hr], ?_⟩
    obtain ⟨-, tmp, n, htmp, -, rfl, rfl⟩ := tryReplace_ok_iff.mp hr
    obtain ⟨d, hd, -⟩ := connectAll_of_memory hmemory.symm htmp
    obtain ⟨hdSound, done, -, hdone, -, hall, -⟩ := Sound.fresh.connectAll hd
    refine ⟨d, n, hd, hsound'.sameLedger hdSound ?_, ?_⟩
    · rw [hblocks, hdone, hall rfl]
      rfl
    · rw [persist_hashes]
      exact forkPoint_isGreatest c.hashes tmp.hashes
  · intro err hr
    rw [perform, sqlOf, hr]
    exact ⟨rfl, rfl⟩

/-! ### Where the work comes round -/

omit [Crypto] in
theorem workOf_of_ge {bits : UInt32} (hbits : 63 ≤ bits.toNat) : (workOf bits).toNat = 2 ^ 64 - 1 := by
  have hsat : 63 ≤ bits := by simpa [UInt32.le_iff_toNat_le] using hbits
  rw [workOf, if_pos hsat]
  decide

/-- A block adds the work of the difficulty to the counter. -/
theorem work_connectBlock {c c' : Chain} {now : Clock} {b : Block} (hparams : c.params = p) (hne : c.blocks ≠ [])
    (hc : c.connectBlock now b = .ok c') : c'.work = c.work + workOf p.bits := by
  obtain ⟨haccepts, -, rfl⟩ := connectBlock_ok_iff.mp hc
  have hnext : NextBlock c b := by rwa [Accepts, if_neg hne] at haccepts
  have hbits : b.h.bits = p.bits := by rw [hnext.bits, hparams]
  rw [grow, append, persist_work, if_neg hne, hbits]

omit [Crypto] in
/-- Adding something to a counter of 64 bits makes it larger when it does not come round. -/
theorem lt_add_iff {w d : UInt64} (hd : 0 < d.toNat) : w < w + d ↔ w.toNat + d.toNat < 2 ^ 64 := by
  have hw := w.toNat_lt
  have hd' := d.toNat_lt
  rw [UInt64.lt_iff_toNat_lt, UInt64.toNat_add]
  constructor
  · intro hlt
    by_contra hround
    rw [Nat.mod_eq_sub_mod (by omega), Nat.mod_eq_of_lt (by omega)] at hlt
    omega
  · intro hfits
    rw [Nat.mod_eq_of_lt hfits]
    omega

omit [Crypto] in
/-- Modulo `K`, adding `K - 1` is subtracting one. -/
theorem add_pred_mod_iff {K m : ℕ} (hK : 2 < K) :
    (1 + m * (K - 1)) % K + (K - 1) < K ↔ (m + 1) % K = 2 := by
  have hsum : 1 + m * (K - 1) + m = 1 + m * K := by
    rw [Nat.add_assoc, ← Nat.mul_succ, Nat.succ_eq_add_one, Nat.sub_add_cancel (by omega)]
  calc (1 + m * (K - 1)) % K + (K - 1) < K
      ↔ 1 + m * (K - 1) ≡ 0 [MOD K] := by
        rw [Nat.ModEq, Nat.zero_mod]
        omega
    _ ↔ 1 + m * (K - 1) + m ≡ 0 + m [MOD K] := (Nat.ModEq.add_iff_right rfl).symm
    _ ↔ 2 ≡ m + 1 [MOD K] := by
        rw [hsum, Nat.zero_add, Nat.ModEq, Nat.add_mul_mod_self_right]
        exact (Nat.ModEq.add_iff_right (n := K) (a := 1) (b := m) (c := 1) (d := 1) rfl).symm
    _ ↔ (m + 1) % K = 2 := by
        rw [Nat.ModEq, Nat.mod_eq_of_lt hK]
        exact eq_comm

/-- **When a block increases the work.** The counter of a chain of `n` blocks stands at
`1 + (n - 1) * work_of(bits)` modulo `2 ^ 64`. While the exact sums fit it always grows; from 63 bits on it grows
for the second block above the genesis only, until `2 ^ 64` more have come. -/
theorem work_increases_iff {c c' : Chain} {now : Clock} {b : Block} (h : Reachable p c)
    (hc : c.connectBlock now b = .ok c') :
    (c.work < c'.work ↔
      (1 + (c.blocks.length - 1) * (workOf p.bits).toNat) % 2 ^ 64 + (workOf p.bits).toNat < 2 ^ 64) ∧
    (1 + c.blocks.length * (workOf p.bits).toNat < 2 ^ 64 → c.work < c'.work) ∧
    (63 ≤ p.bits.toNat → (c.work < c'.work ↔ c.blocks.length % 2 ^ 64 = 2)) := by
  obtain ⟨hsound, hne⟩ := h.sound
  have hpos := List.length_pos_of_ne_nil hne
  have hstored : c.work.toNat = (1 + (c.blocks.length - 1) * (workOf p.bits).toNat) % 2 ^ 64 := by
    rw [hsound.work, replay_work, hsound.valid.exactWork hne]
  have hiff : c.work < c'.work ↔
      (1 + (c.blocks.length - 1) * (workOf p.bits).toNat) % 2 ^ 64 + (workOf p.bits).toNat < 2 ^ 64 := by
    rw [work_connectBlock hsound.params hne hc, lt_add_iff (workOf_pos _), hstored]
  refine ⟨hiff, fun hfits => hiff.mpr ?_, fun hbits => hiff.trans ?_⟩
  · have hsplit : c.blocks.length * (workOf p.bits).toNat =
        (c.blocks.length - 1) * (workOf p.bits).toNat + (workOf p.bits).toNat := by
      rw [← Nat.succ_mul, Nat.succ_eq_add_one, Nat.sub_add_cancel hpos]
    rw [Nat.mod_eq_of_lt (by omega)]
    omega
  · have hcount : c.blocks.length - 1 + 1 = c.blocks.length := Nat.sub_add_cancel hpos
    rw [workOf_of_ge hbits, add_pred_mod_iff (by decide), hcount]

end Chain

end

section
local instance forkCrypto : Crypto := Sha.crypto fun _ _ _ => false

theorem replaces_iff_longer_one_block : ∃ result,
    (Chain.coinbases (zeros 20) 0).tryReplace (fun _ => Chain.easyClock) (Chain.coinbases (zeros 20) 1).blocks =
      .ok result := by
  have hlength := Chain.length_coinbases (zeros 20)
  have hsound := (Chain.coinbases_reachable (zeros 20) 1).sound.1
  obtain ⟨d, hd, -⟩ := Chain.Sound.fresh.connectAll_rest hsound.valid (fun _ => Chain.coinbases_timely (zeros 20) 1) 0
  refine (Chain.replaces_iff_longer (Chain.coinbases_reachable (zeros 20) 0) _ _ ?_ ?_).1.mpr ⟨⟨d, _, hd⟩, ?_⟩
  · rw [hlength]
    decide
  · rw [hlength]
    decide
  · rw [hlength, hlength]
    decide

theorem work_increases_iff_one_block :
    (Chain.coinbases (zeros 20) 0).work < (Chain.coinbases (zeros 20) 1).work := by
  have hreachable := Chain.coinbases_reachable (zeros 20) 0
  obtain ⟨hsound, hne⟩ := hreachable.sound
  refine (Chain.work_increases_iff hreachable (Chain.connect_coinbases hsound hne)).2.1 ?_
  rw [Chain.length_coinbases]
  decide

end

section
/-- A hash function under which every header meets every difficulty up to 256 bits. -/
local instance zeroCrypto : Crypto := { Sha.crypto fun _ _ _ => false with sha256d := fun _ => zeros 32 }

def hardParams : Params := { bits := 63 }

/-- The genesis block, at 63 bits. -/
def hardGenesis : Chain := (Chain.fresh hardParams).grow (makeGenesis hardParams)

def hardBlock : Block := Chain.candidate hardParams hardGenesis (zeros 20) [] hardParams.genesisTime 0

theorem hardGenesis_reachable : Chain.Reachable hardParams hardGenesis := by
  have hgenesis : (Chain.fresh hardParams).Accepts (makeGenesis hardParams) := by
    rw [Chain.Accepts, if_pos (show (Chain.fresh hardParams).blocks = [] from rfl)]
    exact ⟨rfl, rfl⟩
  have hinit : (Chain.fresh hardParams).init (fun _ => Chain.easyClock) none = .ok hardGenesis := by
    show (Chain.fresh hardParams).connectBlock Chain.easyClock (makeGenesis hardParams) = .ok hardGenesis
    exact Chain.connectBlock_ok_iff.mpr ⟨hgenesis, fun hne => absurd rfl hne, rfl⟩
  exact .init hinit

/-- At 63 bits the first block above the genesis takes the work from 1 to 0. -/
theorem first_hard_block_loses_work : Chain.Reachable hardParams hardGenesis ∧
    hardGenesis.connectBlock Chain.easyClock hardBlock = .ok (hardGenesis.grow hardBlock) ∧
    hardGenesis.work = 1 ∧ (hardGenesis.grow hardBlock).work = 0 ∧
    ¬hardGenesis.work < (hardGenesis.grow hardBlock).work := by
  obtain ⟨hsound, hne⟩ := hardGenesis_reachable.sound
  have hpow : powOk hardBlock.h.hash hardParams.bits = true := by decide
  have haccepts : hardGenesis.Accepts hardBlock :=
    Chain.candidate_accepted hsound.params hne (by decide) trivial hpow
  have hconnect : hardGenesis.connectBlock Chain.easyClock hardBlock = .ok (hardGenesis.grow hardBlock) :=
    Chain.connectBlock_ok_iff.mpr ⟨haccepts, fun _ => Chain.candidate_timely.mpr (by decide), rfl⟩
  have hwork : hardGenesis.work = 1 := by decide
  have hwork' : (hardGenesis.grow hardBlock).work = 0 := by
    rw [Chain.work_connectBlock hsound.params hne hconnect, hwork]
    decide
  refine ⟨hardGenesis_reachable, hconnect, hwork, hwork', ?_⟩
  rw [hwork, hwork']
  decide

end

end Chainlite
