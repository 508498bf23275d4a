import Chainlite.ChainReplay

/-! Clocks and work. A block that was on time stays so while the clock is not set back, so a valid chain can
be fed to a fresh one at any later time. The 64-bit work of a chain is its exact work as long as that fits. -/

open Std

namespace Chainlite

namespace Chain

variable [Crypto] {p : Params} {t : Clock} {c c' : Chain}

/-! ### Blocks on time -/

omit [Crypto] in
theorem allTimely_nil (t : Clock) : AllTimely t [] := fun b hb => absurd hb (by simp)

theorem AllTimely.connectBlock (h : AllTimely t c.blocks) {now : Clock} {b : Block} (hnow : now ≤ t)
    (hc : c.connectBlock now b = .ok c') : AllTimely t c'.blocks := by
  obtain ⟨-, htime, rfl⟩ := connectBlock_ok_iff.mp hc
  rw [grow_blocks]
  exact h.snoc fun hne => (htime hne).mono hnow

theorem AllTimely.connectAll (h : AllTimely t c.blocks) {now : Nat → Clock} {k n : Nat} {bs : List Block}
    {err : Option (Block × ConnectError)} (hnow : ∀ i, now i ≤ t)
    (hc : Chain.connectAll now k c bs = (c', n, err)) : AllTimely t c'.blocks := by
  induction bs generalizing c k with
  | nil =>
      cases hc
      exact h
  | cons b rest ih =>
      rw [Chain.connectAll] at hc
      cases hb : c.connectBlock (now k) b with
      | error e =>
          rw [hb] at hc
          cases hc
          exact h
      | ok c₁ =>
          rw [hb] at hc
          exact ih (h.connectBlock (hnow k) hb) hc

theorem allTimely_tryReplace {now : Nat → Clock} {cand : List Block} {fork : Nat} (hnow : ∀ i, now i ≤ t)
    (hr : c.tryReplace now cand = .ok (c', fork)) : AllTimely t c'.blocks := by
  unfold Chain.tryReplace at hr
  obtain ⟨-, hr⟩ := guard_ok_iff.mp hr
  rcases htmp : Chain.connectAll now 0 { params := c.params, persisting := false } cand with
    ⟨tmp, n, _ | ⟨b, err⟩⟩
  · simp only [htmp] at hr
    obtain ⟨-, hr⟩ := guard_ok_iff.mp hr
    cases hr
    rw [persist_blocks]
    have hstart : AllTimely t ({ params := c.params, persisting := false } : Chain).blocks := allTimely_nil t
    have htimely : AllTimely t tmp.blocks := hstart.connectAll hnow htmp
    exact htimely
  · simp [htmp] at hr

theorem AllTimely.loadRows (h : AllTimely t c.blocks) {now : Nat → Clock} (hnow : ∀ i, now i ≤ t) (good : Nat)
    (raws : List Bytes) : AllTimely t (Chain.loadRows now good c raws).1.blocks := by
  induction raws generalizing c good with
  | nil => exact h
  | cons raw rest ih =>
      rw [Chain.loadRows]
      cases Block.parse raw with
      | none => exact h
      | some b =>
          dsimp only
          cases hb : c.connectBlock (now good) b with
          | error err => exact h
          | ok c₁ => exact ih (h.connectBlock (hnow good) hb) _

theorem AllTimely.ensureGenesis (h : AllTimely t c.blocks) {now : Clock} (hnow : now ≤ t)
    (he : c.ensureGenesis now = .ok c') : AllTimely t c'.blocks := by
  unfold Chain.ensureGenesis at he
  split_ifs at he
  · exact h.connectBlock hnow he
  · cases he
    exact h

theorem allTimely_init {now : Nat → Clock} {database : Option Db} (hnow : ∀ i, now i ≤ t)
    (hi : (Chain.fresh p).init now database = .ok c) : AllTimely t c.blocks := by
  unfold Chain.init at hi
  cases database with
  | none => exact (allTimely_nil t).ensureGenesis (hnow 0) hi
  | some db =>
      have hstart : AllTimely t { Chain.fresh p with db := some db, persisting := false }.blocks := allTimely_nil t
      have hload := hstart.loadRows hnow 0 db.rawsByHeight
      refine AllTimely.ensureGenesis ?_ (hnow _) hi
      split
      · exact hload
      · exact hload

/-- The rest of a valid chain connects, block by block, whenever its blocks are on time. -/
theorem Sound.connectAll_rest (h : Sound p c) {now : Nat → Clock} {rest : List Block}
    (hvalid : ValidBlocks p (c.blocks ++ rest)) (htime : ∀ i, AllTimely (now i) (c.blocks ++ rest)) (k : Nat) :
    ∃ c', Chain.connectAll now k c rest = (c', k + rest.length, none) ∧ Sound p c' ∧
      c'.blocks = c.blocks ++ rest := by
  induction rest generalizing c k with
  | nil => exact ⟨c, rfl, h, (List.append_nil _).symm⟩
  | cons b rest ih =>
      have haccepts : c.Accepts b := h.accepts_iff.mp (hvalid c.blocks b rest rfl)
      have hnext : c.connectBlock (now k) b = .ok (c.grow b) := by
        refine connectBlock_ok_iff.mpr ⟨haccepts, fun hne => htime k b ?_, rfl⟩
        rw [List.tail_append_of_ne_nil hne]
        simp
      have happend : c.blocks ++ b :: rest = (c.grow b).blocks ++ rest := by simp
      rw [happend] at hvalid htime
      obtain ⟨c', hall, hsound, hblocks⟩ := ih (h.grow haccepts) hvalid htime (k + 1)
      refine ⟨c', ?_, hsound, hblocks.trans happend.symm⟩
      rw [Chain.connectAll, hnext, List.length_cons, Nat.add_comm rest.length, ← Nat.add_assoc]
      exact hall

/-- A valid candidate with more work is adopted. -/
theorem Sound.tryReplace_ok (h : Sound p c) {now : Nat → Clock} {cand : List Block} (hvalid : ValidBlocks p cand)
    (hne : cand ≠ []) (htime : ∀ i, AllTimely (now i) cand) (hwork : c.work < (replay p cand).work) :
    ∃ c' fork, c.tryReplace now cand = .ok (c', fork) := by
  have hstart : Sound p { params := c.params, persisting := false } :=
    Sound.fresh.of_memory (by rw [h.params]; rfl)
  obtain ⟨tmp, hall, hsound, hblocks⟩ := hstart.connectAll_rest hvalid htime 0
  have hblocks : tmp.blocks = cand := hblocks
  have hmore : ¬tmp.work ≤ c.work := by
    rw [hsound.work, hblocks]
    exact UInt64.not_le.mpr hwork
  rw [Chain.tryReplace, if_neg hne, hall]
  dsimp only
  rw [if_neg hmore]
  exact ⟨_, _, rfl⟩

/-! ### Work -/

/-- The work of a chain in exact integers: one for the genesis block, then that of every block. -/
def exactWork : List Block → ℕ
  | [] => 0
  | _ :: rest => 1 + (rest.map fun b => (workOf b.h.bits).toNat).sum

omit [Crypto] in
theorem exactWork_snoc {bs : List Block} (hne : bs ≠ []) (b : Block) :
    exactWork (bs ++ [b]) = exactWork bs + (workOf b.h.bits).toNat := by
  cases bs with
  | nil => exact absurd rfl hne
  | cons g bs => simp [exactWork, Nat.add_assoc]

omit [Crypto] in
/-- Every block adds work. -/
theorem exactWork_lt_append {bs bs' : List Block} (hne : bs ≠ []) (hne' : bs' ≠ []) :
    exactWork bs < exactWork (bs ++ bs') := by
  cases bs with
  | nil => exact absurd rfl hne
  | cons g bs =>
      cases bs' with
      | nil => exact absurd rfl hne'
      | cons b bs' =>
          have := workOf_pos b.h.bits
          simp only [exactWork, List.cons_append, List.map_append, List.sum_append, List.map_cons, List.sum_cons]
          omega

omit [Crypto] in
theorem exactWork_le_of_isPrefix {bs bs' : List Block} (hne : bs ≠ []) (h : bs <+: bs') :
    exactWork bs ≤ exactWork bs' := by
  obtain ⟨rest, rfl⟩ := h
  by_cases hnil : rest = []
  · rw [hnil, List.append_nil]
  · exact (exactWork_lt_append hne hnil).le

omit [Crypto] in
theorem length_le_exactWork (bs : List Block) : bs.length ≤ exactWork bs := by
  induction bs using List.reverseRecOn with
  | nil => exact Nat.le_refl 0
  | append_singleton bs b ih =>
      by_cases hnil : bs = []
      · subst hnil
        simp [exactWork]
      · have := workOf_pos b.h.bits
        rw [exactWork_snoc hnil, List.length_append, List.length_singleton]
        omega

/-- The exact work of a valid chain, by its length. -/
theorem ValidBlocks.exactWork {bs : List Block} (h : ValidBlocks p bs) (hne : bs ≠ []) :
    Chain.exactWork bs = 1 + (bs.length - 1) * (workOf p.bits).toNat := by
  refine ValidBlocks.induction (motive := fun bs => bs ≠ [] →
    Chain.exactWork bs = 1 + (bs.length - 1) * (workOf p.bits).toNat) (fun hne => absurd rfl hne) ?_ h hne
  intro bs b _ hb ih _
  by_cases hnil : bs = []
  · subst hnil
    simp [Chain.exactWork]
  · have hbits : b.h.bits = p.bits := by
      have hnext : NextBlock (replay p bs) b := by
        rwa [Accepts, if_neg (by rwa [replay_blocks])] at hb
      rw [hnext.bits, replay_params]
    have hpos := List.length_pos_of_ne_nil hnil
    rw [exactWork_snoc hnil, ih hnil, hbits, List.length_append, List.length_singleton, Nat.add_assoc,
      ← Nat.succ_mul]
    congr 2
    omega

theorem replay_work (bs : List Block) : (replay p bs).work.toNat = exactWork bs % 2 ^ 64 := by
  induction bs using List.reverseRecOn with
  | nil => rfl
  | append_singleton bs b ih =>
      rw [replay_snoc, grow_replay]
      simp only [UInt64.toNat_add, ih]
      by_cases hnil : bs = []
      · subst hnil
        rfl
      · rw [if_neg hnil, exactWork_snoc hnil, Nat.mod_add_mod]

/-- While the exact work fits, it is the stored one. -/
theorem Sound.work_eq (h : Sound p c) (hwork : exactWork c.blocks < 2 ^ 64) :
    c.work.toNat = exactWork c.blocks := by
  rw [h.work, replay_work, Nat.mod_eq_of_lt hwork]

/-- Of two chains with exact work the longer one has more. -/
theorem Sound.work_lt_iff (h : Sound p c) (h' : Sound p c') (hne : c.blocks ≠ []) (hne' : c'.blocks ≠ [])
    (hwork : exactWork c.blocks < 2 ^ 64) (hwork' : exactWork c'.blocks < 2 ^ 64) :
    c.work < c'.work ↔ c.blocks.length < c'.blocks.length := by
  have hpos := List.length_pos_of_ne_nil hne
  have hpos' := List.length_pos_of_ne_nil hne'
  rw [UInt64.lt_iff_toNat_lt, h.work_eq hwork, h'.work_eq hwork', h.valid.exactWork hne, h'.valid.exactWork hne',
    Nat.add_lt_add_iff_left, Nat.mul_lt_mul_right (workOf_pos p.bits)]
  omega

theorem Sound.work_lt_append (h : Sound p c) (h' : Sound p c') {bs : List Block} (hne : c.blocks ≠ [])
    (hbs : bs ≠ []) (hblocks : c'.blocks = c.blocks ++ bs) (hwork : exactWork c'.blocks < 2 ^ 64) :
    c.work < c'.work := by
  have hmore : exactWork c.blocks < exactWork c'.blocks := hblocks ▸ exactWork_lt_append hne hbs
  rw [UInt64.lt_iff_toNat_lt, h.work_eq (hmore.trans hwork), h'.work_eq hwork]
  exact hmore

end Chain

end Chainlite
