import Chainlite.Chain

/-! What a chain in memory is: the replay of its own block list. `connectBlock` either rejects or
grows the chain by the block, so every chain reached by `init`, `connectBlock` and `tryReplace` is
determined by its blocks, each of which was acceptable to the replay of those before it. Properties
of reachable chains are then proved along the block list. -/

open Std

namespace Chainlite

namespace Chain

/-- The chain without its database: what the blocks determine. -/
def memory (c : Chain) : Chain := { c with db := none, persisting := true }

@[simp] theorem memory_memory (c : Chain) : c.memory.memory = c.memory := rfl

@[simp] theorem persist_memory (c : Chain) (stmts : List Sql) : (c.persist stmts).memory = c.memory := by
  unfold persist sql memory
  split <;> rfl

@[simp] theorem persist_blocks (c : Chain) (stmts : List Sql) : (c.persist stmts).blocks = c.blocks := by
  unfold persist sql
  split <;> rfl

@[simp] theorem persist_work (c : Chain) (stmts : List Sql) : (c.persist stmts).work = c.work := by
  unfold persist sql
  split <;> rfl

@[simp] theorem persist_hashes (c : Chain) (stmts : List Sql) : (c.persist stmts).hashes = c.hashes := by
  unfold persist sql
  split <;> rfl

@[simp] theorem persist_st (c : Chain) (stmts : List Sql) : (c.persist stmts).st = c.st := by
  unfold persist sql
  split <;> rfl

/-- The time of the block is not too far ahead of the clock. -/
def Timely (now : Clock) (b : Block) : Prop := b.h.time ≤ now.seconds + maxTimeSkew

theorem not_lt_iff_timely {now : Clock} {b : Block} :
    ¬now.seconds + maxTimeSkew < b.h.time ↔ Timely now b := UInt64.not_lt

variable [Crypto]

/-- The checks of `connectBlock` on a block after the genesis, the one on the time apart. -/
structure NextBlock (c : Chain) (b : Block) : Prop where
  version : b.h.version = clVersion
  netId : b.h.netId = c.params.netId
  height : b.h.height = c.height + 1
  prev : b.h.prev = c.tipHash
  bits : b.h.bits = c.params.bits
  pow : powOk b.h.hash b.h.bits = true
  count : b.txs.length ≤ maxBlockTxs
  merkle : merkleRoot b.txids = b.h.merkle
  body : ∃ cb rest, b.txs = cb :: rest ∧ TxValid c.st c.params b.h.height true cb ∧
    Settles c.params b.h.height (c.st.effect cb) rest

structure GenesisBlock (p : Params) (b : Block) : Prop where
  hash : b.h.hash = (makeGenesis p).h.hash
  txs : b.txs = []

/-- The block is acceptable as the next one, at some time. -/
def Accepts (c : Chain) (b : Block) : Prop :=
  if c.blocks = [] then GenesisBlock c.params b else NextBlock c b

/-- The chain after the block `b`. -/
def grow (c : Chain) (b : Block) : Chain :=
  append { c with st := c.st.effects b.txs } b (if c.blocks = [] then 1 else workOf b.h.bits)

@[simp] theorem grow_blocks (c : Chain) (b : Block) : (c.grow b).blocks = c.blocks ++ [b] := by
  rw [grow, append, persist_blocks]

@[simp] theorem grow_st (c : Chain) (b : Block) : (c.grow b).st = c.st.effects b.txs := by
  rw [grow, append, persist_st]

@[simp] theorem grow_memory (c : Chain) (b : Block) : (c.grow b).memory = c.memory.grow b := by
  rw [grow, append, persist_memory, grow, append, persist, memory]
  rfl

theorem accepts_memory {c : Chain} {b : Block} : c.memory.Accepts b ↔ c.Accepts b := by
  unfold Accepts
  show (if c.blocks = [] then _ else _) ↔ _
  split
  · exact Iff.rfl
  · exact ⟨fun h => ⟨h.1, h.2, h.3, h.4, h.5, h.6, h.7, h.8, h.9⟩,
      fun h => ⟨h.1, h.2, h.3, h.4, h.5, h.6, h.7, h.8, h.9⟩⟩

/-- **`connectBlock` in full**: it grows the chain by an acceptable block whose time is right. -/
theorem connectBlock_ok_iff {now : Clock} {c c' : Chain} {b : Block} :
    c.connectBlock now b = .ok c' ↔
      c.Accepts b ∧ (c.blocks ≠ [] → Timely now b) ∧ c' = c.grow b := by
  unfold connectBlock Accepts grow
  cases hlast : c.blocks.getLast? with
  | none =>
      have hnil : c.blocks = [] := List.getLast?_eq_none_iff.mp hlast
      rw [if_pos hnil, if_pos hnil]
      constructor
      · intro h
        dsimp only at h
        split_ifs at h with hbad
        push Not at hbad
        injection h with h
        exact ⟨⟨hbad.1, hbad.2⟩, fun hne => absurd hnil hne, by rw [← h, hbad.2]; rfl⟩
      · rintro ⟨⟨hhash, htxs⟩, -, rfl⟩
        rw [htxs]
        exact if_neg (by simp [hhash])
  | some tip =>
      have hne : c.blocks ≠ [] := by rintro hnil; simp [hnil] at hlast
      have hheight : c.height = tip.h.height := by simp [height, hlast]
      rw [if_neg hne, if_neg hne]
      dsimp only
      constructor
      · intro h
        simp only [guard_ok_iff, not_not] at h
        obtain ⟨hversion, hnet, hnum, hprev, hbits, hpow, htime, hcount, hmerkle, h⟩ := h
        push Not at hcount
        cases hbody : applyBody c.params b.h.height c.st 0 b.txs with
        | error e => simp [hbody] at h
        | ok st =>
            rw [hbody] at h
            injection h with h
            obtain ⟨cb, rest, htxs, hcb, hrest, hst⟩ := (applyBody_ok_iff hcount.1).mp hbody
            exact ⟨⟨hversion, hnet, by rw [hheight, hnum], hprev, hbits, by simpa using hpow, hcount.2, hmerkle,
              cb, rest, htxs, hcb, hrest⟩, fun _ => not_lt_iff_timely.mp htime, by rw [← h, hst]⟩
      · rintro ⟨hnext, htime, rfl⟩
        obtain ⟨cb, rest, htxs, hcb, hrest⟩ := hnext.body
        have htxs' : b.txs ≠ [] := by simp [htxs]
        have hbody := (applyBody_ok_iff htxs').mpr ⟨cb, rest, htxs, hcb, hrest, rfl⟩
        rw [if_neg (not_not.mpr hnext.version), if_neg (not_not.mpr hnext.netId),
          if_neg (not_not.mpr (hheight ▸ hnext.height)), if_neg (not_not.mpr hnext.prev),
          if_neg (not_not.mpr hnext.bits), if_neg (by simp [hnext.pow]),
          if_neg (not_lt_iff_timely.mpr (htime hne)), if_neg (by simp [htxs', hnext.count]),
          if_neg (not_not.mpr hnext.merkle), hbody]

/-! ### Replay -/

/-- The chain with the given blocks. -/
def replay (p : Params) (bs : List Block) : Chain := bs.foldl grow (fresh p)

/-- Every block is acceptable to the replay of those before it. -/
def ValidBlocks (p : Params) (bs : List Block) : Prop :=
  ∀ before b after, bs = before ++ b :: after → (replay p before).Accepts b

variable {p : Params}

@[simp] theorem replay_nil : replay p [] = fresh p := rfl

@[simp] theorem replay_snoc (bs : List Block) (b : Block) :
    replay p (bs ++ [b]) = (replay p bs).grow b := List.foldl_append

theorem ValidBlocks.nil : ValidBlocks p [] := by
  intro before b after h
  simp at h

theorem ValidBlocks.of_append {bs bs' : List Block} (h : ValidBlocks p (bs ++ bs')) : ValidBlocks p bs := by
  intro before b after heq
  exact h before b (after ++ bs') (by rw [heq]; simp)

theorem ValidBlocks.of_isPrefix {bs bs' : List Block} (h : ValidBlocks p bs') (hpre : bs <+: bs') :
    ValidBlocks p bs := by
  obtain ⟨rest, rfl⟩ := hpre
  exact h.of_append

theorem validBlocks_snoc {bs : List Block} {b : Block} :
    ValidBlocks p (bs ++ [b]) ↔ ValidBlocks p bs ∧ (replay p bs).Accepts b := by
  constructor
  · intro h
    exact ⟨h.of_append, h bs b [] rfl⟩
  · rintro ⟨hbs, hb⟩ before b' after heq
    rcases List.eq_nil_or_concat' after with rfl | ⟨init, last, rfl⟩
    · obtain ⟨rfl, hlast⟩ := List.append_inj' heq rfl
      obtain rfl : b = b' := by simpa using hlast
      exact hb
    · rw [← List.cons_append, ← List.append_assoc] at heq
      exact hbs before b' init (List.append_inj' heq rfl).1

/-- Induction along a valid block list, one accepted block at a time. -/
theorem ValidBlocks.induction {motive : List Block → Prop} (nil : motive [])
    (snoc : ∀ bs b, ValidBlocks p bs → (replay p bs).Accepts b → motive bs → motive (bs ++ [b]))
    {bs : List Block} (h : ValidBlocks p bs) : motive bs := by
  induction bs using List.reverseRecOn with
  | nil => exact nil
  | append_singleton bs b ih =>
      obtain ⟨hbs, hb⟩ := validBlocks_snoc.mp h
      exact snoc bs b hbs hb (ih hbs)

@[simp] theorem replay_blocks (bs : List Block) : (replay p bs).blocks = bs := by
  induction bs using List.reverseRecOn with
  | nil => rfl
  | append_singleton bs b ih => rw [replay_snoc, grow_blocks, ih]

/-- Nothing is persisted by a chain without a database. -/
theorem replay_memory (bs : List Block) : (replay p bs).memory = replay p bs := by
  induction bs using List.reverseRecOn with
  | nil => rfl
  | append_singleton bs b ih => rw [replay_snoc, grow_memory, ih]

/-- A replayed chain is the replay of its blocks, field by field. -/
theorem grow_replay (bs : List Block) (b : Block) :
    (replay p bs).grow b =
      { replay p bs with
        st := (replay p bs).st.effects b.txs
        txidx := indexTxs (replay p bs).txidx b
        blocks := bs ++ [b]
        hashes := (replay p bs).hashes ++ [b.h.hash]
        work := (replay p bs).work + if bs = [] then 1 else workOf b.h.bits } := by
  have hmem := replay_memory (p := p) bs
  have hdb : (replay p bs).db = none := by rw [← hmem]; rfl
  rw [grow, append, persist, sql]
  simp only [hdb, Option.map_none, replay_blocks, ite_self]

@[simp] theorem replay_params (bs : List Block) : (replay p bs).params = p := by
  induction bs using List.reverseRecOn with
  | nil => rfl
  | append_singleton bs b ih => rw [replay_snoc, grow_replay, ih]

@[simp] theorem replay_hashes (bs : List Block) : (replay p bs).hashes = bs.map fun b => b.h.hash := by
  induction bs using List.reverseRecOn with
  | nil => rfl
  | append_singleton bs b ih => rw [replay_snoc, grow_replay, ih]; simp

theorem replay_st_snoc (bs : List Block) (b : Block) :
    (replay p (bs ++ [b])).st = (replay p bs).st.effects b.txs := by
  rw [replay_snoc, grow_replay]

/-- The state is the effect of all transactions in chain order. -/
theorem replay_st (bs : List Block) : (replay p bs).st = State.effects ∅ (bs.flatMap Block.txs) := by
  induction bs using List.reverseRecOn with
  | nil => rfl
  | append_singleton bs b ih =>
      rw [replay_st_snoc, ih, List.flatMap_append, State.effects_append]
      simp

theorem replay_tipHash_snoc (bs : List Block) (b : Block) :
    (replay p (bs ++ [b])).tipHash = b.h.hash := by
  rw [tipHash, replay_hashes]
  simp

theorem replay_height_snoc (bs : List Block) (b : Block) :
    (replay p (bs ++ [b])).height = b.h.height := by
  simp only [height, replay_blocks, List.getLast?_append, List.getLast?_singleton, Option.some_or]

/-! ### Reachable chains -/

/-- The chain is the replay of its blocks, and these are valid. -/
structure Sound (p : Params) (c : Chain) : Prop where
  memory : c.memory = replay p c.blocks
  valid : ValidBlocks p c.blocks

/-- Two chains agree on their blocks and on all that is derived from them. -/
structure SameLedger (c c' : Chain) : Prop where
  blocks : c.blocks = c'.blocks
  hashes : c.hashes = c'.hashes
  st : c.st = c'.st
  txidx : c.txidx = c'.txidx
  work : c.work = c'.work

/-- The times of the blocks after the genesis are right at `now`. -/
def AllTimely (now : Clock) (bs : List Block) : Prop := ∀ b ∈ bs.tail, Timely now b

omit [Crypto] in
theorem Timely.mono {now later : Clock} {b : Block} (h : Timely now b) (hle : now ≤ later) :
    Timely later b := by
  have hnow := now.nonneg
  have hlater := later.nonneg
  have hle' : now.seconds.toNat ≤ later.seconds.toNat := hle
  have h' : b.h.time.toNat ≤ (now.seconds + maxTimeSkew).toNat := h
  show b.h.time.toNat ≤ (later.seconds + maxTimeSkew).toNat
  rw [UInt64.toNat_add] at h' ⊢
  simp only [maxTimeSkew, UInt64.reduceToNat] at h' ⊢
  omega

omit [Crypto] in
theorem AllTimely.mono {now later : Clock} {bs : List Block} (h : AllTimely now bs) (hle : now ≤ later) :
    AllTimely later bs := fun b hb => (h b hb).mono hle

omit [Crypto] in
theorem AllTimely.snoc {now : Clock} {bs : List Block} {b : Block} (h : AllTimely now bs)
    (hb : bs ≠ [] → Timely now b) : AllTimely now (bs ++ [b]) := by
  cases bs with
  | nil => intro x hx; simp at hx
  | cons g bs =>
      intro x hx
      rcases List.mem_append.mp hx with hx | hx
      · exact h x hx
      · rw [List.mem_singleton.mp hx]
        exact hb (by simp)

omit [Crypto] in
theorem AllTimely.of_isPrefix {now : Clock} {bs bs' : List Block} (h : AllTimely now bs') (hpre : bs <+: bs') :
    AllTimely now bs := by
  obtain ⟨rest, rfl⟩ := hpre
  cases bs with
  | nil => exact fun x hx => absurd hx (by simp)
  | cons g bs => exact fun x hx => h x (List.mem_append_left _ hx)

namespace Sound

variable {c c' : Chain}

theorem params (h : Sound p c) : c.params = p := by
  have := congrArg Chain.params h.memory
  rwa [replay_params] at this

theorem st (h : Sound p c) : c.st = (replay p c.blocks).st := by
  rw [← h.memory]
  rfl

theorem work (h : Sound p c) : c.work = (replay p c.blocks).work := by
  rw [← h.memory]
  rfl

theorem hashes (h : Sound p c) : c.hashes = c.blocks.map fun b => b.h.hash := by
  have := congrArg Chain.hashes h.memory
  rwa [replay_hashes] at this

theorem txidx (h : Sound p c) : c.txidx = (replay p c.blocks).txidx := by
  rw [← h.memory]
  rfl

theorem tipHash (h : Sound p c) : c.tipHash = (replay p c.blocks).tipHash := by
  rw [← h.memory]
  rfl

theorem height (h : Sound p c) : c.height = (replay p c.blocks).height := by
  rw [← h.memory]
  rfl

theorem sameLedger (h : Sound p c) (h' : Sound p c') (hblocks : c.blocks = c'.blocks) : SameLedger c c' :=
  ⟨hblocks, by rw [h.hashes, h'.hashes, hblocks], by rw [h.st, h'.st, hblocks],
    by rw [h.txidx, h'.txidx, hblocks], by rw [h.work, h'.work, hblocks]⟩

theorem fresh : Sound p (Chain.fresh p) := ⟨rfl, ValidBlocks.nil⟩

theorem of_memory (h : Sound p c) (heq : c'.memory = c.memory) : Sound p c' := by
  have hblocks : c'.memory.blocks = c.memory.blocks := by rw [heq]
  change c'.blocks = c.blocks at hblocks
  exact ⟨by rw [heq, hblocks]; exact h.memory, hblocks ▸ h.valid⟩

theorem accepts_iff (h : Sound p c) {b : Block} : (replay p c.blocks).Accepts b ↔ c.Accepts b := by
  rw [← h.memory, accepts_memory]

theorem grow (h : Sound p c) {b : Block} (hb : c.Accepts b) : Sound p (c.grow b) := by
  refine ⟨?_, ?_⟩
  · rw [grow_memory, grow_blocks, replay_snoc, h.memory]
  · rw [grow_blocks]
    exact validBlocks_snoc.mpr ⟨h.valid, h.accepts_iff.mpr hb⟩

theorem connectBlock (h : Sound p c) {now : Clock} {b : Block} (hc : c.connectBlock now b = .ok c') :
    Sound p c' ∧ c'.blocks = c.blocks ++ [b] := by
  obtain ⟨hb, -, rfl⟩ := connectBlock_ok_iff.mp hc
  exact ⟨h.grow hb, grow_blocks c b⟩

/-- As many blocks as connect, in their order. -/
theorem connectAll (h : Sound p c) {now : Nat → Clock} {k n : Nat} {bs : List Block}
    {err : Option (Block × ConnectError)} (hc : Chain.connectAll now k c bs = (c', n, err)) :
    Sound p c' ∧ ∃ done, done <+: bs ∧ c'.blocks = c.blocks ++ done ∧ n = k + done.length ∧
      (err = none → done = bs) ∧ (done = [] → c' = c) := by
  induction bs generalizing c k with
  | nil =>
      cases hc
      exact ⟨h, [], List.prefix_refl _, by simp, rfl, fun _ => rfl, fun _ => rfl⟩
  | cons b rest ih =>
      rw [Chain.connectAll] at hc
      cases hb : c.connectBlock (now k) b with
      | error e =>
          rw [hb] at hc
          cases hc
          exact ⟨h, [], List.nil_prefix, by simp, rfl, by simp, fun _ => rfl⟩
      | ok c₁ =>
          rw [hb] at hc
          obtain ⟨h₁, hblocks⟩ := h.connectBlock hb
          obtain ⟨hsound, done, hpre, hdone, hn, hall, -⟩ := ih h₁ hc
          refine ⟨hsound, b :: done, List.cons_prefix_cons.mpr ⟨rfl, hpre⟩, ?_, ?_, ?_, by simp⟩
          · rw [hdone, hblocks]
            simp
          · rw [hn, List.length_cons]
            omega
          · intro hnone
            rw [hall hnone]

/-- A candidate that is adopted is a whole valid chain with more work. -/
theorem tryReplace (hparams : c.params = p) {now : Nat → Clock} {cand : List Block} {fork : Nat}
    (hr : c.tryReplace now cand = .ok (c', fork)) :
    Sound p c' ∧ c'.blocks = cand ∧ cand ≠ [] ∧ c.work < c'.work := by
  unfold Chain.tryReplace at hr
  obtain ⟨hnil, hr⟩ := guard_ok_iff.mp hr
  have hstart : Sound p { params := c.params, persisting := false } :=
    Sound.fresh.of_memory (by rw [hparams]; rfl)
  rcases htmp : Chain.connectAll now 0 { params := c.params, persisting := false } cand with
    ⟨tmp, n, _ | ⟨b, err⟩⟩
  · obtain ⟨hsound, done, -, hdone, -, hall, -⟩ := hstart.connectAll htmp
    simp only [htmp] at hr
    obtain ⟨hwork, hr⟩ := guard_ok_iff.mp hr
    injection hr with hr
    obtain ⟨rfl, -⟩ := Prod.mk.inj hr
    have hblocks : tmp.blocks = cand := by rw [hdone, hall rfl]; rfl
    refine ⟨hsound.of_memory ?_, ?_, hnil, ?_⟩
    · rw [persist_memory, Chain.memory, Chain.memory, hsound.params, hparams]
    · rw [persist_blocks, hblocks]
    · rw [persist_work]
      exact UInt64.not_le.mp hwork
  · simp [htmp] at hr

theorem loadRows (h : Sound p c) (now : Nat → Clock) (good : Nat) (raws : List Bytes) :
    Sound p (Chain.loadRows now good c raws).1 := by
  induction raws generalizing c good with
  | nil => exact h
  | cons raw rest ih =>
      rw [Chain.loadRows]
      cases Block.parse raw with
      | none => exact h
      | some b =>
          dsimp only
          cases hb : c.connectBlock (now good) b with
          | error err => exact h
          | ok c₁ => exact ih (h.connectBlock hb).1 _

theorem ensureGenesis (h : Sound p c) {now : Clock} (he : c.ensureGenesis now = .ok c') :
    Sound p c' ∧ c'.blocks ≠ [] := by
  unfold Chain.ensureGenesis at he
  split_ifs at he with hnil
  · obtain ⟨hsound, hblocks⟩ := h.connectBlock he
    exact ⟨hsound, by rw [hblocks]; simp⟩
  · injection he with he
    exact he ▸ ⟨h, hnil⟩

theorem init {now : Nat → Clock} {database : Option Db}
    (hi : (Chain.fresh p).init now database = .ok c) : Sound p c ∧ c.blocks ≠ [] := by
  unfold Chain.init at hi
  cases database with
  | none => exact ensureGenesis fresh hi
  | some db =>
      have hstart : Sound p { Chain.fresh p with db := some db, persisting := false } :=
        fresh.of_memory rfl
      refine ensureGenesis ?_ hi
      refine (hstart.loadRows now 0 db.rawsByHeight).of_memory ?_
      split <;> rfl

end Sound

/-- The chains reached from `init` by any sequence of successful calls; a call that fails leaves the
chain as it was. -/
inductive Reachable (p : Params) : Chain → Prop
  | init {now : Nat → Clock} {database : Option Db} {c : Chain}
      (h : (Chain.fresh p).init now database = .ok c) : Reachable p c
  | connect {now : Clock} {c c' : Chain} {b : Block} (hc : Reachable p c)
      (h : c.connectBlock now b = .ok c') : Reachable p c'
  | replace {now : Nat → Clock} {c c' : Chain} {cand : List Block} {fork : Nat} (hc : Reachable p c)
      (h : c.tryReplace now cand = .ok (c', fork)) : Reachable p c'

theorem Reachable.sound {c : Chain} (h : Reachable p c) : Sound p c ∧ c.blocks ≠ [] := by
  induction h with
  | init h => exact Sound.init h
  | connect _ h ih =>
      obtain ⟨hsound, hblocks⟩ := ih.1.connectBlock h
      exact ⟨hsound, by rw [hblocks]; simp⟩
  | replace _ h ih =>
      obtain ⟨hsound, hblocks, hne, -⟩ := Sound.tryReplace ih.1.params h
      exact ⟨hsound, hblocks ▸ hne⟩

theorem Reachable.connectAll {now : Nat → Clock} {k n : Nat} {c c' : Chain} {v : List Block}
    {err : Option (Block × ConnectError)} (hc : Reachable p c) (h : Chain.connectAll now k c v = (c', n, err)) :
    Reachable p c' := by
  induction v generalizing k c with
  | nil =>
      obtain ⟨rfl, -⟩ := Prod.mk.inj h
      exact hc
  | cons b rest ih =>
      rw [Chain.connectAll] at h
      split at h
      · rename_i hconnect
        exact ih (hc.connect hconnect) h
      · obtain ⟨rfl, -⟩ := Prod.mk.inj h
        exact hc

end Chain

end Chainlite
