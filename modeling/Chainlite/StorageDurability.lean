import Chainlite.ChainClock
import Chainlite.SecurityCommitment
import Chainlite.StorageRecovery

/-! The database mirrors the chain. Every call that changes the block list makes the same change to the two
tables: a new block is one more row, and a reorganisation rewrites the rows from the fork on. The rows below
the fork are kept because the hashes agree there, and without a collision so do the blocks. A fresh chain on
the tables is therefore the chain that wrote them. -/

open Std

namespace Chainlite

section
variable [Crypto] {p : Params}

/-! ### Calls -/

namespace Chain

/-- A call to a chain that has been loaded. -/
inductive Call where
  | connect (now : Clock) (b : Block)
  | replace (now : Nat → Clock) (cand : List Block)

/-- The chain after a call; one that fails leaves it as it was. -/
def perform (c : Chain) : Call → Chain
  | .connect now b =>
      match c.connectBlock now b with
      | .ok c' => c'
      | .error _ => c
  | .replace now cand =>
      match c.tryReplace now cand with
      | .ok (c', _) => c'
      | .error _ => c

/-- The statements that a call executes. -/
def sqlOf (c : Chain) : Call → List Sql
  | .connect now b =>
      match c.connectBlock now b with
      | .ok _ => dbInsert b
      | .error _ => []
  | .replace now cand =>
      match c.tryReplace now cand with
      | .ok (c', fork) =>
          [.beginImmediate] ++ dbTruncateFrom (UInt64.ofNat fork) ++ (c'.blocks.drop fork).flatMap dbInsert ++ [.commit]
      | .error _ => []

/-- No reading of the clock is later than `t`. -/
def Call.Upto (t : Clock) : Call → Prop
  | .connect now _ => now ≤ t
  | .replace now _ => ∀ k, now k ≤ t

/-- The blocks of all the chains of a run. -/
def held (c : Chain) : List Call → List Block
  | [] => c.blocks
  | call :: rest => c.blocks ++ held (c.perform call) rest

/-- What an adopted candidate does to the database. -/
theorem tryReplace_db {c c' : Chain} {now : Nat → Clock} {cand : List Block} {fork : Nat} (h : c.persisting = true)
    (hr : c.tryReplace now cand = .ok (c', fork)) :
    fork = forkPoint c.hashes c'.hashes ∧ c'.persisting = true ∧
      c'.db = c.db.map (·.run ([.beginImmediate] ++ dbTruncateFrom (UInt64.ofNat fork) ++
        (c'.blocks.drop fork).flatMap dbInsert ++ [.commit])) := by
  unfold tryReplace at hr
  obtain ⟨-, hr⟩ := guard_ok_iff.mp hr
  rcases htmp : connectAll now 0 { params := c.params, persisting := false } cand with ⟨tmp, n, _ | ⟨b, err⟩⟩
  · simp only [htmp] at hr
    obtain ⟨-, hr⟩ := guard_ok_iff.mp hr
    injection hr with hr
    obtain ⟨rfl, rfl⟩ := Prod.mk.inj hr
    rw [persist_hashes, persist_blocks]
    exact ⟨rfl, (persist_of_persisting (by exact h) _).symm⟩
  · simp [htmp] at hr

/-- The statements of a call are what it does to the database. -/
theorem perform_db {c : Chain} (h : c.persisting = true) (call : Call) :
    (c.perform call).db = c.db.map (·.run (c.sqlOf call)) ∧ (c.perform call).persisting = true := by
  cases call with
  | connect now b =>
      rw [perform, sqlOf]
      cases hc : c.connectBlock now b with
      | error err => exact ⟨by simp, h⟩
      | ok c' =>
          obtain ⟨-, -, rfl⟩ := connectBlock_ok_iff.mp hc
          exact grow_db h b
  | replace now cand =>
      rw [perform, sqlOf]
      cases hr : c.tryReplace now cand with
      | error err => exact ⟨by simp, h⟩
      | ok result =>
          obtain ⟨-, hpersisting, hdb⟩ := tryReplace_db h hr
          exact ⟨hdb, hpersisting⟩

/-- What a call does to a sound chain. -/
theorem Sound.perform {c : Chain} (h : Sound p c) (hne : c.blocks ≠ []) (call : Call) :
    Sound p (c.perform call) ∧ (c.perform call).blocks ≠ [] := by
  cases call with
  | connect now b =>
      rw [Chain.perform]
      cases hc : c.connectBlock now b with
      | error err => exact ⟨h, hne⟩
      | ok c' =>
          obtain ⟨hsound, hblocks⟩ := h.connectBlock hc
          exact ⟨hsound, by rw [hblocks]; simp⟩
  | replace now cand =>
      rw [Chain.perform]
      cases hr : c.tryReplace now cand with
      | error err => exact ⟨h, hne⟩
      | ok result =>
          obtain ⟨hsound, hblocks, hcand, -⟩ := Sound.tryReplace h.params hr
          exact ⟨hsound, hblocks ▸ hcand⟩

theorem AllTimely.perform {c : Chain} {t : Clock} (h : AllTimely t c.blocks) {call : Call} (hcall : call.Upto t) :
    AllTimely t (c.perform call).blocks := by
  cases call with
  | connect now b =>
      rw [Chain.perform]
      cases hc : c.connectBlock now b with
      | error err => exact h
      | ok c' => exact h.connectBlock hcall hc
  | replace now cand =>
      rw [Chain.perform]
      cases hr : c.tryReplace now cand with
      | error err => exact h
      | ok result => exact allTimely_tryReplace hcall hr

/-! ### The stored blocks -/

/-- The blocks in the tables after a call. An adopted candidate leaves the rows below the fork. -/
def storedAfter (c : Chain) (bs : List Block) : Call → List Block
  | .connect now b =>
      match c.connectBlock now b with
      | .ok _ => bs ++ [b]
      | .error _ => bs
  | .replace now cand =>
      match c.tryReplace now cand with
      | .ok (c', fork) => bs.take fork ++ c'.blocks.drop fork
      | .error _ => bs

/-- The chain is persisted, and its tables hold as many blocks as it has, of a size that parses. -/
structure Stores (c : Chain) (bs : List Block) : Prop where
  persisting : c.persisting = true
  tables : ∃ db, c.db = some db ∧ Mirrors db bs
  length : bs.length = c.blocks.length
  fits : ∀ b ∈ bs, b.Fits

omit [Crypto] in
/-- Below the fork the hashes agree, and both lists go that far. -/
theorem forkPoint_spec (xs ys : List H256) :
    forkPoint xs ys ≤ xs.length ∧ forkPoint xs ys ≤ ys.length ∧
      xs.take (forkPoint xs ys) = ys.take (forkPoint xs ys) := by
  induction xs generalizing ys with
  | nil => simp [forkPoint]
  | cons x xs ih =>
      cases ys with
      | nil => simp [forkPoint]
      | cons y ys =>
          obtain ⟨hx, hy, htake⟩ := ih ys
          rw [forkPoint]
          split
          · rename_i heq
            subst heq
            simp only [List.length_cons, List.take_succ_cons]
            exact ⟨by omega, by omega, by rw [htake]⟩
          · simp

section

variable {c c' : Chain} {bs : List Block} (h : Stores c bs) (hsound : Sound p c)
  {strings : List Bytes} (hfree : CollisionFree strings) (hsub : headersBy p c'.blocks ⊆ strings)
  (hroom : c.blocks.length < 2 ^ 63)
include h hsound hfree hsub hroom

/-- A block that connects is written under the height that follows. -/
theorem Stores.connect {now : Clock} {b : Block} (hc : c.connectBlock now b = .ok c') : Stores c' (bs ++ [b]) := by
  obtain ⟨hsound', hblocks⟩ := hsound.connectBlock hc
  obtain ⟨-, -, rfl⟩ := connectBlock_ok_iff.mp hc
  obtain ⟨hdb, hpersisting⟩ := grow_db h.persisting b
  obtain ⟨db, hdb₀, hmirrors⟩ := h.tables
  rw [hdb₀, Option.map_some] at hdb
  have hlength := h.length
  have hlast : (c.grow b).blocks[bs.length]? = some b := by
    rw [hblocks, hlength]
    simp
  have hpos : b.h.height = UInt64.ofNat bs.length := hsound'.valid.height_getElem hfree hsub hlast
  refine ⟨hpersisting, ⟨_, hdb, hmirrors.insert hpos (by omega)⟩, ?_, ?_⟩
  · rw [hblocks, List.length_append, List.length_append, hlength]
  · intro b' hb'
    rcases List.mem_append.mp hb' with hb' | hb'
    · exact h.fits b' hb'
    · refine hsound'.valid.fits b' ?_
      rw [hblocks]
      exact List.mem_append_right _ hb'

/-- The blocks of an adopted candidate are written from the fork on. -/
theorem Stores.replace {now : Nat → Clock} {cand : List Block} {fork : Nat} (hr : c.tryReplace now cand = .ok (c', fork))
    (hlen : c'.blocks.length < 2 ^ 63) : Stores c' (bs.take fork ++ c'.blocks.drop fork) := by
  obtain ⟨hsound', -⟩ := Sound.tryReplace hsound.params hr
  obtain ⟨hfork, hpersisting, hdb⟩ := tryReplace_db h.persisting hr
  obtain ⟨db, hdb₀, hmirrors⟩ := h.tables
  rw [hdb₀, Option.map_some] at hdb
  obtain ⟨hold, hnew, -⟩ := forkPoint_spec c.hashes c'.hashes
  rw [← hfork, hsound.hashes, List.length_map, ← h.length] at hold
  rw [← hfork, hsound'.hashes, List.length_map] at hnew
  have hlength := h.length
  refine ⟨hpersisting, ⟨_, hdb, ?_⟩, ?_, ?_⟩
  · apply hmirrors.reorganise (by omega) hold
    · intro i b hb
      rw [List.getElem?_drop] at hb
      exact hsound'.valid.height_getElem hfree hsub hb
    · rw [List.length_drop]
      omega
  · rw [List.length_append, List.length_take_of_le hold, List.length_drop]
    omega
  · intro b hb
    rcases List.mem_append.mp hb with hb | hb
    · exact h.fits b (List.mem_of_mem_take hb)
    · exact hsound'.valid.fits b (List.mem_of_mem_drop hb)

end

/-- **A call keeps the tables in step with the chain**, as long as the heights are the positions. -/
theorem Stores.perform {c : Chain} {bs : List Block} (h : Stores c bs) (hsound : Sound p c)
    {strings : List Bytes} (hfree : CollisionFree strings) (call : Call)
    (hsub : headersBy p (c.perform call).blocks ⊆ strings) (hroom : c.blocks.length < 2 ^ 63)
    (hlen : (c.perform call).blocks.length < 2 ^ 63) : Stores (c.perform call) (c.storedAfter bs call) := by
  cases call with
  | connect now b =>
      rw [Chain.perform] at hsub ⊢
      rw [storedAfter]
      cases hc : c.connectBlock now b with
      | error err => exact h
      | ok c' =>
          simp only [hc] at hsub
          exact h.connect hsound hfree hsub hroom hc
  | replace now cand =>
      rw [Chain.perform] at hsub hlen ⊢
      rw [storedAfter]
      cases hr : c.tryReplace now cand with
      | error err => exact h
      | ok result =>
          obtain ⟨c', fork⟩ := result
          simp only [hr] at hsub hlen
          exact h.replace hsound hfree hsub hroom hr hlen

/-- The rows that an adopted candidate leaves are its own blocks: without a collision the hashes below the
fork determine the blocks. -/
theorem storedAfter_eq {c : Chain} (hsound : Sound p c) (hne : c.blocks ≠ []) (hpersisting : c.persisting = true)
    {strings : List Bytes} (hfree : CollisionFree strings) (call : Call) (hsub : hashedBy p c.blocks ⊆ strings)
    (hsub' : hashedBy p (c.perform call).blocks ⊆ strings) (hlen : c.blocks.length < 2 ^ 64)
    (hlen' : (c.perform call).blocks.length < 2 ^ 64) :
    c.storedAfter c.blocks call = (c.perform call).blocks := by
  obtain ⟨hsound', -⟩ := hsound.perform hne call
  cases call with
  | connect now b =>
      rw [storedAfter, Chain.perform]
      cases hc : c.connectBlock now b with
      | error err => rfl
      | ok c' => exact (hsound.connectBlock hc).2.symm
  | replace now cand =>
      rw [Chain.perform] at *
      rw [storedAfter]
      cases hr : c.tryReplace now cand with
      | error err => rfl
      | ok result =>
          obtain ⟨c', fork⟩ := result
          simp only [hr] at hsound' hsub' hlen' ⊢
          obtain ⟨hfork, -⟩ := tryReplace_db hpersisting hr
          obtain ⟨hold, hnew, hhashes⟩ := forkPoint_spec c.hashes c'.hashes
          rw [← hfork, hsound.hashes, hsound'.hashes, ← List.map_take, ← List.map_take] at hhashes
          rw [← hfork, hsound.hashes, List.length_map] at hold
          rw [← hfork, hsound'.hashes, List.length_map] at hnew
          have hkept : c.blocks.take fork = c'.blocks.take fork := by
            by_cases hzero : fork = 0
            · rw [hzero, List.take_zero, List.take_zero]
            have hpre := List.take_prefix fork c.blocks
            have hpre' := List.take_prefix fork c'.blocks
            refine (hsound.valid.of_isPrefix hpre).eq_of_tipHash hfree (hsound'.valid.of_isPrefix hpre')
              (List.Subset.trans (hashedBy_subset hpre.subset) hsub)
              (List.Subset.trans (hashedBy_subset hpre'.subset) hsub') ?_ ?_ ?_ ?_ ?_
            · exact fun hnil => hzero (by simpa [List.length_take_of_le hold] using congrArg List.length hnil)
            · exact fun hnil => hzero (by simpa [List.length_take_of_le hnew] using congrArg List.length hnil)
            · exact Nat.lt_of_le_of_lt hpre.length_le hlen
            · exact Nat.lt_of_le_of_lt hpre'.length_le hlen'
            · rw [tipHash, tipHash, replay_hashes, replay_hashes, hhashes]
          rw [hkept, List.take_append_drop]

/-! ### Runs -/

/-- The chain at the end of a run. -/
def performAll (c : Chain) (calls : List Call) : Chain := calls.foldl perform c

theorem mem_held (c : Chain) (calls : List Call) : c.blocks ⊆ held c calls := by
  cases calls with
  | nil => exact List.Subset.refl _
  | cons call rest => exact List.subset_append_left _ _

/-- Every chain of the run has fewer blocks than a vector can hold. -/
def Roomy (c : Chain) (calls : List Call) : Prop :=
  ∀ before, before <+: calls → (c.performAll before).blocks.length < 2 ^ 63

theorem Roomy.head {c : Chain} {calls : List Call} (h : Roomy c calls) : c.blocks.length < 2 ^ 63 :=
  h [] List.nil_prefix

theorem Roomy.nil {c : Chain} (h : c.blocks.length < 2 ^ 63) : Roomy c [] := by
  intro before hbefore
  rwa [List.prefix_nil.mp hbefore]

theorem Roomy.cons {c : Chain} {call : Call} {rest : List Call} (h : c.blocks.length < 2 ^ 63)
    (hrest : Roomy (c.perform call) rest) : Roomy c (call :: rest) := by
  intro before hbefore
  cases before with
  | nil => exact h
  | cons call' before =>
      obtain ⟨rfl, hprefix⟩ := List.cons_prefix_cons.mp hbefore
      exact hrest before hprefix

theorem Roomy.tail {c : Chain} {call : Call} {rest : List Call} (h : Roomy c (call :: rest)) :
    Roomy (c.perform call) rest := by
  intro before hbefore
  exact h (call :: before) (List.cons_prefix_cons.mpr ⟨rfl, hbefore⟩)

/-- Along a run without a collision the tables hold the chain. -/
theorem Stores.performAll {c : Chain} (h : Stores c c.blocks) (hsound : Sound p c) (hne : c.blocks ≠ [])
    {strings : List Bytes} (hfree : CollisionFree strings) (calls : List Call) (hsub : hashedBy p (held c calls) ⊆ strings)
    (hroom : Roomy c calls) :
    Stores (c.performAll calls) (c.performAll calls).blocks ∧ Sound p (c.performAll calls) ∧
      (c.performAll calls).blocks ≠ [] := by
  induction calls generalizing c with
  | nil => exact ⟨h, hsound, hne⟩
  | cons call rest ih =>
      obtain ⟨hsound', hne'⟩ := hsound.perform hne call
      have hhere : hashedBy p c.blocks ⊆ strings :=
        List.Subset.trans (hashedBy_subset (List.subset_append_left _ _)) hsub
      have hrest : hashedBy p (held (c.perform call) rest) ⊆ strings :=
        List.Subset.trans (hashedBy_subset (List.subset_append_right _ _)) hsub
      have hnext : hashedBy p (c.perform call).blocks ⊆ strings :=
        List.Subset.trans (hashedBy_subset (mem_held _ _)) hrest
      have hlen := hroom.head
      have hlen' := hroom.tail.head
      have hstores := h.perform hsound hfree call (List.Subset.trans (headersBy_subset_hashedBy _) hnext) hlen hlen'
      rw [storedAfter_eq hsound hne h.persisting hfree call hhere hnext (by omega) (by omega)] at hstores
      exact ih hstores hsound' hne' hrest hroom.tail

theorem AllTimely.performAll {c : Chain} {t : Clock} (h : AllTimely t c.blocks) {calls : List Call}
    (hcalls : ∀ call ∈ calls, call.Upto t) : AllTimely t (c.performAll calls).blocks := by
  induction calls generalizing c with
  | nil => exact h
  | cons call rest ih =>
      exact ih (h.perform (hcalls call List.mem_cons_self)) fun call' h' => hcalls call' (List.mem_cons_of_mem _ h')

/-- `init` on empty tables. -/
theorem Stores.init {now : Nat → Clock} {c : Chain} (h : (fresh p).init now (some {}) = .ok c) :
    Stores c c.blocks ∧ c.blocks = [makeGenesis p] := by
  obtain ⟨c', db', k, hinit, hdb, hpersisting, hmirrors, -, hblocks⟩ :=
    init_mirrors (p := p) mirrors_empty (by simp) (by decide) now
  obtain rfl : c = c' := Except.ok.inj (h.symm.trans hinit)
  rw [List.take_nil, if_pos rfl] at hblocks
  have hfits := (Sound.init h).1.valid.fits
  exact ⟨⟨hpersisting, ⟨db', hdb, hmirrors⟩, rfl, hfits⟩, hblocks⟩

end Chain

end

section
variable [Crypto]

namespace Chain

/-- A chain on disk, started on empty tables. -/
def onDisk : Chain := grow { fresh easyParams with db := some {} } (makeGenesis easyParams)

/-- A block with nothing but a coinbase, for the chain on disk. -/
def firstBlock : Block := candidate easyParams (coinbases (zeros 20) 0) (zeros 20) [] easyParams.genesisTime 0

theorem init_onDisk : (fresh easyParams).init (fun _ => easyClock) (some {}) = .ok onDisk := by
  have hsound : Sound easyParams { fresh easyParams with db := some {} } := Sound.fresh.of_memory rfl
  exact ensureGenesis_nil hsound rfl easyClock

theorem connect_onDisk : onDisk.connectBlock easyClock firstBlock = .ok (onDisk.grow firstBlock) := by
  obtain ⟨hsound, -⟩ := Sound.init init_onDisk
  obtain ⟨hcoinbases, -⟩ := (coinbases_reachable (zeros 20) 1).sound
  have haccepts : (replay easyParams onDisk.blocks).Accepts firstBlock :=
    hcoinbases.valid onDisk.blocks firstBlock [] rfl
  exact connectBlock_ok_iff.mpr ⟨hsound.accepts_iff.mp haccepts, fun _ => candidate_timely.mpr (by decide), rfl⟩

theorem perform_onDisk : onDisk.perform (.connect easyClock firstBlock) = onDisk.grow firstBlock := by
  rw [perform, connect_onDisk]

theorem roomy_onDisk : Roomy onDisk [.connect easyClock firstBlock] := by
  refine .cons (show (1 : Nat) < 2 ^ 63 by decide) (.nil ?_)
  rw [perform_onDisk, grow_blocks]
  exact (show (2 : Nat) < 2 ^ 63 by decide)

end Chain

end

section
local instance durabilityCrypto : Crypto := Sha.crypto fun _ _ _ => false

end

end Chainlite
