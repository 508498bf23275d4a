import Chainlite.BaseGrid
import Chainlite.MiningGpu
import Chainlite.Sha256Target

/-! The search of the GPU miner. The threads of one launch step over each other, and the host moves the base on
between launches: no nonce is tried twice, and a launch that runs to its end leaves no gap. -/

namespace Chainlite

namespace Gpu

/-- A launch of `mine_kernel`: its configuration and its arguments. -/
structure Launch where
  gridDim : UInt32
  blockDim : UInt32
  hdr : Bytes
  bits : UInt32
  base : UInt64
  perThread : UInt32

namespace Launch

def tid (l : Launch) (blockIdx threadIdx : UInt32) : UInt64 :=
  blockIdx.toUInt64 * l.blockDim.toUInt64 + threadIdx.toUInt64

def stride (l : Launch) : UInt64 := l.gridDim.toUInt64 * l.blockDim.toUInt64

def nonce (l : Launch) (tid : UInt64) (k : UInt32) : UInt64 := l.base + tid + k.toUInt64 * l.stride

/-- The nonces that the loop of a thread tries from turn `k` on. In each turn it reads the flag, which other threads
set at any time, and it returns as well after a nonce that is accepted. -/
def turns (l : Launch) (tid : UInt64) (flag : UInt32 → Bool) : Nat → UInt32 → List UInt64
  | 0, _ => []
  | left + 1, k =>
      if flag k then []
      else l.nonce tid k :: if accepts l.hdr l.bits (l.nonce tid k) then [] else turns l tid flag left (k + 1)

/-- The nonces that one thread tries. -/
def thread (l : Launch) (flag : UInt32 → UInt32 → UInt32 → Bool) (blockIdx threadIdx : UInt32) : List UInt64 :=
  l.turns (l.tid blockIdx threadIdx) (flag blockIdx threadIdx) l.perThread.toNat 0

/-- The nonces that all threads try. -/
def tried (l : Launch) (flag : UInt32 → UInt32 → UInt32 → Bool) : List UInt64 :=
  (List.range l.gridDim.toNat).flatMap fun b =>
    (List.range l.blockDim.toNat).flatMap fun t => l.thread flag (UInt32.ofNat b) (UInt32.ofNat t)

/-- No thread returns early: each makes all its turns. -/
def RunsToEnd (l : Launch) (flag : UInt32 → UInt32 → UInt32 → Bool) : Prop :=
  ∀ b < l.gridDim.toNat, ∀ t < l.blockDim.toNat,
    (l.thread flag (UInt32.ofNat b) (UInt32.ofNat t)).length = l.perThread.toNat

/-- The number of nonces of a launch. -/
def count (l : Launch) : Nat := l.gridDim.toNat * l.blockDim.toNat * l.perThread.toNat

end Launch

/-- What the host launches: `blocks` and `threads` are signed, and a launch with a negative one does not start. -/
structure Config where
  blocks : Int32
  threads : Int32
  perThread : UInt32
  blocks_nonneg : 0 ≤ blocks.toInt
  threads_nonneg : 0 ≤ threads.toInt

namespace Config

/-- `mine_kernel<<<blocks, threads>>>`. -/
def launch (c : Config) (hdr : Bytes) (bits : UInt32) (base : UInt64) : Launch :=
  { gridDim := c.blocks.toUInt32, blockDim := c.threads.toUInt32, hdr, bits, base, perThread := c.perThread }

/-- `base += (uint64_t)blocks * threads * per_thread`. -/
def advance (c : Config) (base : UInt64) : UInt64 :=
  base + c.blocks.toInt64.toUInt64 * c.threads.toInt64.toUInt64 * c.perThread.toUInt64

/-- The launches of the host's rounds for one header. `stop round` is that the flag is set after this round, or that
the tip has moved. -/
def rounds (c : Config) (hdr : Bytes) (bits : UInt32) (stop : Nat → Bool) : Nat → Nat → UInt64 → List Launch
  | 0, _, _ => []
  | left + 1, round, base =>
      c.launch hdr bits base :: if stop round then [] else rounds c hdr bits stop left (round + 1) (c.advance base)

/-- The number of nonces of a launch. -/
def count (c : Config) : Nat := c.blocks.toInt.toNat * c.threads.toInt.toNat * c.perThread.toNat

end Config

/-- The nonces `base .. base + n - 1`, modulo `2 ^ 64`. -/
def interval (base : UInt64) (n : Nat) : List UInt64 := (List.range n).map fun i => base + UInt64.ofNat i

/-! ### Intervals -/

theorem interval_nodup (base : UInt64) {n : Nat} (hn : n ≤ 2 ^ 64) : (interval base n).Nodup := by
  refine List.Nodup.map_on ?_ List.nodup_range
  intro i hi j hj h
  have hi : i < 2 ^ 64 := (List.mem_range.mp hi).trans_le hn
  have hj : j < 2 ^ 64 := (List.mem_range.mp hj).trans_le hn
  have hof : (UInt64.ofNat i).toNat = (UInt64.ofNat j).toNat := congrArg UInt64.toNat ((UInt64.add_right_inj base).mp h)
  rwa [UInt64.toNat_ofNat', UInt64.toNat_ofNat', Nat.mod_eq_of_lt hi, Nat.mod_eq_of_lt hj] at hof

theorem interval_add (base : UInt64) (m n : Nat) :
    interval base (m + n) = interval base m ++ interval (base + UInt64.ofNat m) n := by
  rw [interval, List.range_add, List.map_append, List.map_map, interval, interval]
  apply congrArg
  apply List.map_congr_left
  intro i _
  rw [Function.comp_apply, UInt64.ofNat_add, UInt64.add_assoc]

/-! ### One launch -/

namespace Launch

variable (l : Launch) (flag : UInt32 → UInt32 → UInt32 → Bool)

/-- A thread tries the first of its nonces, in order. -/
theorem turns_isPrefix (tid : UInt64) (flag : UInt32 → Bool) (left start : Nat) :
    l.turns tid flag left (UInt32.ofNat start) <+:
      (List.range' start left).map fun k => l.nonce tid (UInt32.ofNat k) := by
  induction left generalizing start with
  | zero => exact List.prefix_refl _
  | succ left ih =>
      rw [turns, List.range'_succ, List.map_cons]
      split
      · exact List.nil_prefix
      · apply (List.prefix_cons_inj _).mpr
        split
        · exact List.nil_prefix
        · have hnext := ih (start + 1)
          rwa [UInt32.ofNat_add] at hnext

theorem nonce_ofNat {b t k : Nat} (hb : b < l.gridDim.toNat) (ht : t < l.blockDim.toNat) (hk : k < l.perThread.toNat) :
    l.nonce (l.tid (UInt32.ofNat b) (UInt32.ofNat t)) (UInt32.ofNat k) =
      l.base + UInt64.ofNat (b * l.blockDim.toNat + t + k * (l.gridDim.toNat * l.blockDim.toNat)) := by
  have hb := hb.trans l.gridDim.toNat_lt
  have ht := ht.trans l.blockDim.toNat_lt
  have hk := hk.trans l.perThread.toNat_lt
  rw [nonce, tid, stride, UInt32.toUInt64_ofNat' hb, UInt32.toUInt64_ofNat' ht, UInt32.toUInt64_ofNat' hk,
    ← UInt64.ofNat_uInt32ToNat, ← UInt64.ofNat_uInt32ToNat, UInt64.ofNat_add, UInt64.ofNat_add, UInt64.ofNat_mul,
    UInt64.ofNat_mul, UInt64.ofNat_mul, UInt64.add_assoc]

/-- The nonces of a thread that makes all its turns. -/
def whole (b t : Nat) : List UInt64 := (List.range l.perThread.toNat).map fun k =>
  l.base + UInt64.ofNat (b * l.blockDim.toNat + t + k * (l.gridDim.toNat * l.blockDim.toNat))

theorem thread_isPrefix {b t : Nat} (hb : b < l.gridDim.toNat) (ht : t < l.blockDim.toNat) :
    l.thread flag (UInt32.ofNat b) (UInt32.ofNat t) <+: l.whole b t := by
  have hprefix := l.turns_isPrefix (l.tid (UInt32.ofNat b) (UInt32.ofNat t)) (flag (UInt32.ofNat b) (UInt32.ofNat t))
    l.perThread.toNat 0
  have hwhole : (List.range' 0 l.perThread.toNat).map
      (fun k => l.nonce (l.tid (UInt32.ofNat b) (UInt32.ofNat t)) (UInt32.ofNat k)) = l.whole b t := by
    rw [← List.range_eq_range']
    exact List.map_congr_left fun k hk => l.nonce_ofNat hb ht (List.mem_range.mp hk)
  rwa [hwhole] at hprefix

/-- All threads together walk the interval of the launch. -/
theorem whole_perm : ((List.range l.gridDim.toNat).flatMap fun b =>
    (List.range l.blockDim.toNat).flatMap fun t => l.whole b t).Perm (interval l.base l.count) := by
  have hone := Grid.flatMap_range_mul l.gridDim.toNat l.blockDim.toNat fun tid =>
    (List.range l.perThread.toNat).map fun k => l.base + UInt64.ofNat (tid + k * (l.gridDim.toNat * l.blockDim.toNat))
  have hstrided := Grid.strided_perm (l.gridDim.toNat * l.blockDim.toNat) l.perThread.toNat fun i =>
    l.base + UInt64.ofNat i
  rw [← hone, Nat.mul_comm l.perThread.toNat] at hstrided
  exact hstrided

theorem tried_sublist : (l.tried flag).Sublist ((List.range l.gridDim.toNat).flatMap fun b =>
    (List.range l.blockDim.toNat).flatMap fun t => l.whole b t) := by
  refine List.Sublist.flatMap_right _ fun b hb => List.Sublist.flatMap_right _ fun t ht => ?_
  exact (l.thread_isPrefix flag (List.mem_range.mp hb) (List.mem_range.mp ht)).sublist

/-- A launch runs to its end when the flag is never set and no nonce is accepted. -/
theorem runsToEnd_of_unsolved (hflag : ∀ b t k, flag b t k = false)
    (hnone : ∀ nonce, accepts l.hdr l.bits nonce = false) : l.RunsToEnd flag := by
  have hturns (tid : UInt64) (b t : UInt32) (left : Nat) (k : UInt32) :
      (l.turns tid (flag b t) left k).length = left := by
    induction left generalizing k with
    | zero => rfl
    | succ left ih =>
        rw [turns, hflag, hnone, if_neg (by decide), if_neg (by decide), List.length_cons, ih]
  exact fun b _ t _ => hturns _ _ _ _ _

/-- **No nonce is tried twice in a launch.** -/
theorem tried_nodup (hcount : l.count ≤ 2 ^ 64) : (l.tried flag).Nodup :=
  (l.whole_perm.nodup_iff.mpr (interval_nodup l.base hcount)).sublist (l.tried_sublist flag)

/-- **A launch that runs to its end tries its whole interval.** -/
theorem tried_perm (h : l.RunsToEnd flag) : (l.tried flag).Perm (interval l.base l.count) := by
  have hwhole : l.tried flag = (List.range l.gridDim.toNat).flatMap fun b =>
      (List.range l.blockDim.toNat).flatMap fun t => l.whole b t := by
    refine List.flatMap_congr fun b hb => List.flatMap_congr fun t ht => ?_
    have hb := List.mem_range.mp hb
    have ht := List.mem_range.mp ht
    apply (l.thread_isPrefix flag hb ht).eq_of_length
    rw [h b hb t ht, whole, List.length_map, List.length_range]
  rw [hwhole]
  exact l.whole_perm

end Launch

/-! ### Successive rounds -/

theorem toNat_of_nonneg {w : Nat} {x : BitVec w} (h : 0 ≤ x.toInt) : x.toNat = x.toInt.toNat := by
  have hlt := x.isLt
  rw [BitVec.toInt_eq_toNat_cond] at h ⊢
  by_cases hhigh : 2 * x.toNat < 2 ^ w
  · rw [if_pos hhigh, Int.toNat_natCast]
  · rw [if_neg hhigh] at h
    omega

theorem toNat_toUInt32 {i : Int32} (h : 0 ≤ i.toInt) : i.toUInt32.toNat = i.toInt.toNat := toNat_of_nonneg h

theorem toUInt64_toInt64 {i : Int32} (h : 0 ≤ i.toInt) : i.toInt64.toUInt64 = UInt64.ofNat i.toInt.toNat := by
  have hwide : i.toInt64.toInt = i.toInt := Int32.toInt_toInt64 i
  have hsame : i.toInt64.toUInt64.toNat = i.toInt64.toInt.toNat := toNat_of_nonneg (h.trans_eq hwide.symm)
  rw [← hwide, ← hsame, UInt64.ofNat_toNat]

namespace Config

variable (c : Config) (hdr : Bytes) (bits : UInt32)

theorem count_launch (base : UInt64) : (c.launch hdr bits base).count = c.count := by
  rw [Launch.count, launch, toNat_toUInt32 c.blocks_nonneg, toNat_toUInt32 c.threads_nonneg, count]

theorem advance_eq (base : UInt64) : c.advance base = base + UInt64.ofNat c.count := by
  rw [advance, toUInt64_toInt64 c.blocks_nonneg, toUInt64_toInt64 c.threads_nonneg, ← UInt64.ofNat_uInt32ToNat,
    count, UInt64.ofNat_mul, UInt64.ofNat_mul]

/-- **The rounds follow each other without a gap.** -/
theorem flatMap_rounds (stop : Nat → Bool) (left round : Nat) (base : UInt64) :
    ((c.rounds hdr bits stop left round base).flatMap fun l => interval l.base l.count) =
      interval base ((c.rounds hdr bits stop left round base).length * c.count) := by
  induction left generalizing round base with
  | zero => rw [rounds, List.length_nil, Nat.zero_mul]; rfl
  | succ left ih =>
      rw [rounds, List.flatMap_cons, List.length_cons, Nat.succ_mul, Nat.add_comm _ c.count, interval_add, count_launch]
      apply congrArg
      split
      · rw [List.length_nil, Nat.zero_mul]; rfl
      · rw [ih, advance_eq]

theorem length_rounds_le (stop : Nat → Bool) (left round : Nat) (base : UInt64) :
    (c.rounds hdr bits stop left round base).length ≤ left := by
  induction left generalizing round base with
  | zero => exact Nat.le_refl _
  | succ left ih =>
      rw [rounds, List.length_cons]
      split
      · exact Nat.succ_le_succ (Nat.zero_le _)
      · exact Nat.succ_le_succ (ih _ _)

theorem length_rounds (left round : Nat) (base : UInt64) :
    (c.rounds hdr bits (fun _ => false) left round base).length = left := by
  induction left generalizing round base with
  | zero => rfl
  | succ left ih => rw [rounds, List.length_cons, if_neg (by decide), ih]

end Config

end Gpu

/-- **The GPU search covers each nonce exactly once.** In a launch the nonces tried are distinct, and they are those of
its interval when no thread returns early; the intervals of the host's rounds follow each other and are disjoint. -/
theorem gpu_covers_once :
    (∀ (l : Gpu.Launch) (flag : UInt32 → UInt32 → UInt32 → Bool), l.count ≤ 2 ^ 64 →
      (l.tried flag).Nodup ∧ (l.RunsToEnd flag → (l.tried flag).Perm (Gpu.interval l.base l.count))) ∧
    ∀ (c : Gpu.Config) (hdr : Bytes) (bits : UInt32) (stop : Nat → Bool) (rounds : Nat) (base : UInt64),
      rounds * c.count ≤ 2 ^ 64 →
      (∀ base, (c.launch hdr bits base).count = c.count) ∧
      (c.rounds hdr bits stop rounds 0 base).length ≤ rounds ∧
      ((∀ round, stop round = false) → (c.rounds hdr bits stop rounds 0 base).length = rounds) ∧
      ((c.rounds hdr bits stop rounds 0 base).flatMap fun l => Gpu.interval l.base l.count) =
        Gpu.interval base ((c.rounds hdr bits stop rounds 0 base).length * c.count) ∧
      ((c.rounds hdr bits stop rounds 0 base).flatMap fun l => Gpu.interval l.base l.count).Nodup := by
  refine ⟨fun l flag hcount => ⟨l.tried_nodup flag hcount, l.tried_perm flag⟩,
    fun c hdr bits stop rounds base hrounds => ?_⟩
  have hlen := c.length_rounds_le hdr bits stop rounds 0 base
  have hcover := c.flatMap_rounds hdr bits stop rounds 0 base
  refine ⟨c.count_launch hdr bits, hlen, fun hstop => ?_, hcover, ?_⟩
  · rw [show stop = fun _ => false from funext hstop]
    exact c.length_rounds hdr bits rounds 0 base
  · rw [hcover]
    exact Gpu.interval_nodup base ((Nat.mul_le_mul_right _ hlen).trans hrounds)

/-- Two blocks of three threads, two turns each. -/
def Gpu.Config.small : Gpu.Config :=
  { blocks := 2, threads := 3, perThread := 2, blocks_nonneg := by decide, threads_nonneg := by decide }

/-- No hash has 300 leading zero bits. -/
theorem Gpu.not_accepts {hdr : Bytes} (hhdr : hdr.length = 100) (nonce : UInt64) : accepts hdr 300 nonce = false := by
  have hpow : ¬300 ≤ leadingZeroBits (Sha.sha256d (patchNonce hdr nonce)) := by
    rw [le_leadingZeroBits_iff]
    omega
  rw [accepts_eq hhdr (by decide)]
  exact decide_eq_false hpow

/-- Launches from a base so high that the nonces wrap around. -/
theorem gpu_covers_once_small :
    ((Gpu.Config.small.launch (List.replicate 100 0) 300 0xfffffffffffffffb).tried fun _ _ _ => false).Perm
        (Gpu.interval 0xfffffffffffffffb 12) ∧
      ((Gpu.Config.small.rounds (List.replicate 100 0) 300 (fun _ => false) 64 0 0xfffffffffffffffb).flatMap
        fun l => Gpu.interval l.base l.count).Nodup :=
  ⟨(gpu_covers_once.1 (Gpu.Config.small.launch (List.replicate 100 0) 300 0xfffffffffffffffb) _ (by decide)).2
      (Gpu.Launch.runsToEnd_of_unsolved _ _ (fun _ _ _ => rfl) (Gpu.not_accepts (List.length_replicate ..))),
    (gpu_covers_once.2 Gpu.Config.small _ 300 _ 64 _ (by decide)).2.2.2.2⟩

end Chainlite
