import Mathlib.Data.List.Flatten
import Mathlib.Data.Multiset.Bind

/-! A range of numbers walked by many workers. Worker `i` starts at `i` and steps over all workers, so together the
workers visit each number once; two nested loops are one loop over the product. -/

namespace Chainlite

namespace Grid

variable {α β γ : Type}

/-- Two nested loops are one loop. -/
theorem flatMap_range_mul (outer inner : Nat) (f : Nat → List α) :
    ((List.range outer).flatMap fun i => (List.range inner).flatMap fun j => f (i * inner + j)) =
      (List.range (outer * inner)).flatMap f := by
  induction outer with
  | zero => rw [Nat.zero_mul]; rfl
  | succ outer ih =>
      rw [List.range_succ, List.flatMap_append, ih, List.flatMap_singleton, Nat.succ_mul, List.range_add,
        List.flatMap_append, List.flatMap_map]

/-- The order of two nested loops does not matter. -/
theorem flatMap_map_swap (l : List α) (l' : List β) (f : α → β → γ) :
    (l.flatMap fun a => l'.map fun b => f a b).Perm (l'.flatMap fun b => l.map fun a => f a b) := by
  rw [← Multiset.coe_eq_coe, ← Multiset.coe_bind, ← Multiset.coe_bind]
  exact Multiset.bind_map_comm (m := (l : Multiset α)) (n := (l' : Multiset β))

/-- **The workers visit the whole range**, each number once. -/
theorem strided_perm (workers turns : Nat) (f : Nat → α) :
    ((List.range workers).flatMap fun i => (List.range turns).map fun k => f (i + k * workers)).Perm
      ((List.range (turns * workers)).map f) := by
  have hrows : ((List.range turns).flatMap fun k => (List.range workers).map fun i => f (i + k * workers)) =
      (List.range (turns * workers)).map f := by
    rw [List.map_eq_flatMap, ← flatMap_range_mul]
    apply congrArg (List.flatMap · _)
    funext k
    rw [List.map_eq_flatMap]
    apply congrArg (List.flatMap · _)
    funext i
    rw [Nat.add_comm]
  rw [← hrows]
  exact flatMap_map_swap _ _ _

end Grid

end Chainlite
