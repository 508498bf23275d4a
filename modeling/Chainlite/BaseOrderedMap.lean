import Mathlib

/-! Ordered maps whose comparison decides equality of keys: lookups after an update, and sums over the
entries. -/

open Std

namespace OrderedMap

variable {K V : Type} {cmp : K → K → Ordering} [TransCmp cmp] [LawfulEqCmp cmp]

theorem getElem?_insert_eq [DecidableEq K] (m : ExtTreeMap K V cmp) (k k' : K) (v : V) :
    (m.insert k v)[k']? = if k = k' then some v else m[k']? := by
  rw [ExtTreeMap.getElem?_insert]
  simp only [LawfulEqCmp.compare_eq_iff_eq]

theorem getElem?_erase_eq_some (m : ExtTreeMap K V cmp) (k k' : K) (v : V) :
    (m.erase k)[k']? = some v ↔ k ≠ k' ∧ m[k']? = some v := by
  rw [ExtTreeMap.getElem?_erase]
  by_cases h : k = k' <;> simp [h]

theorem pairwise_keys_ne (m : ExtTreeMap K V cmp) : m.toList.Pairwise fun e f => e.1 ≠ f.1 :=
  ExtTreeMap.distinct_keys_toList.imp fun h heq => h (LawfulEqCmp.compare_eq_iff_eq.mpr heq)

/-- The entries of a map are the list that is sorted by its keys and has the same members. -/
theorem toList_eq_of_mem_iff (m : ExtTreeMap K V cmp) {entries : List (K × V)}
    (hsorted : entries.Pairwise fun e f => cmp e.1 f.1 = .lt)
    (hmem : ∀ k v, m[k]? = some v ↔ (k, v) ∈ entries) : m.toList = entries := by
  have hasymm : ∀ e f : K × V, cmp e.1 f.1 = .lt → cmp f.1 e.1 = .lt → False := by
    intro e f h h'
    rw [show cmp f.1 e.1 = (cmp e.1 f.1).swap from OrientedCmp.eq_swap, h] at h'
    cases h'
  have : Std.Antisymm fun e f : K × V => cmp e.1 f.1 = .lt := ⟨fun e f h h' => (hasymm e f h h').elim⟩
  have : Std.Irrefl fun e f : K × V => cmp e.1 f.1 = .lt := ⟨fun e h => hasymm e e h h⟩
  refine List.Pairwise.eq_of_mem_iff ExtTreeMap.ordered_keys_toList hsorted ?_
  rintro ⟨k, v⟩
  rw [ExtTreeMap.mem_toList_iff_getElem?_eq_some, hmem]

/-- The lookups after a list of insertions under distinct keys. -/
theorem getElem?_foldl_insert [DecidableEq K] (m : ExtTreeMap K V cmp) {entries : List (K × V)}
    (hnodup : (entries.map Prod.fst).Nodup) (k : K) (v : V) :
    (entries.foldl (fun m entry => m.insert entry.1 entry.2) m)[k]? = some v ↔
      (k, v) ∈ entries ∨ k ∉ entries.map Prod.fst ∧ m[k]? = some v := by
  induction entries generalizing m with
  | nil => simp
  | cons entry rest ih =>
      obtain ⟨hfresh, hrest⟩ := List.nodup_cons.mp hnodup
      rw [List.foldl_cons, ih _ hrest, getElem?_insert_eq]
      by_cases hkey : entry.1 = k
      · subst hkey
        have hout : ∀ v, (entry.1, v) ∉ rest := fun v hmem => hfresh (List.mem_map.mpr ⟨_, hmem, rfl⟩)
        rw [if_pos rfl]
        simp only [hout, false_or, Option.some.injEq, List.mem_cons, List.map_cons, true_or, not_true_eq_false,
          false_and, or_false]
        constructor
        · rintro ⟨-, rfl⟩
          rfl
        · intro heq
          exact ⟨hfresh, congrArg Prod.snd heq.symm⟩
      · have hentry : (k, v) ≠ entry := fun heq => hkey (congrArg Prod.fst heq.symm)
        rw [if_neg hkey, List.mem_cons, List.map_cons, List.mem_cons, not_or]
        simp only [hentry, false_or, Ne.symm hkey, not_false_eq_true, true_and]

/-- The values of a map, summed over its keys. -/
theorem sum_toList_eq [DecidableEq K] (m : ExtTreeMap K V cmp) (default : V) (f : V → ℕ) :
    (m.toList.map fun entry => f entry.2).sum = ∑ k ∈ m.keys.toFinset, f (m.getD k default) := by
  rw [List.sum_toFinset _ m.nodup_keys, ← ExtTreeMap.map_fst_toList_eq_keys, List.map_map]
  congr 1
  apply List.map_congr_left
  rintro ⟨k, v⟩ hmem
  have hget : m[k]? = some v := ExtTreeMap.mem_toList_iff_getElem?_eq_some.mp hmem
  simp [ExtTreeMap.getD_eq_getD_getElem?, hget]

/-- Keys that are absent add nothing when the default does not. -/
theorem sum_toList_eq_of_subset [DecidableEq K] (m : ExtTreeMap K V cmp) (default : V) (f : V → ℕ) (hdefault : f default = 0)
    (S : Finset K) (hS : m.keys.toFinset ⊆ S) :
    (m.toList.map fun entry => f entry.2).sum = ∑ k ∈ S, f (m.getD k default) := by
  rw [sum_toList_eq m default f]
  apply Finset.sum_subset hS
  intro k _ hk
  have hk' : k ∉ m := by simpa using hk
  rw [ExtTreeMap.getD_eq_fallback hk', hdefault]

end OrderedMap
