import Chainlite.BaseHashTree

/-! Paths in a hash tree. Climbing from a leaf with the nodes beside its ancestors gives the root. In the other
direction, a climb that ends at the root started from a node of the tree, at the level that its number of steps
says, when the parent function is injective on the pairs hashed on both sides. It started from a leaf exactly
when it has as many steps as the tree has levels above the leaves. -/

namespace HashTree

variable {α : Type}

/-- One step of a path: the node beside the one reached, and whether it stands on the left. -/
structure Step (α : Type) where
  h : α
  left : Bool
  deriving DecidableEq

/-- The pair that is hashed at a step from `x`. -/
def Step.pair (s : Step α) (x : α) : α × α := if s.left then (s.h, x) else (x, s.h)

section

variable (parent : α → α → α) (zero : α)

def Step.up (s : Step α) (x : α) : α := parent (s.pair x).1 (s.pair x).2

/-- The node reached from `x` by a path. -/
def climb (x : α) (steps : List (Step α)) : α := steps.foldl (fun x s => s.up parent x) x

/-- The pairs hashed on the way. -/
def climbPairs : α → List (Step α) → List (α × α)
  | _, [] => []
  | x, s :: steps => s.pair x :: climbPairs (s.up parent x) steps

def pathWithin : Nat → List α → Nat → List (Step α)
  | 0, _, _ => []
  | fuel + 1, level, idx =>
      if 1 < level.length then
        ⟨(padded level).getD (idx ^^^ 1) zero, idx % 2 == 1⟩ :: pathWithin fuel (levelUp parent level) (idx / 2)
      else []

/-- The path of the leaf number `idx`. -/
def path (level : List α) (idx : Nat) : List (Step α) := pathWithin parent zero level.length level idx

/-- The level `k` above the leaves. -/
def above (level : List α) (k : Nat) : List α := (levelUp parent)^[k] level

end

variable {parent : α → α → α} {zero : α}

/-! ### The path of a leaf -/

theorem pathWithin_congr (fuel fuel' : Nat) (level : List α) (idx : Nat) (hfuel : level.length ≤ fuel)
    (hfuel' : level.length ≤ fuel') :
    pathWithin parent zero fuel level idx = pathWithin parent zero fuel' level idx := by
  induction fuel generalizing fuel' level idx with
  | zero =>
      have hnil : level = [] := List.length_eq_zero_iff.mp (Nat.le_zero.mp hfuel)
      cases fuel' <;> simp [pathWithin, hnil]
  | succ fuel ih =>
      cases fuel' with
      | zero =>
          have hnil : level = [] := List.length_eq_zero_iff.mp (Nat.le_zero.mp hfuel')
          simp [pathWithin, hnil]
      | succ fuel' =>
          simp only [pathWithin]
          split
          · rw [ih fuel' _ _ (by rw [length_levelUp]; omega) (by rw [length_levelUp]; omega)]
          · rfl

theorem path_eq_levelUp {level : List α} (hlen : 1 < level.length) (idx : Nat) :
    path parent zero level idx =
      ⟨(padded level).getD (idx ^^^ 1) zero, idx % 2 == 1⟩ :: path parent zero (levelUp parent level) (idx / 2) := by
  obtain ⟨size, hsize⟩ : ∃ size, level.length = size + 1 := ⟨level.length - 1, by omega⟩
  rw [path, hsize, pathWithin, if_pos hlen, path]
  rw [pathWithin_congr _ _ _ _ (by rw [length_levelUp]; omega) le_rfl]

theorem path_of_length_le_one {level : List α} (hlen : level.length ≤ 1) (idx : Nat) :
    path parent zero level idx = [] := by
  unfold path
  cases level.length with
  | zero => rfl
  | succ size => rw [pathWithin, if_neg (by omega)]

theorem getElem?_neighbours : ∀ (level : List α) (k : Nat),
    (neighbours level)[k]? = (level[2 * k]?).bind fun left => (level[2 * k + 1]?).map fun right => (left, right)
  | [], k => by simp [neighbours]
  | [x], k => by cases k <;> simp [neighbours]
  | left :: right :: rest, 0 => by simp [neighbours]
  | left :: right :: rest, k + 1 => by
      rw [neighbours, List.getElem?_cons_succ, getElem?_neighbours rest k, show 2 * (k + 1) = 2 * k + 1 + 1 by omega]
      simp only [List.getElem?_cons_succ]

variable (parent zero) in
/-- The parent of a leaf and the node beside it stands above them. -/
theorem getElem?_levelUp {level : List α} {idx : Nat} {x : α} (hx : level[idx]? = some x) :
    (levelUp parent level)[idx / 2]? =
      some (Step.up parent ⟨(padded level).getD (idx ^^^ 1) zero, idx % 2 == 1⟩ x) := by
  have hidx : idx < level.length := (List.getElem?_eq_some_iff.mp hx).1
  have hpad := length_padded level
  have hxp : (padded level)[idx]? = some x := by
    obtain ⟨more, hmore⟩ := isPrefix_padded level
    rw [← hmore, List.getElem?_append_left hidx]
    exact hx
  rw [levelUp, List.getElem?_map, getElem?_neighbours]
  rcases Nat.mod_two_eq_zero_or_one idx with heven | hodd
  · have hsib : idx ^^^ 1 = idx + 1 := Nat.xor_one_of_even (Nat.even_iff.mpr heven)
    have hnext : idx + 1 < (padded level).length := by omega
    have hbeside : (padded level)[idx + 1]? = some ((padded level).getD (idx + 1) zero) := by
      rw [List.getD_eq_getElem?_getD, List.getElem?_eq_getElem hnext]
      rfl
    rw [show 2 * (idx / 2) = idx by omega, hxp, hsib, hbeside]
    simp [Step.up, Step.pair, heven]
  · have hsib : idx ^^^ 1 = idx - 1 := Nat.xor_one_of_odd (Nat.odd_iff.mpr hodd)
    have hprev : idx - 1 < (padded level).length := by omega
    have hbeside : (padded level)[idx - 1]? = some ((padded level).getD (idx - 1) zero) := by
      rw [List.getD_eq_getElem?_getD, List.getElem?_eq_getElem hprev]
      rfl
    rw [show 2 * (idx / 2) = idx - 1 by omega, show idx - 1 + 1 = idx by omega, hxp, hsib, hbeside]
    simp [Step.up, Step.pair, hodd]

/-- **The path of a leaf leads to the root.** -/
theorem climb_path {level : List α} {idx : Nat} {x : α} (hx : level[idx]? = some x) :
    climb parent x (path parent zero level idx) = root parent zero level := by
  induction hsize : level.length using Nat.strong_induction_on generalizing level idx x with
  | _ size ih =>
      by_cases hlen : 1 < level.length
      · have hup := getElem?_levelUp parent zero hx
        rw [path_eq_levelUp hlen, root_eq_levelUp hlen]
        exact ih _ (by rw [length_levelUp]; omega) hup rfl
      · have hidx := (List.getElem?_eq_some_iff.mp hx).1
        obtain ⟨y, rfl⟩ := List.length_eq_one_iff.mp (show level.length = 1 by omega)
        obtain rfl : idx = 0 := by simpa using hidx
        obtain rfl : y = x := by simpa using hx
        rw [path_of_length_le_one (by simp)]
        rfl

/-! ### The levels of the tree -/

theorem above_add (level : List α) (j k : Nat) : above parent (above parent level j) k = above parent level (j + k) := by
  rw [above, above, above, Nat.add_comm, Function.iterate_add_apply]

theorem above_succ (level : List α) (k : Nat) : above parent (levelUp parent level) k = above parent level (k + 1) := rfl

variable (parent zero) in
/-- As many levels up as the tree has, there is the root. -/
theorem above_depth {level : List α} (hne : level ≠ []) :
    above parent level (Nat.clog 2 level.length) = [root parent zero level] := by
  induction hsize : level.length using Nat.strong_induction_on generalizing level with
  | _ size ih =>
      have hpos := List.length_pos_of_ne_nil hne
      by_cases hlen : 1 < level.length
      · have hdepth : Nat.clog 2 level.length = Nat.clog 2 (levelUp parent level).length + 1 := by
          rw [Nat.clog_of_one_lt (by decide) hlen, length_levelUp]
          rfl
        have hup : levelUp parent level ≠ [] := by
          intro hnil
          have hzero : (levelUp parent level).length = _ := length_levelUp level
          rw [hnil, List.length_nil] at hzero
          omega
        rw [← hsize, hdepth, ← above_succ, root_eq_levelUp hlen]
        exact ih _ (by rw [length_levelUp]; omega) hup rfl
      · obtain ⟨x, rfl⟩ := List.length_eq_one_iff.mp (show level.length = 1 by omega)
        rw [← hsize]
        rfl

/-- A tree with a level above its leaves has more than one leaf. -/
theorem one_lt_of_lt_clog {n k : ℕ} (hk : k < Nat.clog 2 n) : 1 < n := by
  by_contra hsmall
  rw [Nat.clog_of_right_le_one (Nat.not_lt.mp hsmall)] at hk
  omega

theorem length_above_succ (level : List α) (k : Nat) :
    (above parent level (k + 1)).length = ((above parent level k).length + 1) / 2 := by
  rw [← above_add level k 1]
  exact length_levelUp _

/-- The ancestor of the leaf number `idx` is on every level. -/
theorem index_lt_above {level : List α} {idx : Nat} (hidx : idx < level.length) (k : Nat) :
    idx / 2 ^ k < (above parent level k).length := by
  induction k with
  | zero => rwa [Nat.pow_zero, Nat.div_one]
  | succ k ih =>
      rw [length_above_succ, Nat.pow_succ, ← Nat.div_div_eq_div_mul]
      omega

/-- The node beside one of a level is on the padded level. -/
theorem beside_lt_padded {level : List α} {idx : Nat} (hidx : idx < level.length) :
    idx ^^^ 1 < (padded level).length := by
  have hpad := length_padded level
  rcases Nat.mod_two_eq_zero_or_one idx with heven | hodd
  · rw [Nat.xor_one_of_even (Nat.even_iff.mpr heven)]
    omega
  · rw [Nat.xor_one_of_odd (Nat.odd_iff.mpr hodd)]
    omega

variable (parent zero) in
/-- **The path, step by step.** The step number `k` is read on level `k` beside the ancestor of the leaf there,
and its side is the binary digit number `k` of the leaf's index. -/
theorem getElem?_path (level : List α) (idx k : Nat) : (path parent zero level idx)[k]? =
    if k < Nat.clog 2 level.length then
      some ⟨(padded (above parent level k)).getD ((idx / 2 ^ k) ^^^ 1) zero, idx.testBit k⟩
    else none := by
  induction hsize : level.length using Nat.strong_induction_on generalizing level idx k with
  | _ size ih =>
      by_cases hlen : 1 < level.length
      · have hdepth : Nat.clog 2 size = Nat.clog 2 (levelUp parent level).length + 1 := by
          rw [← hsize, Nat.clog_of_one_lt (by decide) hlen, length_levelUp]
          rfl
        rw [path_eq_levelUp hlen, hdepth]
        cases k with
        | zero =>
            rw [List.getElem?_cons_zero, if_pos (Nat.succ_pos _), Nat.pow_zero, Nat.div_one, Nat.testBit_zero]
            rfl
        | succ k =>
            rw [List.getElem?_cons_succ, ih _ (by rw [length_levelUp]; omega) _ _ _ rfl, above_succ,
              Nat.div_div_eq_div_mul, ← Nat.pow_succ', Nat.testBit_succ]
            simp only [Nat.succ_lt_succ_iff]
      · rw [path_of_length_le_one (Nat.not_lt.mp hlen), ← hsize, Nat.clog_of_right_le_one (Nat.not_lt.mp hlen)]
        rfl

variable (parent zero) in
/-- The sides of a path are the binary digits of the index. -/
theorem sides_path (level : List α) (idx : Nat) : (path parent zero level idx).map Step.left =
    (List.range (Nat.clog 2 level.length)).map idx.testBit := by
  apply List.ext_getElem?
  intro k
  rw [List.getElem?_map, List.getElem?_map, getElem?_path]
  split
  · rename_i hk
    rw [List.getElem?_range hk]
    rfl
  · rename_i hk
    rw [List.getElem?_eq_none (by simpa using hk)]
    rfl

/-- Every sibling of a path is read inside the padded level, beside the ancestor of the leaf. -/
theorem sibling_read {level : List α} {idx k : Nat} {s : Step α} (hidx : idx < level.length)
    (hs : (path parent zero level idx)[k]? = some s) :
    (padded (above parent level k))[(idx / 2 ^ k) ^^^ 1]? = some s.h := by
  rw [getElem?_path] at hs
  split at hs
  · cases hs
    have hrange : (idx / 2 ^ k) ^^^ 1 < (padded (above parent level k)).length :=
      beside_lt_padded (index_lt_above hidx k)
    rw [List.getD_eq_getElem?_getD, List.getElem?_eq_getElem hrange]
    rfl
  · cases hs

/-- The pairs below the root are among those that are hashed. -/
theorem mem_nodes_of_above {level : List α} {k : Nat} (hk : k < Nat.clog 2 level.length) {pair : α × α}
    (hpair : pair ∈ neighbours (padded (above parent level k))) : pair ∈ nodes parent level := by
  induction k generalizing level with
  | zero =>
      have hlen := one_lt_of_lt_clog hk
      rw [nodes_eq_levelUp parent hlen]
      exact List.mem_append_left _ hpair
  | succ k ih =>
      have hlen := one_lt_of_lt_clog hk
      rw [Nat.clog_of_one_lt (by decide) hlen] at hk
      rw [nodes_eq_levelUp parent hlen]
      refine List.mem_append_right _ (ih ?_ hpair)
      rw [length_levelUp]
      exact Nat.lt_of_succ_lt_succ hk

theorem snd_mem_of_mem_neighbours : ∀ {level : List α} {pair : α × α}, pair ∈ neighbours level → pair.2 ∈ level
  | left :: right :: rest, pair, h => by
      rw [neighbours, List.mem_cons] at h
      rcases h with rfl | h
      · exact List.mem_cons_of_mem _ List.mem_cons_self
      · exact List.mem_cons_of_mem _ (List.mem_cons_of_mem _ (snd_mem_of_mem_neighbours h))

/-! ### Climbing to the root -/

theorem climb_append (x : α) (steps steps' : List (Step α)) :
    climb parent x (steps ++ steps') = climb parent (climb parent x steps) steps' := List.foldl_append

theorem climbPairs_append (x : α) (steps steps' : List (Step α)) :
    climbPairs parent x (steps ++ steps') = climbPairs parent x steps ++ climbPairs parent (climb parent x steps) steps' := by
  induction steps generalizing x with
  | nil => rfl
  | cons s steps ih =>
      rw [List.cons_append, climbPairs, ih, climbPairs, List.cons_append]
      rfl

variable (parent) in
/-- A climb with a step in it ends at the parent of a pair it has hashed. -/
theorem climb_eq_parent (x : α) {steps : List (Step α)} (hne : steps ≠ []) :
    ∃ pair ∈ climbPairs parent x steps, climb parent x steps = parent pair.1 pair.2 := by
  obtain ⟨init, s, rfl⟩ := (List.eq_nil_or_concat' steps).resolve_left hne
  refine ⟨s.pair (climb parent x init), ?_, ?_⟩
  · rw [climbPairs_append]
    exact List.mem_append_right _ List.mem_cons_self
  · rw [climb_append]
    rfl

variable (parent) in
/-- **A climb to a level starts as many levels below it.** -/
theorem mem_of_climb {level : List α} {x : α} (steps : List (Step α))
    (hclimb : climb parent x steps ∈ above parent level steps.length)
    (hinj : ∀ k < steps.length, ∀ pair ∈ neighbours (padded (above parent level k)),
      ∀ pair' ∈ climbPairs parent x steps, parent pair.1 pair.2 = parent pair'.1 pair'.2 → pair = pair') : x ∈ level := by
  induction steps generalizing level x with
  | nil => exact hclimb
  | cons s steps ih =>
      have hnext : s.up parent x ∈ levelUp parent level := by
        refine ih hclimb fun k hk pair hpair pair' hpair' => ?_
        exact hinj (k + 1) (Nat.succ_lt_succ hk) pair hpair pair' (List.mem_cons_of_mem _ hpair')
      obtain ⟨pair, hpair, heq⟩ := mem_levelUp.mp hnext
      have hsame : pair = s.pair x := hinj 0 (Nat.succ_pos _) pair hpair _ List.mem_cons_self heq
      have hleft := mem_padded.mp (fst_mem_of_mem_neighbours hpair)
      have hright := mem_padded.mp (snd_mem_of_mem_neighbours hpair)
      rw [hsame, Step.pair] at hleft hright
      cases hside : s.left with
      | true =>
          rw [hside] at hright
          exact hright
      | false =>
          rw [hside] at hleft
          exact hleft

/-- **A climb to the root starts from a leaf exactly when it has a step for every level**, if the parent
function does not collide on the pairs hashed and no leaf is a parent. -/
theorem mem_iff_of_climb_eq_root {level : List α} (hne : level ≠ []) {x : α} {steps : List (Step α)}
    (hroot : climb parent x steps = root parent zero level)
    (hinj : ∀ pair ∈ nodes parent level, ∀ pair' ∈ climbPairs parent x steps,
      parent pair.1 pair.2 = parent pair'.1 pair'.2 → pair = pair')
    (hleaf : ∀ y ∈ level, ∀ pair ∈ nodes parent level ++ climbPairs parent x steps, y ≠ parent pair.1 pair.2) :
    x ∈ level ↔ steps.length = Nat.clog 2 level.length := by
  have htop := above_depth parent zero hne
  rcases Nat.lt_or_ge (Nat.clog 2 level.length) steps.length with hlong | hshort
  · -- the last steps alone come from a leaf, which the steps before them would have hashed
    exfalso
    obtain ⟨extra, hextra⟩ := Nat.exists_eq_add_of_lt hlong
    have hsplit : steps = steps.take (extra + 1) ++ steps.drop (extra + 1) := (List.take_append_drop _ _).symm
    have hcount : (steps.drop (extra + 1)).length = Nat.clog 2 level.length := by
      rw [List.length_drop]
      omega
    have hstart : climb parent x (steps.take (extra + 1)) ∈ level := by
      refine mem_of_climb parent (steps.drop (extra + 1)) ?_ ?_
      · rw [hcount, htop, ← climb_append, ← hsplit, hroot]
        exact List.mem_singleton.mpr rfl
      · intro k hk pair hpair pair' hpair'
        refine hinj pair (mem_nodes_of_above (hcount ▸ hk) hpair) pair' ?_
        rw [hsplit, climbPairs_append]
        exact List.mem_append_right _ hpair'
    have htaken : steps.take (extra + 1) ≠ [] := List.ne_nil_of_length_pos (by rw [List.length_take]; omega)
    obtain ⟨pair, hpair, heq⟩ := climb_eq_parent parent x htaken
    refine hleaf _ hstart pair (List.mem_append_right _ ?_) heq
    rw [hsplit, climbPairs_append]
    exact List.mem_append_left _ hpair
  · obtain ⟨below, hbelow⟩ := Nat.exists_eq_add_of_le hshort
    have hmem : x ∈ above parent level below := by
      refine mem_of_climb parent steps ?_ ?_
      · rw [above_add, Nat.add_comm, ← hbelow, htop, hroot]
        exact List.mem_singleton.mpr rfl
      · intro k hk pair hpair
        rw [above_add] at hpair
        exact hinj pair (mem_nodes_of_above (by omega) hpair)
    cases below with
    | zero => exact iff_of_true hmem (by omega)
    | succ below =>
        refine iff_of_false (fun hleaf_x => ?_) (by omega)
        rw [← above_add level below 1] at hmem
        obtain ⟨pair, hpair, heq⟩ := mem_levelUp.mp hmem
        exact hleaf x hleaf_x pair (List.mem_append_left _ (mem_nodes_of_above (by omega) hpair)) heq.symm

/-! ### Two climbs -/

/-- A step whose pair is known gives back where it started and the node beside it. -/
theorem Step.pair_injective {s s' : Step α} {x x' : α} (hside : s.left = s'.left) (heq : s.pair x = s'.pair x') :
    x = x' ∧ s = s' := by
  obtain ⟨h, left⟩ := s
  obtain ⟨h', left'⟩ := s'
  have hside : left = left' := hside
  subst hside
  cases left with
  | true =>
      obtain ⟨rfl, rfl⟩ := Prod.mk.inj heq
      exact ⟨rfl, rfl⟩
  | false =>
      obtain ⟨rfl, rfl⟩ := Prod.mk.inj heq
      exact ⟨rfl, rfl⟩

/-- **Two climbs on the same sides that meet** are the same, or the parent function has collided on the way. -/
theorem same_of_climb_eq {x x' : α} {steps steps' : List (Step α)}
    (hsides : steps.map Step.left = steps'.map Step.left) (heq : climb parent x steps = climb parent x' steps') :
    (x = x' ∧ steps = steps') ∨ ∃ pair ∈ climbPairs parent x steps, ∃ pair' ∈ climbPairs parent x' steps',
      pair ≠ pair' ∧ parent pair.1 pair.2 = parent pair'.1 pair'.2 := by
  induction steps generalizing x x' steps' with
  | nil =>
      cases steps' with
      | nil => exact Or.inl ⟨heq, rfl⟩
      | cons s' rest' => cases hsides
  | cons s rest ih =>
      cases steps' with
      | nil => cases hsides
      | cons s' rest' =>
          obtain ⟨hside, hsides⟩ := List.cons.inj hsides
          rcases ih hsides heq with ⟨hup, rfl⟩ | ⟨pair, hpair, pair', hpair', hne, hmeet⟩
          · by_cases hsame : s.pair x = s'.pair x'
            · obtain ⟨rfl, rfl⟩ := Step.pair_injective hside hsame
              exact Or.inl ⟨rfl, rfl⟩
            · exact Or.inr ⟨_, List.mem_cons_self, _, List.mem_cons_self, hsame, hup⟩
          · exact Or.inr ⟨pair, List.mem_cons_of_mem _ hpair, pair', List.mem_cons_of_mem _ hpair', hne, hmeet⟩

/-! ### Nodes on the way -/

/-- The first steps of its path lead from a leaf to its ancestor. -/
theorem getElem?_above {level : List α} {idx : Nat} {x : α} (hx : level[idx]? = some x) {k : Nat}
    (hk : k ≤ Nat.clog 2 level.length) :
    (above parent level k)[idx / 2 ^ k]? = some (climb parent x ((path parent zero level idx).take k)) := by
  induction k with
  | zero =>
      rw [Nat.pow_zero, Nat.div_one]
      exact hx
  | succ k ih =>
      have hstep := getElem?_path parent zero level idx k
      rw [if_pos (Nat.lt_of_succ_le hk)] at hstep
      have hup := getElem?_levelUp parent zero (ih (Nat.le_of_succ_le hk))
      rw [Nat.div_div_eq_div_mul, ← Nat.pow_succ] at hup
      rw [List.take_add_one, hstep, climb_append, ← above_add level k 1]
      have hside : (idx / 2 ^ k % 2 == 1) = idx.testBit k := by
        rw [Nat.testBit_eq_decide_div_mod_eq]
        rfl
      rw [hside] at hup
      exact hup

theorem length_above {level : List α} (hne : level ≠ []) (k : Nat) :
    (above parent level k).length = (level.length - 1) / 2 ^ k + 1 := by
  have hpos := List.length_pos_of_ne_nil hne
  induction k with
  | zero =>
      rw [Nat.pow_zero, Nat.div_one]
      exact (Nat.sub_add_cancel hpos).symm
  | succ k ih =>
      rw [length_above_succ, ih, Nat.pow_succ, ← Nat.div_div_eq_div_mul]
      omega

theorem getElem?_padded {level : List α} {idx : Nat} (hidx : idx < level.length) : (padded level)[idx]? = level[idx]? := by
  obtain ⟨more, hmore⟩ := isPrefix_padded level
  rw [← hmore, List.getElem?_append_left hidx]

theorem nodup_neighbours {level : List α} (hnodup : level.Nodup) : (neighbours (padded level)).Nodup := by
  rw [List.nodup_iff_getElem?_ne_getElem?] at hnodup ⊢
  intro i j hij hj heq
  have hpad := length_padded level
  have hlen := length_neighbours (padded level)
  obtain ⟨pair, hpair⟩ : ∃ pair, (neighbours (padded level))[j]? = some pair := ⟨_, List.getElem?_eq_getElem hj⟩
  have hfst : ∀ k, (neighbours (padded level))[k]? = some pair → (padded level)[2 * k]? = some pair.1 := by
    intro k hk
    rw [getElem?_neighbours] at hk
    obtain ⟨left, hleft, hright⟩ := Option.bind_eq_some_iff.mp hk
    obtain ⟨right, -, rfl⟩ := Option.map_eq_some_iff.mp hright
    exact hleft
  refine hnodup (2 * i) (2 * j) (by omega) (by omega) ?_
  calc level[2 * i]?
      = (padded level)[2 * i]? := (getElem?_padded (by omega)).symm
    _ = some pair.1 := hfst i (heq.trans hpair)
    _ = (padded level)[2 * j]? := (hfst j hpair).symm
    _ = level[2 * j]? := getElem?_padded (by omega)

/-- Different nodes have different parents, if the parent function does not collide on them. -/
theorem nodup_levelUp {level : List α} (hnodup : level.Nodup)
    (hinj : ∀ pair ∈ neighbours (padded level), ∀ pair' ∈ neighbours (padded level),
      parent pair.1 pair.2 = parent pair'.1 pair'.2 → pair = pair') : (levelUp parent level).Nodup :=
  List.Nodup.map_on hinj (nodup_neighbours hnodup)

theorem nodup_above {level : List α} (hnodup : level.Nodup)
    (hinj : ∀ pair ∈ nodes parent level, ∀ pair' ∈ nodes parent level,
      parent pair.1 pair.2 = parent pair'.1 pair'.2 → pair = pair') {k : Nat} (hk : k ≤ Nat.clog 2 level.length) :
    (above parent level k).Nodup := by
  induction k with
  | zero => exact hnodup
  | succ k ih =>
      rw [← above_add level k 1]
      refine nodup_levelUp (ih (Nat.le_of_succ_le hk)) fun pair hpair pair' hpair' => ?_
      exact hinj pair (mem_nodes_of_above hk hpair) pair' (mem_nodes_of_above hk hpair')

/-- A node of a level stands beside itself exactly when it is the last one of a level of odd size. -/
theorem beside_eq_iff {level : List α} (hnodup : level.Nodup) {idx : Nat} {x : α} (hx : level[idx]? = some x) :
    (padded level).getD (idx ^^^ 1) zero = x ↔ idx % 2 = 0 ∧ idx + 1 = level.length := by
  have hidx := (List.getElem?_eq_some_iff.mp hx).1
  have hbeside : idx ^^^ 1 = if idx % 2 = 0 then idx + 1 else idx - 1 := by
    split
    · rename_i heven
      exact Nat.xor_one_of_even (Nat.even_iff.mpr heven)
    · rename_i hodd
      exact Nat.xor_one_of_odd (Nat.odd_iff.mpr (by omega))
  rw [List.getD_eq_getElem?_getD]
  by_cases hlt : idx ^^^ 1 < level.length
  · refine iff_of_false (fun heq => ?_) ?_
    · rw [getElem?_padded hlt, List.getElem?_eq_getElem hlt, Option.getD_some] at heq
      have hsame := (List.getElem?_inj hlt hnodup).mp ((List.getElem?_eq_getElem hlt).trans (heq ▸ hx.symm))
      rw [hsame] at hbeside
      split at hbeside <;> omega
    · rintro ⟨heven, hlast⟩
      rw [hbeside, if_pos heven] at hlt
      omega
  · have heven : idx % 2 = 0 ∧ idx + 1 = level.length := by
      rw [hbeside] at hlt
      split at hlt <;> omega
    refine iff_of_true ?_ heven
    rw [hbeside, if_pos heven.1, heven.2, padded, if_pos (by omega), List.getElem?_append_right (Nat.le_refl _),
      Nat.sub_self, List.getLast?_eq_getElem?, show level.length - 1 = idx by omega, hx]
    rfl

/-! ### A step on the other side -/

theorem split_at {steps : List (Step α)} {k : Nat} {s : Step α} (hs : steps[k]? = some s) :
    steps = steps.take k ++ s :: steps.drop (k + 1) := by
  obtain ⟨hk, rfl⟩ := List.getElem?_eq_some_iff.mp hs
  rw [List.getElem_cons_drop, List.take_append_drop]

theorem set_at {steps : List (Step α)} {k : Nat} {s : Step α} (hs : steps[k]? = some s) (s' : Step α) :
    steps.set k s' = steps.take k ++ s' :: steps.drop (k + 1) := by
  rw [List.set_eq_take_append_cons_drop, if_pos (List.getElem?_eq_some_iff.mp hs).1]

/-- A step is the same on both sides of itself. -/
theorem climb_set_own {x : α} {steps : List (Step α)} {k : Nat} {s : Step α} (hs : steps[k]? = some s)
    (hown : s.h = climb parent x (steps.take k)) :
    climb parent x (steps.set k ⟨s.h, !s.left⟩) = climb parent x steps := by
  have hpair : Step.pair ⟨s.h, !s.left⟩ (climb parent x (steps.take k)) = s.pair (climb parent x (steps.take k)) := by
    rw [← hown, Step.pair, Step.pair]
    cases s.left <;> rfl
  have hup : Step.up parent ⟨s.h, !s.left⟩ (climb parent x (steps.take k)) = s.up parent (climb parent x (steps.take k)) := by
    rw [Step.up, Step.up, hpair]
  calc climb parent x (steps.set k ⟨s.h, !s.left⟩)
      = climb parent x (steps.take k ++ ⟨s.h, !s.left⟩ :: steps.drop (k + 1)) := by rw [set_at hs]
    _ = climb parent (Step.up parent ⟨s.h, !s.left⟩ (climb parent x (steps.take k))) (steps.drop (k + 1)) :=
        climb_append _ _ _
    _ = climb parent x (steps.take k ++ s :: steps.drop (k + 1)) := by
        rw [hup, climb_append]
        rfl
    _ = climb parent x steps := by rw [← split_at hs]

/-- **A climb with one step on the other side** does not end where it did, unless the node stands beside itself or
the parent function has collided on the way. -/
theorem collide_of_climb_set {x : α} {steps : List (Step α)} {k : Nat} {s : Step α} (hs : steps[k]? = some s)
    (hother : s.h ≠ climb parent x (steps.take k))
    (heq : climb parent x (steps.set k ⟨s.h, !s.left⟩) = climb parent x steps) :
    ∃ pair ∈ climbPairs parent x steps, ∃ pair' ∈ climbPairs parent x (steps.set k ⟨s.h, !s.left⟩),
      pair ≠ pair' ∧ parent pair.1 pair.2 = parent pair'.1 pair'.2 := by
  have hsteps := split_at hs
  have hset := set_at hs ⟨s.h, !s.left⟩
  generalize steps.take k = front at hother hsteps hset
  generalize steps.drop (k + 1) = back at hsteps hset
  rw [hset, hsteps, climb_append, climb_append] at heq
  rw [hset, hsteps, climbPairs_append, climbPairs_append]
  have hrest : climb parent (s.up parent (climb parent x front)) back =
      climb parent (Step.up parent ⟨s.h, !s.left⟩ (climb parent x front)) back := heq.symm
  rcases same_of_climb_eq rfl hrest with ⟨hup, -⟩ | ⟨pair, hpair, pair', hpair', hne, hmeet⟩
  · refine ⟨_, List.mem_append_right _ List.mem_cons_self, _, List.mem_append_right _ List.mem_cons_self, ?_, hup⟩
    intro hpairs
    rw [Step.pair, Step.pair] at hpairs
    cases hleft : s.left with
    | true =>
        rw [hleft] at hpairs
        exact hother (Prod.mk.inj hpairs).1
    | false =>
        rw [hleft] at hpairs
        exact hother (Prod.mk.inj hpairs).2
  · exact ⟨pair, List.mem_append_right _ (List.mem_cons_of_mem _ hpair), pair',
      List.mem_append_right _ (List.mem_cons_of_mem _ hpair'), hne, hmeet⟩

end HashTree
