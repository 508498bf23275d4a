import Mathlib

/-! Binary hash trees over a list of leaves in which a level of odd size repeats its last node.
The root is not injective in the leaves: a list and the same list with its last subtree repeated
have one root. What the root does determine, when the parent function is injective on the pairs
that are hashed and no leaf is a parent, is the list up to such repetitions: one of the two lists
extends the other and they have the same elements. -/

namespace HashTree

variable {α : Type}

/-- A level with its last node repeated when its size is odd. -/
def padded (level : List α) : List α :=
  if level.length % 2 = 1 then level ++ level.getLast?.toList else level

/-- The nodes of a level taken two by two from the left. -/
def neighbours : List α → List (α × α)
  | left :: right :: rest => (left, right) :: neighbours rest
  | _ => []

section

variable (parent : α → α → α) (zero : α)

/-- The level above: the parents of the neighbours of the padded level. -/
def levelUp (level : List α) : List α :=
  (neighbours (padded level)).map fun pair => parent pair.1 pair.2

/-- Climb until one node is left. `fuel` bounds the number of levels. -/
def rootWithin : Nat → List α → α
  | 0, level => level.headD zero
  | fuel + 1, level =>
      if 1 < level.length then rootWithin fuel (levelUp parent level) else level.headD zero

/-- The root over the given leaves, `zero` when there is none. -/
def root (level : List α) : α := rootWithin parent zero level.length level

def nodesWithin : Nat → List α → List (α × α)
  | 0, _ => []
  | fuel + 1, level =>
      if 1 < level.length then
        neighbours (padded level) ++ nodesWithin fuel (levelUp parent level)
      else []

/-- Every pair that is hashed while the root is computed. -/
def nodes (level : List α) : List (α × α) := nodesWithin parent level.length level

end

/-! ### Levels -/

theorem length_padded (level : List α) : (padded level).length = level.length + level.length % 2 := by
  unfold padded
  split
  · rename_i hodd
    cases level with
    | nil => simp at hodd
    | cons x xs => rw [List.getLast?_cons]; simp at hodd ⊢; omega
  · omega

theorem padded_even (level : List α) : (padded level).length % 2 = 0 := by
  rw [length_padded]
  omega

theorem isPrefix_padded (level : List α) : level <+: padded level := by
  unfold padded
  split
  · exact List.prefix_append _ _
  · exact List.prefix_refl _

theorem mem_padded {level : List α} {x : α} : x ∈ padded level ↔ x ∈ level := by
  unfold padded
  split
  · simp only [List.mem_append, Option.mem_toList, or_iff_left_iff_imp]
    exact List.mem_of_getLast?
  · exact Iff.rfl

theorem length_neighbours : ∀ level : List α, (neighbours level).length = level.length / 2
  | [] => by simp [neighbours]
  | [_] => by simp [neighbours]
  | _ :: _ :: rest => by
      rw [neighbours, List.length_cons, length_neighbours rest]
      simp only [List.length_cons]
      omega

/-- Two nodes of a pair in a row give back a level of even size. -/
theorem flatMap_neighbours : ∀ level : List α, level.length % 2 = 0 →
    (neighbours level).flatMap (fun pair => [pair.1, pair.2]) = level
  | [], _ => rfl
  | [_], h => by simp at h
  | left :: right :: rest, h => by
      rw [neighbours, List.flatMap_cons, flatMap_neighbours rest (by simp at h; omega)]
      rfl

theorem fst_mem_of_mem_neighbours : ∀ {level : List α} {pair : α × α},
    pair ∈ neighbours level → pair.1 ∈ level
  | left :: right :: rest, pair, h => by
      rw [neighbours, List.mem_cons] at h
      rcases h with rfl | h
      · exact List.mem_cons_self
      · exact List.mem_cons_of_mem _ (List.mem_cons_of_mem _ (fst_mem_of_mem_neighbours h))

theorem padded_eq_flatMap (level : List α) :
    padded level = (neighbours (padded level)).flatMap fun pair => [pair.1, pair.2] :=
  (flatMap_neighbours _ (padded_even level)).symm

variable {parent : α → α → α} {zero : α}

theorem length_levelUp (level : List α) :
    (levelUp parent level).length = (level.length + 1) / 2 := by
  rw [levelUp, List.length_map, length_neighbours, length_padded]
  omega

theorem mem_levelUp {level : List α} {x : α} :
    x ∈ levelUp parent level ↔ ∃ pair ∈ neighbours (padded level), parent pair.1 pair.2 = x := by
  rw [levelUp, List.mem_map]

/-! ### Climbing

Any fuel of at least the size of the level gives the same root and the same pairs. -/

theorem rootWithin_congr (fuel fuel' : Nat) (level : List α) (hfuel : level.length ≤ fuel)
    (hfuel' : level.length ≤ fuel') :
    rootWithin parent zero fuel level = rootWithin parent zero fuel' level := by
  induction fuel generalizing fuel' level with
  | zero =>
      have hnil : level = [] := List.length_eq_zero_iff.mp (Nat.le_zero.mp hfuel)
      cases fuel' <;> simp [rootWithin, hnil]
  | succ fuel ih =>
      cases fuel' with
      | zero =>
          have hnil : level = [] := List.length_eq_zero_iff.mp (Nat.le_zero.mp hfuel')
          simp [rootWithin, hnil]
      | succ fuel' =>
          simp only [rootWithin]
          split
          · exact ih _ _ (by rw [length_levelUp]; omega) (by rw [length_levelUp]; omega)
          · rfl

theorem root_eq_levelUp {level : List α} (hlen : 1 < level.length) :
    root parent zero level = root parent zero (levelUp parent level) := by
  obtain ⟨size, hsize⟩ : ∃ size, level.length = size + 1 := ⟨level.length - 1, by omega⟩
  rw [root, hsize, rootWithin, if_pos hlen]
  exact rootWithin_congr _ _ _ (by rw [length_levelUp]; omega) le_rfl

@[simp] theorem root_singleton (x : α) : root parent zero [x] = x := rfl

theorem nodesWithin_congr (fuel fuel' : Nat) (level : List α) (hfuel : level.length ≤ fuel)
    (hfuel' : level.length ≤ fuel') :
    nodesWithin parent fuel level = nodesWithin parent fuel' level := by
  induction fuel generalizing fuel' level with
  | zero =>
      have hnil : level = [] := List.length_eq_zero_iff.mp (Nat.le_zero.mp hfuel)
      cases fuel' <;> simp [nodesWithin, hnil]
  | succ fuel ih =>
      cases fuel' with
      | zero =>
          have hnil : level = [] := List.length_eq_zero_iff.mp (Nat.le_zero.mp hfuel')
          simp [nodesWithin, hnil]
      | succ fuel' =>
          simp only [nodesWithin]
          split
          · rw [ih fuel' _ (by rw [length_levelUp]; omega) (by rw [length_levelUp]; omega)]
          · rfl

variable (parent) in
theorem nodes_eq_levelUp {level : List α} (hlen : 1 < level.length) :
    nodes parent level = neighbours (padded level) ++ nodes parent (levelUp parent level) := by
  obtain ⟨size, hsize⟩ : ∃ size, level.length = size + 1 := ⟨level.length - 1, by omega⟩
  rw [nodes, hsize, nodesWithin, if_pos hlen, nodes]
  rw [nodesWithin_congr _ _ _ (by rw [length_levelUp]; omega) le_rfl]

theorem nodes_of_length_le_one {level : List α} (hlen : level.length ≤ 1) : nodes parent level = [] := by
  unfold nodes
  cases level.length with
  | zero => rfl
  | succ size => rw [nodesWithin, if_neg (by omega)]

/-! ### What the root determines -/

variable (parent zero) in
/-- The root over two or more leaves is the parent of a pair that was hashed. -/
theorem root_mem_nodes {level : List α} (hlen : 1 < level.length) :
    ∃ pair ∈ nodes parent level, root parent zero level = parent pair.1 pair.2 := by
  induction hsize : level.length using Nat.strong_induction_on generalizing level with
  | _ size ih =>
      rw [root_eq_levelUp hlen, nodes_eq_levelUp parent hlen]
      by_cases hup : 1 < (levelUp parent level).length
      · obtain ⟨pair, hmem, hroot⟩ := ih _ (by rw [length_levelUp]; omega) hup rfl
        exact ⟨pair, List.mem_append_right _ hmem, hroot⟩
      · -- the level above has one node, the parent of the only pair of this level
        obtain ⟨x, hx⟩ : ∃ x, levelUp parent level = [x] := by
          apply List.length_eq_one_iff.mp
          rw [length_levelUp] at hup ⊢
          omega
        obtain ⟨pair, hmem, hpair⟩ := mem_levelUp.mp (hx ▸ List.mem_singleton.mpr rfl)
        exact ⟨pair, List.mem_append_left _ hmem, by rw [hx, root_singleton, hpair]⟩

/-- The left component of a hashed pair is a node of the bottom level or the parent of a hashed pair. -/
theorem fst_of_mem_nodes {level : List α} {pair : α × α} (hpair : pair ∈ nodes parent level) :
    pair.1 ∈ level ∨ ∃ below ∈ nodes parent level, pair.1 = parent below.1 below.2 := by
  induction hsize : level.length using Nat.strong_induction_on generalizing level with
  | _ size ih =>
      by_cases hlen : 1 < level.length
      · rw [nodes_eq_levelUp parent hlen] at hpair ⊢
        rcases List.mem_append.mp hpair with hhere | habove
        · exact Or.inl (mem_padded.mp (fst_mem_of_mem_neighbours hhere))
        · refine Or.inr ?_
          rcases ih _ (by rw [length_levelUp]; omega) habove rfl with hnode | ⟨below, hbelow, heq⟩
          · obtain ⟨below, hbelow, heq⟩ := mem_levelUp.mp hnode
            exact ⟨below, List.mem_append_left _ hbelow, heq.symm⟩
          · exact ⟨below, List.mem_append_right _ hbelow, heq⟩
      · rw [nodes_of_length_le_one (by omega)] at hpair
        simp at hpair

/-- One of the lists extends the other, and they have the same elements. -/
def Twins (left right : List α) : Prop :=
  (left <+: right ∨ right <+: left) ∧ ∀ x, x ∈ left ↔ x ∈ right

/-- Twins without repetition are equal. -/
theorem Twins.eq_of_nodup {left right : List α} (h : Twins left right) (hleft : left.Nodup)
    (hright : right.Nodup) : left = right := by
  have hend : ∀ {a b : List α}, a <+: b → (∀ x, x ∈ b → x ∈ a) → b.Nodup → a = b := by
    rintro a b ⟨ext, rfl⟩ hmem hnodup
    cases ext with
    | nil => rw [List.append_nil]
    | cons x ext =>
        exact absurd (hmem x (by simp)) fun hx =>
          (List.nodup_append.mp hnodup).2.2 x hx x List.mem_cons_self rfl
  rcases h.1 with hpre | hpre
  · exact hend hpre (fun x => (h.2 x).mpr) hright
  · exact (hend hpre (fun x => (h.2 x).mp) hleft).symm

theorem map_isPrefix_of_injOn {β : Type} {f : α → β} : ∀ {left right : List α},
    (∀ x ∈ left, ∀ y ∈ right, f x = f y → x = y) → left.map f <+: right.map f → left <+: right
  | [], _, _, _ => List.nil_prefix
  | x :: left, [], _, h => by simp at h
  | x :: left, y :: right, hinj, h => by
      rw [List.map_cons, List.map_cons, List.cons_prefix_cons] at h
      rw [List.cons_prefix_cons]
      exact ⟨hinj x List.mem_cons_self y List.mem_cons_self h.1,
        map_isPrefix_of_injOn (fun a ha b hb => hinj a (List.mem_cons_of_mem _ ha) b
          (List.mem_cons_of_mem _ hb)) h.2⟩

variable (parent) in
/-- Twin levels come from twin levels: the pairs below agree as far as both go. -/
theorem Twins.of_levelUp {left right : List α}
    (hinj : ∀ p ∈ neighbours (padded left), ∀ q ∈ neighbours (padded right),
      parent p.1 p.2 = parent q.1 q.2 → p = q)
    (h : Twins (levelUp parent left) (levelUp parent right)) : Twins left right := by
  have hpairs : ∀ {a b : List α}, (∀ p ∈ neighbours (padded a), ∀ q ∈ neighbours (padded b),
      parent p.1 p.2 = parent q.1 q.2 → p = q) → levelUp parent a <+: levelUp parent b →
      padded a <+: padded b := by
    intro a b hab hpre
    rw [padded_eq_flatMap a, padded_eq_flatMap b]
    exact (map_isPrefix_of_injOn hab hpre).flatMap _
  have hsub : ∀ {a b : List α}, (∀ p ∈ neighbours (padded a), ∀ q ∈ neighbours (padded b),
      parent p.1 p.2 = parent q.1 q.2 → p = q) →
      (∀ x, x ∈ levelUp parent a → x ∈ levelUp parent b) → ∀ x, x ∈ a → x ∈ b := by
    intro a b hab hmem x hx
    have hx' := mem_padded.mpr hx
    rw [padded_eq_flatMap a, List.mem_flatMap] at hx'
    obtain ⟨p, hp, hxp⟩ := hx'
    obtain ⟨q, hq, heq⟩ := mem_levelUp.mp (hmem _ (mem_levelUp.mpr ⟨p, hp, rfl⟩))
    rw [← mem_padded, padded_eq_flatMap b, List.mem_flatMap]
    exact ⟨q, hq, hab p hp q hq heq.symm ▸ hxp⟩
  have hinj' : ∀ p ∈ neighbours (padded right), ∀ q ∈ neighbours (padded left),
      parent p.1 p.2 = parent q.1 q.2 → p = q := fun p hp q hq heq => (hinj q hq p hp heq.symm).symm
  refine ⟨?_, fun x => ⟨hsub hinj (fun y => (h.2 y).mp) x, hsub hinj' (fun y => (h.2 y).mpr) x⟩⟩
  -- both levels are initial segments of the longer padded level
  rcases h.1 with hpre | hpre
  · exact List.prefix_or_prefix_of_prefix ((isPrefix_padded left).trans (hpairs hinj hpre))
      (isPrefix_padded right)
  · exact List.prefix_or_prefix_of_prefix (isPrefix_padded left)
      ((isPrefix_padded right).trans (hpairs hinj' hpre))

variable (parent zero) in
/-- A leaf that is no parent of a hashed pair is not the root over several leaves. -/
theorem leaf_ne_root {level : List α} (hlen : 1 < level.length) {x : α}
    (hleaf : ∀ p ∈ nodes parent level, x ≠ parent p.1 p.2) : x ≠ root parent zero level := by
  obtain ⟨p, hp, heq⟩ := root_mem_nodes parent zero hlen
  rw [heq]
  exact hleaf p hp

theorem nodes_levelUp_subset {level : List α} (hlen : 1 < level.length) :
    nodes parent (levelUp parent level) ⊆ nodes parent level := by
  rw [nodes_eq_levelUp parent hlen]
  exact List.subset_append_right _ _

/-- A node of the level above is the parent of a hashed pair that starts with a leaf. -/
theorem exists_of_mem_levelUp {level : List α} (hlen : 1 < level.length) {x : α} (hx : x ∈ levelUp parent level) :
    ∃ p ∈ nodes parent level, p.1 ∈ level ∧ x = parent p.1 p.2 := by
  obtain ⟨p, hp, heq⟩ := mem_levelUp.mp hx
  refine ⟨p, ?_, mem_padded.mp (fst_mem_of_mem_neighbours hp), heq.symm⟩
  rw [nodes_eq_levelUp parent hlen]
  exact List.mem_append_left _ hp

/-- Above the leaves every hashed pair starts with a parent. -/
theorem fst_of_mem_nodes_levelUp {level : List α} (hlen : 1 < level.length) {p : α × α}
    (hp : p ∈ nodes parent (levelUp parent level)) : ∃ below ∈ nodes parent level, p.1 = parent below.1 below.2 := by
  rcases fst_of_mem_nodes hp with hnode | ⟨below, hbelow, heq⟩
  · obtain ⟨below, hbelow, -, heq⟩ := exists_of_mem_levelUp hlen hnode
    exact ⟨below, hbelow, heq⟩
  · exact ⟨below, nodes_levelUp_subset hlen hbelow, heq⟩

/-- **The root determines the leaves up to repetition**, when distinct hashed pairs have distinct
parents and no leaf is the parent of a hashed pair. -/
theorem twins_of_root_eq {left right : List α} (hleft : left ≠ []) (hright : right ≠ [])
    (hinj : ∀ p ∈ nodes parent left ++ nodes parent right,
      ∀ q ∈ nodes parent left ++ nodes parent right, parent p.1 p.2 = parent q.1 q.2 → p = q)
    (hleaf : ∀ x ∈ left ++ right, ∀ p ∈ nodes parent left ++ nodes parent right,
      x ≠ parent p.1 p.2)
    (hroot : root parent zero left = root parent zero right) : Twins left right := by
  induction hsize : left.length using Nat.strong_induction_on generalizing left right with
  | _ size ih =>
      have hl := List.length_pos_iff.mpr hleft
      have hr := List.length_pos_iff.mpr hright
      by_cases hl1 : 1 < left.length
      · by_cases hr1 : 1 < right.length
        · have hup : nodes parent (levelUp parent left) ++ nodes parent (levelUp parent right) ⊆
              nodes parent left ++ nodes parent right :=
            List.append_subset.mpr ⟨List.Subset.trans (nodes_levelUp_subset hl1) (List.subset_append_left _ _),
              List.Subset.trans (nodes_levelUp_subset hr1) (List.subset_append_right _ _)⟩
          have hleaf' : ∀ x ∈ levelUp parent left ++ levelUp parent right,
              ∀ p ∈ nodes parent (levelUp parent left) ++ nodes parent (levelUp parent right),
                x ≠ parent p.1 p.2 := by
            -- a node one level up that is a parent higher up would make a leaf a parent
            intro x hx p hp heq
            obtain ⟨q, hq, hfst, hxq⟩ : ∃ q ∈ nodes parent left ++ nodes parent right,
                q.1 ∈ left ++ right ∧ x = parent q.1 q.2 := by
              rcases List.mem_append.mp hx with hx | hx
              · obtain ⟨q, hq, hfst, hxq⟩ := exists_of_mem_levelUp hl1 hx
                exact ⟨q, List.mem_append_left _ hq, List.mem_append_left _ hfst, hxq⟩
              · obtain ⟨q, hq, hfst, hxq⟩ := exists_of_mem_levelUp hr1 hx
                exact ⟨q, List.mem_append_right _ hq, List.mem_append_right _ hfst, hxq⟩
            obtain ⟨below, hbelow, hb⟩ : ∃ below ∈ nodes parent left ++ nodes parent right,
                p.1 = parent below.1 below.2 := by
              rcases List.mem_append.mp hp with hp | hp
              · obtain ⟨below, hbelow, hb⟩ := fst_of_mem_nodes_levelUp hl1 hp
                exact ⟨below, List.mem_append_left _ hbelow, hb⟩
              · obtain ⟨below, hbelow, hb⟩ := fst_of_mem_nodes_levelUp hr1 hp
                exact ⟨below, List.mem_append_right _ hbelow, hb⟩
            have hqp : q = p := hinj q hq p (hup hp) (hxq ▸ heq)
            exact hleaf q.1 hfst below hbelow (hqp ▸ hb)
          have habove : Twins (levelUp parent left) (levelUp parent right) := by
            refine ih _ ?_ ?_ ?_ (fun p hp q hq => hinj p (hup hp) q (hup hq)) hleaf' ?_ rfl
            · rw [length_levelUp]; omega
            · exact List.length_pos_iff.mp (by rw [length_levelUp]; omega)
            · exact List.length_pos_iff.mp (by rw [length_levelUp]; omega)
            · rwa [root_eq_levelUp hl1, root_eq_levelUp hr1] at hroot
          refine Twins.of_levelUp parent (fun p hp q hq => hinj p ?_ q ?_) habove
          · rw [nodes_eq_levelUp parent hl1]; simp [hp]
          · rw [nodes_eq_levelUp parent hr1]; simp [hq]
        · obtain ⟨y, rfl⟩ := List.length_eq_one_iff.mp (show right.length = 1 by omega)
          refine absurd hroot.symm (leaf_ne_root parent zero hl1 fun p hp => ?_)
          exact hleaf y (List.mem_append_right _ (List.mem_singleton.mpr rfl)) p (List.mem_append_left _ hp)
      · obtain ⟨x, rfl⟩ := List.length_eq_one_iff.mp (show left.length = 1 by omega)
        by_cases hr1 : 1 < right.length
        · refine absurd hroot (leaf_ne_root parent zero hr1 fun p hp => ?_)
          exact hleaf x (List.mem_append_left _ (List.mem_singleton.mpr rfl)) p (List.mem_append_right _ hp)
        · obtain ⟨y, rfl⟩ := List.length_eq_one_iff.mp (show right.length = 1 by omega)
          rw [root_singleton, root_singleton] at hroot
          rw [hroot]
          exact ⟨Or.inl (List.prefix_refl _), fun _ => Iff.rfl⟩

end HashTree
