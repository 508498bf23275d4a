import Mathlib

/-! Double-entry bookkeeping over an arbitrary type of parties. Value is created by `mint` and moved
by `move`; what a party holds is what it received less what it spent. As long as nobody has spent
more than it received, the holdings of any set of parties that includes everybody named add up to
the value created, and so no one party, and no two together, hold more than that. -/

namespace Books

variable {A : Type} [DecidableEq A]

inductive Entry (A : Type) where
  | mint (dst : A) (value : ℕ)
  | move (src dst : A) (value : ℕ)
  | note (src : A)

namespace Entry

def receivedBy (a : A) : Entry A → ℕ
  | mint dst value => if dst = a then value else 0
  | move _ dst value => if dst = a then value else 0
  | note _ => 0

def spentBy (a : A) : Entry A → ℕ
  | move src _ value => if src = a then value else 0
  | _ => 0

def created : Entry A → ℕ
  | mint _ value => value
  | _ => 0

def parties : Entry A → Finset A
  | mint dst _ => {dst}
  | move src dst _ => {src, dst}
  | note src => {src}

end Entry

def received (es : List (Entry A)) (a : A) : ℕ := (es.map (Entry.receivedBy a)).sum
def spent (es : List (Entry A)) (a : A) : ℕ := (es.map (Entry.spentBy a)).sum
def minted (es : List (Entry A)) : ℕ := (es.map Entry.created).sum

def parties : List (Entry A) → Finset A
  | [] => ∅
  | e :: es => e.parties ∪ parties es

/-- Nobody has spent more than it received. -/
def Covered (es : List (Entry A)) : Prop := ∀ a, spent es a ≤ received es a

def held (es : List (Entry A)) (a : A) : ℕ := received es a - spent es a

theorem received_snoc (es : List (Entry A)) (e : Entry A) (a : A) :
    received (es ++ [e]) a = received es a + e.receivedBy a := by simp [received]

theorem spent_snoc (es : List (Entry A)) (e : Entry A) (a : A) :
    spent (es ++ [e]) a = spent es a + e.spentBy a := by simp [spent]

omit [DecidableEq A] in
theorem minted_snoc (es : List (Entry A)) (e : Entry A) : minted (es ++ [e]) = minted es + e.created := by
  simp [minted]

/-- One entry gives as much as it takes and creates. -/
theorem sum_entry (e : Entry A) (S : Finset A) (hS : e.parties ⊆ S) :
    ∑ a ∈ S, e.receivedBy a = ∑ a ∈ S, e.spentBy a + e.created := by
  cases e with
  | mint dst value =>
      have hdst : dst ∈ S := hS (by simp [Entry.parties])
      simp [Entry.receivedBy, Entry.spentBy, Entry.created, hdst]
  | move src dst value =>
      have hsrc : src ∈ S := hS (by simp [Entry.parties])
      have hdst : dst ∈ S := hS (by simp [Entry.parties])
      simp [Entry.receivedBy, Entry.spentBy, Entry.created, hsrc, hdst]
  | note src => simp [Entry.receivedBy, Entry.spentBy, Entry.created]

theorem sum_received (es : List (Entry A)) (S : Finset A) (hS : parties es ⊆ S) :
    ∑ a ∈ S, received es a = ∑ a ∈ S, spent es a + minted es := by
  induction es with
  | nil => simp [received, spent, minted]
  | cons e es ih =>
      have hhead := sum_entry e S (Finset.union_subset_left hS)
      have htail := ih (Finset.union_subset_right hS)
      simp only [received, spent, minted, List.map_cons, List.sum_cons, Finset.sum_add_distrib] at htail ⊢
      omega

/-- **The holdings add up to the value created.** -/
theorem sum_held {es : List (Entry A)} (hcov : Covered es) (S : Finset A) (hS : parties es ⊆ S) :
    ∑ a ∈ S, held es a = minted es := by
  have hsum : ∑ a ∈ S, held es a + ∑ a ∈ S, spent es a = ∑ a ∈ S, received es a := by
    rw [← Finset.sum_add_distrib]
    exact Finset.sum_congr rfl fun a _ => Nat.sub_add_cancel (hcov a)
  have := sum_received es S hS
  omega

theorem held_le_minted {es : List (Entry A)} (hcov : Covered es) (a : A) : held es a ≤ minted es := by
  rw [← sum_held hcov (insert a (parties es)) (Finset.subset_insert _ _)]
  exact Finset.single_le_sum (fun _ _ => Nat.zero_le _) (Finset.mem_insert_self _ _)

theorem held_add_held_le_minted {es : List (Entry A)} (hcov : Covered es) {a b : A} (hne : a ≠ b) :
    held es a + held es b ≤ minted es := by
  rw [← sum_held hcov ({a, b} ∪ parties es) Finset.subset_union_right, ← Finset.sum_pair hne]
  exact Finset.sum_le_sum_of_subset Finset.subset_union_left

end Books
