import Mathlib.Data.List.Basic
import Mathlib.Data.Nat.Init

/-! Hashing block by block. A message is cut into blocks of a fixed size, the state is folded over them, and what
is left over waits for more. -/

namespace Chainlite

namespace Blocks

variable {α σ : Type} (size : Nat)

/-- The whole blocks at the start of a message. -/
def whole (message : List α) : List (List α) :=
  (List.range (message.length / size)).map fun i => (message.drop (i * size)).take size

/-- What is left over behind the whole blocks. -/
def rest (message : List α) : List α := message.drop (message.length / size * size)

/-- The state after the whole blocks of a message. -/
def state (step : σ → List α → σ) (init : σ) (message : List α) : σ := (whole size message).foldl step init

theorem length_rest (message : List α) : (rest size message).length = message.length % size := by
  rw [rest, List.length_drop, Nat.mod_eq_sub, Nat.mul_comm]

variable {size}

theorem rest_length_lt (hsize : 0 < size) (message : List α) : (rest size message).length < size := by
  rw [length_rest]
  exact Nat.mod_lt _ hsize

theorem whole_short {message : List α} (h : message.length < size) : whole size message = [] := by
  rw [whole, Nat.div_eq_of_lt h]
  rfl

theorem rest_short {message : List α} (h : message.length < size) : rest size message = message := by
  rw [rest, Nat.div_eq_of_lt h, Nat.zero_mul, List.drop_zero]

theorem whole_cons (hsize : 0 < size) {block : List α} (h : block.length = size) (message : List α) :
    whole size (block ++ message) = block :: whole size message := by
  have hcount : (block ++ message).length / size = message.length / size + 1 := by
    rw [List.length_append, h, Nat.add_comm, Nat.add_div_right _ hsize]
  rw [whole, hcount, List.range_succ_eq_map, List.map_cons, List.map_map, Nat.zero_mul, List.drop_zero,
    List.take_left' h]
  apply congrArg
  apply List.map_congr_left
  intro i hi
  have hskip : (i + 1) * size = block.length + i * size := by
    rw [h, Nat.add_mul, Nat.one_mul, Nat.add_comm]
  rw [Function.comp_apply, Nat.succ_eq_add_one, hskip, ← List.drop_drop, List.drop_left]

theorem rest_cons (hsize : 0 < size) {block : List α} (h : block.length = size) (message : List α) :
    rest size (block ++ message) = rest size message := by
  have hskip : (block ++ message).length / size * size = block.length + message.length / size * size := by
    rw [List.length_append, h, Nat.add_comm, Nat.add_div_right _ hsize, Nat.succ_mul, Nat.add_comm]
  rw [rest, hskip, ← List.drop_drop, List.drop_left, rest]

variable (step : σ → List α → σ) (init : σ)

theorem state_cons (hsize : 0 < size) {block : List α} (h : block.length = size) (message : List α) :
    state size step init (block ++ message) = state size step (step init block) message := by
  rw [state, whole_cons hsize h, List.foldl_cons, state]

/-- **More bytes come after a message**: they are taken together with what was left over. -/
theorem state_append (hsize : 0 < size) (message more : List α) :
    state size step init (message ++ more) =
        state size step (state size step init message) (rest size message ++ more) ∧
      rest size (message ++ more) = rest size (rest size message ++ more) := by
  induction hlen : message.length using Nat.strongRecOn generalizing message init with
  | ind n ih =>
      by_cases hshort : message.length < size
      · rw [rest_short hshort, state.eq_1 size step init message, whole_short hshort]
        exact ⟨rfl, rfl⟩
      · have hblock : (message.take size).length = size := List.length_take_of_le (Nat.not_lt.mp hshort)
        obtain ⟨hstate, hrest⟩ := ih (message.drop size).length (by rw [List.length_drop]; omega)
          (step init (message.take size)) (message.drop size) rfl
        rw [← List.take_append_drop size message, List.append_assoc, state_cons step _ hsize hblock,
          state_cons step _ hsize hblock, rest_cons hsize hblock, rest_cons hsize hblock]
        exact ⟨hstate, hrest⟩

theorem state_short {message : List α} (h : message.length < size) : state size step init message = init := by
  rw [state, whole_short h]
  rfl

theorem state_block (hsize : 0 < size) {block : List α} (h : block.length = size) :
    state size step init block = step init block ∧ rest size block = [] := by
  have hstate := state_cons step init hsize h []
  have hrest := rest_cons hsize h []
  rw [List.append_nil] at hstate hrest
  rw [hstate, hrest, state_short step _ hsize, rest_short hsize]
  exact ⟨rfl, rfl⟩

end Blocks

end Chainlite
