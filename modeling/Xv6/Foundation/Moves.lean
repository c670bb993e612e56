import Mathlib.Tactic
import Mathlib.Logic.Function.Basic

/-!
# Moves in a memory

A move `(a, b)` stores at `a` what `b` holds at that moment. A list of moves is made in its
order. Where no move stores at an address that a later one uses, the order makes no
difference: each address stored to has what its source held before them all. A copy in
ascending order onto a range that begins inside its source repeats the beginning of the
source instead.
-/

namespace Foundation

variable {α β : Type*} {ps qs : List (α × α)} {p : α × α} {g : α → β}
  {x : α} {a dst src : ℕ → α} {i j k n : ℕ}

section Moves

variable [DecidableEq α]

/-- The moves are made one after the other. -/
def moves : List (α × α) → (α → β) → α → β
  | [], g => g
  | p :: ps, g => moves ps (Function.update g p.1 (g p.2))

@[simp] theorem moves_nil : moves [] g = g := rfl

theorem moves_cons : moves (p :: ps) g = moves ps (Function.update g p.1 (g p.2)) := rfl

theorem moves_append : moves (ps ++ qs) g = moves qs (moves ps g) := by
  induction ps generalizing g with
  | nil => rfl
  | cons p ps ih => rw [List.cons_append, moves_cons, moves_cons, ih]

/-- An address that no move stores at. -/
theorem moves_of_ne (h : ∀ p ∈ ps, p.1 ≠ x) : moves ps g x = g x := by
  induction ps generalizing g with
  | nil => rfl
  | cons p ps ih =>
      obtain ⟨hp, hps⟩ := List.forall_mem_cons.mp h
      rw [moves_cons, ih hps]
      exact Function.update_of_ne hp.symm _ _

/-- No move stores at an address that a later one uses. -/
def Clear (ps : List (α × α)) : Prop := ps.Pairwise fun p q => p.1 ≠ q.2 ∧ p.1 ≠ q.1

/-- Where no move spoils a later one, each address gets what its source held at first. -/
theorem Clear.moves (h : Clear ps) (hp : p ∈ ps) : moves ps g p.1 = g p.2 := by
  induction ps generalizing g with
  | nil => exact absurd hp List.not_mem_nil
  | cons q ps ih =>
      obtain ⟨hq, hps⟩ := List.pairwise_cons.mp h
      rw [moves_cons]
      cases List.mem_cons.mp hp with
      | inl heq =>
          rw [heq, moves_of_ne fun r hr => (hq r hr).2.symm]
          exact Function.update_self ..
      | inr hmem =>
          rw [ih hps hmem]
          exact Function.update_of_ne (hq p hmem).1.symm _ _

end Moves

/-! ### Copies of a range -/

/-- The moves from `src 0`, `src 1`, … to `dst 0`, `dst 1`, …, in ascending order. -/
def ascending (dst src : ℕ → α) (n : ℕ) : List (α × α) :=
  (List.range n).map fun i => (dst i, src i)

theorem mem_ascending : p ∈ ascending dst src n ↔ ∃ i < n, (dst i, src i) = p := by
  simp [ascending]

theorem ascending_succ : ascending dst src (n + 1) =
    (dst 0, src 0) :: ascending (fun i => dst (i + 1)) (fun i => src (i + 1)) n := by
  rw [ascending, List.range_succ_eq_map, List.map_cons, List.map_map]
  rfl

theorem ascending_concat :
    ascending dst src (n + 1) = ascending dst src n ++ [(dst n, src n)] := by
  rw [ascending, List.range_succ, List.map_append]
  rfl

/-- Upwards, no store may be at a later source. -/
theorem clear_ascending (hsrc : ∀ i j, i < j → j < n → dst i ≠ src j)
    (hdst : ∀ i j, i < j → j < n → dst i ≠ dst j) : Clear (ascending dst src n) := by
  refine List.pairwise_map.mpr (List.pairwise_lt_range.imp_of_mem fun _ hj hlt => ?_)
  have hn := List.mem_range.mp hj
  exact ⟨hsrc _ _ hlt hn, hdst _ _ hlt hn⟩

/-- Downwards, no store may be at an earlier source. -/
theorem clear_descending (hsrc : ∀ i j, i < j → j < n → dst j ≠ src i)
    (hdst : ∀ i j, i < j → j < n → dst i ≠ dst j) :
    Clear (ascending dst src n).reverse := by
  refine List.pairwise_reverse.mpr (List.pairwise_map.mpr
    (List.pairwise_lt_range.imp_of_mem fun _ hj hlt => ?_))
  have hn := List.mem_range.mp hj
  exact ⟨hsrc _ _ hlt hn, (hdst _ _ hlt hn).symm⟩

/-- Copied upwards by `k > 0` places, the first `k` values are repeated. -/
theorem moves_shift [DecidableEq α] (ha : ∀ i j, i < j → j < n + k → a i ≠ a j) (hk : 0 < k)
    (hj : j < n + k) :
    moves (ascending (fun i => a (i + k)) a n) g (a j) = g (a (j % k)) := by
  induction n generalizing j with
  | zero =>
      rw [Nat.zero_add] at hj
      rw [Nat.mod_eq_of_lt hj]
      rfl
  | succ n ih =>
      have ih := fun j => ih (j := j) fun i l hil hl => ha i l hil (by omega)
      rw [ascending_concat, moves_append, moves_cons, moves_nil]
      by_cases heq : j = n + k
      · rw [heq, Function.update_self, ih n (by omega), Nat.add_mod_right]
      · have hlt : j < n + k := by omega
        rw [Function.update_of_ne (ha j (n + k) hlt (by omega)), ih j hlt]

/-- The repetition is the copy exactly where the source has period `k`. -/
theorem forall_mod_iff {f : ℕ → β} :
    (∀ i < n, f ((i + k) % k) = f i) ↔ ∀ i, i + k < n → f (i + k) = f i := by
  have hmod : ∀ i, (i + k) % k = i % k := fun i => Nat.add_mod_right i k
  constructor
  · intro h i hi
    rw [← h (i + k) hi, ← h i (by omega), hmod, hmod]
  · intro h i hi
    rw [hmod]
    induction i using Nat.strongRec with
    | ind i ih =>
        by_cases hlt : i < k
        · rw [Nat.mod_eq_of_lt hlt]
        · have hle : k ≤ i := Nat.le_of_not_lt hlt
          by_cases hk : k = 0
          · rw [hk, Nat.mod_zero]
          · have hprev := ih (i - k) (by omega) (by omega)
            have hstep := h (i - k) (by omega)
            rw [Nat.sub_add_cancel hle] at hstep
            rw [hstep, ← hprev, Nat.mod_eq_sub_mod hle]

end Foundation
