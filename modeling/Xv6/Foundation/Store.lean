import Mathlib.Tactic
import Mathlib.Logic.Function.Basic

/-!
# Stores through a translation

`storeAt place a bs g` is the memory `g` after the values `bs` have been stored, one after
the other, at the addresses from `a` on, where `place` translates an address. Where no two
of the addresses have the same place, each of them holds its value afterwards.
-/

namespace Foundation

variable {α β : Type*} [DecidableEq α] {place place' : ℕ → α} {a i : ℕ} {bs cs : List β}
  {g : α → β}

/-- The values are stored one after the other. -/
def storeAt (place : ℕ → α) : ℕ → List β → (α → β) → α → β
  | _, [], g => g
  | a, b :: bs, g => storeAt place (a + 1) bs (Function.update g (place a) b)

@[simp] theorem storeAt_nil : storeAt place a [] g = g := rfl

theorem storeAt_cons {b : β} : storeAt place a (b :: bs) g =
    storeAt place (a + 1) bs (Function.update g (place a) b) := rfl

/-- Storing in two parts. -/
theorem storeAt_append :
    storeAt place a (bs ++ cs) g = storeAt place (a + bs.length) cs (storeAt place a bs g) := by
  induction bs generalizing a g with
  | nil => rfl
  | cons b bs ih =>
      rw [List.cons_append, storeAt_cons, ih, storeAt_cons, List.length_cons,
        Nat.add_right_comm, Nat.add_assoc]

/-- A place that is not stored to. -/
theorem storeAt_of_ne {x : α} (h : ∀ i < bs.length, place (a + i) ≠ x) :
    storeAt place a bs g x = g x := by
  induction bs generalizing a g with
  | nil => rfl
  | cons b bs ih =>
      rw [storeAt_cons, ih fun i hi => ?_]
      · exact Function.update_of_ne (h 0 (Nat.succ_pos _)).symm _ _
      · have hnext := h (i + 1) (Nat.succ_lt_succ hi)
        rwa [Nat.add_comm i, ← Nat.add_assoc] at hnext

/-- A place that nothing else is stored to afterwards. -/
theorem storeAt_place (hi : i < bs.length)
    (h : ∀ j < bs.length, place (a + j) = place (a + i) → j = i) :
    storeAt place a bs g (place (a + i)) = bs[i] := by
  induction bs generalizing a g i with
  | nil => exact absurd hi (Nat.not_lt_zero i)
  | cons b bs ih =>
      rw [storeAt_cons]
      cases i with
      | zero =>
          rw [storeAt_of_ne fun j hj heq => ?_]
          · exact Function.update_self ..
          · rw [Nat.add_assoc, Nat.add_comm 1] at heq
            exact absurd (h (j + 1) (Nat.succ_lt_succ hj) heq) (Nat.succ_ne_zero j)
      | succ i =>
          have hlt : i < bs.length := Nat.lt_of_succ_lt_succ hi
          have hplace : place (a + (i + 1)) = place (a + 1 + i) := by
            rw [Nat.add_assoc, Nat.add_comm 1]
          rw [hplace, List.getElem_cons_succ]
          refine ih hlt fun j hj heq => ?_
          have hnext := h (j + 1) (Nat.succ_lt_succ hj) (by
            rw [hplace, ← heq, Nat.add_assoc, Nat.add_comm 1])
          exact Nat.succ_inj.mp hnext

/-- Values are stored at any addresses, one after the other. -/
def storeAll (place : ℕ → α) : List (ℕ × β) → (α → β) → α → β
  | [], g => g
  | w :: ws, g => storeAll place ws (Function.update g (place w.1) w.2)

/-- A place that none of the stores is to. -/
theorem storeAll_of_ne {ws : List (ℕ × β)} {x : α} (h : ∀ w ∈ ws, place w.1 ≠ x) :
    storeAll place ws g x = g x := by
  induction ws generalizing g with
  | nil => rfl
  | cons w ws ih =>
      obtain ⟨hw, hws⟩ := List.forall_mem_cons.mp h
      rw [storeAll, ih hws]
      exact Function.update_of_ne hw.symm _ _

end Foundation
