import Mathlib.Algebra.BigOperators.Fin
import Mathlib.Data.Fintype.Prod
import Mathlib.Tactic

/-!
# Tables of pointers

The cells of a finite table each hold a pointer or none. `pointers g a` is the number of
cells that point to `a`, which is what a reference count should be. A search for a free cell
from the start finds the lowest.
-/

namespace Foundation

variable {ι α : Type*} [Fintype ι] [DecidableEq α]

/-- The number of cells that point to `a`. -/
def pointers (g : ι → Option α) (a : α) : ℕ := (Finset.univ.filter fun i => g i = some a).card

variable {g : ι → Option α} {a : α}

theorem pointers_none : pointers (fun _ : ι => (none : Option α)) a = 0 := by
  simp [pointers]

theorem pointers_pos {i : ι} (h : g i = some a) : 0 < pointers g a :=
  Finset.card_pos.mpr ⟨i, Finset.mem_filter.mpr ⟨Finset.mem_univ i, h⟩⟩

/-- When one cell changes, the count changes by that cell only. -/
theorem pointers_update [DecidableEq ι] (i : ι) (v : Option α) :
    pointers (Function.update g i v) a + (if g i = some a then 1 else 0) =
      pointers g a + (if v = some a then 1 else 0) := by
  have hsum : ∀ g' : ι → Option α, pointers g' a =
      (if g' i = some a then 1 else 0) +
        ∑ j ∈ Finset.univ.erase i, if g' j = some a then 1 else 0 := fun g' => by
    rw [pointers, Finset.card_filter]
    exact (Finset.add_sum_erase _ (fun j => if g' j = some a then 1 else 0)
      (Finset.mem_univ i)).symm
  have hrest : ∑ j ∈ Finset.univ.erase i, (if Function.update g i v j = some a then 1 else 0) =
      ∑ j ∈ Finset.univ.erase i, if g j = some a then 1 else 0 := by
    refine Finset.sum_congr rfl fun j hj => ?_
    rw [Function.update_of_ne (Finset.ne_of_mem_erase hj)]
  rw [hsum (Function.update g i v), hsum g, hrest, Function.update_self]
  omega

/-- One cell points. -/
theorem pointers_single [DecidableEq ι] (i : ι) (b : α) :
    pointers (Function.update (fun _ => none) i (some b)) a = if b = a then 1 else 0 := by
  have hcount := pointers_update (g := fun _ : ι => (none : Option α)) (a := a) i (some b)
  rw [pointers_none, if_neg (fun hc => by cases hc), Nat.zero_add, Nat.add_zero] at hcount
  rw [hcount]
  exact if_congr Option.some_inj rfl rfl

structure Lowest {n : ℕ} (g : Fin n → Option α) (i : Fin n) : Prop where
  free : g i = none
  least : ∀ j < i, g j ≠ none

omit [DecidableEq α] in
theorem Lowest.of_find {n : ℕ} {g : Fin n → Option α} {i : Fin n} {q : Fin n → Bool}
    (hq : ∀ j, q j = true ↔ g j = none) (h : (List.finRange n).find? q = some i) :
    Lowest g i := by
  obtain ⟨hi, k, hk, hget, hbefore⟩ := List.find?_eq_some_iff_getElem.mp h
  refine ⟨(hq i).mp hi, fun j hlt hfree => ?_⟩
  have hj : j.val < k := by
    rw [← hget, List.getElem_finRange] at hlt
    exact hlt
  have hno := hbefore j.val hj
  rw [List.getElem_finRange] at hno
  simp [(hq _).mpr hfree] at hno

end Foundation
