import Mathlib.Data.List.TakeWhile

/-!
# Fields between separators

The fields of a list are what lies between the runs of separators. The first field and the
list behind it are found by skipping separators, then a field, then separators again.
-/

namespace Foundation

variable {α : Type*} {sep : α → Bool} {a : α} {l : List α}

def fields (sep : α → Bool) (l : List α) : List (List α) :=
  (l.splitOnP sep).filter fun f => !f.isEmpty

theorem fields_nil : fields sep [] = [] := rfl

theorem fields_sep (h : sep a = true) : fields sep (a :: l) = fields sep l := by
  rw [fields, List.splitOnP_cons_eq_if_modifyHead, if_pos h, List.filter_cons_of_neg (by simp)]
  rfl

/-- Separators before the first field do not count. -/
theorem fields_dropWhile : fields sep (l.dropWhile sep) = fields sep l := by
  induction l with
  | nil => rfl
  | cons a l ih =>
      by_cases h : sep a = true
      · rw [List.dropWhile_cons_of_pos h, ih, fields_sep h]
      · rw [List.dropWhile_cons_of_neg h]

/-- The first field, and the list behind it. -/
theorem fields_cons (h : sep a = false) :
    fields sep (a :: l) =
      (a :: l).takeWhile (fun b => !sep b) :: fields sep ((a :: l).dropWhile fun b => !sep b) := by
  have hall := List.takeWhile_append_dropWhile (p := fun b => !sep b) (l := a :: l)
  have hfirst : ∀ b ∈ (a :: l).takeWhile (fun b => !sep b), sep b = false := fun b hb => by
    simpa using List.mem_takeWhile_imp hb
  have hne : ((a :: l).takeWhile fun b => !sep b).isEmpty = false := by
    rw [List.takeWhile_cons_of_pos (by rw [h]; rfl)]
    rfl
  cases hrest : (a :: l).dropWhile fun b => !sep b with
  | nil =>
      rw [hrest, List.append_nil] at hall
      rw [hall] at hfirst hne
      rw [fields, List.splitOnP_eq_singleton hfirst, hall, fields_nil,
        List.filter_cons_of_pos (by rw [hne]; rfl), List.filter_nil]
  | cons b rest =>
      have hb : sep b = true := by
        have hhead := List.head_dropWhile_not (fun b => !sep b) (by rw [hrest]; simp)
        simpa [hrest] using hhead
      rw [hrest] at hall
      rw [fields_sep hb, fields, ← hall, List.splitOnP_append_cons_of_forall_mem hfirst b hb, hall,
        List.filter_cons_of_pos (by rw [hne]; rfl)]
      rfl

/-- A list that does not begin with a separator has a field, unless it is empty. -/
theorem fields_eq_nil (h : ∀ b ∈ l.head?, sep b = false) : fields sep l = [] ↔ l = [] := by
  cases l with
  | nil => exact iff_of_true fields_nil rfl
  | cons a l =>
      rw [fields_cons (h a rfl)]
      exact iff_of_false (by simp) (by simp)

end Foundation
