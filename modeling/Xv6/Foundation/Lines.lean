import Mathlib.Tactic

/-!
# Lines

`cut sep s` splits a text into its lines, each without the separator that ends it, and what
follows the last separator. It can be computed part by part: what is left of one part is put
in front of the next.
-/

namespace Foundation

universe u

variable {α : Type u}

/-- The text of these lines, each with the separator behind it. -/
def unlines (sep : α) (ls : List (List α)) : List α :=
  ls.flatMap (· ++ [sep])

@[simp] theorem unlines_nil {sep : α} : unlines sep [] = [] := rfl

theorem unlines_cons {sep : α} {l : List α} {ls : List (List α)} :
    unlines sep (l :: ls) = l ++ sep :: unlines sep ls := by
  simp [unlines]

theorem unlines_append {sep : α} {ls ls' : List (List α)} :
    unlines sep (ls ++ ls') = unlines sep ls ++ unlines sep ls' :=
  List.flatMap_append

variable [DecidableEq α]

/-- The lines of a text and what follows the last of them. -/
def cut (sep : α) : List α → List (List α) × List α
  | [] => ([], [])
  | a :: s =>
      if a = sep then ([] :: (cut sep s).1, (cut sep s).2)
      else match (cut sep s).1 with
        | [] => ([], a :: (cut sep s).2)
        | l :: ls => ((a :: l) :: ls, (cut sep s).2)

section Cut

variable {sep : α} {s t : List α}

theorem cut_sep : cut sep (sep :: s) = ([] :: (cut sep s).1, (cut sep s).2) := by
  rw [cut, if_pos rfl]

/-- A text without separators is not a line yet. -/
theorem cut_of_not_mem (h : sep ∉ s) : cut sep s = ([], s) := by
  induction s with
  | nil => rfl
  | cons a s ih =>
      obtain ⟨hne, hs⟩ := List.ne_and_not_mem_of_not_mem_cons h
      rw [cut, if_neg (Ne.symm hne), ih hs]

theorem cut_line {l : List α} (h : sep ∉ l) :
    cut sep (l ++ sep :: s) = (l :: (cut sep s).1, (cut sep s).2) := by
  induction l with
  | nil => exact cut_sep
  | cons a l ih =>
      obtain ⟨hne, hl⟩ := List.ne_and_not_mem_of_not_mem_cons h
      rw [List.cons_append, cut, if_neg (Ne.symm hne), ih hl]

/-- The lines of a text of lines. -/
theorem cut_unlines {ls : List (List α)} (h : ∀ l ∈ ls, sep ∉ l) :
    cut sep (unlines sep ls ++ s) = (ls ++ (cut sep s).1, (cut sep s).2) := by
  induction ls with
  | nil => rfl
  | cons l ls ih =>
      rw [unlines_cons, List.append_assoc, List.cons_append, cut_line (h l List.mem_cons_self),
        ih fun l hl => h l (List.mem_cons_of_mem _ hl)]
      rfl

theorem cut_spec (sep : α) (s : List α) : unlines sep (cut sep s).1 ++ (cut sep s).2 = s ∧
    (∀ l ∈ (cut sep s).1, sep ∉ l) ∧ sep ∉ (cut sep s).2 := by
  induction s with
  | nil => simp [cut]
  | cons a s ih =>
      obtain ⟨htext, hlines, hrest⟩ := ih
      by_cases ha : a = sep
      · subst ha
        rw [cut_sep, unlines_cons]
        refine ⟨by rw [List.nil_append, List.cons_append, htext], fun l hl => ?_, hrest⟩
        rcases List.mem_cons.mp hl with rfl | hl
        · exact List.not_mem_nil
        · exact hlines l hl
      · rw [cut, if_neg ha]
        cases hcut : (cut sep s).1 with
        | nil =>
            rw [hcut] at htext
            exact ⟨congrArg (a :: ·) htext, by simp, by simp [Ne.symm ha, hrest]⟩
        | cons l ls =>
            rw [hcut] at htext hlines
            rw [unlines_cons] at htext ⊢
            refine ⟨congrArg (a :: ·) htext, fun l' hl' => ?_, hrest⟩
            rcases List.mem_cons.mp hl' with rfl | hl'
            · exact List.not_mem_cons_of_ne_of_not_mem (Ne.symm ha) (hlines l List.mem_cons_self)
            · exact hlines l' (List.mem_cons_of_mem _ hl')

theorem unlines_cut : unlines sep (cut sep s).1 ++ (cut sep s).2 = s := (cut_spec sep s).1

theorem not_mem_line {l : List α} (h : l ∈ (cut sep s).1) : sep ∉ l := (cut_spec sep s).2.1 l h

theorem not_mem_rest : sep ∉ (cut sep s).2 := (cut_spec sep s).2.2

/-- A text can be cut part by part. -/
theorem cut_append : cut sep (s ++ t) =
    ((cut sep s).1 ++ (cut sep ((cut sep s).2 ++ t)).1, (cut sep ((cut sep s).2 ++ t)).2) := by
  calc cut sep (s ++ t)
      = cut sep (unlines sep (cut sep s).1 ++ ((cut sep s).2 ++ t)) := by
        rw [← List.append_assoc, unlines_cut]
    _ = _ := cut_unlines fun _ => not_mem_line

theorem cut_fst_eq_nil : (cut sep s).1 = [] ↔ sep ∉ s := by
  constructor
  · intro h hmem
    rw [← (cut_spec sep s).1, h, unlines_nil, List.nil_append] at hmem
    exact not_mem_rest hmem
  · intro h
    rw [cut_of_not_mem h]

theorem length_rest_le : (cut sep s).2.length ≤ s.length := by
  have hlength := congrArg List.length (cut_spec sep s).1
  rw [List.length_append] at hlength
  omega

/-- What follows the last line does not reach back over a separator. -/
theorem length_rest_lt (h : sep ∈ t) : (cut sep (s ++ t)).2.length < t.length := by
  obtain ⟨l, t', rfl, hl⟩ := List.eq_append_cons_of_mem h
  have hrest : sep ∉ (cut sep s).2 ++ l := fun hmem =>
    (List.mem_append.mp hmem).elim not_mem_rest hl
  rw [cut_append, ← List.append_assoc, cut_line hrest, List.length_append, List.length_cons]
  exact length_rest_le.trans_lt (by omega)

end Cut

/-- Of two texts that have their first separators in different places neither is the other. -/
theorem append_sep_ne {sep : α} {l u s t : List α} (hl : sep ∉ l) (hu : sep ∉ u)
    (hne : u ≠ []) : l ++ sep :: s ≠ u ++ (l ++ sep :: t) := fun h => by
  have hul : sep ∉ u ++ l := by
    rw [List.mem_append]
    exact not_or_intro hu hl
  have hcut := congrArg (fun s => (cut sep s).1.head?) h
  rw [← List.append_assoc] at hcut
  simp only [cut_line hl, cut_line hul, List.head?_cons, Option.some.injEq] at hcut
  exact hne (List.append_left_eq_self.mp hcut.symm)

end Foundation
