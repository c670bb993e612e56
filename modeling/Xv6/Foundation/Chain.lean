import Mathlib.Tactic
import Mathlib.Logic.Function.Basic

/-!
# Singly linked lists

`Chain next h l` says that from the pointer `h` the field `next` leads through the nodes `l` to
a null pointer. A node is put at the end by a store through the last null pointer.
-/

namespace Foundation

universe u

variable {α : Type u}

def Chain (next : α → Option α) : Option α → List α → Prop
  | h, [] => h = none
  | h, a :: l => h = some a ∧ Chain next (next a) l

namespace Chain

variable {next : α → Option α} {h : Option α} {l : List α} {a b c : α}

theorem nil_iff : Chain next none l ↔ l = [] := by
  cases l with
  | nil => simp [Chain]
  | cons a l => simp [Chain]

theorem head (hc : Chain next h l) : h = l.head? := by
  cases l with
  | nil => exact hc
  | cons a l => exact hc.1

theorem tail (hc : Chain next h (a :: l)) : Chain next (next a) l := hc.2

/-- The next node of a node of the list is in the list. -/
theorem next_mem (hc : Chain next h l) (ha : a ∈ l) (hn : next a = some b) : b ∈ l := by
  induction l generalizing h with
  | nil => cases ha
  | cons c l ih =>
      rcases List.mem_cons.mp ha with rfl | ha
      · have htail := hc.tail
        rw [hn] at htail
        cases l with
        | nil => cases htail
        | cons d l =>
            rw [Option.some.inj htail.1]
            exact List.mem_cons_of_mem _ List.mem_cons_self
      · exact List.mem_cons_of_mem _ (ih hc.tail ha)

variable [DecidableEq α]

/-- Links of other nodes do not matter. -/
theorem update (hc : Chain next h l) {x : Option α} (hb : b ∉ l) :
    Chain (Function.update next b x) h l := by
  induction l generalizing h with
  | nil => exact hc
  | cons a l ih =>
      obtain ⟨hne, hb⟩ := List.ne_and_not_mem_of_not_mem_cons hb
      refine ⟨hc.1, ?_⟩
      rw [Function.update_of_ne (Ne.symm hne)]
      exact ih hc.2 hb

/-- A node is linked behind the last one. -/
theorem append (hc : Chain next h l) (hnodup : l.Nodup) (ha : a ∈ l) (hlast : next a = none)
    (hb : b ∉ l) (hnone : next b = none) :
    Chain (Function.update next a (some b)) h (l ++ [b]) := by
  induction l generalizing h with
  | nil => cases ha
  | cons c l ih =>
      obtain ⟨hc', hnodup⟩ := List.nodup_cons.mp hnodup
      obtain ⟨hne, hb⟩ := List.ne_and_not_mem_of_not_mem_cons hb
      by_cases hac : a = c
      · subst hac
        have hnil : l = [] := by
          have htail := hc.tail
          rwa [hlast, nil_iff] at htail
        subst hnil
        refine ⟨hc.1, ?_⟩
        rw [Function.update_self]
        refine ⟨rfl, ?_⟩
        rw [Function.update_of_ne hne]
        exact hnone
      · refine ⟨hc.1, ?_⟩
        rw [Function.update_of_ne (Ne.symm hac)]
        exact ih hc.tail hnodup ((List.mem_cons.mp ha).resolve_left hac) hb

end Chain

end Foundation
