import Mathlib.Computability.Language

/-!
# Words of one letter

The language of the one-letter words with a letter in a given set, in a product and in a
star.
-/

open scoped Computability

namespace Foundation

variable {α : Type*} {S : Set α} {L : Language α} {w : List α}

/-- The words of one letter in `S`. -/
def letters (S : Set α) : Language α := {w | ∃ x ∈ S, w = [x]}

theorem mem_letters_mul : w ∈ letters S * L ↔ ∃ x u, x ∈ S ∧ u ∈ L ∧ w = x :: u := by
  rw [Language.mem_mul]
  constructor
  · rintro ⟨_, ⟨x, hx, rfl⟩, u, hu, rfl⟩
    exact ⟨x, u, hx, hu, rfl⟩
  · rintro ⟨x, u, hx, hu, rfl⟩
    exact ⟨[x], ⟨x, hx, rfl⟩, u, hu, rfl⟩

/-- The star of letters has all the words made of them. -/
theorem mem_kstar_letters : w ∈ (letters S)∗ ↔ ∀ x ∈ w, x ∈ S := by
  rw [Language.mem_kstar]
  constructor
  · rintro ⟨ws, rfl, hws⟩ x hx
    obtain ⟨w, hw, hxw⟩ := List.mem_flatten.mp hx
    obtain ⟨y, hy, rfl⟩ := hws w hw
    rwa [List.mem_singleton.mp hxw]
  · intro h
    refine ⟨w.map fun x => [x], ?_, fun u hu => ?_⟩
    · rw [← List.flatMap_def, List.flatMap_singleton']
    · obtain ⟨x, hx, rfl⟩ := List.mem_map.mp hu
      exact ⟨x, h x hx, rfl⟩

end Foundation
