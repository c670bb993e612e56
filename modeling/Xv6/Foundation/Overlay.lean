import Mathlib.Tactic

/-!
# Overlays

A write is a partial function from places to values. Writes made one after the other leave
at each place what the last of them puts there.
-/

namespace Foundation

variable {α β : Type*} {w : α → Option β} {ws : List (α → Option β)} {g : α → β} {a : α}

def overwrite (w : α → Option β) (g : α → β) : α → β := fun a => (w a).getD (g a)

/-- The writes are made one after the other. -/
def overlay (ws : List (α → Option β)) (g : α → β) : α → β :=
  ws.foldl (fun g w => overwrite w g) g

@[simp] theorem overlay_nil : overlay [] g = g := rfl

theorem overlay_cons : overlay (w :: ws) g = overlay ws (overwrite w g) := rfl

/-- What the last of the writes puts at a place. -/
def lastOf : List (α → Option β) → α → Option β
  | [], _ => none
  | w :: ws, a => (lastOf ws a).or (w a)

theorem lastOf_cons : lastOf (w :: ws) a = (lastOf ws a).or (w a) := rfl

theorem overlay_apply : overlay ws g a = (lastOf ws a).getD (g a) := by
  induction ws generalizing g with
  | nil => rfl
  | cons w ws ih =>
      rw [overlay_cons, ih, lastOf_cons]
      cases lastOf ws a <;> rfl

theorem lastOf_eq_none (h : ∀ w ∈ ws, w a = none) : lastOf ws a = none := by
  induction ws with
  | nil => rfl
  | cons w ws ih =>
      obtain ⟨hw, hws⟩ := List.forall_mem_cons.mp h
      rw [lastOf_cons, ih hws, hw]
      rfl

theorem overlay_of_none (h : ∀ w ∈ ws, w a = none) : overlay ws g a = g a := by
  rw [overlay_apply, lastOf_eq_none h]
  rfl

/-- Writes that agree at a place. -/
theorem lastOf_map_congr {γ : Type*} {v v' : γ → α → Option β} {cs : List γ}
    (h : ∀ c ∈ cs, v c a = v' c a) : lastOf (cs.map v) a = lastOf (cs.map v') a := by
  induction cs with
  | nil => rfl
  | cons c cs ih =>
      obtain ⟨hc, hcs⟩ := List.forall_mem_cons.mp h
      rw [List.map_cons, List.map_cons, lastOf_cons, lastOf_cons, ih hcs, hc]

end Foundation
