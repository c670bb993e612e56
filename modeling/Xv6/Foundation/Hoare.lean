import Mathlib.Tactic

/-!
# Weakest preconditions for computations with state and exceptions

`wp m Q E s` says that the computation `m`, started in `s`, ends in `Q` or stops in `E`.
The rules follow the structure of the computation; they are equivalences, so nothing is
lost by using them.
-/

namespace Foundation

universe u

variable {σ ε α β : Type u}

/-- From `s`, `m` ends in `Q` or stops in `E`. -/
def wp (m : StateT σ (Except ε) α) (Q : α → σ → Prop) (E : ε → Prop) (s : σ) : Prop :=
  match m s with
  | .ok (a, t) => Q a t
  | .error e => E e

section Rules

variable {Q : α → σ → Prop} {E : ε → Prop} {s : σ}

theorem wp_of_ok {m : StateT σ (Except ε) α} {a : α} {t : σ} (h : m s = .ok (a, t)) :
    wp m Q E s ↔ Q a t := by
  rw [wp, h]

theorem wp_of_error {m : StateT σ (Except ε) α} {e : ε} (h : m s = .error e) :
    wp m Q E s ↔ E e := by
  rw [wp, h]

@[simp] theorem wp_pure {a : α} : wp (pure a) Q E s ↔ Q a s := Iff.rfl

@[simp] theorem wp_bind {m : StateT σ (Except ε) β} {f : β → StateT σ (Except ε) α} :
    wp (m >>= f) Q E s ↔ wp m (fun b t => wp (f b) Q E t) E s := by
  change (match (m s >>= fun p => f p.1 p.2) with | .ok (a, t) => Q a t | .error e => E e) ↔ _
  cases h : m s with
  | ok p => rw [wp_of_ok h]; rfl
  | error e => rw [wp_of_error h]; rfl

@[simp] theorem wp_get {Q : σ → σ → Prop} :
    wp (get : StateT σ (Except ε) σ) Q E s ↔ Q s s := Iff.rfl

@[simp] theorem wp_set {Q : PUnit → σ → Prop} {t : σ} :
    wp (set t : StateT σ (Except ε) PUnit) Q E s ↔ Q ⟨⟩ t := Iff.rfl

@[simp] theorem wp_modify {Q : PUnit → σ → Prop} {f : σ → σ} :
    wp (modify f : StateT σ (Except ε) PUnit) Q E s ↔ Q ⟨⟩ (f s) := Iff.rfl

@[simp] theorem wp_throw {e : ε} :
    wp (throw e : StateT σ (Except ε) α) Q E s ↔ E e := Iff.rfl

/-- A computation without state that returns. -/
theorem wp_lift_of_ok {x : Except ε α} {a : α} (h : x = .ok a) :
    wp (liftM x : StateT σ (Except ε) α) Q E s ↔ Q a s := by
  rw [h]
  exact Iff.rfl

theorem wp_ite {c : Prop} [Decidable c] {m n : StateT σ (Except ε) α} :
    wp (if c then m else n) Q E s ↔ (c → wp m Q E s) ∧ (¬ c → wp n Q E s) := by
  by_cases h : c <;> simp [h]

theorem wp_mono {Q' : α → σ → Prop} {E' : ε → Prop} {m : StateT σ (Except ε) α}
    (h : wp m Q E s) (hQ : ∀ a t, Q a t → Q' a t) (hE : ∀ e, E e → E' e) : wp m Q' E' s := by
  cases hm : m s with
  | ok p =>
      rw [wp_of_ok hm] at h ⊢
      exact hQ _ _ h
  | error e =>
      rw [wp_of_error hm] at h ⊢
      exact hE e h

/-- The rule of conjunction. -/
theorem wp_and {m : StateT σ (Except ε) α} {Q' : α → σ → Prop} {E' : ε → Prop} (h : wp m Q E s)
    (h' : wp m Q' E' s) : wp m (fun a t => Q a t ∧ Q' a t) (fun e => E e ∧ E' e) s := by
  cases hm : m s with
  | ok p => exact (wp_of_ok hm).mpr ⟨(wp_of_ok hm).mp h, (wp_of_ok hm).mp h'⟩
  | error e => exact (wp_of_error hm).mpr ⟨(wp_of_error hm).mp h, (wp_of_error hm).mp h'⟩

/-- Nothing is asked of the computation. -/
theorem wp_of_forall {m : StateT σ (Except ε) α} (hQ : ∀ a t, Q a t) (hE : ∀ e, E e) :
    wp m Q E s := by
  cases hm : m s with
  | ok p => exact (wp_of_ok hm).mpr (hQ _ _)
  | error e => exact (wp_of_error hm).mpr (hE e)

/-- A computation that can only end as `x` says does what `x` says. -/
theorem wp.eq {m : StateT σ (Except ε) α} {x : Except ε (α × σ)}
    (h : wp m (fun a t => x = .ok (a, t)) (fun e => x = .error e) s) : m s = x := by
  cases hm : m s with
  | ok p => exact ((wp_of_ok hm).mp h).symm
  | error e => exact ((wp_of_error hm).mp h).symm

/-- A computation that cannot stop gets to its end. -/
theorem wp.exists_ok {m : StateT σ (Except ε) α} (h : wp m Q (fun _ => False) s) :
    ∃ a t, m s = .ok (a, t) ∧ Q a t := by
  cases hm : m s with
  | ok p => exact ⟨p.1, p.2, rfl, (wp_of_ok hm).mp h⟩
  | error e => exact ((wp_of_error hm).mp h).elim

end Rules

-- a computation is not to be evaluated when its specification is elaborated
attribute [irreducible] wp

end Foundation
