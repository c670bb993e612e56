import Mathlib.Tactic

/-!
# Loops that leave from the middle

`loop body fuel b` runs the body until it leaves; a body answers with the next state of
the loop or with the result. With `EndsIn n body b m` the loop from `b` is over after at
most `n` rounds, and what it does is `m`.
-/

namespace Foundation

universe u

variable {σ ε β γ : Type u}

/-- A loop, for at most `fuel` rounds; nothing when they are not enough. -/
def loop (body : β → StateT σ (Except ε) (β ⊕ γ)) : ℕ → β → StateT σ (Except ε) (Option γ)
  | 0, _ => return none
  | fuel + 1, b => do
      match ← body b with
      | .inl b => loop body fuel b
      | .inr c => return some c

/-- However many more rounds there could be, the loop from `b` does `m`. -/
def EndsIn (n : ℕ) (body : β → StateT σ (Except ε) (β ⊕ γ)) (b : β)
    (m : StateT σ (Except ε) γ) : Prop :=
  ∀ fuel, n ≤ fuel → loop body fuel b = some <$> m

namespace EndsIn

variable {n : ℕ} {body : β → StateT σ (Except ε) (β ⊕ γ)} {b : β} {m : StateT σ (Except ε) γ}

/-- One round, and what comes after it. -/
theorem round (rest : β → StateT σ (Except ε) γ)
    (hrest : ∀ s b' t, body b s = .ok (.inl b', t) → EndsIn n body b' (rest b'))
    (hm : m = body b >>= Sum.elim rest pure) : EndsIn (n + 1) body b m := by
  intro fuel hfuel
  obtain ⟨k, rfl⟩ : ∃ k, fuel = k + 1 := ⟨fuel - 1, by omega⟩
  rw [loop, hm, map_bind]
  funext s
  change (body b s >>= _) = (body b s >>= _)
  cases hb : body b s with
  | error e => rfl
  | ok p =>
      obtain ⟨r, t⟩ := p
      cases r with
      | inr c => rfl
      | inl b' => exact congrFun (hrest s b' t hb k (by omega)) t

end EndsIn

end Foundation
