import Mathlib.Logic.Relation
import Xv6.Foundation.Program

/-!
# Programs under interference

A program whose calls are not atomic: between two answers other agents move, and the
call that is being executed takes steps of its own. `rely o` relates the states that
the steps taken during a call `o` can pass through, `reply o` says how the call can
end, and `guar o` is what has to be true all the time while it is being executed.

`wpi rely reply guar Q p s` says that from `s` the program `p` keeps `guar` and ends
in `Q`. It is a property of the state that each step taken during a call preserves,
so it can be part of an invariant of the whole system. The rule `wpi_call` is the
proof rule for one call: an assertion that is stable under interference.
-/

namespace Foundation

universe u v w

variable {Op : Type u} {Resp : Op → Type v} {α β : Type w} {σ : Type*}

/-- From `s`, under interference, the program keeps `guar` and ends in `Q`. -/
def wpi (rely : Op → σ → σ → Prop) (reply : (o : Op) → σ → Resp o → σ → Prop)
    (guar : Op → σ → Prop) (Q : α → σ → Prop) : Program Op Resp α → σ → Prop
  | .done a, s => Q a s
  | .call o k, s => ∀ t, Relation.ReflTransGen (rely o) s t →
      guar o t ∧ ∀ r u, reply o t r u → wpi rely reply guar Q (k r) u

section Rules

variable {rely : Op → σ → σ → Prop} {reply : (o : Op) → σ → Resp o → σ → Prop}
  {guar : Op → σ → Prop}

@[simp] theorem wpi_done {Q : α → σ → Prop} {a : α} {s : σ} :
    wpi rely reply guar Q (.done a) s ↔ Q a s := Iff.rfl

/-- Interference keeps what is left of the program right. -/
theorem wpi.interfere {Q : α → σ → Prop} {o : Op} {k : Resp o → Program Op Resp α} {s t : σ}
    (h : wpi rely reply guar Q (.call o k) s) (hst : rely o s t) :
    wpi rely reply guar Q (.call o k) t :=
  fun u hu => h u (.head hst hu)

theorem wpi.guarantee {Q : α → σ → Prop} {o : Op} {k : Resp o → Program Op Resp α} {s : σ}
    (h : wpi rely reply guar Q (.call o k) s) : guar o s :=
  (h s .refl).1

theorem wpi.answer {Q : α → σ → Prop} {o : Op} {k : Resp o → Program Op Resp α} {s t : σ}
    {r : Resp o} (h : wpi rely reply guar Q (.call o k) s) (hr : reply o s r t) :
    wpi rely reply guar Q (k r) t :=
  (h s .refl).2 r t hr

/-- The rule for a call: `J` holds when it starts, is stable, and is enough for what
the call guarantees and for what follows its answer. -/
theorem wpi_call {Q : α → σ → Prop} {o : Op} {k : Resp o → Program Op Resp α} {s : σ}
    (J : σ → Prop) (hs : J s) (hstable : ∀ s t, J s → rely o s t → J t)
    (hguar : ∀ s, J s → guar o s)
    (hreply : ∀ s r t, J s → reply o s r t → wpi rely reply guar Q (k r) t) :
    wpi rely reply guar Q (.call o k) s := by
  intro t ht
  have hJ : J t := by
    induction ht with
    | refl => exact hs
    | tail _ hstep ih => exact hstable _ _ ih hstep
  exact ⟨hguar t hJ, fun r u hr => hreply t r u hJ hr⟩

theorem wpi.mono {Q Q' : α → σ → Prop} (hQ : ∀ a s, Q a s → Q' a s) :
    ∀ {p : Program Op Resp α} {s : σ}, wpi rely reply guar Q p s → wpi rely reply guar Q' p s
  | .done a, s, hp => hQ a s hp
  | .call _ _, _, hp => fun t ht => ⟨(hp t ht).1, fun r u hr => wpi.mono hQ ((hp t ht).2 r u hr)⟩

theorem wpi_bind {Q : β → σ → Prop} {f : α → Program Op Resp β} :
    ∀ {p : Program Op Resp α} {s : σ},
      wpi rely reply guar (fun a t => wpi rely reply guar Q (f a) t) p s →
        wpi rely reply guar Q (p >>= f) s
  | .done _, _, hp => hp
  | .call _ _, _, hp => fun t ht => ⟨(hp t ht).1, fun r u hr => wpi_bind ((hp t ht).2 r u hr)⟩

/-- Sequencing loses nothing. -/
theorem wpi_bind_iff {Q : β → σ → Prop} {f : α → Program Op Resp β} :
    ∀ {p : Program Op Resp α} {s : σ},
      wpi rely reply guar Q (p >>= f) s ↔
        wpi rely reply guar (fun a t => wpi rely reply guar Q (f a) t) p s
  | .done _, _ => Iff.rfl
  | .call _ _, _ =>
      forall₂_congr fun _ _ => and_congr_right' (forall₃_congr fun _ _ _ => wpi_bind_iff)

/-- Without interference a call is its guarantee and what follows its answers. -/
theorem wpi_call_alone {Q : α → σ → Prop} {o : Op} {k : Resp o → Program Op Resp α} {s : σ} :
    wpi (fun _ _ _ => False) reply guar Q (.call o k) s ↔
      guar o s ∧ ∀ r t, reply o s r t → wpi (fun _ _ _ => False) reply guar Q (k r) t := by
  constructor
  · intro h
    exact ⟨h.guarantee, fun r t hr => h.answer hr⟩
  · rintro ⟨hguar, hreply⟩ t ht
    have hst : t = s := by
      induction ht with
      | refl => rfl
      | tail _ hstep _ => exact hstep.elim
    subst hst
    exact ⟨hguar, hreply⟩

/-- A loop over a list: the invariant speaks about the elements still to come. -/
theorem wpi_forEach {ε : Type*} {body : ε → Program Op Resp PUnit}
    (inv : List ε → σ → Prop)
    (hbody : ∀ e es s, inv (e :: es) s →
      wpi rely reply guar (fun _ t => inv es t) (body e) s) :
    ∀ {es : List ε} {s : σ}, inv es s →
      wpi rely reply guar (fun _ t => inv [] t) (Program.forEach body es) s
  | [], _, hs => hs
  | e :: es, s, hs => by
      rw [Program.forEach_cons]
      apply wpi_bind
      exact (hbody e es s hs).mono fun _ t ht => wpi_forEach inv hbody ht

end Rules

end Foundation
