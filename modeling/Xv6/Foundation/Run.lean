import Mathlib.Tactic
import Mathlib.Logic.Function.Basic

/-!
# Runs of a labelled step function

A system is a partial step function `step : σ → ι → Option σ`: from a state and
a label it gives the next state, or `none` when the label is not enabled there.
`run step s ls` follows a list of labels. Nondeterminism and interleaving are in
the choice of the labels, so a claim about every interleaving is a claim about
every list of labels.

The rules below are the ones every invariant proof uses: an invariant preserved
by one step holds at the end of a run, also relative to a condition on the steps
taken; what every step takes from a stock is what the run has given out; and a run can
be completed where a smaller state can always be reached.
-/

namespace Foundation

variable {σ τ ι κ : Type*}

/-- Follow a list of labels, `none` as soon as one of them is not enabled. -/
def run (step : σ → ι → Option σ) : σ → List ι → Option σ
  | s, [] => some s
  | s, l :: ls => (step s l).bind fun t => run step t ls

@[simp] theorem run_nil (step : σ → ι → Option σ) (s : σ) :
    run step s [] = some s := rfl

theorem run_cons (step : σ → ι → Option σ) (s : σ) (l : ι) (ls : List ι) :
    run step s (l :: ls) = (step s l).bind fun t => run step t ls := rfl

theorem run_cons_eq_some {step : σ → ι → Option σ} {s u : σ} {l : ι} {ls : List ι} :
    run step s (l :: ls) = some u ↔ ∃ t, step s l = some t ∧ run step t ls = some u := by
  rw [run_cons, Option.bind_eq_some_iff]

theorem run_append (step : σ → ι → Option σ) (s : σ) (ls ms : List ι) :
    run step s (ls ++ ms) = (run step s ls).bind fun t => run step t ms := by
  induction ls generalizing s with
  | nil => rfl
  | cons l ls ih =>
      rw [List.cons_append, run_cons, run_cons, Option.bind_assoc]
      congr 1
      funext t
      exact ih t

theorem run_append_eq_some {step : σ → ι → Option σ} {s u : σ} {ls ms : List ι} :
    run step s (ls ++ ms) = some u ↔
      ∃ t, run step s ls = some t ∧ run step t ms = some u := by
  rw [run_append, Option.bind_eq_some_iff]

theorem run_concat_eq_some {step : σ → ι → Option σ} {s u : σ} {ls : List ι} {l : ι} :
    run step s (ls ++ [l]) = some u ↔
      ∃ t, run step s ls = some t ∧ step t l = some u := by
  simp [run_append_eq_some, run_cons_eq_some]

def Reachable (step : σ → ι → Option σ) (s₀ s : σ) : Prop :=
  ∃ ls, run step s₀ ls = some s

/-- The invariant rule: what one step preserves, a whole run preserves. -/
theorem run_invariant {step : σ → ι → Option σ} (inv : σ → Prop)
    (hstep : ∀ s l t, inv s → step s l = some t → inv t) :
    ∀ {ls : List ι} {s t : σ}, inv s → run step s ls = some t → inv t
  | [], s, t, hs, h => by
      rw [run_nil, Option.some.injEq] at h
      exact h ▸ hs
  | l :: ls, s, t, hs, h => by
      obtain ⟨u, hu, hrun⟩ := run_cons_eq_some.mp h
      exact run_invariant inv hstep (hstep s l u hs hu) hrun

theorem Reachable.invariant {step : σ → ι → Option σ} (inv : σ → Prop) {s₀ s : σ}
    (h : Reachable step s₀ s) (h₀ : inv s₀)
    (hstep : ∀ s l t, inv s → step s l = some t → inv t) : inv s := by
  obtain ⟨ls, hls⟩ := h
  exact run_invariant inv hstep h₀ hls

/-- The invariant rule with the history: what holds of the empty history and is
carried along by every step holds of every run together with its labels. -/
theorem run_history {step : σ → ι → Option σ} {s₀ : σ} (inv : List ι → σ → Prop)
    (h₀ : inv [] s₀)
    (hstep : ∀ ls s l t, inv ls s → step s l = some t → inv (ls ++ [l]) t) :
    ∀ {ls : List ι} {s : σ}, run step s₀ ls = some s → inv ls s := by
  intro ls
  induction ls using List.reverseRecOn with
  | nil =>
      intro s h
      rw [run_nil, Option.some.injEq] at h
      exact h ▸ h₀
  | append_singleton ls l ih =>
      intro s h
      obtain ⟨u, hu, hl⟩ := run_concat_eq_some.mp h
      exact hstep ls u l s (ih hu) hl

/-- Every step of the run is taken in a state that meets the condition `ok`
together with the step's label. -/
def RunMeets (step : σ → ι → Option σ) (ok : σ → ι → Prop) : σ → List ι → Prop
  | _, [] => True
  | s, l :: ls => ok s l ∧ ∀ t, step s l = some t → RunMeets step ok t ls

theorem runMeets_append {step : σ → ι → Option σ} {ok : σ → ι → Prop} {s : σ}
    {ls ms : List ι} : RunMeets step ok s (ls ++ ms) ↔
      RunMeets step ok s ls ∧ ∀ t, run step s ls = some t → RunMeets step ok t ms := by
  induction ls generalizing s with
  | nil => simp [RunMeets]
  | cons l ls ih =>
      simp only [List.cons_append, RunMeets, ih, run_cons_eq_some, and_assoc]
      grind

/-- Labels that meet the condition in every state. -/
theorem runMeets_of_forall {step : σ → ι → Option σ} {ok : σ → ι → Prop} {ls : List ι}
    (h : ∀ l ∈ ls, ∀ s, ok s l) (s : σ) : RunMeets step ok s ls := by
  induction ls generalizing s with
  | nil => trivial
  | cons l ls ih =>
      exact ⟨h l List.mem_cons_self s, fun t _ => ih (fun m hm => h m (List.mem_cons_of_mem l hm)) t⟩

theorem RunMeets.mono {step : σ → ι → Option σ} {ok ok' : σ → ι → Prop}
    (hle : ∀ s l, ok s l → ok' s l) :
    ∀ {s : σ} {ls : List ι}, RunMeets step ok s ls → RunMeets step ok' s ls
  | _, [], _ => trivial
  | s, l :: _, h => ⟨hle s l h.1, fun t ht => (h.2 t ht).mono hle⟩

/-- A condition that can be evaluated can be evaluated along a run. -/
instance decidableRunMeets {step : σ → ι → Option σ} {ok : σ → ι → Prop}
    [∀ s l, Decidable (ok s l)] : ∀ s ls, Decidable (RunMeets step ok s ls)
  | _, [] => .isTrue trivial
  | s, l :: ls =>
      match h : step s l with
      | none => decidable_of_iff (ok s l) (by simp [RunMeets, h])
      | some t =>
          have : Decidable (RunMeets step ok t ls) := decidableRunMeets t ls
          decidable_of_iff (ok s l ∧ RunMeets step ok t ls) (by simp [RunMeets, h])

/-- The invariant rule for runs whose steps all meet a condition. -/
theorem run_invariant_of_meets {step : σ → ι → Option σ} {ok : σ → ι → Prop}
    (inv : σ → Prop) (hstep : ∀ s l t, inv s → ok s l → step s l = some t → inv t) :
    ∀ {ls : List ι} {s t : σ}, inv s → RunMeets step ok s ls →
      run step s ls = some t → inv t
  | [], s, t, hs, _, h => by
      rw [run_nil, Option.some.injEq] at h
      exact h ▸ hs
  | l :: ls, s, t, hs, hok, h => by
      obtain ⟨u, hu, hrun⟩ := run_cons_eq_some.mp h
      exact run_invariant_of_meets inv hstep (hstep s l u hs hok.1 hu) (hok.2 u hu) hrun

/-- Two systems that can always take the same steps, and stay related by them, have related
runs. -/
theorem run_rel {step : σ → ι → Option σ} {step' : τ → ι → Option τ} {R : σ → τ → Prop}
    (hstep : ∀ s x l, R s x → Option.Rel R (step s l) (step' x l)) :
    ∀ {ls : List ι} {s : σ} {x : τ}, R s x → Option.Rel R (run step s ls) (run step' x ls)
  | [], _, _, h => .some h
  | l :: ls, s, x, h => by
      have hrel := hstep s x l h
      rw [run_cons, run_cons]
      generalize step s l = o, step' x l = o' at hrel
      cases hrel with
      | none => exact .none
      | some h' => exact run_rel hstep h'

/-! ### What a run gives out -/

section Outputs

variable {M : Type*} [AddMonoid M] {step : σ → ι → Option σ}

/-- What the steps of a run give out, added up. -/
def outputs (step : σ → ι → Option σ) (out : σ → ι → M) : σ → List ι → M
  | _, [] => 0
  | s, l :: ls => out s l + (step s l).elim 0 fun t => outputs step out t ls

/-- What every step takes from a stock, the steps of a run have given out in the end. -/
theorem run_outputs {out : σ → ι → M} (inv : σ → Prop) (stock : σ → M)
    (hstep : ∀ s l t, inv s → step s l = some t → inv t ∧ stock s = out s l + stock t) :
    ∀ {ls : List ι} {s t : σ}, inv s → run step s ls = some t →
      stock s = outputs step out s ls + stock t
  | [], s, t, _, h => by
      rw [run_nil, Option.some.injEq] at h
      rw [outputs, zero_add, h]
  | l :: ls, s, t, hs, h => by
      obtain ⟨u, hu, hrun⟩ := run_cons_eq_some.mp h
      obtain ⟨hinv, hstock⟩ := hstep s l u hs hu
      rw [outputs, hu, Option.elim_some, hstock, run_outputs inv stock hstep hinv hrun, add_assoc]

/-- Where every state that is not final has a step to a smaller one, a run can be completed. -/
theorem exists_run_to_end (inv final : σ → Prop) (size : σ → ℕ)
    (hinv : ∀ s l t, inv s → step s l = some t → inv t)
    (hnext : ∀ s, inv s → ¬ final s → ∃ l t, step s l = some t ∧ size t < size s) (s : σ)
    (hs : inv s) : ∃ ls t, run step s ls = some t ∧ inv t ∧ final t := by
  induction hn : size s using Nat.strong_induction_on generalizing s with
  | _ n ih =>
      by_cases hfinal : final s
      · exact ⟨[], s, rfl, hs, hfinal⟩
      · obtain ⟨l, t, hl, hlt⟩ := hnext s hs hfinal
        obtain ⟨ls, u, hrun, hu⟩ := ih (size t) (hn ▸ hlt) t (hinv s l t hs hl) rfl
        exact ⟨l :: ls, u, run_cons_eq_some.mpr ⟨t, hl, hrun⟩, hu⟩

end Outputs

end Foundation
