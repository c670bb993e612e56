import Mathlib.Tactic
import Mathlib.Logic.Function.Basic

/-!
# Programs over a signature, and preconditions with a crash condition

A program is a tree of calls: each call names an operation and continues with its
answer. A handler gives the calls their meaning on a state. The tree is what a
crash needs: a program can be stopped before any of its calls, and what is left of
it is again a program.

`wpc h C Q p s` says that the run of `p` from `s` passes only through states that
satisfy the crash condition `C` and ends in `Q`. Its rules follow the structure of
the program; the rule for loops over a list is `wpc_forEach`.
-/

namespace Foundation

universe u v w

/-- Calls of operations `Op`, answered in `Resp`, ending with a value of type `α`. -/
inductive Program (Op : Type u) (Resp : Op → Type v) (α : Type w) where
  | done (a : α)
  | call (o : Op) (k : Resp o → Program Op Resp α)

namespace Program

variable {Op : Type u} {Resp : Op → Type v} {α β : Type w}

def bind (p : Program Op Resp α) (f : α → Program Op Resp β) : Program Op Resp β :=
  match p with
  | .done a => f a
  | .call o k => .call o fun r => (k r).bind f

instance : Monad (Program Op Resp) where
  pure := .done
  bind := bind

@[simp] theorem pure_eq (a : α) : (pure a : Program Op Resp α) = .done a := rfl

@[simp] theorem done_bind (a : α) (f : α → Program Op Resp β) :
    (Program.done a >>= f) = f a := rfl

@[simp] theorem call_bind (o : Op) (k : Resp o → Program Op Resp α)
    (f : α → Program Op Resp β) : (Program.call o k >>= f) = .call o fun r => k r >>= f := rfl

/-- Run the body once for each element of a list, in order. -/
def forEach {ε : Type*} (body : ε → Program Op Resp PUnit) :
    List ε → Program Op Resp PUnit
  | [] => .done ⟨⟩
  | e :: es => body e >>= fun _ => forEach body es

@[simp] theorem forEach_nil {ε : Type*} (body : ε → Program Op Resp PUnit) :
    forEach body [] = .done ⟨⟩ := rfl

theorem forEach_cons {ε : Type*} (body : ε → Program Op Resp PUnit) (e : ε) (es : List ε) :
    forEach body (e :: es) = body e >>= fun _ => forEach body es := rfl

end Program

section Crash

variable {Op : Type u} {Resp : Op → Type v} {α β : Type w} {σ : Type*}

/-- From `s` the program `p` passes only through states in `C`, and ends in `Q`. -/
def wpc (h : (o : Op) → σ → Resp o × σ) (C : σ → Prop) (Q : α → σ → Prop) :
    Program Op Resp α → σ → Prop
  | .done a, s => C s ∧ Q a s
  | .call o k, s => C s ∧ wpc h C Q (k (h o s).1) (h o s).2

variable {h : (o : Op) → σ → Resp o × σ} {C : σ → Prop}

@[simp] theorem wpc_done {Q : α → σ → Prop} {a : α} {s : σ} :
    wpc h C Q (.done a) s ↔ C s ∧ Q a s := Iff.rfl

theorem wpc_call {Q : α → σ → Prop} {o : Op} {k : Resp o → Program Op Resp α} {s : σ} :
    wpc h C Q (.call o k) s ↔ C s ∧ wpc h C Q (k (h o s).1) (h o s).2 := Iff.rfl

/-- The crash condition holds where the program stands. -/
theorem wpc.crash {Q : α → σ → Prop} {p : Program Op Resp α} {s : σ}
    (hp : wpc h C Q p s) : C s := by
  cases p with
  | done a => exact hp.1
  | call o k => exact hp.1

theorem wpc.mono {Q Q' : α → σ → Prop} (hQ : ∀ a s, Q a s → Q' a s) :
    ∀ {p : Program Op Resp α} {s : σ}, wpc h C Q p s → wpc h C Q' p s
  | .done a, s, hp => ⟨hp.1, hQ a s hp.2⟩
  | .call _ _, _, hp => ⟨hp.1, wpc.mono hQ hp.2⟩

theorem wpc_bind {Q : β → σ → Prop} {f : α → Program Op Resp β} :
    ∀ {p : Program Op Resp α} {s : σ},
      wpc h C (fun a t => wpc h C Q (f a) t) p s → wpc h C Q (p >>= f) s
  | .done _, _, hp => hp.2
  | .call _ _, _, hp => ⟨hp.1, wpc_bind hp.2⟩

/-- A loop over a list: the invariant speaks about the elements still to come. -/
theorem wpc_forEach {ε : Type*} {body : ε → Program Op Resp PUnit}
    (inv : List ε → σ → Prop) (hC : ∀ es s, inv es s → C s)
    (hbody : ∀ e es s, inv (e :: es) s → wpc h C (fun _ t => inv es t) (body e) s) :
    ∀ {es : List ε} {s : σ}, inv es s →
      wpc h C (fun _ t => inv [] t) (Program.forEach body es) s
  | [], s, hs => ⟨hC [] s hs, hs⟩
  | e :: es, s, hs => by
      rw [Program.forEach_cons]
      refine wpc_bind ?_
      exact (hbody e es s hs).mono fun _ t ht => wpc_forEach inv hC hbody ht

end Crash

end Foundation
