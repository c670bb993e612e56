import Xv6.User.Plumbing

/-!
# Every command is run

The commands that the shell still has to run are counted with the programs of its processes.
A step of a process takes the command that it `exec`'s from them and no other, so none is
dropped and none is run twice. The calls that are still to come are counted in the same way:
as long as a process is alive, one of them has a next step that leaves fewer, since the youngest
process that is alive has no child but zombies. So every run can be completed, and then every
command has been run once.
-/

namespace Xv6

namespace Shell

open Foundation

variable {tree cmd l r : Cmd} {ctx ctx' : List Frame} {p p' : Process} {child : Option Process}
  {e : Event} {k : ℕ} {ofile : List (Option File)}

/-! ### Counting over a program -/

/-- The construct without the number of its pipe. -/
def Frame.shape : Frame → Frame
  | .left _ r => .left 0 r
  | .right _ l => .right 0 l
  | f => f

/-- A command of the command line, by the constructs around it, and its arguments. -/
abbrev Leaf := List Frame × List (List UInt8)

/-- The commands to be `exec`'ed; `runcmd` passes over an empty one. -/
def leaves (ctx : List Frame) : Cmd → Multiset Leaf
  | .exec argv => if argv = [] then 0 else {(ctx, argv)}
  | .redir cmd file mode fd => leaves (.redir file mode fd :: ctx) cmd
  | .pipe left right => leaves (.left 0 right :: ctx) left + leaves (.right 0 left :: ctx) right
  | .list left right => leaves (.listLeft right :: ctx) left + leaves (.listRight left :: ctx) right
  | .back cmd => leaves (.back :: ctx) cmd

section Count

variable {M : Type*} [AddCommMonoid M]

/-- What is counted: every call, and every command that is `exec`'ed. -/
structure Count (M : Type*) where
  call : M
  exec : Leaf → M

def leafCount : Count (Multiset Leaf) := ⟨0, fun leaf => {leaf}⟩

def callCount : Count ℕ := ⟨1, fun _ => 0⟩

variable (μ : Count M)

/-- What `runcmd` does for a command, its children included. -/
def Cmd.total (ctx : List Frame) : Cmd → M
  | .exec argv =>
      if argv = [] then μ.call else μ.call + μ.exec (ctx.map Frame.shape, argv) + μ.call
  | .redir cmd file mode fd => 2 • μ.call + cmd.total (.redir file mode fd :: ctx)
  | .pipe left right =>
      16 • μ.call + left.total (.left 0 right :: ctx) + right.total (.right 0 left :: ctx)
  | .list left right =>
      2 • μ.call + left.total (.listLeft right :: ctx) + right.total (.listRight left :: ctx)
  | .back cmd => 2 • μ.call + cmd.total (.back :: ctx)

/-- What a program does, its children included, when `open`, `dup` and `pipe` succeed. -/
def progTotal (ctx : List Frame) : Prog → M
  | .done (ctx, cmd) => cmd.total μ ctx
  | .call (.close _) c => μ.call + progTotal ctx (c ())
  | .call (.open _ _) c => μ.call + progTotal ctx (c (some 0))
  | .call (.dup _) c => μ.call + progTotal ctx (c (some 0))
  | .call .pipe c => μ.call + progTotal ctx (c (some (0, 0, 0)))
  | .call .fork c => μ.call + (progTotal ctx (c true) + progTotal ctx (c false))
  | .call .wait c => μ.call + progTotal ctx (c ())
  | .call (.exec argv) c =>
      μ.call + μ.exec (ctx.map Frame.shape, argv) + progTotal ctx (c ())
  | .call .exit _ => μ.call

/-- What a process does; a program has yet to exit. -/
def Process.total (p : Process) : M :=
  match p.act with
  | .shell prog => progTotal μ p.ctx prog
  | .program _ => μ.call
  | .zombie => 0

def System.total (s : System) : M :=
  ∑ q ∈ Finset.range s.npid, (s.proc q).elim 0 (Process.total μ)

/-- What a process does does not depend on the numbers of pipes. -/
theorem Cmd.total_congr (cmd : Cmd) (h : ctx.map Frame.shape = ctx'.map Frame.shape) :
    cmd.total μ ctx = cmd.total μ ctx' := by
  induction cmd generalizing ctx ctx' with
  | exec argv => rw [total, total, h]
  | redir cmd file mode fd ih =>
      exact congrArg (2 • μ.call + ·) (ih (congrArg (List.cons _) h))
  | pipe left right ihl ihr =>
      exact congrArg₂ (16 • μ.call + · + ·) (ihl (congrArg (List.cons _) h))
        (ihr (congrArg (List.cons _) h))
  | list left right ihl ihr =>
      exact congrArg₂ (2 • μ.call + · + ·) (ihl (congrArg (List.cons _) h))
        (ihr (congrArg (List.cons _) h))
  | back cmd ih => exact congrArg (2 • μ.call + ·) (ih (congrArg (List.cons _) h))

theorem total_left (k : ℕ) :
    l.total μ (.left k r :: ctx) = l.total μ (.left 0 r :: ctx) := l.total_congr μ rfl

theorem total_right (k : ℕ) :
    r.total μ (.right k l :: ctx) = r.total μ (.right 0 l :: ctx) := r.total_congr μ rfl

theorem progTotal_pipeFirst (p0 p1 k : ℕ) : progTotal μ ctx (pipeFirst ctx l r p0 p1 k) =
    15 • μ.call + l.total μ (.left 0 r :: ctx) + r.total μ (.right 0 l :: ctx) := by
  simp only [pipeFirst, pipeSecond, pipeParent, pipeLeft, pipeRight, closeEnds, fork, dup, close,
    wait, exit, progTotal, if_pos, Bool.false_eq_true, if_false, total_left, total_right]
  abel

/-- `runcmd` does what its program says. -/
theorem progTotal_runcmd (ctx : List Frame) (cmd : Cmd) :
    progTotal μ ctx (runcmd ctx cmd) = cmd.total μ ctx := by
  cases cmd with
  | exec argv =>
      rw [runcmd, Cmd.total]
      split <;> rfl
  | redir cmd file mode fd =>
      simp only [runcmd, close, redirOpen, progTotal, Cmd.total]
      abel
  | pipe left right =>
      refine (congrArg (μ.call + ·) (progTotal_pipeFirst μ 0 0 0)).trans ?_
      rw [Cmd.total]
      abel
  | list left right =>
      simp only [runcmd, fork, listRest, wait, progTotal, if_pos, Bool.false_eq_true, if_false,
        Cmd.total]
      abel
  | back cmd =>
      simp only [runcmd, fork, exit, progTotal, if_pos, Bool.false_eq_true, if_false, Cmd.total]
      abel

theorem total_resume (prog : Prog) : (p.resume prog).total μ = progTotal μ p.ctx prog := by
  cases prog with
  | done a => exact progTotal_runcmd μ a.1 a.2
  | call o c => rfl

/-! ### A step of a process -/

/-- What the program does is the same for all descriptors and pipes that `open`, `dup` and `pipe`
give, and it exits after an `exec`. -/
def Uniform (ctx : List Frame) : Prog → Prop
  | .call (.open _ _) c => ∀ fd, progTotal μ ctx (c (some fd)) = progTotal μ ctx (c (some 0))
  | .call (.dup _) c => ∀ r, progTotal μ ctx (c r) = progTotal μ ctx (c (some 0))
  | .call .pipe c => ∀ r, progTotal μ ctx (c (some r)) = progTotal μ ctx (c (some (0, 0, 0)))
  | .call (.exec _) c => progTotal μ ctx (c ()) = μ.call
  | _ => True

theorem At.uniform {prog : Prog} (h : At tree ctx prog ofile) : Uniform μ ctx prog := by
  cases h with
  | @run cmd h =>
      cases cmd with
      | exec argv =>
          rw [runcmd]
          split
          · trivial
          · rfl
      | redir cmd file mode fd => trivial
      | pipe left right =>
          exact fun r => (progTotal_pipeFirst μ r.1 r.2.1 r.2.2).trans
            (progTotal_pipeFirst μ 0 0 0).symm
      | list left right => trivial
      | back cmd => trivial
  | «open» h => exact fun fd => rfl
  | left₁ h => exact fun r => rfl
  | right₁ h => exact fun r => rfl
  | exit => trivial
  | wait => trivial
  | wait₂ => trivial
  | rest h => trivial
  | first h => trivial
  | second h => trivial
  | parent => trivial
  | parent₁ => trivial
  | left h => trivial
  | left₂ h => trivial
  | left₃ h => trivial
  | right h => trivial
  | right₂ h => trivial
  | right₃ h => trivial

/-- What a process of the shell does in one step. -/
def Process.gives (p : Process) : M :=
  match p.act with
  | .shell (.call (.exec argv) _) => μ.call + μ.exec (p.ctx.map Frame.shape, argv)
  | _ => μ.call

/-- What a process of the shell has to do is its next step, and what it and its child have to do
afterwards. -/
theorem total_next {prog : Prog} (h : Uniform μ p.ctx prog) (hact : p.act = .shell prog)
    (hnext : p.next k e = some (p', child)) :
    p.total μ = p.gives μ + (p'.total μ + child.elim 0 (Process.total μ)) := by
  cases prog with
  | done a => cases e <;> simp [Process.next, hact] at hnext
  | call o c =>
      rw [Process.total, Process.gives, hact]
      cases o with
      | close fd =>
          have hclose : p.act = .shell (close fd (c ())) := hact
          obtain ⟨rfl, rfl⟩ := next_close hclose hnext
          rw [total_resume, Option.elim_none, add_zero]
          rfl
      | «open» file mode =>
          cases hopen : fdalloc p.ofile (.opened file mode) with
          | none => cases e <;> simp [Process.next, hact, Process.answer, hopen] at hnext
          | some r =>
              obtain ⟨rfl, rfl⟩ := next_open hact hopen hnext
              rw [total_resume, Option.elim_none, add_zero]
              exact congrArg (μ.call + ·) (h r.1).symm
      | dup fd =>
          have hsame : p.next k e = some (p', child) → child = none ∧
              ∃ r t, p' = { p with ofile := t }.resume (c r) := fun hnext => by
            cases hdup : sys_dup p.ofile fd with
            | none =>
                cases e <;> simp [Process.next, hact, Process.answer, hdup] at hnext
                exact ⟨hnext.2.symm, none, p.ofile, hnext.1.symm⟩
            | some r =>
                cases e <;> simp [Process.next, hact, Process.answer, hdup] at hnext
                exact ⟨hnext.2.symm, some r.1, r.2, hnext.1.symm⟩
          obtain ⟨rfl, r, t, rfl⟩ := hsame hnext
          rw [total_resume, Option.elim_none, add_zero]
          exact congrArg (μ.call + ·) (h r).symm
      | pipe =>
          cases hpipe : sys_pipe p.ofile k with
          | none => cases e <;> simp [Process.next, hact, Process.answer, hpipe] at hnext
          | some r =>
              obtain ⟨rfl, rfl⟩ := next_pipe hact hpipe hnext
              rw [total_resume, Option.elim_none, add_zero]
              exact congrArg (μ.call + ·) (h (r.1, r.2.1, k)).symm
      | fork =>
          cases e <;> simp [Process.next, hact, Process.answer] at hnext
          obtain ⟨rfl, rfl⟩ := hnext
          rw [Option.elim_some, total_resume, total_resume, add_comm (progTotal μ p.ctx (c false))]
          rfl
      | wait =>
          have hwait : p.act = .shell (wait (c ())) := hact
          obtain ⟨rfl, rfl⟩ := next_wait hwait hnext
          rw [total_resume, Option.elim_none, add_zero]
          rfl
      | exec argv =>
          obtain ⟨hp', rfl⟩ := next_exec hact hnext
          have hrest : p'.total μ = progTotal μ p.ctx (c ()) := by
            rcases hp' with rfl | rfl
            · exact h.symm
            · exact total_resume μ _
          rw [hrest, Option.elim_none, add_zero]
          rfl
      | exit =>
          cases e <;> simp [Process.next, hact, Process.answer] at hnext
          obtain ⟨rfl, rfl⟩ := hnext
          rw [Option.elim_none, add_zero]
          exact (add_zero μ.call).symm

/-! ### A step of all processes -/

/-- The processes are numbered in the order in which they were forked. -/
def Tidy (s : System) : Prop :=
  2 ≤ s.npid ∧ ∀ q p, s.proc q = some p → 2 ≤ q ∧ q < s.npid ∧ p.parent < q

theorem tidy_start : Tidy (start tree) := by
  refine ⟨Nat.le_succ 2, fun q p hp => ?_⟩
  change (if q = 2 then _ else none) = _ at hp
  split at hp
  · rename_i hq
    cases hp
    rw [hq]
    exact ⟨le_rfl, Nat.lt_succ_self 2, Nat.lt_succ_self 1⟩
  · cases hp

theorem parent_resume (prog : Prog) : (p.resume prog).parent = p.parent := by
  cases prog <;> rfl

theorem answer_parent {o : Call} {c : o.Resp → Prog} (h : p.answer k o c = some (p', child)) :
    p'.parent = p.parent := by
  cases o with
  | close fd =>
      cases h
      exact parent_resume _
  | «open» file mode =>
      obtain ⟨r, -, hr⟩ := Option.map_eq_some_iff.mp h
      cases hr
      exact parent_resume _
  | dup fd =>
      rw [Process.answer] at h
      split at h
      · cases h
        exact parent_resume _
      · cases h
        exact parent_resume _
  | pipe =>
      obtain ⟨r, -, hr⟩ := Option.map_eq_some_iff.mp h
      cases hr
      exact parent_resume _
  | fork =>
      cases h
      exact parent_resume _
  | wait => cases h
  | exec argv =>
      cases h
      rfl
  | exit =>
      cases h
      rfl

theorem next_parent (hnext : p.next k e = some (p', child)) : p'.parent = p.parent := by
  rw [Process.next.eq_def] at hnext
  cases e with
  | call =>
      dsimp only at hnext
      split at hnext
      · exact answer_parent hnext
      · cases hnext
  | fail =>
      dsimp only at hnext
      split at hnext
      · cases hnext
        exact parent_resume _
      · cases hnext
  | wait c =>
      dsimp only at hnext
      split at hnext
      · cases hnext
        exact parent_resume _
      · cases hnext
        rfl
      · cases hnext
  | close fd =>
      dsimp only at hnext
      split at hnext
      · cases hnext
        rfl
      · cases hnext
  | dup fd =>
      dsimp only at hnext
      split at hnext
      · obtain ⟨r, -, hr⟩ := Option.map_eq_some_iff.mp hnext
        cases hr
        rfl
      · cases hnext
  | fork =>
      dsimp only at hnext
      split at hnext
      · cases hnext
        rfl
      · cases hnext
  | exit =>
      dsimp only at hnext
      split at hnext
      · cases hnext
        rfl
      · cases hnext

theorem Tidy.step {s s' : System} {label : ℕ × Event} (h : Tidy s)
    (hstep : s.step label = some s') : Tidy s' := by
  obtain ⟨p, p', child, hp, hnext, -, rfl⟩ := System.step_eq_some hstep
  obtain ⟨hpid, hlt, hparent⟩ := h.2 _ p hp
  refine ⟨h.1.trans (Nat.le_succ _), fun q c hc => ?_⟩
  change _ ∧ q < s.npid + 1 ∧ _
  obtain ⟨rfl, d, -, rfl⟩ | ⟨rfl, rfl⟩ | ⟨d, hd, hcd⟩ := System.proc_step hc
  · exact ⟨h.1, Nat.lt_succ_self _, hlt⟩
  · rw [next_parent hnext]
    exact ⟨hpid, hlt.trans (Nat.lt_succ_self _), hparent⟩
  · obtain ⟨hq, hql, hqp⟩ := h.2 q d hd
    refine ⟨hq, hql.trans (Nat.lt_succ_self _), ?_⟩
    rcases hcd with rfl | rfl
    · exact hqp
    · exact hq

theorem total_zombie (h : p.isZombie = true) : p.total μ = 0 := by
  rw [Process.isZombie] at h
  rw [Process.total]
  split at h
  · rename_i hact
    rw [hact]
  · cases h

/-- A process that is gone or has been passed to `init` had the same to do before. -/
theorem total_others {s : System} {pid q : ℕ} (hwaits : s.waits pid e = true) :
    (s.others pid p' e q).elim 0 (Process.total μ) = (s.proc q).elim 0 (Process.total μ) := by
  rw [System.others]
  split
  · rename_i hreaped
    cases e with
    | wait c =>
        cases c with
        | none => cases hreaped
        | some c =>
            have hqc : q = c := of_decide_eq_true hreaped
            subst hqc
            have hzombie : (s.proc q).any (fun d => d.parent = pid && d.isZombie) = true := hwaits
            cases hq : s.proc q with
            | none => rfl
            | some d =>
                rw [hq, Option.any_some, Bool.and_eq_true] at hzombie
                exact (total_zombie μ hzombie.2).symm
    | _ => cases hreaped
  · cases s.proc q with
    | none => rfl
    | some d =>
        rw [Option.map_some, Option.elim_some, Option.elim_some]
        split <;> rfl

theorem total_step {s s' : System} {label : ℕ × Event} (h : Tidy s)
    (hstep : s.step label = some s') (hp : s.proc label.1 = some p)
    (hnext : p.next s.npipe label.2 = some (p', child)) {x : M}
    (htotal : p.total μ = x + (p'.total μ + child.elim 0 (Process.total μ))) :
    s.total μ = x + s'.total μ := by
  obtain ⟨p₀, p₁, child₀, hp₀, hnext₀, hwaits, rfl⟩ := System.step_eq_some hstep
  cases hp.symm.trans hp₀
  cases hnext.symm.trans hnext₀
  have hmem : label.1 ∈ Finset.range s.npid := Finset.mem_range.mpr (h.2 _ p hp).2.1
  have hne : label.1 ≠ s.npid := (h.2 _ p hp).2.1.ne
  have hchild : (child.map fun c => { c with parent := label.1 }).elim 0 (Process.total μ) =
      child.elim 0 (Process.total μ) := by
    cases child <;> rfl
  change ∑ q ∈ Finset.range s.npid, (s.proc q).elim 0 (Process.total μ) =
    x + ∑ q ∈ Finset.range (s.npid + 1), (if q = s.npid then
      child.map fun c => { c with parent := label.1 } else if q = label.1 then some p'
      else s.others label.1 p' label.2 q).elim 0 (Process.total μ)
  have hothers : ∀ q ∈ (Finset.range s.npid).erase label.1,
      (if q = s.npid then child.map fun c => { c with parent := label.1 }
        else if q = label.1 then some p' else s.others label.1 p' label.2 q).elim 0
          (Process.total μ) = (s.proc q).elim 0 (Process.total μ) := fun q hq => by
    obtain ⟨hself, hlt⟩ := Finset.mem_erase.mp hq
    rw [if_neg (Finset.mem_range.mp hlt).ne, if_neg hself, total_others μ hwaits]
  rw [Finset.sum_range_succ, if_pos rfl, hchild, ← Finset.add_sum_erase _ _ hmem,
    ← Finset.add_sum_erase (Finset.range s.npid) _ hmem, Finset.sum_congr rfl hothers, hp,
    Option.elim_some, if_neg hne, if_pos rfl, Option.elim_some, htotal]
  abel

end Count

/-! ### What is `exec`'ed -/

/-- The command that the process `exec`'s in its next step. -/
def Process.execs (p : Process) : Multiset Leaf :=
  match p.act with
  | .shell (.call (.exec argv) _) => {(p.ctx.map Frame.shape, argv)}
  | _ => 0

def System.execs (s : System) (label : ℕ × Event) : Multiset Leaf :=
  (s.proc label.1).elim 0 Process.execs

theorem gives_leafCount : p.gives leafCount = p.execs := by
  rw [Process.gives, Process.execs]
  cases p.act with
  | shell prog =>
      cases prog with
      | done a => rfl
      | call o c =>
          cases o with
          | exec argv => exact zero_add _
          | _ => rfl
  | program argv => rfl
  | zombie => rfl

theorem gives_callCount : p.gives callCount = 1 := by
  rw [Process.gives]
  split <;> rfl

/-- What is to be run for a command are its leaves. -/
theorem Cmd.total_leafCount (ctx : List Frame) (cmd : Cmd) :
    cmd.total leafCount ctx = leaves (ctx.map Frame.shape) cmd := by
  have hcall : leafCount.call = 0 := rfl
  induction cmd generalizing ctx with
  | exec argv =>
      rw [total, leaves, hcall, zero_add, add_zero]
      rfl
  | redir cmd file mode fd ih =>
      rw [total, leaves, hcall, smul_zero, zero_add, ih]
      rfl
  | pipe left right ihl ihr =>
      rw [total, leaves, hcall, smul_zero, zero_add, ihl, ihr]
      rfl
  | list left right ihl ihr =>
      rw [total, leaves, hcall, smul_zero, zero_add, ihl, ihr]
      rfl
  | back cmd ih =>
      rw [total, leaves, hcall, smul_zero, zero_add, ih]
      rfl

theorem start_leafCount : (start tree).total leafCount = leaves [] tree := by
  change ∑ q ∈ Finset.range 3, _ = _
  rw [Finset.sum_range_succ, Finset.sum_eq_zero, zero_add]
  · exact (progTotal_runcmd leafCount [] tree).trans (tree.total_leafCount [])
  · intro q hq
    have hne : q ≠ 2 := (Finset.mem_range.mp hq).ne
    exact congrArg (Option.elim · 0 _) (if_neg hne)

/-- A process takes the command that it `exec`'s from what it has to run. -/
theorem leafCount_next (h : Ok tree p) (hnext : p.next k e = some (p', child)) :
    p.total leafCount =
      p.execs + (p'.total leafCount + child.elim 0 (Process.total leafCount)) := by
  cases hact : p.act with
  | shell prog =>
      rw [Ok, hact] at h
      rw [total_next leafCount (h.uniform leafCount) hact hnext, gives_leafCount]
  | program argv =>
      have hprogram : ∀ {q : Process}, q.act = .program argv → q.total leafCount = 0 :=
        fun hq => by rw [Process.total, hq]; rfl
      have hexecs : p.execs = 0 := by rw [Process.execs, hact]
      obtain ⟨hp', hchild⟩ := next_program hact hnext
      have hp'0 : p'.total leafCount = 0 := by
        rcases hp' with rfl | ⟨-, hact', -⟩
        · rfl
        · exact hprogram hact'
      have hchild0 : child.elim 0 (Process.total leafCount) = 0 := by
        rcases hchild with rfl | rfl
        · rfl
        · exact hprogram hact
      rw [hprogram hact, hexecs, hp'0, hchild0]
      rfl
  | zombie => cases e <;> simp [Process.next, hact] at hnext

theorem leafCount_step {s s' : System} {label : ℕ × Event} (hinv : Inv tree s) (htidy : Tidy s)
    (hstep : s.step label = some s') :
    s.total leafCount = s.execs label + s'.total leafCount := by
  obtain ⟨p, p', child, hp, hnext, -, -⟩ := System.step_eq_some hstep
  rw [System.execs, hp]
  exact total_step leafCount htidy hstep hp hnext (leafCount_next (hinv _ p hp) hnext)

/-! ### Every run can be completed -/

def System.Over (s : System) : Prop := ∀ pid p, s.proc pid = some p → p.isZombie = true

theorem total_over {s : System} (hover : s.Over) : s.total leafCount = 0 := by
  refine Finset.sum_eq_zero fun q _ => ?_
  cases hq : s.proc q with
  | none => rfl
  | some p => exact total_zombie leafCount (hover q p hq)

/-- The youngest process that is no zombie. -/
theorem exists_youngest {s : System} (htidy : Tidy s) (hover : ¬ s.Over) :
    ∃ pid p, s.proc pid = some p ∧ p.isZombie = false ∧
      ∀ q c, s.proc q = some c → pid < q → c.isZombie = true := by
  let alive : Set ℕ := {pid | ∃ p, s.proc pid = some p ∧ p.isZombie = false}
  have hfinite : alive.Finite :=
    (Set.finite_lt_nat s.npid).subset fun pid ⟨p, hp, _⟩ => (htidy.2 pid p hp).2.1
  have hsome : alive.Nonempty := by
    rw [System.Over] at hover
    push Not at hover
    obtain ⟨pid, p, hp, halive⟩ := hover
    exact ⟨pid, p, hp, Bool.eq_false_iff.mpr halive⟩
  obtain ⟨pid, ⟨p, hp, halive⟩, hmax⟩ := Set.exists_max_image alive id hfinite hsome
  refine ⟨pid, p, hp, halive, fun q c hc hlt => ?_⟩
  by_contra hzombie
  exact absurd (hmax q ⟨c, hc, Bool.eq_false_iff.mpr hzombie⟩) (Nat.not_le.mpr hlt)

/-- `wait` returns in the youngest process that is no zombie: its children are zombies. -/
theorem exists_waits {s : System} {pid : ℕ} (htidy : Tidy s)
    (hyoung : ∀ q c, s.proc q = some c → pid < q → c.isZombie = true) :
    ∃ c, s.waits pid (.wait c) = true := by
  by_cases hchild : ∃ q c, s.proc q = some c ∧ c.parent = pid
  · obtain ⟨q, c, hc, hparent⟩ := hchild
    refine ⟨some q, ?_⟩
    have hzombie := hyoung q c hc (hparent ▸ (htidy.2 q c hc).2.2)
    rw [System.waits, hc, Option.any_some, Bool.and_eq_true]
    exact ⟨decide_eq_true hparent, hzombie⟩
  · push Not at hchild
    refine ⟨none, List.all_eq_true.mpr fun q _ => ?_⟩
    rw [Option.all_eq_true]
    exact fun c hc => decide_eq_true (hchild q c hc)

/-- As long as a process is alive, one has a step after which fewer calls are to come. -/
theorem exists_smaller {s : System} (hinv : Inv tree s) (htidy : Tidy s) (hover : ¬ s.Over) :
    ∃ label s', s.step label = some s' ∧ s'.total callCount < s.total callCount := by
  obtain ⟨pid, p, hp, halive, hyoung⟩ := exists_youngest htidy hover
  have hstep : ∀ {e p' child}, p.next s.npipe e = some (p', child) → s.waits pid e = true →
      p.total callCount = 1 + (p'.total callCount + child.elim 0 (Process.total callCount)) →
      ∃ label s', s.step label = some s' ∧ s'.total callCount < s.total callCount :=
    fun {e p' child} hnext hwaits htotal => by
      obtain ⟨s', hs'⟩ : ∃ s', s.step (pid, e) = some s' := by
        rw [System.step, hp, Option.bind_some, hnext, Option.bind_some]
        exact ⟨_, if_pos hwaits⟩
      refine ⟨(pid, e), s', hs', ?_⟩
      rw [total_step callCount htidy hs' hp hnext htotal]
      exact Nat.lt_add_of_pos_left Nat.one_pos
  have hok := hinv pid p hp
  cases hact : p.act with
  | shell prog =>
      rw [Ok, hact] at hok
      have hnext : ∀ {e p' child}, p.next s.npipe e = some (p', child) →
          p.total callCount = 1 + (p'.total callCount + child.elim 0 (Process.total callCount)) :=
        fun hnext => by
          rw [total_next callCount (hok.uniform callCount) hact hnext, gives_callCount]
      obtain ⟨rest, rfl⟩ | ⟨⟨p', child⟩, hcall⟩ := hok.answered (k := s.npipe) hact
      · obtain ⟨c, hc⟩ := exists_waits htidy hyoung
        have hwait : p.next s.npipe (.wait c) = some (p.resume rest, none) := by
          rw [Process.next, hact]
          rfl
        exact hstep hwait hc (hnext hwait)
      · exact hstep hcall rfl (hnext hcall)
  | program argv =>
      have hexit : p.next s.npipe .exit = some (p.exits, none) := by
        rw [Process.next, hact]
      refine hstep hexit rfl ?_
      rw [Process.total, hact]
      rfl
  | zombie =>
      rw [Process.isZombie, hact] at halive
      cases halive

/-! ### The command line -/

theorem leafCount_run {ls : List (ℕ × Event)} {s : System}
    (hs : run System.step (start tree) ls = some s) :
    leaves [] tree = outputs System.step System.execs (start tree) ls + s.total leafCount := by
  rw [← start_leafCount]
  exact run_outputs (fun s => Inv tree s ∧ Tidy s) (System.total leafCount)
    (fun _ _ _ hinv hstep => ⟨⟨hinv.1.step hstep, hinv.2.step hstep⟩,
      leafCount_step hinv.1 hinv.2 hstep⟩) ⟨inv_start, tidy_start⟩ hs

theorem outputs_over {ls : List (ℕ × Event)} {s : System}
    (hs : run System.step (start tree) ls = some s) (hover : s.Over) :
    outputs System.step System.execs (start tree) ls = leaves [] tree := by
  rw [leafCount_run hs, total_over hover, add_zero]

theorem exists_over {s : System} (hs : Reachable System.step (start tree) s) :
    ∃ ls s', run System.step s ls = some s' ∧ s'.Over := by
  have hstep : ∀ s label s', Inv tree s ∧ Tidy s → System.step s label = some s' →
      Inv tree s' ∧ Tidy s' :=
    fun _ _ _ hinv hstep => ⟨hinv.1.step hstep, hinv.2.step hstep⟩
  obtain ⟨ls, s', hrun, -, hover⟩ := exists_run_to_end (fun s => Inv tree s ∧ Tidy s) System.Over
    (System.total callCount) hstep (fun _ hinv => exists_smaller hinv.1 hinv.2) s
    (hs.invariant _ ⟨inv_start, tidy_start⟩ hstep)
  exact ⟨ls, s', hrun, hover⟩

/-- In every state that a command line leads to: a process that is about to call `exec` does so
for a command of the command line, and has the descriptors 0, 1 and 2 only, as the constructs
around this command say; once no process is starting the stages of a pipe, its write end is
only in processes that run something on its left side and have not exited; a call of the shell
is answered unless it waits for a child. No command is `exec`'ed more often than it stands in the
command line, and every run goes on, with programs that exit and `wait`s that return, to one
in which all processes have exited; and then every command has been `exec`'ed. -/
theorem runcmd_plumbing {ls : List (ℕ × Event)} {s : System}
    (hs : run System.step (start tree) ls = some s) :
    (∀ pid p argv c, s.proc pid = some p → p.act = .shell (.call (.exec argv) c) →
      plug p.ctx (.exec argv) = tree ∧
      p.ofile = table [some (expected p.ctx 0), some (expected p.ctx 1), some (.outer 2)]) ∧
    (∀ k, (∀ pid p, s.proc pid = some p → ¬ Starting k p) →
      ∀ pid p, s.proc pid = some p → some (.write k) ∈ p.ofile →
        p.isZombie = false ∧ ∃ r, .left k r ∈ p.ctx) ∧
    (∀ pid p o c, s.proc pid = some p → p.act = .shell (.call o c) → o ≠ .wait →
      ∃ s', s.step (pid, .call) = some s') ∧
    outputs System.step System.execs (start tree) ls ≤ leaves [] tree ∧
    (s.Over → outputs System.step System.execs (start tree) ls = leaves [] tree) ∧
    (∃ ls' s', run System.step s ls' = some s' ∧ s'.Over ∧
      outputs System.step System.execs (start tree) (ls ++ ls') = leaves [] tree) := by
  have hinv := inv_reachable ⟨ls, hs⟩
  refine ⟨?_, ?_, ?_, ?_, outputs_over hs, ?_⟩
  · intro pid p argv c hp hact
    exact (hinv pid p hp).exec hact
  · intro k hstarted pid p hp hk
    exact ((hinv pid p hp).holder hk).resolve_right (hstarted pid p hp)
  · intro pid p o c hp hact hwait
    exact (hinv pid p hp).step hp hact hwait
  · rw [leafCount_run hs]
    exact Multiset.le_add_right _ _
  · obtain ⟨ls', s', hrun, hover⟩ := exists_over ⟨ls, hs⟩
    exact ⟨ls', s', hrun, hover, outputs_over (run_append_eq_some.mpr ⟨s, hs, hrun⟩) hover⟩

/-- The two stages of `a | b` at their `exec`, and a run from there in which both are `exec`'ed. -/
theorem runcmd_plumbing_pipe :
    ∃ (ls ls' : List (ℕ × Event)) (s s' : System) (p q : Process) (c c' : Unit → Prog),
      run System.step (start (.pipe (.exec [[97]]) (.exec [[98]]))) ls = some s ∧
      s.proc 4 = some p ∧ s.proc 5 = some q ∧
      p.act = .shell (.call (.exec [[97]]) c) ∧ q.act = .shell (.call (.exec [[98]]) c') ∧
      p.ofile = table [some (.outer 0), some (.write 0), some (.outer 2)] ∧
      q.ofile = table [some (.read 0), some (.outer 1), some (.outer 2)] ∧
      run System.step s ls' = some s' ∧
      outputs System.step System.execs (start (.pipe (.exec [[97]]) (.exec [[98]]))) (ls ++ ls') =
        {([.left 0 (.exec [[98]])], [[97]]), ([.right 0 (.exec [[97]])], [[98]])} := by
  have hrun : ∃ (ls : List (ℕ × Event)) (s : System) (p q : Process) (c c' : Unit → Prog),
      run System.step (start (.pipe (.exec [[97]]) (.exec [[98]]))) ls = some s ∧
      s.proc 4 = some p ∧ s.proc 5 = some q ∧
      p.act = .shell (.call (.exec [[97]]) c) ∧ q.act = .shell (.call (.exec [[98]]) c') ∧
      expected p.ctx 0 = .outer 0 ∧ expected p.ctx 1 = .write 0 ∧
      expected q.ctx 0 = .read 0 ∧ expected q.ctx 1 = .outer 1 :=
    ⟨[(2, .call), (2, .call), (2, .call), (4, .call), (4, .call), (4, .call), (4, .call),
      (5, .call), (5, .call), (5, .call), (5, .call)], _, _, _, _, _, rfl,
      rfl, rfl, rfl, rfl, rfl, rfl, rfl, rfl⟩
  obtain ⟨ls, s, p, q, c, c', hs, hp, hq, hpact, hqact, hp0, hp1, hq0, hq1⟩ := hrun
  obtain ⟨hexec, -, -, -, -, ls', s', hs', -, houtputs⟩ := runcmd_plumbing hs
  refine ⟨ls, ls', s, s', p, q, c, c', hs, hp, hq, hpact, hqact, ?_, ?_, hs', houtputs⟩
  · rw [(hexec 4 p _ c hp hpact).2, hp0, hp1]
  · rw [(hexec 5 q _ c' hq hqact).2, hq0, hq1]

end Shell

end Xv6
