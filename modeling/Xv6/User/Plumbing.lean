import Xv6.User.Shell

/-!
# Every command gets its descriptors

At each point of `runcmd` the constructs around the command say what is open. So a command
is `exec`'ed with the descriptors 0, 1 and 2 only, as the innermost construct around it that
sets the descriptor has it, and beyond the processes that are still setting up a pipe its
write end is only in processes that run something on its left side.
-/

namespace Xv6

namespace Shell

open Foundation

variable {tree cmd l r : Cmd} {ctx : List Frame} {p p' : Process} {child : Option Process}
  {e : Event} {k fd : ℕ} {rest a b : Prog} {ofile : List (Option File)}

/-- What a construct sets the descriptor to. -/
def Frame.sets (fd : ℕ) : Frame → Option File
  | .redir file mode n => if n.val = fd then some (.opened file mode) else none
  | .left k _ => if fd = 1 then some (.write k) else none
  | .right k _ => if fd = 0 then some (.read k) else none
  | _ => none

/-- What the innermost construct that sets the descriptor sets it to; what it was in the
beginning if there is none. -/
def expected (ctx : List Frame) (fd : ℕ) : File := (ctx.findSome? (Frame.sets fd)).getD (.outer fd)

/-- The descriptors 0, 1 and 2 as the constructs say, and others from 3 on. -/
def std (ctx : List Frame) (more : List (Option File)) : List (Option File) :=
  table ([some (expected ctx 0), some (expected ctx 1), some (.outer 2)] ++ more)

/-! ### Points of `runcmd` -/

/-- The points of `runcmd` for a command within `ctx`, with what is open there. -/
inductive At (tree : Cmd) (ctx : List Frame) : Prog → List (Option File) → Prop
  | run {cmd : Cmd} (h : plug ctx cmd = tree) : At tree ctx (runcmd ctx cmd) (std ctx [])
  | exit : At tree ctx exit (std ctx [])
  | wait : At tree ctx (wait exit) (std ctx [])
  | wait₂ : At tree ctx (wait (wait exit)) (std ctx [])
  | rest {l r : Cmd} (h : plug ctx (.list l r) = tree) :
      At tree ctx (listRest ctx l r) (std ctx [])
  | open {cmd : Cmd} {file : List UInt8} {mode : UInt32} {fd : Fin 2}
      (h : plug ctx (.redir cmd file mode fd) = tree) :
      At tree ctx (redirOpen ctx cmd file mode fd) ((std ctx []).set fd none)
  | first {l r : Cmd} {k : ℕ} (h : plug ctx (.pipe l r) = tree) :
      At tree ctx (pipeFirst ctx l r 3 4 k) (std ctx [some (.read k), some (.write k)])
  | second {l r : Cmd} {k : ℕ} (h : plug ctx (.pipe l r) = tree) :
      At tree ctx (pipeSecond ctx l r 3 4 k) (std ctx [some (.read k), some (.write k)])
  | parent {k : ℕ} : At tree ctx (pipeParent 3 4) (std ctx [some (.read k), some (.write k)])
  | parent₁ {k : ℕ} :
      At tree ctx (close 4 (Shell.wait (Shell.wait Shell.exit)))
        ((std ctx [some (.read k), some (.write k)]).set 3 none)
  | left {l r : Cmd} {k : ℕ} (h : plug ctx (.pipe l r) = tree) :
      At tree ctx (pipeLeft 3 4 (.done (.left k r :: ctx, l)))
        (std ctx [some (.read k), some (.write k)])
  | left₁ {l r : Cmd} {k : ℕ} (h : plug ctx (.pipe l r) = tree) :
      At tree ctx (dup 4 (closeEnds 3 4 (.done (.left k r :: ctx, l))))
        ((std ctx [some (.read k), some (.write k)]).set 1 none)
  | left₂ {l r : Cmd} {k : ℕ} (h : plug ctx (.pipe l r) = tree) :
      At tree ctx (closeEnds 3 4 (.done (.left k r :: ctx, l)))
        ((std ctx [some (.read k), some (.write k)]).set 1 (some (.write k)))
  | left₃ {l r : Cmd} {k : ℕ} (h : plug ctx (.pipe l r) = tree) :
      At tree ctx (close 4 (.done (.left k r :: ctx, l)))
        (((std ctx [some (.read k), some (.write k)]).set 1 (some (.write k))).set 3 none)
  | right {l r : Cmd} {k : ℕ} (h : plug ctx (.pipe l r) = tree) :
      At tree ctx (pipeRight 3 4 (.done (.right k l :: ctx, r)))
        (std ctx [some (.read k), some (.write k)])
  | right₁ {l r : Cmd} {k : ℕ} (h : plug ctx (.pipe l r) = tree) :
      At tree ctx (dup 3 (closeEnds 3 4 (.done (.right k l :: ctx, r))))
        ((std ctx [some (.read k), some (.write k)]).set 0 none)
  | right₂ {l r : Cmd} {k : ℕ} (h : plug ctx (.pipe l r) = tree) :
      At tree ctx (closeEnds 3 4 (.done (.right k l :: ctx, r)))
        ((std ctx [some (.read k), some (.write k)]).set 0 (some (.read k)))
  | right₃ {l r : Cmd} {k : ℕ} (h : plug ctx (.pipe l r) = tree) :
      At tree ctx (close 4 (.done (.right k l :: ctx, r)))
        (((std ctx [some (.read k), some (.write k)]).set 0 (some (.read k))).set 3 none)

/-- What holds of a process: the shell is at a point of `runcmd`, a program has been
`exec`'ed for a command of the command line and has only descriptors that it was given. -/
def Ok (tree : Cmd) (p : Process) : Prop :=
  match p.act with
  | .shell prog => At tree p.ctx prog p.ofile
  | .program argv => plug p.ctx (.exec argv) = tree ∧ ∀ f, some f ∈ p.ofile → some f ∈ std p.ctx []
  | .zombie => ∀ f, some f ∉ p.ofile

/-! ### The calls of a process of the shell -/

section Calls

variable {file : List UInt8} {mode : UInt32} {fd' : ℕ} {t : List (Option File)}
  {argv : List (List UInt8)}

theorem next_close (hact : p.act = .shell (close fd rest)) (h : p.next k e = some (p', child)) :
    p' = { p with ofile := p.ofile.set fd none }.resume rest ∧ child = none := by
  cases e <;> simp [Process.next, hact, close, Process.answer] at h
  exact ⟨h.1.symm, h.2.symm⟩

theorem next_dup (hact : p.act = .shell (dup fd rest)) (hdup : sys_dup p.ofile fd = some (fd', t))
    (h : p.next k e = some (p', child)) :
    p' = { p with ofile := t }.resume rest ∧ child = none := by
  cases e <;> simp [Process.next, hact, dup, Process.answer, hdup] at h
  exact ⟨h.1.symm, h.2.symm⟩

theorem next_wait (hact : p.act = .shell (wait rest)) (h : p.next k e = some (p', child)) :
    p' = p.resume rest ∧ child = none := by
  cases e <;> simp [Process.next, hact, wait, Process.answer] at h
  exact ⟨h.1.symm, h.2.symm⟩

theorem next_fork (hact : p.act = .shell (fork a b)) (h : p.next k e = some (p', child)) :
    p' = p.resume b ∧ child = some (p.resume a) := by
  cases e <;> simp [Process.next, hact, fork, Process.answer] at h
  exact ⟨h.1.symm, h.2.symm⟩

theorem next_exit (hact : p.act = .shell exit) (h : p.next k e = some (p', child)) :
    p' = p.exits ∧ child = none := by
  cases e <;> simp [Process.next, hact, exit, Process.answer] at h
  exact ⟨h.1.symm, h.2.symm⟩

theorem next_open {c : Option ℕ → Prog} (hact : p.act = .shell (.call (.open file mode) c))
    (hopen : fdalloc p.ofile (.opened file mode) = some (fd', t))
    (h : p.next k e = some (p', child)) :
    p' = { p with ofile := t }.resume (c (some fd')) ∧ child = none := by
  cases e <;> simp [Process.next, hact, Process.answer, hopen] at h
  exact ⟨h.1.symm, h.2.symm⟩

theorem next_pipe {c : Option (ℕ × ℕ × ℕ) → Prog} (hact : p.act = .shell (.call .pipe c))
    (hpipe : sys_pipe p.ofile k = some (fd, fd', t)) (h : p.next k e = some (p', child)) :
    p' = { p with ofile := t }.resume (c (some (fd, fd', k))) ∧ child = none := by
  cases e <;> simp [Process.next, hact, Process.answer, hpipe] at h
  exact ⟨h.1.symm, h.2.symm⟩

/-- `exec` replaces the shell by the program, or it fails. -/
theorem next_exec {c : Unit → Prog} (hact : p.act = .shell (.call (.exec argv) c))
    (h : p.next k e = some (p', child)) :
    (p' = { p with act := .program argv } ∨ p' = p.resume (c ())) ∧ child = none := by
  cases e <;> simp [Process.next, hact, Process.answer] at h
  · exact ⟨.inl h.1.symm, h.2.symm⟩
  · exact ⟨.inr h.1.symm, h.2.symm⟩

theorem mem_of_sys_dup {f : File} (hdup : sys_dup ofile fd = some (fd', t)) (hf : some f ∈ t) :
    some f ∈ ofile := by
  rw [sys_dup, Option.bind_eq_some_iff] at hdup
  obtain ⟨g, hg, halloc⟩ := hdup
  rw [fdalloc, Option.map_eq_some_iff] at halloc
  obtain ⟨i, -, heq⟩ := halloc
  cases heq
  cases List.mem_or_eq_of_mem_set hf with
  | inl hmem => exact hmem
  | inr heq =>
      cases heq
      exact List.mem_of_getElem? (Option.join_eq_some_iff.mp hg)

/-- What a program does takes files away or makes copies. -/
theorem next_program (hact : p.act = .program argv) (h : p.next k e = some (p', child)) :
    (p' = p.exits ∨ p'.ctx = p.ctx ∧ p'.act = .program argv ∧
      ∀ f, some f ∈ p'.ofile → some f ∈ p.ofile) ∧ (child = none ∨ child = some p) := by
  have hsame : p.ctx = p.ctx ∧ p.act = .program argv ∧ ∀ f, some f ∈ p.ofile → some f ∈ p.ofile :=
    ⟨rfl, hact, fun _ => id⟩
  rw [Process.next.eq_def] at h
  cases e with
  | call =>
      simp only [hact] at h
      cases h
  | fail =>
      simp only [hact] at h
      cases h
  | wait c =>
      simp only [hact] at h
      cases h
      exact ⟨.inr hsame, .inl rfl⟩
  | close fd =>
      simp only [hact] at h
      cases h
      refine ⟨.inr ⟨rfl, rfl, fun f hf => ?_⟩, .inl rfl⟩
      cases List.mem_or_eq_of_mem_set hf with
      | inl hmem => exact hmem
      | inr heq => cases heq
  | dup fd =>
      simp only [hact] at h
      obtain ⟨⟨fd', t⟩, hdup, heq⟩ := Option.map_eq_some_iff.mp h
      cases heq
      exact ⟨.inr ⟨rfl, rfl, fun f hf => mem_of_sys_dup hdup hf⟩, .inl rfl⟩
  | fork =>
      simp only [hact] at h
      cases h
      exact ⟨.inr hsame, .inr rfl⟩
  | exit =>
      simp only [hact] at h
      cases h
      exact ⟨.inl rfl, .inl rfl⟩

end Calls

/-! ### A step -/

theorem ok_resume {o : Call} {c : o.Resp → Prog} (h : At tree p.ctx (.call o c) p.ofile) :
    Ok tree (p.resume (.call o c)) := h

theorem ok_enter (h : plug ctx cmd = tree) (hofile : p.ofile = std ctx []) :
    Ok tree (p.resume (.done (ctx, cmd))) := by
  change At tree ctx (runcmd ctx cmd) p.ofile
  rw [hofile]
  exact .run h

theorem ok_exits : Ok tree p.exits := by
  intro f hf
  obtain ⟨g, -, hg⟩ := List.mem_map.mp hf
  cases hg

/-- Nothing happens to the descriptors of a process that waits, and it has no child. -/
theorem ok_wait {prog : Prog} (hact : p.act = .shell (wait prog)) (h : Ok tree (p.resume prog))
    (hnext : p.next k e = some (p', child)) : Ok tree p' ∧ ∀ c, child = some c → Ok tree c := by
  obtain ⟨rfl, rfl⟩ := next_wait hact hnext
  exact ⟨h, fun c hc => by cases hc⟩

theorem ok_close (hact : p.act = .shell (close fd rest))
    (h : Ok tree ({ p with ofile := p.ofile.set fd none }.resume rest))
    (hnext : p.next k e = some (p', child)) : Ok tree p' ∧ ∀ c, child = some c → Ok tree c := by
  obtain ⟨rfl, rfl⟩ := next_close hact hnext
  exact ⟨h, fun c hc => by cases hc⟩

theorem ok_fork (hact : p.act = .shell (fork a b)) (ha : Ok tree (p.resume a))
    (hb : Ok tree (p.resume b)) (hnext : p.next k e = some (p', child)) :
    Ok tree p' ∧ ∀ c, child = some c → Ok tree c := by
  obtain ⟨rfl, rfl⟩ := next_fork hact hnext
  exact ⟨hb, fun c hc => by cases hc; exact ha⟩

/-- One step from the beginning of `runcmd`. -/
theorem Ok.runcmd (h : plug p.ctx cmd = tree) (hofile : p.ofile = std p.ctx [])
    (hact : p.act = .shell (runcmd p.ctx cmd)) (hnext : p.next k e = some (p', child)) :
    Ok tree p' ∧ ∀ c, child = some c → Ok tree c := by
  cases cmd with
  | exec argv =>
      by_cases hargv : argv = []
      · rw [Shell.runcmd, if_pos hargv] at hact
        obtain ⟨rfl, rfl⟩ := next_exit hact hnext
        exact ⟨ok_exits, fun c hc => by cases hc⟩
      · rw [Shell.runcmd, if_neg hargv] at hact
        obtain ⟨hp', rfl⟩ := next_exec hact hnext
        refine ⟨?_, fun c hc => by cases hc⟩
        cases hp' with
        | inl hp' =>
            rw [hp']
            exact ⟨h, fun f hf => hofile ▸ hf⟩
        | inr hp' =>
            rw [hp']
            refine ok_resume ?_
            rw [hofile]
            exact .exit
  | redir cmd file mode fd =>
      refine ok_close hact (ok_resume ?_) hnext
      rw [hofile]
      exact .open h
  | pipe l r =>
      have hpipe : sys_pipe p.ofile k =
          some (3, 4, std p.ctx [some (.read k), some (.write k)]) := by
        rw [hofile]
        rfl
      obtain ⟨rfl, rfl⟩ := next_pipe hact hpipe hnext
      exact ⟨ok_resume (.first h), fun c hc => by cases hc⟩
  | list l r =>
      refine ok_fork hact (ok_enter h hofile) (ok_resume ?_) hnext
      rw [hofile]
      exact .rest h
  | back cmd =>
      refine ok_fork hact (ok_enter h hofile) (ok_resume ?_) hnext
      rw [hofile]
      exact .exit

/-- One step from a point of `runcmd`. -/
theorem At.next {prog : Prog} (h : At tree p.ctx prog p.ofile) (hact : p.act = .shell prog)
    (hnext : p.next k e = some (p', child)) : Ok tree p' ∧ ∀ c, child = some c → Ok tree c := by
  generalize hofile : p.ofile = ofile at h
  cases h with
  | run h => exact Ok.runcmd h hofile hact hnext
  | exit =>
      obtain ⟨rfl, rfl⟩ := next_exit hact hnext
      exact ⟨ok_exits, fun c hc => by cases hc⟩
  | wait =>
      refine ok_wait hact (ok_resume ?_) hnext
      rw [hofile]
      exact .exit
  | wait₂ =>
      refine ok_wait hact (ok_resume ?_) hnext
      rw [hofile]
      exact .wait
  | rest h => exact ok_wait hact (ok_enter h hofile) hnext
  | @«open» cmd file mode fd h =>
      have hopen : fdalloc p.ofile (.opened file mode) =
          some (fd.val, std (.redir file mode fd :: p.ctx) []) := by
        rw [hofile]
        fin_cases fd <;> rfl
      obtain ⟨rfl, rfl⟩ := next_open hact hopen hnext
      exact ⟨ok_enter h rfl, fun c hc => by cases hc⟩
  | first h =>
      refine ok_fork hact (ok_resume ?_) (ok_resume ?_) hnext
      · rw [hofile]
        exact .left h
      · rw [hofile]
        exact .second h
  | second h =>
      refine ok_fork hact (ok_resume ?_) (ok_resume ?_) hnext
      · rw [hofile]
        exact .right h
      · rw [hofile]
        exact .parent
  | parent =>
      refine ok_close hact (ok_resume ?_) hnext
      rw [hofile]
      exact .parent₁
  | parent₁ =>
      refine ok_close hact (ok_resume ?_) hnext
      rw [hofile]
      exact .wait₂
  | left h =>
      refine ok_close hact (ok_resume ?_) hnext
      rw [hofile]
      exact .left₁ h
  | @left₁ l r k' h =>
      have hdup : sys_dup p.ofile 4 = some (1, (std p.ctx
          [some (.read k'), some (.write k')]).set 1 (some (.write k'))) := by
        rw [hofile]
        rfl
      obtain ⟨rfl, rfl⟩ := next_dup hact hdup hnext
      exact ⟨ok_resume (.left₂ h), fun c hc => by cases hc⟩
  | left₂ h =>
      refine ok_close hact (ok_resume ?_) hnext
      rw [hofile]
      exact .left₃ h
  | left₃ h =>
      refine ok_close hact (ok_enter h ?_) hnext
      rw [hofile]
      rfl
  | right h =>
      refine ok_close hact (ok_resume ?_) hnext
      rw [hofile]
      exact .right₁ h
  | @right₁ l r k' h =>
      have hdup : sys_dup p.ofile 3 = some (0, (std p.ctx
          [some (.read k'), some (.write k')]).set 0 (some (.read k'))) := by
        rw [hofile]
        rfl
      obtain ⟨rfl, rfl⟩ := next_dup hact hdup hnext
      exact ⟨ok_resume (.right₂ h), fun c hc => by cases hc⟩
  | right₂ h =>
      refine ok_close hact (ok_resume ?_) hnext
      rw [hofile]
      exact .right₃ h
  | right₃ h =>
      refine ok_close hact (ok_enter h ?_) hnext
      rw [hofile]
      rfl

/-- One step of a process. -/
theorem Ok.next (h : Ok tree p) (hnext : p.next k e = some (p', child)) :
    Ok tree p' ∧ ∀ c, child = some c → Ok tree c := by
  cases hact : p.act with
  | shell prog =>
      rw [Ok, hact] at h
      exact At.next h hact hnext
  | program argv =>
      have hok := h
      rw [Ok, hact] at h
      obtain ⟨hp', hchild⟩ := next_program hact hnext
      refine ⟨?_, fun c hc => ?_⟩
      · cases hp' with
        | inl hp' => exact hp' ▸ ok_exits
        | inr hp' =>
            obtain ⟨hctx, hact', hsub⟩ := hp'
            rw [Ok, hact', hctx]
            exact ⟨h.1, fun f hf => h.2 f (hsub f hf)⟩
      · cases hchild with
        | inl hnone =>
            rw [hnone] at hc
            cases hc
        | inr hsome =>
            rw [hsome] at hc
            cases hc
            exact hok
  | zombie =>
      cases e <;> simp [Process.next, hact] at hnext

/-! ### All processes -/

def Inv (tree : Cmd) (s : System) : Prop := ∀ pid p, s.proc pid = some p → Ok tree p

theorem inv_start : Inv tree (start tree) := by
  intro pid p hp
  rw [start] at hp
  by_cases hpid : pid = 2
  · cases (if_pos hpid).symm.trans hp
    exact At.run rfl
  · cases (if_neg hpid).symm.trans hp

/-- A step is one of a process, and `wait` has something to return. -/
theorem System.step_eq_some {s s' : System} {label : ℕ × Event} (h : s.step label = some s') :
    ∃ p p' child, s.proc label.1 = some p ∧ p.next s.npipe label.2 = some (p', child) ∧
      s.waits label.1 label.2 = true ∧ s' = {
        proc := fun q =>
          if q = s.npid then child.map fun c => { c with parent := label.1 }
          else if q = label.1 then some p'
          else s.others label.1 p' label.2 q
        npid := s.npid + 1
        npipe := s.npipe + 1 } := by
  obtain ⟨p, hp, h⟩ := Option.bind_eq_some_iff.mp h
  obtain ⟨⟨p', child⟩, hnext, h⟩ := Option.bind_eq_some_iff.mp h
  change (if s.waits label.1 label.2 = true then some _ else none) = some s' at h
  by_cases hwaits : s.waits label.1 label.2 = true
  · rw [if_pos hwaits] at h
    exact ⟨p, p', child, hp, hnext, hwaits, (Option.some.inj h).symm⟩
  · rw [if_neg hwaits] at h
    cases h

/-- What is there after a step is the child, the process itself, or another one that may have
been passed to `init`. -/
theorem System.proc_step {s : System} {pid q : ℕ} {c : Process}
    (h : (if q = s.npid then child.map fun c => { c with parent := pid }
      else if q = pid then some p' else s.others pid p' e q) = some c) :
    (q = s.npid ∧ ∃ d, child = some d ∧ c = { d with parent := pid }) ∨ (q = pid ∧ c = p') ∨
      ∃ d, s.proc q = some d ∧ (c = d ∨ c = { d with parent := INIT }) := by
  by_cases hnew : q = s.npid
  · rw [if_pos hnew] at h
    obtain ⟨d, hd, rfl⟩ := Option.map_eq_some_iff.mp h
    exact .inl ⟨hnew, d, hd, rfl⟩
  rw [if_neg hnew] at h
  by_cases hself : q = pid
  · rw [if_pos hself] at h
    exact .inr (.inl ⟨hself, (Option.some.inj h).symm⟩)
  rw [if_neg hself, System.others] at h
  split at h
  · cases h
  · obtain ⟨d, hd, rfl⟩ := Option.map_eq_some_iff.mp h
    refine .inr (.inr ⟨d, hd, ?_⟩)
    split
    · exact .inr rfl
    · exact .inl rfl

theorem Inv.step {s s' : System} {label : ℕ × Event} (h : Inv tree s)
    (hstep : s.step label = some s') : Inv tree s' := by
  obtain ⟨p, p', child, hp, hnext, -, rfl⟩ := System.step_eq_some hstep
  obtain ⟨hp', hchild⟩ := (h _ p hp).next hnext
  intro q c hc
  obtain ⟨-, d, hd, rfl⟩ | ⟨-, rfl⟩ | ⟨d, hd, rfl | rfl⟩ := System.proc_step hc
  · exact hchild d hd
  · exact hp'
  · exact h q c hd
  · exact h q d hd

theorem inv_reachable {s : System} (hs : Reachable System.step (start tree) s) : Inv tree s :=
  hs.invariant (Inv tree) inv_start fun _ _ _ hinv hstep => hinv.step hstep

/-! ### The write ends of pipes -/

/-- The points of `runcmd` from the answer of `pipe` to the last `close` of its descriptors:
the parent until its `close(p[1])`, and a child until it calls `runcmd`. -/
inductive Plumbing (p0 p1 : ℕ) : Prog → Prop
  | first {ctx : List Frame} {l r : Cmd} {k : ℕ} : Plumbing p0 p1 (pipeFirst ctx l r p0 p1 k)
  | second {ctx : List Frame} {l r : Cmd} {k : ℕ} : Plumbing p0 p1 (pipeSecond ctx l r p0 p1 k)
  | parent : Plumbing p0 p1 (pipeParent p0 p1)
  | parent₁ : Plumbing p0 p1 (close p1 (wait (wait exit)))
  | left {ctx : List Frame} {cmd : Cmd} : Plumbing p0 p1 (pipeLeft p0 p1 (.done (ctx, cmd)))
  | right {ctx : List Frame} {cmd : Cmd} : Plumbing p0 p1 (pipeRight p0 p1 (.done (ctx, cmd)))
  | dup {fd : ℕ} {ctx : List Frame} {cmd : Cmd} :
      Plumbing p0 p1 (dup fd (closeEnds p0 p1 (.done (ctx, cmd))))
  | ends {ctx : List Frame} {cmd : Cmd} : Plumbing p0 p1 (closeEnds p0 p1 (.done (ctx, cmd)))
  | last {ctx : List Frame} {cmd : Cmd} : Plumbing p0 p1 (close p1 (.done (ctx, cmd)))

/-- The process is starting the stages of pipe `k`: it is at such a point, with the pipe's
write end as its `p[1]`. -/
def Starting (k : ℕ) (p : Process) : Prop :=
  ∃ prog p0 p1, p.act = .shell prog ∧ Plumbing p0 p1 prog ∧ p.ofile[p1]? = some (some (.write k))

theorem write_of_sets {f : Frame} (h : f.sets fd = some (.write k)) : ∃ r, f = .left k r := by
  cases f with
  | left k' r =>
      rw [Frame.sets] at h
      split_ifs at h
      cases h
      exact ⟨r, rfl⟩
  | redir file mode n =>
      rw [Frame.sets] at h
      split_ifs at h
      cases h
  | right k' l =>
      rw [Frame.sets] at h
      split_ifs at h
      cases h
  | listLeft r => cases h
  | listRight l => cases h
  | back => cases h

theorem left_of_expected (h : expected ctx fd = .write k) : ∃ r, .left k r ∈ ctx := by
  cases hfind : ctx.findSome? (Frame.sets fd) with
  | none =>
      rw [expected, hfind] at h
      cases h
  | some f =>
      rw [expected, hfind] at h
      obtain ⟨frame, hmem, hsets⟩ := List.exists_of_findSome?_eq_some hfind
      obtain ⟨r, rfl⟩ := write_of_sets (hsets.trans (congrArg some h))
      exact ⟨r, hmem⟩

theorem write_mem_std {more : List (Option File)} (h : some (.write k) ∈ std ctx more) :
    (∃ r, .left k r ∈ ctx) ∨ some (.write k) ∈ more := by
  rw [std, table, List.mem_append, List.mem_append] at h
  cases h with
  | inl h =>
      cases h with
      | inl h =>
          simp only [List.mem_cons, List.not_mem_nil, or_false, Option.some.injEq] at h
          obtain h | h | h := h
          · exact .inl (left_of_expected h.symm)
          · exact .inl (left_of_expected h.symm)
          · cases h
      | inr h => exact .inr h
  | inr h => cases List.eq_of_mem_replicate h

theorem write_mem_ends {k' : ℕ}
    (h : some (.write k) ∈ std ctx [some (.read k'), some (.write k')]) :
    (∃ r, .left k r ∈ ctx) ∨ k = k' := by
  refine (write_mem_std h).imp_right fun hmem => ?_
  simp only [List.mem_cons, List.not_mem_nil, or_false, Option.some.injEq] at hmem
  obtain hmem | hmem := hmem
  · cases hmem
  · cases hmem
    rfl

theorem mem_of_mem_close {f : File} (h : some f ∈ ofile.set fd none) : some f ∈ ofile := by
  cases List.mem_or_eq_of_mem_set h with
  | inl hmem => exact hmem
  | inr heq => cases heq

theorem write_mem_left {k' : ℕ}
    (h : some (.write k) ∈
      (std ctx [some (.read k'), some (.write k')]).set 1 (some (.write k'))) :
    (∃ r, .left k r ∈ ctx) ∨ k = k' := by
  cases List.mem_or_eq_of_mem_set h with
  | inl hmem => exact write_mem_ends hmem
  | inr heq =>
      cases heq
      exact .inr rfl

theorem write_mem_right {k' : ℕ}
    (h : some (.write k) ∈ (std ctx [some (.read k'), some (.write k')]).set 0 (some (.read k'))) :
    (∃ r, .left k r ∈ ctx) ∨ k = k' := by
  cases List.mem_or_eq_of_mem_set h with
  | inl hmem => exact write_mem_ends hmem
  | inr heq => cases heq

theorem holder_of {prog : Prog} {k' : ℕ} (hk : (∃ r, .left k r ∈ ctx) ∨ k = k')
    (hprog : Plumbing 3 4 prog) (hend : ofile[4]? = some (some (.write k'))) :
    (∃ r, .left k r ∈ ctx) ∨
      ∃ p0 p1, Plumbing p0 p1 prog ∧ ofile[p1]? = some (some (.write k)) := by
  refine hk.imp_right fun heq => ?_
  rw [heq]
  exact ⟨3, 4, hprog, hend⟩

/-- An end of a pipe is open as a process of the shell has it from its constructs, or while it
starts the stages of this pipe. -/
theorem At.holder {prog : Prog} (h : At tree ctx prog ofile) (hk : some (.write k) ∈ ofile) :
    (∃ r, .left k r ∈ ctx) ∨
      ∃ p0 p1, Plumbing p0 p1 prog ∧ ofile[p1]? = some (some (.write k)) := by
  cases h with
  | run h => exact .inl ((write_mem_std hk).resolve_right List.not_mem_nil)
  | exit => exact .inl ((write_mem_std hk).resolve_right List.not_mem_nil)
  | wait => exact .inl ((write_mem_std hk).resolve_right List.not_mem_nil)
  | wait₂ => exact .inl ((write_mem_std hk).resolve_right List.not_mem_nil)
  | rest h => exact .inl ((write_mem_std hk).resolve_right List.not_mem_nil)
  | «open» h =>
      exact .inl ((write_mem_std (mem_of_mem_close hk)).resolve_right List.not_mem_nil)
  | first h => exact holder_of (write_mem_ends hk) .first rfl
  | second h => exact holder_of (write_mem_ends hk) .second rfl
  | parent => exact holder_of (write_mem_ends hk) .parent rfl
  | parent₁ => exact holder_of (write_mem_ends (mem_of_mem_close hk)) .parent₁ rfl
  | left h => exact holder_of (write_mem_ends hk) .left rfl
  | left₁ h => exact holder_of (write_mem_ends (mem_of_mem_close hk)) .dup rfl
  | left₂ h => exact holder_of (write_mem_left hk) .ends rfl
  | left₃ h => exact holder_of (write_mem_left (mem_of_mem_close hk)) .last rfl
  | right h => exact holder_of (write_mem_ends hk) .right rfl
  | right₁ h => exact holder_of (write_mem_ends (mem_of_mem_close hk)) .dup rfl
  | right₂ h => exact holder_of (write_mem_right hk) .ends rfl
  | right₃ h => exact holder_of (write_mem_right (mem_of_mem_close hk)) .last rfl

/-- A write end of a pipe is in a process that runs something on its left side, which is no
zombie, or in one that starts its stages. -/
theorem Ok.holder (h : Ok tree p) (hk : some (.write k) ∈ p.ofile) :
    (p.isZombie = false ∧ ∃ r, .left k r ∈ p.ctx) ∨ Starting k p := by
  rw [Ok.eq_def] at h
  cases hact : p.act with
  | shell prog =>
      rw [hact] at h
      obtain hleft | ⟨p0, p1, hprog, hp1⟩ := At.holder h hk
      · exact .inl ⟨by rw [Process.isZombie, hact], hleft⟩
      · exact .inr ⟨prog, p0, p1, hact, hprog, hp1⟩
  | program argv =>
      rw [hact] at h
      exact .inl ⟨by rw [Process.isZombie, hact],
        (write_mem_std (h.2 _ hk)).resolve_right List.not_mem_nil⟩
  | zombie =>
      rw [hact] at h
      exact absurd hk (h _)

/-! ### What is open at `exec` -/

/-- The arguments of `exec`, for a process that is about to call it. -/
def execArgv : Prog → Option (List (List UInt8))
  | .call (.exec argv) _ => some argv
  | _ => none

theorem At.exec {prog : Prog} {argv : List (List UInt8)} (h : At tree ctx prog ofile)
    (hexec : execArgv prog = some argv) : plug ctx (.exec argv) = tree ∧ ofile = std ctx [] := by
  cases h with
  | @run cmd h =>
      cases cmd with
      | exec argv' =>
          rw [runcmd] at hexec
          by_cases hargv : argv' = []
          · rw [if_pos hargv] at hexec
            cases hexec
          · rw [if_neg hargv] at hexec
            cases hexec
            exact ⟨h, rfl⟩
      | redir cmd file mode fd => cases hexec
      | pipe l r => cases hexec
      | list l r => cases hexec
      | back cmd => cases hexec
  | exit => cases hexec
  | wait => cases hexec
  | wait₂ => cases hexec
  | rest h => cases hexec
  | «open» h => cases hexec
  | first h => cases hexec
  | second h => cases hexec
  | parent => cases hexec
  | parent₁ => cases hexec
  | left h => cases hexec
  | left₁ h => cases hexec
  | left₂ h => cases hexec
  | left₃ h => cases hexec
  | right h => cases hexec
  | right₁ h => cases hexec
  | right₂ h => cases hexec
  | right₃ h => cases hexec

theorem Ok.exec {argv : List (List UInt8)} {c : Unit → Prog} (h : Ok tree p)
    (hact : p.act = .shell (.call (.exec argv) c)) :
    plug p.ctx (.exec argv) = tree ∧ p.ofile = std p.ctx [] := by
  rw [Ok, hact] at h
  exact At.exec h rfl

/-! ### Every call is answered -/

theorem next_call {o : Call} {c : o.Resp → Prog} (hact : p.act = .shell (.call o c)) :
    p.next k .call = p.answer k o c := by
  rw [Process.next, hact]

theorem answered_dup (hact : p.act = .shell (dup fd rest)) : ∃ r, p.next k .call = some r := by
  rw [next_call hact, Process.answer]
  cases sys_dup p.ofile fd with
  | none => exact ⟨_, rfl⟩
  | some r => exact ⟨_, rfl⟩

theorem answered_open {file : List UInt8} {mode : UInt32} {fd' : ℕ} {t : List (Option File)}
    {c : Option ℕ → Prog} (hact : p.act = .shell (.call (.open file mode) c))
    (hopen : fdalloc p.ofile (.opened file mode) = some (fd', t)) :
    ∃ r, p.next k .call = some r := by
  rw [next_call hact]
  exact ⟨_, congrArg (Option.map _) hopen⟩

theorem answered_pipe {fd' : ℕ} {t : List (Option File)} {c : Option (ℕ × ℕ × ℕ) → Prog}
    (hact : p.act = .shell (.call .pipe c)) (hpipe : sys_pipe p.ofile k = some (fd, fd', t)) :
    ∃ r, p.next k .call = some r := by
  rw [next_call hact]
  exact ⟨_, congrArg (Option.map _) hpipe⟩

/-- `pipe` and `open` find free descriptors. -/
theorem At.answered {prog : Prog} (h : At tree p.ctx prog p.ofile) (hact : p.act = .shell prog) :
    (∃ rest, prog = Shell.wait rest) ∨ ∃ r, p.next k .call = some r := by
  generalize hofile : p.ofile = ofile at h
  cases h with
  | @run cmd h =>
      refine .inr ?_
      cases cmd with
      | exec argv =>
          by_cases hargv : argv = []
          · rw [runcmd, if_pos hargv] at hact
            exact ⟨_, next_call hact⟩
          · rw [runcmd, if_neg hargv] at hact
            exact ⟨_, next_call hact⟩
      | redir cmd file mode fd => exact ⟨_, next_call hact⟩
      | pipe l r =>
          have hpipe : sys_pipe p.ofile k =
              some (3, 4, std p.ctx [some (.read k), some (.write k)]) := by
            rw [hofile]
            rfl
          exact answered_pipe hact hpipe
      | list l r => exact ⟨_, next_call hact⟩
      | back cmd => exact ⟨_, next_call hact⟩
  | exit => exact .inr ⟨_, next_call hact⟩
  | wait => exact .inl ⟨_, rfl⟩
  | wait₂ => exact .inl ⟨_, rfl⟩
  | rest h => exact .inl ⟨_, rfl⟩
  | @«open» cmd file mode fd h =>
      have hopen : fdalloc p.ofile (.opened file mode) =
          some (fd.val, std (.redir file mode fd :: p.ctx) []) := by
        rw [hofile]
        fin_cases fd <;> rfl
      exact .inr (answered_open hact hopen)
  | first h => exact .inr ⟨_, next_call hact⟩
  | second h => exact .inr ⟨_, next_call hact⟩
  | parent => exact .inr ⟨_, next_call hact⟩
  | parent₁ => exact .inr ⟨_, next_call hact⟩
  | left h => exact .inr ⟨_, next_call hact⟩
  | left₁ h => exact .inr (answered_dup hact)
  | left₂ h => exact .inr ⟨_, next_call hact⟩
  | left₃ h => exact .inr ⟨_, next_call hact⟩
  | right h => exact .inr ⟨_, next_call hact⟩
  | right₁ h => exact .inr (answered_dup hact)
  | right₂ h => exact .inr ⟨_, next_call hact⟩
  | right₃ h => exact .inr ⟨_, next_call hact⟩

/-- A call of the shell other than `wait` is answered at once. -/
theorem Ok.step {s : System} {pid : ℕ} {o : Call} {c : o.Resp → Prog} (h : Ok tree p)
    (hp : s.proc pid = some p) (hact : p.act = .shell (.call o c)) (hwait : o ≠ .wait) :
    ∃ s', s.step (pid, .call) = some s' := by
  rw [Ok, hact] at h
  obtain ⟨rest, hrest⟩ | ⟨⟨p', child⟩, hnext⟩ := At.answered (k := s.npipe) h hact
  · cases hrest
    exact absurd rfl hwait
  · rw [System.step, hp, Option.bind_some, hnext, Option.bind_some]
    exact ⟨_, if_pos rfl⟩

end Shell

end Xv6
