import Xv6.Proc.Children

/-!
# `kill` and the slots it finds

`kill` looks for the pid in all slots, free ones included, and a free slot has pid 0 or,
after a `fork` that failed, the pid of the child that was not made. Here the calls are
made one after the other: a call is the run of its steps.
-/

namespace Xv6

namespace Procs

open Foundation

variable {s t : Procs} {l : Label}

/-! ### Pids -/

/-- The pids are the numbers of the processes; a free slot may still have one. -/
structure Pids (s : Procs) : Prop where
  nextpid : s.nextpid = Int32.ofNat (s.born + 1)
  pid : ∀ q, (s.proc q).state = .UNUSED ∧ (s.proc q).pid = 0 ∨
    (s.proc q).pid = Int32.ofNat (s.inc q + 1) ∧ s.inc q < s.born
  one : ∀ q q', (s.proc q).state ≠ .UNUSED ∨ (s.proc q).pid ≠ 0 →
    (s.proc q').state ≠ .UNUSED ∨ (s.proc q').pid ≠ 0 → s.inc q = s.inc q' → q = q'

theorem ofNat_inj {m n : ℕ} (hm : m < 2 ^ 31) (hn : n < 2 ^ 31)
    (h : Int32.ofNat m = Int32.ofNat n) : m = n := by
  have hi := congrArg Int32.toInt h
  rw [Int32.toInt_ofNat_of_lt hm, Int32.toInt_ofNat_of_lt hn] at hi
  exact_mod_cast hi

theorem pids_init : Pids init := by
  have hother : ∀ q, q ≠ initproc → init.proc q = ProcEntry.zero :=
    fun q hq => by simp [init, Function.update_of_ne hq]
  have hused : ∀ q, (init.proc q).state ≠ .UNUSED ∨ (init.proc q).pid ≠ 0 → q = initproc := by
    intro q hq
    by_contra hc
    rw [hother q hc] at hq
    simp [ProcEntry.zero] at hq
  refine ⟨rfl, fun q => ?_, fun q q' hq hq' _ => (hused q hq).trans (hused q' hq').symm⟩
  by_cases hq : q = initproc
  · subst hq
    exact .inr ⟨rfl, Nat.zero_lt_one⟩
  · rw [hother q hq]
    exact .inl ⟨rfl, rfl⟩

/-- A step that gives no pid: a slot keeps its pid and does not come into use, or is freed. -/
theorem Pids.keep (h : Pids s) (hnext : t.nextpid = s.nextpid) (hborn : t.born = s.born)
    (hinc : t.inc = s.inc)
    (hpid : ∀ q, (t.proc q).state = .UNUSED ∧ (t.proc q).pid = 0 ∨
      (t.proc q).pid = (s.proc q).pid ∧
        ((t.proc q).state ≠ .UNUSED → (s.proc q).state ≠ .UNUSED)) : Pids t := by
  have hused : ∀ q, (t.proc q).state ≠ .UNUSED ∨ (t.proc q).pid ≠ 0 →
      (s.proc q).state ≠ .UNUSED ∨ (s.proc q).pid ≠ 0 := by
    intro q hq
    rcases hpid q with ⟨hu, hz⟩ | ⟨hp, hs⟩
    · simp [hu, hz] at hq
    · rcases hq with hq | hq
      · exact .inl (hs hq)
      · exact .inr (hp ▸ hq)
  refine ⟨by rw [hnext, hborn]; exact h.nextpid, fun q => ?_, fun q q' hq hq' he => ?_⟩
  · rw [hborn, hinc]
    rcases hpid q with hz | ⟨hp, hs⟩
    · exact .inl hz
    · rw [hp]
      rcases h.pid q with ⟨hu, hz⟩ | hn
      · exact .inl ⟨by_contra fun hc => hs hc hu, hz⟩
      · exact .inr hn
  · rw [hinc] at he
    exact h.one q q' (hused q hq) (hused q' hq') he

/-- The same, for a slot that changes among the states in use, or is freed. -/
theorem Pids.setProc (h : Pids s) {np : Slot} {x : ProcEntry}
    (hproc : t.proc = Function.update s.proc np x) (hnext : t.nextpid = s.nextpid)
    (hborn : t.born = s.born) (hinc : t.inc = s.inc)
    (hx : x.state = .UNUSED ∧ x.pid = 0 ∨ x.pid = (s.proc np).pid ∧ (s.proc np).state ≠ .UNUSED) :
    Pids t := by
  refine h.keep hnext hborn hinc fun q => ?_
  by_cases hq : q = np
  · rw [hproc, hq, Function.update_self]
    rcases hx with hx | ⟨hp, hs⟩
    · exact .inl hx
    · exact .inr ⟨hp, fun _ => hs⟩
  · rw [hproc, Function.update_of_ne hq]
    exact .inr ⟨rfl, id⟩

theorem Pids.fork (h : Pids s) {p np : Slot} {a : Place} :
    Pids ((s.allocproc np).setPlace p a) := by
  set t := (s.allocproc np).setPlace p a with ht
  have hself : t.proc np = { s.proc np with state := .EMBRYO, pid := s.nextpid } :=
    Function.update_self ..
  have hother : ∀ q, q ≠ np → t.proc q = s.proc q := fun q hq => Function.update_of_ne hq ..
  have hincs : t.inc np = s.born := Function.update_self ..
  have hinco : ∀ q, q ≠ np → t.inc q = s.inc q := fun q hq => Function.update_of_ne hq ..
  have hlt : ∀ q, (s.proc q).state ≠ .UNUSED ∨ (s.proc q).pid ≠ 0 → s.inc q < s.born := by
    intro q hq
    rcases h.pid q with ⟨hu, hz⟩ | ⟨-, hlt⟩
    · simp [hu, hz] at hq
    · exact hlt
  refine ⟨?_, fun q => ?_, fun q q' hq hq' he => ?_⟩
  · change s.nextpid + 1 = Int32.ofNat (s.born + 1 + 1)
    rw [Int32.ofNat_add, ← h.nextpid]
    rfl
  · by_cases hqn : q = np
    · rw [hqn, hself, hincs]
      exact .inr ⟨h.nextpid, Nat.lt_succ_self _⟩
    · rw [hother q hqn, hinco q hqn]
      rcases h.pid q with hz | ⟨hp, hlt⟩
      · exact .inl hz
      · exact .inr ⟨hp, Nat.lt_succ_of_lt hlt⟩
  · by_cases hqn : q = np <;> by_cases hqn' : q' = np
    · rw [hqn, hqn']
    · rw [hother q' hqn'] at hq'
      rw [hqn, hincs, hinco q' hqn'] at he
      exact absurd (hlt q' hq') (by omega)
    · rw [hother q hqn] at hq
      rw [hqn', hincs, hinco q hqn] at he
      exact absurd (hlt q hq) (by omega)
    · rw [hother q hqn] at hq
      rw [hother q' hqn'] at hq'
      rw [hinco q hqn, hinco q' hqn'] at he
      exact h.one q q' hq hq' he

theorem pids_step (hsh : Shape s) (h : Pids s) (hl : Took s l t) : Pids t := by
  have hembryo : ∀ {p np stage}, s.place p = .fork stage np → (s.proc np).state ≠ .UNUSED := by
    intro p np stage hp
    rw [(hsh.stage p stage np hp).1]
    simp
  cases hl with
  | sched hs hw =>
      refine h.keep hs.nextpid hs.born hs.inc fun q => .inr ⟨(hs.same q).2.2.2, fun hq => ?_⟩
      rwa [Ne, ← hs.state_iff q rfl]
  | exit hr hp hi =>
      rename_i p
      have he := exit_effect s p
      refine h.keep (by rw [he.rest]) (by rw [he.rest]) (by rw [he.rest]) fun q =>
        .inr ⟨(he.fields q).2.2, fun hq => ?_⟩
      by_cases hqp : q = p
      · rw [hqp, hr]
        simp
      · rwa [Ne, ← (he.other q hqp).state_iff rfl]
  | reap hr hp hq hz => exact h.setProc rfl rfl rfl rfl (.inl ⟨rfl, rfl⟩)
  | fork hr hp hnp => exact h.fork
  | kalloc hr hp => exact h.setProc rfl rfl rfl rfl (.inr ⟨rfl, hembryo hp⟩)
  | noStack hr hp => exact h.setProc rfl rfl rfl rfl (.inr ⟨rfl, hembryo hp⟩)
  | copyuvm hr hp => exact h.setProc rfl rfl rfl rfl (.inr ⟨rfl, hembryo hp⟩)
  | noCopy hr hp => exact h.setProc rfl rfl rfl rfl (.inr ⟨rfl, hembryo hp⟩)
  | setParent hr hp => exact h.setProc rfl rfl rfl rfl (.inr ⟨rfl, hembryo hp⟩)
  | setRunnable hr hp => exact h.setProc rfl rfl rfl rfl (.inr ⟨rfl, hembryo hp⟩)

/-- While `nextpid` has not wrapped, two slots with one pid are both free and unlabelled. -/
theorem Pids.distinct (h : Pids s) (hwrap : s.born < 2 ^ 31 - 1) {q q' : Slot}
    (hq : (s.proc q).state ≠ .UNUSED) (hpid : (s.proc q).pid = (s.proc q').pid) : q = q' := by
  have hnum : ∀ r, (s.proc r).state ≠ .UNUSED ∨ (s.proc r).pid ≠ 0 →
      (s.proc r).pid = Int32.ofNat (s.inc r + 1) ∧ s.inc r < s.born := by
    intro r hr
    rcases h.pid r with ⟨hu, hz⟩ | hn
    · simp [hu, hz] at hr
    · exact hn
  obtain ⟨hp, hlt⟩ := hnum q (.inl hq)
  have hne : (s.proc q').pid ≠ 0 := by
    intro hz
    have h0 : s.inc q + 1 = 0 := by
      refine ofNat_inj (by omega) (by norm_num) ?_
      rw [← hp, hpid, hz]
      rfl
    omega
  obtain ⟨hp', hlt'⟩ := hnum q' (.inr hne)
  refine h.one q q' (.inl hq) (.inr hne) ?_
  have hi : s.inc q + 1 = s.inc q' + 1 :=
    ofNat_inj (by omega) (by omega) (by rw [← hp, ← hp', hpid])
  omega

/-! ### Calls -/

/-- A call of a process, and what the scheduler does between calls. -/
inductive Call where
  /-- `fork`; the first `kalloc` and `copyuvm` may fail -/
  | fork (p : Slot) (stack copy : Bool)
  | exit (p : Slot)
  /-- `wait` up to its return, or to the end of one round of its loop -/
  | wait (p : Slot)
  | kill (pid : Int32)
  | sleep (p : Slot) (a : ℕ)
  | wakeup (a : ℕ)
  | schedule (p : Slot)
  | yield (p : Slot)
  deriving DecidableEq

def Call.labels (s : Procs) : Call → List Label
  | .fork p stack copy =>
      .fork p ::
        if s.find (fun x => x.state = .UNUSED) = none then []
        else .kalloc p stack ::
          if stack then .copyuvm p copy :: if copy then [.setParent p, .setRunnable p] else []
          else []
  | .exit p => [.exit p]
  | .wait p => [.wait p]
  | .kill pid => [.kill pid]
  | .sleep p a => [.sleep p a]
  | .wakeup a => [.wakeup a]
  | .schedule p => [.schedule p]
  | .yield p => [.yield p]

def call (s : Procs) (c : Call) : Option Procs := run step s (c.labels s)

/-- What a `fork` from start to end does: nothing, or it takes a free slot, which is free
again afterwards or holds a child. -/
structure Forked (s : Procs) (p np : Slot) (child : Bool) (t : Procs) : Prop where
  free : (s.proc np).state = .UNUSED
  other : ∀ q, q ≠ np → t.proc q = s.proc q
  killed : (t.proc np).killed = (s.proc np).killed
  pid : (t.proc np).pid = s.nextpid
  state : (t.proc np).state = if child then .RUNNABLE else .UNUSED
  parent : child = true → (t.proc np).parent = some p
  place : ∀ q, q ≠ np → t.place q = s.place q
  placeNew : t.place np = .user ∨ t.place np = s.place np

theorem step_kalloc_of_place {p np : Slot} {ok : Bool} (hp : s.place p = .fork .kalloc np)
    (hl : step s (.kalloc p ok) = some t) :
    t = (s.allocStack np ok).setPlace p (if ok then .fork .copyuvm np else .user) := by
  simp only [step, hp, Option.ite_none_right_eq_some, Option.some.injEq] at hl
  exact hl.2.symm

theorem step_copyuvm_of_place {p np : Slot} {ok : Bool} (hp : s.place p = .fork .copyuvm np)
    (hl : step s (.copyuvm p ok) = some t) :
    t = (s.copyDir np ok).setPlace p (if ok then .fork .setParent np else .user) := by
  simp only [step, hp, Option.ite_none_right_eq_some, Option.some.injEq] at hl
  exact hl.2.symm

theorem step_setParent_of_place {p np : Slot} (hp : s.place p = .fork .setParent np)
    (hl : step s (.setParent p) = some t) :
    t = (s.setProc np { s.proc np with parent := some p }).setPlace p
      (.fork .setRunnable np) := by
  simp only [step, hp, Option.ite_none_right_eq_some, Option.some.injEq] at hl
  exact hl.2.symm

theorem step_setRunnable_of_place {p np : Slot} (hp : s.place p = .fork .setRunnable np)
    (hl : step s (.setRunnable p) = some t) :
    t = ((s.setProc np { s.proc np with state := .RUNNABLE }).setPlace np .user).setPlace p
      .user := by
  simp only [step, hp, Option.ite_none_right_eq_some, Option.some.injEq] at hl
  exact hl.2.symm

/-- What the steps of a `fork` before its end have done. -/
structure Forking (s : Procs) (p np : Slot) (stage : ForkStage) (t : Procs) : Prop where
  at_ : t.place p = .fork stage np
  other : ∀ q, q ≠ np → t.proc q = s.proc q
  killed : (t.proc np).killed = (s.proc np).killed
  pid : (t.proc np).pid = s.nextpid
  parent : stage = .setRunnable → (t.proc np).parent = some p
  place : ∀ q, q ≠ p → t.place q = s.place q

theorem forking_start {p np : Slot} :
    Forking s p np .kalloc ((s.allocproc np).setPlace p (.fork .kalloc np)) where
  at_ := Function.update_self ..
  other _ hq := Function.update_of_ne hq ..
  killed := by simp [setPlace, allocproc, setProc]
  pid := by simp [setPlace, allocproc, setProc]
  parent := by simp
  place _ hq := Function.update_of_ne hq ..

/-- A stage of `fork` writes the new slot and moves on. -/
theorem Forking.next {u : Procs} {p np : Slot} {stage stage' : ForkStage} {x : ProcEntry}
    (h : Forking s p np stage t) (hproc : u.proc = Function.update t.proc np x)
    (hplace : u.place = Function.update t.place p (.fork stage' np))
    (hk : x.killed = (t.proc np).killed) (hpid : x.pid = (t.proc np).pid)
    (hpar : stage' = .setRunnable → x.parent = some p) : Forking s p np stage' u where
  at_ := by rw [hplace, Function.update_self]
  other q hq := by rw [hproc, Function.update_of_ne hq, h.other q hq]
  killed := by rw [hproc, Function.update_self, hk, h.killed]
  pid := by rw [hproc, Function.update_self, hpid, h.pid]
  parent := by
    rw [hproc, Function.update_self]
    exact hpar
  place q hq := by rw [hplace, Function.update_of_ne hq, h.place q hq]

theorem Forking.done {u : Procs} {p np : Slot} {stage : ForkStage} {x : ProcEntry} {child : Bool}
    (h : Forking s p np stage t) (hp : s.place p = .user) (hfree : (s.proc np).state = .UNUSED)
    (hproc : u.proc = Function.update t.proc np x)
    (hplp : u.place p = .user) (hplace : ∀ q, q ≠ p → q ≠ np → u.place q = t.place q)
    (hnew : u.place np = .user ∨ u.place np = t.place np ∧ np ≠ p)
    (hk : x.killed = (t.proc np).killed) (hpid : x.pid = (t.proc np).pid)
    (hst : x.state = if child then .RUNNABLE else .UNUSED)
    (hpar : child = true → x.parent = some p) : Forked s p np child u where
  free := hfree
  other q hq := by rw [hproc, Function.update_of_ne hq, h.other q hq]
  killed := by rw [hproc, Function.update_self, hk, h.killed]
  pid := by rw [hproc, Function.update_self, hpid, h.pid]
  state := by rw [hproc, Function.update_self, hst]
  parent := by
    rw [hproc, Function.update_self]
    exact hpar
  place q hq := by
    by_cases hqp : q = p
    · rw [hqp, hplp, hp]
    · rw [hplace q hqp hq, h.place q hqp]
  placeNew := hnew.imp id fun ⟨he, hne⟩ => he.trans (h.place np hne)

theorem call_fork {p : Slot} {stack copy : Bool} (hl : call s (.fork p stack copy) = some t) :
    s.find (fun x => x.state = .UNUSED) = none ∧ t = s ∨
      ∃ np, Forked s p np (stack && copy) t := by
  rw [call, Call.labels] at hl
  obtain ⟨u₁, h₁, hl⟩ := run_cons_eq_some.mp hl
  simp only [step, Option.ite_none_right_eq_some] at h₁
  obtain ⟨⟨hr, hp⟩, h₁⟩ := h₁
  cases hfind : s.find (fun x => x.state = .UNUSED) with
  | none =>
      rw [hfind, Option.some.injEq] at h₁
      rw [if_pos hfind, run_nil, Option.some.injEq] at hl
      exact .inl ⟨rfl, hl.symm.trans h₁.symm⟩
  | some np =>
      right
      have hfree : (s.proc np).state = .UNUSED := by simpa using find_some hfind
      have hne : np ≠ p := by
        rintro rfl
        rw [hr] at hfree
        simp at hfree
      rw [hfind, Option.some.injEq] at h₁
      rw [if_neg (by simp [hfind])] at hl
      have f₁ : Forking s p np .kalloc u₁ := h₁ ▸ forking_start
      obtain ⟨u₂, h₂, hl⟩ := run_cons_eq_some.mp hl
      have hu₂ := step_kalloc_of_place f₁.at_ h₂
      refine ⟨np, ?_⟩
      cases stack with
      | false =>
          rw [if_neg (by simp), run_nil, Option.some.injEq] at hl
          rw [← hl, hu₂]
          exact f₁.done (x := { u₁.proc np with kstack := none, state := .UNUSED }) hp hfree rfl
            (Function.update_self ..) (fun q hq _ => Function.update_of_ne hq ..)
            (.inr ⟨Function.update_of_ne hne .., hne⟩) rfl rfl rfl (by simp)
      | true =>
          have f₂ : Forking s p np .copyuvm u₂ :=
            f₁.next (x := { u₁.proc np with kstack := some u₁.pages }) (by rw [hu₂]; rfl)
              (by rw [hu₂]; rfl) rfl rfl (by simp)
          rw [if_pos rfl] at hl
          obtain ⟨u₃, h₃, hl⟩ := run_cons_eq_some.mp hl
          have hu₃ := step_copyuvm_of_place f₂.at_ h₃
          cases copy with
          | false =>
              rw [if_neg (by simp), run_nil, Option.some.injEq] at hl
              rw [← hl, hu₃]
              exact f₂.done
                (x := { u₂.proc np with pgdir := none, kstack := none, state := .UNUSED }) hp hfree
                rfl (Function.update_self ..) (fun q hq _ => Function.update_of_ne hq ..)
                (.inr ⟨Function.update_of_ne hne .., hne⟩) rfl rfl rfl (by simp)
          | true =>
              have f₃ : Forking s p np .setParent u₃ :=
                f₂.next (x := { u₂.proc np with pgdir := some u₂.pages }) (by rw [hu₃]; rfl)
                  (by rw [hu₃]; rfl) rfl rfl (by simp)
              rw [if_pos rfl] at hl
              obtain ⟨u₄, h₄, hl⟩ := run_cons_eq_some.mp hl
              have hu₄ := step_setParent_of_place f₃.at_ h₄
              have f₄ : Forking s p np .setRunnable u₄ :=
                f₃.next (x := { u₃.proc np with parent := some p }) (by rw [hu₄]; rfl)
                  (by rw [hu₄]; rfl) rfl rfl fun _ => rfl
              obtain ⟨u₅, h₅, hl⟩ := run_cons_eq_some.mp hl
              have hu₅ := step_setRunnable_of_place f₄.at_ h₅
              rw [run_nil, Option.some.injEq] at hl
              rw [← hl, hu₅]
              refine f₄.done (x := { u₄.proc np with state := .RUNNABLE }) hp hfree rfl
                (Function.update_self ..) (fun q hq hqn => ?_) (.inl ?_) rfl rfl rfl
                (fun _ => f₄.parent rfl)
              · simp [setPlace, setProc, Function.update_of_ne hq, Function.update_of_ne hqn]
              · simp [setPlace, Function.update_of_ne hne]

/-! ### Kills of live processes -/

/-- The call is no `kill` of a pid that a free slot has. -/
def Spares (s : Procs) : Call → Prop
  | .kill pid => ∀ q, (s.proc q).state = .UNUSED → (s.proc q).pid ≠ pid
  | _ => True

instance decidableSpares (s : Procs) : ∀ c, Decidable (Spares s c)
  | .kill pid =>
      inferInstanceAs (Decidable (∀ q, (s.proc q).state = .UNUSED → (s.proc q).pid ≠ pid))
  | .fork _ _ _ => .isTrue trivial
  | .exit _ => .isTrue trivial
  | .wait _ => .isTrue trivial
  | .sleep _ _ => .isTrue trivial
  | .wakeup _ => .isTrue trivial
  | .schedule _ => .isTrue trivial
  | .yield _ => .isTrue trivial

/-- Between calls: no `fork` is under way, and no free slot is marked as killed. -/
structure Clean (s : Procs) : Prop where
  free : ∀ q, (s.proc q).state = .UNUSED → (s.proc q).killed = false
  forks : ∀ p stage np, s.place p ≠ .fork stage np

theorem clean_init : Clean init := by
  refine ⟨fun q _ => ?_, by simp [init]⟩
  by_cases hq : q = initproc
  · subst hq
    rfl
  · simp [init, Function.update_of_ne hq, ProcEntry.zero]

theorem Clean.setProc (h : Clean s) {p : Slot} {x : ProcEntry}
    (hx : x.state = .UNUSED → x.killed = false) : Clean (s.setProc p x) := by
  refine ⟨fun q hq => ?_, h.forks⟩
  by_cases hqp : q = p
  · rw [show (s.setProc p x).proc q = x from hqp ▸ Function.update_self ..] at hq ⊢
    exact hx hq
  · rw [show (s.setProc p x).proc q = s.proc q from Function.update_of_ne hqp ..] at hq ⊢
    exact h.free q hq

theorem Clean.setPlace (h : Clean s) {p : Slot} {a : Place} (ha : ∀ stage np, a ≠ .fork stage np) :
    Clean (s.setPlace p a) := by
  refine ⟨h.free, fun q stage np hq => ?_⟩
  by_cases hqp : q = p
  · subst hqp
    rw [show (s.setPlace q a).place q = a from Function.update_self ..] at hq
    exact ha stage np hq
  · rw [show (s.setPlace p a).place q = s.place q from Function.update_of_ne hqp ..] at hq
    exact h.forks q stage np hq

theorem Awoken.killed {x y : ProcEntry} (h : Awoken x y) : y.killed = x.killed := by
  obtain ⟨st, he, -⟩ := h
  rw [he]

theorem Clean.fork (h : Clean s) {p np : Slot} {child : Bool} (hf : Forked s p np child t) :
    Clean t := by
  refine ⟨fun q hq => ?_, fun q stage r hq => ?_⟩
  · by_cases hqn : q = np
    · rw [hqn, hf.killed]
      exact h.free np hf.free
    · rw [hf.other q hqn] at hq ⊢
      exact h.free q hq
  · by_cases hqn : q = np
    · rw [hqn] at hq
      rcases hf.placeNew with hu | hs
      · simp [hu] at hq
      · exact h.forks np stage r (hs ▸ hq)
    · exact h.forks q stage r (hf.place q hqn ▸ hq)

theorem Clean.exit (h : Clean s) {p : Slot} (he : ExitEffect s p t) : Clean t := by
  refine ⟨fun q hq => ?_, by rw [he.rest]; exact h.forks⟩
  have hqp : q ≠ p := by
    rintro rfl
    obtain ⟨x, -, hself⟩ := he.self
    rw [hself] at hq
    simp at hq
  rw [(he.other q hqp).killed]
  exact h.free q (((he.other q hqp).state_iff rfl).mp hq)

theorem Clean.wait (h : Clean s) {p : Slot} : Clean (s.wait p) := by
  unfold Procs.wait
  split
  · rename_i q hq
    refine Clean.setPlace (s := s.reap p q) ?_ (by simp)
    exact ⟨(h.setProc fun _ => rfl).free, h.forks⟩
  · split
    · exact h.setPlace (by simp)
    · exact (h.setProc (by simp)).setPlace (by simp)

theorem kill_eq_zero_iff {pid : Int32} : (s.kill pid).1 = 0 ↔ ∃ q, (s.proc q).pid = pid := by
  unfold kill
  split
  · rename_i q hq
    exact ⟨fun _ => ⟨q, by simpa using find_some hq⟩, fun _ => rfl⟩
  · rename_i hnone
    constructor
    · simp
    · rintro ⟨q, hq⟩
      simpa [hq] using find_none hnone q

/-- `kill` writes to no slot with another pid. -/
theorem kill_other {pid : Int32} {q : Slot} (hq : (s.proc q).pid ≠ pid) :
    (s.kill pid).2.proc q = s.proc q := by
  unfold kill
  split
  · rename_i r hr
    have hqr : q ≠ r := by
      rintro rfl
      exact hq (by simpa using find_some hr)
    exact Function.update_of_ne hqr ..
  · rfl

theorem Clean.kill (h : Clean s) {pid : Int32}
    (hok : ∀ q, (s.proc q).state = .UNUSED → (s.proc q).pid ≠ pid) : Clean (s.kill pid).2 := by
  unfold Procs.kill
  split
  · rename_i q hq
    refine h.setProc fun hu => ?_
    have hpid : (s.proc q).pid = pid := by simpa using find_some hq
    have hs : (s.proc q).state ≠ .UNUSED := fun hs => hok q hs hpid
    simp only at hu
    split at hu
    · simp at hu
    · exact absurd hu hs
  · exact h

theorem clean_call (h : Clean s) {c : Call} (hok : Spares s c) (hl : call s c = some t) :
    Clean t := by
  cases c with
  | fork p stack copy =>
      rcases call_fork hl with ⟨-, rfl⟩ | ⟨np, hf⟩
      · exact h
      · exact h.fork hf
  | exit p =>
      simp only [call, Call.labels, run_cons_eq_some, run_nil, Option.some.injEq, step,
        Option.ite_none_right_eq_some] at hl
      obtain ⟨u, ⟨-, rfl⟩, rfl⟩ := hl
      exact h.exit (exit_effect s p)
  | wait p =>
      simp only [call, Call.labels, run_cons_eq_some, run_nil, Option.some.injEq, step,
        Option.ite_none_right_eq_some] at hl
      obtain ⟨u, ⟨-, rfl⟩, rfl⟩ := hl
      exact h.wait
  | kill pid =>
      simp only [call, Call.labels, run_cons_eq_some, run_nil, Option.some.injEq, step] at hl
      obtain ⟨u, rfl, rfl⟩ := hl
      exact h.kill hok
  | sleep p a =>
      simp only [call, Call.labels, run_cons_eq_some, run_nil, Option.some.injEq, step,
        Option.ite_none_right_eq_some] at hl
      obtain ⟨u, ⟨-, rfl⟩, rfl⟩ := hl
      exact h.setProc (by simp)
  | wakeup a =>
      simp only [call, Call.labels, run_cons_eq_some, run_nil, Option.some.injEq, step] at hl
      obtain ⟨u, rfl, rfl⟩ := hl
      refine ⟨fun q hq => ?_, h.forks⟩
      have ha := awoken_wakeup1 (s := s) (some (.other a)) q
      rw [ha.killed]
      exact h.free q ((ha.state_iff rfl).mp hq)
  | schedule p =>
      simp only [call, Call.labels, run_cons_eq_some, run_nil, Option.some.injEq, step,
        Option.ite_none_right_eq_some] at hl
      obtain ⟨u, ⟨-, rfl⟩, rfl⟩ := hl
      exact h.setProc (by simp)
  | yield p =>
      simp only [call, Call.labels, run_cons_eq_some, run_nil, Option.some.injEq, step,
        Option.ite_none_right_eq_some] at hl
      obtain ⟨u, ⟨-, rfl⟩, rfl⟩ := hl
      exact h.setProc (by simp)

/-- What holds of `kill` and `fork` between calls. -/
structure KillsLive (s : Procs) : Prop where
  /-- live processes have distinct pids -/
  distinct : ∀ q q', (s.proc q).state ≠ .UNUSED → (s.proc q').state ≠ .UNUSED →
    (s.proc q).pid = (s.proc q').pid → q = q'
  /-- the result of `kill` is right if and only if no free slot has the pid -/
  result : ∀ pid, ((s.kill pid).1 = 0 ↔ ∃ q, (s.proc q).state ≠ .UNUSED ∧ (s.proc q).pid = pid) ↔
    ∀ q, (s.proc q).state = .UNUSED → (s.proc q).pid ≠ pid
  /-- `kill` changes only the process with the pid -/
  only : ∀ pid, (s.kill pid).2 = { s with proc := (s.kill pid).2.proc } ∧
    ∀ q, (s.proc q).pid ≠ pid → (s.kill pid).2.proc q = s.proc q
  /-- a child starts with `killed = 0` -/
  child : ∀ p t, call s (.fork p true true) = some t →
    s.find (fun x => x.state = .UNUSED) ≠ none →
    ∃ np, (s.proc np).state = .UNUSED ∧ (t.proc np).state = .RUNNABLE ∧
      (t.proc np).parent = some p ∧ (t.proc np).pid = s.nextpid ∧ (t.proc np).killed = false

structure CallInv (s : Procs) : Prop where
  shape : Shape s
  pids : Pids s

theorem callInv_call (h : CallInv s) {c : Call} (hl : call s c = some t) : CallInv t :=
  run_invariant CallInv
    (fun _ _ _ h hl => ⟨shape_step h.shape hl, pids_step h.shape h.pids (step_took hl)⟩) h hl

/-- **`kill` acts on live processes only** in every sequence of calls in which no `kill` is given
the pid of a free slot, while `nextpid` has not wrapped: it succeeds exactly if a live process has
the pid, and then sets `killed` of this one and of no other; no two live processes have one pid,
and a child starts with `killed` clear. The condition excludes what a failed `fork`
leaves: a free slot that still has its pid. -/
theorem kills_live {cs : List Call} (hrun : run call init cs = some s)
    (hmeets : RunMeets call Spares init cs) (hwrap : s.born < 2 ^ 31 - 1) : KillsLive s := by
  have hinv : CallInv s ∧ Clean s :=
    run_invariant_of_meets (fun s => CallInv s ∧ Clean s)
      (fun _ _ _ h hok hl => ⟨callInv_call h.1 hl, clean_call h.2 hok hl⟩)
      ⟨⟨shape_init, pids_init⟩, clean_init⟩ hmeets hrun
  have hdistinct : ∀ q q', (s.proc q).state ≠ .UNUSED → (s.proc q).pid = (s.proc q').pid →
      q = q' := fun q q' hq hpid => hinv.1.pids.distinct hwrap hq hpid
  refine ⟨fun q q' hq _ => hdistinct q q' hq, fun pid => ?_, fun pid => ⟨?_, fun q => kill_other⟩,
    fun p t hl hnone => ?_⟩
  · rw [kill_eq_zero_iff]
    constructor
    · intro h q hu hq
      obtain ⟨q', hs, hpid⟩ := h.mp ⟨q, hq⟩
      exact hs (hdistinct q' q hs (hpid.trans hq.symm) ▸ hu)
    · intro h
      exact ⟨fun ⟨q, hq⟩ => ⟨q, fun hu => h q hu hq, hq⟩, fun ⟨q, _, hq⟩ => ⟨q, hq⟩⟩
  · unfold kill
    split <;> rfl
  · rcases call_fork hl with ⟨hn, -⟩ | ⟨np, hf⟩
    · exact absurd hn hnone
    · exact ⟨np, hf.free, hf.state, hf.parent rfl, hf.pid,
        hf.killed.trans (hinv.2.free np hf.free)⟩

/-- Init forks a child and kills it; the child exits and init forks again. -/
def killedChild : List Call :=
  [.schedule 0, .fork 0 true true, .kill 2, .schedule 1, .exit 1, .wait 0, .fork 0 true true]

theorem kills_live_killedChild :
    ∃ s, run call init killedChild = some s ∧ (s.proc 1).pid = 3 ∧ KillsLive s := by
  have hrun : (run call init killedChild).map (fun s => ((s.proc 1).pid, s.born)) =
      some (3, 3) := by decide +kernel
  obtain ⟨s, hs, hst⟩ := Option.map_eq_some_iff.mp hrun
  obtain ⟨hpid, hborn⟩ := Prod.mk.inj hst
  exact ⟨s, hs, hpid, kills_live hs (by decide +kernel) (by omega)⟩

/-- `kill(0)` finds a free slot: it returns 0 although no process has pid 0, and the next
child starts as a killed process. -/
theorem kill_free_slot :
    (∀ q, (init.proc q).state ≠ .UNUSED → (init.proc q).pid ≠ 0) ∧ (init.kill 0).1 = 0 ∧
      ∃ s, run call init [.schedule 0, .kill 0, .fork 0 true true] = some s ∧
        (s.proc 1).state = .RUNNABLE ∧ (s.proc 1).parent = some 0 ∧ (s.proc 1).killed = true := by
  have hrun : (run call init [.schedule 0, .kill 0, .fork 0 true true]).map
      (fun s => ((s.proc 1).state, (s.proc 1).parent, (s.proc 1).killed)) =
        some (.RUNNABLE, some 0, true) := by decide +kernel
  obtain ⟨s, hs, hst⟩ := Option.map_eq_some_iff.mp hrun
  simp only [Prod.mk.injEq] at hst
  exact ⟨by decide +kernel, by decide +kernel, s, hs, hst⟩

end Procs

end Xv6
