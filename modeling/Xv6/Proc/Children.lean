import Xv6.Proc.Pages

/-!
# `exit` and `wait` lose no child

Every process gets a number when its slot is allocated. `Births` follows the numbers
through `exited` and `reaped`: a process exits once, and a zombie is returned once.
`Waiting` is the argument that no wakeup is lost: a process that sleeps in `wait` has
children and no zombie among them, since a child wakes it before it becomes a zombie and
init is woken when it is given one.
-/

namespace Xv6

namespace Procs

open Foundation

variable {s t : Procs} {l : Label}

/-! ### The numbers of the processes -/

/-- What `wait` will return of the process in a slot. -/
def remains (s : Procs) (q : Slot) : Exited :=
  ⟨s.inc q, (s.proc q).pid, (s.proc q).kstack, (s.proc q).pgdir⟩

structure Births (s : Procs) : Prop where
  lt : ∀ q, (s.proc q).state ≠ .UNUSED → s.inc q < s.born
  one : ∀ q q', (s.proc q).state ≠ .UNUSED → (s.proc q').state ≠ .UNUSED →
    s.inc q = s.inc q' → q = q'
  exitedLt : ∀ e ∈ s.exited, e.inc < s.born
  exitedOnce : (s.exited.map Exited.inc).Nodup
  zombie : ∀ q, (s.proc q).state = .ZOMBIE → s.remains q ∈ s.exited
  alive : ∀ q, (s.proc q).state ≠ .UNUSED → (s.proc q).state ≠ .ZOMBIE →
    ∀ e ∈ s.exited, e.inc ≠ s.inc q
  reapedOnce : (s.reaped.map fun r => r.child.inc).Nodup
  reapedExited : ∀ r ∈ s.reaped, r.child ∈ s.exited
  unreaped : ∀ q, (s.proc q).state ≠ .UNUSED → ∀ r ∈ s.reaped, r.child.inc ≠ s.inc q

/-- A step in which no process is born, exits or is reaped. -/
theorem Births.keep (h : Births s) (hinc : t.inc = s.inc) (hborn : t.born = s.born)
    (hexited : t.exited = s.exited) (hreaped : t.reaped = s.reaped)
    (hlive : ∀ q, (t.proc q).state ≠ .UNUSED → (s.proc q).state ≠ .UNUSED)
    (hzombie : ∀ q, (t.proc q).state = .ZOMBIE ↔ (s.proc q).state = .ZOMBIE)
    (hremains : ∀ q, (s.proc q).state = .ZOMBIE → t.remains q = s.remains q) : Births t where
  lt q hq := by
    rw [hinc, hborn]
    exact h.lt q (hlive q hq)
  one q q' hq hq' he := h.one q q' (hlive q hq) (hlive q' hq') (by rwa [hinc] at he)
  exitedLt := by
    rw [hexited, hborn]
    exact h.exitedLt
  exitedOnce := by
    rw [hexited]
    exact h.exitedOnce
  zombie q hq := by
    have hs := (hzombie q).mp hq
    rw [hremains q hs, hexited]
    exact h.zombie q hs
  alive q hq hz := by
    rw [hexited, hinc]
    exact h.alive q (hlive q hq) fun hs => hz ((hzombie q).mpr hs)
  reapedOnce := by
    rw [hreaped]
    exact h.reapedOnce
  reapedExited := by
    rw [hreaped, hexited]
    exact h.reapedExited
  unreaped q hq := by
    rw [hreaped, hinc]
    exact h.unreaped q (hlive q hq)

theorem births_init : Births init := by
  have hother : ∀ q, q ≠ initproc → (init.proc q).state = .UNUSED :=
    fun q hq => by simp [init, Function.update_of_ne hq, ProcEntry.zero]
  have hlive : ∀ q, (init.proc q).state ≠ .UNUSED → q = initproc := by
    intro q hq
    by_contra hc
    exact hq (hother q hc)
  refine ⟨fun q hq => Nat.zero_lt_one, fun q q' hq hq' _ => (hlive q hq).trans (hlive q' hq').symm,
    by simp [init], List.nodup_nil, fun q hq => ?_, by simp [init], List.nodup_nil,
    by simp [init], by simp [init]⟩
  have h := hlive q (by rw [hq]; simp)
  subst h
  simp [init] at hq

/-- A slot that changes among the states before ZOMBIE, with the rest unchanged. -/
theorem Births.setProc (h : Births s) {np : Slot} {x : ProcEntry}
    (hproc : t.proc = Function.update s.proc np x) (hinc : t.inc = s.inc)
    (hborn : t.born = s.born) (hexited : t.exited = s.exited) (hreaped : t.reaped = s.reaped)
    (hs : (s.proc np).state = .EMBRYO) (hx : x.state ≠ .ZOMBIE) : Births t := by
  refine h.keep hinc hborn hexited hreaped (fun q hq => ?_) (fun q => ?_) fun q hq => ?_
  · by_cases hqn : q = np
    · rw [hqn, hs]
      simp
    · rwa [hproc, Function.update_of_ne hqn] at hq
  · by_cases hqn : q = np
    · rw [hproc, hqn, Function.update_self, hs]
      simp [hx]
    · rw [hproc, Function.update_of_ne hqn]
  · have hqn : q ≠ np := by
      rintro rfl
      rw [hs] at hq
      simp at hq
    rw [remains, hinc, hproc, Function.update_of_ne hqn, remains]

theorem Births.fork (h : Births s) {p np : Slot} {a : Place}
    (hnp : (s.proc np).state = .UNUSED) : Births ((s.allocproc np).setPlace p a) := by
  set t := (s.allocproc np).setPlace p a with ht
  have hself : t.proc np = { s.proc np with state := .EMBRYO, pid := s.nextpid } :=
    Function.update_self ..
  have hother : ∀ q, q ≠ np → t.proc q = s.proc q := fun q hq => Function.update_of_ne hq ..
  have hincs : t.inc np = s.born := Function.update_self ..
  have hinco : ∀ q, q ≠ np → t.inc q = s.inc q := fun q hq => Function.update_of_ne hq ..
  have hremains : ∀ q, q ≠ np → t.remains q = s.remains q := fun q hq => by
    rw [remains, hother q hq, hinco q hq, remains]
  have hreapedLt : ∀ r ∈ s.reaped, r.child.inc < s.born := fun r hr =>
    h.exitedLt _ (h.reapedExited r hr)
  constructor
  case lt =>
    intro q hq
    by_cases hqn : q = np
    · rw [hqn, hincs]
      exact Nat.lt_succ_self _
    · rw [hother q hqn] at hq
      rw [hinco q hqn]
      exact Nat.lt_succ_of_lt (h.lt q hq)
  case one =>
    intro q q' hq hq' he
    by_cases hqn : q = np <;> by_cases hqn' : q' = np
    · rw [hqn, hqn']
    · rw [hother q' hqn'] at hq'
      rw [hqn, hincs, hinco q' hqn'] at he
      exact absurd (h.lt q' hq') (by omega)
    · rw [hother q hqn] at hq
      rw [hqn', hincs, hinco q hqn] at he
      exact absurd (h.lt q hq) (by omega)
    · rw [hother q hqn] at hq
      rw [hother q' hqn'] at hq'
      rw [hinco q hqn, hinco q' hqn'] at he
      exact h.one q q' hq hq' he
  case exitedLt => exact fun e he => Nat.lt_succ_of_lt (h.exitedLt e he)
  case exitedOnce => exact h.exitedOnce
  case zombie =>
    intro q hq
    have hqn : q ≠ np := by
      rintro rfl
      rw [hself] at hq
      simp at hq
    rw [hother q hqn] at hq
    rw [hremains q hqn]
    exact h.zombie q hq
  case alive =>
    intro q hq hz e he
    by_cases hqn : q = np
    · rw [hqn, hincs]
      exact (h.exitedLt e he).ne
    · rw [hother q hqn] at hq hz
      rw [hinco q hqn]
      exact h.alive q hq hz e he
  case reapedOnce => exact h.reapedOnce
  case reapedExited => exact h.reapedExited
  case unreaped =>
    intro q hq r hr
    by_cases hqn : q = np
    · rw [hqn, hincs]
      exact (hreapedLt r hr).ne
    · rw [hother q hqn] at hq
      rw [hinco q hqn]
      exact h.unreaped q hq r hr

theorem Births.exit (h : Births s) {p : Slot} (hr : (s.proc p).state = .RUNNING)
    (he : ExitEffect s p t) : Births t := by
  have hinc : t.inc = s.inc := by rw [he.rest]
  have hborn : t.born = s.born := by rw [he.rest]
  have hreaped : t.reaped = s.reaped := by rw [he.rest]
  have hremains : ∀ q, t.remains q = s.remains q := fun q => by
    rw [remains, hinc, (he.fields q).1, (he.fields q).2.1, (he.fields q).2.2, remains]
  have hexited : t.exited = s.exited ++ [s.remains p] := he.exited
  have hzombie : (t.proc p).state = .ZOMBIE := by
    obtain ⟨x, -, hself⟩ := he.self
    rw [hself]
  have hlivep : (s.proc p).state ≠ .UNUSED := by
    rw [hr]
    simp
  have hlive : ∀ q, (t.proc q).state ≠ .UNUSED → (s.proc q).state ≠ .UNUSED := by
    intro q hq
    by_cases hqp : q = p
    · rwa [hqp]
    · rwa [Ne, ← (he.other q hqp).state_iff rfl]
  have hmem : ∀ e, e ∈ t.exited ↔ e ∈ s.exited ∨ e = s.remains p := by
    intro e
    rw [hexited, List.mem_append, List.mem_singleton]
  have hnew : ∀ e ∈ s.exited, e.inc ≠ s.inc p := h.alive p hlivep (by rw [hr]; simp)
  constructor
  case lt =>
    intro q hq
    rw [hinc, hborn]
    exact h.lt q (hlive q hq)
  case one =>
    intro q q' hq hq' hi
    exact h.one q q' (hlive q hq) (hlive q' hq') (by rwa [hinc] at hi)
  case exitedLt =>
    intro e hmem'
    rw [hborn]
    rcases (hmem e).mp hmem' with hm | rfl
    · exact h.exitedLt e hm
    · exact h.lt p hlivep
  case exitedOnce =>
    rw [hexited, List.map_append, List.nodup_append]
    refine ⟨h.exitedOnce, List.nodup_singleton _, fun i hi j hj hij => ?_⟩
    obtain ⟨e, hm, rfl⟩ := List.mem_map.mp hi
    rw [List.map_singleton, List.mem_singleton] at hj
    exact hnew e hm (hij.trans hj)
  case zombie =>
    intro q hq
    rw [hremains, hmem]
    by_cases hqp : q = p
    · rw [hqp]
      exact .inr rfl
    · exact .inl (h.zombie q (((he.other q hqp).state_iff rfl).mp hq))
  case alive =>
    intro q hq hz e hm
    have hqp : q ≠ p := by
      rintro rfl
      exact hz hzombie
    rw [hinc]
    rcases (hmem e).mp hm with hm | rfl
    · exact h.alive q (hlive q hq) (fun hs => hz (((he.other q hqp).state_iff rfl).mpr hs)) e hm
    · exact fun hi => hqp (h.one p q hlivep (hlive q hq) hi).symm
  case reapedOnce =>
    rw [hreaped]
    exact h.reapedOnce
  case reapedExited =>
    intro r hr'
    rw [hreaped] at hr'
    rw [hmem]
    exact .inl (h.reapedExited r hr')
  case unreaped =>
    intro q hq
    rw [hreaped, hinc]
    exact h.unreaped q (hlive q hq)

theorem Births.reap (h : Births s) {p q : Slot} (hz : (s.proc q).state = .ZOMBIE) :
    Births ((s.reap p q).setPlace p .user) := by
  set t := (s.reap p q).setPlace p .user with ht
  have hself : (t.proc q).state = .UNUSED := by
    rw [show t.proc q = _ from Function.update_self ..]
  have hother : ∀ r, r ≠ q → t.proc r = s.proc r := fun r hr => Function.update_of_ne hr ..
  have hreaped : t.reaped = s.reaped ++ [⟨p, (s.proc q).parent, s.remains q⟩] := rfl
  have hlive : ∀ r, (t.proc r).state ≠ .UNUSED → r ≠ q ∧ (s.proc r).state ≠ .UNUSED := by
    intro r hr
    have hrq : r ≠ q := by
      rintro rfl
      exact hr hself
    exact ⟨hrq, by rwa [hother r hrq] at hr⟩
  have hliveq : (s.proc q).state ≠ .UNUSED := by
    rw [hz]
    simp
  constructor
  case lt => exact fun r hr => h.lt r (hlive r hr).2
  case one => exact fun r r' hr hr' => h.one r r' (hlive r hr).2 (hlive r' hr').2
  case exitedLt => exact h.exitedLt
  case exitedOnce => exact h.exitedOnce
  case zombie =>
    intro r hr
    have hrq := (hlive r (by rw [hr]; simp)).1
    rw [hother r hrq] at hr
    have hremains : t.remains r = s.remains r := by
      rw [remains, hother r hrq]
      rfl
    rw [hremains]
    exact h.zombie r hr
  case alive =>
    intro r hr hrz
    obtain ⟨hrq, hs⟩ := hlive r hr
    rw [hother r hrq] at hrz
    exact h.alive r hs hrz
  case reapedOnce =>
    rw [hreaped, List.map_append, List.nodup_append]
    refine ⟨h.reapedOnce, List.nodup_singleton _, fun i hi j hj hij => ?_⟩
    obtain ⟨r, hr, rfl⟩ := List.mem_map.mp hi
    rw [List.map_singleton, List.mem_singleton] at hj
    exact h.unreaped q hliveq r hr (hij.trans hj)
  case reapedExited =>
    intro r hr
    rw [hreaped, List.mem_append, List.mem_singleton] at hr
    rcases hr with hr | rfl
    · exact h.reapedExited r hr
    · exact h.zombie q hz
  case unreaped =>
    intro r hr x hx
    obtain ⟨hrq, hs⟩ := hlive r hr
    rw [hreaped, List.mem_append, List.mem_singleton] at hx
    rcases hx with hx | rfl
    · exact h.unreaped r hs x hx
    · exact fun hi => hrq (h.one q r hliveq hs hi).symm

theorem births_step (hsh : Shape s) (h : Births s) (hl : Took s l t) : Births t := by
  cases hl with
  | sched hs hw =>
      refine h.keep hs.inc hs.born hs.exited hs.reaped (fun q hq => ?_)
        (fun q => hs.state_iff q rfl) fun q _ => ?_
      · rwa [Ne, ← hs.state_iff q rfl]
      · obtain ⟨-, hk, hd, hpid⟩ := hs.same q
        rw [remains, hs.inc, hk, hd, hpid, remains]
  | exit hr hp hi => exact h.exit hr (exit_effect s _)
  | reap hr hp hq hz => exact h.reap hz
  | fork hr hp hnp => exact h.fork hnp
  | kalloc hr hp =>
      have he := (hsh.stage _ _ _ hp).1
      exact h.setProc rfl rfl rfl rfl rfl he (by simp [he])
  | noStack hr hp => exact h.setProc rfl rfl rfl rfl rfl (hsh.stage _ _ _ hp).1 (by simp)
  | copyuvm hr hp =>
      have he := (hsh.stage _ _ _ hp).1
      exact h.setProc rfl rfl rfl rfl rfl he (by simp [he])
  | noCopy hr hp => exact h.setProc rfl rfl rfl rfl rfl (hsh.stage _ _ _ hp).1 (by simp)
  | setParent hr hp =>
      have he := (hsh.stage _ _ _ hp).1
      exact h.setProc rfl rfl rfl rfl rfl he (by simp [he])
  | setRunnable hr hp => exact h.setProc rfl rfl rfl rfl rfl (hsh.stage _ _ _ hp).1 (by simp)

/-! ### What a returned child leaves -/

/-- The caller of `wait` was the parent, and the stack and directory of the child are freed. -/
def Returned (s : Procs) (r : Reaped) : Prop :=
  r.parent = some r.caller ∧ ∃ k d, r.child.kstack = some k ∧ r.child.pgdir = some d ∧
    k ∈ s.freed ∧ d ∈ s.freed

theorem Returned.mono {r : Reaped} (h : Returned s r) (hf : s.freed ⊆ t.freed) : Returned t r := by
  obtain ⟨hp, k, d, hk, hd, hkf, hdf⟩ := h
  exact ⟨hp, k, d, hk, hd, hf hkf, hf hdf⟩

/-- What one `wait` that returns a child does. -/
theorem reap_spec (hsh : Shape s) {p q : Slot} (hq : (s.proc q).parent = some p)
    (hz : (s.proc q).state = .ZOMBIE) :
    ∃ k d, (s.proc q).kstack = some k ∧ (s.proc q).pgdir = some d ∧
      ((s.reap p q).setPlace p .user).freed = s.freed ++ [k, d] ∧
      ((s.reap p q).setPlace p .user).reaped = s.reaped ++ [⟨p, some p, s.remains q⟩] := by
  obtain ⟨hk, hd, -⟩ := hsh.whole q (.inr hz)
  obtain ⟨k, hk⟩ := Option.ne_none_iff_exists'.mp hk
  obtain ⟨d, hd⟩ := Option.ne_none_iff_exists'.mp hd
  refine ⟨k, d, hk, hd, ?_, ?_⟩
  · simp [setPlace, Procs.reap, setProc, hk, hd]
  · simp [setPlace, Procs.reap, setProc, hq, remains]

theorem returned_step (hsh : Shape s) (h : ∀ r ∈ s.reaped, Returned s r) (hl : Took s l t) :
    ∀ r ∈ t.reaped, Returned t r := by
  have keep : ∀ {t : Procs}, t.reaped = s.reaped → s.freed ⊆ t.freed →
      ∀ r ∈ t.reaped, Returned t r := fun hr hf r hm => (h r (hr ▸ hm)).mono hf
  cases hl with
  | reap hr hp hq hz =>
      obtain ⟨k, d, hk, hd, hfreed, hreaped⟩ := reap_spec hsh hq hz
      intro r hm
      rw [hreaped, List.mem_append, List.mem_singleton] at hm
      rcases hm with hm | rfl
      · exact (h r hm).mono (by rw [hfreed]; exact List.subset_append_left _ _)
      · exact ⟨rfl, k, d, hk, hd, by simp [hfreed], by simp [hfreed]⟩
  | sched hs hw => exact keep hs.reaped (by rw [hs.freed]; exact fun _ h => h)
  | exit hr hp hi =>
      have he := exit_effect s
      exact keep (by rw [(he _).rest]) (by rw [(he _).rest]; exact fun _ h => h)
  | noCopy hr hp => exact keep rfl (List.subset_append_left _ _)
  | _ => exact keep rfl fun _ h => h

/-! ### No wakeup of `wait` is lost -/

/-- Who sleeps in `wait` has children and no zombie among them. -/
def Waiting (s : Procs) : Prop :=
  ∀ p, s.place p = .wait → (s.proc p).state = .SLEEPING →
    (s.proc p).chan = some (.proc p) ∧ (∃ q, (s.proc q).parent = some p) ∧
      ∀ q, (s.proc q).parent = some p → (s.proc q).state ≠ .ZOMBIE

/-- A step of a `fork` concerns nobody in `wait`. -/
theorem Waiting.fork (h : Waiting s) {p np : Slot} {x : ProcEntry}
    (hsh : Shape s) (hproc : t.proc = Function.update s.proc np x)
    (hplace : ∀ q, t.place q = .wait → s.place q = .wait ∧ q ≠ p)
    (hnp : (s.proc np).state.active = false) (hx : x.state ≠ .ZOMBIE)
    (hpar : x.parent = (s.proc np).parent ∨ (s.proc np).parent = none ∧ x.parent = some p) :
    Waiting t := by
  intro w hw hs
  obtain ⟨hw, hwp⟩ := hplace w hw
  have hother : ∀ q, q ≠ np → t.proc q = s.proc q := fun q hq => by
    rw [hproc, Function.update_of_ne hq]
  have hself : t.proc np = x := by rw [hproc, Function.update_self]
  have hwn : w ≠ np := by
    rintro rfl
    have ha := hsh.busy w (by simp [hw])
    rw [hnp] at ha
    simp at ha
  rw [hother w hwn] at hs ⊢
  obtain ⟨hchan, ⟨c, hc⟩, hz⟩ := h w hw hs
  refine ⟨hchan, ?_, fun q hq => ?_⟩
  · by_cases hcn : c = np
    · subst hcn
      rcases hpar with hpar | ⟨hnone, -⟩
      · exact ⟨c, by rw [hself, hpar]; exact hc⟩
      · rw [hnone] at hc
        simp at hc
    · exact ⟨c, by rw [hother c hcn]; exact hc⟩
  · by_cases hqn : q = np
    · rw [hqn, hself]
      exact hx
    · rw [hother q hqn] at hq ⊢
      exact hz q hq

/-- The parent and init, if they sleep in `wait`, are woken by what `exit` makes of their
children. -/
theorem Waiting.exit (h : Waiting s) {p : Slot} (hsh : Shape s)
    (he : ExitEffect s p t) : Waiting t := by
  intro w hw hs
  have hzombie : (t.proc p).state = .ZOMBIE := by
    obtain ⟨x, -, hself⟩ := he.self
    rw [hself]
  have hwp : w ≠ p := by
    rintro rfl
    rw [hs] at hzombie
    simp at hzombie
  have hplace : s.place w = .wait := by rw [← hw, he.rest]
  obtain ⟨hchan, ⟨c, hc⟩, hz⟩ := h w hplace ((he.other w hwp).sleeping hs)
  have hchan' : (t.proc w).chan = some (.proc w) := (he.other w hwp).chan.trans hchan
  refine ⟨hchan', ⟨c, ?_⟩, fun q hq hqz => ?_⟩
  · rw [he.parent, hc, if_neg (by simpa using hwp)]
  · by_cases hqp : q = p
    · -- the parent of the new zombie has been woken
      have hpar := he.parent q
      rw [hq] at hpar
      split at hpar
      · rename_i hself
        exact (hsh.parent q p hself).2 hqp.symm
      · refine he.parentWoken w hs ?_
        rw [hchan', ← hqp, ← hpar]
        rfl
    · have hsz : (s.proc q).state = .ZOMBIE := ((he.other q hqp).state_iff rfl).mp hqz
      have hpar := he.parent q
      rw [hq] at hpar
      split at hpar
      · -- a zombie that passes to init has woken it
        rename_i horphan
        obtain rfl : w = initproc := Option.some.inj hpar
        exact he.initWoken q horphan hsz _ hs hchan'
      · exact hz q hpar.symm hsz

theorem waiting_step (hsh : Shape s) (h : Waiting s) (hl : Took s l t) : Waiting t := by
  have hmoved : ∀ {p : Slot} {a : Place}, a ≠ .wait → ∀ q,
      Function.update s.place p a q = .wait → s.place q = .wait ∧ q ≠ p := by
    intro p a ha q hq
    have hqp : q ≠ p := by
      rintro rfl
      rw [Function.update_self] at hq
      exact ha hq
    exact ⟨by rwa [Function.update_of_ne hqp] at hq, hqp⟩
  cases hl with
  | sched hs hw =>
      intro p hp hsl
      rcases hw p hp hsl with ⟨hp', hsl', hchan⟩ | ⟨hchan, hkids, hz⟩
      · obtain ⟨hc, hkids, hz⟩ := h p hp' hsl'
        refine ⟨hchan.trans hc, ?_, fun q hq hqz => ?_⟩
        · obtain ⟨q, hq⟩ := hkids
          exact ⟨q, by rw [(hs.same q).1]; exact hq⟩
        · exact hz q (by rw [← (hs.same q).1]; exact hq) ((hs.state_iff q rfl).mp hqz)
      · refine ⟨hchan, ?_, fun q hq hqz => ?_⟩
        · obtain ⟨q, hq⟩ := hkids
          exact ⟨q, by rw [(hs.same q).1]; exact hq⟩
        · exact hz q (by rw [← (hs.same q).1]; exact hq) ((hs.state_iff q rfl).mp hqz)
  | exit hr hp hi => exact h.exit hsh (exit_effect s _)
  | reap hr hp hq hz =>
      rename_i p q
      intro w hw hs
      obtain ⟨hw', hwp⟩ := hmoved (by simp) w hw
      set t := (s.reap p q).setPlace p .user with ht
      have hself : (t.proc q).state = .UNUSED := by
        rw [show t.proc q = _ from Function.update_self ..]
      have hother : ∀ r, r ≠ q → t.proc r = s.proc r := fun r hr => Function.update_of_ne hr ..
      have hwq : w ≠ q := by
        rintro rfl
        rw [hs] at hself
        simp at hself
      rw [hother w hwq] at hs ⊢
      obtain ⟨hchan, ⟨c, hc⟩, hzs⟩ := h w hw' hs
      refine ⟨hchan, ⟨c, ?_⟩, fun r hr => ?_⟩
      · -- the child that is reaped is not one of `w`
        rw [hother c]
        · exact hc
        · rintro rfl
          rw [hq] at hc
          exact hwp (Option.some.inj hc).symm
      · by_cases hrq : r = q
        · rw [hrq, hself]
          simp
        · rw [hother r hrq] at hr ⊢
          exact hzs r hr
  | fork hr hp hnp =>
      exact h.fork hsh rfl (hmoved (by simp)) (by rw [hnp]; rfl) (by simp) (.inl rfl)
  | kalloc hr hp =>
      have he := (hsh.stage _ _ _ hp).1
      exact h.fork hsh rfl (hmoved (by simp)) (by rw [he]; rfl) (by simp [he]) (.inl rfl)
  | noStack hr hp =>
      have he := (hsh.stage _ _ _ hp).1
      exact h.fork hsh rfl (hmoved (by simp)) (by rw [he]; rfl) (by simp) (.inl rfl)
  | copyuvm hr hp =>
      have he := (hsh.stage _ _ _ hp).1
      exact h.fork hsh rfl (hmoved (by simp)) (by rw [he]; rfl) (by simp [he]) (.inl rfl)
  | noCopy hr hp =>
      have he := (hsh.stage _ _ _ hp).1
      exact h.fork hsh rfl (hmoved (by simp)) (by rw [he]; rfl) (by simp) (.inl rfl)
  | setParent hr hp =>
      obtain ⟨he, hf⟩ := hsh.stage _ _ _ hp
      exact h.fork hsh rfl (hmoved (by simp)) (by rw [he]; rfl) (by simp [he])
        (.inr ⟨hf.1, rfl⟩)
  | setRunnable hr hp =>
      rename_i p np
      have he := (hsh.stage _ _ _ hp).1
      refine h.fork hsh rfl (p := p) (fun q hq => ?_) (by rw [he]; rfl) (by simp) (.inl rfl)
      have hqp : q ≠ p := by
        rintro rfl
        simp [setPlace] at hq
      have hqn : q ≠ np := by
        rintro rfl
        simp [setPlace, Function.update_of_ne hqp] at hq
      exact ⟨by simpa [setPlace, setProc, Function.update_of_ne hqp, Function.update_of_ne hqn]
        using hq, hqp⟩

/-! ### The contract -/

/-- What holds of parents and children at every point of a run. -/
structure ChildrenKept (s : Procs) : Prop where
  /-- a parent is a process that has not exited -/
  parent : ∀ q p, (s.proc q).state ≠ .UNUSED → q ≠ initproc → (s.proc q).parent = some p →
    (s.proc p).state ≠ .UNUSED ∧ (s.proc p).state ≠ .ZOMBIE
  /-- who is not being made by `fork` has a parent -/
  child : ∀ q, (s.proc q).state ≠ .UNUSED → (s.proc q).state ≠ .EMBRYO → q ≠ initproc →
    (s.proc q).parent ≠ none
  /-- orphans belong to init -/
  orphan : ∀ p t, step s (.exit p) = some t →
    ∀ q, (s.proc q).parent = some p → (t.proc q).parent = some initproc
  waiting : ∀ p, s.place p = .wait → (s.proc p).state = .SLEEPING →
    (∃ q, (s.proc q).state ≠ .UNUSED ∧ (s.proc q).parent = some p) ∧
      ∀ q, (s.proc q).parent = some p → (s.proc q).state ≠ .ZOMBIE
  /-- a process exits once, and once a `wait` returns it -/
  exitedOnce : (s.exited.map Exited.inc).Nodup
  reapedOnce : (s.reaped.map fun r => r.child.inc).Nodup
  reaped : ∀ r ∈ s.reaped, r.child ∈ s.exited ∧ Returned s r
  /-- the `wait` that returns a child frees what the child still has -/
  wait : ∀ p t, step s (.wait p) = some t → t.reaped ≠ s.reaped →
    ∃ q k d, (s.proc q).parent = some p ∧ (s.proc q).state = .ZOMBIE ∧
      (s.proc q).kstack = some k ∧ (s.proc q).pgdir = some d ∧ k ∉ s.freed ∧ d ∉ s.freed ∧
      t.freed = s.freed ++ [k, d] ∧ t.reaped = s.reaped ++ [⟨p, some p, s.remains q⟩]
  /-- nothing is freed twice -/
  freedOnce : s.freed.Nodup

/-- The invariant of the runs. -/
structure Inv (s : Procs) : Prop where
  shape : Shape s
  balanced : s.ledger.Balanced
  births : Births s
  returned : ∀ r ∈ s.reaped, Returned s r
  waiting : Waiting s

theorem inv_init : Inv init where
  shape := shape_init
  balanced := balanced_init
  births := births_init
  returned := by simp [init]
  waiting := by
    intro p hp
    simp [init] at hp

theorem inv_step (h : Inv s) (hl : step s l = some t) : Inv t where
  shape := shape_step h.shape hl
  balanced := balanced_step h.shape (shape_step h.shape hl) h.balanced (step_took hl)
  births := births_step h.shape h.births (step_took hl)
  returned := returned_step h.shape h.returned (step_took hl)
  waiting := waiting_step h.shape h.waiting (step_took hl)

theorem Procstate.active_iff (st : Procstate) :
    st.active = true ↔ st ≠ .UNUSED ∧ st ≠ .EMBRYO ∧ st ≠ .ZOMBIE := by
  cases st <;> simp [Procstate.active]

theorem Inv.childrenKept (h : Inv s) : ChildrenKept s where
  parent q p _ _ hp := by
    have ha := (Procstate.active_iff _).mp (h.shape.parent q p hp).1
    exact ⟨ha.1, ha.2.2⟩
  child q hu he hi := by
    refine (h.shape.whole q ?_).2.2 hi
    by_cases hz : (s.proc q).state = .ZOMBIE
    · exact .inr hz
    · exact .inl ((Procstate.active_iff _).mpr ⟨hu, he, hz⟩)
  orphan p t hl q hq := by
    simp only [step, Option.ite_none_right_eq_some, Option.some.injEq] at hl
    obtain ⟨-, rfl⟩ := hl
    rw [(exit_effect s p).parent, if_pos hq]
  waiting p hp hs := by
    obtain ⟨-, ⟨q, hq⟩, hz⟩ := h.waiting p hp hs
    refine ⟨⟨q, fun hu => ?_, hq⟩, hz⟩
    rw [(h.shape.unused q hu).1] at hq
    simp at hq
  exitedOnce := h.births.exitedOnce
  reapedOnce := h.births.reapedOnce
  reaped r hr := ⟨h.births.reapedExited r hr, h.returned r hr⟩
  wait p t hl hne := by
    simp only [step, Option.ite_none_right_eq_some, Option.some.injEq] at hl
    obtain ⟨⟨hr, hp⟩, heq⟩ := hl
    have htook := took_wait hr hp
    rw [heq] at htook
    cases htook with
    | sched hs hw => exact absurd hs.reaped hne
    | reap hr hp hq hz =>
        rename_i q
        obtain ⟨k, d, hk, hd, hfreed, hreaped⟩ := reap_spec h.shape hq hz
        have hdir : s.ledger.held (.dir q) = some d := by
          rw [held_dir_of_owns (.inr (.inl hz)), hd]
        exact ⟨q, k, d, hq, hz, hk, hd, (h.balanced.held (.stack q) k hk).2,
          (h.balanced.held (.dir q) d hdir).2, hfreed, hreaped⟩
  freedOnce := h.balanced.nodup

/-- **`exit` and `wait` lose no child**, in every interleaving of the critical sections of any
processes: every process has a live parent, orphans go to `init`, a `wait` that sleeps has a child
and none that has exited, and each `exit` is returned by one `wait`, which frees the stack and the
page directory of the child, once. The stacks and directories are counted by a ledger, whose
holders are the slots. -/
theorem children_kept {ls : List Label} (hrun : run step init ls = some s) : ChildrenKept s :=
  (run_invariant Inv (fun _ _ _ h hl => inv_step h hl) inv_init hrun).childrenKept

def forkLabels (p : Slot) : List Label :=
  [.fork p, .kalloc p true, .copyuvm p true, .setParent p, .setRunnable p]

/-- Init waits for its child, which exits before its own child does. -/
def orphanRun : List Label :=
  [.schedule 0] ++ forkLabels 0 ++ [.wait 0, .schedule 1] ++ forkLabels 1 ++
    [.exit 1, .schedule 0, .wait 0, .wait 0, .schedule 2, .exit 2, .schedule 0, .wait 0]

theorem children_kept_orphanRun :
    ∃ s, run step init orphanRun = some s ∧ s.reaped.map (fun r => r.child.pid) = [2, 3] ∧
      ChildrenKept s := by
  have hrun : (run step init orphanRun).map (fun s => s.reaped.map fun r => r.child.pid) =
      some [2, 3] := by decide +kernel
  obtain ⟨s, hs, hpids⟩ := Option.map_eq_some_iff.mp hrun
  exact ⟨s, hs, hpids, children_kept hs⟩

end Procs

end Xv6
