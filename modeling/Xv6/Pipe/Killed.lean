import Xv6.Pipe.Wakeup

/-!
# A killed process and its sleep

`kill` sets `killed` and wakes a SLEEPING process under `ptable.lock`, and the loops test
`killed` before they call `sleep`. In `wait` the test and the change to SLEEPING are one
critical section of `ptable.lock`. In the pipes and in `sys_sleep` the test is made under
another lock, and a `kill` before the `acquire(&ptable.lock)` of `sleep` comes too late
for the test and too early for the wakeup.
-/

namespace Xv6

/-- The process has tested `proc->killed` and goes to sleep. -/
def At.tested : At → Bool
  | .wakeReaders _ _ => true
  | .toSleep _ => true
  | .dropLock _ => true
  | .suspend _ => true
  | _ => false

namespace Sleepers

open Foundation

variable {s t : Sleepers} {l : Label}

/-- A `kill` of a process between its test of `proc->killed` and its
`acquire(&ptable.lock)` in `sleep`. -/
def killsTested (s : Sleepers) : Label → Bool
  | .kill p => (s.status p).tested
  | _ => false

/-- Nobody who sleeps, or goes to sleep, has been killed. -/
structure Alert (s : Sleepers) : Prop where
  tested : ∀ p, (s.status p).tested = true → s.killed p = false
  sleeping : ∀ p c, s.sleeping p = some c → s.killed p = false

theorem alert_init : Alert init := ⟨fun _ _ => rfl, fun _ _ _ => rfl⟩

/-- A process moves; it goes to sleep only if it has not been killed. -/
theorem Alert.move (h : Alert s) {x : Sleepers} {p : Pid} {a : At} (hst : x.status = s.status)
    (hk : x.killed = s.killed)
    (hsl : ∀ q c, x.sleeping q = some c → s.sleeping q = some c ∨ s.killed q = false)
    (ha : a.tested = true → s.killed p = false) : Alert (x.setStatus p a) := by
  have hk' : (x.setStatus p a).killed = s.killed := hk
  refine ⟨fun q hq => ?_, fun q c hq => ?_⟩
  · rw [hk']
    by_cases hqp : q = p
    · subst hqp
      rw [setStatus_self] at hq
      exact ha hq
    · rw [setStatus_of_ne hqp, hst] at hq
      exact h.tested q hq
  · rw [hk']
    rcases hsl q c hq with hs | hs
    · exact h.sleeping q c hs
    · exact hs

theorem alert_test (h : Alert s) {p : Pid} (c : Caller) (hc : c ≠ .wait) :
    Alert (s.test p c) := by
  cases c with
  | write addr i =>
      simp only [Sleepers.test, writeTest]
      split
      · exact h.move rfl rfl (fun _ _ => .inl) (by simp [At.tested])
      · split <;> exact h.move rfl rfl (fun _ _ => .inl) (by simp [At.tested])
  | read n =>
      simp only [Sleepers.test]
      split <;> exact h.move rfl rfl (fun _ _ => .inl) (by simp [At.tested])
  | ticks n ticks0 =>
      simp only [Sleepers.test]
      split <;> exact h.move rfl rfl (fun _ _ => .inl) (by simp [At.tested])
  | wait => exact absurd rfl hc

theorem alert_testKilled (h : Alert s) {p : Pid} (c : Caller) : Alert (s.testKilled p c) := by
  cases c <;>
  · simp only [Sleepers.testKilled]
    split <;> exact h.move rfl rfl (fun _ _ => .inl) (by simp_all [At.tested])

theorem alert_copy (h : Alert s) {p : Pid} (n : ℕ) : Alert (s.copy p n) := by
  cases n with
  | zero => exact h.move rfl rfl (fun _ _ => .inl) (by simp [At.tested])
  | succ n =>
      simp only [Sleepers.copy]
      split <;> exact h.move rfl rfl (fun _ _ => .inl) (by simp [At.tested])

theorem alert_kill (h : Alert s) {p : Pid} (hok : (s.status p).tested = false) :
    Alert (s.kill p) := by
  refine ⟨fun q hq => ?_, fun q c hq => ?_⟩
  · have hqp : q ≠ p := by
      intro heq
      subst heq
      rw [show (s.kill q).status q = s.status q from rfl, hok] at hq
      simp at hq
    have hk : (s.kill p).killed q = s.killed q := Function.update_of_ne hqp ..
    exact hk.trans (h.tested q hq)
  · by_cases hqp : q = p
    · subst hqp
      simp [Sleepers.kill] at hq
    · have hk : (s.kill p).killed q = s.killed q := Function.update_of_ne hqp ..
      have hs : (s.kill p).sleeping q = s.sleeping q := Function.update_of_ne hqp ..
      exact hk.trans (h.sleeping q c (hs ▸ hq))

theorem alert_step (h : Alert s) (hok : s.killsTested l = false) (hstep : step s l = some t) :
    Alert t := by
  have hwakeup : ∀ (c : Chan) q c', (s.wakeup c).sleeping q = some c' →
      s.sleeping q = some c' ∨ s.killed q = false := fun _ _ _ hq => .inl (sleeping_wakeup.mp hq).1
  cases step_took hstep with
  | test hp hc => exact alert_test h _ hc
  | testKilled hp => exact alert_testKilled h _
  | copy hp => exact alert_copy h _
  | kill hl => exact alert_kill h hok
  | wakeReaders hp hl =>
      exact h.move rfl rfl (hwakeup _) fun _ => h.tested _ (by rw [hp]; rfl)
  | toSleep hp hl => exact h.move rfl rfl (fun _ _ => .inl) fun _ => h.tested _ (by rw [hp]; rfl)
  | dropLock hp => exact h.move rfl rfl (fun _ _ => .inl) fun _ => h.tested _ (by rw [hp]; rfl)
  | suspend hp =>
      rename_i p c
      refine h.move rfl rfl (fun q c' hq => ?_) (by simp [At.tested])
      by_cases hqp : q = p
      · subst hqp
        exact .inr (h.tested q (by rw [hp]; rfl))
      · exact .inl (by simpa [Sleepers.suspend, Sleepers.release, Function.update_of_ne hqp] using hq)
  | wakeup hp hl => exact h.move rfl rfl (hwakeup _) (by simp [At.tested])
  | tick => exact ⟨h.tested, fun p c hs => h.sleeping p c (sleeping_wakeup.mp hs).1⟩
  | childExit => exact ⟨h.tested, fun p c hs => h.sleeping p c (sleeping_wakeup.mp hs).1⟩
  | _ => exact h.move rfl rfl (fun _ _ => .inl) (by simp [At.tested])

/-- **A killed process is not left asleep** in a run in which no `kill` hits a process between its
test of `proc->killed` and its `acquire(&ptable.lock)` in `sleep`. In that window `kill` finds the
process running and wakes nobody, and the process goes to sleep with `killed` set. -/
theorem killed_not_asleep {ls : List Label} (hrun : run step init ls = some s)
    (hmeets : RunMeets step (fun s l => s.killsTested l = false) init ls) (p : Pid) :
    ¬ (s.sleeping p ≠ none ∧ s.killed p = true) := by
  have hinv : Alert s :=
    run_invariant_of_meets Alert (fun _ _ _ h hok hl => alert_step h hok hl) alert_init hmeets hrun
  rintro ⟨hs, hk⟩
  obtain ⟨c, hc⟩ := Option.ne_none_iff_exists'.mp hs
  rw [hinv.sleeping p c hc] at hk
  simp at hk

/-- A process is killed while it sleeps on the empty pipe. -/
def killedSleeper : List Label := [.piperead 0 1] ++ List.replicate 6 (.go 0) ++ [.kill 0]

theorem killed_not_asleep_killedSleeper :
    ∃ s, run step init killedSleeper = some s ∧ s.killed 0 = true ∧ s.sleeping 0 = none := by
  have hrun : (run step init killedSleeper).map (fun s => s.killed 0) = some true := by
    decide +kernel
  obtain ⟨s, hs, hk⟩ := Option.map_eq_some_iff.mp hrun
  refine ⟨s, hs, hk, ?_⟩
  by_contra hc
  exact killed_not_asleep hs (by decide +kernel) 0 ⟨hc, hk⟩

/-- The same, but the `kill` comes when `piperead` has tested `proc->killed` and `sleep` has
not acquired `ptable.lock`. -/
def killedOnTheWay : List Label :=
  [.piperead 0 1] ++ List.replicate 3 (.go 0) ++ [.kill 0] ++ List.replicate 3 (.go 0)

theorem killed_asleep :
    ∃ s, run step init killedOnTheWay = some s ∧ s.killed 0 = true ∧
      s.sleeping 0 = some .nread := by
  have hrun : (run step init killedOnTheWay).map (fun s => (s.killed 0, s.sleeping 0)) =
      some (true, some .nread) := by decide +kernel
  obtain ⟨s, hs, hst⟩ := Option.map_eq_some_iff.mp hrun
  exact ⟨s, hs, Prod.mk.inj hst⟩

end Sleepers

end Xv6
