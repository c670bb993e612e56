import Xv6.Pipe.Protocol

/-!
# Wakeups of a pipe

A lock has one holder, and the place of a process in its code says what it holds. While
the lock of the pipe is held by a process that still has to call `wakeup`, a sleeper may
have nothing to wait for; the early return of `pipewrite` from a full pipe is the one way
to the `release` that leaves out the `wakeup(&p->nread)` for the bytes already stored.
-/

namespace Xv6

/-- A process at this place of its code holds the lock. -/
def At.holds : At → LockId → Prop
  | .test c, l => l = c.lock
  | .testKilled c, l => l = c.lock
  | .wakeReaders _ _, l => l = .pipe
  | .toSleep c, l => l = c.lock
  | .dropLock c, l => l = c.lock ∨ l = .ptable
  | .suspend _, l => l = .ptable
  | .copy _, l => l = .pipe
  | .clear _, l => l = .pipe
  | .wakeup _, l => l = .pipe
  | .leave l', l => l = l'
  | .idle, _ => False
  | .enter _, _ => False
  | .asleep _, _ => False
  | .close _, _ => False

/-- What a sleeper waits for: while this holds of the pipe, it has to sleep. -/
def Chan.need (x : Pipe) : Chan → Prop
  | .nread => x.empty = true ∧ x.writeopen = true
  | .nwrite => x.full = true ∧ x.readopen = true
  | .ticks => True
  | .proc _ => True

/-- The process has evaluated the wait condition and has not released the lock since. -/
def At.ready : At → Option Chan
  | .testKilled (.read _) => some .nread
  | .toSleep (.read _) => some .nread
  | .dropLock (.read _) => some .nread
  | .wakeReaders _ _ => some .nwrite
  | .toSleep (.write _ _) => some .nwrite
  | .dropLock (.write _ _) => some .nwrite
  | _ => none

/-- The process calls `wakeup` on the channel before it releases the lock, unless it
returns early from `pipewrite`. -/
def At.owes : At → Chan → Prop
  | .test (.write _ _), c => c = .nread
  | .testKilled (.write _ _), c => c = .nread
  | .wakeReaders _ _, c => c = .nread
  | .copy _, c => c = .nwrite
  | .wakeup c', c => c = c'
  | _, _ => False

namespace Sleepers

open Foundation

variable {s t : Sleepers} {l : Label}

theorem setStatus_self (s : Sleepers) (p : Pid) (a : At) : (s.setStatus p a).status p = a :=
  Function.update_self ..

theorem setStatus_of_ne {q p : Pid} (h : q ≠ p) (s : Sleepers) (a : At) :
    (s.setStatus p a).status q = s.status q := Function.update_of_ne h ..

/-! ### Who holds a lock -/

/-- The holder of a lock is the process whose code holds it. -/
structure Held (s : Sleepers) : Prop where
  lock : ∀ l p, s.lock l = some p ↔ (s.status p).holds l
  /-- `wait` keeps `ptable.lock` on its way into `sched` -/
  wait : ∀ p, s.status p ≠ .dropLock .wait

theorem held_init : Held init :=
  ⟨by simp [init, At.holds], by simp [init]⟩

/-- A process moves from one place to another and takes or gives up locks accordingly. -/
theorem Held.move (h : Held s) {p : Pid} {a : At} (hst : t.status = Function.update s.status p a)
    (hlock : ∀ l, a.holds l ∧ t.lock l = some p ∨
      ¬ a.holds l ∧ (s.status p).holds l ∧ t.lock l = none ∨
      ¬ a.holds l ∧ ¬ (s.status p).holds l ∧ t.lock l = s.lock l)
    (hfree : ∀ l, a.holds l → (s.status p).holds l ∨ s.lock l = none)
    (hwait : a ≠ .dropLock .wait) : Held t := by
  refine ⟨fun l q => ?_, fun q => ?_⟩
  · have hp := h.lock l p
    have hq := h.lock l q
    rw [hst]
    by_cases hqp : q = p
    · subst hqp
      rw [Function.update_self]
      rcases hlock l with ⟨ha, ht⟩ | ⟨ha, -, ht⟩ | ⟨ha, hn, ht⟩ <;> simp [ha, ht]
      exact fun hs => hn (hp.mp hs)
    · rw [Function.update_of_ne hqp, ← hq]
      have hf := hfree l
      rcases hlock l with ⟨ha, ht⟩ | ⟨ha, hs, ht⟩ | ⟨ha, hn, ht⟩
      · rcases hf ha with hs | hs <;> grind
      · rw [ht, hp.mpr hs]
        simp [Ne.symm hqp]
      · rw [ht]
  · rw [hst]
    by_cases hq : q = p
    · subst hq
      rwa [Function.update_self]
    · rw [Function.update_of_ne hq]
      exact h.wait q

theorem Held.congr (h : Held s) (hst : t.status = s.status) (hlock : t.lock = s.lock) :
    Held t :=
  ⟨by rw [hst, hlock]; exact h.lock, by rw [hst]; exact h.wait⟩

theorem acquire_lock (s : Sleepers) (p : Pid) (l l' : LockId) :
    (s.acquire p l).lock l' = if l' = l then some p else s.lock l' := by
  simp [acquire, Function.update_apply]

theorem release_lock (s : Sleepers) (l l' : LockId) :
    (s.release l).lock l' = if l' = l then none else s.lock l' := by
  simp [release, Function.update_apply]

/-- A step between two places at which the process holds the same locks. -/
theorem Held.stay (h : Held s) {x : Sleepers} {p : Pid} {a : At} (hst : x.status = s.status)
    (hlock : x.lock = s.lock) (hsame : ∀ l, a.holds l ↔ (s.status p).holds l)
    (hwait : a ≠ .dropLock .wait) : Held (x.setStatus p a) := by
  refine h.move (by rw [← hst]; rfl) (fun l => ?_) (fun l hl => .inl ((hsame l).mp hl)) hwait
  have hx : (x.setStatus p a).lock l = s.lock l := congrFun hlock l
  by_cases ha : a.holds l
  · exact .inl ⟨ha, hx.trans ((h.lock l p).mpr ((hsame l).mp ha))⟩
  · exact .inr (.inr ⟨ha, fun hs => ha ((hsame l).mpr hs), hx⟩)

/-- A process takes a lock that is free. -/
theorem Held.acquire (h : Held s) {p : Pid} {a : At} {l : LockId} (hl : s.lock l = none)
    (hset : ∀ l', a.holds l' ↔ l' = l ∨ (s.status p).holds l')
    (hwait : a ≠ .dropLock .wait) : Held ((s.acquire p l).setStatus p a) := by
  refine h.move rfl (fun l' => ?_) (fun l' hl' => ?_) hwait
  · have hx : ((s.acquire p l).setStatus p a).lock l' = if l' = l then some p else s.lock l' :=
      acquire_lock s p l l'
    have hp := h.lock l' p
    have hs := hset l'
    grind
  · rcases (hset l').mp hl' with rfl | hp
    · exact .inr hl
    · exact .inl hp

/-- A process gives up a lock that it holds. -/
theorem Held.release (h : Held s) {x : Sleepers} {p : Pid} {a : At} {l : LockId}
    (hst : x.status = s.status) (hlock : x.lock = s.lock)
    (hset : ∀ l', (s.status p).holds l' ↔ l' = l ∨ a.holds l')
    (hl : ¬ a.holds l) (hwait : a ≠ .dropLock .wait) :
    Held ((x.release l).setStatus p a) := by
  refine h.move (by rw [← hst]; rfl) (fun l' => ?_)
    (fun l' hl' => .inl ((hset l').mpr (.inr hl'))) hwait
  have hx : ((x.release l).setStatus p a).lock l' = if l' = l then none else s.lock l' := by
    rw [← hlock]
    exact release_lock x l l'
  have hp := h.lock l' p
  have hs := hset l'
  grind

theorem held_test (h : Held s) {p : Pid} {c : Caller} (hp : s.status p = .test c)
    (hc : c ≠ .wait) : Held (s.test p c) := by
  cases c with
  | write addr i =>
      simp only [Sleepers.test, writeTest]
      split
      · exact h.stay rfl rfl (by simp [hp, At.holds, Caller.lock]) (by simp)
      · split
        · exact h.stay rfl rfl (by simp [hp, At.holds]) (by simp)
        · exact h.stay rfl rfl (by simp [hp, At.holds, Caller.lock]) (by simp)
  | read n =>
      simp only [Sleepers.test]
      split
      · exact h.stay rfl rfl (by simp [hp, At.holds]) (by simp)
      · exact h.stay rfl rfl (by simp [hp, At.holds, Caller.lock]) (by simp)
  | ticks n ticks0 =>
      simp only [Sleepers.test]
      split
      · exact h.stay rfl rfl (by simp [hp, At.holds]) (by simp)
      · exact h.stay rfl rfl (by simp [hp, At.holds, Caller.lock]) (by simp)
  | wait => exact absurd rfl hc

theorem held_testKilled (h : Held s) {p : Pid} {c : Caller} (hp : s.status p = .testKilled c) :
    Held (s.testKilled p c) := by
  cases c <;>
  · simp only [Sleepers.testKilled]
    split <;>
      exact h.stay rfl rfl (by simp [hp, At.holds, Caller.lock]) (by simp)

theorem held_copy (h : Held s) {p : Pid} {n : ℕ} (hp : s.status p = .copy n) :
    Held (s.copy p n) := by
  cases n with
  | zero => exact h.stay rfl rfl (by simp [hp, At.holds]) (by simp)
  | succ n =>
      simp only [Sleepers.copy]
      split <;> exact h.stay rfl rfl (by simp [hp, At.holds]) (by simp)

theorem held_step (h : Held s) (hstep : step s l = some t) : Held t := by
  cases step_took hstep with
  | test hp hc => exact held_test h hp hc
  | testKilled hp => exact held_testKilled h hp
  | copy hp => exact held_copy h hp
  | sysSleep hp hl => exact h.acquire hl (by simp [hp, At.holds, Caller.lock]) (by simp)
  | enter hp hl => exact h.acquire hl (by simp [hp, At.holds]) (by simp)
  | asleep hp _ hl => exact h.acquire hl (by simp [hp, At.holds]) (by simp)
  | close hp hl => exact h.acquire hl (by simp [hp, At.holds]) (by simp)
  | toSleep hp hl =>
      rename_i p c
      refine h.acquire hl (by simp [hp, At.holds, or_comm]) ?_
      intro heq
      -- `wait` would already hold `ptable.lock`
      cases heq
      have hheld := (h.lock .ptable p).mpr (by simp [hp, At.holds, Caller.lock])
      simp [hl] at hheld
  | dropLock hp =>
      rename_i p c
      have hc : c.lock ≠ .ptable := by
        cases c with
        | wait => exact absurd hp (h.wait p)
        | _ => simp [Caller.lock]
      exact h.release rfl rfl (by simp [hp, At.holds]) (by simp [At.holds, hc]) (by simp)
  | suspend hp => exact h.release rfl rfl (by simp [hp, At.holds]) (by simp [At.holds]) (by simp)
  | leave hp =>
      exact h.release rfl rfl (by simp [hp, At.holds]) (by simp [At.holds]) (by simp)
  | kill => exact h.congr rfl rfl
  | tick => exact h.congr rfl rfl
  | childExit => exact h.congr rfl rfl
  | _ =>
      rename_i hp
      exact h.stay rfl rfl (by simp_all [At.holds, Caller.lock]) (by simp)

theorem Held.unique (h : Held s) {l : LockId} {p q : Pid} (hp : s.lock l = some p)
    (hq : (s.status q).holds l) : q = p :=
  Option.some.inj (((h.lock l q).mpr hq).symm.trans hp)

/-! ### Who owes a wakeup -/

/-- The process is SLEEPING on the channel, or in `sleep` and past `release(lk)`. -/
def Blocked (s : Sleepers) (q : Pid) (c : Chan) : Prop :=
  (∃ c' : Caller, s.status q = .suspend c' ∧ c'.chan q = c) ∨ s.sleeping q = some c

/-- A sleeper has something to wait for, or the holder of the lock owes a wakeup. -/
structure Woken (s : Sleepers) : Prop where
  ready : ∀ q c, (s.status q).ready = some c → c.need s.pipe
  full : ∀ q addr i, s.status q = .testKilled (.write addr i) → s.pipe.full = true
  blocked : ∀ q c, s.Blocked q c →
    c.need s.pipe ∨ ∃ p, s.lock .pipe = some p ∧ (s.status p).owes c

/-- A `pipewrite` gives up on a full pipe while a reader sleeps, or has released the lock
to sleep. -/
def Abandons (s : Sleepers) (l : Label) : Prop :=
  ∃ p addr i, l = .go p ∧ s.status p = .testKilled (.write addr i) ∧
    (s.pipe.readopen = false ∨ s.killed p = true) ∧ ∃ q, s.Blocked q .nread

theorem woken_init : Woken init :=
  ⟨by simp [init, At.ready], by simp [init], by simp [init, Blocked]⟩

theorem Woken.need_of_holder (h : Woken s) {p q : Pid} {c : Chan} (hp : s.lock .pipe = some p)
    (ho : ¬ (s.status p).owes c) (hb : s.Blocked q c) : c.need s.pipe := by
  rcases h.blocked q c hb with hn | ⟨p', hp', ho'⟩
  · exact hn
  · rw [hp, Option.some.injEq] at hp'
    exact absurd (hp' ▸ ho') ho

/-- A step of a process that leaves the contents of the pipe. -/
theorem Woken.move (h : Woken s) {p : Pid} {a : At}
    (hst : t.status = Function.update s.status p a) (hpipe : t.pipe = s.pipe)
    (hlock : ∀ p', p' ≠ p → s.lock .pipe = some p' → t.lock .pipe = some p')
    (hready : ∀ c, a.ready = some c → c.need s.pipe)
    (hfull : ∀ addr i, a = .testKilled (.write addr i) → s.pipe.full = true)
    (hblocked : ∀ q c, t.Blocked q c → s.Blocked q c ∨ c.need s.pipe)
    (howes : ∀ q c, t.Blocked q c → (s.status p).owes c → s.lock .pipe = some p →
      a.owes c ∧ t.lock .pipe = some p) : Woken t := by
  refine ⟨fun q c => ?_, fun q addr i => ?_, fun q c hb => ?_⟩
  · rw [hst, hpipe]
    by_cases hq : q = p
    · subst hq
      rw [Function.update_self]
      exact hready c
    · rw [Function.update_of_ne hq]
      exact h.ready q c
  · rw [hst, hpipe]
    by_cases hq : q = p
    · subst hq
      rw [Function.update_self]
      exact hfull addr i
    · rw [Function.update_of_ne hq]
      exact h.full q addr i
  · rw [hpipe]
    rcases hblocked q c hb with hs | hn
    · rcases h.blocked q c hs with hn | ⟨p', hp', ho⟩
      · exact .inl hn
      · by_cases hp : p' = p
        · subst hp
          obtain ⟨ha, ht⟩ := howes q c hb ho hp'
          exact .inr ⟨p', ht, by rwa [hst, Function.update_self]⟩
        · exact .inr ⟨p', hlock p' hp hp', by rwa [hst, Function.update_of_ne hp]⟩
    · exact .inl hn

/-- A step of the holder of the lock that changes the pipe. -/
theorem woken_change (hh : Held s) {x : Sleepers} {p : Pid} {a : At}
    (hst : x.status = s.status) (hsl : x.sleeping = s.sleeping) (hlock : x.lock = s.lock)
    (hp : (s.status p).holds .pipe) (hready : a.ready = none)
    (hfull : ∀ addr i, a ≠ .testKilled (.write addr i)) (hsusp : ∀ c, a ≠ .suspend c)
    (hneed : ∀ q c, s.Blocked q c → c.need x.pipe ∨ a.owes c) : Woken (x.setStatus p a) := by
  have hlp : s.lock .pipe = some p := (hh.lock .pipe p).mpr hp
  have hother : ∀ q, q ≠ p → ((x.setStatus p a).status q) = s.status q := fun q hq => by
    rw [← hst]
    exact Function.update_of_ne hq _ _
  have hself : (x.setStatus p a).status p = a := Function.update_self ..
  refine ⟨fun q c hr => ?_, fun q addr i hf => ?_, fun q c hb => ?_⟩
  · by_cases hq : q = p
    · subst hq
      rw [hself, hready] at hr
      simp at hr
    · rw [hother q hq] at hr
      have hholds : (s.status q).holds .pipe := by
        cases hs : s.status q <;> simp_all [At.ready, At.holds]
        all_goals split at hr <;> simp_all [Caller.lock]
      exact absurd (hh.unique hlp hholds) hq
  · by_cases hq : q = p
    · subst hq
      rw [hself] at hf
      exact absurd hf (hfull addr i)
    · rw [hother q hq] at hf
      exact absurd (hh.unique hlp (by simp [hf, At.holds, Caller.lock])) hq
  · have hbs : s.Blocked q c := by
      rcases hb with ⟨c', hc', hchan⟩ | hb
      · by_cases hq : q = p
        · subst hq
          rw [hself] at hc'
          exact absurd hc' (hsusp c')
        · rw [hother q hq] at hc'
          exact .inl ⟨c', hc', hchan⟩
      · exact .inr (hsl ▸ hb)
    rcases hneed q c hbs with hn | ho
    · exact .inl hn
    · refine .inr ⟨p, ?_, by rw [hself]; exact ho⟩
      rw [← hlp, ← hlock]
      rfl

/-- Nobody starts to sleep. -/
theorem blocked_of_move {x : Sleepers} {p q : Pid} {a : At} {c : Chan} (hst : x.status = s.status)
    (hsl : ∀ q c, x.sleeping q = some c → s.sleeping q = some c) (hsusp : ∀ c, a ≠ .suspend c)
    (hb : (x.setStatus p a).Blocked q c) : s.Blocked q c := by
  rcases hb with ⟨c', hc', hchan⟩ | hb
  · by_cases hq : q = p
    · subst hq
      rw [setStatus_self] at hc'
      exact absurd hc' (hsusp c')
    · rw [setStatus_of_ne hq, hst] at hc'
      exact .inl ⟨c', hc', hchan⟩
  · exact .inr (hsl q c hb)

theorem sleeping_wakeup {q : Pid} {c c' : Chan} :
    (s.wakeup c).sleeping q = some c' ↔ s.sleeping q = some c' ∧ c' ≠ c := by
  simp only [wakeup]
  grind

theorem blocked_wakeup {q : Pid} {c c' : Chan} (hb : (s.wakeup c).Blocked q c') :
    s.Blocked q c' := by
  rcases hb with hs | hs
  · exact .inl hs
  · exact .inr (sleeping_wakeup.mp hs).1

/-- With `ptable.lock` free nobody is on its way to SLEEPING, so `wakeup` leaves no sleeper. -/
theorem not_blocked_wakeup (hh : Held s) (hl : s.lock .ptable = none) {p q : Pid} {a : At}
    {c : Chan} (hsusp : ∀ c, a ≠ .suspend c) : ¬ ((s.wakeup c).setStatus p a).Blocked q c := by
  intro hb
  have hw : (s.wakeup c).Blocked q c := blocked_of_move rfl (fun _ _ h => h) hsusp hb
  rcases hw with ⟨c', hc', -⟩ | hb
  · have hheld := (hh.lock .ptable q).mpr (by rw [show s.status q = _ from hc']; rfl)
    rw [hl] at hheld
    simp at hheld
  · exact (sleeping_wakeup.mp hb).2 rfl

/-- A process moves without touching the pipe, the sleepers or a lock of the pipe that
another one holds, to a place where it waits for nothing. -/
theorem Woken.plain (h : Woken s) {x : Sleepers} {p : Pid} {a : At} (hst : x.status = s.status)
    (hpipe : x.pipe = s.pipe) (hsl : x.sleeping = s.sleeping)
    (hlock : ∀ p', p' ≠ p → s.lock .pipe = some p' → x.lock .pipe = some p')
    (hready : ∀ c, a.ready = some c → c.need s.pipe)
    (hfull : ∀ addr i, a = .testKilled (.write addr i) → s.pipe.full = true)
    (hsusp : ∀ c, a ≠ .suspend c)
    (howes : ∀ c, (s.status p).owes c → s.lock .pipe = some p →
      a.owes c ∧ x.lock .pipe = some p) : Woken (x.setStatus p a) := by
  have hx : (x.setStatus p a).status = Function.update s.status p a := by
    rw [← hst]
    rfl
  refine h.move hx hpipe hlock hready hfull (fun q c hb => .inl ?_) fun q c _ => howes c
  exact blocked_of_move hst (fun q c hs => hsl ▸ hs) hsusp hb

theorem woken_test (h : Woken s) (hh : Held s) {p : Pid} {c : Caller} (hp : s.status p = .test c)
    (hc : c ≠ .wait) : Woken (s.test p c) := by
  cases c with
  | write addr i =>
      have hholds : (s.status p).holds .pipe := by rw [hp]; rfl
      simp only [Sleepers.test, writeTest]
      split
      · exact h.plain rfl rfl rfl (fun _ _ h => h) (by simp [At.ready]) (by simp) (by simp)
          (by simp [hp, At.owes])
      · split
        · rename_i hfull
          exact h.plain rfl rfl rfl (fun _ _ h => h) (by simp [At.ready]) (fun _ _ _ => hfull)
            (by simp) (by simp [hp, At.owes])
        · rename_i hfull
          refine woken_change hh rfl rfl rfl hholds rfl (by simp) (by simp) fun q c hb => ?_
          -- the byte is owed to the readers; no writer sleeps, as the pipe is not full
          have hneed := fun ho => h.need_of_holder ((hh.lock .pipe p).mpr hholds) ho hb
          cases c with
          | nread => exact .inr rfl
          | nwrite => exact absurd (hneed (by simp [hp, At.owes])).1 hfull
          | ticks => exact .inl trivial
          | proc _ => exact .inl trivial
  | read n =>
      simp only [Sleepers.test]
      split
      · rename_i hneed
        exact h.plain rfl rfl rfl (fun _ _ h => h) (by simp [At.ready, Chan.need, hneed]) (by simp)
          (by simp) (by simp [hp, At.owes])
      · exact h.plain rfl rfl rfl (fun _ _ h => h) (by simp [At.ready]) (by simp) (by simp)
          (by simp [hp, At.owes])
  | ticks n ticks0 =>
      simp only [Sleepers.test]
      split <;>
        exact h.plain rfl rfl rfl (fun _ _ h => h) (by simp [At.ready]) (by simp) (by simp)
          (by simp [hp, At.owes])
  | wait => exact absurd rfl hc

theorem woken_testKilled (h : Woken s) {p : Pid} {c : Caller} (hp : s.status p = .testKilled c)
    (hok : ¬ Abandons s (.go p)) : Woken (s.testKilled p c) := by
  cases c with
  | write addr i =>
      simp only [Sleepers.testKilled]
      split
      · rename_i hgive
        have hblocked : ∀ q c, (s.setStatus p (.leave .pipe)).Blocked q c → s.Blocked q c :=
          fun q c hb => blocked_of_move rfl (fun _ _ h => h) (by simp) hb
        refine h.move rfl rfl (fun _ _ h => h) (by simp [At.ready]) (by simp)
          (fun q c hb => .inl (hblocked q c hb)) fun q c hb ho _ => ?_
        -- the writer leaves without the wakeup: no reader is blocked
        rw [hp] at ho
        obtain rfl : c = .nread := ho
        exact absurd ⟨p, addr, i, rfl, hp, by simpa using hgive, q, hblocked q _ hb⟩ hok
      · rename_i hopen
        refine h.plain rfl rfl rfl (fun _ _ h => h) ?_ (by simp) (by simp) (by simp [hp, At.owes])
        rintro c ⟨⟩
        have hfull := h.full p addr i hp
        simp_all [Chan.need]
  | read n =>
      simp only [Sleepers.testKilled]
      have hneed := h.ready p .nread (by rw [hp]; rfl)
      split
      · exact h.plain rfl rfl rfl (fun _ _ h => h) (by simp [At.ready]) (by simp) (by simp)
          (by simp [hp, At.owes])
      · exact h.plain rfl rfl rfl (fun _ _ h => h) (by simpa [At.ready] using hneed) (by simp)
          (by simp) (by simp [hp, At.owes])
  | ticks n ticks0 =>
      simp only [Sleepers.testKilled]
      split <;>
        exact h.plain rfl rfl rfl (fun _ _ h => h) (by simp [At.ready]) (by simp) (by simp)
          (by simp [hp, At.owes])
  | wait =>
      simp only [Sleepers.testKilled]
      split
      · exact h.plain rfl rfl rfl (fun _ _ h => h) (by simp [At.ready]) (by simp) (by simp)
          (by simp [hp, At.owes])
      · refine h.move rfl rfl (fun _ _ h => h) (by simp [At.ready]) (by simp) (fun q c hb => ?_)
          (by simp [hp, At.owes])
        rcases hb with ⟨c', hc', hchan⟩ | hb
        · by_cases hq : q = p
          · subst hq
            obtain rfl : Caller.wait = c' := by simpa [setStatus] using hc'
            exact .inr (hchan ▸ trivial)
          · exact .inl (.inl ⟨c', by simpa [setStatus, Function.update_of_ne hq] using hc', hchan⟩)
        · exact .inl (.inr hb)

theorem woken_copy (h : Woken s) (hh : Held s) {p : Pid} {n : ℕ} (hp : s.status p = .copy n) :
    Woken (s.copy p n) := by
  have hholds : (s.status p).holds .pipe := by rw [hp]; rfl
  have hdone : Woken (s.setStatus p (.wakeup .nwrite)) :=
    h.plain rfl rfl rfl (fun _ _ h => h) (by simp [At.ready]) (by simp) (by simp)
      (by simp [hp, At.owes])
  cases n with
  | zero => exact hdone
  | succ n =>
      simp only [Sleepers.copy]
      split
      · exact hdone
      · rename_i hempty
        refine woken_change hh rfl rfl rfl hholds rfl (by simp) (by simp) fun q c hb => ?_
        -- the room is owed to the writers; no reader sleeps, as the pipe is not empty
        have hneed := fun ho => h.need_of_holder ((hh.lock .pipe p).mpr hholds) ho hb
        cases c with
        | nread => exact absurd (hneed (by simp [hp, At.owes])).1 hempty
        | nwrite => exact .inr rfl
        | ticks => exact .inl trivial
        | proc _ => exact .inl trivial

theorem woken_clear (h : Woken s) (hh : Held s) {p : Pid} {w : Bool} (hp : s.status p = .clear w) :
    Woken ((s.setPipe (s.pipe.close w)).setStatus p (.wakeup (if w then .nread else .nwrite))) := by
  have hholds : (s.status p).holds .pipe := by rw [hp]; rfl
  refine woken_change hh rfl rfl rfl hholds rfl (by simp) (by simp) fun q c hb => ?_
  have hneed := h.need_of_holder ((hh.lock .pipe p).mpr hholds) (by simp [hp, At.owes]) hb
  cases w <;> cases c
  case false.nread => exact .inl hneed
  case false.nwrite => exact .inr rfl
  case true.nread => exact .inr rfl
  case true.nwrite => exact .inl hneed
  all_goals exact .inl trivial

/-- A step in which only sleepers are woken. -/
theorem Woken.shrink (h : Woken s) (hst : t.status = s.status) (hpipe : t.pipe = s.pipe)
    (hlock : t.lock = s.lock) (hsl : ∀ q c, t.sleeping q = some c → s.sleeping q = some c) :
    Woken t := by
  refine ⟨?_, ?_, fun q c hb => ?_⟩
  · rw [hst, hpipe]
    exact h.ready
  · rw [hst, hpipe]
    exact h.full
  · rw [hst, hpipe, hlock]
    refine h.blocked q c ?_
    rcases hb with ⟨c', hc', hchan⟩ | hb
    · exact .inl ⟨c', hst ▸ hc', hchan⟩
    · exact .inr (hsl q c hb)

/-- The lock of the pipe stays with whoever holds it, unless it is the one that moves. -/
theorem acquire_keeps {p p' : Pid} {l : LockId} (hl : s.lock l = none)
    (hp' : s.lock .pipe = some p') : (s.acquire p l).lock .pipe = some p' := by
  rw [acquire_lock]
  split
  · rename_i heq
    rw [← heq, hp'] at hl
    simp at hl
  · exact hp'

theorem release_keeps (hh : Held s) {p p' : Pid} {l : LockId} (hl : (s.status p).holds l)
    (hne : p' ≠ p) (hp' : s.lock .pipe = some p') : (s.release l).lock .pipe = some p' := by
  rw [release_lock]
  split
  · rename_i heq
    exact absurd (hh.unique hp' (heq ▸ hl)) (Ne.symm hne)
  · exact hp'

/-- `sleep` releases the lock that it was given: the process has evaluated its condition under it. -/
theorem woken_dropLock (h : Woken s) (hh : Held s) {p : Pid} {c : Caller}
    (hp : s.status p = .dropLock c) : Woken ((s.release c.lock).setStatus p (.suspend c)) := by
  refine h.move rfl rfl (fun _ => release_keeps hh (by rw [hp]; exact .inl rfl))
    (by simp [At.ready]) (by simp) (fun q c' hb => ?_) (by simp [hp, At.owes])
  rcases hb with ⟨c'', hc'', hchan⟩ | hb
  · by_cases hq : q = p
    · subst hq
      obtain rfl : c = c'' := by simpa [setStatus] using hc''
      refine .inr (hchan ▸ ?_)
      cases c with
      | write _ _ => exact h.ready q _ (by rw [hp]; rfl)
      | read _ => exact h.ready q _ (by rw [hp]; rfl)
      | ticks _ _ => trivial
      | wait => trivial
    · refine .inl (.inl ⟨c'', ?_, hchan⟩)
      simpa [setStatus, Sleepers.release, Function.update_of_ne hq] using hc''
  · exact .inl (.inr hb)

theorem woken_suspend (h : Woken s) {p : Pid} {c : Caller} (hp : s.status p = .suspend c) :
    Woken (((s.suspend p (c.chan p)).release .ptable).setStatus p (.asleep c)) := by
  refine h.move rfl rfl (fun _ _ hp' => ?_) (by simp [At.ready]) (by simp)
    (fun q c' hb => .inl ?_) (by simp [hp, At.owes])
  · simpa [setStatus, Sleepers.release, Sleepers.suspend] using hp'
  · rcases hb with ⟨c'', hc'', hchan⟩ | hb
    · by_cases hq : q = p
      · subst hq
        simp [setStatus] at hc''
      · refine .inl ⟨c'', ?_, hchan⟩
        simpa [setStatus, Sleepers.release, Sleepers.suspend, Function.update_of_ne hq] using hc''
    · by_cases hq : q = p
      · subst hq
        exact .inl ⟨c, hp, by simpa [setStatus, Sleepers.release, Sleepers.suspend] using hb⟩
      · refine .inr ?_
        simpa [setStatus, Sleepers.release, Sleepers.suspend, Function.update_of_ne hq] using hb

/-- With `ptable.lock` a `wakeup` reaches everybody who sleeps on the channel, or is about to. -/
theorem woken_wakeup (h : Woken s) (hh : Held s) {p : Pid} {c : Chan} {a : At}
    (hl : s.lock .ptable = none) (howes : ∀ c', (s.status p).owes c' → c' = c)
    (hready : ∀ c', a.ready = some c' → (s.status p).ready = some c')
    (hfull : ∀ addr i, a ≠ .testKilled (.write addr i)) (hsusp : ∀ c, a ≠ .suspend c) :
    Woken ((s.wakeup c).setStatus p a) := by
  have hnone := fun q => not_blocked_wakeup hh hl (p := p) (q := q) (c := c) (a := a) hsusp
  refine h.move rfl rfl (fun _ _ h => h) (fun c' hc' => h.ready p c' (hready c' hc'))
    (fun addr i ha => absurd ha (hfull addr i)) (fun q c' hb => ?_) fun q c' hb ho _ => ?_
  · exact .inl (blocked_wakeup (blocked_of_move rfl (fun _ _ h => h) hsusp hb))
  · obtain rfl := howes c' ho
    exact absurd hb (hnone q)

theorem woken_step (h : Woken s) (hh : Held s) (hok : ¬ Abandons s l)
    (hstep : step s l = some t) : Woken t := by
  cases step_took hstep with
  | test hp hc => exact woken_test h hh hp hc
  | testKilled hp => exact woken_testKilled h hp hok
  | copy hp => exact woken_copy h hh hp
  | clear hp => exact woken_clear h hh hp
  | kill hl =>
      rename_i p
      refine h.shrink rfl rfl rfl fun q c hs => ?_
      by_cases hq : q = p
      · simp [Sleepers.kill, hq] at hs
      · simpa [Sleepers.kill, Function.update_of_ne hq] using hs
  | tick hl hl' => exact h.shrink rfl rfl rfl fun q c hs => (sleeping_wakeup.mp hs).1
  | childExit hl => exact h.shrink rfl rfl rfl fun q c hs => (sleeping_wakeup.mp hs).1
  | sysSleep hp hl =>
      exact h.plain rfl rfl rfl (fun _ _ => acquire_keeps hl) (by simp [At.ready]) (by simp)
        (by simp) (by simp [hp, At.owes])
  | enter hp hl =>
      exact h.plain rfl rfl rfl (fun _ _ => acquire_keeps hl) (by simp [At.ready]) (by simp)
        (by simp) (by simp [hp, At.owes])
  | asleep hp hw hl =>
      exact h.plain rfl rfl rfl (fun _ _ => acquire_keeps hl) (by simp [At.ready]) (by simp)
        (by simp) (by simp [hp, At.owes])
  | close hp hl =>
      exact h.plain rfl rfl rfl (fun _ _ => acquire_keeps hl) (by simp [At.ready]) (by simp)
        (by simp) (by simp [hp, At.owes])
  | toSleep hp hl =>
      rename_i p c
      refine h.plain rfl rfl rfl (fun _ _ => acquire_keeps hl) (fun c' hr => ?_) (by simp)
        (by simp) (by simp [hp, At.owes])
      refine h.ready p c' ?_
      rw [hp]
      cases c <;> exact hr
  | dropLock hp => exact woken_dropLock h hh hp
  | suspend hp => exact woken_suspend h hp
  | leave hp =>
      exact h.plain rfl rfl rfl (fun _ => release_keeps hh (by rw [hp]; exact rfl))
        (by simp [At.ready]) (by simp) (by simp) (by simp [hp, At.owes])
  | wakeReaders hp hl =>
      refine woken_wakeup h hh hl (by rw [hp]; exact fun _ ho => ho) ?_ (by simp) (by simp)
      rintro c ⟨⟩
      rw [hp]
      rfl
  | wakeup hp hl =>
      exact woken_wakeup h hh hl (by rw [hp]; exact fun _ ho => ho) (by simp [At.ready]) (by simp)
        (by simp)
  | pipewrite hp =>
      exact h.plain rfl rfl rfl (fun _ _ h => h) (by simp [At.ready]) (by simp) (by simp)
        (by simp [hp, At.owes])
  | piperead hp =>
      exact h.plain rfl rfl rfl (fun _ _ h => h) (by simp [At.ready]) (by simp) (by simp)
        (by simp [hp, At.owes])
  | pipeclose hp =>
      exact h.plain rfl rfl rfl (fun _ _ h => h) (by simp [At.ready]) (by simp) (by simp)
        (by simp [hp, At.owes])
  | wait hp =>
      exact h.plain rfl rfl rfl (fun _ _ h => h) (by simp [At.ready]) (by simp) (by simp)
        (by simp [hp, At.owes])
  | reap hp =>
      exact h.plain rfl rfl rfl (fun _ _ h => h) (by simp [At.ready]) (by simp) (by simp)
        (by simp [hp, At.owes])
  | scan hp =>
      exact h.plain rfl rfl rfl (fun _ _ h => h) (by simp [At.ready]) (by simp) (by simp)
        (by simp [hp, At.owes])

/-! ### Wakeups are kept -/

/-- **No wakeup is lost** in a run in which no `pipewrite` gives up on a full pipe while a reader
sleeps: when the lock of the pipe is free, a reader sleeps only on an empty pipe that can still be
written, and a writer only on a full pipe that can still be read. The invariant says it of the
sleepers and of those that are about to sleep; what a holder of the lock has changed it owes them
a `wakeup` for, which an early return from `pipewrite` does not pay. -/
theorem wakeups_kept {ls : List Label} (hrun : run step init ls = some s)
    (hmeets : RunMeets step (fun s l => ¬ Abandons s l) init ls) (hfree : s.lock .pipe = none)
    (q : Pid) :
    (s.sleeping q = some .nread → s.pipe.empty = true ∧ s.pipe.writeopen = true) ∧
      (s.sleeping q = some .nwrite → s.pipe.full = true ∧ s.pipe.readopen = true) := by
  have hinv : Held s ∧ Woken s :=
    run_invariant_of_meets (fun s => Held s ∧ Woken s)
      (fun _ _ _ h hok hl => ⟨held_step h.1 hl, woken_step h.2 h.1 hok hl⟩)
      ⟨held_init, woken_init⟩ hmeets hrun
  have hneed : ∀ c, s.sleeping q = some c → c.need s.pipe := by
    intro c hs
    rcases hinv.2.blocked q c (.inr hs) with hn | ⟨p, hp, -⟩
    · exact hn
    · simp [hfree] at hp
  exact ⟨hneed .nread, hneed .nwrite⟩

/-- The process gives up in `pipewrite`. -/
def givesUp (s : Sleepers) : Label → Bool
  | .go p =>
      match s.status p with
      | .testKilled (.write _ _) => !s.pipe.readopen || s.killed p
      | _ => false
  | _ => false

theorem givesUp_of_abandons (h : Abandons s l) : s.givesUp l = true := by
  obtain ⟨p, addr, i, rfl, hp, hgive, -⟩ := h
  simpa [givesUp, hp] using hgive

/-- A reader sleeps on the empty pipe while a writer has not come to its first byte. -/
def sleepyReader : List Label :=
  [.piperead 0 1] ++ List.replicate 6 (.go 0) ++ [.pipewrite 1 [7]]

theorem wakeups_kept_sleepyReader :
    ∃ s, run step init sleepyReader = some s ∧ s.sleeping 0 = some .nread ∧
      s.pipe.empty = true ∧ s.pipe.writeopen = true := by
  have hrun : (run step init sleepyReader).map (fun s => (s.lock .pipe, s.sleeping 0)) =
      some (none, some .nread) := by decide +kernel
  obtain ⟨s, hs, hst⟩ := Option.map_eq_some_iff.mp hrun
  obtain ⟨hfree, hsl⟩ := Prod.mk.inj hst
  have hmeets : RunMeets step (fun s l => s.givesUp l = false) init sleepyReader := by
    decide +kernel
  refine ⟨s, hs, hsl, (wakeups_kept hs (hmeets.mono fun s l hg ha => ?_) hfree 0).1 hsl⟩
  rw [givesUp_of_abandons ha] at hg
  simp at hg

/-- A reader sleeps on the empty pipe; a writer of 513 bytes is killed once it is in
`pipewrite`, fills the pipe and returns -1. -/
def killedWriter : List Label :=
  [.piperead 0 1] ++ List.replicate 6 (.go 0) ++
    [.pipewrite 1 (List.replicate (PIPESIZE + 1) 7), .go 1, .kill 1] ++
    List.replicate (PIPESIZE + 3) (.go 1)

theorem wakeup_lost :
    ∃ s, run step init killedWriter = some s ∧ s.lock .pipe = none ∧ s.status 1 = .idle ∧
      s.sleeping 0 = some .nread ∧ s.pipe.empty = false ∧ s.pipe.full = true := by
  have hrun : (run step init killedWriter).map (fun s => (s.lock .pipe, s.status 1,
      s.sleeping 0, s.pipe.empty, s.pipe.full)) =
        some (none, .idle, some .nread, false, true) := by decide +kernel
  obtain ⟨s, hs, hst⟩ := Option.map_eq_some_iff.mp hrun
  simp only [Prod.mk.injEq] at hst
  exact ⟨s, hs, hst⟩

end Sleepers

end Xv6
