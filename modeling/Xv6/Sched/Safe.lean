import Xv6.Sched.Protocol

/-!
# Processes are handed over safely

What a CPU holds can be read off the place of its code, also across a `swtch`: the process
that runs next continues where `ptable.lock` is held, as the one before left it. From this
every test of `release`, `popcli` and `sched` succeeds, and whoever holds `ptable.lock`
knows that a process that is not RUNNING is current on no other CPU.
-/

namespace Xv6

namespace CpuAt

def owns : CpuAt → List SpinLock
  | .top ls => ls
  | .code ls => ls
  | .sleepLocked _ lk => [.ptable, lk]
  | _ => [.ptable]

def idle : CpuAt → Bool
  | .top _ => true
  | .scan => true
  | _ => false

/-- The process has changed its state and is about to call `sched`. -/
def leaving : CpuAt → Bool
  | .toSched _ => true
  | _ => false

theorem owns_of_leaving {a : CpuAt} (h : a.leaving = true) : a.owns = [.ptable] := by
  cases a <;> simp_all [leaving, owns]

theorem owns_of_locks {a : CpuAt} {ls : List SpinLock} (h : a.locks = some ls) :
    a.owns = ls ∧ a.leaving = false ∧
      ∀ ls', (a.withLocks ls').owns = ls' ∧ (a.withLocks ls').idle = a.idle ∧
        (a.withLocks ls').leaving = false := by
  cases a <;> simp_all [locks, owns, withLocks, idle, leaving]

end CpuAt

namespace Cpus

open Foundation

variable {s t : Cpus} {l : Label}

/-! ### Locks and interrupts -/

structure Locks (s : Cpus) : Prop where
  lock : ∀ c lk, s.lock lk = some c ↔ lk ∈ (s.cpu c).place.owns
  nodup : ∀ c, (s.cpu c).place.owns.Nodup
  ncli : ∀ c, (s.cpu c).ncli = (s.cpu c).place.owns.length
  off : ∀ c, (s.cpu c).place.owns ≠ [] → (s.cpu c).fl_if = false

theorem locks_init : Locks init :=
  ⟨by simp [init, CpuAt.owns], by simp [init, CpuAt.owns], by simp [init, CpuAt.owns],
    by simp [init, CpuAt.owns]⟩

theorem Locks.congr (h : Locks s) (hlock : t.lock = s.lock) (hcpu : t.cpu = s.cpu) : Locks t :=
  ⟨by rw [hlock, hcpu]; exact h.lock, by rw [hcpu]; exact h.nodup, by rw [hcpu]; exact h.ncli,
    by rw [hcpu]; exact h.off⟩

/-- A step of the CPU `c` with the locks that it takes and gives up. -/
theorem Locks.move (h : Locks s) {c : CpuId} {x : Cpu} (hcpu : t.cpu = Function.update s.cpu c x)
    (hself : ∀ lk, t.lock lk = some c ↔ lk ∈ x.place.owns)
    (hother : ∀ lk c', c' ≠ c → (t.lock lk = some c' ↔ s.lock lk = some c'))
    (hnodup : x.place.owns.Nodup) (hncli : x.ncli = x.place.owns.length)
    (hoff : x.place.owns ≠ [] → x.fl_if = false) : Locks t := by
  refine ⟨fun c' lk => ?_, fun c' => ?_, fun c' => ?_, fun c' => ?_⟩ <;> rw [hcpu] <;>
    by_cases hc : c' = c
  · subst hc
    rw [Function.update_self]
    exact hself lk
  · rw [Function.update_of_ne hc, hother lk c' hc]
    exact h.lock c' lk
  · subst hc
    rwa [Function.update_self]
  · rw [Function.update_of_ne hc]
    exact h.nodup c'
  · subst hc
    rwa [Function.update_self]
  · rw [Function.update_of_ne hc]
    exact h.ncli c'
  · subst hc
    rwa [Function.update_self]
  · rw [Function.update_of_ne hc]
    exact h.off c'

/-- The CPU keeps its locks and its nesting, and interrupts stay off. -/
theorem Locks.stay (h : Locks s) {c : CpuId} {x : Cpu} (hcpu : t.cpu = Function.update s.cpu c x)
    (hlock : t.lock = s.lock) (howns : x.place.owns = (s.cpu c).place.owns)
    (hncli : x.ncli = (s.cpu c).ncli) (hoff : x.place.owns ≠ [] → x.fl_if = false) : Locks t :=
  h.move hcpu (fun lk => by rw [hlock, howns]; exact h.lock c lk)
    (fun lk c' _ => by rw [hlock]) (howns ▸ h.nodup c) (by rw [hncli, howns]; exact h.ncli c) hoff

theorem Locks.acquire (h : Locks s) {c : CpuId} {lk : SpinLock} {a : CpuAt}
    (hfree : s.lock lk = none) (ha : a.owns = lk :: (s.cpu c).place.owns) :
    Locks (s.acquire c lk a) := by
  have hlock : ∀ lk', (s.acquire c lk a).lock lk' = if lk' = lk then some c else s.lock lk' := by
    intro lk'
    simp [Cpus.acquire, Function.update_apply]
  refine h.move rfl (fun lk' => ?_) (fun lk' c' hc => ?_) ?_ ?_ fun _ => rfl
  · rw [hlock]
    change _ ↔ lk' ∈ a.owns
    rw [ha, List.mem_cons, ← h.lock c lk']
    by_cases he : lk' = lk <;> simp [he]
  · rw [hlock]
    by_cases he : lk' = lk
    · simp [he, hfree, Ne.symm hc]
    · rw [if_neg he]
  · change a.owns.Nodup
    rw [ha]
    refine List.nodup_cons.mpr ⟨fun hm => ?_, h.nodup c⟩
    rw [← h.lock c lk, hfree] at hm
    simp at hm
  · change (s.cpu c).ncli + 1 = a.owns.length
    rw [ha, h.ncli c, List.length_cons]
    push_cast
    ring

def released (x : Cpu) (a : CpuAt) : Cpu :=
  { x with ncli := x.ncli - 1, fl_if := decide (x.ncli - 1 = 0) && x.intena, place := a }

/-- A lock that the code holds can be released: the tests of `release` and `popcli` succeed. -/
theorem Locks.release_eq (h : Locks s) {c : CpuId} {lk : SpinLock} {a : CpuAt}
    (hm : lk ∈ (s.cpu c).place.owns) : s.release c lk a =
      { s.setCpu c (released (s.cpu c) a) with lock := Function.update s.lock lk none } := by
  have hholding : s.holding c lk = true := by
    rw [holding, decide_eq_true_eq]
    exact (h.lock c lk).mpr hm
  have hpos : 0 < (s.cpu c).place.owns.length := List.length_pos_of_mem hm
  have hncli : ¬ (s.cpu c).ncli - 1 < 0 := by
    rw [h.ncli c]
    omega
  have hpop : (s.cpu c).popcli = .ok { s.cpu c with
      ncli := (s.cpu c).ncli - 1,
      fl_if := decide ((s.cpu c).ncli - 1 = 0) && (s.cpu c).intena } := by
    rw [Cpu.popcli, h.off c (List.ne_nil_of_mem hm), if_neg (by simp), if_neg hncli]
  rw [Cpus.release, hholding, if_neg (by simp), hpop]
  rfl

theorem Locks.release (h : Locks s) {c : CpuId} {lk : SpinLock} {a : CpuAt}
    (hm : lk ∈ (s.cpu c).place.owns) (ha : a.owns = (s.cpu c).place.owns.erase lk) :
    Locks (s.release c lk a) := by
  rw [h.release_eq hm]
  have hpos : 0 < (s.cpu c).place.owns.length := List.length_pos_of_mem hm
  have hlen : a.owns.length = (s.cpu c).place.owns.length - 1 := by
    rw [ha]
    exact List.length_erase_of_mem hm
  have hncli : (s.cpu c).ncli - 1 = a.owns.length := by
    rw [h.ncli c, hlen]
    omega
  refine h.move rfl (fun lk' => ?_) (fun lk' c' hc => ?_) ?_ hncli fun hne => ?_
  · change Function.update s.lock lk none lk' = some c ↔ lk' ∈ a.owns
    rw [ha, (h.nodup c).mem_erase_iff, ← h.lock c lk']
    by_cases he : lk' = lk
    · simp [he]
    · simp [he]
  · change Function.update s.lock lk none lk' = some c' ↔ _
    by_cases he : lk' = lk
    · subst he
      rw [Function.update_self, (h.lock c lk').mpr hm]
      simp [Ne.symm hc]
    · rw [Function.update_of_ne he]
  · change a.owns.Nodup
    rw [ha]
    exact (h.nodup c).erase lk
  · change (decide ((s.cpu c).ncli - 1 = 0) && (s.cpu c).intena) = false
    have hlt : 0 < a.owns.length := List.length_pos_of_ne_nil hne
    rw [hncli, decide_eq_false (by omega), Bool.false_and]

/-- Two CPUs do not hold one lock. -/
theorem Locks.unique (h : Locks s) {c c' : CpuId} {lk : SpinLock}
    (hc : lk ∈ (s.cpu c).place.owns) (hc' : lk ∈ (s.cpu c').place.owns) : c = c' :=
  Option.some.inj (((h.lock c lk).mpr hc).symm.trans ((h.lock c' lk).mpr hc'))

/-! ### Who is current -/

structure Current (s : Cpus) : Prop where
  idle : ∀ c, (s.cpu c).proc = none ↔ (s.cpu c).place.idle = true
  one : ∀ c c' p, (s.cpu c).proc = some p → (s.cpu c').proc = some p → c = c'
  running : ∀ c p, (s.cpu c).proc = some p →
    (s.state p = .RUNNING ↔ (s.cpu c).place.leaving = false)
  only : ∀ p, s.state p = .RUNNING → ∃ c, (s.cpu c).proc = some p

theorem current_init : Current init := by
  refine ⟨fun c => by simp [init, CpuAt.idle], by simp [init], by simp [init], fun p hp => ?_⟩
  by_cases h : p = 0
  · simp [init, h] at hp
  · simp [init, h] at hp

/-- A step of `c` that changes neither the process of the CPU nor any state. -/
theorem Current.stay (h : Current s) {c : CpuId} {x : Cpu}
    (hcpu : t.cpu = Function.update s.cpu c x) (hstate : t.state = s.state)
    (hproc : x.proc = (s.cpu c).proc) (hidle : x.place.idle = (s.cpu c).place.idle)
    (hleave : x.place.leaving = (s.cpu c).place.leaving) : Current t := by
  have hp : ∀ c', (t.cpu c').proc = (s.cpu c').proc := by
    intro c'
    rw [hcpu]
    by_cases hc : c' = c
    · rw [hc, Function.update_self, hproc]
    · rw [Function.update_of_ne hc]
  have hi : ∀ c', (t.cpu c').place.idle = (s.cpu c').place.idle := by
    intro c'
    rw [hcpu]
    by_cases hc : c' = c
    · rw [hc, Function.update_self, hidle]
    · rw [Function.update_of_ne hc]
  have hl : ∀ c', (t.cpu c').place.leaving = (s.cpu c').place.leaving := by
    intro c'
    rw [hcpu]
    by_cases hc : c' = c
    · rw [hc, Function.update_self, hleave]
    · rw [Function.update_of_ne hc]
  refine ⟨fun c' => ?_, fun c' c'' p h₁ h₂ => ?_, fun c' p h₁ => ?_, fun p h₁ => ?_⟩
  · rw [hp, hi]
    exact h.idle c'
  · rw [hp] at h₁ h₂
    exact h.one c' c'' p h₁ h₂
  · rw [hp] at h₁
    rw [hstate, hl]
    exact h.running c' p h₁
  · rw [hstate] at h₁
    obtain ⟨c', hc'⟩ := h.only p h₁
    exact ⟨c', by rw [hp]; exact hc'⟩

/-- States change among those other than RUNNING. -/
theorem Current.states (h : Current s) (hcpu : t.cpu = s.cpu)
    (hstate : ∀ p, t.state p = .RUNNING ↔ s.state p = .RUNNING) : Current t := by
  refine ⟨by rw [hcpu]; exact h.idle, by rw [hcpu]; exact h.one, fun c p hp => ?_, fun p hp => ?_⟩
  · rw [hcpu] at hp ⊢
    rw [hstate]
    exact h.running c p hp
  · rw [hcpu]
    exact h.only p ((hstate p).mp hp)

theorem Current.setState (h : Current s) {p : Pid} {st : Procstate} (hp : s.state p ≠ .RUNNING)
    (hst : st ≠ .RUNNING) : Current (s.setState p st) := by
  refine h.states rfl fun q => ?_
  by_cases hq : q = p
  · subst hq
    simp [Cpus.setState, hp, hst]
  · simp [Cpus.setState, Function.update_of_ne hq]

/-- A process changes its state and is about to call `sched`. -/
theorem Current.leave (h : Current s) {c : CpuId} {p : Pid} {st : Procstate} {a : CpuAt}
    (hcpu : t.cpu = Function.update s.cpu c { s.cpu c with place := a })
    (hstate : t.state = Function.update s.state p st) (hp : (s.cpu c).proc = some p)
    (hst : st ≠ .RUNNING) (hidle : a.idle = false) (ha : a.leaving = true) : Current t := by
  have hother : ∀ c', c' ≠ c → t.cpu c' = s.cpu c' := fun c' hc => by
    rw [hcpu, Function.update_of_ne hc]
  have hself : t.cpu c = { s.cpu c with place := a } := by rw [hcpu, Function.update_self]
  have hproc : ∀ c', (t.cpu c').proc = (s.cpu c').proc := by
    intro c'
    by_cases hc : c' = c
    · rw [hc, hself]
    · rw [hother c' hc]
  refine ⟨fun c' => ?_, fun c' c'' q h₁ h₂ => ?_, fun c' q h₁ => ?_, fun q h₁ => ?_⟩
  · by_cases hc : c' = c
    · rw [hc, hself, hp]
      simp [hidle]
    · rw [hother c' hc]
      exact h.idle c'
  · rw [hproc] at h₁ h₂
    exact h.one c' c'' q h₁ h₂
  · rw [hproc] at h₁
    by_cases hc : c' = c
    · subst hc
      obtain rfl : p = q := by rw [hp] at h₁; simpa using h₁
      rw [hstate, Function.update_self, hself]
      simp [hst, ha]
    · have hqp : q ≠ p := fun hq => hc (h.one c' c p (hq ▸ h₁) hp)
      rw [hstate, Function.update_of_ne hqp, hother c' hc]
      exact h.running c' q h₁
  · have hqp : q ≠ p := by
      rintro rfl
      rw [hstate, Function.update_self] at h₁
      exact hst h₁
    rw [hstate, Function.update_of_ne hqp] at h₁
    obtain ⟨c', hc'⟩ := h.only q h₁
    exact ⟨c', by rw [hproc]; exact hc'⟩

/-- Whoever holds `ptable.lock` outside of the way into `sched` sees that a process that is
not RUNNING is current nowhere. -/
theorem Current.not_current (h : Current s) (hk : Locks s) {c : CpuId} {p : Pid}
    (hc : .ptable ∈ (s.cpu c).place.owns) (hl : (s.cpu c).place.leaving = false)
    (hp : s.state p ≠ .RUNNING) (c' : CpuId) : (s.cpu c').proc ≠ some p := by
  intro hc'
  have hleave : (s.cpu c').place.leaving = true := by
    by_contra hn
    exact hp ((h.running c' p hc').mpr (by simpa using hn))
  have heq : c = c' := hk.unique hc (by rw [CpuAt.owns_of_leaving hleave]; simp)
  rw [heq, hleave] at hl
  simp at hl

/-- The scheduler switches to a RUNNABLE process. -/
theorem Current.pick (h : Current s) {c : CpuId} {p : Pid} {x : Cpu}
    (hcpu : t.cpu = Function.update s.cpu c x)
    (hstate : t.state = Function.update s.state p .RUNNING) (hc : (s.cpu c).proc = none)
    (hp : ∀ c', (s.cpu c').proc ≠ some p) (hproc : x.proc = some p)
    (hidle : x.place.idle = false) (hleave : x.place.leaving = false) : Current t := by
  have hother : ∀ c', c' ≠ c → t.cpu c' = s.cpu c' := fun c' hc => by
    rw [hcpu, Function.update_of_ne hc]
  have hself : t.cpu c = x := by rw [hcpu, Function.update_self]
  refine ⟨fun c' => ?_, fun c₁ c₂ q h₁ h₂ => ?_, fun c' q h₁ => ?_, fun q h₁ => ?_⟩
  · by_cases hcc : c' = c
    · rw [hcc, hself, hproc]
      simp [hidle]
    · rw [hother c' hcc]
      exact h.idle c'
  · by_cases hc₁ : c₁ = c <;> by_cases hc₂ : c₂ = c
    · rw [hc₁, hc₂]
    · rw [hc₁, hself, hproc] at h₁
      rw [hother c₂ hc₂, ← h₁] at h₂
      exact absurd h₂ (hp c₂)
    · rw [hc₂, hself, hproc] at h₂
      rw [hother c₁ hc₁, ← h₂] at h₁
      exact absurd h₁ (hp c₁)
    · rw [hother c₁ hc₁] at h₁
      rw [hother c₂ hc₂] at h₂
      exact h.one c₁ c₂ q h₁ h₂
  · by_cases hcc : c' = c
    · rw [hcc, hself] at h₁ ⊢
      obtain rfl : p = q := by rw [hproc] at h₁; simpa using h₁
      rw [hstate, Function.update_self]
      simp [hleave]
    · rw [hother c' hcc] at h₁ ⊢
      have hqp : q ≠ p := by
        rintro rfl
        exact hp c' h₁
      rw [hstate, Function.update_of_ne hqp]
      exact h.running c' q h₁
  · by_cases hqp : q = p
    · exact ⟨c, by rw [hself, hproc, hqp]⟩
    · rw [hstate, Function.update_of_ne hqp] at h₁
      obtain ⟨c', hc'⟩ := h.only q h₁
      have hcc : c' ≠ c := by
        rintro rfl
        rw [hc] at hc'
        simp at hc'
      exact ⟨c', by rw [hother c' hcc]; exact hc'⟩

/-- A process that has changed its state gives the CPU back to the scheduler. -/
theorem Current.depart (h : Current s) {c : CpuId} {p : Pid} {x : Cpu}
    (hcpu : t.cpu = Function.update s.cpu c x) (hstate : t.state = s.state)
    (hp : (s.cpu c).proc = some p) (hrun : s.state p ≠ .RUNNING) (hproc : x.proc = none)
    (hidle : x.place.idle = true) : Current t := by
  have hother : ∀ c', c' ≠ c → t.cpu c' = s.cpu c' := fun c' hc => by
    rw [hcpu, Function.update_of_ne hc]
  have hself : t.cpu c = x := by rw [hcpu, Function.update_self]
  have hne : ∀ c' q, (t.cpu c').proc = some q → c' ≠ c := by
    rintro c' q hq rfl
    rw [hself, hproc] at hq
    simp at hq
  refine ⟨fun c' => ?_, fun c₁ c₂ q h₁ h₂ => ?_, fun c' q h₁ => ?_, fun q h₁ => ?_⟩
  · by_cases hcc : c' = c
    · rw [hcc, hself]
      simp [hproc, hidle]
    · rw [hother c' hcc]
      exact h.idle c'
  · rw [hother c₁ (hne c₁ q h₁)] at h₁
    rw [hother c₂ (hne c₂ q h₂)] at h₂
    exact h.one c₁ c₂ q h₁ h₂
  · have hcc := hne c' q h₁
    rw [hother c' hcc] at h₁ ⊢
    rw [hstate]
    exact h.running c' q h₁
  · rw [hstate] at h₁
    obtain ⟨c', hc'⟩ := h.only q h₁
    have hcc : c' ≠ c := by
      rintro rfl
      obtain rfl : p = q := by rw [hp] at hc'; simpa using hc'
      exact hrun h₁
    exact ⟨c', by rw [hother c' hcc]; exact hc'⟩

/-! ### Steps -/

/-- The panics that nothing rules out: a lock acquired twice, and a zombie that runs. -/
def allowed (e : Option Panic) : Prop := e = none ∨ e = some .acquire ∨ e = some .zombieExit

structure Safe (s : Cpus) : Prop where
  locks : Locks s
  current : Current s
  panicked : allowed s.panicked

theorem safe_init : Safe init := ⟨locks_init, current_init, .inl rfl⟩

/-- A panic leaves the machine as it is. -/
theorem Safe.panic (h : Safe s) {e : Panic} (he : allowed (some e)) : Safe (s.panic e) :=
  ⟨h.locks.congr rfl rfl, h.current.states rfl fun _ => Iff.rfl, he⟩

theorem Safe.acquire (h : Safe s) {c : CpuId} {lk : SpinLock} {a : CpuAt}
    (hfree : s.lock lk = none) (ha : a.owns = lk :: (s.cpu c).place.owns)
    (hidle : a.idle = (s.cpu c).place.idle) (hleave : a.leaving = (s.cpu c).place.leaving) :
    Safe (s.acquire c lk a) :=
  ⟨h.locks.acquire hfree ha, h.current.stay rfl rfl rfl hidle hleave, h.panicked⟩

theorem Safe.release (h : Safe s) {c : CpuId} {lk : SpinLock} {a : CpuAt}
    (hm : lk ∈ (s.cpu c).place.owns) (ha : a.owns = (s.cpu c).place.owns.erase lk)
    (hidle : a.idle = (s.cpu c).place.idle) (hleave : a.leaving = (s.cpu c).place.leaving) :
    Safe (s.release c lk a) := by
  refine ⟨h.locks.release hm ha, ?_, ?_⟩
  · rw [h.locks.release_eq hm]
    exact h.current.stay rfl rfl rfl hidle hleave
  · rw [h.locks.release_eq hm]
    exact h.panicked

/-- The CPU moves on with its locks. -/
theorem Safe.setPlace (h : Safe s) {c : CpuId} {a : CpuAt}
    (howns : a.owns = (s.cpu c).place.owns) (hidle : a.idle = (s.cpu c).place.idle)
    (hleave : a.leaving = (s.cpu c).place.leaving) : Safe (s.setPlace c a) :=
  ⟨h.locks.stay rfl rfl howns rfl fun hne => h.locks.off c (howns ▸ hne),
    h.current.stay rfl rfl rfl hidle hleave, h.panicked⟩

/-- The interrupt flag changes where no lock is held, or is cleared. -/
theorem Safe.setFlag (h : Safe s) {c : CpuId} {b : Bool}
    (hb : b = true → (s.cpu c).place.owns = []) : Safe (s.setCpu c { s.cpu c with fl_if := b }) := by
  refine ⟨h.locks.stay rfl rfl rfl rfl fun hne => ?_, h.current.stay rfl rfl rfl rfl rfl,
    h.panicked⟩
  by_contra hc
  exact hne (hb (by simpa using hc))

/-- The states of processes that are not RUNNING change. -/
theorem Safe.setState (h : Safe s) {p : Pid} {st : Procstate} (hp : s.state p ≠ .RUNNING)
    (hst : st ≠ .RUNNING) : Safe (s.setState p st) :=
  ⟨h.locks.congr rfl rfl, h.current.setState hp hst, h.panicked⟩

theorem Safe.leave (h : Safe s) {c : CpuId} {p : Pid} {r : Procstate} {w : SavedAt}
    (hp : (s.cpu c).proc = some p) (howns : (s.cpu c).place.owns = [.ptable])
    (hst : r ≠ .RUNNING) : Safe ((s.setState p r).setPlace c (.toSched w)) :=
  ⟨h.locks.stay rfl rfl howns.symm rfl fun _ => h.locks.off c (by simp [howns]),
    h.current.leave rfl rfl hp hst rfl rfl, h.panicked⟩

/-- `sched` finds what it requires. -/
theorem Safe.sched (h : Safe s) {c : CpuId} {p : Pid} {w : SavedAt}
    (hp : (s.cpu c).proc = some p) (hplace : (s.cpu c).place = .toSched w) :
    Safe (s.sched c p w) := by
  have howns : (s.cpu c).place.owns = [.ptable] := by rw [hplace]; rfl
  have hholding : s.holding c .ptable = true := by
    rw [holding, decide_eq_true_eq]
    exact (h.locks.lock c .ptable).mpr (by simp [howns])
  have hncli : (s.cpu c).ncli = 1 := by
    rw [h.locks.ncli c, howns]
    rfl
  have hrun : s.state p ≠ .RUNNING := by
    rw [Ne, h.current.running c p hp, hplace]
    simp [CpuAt.leaving]
  have hoff : (s.cpu c).fl_if = false := h.locks.off c (by simp [howns])
  rw [Cpus.sched, hholding, if_neg (by simp), if_neg (by simpa using hncli), if_neg hrun,
    hoff, if_neg (by simp)]
  exact ⟨h.locks.stay rfl rfl howns.symm rfl fun _ => hoff,
    h.current.depart rfl rfl hp hrun rfl rfl, h.panicked⟩

/-- `switchuvm` leaves the nesting as it is. -/
theorem Locks.switchuvm (h : Locks s) {c : CpuId} (howns : (s.cpu c).place.owns = [.ptable]) :
    (s.cpu c).pushcli.popcli = .ok (s.cpu c) := by
  have hncli : (s.cpu c).ncli = 1 := by
    rw [h.ncli c, howns]
    rfl
  have hoff : (s.cpu c).fl_if = false := h.off c (by simp [howns])
  cases hx : s.cpu c with
  | mk proc ncli intena fl_if place =>
      rw [hx] at hncli hoff
      simp only at hncli hoff
      subst hncli hoff
      simp [Cpu.pushcli, Cpu.popcli]

theorem Safe.pick (h : Safe s) {c : CpuId} {p : Pid} {k : Context}
    (hplace : (s.cpu c).place = .scan) (hp : s.state p = .RUNNABLE) : Safe (s.pick c p k) := by
  have howns : (s.cpu c).place.owns = [.ptable] := by rw [hplace]; rfl
  have hrun : s.state p ≠ .RUNNING := by rw [hp]; simp
  rw [Cpus.pick, h.locks.switchuvm howns]
  refine ⟨h.locks.stay rfl rfl howns.symm rfl fun _ => h.locks.off c (by simp [howns]),
    h.current.pick rfl rfl ?_ ?_ rfl rfl rfl, h.panicked⟩
  · rw [h.current.idle c, hplace]
    rfl
  · exact h.current.not_current h.locks (c := c) (by simp [howns]) (by rw [hplace]; rfl) hrun

theorem safe_go (h : Safe s) {c : CpuId} (hl : s.go c = some t) : Safe t := by
  unfold go at hl
  split at hl
  case h_1 p hp hplace =>
    obtain rfl := Option.some.inj hl
    exact h.leave hp (by rw [hplace]; rfl) (by simp)
  case h_2 p chan lk hp hplace =>
    obtain rfl := Option.some.inj hl
    have howns : (s.cpu c).place.owns = [.ptable, lk] := by rw [hplace]; rfl
    have hne : lk ≠ .ptable := by
      have hnd := h.locks.nodup c
      rw [howns] at hnd
      simpa [eq_comm] using hnd
    refine h.release (by simp [howns]) ?_ (by rw [hplace]; rfl) (by rw [hplace]; rfl)
    rw [howns]
    simp [CpuAt.owns, Ne.symm hne]
  case h_3 p chan lk hp hplace =>
    obtain rfl := Option.some.inj hl
    have hs := h.leave (r := .SLEEPING) (w := .sleep lk) hp (by rw [hplace]; rfl) (by simp)
    exact ⟨hs.locks.congr rfl rfl, hs.current.states rfl fun _ => Iff.rfl, hs.panicked⟩
  case h_4 p hp hplace =>
    obtain rfl := Option.some.inj hl
    exact h.leave hp (by rw [hplace]; rfl) (by simp)
  case h_5 p w hp hplace =>
    obtain rfl := Option.some.inj hl
    exact h.sched hp hplace
  case h_6 p hp hplace =>
    obtain rfl := Option.some.inj hl
    exact h.release (by rw [hplace]; simp [CpuAt.owns]) (by rw [hplace]; rfl) (by rw [hplace]; rfl)
      (by rw [hplace]; rfl)
  case h_7 p lk hp hplace =>
    have hs : Safe { s with chan := Function.update s.chan p 0 } :=
      ⟨h.locks.congr rfl rfl, h.current.states rfl fun _ => Iff.rfl, h.panicked⟩
    split at hl
    · obtain rfl := Option.some.inj hl
      exact hs.setPlace (by simp [hplace, CpuAt.owns]) (by simp [hplace, CpuAt.idle])
        (by simp [hplace, CpuAt.leaving])
    · obtain rfl := Option.some.inj hl
      exact hs.release (by simp [hplace, CpuAt.owns]) (by simp [hplace, CpuAt.owns])
        (by simp [hplace, CpuAt.idle]) (by simp [hplace, CpuAt.leaving])
  case h_8 p hp hplace =>
    obtain rfl := Option.some.inj hl
    exact h.panic (.inr (.inr rfl))
  case h_9 p hp hplace =>
    obtain rfl := Option.some.inj hl
    exact h.release (by rw [hplace]; simp [CpuAt.owns]) (by rw [hplace]; rfl) (by rw [hplace]; rfl)
      (by rw [hplace]; rfl)
  case h_10 => simp at hl

/-- The critical sections on other processes change states other than RUNNING. -/
theorem Safe.setOther (h : Safe s) {p : Pid} {st : Procstate} {k : Option Context}
    (hp : s.state p ≠ .RUNNING) (hst : st ≠ .RUNNING) :
    Safe { s.setState p st with context := Function.update s.context p k } := by
  have hs := h.setState hp hst
  exact ⟨hs.locks.congr rfl rfl, hs.current.states rfl fun _ => Iff.rfl, hs.panicked⟩

theorem Safe.wakeup1 (h : Safe s) (chan : ℕ) : Safe (s.wakeup1 chan) := by
  refine ⟨h.locks.congr rfl rfl, h.current.states rfl fun p => ?_, h.panicked⟩
  simp only [Cpus.wakeup1]
  split
  · rename_i hp
    simp [hp.1]
  · rfl

theorem Safe.sleep (h : Safe s) {c : CpuId} {chan : ℕ} {lk : SpinLock}
    (hplace : (s.cpu c).place = .code [lk]) (hl : s.sleep c chan lk = some t) : Safe t := by
  simp only [Cpus.sleep] at hl
  split at hl
  · rename_i hlk
    obtain rfl := Option.some.inj hl
    refine h.setPlace ?_ (by rw [hplace]; rfl) (by rw [hplace]; rfl)
    rw [hplace, hlk]
    rfl
  · simp only [Option.ite_none_right_eq_some, Option.some.injEq] at hl
    obtain ⟨hfree, rfl⟩ := hl
    exact h.acquire hfree (by rw [hplace]; rfl) (by rw [hplace]; rfl) (by rw [hplace]; rfl)

theorem safe_step (h : Safe s) (hl : step s l = some t) : Safe t := by
  simp only [step, Option.ite_none_right_eq_some] at hl
  obtain ⟨-, hl⟩ := hl
  cases l with
  | sti c =>
      simp only [act, Option.ite_none_right_eq_some, Option.some.injEq] at hl
      obtain ⟨hplace, rfl⟩ := hl
      exact h.setFlag fun _ => by rw [hplace]; rfl
  | irq c =>
      simp only [act, Option.ite_none_right_eq_some, Option.some.injEq] at hl
      obtain ⟨-, rfl⟩ := hl
      exact h.setFlag (by simp)
  | iret c b =>
      simp only [act, Option.ite_none_right_eq_some, Option.some.injEq] at hl
      obtain ⟨hlocks, rfl⟩ := hl
      exact h.setFlag fun _ => (CpuAt.owns_of_locks hlocks).1
  | acquire c lk =>
      simp only [act] at hl
      split at hl
      · rename_i ls hlocks
        obtain ⟨howns, hleave, hwith⟩ := CpuAt.owns_of_locks hlocks
        obtain ⟨ho, hi, hv⟩ := hwith (lk :: ls)
        split at hl
        · obtain rfl := Option.some.inj hl
          exact h.panic (.inr (.inl rfl))
        · simp only [Option.ite_none_right_eq_some, Option.some.injEq] at hl
          obtain ⟨hfree, rfl⟩ := hl
          exact h.acquire hfree (by rw [ho, howns]) hi (by rw [hv, hleave])
      · simp at hl
  | release c lk =>
      simp only [act] at hl
      split at hl
      · rename_i ls hlocks
        obtain ⟨howns, hleave, hwith⟩ := CpuAt.owns_of_locks hlocks
        obtain ⟨ho, hi, hv⟩ := hwith (ls.erase lk)
        simp only [Option.ite_none_right_eq_some, Option.some.injEq] at hl
        obtain ⟨hm, rfl⟩ := hl
        exact h.release (howns ▸ hm) (by rw [ho, howns]) hi (by rw [hv, hleave])
      · simp at hl
  | schedule c =>
      simp only [act, Option.ite_none_right_eq_some, Option.some.injEq] at hl
      obtain ⟨⟨hplace, hfree⟩, rfl⟩ := hl
      exact h.acquire hfree (by rw [hplace]; rfl) (by rw [hplace]; rfl) (by rw [hplace]; rfl)
  | pick c p =>
      simp only [act] at hl
      split at hl
      · simp only [Option.ite_none_right_eq_some, Option.some.injEq] at hl
        obtain ⟨⟨hplace, hp⟩, rfl⟩ := hl
        exact h.pick hplace hp
      · simp at hl
  | unschedule c =>
      simp only [act, Option.ite_none_right_eq_some, Option.some.injEq] at hl
      obtain ⟨hplace, rfl⟩ := hl
      exact h.release (by rw [hplace]; simp [CpuAt.owns]) (by rw [hplace]; rfl)
        (by rw [hplace]; rfl) (by rw [hplace]; rfl)
  | yield c =>
      simp only [act, Option.ite_none_right_eq_some, Option.some.injEq] at hl
      obtain ⟨⟨hplace, hfree⟩, rfl⟩ := hl
      exact h.acquire hfree (by rw [hplace]; rfl) (by rw [hplace]; rfl) (by rw [hplace]; rfl)
  | sleep c chan lk =>
      simp only [act, Option.ite_none_right_eq_some] at hl
      exact h.sleep hl.1 hl.2
  | exit c =>
      simp only [act, Option.ite_none_right_eq_some, Option.some.injEq] at hl
      obtain ⟨⟨hplace, hfree⟩, rfl⟩ := hl
      exact h.acquire hfree (by rw [hplace]; rfl) (by rw [hplace]; rfl) (by rw [hplace]; rfl)
  | go c => exact safe_go h hl
  | wakeup1 c chan =>
      simp only [act, Option.ite_none_right_eq_some, Option.some.injEq] at hl
      obtain ⟨-, rfl⟩ := hl
      exact h.wakeup1 chan
  | kill c p =>
      simp only [act, Option.ite_none_right_eq_some, Option.some.injEq] at hl
      obtain ⟨⟨-, hp⟩, rfl⟩ := hl
      exact h.setState (by simp [hp]) (by simp)
  | alloc c np =>
      simp only [act, Option.ite_none_right_eq_some, Option.some.injEq] at hl
      obtain ⟨⟨-, hp⟩, rfl⟩ := hl
      exact h.setState (by simp [hp]) (by simp)
  | unalloc c np =>
      simp only [act, Option.ite_none_right_eq_some, Option.some.injEq] at hl
      obtain ⟨hp, rfl⟩ := hl
      exact h.setState (by simp [hp]) (by simp)
  | ready c np =>
      simp only [act, Option.ite_none_right_eq_some, Option.some.injEq] at hl
      obtain ⟨⟨-, hp⟩, rfl⟩ := hl
      exact h.setOther (by simp [hp]) (by simp)
  | reap c q =>
      simp only [act, Option.ite_none_right_eq_some, Option.some.injEq] at hl
      obtain ⟨⟨-, hp⟩, rfl⟩ := hl
      exact h.setOther (by simp [hp]) (by simp)

/-- The locks that a CPU holds, as a set. -/
theorem Locks.held (h : Locks s) (c : CpuId) :
    ∃ held : Finset SpinLock, (∀ lk, lk ∈ held ↔ s.lock lk = some c) ∧
      (s.cpu c).ncli = held.card := by
  refine ⟨(s.cpu c).place.owns.toFinset, fun lk => ?_, ?_⟩
  · rw [List.mem_toFinset, h.lock c lk]
  · rw [List.toFinset_card_of_nodup (h.nodup c)]
    exact h.ncli c

/-- **Processes are handed over safely** between any number of CPUs. No process is current on two;
while `ptable.lock` is free, the RUNNING processes are the current ones; a CPU counts in `ncli`
the locks it holds, with interrupts off while there are any; no check of `release`, `sched` or
`popcli` fails; and whom `wait` reaps is current on no CPU. The invariant follows `ptable.lock`
across `swtch`: it is acquired by one process and released by the next. -/
theorem handed_over {ls : List Label} (hrun : run step init ls = some s) :
    (∀ c c' p, (s.cpu c).proc = some p → (s.cpu c').proc = some p → c = c') ∧
    (s.lock .ptable = none → ∀ p, s.state p = .RUNNING ↔ ∃ c, (s.cpu c).proc = some p) ∧
    (∀ c, ∃ held : Finset SpinLock, (∀ lk, lk ∈ held ↔ s.lock lk = some c) ∧
      (s.cpu c).ncli = held.card ∧ (0 < (s.cpu c).ncli → (s.cpu c).fl_if = false)) ∧
    (∀ e ∈ [Panic.release, .schedPtableLock, .schedLocks, .schedRunning, .schedInterruptible,
      .popcli, .popcliInterruptible], s.panicked ≠ some e) ∧
    (∀ c q t, step s (.reap c q) = some t → ∀ c', (s.cpu c').proc ≠ some q) := by
  have h : Safe s := run_invariant Safe (fun _ _ _ h hl => safe_step h hl) safe_init hrun
  refine ⟨h.current.one, fun hfree p => ⟨h.current.only p, ?_⟩, fun c => ?_, fun e he => ?_,
    fun c q t hl => ?_⟩
  · rintro ⟨c, hc⟩
    refine (h.current.running c p hc).mpr ?_
    -- a CPU on its way into `sched` holds the lock
    by_contra hn
    have hheld := (h.locks.lock c .ptable).mpr
      (by rw [CpuAt.owns_of_leaving (by simpa using hn)]; simp)
    rw [hfree] at hheld
    simp at hheld
  · obtain ⟨held, hmem, hcard⟩ := h.locks.held c
    refine ⟨held, hmem, hcard, fun hpos => h.locks.off c fun hnil => ?_⟩
    rw [h.locks.ncli c, hnil] at hpos
    simp at hpos
  · have hne : e ≠ .acquire ∧ e ≠ .zombieExit := by
      simp only [List.mem_cons, List.not_mem_nil, or_false] at he
      rcases he with rfl | rfl | rfl | rfl | rfl | rfl | rfl <;> simp
    intro hc
    rcases h.panicked with hp | hp | hp
    · rw [hp] at hc
      simp at hc
    · exact hne.1 (Option.some.inj (hc.symm.trans hp))
    · exact hne.2 (Option.some.inj (hc.symm.trans hp))
  · simp only [step, act, Option.ite_none_right_eq_some, Option.some.injEq] at hl
    obtain ⟨-, ⟨hcode, hq⟩, -⟩ := hl
    have hc : .ptable ∈ (s.cpu c).place.owns ∧ (s.cpu c).place.leaving = false := by
      cases hplace : (s.cpu c).place <;> simp_all [CpuAt.inCode, CpuAt.owns, CpuAt.leaving]
    exact h.current.not_current h.locks hc.1 hc.2 (by simp [hq])

/-- The first process runs on CPU 0, gives it up and goes on on CPU 1. -/
def migrate : List Label :=
  [.schedule 0, .pick 0 0, .go 0, .yield 0, .go 0, .go 0, .unschedule 0, .schedule 1, .pick 1 0,
    .go 1]

theorem handed_over_migrate :
    ∃ s, run step init migrate = some s ∧ (s.cpu 1).proc = some 0 ∧
      ∀ c, (s.cpu c).proc = some 0 → c = 1 := by
  have hrun : (run step init migrate).map (fun s => (s.cpu 1).proc) = some (some 0) := by
    decide +kernel
  obtain ⟨s, hs, hp⟩ := Option.map_eq_some_iff.mp hrun
  exact ⟨s, hs, hp, fun c hc => (handed_over hs).1 c 1 0 hc hp⟩

end Cpus

end Xv6
