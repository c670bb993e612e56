import Xv6.Proc.Protocol

/-!
# What `exit` does to the table

The loop of `exit` passes the children of the process to init one by one and wakes init
for each zombie among them. Its effect on every slot is that of one simultaneous update,
in which nobody who sleeps on init's slot is left if a zombie was passed.
-/

namespace Xv6

namespace Procs

variable {s t : Procs} {p : Slot}

/-- The slot but for its parent, and a SLEEPING process may be awake. -/
def Awoken (x y : ProcEntry) : Prop :=
  ∃ st, y = { x with parent := y.parent, state := st } ∧
    (st = x.state ∨ x.state = .SLEEPING ∧ st = .RUNNABLE)

theorem Awoken.zombie {x y : ProcEntry} (h : Awoken x y) : y.state = .ZOMBIE ↔ x.state = .ZOMBIE := by
  obtain ⟨st, hy, h | ⟨hx, h⟩⟩ := h
  · rw [hy, h]
  · rw [hy, h, hx]
    simp

theorem Awoken.sleeping {x y : ProcEntry} (h : Awoken x y) (hy : y.state = .SLEEPING) :
    x.state = .SLEEPING := by
  obtain ⟨st, he, h | ⟨hx, -⟩⟩ := h
  · rwa [he, h] at hy
  · exact hx

theorem Awoken.chan {x y : ProcEntry} (h : Awoken x y) : y.chan = x.chan := by
  obtain ⟨st, he, -⟩ := h
  rw [he]

theorem Awoken.trans {x y z : ProcEntry} (h : Awoken x y) (h' : Awoken y z) : Awoken x z := by
  obtain ⟨st, hy, hst⟩ := h
  obtain ⟨st', hz, hst'⟩ := h'
  refine ⟨st', by rw [hz, hy], ?_⟩
  rw [hy] at hst'
  rcases hst with rfl | ⟨hx, rfl⟩
  · exact hst'
  · rcases hst' with rfl | ⟨-, rfl⟩ <;> exact .inr ⟨hx, rfl⟩

theorem awoken_wakeup1 (chan : Option SleepChan) (q : Slot) :
    Awoken (s.proc q) ((s.wakeup1 chan).proc q) := by
  simp only [wakeup1]
  split
  · rename_i h
    exact ⟨.RUNNABLE, rfl, .inr ⟨h.1, rfl⟩⟩
  · exact ⟨_, rfl, .inl rfl⟩

theorem wakeup1_parent (chan : Option SleepChan) (q : Slot) :
    ((s.wakeup1 chan).proc q).parent = (s.proc q).parent := by
  simp only [wakeup1]
  split <;> rfl

theorem not_sleeping_wakeup1 {chan : Option SleepChan} {q : Slot}
    (h : ((s.wakeup1 chan).proc q).state = .SLEEPING) :
    ((s.wakeup1 chan).proc q).chan ≠ chan := by
  simp only [wakeup1] at h ⊢
  split at h
  · simp at h
  · rename_i hn
    rw [if_neg hn]
    exact fun hc => hn ⟨h, hc⟩

/-- The children of `p` among the slots `done` have passed to init. -/
structure Abandoned (s : Procs) (p : Slot) (done : List Slot) (t : Procs) : Prop where
  parent : ∀ q, (t.proc q).parent =
    if q ∈ done ∧ (s.proc q).parent = some p then some initproc else (s.proc q).parent
  proc : ∀ q, Awoken (s.proc q) (t.proc q)
  woken : ∀ c ∈ done, (s.proc c).parent = some p → (s.proc c).state = .ZOMBIE →
    ∀ q, (t.proc q).state = .SLEEPING → (t.proc q).chan ≠ some (.proc initproc)
  rest : t = { s with proc := t.proc }

theorem Abandoned.step {done : List Slot} (h : Abandoned s p done t) {q : Slot} (hq : q ∉ done) :
    Abandoned s p (done ++ [q]) (abandon p t q) := by
  have hparent : (t.proc q).parent = (s.proc q).parent := by rw [h.parent, if_neg (by simp [hq])]
  have hzombie := (h.proc q).zombie
  unfold abandon
  rw [hparent]
  split
  · rename_i hp
    -- the slot passes to init, which is woken if the slot is a zombie
    set u := t.setProc q { t.proc q with parent := some initproc } with hu
    have huq : u.proc q = { t.proc q with parent := some initproc } := Function.update_self ..
    have hun : ∀ r, r ≠ q → u.proc r = t.proc r := fun r hr => Function.update_of_ne hr ..
    have hup : ∀ r, (u.proc r).parent =
        if r ∈ done ++ [q] ∧ (s.proc r).parent = some p then some initproc
        else (s.proc r).parent := by
      intro r
      by_cases hr : r = q
      · subst hr
        rw [huq, if_pos ⟨by simp, hp⟩]
      · rw [hun r hr, h.parent]
        simp [hr]
    have hua : ∀ r, Awoken (s.proc r) (u.proc r) := by
      intro r
      by_cases hr : r = q
      · subst hr
        rw [huq]
        exact (h.proc r).trans ⟨_, rfl, .inl rfl⟩
      · rw [hun r hr]
        exact h.proc r
    have hus : ∀ r, (u.proc r).state = (t.proc r).state ∧ (u.proc r).chan = (t.proc r).chan := by
      intro r
      by_cases hr : r = q
      · subst hr
        rw [huq]
        exact ⟨rfl, rfl⟩
      · rw [hun r hr]
        exact ⟨rfl, rfl⟩
    have hur : u = { s with proc := u.proc } := by
      rw [hu, setProc]
      conv_lhs => rw [h.rest]
    split
    · refine ⟨fun r => by rw [wakeup1_parent]; exact hup r,
        fun r => (hua r).trans (awoken_wakeup1 _ r), fun c hc hcp hcz r hr => ?_, ?_⟩
      · exact not_sleeping_wakeup1 hr
      · rw [wakeup1]
        conv_lhs => rw [hur]
    · rename_i hz
      refine ⟨hup, hua, fun c hc hcp hcz r hr => ?_, hur⟩
      rw [(hus r).1] at hr
      rw [(hus r).2]
      rcases List.mem_append.mp hc with hc | hc
      · exact h.woken c hc hcp hcz r hr
      · obtain rfl := List.mem_singleton.mp hc
        exact absurd (hzombie.mpr hcz) hz
  · rename_i hp
    refine ⟨fun r => ?_, h.proc, fun c hc hcp => ?_, h.rest⟩
    · rw [h.parent]
      by_cases hr : r = q
      · subst hr
        simp [hp]
      · simp [hr]
    · rcases List.mem_append.mp hc with hc | hc
      · exact h.woken c hc hcp
      · obtain rfl := List.mem_singleton.mp hc
        exact absurd hcp hp

theorem Abandoned.foldl : ∀ (l : List Slot) {done : List Slot} {t : Procs},
    Abandoned s p done t → (done ++ l).Nodup →
      Abandoned s p (done ++ l) (l.foldl (Procs.abandon p) t)
  | [], _, _, h, _ => by simpa using h
  | q :: l, done, t, h, hnd => by
      have hq : q ∉ done := fun hq =>
        (List.nodup_append.mp hnd).2.2 q hq q List.mem_cons_self rfl
      have hnd' : (done ++ [q] ++ l).Nodup := by simpa using hnd
      simpa using Abandoned.foldl l (h.step hq) hnd'

structure ExitEffect (s : Procs) (p : Slot) (t : Procs) : Prop where
  parent : ∀ q, (t.proc q).parent =
    if (s.proc q).parent = some p then some initproc else (s.proc q).parent
  self : ∃ x, Awoken (s.proc p) x ∧ t.proc p = { x with state := .ZOMBIE }
  other : ∀ q, q ≠ p → Awoken (s.proc q) (t.proc q)
  /-- the parent of `p` does not sleep in `wait` any more -/
  parentWoken : ∀ q, (t.proc q).state = .SLEEPING →
    (t.proc q).chan ≠ (s.proc p).parent.map SleepChan.proc
  initWoken : ∀ c, (s.proc c).parent = some p → (s.proc c).state = .ZOMBIE →
    ∀ q, (t.proc q).state = .SLEEPING → (t.proc q).chan ≠ some (.proc initproc)
  rest : t = { s with proc := t.proc, exited := t.exited }
  exited : t.exited = s.exited ++ [⟨s.inc p, (s.proc p).pid, (s.proc p).kstack, (s.proc p).pgdir⟩]

theorem exit_effect (s : Procs) (p : Slot) : ExitEffect s p (s.exit p) := by
  set u := s.wakeup1 ((s.proc p).parent.map SleepChan.proc) with hu
  have h₀ : Abandoned u p [] u :=
    ⟨by simp, fun q => ⟨_, rfl, .inl rfl⟩, by simp, rfl⟩
  have h : Abandoned u p (List.finRange NPROC) (u.abandonAll p) := by
    rw [abandonAll]
    simpa using h₀.foldl (List.finRange NPROC) (by simpa using List.nodup_finRange NPROC)
  have hexit : s.exit p = (u.abandonAll p).becomeZombie p := by rw [exit]
  generalize u.abandonAll p = t at h hexit
  have hrest : t = { s with proc := t.proc } := by
    conv_lhs => rw [h.rest]
    rfl
  have hself : (s.exit p).proc p = { t.proc p with state := .ZOMBIE } := by
    rw [hexit]
    exact Function.update_self ..
  have hother : ∀ q, q ≠ p → (s.exit p).proc q = t.proc q := fun q hq => by
    rw [hexit]
    exact Function.update_of_ne hq ..
  have hua : ∀ q, Awoken (s.proc q) (t.proc q) := fun q => (awoken_wakeup1 _ q).trans (h.proc q)
  have hparent : ∀ q, (t.proc q).parent =
      if (s.proc q).parent = some p then some initproc else (s.proc q).parent := by
    intro q
    rw [h.parent, hu, wakeup1_parent]
    simp [List.mem_finRange]
  -- a process that sleeps at the end is not `p` and has slept all along
  have hsleep : ∀ q, ((s.exit p).proc q).state = .SLEEPING → (t.proc q).state = .SLEEPING ∧
      ((s.exit p).proc q).chan = (t.proc q).chan := by
    intro q hq
    by_cases hqp : q = p
    · subst hqp
      rw [hself] at hq
      simp at hq
    · rw [hother q hqp] at hq ⊢
      exact ⟨hq, rfl⟩
  refine ⟨fun q => ?_, ⟨t.proc p, hua p, hself⟩, fun q hq => hother q hq ▸ hua q,
    fun q hq => ?_, fun c hc hz q hq => ?_, ?_, ?_⟩
  · by_cases hqp : q = p
    · subst hqp
      rw [hself]
      exact hparent q
    · rw [hother q hqp]
      exact hparent q
  · obtain ⟨hq, hchan⟩ := hsleep q hq
    rw [hchan, (h.proc q).chan]
    exact not_sleeping_wakeup1 ((h.proc q).sleeping hq)
  · obtain ⟨hq, hchan⟩ := hsleep q hq
    rw [hchan]
    refine h.woken c (List.mem_finRange c) ?_ ((awoken_wakeup1 _ c).zombie.mpr hz) q hq
    rw [hu, wakeup1_parent]
    exact hc
  · rw [hexit, hrest]
    rfl
  · obtain ⟨st, hx, -⟩ := hua p
    have hpid : (t.proc p).pid = (s.proc p).pid := by rw [hx]
    have hkstack : (t.proc p).kstack = (s.proc p).kstack := by rw [hx]
    have hpgdir : (t.proc p).pgdir = (s.proc p).pgdir := by rw [hx]
    rw [hexit, ← hpid, ← hkstack, ← hpgdir, hrest]
    rfl

end Procs

end Xv6
