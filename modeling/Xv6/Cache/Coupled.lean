import Xv6.Cache.Commit

/-!
# The log and the buffer cache stay coupled

The invariant of the whole system: the coupling of `Xv6.Cache.Coupling`, and that
what a committing process still has to execute is right from the state it is in.
The theorem at the end reads it off.
-/

namespace Xv6

namespace LogSys

open Foundation Ide LogCache

/-- What is logged lies outside the log area. -/
def LogsOutside (start size : ℕ) (s : LogSys) (l : Label) : Prop :=
  ∀ p b, l = .user (.logWrite p b) → ¬ InLog start size (s.m.sector b)

structure Inv (start size : ℕ) (s : LogSys) : Prop where
  cache : LogCache.Inv start size s.m
  commit : ∀ p, s.m.proto.status p = .inCommit →
    commits start size p (fun _ t => Cleared start size p t) (s.todo p) s.m

section Steps

variable {start size : ℕ} {m m' : LogCache} {p : Pid}

theorem inv_of_commits {prog : LogProgram (Fin NBUF) PUnit}
    (h : commits start size p (fun _ t => Cleared start size p t) prog m) :
    LogCache.Inv start size m := by
  cases prog with
  | done a =>
      obtain ⟨⟨N, copied, hs⟩, -⟩ : Cleared start size p m := h
      exact hs.inv
  | call o k => exact (wpi.guarantee h).1

/-- Interference keeps what is left of a commit right. -/
theorem commits_interfere {prog : LogProgram (Fin NBUF) PUnit} {l : LogCache.Label}
    (h : commits start size p (fun _ t => Cleared start size p t) prog m)
    (hl : m.step l = some m') :
    commits start size p (fun _ t => Cleared start size p t) prog m' := by
  cases prog with
  | done a =>
      obtain ⟨⟨N, copied, hs⟩, hidle⟩ : Cleared start size p m := h
      obtain ⟨hi, hinv, hb⟩ := rely_interfered (o := .getLh) hs.inv hs.commits hidle (.inl ⟨l, hl⟩)
      exact ⟨⟨N, copied, hs.interfered hi hinv⟩, hb⟩
  | call o k => exact wpi.interfere h (.inl ⟨l, hl⟩)

/-- Only `end_op` starts a commit. -/
theorem inCommit_of_moves {l : LogCache.Label} (h : LogCache.Inv start size m)
    (hl : m.step l = some m') (hne : ∀ q, l ≠ .endOp q) (hp : m'.proto.status p = .inCommit) :
    m.proto.status p = .inCommit := by
  have hframe : ∀ (q : Pid) (proto : Protocol), m.proto.Frame q proto →
      proto.status q ≠ .inCommit → proto.status p = .inCommit →
      m.proto.status p = .inCommit := by
    intro q proto hf hq hp
    have hpq : p ≠ q := by
      rintro rfl
      exact hq hp
    exact (hf.status p hpq _ (by simp) (by simp)).mp hp
  cases step_moves h hl with
  | quiet l hl q bio => exact hp
  | modify q b data => exact hp
  | logWrite q b log => exact hp
  | logPanic q b e => exact hp
  | beginOp q hq =>
      refine hframe q _ Protocol.frame_beginOp ?_ hp
      unfold Protocol.beginOp
      split
      · simp
      · split <;> simp
  | endOp q => exact absurd rfl (hne q)
  | finish q hq => exact hframe q _ Protocol.frame_finish (by simp [Protocol.finish]) hp
  | kill q hq => exact hframe q _ (Protocol.frame_update _ rfl rfl rfl) (by simp) hp

/-- The state in which `end_op` calls `commit()`. -/
theorem stage_endOp (h : LogCache.Inv start size m) (hl : m.step (.endOp p) = some m')
    (hp : m'.proto.status p = .inCommit) :
    Stage start size p m'.newest m'.proto.log.lh.sector m'.proto.log.lh.sector 0 none [] m' ∧
      m'.bio.status p = .idle := by
  have hm := step_moves h hl
  have hinv := h.moves hm (by simp)
  simp only [LogCache.step, Option.ite_none_right_eq_some, Option.map_eq_some_iff] at hl
  obtain ⟨⟨hst, hall⟩, proto, hproto, rfl⟩ := hl
  obtain ⟨hop, rfl⟩ := Protocol.step_endOp hproto
  have hnone : ∀ q, m.proto.status q ≠ .inCommit := fun q hq =>
    h.proto.not_committer hop (.inl hq)
  have hlh : (m.proto.endOp p).log.lh = m.proto.log.lh := Protocol.frame_endOp.lh
  refine ⟨⟨hinv, hp, rfl, rfl, ?_, ?_, ?_, ?_, by simp⟩, hst⟩
  · intro x hx
    rw [setProto_proto, hlh] at hx
    exact (h.coupled hnone x).mp hx
  · intro b hb
    rw [setProto_proto, hlh]
    have hr := h.real_of_dirty hb
    exact .inl ((h.coupled hnone _).mpr ⟨b, h.carries_self hr, hb⟩)
  · intro i x hi
    omega
  · -- the last operation has logged what it changed, and there is no other
    intro b hb
    have hquiet := hinv.proto.quiet (hinv.proto.committing.mpr ⟨p, .inl hp⟩)
    obtain ⟨q, hq, hst | hst⟩ := hinv.changed b hb
    · exact absurd hst (hinv.proto.not_inOp hquiet q)
    · obtain rfl := hinv.proto.alone q p (.inl hst) (.inl hp)
      rw [show (m.setProto (m.proto.endOp q)).bio.modified b = false from hall b hq] at hb
      cases hb

/-- The calls of `commit()` leave the protocol alone. -/
theorem status_start {o : LogOp (Fin NBUF)} (hl : m.start p o = some m') :
    m'.proto = m.proto := by
  cases o with
  | bread x =>
      simp only [LogCache.start, Option.map_eq_some_iff] at hl
      obtain ⟨bio, -, rfl⟩ := hl
      rfl
  | bwrite b =>
      simp only [LogCache.start, Option.map_eq_some_iff] at hl
      obtain ⟨bio, -, rfl⟩ := hl
      rfl
  | _ => simp [LogCache.start] at hl

theorem status_complete {o : LogOp (Fin NBUF)} {r : o.Resp}
    (hl : m.complete p o = some (r, m')) : m'.proto.status = m.proto.status := by
  cases o with
  | bread x =>
      simp only [complete] at hl
      split at hl
      · simp only [Option.map_eq_some_iff, Prod.mk.injEq] at hl
        obtain ⟨bio, -, -, rfl⟩ := hl
        rfl
      · cases hl
  | bwrite b =>
      simp only [complete] at hl
      split at hl
      · simp only [Option.map_eq_some_iff, Prod.mk.injEq] at hl
        obtain ⟨bio, -, -, rfl⟩ := hl
        rfl
      · cases hl
  | getData b =>
      simp only [complete, Option.some.injEq, Prod.mk.injEq] at hl
      rw [hl.2]
  | getLh =>
      simp only [complete, Option.some.injEq, Prod.mk.injEq] at hl
      rw [hl.2]
  | setLh lh =>
      simp only [complete, Option.some.injEq, Prod.mk.injEq] at hl
      rw [← hl.2]
      rfl
  | setData b data =>
      simp only [complete, Option.map_eq_some_iff, Prod.mk.injEq] at hl
      obtain ⟨bio, -, -, rfl⟩ := hl
      rfl
  | brelse b =>
      simp only [complete, Option.map_eq_some_iff, Prod.mk.injEq] at hl
      obtain ⟨bio, -, -, rfl⟩ := hl
      rfl

/-- `commit()` has returned. -/
theorem inv_committed (h : Cleared start size p m) :
    LogCache.Inv start size (m.setProto (m.proto.commit p)) ∧
      ∀ q, (m.proto.commit p).status q ≠ .inCommit := by
  obtain ⟨⟨N, copied, hs⟩, hidle⟩ := h
  have hinv := hs.inv
  have hn : ¬ m.proto.log.lh.n > 0 := by simp [LogHeader.n, hs.lh]
  have hlog : (m.proto.commit p).log = m.proto.log := by simp [Protocol.commit, hn]
  have hclean : ∀ b, (m.bio.buf b).dirty = false := by
    intro b
    by_contra hd
    have hmem := hs.dirty b (by simpa using hd)
    simp [hidle] at hmem
  have hunchanged : ∀ b, m.bio.modified b = false := by
    intro b
    by_contra hm
    have hold := hs.unchanged b (by simpa using hm)
    cases hold
  refine ⟨⟨hinv.bio, hinv.proto.commit hs.commits, hinv.disk1, ?_, ?_, hinv.device,
    hinv.onDevice, hinv.newest, hinv.home, ?_, ?_, ?_, ?_, ?_, ?_⟩, ?_⟩
  · rw [setProto_proto, hlog]
    exact hinv.logStart
  · rw [setProto_proto, hlog]
    exact hinv.logSize
  · rw [setProto_proto, hlog]
    exact hinv.nodup
  · rw [setProto_proto, hlog]
    exact hinv.outside
  · rw [setProto_proto, hlog]
    exact hinv.room
  · intro b hb
    rw [setProto_bio, hunchanged b] at hb
    cases hb
  · intro q b hw
    have hq := hinv.writer q b hw
    obtain rfl := hinv.proto.alone q p (.inl hq) (.inl hs.commits)
    rw [setProto_bio, hidle] at hw
    cases hw
  · intro _ x
    rw [setProto_proto, hlog, hs.lh]
    simp [hclean]
  · intro q hq
    rcases eq_or_ne q p with rfl | hne
    · simp [Protocol.commit] at hq
    · simp only [Protocol.commit, Function.update_of_ne hne] at hq
      exact hne (hinv.proto.alone q p (.inl hq) (.inl hs.commits))

end Steps

theorem inv_init (sb : Superblock) (disk : Ide.Disk) :
    Inv (sb.size - sb.nlog) sb.nlog (init sb disk) where
  cache :=
    { bio := Bio.inv_init true disk
      proto := Protocol.inv_init sb
      disk1 := rfl
      logStart := rfl
      logSize := rfl
      device := fun b hb => absurd hb (not_real_NODEV _)
      onDevice := by simp [init, Bio.init, OnDevice, InBread]
      newest := fun b hb => absurd hb (not_real_NODEV _)
      home := fun x _ _ => .inl rfl
      nodup := List.nodup_nil
      outside := by simp [init, Protocol.init, initlog]
      room := by simp [init, Protocol.init, initlog]
      changed := by simp [init, Bio.init]
      writer := by simp [init, Bio.init]
      coupled := by simp [init, Protocol.init, initlog, Bio.init, Bio.buf, Bcache.binit] }
  commit := by simp [init, Protocol.init]

section Run

variable {start size : ℕ} {s t : LogSys}

theorem Inv.alone (h : Inv start size s) {p q : Pid} (hp : s.m.proto.status p = .inCommit)
    (hq : s.m.proto.status q = .inCommit) : q = p :=
  h.cache.proto.alone q p (.inl hq) (.inl hp)

/-- A step of the processes, other than an `end_op`. -/
theorem Inv.user (h : Inv start size s) {l : LogCache.Label} {m' : LogCache}
    (hout : LogsOutside start size s (.user l)) (hne : ∀ p, l ≠ .endOp p)
    (hl : s.m.step l = some m') : Inv start size { s with m := m' } where
  cache := h.cache.moves (step_moves h.cache hl) fun p b heq _ => hout p b (heq ▸ rfl)
  commit := fun p hp =>
    commits_interfere (h.commit p (inCommit_of_moves h.cache hl hne hp)) hl

theorem Inv.endOp (h : Inv start size s) {p : Pid} {m' : LogCache}
    (hl : s.m.step (.endOp p) = some m') :
    Inv start size
      { m := m'
        todo :=
          if m'.proto.status p = .inCommit then
            Function.update s.todo p (LogProgram.commit s.m.proto.log.start)
          else s.todo } where
  cache := h.cache.moves (step_moves h.cache hl) (by simp)
  commit := by
    intro q hq
    -- nobody was committing, so the process is the one that ends its operation
    have hqp : q = p := by
      by_contra hne
      cases step_moves h.cache hl with
      | quiet l hend r bio => exact hend p rfl
      | endOp r hst hop hall =>
          have hq' := (Protocol.frame_endOp.status q hne _ (by simp) (by simp)).mp hq
          exact h.cache.proto.not_committer hop (.inl hq')
    subst hqp
    obtain ⟨hs, hidle⟩ := stage_endOp h.cache hl hq
    rw [if_pos hq]
    simp only [Function.update_self, h.cache.logStart]
    exact commits_commit hs hidle

theorem Inv.startCall (h : Inv start size s) {p : Pid} {o : LogOp (Fin NBUF)}
    {k : o.Resp → LogProgram (Fin NBUF) PUnit} {m' : LogCache}
    (hp : s.m.proto.status p = .inCommit) (htodo : s.todo p = .call o k)
    (hl : s.m.start p o = some m') : Inv start size { s with m := m' } := by
  have hcommit := h.commit p hp
  rw [htodo] at hcommit
  have hnext := wpi.interfere hcommit (.inr hl)
  refine ⟨(wpi.guarantee hnext).1, fun q hq => ?_⟩
  have hq' : s.m.proto.status q = .inCommit := by
    rw [← status_start hl]
    exact hq
  obtain rfl := h.alone hp hq'
  change commits start size q _ (s.todo q) m'
  rw [htodo]
  exact hnext

theorem Inv.completeCall (h : Inv start size s) {p : Pid} {o : LogOp (Fin NBUF)}
    {k : o.Resp → LogProgram (Fin NBUF) PUnit} {r : o.Resp} {m' : LogCache}
    (hp : s.m.proto.status p = .inCommit) (htodo : s.todo p = .call o k)
    (hl : s.m.complete p o = some (r, m')) :
    Inv start size { m := m', todo := Function.update s.todo p (k r) } := by
  have hcommit := h.commit p hp
  rw [htodo] at hcommit
  have hnext := wpi.answer hcommit hl
  refine ⟨inv_of_commits hnext, fun q hq => ?_⟩
  have hq' : s.m.proto.status q = .inCommit := by
    rw [← status_complete hl]
    exact hq
  obtain rfl := h.alone hp hq'
  simpa using hnext

/-- Each step keeps the invariant. -/
theorem Inv.step {l : Label} (h : Inv start size s) (hout : LogsOutside start size s l)
    (hl : LogSys.step s l = some t) : Inv start size t := by
  unfold LogSys.step at hl
  split at hl
  · cases hl
  · cases l with
    | user l =>
        cases l with
        | endOp p =>
            simp only [Option.map_eq_some_iff] at hl
            obtain ⟨m', hm, rfl⟩ := hl
            exact h.endOp hm
        | _ =>
            simp only [Option.map_eq_some_iff] at hl
            obtain ⟨m', hm, rfl⟩ := hl
            exact h.user hout (by simp) hm
    | start p =>
        simp only [Option.ite_none_right_eq_some] at hl
        obtain ⟨hp, hl⟩ := hl
        split at hl
        · rename_i o k htodo
          obtain ⟨m', hm, rfl⟩ := Option.map_eq_some_iff.mp hl
          exact h.startCall hp htodo hm
        · cases hl
    | complete p =>
        simp only [Option.ite_none_right_eq_some] at hl
        obtain ⟨hp, hl⟩ := hl
        split at hl
        · rename_i o k htodo
          obtain ⟨⟨r, m'⟩, hm, rfl⟩ := Option.map_eq_some_iff.mp hl
          exact h.completeCall hp htodo hm
        · cases hl
    | done p =>
        simp only at hl
        split at hl
        · rename_i a htodo
          obtain ⟨proto, hproto, rfl⟩ := Option.map_eq_some_iff.mp hl
          obtain ⟨hp, rfl⟩ := Protocol.step_commit hproto
          have hcommit := h.commit p hp
          rw [htodo] at hcommit
          obtain ⟨hinv, hnone⟩ := inv_committed hcommit
          exact ⟨hinv, fun q hq => absurd hq (hnone q)⟩
        · cases hl

theorem inv_run {sb : Superblock} {disk : Ide.Disk} {ls : List Label} {s : LogSys}
    (h : run LogSys.step (init sb disk) ls = some s)
    (hout : RunMeets LogSys.step (LogsOutside (sb.size - sb.nlog) sb.nlog) (init sb disk) ls) :
    Inv (sb.size - sb.nlog) sb.nlog s :=
  run_invariant_of_meets (Inv (sb.size - sb.nlog) sb.nlog) (fun _ _ _ h hok hl => h.step hok hl)
    (inv_init sb disk) hout h

end Run

/-- The log and the buffer cache stay coupled, in every state of a run that logs no
block of the log area. Outside `commit()` the dirty buffers are exactly those of the
logged sectors, which are pairwise distinct, and they have the newest contents.
Inside it, a `bread` of a logged sector never goes to the disk and returns the newest
contents, and so what `write_log` writes to the log is the newest. After it no buffer
is dirty and every cached copy equals its home block. -/
theorem coupled {sb : Superblock} {disk : Ide.Disk} {ls : List Label} {s : LogSys}
    (h : run step (init sb disk) ls = some s)
    (hout : RunMeets step (LogsOutside (sb.size - sb.nlog) sb.nlog) (init sb disk) ls) :
    ((∀ p, s.m.proto.status p ≠ .inCommit) →
      s.m.proto.log.lh.sector.Nodup ∧
      (∀ x, x ∈ s.m.proto.log.lh.sector ↔
        ∃ b, (s.m.bio.buf b).Carries ROOTDEV x ∧ (s.m.bio.buf b).dirty = true) ∧
      ∀ b, (s.m.bio.buf b).dirty = true → (s.m.bio.buf b).dev = ROOTDEV ∧
        (s.m.bio.buf b).valid = true ∧ (s.m.bio.buf b).data = s.m.newest (s.m.sector b)) ∧
    (∀ p x k, s.m.proto.status p = .inCommit → s.todo p = .call (.bread x) k →
      x ∈ s.m.proto.log.lh.sector →
      (∀ dev sector b, s.m.bio.status p ≠ .reading dev sector b) ∧
      ∀ dev sector b, s.m.bio.status p = .returning dev sector b →
        (s.m.bio.buf b).data = s.m.newest x) ∧
    (∀ p b k i x, s.m.proto.status p = .inCommit → s.todo p = .call (.bwrite b) k →
      s.m.proto.log.lh.sector[i]? = some x →
      s.m.sector b = sb.size - sb.nlog + i + 1 → (s.m.bio.buf b).data = s.m.newest x) ∧
    (∀ p, s.m.proto.status p = .committed → ∀ b, (s.m.bio.buf b).dirty = false ∧
      ∀ x, Real ROOTDEV x → (s.m.bio.buf b).Carries ROOTDEV x → (s.m.bio.buf b).valid = true →
        (s.m.bio.buf b).data = s.m.bio.disk (ROOTDEV, x)) := by
  have hinv := inv_run h hout
  have hc := hinv.cache
  refine ⟨fun hnone => ⟨hc.nodup, hc.coupled hnone, fun b hb => ?_⟩, ?_, ?_, ?_⟩
  · have hr := hc.real_of_dirty hb
    have hv := (hc.bio.bufs b hr).dirtyValid hb
    have hmem := (hc.coupled hnone _).mpr ⟨b, hc.carries_self hr, hb⟩
    exact ⟨hc.device b hr, hv, hc.newest b hr hv (hc.outside _ hmem)⟩
  · intro p x k hp htodo
    have hcommit := hinv.commit p hp
    rw [htodo] at hcommit
    exact (wpi.guarantee hcommit).2
  · intro p b k i x hp htodo
    have hcommit := hinv.commit p hp
    rw [htodo] at hcommit
    exact (wpi.guarantee hcommit).2 i x
  · intro p hp b
    have hnone : ∀ q, s.m.proto.status q ≠ .inCommit := by
      intro q hq
      obtain rfl := hc.proto.alone q p (.inl hq) (.inr hp)
      rw [hp] at hq
      cases hq
    have hempty : s.m.proto.log.lh.sector = [] :=
      List.eq_nil_of_length_eq_zero (hc.proto.committedEmpty p hp)
    have hclean : (s.m.bio.buf b).dirty = false := by
      by_contra hd
      have hd : (s.m.bio.buf b).dirty = true := by simpa using hd
      have hmem := (hc.coupled hnone _).mpr ⟨b, hc.carries_self (hc.real_of_dirty hd), hd⟩
      rw [hempty] at hmem
      cases hmem
    have hunchanged : s.m.bio.modified b = false := by
      by_contra hm
      have hquiet := hc.proto.quiet (hc.proto.committing.mpr ⟨p, .inr hp⟩)
      obtain ⟨q, -, hq | hq⟩ := hc.changed b (by simpa using hm)
      · exact hc.proto.not_inOp hquiet q hq
      · exact hnone q hq
    refine ⟨hclean, fun x hx hcarry hv => ?_⟩
    obtain ⟨hdev, rfl⟩ := hcarry
    have hr : Real (s.m.bio.buf b).dev (s.m.bio.buf b).sector := by rwa [hdev]
    have hdata := (hc.bio.bufs b hr).clean hv hclean hunchanged
    rwa [address_of_real hr, hdev] at hdata

/-- A process logs sector 50 and sector 995, and starts to commit: the run stops in the
second round of `write_log`. Sector 995 is the first block of the log. -/
def logLogBlock : List Label :=
  [.user (.beginOp 0), .user (.bread 0 50), .user (.bget 0), .user (.check 0), .user (.read 0),
    .user (.ret 0), .user (.modify 0 0 (Block.zero.setWord 0 5)), .user (.logWrite 0 0),
    .user (.brelse 0 0), .user (.bread 0 995), .user (.bget 0), .user (.check 0),
    .user (.read 0), .user (.ret 0), .user (.modify 0 1 (Block.zero.setWord 0 6)),
    .user (.logWrite 0 1), .user (.brelse 0 1), .user (.endOp 0),
    .complete 0, .complete 0, .start 0, .user (.bget 0), .user (.check 0), .complete 0,
    .start 0, .user (.bget 0), .user (.check 0), .complete 0, .complete 0, .complete 0,
    .start 0, .complete 0, .complete 0, .complete 0, .start 0, .user (.bget 0),
    .user (.check 0), .user (.read 0), .complete 0, .start 0, .user (.bget 0), .user (.check 0)]

/-- The sector that a process in `commit()` is reading, if the buffer is the source of
a copy of `write_log`: the call after it takes the data of the same buffer. -/
def source (s : LogSys) (p : Pid) (b : Fin NBUF) : Option ℕ :=
  match s.todo p with
  | .call (.bread x) k =>
      match k b with
      | .call (.getData c) _ => if c = b then some x else none
      | _ => none
  | _ => none

/-- Without the condition on what is logged, `write_log` copies something else than
the newest contents of a logged sector: the first round has used its buffer as a log
block. -/
theorem copies_stale :
    ∃ s, run step (init mkfsSuperblock fun _ => Block.zero) logLogBlock = some s ∧
      s.m.proto.status 0 = .inCommit ∧ s.source 0 1 = some 995 ∧
      995 ∈ s.m.proto.log.lh.sector ∧ s.m.bio.status 0 = .returning ROOTDEV 995 1 ∧
      (s.m.bio.buf 1).data ≠ s.m.newest 995 := by
  have hrun : (run step (init mkfsSuperblock fun _ => Block.zero) logLogBlock).map
      (fun s => (s.m.proto.status 0, s.source 0 1, s.m.proto.log.lh.sector, s.m.bio.status 0,
        (s.m.bio.buf 1).data.word 0, (s.m.newest 995).word 0)) =
      some (.inCommit, some 995, [50, 995], .returning ROOTDEV 995 1, 5, 6) := by decide +kernel
  obtain ⟨s, hs, heq⟩ := Option.map_eq_some_iff.mp hrun
  simp only [Prod.mk.injEq] at heq
  obtain ⟨hp, hsource, hlh, hst, hd, hn⟩ := heq
  refine ⟨s, hs, hp, hsource, by simp [hlh], hst, fun hdata => ?_⟩
  rw [hdata, hn] at hd
  cases hd

def changeHome : List Label :=
  [.user (.beginOp 0), .user (.bread 0 50), .user (.bget 0), .user (.check 0), .user (.read 0),
    .user (.ret 0), .user (.modify 0 0 (Block.zero.setWord 0 5))]

/-- It logs the sector and commits; the run stops where `write_log` reads it. -/
def commitHome : List Label :=
  [.user (.brelse 0 0), .user (.endOp 0), .complete 0, .complete 0, .start 0, .user (.bget 0),
    .user (.check 0), .user (.read 0), .complete 0, .start 0, .user (.bget 0), .user (.check 0)]

theorem coupled_home :
    ∃ s, run step (init mkfsSuperblock fun _ => Block.zero)
        (changeHome ++ (.user (.logWrite 0 0) :: commitHome)) = some s ∧
      s.m.bio.status 0 = .returning ROOTDEV 50 0 ∧ s.m.proto.status 0 = .inCommit ∧
      (s.m.bio.buf 0).data = s.m.newest 50 := by
  have hrun : (run step (init mkfsSuperblock fun _ => Block.zero)
      (changeHome ++ (.user (.logWrite 0 0) :: commitHome))).map
      (fun s => (s.m.proto.status 0, s.source 0 0, s.m.proto.log.lh.sector, s.m.bio.status 0)) =
      some (.inCommit, some 50, [50], .returning ROOTDEV 50 0) := by decide +kernel
  have hsector : (run step (init mkfsSuperblock fun _ => Block.zero) changeHome).map
      (fun s => s.m.sector 0) = some 50 := by decide +kernel
  have hmeets : RunMeets step (LogsOutside (mkfsSuperblock.size - mkfsSuperblock.nlog)
      mkfsSuperblock.nlog) (init mkfsSuperblock fun _ => Block.zero)
      (changeHome ++ (.user (.logWrite 0 0) :: commitHome)) := by
    refine runMeets_append.mpr ⟨runMeets_of_forall ?_ _, fun t ht => ⟨?_, fun u _ => ?_⟩⟩
    · simp [changeHome, LogsOutside]
    · rintro p b heq
      cases heq
      rw [ht, Option.map_some, Option.some.injEq] at hsector
      rw [hsector]
      decide
    · exact runMeets_of_forall (by simp [commitHome, LogsOutside]) u
  obtain ⟨s, hs, heq⟩ := Option.map_eq_some_iff.mp hrun
  simp only [Prod.mk.injEq] at heq
  obtain ⟨hp, hsource, hlh, hst⟩ := heq
  obtain ⟨k, htodo⟩ : ∃ k, s.todo 0 = .call (.bread 50) k := by
    unfold source at hsource
    split at hsource
    · rename_i x k htodo
      split at hsource
      · simp only [Option.ite_none_right_eq_some, Option.some.injEq] at hsource
        exact ⟨k, hsource.2 ▸ htodo⟩
      · cases hsource
    · cases hsource
  have hread := (coupled hs hmeets).2.1 0 50 k hp htodo (by simp [hlh])
  exact ⟨s, hs, hst, hp, hread.2 ROOTDEV 50 0 hst⟩

end LogSys

end Xv6
