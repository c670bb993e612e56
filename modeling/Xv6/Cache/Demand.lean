import Xv6.Cache.Logged

/-!
# The demand for buffers

A buffer is in use when a process holds it, and when it is pinned: passed to `log_write` and not yet
written to its home block. `bget` finds a buffer for a block that is not cached exactly when not all
the buffers are in use. `NBUF` is the number of blocks in the log, and nothing bounds the number of
processes that hold buffers.
-/

namespace Xv6

namespace Bio

open Foundation Ide

def inUse (s : Bio) : Set (Fin NBUF) := {b | (∃ p, s.holds p b = true) ∨ s.logged b = true}

/-- The block is cached, or not all buffers are in use. -/
def HasBuffer (s : Bio) (dev sector : ℕ) : Prop :=
  (∃ b, (s.buf b).Carries dev sector) ∨ s.inUse.ncard < NBUF

/-- A dirty buffer is pinned, or is being written. -/
def Pinned (s : Bio) : Prop :=
  ∀ b, (s.buf b).dirty = true → s.logged b = true ∨ ∃ p, s.status p = .writing b

section Pinned

variable {s t : Bio} {p : Pid} {dev sector : ℕ}

theorem pinned_init {havedisk1 : Bool} {disk : Ide.Disk} : Pinned (init havedisk1 disk) :=
  fun _ hb => by cases hb

/-- A step that makes no buffer dirty. -/
theorem Pinned.mono (h : Pinned s) (hdirty : ∀ b, (t.buf b).dirty = true → (s.buf b).dirty = true)
    (hlogged : ∀ b, (t.buf b).dirty = true → s.logged b = true → t.logged b = true)
    (hwriting : ∀ p b, (t.buf b).dirty = true → s.status p = .writing b →
      t.status p = .writing b) : Pinned t := fun b hb => by
  rcases h b (hdirty b hb) with hpin | ⟨p, hp⟩
  · exact .inl (hlogged b hb hpin)
  · exact .inr ⟨p, hwriting p b hb hp⟩

/-- A process that does not write goes on. -/
theorem Pinned.setStatus (h : Pinned s) (hst : ∀ b, s.status p ≠ .writing b) (st : BioStatus) :
    Pinned (s.setStatus p st) :=
  h.mono (fun _ hb => hb) (fun _ _ hb => hb) fun q b _ hq => by
    have hne : q ≠ p := by
      rintro rfl
      exact hst b hq
    rw [setStatus_status, Function.update_of_ne hne]
    exact hq

/-- One buffer changes, and is no more dirty than before. -/
theorem Pinned.setBuf (h : Pinned s) {b : Fin NBUF} {x : Buf}
    (hx : x.dirty = true → (s.buf b).dirty = true) : Pinned (s.setBuf b x) := by
  refine h.mono (fun c hc => ?_) (fun _ _ hc => hc) fun _ _ _ hq => hq
  rw [setBuf_buf] at hc
  by_cases hcb : c = b
  · rw [hcb, Function.update_self] at hc
    rw [hcb]
    exact hx hc
  · rw [Function.update_of_ne hcb] at hc
    exact hc

theorem Pinned.bget (h : Pinned s) (hst : s.status p = .wanting dev sector) :
    Pinned (s.bget p dev sector) := by
  have hnot : ∀ b, s.status p ≠ .writing b := fun b hb => by
    rw [hst] at hb
    cases hb
  unfold Bio.bget
  cases s.cache.bget dev sector with
  | wait b => exact h.setStatus hnot _
  | found b =>
      have hset : Pinned (s.setBuf b { s.buf b with busy := true }) := h.setBuf fun hd => hd
      exact Pinned.setStatus (s := (s.setBuf b { s.buf b with busy := true }).take p b) hset hnot _
  | recycle b =>
      have hset : Pinned (s.setBuf b ((s.buf b).recycle dev sector)) :=
        h.setBuf fun hd => by cases hd
      exact Pinned.setStatus (s := (s.setBuf b ((s.buf b).recycle dev sector)).take p b) hset hnot _
  | noBuffers => exact h

theorem Pinned.iderw (h : Pinned s) (hst : ∀ b, s.status p ≠ .writing b) {b : Fin NBUF}
    (st : BioStatus) : Pinned (s.iderw p b st) := by
  unfold Bio.iderw
  split
  · exact h
  · exact h.setStatus hst st

/-- The request of a process is done. -/
theorem Pinned.request (h : Pinned s) {b : Fin NBUF} {st : BioStatus}
    (hst : ∀ c, s.status p = .writing c → c = b) : Pinned ((s.request b).setStatus p st) := by
  have hclean : ∀ c, ((s.request b).buf c).dirty = true → c ≠ b ∧ (s.buf c).dirty = true ∧
      (s.request b).logged c = s.logged c := by
    intro c hc
    unfold Bio.request at hc ⊢
    split at hc
    · rename_i hd
      by_cases hcb : c = b
      · rw [hcb, written_buf, Function.update_self] at hc
        cases hc
      · rw [written_buf, Function.update_of_ne hcb] at hc
        rw [if_pos hd, written_logged, Function.update_of_ne hcb]
        exact ⟨hcb, hc, rfl⟩
    · rename_i hd
      by_cases hcb : c = b
      · rw [hcb, filled_buf, Function.update_self] at hc
        cases hc
      · rw [filled_buf, Function.update_of_ne hcb] at hc
        rw [if_neg hd, filled_logged]
        exact ⟨hcb, hc, rfl⟩
  have hstatus : (s.request b).status = s.status := by
    unfold Bio.request
    split
    · rfl
    · rfl
  refine h.mono (fun c hc => (hclean c hc).2.1) (fun c hc hl => ?_) fun q c hc hq => ?_
  · exact (hclean c hc).2.2.trans hl
  · have hne : q ≠ p := by
      rintro rfl
      exact (hclean c hc).1 (hst c hq)
    rw [setStatus_status, Function.update_of_ne hne, hstatus]
    exact hq

theorem Pinned.bwrite (h : Pinned s) {b : Fin NBUF} (hst : s.status p = .idle)
    (hpanic : (s.bwrite p b).panicked = none) : Pinned (s.bwrite p b) := by
  unfold Bio.bwrite Bio.iderw at hpanic ⊢
  split
  · exact h
  · rename_i hbusy
    rw [if_neg hbusy] at hpanic
    split
    · rename_i e he
      rw [he] at hpanic
      cases hpanic
    · intro c hc
      by_cases hcb : c = b
      · rw [hcb]
        exact .inr ⟨p, Function.update_self ..⟩
      · rw [setStatus_buf, setBuf_buf, Function.update_of_ne hcb] at hc
        rcases h c hc with hpin | ⟨q, hq⟩
        · exact .inl hpin
        · have hne : q ≠ p := by
            rintro rfl
            rw [hst] at hq
            cases hq
          refine .inr ⟨q, ?_⟩
          rw [setStatus_status, Function.update_of_ne hne]
          exact hq

theorem Pinned.step (h : Pinned s) {l : Label} (hl : Bio.step s l = some t)
    (hpanic : t.panicked = none) : Pinned t := by
  cases l with
  | bread p dev sector =>
      obtain ⟨hst, -, rfl⟩ := step_bread hl
      exact h.setStatus (fun b hb => by rw [hst] at hb; cases hb) _
  | bget p =>
      obtain ⟨dev, sector, hst, rfl⟩ := step_bget hl
      exact h.bget hst
  | check p =>
      obtain ⟨dev, sector, b, hst, rfl⟩ := step_check hl
      have hnot : ∀ c, s.status p ≠ .writing c := fun c hc => by
        rw [hst] at hc
        cases hc
      unfold Bio.bread
      split
      · exact h.iderw hnot _
      · exact h.setStatus hnot _
  | request p =>
      obtain ⟨dev, sector, b, hst, rfl⟩ | ⟨b, hst, rfl⟩ := step_request hl
      · exact h.request fun c hc => by
          rw [hst] at hc
          cases hc
      · exact h.request fun c hc => by
          rw [hst] at hc
          cases hc
          rfl
  | ret p =>
      obtain ⟨dev, sector, b, hst, rfl⟩ := step_ret hl
      exact h.setStatus (fun b hb => by rw [hst] at hb; cases hb) _
  | modify p b data =>
      obtain ⟨-, -, rfl⟩ := step_modify hl
      exact h.setBuf (b := b) (x := { s.buf b with data := data }) fun hd => hd
  | logWrite p b =>
      obtain ⟨-, -, rfl⟩ := step_logWrite hl
      intro c hc
      by_cases hcb : c = b
      · rw [hcb]
        exact .inl (Function.update_self ..)
      · rw [logWrite_buf, Function.update_of_ne hcb] at hc
        exact (h c hc).imp (fun hpin => (Function.update_of_ne hcb _ _).trans hpin) id
  | bwrite p b =>
      obtain ⟨hst, -, rfl⟩ := step_bwrite hl
      exact h.bwrite hst hpanic
  | brelse p b =>
      obtain ⟨-, -, -, rfl⟩ := step_brelse hl
      unfold Bio.brelse
      split
      · exact h
      · refine h.mono (fun c hc => ?_) (fun _ _ hc => hc) fun q c _ hq => ?_
        · rw [released_buf] at hc
          by_cases hcb : c = b
          · rw [hcb, Function.update_self] at hc
            rw [hcb]
            exact hc
          · rw [Function.update_of_ne hcb] at hc
            exact hc
        · rw [released_status, wakeup, hq]
  | wake p =>
      obtain ⟨dev, sector, b, hst, rfl⟩ := step_wake hl
      exact h.setStatus (fun b hb => by rw [hst] at hb; cases hb) _

end Pinned

section Demand

variable {s t : Bio} {p : Pid} {b : Fin NBUF} {dev sector : ℕ}

/-- The buffers that `bget` cannot recycle are those in use. -/
theorem recyclable_iff (h : Inv s) (hpin : Pinned s) :
    (s.buf b).recyclable = false ↔ b ∈ s.inUse := by
  have hflags : (s.buf b).recyclable = false ↔ (s.buf b).busy = true ∨ (s.buf b).dirty = true := by
    unfold Buf.recyclable
    cases (s.buf b).busy <;> cases (s.buf b).dirty <;> simp
  rw [hflags]
  constructor
  · rintro (hbusy | hdirty)
    · exact .inl ((h.busy b).mp hbusy)
    · rcases hpin b hdirty with hlogged | ⟨p, hp⟩
      · exact .inr hlogged
      · have hok := h.status p
        rw [hp] at hok
        exact .inl ⟨p, hok.1⟩
  · rintro (hheld | hlogged)
    · exact .inl ((h.busy b).mpr hheld)
    · right
      by_cases hreal : Real (s.buf b).dev (s.buf b).sector
      · exact (h.bufs b hreal).loggedDirty hlogged
      · rw [(h.unused b hreal).2.2.2] at hlogged
        cases hlogged

/-- `bget` panics exactly when there is no buffer for the block. -/
theorem bget_noBuffers_iff (h : Inv s) (hpin : Pinned s) :
    s.cache.bget dev sector = .noBuffers ↔ ¬ s.HasBuffer dev sector := by
  rw [Bcache.bget_noBuffers h.linked, HasBuffer, not_or, not_exists]
  have hfull : ¬ s.inUse.ncard < NBUF ↔ ∀ b, b ∈ s.inUse := by
    have hcard : (Set.univ : Set (Fin NBUF)).ncard = NBUF := by
      rw [Set.ncard_univ, Nat.card_eq_fintype_card, Fintype.card_fin]
    constructor
    · intro hle
      have huniv : s.inUse = Set.univ :=
        Set.eq_of_subset_of_ncard_le (Set.subset_univ _) (by rw [hcard]; exact Nat.not_lt.mp hle)
      intro b
      rw [huniv]
      exact Set.mem_univ b
    · intro hall
      rw [Set.eq_univ_of_forall hall, hcard]
      exact Nat.lt_irrefl _
  rw [hfull]
  constructor
  · intro hnone
    exact ⟨fun b => (hnone b).1, fun b => (recyclable_iff h hpin).mp (hnone b).2⟩
  · rintro ⟨habsent, hall⟩ b
    exact ⟨habsent b, (recyclable_iff h hpin).mpr (hall b)⟩

theorem iderw_panicked (hs : s.panicked = none) {st : BioStatus} :
    (s.iderw p b st).panicked ≠ some .noBuffers := by
  unfold iderw
  split
  · rename_i e he
    intro hpanic
    have hnoBuffers : e = .noBuffers := Option.some.inj hpanic
    rw [hnoBuffers] at he
    unfold Buf.iderwPanic at he
    split_ifs at he <;> cases he
  · intro hpanic
    cases hs.symm.trans hpanic

/-- Only `bget` panics for want of a buffer. -/
theorem noBuffers_of_step {l : Label} (hl : Bio.step s l = some t)
    (hpanic : t.panicked = some .noBuffers) : ∃ p dev sector, l = .bget p ∧
      s.status p = .wanting dev sector ∧ s.cache.bget dev sector = .noBuffers := by
  have hs := panicked_of_step hl
  have hnot : s.panicked ≠ some .noBuffers := by
    rw [hs]
    exact (Option.some_ne_none _).symm
  cases l with
  | bread p dev sector =>
      obtain ⟨-, -, rfl⟩ := step_bread hl
      exact absurd hpanic hnot
  | bget p =>
      obtain ⟨dev, sector, hst, rfl⟩ := step_bget hl
      refine ⟨p, dev, sector, rfl, hst, ?_⟩
      unfold Bio.bget at hpanic
      cases hget : s.cache.bget dev sector with
      | noBuffers => rfl
      | _ =>
          rw [hget] at hpanic
          exact absurd hpanic hnot
  | check p =>
      obtain ⟨dev, sector, b, -, rfl⟩ := step_check hl
      unfold Bio.bread at hpanic
      split at hpanic
      · exact absurd hpanic (iderw_panicked hs)
      · exact absurd hpanic hnot
  | request p =>
      have hrequest : ∀ b, (s.request b).panicked = s.panicked := by
        intro b
        unfold request
        split
        · rfl
        · rfl
      obtain ⟨dev, sector, b, -, rfl⟩ | ⟨b, -, rfl⟩ := step_request hl
      · exact absurd ((hrequest b).symm.trans hpanic) hnot
      · exact absurd ((hrequest b).symm.trans hpanic) hnot
  | ret p =>
      obtain ⟨dev, sector, b, -, rfl⟩ := step_ret hl
      exact absurd hpanic hnot
  | modify p b data =>
      obtain ⟨-, -, rfl⟩ := step_modify hl
      exact absurd hpanic hnot
  | logWrite p b =>
      obtain ⟨-, -, rfl⟩ := step_logWrite hl
      exact absurd hpanic hnot
  | bwrite p b =>
      obtain ⟨-, -, rfl⟩ := step_bwrite hl
      unfold bwrite at hpanic
      split at hpanic
      · cases hpanic
      · have hset : (s.setBuf b { s.buf b with dirty := true }).panicked = none := hs
        exact absurd hpanic (iderw_panicked hset)
  | brelse p b =>
      obtain ⟨-, -, -, rfl⟩ := step_brelse hl
      unfold brelse at hpanic
      split at hpanic
      · cases hpanic
      · exact absurd hpanic hnot
  | wake p =>
      obtain ⟨dev, sector, b, -, rfl⟩ := step_wake hl
      exact absurd hpanic hnot

end Demand

end Bio

namespace LogCache

variable {m m' : LogCache} {l : Label} {p : Pid}

/-- What a step does to the buffer cache. -/
theorem bio_of_step (hl : m.step l = some m') : m'.bio = m.bio ∨
    ∃ l', m.bio.step l' = some m'.bio ∧ ∀ q, l' = .bget q → l = .bget q := by
  cases l with
  | bread p sector =>
      simp only [step, Option.ite_none_right_eq_some, Option.map_eq_some_iff] at hl
      obtain ⟨-, bio, hbio, rfl⟩ := hl
      exact .inr ⟨_, hbio, fun q hq => by cases hq⟩
  | bget p =>
      simp only [step, Option.map_eq_some_iff] at hl
      obtain ⟨bio, hbio, rfl⟩ := hl
      exact .inr ⟨_, hbio, fun q hq => by cases hq; rfl⟩
  | check p =>
      simp only [step, Option.map_eq_some_iff] at hl
      obtain ⟨bio, hbio, rfl⟩ := hl
      exact .inr ⟨_, hbio, fun q hq => by cases hq⟩
  | read p =>
      simp only [step] at hl
      split at hl
      · obtain ⟨bio, hbio, rfl⟩ := Option.map_eq_some_iff.mp hl
        exact .inr ⟨_, hbio, fun q hq => by cases hq⟩
      · cases hl
  | ret p =>
      simp only [step, Option.ite_none_right_eq_some, Option.map_eq_some_iff] at hl
      obtain ⟨-, bio, hbio, rfl⟩ := hl
      exact .inr ⟨_, hbio, fun q hq => by cases hq⟩
  | modify p b data =>
      simp only [step, Option.ite_none_right_eq_some, Option.map_eq_some_iff] at hl
      obtain ⟨-, bio, hbio, rfl⟩ := hl
      exact .inr ⟨_, hbio, fun q hq => by cases hq⟩
  | logWrite p b =>
      simp only [step, logWrite, Option.ite_none_right_eq_some, Option.bind_eq_some_iff] at hl
      obtain ⟨-, proto, -, hl⟩ := hl
      split at hl
      · cases hl
        exact .inl rfl
      · obtain ⟨bio, hbio, rfl⟩ := Option.map_eq_some_iff.mp hl
        exact .inr ⟨_, hbio, fun q hq => by cases hq⟩
  | brelse p b =>
      simp only [step, Option.ite_none_right_eq_some, Option.map_eq_some_iff] at hl
      obtain ⟨-, bio, hbio, rfl⟩ := hl
      exact .inr ⟨_, hbio, fun q hq => by cases hq⟩
  | wake p =>
      simp only [step, Option.map_eq_some_iff] at hl
      obtain ⟨bio, hbio, rfl⟩ := hl
      exact .inr ⟨_, hbio, fun q hq => by cases hq⟩
  | beginOp p =>
      simp only [step, Option.ite_none_right_eq_some, Option.map_eq_some_iff] at hl
      obtain ⟨-, proto, -, rfl⟩ := hl
      exact .inl rfl
  | endOp p =>
      simp only [step, Option.ite_none_right_eq_some, Option.map_eq_some_iff] at hl
      obtain ⟨-, proto, -, rfl⟩ := hl
      exact .inl rfl
  | finish p =>
      simp only [step, Option.map_eq_some_iff] at hl
      obtain ⟨proto, -, rfl⟩ := hl
      exact .inl rfl
  | kill p =>
      simp only [step, Option.map_eq_some_iff] at hl
      obtain ⟨proto, -, rfl⟩ := hl
      exact .inl rfl

theorem bio_of_start {o : LogOp (Fin NBUF)} (hl : m.start p o = some m') :
    ∃ l', m.bio.step l' = some m'.bio ∧ ∀ q, l' ≠ .bget q := by
  cases o with
  | bread x =>
      obtain ⟨bio, hbio, rfl⟩ := Option.map_eq_some_iff.mp hl
      exact ⟨_, hbio, fun q hq => by cases hq⟩
  | bwrite b =>
      obtain ⟨bio, hbio, rfl⟩ := Option.map_eq_some_iff.mp hl
      exact ⟨_, hbio, fun q hq => by cases hq⟩
  | _ => cases hl

theorem bio_of_complete {o : LogOp (Fin NBUF)} {r : o.Resp} (hl : m.complete p o = some (r, m')) :
    m'.bio = m.bio ∨ ∃ l', m.bio.step l' = some m'.bio ∧ ∀ q, l' ≠ .bget q := by
  cases o with
  | bread x =>
      simp only [complete] at hl
      split at hl
      · obtain ⟨bio, hbio, heq⟩ := Option.map_eq_some_iff.mp hl
        cases heq
        exact .inr ⟨_, hbio, fun q hq => by cases hq⟩
      · cases hl
  | getData b =>
      cases hl
      exact .inl rfl
  | setData b data =>
      obtain ⟨bio, hbio, heq⟩ := Option.map_eq_some_iff.mp hl
      cases heq
      exact .inr ⟨_, hbio, fun q hq => by cases hq⟩
  | bwrite b =>
      simp only [complete] at hl
      split at hl
      · obtain ⟨bio, hbio, heq⟩ := Option.map_eq_some_iff.mp hl
        cases heq
        exact .inr ⟨_, hbio, fun q hq => by cases hq⟩
      · cases hl
  | brelse b =>
      obtain ⟨bio, hbio, heq⟩ := Option.map_eq_some_iff.mp hl
      cases heq
      exact .inr ⟨_, hbio, fun q hq => by cases hq⟩
  | getLh =>
      cases hl
      exact .inl rfl
  | setLh lh =>
      cases hl
      exact .inl rfl

end LogCache

namespace LogSys

open Foundation

/-- There is a buffer for the block that a round of `bget` looks for. -/
def HasBuffer (s : LogSys) : Label → Prop
  | .user (.bget p) => ∀ dev sector, s.m.bio.status p = .wanting dev sector →
      s.m.bio.HasBuffer dev sector
  | _ => True

variable {s t : LogSys} {l : Label} {p : Pid}

/-- What a step does to the buffer cache. -/
theorem bio_of_step (hl : s.step l = some t) : s.m.bio.panicked = none ∧
    (t.m.bio = s.m.bio ∨
      ∃ l', s.m.bio.step l' = some t.m.bio ∧ ∀ q, l' = .bget q → l = .user (.bget q)) := by
  unfold step at hl
  split at hl
  · cases hl
  · rename_i hpanic
    refine ⟨by simpa using (not_or.mp hpanic).1, ?_⟩
    have hcall : ∀ {m : LogCache}, (∃ l', s.m.bio.step l' = some m.bio ∧ ∀ q, l' ≠ .bget q) →
        ∃ l', s.m.bio.step l' = some m.bio ∧ ∀ q, l' = .bget q → l = .user (.bget q) :=
      fun ⟨l', hbio, hnot⟩ => ⟨l', hbio, fun q hq => absurd hq (hnot q)⟩
    split at hl
    · obtain ⟨m, hm, rfl⟩ := Option.map_eq_some_iff.mp hl
      exact (LogCache.bio_of_step hm).imp_right fun ⟨l', hbio, hget⟩ =>
        ⟨l', hbio, fun q hq => congrArg _ (hget q hq)⟩
    · obtain ⟨m, hm, rfl⟩ := Option.map_eq_some_iff.mp hl
      exact (LogCache.bio_of_step hm).imp_right fun ⟨l', hbio, hget⟩ =>
        ⟨l', hbio, fun q hq => congrArg _ (hget q hq)⟩
    · split at hl
      · split at hl
        · obtain ⟨m, hm, rfl⟩ := Option.map_eq_some_iff.mp hl
          exact .inr (hcall (LogCache.bio_of_start hm))
        · cases hl
      · cases hl
    · split at hl
      · split at hl
        · obtain ⟨⟨r, m⟩, hm, rfl⟩ := Option.map_eq_some_iff.mp hl
          exact (LogCache.bio_of_complete hm).imp_right hcall
        · cases hl
      · cases hl
    · split at hl
      · obtain ⟨proto, -, rfl⟩ := Option.map_eq_some_iff.mp hl
        exact .inl rfl
      · cases hl

/-- In every reachable state: what is known of the cache, and of its dirty buffers. -/
structure CacheOk (s : LogSys) : Prop where
  inv : s.m.bio.Inv
  pinned : s.m.bio.panicked = none → s.m.bio.Pinned

theorem cacheOk_init (sb : Superblock) (disk : Ide.Disk) : CacheOk (init sb disk) where
  inv := Bio.inv_init true disk
  pinned := fun _ => Bio.pinned_init

theorem CacheOk.step (h : CacheOk s) (hl : s.step l = some t) : CacheOk t := by
  obtain ⟨hs, hbio | ⟨l', hl', -⟩⟩ := bio_of_step hl
  · exact ⟨by rw [hbio]; exact h.inv, fun _ => by rw [hbio]; exact h.pinned hs⟩
  · exact ⟨h.inv.step hl', fun ht => (h.pinned hs).step hl' ht⟩

/-- A step panics for want of a buffer exactly when it is a round of `bget` and there is none. -/
theorem CacheOk.noBuffers_iff (h : CacheOk s) (hl : s.step l = some t) :
    t.m.bio.panicked = some .noBuffers ↔ ¬ s.HasBuffer l := by
  obtain ⟨hs, hbio⟩ := bio_of_step hl
  have hpin := h.pinned hs
  constructor
  · intro hpanic hbuffer
    rcases hbio with heq | ⟨l', hl', hget⟩
    · rw [heq, hs] at hpanic
      cases hpanic
    · obtain ⟨p, dev, sector, rfl, hst, hnone⟩ := Bio.noBuffers_of_step hl' hpanic
      rw [hget p rfl] at hbuffer
      exact (Bio.bget_noBuffers_iff h.inv hpin).mp hnone (hbuffer dev sector hst)
  · intro hnone
    unfold HasBuffer at hnone
    split at hnone
    · rename_i p
      push Not at hnone
      obtain ⟨dev, sector, hst, hno⟩ := hnone
      have hrun : s.m.bio.step (.bget p) = some t.m.bio := by
        unfold LogSys.step at hl
        split at hl
        · cases hl
        · obtain ⟨m, hm, rfl⟩ := Option.map_eq_some_iff.mp hl
          obtain ⟨bio, hb, rfl⟩ := Option.map_eq_some_iff.mp hm
          exact hb
      obtain ⟨dev', sector', hst', hbget⟩ := Bio.step_bget hrun
      rw [hst] at hst'
      cases hst'
      rw [hbget, Bio.bget, (Bio.bget_noBuffers_iff h.inv hpin).mpr hno]
      rfl
    · exact absurd trivial hnone

end LogSys

open Foundation

/-- In a run in which `bget` is called only when there is a buffer for the block, it does not panic;
and a step of any run panics for want of a buffer exactly when there is none. -/
theorem bget_finds_buffer {sb : Superblock} {disk : Ide.Disk} {ls : List LogSys.Label} {s : LogSys}
    (hrun : run LogSys.step (LogSys.init sb disk) ls = some s) :
    (RunMeets LogSys.step LogSys.HasBuffer (LogSys.init sb disk) ls →
      s.m.bio.panicked ≠ some .noBuffers) ∧
    ∀ l t, s.step l = some t → (t.m.bio.panicked = some .noBuffers ↔ ¬ s.HasBuffer l) := by
  have hok : LogSys.CacheOk s :=
    run_invariant LogSys.CacheOk (fun _ _ _ h hl => h.step hl) (LogSys.cacheOk_init sb disk) hrun
  refine ⟨fun hmeets => ?_, fun l t hl => hok.noBuffers_iff hl⟩
  have hinv : LogSys.CacheOk s ∧ s.m.bio.panicked ≠ some .noBuffers :=
    run_invariant_of_meets (fun u => LogSys.CacheOk u ∧ u.m.bio.panicked ≠ some .noBuffers)
      (fun u l v hu hbuffer hl => ⟨hu.1.step hl, fun hpanic =>
        (hu.1.noBuffers_iff hl).mp hpanic hbuffer⟩)
      ⟨LogSys.cacheOk_init sb disk, (Option.some_ne_none _).symm⟩ hmeets hrun
  exact hinv.2

/-- A process reads a block. -/
theorem bget_finds_buffer_one : ∃ s,
    run LogSys.step (LogSys.init mkfsSuperblock fun _ => Block.zero)
      [.user (.bread 0 100), .user (.bget 0)] = some s ∧ s.m.bio.panicked ≠ some .noBuffers := by
  obtain ⟨u, hu, hempty⟩ : ∃ u, LogSys.step (LogSys.init mkfsSuperblock fun _ => Block.zero)
      (.user (.bread 0 100)) = some u ∧ u.m.bio.inUse = ∅ := by
    refine ⟨_, rfl, Set.eq_empty_iff_forall_notMem.mpr fun b hb => ?_⟩
    rcases hb with ⟨p, hp⟩ | hp <;> cases hp
  have hmeets : RunMeets LogSys.step LogSys.HasBuffer
      (LogSys.init mkfsSuperblock fun _ => Block.zero)
      [.user (.bread 0 100), .user (.bget 0)] := by
    refine ⟨trivial, fun t ht => ⟨fun dev sector _ => ?_, fun _ _ => trivial⟩⟩
    obtain rfl : u = t := Option.some.inj (hu.symm.trans ht)
    refine .inr ?_
    rw [hempty, Set.ncard_empty]
    decide
  have hrun : run LogSys.step (LogSys.init mkfsSuperblock fun _ => Block.zero)
      [.user (.bread 0 100), .user (.bget 0)] = some _ := rfl
  exact ⟨_, hrun, (bget_finds_buffer hrun).1 hmeets⟩

/-- Thirty-one processes read different blocks. -/
theorem bget_runs_dry :
    (run LogSys.step (LogSys.init mkfsSuperblock fun _ => Block.zero)
      ((List.range 31).flatMap fun p => [.user (.bread p (100 + p)), .user (.bget p)])).map
      (fun s => s.m.bio.panicked) = some (some .noBuffers) ∧ 31 ≤ NPROC := by
  decide +kernel

end Xv6
