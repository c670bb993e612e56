import Xv6.Cache.Coupling

/-!
# The stages of a commit

`commit()` runs interleaved with other processes that read. `Stage` is the assertion
that its proof outline carries from call to call: which logged sectors still have a
dirty buffer, how many of them are copied to the log, and which buffers the
committing process holds. It is stable under what the others do, and each kind of
call has one rule.
-/

namespace Xv6

namespace LogCache

open Foundation Ide Bio

/-- What the committing process and the others do between two answers to it. -/
def rely (p : Pid) (o : LogOp (Fin NBUF)) (m m' : LogCache) : Prop :=
  (∃ l, m.step l = some m') ∨ m.start p o = some m'

/-- How a call of the committing process ends. -/
def reply (p : Pid) (o : LogOp (Fin NBUF)) (m : LogCache) (r : o.Resp) (m' : LogCache) : Prop :=
  m.complete p o = some (r, m')

/-- What holds while a call of `commit()` is executed: reading the buffer of a logged
sector does not go to the disk and gives its newest contents, and so does the write
of its log block. -/
def guar (start size : ℕ) (p : Pid) (o : LogOp (Fin NBUF)) (m : LogCache) : Prop :=
  Inv start size m ∧
  match o with
  | .bread x => x ∈ m.proto.log.lh.sector →
      (∀ dev sector b, m.bio.status p ≠ .reading dev sector b) ∧
      ∀ dev sector b, m.bio.status p = .returning dev sector b →
        (m.bio.buf b).data = m.newest x
  | .bwrite b => ∀ i x, m.proto.log.lh.sector[i]? = some x → m.sector b = start + i + 1 →
      (m.bio.buf b).data = m.newest x
  | _ => True

/-- Where the committing process is while it executes a call. -/
def Busy : LogOp (Fin NBUF) → BioStatus → Prop
  | .bread x, st => st = .idle ∨ InBread ROOTDEV x st
  | .bwrite b, st => st = .idle ∨ st = .writing b
  | _, st => st = .idle

theorem Busy.advance {o : LogOp (Fin NBUF)} {st st' : BioStatus} (h : Busy o st)
    (hadv : Advance st st') : Busy o st' := by
  rcases hadv with rfl | ⟨dev, sector, hin, hin'⟩
  · exact h
  · have hidle : st ≠ .idle := by
      rintro rfl
      exact hin
    cases o with
    | bread x =>
        obtain ⟨rfl, rfl⟩ := inBread_unique hin (h.resolve_left hidle)
        exact .inr hin'
    | bwrite b => exact absurd (h.resolve_left hidle) (not_writing_of_inBread hin b)
    | _ => exact absurd h hidle

section Calls

variable {start size : ℕ} {p : Pid} {m m' : LogCache}

/-- While `p` commits, the steps of the processes keep the invariant. -/
theorem Inv.moves_commit (h : Inv start size m) (hp : m.proto.status p = .inCommit)
    {l : Label} (hm : Moves m l m') : Inv start size m' := by
  refine h.moves hm fun q b _ hq => ?_
  exact absurd (.inl hp) (h.proto.not_committer hq (q := p))

/-- The write request of `commit()` is queued. -/
theorem Inv.startWrite (h : Inv start size m) (hp : m.proto.status p = .inCommit)
    {b : Fin NBUF} {bio : Bio} (hst : m.bio.status p = .idle) (hb : m.bio.holds p b = true)
    (hinv : bio.Inv) (hbio : bio = (m.bio.setBuf b { m.bio.buf b with dirty := true }).setStatus p
      (.writing b)) : Inv start size (m.setBio bio) := by
  have hr := h.bio.real_of_holds hb
  have hbuf : ∀ c, (bio.buf c).Carries (m.bio.buf c).dev (m.bio.buf c).sector ∧
      (bio.buf c).valid = (m.bio.buf c).valid ∧ (bio.buf c).data = (m.bio.buf c).data ∧
      ((m.bio.buf c).dirty = true → (bio.buf c).dirty = true) := by
    intro c
    rw [hbio]
    rcases eq_or_ne c b with rfl | hc
    · simp [Buf.Carries]
    · simp [Function.update_of_ne hc, Buf.Carries]
  constructor
  · exact hinv
  · exact h.proto
  · rw [hbio]; exact h.disk1
  · exact h.logStart
  · exact h.logSize
  · intro c hc
    obtain ⟨hcarry, -⟩ := hbuf c
    exact hcarry.1.trans (h.device c (real_of_carries hc hcarry))
  · intro q
    rw [hbio]
    rcases eq_or_ne q p with rfl | hq
    · simp [OnDevice, InBread]
    · simpa [Function.update_of_ne hq] using h.onDevice q
  · intro c hc hv hout
    obtain ⟨hcarry, hvalid, hdata, -⟩ := hbuf c
    have hsector : (m.setBio bio).sector c = m.sector c := hcarry.2
    rw [hsector] at hout ⊢
    rw [setBio_bio, setBio_newest, hdata]
    exact h.newest c (real_of_carries hc hcarry) (hvalid.symm.trans hv) hout
  · intro x hx hout
    rcases h.home x hx hout with hdisk | ⟨c, hcarry, hpin⟩
    · left
      rw [hbio]
      exact hdisk
    · obtain ⟨hc, -, -, hdirty⟩ := hbuf c
      refine .inr ⟨c, ⟨hc.1.trans hcarry.1, hc.2.trans hcarry.2⟩, hpin.imp hdirty fun hm => ?_⟩
      rw [hbio]
      exact hm
  · exact h.nodup
  · exact h.outside
  · exact h.room
  · intro c hc
    rw [hbio] at hc
    obtain ⟨q, hq⟩ := h.changed c hc
    refine ⟨q, ?_⟩
    rw [hbio]
    exact hq
  · intro q c hq
    rw [hbio] at hq
    rcases eq_or_ne q p with rfl | hne
    · exact hp
    · simp only [setBio_bio, setStatus_status, setBuf_status, Function.update_of_ne hne] at hq
      exact h.writer q c hq
  · exact fun hnone => absurd hp (hnone p)

/-- The write request of `commit()` is done. -/
theorem Inv.endWrite (h : Inv start size m) (hp : m.proto.status p = .inCommit)
    {b : Fin NBUF} (hst : m.bio.status p = .writing b) :
    Inv start size (m.setBio ((m.bio.written b).setStatus p .idle)) := by
  have hok := h.bio.status p
  rw [hst] at hok
  obtain ⟨hb, hd⟩ := hok
  have hr := h.bio.real_of_holds hb
  have hvalid := (h.bio.bufs b hr).dirtyValid hd
  have hinv := h.bio.write hst
  rw [show m.bio.request b = m.bio.written b by simp [request, hd]] at hinv
  have haddr : address (m.bio.buf b).dev (m.bio.buf b).sector = (ROOTDEV, m.sector b) := by
    rw [address_of_real hr, h.device b hr, sector]
  constructor
  · exact hinv
  · exact h.proto
  · exact h.disk1
  · exact h.logStart
  · exact h.logSize
  · intro c
    rcases eq_or_ne c b with rfl | hc
    · simpa using h.device c
    · simpa [Function.update_of_ne hc] using h.device c
  · intro q
    rcases eq_or_ne q p with rfl | hq
    · simp [OnDevice, InBread]
    · simpa [Bio.written, Function.update_of_ne hq] using h.onDevice q
  · intro c
    rcases eq_or_ne c b with rfl | hc
    · intro _ _ hout
      simp only [sector, setBio_bio, setStatus_buf, written_buf, Function.update_self,
        setBio_newest] at hout ⊢
      exact h.newest c hr hvalid hout
    · simpa [sector, Function.update_of_ne hc] using h.newest c
  · intro x hx hout
    by_cases hxb : x = m.sector b
    · left
      subst hxb
      simp only [setBio_bio, setStatus_disk, written_disk, haddr, Function.update_self,
        setBio_newest]
      exact h.newest b hr hvalid hout
    · have hne : (ROOTDEV, x) ≠ (ROOTDEV, m.sector b) := by simpa using hxb
      simp only [setBio_bio, setStatus_disk, written_disk, haddr, Function.update_of_ne hne,
        setBio_newest]
      rcases h.home x hx hout with hnew | ⟨c, hcarry, hpin⟩
      · exact .inl hnew
      refine .inr ⟨c, ?_⟩
      have hc : c ≠ b := by
        rintro rfl
        exact hxb hcarry.2.symm
      simpa [Function.update_of_ne hc] using ⟨hcarry, hpin⟩
  · exact h.nodup
  · exact h.outside
  · exact h.room
  · intro c hc
    rcases eq_or_ne c b with rfl | hcb
    · simp at hc
    · exact h.changed c (by simpa [Function.update_of_ne hcb] using hc)
  · intro q c hq
    rcases eq_or_ne q p with rfl | hne
    · simp at hq
    · exact h.writer q c (by simpa [Bio.written, Function.update_of_ne hne] using hq)
  · exact fun hnone => absurd hp (hnone p)

/-- Clearing the header in memory. -/
theorem Inv.setLh (h : Inv start size m) (hp : m.proto.status p = .inCommit) :
    Inv start size
      (m.setProto { m.proto with log := { m.proto.log with lh := LogHeader.empty } }) := by
  have hc := h.proto.committing.mpr ⟨p, .inl hp⟩
  have hproto : Protocol.Inv
      { m.proto with log := { m.proto.log with lh := LogHeader.empty } } :=
    ⟨h.proto.count, h.proto.committing, h.proto.quiet, h.proto.alone, fun _ _ => rfl,
      fun _ _ => rfl, fun _ _ => .inl hc, h.proto.panics⟩
  exact ⟨h.bio, hproto, h.disk1, h.logStart, h.logSize, h.device, h.onDevice, h.newest,
    h.home, List.nodup_nil, by simp, by simp, h.changed, h.writer,
    fun hnone => absurd hp (hnone p)⟩

/-- Interference keeps the invariant and the place of the committing process. -/
theorem rely_interfered {o : LogOp (Fin NBUF)} (h : Inv start size m)
    (hp : m.proto.status p = .inCommit) (hbusy : Busy o (m.bio.status p))
    (hr : rely p o m m') :
    Interfered p m m' ∧ Inv start size m' ∧ Busy o (m'.bio.status p) := by
  rcases hr with ⟨l, hl⟩ | hstart
  · have hm := step_moves h hl
    obtain ⟨hi, hadv⟩ := hm.interfered h hp
    exact ⟨hi, h.moves_commit hp hm, hbusy.advance hadv⟩
  · cases o with
    | bread x =>
        simp only [LogCache.start, Option.map_eq_some_iff] at hstart
        obtain ⟨bio, hbio, rfl⟩ := hstart
        have hinv := h.bio.step hbio
        obtain ⟨hst, -, rfl⟩ := step_bread hbio
        have hin : InBread ROOTDEV x ((m.bio.setStatus p (.wanting ROOTDEV x)).status p) := by
          simp [InBread]
        refine ⟨⟨rfl, rfl, rfl, rfl, hp, ?_, ?_, ?_, ?_⟩, ?_, .inr hin⟩
        · exact fun b hb hv => ⟨hb, ⟨rfl, rfl⟩, hv, rfl⟩
        · exact fun b hb => ⟨⟨rfl, rfl⟩, .inl hb⟩
        · exact fun b hb => ⟨⟨rfl, rfl⟩, hb⟩
        · intro b hb
          rw [hst] at hb
          cases hb
        · exact h.quiet hinv (quiet_setStatus _ _ _) (onDevice_of_inBread hin)
            fun b hb => absurd hb (not_writing_of_inBread hin b)
    | bwrite b =>
        simp only [LogCache.start, Option.map_eq_some_iff] at hstart
        obtain ⟨bio, hbio, rfl⟩ := hstart
        have hinv := h.bio.step hbio
        obtain ⟨hst, hb, hbw⟩ := step_bwrite hbio
        have hbw' : bio = (m.bio.setBuf b { m.bio.buf b with dirty := true }).setStatus p
            (.writing b) := by
          rw [hbw, Bio.bwrite, h.bio.busy_of_holds hb]
          simp [iderw, Buf.iderwPanic, h.bio.busy_of_holds hb, h.disk1]
        refine ⟨⟨?_, rfl, rfl, ?_, hp, ?_, ?_, ?_, ?_⟩, h.startWrite hp hst hb hinv hbw', ?_⟩
        · rw [hbw']; rfl
        · rw [hbw']; rfl
        · intro c hc hv
          rw [hbw']
          rcases eq_or_ne c b with rfl | hne
          · simpa [Buf.Carries] using ⟨hc, hv⟩
          · simpa [Function.update_of_ne hne, Buf.Carries] using ⟨hc, hv⟩
        · intro c hc
          rw [hbw'] at hc ⊢
          rcases eq_or_ne c b with rfl | hne
          · simp [Buf.Carries]
          · simp only [setBio_bio, setStatus_buf, setBuf_buf, Function.update_of_ne hne] at hc ⊢
            exact ⟨⟨rfl, rfl⟩, .inl hc⟩
        · intro c hc
          rw [hbw']
          rcases eq_or_ne c b with rfl | hne
          · simp [Buf.Carries]
          · simpa [Function.update_of_ne hne, Buf.Carries] using hc
        · intro c hc
          rw [hst] at hc
          cases hc
        · rw [hbw']
          exact .inr (by simp)
    | _ => simp [LogCache.start] at hstart

end Calls

/-! ### The assertion -/

/-- In the middle of a commit of the sectors `L`, whose newest contents are given by
`N`: the sectors in `pending` still have a dirty buffer, the first `copied` are in
the log, only `changing` has been changed and not written, and the process holds the
buffers `held` of the given sectors. -/
structure Stage (start size : ℕ) (p : Pid) (N : ℕ → Block) (L pending : List ℕ) (copied : ℕ)
    (changing : Option (Fin NBUF)) (held : List (Fin NBUF × ℕ)) (m : LogCache) : Prop where
  inv : Inv start size m
  commits : m.proto.status p = .inCommit
  newest : m.newest = N
  lh : m.proto.log.lh.sector = L
  pinned : ∀ x ∈ pending, ∃ b, (m.bio.buf b).Carries ROOTDEV x ∧ (m.bio.buf b).dirty = true
  dirty : ∀ b, (m.bio.buf b).dirty = true →
    m.sector b ∈ pending ∨ m.bio.status p = .writing b
  logged : ∀ i x, i < copied → L[i]? = some x → m.bio.disk (ROOTDEV, start + i + 1) = N x
  unchanged : ∀ b, m.bio.modified b = true → changing = some b
  holding : ∀ h ∈ held, m.bio.holds p h.1 = true ∧ (m.bio.buf h.1).Carries ROOTDEV h.2 ∧
    (m.bio.buf h.1).valid = true

namespace Stage

variable {start size : ℕ} {p : Pid} {N : ℕ → Block} {L pending : List ℕ} {copied : ℕ}
  {changing : Option (Fin NBUF)} {held : List (Fin NBUF × ℕ)} {m m' : LogCache}

/-- The assertion is stable. -/
theorem interfered (h : Stage start size p N L pending copied changing held m)
    (hi : Interfered p m m') (hinv : Inv start size m') :
    Stage start size p N L pending copied changing held m' where
  inv := hinv
  commits := hi.commits
  newest := hi.newest.trans h.newest
  lh := by rw [hi.lh, h.lh]
  pinned := by
    intro x hx
    obtain ⟨b, hcarry, hd⟩ := h.pinned x hx
    obtain ⟨hsame, hd'⟩ := hi.pinned b hd
    exact ⟨b, ⟨hsame.1.trans hcarry.1, hsame.2.trans hcarry.2⟩, hd'⟩
  dirty := by
    intro b hb
    obtain ⟨hsame, hd | hw⟩ := hi.dirty b hb
    · have hsector : m'.sector b = m.sector b := hsame.2
      rw [hsector]
      exact (h.dirty b hd).imp_right (hi.writing b)
    · exact .inr hw
  logged := by
    rw [hi.disk]
    exact h.logged
  unchanged := by
    rw [hi.modified]
    exact h.unchanged
  holding := by
    intro c hc
    obtain ⟨hb, hcarry, hv⟩ := h.holding c hc
    obtain ⟨hb', hsame, hv', -⟩ := hi.held c.1 hb hv
    exact ⟨hb', ⟨hsame.1.trans hcarry.1, hsame.2.trans hcarry.2⟩, hv'⟩

/-- The log area does not meet the logged sectors. -/
theorem not_mem_of_inLog (h : Stage start size p N L pending copied changing held m) {x : ℕ}
    (hx : InLog start size x) : x ∉ L := by
  intro hmem
  exact h.inv.outside x (h.lh ▸ hmem) hx

theorem inLog_of_lt (h : Stage start size p N L pending copied changing held m) {i : ℕ}
    (hi : i < L.length) : InLog start size (start + i + 1) := by
  have hroom := h.inv.room
  rw [LogHeader.n, h.lh] at hroom
  unfold InLog
  omega

theorem release (h : Stage start size p N L pending copied changing held m)
    (held' : List (Fin NBUF × ℕ)) (hsub : ∀ x ∈ held', x ∈ held) :
    Stage start size p N L pending copied changing held' m :=
  { h with holding := fun c hc => h.holding c (hsub c hc) }

end Stage

end LogCache

end Xv6
