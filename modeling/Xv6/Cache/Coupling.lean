import Xv6.Cache.Logged
import Xv6.Cache.Quiet
import Xv6.Log.Recovery

/-!
# The coupling of the cache with the log

What holds at any time of the buffers and of `log.lh`: every buffer with data outside
the log area has the newest contents of its block; a block whose newest contents are
not on the disk has a buffer that is dirty or just being changed; and outside
`commit()` the dirty buffers are those of the logged sectors.
-/

namespace Xv6

namespace Protocol

/-- A step of `p` that leaves the header and the other processes alone, except that
it may put sleepers to run. -/
structure Frame (p : Pid) (s t : Protocol) : Prop where
  start : t.log.start = s.log.start
  size : t.log.size = s.log.size
  lh : t.log.lh = s.log.lh
  status : ∀ q, q ≠ p → ∀ o, o ≠ .sleeping → o ≠ .runnable →
    (t.status q = o ↔ s.status q = o)

variable {s : Protocol} {p : Pid}

theorem frame_update {log : Log} {panicked : Option Panic} (o : OpStatus)
    (hstart : log.start = s.log.start) (hsize : log.size = s.log.size)
    (hlh : log.lh = s.log.lh) :
    Frame p s ⟨log, Function.update s.status p o, panicked⟩ where
  start := hstart
  size := hsize
  lh := hlh
  status := fun q hq o _ _ => by simp only [Function.update_of_ne hq]

theorem frame_wakeup {log : Log} {panicked : Option Panic} (o : OpStatus)
    (hstart : log.start = s.log.start) (hsize : log.size = s.log.size)
    (hlh : log.lh = s.log.lh) :
    Frame p s ⟨log, Function.update (wakeup s.status) p o, panicked⟩ where
  start := hstart
  size := hsize
  lh := hlh
  status := fun q hq o h₁ h₂ => by
    simp only [Function.update_of_ne hq, wakeup_eq_iff h₁ h₂]

theorem frame_beginOp : Frame p s (s.beginOp p) := by
  unfold beginOp
  split
  · exact frame_update _ rfl rfl rfl
  · split
    · exact frame_update _ rfl rfl rfl
    · exact frame_update _ rfl rfl rfl

theorem frame_endOp : Frame p s (s.endOp p) := by
  unfold endOp
  dsimp only
  split
  · exact ⟨rfl, rfl, rfl, fun _ _ _ _ _ => Iff.rfl⟩
  · split
    · exact frame_update _ rfl rfl rfl
    · exact frame_wakeup _ rfl rfl rfl

theorem frame_finish : Frame p s (s.finish p) := frame_wakeup _ rfl rfl rfl

end Protocol

namespace LogCache

open Foundation Ide Bio

def InBread (dev sector : ℕ) : BioStatus → Prop
  | .wanting d e => d = dev ∧ e = sector
  | .sleeping d e _ => d = dev ∧ e = sector
  | .got d e _ => d = dev ∧ e = sector
  | .reading d e _ => d = dev ∧ e = sector
  | .returning d e _ => d = dev ∧ e = sector
  | _ => False

/-- Inside `bread` of the same block as before, or where it was. -/
def Advance (st st' : BioStatus) : Prop :=
  st' = st ∨ ∃ dev sector, InBread dev sector st ∧ InBread dev sector st'

/-- The process is concerned with the file-system device only. -/
def OnDevice (st : BioStatus) : Prop :=
  ∀ dev sector, InBread dev sector st → dev = ROOTDEV

theorem inBread_unique {dev sector dev' sector' : ℕ} {st : BioStatus}
    (h : InBread dev sector st) (h' : InBread dev' sector' st) :
    dev = dev' ∧ sector = sector' := by
  cases st <;> simp_all [InBread]

theorem Advance.onDevice {st st' : BioStatus} (h : Advance st st') (hst : OnDevice st) :
    OnDevice st' := by
  rcases h with rfl | ⟨dev, sector, hin, hin'⟩
  · exact hst
  · intro d e hd
    rw [(inBread_unique hd hin').1]
    exact hst dev sector hin

/-- What holds at any time, inside and outside `commit()`. -/
structure Inv (start size : ℕ) (m : LogCache) : Prop where
  bio : m.bio.Inv
  proto : m.proto.Inv
  disk1 : m.bio.havedisk1 = true
  logStart : m.proto.log.start = start
  logSize : m.proto.log.size = size
  device : ∀ b, Real (m.bio.buf b).dev (m.bio.buf b).sector → (m.bio.buf b).dev = ROOTDEV
  onDevice : ∀ p, OnDevice (m.bio.status p)
  /-- a buffer has the newest contents of its block -/
  newest : ∀ b, Real (m.bio.buf b).dev (m.bio.buf b).sector → (m.bio.buf b).valid = true →
    ¬ InLog start size (m.sector b) → (m.bio.buf b).data = m.newest (m.sector b)
  /-- contents that are not on the disk are in a pinned buffer -/
  home : ∀ x, Real ROOTDEV x → ¬ InLog start size x →
    m.bio.disk (ROOTDEV, x) = m.newest x ∨
      ∃ b, (m.bio.buf b).Carries ROOTDEV x ∧
        ((m.bio.buf b).dirty = true ∨ m.bio.modified b = true)
  nodup : m.proto.log.lh.sector.Nodup
  outside : ∀ x ∈ m.proto.log.lh.sector, ¬ InLog start size x
  room : m.proto.log.lh.n ≤ size - 1
  /-- only an operation and the commit change buffers -/
  changed : ∀ b, m.bio.modified b = true → ∃ p, m.bio.holds p b = true ∧
    (m.proto.status p = .inOp ∨ m.proto.status p = .inCommit)
  /-- only the commit uses `bwrite` -/
  writer : ∀ p b, m.bio.status p = .writing b → m.proto.status p = .inCommit
  /-- outside the commit the dirty buffers are those of the logged sectors -/
  coupled : (∀ p, m.proto.status p ≠ .inCommit) → ∀ x, x ∈ m.proto.log.lh.sector ↔
    ∃ b, (m.bio.buf b).Carries ROOTDEV x ∧ (m.bio.buf b).dirty = true

theorem real_of_carries {x : Buf} {dev sector : ℕ} (hr : Real x.dev x.sector)
    (hc : x.Carries dev sector) : Real dev sector := by
  rwa [← hc.1, ← hc.2]

namespace Inv

variable {start size : ℕ} {m : LogCache}

theorem real_of_dirty (h : Inv start size m) {b : Fin NBUF} (hb : (m.bio.buf b).dirty = true) :
    Real (m.bio.buf b).dev (m.bio.buf b).sector := by
  by_contra hr
  rw [(h.bio.unused b hr).2.1] at hb
  cases hb

theorem carries_self (h : Inv start size m) {b : Fin NBUF}
    (hr : Real (m.bio.buf b).dev (m.bio.buf b).sector) :
    (m.bio.buf b).Carries ROOTDEV (m.sector b) :=
  ⟨h.device b hr, rfl⟩

/-- Two buffers of one block are the same buffer. -/
theorem eq_of_carries (h : Inv start size m) {b c : Fin NBUF} {x : ℕ}
    (hr : Real (m.bio.buf b).dev (m.bio.buf b).sector)
    (hb : (m.bio.buf b).Carries ROOTDEV x) (hc : (m.bio.buf c).Carries ROOTDEV x) : c = b := by
  apply h.bio.unique b c hr
  rwa [hb.1, hb.2]

theorem onDevice_woken {st st' : BioStatus} (h : OnDevice st) (hw : Woken st st') :
    OnDevice st' := by
  rcases hw with rfl | ⟨dev, sector, b, rfl, rfl⟩
  · exact h
  · exact Advance.onDevice (.inr ⟨dev, sector, by simp [InBread], by simp [InBread]⟩) h

theorem device_quiet (h : Inv start size m) {bio : Bio} {q : Pid} (hq : Quiet q m.bio bio)
    {b : Fin NBUF} (hr : Real (bio.buf b).dev (bio.buf b).sector) : (bio.buf b).dev = ROOTDEV := by
  rcases hq.buf b with hsame | hrec | hfill
  · have hr' := real_of_carries hr ⟨hsame.carries.1, hsame.carries.2⟩
    exact hsame.carries.1.trans (h.device b hr')
  · obtain ⟨p, dev, sector, hst, hcarry⟩ := hrec.wanted
    have hon := h.onDevice p dev sector (by rw [hst]; exact ⟨rfl, rfl⟩)
    exact hcarry.1.trans hon
  · have hr' := real_of_carries hr hfill.carries
    exact hfill.carries.1.trans (h.device b hr')

/-- What is read from the disk is the newest: no other buffer has the block. -/
theorem newest_quiet (h : Inv start size m) {bio : Bio} {q : Pid} (hq : Quiet q m.bio bio)
    {b : Fin NBUF} (hr : Real (bio.buf b).dev (bio.buf b).sector)
    (hv : (bio.buf b).valid = true) (hout : ¬ InLog start size (bio.buf b).sector) :
    (bio.buf b).data = m.newest (bio.buf b).sector := by
  rcases hq.buf b with hsame | hrec | hfill
  · rw [hsame.carries.2] at hout ⊢
    rw [hsame.data]
    exact h.newest b (real_of_carries hr hsame.carries) (hsame.valid ▸ hv) hout
  · rw [hrec.empty] at hv
    cases hv
  · have hr' := real_of_carries hr hfill.carries
    rw [hfill.carries.2] at hout ⊢
    rw [hfill.data, address_of_real hr', h.device b hr']
    have hr₁ : Real ROOTDEV (m.bio.buf b).sector := by rwa [← h.device b hr']
    rcases h.home _ hr₁ hout with hdisk | ⟨c, hcarry, hpin⟩
    · exact hdisk
    · obtain rfl := h.eq_of_carries hr' (h.carries_self hr') hcarry
      have hbuf := h.bio.bufs c hr'
      have hvalid : (m.bio.buf c).valid = true :=
        hpin.elim hbuf.dirtyValid fun hm => (hbuf.modifiedBusy hm).2
      rw [hfill.empty] at hvalid
      cases hvalid

/-- The dirty buffers stay, and no other gets dirty. -/
theorem dirty_quiet (h : Inv start size m) {bio : Bio} {q : Pid} (hq : Quiet q m.bio bio) {x : ℕ} :
    (∃ b, (m.bio.buf b).Carries ROOTDEV x ∧ (m.bio.buf b).dirty = true) ↔
      ∃ b, (bio.buf b).Carries ROOTDEV x ∧ (bio.buf b).dirty = true := by
  constructor
  · rintro ⟨b, hcarry, hd⟩
    have hsame := hq.same_of_pinned h.bio (.inl hd)
    exact ⟨b, ⟨hsame.carries.1.trans hcarry.1, hsame.carries.2.trans hcarry.2⟩,
      hsame.dirty.trans hd⟩
  · rintro ⟨b, hcarry, hd⟩
    have hsame := hq.same_of_dirty' hd
    exact ⟨b, ⟨hsame.carries.1.symm.trans hcarry.1, hsame.carries.2.symm.trans hcarry.2⟩,
      hsame.dirty.symm.trans hd⟩

/-- A quiet step of the buffer cache. -/
theorem quiet (h : Inv start size m) {bio : Bio} {q : Pid} (hb : bio.Inv)
    (hq : Quiet q m.bio bio) (hdev : OnDevice (bio.status q))
    (hwriter : ∀ b, bio.status q = .writing b → m.proto.status q = .inCommit) :
    Inv start size (m.setBio bio) where
  bio := hb
  proto := h.proto
  disk1 := hq.havedisk1.trans h.disk1
  logStart := h.logStart
  logSize := h.logSize
  device := fun _ => h.device_quiet hq
  onDevice := by
    intro p
    change OnDevice (bio.status p)
    rcases eq_or_ne p q with rfl | hp
    · exact hdev
    · exact onDevice_woken (h.onDevice p) (hq.status p hp)
  newest := fun _ => h.newest_quiet hq
  home := by
    intro x hr hout
    change bio.disk (ROOTDEV, x) = m.newest x ∨ ∃ b, (bio.buf b).Carries ROOTDEV x ∧
      ((bio.buf b).dirty = true ∨ bio.modified b = true)
    rw [hq.disk, hq.modified]
    rcases h.home x hr hout with hdisk | ⟨b, hcarry, hpin⟩
    · exact .inl hdisk
    · have hsame := hq.same_of_pinned h.bio hpin
      refine .inr ⟨b, ?_, ?_⟩
      · exact ⟨hsame.carries.1.trans hcarry.1, hsame.carries.2.trans hcarry.2⟩
      · rwa [hsame.dirty]
  nodup := h.nodup
  outside := h.outside
  room := h.room
  changed := by
    intro b hb
    change bio.modified b = true at hb
    rw [hq.modified] at hb
    obtain ⟨p, hp, hst⟩ := h.changed b hb
    refine ⟨p, ?_, hst⟩
    change bio.holds p b = true
    rcases eq_or_ne p q with rfl | hne
    · exact hq.keeps b hp hb
    · rwa [hq.holds p hne]
  writer := by
    intro p b hp
    change bio.status p = .writing b at hp
    rcases eq_or_ne p q with rfl | hne
    · exact hwriter b hp
    · rcases hq.status p hne with heq | ⟨dev, sector, c, -, hwant⟩
      · exact h.writer p b (heq ▸ hp)
      · rw [hwant] at hp
        cases hp
  coupled := fun hnone _ => (h.coupled hnone _).trans (h.dirty_quiet hq)

/-- A step of the protocol that leaves the header alone. -/
theorem setProto (h : Inv start size m) {proto : Protocol} {p : Pid} (hp : proto.Inv)
    (hframe : m.proto.Frame p proto) (hcommit : m.proto.status p ≠ .inCommit)
    (hop : m.proto.status p = .inOp → ¬ m.AllLogged p → proto.status p = .inOp) :
    Inv start size (m.setProto proto) where
  bio := h.bio
  proto := hp
  disk1 := h.disk1
  logStart := hframe.start.trans h.logStart
  logSize := hframe.size.trans h.logSize
  device := h.device
  onDevice := h.onDevice
  newest := h.newest
  home := h.home
  nodup := by
    rw [show (m.setProto proto).proto.log.lh = _ from hframe.lh]
    exact h.nodup
  outside := by
    rw [show (m.setProto proto).proto.log.lh = _ from hframe.lh]
    exact h.outside
  room := by
    rw [show (m.setProto proto).proto.log.lh = _ from hframe.lh]
    exact h.room
  changed := by
    intro b hb
    obtain ⟨q, hqb, hst⟩ := h.changed b hb
    refine ⟨q, hqb, ?_⟩
    rcases eq_or_ne q p with rfl | hq
    · refine .inl (hop (hst.resolve_right hcommit) fun hall => ?_)
      rw [show (m.setProto proto).bio.modified b = false from hall b hqb] at hb
      cases hb
    · exact hst.imp (hframe.status q hq _ (by simp) (by simp)).mpr
        (hframe.status q hq _ (by simp) (by simp)).mpr
  writer := by
    intro q b hw
    have hq := h.writer q b hw
    have hqp : q ≠ p := fun heq => hcommit (heq ▸ hq)
    exact (hframe.status q hqp _ (by simp) (by simp)).mpr hq
  coupled := by
    intro hnone
    rw [show (m.setProto proto).proto.log.lh = _ from hframe.lh]
    refine h.coupled fun q hq => hnone q ?_
    have hqp : q ≠ p := fun heq => hcommit (heq ▸ hq)
    exact (hframe.status q hqp _ (by simp) (by simp)).mpr hq

/-- The holder of a buffer changes its data, to the newest contents if the block lies
outside the log area. -/
theorem modify (h : Inv start size m) {p : Pid} {b : Fin NBUF} {data : Block}
    (newest : ℕ → Block) (hst : m.bio.status p = .idle) (hb : m.bio.holds p b = true)
    (hp : m.proto.status p = .inOp ∨ m.proto.status p = .inCommit)
    (hother : ∀ x, x ≠ m.sector b → newest x = m.newest x)
    (hself : ¬ InLog start size (m.sector b) → data = newest (m.sector b)) :
    Inv start size { m with bio := m.bio.modify b data, newest := newest } where
  bio := h.bio.modify data hst hb
  proto := h.proto
  disk1 := h.disk1
  logStart := h.logStart
  logSize := h.logSize
  device := by
    intro c
    rcases eq_or_ne c b with rfl | hc
    · simpa using h.device c
    · simpa [Function.update_of_ne hc] using h.device c
  onDevice := h.onDevice
  newest := by
    intro c
    have hr := h.bio.real_of_holds hb
    rcases eq_or_ne c b with rfl | hc
    · intro _ _ hout
      simp only [sector, modify_buf, Function.update_self] at hout ⊢
      exact hself hout
    · simp only [sector, modify_buf, Function.update_of_ne hc]
      intro hr' hv hout
      rw [hother]
      · exact h.newest c hr' hv hout
      · intro heq
        exact hc (h.eq_of_carries hr (h.carries_self hr) ⟨h.device c hr', heq⟩)
  home := by
    intro x hx hout
    have hr := h.bio.real_of_holds hb
    by_cases hxb : x = m.sector b
    · exact .inr ⟨b, by simpa [Buf.Carries] using ⟨h.device b hr, hxb.symm⟩,
        .inr (by simp)⟩
    · rw [show ({ m with bio := m.bio.modify b data, newest := newest } : LogCache).newest x =
        newest x from rfl, hother x hxb]
      rcases h.home x hx hout with hnew | ⟨c, hcarry, hpin⟩
      · exact .inl hnew
      refine .inr ⟨c, ?_⟩
      have hc : c ≠ b := by
        rintro rfl
        exact hxb hcarry.2.symm
      simpa [Function.update_of_ne hc] using ⟨hcarry, hpin⟩
  nodup := h.nodup
  outside := h.outside
  room := h.room
  changed := by
    intro c hc
    rcases eq_or_ne c b with rfl | hcb
    · exact ⟨p, hb, hp⟩
    · exact h.changed c (by simpa [Function.update_of_ne hcb] using hc)
  writer := h.writer
  coupled := by
    intro hnone x
    refine (h.coupled hnone x).trans (exists_congr fun c => ?_)
    rcases eq_or_ne c b with rfl | hcb
    · simp [Buf.Carries]
    · simp [Function.update_of_ne hcb]

/-- `log_write` of a buffer outside the log area, when the log has room. -/
theorem logWrite (h : Inv start size m) {p : Pid} {b : Fin NBUF} {log : Log}
    (hst : m.bio.status p = .idle) (hb : m.bio.holds p b = true)
    (hp : m.proto.status p = .inOp) (hout : ¬ InLog start size (m.sector b))
    (hlog : m.proto.log.logWrite (m.sector b) = .ok log)
    (hproto : Protocol.Inv { m.proto with log := log }) :
    Inv start size ((m.setProto { m.proto with log := log }).setBio (m.bio.logWrite b)) := by
  obtain ⟨-, hroom, -, hlh⟩ := Log.logWrite_eq_ok hlog
  have hr := h.bio.real_of_holds hb
  have hcommit := fun q => (h.proto.not_committer hp (q := q))
  constructor
  · exact h.bio.logWrite hst hb
  · exact hproto
  · exact h.disk1
  · simpa only [setBio_proto, setProto_proto, hlh] using h.logStart
  · simpa only [setBio_proto, setProto_proto, hlh] using h.logSize
  · intro c
    rcases eq_or_ne c b with rfl | hc
    · simpa using h.device c
    · simpa [Function.update_of_ne hc] using h.device c
  · exact h.onDevice
  · intro c
    rcases eq_or_ne c b with rfl | hc
    · simpa [sector] using h.newest c
    · simpa [sector, Function.update_of_ne hc] using h.newest c
  · -- what was being changed is now dirty
    intro x hx hxout
    rcases h.home x hx hxout with hnew | ⟨c, hcarry, hpin⟩
    · exact .inl hnew
    refine .inr ⟨c, ?_⟩
    rcases eq_or_ne c b with rfl | hc
    · simpa [Buf.Carries] using hcarry
    · simpa [Function.update_of_ne hc] using ⟨hcarry, hpin⟩
  · exact Log.nodup_of_logWrite hlog h.nodup
  · intro x hx
    rcases (Log.mem_of_logWrite hlog).mp hx with hx | rfl
    · exact h.outside x hx
    · exact hout
  · have hn := (Log.n_of_logWrite hlog).2
    have hsize := h.logSize
    change log.lh.n ≤ size - 1
    omega
  · intro c hc
    rcases eq_or_ne c b with rfl | hcb
    · simp at hc
    · exact h.changed c (by simpa [Function.update_of_ne hcb] using hc)
  · exact h.writer
  · intro _ x
    have hold := h.coupled (fun q hq => hcommit q (.inl hq)) x
    change x ∈ log.lh.sector ↔ _
    rw [Log.mem_of_logWrite hlog, hold]
    constructor
    · rintro (⟨c, hcarry, hd⟩ | rfl)
      · refine ⟨c, ?_⟩
        rcases eq_or_ne c b with rfl | hc
        · simpa [Buf.Carries] using hcarry
        · simpa [Function.update_of_ne hc] using ⟨hcarry, hd⟩
      · exact ⟨b, by simpa [Buf.Carries, sector] using h.device b hr⟩
    · rintro ⟨c, hcarry, hd⟩
      rcases eq_or_ne c b with rfl | hc
      · refine .inr ?_
        simp only [setBio_bio, logWrite_buf, Function.update_self] at hcarry
        exact hcarry.2.symm
      · simp only [setBio_bio, logWrite_buf, Function.update_of_ne hc] at hcarry hd
        exact .inl ⟨c, hcarry, hd⟩

end Inv

/-! ### The steps of the processes -/

inductive Moves (m : LogCache) : Label → LogCache → Prop where
  /-- a step of the buffer cache that changes no contents -/
  | quiet (l : Label) (hl : ∀ p, l ≠ .endOp p) (q : Pid) (bio : Bio) (hinv : bio.Inv)
      (hq : Quiet q m.bio bio) (hdev : OnDevice (bio.status q))
      (hwriter : ∀ b, bio.status q = .writing b → m.bio.status q = .writing b)
      (hact : m.User q ∨ Advance (m.bio.status q) (bio.status q) ∧
        ∀ b, m.bio.holds q b = true → bio.holds q b = true) : Moves m l (m.setBio bio)
  | modify (p : Pid) (b : Fin NBUF) (data : Block) (hp : m.proto.status p = .inOp)
      (hst : m.bio.status p = .idle) (hb : m.bio.holds p b = true) :
      Moves m (.modify p b data) { m with
        bio := m.bio.modify b data
        newest := Function.update m.newest (m.sector b) data }
  | logWrite (p : Pid) (b : Fin NBUF) (log : Log) (hp : m.proto.status p = .inOp)
      (hst : m.bio.status p = .idle) (hb : m.bio.holds p b = true)
      (hlog : m.proto.log.logWrite (m.sector b) = .ok log) :
      Moves m (.logWrite p b)
        ((m.setProto { m.proto with log := log }).setBio (m.bio.logWrite b))
  | logPanic (p : Pid) (b : Fin NBUF) (e : Panic) (hp : m.proto.status p = .inOp)
      (hproto : Protocol.Inv { m.proto with panicked := some e }) :
      Moves m (.logWrite p b) (m.setProto { m.proto with panicked := some e })
  | beginOp (p : Pid) (hp : m.proto.status p = .idle ∨ m.proto.status p = .runnable) :
      Moves m (.beginOp p) (m.setProto (m.proto.beginOp p))
  | endOp (p : Pid) (hst : m.bio.status p = .idle) (hp : m.proto.status p = .inOp)
      (hall : m.AllLogged p) :
      Moves m (.endOp p) (m.setProto (m.proto.endOp p))
  | finish (p : Pid) (hp : m.proto.status p = .committed) :
      Moves m (.finish p) (m.setProto (m.proto.finish p))
  | kill (p : Pid) (hp : m.proto.status p = .sleeping) :
      Moves m (.kill p) (m.setProto
        { m.proto with status := Function.update m.proto.status p .runnable })

section Step

variable {start size : ℕ} {m m' : LogCache}

theorem inBread_bget {bio : Bio} {q : Pid} {dev sector : ℕ}
    (hst : bio.status q = .wanting dev sector) :
    InBread dev sector ((bio.bget q dev sector).status q) := by
  unfold Bio.bget
  split
  · simp [InBread]
  · simp [InBread]
  · simp [InBread]
  · simp [Bio.panic, hst, InBread]

theorem holds_bget {bio : Bio} {q : Pid} {dev sector : ℕ} {b : Fin NBUF}
    (hb : bio.holds q b = true) : (bio.bget q dev sector).holds q b = true := by
  unfold Bio.bget
  split
  · exact hb
  · rename_i c _
    rcases eq_or_ne b c with rfl | hc
    · simp
    · simpa [Function.update_of_ne hc] using hb
  · rename_i c _
    rcases eq_or_ne b c with rfl | hc
    · simp
    · simpa [Function.update_of_ne hc] using hb
  · exact hb

theorem inBread_bread {bio : Bio} {q : Pid} {dev sector : ℕ} {b : Fin NBUF}
    (hst : bio.status q = .got dev sector b) :
    InBread dev sector ((bio.bread q dev sector b).status q) := by
  unfold Bio.bread Bio.iderw
  split
  · split
    · simp [Bio.panic, hst, InBread]
    · simp [InBread]
  · simp [InBread]

theorem holds_bread {bio : Bio} {q : Pid} {dev sector : ℕ} {b : Fin NBUF} :
    (bio.bread q dev sector b).holds = bio.holds := by
  unfold Bio.bread Bio.iderw
  split
  · split <;> rfl
  · rfl

theorem not_writing_of_inBread {dev sector : ℕ} {st : BioStatus} (h : InBread dev sector st)
    (b : Fin NBUF) : st ≠ .writing b := by
  rintro rfl
  exact h

theorem onDevice_of_inBread {sector : ℕ} {st : BioStatus} (h : InBread ROOTDEV sector st) :
    OnDevice st :=
  fun _ _ hin => (inBread_unique hin h).1

/-- The steps inside `bread` that any process takes. -/
theorem moves_inside (h : Inv start size m) {l : Label} (hl : ∀ p, l ≠ .endOp p) {q : Pid}
    {bio : Bio} {dev sector : ℕ}
    (hinv : bio.Inv) (hq : Quiet q m.bio bio) (hin : InBread dev sector (m.bio.status q))
    (hin' : InBread dev sector (bio.status q))
    (hkeeps : ∀ b, m.bio.holds q b = true → bio.holds q b = true) :
    Moves m l (m.setBio bio) := by
  have hadv : Advance (m.bio.status q) (bio.status q) := .inr ⟨dev, sector, hin, hin'⟩
  refine .quiet l hl q bio hinv hq (hadv.onDevice (h.onDevice q)) ?_ (.inr ⟨hadv, hkeeps⟩)
  intro b hb
  exact absurd hb (not_writing_of_inBread hin' b)

theorem moves_bread (h : Inv start size m) {p : Pid} {sector : ℕ} {bio : Bio} (hp : m.User p)
    (hbio : m.bio.step (.bread p ROOTDEV sector) = some bio) :
    Moves m (.bread p sector) (m.setBio bio) := by
  have hinv := h.bio.step hbio
  obtain ⟨-, -, rfl⟩ := step_bread hbio
  have hin : InBread ROOTDEV sector ((m.bio.setStatus p (.wanting ROOTDEV sector)).status p) := by
    simp [InBread]
  refine .quiet _ (by simp) p _ hinv (quiet_setStatus _ _ _) (onDevice_of_inBread hin) ?_ (.inl hp)
  exact fun b hb => absurd hb (not_writing_of_inBread hin b)

theorem moves_bget (h : Inv start size m) {p : Pid} {bio : Bio}
    (hbio : m.bio.step (.bget p) = some bio) : Moves m (.bget p) (m.setBio bio) := by
  have hinv := h.bio.step hbio
  obtain ⟨dev, sector, hst, rfl⟩ := step_bget hbio
  exact moves_inside h (by simp) hinv (quiet_bget h.bio hst) (by rw [hst]; exact ⟨rfl, rfl⟩)
    (inBread_bget hst) fun b => holds_bget

theorem moves_check (h : Inv start size m) {p : Pid} {bio : Bio}
    (hbio : m.bio.step (.check p) = some bio) : Moves m (.check p) (m.setBio bio) := by
  have hinv := h.bio.step hbio
  obtain ⟨dev, sector, b, hst, rfl⟩ := step_check hbio
  exact moves_inside h (by simp) hinv quiet_bread (by rw [hst]; exact ⟨rfl, rfl⟩)
    (inBread_bread hst) fun b hb => by rwa [holds_bread]

theorem moves_read (h : Inv start size m) {p : Pid} {dev sector : ℕ} {b : Fin NBUF} {bio : Bio}
    (hst : m.bio.status p = .reading dev sector b)
    (hbio : m.bio.step (.request p) = some bio) : Moves m (.read p) (m.setBio bio) := by
  have hinv := h.bio.step hbio
  obtain ⟨dev', sector', b', hst', rfl⟩ | ⟨b', hst', rfl⟩ := step_request hbio
  · refine moves_inside h (by simp) hinv (quiet_read h.bio hst') (by rw [hst']; exact ⟨rfl, rfl⟩)
      (by simp [InBread]) ?_
    intro c hc
    unfold request
    split <;> exact hc
  · rw [hst] at hst'
    cases hst'

theorem moves_ret (h : Inv start size m) {p : Pid} {bio : Bio} (hp : m.User p)
    (hbio : m.bio.step (.ret p) = some bio) : Moves m (.ret p) (m.setBio bio) := by
  have hinv := h.bio.step hbio
  obtain ⟨dev, sector, b, hst, rfl⟩ := step_ret hbio
  refine .quiet _ (by simp) p _ hinv (quiet_setStatus _ _ _) ?_ (by simp) (.inl hp)
  simp [OnDevice, InBread]

theorem moves_logWrite (h : Inv start size m) {p : Pid} {b : Fin NBUF}
    (hp : m.proto.status p = .inOp) (hl : m.logWrite p b = some m') :
    Moves m (.logWrite p b) m' := by
  simp only [LogCache.logWrite, Option.bind_eq_some_iff] at hl
  obtain ⟨proto, hproto, hl⟩ := hl
  have hpinv := h.proto.step hproto
  obtain ⟨-, rfl⟩ := Protocol.step_logWrite hproto
  have hnp := Protocol.panicked_of_step hproto
  unfold Protocol.logWrite at hl hpinv
  split at hl
  · rename_i log hlog
    simp only [hlog] at hpinv
    rw [if_neg (by simp [hnp])] at hl
    simp only [Option.map_eq_some_iff] at hl
    obtain ⟨bio, hbio, rfl⟩ := hl
    obtain ⟨hst, hb, rfl⟩ := step_logWrite hbio
    exact .logWrite p b log hp hst hb hlog
  · rename_i e hlog
    simp only [hlog] at hpinv
    simp only [Option.isSome_some, if_true, Option.some.injEq] at hl
    subst hl
    exact .logPanic p b e hp hpinv

theorem moves_brelse (h : Inv start size m) {p : Pid} {b : Fin NBUF} {bio : Bio} (hp : m.User p)
    (hbio : m.bio.step (.brelse p b) = some bio) : Moves m (.brelse p b) (m.setBio bio) := by
  have hinv := h.bio.step hbio
  obtain ⟨hst, hb, hmod, rfl⟩ := step_brelse hbio
  have hbusy := h.bio.busy_of_holds hb
  have hidle : (m.bio.brelse p b).status p = .idle := by
    rw [Bio.brelse, hbusy]
    rcases Bio.Inv.wakeup_cases m.bio.status b p with heq | ⟨dev, sector, hs, -⟩
    · exact heq.trans hst
    · rw [hst] at hs
      cases hs
  refine .quiet _ (by simp) p _ hinv (quiet_brelse hmod) ?_ ?_ (.inl hp)
  · rw [hidle]
    simp [OnDevice, InBread]
  · rw [hidle]
    simp

theorem moves_wake (h : Inv start size m) {p : Pid} {bio : Bio}
    (hbio : m.bio.step (.wake p) = some bio) : Moves m (.wake p) (m.setBio bio) := by
  have hinv := h.bio.step hbio
  obtain ⟨dev, sector, b, hst, rfl⟩ := step_wake hbio
  exact moves_inside h (by simp) hinv (quiet_setStatus _ _ _) (by rw [hst]; exact ⟨rfl, rfl⟩)
    (by simp [InBread]) fun b hb => hb

theorem step_moves (h : Inv start size m) {l : Label} (hl : m.step l = some m') :
    Moves m l m' := by
  cases l with
  | bread p sector =>
      simp only [step, Option.ite_none_right_eq_some, Option.map_eq_some_iff] at hl
      obtain ⟨hp, bio, hbio, rfl⟩ := hl
      exact moves_bread h hp hbio
  | bget p =>
      obtain ⟨bio, hbio, rfl⟩ := Option.map_eq_some_iff.mp hl
      exact moves_bget h hbio
  | check p =>
      obtain ⟨bio, hbio, rfl⟩ := Option.map_eq_some_iff.mp hl
      exact moves_check h hbio
  | read p =>
      simp only [step] at hl
      split at hl
      · rename_i hst
        obtain ⟨bio, hbio, rfl⟩ := Option.map_eq_some_iff.mp hl
        exact moves_read h hst hbio
      · cases hl
  | ret p =>
      simp only [step, Option.ite_none_right_eq_some, Option.map_eq_some_iff] at hl
      obtain ⟨hp, bio, hbio, rfl⟩ := hl
      exact moves_ret h hp hbio
  | modify p b data =>
      simp only [step, Option.ite_none_right_eq_some, Option.map_eq_some_iff] at hl
      obtain ⟨hp, bio, hbio, rfl⟩ := hl
      obtain ⟨hst, hb, rfl⟩ := step_modify hbio
      exact .modify p b data hp hst hb
  | logWrite p b =>
      simp only [step, Option.ite_none_right_eq_some] at hl
      exact moves_logWrite h hl.1 hl.2
  | brelse p b =>
      simp only [step, Option.ite_none_right_eq_some, Option.map_eq_some_iff] at hl
      obtain ⟨hp, bio, hbio, rfl⟩ := hl
      exact moves_brelse h hp hbio
  | wake p =>
      obtain ⟨bio, hbio, rfl⟩ := Option.map_eq_some_iff.mp hl
      exact moves_wake h hbio
  | beginOp p =>
      simp only [step, Option.ite_none_right_eq_some, Option.map_eq_some_iff] at hl
      obtain ⟨-, proto, hproto, rfl⟩ := hl
      obtain ⟨hp, rfl⟩ := Protocol.step_beginOp hproto
      exact .beginOp p hp
  | endOp p =>
      simp only [step, Option.ite_none_right_eq_some, Option.map_eq_some_iff] at hl
      obtain ⟨⟨hst, hall⟩, proto, hproto, rfl⟩ := hl
      obtain ⟨hp, rfl⟩ := Protocol.step_endOp hproto
      exact .endOp p hst hp hall
  | finish p =>
      simp only [step, Option.map_eq_some_iff] at hl
      obtain ⟨proto, hproto, rfl⟩ := hl
      obtain ⟨hp, rfl⟩ := Protocol.step_finish hproto
      exact .finish p hp
  | kill p =>
      simp only [step, Option.map_eq_some_iff] at hl
      obtain ⟨proto, hproto, rfl⟩ := hl
      obtain ⟨hp, rfl⟩ := Protocol.step_kill hproto
      exact .kill p hp

/-- Each step of the processes keeps the invariant, if what is logged lies outside
the log area. -/
theorem Inv.moves (h : Inv start size m) {l : Label} (hm : Moves m l m')
    (hout : ∀ p b, l = .logWrite p b → m.proto.status p = .inOp →
      ¬ InLog start size (m.sector b)) : Inv start size m' := by
  cases hm with
  | quiet l hl q bio hinv hq hdev hwriter hact =>
      exact h.quiet hinv hq hdev fun b hb => h.writer q b (hwriter b hb)
  | modify p b data hp hst hb =>
      apply h.modify _ hst hb (.inl hp)
      · exact fun x hx => Function.update_of_ne hx _ _
      · simp
  | logWrite p b log hp hst hb hlog =>
      refine h.logWrite hst hb hp (hout p b rfl hp) hlog ?_
      have hstep := h.proto.logWrite hp (x := m.sector b)
      rwa [Protocol.logWrite, hlog] at hstep
  | logPanic p b e hp hproto =>
      exact h.setProto (p := p) hproto ⟨rfl, rfl, rfl, fun _ _ _ _ _ => Iff.rfl⟩ (by simp [hp])
        fun _ _ => hp
  | beginOp p hp =>
      refine h.setProto (h.proto.beginOp hp) Protocol.frame_beginOp ?_ ?_
      · rcases hp with hp | hp <;> simp [hp]
      · rcases hp with hp | hp <;> simp [hp]
  | endOp p hst hp hall =>
      exact h.setProto (h.proto.endOp hp) Protocol.frame_endOp (by simp [hp])
        fun _ hn => absurd hall hn
  | finish p hp =>
      exact h.setProto (h.proto.finish hp) Protocol.frame_finish (by simp [hp]) (by simp [hp])
  | kill p hp =>
      exact h.setProto (h.proto.kill hp) (Protocol.frame_update _ rfl rfl rfl) (by simp [hp])
        (by simp [hp])

/-! ### What other processes do during a commit -/

/-- What a step of anybody can do while `p` commits, between two answers to `p`. -/
structure Interfered (p : Pid) (m m' : LogCache) : Prop where
  disk : m'.bio.disk = m.bio.disk
  newest : m'.newest = m.newest
  lh : m'.proto.log.lh = m.proto.log.lh
  modified : m'.bio.modified = m.bio.modified
  commits : m'.proto.status p = .inCommit
  /-- what `p` holds stays as it is -/
  held : ∀ b, m.bio.holds p b = true → (m.bio.buf b).valid = true →
    m'.bio.holds p b = true ∧ (m'.bio.buf b).Carries (m.bio.buf b).dev (m.bio.buf b).sector ∧
      (m'.bio.buf b).valid = true ∧ (m'.bio.buf b).data = (m.bio.buf b).data
  /-- only `p` makes a buffer dirty -/
  dirty : ∀ b, (m'.bio.buf b).dirty = true →
    (m'.bio.buf b).Carries (m.bio.buf b).dev (m.bio.buf b).sector ∧
      ((m.bio.buf b).dirty = true ∨ m'.bio.status p = .writing b)
  pinned : ∀ b, (m.bio.buf b).dirty = true →
    (m'.bio.buf b).Carries (m.bio.buf b).dev (m.bio.buf b).sector ∧ (m'.bio.buf b).dirty = true
  writing : ∀ b, m.bio.status p = .writing b → m'.bio.status p = .writing b

theorem Moves.interfered {p : Pid} {l : Label} (h : Inv start size m) (hm : Moves m l m')
    (hp : m.proto.status p = .inCommit) :
    Interfered p m m' ∧ Advance (m.bio.status p) (m'.bio.status p) := by
  have hno : ∀ q, m.proto.status q ≠ .inOp := fun q hq =>
    h.proto.not_committer hq (.inl hp)
  -- a step of the protocol by another process
  have hproto : ∀ (q : Pid) (proto : Protocol), q ≠ p → m.proto.Frame q proto →
      Interfered p m (m.setProto proto) ∧
        Advance (m.bio.status p) ((m.setProto proto).bio.status p) := by
    intro q proto hq hframe
    refine ⟨⟨rfl, rfl, hframe.lh, rfl, ?_, ?_, ?_, ?_, fun _ hw => hw⟩, .inl rfl⟩
    · exact (hframe.status p hq.symm _ (by simp) (by simp)).mpr hp
    · exact fun b hb hv => ⟨hb, ⟨rfl, rfl⟩, hv, rfl⟩
    · exact fun b hb => ⟨⟨rfl, rfl⟩, .inl hb⟩
    · exact fun b hb => ⟨⟨rfl, rfl⟩, hb⟩
  cases hm with
  | quiet l hl q bio hinv hq hdev hwriter hact =>
      have hself : Advance (m.bio.status p) (bio.status p) ∧
          ∀ b, m.bio.holds p b = true → bio.holds p b = true := by
        rcases eq_or_ne p q with rfl | hne
        · refine hact.resolve_left fun huser => ?_
          rcases huser with hu | hu
          · rw [hp] at hu
            cases hu
          · exact hno p hu
        · refine ⟨?_, fun b hb => by rwa [hq.holds p hne]⟩
          rcases hq.status p hne with heq | ⟨dev, sector, b, hs, hw⟩
          · exact .inl heq
          · rw [hs, hw]
            exact .inr ⟨dev, sector, ⟨rfl, rfl⟩, ⟨rfl, rfl⟩⟩
      refine ⟨⟨hq.disk, rfl, rfl, hq.modified, hp, ?_, ?_, ?_, ?_⟩, hself.1⟩
      · intro b hb hv
        have hsame := hq.same_of_holds h.bio hb hv
        exact ⟨hself.2 b hb, hsame.carries, hsame.valid.trans hv, hsame.data⟩
      · intro b hb
        have hsame := hq.same_of_dirty' hb
        exact ⟨hsame.carries, .inl (hsame.dirty.symm.trans hb)⟩
      · intro b hb
        have hsame := hq.same_of_pinned h.bio (.inl hb)
        exact ⟨hsame.carries, hsame.dirty.trans hb⟩
      · intro b hb
        rcases hself.1 with heq | ⟨dev, sector, hin, -⟩
        · exact heq.trans hb
        · exact absurd hb (not_writing_of_inBread hin b)
  | modify q b data hq hst hb => exact absurd hq (hno q)
  | logWrite q b log hq hst hb hlog => exact absurd hq (hno q)
  | logPanic q b e hq hpinv => exact absurd hq (hno q)
  | beginOp q hq =>
      refine hproto q _ ?_ Protocol.frame_beginOp
      rintro rfl
      rw [hp] at hq
      simp at hq
  | endOp q hst hq hall => exact absurd hq (hno q)
  | finish q hq =>
      refine hproto q _ ?_ Protocol.frame_finish
      rintro rfl
      rw [hp] at hq
      cases hq
  | kill q hq =>
      refine hproto q _ ?_ (Protocol.frame_update _ rfl rfl rfl)
      rintro rfl
      rw [hp] at hq
      cases hq

end Step

end LogCache

end Xv6
