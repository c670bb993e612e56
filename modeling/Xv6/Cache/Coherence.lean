import Xv6.Cache.Bio

/-!
# Uniqueness and coherence of the buffer cache

The invariant `Inv` has a part for each buffer (`BufOk`), a part for each process
(`StatusOk`), and says that the blocks of the buffers differ. A step of a process
works on one buffer; `Inv.stepOn` says what has to be checked of that buffer and
process, and that all others keep their part.
-/

namespace Xv6

namespace Bio

open Foundation Ide

/-- What `bread` of a block has to return: what its last holder left, or the
contents of the disk if there was none. -/
def contents (s : Bio) (dev sector : ℕ) : Block :=
  (s.last dev sector).getD (s.disk (address dev sector))

/-- `p` is inside `bread` with the buffer `b`, not yet past the test of `B_VALID` or
waiting for the read. -/
def Filling (s : Bio) (p : Pid) (b : Fin NBUF) : Prop :=
  ∃ dev sector, s.status p = .got dev sector b ∨ s.status p = .reading dev sector b

/-- A buffer for a real block, with its marks, what the last holder of the block left,
and the block on the disk. -/
structure BufOk (x : Buf) (modified logged : Bool) (last : Option Block) (home : Block) :
    Prop where
  dirtyValid : x.dirty = true → x.valid = true
  modifiedBusy : modified = true → x.busy = true ∧ x.valid = true
  loggedDirty : logged = true → x.dirty = true
  /-- only a change that was not written back makes the buffer differ from the disk -/
  clean : x.valid = true → x.dirty = false → modified = false → x.data = home
  free : x.busy = false → x.valid = true ∧ x.data = last.getD home
  /-- a buffer is empty only when the disk has the contents -/
  empty : x.valid = false → last.getD home = home

/-- A held dirty buffer is right whatever its marks are. -/
theorem BufOk.of_dirty {x : Buf} (hbusy : x.busy = true) (hvalid : x.valid = true)
    (hdirty : x.dirty = true) (modified logged : Bool) (last : Option Block) (home : Block) :
    BufOk x modified logged last home where
  dirtyValid := fun _ => hvalid
  modifiedBusy := fun _ => ⟨hbusy, hvalid⟩
  loggedDirty := fun _ => hdirty
  clean := fun _ hclean => by simp [hdirty] at hclean
  free := fun hfree => by simp [hbusy] at hfree
  empty := fun hempty => by simp [hvalid] at hempty

/-- What the status of a process says about the buffer it is concerned with. -/
def StatusOk (s : Bio) (p : Pid) : BioStatus → Prop
  | .idle => True
  | .wanting dev sector => Real dev sector
  | .sleeping dev sector _ => Real dev sector
  | .got dev sector b =>
      s.holds p b = true ∧ (s.buf b).Carries dev sector ∧
        ((s.buf b).valid = true → (s.buf b).data = s.contents dev sector)
  | .reading dev sector b =>
      s.holds p b = true ∧ (s.buf b).Carries dev sector ∧ (s.buf b).valid = false
  | .writing b => s.holds p b = true ∧ (s.buf b).dirty = true
  | .returning dev sector b =>
      s.holds p b = true ∧ (s.buf b).Carries dev sector ∧ (s.buf b).valid = true ∧
        (s.buf b).data = s.contents dev sector

structure Inv (s : Bio) : Prop where
  linked : s.cache.WellLinked
  /-- a buffer has one holder -/
  alone : ∀ p q b, s.holds p b = true → s.holds q b = true → p = q
  busy : ∀ b, (s.buf b).busy = true ↔ ∃ p, s.holds p b = true
  /-- a block of a real device is in one buffer -/
  unique : ∀ b c, Real (s.buf b).dev (s.buf b).sector →
    (s.buf c).Carries (s.buf b).dev (s.buf b).sector → c = b
  bufs : ∀ b, Real (s.buf b).dev (s.buf b).sector →
    BufOk (s.buf b) (s.modified b) (s.logged b)
      (s.last (s.buf b).dev (s.buf b).sector) (s.disk (address (s.buf b).dev (s.buf b).sector))
  /-- a buffer that has never been used -/
  unused : ∀ b, ¬ Real (s.buf b).dev (s.buf b).sector →
    (s.buf b).busy = false ∧ (s.buf b).dirty = false ∧ s.modified b = false ∧ s.logged b = false
  /-- a block that is not cached is on the disk -/
  absent : ∀ dev sector, Real dev sector → (∀ b, ¬ (s.buf b).Carries dev sector) →
    s.contents dev sector = s.disk (address dev sector)
  status : ∀ p, s.StatusOk p (s.status p)
  /-- a process holds a buffer without data only inside `bread` -/
  filled : ∀ p b, s.holds p b = true → (s.buf b).valid = false → s.Filling p b

theorem inv_init (havedisk1 : Bool) (disk : Ide.Disk) : Inv (init havedisk1 disk) where
  linked := Bcache.wellLinked_binit
  alone := by simp [init]
  busy := by simp [init, buf, Bcache.binit]
  unique := fun b _ hb _ => absurd hb (not_real_NODEV _)
  bufs := fun b hb => absurd hb (not_real_NODEV _)
  unused := by simp [init, buf, Bcache.binit]
  absent := by simp [init, contents]
  status := by simp [init, StatusOk]
  filled := by simp [init]

namespace Inv

variable {s t : Bio}

theorem real_of_holds (h : Inv s) {p : Pid} {b : Fin NBUF} (hb : s.holds p b = true) :
    Real (s.buf b).dev (s.buf b).sector := by
  by_contra hreal
  have hbusy := (h.busy b).mpr ⟨p, hb⟩
  rw [(h.unused b hreal).1] at hbusy
  cases hbusy

theorem busy_of_holds (h : Inv s) {p : Pid} {b : Fin NBUF} (hb : s.holds p b = true) :
    (s.buf b).busy = true :=
  (h.busy b).mpr ⟨p, hb⟩

theorem not_holds_of_free (h : Inv s) {b : Fin NBUF} (hb : (s.buf b).busy = false) (p : Pid) :
    s.holds p b = false := by
  by_contra hp
  have hbusy := h.busy_of_holds (by simpa using hp)
  rw [hb] at hbusy
  cases hbusy

theorem not_holds_of_ne (h : Inv s) {p q : Pid} {b : Fin NBUF} (hb : s.holds p b = true)
    (hq : q ≠ p) : s.holds q b = false := by
  by_contra hqb
  exact hq (h.alone q p b (by simpa using hqb) hb)

/-- Everything a step that only moves one process along has to show. -/
theorem setStatus (h : Inv s) {p : Pid} {st : BioStatus} (hok : s.StatusOk p st)
    (hfill : ∀ b, s.Filling p b → (s.buf b).valid = false → (s.setStatus p st).Filling p b) :
    Inv (s.setStatus p st) where
  linked := h.linked
  alone := h.alone
  busy := h.busy
  unique := h.unique
  bufs := h.bufs
  unused := h.unused
  absent := h.absent
  status := by
    intro q
    change s.StatusOk q _
    by_cases hq : q = p
    · subst hq
      simpa using hok
    · simpa [Function.update_of_ne hq] using h.status q
  filled := by
    intro q b hb hv
    by_cases hq : q = p
    · subst hq
      exact hfill b (h.filled q b hb hv) hv
    · simpa [Filling, Function.update_of_ne hq] using h.filled q b hb hv

/-! ### A step of one process on one buffer -/

/-- A step of `p` on the buffer `b`, which nobody else holds. The other buffers, and the processes
that do not hold `b`, are as before, except that sleepers may wake. -/
structure Acts (p : Pid) (b : Fin NBUF) (s t : Bio) : Prop where
  bufs : ∀ c, c ≠ b →
    t.buf c = s.buf c ∧ t.modified c = s.modified c ∧ t.logged c = s.logged c
  holds : ∀ q c, q ≠ p ∨ c ≠ b → t.holds q c = s.holds q c
  status : ∀ q, q ≠ p → t.status q = s.status q ∨
    ∃ dev sector, s.status q = .sleeping dev sector b ∧ t.status q = .wanting dev sector
  mem : ∀ dev sector, Real dev sector → ¬ (t.buf b).Carries dev sector →
    t.last dev sector = s.last dev sector ∧
      t.disk (address dev sector) = s.disk (address dev sector)
  others : ∀ q, q ≠ p → s.holds q b = false
  /-- the block of `b` is in no other buffer -/
  elsewhere : ∀ c, c ≠ b → ¬ (s.buf c).Carries (t.buf b).dev (t.buf b).sector

namespace Acts

variable {p q : Pid} {b c : Fin NBUF} {dev sector : ℕ}

theorem not_holds (ha : Acts p b s t) (hq : q ≠ p) : t.holds q b = false := by
  rw [ha.holds q b (.inl hq)]
  exact ha.others q hq

theorem alone (ha : Acts p b s t) (h : Inv s) {r : Pid} (hq : t.holds q c = true)
    (hr : t.holds r c = true) : q = r := by
  by_cases hc : c = b
  · subst hc
    have honly : ∀ q', t.holds q' c = true → q' = p := by
      intro q' hq'
      by_contra hne
      rw [ha.not_holds hne] at hq'
      cases hq'
    rw [honly q hq, honly r hr]
  · rw [ha.holds q c (.inr hc)] at hq
    rw [ha.holds r c (.inr hc)] at hr
    exact h.alone q r c hq hr

theorem busy (ha : Acts p b s t) (h : Inv s) (hbusy : (t.buf b).busy = t.holds p b) :
    (t.buf c).busy = true ↔ ∃ q, t.holds q c = true := by
  by_cases hc : c = b
  · subst hc
    rw [hbusy]
    refine ⟨fun hp => ⟨p, hp⟩, fun ⟨q, hq⟩ => ?_⟩
    by_cases hqp : q = p
    · exact hqp ▸ hq
    · rw [ha.not_holds hqp] at hq
      cases hq
  · rw [(ha.bufs c hc).1, h.busy c]
    simp only [ha.holds _ c (.inr hc)]

theorem unique (ha : Acts p b s t) (h : Inv s) {d : Fin NBUF}
    (hc : Real (t.buf c).dev (t.buf c).sector)
    (hd : (t.buf d).Carries (t.buf c).dev (t.buf c).sector) : d = c := by
  by_cases hcb : c = b
  · subst hcb
    by_contra hne
    rw [(ha.bufs d hne).1] at hd
    exact ha.elsewhere d hne hd
  · rw [(ha.bufs c hcb).1] at hc hd
    by_cases hdb : d = b
    · subst hdb
      have hcarry : (s.buf c).Carries (t.buf d).dev (t.buf d).sector := ⟨hd.1.symm, hd.2.symm⟩
      exact absurd hcarry (ha.elsewhere c hcb)
    · rw [(ha.bufs d hdb).1] at hd
      exact h.unique c d hc hd

/-- What was last left for the block of another buffer, and the block on the disk, stay. -/
theorem mem_of_ne (ha : Acts p b s t) (hc : c ≠ b) (hreal : Real (s.buf c).dev (s.buf c).sector) :
    t.last (s.buf c).dev (s.buf c).sector = s.last (s.buf c).dev (s.buf c).sector ∧
      t.disk (address (s.buf c).dev (s.buf c).sector) =
        s.disk (address (s.buf c).dev (s.buf c).sector) :=
  ha.mem _ _ hreal fun hcarry => ha.elsewhere c hc ⟨hcarry.1.symm, hcarry.2.symm⟩

theorem bufOk (ha : Acts p b s t) (h : Inv s) (hc : c ≠ b)
    (hreal : Real (t.buf c).dev (t.buf c).sector) :
    BufOk (t.buf c) (t.modified c) (t.logged c) (t.last (t.buf c).dev (t.buf c).sector)
      (t.disk (address (t.buf c).dev (t.buf c).sector)) := by
  obtain ⟨hbc, hmc, hlc⟩ := ha.bufs c hc
  rw [hbc] at hreal ⊢
  obtain ⟨hlast, hdisk⟩ := ha.mem_of_ne hc hreal
  rw [hmc, hlc, hlast, hdisk]
  exact h.bufs c hreal

theorem absent (ha : Acts p b s t) (h : Inv s)
    (hleft : (s.buf b).Carries dev sector → ¬ (t.buf b).Carries dev sector →
      s.contents dev sector = s.disk (address dev sector))
    (hreal : Real dev sector) (hnone : ∀ c, ¬ (t.buf c).Carries dev sector) :
    t.contents dev sector = t.disk (address dev sector) := by
  obtain ⟨hlast, hdisk⟩ := ha.mem dev sector hreal (hnone b)
  rw [contents, hlast, hdisk]
  by_cases hb : (s.buf b).Carries dev sector
  · exact hleft hb (hnone b)
  · apply h.absent dev sector hreal
    intro c
    by_cases hcb : c = b
    · exact hcb ▸ hb
    · rw [← (ha.bufs c hcb).1]
      exact hnone c

/-- A buffer that another process holds stays, with the contents of its block. -/
theorem held (ha : Acts p b s t) (h : Inv s) (hq : q ≠ p) (hqc : s.holds q c = true)
    (hcarry : (s.buf c).Carries dev sector) :
    t.holds q c = true ∧ t.buf c = s.buf c ∧ t.contents dev sector = s.contents dev sector := by
  have hcb : c ≠ b := by
    rintro rfl
    rw [ha.others q hq] at hqc
    cases hqc
  obtain ⟨rfl, rfl⟩ := hcarry
  obtain ⟨hlast, hdisk⟩ := ha.mem_of_ne hcb (h.real_of_holds hqc)
  rw [contents, hlast, hdisk, ha.holds q c (.inl hq)]
  exact ⟨hqc, (ha.bufs c hcb).1, rfl⟩

/-- The buffer that another process is concerned with is held by it, hence is not `b`. -/
theorem statusOk (ha : Acts p b s t) (h : Inv s) (hq : q ≠ p) {st : BioStatus}
    (hst : s.StatusOk q st) : t.StatusOk q st := by
  cases st with
  | idle => trivial
  | wanting dev sector => exact hst
  | sleeping dev sector c => exact hst
  | got dev sector c =>
      obtain ⟨hqc, hcarry, hval⟩ := hst
      obtain ⟨h₁, h₂, h₃⟩ := ha.held h hq hqc hcarry
      rw [StatusOk, h₂, h₃]
      exact ⟨h₁, hcarry, hval⟩
  | reading dev sector c =>
      obtain ⟨hqc, hcarry, hval⟩ := hst
      obtain ⟨h₁, h₂, -⟩ := ha.held h hq hqc hcarry
      rw [StatusOk, h₂]
      exact ⟨h₁, hcarry, hval⟩
  | writing c =>
      obtain ⟨hqc, hdirty⟩ := hst
      obtain ⟨h₁, h₂, -⟩ := ha.held h hq hqc ⟨rfl, rfl⟩
      rw [StatusOk, h₂]
      exact ⟨h₁, hdirty⟩
  | returning dev sector c =>
      obtain ⟨hqc, hcarry, hval⟩ := hst
      obtain ⟨h₁, h₂, h₃⟩ := ha.held h hq hqc hcarry
      rw [StatusOk, h₂, h₃]
      exact ⟨h₁, hcarry, hval⟩

theorem filling (ha : Acts p b s t) (h : Inv s) (hq : q ≠ p) (hqc : t.holds q c = true)
    (hval : (t.buf c).valid = false) : t.Filling q c := by
  rw [ha.holds q c (.inl hq)] at hqc
  have hcb : c ≠ b := by
    rintro rfl
    rw [ha.others q hq] at hqc
    cases hqc
  rw [(ha.bufs c hcb).1] at hval
  obtain ⟨dev, sector, hfill⟩ := h.filled q c hqc hval
  rcases ha.status q hq with heq | ⟨d, e, hsleep, -⟩
  · exact ⟨dev, sector, by rwa [heq]⟩
  · rw [hsleep] at hfill
    simp at hfill

end Acts

/-- Everything a step of `p` on the buffer `b` has to show of the two. -/
theorem stepOn (h : Inv s) {p : Pid} {b : Fin NBUF} (hlinked : t.cache.WellLinked)
    (ha : Acts p b s t) (hbusy : (t.buf b).busy = t.holds p b)
    (hreal : Real (t.buf b).dev (t.buf b).sector)
    (hok : BufOk (t.buf b) (t.modified b) (t.logged b)
      (t.last (t.buf b).dev (t.buf b).sector)
      (t.disk (address (t.buf b).dev (t.buf b).sector)))
    (habsent : ∀ dev sector, Real dev sector → (s.buf b).Carries dev sector →
      ¬ (t.buf b).Carries dev sector → s.contents dev sector = s.disk (address dev sector))
    (hself : t.StatusOk p (t.status p))
    (hfilled : ∀ c, t.holds p c = true → (t.buf c).valid = false → t.Filling p c) : Inv t where
  linked := hlinked
  alone := fun _ _ _ hq hr => ha.alone h hq hr
  busy := fun _ => ha.busy h hbusy
  unique := fun _ _ hc hd => ha.unique h hc hd
  bufs := by
    intro c hc
    by_cases hcb : c = b
    · exact hcb ▸ hok
    · exact ha.bufOk h hcb hc
  unused := by
    intro c hc
    by_cases hcb : c = b
    · exact absurd (hcb ▸ hreal) hc
    · obtain ⟨hbc, hmc, hlc⟩ := ha.bufs c hcb
      rw [hbc] at hc ⊢
      rw [hmc, hlc]
      exact h.unused c hc
  absent := fun dev sector hr hnone => ha.absent h (habsent dev sector hr) hr hnone
  status := by
    intro q
    by_cases hq : q = p
    · exact hq ▸ hself
    · have hsq := h.status q
      rcases ha.status q hq with heq | ⟨dev, sector, hsleep, hwant⟩
      · rw [heq]
        exact ha.statusOk h hq hsq
      · rw [hwant]
        rw [hsleep] at hsq
        exact hsq
  filled := by
    intro q c hqc hval
    by_cases hq : q = p
    · subst hq
      exact hfilled c hqc hval
    · exact ha.filling h hq hqc hval

/-! ### Each step keeps the invariant -/

theorem not_filling {p : Pid} {b : Fin NBUF} {st : BioStatus} (hst : s.status p = st)
    (hgot : ∀ dev sector, st ≠ .got dev sector b)
    (hreading : ∀ dev sector, st ≠ .reading dev sector b) : ¬ s.Filling p b := by
  rintro ⟨dev, sector, h | h⟩
  · exact hgot dev sector (hst.symm.trans h)
  · exact hreading dev sector (hst.symm.trans h)

/-- Outside `bread` a process holds buffers with data only. -/
theorem valid_of_holds (h : Inv s) {p : Pid} {b : Fin NBUF} (hst : s.status p = .idle)
    (hb : s.holds p b = true) : (s.buf b).valid = true := by
  by_contra hv
  exact not_filling hst (by simp) (by simp) (h.filled p b hb (by simpa using hv))

/-- A process that is not filling a buffer may go anywhere its new status is right. -/
theorem moveOn (h : Inv s) {p : Pid} {st st' : BioStatus} (hst : s.status p = st)
    (hgot : ∀ b dev sector, st ≠ .got dev sector b)
    (hreading : ∀ b dev sector, st ≠ .reading dev sector b) (hok : s.StatusOk p st') :
    Inv (s.setStatus p st') := by
  apply h.setStatus hok
  intro b hb
  exact absurd hb (not_filling hst (hgot b) (hreading b))

/-- `bget` takes the buffer of the block. -/
theorem found (h : Inv s) {p : Pid} {dev sector : ℕ} {b : Fin NBUF}
    (hst : s.status p = .wanting dev sector) (hb : s.cache.bget dev sector = .found b) :
    Inv (((s.setBuf b { s.buf b with busy := true }).take p b).setStatus p
      (.got dev sector b)) := by
  obtain ⟨hcarry, hfree⟩ : (s.buf b).Carries dev sector ∧ (s.buf b).busy = false :=
    Bcache.bget_found hb
  have hreal : Real dev sector := by simpa [StatusOk, hst] using h.status p
  obtain ⟨rfl, rfl⟩ := hcarry
  have hb' := h.bufs b hreal
  have hfree' := hb'.free hfree
  refine h.stepOn (p := p) (b := b) ?_ ⟨?_, ?_, ?_, ?_, ?_, ?_⟩ ?_ ?_ ?_ ?_ ?_ ?_
  · exact h.linked
  · intro c hc
    simp [Function.update_of_ne hc]
  · intro q c hqc
    rcases eq_or_ne q p with rfl | hq
    · simp [Function.update_of_ne (hqc.resolve_left (by simp))]
    · simp [Function.update_of_ne hq]
  · intro q hq
    exact .inl (by simp [Function.update_of_ne hq])
  · intro d e _ _
    simp
  · exact fun q _ => h.not_holds_of_free hfree q
  · intro c hc hcarry
    exact hc (h.unique b c hreal (by simpa using hcarry))
  · simp
  · simpa using hreal
  · simp only [setStatus_buf, take_buf, setBuf_buf, Function.update_self]
    exact ⟨hb'.dirtyValid, fun hm => ⟨rfl, hfree'.1⟩, hb'.loggedDirty, hb'.clean,
      by simp, hb'.empty⟩
  · intro d e _ hcarry hncarry
    exact absurd hcarry (by simpa [Buf.Carries] using hncarry)
  · simpa [StatusOk, Buf.Carries, contents] using fun _ => hfree'.2
  · intro c hc hv
    by_cases hcb : c = b
    · exact ⟨_, _, .inl (by rw [setStatus_status, Function.update_self, hcb])⟩
    · simp only [setStatus_holds, take_holds, setBuf_holds, Function.update_self,
        Function.update_of_ne hcb, setStatus_buf, take_buf, setBuf_buf] at hc hv
      exact absurd (h.filled p c hc hv) (not_filling hst (by simp) (by simp))

/-- `bget` recycles a buffer that is neither busy nor dirty. -/
theorem recycle (h : Inv s) {p : Pid} {dev sector : ℕ} {b : Fin NBUF}
    (hst : s.status p = .wanting dev sector) (hb : s.cache.bget dev sector = .recycle b) :
    Inv (((s.setBuf b ((s.buf b).recycle dev sector)).take p b).setStatus p
      (.got dev sector b)) := by
  obtain ⟨hnone, hfree, hclean⟩ : (∀ a, ¬ (s.buf a).Carries dev sector) ∧
      (s.buf b).busy = false ∧ (s.buf b).dirty = false := Bcache.bget_recycle h.linked hb
  have hreal : Real dev sector := by simpa [StatusOk, hst] using h.status p
  have hmarks : s.modified b = false ∧ s.logged b = false := by
    by_cases hr : Real (s.buf b).dev (s.buf b).sector
    · have hb' := h.bufs b hr
      constructor
      · by_contra hm
        have hbusy := (hb'.modifiedBusy (by simpa using hm)).1
        rw [hfree] at hbusy
        cases hbusy
      · by_contra hl
        have hdirty := hb'.loggedDirty (by simpa using hl)
        rw [hclean] at hdirty
        cases hdirty
    · exact (h.unused b hr).2.2
  refine h.stepOn (p := p) (b := b) ?_ ⟨?_, ?_, ?_, ?_, ?_, ?_⟩ ?_ ?_ ?_ ?_ ?_ ?_
  · exact h.linked
  · intro c hc
    simp [Function.update_of_ne hc]
  · intro q c hqc
    rcases eq_or_ne q p with rfl | hq
    · simp [Function.update_of_ne (hqc.resolve_left (by simp))]
    · simp [Function.update_of_ne hq]
  · intro q hq
    exact .inl (by simp [Function.update_of_ne hq])
  · intro d e _ _
    simp
  · exact fun q _ => h.not_holds_of_free hfree q
  · intro c _ hcarry
    exact hnone c (by simpa [Buf.recycle] using hcarry)
  · simp [Buf.recycle]
  · simpa [Buf.recycle] using hreal
  · have habsent := h.absent dev sector hreal hnone
    rw [contents] at habsent
    constructor <;> simp [Buf.recycle, hmarks, habsent]
  · -- the block that leaves the cache is on the disk
    intro d e hr hcarry _
    obtain ⟨rfl, rfl⟩ := hcarry
    have hb' := h.bufs b hr
    have hfree' := hb'.free hfree
    rw [contents, ← hfree'.2]
    exact hb'.clean hfree'.1 hclean hmarks.1
  · simp [StatusOk, Buf.Carries, Buf.recycle]
  · intro c hc hv
    by_cases hcb : c = b
    · exact ⟨_, _, .inl (by rw [setStatus_status, Function.update_self, hcb])⟩
    · simp only [setStatus_holds, take_holds, setBuf_holds, Function.update_self,
        Function.update_of_ne hcb, setStatus_buf, take_buf, setBuf_buf] at hc hv
      exact absurd (h.filled p c hc hv) (not_filling hst (by simp) (by simp))

/-- A step of the holder of `b` that leaves the holder and the block of `b` alone. -/
theorem stepHeld (h : Inv s) {p : Pid} {b : Fin NBUF} (hb : s.holds p b = true)
    (hlinked : t.cache.WellLinked)
    (hbuf : ∀ c, c ≠ b → t.buf c = s.buf c ∧ t.modified c = s.modified c ∧ t.logged c = s.logged c)
    (hholds : t.holds = s.holds) (hstatus : ∀ q, q ≠ p → t.status q = s.status q)
    (hlast : t.last = s.last)
    (hdisk : ∀ dev sector, Real dev sector → ¬ (t.buf b).Carries dev sector →
      t.disk (address dev sector) = s.disk (address dev sector))
    (hsame : (t.buf b).Carries (s.buf b).dev (s.buf b).sector ∧ (t.buf b).busy = true)
    (hok : BufOk (t.buf b) (t.modified b) (t.logged b)
      (s.last (s.buf b).dev (s.buf b).sector) (t.disk (address (s.buf b).dev (s.buf b).sector)))
    (hself : t.StatusOk p (t.status p))
    (hfilled : ∀ c, s.holds p c = true → (t.buf c).valid = false → t.Filling p c) : Inv t := by
  have hreal := h.real_of_holds hb
  obtain ⟨⟨hdev, hsector⟩, hbusy⟩ := hsame
  refine h.stepOn (p := p) (b := b) ?_ ⟨?_, ?_, ?_, ?_, ?_, ?_⟩ ?_ ?_ ?_ ?_ ?_ ?_
  · exact hlinked
  · exact hbuf
  · exact fun q c _ => by rw [hholds]
  · exact fun q hq => .inl (hstatus q hq)
  · exact fun dev sector hr hn => ⟨by rw [hlast], hdisk dev sector hr hn⟩
  · exact fun q hq => h.not_holds_of_ne hb hq
  · intro c hc hcarry
    rw [hdev, hsector] at hcarry
    exact hc (h.unique b c hreal hcarry)
  · rw [hbusy, hholds, hb]
  · rwa [hdev, hsector]
  · rwa [hdev, hsector, hlast]
  · intro dev sector _ hcarry hncarry
    exact absurd ⟨hdev.trans hcarry.1, hsector.trans hcarry.2⟩ hncarry
  · exact hself
  · rwa [hholds]

theorem modify (h : Inv s) {p : Pid} {b : Fin NBUF} (data : Block)
    (hst : s.status p = .idle) (hb : s.holds p b = true) : Inv (s.modify b data) := by
  have hb' := h.bufs b (h.real_of_holds hb)
  have hbusy := h.busy_of_holds hb
  have hvalid := h.valid_of_holds hst hb
  apply h.stepHeld hb
  · exact h.linked
  · exact fun c hc => ⟨Function.update_of_ne hc _ _, Function.update_of_ne hc _ _, rfl⟩
  · rfl
  · exact fun q _ => rfl
  · rfl
  · exact fun _ _ _ _ => rfl
  · simp [Buf.Carries, hbusy]
  · rw [modify_buf, Function.update_self]
    exact ⟨hb'.dirtyValid, fun _ => ⟨hbusy, hvalid⟩, hb'.loggedDirty, by simp [Bio.modify],
      by simp [hbusy], hb'.empty⟩
  · simp [Bio.modify, hst, StatusOk]
  · intro c hc hv
    have hvc := h.valid_of_holds hst hc
    rcases eq_or_ne c b with rfl | hcb
    · simp [hvalid] at hv
    · simp [Function.update_of_ne hcb, hvc] at hv

/-- Setting `B_DIRTY` on a held buffer, by `log_write` or at the entry of `bwrite`. -/
theorem setDirty (h : Inv s) {p : Pid} {b : Fin NBUF} (hst : s.status p = .idle)
    (hb : s.holds p b = true)
    (hlinked : t.cache.WellLinked)
    (hbuf : t.buf = Function.update s.buf b { s.buf b with dirty := true })
    (hmarks : ∀ c, c ≠ b → t.modified c = s.modified c ∧ t.logged c = s.logged c)
    (hholds : t.holds = s.holds) (hstatus : ∀ q, q ≠ p → t.status q = s.status q)
    (hlast : t.last = s.last) (hdisk : t.disk = s.disk)
    (hself : t.status p = .idle ∨ t.status p = .writing b) : Inv t := by
  have hbusy := h.busy_of_holds hb
  have hvalid := h.valid_of_holds hst hb
  apply h.stepHeld hb
  · exact hlinked
  · intro c hc
    rw [hbuf]
    exact ⟨Function.update_of_ne hc _ _, hmarks c hc⟩
  · exact hholds
  · exact hstatus
  · exact hlast
  · exact fun _ _ _ _ => by rw [hdisk]
  · simp [hbuf, Buf.Carries, hbusy]
  · simp only [hbuf, Function.update_self]
    exact BufOk.of_dirty (x := { s.buf b with dirty := true }) hbusy hvalid rfl _ _ _ _
  · rcases hself with hidle | hwriting
    · simp [hidle, StatusOk]
    · simp [hwriting, StatusOk, hholds, hb, hbuf]
  · intro c hc hv
    have hvc := h.valid_of_holds hst hc
    rcases eq_or_ne c b with rfl | hcb
    · simp [hbuf, hvalid] at hv
    · simp [hbuf, Function.update_of_ne hcb, hvc] at hv

theorem logWrite (h : Inv s) {p : Pid} {b : Fin NBUF} (hst : s.status p = .idle)
    (hb : s.holds p b = true) : Inv (s.logWrite b) := by
  apply h.setDirty hst hb
  · exact h.linked
  · rfl
  · exact fun c hc => ⟨Function.update_of_ne hc _ _, Function.update_of_ne hc _ _⟩
  · rfl
  · exact fun _ _ => rfl
  · rfl
  · rfl
  · exact .inl hst

theorem bwrite (h : Inv s) {p : Pid} {b : Fin NBUF} (hst : s.status p = .idle)
    (hb : s.holds p b = true) : Inv (s.bwrite p b) := by
  have hbusy := h.busy_of_holds hb
  rw [Bio.bwrite, hbusy]
  simp only [Bool.not_true, Bool.false_eq_true, if_false, iderw]
  split
  · apply h.setDirty hst hb
    · exact h.linked
    · rfl
    · exact fun c hc => ⟨rfl, rfl⟩
    · rfl
    · exact fun _ _ => rfl
    · rfl
    · rfl
    · exact .inl hst
  · apply h.setDirty hst hb
    · exact h.linked
    · rfl
    · exact fun c hc => ⟨rfl, rfl⟩
    · rfl
    · exact fun q hq => Function.update_of_ne hq _ _
    · rfl
    · rfl
    · exact .inr (by simp)

/-- The read request of `bread`. -/
theorem read (h : Inv s) {p : Pid} {dev sector : ℕ} {b : Fin NBUF}
    (hst : s.status p = .reading dev sector b) :
    Inv ((s.request b).setStatus p (.returning dev sector b)) := by
  have hok := h.status p
  rw [hst] at hok
  obtain ⟨hb, ⟨rfl, rfl⟩, hvalid⟩ := hok
  have hreal := h.real_of_holds hb
  have hbusy := h.busy_of_holds hb
  have hb' := h.bufs b hreal
  have hdirty : (s.buf b).dirty = false := by
    by_contra hd
    rw [hb'.dirtyValid (by simpa using hd)] at hvalid
    cases hvalid
  have hmod : s.modified b = false := by
    by_contra hm
    rw [(hb'.modifiedBusy (by simpa using hm)).2] at hvalid
    cases hvalid
  have hlog : s.logged b = false := by
    by_contra hl
    rw [hb'.loggedDirty (by simpa using hl)] at hdirty
    cases hdirty
  rw [show s.request b = s.filled b by simp [request, hdirty]]
  apply h.stepHeld hb
  · exact h.linked
  · exact fun c hc => ⟨Function.update_of_ne hc _ _, rfl, rfl⟩
  · rfl
  · exact fun q hq => Function.update_of_ne hq _ _
  · rfl
  · exact fun _ _ _ _ => rfl
  · simp [Buf.Carries, hbusy]
  · constructor <;> simp [hbusy, hmod, hlog]
  · simp [StatusOk, hb, Buf.Carries, contents, hb'.empty hvalid]
  · intro c hc hv
    rcases eq_or_ne c b with rfl | hcb
    · simp at hv
    · simp only [setStatus_buf, filled_buf, Function.update_of_ne hcb] at hv
      refine absurd (h.filled p c hc hv) (not_filling hst (by simp) fun d e heq => hcb ?_)
      simp only [BioStatus.reading.injEq] at heq
      exact heq.2.2.symm

/-- The write request of `bwrite`. -/
theorem write (h : Inv s) {p : Pid} {b : Fin NBUF} (hst : s.status p = .writing b) :
    Inv ((s.request b).setStatus p .idle) := by
  have hok := h.status p
  rw [hst] at hok
  obtain ⟨hb, hdirty⟩ := hok
  have hreal := h.real_of_holds hb
  have hbusy := h.busy_of_holds hb
  rw [show s.request b = s.written b by simp [request, hdirty]]
  apply h.stepHeld hb
  · exact h.linked
  · exact fun c hc => ⟨Function.update_of_ne hc _ _, Function.update_of_ne hc _ _,
      Function.update_of_ne hc _ _⟩
  · rfl
  · exact fun q hq => Function.update_of_ne hq _ _
  · rfl
  · -- different blocks of the two disks have different addresses
    intro dev sector hr hn
    apply Function.update_of_ne
    rw [address_of_real hr, address_of_real hreal]
    rintro heq
    simp only [Prod.mk.injEq] at heq
    simp only [setStatus_buf, written_buf, Function.update_self] at hn
    exact hn ⟨heq.1.symm, heq.2.symm⟩
  · simp [Buf.Carries, hbusy]
  · constructor <;> simp [hbusy]
  · simp [StatusOk]
  · intro c hc hv
    rcases eq_or_ne c b with rfl | hcb
    · simp at hv
    · simp only [setStatus_buf, written_buf, Function.update_of_ne hcb] at hv
      exact absurd (h.filled p c hc hv) (not_filling hst (by simp) (by simp))

theorem wakeup_cases (status : Pid → BioStatus) (b : Fin NBUF) (q : Pid) :
    wakeup status b q = status q ∨
      ∃ dev sector, status q = .sleeping dev sector b ∧ wakeup status b q = .wanting dev sector := by
  unfold wakeup
  cases status q with
  | sleeping dev sector c =>
      by_cases hc : c = b
      · exact .inr ⟨dev, sector, by rw [hc], by simp [hc]⟩
      · exact .inl (by simp [hc])
  | _ => exact .inl rfl

/-- What the last holder left is what is in the buffer. -/
theorem brelse (h : Inv s) {p : Pid} {b : Fin NBUF} (hst : s.status p = .idle)
    (hb : s.holds p b = true) (hmod : s.modified b = false) : Inv (s.brelse p b) := by
  have hreal := h.real_of_holds hb
  have hbusy := h.busy_of_holds hb
  have hvalid := h.valid_of_holds hst hb
  have hb' := h.bufs b hreal
  rw [Bio.brelse, hbusy]
  simp only [Bool.not_true, Bool.false_eq_true, if_false]
  refine h.stepOn (p := p) (b := b) ?_ ⟨?_, ?_, ?_, ?_, ?_, ?_⟩ ?_ ?_ ?_ ?_ ?_ ?_
  · exact h.linked.moveFront b
  · exact fun c hc => ⟨Function.update_of_ne hc _ _, rfl, rfl⟩
  · intro q c hqc
    rcases eq_or_ne q p with rfl | hq
    · simp [Function.update_of_ne (hqc.resolve_left (by simp))]
    · simp [Function.update_of_ne hq]
  · exact fun q _ => wakeup_cases s.status b q
  · intro dev sector _ hn
    simp only [released_buf, Function.update_self, Buf.Carries] at hn
    refine ⟨?_, rfl⟩
    rw [released_last]
    rcases eq_or_ne dev (s.buf b).dev with rfl | hdev
    · rw [Function.update_self, Function.update_of_ne fun heq => hn ⟨rfl, heq.symm⟩]
    · rw [Function.update_of_ne hdev]
  · exact fun q hq => h.not_holds_of_ne hb hq
  · intro c hc hcarry
    exact hc (h.unique b c hreal (by simpa using hcarry))
  · simp
  · simpa using hreal
  · have hmod' : (s.released p b).modified b = false := hmod
    have hlog : (s.released p b).logged b = s.logged b := rfl
    constructor
    · simpa using hb'.dirtyValid
    · simp [hmod']
    · simpa [hlog] using hb'.loggedDirty
    · simpa [hmod', hmod] using hb'.clean
    · simp [hvalid]
    · simp [hvalid]
  · intro dev sector _ hcarry hn
    exact absurd hcarry (by simpa [Buf.Carries] using hn)
  · have hidle : wakeup s.status b p = .idle := by
      rcases wakeup_cases s.status b p with heq | ⟨dev, sector, hsleep, -⟩
      · rw [heq, hst]
      · rw [hst] at hsleep
        cases hsleep
    simp [StatusOk, hidle]
  · intro c hc hv
    rcases eq_or_ne c b with rfl | hcb
    · simp at hc
    · simp only [released_holds, Function.update_self, Function.update_of_ne hcb,
        released_buf] at hc hv
      rw [h.valid_of_holds hst hc] at hv
      cases hv

/-- A panic stops the run and changes nothing. -/
theorem panic (h : Inv s) (e : Panic) : Inv (s.panic e) :=
  ⟨h.linked, h.alone, h.busy, h.unique, h.bufs, h.unused, h.absent, h.status, h.filled⟩

theorem bget (h : Inv s) {p : Pid} {dev sector : ℕ}
    (hst : s.status p = .wanting dev sector) : Inv (s.bget p dev sector) := by
  unfold Bio.bget
  cases hb : s.cache.bget dev sector with
  | wait b =>
      have hreal : Real dev sector := by simpa [StatusOk, hst] using h.status p
      exact h.moveOn hst (by simp) (by simp) hreal
  | found b => exact h.found hst hb
  | recycle b => exact h.recycle hst hb
  | noBuffers => exact h.panic _

theorem check (h : Inv s) {p : Pid} {dev sector : ℕ} {b : Fin NBUF}
    (hst : s.status p = .got dev sector b) : Inv (s.bread p dev sector b) := by
  have hok := h.status p
  rw [hst] at hok
  obtain ⟨hb, hcarry, hdata⟩ := hok
  have hother : ∀ c, s.Filling p c → c = b := by
    rintro c ⟨d, e, hc | hc⟩
    · rw [hst] at hc
      cases hc
      rfl
    · rw [hst] at hc
      cases hc
  unfold Bio.bread
  cases hv : (s.buf b).valid with
  | true =>
      simp only [Bool.not_true, Bool.false_eq_true, if_false]
      apply h.setStatus
      · exact ⟨hb, hcarry, hv, hdata hv⟩
      · intro c hc hvc
        rw [hother c hc, hv] at hvc
        cases hvc
  | false =>
      simp only [Bool.not_false, if_true, iderw]
      split
      · exact h.panic _
      · apply h.setStatus
        · exact ⟨hb, hcarry, hv⟩
        · intro c hc _
          rw [hother c hc]
          exact ⟨dev, sector, .inr (by simp)⟩

/-- Each step keeps the invariant. -/
theorem step (h : Inv s) {l : Label} (hl : Bio.step s l = some t) : Inv t := by
  cases l with
  | bread p dev sector =>
      obtain ⟨hst, hreal, rfl⟩ := step_bread hl
      exact h.moveOn hst (by simp) (by simp) hreal
  | bget p =>
      obtain ⟨dev, sector, hst, rfl⟩ := step_bget hl
      exact h.bget hst
  | check p =>
      obtain ⟨dev, sector, b, hst, rfl⟩ := step_check hl
      exact h.check hst
  | request p =>
      obtain ⟨dev, sector, b, hst, rfl⟩ | ⟨b, hst, rfl⟩ := step_request hl
      · exact h.read hst
      · exact h.write hst
  | ret p =>
      obtain ⟨dev, sector, b, hst, rfl⟩ := step_ret hl
      exact h.moveOn hst (by simp) (by simp) trivial
  | modify p b data =>
      obtain ⟨hst, hb, rfl⟩ := step_modify hl
      exact h.modify data hst hb
  | logWrite p b =>
      obtain ⟨hst, hb, rfl⟩ := step_logWrite hl
      exact h.logWrite hst hb
  | bwrite p b =>
      obtain ⟨hst, hb, rfl⟩ := step_bwrite hl
      exact h.bwrite hst hb
  | brelse p b =>
      obtain ⟨hst, hb, hmod, rfl⟩ := step_brelse hl
      exact h.brelse hst hb hmod
  | wake p =>
      obtain ⟨dev, sector, b, hst, rfl⟩ := step_wake hl
      have hreal : Real dev sector := by simpa [StatusOk, hst] using h.status p
      exact h.moveOn hst (by simp) (by simp) hreal

end Inv

theorem inv_run {havedisk1 : Bool} {disk : Ide.Disk} {ls : List Label} {s : Bio}
    (hrun : run step (init havedisk1 disk) ls = some s) : Inv s :=
  run_invariant Inv (fun _ _ _ h hl => h.step hl) (inv_init havedisk1 disk) hrun

/-! ### Recycling -/

/-- A step gives a buffer to another block only when the buffer is neither busy nor
dirty. -/
theorem carries_of_step {s t : Bio} (h : Inv s) {l : Label} (hl : step s l = some t)
    {b : Fin NBUF} (hb : (s.buf b).recyclable = false) :
    (t.buf b).Carries (s.buf b).dev (s.buf b).sector := by
  have hsame : ∀ {c : Fin NBUF} {x : Buf}, x.Carries (s.buf c).dev (s.buf c).sector →
      ((Function.update s.buf c x) b).Carries (s.buf b).dev (s.buf b).sector := by
    intro c x hx
    rcases eq_or_ne b c with rfl | hne
    · simpa using hx
    · simp [Function.update_of_ne hne, Buf.Carries]
  cases l with
  | bread p dev sector =>
      obtain ⟨-, -, rfl⟩ := step_bread hl
      exact ⟨rfl, rfl⟩
  | bget p =>
      obtain ⟨dev, sector, -, rfl⟩ := step_bget hl
      unfold Bio.bget
      cases hget : s.cache.bget dev sector with
      | wait c => exact ⟨rfl, rfl⟩
      | found c => exact hsame ⟨rfl, rfl⟩
      | recycle c =>
          obtain ⟨-, hbusy, hdirty⟩ : (∀ a, ¬ (s.buf a).Carries dev sector) ∧
            (s.buf c).busy = false ∧ (s.buf c).dirty = false := Bcache.bget_recycle h.linked hget
          have hne : b ≠ c := by
            rintro rfl
            simp [Buf.recyclable, hbusy, hdirty] at hb
          simp [Function.update_of_ne hne, Buf.Carries]
      | noBuffers => exact ⟨rfl, rfl⟩
  | check p =>
      obtain ⟨dev, sector, c, -, rfl⟩ := step_check hl
      unfold Bio.bread iderw
      split
      · split <;> exact ⟨rfl, rfl⟩
      · exact ⟨rfl, rfl⟩
  | request p =>
      obtain ⟨dev, sector, c, -, rfl⟩ | ⟨c, -, rfl⟩ := step_request hl
      all_goals
        unfold request
        split
        · exact hsame ⟨rfl, rfl⟩
        · exact hsame ⟨rfl, rfl⟩
  | ret p =>
      obtain ⟨dev, sector, c, -, rfl⟩ := step_ret hl
      exact ⟨rfl, rfl⟩
  | modify p c data =>
      obtain ⟨-, -, rfl⟩ := step_modify hl
      exact hsame ⟨rfl, rfl⟩
  | logWrite p c =>
      obtain ⟨-, -, rfl⟩ := step_logWrite hl
      exact hsame ⟨rfl, rfl⟩
  | bwrite p c =>
      obtain ⟨-, -, rfl⟩ := step_bwrite hl
      unfold Bio.bwrite iderw
      split
      · exact ⟨rfl, rfl⟩
      · split <;> exact hsame ⟨rfl, rfl⟩
  | brelse p c =>
      obtain ⟨-, -, -, rfl⟩ := step_brelse hl
      unfold Bio.brelse
      split
      · exact ⟨rfl, rfl⟩
      · exact hsame ⟨rfl, rfl⟩
  | wake p =>
      obtain ⟨dev, sector, c, -, rfl⟩ := step_wake hl
      exact ⟨rfl, rfl⟩

theorem Inv.logged_dirty {s : Bio} (h : Inv s) {b : Fin NBUF} (hb : s.logged b = true) :
    (s.buf b).dirty = true := by
  by_cases hr : Real (s.buf b).dev (s.buf b).sector
  · exact (h.bufs b hr).loggedDirty hb
  · rw [(h.unused b hr).2.2.2] at hb
    cases hb

/-- Uniqueness and coherence of the buffer cache. In every state that any
interleaving reaches: a block of a real device is in one buffer; a buffer has one
holder, and is busy while it has one; the list from the head is circular, doubly
linked, and a permutation of the buffers; a buffer that was passed to `log_write`
and not yet written home keeps its block; and a `bread` that returns does so with a
buffer of the block that it was asked for, held by its caller alone, with what the
last holder left there, or with the contents of the disk if there was none. In the
kernel only `install_trans` writes a logged buffer, after the commit record, so what
has been written home is committed, and what is not committed is never recycled. -/
theorem coherent {havedisk1 : Bool} {disk : Ide.Disk} {ls : List Label} {s : Bio}
    (h : run step (init havedisk1 disk) ls = some s) :
    (∀ dev sector b c, Real dev sector → (s.buf b).Carries dev sector →
      (s.buf c).Carries dev sector → b = c) ∧
    (∀ b p q, s.holds p b = true → s.holds q b = true → p = q) ∧
    (∀ b, (s.buf b).busy = true ↔ ∃ p, s.holds p b = true) ∧
    (∃ l, s.cache.links.Ring l ∧ l.Perm (List.finRange NBUF)) ∧
    (∀ b, s.logged b = true → ∀ l t, step s l = some t →
      (t.buf b).Carries (s.buf b).dev (s.buf b).sector) ∧
    (∀ p dev sector b, s.status p = .returning dev sector b →
      s.holds p b = true ∧ (s.buf b).Carries dev sector ∧
        (s.buf b).data = (s.last dev sector).getD (s.disk (dev, sector))) := by
  have hinv := inv_run h
  refine ⟨?_, fun b p q => hinv.alone p q b, hinv.busy, ?_, ?_, ?_⟩
  · rintro dev sector b c hr ⟨rfl, rfl⟩ hc
    exact (hinv.unique b c hr hc).symm
  · obtain ⟨l, hl, hall⟩ := hinv.linked
    refine ⟨l, hl, (List.perm_ext_iff_of_nodup hl.nodup (List.nodup_finRange NBUF)).mpr ?_⟩
    intro b
    simp [hall b]
  · intro b hb l t hl
    apply carries_of_step hinv hl
    simp [Buf.recyclable, hinv.logged_dirty hb]
  · intro p dev sector b hst
    have hok := hinv.status p
    rw [hst] at hok
    obtain ⟨hb, hcarry, -, hdata⟩ := hok
    have hr : Real dev sector := by
      have hr := hinv.real_of_holds hb
      rwa [hcarry.1, hcarry.2] at hr
    rw [contents, address_of_real hr] at hdata
    exact ⟨hb, hcarry, hdata⟩

/-- Two processes use one block: the second one sleeps, wakes, and gets what the first
one logged. -/
def handOver : List Label :=
  [.bread 0 1 7, .bget 0, .check 0, .request 0, .ret 0, .bread 1 1 7, .bget 1,
    .modify 0 0 (Block.zero.setWord 0 5), .logWrite 0 0, .brelse 0 0, .bget 1, .check 1]

theorem coherent_handOver :
    ∃ s, run step (init true fun _ => Block.zero) handOver = some s ∧
      s.status 1 = .returning 1 7 0 ∧
      (s.buf 0).data = (s.last 1 7).getD (s.disk (1, 7)) := by
  have hrun : (run step (init true fun _ => Block.zero) handOver).map
      (fun s => s.status 1) = some (.returning 1 7 0) := by decide +kernel
  obtain ⟨s, hs, hst⟩ := Option.map_eq_some_iff.mp hrun
  exact ⟨s, hs, hst, ((coherent hs).2.2.2.2.2 1 1 7 0 hst).2.2⟩

end Bio

end Xv6
