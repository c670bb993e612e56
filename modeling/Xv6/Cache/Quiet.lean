import Xv6.Cache.Coherence

/-!
# Steps that change no contents

`bread`, `brelse` and the steps inside them change which buffers are busy, give free
clean buffers to other blocks, and read blocks from the disk. `Quiet` says so once
for all of them: it is the frame that the coupling of the cache with the log needs.
-/

namespace Xv6

/-- The same block with the same contents and the same `B_VALID` and `B_DIRTY`. -/
structure Buf.Same (x y : Buf) : Prop where
  carries : y.Carries x.dev x.sector
  valid : y.valid = x.valid
  dirty : y.dirty = x.dirty
  data : y.data = x.data

theorem Buf.Same.refl (x : Buf) : x.Same x := ⟨⟨rfl, rfl⟩, rfl, rfl, rfl⟩

namespace Bio

open Foundation Ide

/-- The buffer was free and clean, and is now an empty buffer of the block that some
process is looking for. -/
structure Recycled (x y : Buf) (status : Pid → BioStatus) : Prop where
  free : x.busy = false
  clean : x.dirty = false
  empty : y.valid = false
  clean' : y.dirty = false
  wanted : ∃ p dev sector, status p = .wanting dev sector ∧ y.Carries dev sector

/-- The buffer was empty and has been read from the disk. -/
structure Filled (x y : Buf) (disk : Ide.Disk) : Prop where
  carries : y.Carries x.dev x.sector
  empty : x.valid = false
  clean : x.dirty = false
  valid : y.valid = true
  clean' : y.dirty = false
  data : y.data = disk (address x.dev x.sector)

/-- What a process can become by steps of others. -/
def Woken (st st' : BioStatus) : Prop :=
  st' = st ∨ ∃ dev sector b, st = .sleeping dev sector b ∧ st' = .wanting dev sector

/-- A step of `q` that changes no contents. -/
structure Quiet (q : Pid) (s t : Bio) : Prop where
  disk : t.disk = s.disk
  havedisk1 : t.havedisk1 = s.havedisk1
  modified : t.modified = s.modified
  buf : ∀ b, (s.buf b).Same (t.buf b) ∨ Recycled (s.buf b) (t.buf b) s.status ∨
    Filled (s.buf b) (t.buf b) s.disk
  holds : ∀ p, p ≠ q → t.holds p = s.holds p
  keeps : ∀ b, s.holds q b = true → s.modified b = true → t.holds q b = true
  status : ∀ p, p ≠ q → Woken (s.status p) (t.status p)

section Steps

variable {s t : Bio} {q : Pid}

/-- A step that only moves a process along. -/
theorem quiet_setStatus (s : Bio) (q : Pid) (st : BioStatus) : Quiet q s (s.setStatus q st) where
  disk := rfl
  havedisk1 := rfl
  modified := rfl
  buf := fun _ => .inl (Buf.Same.refl _)
  holds := fun _ _ => rfl
  keeps := fun _ h _ => h
  status := fun _ hp => .inl (Function.update_of_ne hp _ _)

theorem quiet_panic (s : Bio) (q : Pid) (e : Panic) : Quiet q s (s.panic e) where
  disk := rfl
  havedisk1 := rfl
  modified := rfl
  buf := fun _ => .inl (Buf.Same.refl _)
  holds := fun _ _ => rfl
  keeps := fun _ h _ => h
  status := fun _ _ => .inl rfl

/-- One buffer goes to a process. -/
theorem quiet_take {b : Fin NBUF} {x : Buf} {st : BioStatus}
    (hx : (s.buf b).Same x ∨ Recycled (s.buf b) x s.status) :
    Quiet q s (((s.setBuf b x).take q b).setStatus q st) where
  disk := rfl
  havedisk1 := rfl
  modified := rfl
  buf := by
    intro c
    rcases eq_or_ne c b with rfl | hc
    · simpa using hx.imp_right .inl
    · exact .inl (by simpa [Function.update_of_ne hc] using Buf.Same.refl _)
  holds := fun p hp => by simp [Function.update_of_ne hp]
  keeps := by
    intro c hc _
    rcases eq_or_ne c b with rfl | hcb
    · simp
    · simpa [Function.update_of_ne hcb] using hc
  status := fun p hp => .inl (by simp [Function.update_of_ne hp])

theorem quiet_bget (h : Inv s) {dev sector : ℕ} (hst : s.status q = .wanting dev sector) :
    Quiet q s (s.bget q dev sector) := by
  unfold Bio.bget
  cases hb : s.cache.bget dev sector with
  | wait b => exact quiet_setStatus s q _
  | found b => exact quiet_take (.inl ⟨⟨rfl, rfl⟩, rfl, rfl, rfl⟩)
  | recycle b =>
      obtain ⟨-, hfree, hclean⟩ := Bcache.bget_recycle h.linked hb
      exact quiet_take (.inr ⟨hfree, hclean, rfl, rfl, q, dev, sector, hst, rfl, rfl⟩)
  | noBuffers => exact quiet_panic s q _

theorem quiet_bread {dev sector : ℕ} {b : Fin NBUF} : Quiet q s (s.bread q dev sector b) := by
  unfold Bio.bread iderw
  split
  · split
    · exact quiet_panic s q _
    · exact quiet_setStatus s q _
  · exact quiet_setStatus s q _

theorem Inv.clean_of_empty (h : Inv s) {b : Fin NBUF}
    (hr : Real (s.buf b).dev (s.buf b).sector) (hv : (s.buf b).valid = false) :
    (s.buf b).dirty = false := by
  by_contra hd
  rw [(h.bufs b hr).dirtyValid (by simpa using hd)] at hv
  cases hv

theorem quiet_read (h : Inv s) {dev sector : ℕ} {b : Fin NBUF} {st : BioStatus}
    (hst : s.status q = .reading dev sector b) :
    Quiet q s ((s.request b).setStatus q st) := by
  have hok := h.status q
  rw [hst] at hok
  obtain ⟨hb, -, hempty⟩ := hok
  have hclean := h.clean_of_empty (h.real_of_holds hb) hempty
  have hreq : s.request b = s.filled b := by simp [request, hclean]
  rw [hreq]
  constructor
  · rfl
  · rfl
  · rfl
  · intro c
    rcases eq_or_ne c b with rfl | hc
    · exact .inr (.inr ⟨by simp [Buf.Carries], hempty, hclean, by simp, by simp, by simp⟩)
    · exact .inl (by simpa [Function.update_of_ne hc] using Buf.Same.refl _)
  · exact fun _ _ => rfl
  · exact fun _ hc _ => hc
  · exact fun p hp => .inl (Function.update_of_ne hp _ _)

theorem quiet_brelse {b : Fin NBUF} (hmod : s.modified b = false) :
    Quiet q s (s.brelse q b) := by
  unfold Bio.brelse
  split
  · exact quiet_panic s q _
  · constructor
    · rfl
    · rfl
    · rfl
    · intro c
      rcases eq_or_ne c b with rfl | hc
      · exact .inl (by simpa using ⟨⟨rfl, rfl⟩, rfl, rfl, rfl⟩)
      · exact .inl (by simpa [Function.update_of_ne hc] using Buf.Same.refl _)
    · exact fun p hp => Function.update_of_ne hp _ _
    · intro c hc hm
      have hcb : c ≠ b := by
        rintro rfl
        rw [hmod] at hm
        cases hm
      simpa [Function.update_of_ne hcb] using hc
    · intro p _
      rcases Inv.wakeup_cases s.status b p with heq | ⟨dev, sector, hs, ht⟩
      · exact .inl heq
      · exact .inr ⟨dev, sector, b, hs, ht⟩

end Steps

namespace Quiet

variable {s t : Bio} {q : Pid}

/-- A dirty or modified buffer is as before. -/
theorem same_of_pinned (hq : Quiet q s t) (h : Inv s) {b : Fin NBUF}
    (hb : (s.buf b).dirty = true ∨ s.modified b = true) : (s.buf b).Same (t.buf b) := by
  have hr : Real (s.buf b).dev (s.buf b).sector := by
    by_contra hr
    obtain ⟨-, hd, hm, -⟩ := h.unused b hr
    simp [hd, hm] at hb
  rcases hq.buf b with hsame | hrec | hfill
  · exact hsame
  · rcases hb with hd | hm
    · rw [hrec.clean] at hd
      cases hd
    · have hbusy := ((h.bufs b hr).modifiedBusy hm).1
      rw [hrec.free] at hbusy
      cases hbusy
  · rcases hb with hd | hm
    · rw [hfill.clean] at hd
      cases hd
    · have hvalid := ((h.bufs b hr).modifiedBusy hm).2
      rw [hfill.empty] at hvalid
      cases hvalid

/-- A held buffer with data is as before. -/
theorem same_of_holds (hq : Quiet q s t) (h : Inv s) {p : Pid} {b : Fin NBUF}
    (hb : s.holds p b = true) (hv : (s.buf b).valid = true) : (s.buf b).Same (t.buf b) := by
  rcases hq.buf b with hsame | hrec | hfill
  · exact hsame
  · have hbusy := h.busy_of_holds hb
    rw [hrec.free] at hbusy
    cases hbusy
  · rw [hfill.empty] at hv
    cases hv

/-- No buffer becomes dirty. -/
theorem same_of_dirty' (hq : Quiet q s t) {b : Fin NBUF} (hb : (t.buf b).dirty = true) :
    (s.buf b).Same (t.buf b) := by
  rcases hq.buf b with hsame | hrec | hfill
  · exact hsame
  · rw [hrec.clean'] at hb
    cases hb
  · rw [hfill.clean'] at hb
    cases hb

end Quiet

end Bio

end Xv6
