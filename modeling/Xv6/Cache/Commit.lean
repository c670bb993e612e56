import Xv6.Cache.Stage

/-!
# The proof outline of `commit()`

One rule for each kind of call, then the loops of `write_log` and `install_trans`,
`write_head`, and `commit()` as a whole: it keeps what is guaranteed while it runs,
and at its end no buffer is dirty.
-/

namespace Xv6

namespace LogCache

open Foundation Ide Bio Program

/-- The commit of `p` keeps its guarantees and ends in `Q`. -/
abbrev commits (start size : ℕ) (p : Pid) (Q : PUnit → LogCache → Prop)
    (prog : LogProgram (Fin NBUF) PUnit) (m : LogCache) : Prop :=
  wpi (rely p) (reply p) (guar start size p) Q prog m

section Rules

variable {start size : ℕ} {p : Pid} {N : ℕ → Block} {L pending : List ℕ} {copied : ℕ}
  {changing : Option (Fin NBUF)} {held : List (Fin NBUF × ℕ)} {m : LogCache}
  {Q : PUnit → LogCache → Prop}

/-- The rule for a call that is executed at once. -/
theorem commits_atomic {o : LogOp (Fin NBUF)} {k : o.Resp → LogProgram (Fin NBUF) PUnit}
    (h : Stage start size p N L pending copied changing held m)
    (hst : m.bio.status p = .idle) (hbusy : ∀ st, Busy o st ↔ st = .idle)
    (hguar : ∀ m, Inv start size m → guar start size p o m)
    (hk : ∀ m r m', Stage start size p N L pending copied changing held m →
      m.bio.status p = .idle → m.complete p o = some (r, m') →
      commits start size p Q (k r) m') :
    commits start size p Q (.call o k) m := by
  apply wpi_call fun m => Stage start size p N L pending copied changing held m ∧
    m.bio.status p = .idle
  · exact ⟨h, hst⟩
  · rintro s t ⟨hs, hidle⟩ hr
    obtain ⟨hi, hinv, hb⟩ := rely_interfered hs.inv hs.commits ((hbusy _).mpr hidle) hr
    exact ⟨hs.interfered hi hinv, (hbusy _).mp hb⟩
  · exact fun s hs => hguar s hs.1.inv
  · exact fun s r t hs hr => hk s r t hs.1 hs.2 hr

theorem commits_bread {x : ℕ} {k : Fin NBUF → LogProgram (Fin NBUF) PUnit}
    (h : Stage start size p N L pending copied changing held m)
    (hst : m.bio.status p = .idle) (hx : x ∈ L → x ∈ pending)
    (hk : ∀ b m', Stage start size p N L pending copied changing ((b, x) :: held) m' →
      m'.bio.status p = .idle → commits start size p Q (k b) m') :
    commits start size p Q (.call (.bread x) k) m := by
  apply wpi_call fun m => Stage start size p N L pending copied changing held m ∧
    Busy (.bread x) (m.bio.status p)
  · exact ⟨h, .inl hst⟩
  · rintro s t ⟨hs, hb⟩ hr
    obtain ⟨hi, hinv, hb'⟩ := rely_interfered hs.inv hs.commits hb hr
    exact ⟨hs.interfered hi hinv, hb'⟩
  · rintro s ⟨hs, hb⟩
    have hinv := hs.inv
    refine ⟨hinv, fun hxl => ⟨?_, ?_⟩⟩
    · -- the buffer of a pending sector has data
      intro dev sector b hread
      have hok := hinv.bio.status p
      rw [hread] at hok hb
      obtain ⟨hhold, hcarry, hempty⟩ := hok
      obtain ⟨rfl, rfl⟩ : dev = ROOTDEV ∧ sector = x := hb.resolve_left (by simp)
      obtain ⟨c, hc, hd⟩ := hs.pinned sector (hx (hs.lh ▸ hxl))
      have hr := hinv.bio.real_of_holds hhold
      obtain rfl := hinv.eq_of_carries hr hcarry hc
      rw [(hinv.bio.bufs c hr).dirtyValid hd] at hempty
      cases hempty
    · intro dev sector b hret
      have hok := hinv.bio.status p
      rw [hret] at hok hb
      obtain ⟨hhold, hcarry, hvalid, -⟩ := hok
      obtain ⟨rfl, rfl⟩ : dev = ROOTDEV ∧ sector = x := hb.resolve_left (by simp)
      have hsector : s.sector b = sector := hcarry.2
      rw [← hsector]
      apply hinv.newest b (hinv.bio.real_of_holds hhold) hvalid
      rw [hsector]
      exact hinv.outside sector hxl
  · rintro s b t ⟨hs, hb⟩ hr
    simp only [reply, complete] at hr
    split at hr
    · rename_i dev sector c hret
      simp only [Option.map_eq_some_iff, Prod.mk.injEq] at hr
      obtain ⟨bio, hbio, rfl, rfl⟩ := hr
      have hok := hs.inv.bio.status p
      rw [hret] at hok hb
      obtain ⟨hhold, hcarry, hvalid, -⟩ := hok
      obtain ⟨rfl, rfl⟩ : dev = ROOTDEV ∧ sector = x := hb.resolve_left (by simp)
      have hbinv := hs.inv.bio.step hbio
      obtain ⟨-, -, -, -, rfl⟩ := step_ret hbio
      have hidle : (s.bio.setStatus p .idle).status p = .idle := by simp
      have hinv : Inv start size (s.setBio (s.bio.setStatus p .idle)) :=
        hs.inv.quiet hbinv (quiet_setStatus _ _ _) (by simp [OnDevice, InBread]) (by simp)
      refine hk c _ ⟨hinv, hs.commits, hs.newest, hs.lh, hs.pinned, ?_, hs.logged,
        hs.unchanged, ?_⟩ hidle
      · intro b' hb'
        exact .inl ((hs.dirty b' hb').resolve_right (by simp [hret]))
      · intro g hg
        rcases List.mem_cons.mp hg with rfl | hg
        · exact ⟨hhold, hcarry, hvalid⟩
        · exact hs.holding g hg
    · cases hr

theorem commits_getData {b : Fin NBUF} {k : Block → LogProgram (Fin NBUF) PUnit}
    (h : Stage start size p N L pending copied changing held m)
    (hst : m.bio.status p = .idle)
    (hk : ∀ m', Stage start size p N L pending copied changing held m' →
      m'.bio.status p = .idle → commits start size p Q (k (m'.bio.buf b).data) m') :
    commits start size p Q (.call (.getData b) k) m := by
  refine commits_atomic h hst (fun _ => Iff.rfl) (fun m hm => ⟨hm, trivial⟩) ?_
  intro m r m' hs hidle hr
  simp only [complete, Option.some.injEq, Prod.mk.injEq] at hr
  obtain ⟨rfl, rfl⟩ := hr
  exact hk m hs hidle

theorem commits_getLh {k : LogHeader → LogProgram (Fin NBUF) PUnit}
    (h : Stage start size p N L pending copied changing held m)
    (hst : m.bio.status p = .idle)
    (hk : ∀ m' lh, Stage start size p N L pending copied changing held m' →
      m'.bio.status p = .idle → lh.sector = L → commits start size p Q (k lh) m') :
    commits start size p Q (.call .getLh k) m := by
  refine commits_atomic h hst (fun _ => Iff.rfl) (fun m hm => ⟨hm, trivial⟩) ?_
  intro m r m' hs hidle hr
  simp only [complete, Option.some.injEq, Prod.mk.injEq] at hr
  obtain ⟨rfl, rfl⟩ := hr
  exact hk m _ hs hidle hs.lh

theorem commits_setLh {k : PUnit → LogProgram (Fin NBUF) PUnit}
    (h : Stage start size p N L [] copied changing held m)
    (hst : m.bio.status p = .idle)
    (hk : ∀ m', Stage start size p N [] [] 0 changing held m' →
      m'.bio.status p = .idle → commits start size p Q (k ⟨⟩) m') :
    commits start size p Q (.call (.setLh LogHeader.empty) k) m := by
  refine commits_atomic h hst (fun _ => Iff.rfl) (fun m hm => ⟨hm, trivial⟩) ?_
  intro m r m' hs hidle hr
  simp only [complete, Option.some.injEq, Prod.mk.injEq] at hr
  obtain ⟨-, rfl⟩ := hr
  refine hk _ ⟨hs.inv.setLh hs.commits, hs.commits, hs.newest, rfl, hs.pinned, hs.dirty,
    ?_, hs.unchanged, hs.holding⟩ hidle
  intro i x hi
  omega

theorem commits_setData {b : Fin NBUF} {x : ℕ} {data : Block}
    {k : PUnit → LogProgram (Fin NBUF) PUnit}
    (h : Stage start size p N L pending copied none held m)
    (hst : m.bio.status p = .idle) (hb : (b, x) ∈ held)
    (hdata : ¬ InLog start size x → data = N x)
    (hk : ∀ m', Stage start size p N L pending copied (some b) held m' →
      m'.bio.status p = .idle → (m'.bio.buf b).data = data →
      commits start size p Q (k ⟨⟩) m') :
    commits start size p Q (.call (.setData b data) k) m := by
  refine commits_atomic h hst (fun _ => Iff.rfl) (fun m hm => ⟨hm, trivial⟩) ?_
  intro m r m' hs hidle hr
  simp only [complete, Option.map_eq_some_iff, Prod.mk.injEq] at hr
  obtain ⟨bio, hbio, -, rfl⟩ := hr
  obtain ⟨-, hhold, rfl⟩ := step_modify hbio
  obtain ⟨-, hcarry, -⟩ := hs.holding _ hb
  have hinv : Inv start size (m.setBio (m.bio.modify b data)) := by
    apply hs.inv.modify m.newest hidle hhold (.inr hs.commits) (fun _ _ => rfl)
    intro hout
    have hsector : m.sector b = x := hcarry.2
    rw [hsector] at hout ⊢
    rw [hs.newest]
    exact hdata hout
  have hsame : ∀ c, ((m.bio.modify b data).buf c).dirty = (m.bio.buf c).dirty ∧
      ((m.bio.modify b data).buf c).Carries (m.bio.buf c).dev (m.bio.buf c).sector ∧
      ((m.bio.modify b data).buf c).valid = (m.bio.buf c).valid := by
    intro c
    rcases eq_or_ne c b with rfl | hc
    · simp [Buf.Carries]
    · simp [Function.update_of_ne hc, Buf.Carries]
  refine hk _ ⟨hinv, hs.commits, hs.newest, hs.lh, ?_, ?_, hs.logged, ?_, ?_⟩ hidle (by simp)
  · intro y hy
    obtain ⟨c, hc, hd⟩ := hs.pinned y hy
    obtain ⟨hd', hc', -⟩ := hsame c
    exact ⟨c, ⟨hc'.1.trans hc.1, hc'.2.trans hc.2⟩, hd'.trans hd⟩
  · intro c hc
    obtain ⟨hd', hc', -⟩ := hsame c
    have hsector : (m.setBio (m.bio.modify b data)).sector c = m.sector c := hc'.2
    rw [hsector]
    exact hs.dirty c (hd'.symm.trans hc)
  · intro c hc
    by_contra hne
    have hcb : c ≠ b := fun heq => hne (by rw [heq])
    have hold := hs.unchanged c (by simpa [Function.update_of_ne hcb] using hc)
    cases hold
  · intro g hg
    obtain ⟨h₁, h₂, h₃⟩ := hs.holding g hg
    obtain ⟨-, hc', hv'⟩ := hsame g.1
    exact ⟨h₁, ⟨hc'.1.trans h₂.1, hc'.2.trans h₂.2⟩, hv'.trans h₃⟩

/-- What `bwrite` of a buffer that holds the sector `x` leaves. -/
theorem Stage.written {c : Fin NBUF} {data : Block} {x : ℕ} {pending' : List ℕ} {copied' : ℕ}
    (h : Stage start size p N L pending copied (some c) held m)
    (hw : m.bio.status p = .writing c) (hb : (c, x) ∈ held) (hd : (m.bio.buf c).data = data)
    (hlog : ∀ i y, L[i]? = some y → x = start + i + 1 → data = N y)
    (hpend : ∀ y, y ∈ pending' ↔ y ∈ pending ∧ y ≠ x)
    (hcopied : ∀ i y, i < copied' → L[i]? = some y → start + i + 1 ≠ x → i < copied) :
    Stage start size p N L pending' copied' none held
      (m.setBio ((m.bio.written c).setStatus p .idle)) := by
  obtain ⟨hhold, hcarry, hvalid⟩ := h.holding _ hb
  have hreal := h.inv.bio.real_of_holds hhold
  have hsector : (m.bio.buf c).sector = x := hcarry.2
  have haddr : address (m.bio.buf c).dev (m.bio.buf c).sector = (ROOTDEV, x) := by
    rw [address_of_real hreal, h.inv.device c hreal, hsector]
  refine ⟨h.inv.endWrite h.commits hw, h.commits, h.newest, h.lh, ?_, ?_, ?_, ?_, ?_⟩
  · intro y hy
    obtain ⟨hy, hyx⟩ := (hpend y).mp hy
    obtain ⟨e, he, hde⟩ := h.pinned y hy
    have hec : e ≠ c := by
      rintro rfl
      exact hyx (he.2.symm.trans hsector)
    exact ⟨e, by simpa [Function.update_of_ne hec] using ⟨he, hde⟩⟩
  · intro e he
    have hec : e ≠ c := by
      rintro rfl
      simp at he
    simp only [setBio_bio, setStatus_buf, written_buf, Function.update_of_ne hec] at he
    have hse : (m.setBio ((m.bio.written c).setStatus p .idle)).sector e = m.sector e := by
      simp [LogCache.sector, Function.update_of_ne hec]
    rw [hse]
    refine .inl ((hpend _).mpr ⟨?_, ?_⟩)
    · refine (h.dirty e he).resolve_right fun hwe => hec ?_
      rw [hw] at hwe
      cases hwe
      rfl
    · intro heq
      have hre := h.inv.real_of_dirty he
      exact hec (h.inv.eq_of_carries hreal ⟨h.inv.device c hreal, hsector⟩
        ⟨h.inv.device e hre, heq⟩)
  · intro i y hi hy
    simp only [setBio_bio, setStatus_disk, written_disk, haddr]
    by_cases hix : start + i + 1 = x
    · rw [hix, Function.update_self, hd]
      exact hlog i y hy hix.symm
    · rw [Function.update_of_ne (by simpa using hix)]
      exact h.logged i y (hcopied i y hi hy hix) hy
  · intro e he
    have hec : e ≠ c := by
      rintro rfl
      simp at he
    have hold := h.unchanged e (by simpa [Function.update_of_ne hec] using he)
    cases hold
    exact absurd rfl hec
  · intro g hg
    obtain ⟨h₁, h₂, h₃⟩ := h.holding g hg
    refine ⟨h₁, ?_⟩
    rcases eq_or_ne g.1 c with heq | hne
    · rw [heq] at h₂ h₃ ⊢
      simpa [Buf.Carries] using h₂
    · simpa [Function.update_of_ne hne] using ⟨h₂, h₃⟩

/-- The request of a process in `bwrite` writes the buffer. -/
theorem step_request_writing {bio bio' : Bio} {c : Fin NBUF} (hinv : bio.Inv)
    (hw : bio.status p = .writing c) (hbio : bio.step (.request p) = some bio') :
    bio' = (bio.written c).setStatus p .idle := by
  have hok := hinv.status p
  rw [hw] at hok
  obtain ⟨dev, sector, e, hst, -⟩ | ⟨e, hst, hbio'⟩ := step_request hbio
  · rw [hw] at hst
    cases hst
  · rw [hw] at hst
    cases hst
    rw [hbio', show bio.request c = bio.written c by simp [request, hok.2]]

/-- The rule for `bwrite` of a buffer that holds the sector `x`: what is pending and
what is in the log change as the write says. -/
theorem commits_bwrite {b : Fin NBUF} {data : Block} (x : ℕ) (pending' : List ℕ) (copied' : ℕ)
    {k : PUnit → LogProgram (Fin NBUF) PUnit}
    (h : Stage start size p N L pending copied (some b) held m)
    (hst : m.bio.status p = .idle) (hb : (b, x) ∈ held) (hd : (m.bio.buf b).data = data)
    (hlog : ∀ i y, L[i]? = some y → x = start + i + 1 → data = N y)
    (hpend : ∀ y, y ∈ pending' ↔ y ∈ pending ∧ y ≠ x)
    (hcopied : ∀ i y, i < copied' → L[i]? = some y → start + i + 1 ≠ x → i < copied)
    (hk : ∀ m', Stage start size p N L pending' copied' none held m' →
      m'.bio.status p = .idle → commits start size p Q (k ⟨⟩) m') :
    commits start size p Q (.call (.bwrite b) k) m := by
  apply wpi_call fun m => Stage start size p N L pending copied (some b) held m ∧
    Busy (.bwrite b) (m.bio.status p) ∧ (m.bio.buf b).data = data
  · exact ⟨h, .inl hst, hd⟩
  · rintro s t ⟨hs, hbusy, hdata⟩ hr
    obtain ⟨hi, hinv, hb'⟩ := rely_interfered hs.inv hs.commits hbusy hr
    obtain ⟨hhold, -, hv⟩ := hs.holding _ hb
    exact ⟨hs.interfered hi hinv, hb', (hi.held b hhold hv).2.2.2.trans hdata⟩
  · rintro s ⟨hs, -, hdata⟩
    refine ⟨hs.inv, fun i y hy hsector => ?_⟩
    obtain ⟨-, hcarry, -⟩ := hs.holding _ hb
    rw [hdata, hs.newest]
    exact hlog i y (hs.lh ▸ hy) (hcarry.2.symm.trans hsector)
  · rintro s r t ⟨hs, hbusy, hdata⟩ hr
    simp only [reply, complete] at hr
    split at hr
    · rename_i c hw
      obtain rfl : c = b := by
        rw [hw] at hbusy
        simpa [Busy] using hbusy
      simp only [Option.map_eq_some_iff, Prod.mk.injEq] at hr
      obtain ⟨bio, hbio, -, rfl⟩ := hr
      rw [step_request_writing hs.inv.bio hw hbio]
      exact hk _ (hs.written hw hb hdata hlog hpend hcopied) (by simp)
    · cases hr

theorem commits_brelse {b : Fin NBUF} {x : ℕ} {k : PUnit → LogProgram (Fin NBUF) PUnit}
    (h : Stage start size p N L pending copied changing ((b, x) :: held) m)
    (hst : m.bio.status p = .idle) (hother : ∀ g ∈ held, g.2 ≠ x)
    (hk : ∀ m', Stage start size p N L pending copied changing held m' →
      m'.bio.status p = .idle → commits start size p Q (k ⟨⟩) m') :
    commits start size p Q (.call (.brelse b) k) m := by
  refine commits_atomic h hst (fun _ => Iff.rfl) (fun m hm => ⟨hm, trivial⟩) ?_
  intro m r m' hs hidle hr
  simp only [complete, Option.map_eq_some_iff, Prod.mk.injEq] at hr
  obtain ⟨bio, hbio, -, rfl⟩ := hr
  have hbinv := hs.inv.bio.step hbio
  obtain ⟨-, hhold, hmod, rfl⟩ := step_brelse hbio
  have hq : Quiet p m.bio (m.bio.brelse p b) := quiet_brelse hmod
  have hrel : m.bio.brelse p b = m.bio.released p b := by
    simp [Bio.brelse, hs.inv.bio.busy_of_holds hhold]
  have hidle' : (m.bio.brelse p b).status p = .idle := by
    rw [hrel]
    rcases Bio.Inv.wakeup_cases m.bio.status b p with heq | ⟨dev, sector, hsl, -⟩
    · exact heq.trans hidle
    · rw [hidle] at hsl
      cases hsl
  have hinv : Inv start size (m.setBio (m.bio.brelse p b)) :=
    hs.inv.quiet hbinv hq (by rw [hidle']; simp [OnDevice, InBread]) (by rw [hidle']; simp)
  refine hk _ ⟨hinv, hs.commits, hs.newest, hs.lh, ?_, ?_, ?_, ?_, ?_⟩ hidle'
  · intro y hy
    obtain ⟨c, hc, hd⟩ := hs.pinned y hy
    have hsame := hq.same_of_pinned hs.inv.bio (.inl hd)
    exact ⟨c, ⟨hsame.carries.1.trans hc.1, hsame.carries.2.trans hc.2⟩, hsame.dirty.trans hd⟩
  · intro c hc
    have hsame := hq.same_of_dirty' hc
    have hsector : (m.setBio (m.bio.brelse p b)).sector c = m.sector c := hsame.carries.2
    rw [hsector]
    exact .inl ((hs.dirty c (hsame.dirty.symm.trans hc)).resolve_right (by simp [hidle]))
  · rw [setBio_bio, hq.disk]
    exact hs.logged
  · rw [setBio_bio, hq.modified]
    exact hs.unchanged
  · intro g hg
    obtain ⟨h₁, h₂, h₃⟩ := hs.holding g (List.mem_cons_of_mem _ hg)
    have hgb : g.1 ≠ b := by
      intro heq
      obtain ⟨-, hcarry, -⟩ := hs.holding (b, x) List.mem_cons_self
      rw [heq] at h₂
      exact hother g hg (h₂.2.symm.trans hcarry.2)
    have hsame := hq.same_of_holds hs.inv.bio h₁ h₃
    refine ⟨?_, ⟨hsame.carries.1.trans h₂.1, hsame.carries.2.trans h₂.2⟩, hsame.valid.trans h₃⟩
    rw [setBio_bio, hrel, released_holds, Function.update_self, Function.update_of_ne hgb]
    exact h₁

end Rules

/-! ### The functions of `log.c` -/

section Programs

variable {start size : ℕ} {p : Pid} {N : ℕ → Block} {L pending : List ℕ} {copied : ℕ}
  {m : LogCache}

/-- A clean buffer of a log block that is written has what was logged. -/
theorem Stage.logData {b : Fin NBUF} {i x : ℕ} {held : List (Fin NBUF × ℕ)}
    (h : Stage start size p N L pending copied none held m) (hst : m.bio.status p = .idle)
    (hb : (b, start + i + 1) ∈ held) (hpend : ∀ y ∈ pending, y ∈ L) (hi : i < copied)
    (hx : L[i]? = some x) : (m.bio.buf b).data = N x := by
  obtain ⟨hhold, hcarry, hvalid⟩ := h.holding _ hb
  have hr := h.inv.bio.real_of_holds hhold
  have hlt : i < L.length := (List.getElem?_eq_some_iff.mp hx).1
  have hclean : (m.bio.buf b).dirty = false := by
    by_contra hd
    have hmem := (h.dirty b (by simpa using hd)).resolve_right (by simp [hst])
    rw [show m.sector b = start + i + 1 from hcarry.2] at hmem
    exact h.not_mem_of_inLog (h.inLog_of_lt hlt) (hpend _ hmem)
  have hmod : m.bio.modified b = false := by
    by_contra hm
    have hold := h.unchanged b (by simpa using hm)
    cases hold
  have hdata := (h.inv.bio.bufs b hr).clean hvalid hclean hmod
  rw [hdata, address_of_real hr, hcarry.1, show (m.bio.buf b).sector = _ from hcarry.2]
  exact h.logged i x hi hx

/-- One round of `write_log`. -/
theorem commits_writeLogBlock {x : ℕ} (h : Stage start size p N L L copied none [] m)
    (hst : m.bio.status p = .idle) (hx : L[copied]? = some x) :
    commits start size p (fun _ t => Stage start size p N L L (copied + 1) none [] t ∧
        t.bio.status p = .idle)
      (LogProgram.writeLogBlock start (x, copied)) m := by
  have hlt : copied < L.length := (List.getElem?_eq_some_iff.mp hx).1
  have hmem : x ∈ L := List.mem_of_getElem? hx
  have hin := h.inLog_of_lt hlt
  have hnot := h.not_mem_of_inLog hin
  have hne : x ≠ start + copied + 1 := fun heq => hnot (heq ▸ hmem)
  simp only [LogProgram.writeLogBlock, LogProgram.bread, LogProgram.memmove,
    LogProgram.getData, LogProgram.setData, LogProgram.bwrite, LogProgram.brelse,
    call_bind, done_bind]
  refine commits_bread h hst (fun hl => hl) fun toBuf m₁ h₁ hst₁ => ?_
  refine commits_bread h₁ hst₁ (fun hl => hl) fun fromBuf m₂ h₂ hst₂ => ?_
  refine commits_getData h₂ hst₂ fun m₃ h₃ hst₃ => ?_
  have hdata : (m₃.bio.buf fromBuf).data = N x := by
    obtain ⟨hhold, hcarry, hvalid⟩ := h₃.holding _ List.mem_cons_self
    have hsector : m₃.sector fromBuf = x := hcarry.2
    have hnew := h₃.inv.newest fromBuf (h₃.inv.bio.real_of_holds hhold) hvalid
    rw [hsector, h₃.newest] at hnew
    exact hnew (h₃.inv.outside x (h₃.lh ▸ hmem))
  refine commits_setData (x := start + copied + 1) h₃ hst₃ (by simp) (fun hout => absurd hin hout)
    fun m₄ h₄ hst₄ hd₄ => ?_
  refine commits_bwrite (start + copied + 1) L (copied + 1) h₄ hst₄
    (by simp) hd₄ ?_ ?_ ?_ fun m₅ h₅ hst₅ => ?_
  · intro i y hy heq
    obtain rfl : i = copied := by omega
    rw [hx, Option.some.injEq] at hy
    rw [hdata, hy]
  · intro y
    exact ⟨fun hy => ⟨hy, fun heq => hnot (heq ▸ hy)⟩, fun hy => hy.1⟩
  · intro i y hi _ hine
    omega
  refine commits_brelse h₅ hst₅ (by simpa using hne.symm) fun m₆ h₆ hst₆ => ?_
  exact commits_brelse h₆ hst₆ (by simp) fun m₇ h₇ hst₇ => ⟨h₇, hst₇⟩

/-- `write_log` copies the newest contents of every logged sector to the log. -/
theorem commits_writeLog (h : Stage start size p N L L 0 none [] m)
    (hst : m.bio.status p = .idle) :
    commits start size p (fun _ t => Stage start size p N L L L.length none [] t ∧
        t.bio.status p = .idle)
      (LogProgram.writeLog start) m := by
  simp only [LogProgram.writeLog, LogProgram.getLh, call_bind, done_bind]
  refine commits_getLh h hst fun m₁ lh h₁ hst₁ hlh => ?_
  rw [hlh]
  have hloop : wpi (rely p) (reply p) (guar start size p) _
      (Program.forEach (LogProgram.writeLogBlock start) L.zipIdx) m₁ := wpi_forEach
    (fun es t => ∃ i, es = (L.drop i).zipIdx i ∧ Stage start size p N L L i none [] t ∧
      t.bio.status p = .idle) ?_ ⟨0, rfl, h₁, hst₁⟩
  · refine hloop.mono ?_
    rintro - t ⟨i, hnil, ht, hidle⟩
    have hlen : L.length ≤ i := by simpa using hnil.symm
    exact ⟨{ ht with logged := fun j x hj hx => ht.logged j x (by omega) hx }, hidle⟩
  · rintro e es t ⟨i, hcons, ht, hidle⟩
    have hi : i < L.length := by
      by_contra hge
      rw [List.drop_eq_nil_of_le (by omega)] at hcons
      cases hcons
    rw [List.drop_eq_getElem_cons hi, List.zipIdx_cons, List.cons.injEq] at hcons
    obtain ⟨rfl, rfl⟩ := hcons
    refine (commits_writeLogBlock ht hidle (List.getElem?_eq_getElem hi)).mono ?_
    exact fun _ u hu => ⟨i + 1, rfl, hu⟩

/-- `write_head`. -/
theorem commits_writeHead (h : Stage start size p N L pending copied none [] m)
    (hst : m.bio.status p = .idle) (hpend : ∀ y ∈ pending, y ∈ L) (hsize : 0 < size) :
    commits start size p (fun _ t => Stage start size p N L pending copied none [] t ∧
        t.bio.status p = .idle)
      (LogProgram.writeHead start) m := by
  have hin : InLog start size start := ⟨le_rfl, by omega⟩
  have hnot := h.not_mem_of_inLog hin
  simp only [LogProgram.writeHead, LogProgram.bread, LogProgram.getData, LogProgram.getLh,
    LogProgram.setData, LogProgram.bwrite, LogProgram.brelse, call_bind, done_bind]
  refine commits_bread h hst (fun hl => absurd hl hnot) fun buf m₁ h₁ hst₁ => ?_
  refine commits_getData h₁ hst₁ fun m₂ h₂ hst₂ => ?_
  refine commits_getLh h₂ hst₂ fun m₃ lh h₃ hst₃ _ => ?_
  refine commits_setData (x := start) h₃ hst₃ (by simp) (fun hout => absurd hin hout)
    fun m₄ h₄ hst₄ hd₄ => ?_
  refine commits_bwrite start pending copied h₄ hst₄ (by simp)
    hd₄ ?_ ?_ ?_ fun m₅ h₅ hst₅ => ?_
  · intro i y _ heq
    omega
  · intro y
    exact ⟨fun hy => ⟨hy, fun heq => hnot (heq ▸ hpend y hy)⟩, fun hy => hy.1⟩
  · exact fun i y hi _ _ => hi
  exact commits_brelse h₅ hst₅ (by simp) fun m₆ h₆ hst₆ => ⟨h₆, hst₆⟩

/-- One round of `install_trans`. -/
theorem commits_installBlock {x i : ℕ}
    (h : Stage start size p N L (L.drop i) L.length none [] m)
    (hst : m.bio.status p = .idle) (hx : L[i]? = some x) :
    commits start size p
      (fun _ t => Stage start size p N L (L.drop (i + 1)) L.length none [] t ∧
        t.bio.status p = .idle)
      (LogProgram.installBlock start (x, i)) m := by
  obtain ⟨hlt, hxi⟩ := List.getElem?_eq_some_iff.mp hx
  have hmem : x ∈ L := List.mem_of_getElem? hx
  have hin := h.inLog_of_lt hlt
  have hnot := h.not_mem_of_inLog hin
  have hout : ¬ InLog start size x := h.inv.outside x (h.lh ▸ hmem)
  have hne : start + i + 1 ≠ x := fun heq => hnot (heq ▸ hmem)
  have hdrop : L.drop i = x :: L.drop (i + 1) := by
    rw [List.drop_eq_getElem_cons hlt, hxi]
  have hnodup : (x :: L.drop (i + 1)).Nodup := by
    rw [← hdrop]
    have hnd := h.inv.nodup
    rw [h.lh] at hnd
    exact hnd.sublist (List.drop_sublist i L)
  simp only [LogProgram.installBlock, LogProgram.bread, LogProgram.memmove,
    LogProgram.getData, LogProgram.setData, LogProgram.bwrite, LogProgram.brelse,
    call_bind, done_bind]
  refine commits_bread h hst (fun hl => absurd hl hnot) fun lbuf m₁ h₁ hst₁ => ?_
  refine commits_bread h₁ hst₁ (fun _ => by simp [hdrop]) fun dbuf m₂ h₂ hst₂ => ?_
  refine commits_getData h₂ hst₂ fun m₃ h₃ hst₃ => ?_
  have hdata : (m₃.bio.buf lbuf).data = N x :=
    h₃.logData hst₃ (by simp) (fun y hy => List.mem_of_mem_drop hy) hlt hx
  refine commits_setData (x := x) h₃ hst₃ (by simp) (fun _ => hdata) fun m₄ h₄ hst₄ hd₄ => ?_
  refine commits_bwrite x (L.drop (i + 1)) L.length h₄ hst₄
    (by simp) hd₄ ?_ ?_ ?_ fun m₅ h₅ hst₅ => ?_
  · intro j y hy heq
    exact absurd (heq ▸ h.inLog_of_lt (List.getElem?_eq_some_iff.mp hy).1) hout
  · intro y
    rw [hdrop]
    constructor
    · intro hy
      exact ⟨List.mem_cons_of_mem x hy, fun heq => (List.nodup_cons.mp hnodup).1 (heq ▸ hy)⟩
    · rintro ⟨hy, hyx⟩
      exact (List.mem_cons.mp hy).resolve_left hyx
  · exact fun j y hj _ _ => hj
  -- `brelse(lbuf)` comes before `brelse(dbuf)`
  have h₅' := h₅.release [(lbuf, start + i + 1), (dbuf, x)]
    (by simp [or_comm])
  refine commits_brelse h₅' hst₅ (by simpa using hne.symm) fun m₆ h₆ hst₆ => ?_
  exact commits_brelse h₆ hst₆ (by simp) fun m₇ h₇ hst₇ => ⟨h₇, hst₇⟩

/-- `install_trans` writes every logged sector home and cleans its buffer. -/
theorem commits_installTrans (h : Stage start size p N L L L.length none [] m)
    (hst : m.bio.status p = .idle) :
    commits start size p (fun _ t => Stage start size p N L [] L.length none [] t ∧
        t.bio.status p = .idle)
      (LogProgram.installTrans start) m := by
  simp only [LogProgram.installTrans, LogProgram.getLh, call_bind, done_bind]
  refine commits_getLh h hst fun m₁ lh h₁ hst₁ hlh => ?_
  rw [hlh]
  have hloop : wpi (rely p) (reply p) (guar start size p) _
      (Program.forEach (LogProgram.installBlock start) L.zipIdx) m₁ := wpi_forEach
    (fun es t => ∃ i, es = (L.drop i).zipIdx i ∧
      Stage start size p N L (L.drop i) L.length none [] t ∧ t.bio.status p = .idle) ?_
    ⟨0, rfl, h₁, hst₁⟩
  · refine hloop.mono ?_
    rintro - t ⟨i, hnil, ht, hidle⟩
    have hlen : L.length ≤ i := by simpa using hnil.symm
    rw [List.drop_eq_nil_of_le hlen] at ht
    exact ⟨ht, hidle⟩
  · rintro e es t ⟨i, hcons, ht, hidle⟩
    have hi : i < L.length := by
      by_contra hge
      rw [List.drop_eq_nil_of_le (by omega)] at hcons
      cases hcons
    rw [List.drop_eq_getElem_cons hi, List.zipIdx_cons, List.cons.injEq] at hcons
    obtain ⟨rfl, rfl⟩ := hcons
    refine (commits_installBlock ht hidle (List.getElem?_eq_getElem hi)).mono ?_
    exact fun _ u hu => ⟨i + 1, rfl, hu⟩

/-- What a commit leaves: an empty header in memory and no dirty buffer. -/
def Cleared (start size : ℕ) (p : Pid) (m : LogCache) : Prop :=
  (∃ N copied, Stage start size p N [] [] copied none [] m) ∧ m.bio.status p = .idle

/-- `commit()`, from the state in which `end_op` calls it. -/
theorem commits_commit (h : Stage start size p N L L 0 none [] m)
    (hst : m.bio.status p = .idle) :
    commits start size p (fun _ t => Cleared start size p t) (LogProgram.commit start) m := by
  simp only [LogProgram.commit, LogProgram.getLh, call_bind, done_bind]
  refine commits_getLh h hst fun m₁ lh h₁ hst₁ hlh => ?_
  by_cases hn : lh.n > 0
  · rw [if_pos hn]
    have hsize : 0 < size := by
      have hroom := h₁.inv.room
      rw [LogHeader.n, h₁.lh, ← hlh] at hroom
      unfold LogHeader.n at hn
      omega
    unfold LogProgram.commitBody
    apply wpi_bind
    refine (commits_writeLog h₁ hst₁).mono ?_
    rintro - m₂ ⟨h₂, hst₂⟩
    apply wpi_bind
    refine (commits_writeHead h₂ hst₂ (fun _ hy => hy) hsize).mono ?_
    rintro - m₃ ⟨h₃, hst₃⟩
    apply wpi_bind
    refine (commits_installTrans h₃ hst₃).mono ?_
    rintro - m₄ ⟨h₄, hst₄⟩
    simp only [LogProgram.setLh, call_bind, done_bind]
    refine commits_setLh h₄ hst₄ fun m₅ h₅ hst₅ => ?_
    refine (commits_writeHead h₅ hst₅ (by simp) hsize).mono ?_
    rintro - m₆ ⟨h₆, hst₆⟩
    exact ⟨⟨N, 0, h₆⟩, hst₆⟩
  · rw [if_neg hn]
    have hnil : L = [] := by
      unfold LogHeader.n at hn
      rw [hlh] at hn
      exact List.eq_nil_of_length_eq_zero (by omega)
    subst hnil
    exact ⟨⟨N, 0, h₁⟩, hst₁⟩

end Programs

end LogCache

end Xv6
