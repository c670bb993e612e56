import Xv6.Vm.Files

/-!
# The calls on open files

`pipe`, `dup`, `open`, `close` and the loops of `fork` and `exit` over the descriptors.
None of them loses a reference or a page: what is not free at the end is the page of a pipe
with an open end.
-/

namespace Xv6

open Foundation KernelM

/-- Only descriptors of the process have changed, and pages have only gone from the free
list to pipes and back. -/
structure Shuffles (p : Slot) (w w' : Kernel) : Prop where
  acct : w'.vm.free + w'.pipePages.val = w.vm.free + w.pipePages.val
  kpgdir : w'.kpgdir = w.kpgdir
  link : w'.vm.link = w.vm.link
  self : w'.proc p = { w.proc p with ofile := (w'.proc p).ofile }
  other : ∀ q, q ≠ p → w'.proc q = w.proc q

/-- No page that is free or in a pipe is one that `kfree` refuses. -/
def Kernel.Usable (w : Kernel) : Prop :=
  ∀ x ∈ w.vm.free + w.pipePages.val, ¬ BadFrame w.vm.link x

namespace Shuffles

variable {p : Slot} {w u w' : Kernel} {f : Fin NFILE}

theorem refl : Shuffles p w w := ⟨rfl, rfl, rfl, rfl, fun _ _ => rfl⟩

theorem trans (h : Shuffles p w u) (h' : Shuffles p u w') : Shuffles p w w' where
  acct := h'.acct.trans h.acct
  kpgdir := h'.kpgdir.trans h.kpgdir
  link := h'.link.trans h.link
  self := by rw [h'.self, h.self]
  other := fun q hq => (h'.other q hq).trans (h.other q hq)

theorem usable (h : Shuffles p w w') (hw : w.Usable) : w'.Usable := fun x hx => by
  rw [h.link]
  exact hw x (h.acct ▸ hx)

theorem setRef {n : ℤ} : Shuffles p w (w.setFile f { w.ftable f with ref := n }) where
  acct := by
    rw [pipePages_setRef]
    rfl
  kpgdir := rfl
  link := rfl
  self := rfl
  other := fun _ _ => rfl

theorem setFd (fd : Fin NOFILE) (v : Option (Fin NFILE)) : Shuffles p w
    (w.setProc p { w.proc p with ofile := Function.update (w.proc p).ofile fd v }) where
  acct := rfl
  kpgdir := rfl
  link := rfl
  self := by simp [Kernel.setProc]
  other := fun q hq => by simp [Kernel.setProc, hq]

end Shuffles

theorem Closes.shuffles {w w' : Kernel} {f : Fin NFILE} (h : Closes w f w') (p : Slot) :
    Shuffles p w w' where
  acct := h.acct
  kpgdir := h.kpgdir
  link := h.link
  self := by rw [h.proc]
  other := fun q _ => by rw [h.proc]

section Rules

variable {w : Kernel} {e : Fin NFILE → ℤ} {f g : Fin NFILE} {p : Slot} {fd : Fin NOFILE}
  {E : VmStop → Prop}

/-- A reference that a call holds is counted. -/
theorem Files.ref_pos (h : Files w e) (he : 0 < e f) : 1 ≤ (w.ftable f).ref := by
  have hrefs := h.refs f
  omega

/-- So is a reference of a descriptor. -/
theorem Files.ref_pos_of_fd (h : Files w 0) (hfd : (w.proc p).ofile fd = some f) :
    1 ≤ (w.ftable f).ref := by
  have hrefs := h.refs f
  have hpos : 0 < pointers w.slots f := pointers_pos (i := (p, fd)) hfd
  rw [Pi.zero_apply] at hrefs
  omega

/-- The call holds the only reference to a file that has no type yet. -/
structure Fresh (w : Kernel) (f : Fin NFILE) : Prop where
  ref : (w.ftable f).ref = 1
  type : (w.ftable f).type = .none

theorem wp_newFile {Q : Option (Fin NFILE) → Kernel → Prop} (h : Files w e) (hnone : Q none w)
    (hsome : ∀ f w', Files w' (e + Pi.single f 1) → (∀ p, Shuffles p w w') → w'.proc = w.proc →
      w'.pipePages = w.pipePages → w'.vm = w.vm → Fresh w' f →
      (∀ g, 1 ≤ (w.ftable g).ref → g ≠ f ∧ w'.ftable g = w.ftable g) → Q (some f) w') :
    wp filealloc Q E w := by
  refine wp_filealloc hnone fun f href => hsome f _ ?_ (fun _ => .setRef) rfl pipePages_setRef rfl
    ⟨?_, ?_⟩ fun g hg => ?_
  · have hset := h.setRef (f := f) (n := 1) (by omega) (by omega)
    rwa [href, sub_zero] at hset
  · rw [ftable_setFile_self]
  · rw [ftable_setFile_self]
    exact h.closed f href
  · have hne : g ≠ f := by
      rintro rfl
      omega
    exact ⟨hne, ftable_setFile_ne hne⟩

theorem wp_closeFile {Q : Unit → Kernel → Prop} (h : Files w e) (href : 1 ≤ (w.ftable f).ref)
    (hw : w.Usable) (hok : ∀ w', Files w' (e - Pi.single f 1) → Closes w f w' → Q () w') :
    wp (fileclose f) Q E w :=
  wp_fileclose h (.inl href)
    (fun x hx hbad => absurd hbad (hw x (Multiset.mem_add.mpr (.inr hx)))) hok

def Kernel.Unseen (w : Kernel) (f : Fin NFILE) : Prop := ∀ x, w.slots x ≠ some f

/-- The only reference to a new file is the one that the call holds. -/
theorem Files.unseen (h : Files w (e + Pi.single f 1)) (he : 0 ≤ e f) (hf : Fresh w f) :
    w.Unseen f := fun x hx => by
  have hrefs := h.refs f
  have hpos : 0 < pointers w.slots f := pointers_pos hx
  rw [hf.ref, Pi.add_apply, Pi.single_eq_same] at hrefs
  omega

def PipeAlloc (w : Kernel) (r : Option (Fin NFILE × Fin NFILE)) (w' : Kernel) : Prop :=
  match r with
  | none => Files w' 0 ∧ w'.vm.free = w.vm.free
  | some (f0, f1) =>
      Files w' (Pi.single f0 1 + Pi.single f1 1) ∧ f0 ≠ f1 ∧ w.Unseen f0 ∧ w.Unseen f1

/-- What `sys_pipe` has done to the descriptors: they lead to two new files, or nothing has
changed. -/
def OpensPipe (p : Slot) (w : Kernel) (r : Option (Fin NOFILE × Fin NOFILE)) (w' : Kernel) : Prop :=
  match r with
  | none => (w'.proc p).ofile = (w.proc p).ofile
  | some (fd0, fd1) => ∃ rf wf, rf ≠ wf ∧ w.Unseen rf ∧ w.Unseen wf ∧
      Lowest (w.proc p).ofile fd0 ∧
      Lowest (Function.update (w.proc p).ofile fd0 (some rf)) fd1 ∧
      (w'.proc p).ofile =
        Function.update (Function.update (w.proc p).ofile fd0 (some rf)) fd1 (some wf)

/-- What `sys_dup` has done to the descriptors. -/
def Dups (p : Slot) (fd : Fin NOFILE) (w : Kernel) (r : Option (Fin NOFILE)) (w' : Kernel) : Prop :=
  match r with
  | none => ((w.proc p).ofile fd = none ∨ ∀ fd', (w.proc p).ofile fd' ≠ none) ∧
      (w'.proc p).ofile = (w.proc p).ofile
  | some fd' => (w.proc p).ofile fd ≠ none ∧ Lowest (w.proc p).ofile fd' ∧
      (w'.proc p).ofile = Function.update (w.proc p).ofile fd' ((w.proc p).ofile fd)

/-- `pipealloc` has two new files in hand. -/
structure TwoFiles (p : Slot) (f0 f1 : Fin NFILE) (w w' : Kernel) : Prop where
  files : Files w' (Pi.single f0 1 + Pi.single f1 1)
  ne : f0 ≠ f1
  fresh0 : Fresh w' f0
  fresh1 : Fresh w' f1
  shuffles : Shuffles p w w'
  proc : w'.proc = w.proc
  pages : w'.pipePages = w.pipePages
  vm : w'.vm = w.vm

namespace TwoFiles

variable {f0 f1 : Fin NFILE} {w' : Kernel}

theorem slots (h : TwoFiles p f0 f1 w w') : w'.slots = w.slots := by
  unfold Kernel.slots
  rw [h.proc]

/-- There is no page for the pipe, and both files are closed. -/
theorem wp_undo {Q : Option (Fin NFILE × Fin NFILE) → Kernel → Prop} (h : TwoFiles p f0 f1 w w')
    (hw : w.Usable)
    (hok : ∀ w'', PipeAlloc w none w'' → Shuffles p w w'' → w''.proc = w.proc → Q none w'') :
    wp (do
      fileclose f0
      fileclose f1
      return none) Q E (w'.setVm w'.vm.refuse) := by
  have h₃ : Files (w'.setVm w'.vm.refuse) (Pi.single f0 1 + Pi.single f1 1) :=
    ⟨h.files.refs, h.files.nonneg, h.files.closed, h.files.unique, h.files.flags⟩
  have hs₃ : Shuffles p w (w'.setVm w'.vm.refuse) :=
    ⟨h.shuffles.acct, h.shuffles.kpgdir, h.shuffles.link, h.shuffles.self, h.shuffles.other⟩
  rw [wp_bind]
  refine wp_closeFile h₃ h.fresh0.ref.ge (hs₃.usable hw) fun w₄ h₄ hc₄ => ?_
  rw [add_sub_cancel_left] at h₄
  have hs₄ := hs₃.trans (hc₄.shuffles p)
  have hf1 : Fresh w₄ f1 := by
    have hsame := hc₄.rest f1 h.ne.symm
    exact ⟨by rw [hsame]; exact h.fresh1.ref, by rw [hsame]; exact h.fresh1.type⟩
  rw [wp_bind]
  refine wp_closeFile h₄ hf1.ref.ge (hs₄.usable hw) fun w₅ h₅ hc₅ =>
    wp_pure.mpr (hok w₅ ⟨?_, ?_⟩ (hs₄.trans (hc₅.shuffles p))
      (hc₅.proc.trans (hc₄.proc.trans h.proc)))
  · rwa [sub_self] at h₅
  · have hacct₄ := hc₄.acct
    have hacct₅ := hc₅.acct
    rw [hc₄.other (by change (w'.ftable f0).type ≠ _; rw [h.fresh0.type]; simp)] at hacct₄
    rw [hc₅.other (by rw [hf1.type]; simp)] at hacct₅
    rw [add_right_cancel hacct₅, add_right_cancel hacct₄, ← h.vm]
    rfl

/-- The page becomes the pipe of the two files. -/
theorem wp_open {Q : Option (Fin NFILE × Fin NFILE) → Kernel → Prop} (h : TwoFiles p f0 f1 w w')
    (hunseen0 : w.Unseen f0) (hunseen1 : w.Unseen f1)
    (hdisj : ∀ x ∈ w.vm.free, x ∉ w.pipePages) {x : Frame} {free : List Frame}
    (hfree : w'.vm.free = {x} + (w'.vm.give x free).free)
    (hok : ∀ w'', PipeAlloc w (some (f0, f1)) w'' → Shuffles p w w'' → w''.proc = w.proc →
      Q (some (f0, f1)) w'') :
    wp (do
      openPipe f0 f1 x
      return some (f0, f1)) Q E (w'.setVm (w'.vm.give x free)) := by
  have hx : x ∉ (w'.setVm (w'.vm.give x free)).pipePages := by
    have hmem : x ∈ w.vm.free := by
      rw [← h.vm, hfree]
      exact Multiset.mem_add.mpr (.inl (Multiset.mem_singleton_self x))
    change x ∉ w'.pipePages
    rw [h.pages]
    exact hdisj x hmem
  have h₃ : Files (w'.setVm (w'.vm.give x free)) (Pi.single f0 1 + Pi.single f1 1) :=
    ⟨h.files.refs, h.files.nonneg, h.files.closed, h.files.unique, h.files.flags⟩
  have ht0 : ((w'.setVm (w'.vm.give x free)).ftable f0).type ≠ .pipe := by
    change (w'.ftable f0).type ≠ .pipe
    rw [h.fresh0.type]
    simp
  have ht1 : ((w'.setVm (w'.vm.give x free)).ftable f1).type ≠ .pipe := by
    change (w'.ftable f1).type ≠ .pipe
    rw [h.fresh1.type]
    simp
  have hpages₃ := pipePages_withPipe h.ne ht0 ht1 hx
  have h₄ := h₃.withPipe h.ne (by change (w'.ftable f0).ref ≠ 0; rw [h.fresh0.ref]; simp)
    (by change (w'.ftable f1).ref ≠ 0; rw [h.fresh1.ref]; simp) ht0 ht1 hx
  rw [wp_bind]
  refine wp_openPipe h.ne (wp_pure.mpr (hok _ ⟨h₄, h.ne, hunseen0, hunseen1⟩
    ⟨?_, h.shuffles.kpgdir, h.shuffles.link, h.shuffles.self, h.shuffles.other⟩ h.proc))
  rw [hpages₃, ← h.shuffles.acct, hfree]
  change (w'.vm.give x free).free + ({x} + w'.pipePages.val) = _
  abel

end TwoFiles

theorem wp_pipealloc {Q : Option (Fin NFILE × Fin NFILE) → Kernel → Prop} (h : Files w 0)
    (hw : w.Usable) (hdisj : ∀ x ∈ w.vm.free, x ∉ w.pipePages)
    (hok : ∀ r w', PipeAlloc w r w' → Shuffles p w w' → w'.proc = w.proc → Q r w') :
    wp pipealloc Q E w := by
  rw [pipealloc, wp_bind]
  refine wp_newFile h (wp_pure.mpr (hok none w ⟨h, rfl⟩ .refl rfl))
    fun f0 w₁ h₁ hs₁ hp₁ hpages₁ hvm₁ hf₁ _ => ?_
  dsimp only
  rw [zero_add] at h₁
  rw [wp_bind]
  refine wp_newFile h₁ ?_ fun f1 w₂ h₂ hs₂ hp₂ hpages₂ hvm₂ hf₂ hrest₂ => ?_
  · dsimp only
    rw [wp_bind]
    refine wp_closeFile h₁ hf₁.ref.ge ((hs₁ p).usable hw) fun w₂ h₂ hc₂ =>
      wp_pure.mpr (hok none w₂ ⟨?_, ?_⟩ ((hs₁ p).trans (hc₂.shuffles p)) (hc₂.proc.trans hp₁))
    · rwa [sub_self] at h₂
    · have hacct := hc₂.acct
      rw [hc₂.other (by rw [hf₁.type]; simp)] at hacct
      rw [← hvm₁, add_right_cancel hacct]
  obtain ⟨hne, hsame₂⟩ := hrest₂ f0 hf₁.ref.ge
  have htwo : TwoFiles p f0 f1 w w₂ :=
    ⟨h₂, hne, ⟨by rw [hsame₂, hf₁.ref], by rw [hsame₂, hf₁.type]⟩, hf₂, (hs₁ p).trans (hs₂ p),
      hp₂.trans hp₁, hpages₂.trans hpages₁, hvm₂.trans hvm₁⟩
  have hslots₁ : w₁.slots = w.slots := by
    unfold Kernel.slots
    rw [hp₁]
  have hunseen0 : w.Unseen f0 := by
    rw [Kernel.Unseen, ← hslots₁]
    exact Files.unseen (e := 0) (by rwa [zero_add]) le_rfl hf₁
  have hunseen1 : w.Unseen f1 := by
    rw [Kernel.Unseen, ← htwo.slots]
    refine h₂.unseen ?_ hf₂
    rw [Pi.single_eq_of_ne hne.symm]
  dsimp only
  rw [wp_bind, wp_onVm]
  exact wp_kalloc (fun _ => htwo.wp_undo hw (hok none)) fun x free hfree _ =>
    htwo.wp_open hunseen0 hunseen1 hdisj hfree (hok (some (f0, f1)))

/-- A file is to be closed that the call has in hand. -/
theorem wp_undo {Q : Unit → Kernel → Prop} (h : Files w e) (he : 0 < e f) (hw : w.Usable)
    (hok : ∀ w', Files w' (e - Pi.single f 1) → Shuffles p w w' → w'.proc = w.proc → Q () w') :
    wp (fileclose f) Q E w :=
  wp_closeFile h (h.ref_pos he) hw fun w' h' hc => hok w' h' (hc.shuffles p) hc.proc

theorem wp_sys_pipe {Q : Option (Fin NOFILE × Fin NOFILE) → Kernel → Prop} (h : Files w 0)
    (hw : w.Usable) (hdisj : ∀ x ∈ w.vm.free, x ∉ w.pipePages)
    (hok : ∀ r w', Files w' 0 → Shuffles p w w' → OpensPipe p w r w' → Q r w') :
    wp (sys_pipe p) Q E w := by
  rw [sys_pipe, wp_bind]
  refine wp_pipealloc (p := p) h hw hdisj fun r w₁ h₁ hs₁ hp₁ => ?_
  have hofile₁ : (w₁.proc p).ofile = (w.proc p).ofile := by rw [hp₁]
  cases r with
  | none => exact wp_pure.mpr (hok none w₁ h₁.1 hs₁ hofile₁)
  | some r =>
      obtain ⟨rf, wf⟩ := r
      obtain ⟨hboth, hne, hrf, hwf⟩ :
        Files w₁ (Pi.single rf 1 + Pi.single wf 1) ∧ rf ≠ wf ∧ w.Unseen rf ∧ w.Unseen wf := h₁
      have hpos : 0 < (Pi.single rf 1 + Pi.single wf 1 : Fin NFILE → ℤ) rf := by
        rw [Pi.add_apply, Pi.single_eq_same, Pi.single_apply]
        split <;> omega
      have hpos' : 0 < (Pi.single wf 1 : Fin NFILE → ℤ) wf := by
        rw [Pi.single_eq_same]
        omega
      -- what is left is closed, one end after the other
      have hundo : ∀ w₂, Files w₂ (Pi.single rf 1 + Pi.single wf 1) → Shuffles p w w₂ →
          (w₂.proc p).ofile = (w.proc p).ofile →
          wp (fileclose rf >>= fun _ => fileclose wf >>= fun _ => pure none) Q E w₂ := by
        intro w₂ h₂ hs₂ hofile₂
        rw [wp_bind]
        refine wp_undo (p := p) h₂ hpos (hs₂.usable hw) fun w₃ h₃ hs₃ hp₃ => ?_
        rw [add_sub_cancel_left] at h₃
        have hs₃' := hs₂.trans hs₃
        rw [wp_bind]
        refine wp_undo (p := p) h₃ hpos' (hs₃'.usable hw) fun w₄ h₄ hs₄ hp₄ =>
          wp_pure.mpr (hok none w₄ ?_ (hs₃'.trans hs₄) ?_)
        · rwa [sub_self] at h₄
        · change (w₄.proc p).ofile = _
          rw [hp₄, hp₃, hofile₂]
      dsimp only
      rw [wp_bind]
      refine wp_fdalloc (fun _ => hundo w₁ hboth hs₁ hofile₁) fun fd0 hfd0 => ?_
      have h₂ := hboth.fillFd hfd0.free (f := rf)
      rw [add_sub_cancel_left] at h₂
      have hs₂ := hs₁.trans (Shuffles.setFd fd0 (some rf))
      have hofile₂ : ((w₁.setProc p { w₁.proc p with
          ofile := Function.update (w₁.proc p).ofile fd0 (some rf) }).proc p).ofile =
            Function.update (w.proc p).ofile fd0 (some rf) := by
        simp [Kernel.setProc, hofile₁]
      rw [hofile₁] at hfd0
      dsimp only
      rw [wp_bind]
      refine wp_fdalloc (fun _ => ?_) fun fd1 hfd1 => ?_
      · dsimp only
        rw [clearFd, wp_bind, wp_bind, wp_proc, wp_setProc]
        refine hundo _ ?_ (hs₂.trans (.setFd _ _)) ?_
        · have hrf' := congrFun hofile₂ fd0
          rw [Function.update_self] at hrf'
          have h₃ := h₂.clearFd hrf'
          rwa [add_comm] at h₃
        · have hback := Function.update_eq_self fd0 (w.proc p).ofile
          rw [hfd0.free] at hback
          simp [Kernel.setProc, hofile₁, hback]
      · have h₃ := h₂.fillFd hfd1.free (f := wf)
        rw [sub_self] at h₃
        rw [hofile₂] at hfd1
        refine wp_pure.mpr (hok _ _ h₃ (hs₂.trans (.setFd _ _))
          ⟨rf, wf, hne, hrf, hwf, hfd0, hfd1, ?_⟩)
        simp [Kernel.setProc, hofile₁]

theorem wp_sys_dup {Q : Option (Fin NOFILE) → Kernel → Prop} (h : Files w 0)
    (hok : ∀ r w', Files w' 0 → Shuffles p w w' → Dups p fd w r w' → Q r w') :
    wp (sys_dup p fd) Q E w := by
  rw [sys_dup, wp_bind, wp_proc]
  cases hfd : (w.proc p).ofile fd with
  | none => exact wp_pure.mpr (hok none w h .refl ⟨.inl hfd, rfl⟩)
  | some f =>
      dsimp only
      rw [wp_bind]
      refine wp_fdalloc (fun hfull => wp_pure.mpr (hok none w h .refl ⟨.inr hfull, rfl⟩))
        fun fd' hfd' => ?_
      have h₁ := h.fillFd hfd'.free (f := f)
      dsimp only
      rw [wp_bind]
      refine wp_filedup h₁ (.inl (h.ref_pos_of_fd hfd)) fun h₂ =>
        wp_pure.mpr (hok _ _ ?_ (.trans (.setFd _ _) .setRef) ⟨?_, hfd', ?_⟩)
      · rwa [zero_sub, neg_add_cancel] at h₂
      · rw [hfd]
        simp
      · simp [Kernel.setProc, Kernel.setFile, hfd]

/-- The file is an inode now. -/
theorem Files.setInode (h : Files w e) (htype : (w.ftable f).type ≠ .pipe)
    (href : (w.ftable f).ref ≠ 0) {y : File} (hy : y.type = .inode)
    (hyref : y.ref = (w.ftable f).ref) :
    Files (w.setFile f y) e ∧ Shuffles p w (w.setFile f y) := by
  have hends : ∀ g x b, (w.setFile f y).IsEnd g x b ↔ w.IsEnd g x b := fun g x b => by
    rw [isEnd_setFile]
    split
    · rename_i hg
      refine iff_of_false (fun hend => ?_) fun hend => htype (hg ▸ hend.1)
      rw [hy] at hend
      cases hend.1
    · rfl
  have hrefs : ∀ g, ((w.setFile f y).ftable g).ref = (w.ftable g).ref := fun g => by
    by_cases hg : g = f
    · rw [hg, ftable_setFile_self, hyref]
    · rw [ftable_setFile_ne hg]
  refine ⟨⟨fun g => ?_, fun g => ?_, fun g hg => ?_, fun g g' x b hg hg' => ?_, fun x b => ?_⟩, ?_⟩
  · rw [hrefs]
    exact h.refs g
  · rw [hrefs]
    exact h.nonneg g
  · rw [hrefs] at hg
    have hne : g ≠ f := by
      rintro rfl
      exact href hg
    rw [ftable_setFile_ne hne]
    exact h.closed g hg
  · exact h.unique g g' x b ((hends g x b).mp hg) ((hends g' x b).mp hg')
  · simp only [hends]
    exact h.flags x b
  · have hpages : (w.setFile f y).pipePages = w.pipePages := by
      ext x
      simp only [Kernel.mem_pipePages, hends]
    refine ⟨?_, rfl, rfl, rfl, fun _ _ => rfl⟩
    rw [hpages]
    rfl

theorem wp_sys_open {ip : Option (Fin NINODE)} {readable writable : Bool}
    {Q : Option (Fin NOFILE) → Kernel → Prop} (h : Files w 0) (hw : w.Usable)
    (hok : ∀ r w', Files w' 0 → Shuffles p w w' → Q r w') :
    wp (sys_open p ip readable writable) Q E w := by
  cases ip with
  | none => exact wp_pure.mpr (hok none w h .refl)
  | some ip =>
      rw [sys_open, wp_bind]
      refine wp_newFile h (wp_pure.mpr (hok none w h .refl)) fun f w₁ h₁ hs₁ _ _ _ hf _ => ?_
      rw [zero_add] at h₁
      dsimp only
      rw [wp_bind]
      refine wp_fdalloc (fun _ => ?_) fun fd hfd => ?_
      · dsimp only
        rw [wp_bind]
        refine wp_closeFile h₁ hf.ref.ge ((hs₁ p).usable hw) fun w₂ h₂ hc₂ =>
          wp_pure.mpr (hok none w₂ ?_ ((hs₁ p).trans (hc₂.shuffles p)))
        rwa [sub_self] at h₂
      · have h₂ := h₁.fillFd hfd.free (f := f)
        rw [sub_self] at h₂
        have hs₂ := (hs₁ p).trans (Shuffles.setFd fd (some f))
        dsimp only
        rw [wp_bind, wp_get, wp_bind, wp_setFile]
        have htype : (w₁.ftable f).type ≠ .pipe := by
          rw [hf.type]
          simp
        have href : (w₁.ftable f).ref ≠ 0 := by
          rw [hf.ref]
          simp
        obtain ⟨h₃, hs₃⟩ := h₂.setInode (p := p) htype href (f := f)
          (y := ⟨.inode, (w₁.ftable f).ref, readable, writable, (w₁.ftable f).pipe, ip, 0⟩) rfl rfl
        exact wp_pure.mpr (hok _ _ h₃ (hs₂.trans hs₃))

theorem wp_sys_close {Q : Bool → Kernel → Prop} (h : Files w 0) (hw : w.Usable)
    (hok : ∀ r w', Files w' 0 → Shuffles p w w' → Q r w') : wp (sys_close p fd) Q E w := by
  rw [sys_close, wp_bind, wp_proc]
  cases hfd : (w.proc p).ofile fd with
  | none => exact wp_pure.mpr (hok false w h .refl)
  | some f =>
      dsimp only
      rw [clearFd, wp_bind, wp_bind, wp_proc, wp_setProc, wp_bind]
      have h₁ := h.clearFd hfd
      have hs₁ : Shuffles p w _ := .setFd fd none
      rw [zero_add] at h₁
      refine wp_undo (p := p) h₁ (by rw [Pi.single_eq_same]; omega) (hs₁.usable hw)
        fun w₂ h₂ hs₂ _ => wp_pure.mpr (hok true w₂ ?_ (hs₁.trans hs₂))
      rwa [sub_self] at h₂

/-- The loop of `exit` closes the descriptors that it gets to. -/
theorem wp_closeFiles {fds : List (Fin NOFILE)} {Q : Unit → Kernel → Prop} (h : Files w 0)
    (hw : w.Usable) (hok : ∀ w', Files w' 0 → Shuffles p w w' →
      (∀ fd, (w'.proc p).ofile fd = if fd ∈ fds then none else (w.proc p).ofile fd) → Q () w') :
    wp (closeFiles p fds) Q E w := by
  induction fds generalizing w with
  | nil => exact wp_pure.mpr (hok w h .refl fun fd => by simp)
  | cons fd fds ih =>
      rw [closeFiles, wp_bind, wp_proc]
      cases hfd : (w.proc p).ofile fd with
      | none =>
          refine ih h hw fun w' h' hs' hfds => hok w' h' hs' fun fd' => ?_
          rw [hfds fd']
          by_cases hfd' : fd' = fd
          · simp [hfd', hfd]
          · simp [hfd']
      | some f =>
          dsimp only
          rw [wp_bind]
          refine wp_closeFile h (h.ref_pos_of_fd hfd) hw fun w₁ h₁ hc₁ => ?_
          rw [clearFd, wp_bind, wp_bind, wp_proc, wp_setProc]
          have hfd₁ : (w₁.proc p).ofile fd = some f := by rw [hc₁.proc, hfd]
          have h₂ := h₁.clearFd hfd₁
          rw [zero_sub, neg_add_cancel] at h₂
          have hs₂ := (hc₁.shuffles p).trans (Shuffles.setFd fd none)
          refine ih h₂ (hs₂.usable hw) fun w' h' hs' hfds => hok w' h' (hs₂.trans hs') fun fd' => ?_
          rw [hfds fd']
          by_cases hfd' : fd' = fd
          · simp [Kernel.setProc, hfd']
          · simp [Kernel.setProc, hfd', hc₁.proc]

/-- The loop of `fork` over the descriptors; the child has none of those to come yet. -/
theorem wp_dupFiles {np : Slot} {fds : List (Fin NOFILE)} {Q : Unit → Kernel → Prop}
    (hnodup : fds.Nodup) (h : Files w 0) (hempty : ∀ fd ∈ fds, (w.proc np).ofile fd = none)
    (hok : ∀ w', Files w' 0 → Shuffles np w w' → w'.vm = w.vm → w'.pipePages = w.pipePages →
      Q () w') : wp (dupFiles p np fds) Q E w := by
  induction fds generalizing w with
  | nil => exact wp_pure.mpr (hok w h .refl rfl rfl)
  | cons fd fds ih =>
      obtain ⟨hmem, hnodup⟩ := List.nodup_cons.mp hnodup
      have hrest : ∀ fd' ∈ fds, (w.proc np).ofile fd' = none :=
        fun fd' hfd' => hempty fd' (List.mem_cons_of_mem _ hfd')
      rw [dupFiles, wp_bind, wp_proc]
      cases hfd : (w.proc p).ofile fd with
      | none => exact ih hnodup h hrest hok
      | some f =>
          dsimp only
          rw [wp_bind]
          refine wp_filedup h (.inl (h.ref_pos_of_fd hfd)) fun h₁ => ?_
          rw [wp_bind, wp_proc, wp_bind, wp_setProc]
          rw [zero_add] at h₁
          have h₂ := h₁.fillFd (f := f) (hempty fd List.mem_cons_self)
          rw [sub_self] at h₂
          refine ih hnodup h₂ (fun fd' hfd' => ?_) fun w' h' hs' hvm hpages =>
            hok w' h' ((Shuffles.setRef.trans (.setFd _ _)).trans hs') hvm
              (hpages.trans pipePages_setRef)
          have hne : fd' ≠ fd := by
            rintro rfl
            exact hmem hfd'
          simp only [Kernel.setProc, Function.update_self, Function.update_of_ne hne]
          exact hrest fd' hfd'

end Rules

end Xv6
