import Mathlib.Data.List.GetD
import Xv6.Vm.Calls
import Xv6.Vm.Sbrk
import Xv6.Vm.Stack

/-!
# The image that `exec` builds

When `exec` returns 0, the new address space holds the segments of the file and, behind a
page that is not for the user, the stack. The pages for it come from the free list, so the
old image is there until the new one is complete.
-/

namespace Xv6

open Foundation VmM

/-- The file header of a file with these contents. -/
def fileHeader (content : List UInt8) : Elfhdr := Elfhdr.ofBytes (content.take sizeofElfhdr)

/-- The segments that `exec` loads from a file with these contents. -/
def fileSegments (content : List UInt8) : List Proghdr :=
  loadHeaders content (fileHeader content).phnum (fileHeader content).phoff

/-- The memory that `exec` builds. -/
structure ImageBuilt (content : List UInt8) (phs : List Proghdr) (argv : List (List UInt8))
    (t : Vm) (d : Pgdir) (sz sp : ℕ) : Prop where
  loaded : ∀ ph ∈ phs, SegmentLoaded content t d ph ∧ ph.vaddr + ph.memsz ≤ sz - 2 * PGSIZE
  stack : HasStack t d sz
  args : ∃ ps, StackBuilt t d argv sz sp ps

section Image

variable {s t u : Vm} {d d' d'' : Pgdir} {content : List UInt8} {argv : List (List UInt8)}
  {phs : List Proghdr} {n off sz sp k : ℕ} {E : VmStop → Prop}

/-! ### `buildImage` -/

theorem Guards.place {va : ℕ} (h : Guards va d d') (a : ℕ) : d'.place a = d.place a := by
  rw [Pgdir.place, Pgdir.place, h.pte]

theorem Guards.apiece {va : ℕ} (h : Guards va d d') (hap : Apiece s d sz) : Apiece s d' sz where
  space := h.space hap.space
  nodup := by
    rw [h.held]
    exact hap.nodup
  sound := fun f hf => hap.sound f (by rwa [h.held] at hf)

theorem Guards.inner {va : ℕ} (h : Guards va d d') : Inner s d s d' :=
  ⟨by rw [h.held], fun _ _ => rfl, rfl⟩

/-- The size of a process can be rounded up. -/
theorem Apiece.roundUp (h : Apiece s d sz) : Apiece s d (PGROUNDUP sz) :=
  ⟨h.space.roundUp, h.nodup, h.sound⟩

/-- The two pages of the stack, behind memory whose size has been rounded up. -/
theorem stackEnd_eq (h : sz < KERNBASE - 3 * PGSIZE) :
    stackEnd sz = PGROUNDUP sz + 2 * PGSIZE ∧ sz ≤ PGROUNDUP sz ∧ PGROUNDUP sz % PGSIZE = 0 ∧
      stackEnd sz < KERNBASE := by
  have hle : sz ≤ KERNBASE := h.le.trans (Nat.sub_le _ _)
  have hup := pageUp_le_iff.mp (le_refl (pageUp sz))
  have hsmall : pageUp sz * PGSIZE ≤ KERNBASE - 3 * PGSIZE := by
    rw [KERNBASE] at h ⊢
    rw [pageUp]
    rw [PGSIZE_eq] at h ⊢
    omega
  have hend : stackEnd sz = pageUp sz * PGSIZE + 2 * PGSIZE := by
    rw [stackEnd, PGROUNDUP_eq hle]
    rw [KERNBASE] at hsmall
    rw [uint, PGSIZE_eq] at *
    omega
  rw [hend, PGROUNDUP_eq hle]
  refine ⟨rfl, hup, Nat.mul_mod_left _ _, ?_⟩
  rw [KERNBASE] at hsmall ⊢
  rw [PGSIZE_eq] at hsmall ⊢
  omega

theorem guard_addr (h : sz + 2 * PGSIZE ≤ KERNBASE) :
    uint (((sz + 2 * PGSIZE : ℕ) : ℤ) - 2 * PGSIZE) = sz := by
  rw [KERNBASE] at h
  rw [uint]
  omega

/-- The two pages that `allocuvm` has added at the end are a stack, once the first of them is not
for the user. -/
theorem Guards.hasStack {top : ℕ} (hg : Guards top d d') (haligned : top % PGSIZE = 0)
    (hap : Apiece s d (top + 2 * PGSIZE)) (huser : (d.pte (top + PGSIZE)).u = true) :
    HasStack s d' (top + 2 * PGSIZE) := by
  have hdiv : top / PGSIZE * PGSIZE = top := Nat.div_mul_cancel (Nat.dvd_of_mod_eq_zero haligned)
  have hnext : (top / PGSIZE + 1) * PGSIZE = top + PGSIZE := by rw [Nat.succ_mul, hdiv]
  have hback : top + 2 * PGSIZE - PGSIZE = top + PGSIZE := by omega
  have hpages : top / PGSIZE + 1 < numPages := by
    have hbound := hap.space.bound
    rw [KERNBASE] at hbound
    rw [PGSIZE_eq] at hbound ⊢
    rw [numPages]
    omega
  refine ⟨hg.apiece hap, ?_, Nat.le_add_left _ _, ?_, ?_⟩
  · rw [Nat.add_mul_mod_self_right, haligned]
  · rw [Nat.add_sub_cancel, hg.pte, if_pos ⟨rfl, rfl⟩]
  · rw [hback, hg.pte, if_neg fun hsame => ?_, huser]
    have hdir := hsame.1
    have htable := hsame.2
    rw [← hnext] at hdir htable
    nth_rw 2 [← hdiv] at hdir htable
    have hpage := page_inj hpages ((Nat.lt_succ_self _).trans hpages) hdir htable
    omega

theorem wp_buildImage_built {elf : Elfhdr} {Q : Pgdir × Option (ℕ × ℕ) → Vm → Prop}
    (hlen : content.length < 2 ^ 32) (hap : Apiece s d 0)
    (hs : SegmentsSafe (fileReader content) elf.phnum elf.phoff s d 0)
    (hsegs : SegmentsOk (loadHeaders content elf.phnum elf.phoff) 0)
    (hargs : ∀ arg ∈ argv, arg.length < PGSIZE) (hargc : argv.length < MAXARG)
    (hok : ∀ t d' sz sp, Inner s d t d' →
      ImageBuilt content (loadHeaders content elf.phnum elf.phoff) argv t d' sz sp →
        Q (d', some (sz, sp)) t)
    (hbad : ∀ t d', Inner s d t d' →
      ¬ (SegmentsIn content elf.phnum elf.phoff ∧ ArgsFit argv ∧ (segmentNeeds
        (fileReader content) elf.phnum elf.phoff d.has 0 s.nread)[s.granted]? = none) →
      Q (d', none) t) :
    wp (buildImage (fileReader content) elf argv d) Q E s := by
  rw [buildImage, wp_bind]
  refine wp_loadSegments_loaded hlen hap hs hsegs (fun t d₁ r h hneed hnone => ?_)
    fun t d' h hwhy => wp_pure.mpr (hbad t d' h fun hall => hwhy ⟨hall.1, hall.2.2⟩)
  have hr : r < KERNBASE - 3 * PGSIZE := h.bound.elim id fun hr => by
    rw [hr]
    decide
  obtain ⟨hend, hup, haligned, hlast⟩ := stackEnd_eq hr
  dsimp only
  rw [wp_bind]
  change wp (allocuvm d₁ (PGROUNDUP r) (stackEnd r)) _ E t
  refine wp_allocuvm_memory h.apiece.roundUp (by rw [hend]; exact Nat.le_add_right _ _) hneed
    (fun u d₂ _ hin hapu hmemory ha => ?_) fun u d₂ hin ha => ?_
  · have hpos : 0 < PGSIZE := by decide
    have hdiv : PGROUNDUP r / PGSIZE * PGSIZE = PGROUNDUP r :=
      Nat.div_mul_cancel (Nat.dvd_of_mod_eq_zero haligned)
    have huser : (d₂.pte (PGROUNDUP r + PGSIZE)).u = true := by
      have hserved := ha.served_of_ne (by omega) hneed
      have hnext : (PGROUNDUP r / PGSIZE + 1) * PGSIZE = PGROUNDUP r + PGSIZE := by
        rw [Nat.succ_mul, hdiv]
      rw [← hnext]
      exact ha.user hserved (by omega) (by omega) (by omega)
    rw [hend] at hapu hmemory ⊢
    have hinner := h.inner.trans hin
    dsimp only
    rw [wp_ite, wp_pure]
    refine ⟨fun hzero => by omega, fun hne => ?_⟩
    rw [wp_bind, guard_addr hapu.space.bound]
    refine wp_clearpteu (.inr ?_) fun d₃ hg => ?_
    · rw [← hdiv]
      exact Pgdir.hasTable_of_p (hapu.space.present _ (by rw [hdiv]; omega))
    have hst : HasStack u d₃ (PGROUNDUP r + 2 * PGSIZE) := hg.hasStack haligned hapu huser
    rw [wp_bind]
    refine wp_pushStack_built hst hargs hargc (fun v sp ps hp hbuilt => ?_) fun v hp hfit =>
      wp_pure.mpr (hbad v d₃ ((hinner.trans hg.inner).trans (hp.inner hst.toApiece))
        fun hall => hfit hall.2.1)
    refine wp_pure.mpr (hok v d₃ _ sp ((hinner.trans hg.inner).trans (hp.inner hst.toApiece))
      ⟨fun ph hph => ?_, hp.hasStack hst, ps, hbuilt⟩)
    obtain ⟨hloaded, hle⟩ := h.loaded ph hph
    rw [Nat.add_sub_cancel]
    refine ⟨hloaded.same fun a ha => ?_, hle.trans hup⟩
    have haup : a < PGROUNDUP r := by omega
    rw [hp.same hst.toApiece (by omega) (.inl (by omega)) le_rfl, hg.place]
    exact (hmemory.sameBelow (Nat.le_add_right _ _)).byte haup
  · dsimp only
    rw [wp_ite, wp_pure]
    refine ⟨fun _ => hbad u d₂ (h.inner.trans hin) fun hall => ?_, fun hne => absurd rfl hne⟩
    have hsize := ha.size (hnone hall.2.2)
    have hpos : 0 < PGSIZE := by decide
    change 0 = allocSize (PGROUNDUP r) (stackEnd r) at hsize
    rw [allocSize, if_neg (by omega), if_neg (by omega)] at hsize
    omega

/-! ### `freevm` -/

/-- Pages are given back, and nothing else is touched. -/
def Gives (s t : Vm) : Prop :=
  ∃ l : Multiset Frame, t.free = s.free + l ∧ ∀ f ∉ l, t.page f = s.page f

theorem Gives.refl : Gives s s := ⟨0, (add_zero _).symm, fun _ _ => rfl⟩

theorem Gives.trans (h : Gives s t) (h' : Gives t u) : Gives s u := by
  obtain ⟨l, hfree, hpage⟩ := h
  obtain ⟨l', hfree', hpage'⟩ := h'
  refine ⟨l + l', by rw [hfree', hfree, add_assoc], fun f hf => ?_⟩
  rw [Multiset.mem_add, not_or] at hf
  rw [hpage' f hf.2, hpage f hf.1]

theorem wp_kfree_gives {f : Frame} : wp (kfree f) (fun _ t => Gives s t) (fun _ => True) s := by
  refine wp_kfree (fun _ => trivial) ⟨{f}, ?_, fun g hg => ?_⟩
  · rw [Vm.free_putFree, add_comm]
  · rw [Multiset.mem_singleton] at hg
    exact Function.update_of_ne hg _ _

theorem wp_deallocuvmLoop_gives {oldsz rounds a : ℕ} :
    wp (deallocuvmLoop oldsz rounds a d) (fun _ t => Gives s t) (fun _ => True) s := by
  induction rounds generalizing a d s with
  | zero => exact wp_pure.mpr Gives.refl
  | succ rounds ih =>
      rw [deallocuvmLoop, wp_ite, wp_pure]
      refine ⟨fun _ => ?_, fun _ => Gives.refl⟩
      rw [wp_bind]
      cases hhas : d.hasTable a with
      | false =>
          rw [wp_walkpgdir_null hhas]
          exact ih
      | true =>
          rw [wp_walkpgdir_found hhas]
          dsimp only
          rw [wp_ite, wp_ite]
          refine ⟨fun _ => ⟨fun _ => wp_panic.mpr trivial, fun _ => ?_⟩, fun _ => ih⟩
          rw [wp_bind]
          exact wp_mono wp_kfree_gives (fun _ t ht => wp_mono ih (fun _ u hu => ht.trans hu)
            fun _ he => he) fun _ he => he

theorem wp_freeTables_gives {is : List (Fin NPDENTRIES)} :
    wp (freeTables d is) (fun _ t => Gives s t) (fun _ => True) s := by
  induction is generalizing s with
  | nil => exact wp_pure.mpr Gives.refl
  | cons i is ih =>
      rw [freeTables]
      split
      · rw [wp_bind]
        exact wp_mono wp_kfree_gives (fun _ t ht => wp_mono ih (fun _ u hu => ht.trans hu)
          fun _ he => he) fun _ he => he
      · exact ih

theorem wp_freevm_gives : wp (freevm d) (fun _ t => Gives s t) (fun _ => True) s := by
  rw [freevm, wp_bind, deallocuvm, if_neg (by decide), wp_bind]
  refine wp_mono wp_deallocuvmLoop_gives (fun d' t ht => ?_) fun _ he => he
  rw [wp_pure, wp_bind]
  refine wp_mono wp_freeTables_gives (fun _ u hu => ?_) fun _ he => he
  exact wp_mono wp_kfree_gives (fun _ v hv => (ht.trans hu).trans hv) fun _ he => he

/-- `freevm` gives the pages of an address space back, and touches no other page. -/
theorem wp_freevm_page {Q : Unit → Vm → Prop} (hsound : Sound s d)
    (hok : ∀ t, t.free = s.free + d.held → t.link = s.link → (∀ f ∉ d.held, t.page f = s.page f) →
      Q () t) : wp (freevm d) Q E s := by
  have hfree : wp (freevm d) (fun _ t => t.link = s.link ∧ t.free = s.free + d.held)
      (fun _ => False) s := wp_freevm (.inr hsound) fun t hin hfree => ⟨hin.link, hfree⟩
  refine wp_mono (wp_and hfree wp_freevm_gives) ?_ fun _ he => he.1.elim
  rintro _ t ⟨⟨hlink, hfree⟩, l, hl, hpage⟩
  obtain rfl : d.held = l := add_left_cancel (hfree.symm.trans hl)
  exact hok t hfree hlink hpage

/-! ### The file header -/

theorem uintAt_append {bs l : List UInt8} {o : ℕ} (h : o + 4 ≤ bs.length) :
    uintAt (bs ++ l) o = uintAt bs o := by
  rw [uintAt, uintAt, List.getD_append _ _ _ _ (by omega), List.getD_append _ _ _ _ (by omega),
    List.getD_append _ _ _ _ (by omega), List.getD_append _ _ _ _ (by omega)]

theorem ushortAt_append {bs l : List UInt8} {o : ℕ} (h : o + 2 ≤ bs.length) :
    ushortAt (bs ++ l) o = ushortAt bs o := by
  rw [ushortAt, ushortAt, List.getD_append _ _ _ _ (by omega), List.getD_append _ _ _ _ (by omega)]

/-- What was on the stack is not used once the header has been read. -/
theorem elfAt_fileReader {stack : List UInt8} (h : sizeofElfhdr ≤ content.length)
    (hlen : content.length < 2 ^ 32) : elfAt (fileReader content) stack k = fileHeader content := by
  have hread : answer (fileReader content) k 0 sizeofElfhdr = some (content.take sizeofElfhdr) :=
    answer_fileReader (by omega) hlen
  have hbytes : (content.take sizeofElfhdr).length = 52 := by
    rw [List.length_take, Nat.min_eq_left h, sizeofElfhdr]
  rw [elfAt, hread, readInto, fileHeader, Elfhdr.ofBytes, Elfhdr.ofBytes]
  rw [uintAt_append (by omega), uintAt_append (by omega), uintAt_append (by omega),
    ushortAt_append (by omega)]

/-- Segments in order fit. -/
theorem SegmentsOk.fit (hlen : content.length < 2 ^ 32)
    (h : SegmentsOk (loadHeaders content n off) sz) : SegmentsFit (fileReader content) n off sz k := by
  induction n generalizing off sz k with
  | zero => trivial
  | succ n ih =>
      intro hread
      have hfits := (headerRead_iff hlen).mp hread
      rw [loadHeaders, if_pos hfits, ← headerAt_eq (k := k) hfits hlen] at h
      dsimp only at h
      change if (headerAt (fileReader content) k off).type ≠ ELF_PROG_LOAD then _ else _
      by_cases htype : (headerAt (fileReader content) k off).type = ELF_PROG_LOAD
      · rw [if_pos htype] at h
        obtain ⟨haligned, hle, hend, hrest⟩ := h
        have hlt := hend.trans_le (Nat.sub_le KERNBASE (3 * PGSIZE))
        have hnew := segmentEnd_eq hlt
        have hsize : allocSize sz (segmentEnd (headerAt (fileReader content) k off)) =
            (headerAt (fileReader content) k off).vaddr +
              (headerAt (fileReader content) k off).memsz := by
          rw [allocSize, hnew, if_neg (by omega), if_neg (by omega)]
        rw [if_neg (not_not.mpr htype)]
        refine fun _ _ => ⟨⟨haligned, ?_⟩, fun _ => ?_⟩
        · rw [KERNBASE] at hlt
          exact hlt.trans (by decide)
        · rw [← hsize] at hrest
          exact ih hrest
      · rw [if_neg htype] at h
        rw [if_pos htype]
        exact ih h

/-! ### `exec` -/

theorem ImageBuilt.same (h : ImageBuilt content phs argv s d sz sp) (hap : Apiece t d sz)
    (hpage : ∀ f ∈ d.held, t.page f = s.page f) : ImageBuilt content phs argv t d sz sp := by
  have hst := h.stack
  have hsame : ∀ a < sz, t.byte (d.place a) = s.byte (d.place a) := fun a ha =>
    congrFun (hpage _ (hst.frame_mem ha)) _
  obtain ⟨ps, hps⟩ := h.args
  have hlast := hps.below
  have htop := hps.strings.le
  have hlen := hps.strings.length
  refine ⟨fun ph hph => ?_, ⟨hap, hst.aligned, hst.room, hst.guard, hst.user⟩, ps, hps.inside,
    hps.frame.same fun a _ hhi => hsame a ?_, hlast, hps.strings.same fun a _ hhi => hsame a hhi⟩
  · obtain ⟨hloaded, hle⟩ := h.loaded ph hph
    exact ⟨hloaded.same fun a ha => hsame a (by omega), hle⟩
  · rw [length_uintBytes, List.length_append, List.length_append, hlen] at hhi
    simp only [List.length_cons, List.length_nil] at hhi
    omega

/-- The image is that of the file, the path and the arguments. -/
structure ExecBuilt (content path : List UInt8) (argv : List (List UInt8)) (t : Vm)
    (image : Image) : Prop where
  memory : ImageBuilt content (fileSegments content) argv t image.pgdir image.sz image.esp
  eip : image.eip = (fileHeader content).entry
  name : image.name = lastElem path

/-- What is assumed about a call of `exec`: the segments are in order, the arguments are few and
short, and no page table is refused. -/
structure ExecOk (file : Option (List UInt8)) (stack : List UInt8) (argv : List (List UInt8))
    (s : Vm) : Prop where
  length : ∀ content ∈ file, content.length < 2 ^ 32
  segments : ∀ content ∈ file, SegmentsOk (fileSegments content) 0
  argc : argv.length < MAXARG
  args : ∀ arg ∈ argv, arg.length < PGSIZE
  tables : (execNeeds (file.map fileReader) stack s.nread)[s.granted]? ≠ some .table

/-- `exec` gets all that it asks for: the file is complete, no page is refused, and the strings and
the array of pointers fit in the stack. -/
structure ExecFull (content stack : List UInt8) (argv : List (List UInt8)) (s : Vm) : Prop where
  header : sizeofElfhdr ≤ content.length ∧ (fileHeader content).magic = ELF_MAGIC
  segments : SegmentsIn content (fileHeader content).phnum (fileHeader content).phoff
  args : ArgsFit argv
  pages : (execNeeds (some (fileReader content)) stack s.nread)[s.granted]? = none

/-- `exec` has read the file header, and nothing else has happened. -/
structure AfterHeader (s t : Vm) : Prop where
  link : t.link = s.link
  page : t.page = s.page
  free : t.free = s.free
  granted : t.granted = s.granted
  nread : t.nread = s.nread + 1

theorem wp_execFrom_built {elf : Elfhdr} {path : List UInt8} {old : Pgdir}
    {Q : Option Image → Vm → Prop} (hlen : content.length < 2 ^ 32)
    (hsegs : SegmentsOk (loadHeaders content elf.phnum elf.phoff) 0)
    (hargs : ∀ arg ∈ argv, arg.length < PGSIZE) (hargc : argv.length < MAXARG)
    (hnodup : (s.free + old.held).Nodup) (hsound : Sound s old)
    (hneed : (kernelNeeds ++ segmentNeeds (fileReader content) elf.phnum elf.phoff kernelHas 0
      s.nread)[s.granted]? ≠ some .table)
    (hok : ∀ t image, ImageBuilt content (loadHeaders content elf.phnum elf.phoff) argv t
        image.pgdir image.sz image.esp →
      image.eip = elf.entry → image.name = lastElem path →
        (∀ f ∉ s.free + old.held, t.page f = s.page f) → Q (some image) t)
    (hbad : ∀ t, (∀ f ∉ s.free, t.page f = s.page f) →
      ¬ (SegmentsIn content elf.phnum elf.phoff ∧ ArgsFit argv ∧
        (kernelNeeds ++ segmentNeeds (fileReader content) elf.phnum elf.phoff kernelHas 0
          s.nread)[s.granted]? = none) → Q none t) :
    wp (execFrom (fileReader content) elf path argv old) Q E s := by
  have hspaces : wp setupkvm (fun r t => (∀ d ∈ r, NewSpace s t d) ∧ (r = none →
      ∀ needs, (kernelNeeds ++ needs)[s.granted]? ≠ none)) (fun _ => False) s := by
    refine wp_setupkvm (fun hzero => ⟨by simp, fun _ needs => ?_⟩)
      (fun t hl _ => ⟨by simp, fun _ needs => ?_⟩) fun t d h => ⟨?_, by simp⟩
    · rw [hzero]
      simp [kernelNeeds]
    · rw [hl.needs]
      simp
    · rintro _ ⟨⟩
      exact h
  rw [execFrom, wp_bind]
  refine wp_mono (wp_and hspaces wp_setupkvm_uses) ?_ fun _ he => he.1.elim
  rintro r t ⟨⟨hnew, hnone⟩, huses⟩
  cases r with
  | none => exact wp_pure.mpr (hbad t huses.page fun hall => hnone rfl _ hall.2.2)
  | some d =>
      have hnew := hnew d rfl
      have hacct := hnew.acct
      have hlink := hnew.inside.link
      rw [hnew.needs, ← hnew.inside.nread] at hneed hbad
      have hfree : s.free.Nodup := (Multiset.nodup_add.mp hnodup).1
      have hgood : ∀ f ∈ s.free, ¬ BadFrame s.link f := fun f hf =>
        hsound f (Multiset.mem_add.mpr (.inl hf))
      have hap : Apiece t d 0 := by
        refine ⟨hnew.space, by rwa [hacct], fun f hf => ?_⟩
        rw [hacct] at hf
        rw [hlink]
        exact hgood f hf
      have hsafe : SegmentsSafe (fileReader content) elf.phnum elf.phoff t d 0 := by
        have hneed' : (segmentNeeds (fileReader content) elf.phnum elf.phoff d.has 0
            t.nread)[t.granted]? ≠ some .table := by rwa [hnew.has]
        exact ⟨hneed', hnew.space, fun m hm hp => absurd hp (hnew.fresh hm), hap.sound,
          (hsegs.fit hlen).fate hneed'⟩
      have hinner : ∀ u d', Inner t d u d' → u.free + d'.held ≤ s.free ∧ u.link = s.link ∧
          ∀ f ∉ s.free, u.page f = s.page f := fun u d' hin => by
        refine ⟨hacct ▸ hin.le, hin.link.trans hlink, fun f hf => ?_⟩
        rw [hin.page f (by rwa [hacct]), huses.page f hf]
      dsimp only
      rw [wp_bind]
      refine wp_buildImage_built hlen hap hsafe hsegs hargs hargc (fun u d' sz sp hin hb => ?_)
        fun u d' hin hwhy => ?_
      · obtain ⟨hle, hulink, hupage⟩ := hinner u d' hin
        have hold : ∀ f ∈ u.free + old.held + d'.held, f ∈ s.free + old.held := fun f hf => by
          rw [add_right_comm] at hf
          exact Multiset.mem_of_le (add_le_add_left hle _) hf
        dsimp only
        rw [wp_bind]
        refine wp_freevm_page (fun f hf => ?_) fun v hvfree hvlink hvpage => ?_
        · rw [hulink]
          exact hsound f (hold f (Multiset.mem_add.mpr (.inl hf)))
        · refine wp_pure.mpr (hok v _ (hb.same ⟨hb.stack.space, ?_, fun f hf => ?_⟩ fun f hf => ?_)
            rfl rfl fun f hf => ?_)
          · rw [hvfree, add_right_comm]
            exact Multiset.nodup_of_le (add_le_add_left hle _) hnodup
          · rw [hvlink, hulink]
            exact hsound f (hold f (by rwa [hvfree] at hf))
          · have hmem := Multiset.mem_of_le hle (Multiset.mem_add.mpr (.inr hf))
            exact hvpage f (Multiset.disjoint_left.mp (Multiset.nodup_add.mp hnodup).2.2 hmem)
          · rw [Multiset.mem_add, not_or] at hf
            rw [hvpage f hf.2, hupage f hf.1]
      · obtain ⟨hle, hulink, hupage⟩ := hinner u d' hin
        dsimp only
        rw [wp_bind]
        refine wp_freevm_page (fun f hf => ?_) fun v _ _ hvpage => ?_
        · rw [hulink]
          exact hgood f (Multiset.mem_of_le hle hf)
        · rw [hnew.has] at hwhy
          refine wp_pure.mpr (hbad v (fun f hf => ?_) hwhy)
          rw [hvpage f fun hmem => hf (Multiset.mem_of_le hle (Multiset.mem_add.mpr (.inr hmem))),
            hupage f hf]

theorem wp_exec_header {path stack : List UInt8} {old : Pgdir} {Q : Option Image → Vm → Prop}
    (hlen : content.length < 2 ^ 32)
    (hbad : ∀ t, AfterHeader s t → ¬ (sizeofElfhdr ≤ content.length ∧
      (fileHeader content).magic = ELF_MAGIC) → Q none t)
    (hgo : ∀ t, AfterHeader s t →
      execNeeds (some (fileReader content)) stack s.nread = kernelNeeds ++
        segmentNeeds (fileReader content) (fileHeader content).phnum (fileHeader content).phoff
          kernelHas 0 t.nread →
      wp (execFrom (fileReader content) (fileHeader content) path argv old) Q E t) :
    wp (VmM.exec (some (fileReader content)) stack path argv old) Q E s := by
  have hall : ∀ t, AfterHeader s t →
      wp (if uint (readResult (answer (fileReader content) s.nread 0 sizeofElfhdr)) < sizeofElfhdr
        then pure none else do
          useHeader (answer (fileReader content) s.nread 0 sizeofElfhdr)
          if (elfAt (fileReader content) stack s.nread).magic ≠ ELF_MAGIC then return none
          else
            execFrom (fileReader content) (elfAt (fileReader content) stack s.nread) path argv old)
        Q E t := fun t ht => by
    rw [wp_ite, wp_pure]
    refine ⟨fun hshort => hbad t ht fun hall => ?_, fun hlong => ?_⟩
    · have hsize : sizeofElfhdr = 52 := rfl
      have hfull : readResult (answer (fileReader content) s.nread 0 sizeofElfhdr) =
          sizeofElfhdr := (readResult_fileReader hlen).mpr (by omega)
      rw [hfull, uint] at hshort
      omega
    have hread : sizeofElfhdr ≤ content.length := by
      by_contra hshort
      rw [answer, fileReader, if_neg (by simp), Option.map_some, List.take_take, Nat.min_self,
        List.drop_zero, List.take_of_length_le (by omega), readResult, uint] at hlong
      omega
    have ht' : AfterHeader s (t.useHeader (answer (fileReader content) s.nread 0 sizeofElfhdr)) :=
      ⟨ht.link, ht.page, ht.free, ht.granted, ht.nread⟩
    rw [wp_bind, wp_useHeader, wp_ite, wp_pure]
    refine ⟨fun hmagic => hbad _ ht' fun hall => hmagic ?_, fun hmagic => ?_⟩
    · rw [elfAt_fileReader hread hlen, hall.2]
    have hneeds := execNeeds_some hlong hmagic
    rw [elfAt_fileReader hread hlen, ← ht'.nread] at hneeds
    rw [elfAt_fileReader hread hlen]
    exact hgo _ ht' hneeds
  unfold VmM.exec begin
  rw [wp_bind, wp_modify]
  dsimp only
  rw [wp_bind, wp_readi_iff]
  exact hall { s with taken := [], stray := [], unread := false, nread := s.nread + 1 }
    ⟨rfl, rfl, rfl, rfl, rfl⟩

/-- What `exec` does about memory, when its assumptions hold. -/
theorem wp_exec_image {file : Option (List UInt8)} {path stack : List UInt8} {old : Pgdir}
    {Q : Option Image → Vm → Prop} (hf : ExecOk file stack argv s)
    (hnodup : (s.free + old.held).Nodup) (hsound : Sound s old)
    (hok : ∀ content t image, file = some content → ExecBuilt content path argv t image →
      (∀ f ∉ s.free + old.held, t.page f = s.page f) → Q (some image) t)
    (hbad : ∀ t, (∀ f ∉ s.free, t.page f = s.page f) →
      (∀ content ∈ file, ¬ ExecFull content stack argv s) → Q none t) :
    wp (VmM.exec (file.map fileReader) stack path argv old) Q E s := by
  have hneed := hf.tables
  cases file with
  | none =>
      unfold VmM.exec begin
      rw [wp_bind, wp_modify]
      exact wp_pure.mpr (hbad _ (fun _ _ => rfl) (by simp))
  | some content =>
      have hlen := hf.length content rfl
      have hsame : ∀ t, AfterHeader s t → ∀ f, t.page f = s.page f := fun t ht => congrFun ht.page
      rw [Option.map_some] at hneed ⊢
      refine wp_exec_header hlen (fun t ht hwhy => hbad t (fun f _ => hsame t ht f) ?_)
        fun t ht hneeds => ?_
      · rintro _ ⟨⟩ hfull
        exact hwhy hfull.header
      rw [hneeds, ← ht.granted] at hneed
      refine wp_execFrom_built hlen (hf.segments content rfl) hf.args hf.argc (by rwa [ht.free])
        (hsound.mono ht.link (by rw [ht.free])) hneed (fun u image hb heip hname hpage => ?_)
        fun u hpage hwhy => ?_
      · refine hok content u image rfl ⟨hb, heip, hname⟩ fun f hf => ?_
        rw [hpage f (by rwa [ht.free]), hsame t ht]
      · refine hbad u (fun f hf => ?_) ?_
        · rw [hpage f (by rwa [ht.free]), hsame t ht]
        · rintro _ ⟨⟩ hfull
          have hpages := hfull.pages
          rw [hneeds, ← ht.granted] at hpages
          exact hwhy ⟨hfull.segments, hfull.args, hpages⟩

/-! ### The process -/

/-- A kernel with what `exec` saves of a process beside its memory. -/
structure ExecState where
  kernel : Kernel
  /-- `proc->tf->eip` -/
  eip : Slot → ℕ
  /-- `proc->tf->esp` -/
  esp : Slot → ℕ
  /-- process name (debugging) -/
  name : Slot → List UInt8

/-- `exec`, in a process. -/
def ExecState.exec (x : ExecState) (p : Slot) (file : Option Reader) (stack path : List UInt8)
    (argv : List (List UInt8)) : Except VmStop (ℤ × ExecState) :=
  match KernelM.exec p file stack path argv x.kernel with
  | .error e => .error e
  | .ok (none, w) => .ok (-1, { x with kernel := w })
  | .ok (some image, w) => .ok (0, {
      kernel := w
      eip := Function.update x.eip p image.eip
      esp := Function.update x.esp p image.esp
      name := Function.update x.name p image.name })

/-- The process has the image that the file, the path and the arguments describe. -/
def HasImage (content path : List UInt8) (argv : List (List UInt8)) (p : Slot)
    (x x' : ExecState) : Prop :=
  ∃ image : Image, ExecBuilt content path argv x'.kernel.vm image ∧
    x'.kernel.proc p = (x.kernel.proc p).resize image.pgdir image.sz ∧
    x'.eip p = image.eip ∧ x'.esp p = image.esp ∧ x'.name p = image.name

/-- Nothing has changed but free pages. -/
def ImageKept (d : Pgdir) (sz : ℕ) (x x' : ExecState) : Prop :=
  ∃ t : Vm, x' = { x with kernel := x.kernel.setVm t } ∧
    (∀ f ∉ x.kernel.vm.free, t.page f = x.kernel.vm.page f) ∧
    ∀ a < sz, t.byte (d.place a) = x.kernel.vm.byte (d.place a)

theorem wp_kernelExec_image {w : Kernel} {p : Slot} {file : Option (List UInt8)}
    {path stack : List UInt8} {Q : Option Image → Kernel → Prop} (hd : (w.proc p).pgdir = some d)
    (h : Apiece w.vm d sz) (hf : ExecOk file stack argv w.vm)
    (hok : ∀ content t image, file = some content → ExecBuilt content path argv t image →
      Q (some image) ((w.setVm t).setProc p ((w.proc p).resize image.pgdir image.sz)))
    (hbad : ∀ t, (∀ f ∉ w.vm.free, t.page f = w.vm.page f) →
      (∀ content ∈ file, ¬ ExecFull content stack argv w.vm) → Q none (w.setVm t)) :
    wp (KernelM.exec p (file.map fileReader) stack path argv) Q E w := by
  rw [KernelM.exec, wp_bind, wp_kernelPgdir hd, wp_bind, wp_onVm]
  refine wp_exec_image hf h.nodup h.sound (fun content t image hfile hb _ => ?_)
    fun t hpage hwhy => wp_pure.mpr (hbad t hpage hwhy)
  dsimp only
  rw [wp_bind, wp_proc, wp_bind, wp_setProc]
  exact wp_pure.mpr (hok content t image hfile hb)

/-- `exec` returns 0, and the process has the image, or -1, and nothing has changed. It returns 0
where it gets all that it asks for. -/
theorem exec_builds_image (x : ExecState) (p : Slot) (d : Pgdir) (file : Option (List UInt8))
    (stack path : List UInt8) (argv : List (List UInt8)) (hd : (x.kernel.proc p).pgdir = some d)
    (h : Apiece x.kernel.vm d (x.kernel.proc p).sz) (hf : ExecOk file stack argv x.kernel.vm) :
    ∃ r x', x.exec p (file.map fileReader) stack path argv = .ok (r, x') ∧
      ((r = 0 ∧ ∃ content ∈ file, HasImage content path argv p x x') ∨
        r = -1 ∧ ImageKept d (x.kernel.proc p).sz x x') ∧
      ((∃ content ∈ file, ExecFull content stack argv x.kernel.vm) → r = 0) := by
  have hrun : wp (KernelM.exec p (file.map fileReader) stack path argv)
      (fun r w => (∃ content t image, file = some content ∧ ExecBuilt content path argv t image ∧
        r = some image ∧
          w = (x.kernel.setVm t).setProc p ((x.kernel.proc p).resize image.pgdir image.sz)) ∨
        r = none ∧ (∀ content ∈ file, ¬ ExecFull content stack argv x.kernel.vm) ∧
          ∃ t : Vm, w = x.kernel.setVm t ∧
            ∀ f ∉ x.kernel.vm.free, t.page f = x.kernel.vm.page f) (fun _ => False) x.kernel :=
    wp_kernelExec_image hd h hf
      (fun content t image hfile hb => .inl ⟨content, t, image, hfile, hb, rfl, rfl⟩)
      fun t hpage hwhy => .inr ⟨rfl, hwhy, t, rfl, hpage⟩
  obtain ⟨r, w, hok, ⟨content, t, image, rfl, hb, rfl, rfl⟩ | ⟨rfl, hwhy, t, rfl, hpage⟩⟩ :=
    hrun.exists_ok
  · refine ⟨0, _, by rw [ExecState.exec, hok], .inl ⟨rfl, content, rfl, image, hb, ?_, ?_⟩,
      fun _ => rfl⟩
    · exact proc_setProc_self
    · exact ⟨Function.update_self .., Function.update_self .., Function.update_self ..⟩
  · refine ⟨-1, _, by rw [ExecState.exec, hok], .inr ⟨rfl, t, rfl, hpage, fun a ha => ?_⟩, ?_⟩
    · have hmem := h.frame_mem ha
      refine congrFun (hpage _ fun hfree => ?_) _
      exact Multiset.disjoint_left.mp (Multiset.nodup_add.mp h.nodup).2.2 hfree hmem
    · rintro ⟨content, hcontent, hfull⟩
      exact absurd hfull (hwhy content hcontent)

end Image

/-- A program with one segment: a byte, and a byte that is not in the file. -/
def tinyElf : List UInt8 :=
  [0x7F, 0x45, 0x4C, 0x46] ++ List.replicate 24 0 ++ [52, 0, 0, 0] ++ List.replicate 12 0 ++
    [1, 0] ++ List.replicate 6 0 ++ [1, 0, 0, 0, 84] ++ List.replicate 11 0 ++
    [1, 0, 0, 0, 2] ++ List.replicate 11 0 ++ [0xF4]

theorem segmentsOk_tinyElf : SegmentsOk (fileSegments tinyElf) 0 := by
  have hsegs : fileSegments tinyElf = [⟨1, 84, 0, 1, 2⟩] := rfl
  rw [hsegs]
  exact ⟨rfl, le_rfl, by decide, trivial⟩

theorem needs_tinyElf {s : Vm} (h : 100 ≤ s.granted) (hnread : s.nread = 0) :
    (execNeeds (some (fileReader tinyElf)) [] s.nread)[s.granted]? = none := by
  have hlen : (execNeeds (some (fileReader tinyElf)) [] 0).length = 69 := by decide
  rw [hnread, List.getElem?_eq_none (by omega)]

theorem execOk_tinyElf {s : Vm} (h : 100 ≤ s.granted) (hnread : s.nread = 0) :
    ExecOk (some tinyElf) [] [[97]] s where
  length := by
    rintro _ ⟨⟩
    decide
  segments := by
    rintro _ ⟨⟩
    exact segmentsOk_tinyElf
  argc := by decide
  args := by decide
  tables := by
    rw [Option.map_some, needs_tinyElf h hnread]
    simp

theorem execFull_tinyElf {s : Vm} (h : 100 ≤ s.granted) (hnread : s.nread = 0) :
    ExecFull tinyElf [] [[97]] s where
  header := ⟨by decide, rfl⟩
  segments := ⟨by decide, fun _ => ⟨by decide, by decide, by decide⟩, trivial⟩
  args := by
    rw [ArgsFit, PGSIZE_eq]
    decide
  pages := needs_tinyElf h hnread

/-- The first process executes it. -/
theorem exec_builds_image_tiny : ∃ x x',
    ExecState.exec x initproc ((some tinyElf).map fileReader) [] [47, 97] [[97]] = .ok (0, x') ∧
      HasImage tinyElf [47, 97] [[97]] initproc x x' := by
  obtain ⟨w, hboot⟩ := exists_booted
  have hboots := hboot.boots
  have halive : (w.proc initproc).state ≠ .UNUSED := by
    rw [hboots.init.1]
    simp
  obtain ⟨d, hd, hspace⟩ := hboots.spaces initproc halive
  have h := hboots.sane.apiece halive hd hspace
  -- from now on `kalloc` fails only when there is no page
  let s : Vm := { w.vm with fails := [], nread := 0 }
  have hgranted : 100 ≤ s.granted := by
    rw [granted_of_no_fails rfl]
    exact le_trans (by decide) hboots.room
  let x : ExecState := ⟨w.setVm s, fun _ => 0, fun _ => 0, fun _ => []⟩
  obtain ⟨r, x', hrun, himage, hfull⟩ := exec_builds_image x initproc d (some tinyElf) [] [47, 97]
    [[97]] hd ⟨h.space, h.nodup, h.sound⟩ (execOk_tinyElf hgranted rfl)
  obtain rfl : r = 0 := hfull ⟨tinyElf, rfl, execFull_tinyElf hgranted rfl⟩
  obtain ⟨-, content, hcontent, hhas⟩ | ⟨h0, -⟩ := himage
  · obtain rfl : tinyElf = content := Option.some.inj hcontent
    exact ⟨x, x', hrun, hhas⟩
  · cases h0

end Xv6
