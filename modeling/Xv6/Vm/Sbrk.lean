import Xv6.Syscall.User
import Xv6.Vm.Memory
import Xv6.Vm.Owners

/-!
# `sbrk` serves a request, or refuses it

For `growproc`, 0 is what `allocuvm` and `deallocuvm` return when they fail; a process that
asks for the size 0 has its pages unmapped and is told that it failed. A process that asks
for a size below 0 is told that it succeeded, since `deallocuvm` then sees a size above the
old one. And where `allocuvm` leaves out a page, so does `sbrk`.
-/

namespace Xv6

open Foundation

/-- `sys_sbrk`; the argument is what `argint` finds. -/
def KernelM.sys_sbrk (p : Slot) (arg : Option ℤ) : KernelM ℤ :=
  match arg with
  | none => return -1
  | some n => do
      let addr := int (UInt32.ofNat (← proc p).sz)
      if ← growproc p n then return addr else return -1

def SbrkServed (w : Kernel) (p : Slot) (d : Pgdir) (n r : ℤ) (w' : Kernel) : Prop :=
  r = int (UInt32.ofNat (w.proc p).sz) ∧ ∃ newsz : ℕ, ∃ d', (newsz : ℤ) = (w.proc p).sz + n ∧
    newsz < KERNBASE ∧ w'.proc p = (w.proc p).resize d' newsz ∧
      ProcMemory w.vm d (w.proc p).sz newsz w'.vm d'

def SbrkRefused (w : Kernel) (p : Slot) (d : Pgdir) (r : ℤ) (w' : Kernel) : Prop :=
  r = -1 ∧ ∃ d', w'.proc p = (w.proc p).resize d' (w.proc p).sz ∧
    ∀ a < KERNBASE, d'.translate a = d.translate a

/-- The requests that are served or refused: a page table is never refused on the way to a size
that is reached, and a smaller size is above 0. -/
def SbrkFits (d : Pgdir) (sz : ℕ) (n : ℤ) (answer : ℕ → Bool) : Prop :=
  (0 < n → sz + n < KERNBASE →
    AllocFits d.has (pageUp sz) (pageUp (uint (sz + n)) - pageUp sz) answer) ∧
  (n < 0 → 0 < sz + n ∨ sz = 0) ∧ (n = 0 → sz < KERNBASE)

section Sbrk

variable {s t : Vm} {d d' : Pgdir} {q m oldsz newsz r : ℕ} {n : ℤ} {w : Kernel} {p : Slot}
  {E : VmStop → Prop}

/-! ### What `allocuvm` and `deallocuvm` do for `sbrk` -/

/-- The request for `n` bytes is served if the new size `r` is not 0, and refused otherwise. -/
def ResizeRight (s : Vm) (d : Pgdir) (sz : ℕ) (n : ℤ) (t : Vm) (d' : Pgdir) (r : ℕ) : Prop :=
  if r = 0 then ∀ a < KERNBASE, d'.translate a = d.translate a
  else (r : ℤ) = sz + n ∧ r < KERNBASE ∧ ProcMemory s d sz r t d'

theorem translate_congr {a : ℕ} (h : d'.pte (a / PGSIZE * PGSIZE) = d.pte (a / PGSIZE * PGSIZE) ∨
    ¬ (d'.pte (a / PGSIZE * PGSIZE)).p = true ∧ ¬ (d.pte (a / PGSIZE * PGSIZE)).p = true) :
    d'.translate a = d.translate a := by
  rw [Pgdir.pte_page, Pgdir.pte_page] at h
  rcases h with heq | ⟨hno', hno⟩
  · rw [Pgdir.translate, heq]
    rfl
  · rw [Pgdir.translate_eq_none_iff.mpr hno', Pgdir.translate_eq_none_iff.mpr hno]

/-- `sbrk` with a positive number of bytes. -/
theorem wp_allocuvm_sbrk (h : Apiece s d oldsz) (hlt : oldsz < newsz) (hn : (newsz : ℤ) = oldsz + n) :
    wp (VmM.allocuvm d oldsz newsz) (fun r t => ResizeRight s d oldsz n t r.1 r.2 ↔
      (newsz < KERNBASE →
        AllocFits d.has (pageUp oldsz) (pageUp newsz - pageUp oldsz) s.answer)) E s := by
  by_cases hnew : newsz < KERNBASE
  · have hspace := h.space
    have hun := userPages_lt
    have hle : pageUp oldsz ≤ pageUp newsz := by
      rw [pageUp, pageUp, PGSIZE_eq]
      omega
    have hpages : pageUp newsz ≤ userPages := by
      rw [KERNBASE] at hnew
      rw [pageUp, userPages_eq, PGSIZE_eq]
      omega
    have hfresh : ∀ m, oldsz ≤ m * PGSIZE → m * PGSIZE < newsz → ¬ (d.pte (m * PGSIZE)).p = true :=
      fun m hlo hhi => hspace.above m (by have := lt_pageUp_iff.mpr hhi; omega) hlo
    refine wp_allocuvm_end hlt.le hnew h.freeList hfresh fun t d' r hend => ?_
    have hright := hend.right hlt.le hnew h.freeList hfresh
    have hfresh' : ∀ m, pageUp oldsz ≤ m → m < pageUp newsz → ¬ (d.pte (m * PGSIZE)).p = true :=
      fun m hlo hhi => hfresh m (pageUp_le_iff.mp hlo) (lt_pageUp_iff.mp hhi)
    dsimp only
    rw [imp_iff_right hnew]
    cases hend with
    | all hrounds =>
        have hfilled := hrounds.filled (by omega) h.freeList.nodup fun m hlo hhi =>
          hfresh' m hlo (by omega)
        rw [ResizeRight, if_neg (by omega)]
        constructor
        · rintro ⟨-, -, hmemory⟩
          refine (fits_of_all hrounds (by omega) h.freeList.nodup fun m hlo hhi =>
            hfresh' m hlo (by omega)).mpr fun m hlo hhi => hmemory.present m ?_
          exact lt_pageUp_iff.mp (by omega)
        · intro hfits
          refine ⟨hn, hnew, hfilled.memory h fun m hlo hhi => ?_⟩
          exact (fits_of_all hrounds (by omega) h.freeList.nodup fun m hlo hhi =>
            hfresh' m hlo (by omega)).mp hfits m hlo (by omega)
    | @back j hj u d'' hrounds hno hc =>
        have hnodup := h.freeList.nodup
        obtain ⟨l, -, htables, -⟩ := hrounds.mapped (by omega) hnodup fun m hlo hhi =>
          hfresh' m hlo (by omega)
        have hfits := (fits_of_back (k := pageUp newsz - pageUp oldsz) hrounds hno hj (by omega)
          hnodup fun m hlo hhi => hfresh' m hlo (by omega)).mpr fun m hlo _ _ =>
            hspace.not_passes (fun i hi => by rw [htables, tablesOf, hi, Bool.true_or]) hlo
        have hdone := hright.mpr hfits
        refine iff_of_true ?_ hfits
        rw [ResizeRight, if_pos rfl]
        intro a ha
        have hau := user_page ha
        by_cases hin : oldsz ≤ a / PGSIZE * PGSIZE ∧ a / PGSIZE * PGSIZE < newsz
        · exact translate_congr (.inr ⟨hdone.refused rfl _ hin.1 hin.2, hfresh _ hin.1 hin.2⟩)
        · exact translate_congr (.inl (hdone.others _ (hau.trans hun) (by omega)))
  · rw [VmM.allocuvm, if_pos (Nat.not_lt.mp hnew), wp_pure]
    refine iff_of_true ?_ fun hnew' => absurd hnew' hnew
    rw [ResizeRight, if_pos rfl]
    exact fun _ _ => rfl

/-- `sbrk` with a negative number of bytes. -/
theorem wp_deallocuvm_sbrk (h : Apiece s d oldsz) (hneg : n < 0) (hlo : -2 ^ 31 ≤ n) :
    wp (VmM.deallocuvm d oldsz (uint (oldsz + n))) (fun r t => ResizeRight s d oldsz n t r.1 r.2 ↔
      0 < oldsz + n ∨ oldsz = 0) E s := by
  have hspace := h.space
  have hbound := hspace.bound
  have hun := userPages_lt
  by_cases hpos : 0 ≤ (oldsz : ℤ) + n
  · obtain ⟨newsz, hnew⟩ : ∃ newsz : ℕ, (newsz : ℤ) = oldsz + n := ⟨_, Int.toNat_of_nonneg hpos⟩
    have huint : uint ((oldsz : ℤ) + n) = newsz := by
      rw [KERNBASE] at hbound
      rw [uint]
      omega
    have hlt : newsz < oldsz := by omega
    rw [huint]
    refine wp_deallocuvm_clears hbound hlt (fun m _ hm hp hbad =>
      absurd hbad (h.good (hspace.page_lt hm) hp)) fun t d' hc => ?_
    have hbelow : ∀ m, m * PGSIZE < newsz → ¬ d.Reaches (pageUp newsz) oldsz m := fun m hm hr => by
      have hge := pageUp_le_iff.mp hr.1.1
      omega
    by_cases hzero : newsz = 0
    · refine iff_of_false (fun hright => ?_) (by omega)
      rw [hzero, ResizeRight, if_pos rfl] at hright
      have hp := hspace.present 0 (by omega)
      have hreach : d.Reaches (pageUp newsz) oldsz 0 := by
        rw [hzero]
        exact ⟨⟨le_rfl, by omega⟩, Pgdir.not_passes_of_first rfl⟩
      have hgone := hc.pte 0 (by decide)
      rw [if_pos ⟨hreach, hp⟩, Nat.zero_mul] at hgone
      have hnone : d.translate 0 = none := by
        rw [← hright 0 (by decide), Pgdir.translate_eq_none_iff, hgone]
        exact Bool.false_ne_true
      rw [Nat.zero_mul] at hp
      exact Pgdir.translate_eq_none_iff.mp hnone hp
    · refine iff_of_true ?_ (.inl (by omega))
      have hpte : ∀ m, m * PGSIZE < newsz → d'.pte (m * PGSIZE) = d.pte (m * PGSIZE) := fun m hm => by
        have hmu := hspace.page_lt (hm.trans hlt)
        rw [hc.pte m (hmu.trans hun), if_neg fun hr => hbelow m hm hr.1]
      rw [ResizeRight, if_neg hzero]
      refine ⟨hnew, hlt.trans_le hbound, fun m hm => ?_, fun m hm hmn => ⟨hpte m hmn, ?_⟩,
        fun m hlo hhi => by omega⟩
      · rw [hpte m hm]
        exact hspace.present m (hm.trans hlt)
      · rw [Vm.contents, hpte m hmn]
        refine hc.page _ fun k hk hr hmem => hbelow m hmn ?_
        have hpm := hspace.present m hm
        rw [Pte.frames] at hmem
        by_cases hpk : (d.pte (k * PGSIZE)).p = true
        · rw [if_pos hpk, Multiset.mem_singleton] at hmem
          rwa [Pgdir.frame_inj h.pages (hspace.page_lt hm) hk hpm hpk hmem]
        · rw [if_neg hpk] at hmem
          exact absurd hmem (Multiset.notMem_zero _)
  · have hle : oldsz ≤ uint ((oldsz : ℤ) + n) := by
      rw [KERNBASE] at hbound
      rw [uint]
      omega
    rw [VmM.deallocuvm, if_pos hle, wp_pure, ResizeRight]
    by_cases hzero : oldsz = 0
    · rw [if_pos hzero]
      exact iff_of_true (fun _ _ => rfl) (.inr hzero)
    · rw [if_neg hzero]
      exact iff_of_false (fun hright => by omega) (by omega)

/-! ### `sys_sbrk` -/

theorem MemProc.resize_inj {x : MemProc} (h : x.resize d oldsz = x.resize d' newsz) :
    d = d' ∧ oldsz = newsz :=
  ⟨Option.some.inj (congrArg MemProc.pgdir h), congrArg MemProc.sz h⟩

theorem int_ofNat_ne (h : oldsz ≤ KERNBASE) : int (UInt32.ofNat oldsz) ≠ -1 := by
  rw [KERNBASE] at h
  have hval : (UInt32.ofNat oldsz).toNat = oldsz := by
    rw [UInt32.toNat_ofNat']
    exact Nat.mod_eq_of_lt (by omega)
  rw [int, hval]
  split <;> omega

/-- What `sys_sbrk` does about the process. -/
theorem wp_sys_sbrk {Q : ℤ → Kernel → Prop} (hd : (w.proc p).pgdir = some d)
    (hsame : n = 0 → Q (int (UInt32.ofNat (w.proc p).sz)) w)
    (hup : 0 < n → wp (VmM.allocuvm d (w.proc p).sz (uint ((w.proc p).sz + n)))
      (fun r t => Q (if r.2 = 0 then -1 else int (UInt32.ofNat (w.proc p).sz))
        ((w.setVm t).setProc p
          ((w.proc p).resize r.1 (if r.2 = 0 then (w.proc p).sz else r.2)))) E w.vm)
    (hdown : n < 0 → wp (VmM.deallocuvm d (w.proc p).sz (uint ((w.proc p).sz + n)))
      (fun r t => Q (if r.2 = 0 then -1 else int (UInt32.ofNat (w.proc p).sz))
        ((w.setVm t).setProc p
          ((w.proc p).resize r.1 (if r.2 = 0 then (w.proc p).sz else r.2)))) E w.vm) :
    wp (KernelM.sys_sbrk p (some n)) Q E w := by
  rw [KernelM.sys_sbrk, wp_bind, wp_proc, wp_bind, KernelM.growproc, wp_bind, wp_proc, wp_ite]
  refine ⟨fun hpos => ?_, fun hpos => ?_⟩
  · rw [wp_bind, wp_kernelPgdir hd, wp_bind, wp_onVm]
    refine wp_mono (hup hpos) (fun r t hQ => ?_) fun _ he => he
    dsimp only
    rw [wp_ite, wp_bind, wp_setProc, wp_pure, wp_bind, wp_setProc, wp_pure]
    refine ⟨fun hr => ?_, fun hr => ?_⟩
    · simpa [hr, MemProc.resize] using hQ
    · simpa [hr, MemProc.resize] using hQ
  · rw [wp_ite]
    refine ⟨fun hneg => ?_, fun hneg => wp_pure.mpr (wp_pure.mpr (hsame (by omega)))⟩
    rw [wp_bind, wp_kernelPgdir hd, wp_bind, wp_onVm]
    refine wp_mono (hdown hneg) (fun r t hQ => ?_) fun _ he => he
    dsimp only
    rw [wp_ite, wp_bind, wp_setProc, wp_pure, wp_bind, wp_setProc, wp_pure]
    refine ⟨fun hr => ?_, fun hr => ?_⟩
    · simpa [hr, MemProc.resize] using hQ
    · simpa [hr, MemProc.resize] using hQ

/-- What has been done to the address space says whether the call is right. -/
theorem sbrk_right_iff (hbound : (w.proc p).sz ≤ KERNBASE) :
    (SbrkServed w p d n (if r = 0 then -1 else int (UInt32.ofNat (w.proc p).sz))
        ((w.setVm t).setProc p ((w.proc p).resize d' (if r = 0 then (w.proc p).sz else r))) ∨
      SbrkRefused w p d (if r = 0 then -1 else int (UInt32.ofNat (w.proc p).sz))
        ((w.setVm t).setProc p ((w.proc p).resize d' (if r = 0 then (w.proc p).sz else r)))) ↔
      ResizeRight w.vm d (w.proc p).sz n t d' r := by
  have hne := int_ofNat_ne hbound
  rw [ResizeRight]
  by_cases hr : r = 0
  · rw [if_pos hr, if_pos hr, if_pos hr]
    constructor
    · rintro (⟨haddr, -⟩ | ⟨-, e, he, htr⟩)
      · exact absurd haddr.symm hne
      · rw [proc_setProc_self] at he
        obtain ⟨rfl, -⟩ := MemProc.resize_inj he
        exact htr
    · exact fun htr => .inr ⟨rfl, d', proc_setProc_self, htr⟩
  · rw [if_neg hr, if_neg hr, if_neg hr]
    constructor
    · rintro (⟨-, newsz, e, hnew, hlt, he, hmemory⟩ | ⟨haddr, -⟩)
      · rw [proc_setProc_self] at he
        obtain ⟨rfl, rfl⟩ := MemProc.resize_inj he
        exact ⟨hnew, hlt, hmemory⟩
      · exact absurd haddr hne
    · exact fun ⟨hnew, hlt, hmemory⟩ => .inl ⟨rfl, r, d', hnew, hlt, proc_setProc_self, hmemory⟩

theorem wp_sys_sbrk_right (hd : (w.proc p).pgdir = some d) (h : Apiece w.vm d (w.proc p).sz)
    (hlo : -2 ^ 31 ≤ n) (hhi : n < 2 ^ 31) :
    wp (KernelM.sys_sbrk p (some n)) (fun r w' => SbrkServed w p d n r w' ∨ SbrkRefused w p d r w' ↔
      SbrkFits d (w.proc p).sz n w.vm.answer) E w := by
  have hbound := h.space.bound
  refine wp_sys_sbrk hd (fun hzero => ?_) (fun hpos => ?_) fun hneg => ?_
  · have hfits : SbrkFits d (w.proc p).sz n w.vm.answer ↔ (w.proc p).sz < KERNBASE := by
      rw [SbrkFits]
      omega
    have hself : w.proc p = (w.proc p).resize d (w.proc p).sz := by
      rw [MemProc.resize, ← hd]
    have hmemory : ProcMemory w.vm d (w.proc p).sz (w.proc p).sz w.vm d :=
      ⟨h.space.present, fun _ _ _ => ⟨rfl, rfl⟩, fun m hge hlt => by omega⟩
    rw [hfits]
    constructor
    · rintro (⟨-, newsz, -, hnew, hlt, -, -⟩ | ⟨haddr, -⟩)
      · omega
      · exact absurd haddr (int_ofNat_ne hbound)
    · exact fun hlt => .inl ⟨rfl, (w.proc p).sz, d, by omega, hlt, hself, hmemory⟩
  · obtain ⟨newsz, hnew⟩ : ∃ newsz : ℕ, (newsz : ℤ) = (w.proc p).sz + n :=
      ⟨_, Int.toNat_of_nonneg (by omega)⟩
    have huint : uint ((w.proc p).sz + n) = newsz := by
      rw [KERNBASE] at hbound
      rw [uint]
      omega
    have hfits : SbrkFits d (w.proc p).sz n w.vm.answer ↔ (newsz < KERNBASE →
        AllocFits d.has (pageUp (w.proc p).sz) (pageUp newsz - pageUp (w.proc p).sz)
          w.vm.answer) := by
      rw [SbrkFits, huint, ← hnew, Int.ofNat_lt]
      constructor
      · exact fun hall => hall.1 hpos
      · exact fun hall => ⟨fun _ => hall, fun hneg => by omega, fun hzero => by omega⟩
    rw [hfits, huint]
    refine wp_mono (wp_allocuvm_sbrk h (by omega) hnew) (fun r t hiff => ?_) fun _ he => he
    exact (sbrk_right_iff hbound).trans hiff
  · have hfits : SbrkFits d (w.proc p).sz n w.vm.answer ↔
        0 < (w.proc p).sz + n ∨ (w.proc p).sz = 0 := by
      rw [SbrkFits]
      constructor
      · exact fun hall => hall.2.1 hneg
      · exact fun hall => ⟨fun hpos => by omega, fun _ => hall, fun hzero => by omega⟩
    rw [hfits]
    refine wp_mono (wp_deallocuvm_sbrk h hneg hlo) (fun r t hiff => ?_) fun _ he => he
    exact (sbrk_right_iff hbound).trans hiff

/-- `sbrk` serves a request, and returns the old size, or refuses it, returns `-1` and leaves the
address space as it was, exactly if the request fits. It does not if it shrinks the process below
nothing, or to nothing at all, since `growproc` takes a new size of 0 for a failure; or if
`allocuvm` is refused a page table, which goes unnoticed. -/
theorem sbrk_all_or_nothing (w : Kernel) (p : Slot) (d : Pgdir) (hd : (w.proc p).pgdir = some d)
    (h : Apiece w.vm d (w.proc p).sz) (hlo : -2 ^ 31 ≤ n) (hhi : n < 2 ^ 31) :
    (∃ r w', KernelM.sys_sbrk p (some n) w = .ok (r, w') ∧
      (SbrkServed w p d n r w' ∨ SbrkRefused w p d r w')) ↔
      SbrkFits d (w.proc p).sz n w.vm.answer := by
  have hwp := wp_sys_sbrk_right (E := fun _ => False) hd h hlo hhi
  obtain ⟨r, w', hok, hiff⟩ := hwp.exists_ok
  constructor
  · rintro ⟨r', v, hok', hright⟩
    rw [hok] at hok'
    cases hok'
    exact hiff.mp hright
  · exact fun hfits => ⟨r, w', hok, hiff.mpr hfits⟩

/-- A process and the free list have no page in common. -/
theorem Kernel.Sane.apiece (hw : w.Sane) (halive : (w.proc p).state ≠ .UNUSED)
    (hd : (w.proc p).pgdir = some d) (hspace : Space d (w.proc p).sz) :
    Apiece w.vm d (w.proc p).sz := by
  refine ⟨hspace, Multiset.nodup_of_le ?_ hw.nodup, hw.sound_pgdir halive hd⟩
  have hheld : d.held ≤ (w.proc p).held := by
    rw [MemProc.held, if_neg halive, hd]
    exact Multiset.le_add_left _ _
  have hprocs : (w.proc p).held ≤ w.procPages :=
    Finset.single_le_sum (f := fun p => (w.proc p).held) (fun _ _ => Multiset.zero_le _) (Finset.mem_univ p)
  rw [Kernel.owners]
  refine add_le_add ?_ (hheld.trans hprocs)
  rw [add_assoc]
  exact Multiset.le_add_right _ _

end Sbrk

/-- The first process, after boot. -/
theorem exists_first : ∃ (w : Kernel) (d : Pgdir), (w.proc initproc).pgdir = some d ∧
    Apiece w.vm d (w.proc initproc).sz ∧ (w.proc initproc).sz = PGSIZE := by
  obtain ⟨w, hboot⟩ := exists_booted
  have hinit := hboot.boots.init
  have halive : (w.proc initproc).state ≠ .UNUSED := by
    rw [hinit.1]
    simp
  obtain ⟨d, hd, hspace⟩ := hboot.boots.spaces initproc halive
  exact ⟨w, d, hd, hboot.boots.sane.apiece halive hd hspace, hinit.2⟩

/-- The first process gives up a byte. -/
theorem sbrk_all_or_nothing_byte : ∃ w d r w',
    KernelM.sys_sbrk initproc (some (-1)) w = .ok (r, w') ∧
      (SbrkServed w initproc d (-1) r w' ∨ SbrkRefused w initproc d r w') := by
  obtain ⟨w, d, hd, h, hsize⟩ := exists_first
  obtain ⟨r, w', hok⟩ := (sbrk_all_or_nothing (n := -1) w initproc d hd h (by decide)
    (by decide)).mpr (by rw [hsize]; simp [SbrkFits, PGSIZE])
  exact ⟨w, d, r, w', hok⟩

/-- The first process gives up all its memory: it is told that this failed, and its page is
gone. -/
theorem sbrk_to_zero : ∃ w d, (w.proc initproc).pgdir = some d ∧
    Apiece w.vm d (w.proc initproc).sz ∧
      ¬ ∃ r w', KernelM.sys_sbrk initproc (some (-4096)) w = .ok (r, w') ∧
        (SbrkServed w initproc d (-4096) r w' ∨ SbrkRefused w initproc d r w') := by
  obtain ⟨w, d, hd, h, hsize⟩ := exists_first
  refine ⟨w, d, hd, h, ?_⟩
  rintro ⟨r, w', hok, hright⟩
  have hfits := ((wp_of_ok hok).mp (wp_sys_sbrk_right (E := fun _ => False) hd h (by decide)
    (by decide))).mp hright
  rw [hsize] at hfits
  simp [SbrkFits, PGSIZE] at hfits

end Xv6
