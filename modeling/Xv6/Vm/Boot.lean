import Xv6.Vm.Calls

/-!
# Start of the kernel

`main` leaves a kernel with one process, whose memory is there, and with every other page
above the kernel on the free list.
-/

namespace Xv6

open Foundation KernelM

variable {E : VmStop → Prop}

/-- Pages have been put on the free list. -/
structure Freed (s : Vm) (f : Frame) (n : ℕ) (t : Vm) : Prop where
  link : t.link = s.link
  fails : t.fails = s.fails
  free : t.free = s.free + (List.range' f n : Multiset Frame)
  good : ∀ x ∈ List.range' f n, ¬ BadFrame s.link x

theorem wp_freerangeLoop {n : ℕ} {f : Frame} {s : Vm} {Q : Unit → Vm → Prop}
    (hbad : E (.panic .kfree) ∨ ∀ x ∈ List.range' f n, ¬ BadFrame s.link x)
    (hok : ∀ t, Freed s f n t → Q () t) : wp (freerangeLoop n f) Q E s := by
  induction n generalizing f s with
  | zero => exact wp_pure.mpr (hok s ⟨rfl, rfl, by simp, by simp⟩)
  | succ n ih =>
      rw [List.range'_succ] at hbad
      rw [freerangeLoop, wp_bind]
      by_cases hf : f * PGSIZE < s.link.kend ∨ f * PGSIZE ≥ PHYSTOP
      · have hstop : E (.panic .kfree) :=
          hbad.resolve_right fun h => h f List.mem_cons_self (.inr hf)
        rw [VmM.kfree, wp_bind, wp_get, wp_ite]
        exact ⟨fun _ => wp_panic.mpr hstop, fun h => absurd hf h⟩
      · have hgood : ¬ BadFrame s.link f := by
          rintro (rfl | h)
          · have hkend := s.link.above.trans_le s.link.order
            exact hf (.inl (lt_of_eq_of_lt (Nat.zero_mul _) (Nat.zero_lt_of_lt hkend)))
          · exact hf h
        refine wp_kfree (fun h => absurd h hf) (ih ?_ fun t h => hok t ⟨h.link, h.fails, ?_, ?_⟩)
        · exact hbad.imp_right fun h x hx => h x (List.mem_cons_of_mem _ hx)
        · rw [h.free, Vm.free_putFree, List.range'_succ, ← Multiset.cons_coe,
            ← Multiset.singleton_add]
          abel
        · rw [List.range'_succ]
          exact List.forall_mem_cons.mpr ⟨hgood, h.good⟩

/-- Every page from the end of the kernel to the top of memory can be freed. -/
def FitsBelow (link : Linker) (initcode : List UInt8) : Prop :=
  link.kend ≤ 3 * 1024 * 1024 ∧ initcode.length < PGSIZE

/-- The kernel after `main`. -/
structure Boots (w : Kernel) : Prop where
  sane : w.Sane
  spaces : w.Spaces
  init : (w.proc initproc).state = .RUNNABLE ∧ (w.proc initproc).sz = PGSIZE
  room : 50000 ≤ w.vm.free.card

theorem grantedOf_nil (l : List Frame) : Vm.grantedOf l [] = l.length := by
  induction l with
  | nil => rfl
  | cons f l ih =>
      rw [Vm.grantedOf, if_neg (by simp), List.tail_nil, ih, List.length_cons]

/-- Without other CPUs `kalloc` fails only when there is no page. -/
theorem granted_of_no_fails {s : Vm} (h : s.fails = []) : s.granted = s.free.card := by
  rw [Vm.granted, h, grantedOf_nil]
  rfl

theorem wp_inituvm {s : Vm} {d : Pgdir} {init : List UInt8} {Q : Pgdir → Vm → Prop}
    (hsize : E (.panic .inituvmSize) ∨ init.length < PGSIZE)
    (hfresh : ¬ (d.pte (0 * PGSIZE)).p = true) (hroom : 2 ≤ s.granted)
    (hok : ∀ t f x d', Adds s d 0 ⟨true, true⟩ t d' → Q d' (t.store f x)) :
    wp (inituvm d init) Q E s := by
  rw [inituvm, wp_ite, wp_panic]
  refine ⟨fun hbig => hsize.resolve_right (Nat.not_lt.mpr hbig), fun _ => ?_⟩
  rw [wp_bind]
  refine wp_kalloc (fun hgranted => by omega) fun f free hfree hgranted => ?_
  have hzero : VmM.mappages d 0 PGSIZE f ⟨true, true⟩ =
      VmM.mappages d (0 * PGSIZE) PGSIZE f ⟨true, true⟩ := by
    rw [zero_mul]
  dsimp only
  rw [wp_bind, wp_clear, wp_bind, hzero]
  refine wp_mapNew (by rw [userPages_eq]; omega) hfree hgranted (fun hp => absurd hp hfresh)
    (fun t h => ?_) fun t d' h => ?_
  · have hgranted' := h.granted
    omega
  · rw [wp_bind, wp_get, wp_bind, wp_store]
    exact wp_pure.mpr (hok t f _ d' h)

/-- The memory of the first process. -/
theorem NewSpace.firstPage {s u t : Vm} {d d' : Pgdir} (hnew : NewSpace s u d)
    (h : Adds u d 0 ⟨true, true⟩ t d') : Space d' PGSIZE := by
  obtain ⟨f, -, hpte⟩ := h.pte
  have hun := userPages_lt
  refine ⟨by decide, fun m hm => ?_, fun m hm hge => ?_, (h.kernel ?_).kernelOnly hnew.kernelOnly⟩
  · have hzero : m = 0 := by
      rw [PGSIZE_eq] at hm
      omega
    rw [hpte m (by rw [hzero, numPages_eq]; omega), if_pos hzero]
  · rw [hpte m (hm.trans hun), if_neg]
    · exact hnew.fresh hm
    · rintro rfl
      rw [PGSIZE_eq] at hge
      omega
  · rw [userPages_eq]
    omega

theorem wp_userinit {w : Kernel} {initcode : List UInt8} {Q : Unit → Kernel → Prop}
    (hsize : E (.panic .inituvmSize) ∨ initcode.length < PGSIZE) (hproc : ∀ q, w.proc q = .zero)
    (hroom : 200 ≤ w.vm.granted)
    (hok : ∀ u f d, u.free + ({f} + d.held) = w.vm.free → u.link = w.vm.link →
      w.vm.granted ≤ u.granted + 68 → (w.vm.fails = [] → u.fails = []) → Space d PGSIZE →
      Q () ((w.setVm u).setProc initproc ⟨.RUNNABLE, PGSIZE, some d, some f, none, fun _ => none⟩)) :
    wp (userinit initcode) Q E w := by
  have hfind : (List.finRange NPROC).find? (fun q => decide ((w.proc q).state = .UNUSED)) =
      some initproc := by
    have hcons : List.finRange NPROC = initproc :: (List.finRange NPROC).tail := rfl
    rw [hcons, List.find?_cons_of_pos]
    rw [hproc, decide_eq_true_eq]
    rfl
  rw [userinit, wp_bind, allocproc, wp_bind, wp_get, hfind]
  dsimp only
  rw [wp_bind, wp_onVm]
  refine wp_kalloc (fun hgranted => by omega) fun f free hfree hgranted => ?_
  dsimp only
  rw [wp_bind, wp_setProc, wp_pure]
  dsimp only
  rw [wp_bind, wp_onVm]
  change wp VmM.setupkvm _ E (w.vm.give f free)
  refine wp_setupkvm (fun hgranted => by omega) (fun t hleak => ?_) fun u d hnew => ?_
  · have hlt := hleak.2.1
    rw [kernelTables] at hlt
    omega
  have hroom₂ : 2 ≤ u.granted := by
    have hgranted := hnew.granted
    rw [kernelTables] at hgranted
    omega
  dsimp only
  rw [wp_bind, wp_onVm]
  change wp (inituvm d initcode) _ E u
  refine wp_inituvm hsize (hnew.fresh (by rw [userPages_eq]; omega)) hroom₂ fun t g x' d' hadds => ?_
  rw [wp_bind, wp_proc, wp_setProc]
  have hacct : (t.store g x').free + ({f} + d'.held) = w.vm.free := by
    rw [Vm.free_store, hfree, ← hnew.acct, add_left_comm, hadds.acct]
  have hlink : (t.store g x').link = w.vm.link := hadds.link.trans hnew.inside.link
  have hcount : w.vm.granted ≤ (t.store g x').granted + 68 := by
    have hgranted₁ := hnew.granted
    have hgranted₂ := hadds.granted
    have htables : (1 + if d.hasTable (0 * PGSIZE) then 0 else 1) ≤ 2 := by split <;> omega
    rw [Vm.granted_store, hgranted, hgranted₁, hgranted₂, kernelTables]
    omega
  have hend := hok (t.store g x') f d' hacct hlink hcount
    (fun h => hadds.fails (hnew.inside.fails (congrArg List.tail h))) (hnew.firstPage hadds)
  have hembryo : w.proc initproc = .zero := hproc initproc
  rw [proc_setVm, proc_setVm, proc_setProc_self, hembryo]
  have hstate : ∀ x y : MemProc, (((w.setVm (w.vm.give f free)).setProc initproc x).setVm
      (t.store g x')).setProc initproc y = (w.setVm (t.store g x')).setProc initproc y := fun x y => by
    simp [Kernel.setProc, Kernel.setVm]
  exact (hstate _ _) ▸ hend

/-- The pages that `main` puts on the free list before and after `kvmalloc`. -/
def lowPages (link : Linker) : List Frame :=
  List.range' (PGROUNDUP link.kend / PGSIZE) (4 * 1024 * 1024 / PGSIZE - PGROUNDUP link.kend / PGSIZE)

def highPages : List Frame :=
  List.range' (PGROUNDUP (4 * 1024 * 1024) / PGSIZE)
    (PHYSTOP / PGSIZE - PGROUNDUP (4 * 1024 * 1024) / PGSIZE)

theorem highPages_eq : highPages = List.range' 1024 56320 := by
  have hup : PGROUNDUP (4 * 1024 * 1024) / PGSIZE = 1024 := by decide
  have htop : PHYSTOP / PGSIZE = 57344 := by decide
  rw [highPages, hup, htop]

theorem nodup_pages (link : Linker) :
    ((lowPages link : Multiset Frame) + (highPages : Multiset Frame)).Nodup := by
  rw [highPages_eq, Multiset.coe_add, Multiset.coe_nodup, List.nodup_append]
  refine ⟨List.nodup_range', List.nodup_range', fun a ha b hb => ?_⟩
  have hfour : 4 * 1024 * 1024 / PGSIZE = 1024 := by decide
  rw [lowPages, List.mem_range'_1, hfour] at ha
  rw [List.mem_range'_1] at hb
  generalize PGROUNDUP link.kend / PGSIZE = q at ha
  exact Nat.ne_of_lt (by omega)

theorem pipePages_reset (link : Linker) (page : Frame → Page) :
    (Kernel.reset link page).pipePages = ∅ := by
  ext x
  simp [Kernel.mem_pipePages, Kernel.IsEnd, Kernel.reset, File.zero]

theorem files_reset {link : Linker} {page : Frame → Page} : Files (Kernel.reset link page) 0 where
  refs := fun f => by
    have hslots : (Kernel.reset link page).slots = fun _ => none := rfl
    rw [hslots, pointers_none]
    rfl
  nonneg := fun _ => le_rfl
  closed := fun _ _ => rfl
  unique := fun f _ _ _ h => by cases h.1
  flags := fun x b => by
    refine iff_of_false (by cases b <;> simp [Kernel.reset, PipeEnds.isOpen]) ?_
    rintro ⟨f, h⟩
    cases h.1

/-- What `main` has done in the end. -/
theorem boots {link : Linker} {w : Kernel} {u : Vm} {f : Frame}
    {d kd : Pgdir} (hproc : w.proc = fun _ => .zero)
    (hfile : w.ftable = fun _ => .zero) (hpipe : w.pipe = fun _ => ⟨false, false⟩)
    (hkpgdir : w.kpgdir = some kd) (hlink : u.link = link) (hspace : Space d PGSIZE)
    (hacct : u.free + ({f} + d.held) + kd.held = (lowPages link : Multiset Frame) + highPages)
    (hgood : ∀ x ∈ (lowPages link : Multiset Frame) + highPages, ¬ BadFrame link x)
    (hroom : 50000 ≤ u.free.card) :
    Boots ((w.setVm u).setProc initproc
      ⟨.RUNNABLE, PGSIZE, some d, some f, none, fun _ => none⟩) := by
  have hproc' : ∀ q, (w.setVm u).proc q = .zero := fun q => by rw [proc_setVm, hproc]
  generalize hx : (⟨.RUNNABLE, PGSIZE, some d, some f, none, fun _ => none⟩ : MemProc) = x
  have hheld : x.held = {f} + d.held := by
    rw [← hx, MemProc.held, if_neg (by simp)]
    rfl
  have hok : x.Ok := by
    rw [← hx]
    exact ⟨fun _ _ => rfl, fun _ => ⟨f, rfl⟩, fun _ => ⟨d, rfl, hspace.kernelOnly⟩,
      fun _ => hspace.bound⟩
  have hprocs : ((w.setVm u).setProc initproc x).procPages = x.held := by
    have hchange := Kernel.procPages_change (w.setVm u)
      ((w.setVm u).setProc initproc x) initproc fun q hq => by rw [proc_setProc_ne hq]
    have hnone : (w.setVm u).procPages = 0 := Finset.sum_eq_zero fun q _ => by
      rw [hproc' q]
      rfl
    have hzero : MemProc.zero.held = 0 := if_pos rfl
    rwa [hproc', hnone, proc_setProc_self, zero_add, hzero, add_zero] at hchange
  have howners : ((w.setVm u).setProc initproc x).owners =
      (lowPages link : Multiset Frame) + highPages := by
    rw [Kernel.owners, hprocs, ← hacct, hheld]
    have hpipes : ((w.setVm u).setProc initproc x).pipePages = ∅ := by
      rw [← pipePages_reset link fun _ _ => 0]
      exact pipePages_congr hfile
    have hkpgdir' : ((w.setVm u).setProc initproc x).kpgdir = some kd := hkpgdir
    rw [hpipes, hkpgdir']
    change u.free + 0 + kd.held + ({f} + d.held) = _
    abel
  refine ⟨⟨?_, fun q => ?_, ?_, ?_⟩, fun q hq => ?_, ?_, hroom⟩
  · refine files_reset.congr (w := Kernel.reset link fun _ _ => 0) hfile hpipe fun q => ?_
    by_cases hq : q = initproc
    · rw [hq, proc_setProc_self, ← hx]
      rfl
    · rw [proc_setProc_ne hq, hproc' q]
      rfl
  · by_cases hq : q = initproc
    · rwa [hq, proc_setProc_self]
    · rw [proc_setProc_ne hq, hproc' q]
      exact ⟨fun _ _ => rfl, fun h => absurd rfl h, fun h => absurd rfl h, fun h => absurd rfl h⟩
  · rw [howners]
    exact nodup_pages link
  · intro y hy
    rw [howners] at hy
    change ¬ BadFrame u.link y
    rw [hlink]
    exact hgood y hy
  · by_cases hqi : q = initproc
    · rw [hqi, proc_setProc_self, ← hx]
      exact ⟨d, rfl, hspace⟩
    · rw [proc_setProc_ne hqi, hproc' q] at hq
      exact absurd rfl hq
  · rw [proc_setProc_self, ← hx]
    exact ⟨rfl, rfl⟩

theorem PGROUNDUP_div {a : ℕ} (h : a ≤ 3 * 1024 * 1024) : PGROUNDUP a / PGSIZE = pageUp a := by
  have hbound : a ≤ KERNBASE := h.trans (by decide)
  rw [PGROUNDUP_eq hbound, Nat.mul_div_cancel _ (by decide)]

theorem firstPage_le {a : ℕ} (h : a ≤ 3 * 1024 * 1024) : PGROUNDUP a / PGSIZE ≤ 768 := by
  rw [PGROUNDUP_div h]
  exact pageUp_le_iff.mpr (h.trans (by decide))

theorem le_firstPage {a : ℕ} (h : a ≤ 3 * 1024 * 1024) :
    a ≤ PGROUNDUP a / PGSIZE * PGSIZE := by
  rw [PGROUNDUP_div h]
  exact pageUp_le_iff.mp le_rfl

theorem lowPages_eq (link : Linker) : lowPages link =
    List.range' (PGROUNDUP link.kend / PGSIZE) (1024 - PGROUNDUP link.kend / PGSIZE) := by
  have hfour : 4 * 1024 * 1024 / PGSIZE = 1024 := by decide
  rw [lowPages, hfour]

theorem lowPages_length {link : Linker} (h : link.kend ≤ 3 * 1024 * 1024) :
    256 ≤ (lowPages link).length := by
  have hfirst := firstPage_le h
  rw [lowPages_eq, List.length_range']
  exact Nat.le_sub_of_add_le (Nat.add_le_add_left hfirst 256)

theorem usable_pages {link : Linker} (h : link.kend ≤ 3 * 1024 * 1024) :
    ∀ x ∈ (lowPages link : Multiset Frame) + highPages, ¬ BadFrame link x := by
  have hpos := link.above.trans_le link.order
  have hfirst := firstPage_le h
  have hkend := le_firstPage h
  intro x hx
  rw [lowPages_eq, highPages_eq] at hx
  generalize PGROUNDUP link.kend / PGSIZE = q at *
  have hrange : q ≤ x ∧ x < 57344 := by
    rcases Multiset.mem_add.mp hx with hx | hx
    · obtain ⟨hle, hlt⟩ := List.mem_range'_1.mp (Multiset.mem_coe.mp hx)
      exact ⟨hle, hlt.trans_le (by omega)⟩
    · obtain ⟨hle, hlt⟩ := List.mem_range'_1.mp (Multiset.mem_coe.mp hx)
      exact ⟨hfirst.trans (le_trans (by decide) hle), hlt⟩
  have hle : link.kend ≤ x * PGSIZE := hkend.trans (Nat.mul_le_mul_right _ hrange.1)
  rintro (rfl | hlow | hhigh)
  · rw [Nat.zero_mul] at hle
    exact absurd (Nat.zero_lt_of_lt hpos) (Nat.not_lt.mpr hle)
  · exact absurd hlow (Nat.not_lt.mpr hle)
  · have htop : x * PGSIZE < 57344 * PGSIZE := Nat.mul_lt_mul_of_pos_right hrange.2 (by decide)
    exact absurd (htop.trans_eq (by decide)) (Nat.not_lt.mpr hhigh)

/-- `main` gets to its end, unless something is too large. -/
theorem wp_main {link : Linker} {page : Frame → Page} {initcode : List UInt8}
    {Q : Unit → Kernel → Prop} (hE : (∀ e, E e) ∨ FitsBelow link initcode)
    (hok : ∀ w, Boots w → Q () w) : wp (main initcode) Q E (Kernel.reset link page) := by
  rw [main, wp_bind, wp_get, wp_bind, wp_onVm, freerange]
  change wp (freerangeLoop _ _) _ E (Vm.mk [] [] page link 0 [] [] false)
  refine wp_freerangeLoop (hE.imp (fun h => h _) fun h x hx => ?_) fun s hs => ?_
  · exact usable_pages h.1 x (Multiset.mem_add.mpr (.inl hx))
  have hfree₁ : s.free = (lowPages link : Multiset Frame) := hs.free.trans (zero_add _)
  have hlink₁ : s.link = link := hs.link
  have hfails₁ : s.fails = [] := hs.fails
  have hgranted₁ : s.granted = (lowPages link).length := by
    rw [granted_of_no_fails hfails₁, hfree₁, Multiset.coe_card]
  rw [wp_bind, kvmalloc, wp_bind, wp_onVm]
  change wp VmM.setupkvm _ E s
  refine wp_setupkvm (fun hgranted => ?_) (fun t hleak _ => ?_) fun t kd hnew => ?_
  · refine wp_throw.mpr (hE.elim (fun h => h _) fun h => ?_)
    have hlen := lowPages_length h.1
    omega
  · refine wp_throw.mpr (hE.elim (fun h => h _) fun h => ?_)
    have hlen := lowPages_length h.1
    have hlt := hleak.2.1
    rw [kernelTables] at hlt
    omega
  have hlink₂ : t.link = link := hnew.inside.link.trans hlink₁
  have hfails₂ : t.fails = [] := hnew.inside.fails hfails₁
  dsimp only
  rw [wp_modify, wp_bind, wp_onVm, freerange]
  change wp (freerangeLoop _ _) _ E t
  refine wp_freerangeLoop (hE.imp (fun h => h _) fun h x hx => ?_) fun u hu => ?_
  · rw [hlink₂]
    exact usable_pages h.1 x (Multiset.mem_add.mpr (.inr hx))
  have hlink₃ : u.link = link := hu.link.trans hlink₂
  have hfree₃ : u.free = t.free + (highPages : Multiset Frame) := hu.free
  have hcard : 56320 ≤ u.free.card := by
    rw [hfree₃, Multiset.card_add, Multiset.coe_card, highPages_eq, List.length_range']
    omega
  have hgranted₃ : u.granted = u.free.card := granted_of_no_fails (hu.fails.trans hfails₂)
  have hgood : ∀ x ∈ (lowPages link : Multiset Frame) + highPages, ¬ BadFrame link x := by
    intro x hx
    rcases Multiset.mem_add.mp hx with hx | hx
    · exact hs.good x hx
    · rw [← hlink₂]
      exact hu.good x hx
  refine wp_userinit (hE.imp (fun h => h _) fun h => h.2) (fun _ => rfl) ?_
    fun v f d hacct hlink hcount hfails hspace => hok _ (boots rfl rfl rfl rfl
      (hlink.trans hlink₃) hspace ?_ hgood ?_)
  · change 200 ≤ u.granted
    omega
  · have hacct' : v.free + ({f} + d.held) = u.free := hacct
    have hfirst := hnew.acct
    rw [hacct', hfree₃, ← hfree₁, ← hfirst]
    abel
  · have hcount' : u.granted ≤ v.granted + 68 := hcount
    rw [granted_of_no_fails (hfails (hu.fails.trans hfails₂))] at hcount'
    omega

end Xv6
