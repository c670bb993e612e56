import Xv6.Vm.Copy
import Xv6.Vm.System

/-!
# Giving memory back

Whatever `kalloc` refuses, a call that builds something in memory loses no page unless the
page it is refused was to become a page table: then the pages that are not yet, or no longer,
reached from the page directory are lost.
-/

namespace Xv6

open Foundation

/-- Nothing is lost by `setupkvm` and `copyuvm`: what is not free belongs to the result. -/
def NothingLost (s t : Vm) (r : Option Pgdir) : Prop := t.free + heldBy r = s.free

/-- Nothing is lost by `allocuvm`; after a failure what it has taken is free again or an empty
page table. -/
structure AllocUndone (s : Vm) (d : Pgdir) (t : Vm) (d' : Pgdir) (r : ℕ) : Prop where
  acct : t.free + d'.held = s.free + d.held
  undone : r = 0 → ∀ m < numPages, (d'.pte (m * PGSIZE)).p = true →
    d'.pte (m * PGSIZE) = d.pte (m * PGSIZE)

/-- Nothing is lost by `exec`: either nothing has changed, or the new address space takes the
place of the old one. -/
def ExecUndone (s : Vm) (old : Pgdir) (t : Vm) : Option Image → Prop
  | none => t.free = s.free
  | some image => t.free + image.pgdir.held = s.free + old.held

/-- Nothing is lost by `fork`. -/
def ForkUndone (w w' : Kernel) (r : Option Slot) : Prop :=
  w'.vm.free + (r.elim 0 fun np => (w'.proc np).held) = w.vm.free

/-- Nothing is lost by `pipealloc`: the page is free or that of the pipe. -/
def PipeUndone (w w' : Kernel) : Option (Fin NFILE × Fin NFILE) → Prop
  | none => w'.vm.free = w.vm.free
  | some _ => w'.vm.free + w'.pipePages.val = w.vm.free + w.pipePages.val

theorem Balance.eq_iff {refused : Option Need} {after before : Multiset Frame}
    (h : Balance refused after before) : after = before ↔ refused ≠ some .table := by
  rw [Balance] at h
  split at h
  · rename_i htable
    simp [htable, h.ne]
  · rename_i htable
    simp [htable, h]

section Calls

variable {s t : Vm} {d d' : Pgdir} {w w' : Kernel}

theorem setupkvm_nothingLost {r : Option Pgdir} (h : VmM.setupkvm s = .ok (r, t)) :
    NothingLost s t r ↔ kernelNeeds[s.granted]? ≠ some .table := by
  have hbalance : wp VmM.setupkvm (fun r t => Balance kernelNeeds[s.granted]? (t.free + heldBy r)
      s.free) (fun _ => True) s := by
    refine wp_setupkvm (fun hnone => ?_) (fun t hleak _ => ?_) fun t d hnew => ?_
    · rw [hnone]
      exact Balance.of_eq (by simp [kernelNeeds]) (add_zero _)
    · have hneed := hleak.needs []
      rw [List.append_nil] at hneed
      exact Balance.of_lt hneed (by rw [heldBy, add_zero]; exact hleak.2.2)
    · have hneed := hnew.needs []
      rw [List.append_nil, List.getElem?_nil] at hneed
      rw [hneed]
      exact Balance.of_eq (by simp) hnew.acct
  exact ((wp_of_ok h).mp hbalance).eq_iff

theorem copyuvm_nothingLost {sz : ℕ} {r : Option Pgdir} (h : VmM.copyuvm d sz s = .ok (r, t)) :
    NothingLost s t r ↔ (copyNeeds sz)[s.granted]? ≠ some .table := by
  have hcopied : wp (VmM.copyuvm d sz) (fun r t => Copied sz s t r) (fun _ => True) s :=
    wp_copyuvm (.inl ⟨trivial, trivial⟩) (.inl trivial) (.inl trivial) fun _ _ h => h
  exact ((wp_of_ok h).mp hcopied).balance.eq_iff

theorem allocuvm_undone {oldsz newsz r : ℕ} (h : VmM.allocuvm d oldsz newsz s = .ok ((d', r), t)) :
    AllocUndone s d t d' r ↔ (allocNeeds d.has oldsz newsz)[s.granted]? ≠ some .table := by
  have halloc : wp (VmM.allocuvm d oldsz newsz) (fun x t => Alloc oldsz newsz s d t x.1 x.2)
      (fun _ => True) s := wp_allocuvm (.inl trivial) (.inl trivial) fun _ _ _ h => h
  have ha := (wp_of_ok h).mp halloc
  constructor
  · exact fun hundone => ha.balance.eq_iff.mp hundone.acct
  · exact fun hneed => ⟨ha.balance.eq_iff.mpr hneed, fun hr _ hm => ha.undone hr hneed hm⟩

theorem exec_undone {file : Option Reader} {stack path : List UInt8} {argv : List (List UInt8)}
    {r : Option Image} (h : VmM.exec file stack path argv d s = .ok (r, t)) :
    ExecUndone s d t r ↔ (execNeeds file stack s.nread)[s.granted]? ≠ some .table := by
  have hexecs : wp (VmM.exec file stack path argv d) (fun r t => Execs file stack s d t r)
      (fun _ => True) s := wp_exec (.inl ⟨trivial, trivial, trivial, trivial, trivial⟩)
    (.inl trivial) fun _ _ h _ => h
  have he := (wp_of_ok h).mp hexecs
  cases r with
  | none => exact (he.bad rfl).eq_iff
  | some image => exact (he.good image rfl).eq_iff

theorem fork_undone {p : Slot} {r : Option Slot} (hw : w.Sane)
    (hrun : (w.proc p).state = .RUNNABLE) (h : KernelM.fork p w = .ok (r, w')) :
    ForkUndone w w' r ↔ (forkNeeds w p)[w.vm.granted]? ≠ some .table := by
  have hforks : wp (KernelM.fork p) (fun r w' => Forks p w r w') (fun _ => True) w :=
    wp_fork hw hrun (.inl ⟨trivial, trivial⟩) fun _ _ h => h
  exact ((wp_of_ok h).mp hforks).balance.eq_iff

theorem pipealloc_undone {r : Option (Fin NFILE × Fin NFILE)} (hw : w.Sane)
    (h : KernelM.pipealloc w = .ok (r, w')) : PipeUndone w w' r := by
  have hpipe : wp KernelM.pipealloc (fun r w' => PipeAlloc w r w' ∧ Shuffles initproc w w')
      (fun _ => True) w :=
    wp_pipealloc hw.files hw.usable hw.free_disjoint fun _ _ h hs _ => ⟨h, hs⟩
  obtain ⟨halloc, hs⟩ := (wp_of_ok h).mp hpipe
  cases r with
  | none => exact halloc.2
  | some f => exact hs.acct

end Calls

/-- A call loses nothing exactly if it is not refused a page table: what it has returned, and what
is on the free list again, are all the pages that it took. For each of the functions that take
pages the list of its needs says what the next page is for. When `walkpgdir` gets no page table,
then `mappages` fails after the page itself has been taken, and nobody frees that page. -/
theorem memory_given_back (s : Vm) (w : Kernel) :
    (∀ t r, VmM.setupkvm s = .ok (r, t) →
      (NothingLost s t r ↔ kernelNeeds[s.granted]? ≠ some .table)) ∧
    (∀ t d sz r, VmM.copyuvm d sz s = .ok (r, t) →
      (NothingLost s t r ↔ (copyNeeds sz)[s.granted]? ≠ some .table)) ∧
    (∀ t d d' oldsz newsz r, VmM.allocuvm d oldsz newsz s = .ok ((d', r), t) →
      (AllocUndone s d t d' r ↔ (allocNeeds d.has oldsz newsz)[s.granted]? ≠ some .table)) ∧
    (∀ t d file stack path argv r, VmM.exec file stack path argv d s = .ok (r, t) →
      (ExecUndone s d t r ↔ (execNeeds file stack s.nread)[s.granted]? ≠ some .table)) ∧
    (w.Sane → ∀ w' p r, (w.proc p).state = .RUNNABLE → KernelM.fork p w = .ok (r, w') →
      (ForkUndone w w' r ↔ (forkNeeds w p)[w.vm.granted]? ≠ some .table)) ∧
    (w.Sane → ∀ w' r, KernelM.pipealloc w = .ok (r, w') → PipeUndone w w' r) :=
  ⟨fun _ _ => setupkvm_nothingLost, fun _ _ _ _ => copyuvm_nothingLost,
    fun _ _ _ _ _ _ => allocuvm_undone, fun _ _ _ _ _ _ _ => exec_undone,
    fun hw _ _ _ => fork_undone hw, fun hw _ _ => pipealloc_undone hw⟩

/-- `copyuvm` takes all of 65 free pages for the kernel part, finds none for the first page of the
process, and gives them back. -/
theorem memory_given_back_copy : ∃ t,
    VmM.copyuvm oneSpace 4096 (freePages (sparePages.take 65)) = .ok (none, t) ∧
      t.free = (freePages (sparePages.take 65)).free := by
  obtain ⟨s, hs⟩ : ∃ s, s = freePages (sparePages.take 65) := ⟨_, rfl⟩
  have hgranted : s.granted = 65 := by
    rw [hs]
    rfl
  have hgood : ∀ f ∈ s.free, ¬ BadFrame s.link f := fun (f : ℕ) hf => by
    rw [hs] at hf ⊢
    have hbounds := mem_sparePages (List.mem_of_mem_take hf)
    change ¬ (f = 0 ∨ f * 4096 < 0x110000 ∨ f * 4096 ≥ 0xE000000)
    omega
  have hwp : wp (VmM.copyuvm oneSpace 4096) (fun r t => Copied 4096 s t r) (fun _ => False) s :=
    wp_copyuvm (.inr oneSpace_present) (.inr (by decide)) (.inr hgood) fun _ _ h => h
  obtain ⟨r, t, hok, hcopied⟩ := hwp.exists_ok
  have hneed : (copyNeeds 4096)[s.granted]? = some .page := by
    rw [hgranted]
    rfl
  obtain rfl : r = none := by
    cases r with
    | none => rfl
    | some d =>
        have hnone := hcopied.served.mp rfl
        rw [hneed] at hnone
        cases hnone
  have hkept := ((memory_given_back s (Kernel.reset s.link fun _ _ => 0)).2.1 t oneSpace 4096 none
    hok).mpr (by rw [hneed]; decide)
  rw [NothingLost, heldBy, add_zero] at hkept
  rw [← hs]
  exact ⟨t, hok, hkept⟩

/-- With a single free page the page directory is lost. -/
theorem page_lost : ∃ s t, VmM.setupkvm s = .ok (none, t) ∧ ¬ t.free = s.free := by
  have hlost : wp VmM.setupkvm (fun r t => r = none ∧ ¬ t.free = (freePages [300]).free)
      (fun _ => False) (freePages [300]) := by
    have hcount : (freePages [300]).granted = 1 := rfl
    refine wp_setupkvm (fun hzero => ?_) (fun t hleak _ => ⟨rfl, hleak.2.2.ne⟩) fun t d hnew => ?_
    · rw [hcount] at hzero
      cases hzero
    · have hgranted := hnew.granted
      rw [hcount, kernelTables] at hgranted
      omega
  obtain ⟨_, t, hok, rfl, hne⟩ := hlost.exists_ok
  exact ⟨_, t, hok, hne⟩

end Xv6
