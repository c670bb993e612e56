import Xv6.Vm.Map

/-!
# The kernel part of an address space

`setupkvm` takes one page for the directory and one for each of the 64 page tables of the
kernel. Where it cannot have one of the tables, it returns without giving anything back.
-/

namespace Xv6

open Foundation VmM

/-- The page after the last one of physical memory, as the kernel sees it. -/
def kernelEnd : ℕ := 581632

/-- The page of `KERNLINK`. -/
def textPage : ℕ := 524544

def devPage : ℕ := 1040384

def kernelTables : ℕ := 64

/-- The address space while `setupkvm` builds it: the kernel's pages below `q` and the
devices' pages below `r` are mapped. -/
structure KernelUpto (s₀ s : Vm) (d : Pgdir) (q r : ℕ) : Prop where
  present : ∀ n < numPages, (d.pte (n * PGSIZE)).p = true ↔
    userPages ≤ n ∧ n < q ∨ devPage ≤ n ∧ n < r
  user : ∀ n < numPages, (d.pte (n * PGSIZE)).u = false
  tables : ∀ i : Fin NPDENTRIES, (d.pde i).isSome = true ↔
    512 ≤ i.val ∧ i.val * NPTENTRIES < q ∨ 1016 ≤ i.val ∧ i.val * NPTENTRIES < r
  granted : s₀.granted = s.granted + 1 +
    (q - userPages + (NPTENTRIES - 1)) / NPTENTRIES + (r - devPage + (NPTENTRIES - 1)) / NPTENTRIES
  acct : s.free + ({d.frame} + d.tables) = s₀.free
  inside : Inside s₀ s

/-- What `setupkvm` returns. -/
structure NewSpace (s t : Vm) (d : Pgdir) : Prop where
  present : ∀ n < numPages, (d.pte (n * PGSIZE)).p = true ↔
    userPages ≤ n ∧ n < kernelEnd ∨ devPage ≤ n
  user : ∀ n < numPages, (d.pte (n * PGSIZE)).u = false
  tables : ∀ i : Fin NPDENTRIES, (d.pde i).isSome = true ↔
    512 ≤ i.val ∧ i.val < 568 ∨ 1016 ≤ i.val
  granted : s.granted = t.granted + 1 + kernelTables
  acct : t.free + d.held = s.free
  inside : Inside s t

theorem numPages_eq : numPages = 1048576 := rfl

theorem PDX_val {n : ℕ} (hn : n < numPages) : (PDX (n * PGSIZE)).val = n / NPTENTRIES := by
  rw [PDX_page]
  change n / 1024 % 1024 = n / 1024
  rw [numPages_eq] at hn
  omega

section Kernel

variable {s₀ s t : Vm} {d d' : Pgdir} {q r n : ℕ} {x : Pte}

theorem KernelUpto.hasTable_iff (h : KernelUpto s₀ s d q r) (hn : n < numPages) :
    d.hasTable (n * PGSIZE) = true ↔ 512 ≤ n / 1024 ∧ n / 1024 * 1024 < q ∨
      1016 ≤ n / 1024 ∧ n / 1024 * 1024 < r := by
  rw [Pgdir.hasTable, h.tables, PDX_val hn]
  rfl

/-- The directory has just been cleared. -/
theorem kernelUpto_empty {f : Frame} {free : List Frame} (hfree : s.free = {f} + (s.give f free).free)
    (hgranted : s.granted = (s.give f free).granted + 1) :
    KernelUpto s ((s.give f free).store f fun _ => 0) (.empty f) userPages devPage where
  present := fun n hn => by
    simp only [Pgdir.empty, Pgdir.pte, Pte.zero]
    constructor
    · simp
    · omega
  user := fun _ _ => rfl
  tables := fun i => by
    have hi := i.isLt
    have hent : NPTENTRIES = 1024 := rfl
    simp only [Pgdir.empty, userPages_eq, devPage, hent]
    constructor
    · simp
    · omega
  granted := by
    rw [Nat.sub_self, Nat.sub_self, Vm.granted_store, hgranted]
    rfl
  acct := by
    rw [Pgdir.tables_empty, add_zero, Vm.free_store, hfree]
    exact add_comm _ _
  inside := Inside.give.trans (Inside.store List.mem_cons_self)

/-- Page `n` is the next one: of the kernel, or of the devices when the kernel is done. -/
def Next (n q r q' r' : ℕ) : Prop :=
  n = q ∧ q' = q + 1 ∧ r' = r ∧ userPages ≤ q ∧ q < kernelEnd ∧ r = devPage ∨
    n = r ∧ q' = q ∧ r' = r + 1 ∧ devPage ≤ r ∧ r < numPages ∧ q = kernelEnd

/-- The next page is mapped. -/
theorem KernelUpto.step {q' r' : ℕ} (h : KernelUpto s₀ s d q r) (hnext : Next n q r q' r')
    (hx : x.p = true) (hu : x.u = false) (hm : Maps s d n x t d') :
    KernelUpto s₀ t d' q' r' := by
  have hent : NPTENTRIES = 1024 := rfl
  have hdir : NPDENTRIES = 1024 := rfl
  rw [Next, userPages_eq, numPages_eq, devPage, kernelEnd] at hnext
  have hn : n < numPages := by
    rw [numPages_eq]
    omega
  have hhas := h.hasTable_iff hn
  refine ⟨fun m hmn => ?_, fun m hmn => ?_, fun i => ?_, ?_, ?_,
    h.inside.trans hm.toInside⟩
  · rw [hm.pte m hmn, userPages_eq, devPage]
    split
    · rw [hx]
      simp only [true_iff]
      omega
    · rw [h.present m hmn, userPages_eq, devPage]
      omega
  · rw [hm.pte m hmn]
    split
    · exact hu
    · exact h.user m hmn
  · have hi := i.isLt
    rw [hm.has, Bool.or_eq_true, h.tables, decide_eq_true_eq, Fin.ext_iff, PDX_val hn]
    simp only [hent, hdir] at *
    omega
  · rw [h.granted, hm.granted]
    simp only [hent, devPage, userPages_eq] at *
    split
    · rename_i hhas'
      rw [hhas] at hhas'
      omega
    · rename_i hhas'
      rw [hhas] at hhas'
      omega
  · rw [hm.frame, ← h.acct, add_left_comm, hm.acct, add_left_comm]

/-- The next page is not mapped yet. -/
theorem KernelUpto.fresh {q' r' : ℕ} (h : KernelUpto s₀ s d q r) (hnext : Next n q r q' r') :
    ¬ (d.pte (n * PGSIZE)).p = true := by
  rw [Next, userPages_eq, numPages_eq, devPage, kernelEnd] at hnext
  have hn : n < numPages := by
    rw [numPages_eq]
    omega
  rw [h.present n hn, userPages_eq, devPage]
  omega

/-- Something has been taken and not given back. -/
def Leaked (s t : Vm) : Prop := 0 < s.granted ∧ s.granted < 1 + kernelTables ∧ t.free < s.free

/-- There is no page for the next page table. -/
theorem KernelUpto.leaked {q' r' : ℕ} (h : KernelUpto s₀ s d q r) (hnext : Next n q r q' r')
    (hhas : d.hasTable (n * PGSIZE) = false) (hgranted : s.granted = 0) :
    Leaked s₀ s.refuse ∧ Inside s₀ s.refuse := by
  have hent : NPTENTRIES = 1024 := rfl
  rw [Next, userPages_eq, numPages_eq, devPage, kernelEnd] at hnext
  have hn : n < numPages := by
    rw [numPages_eq]
    omega
  have hno : ¬ d.hasTable (n * PGSIZE) = true := by rw [hhas]; simp
  rw [h.hasTable_iff hn] at hno
  have hcount := h.granted
  rw [hgranted, userPages_eq, devPage, hent] at hcount
  refine ⟨⟨by omega, by rw [kernelTables]; omega, ?_⟩, h.inside.trans Inside.refuse⟩
  rw [Vm.free_refuse, ← h.acct]
  refine lt_add_of_pos_right _ (pos_iff_ne_zero.mpr fun hzero => ?_)
  rw [Multiset.singleton_add] at hzero
  exact Multiset.cons_ne_zero hzero

/-- `mappages` of `k` pages from page `n`. -/
theorem mappages_pages {n k : ℕ} {pa : Frame} {perm : Perm} (hk : 0 < k)
    (hnk : n + k ≤ numPages) :
    mappages d (n * PGSIZE) (k * PGSIZE) pa perm = mappagesLoop perm k (n * PGSIZE) pa d := by
  have hpg : PGSIZE = 4096 := rfl
  rw [numPages_eq] at hnk
  have ha : PGROUNDDOWN (n * PGSIZE) = n * PGSIZE := by
    rw [PGROUNDDOWN, Nat.mul_div_cancel _ (by decide)]
  have hlast : PGROUNDDOWN (uint ((n * PGSIZE : ℕ) + (k * PGSIZE : ℕ) - 1)) =
      (n + k - 1) * PGSIZE := by
    rw [PGROUNDDOWN, uint, hpg]
    omega
  have hrounds : uint (((n + k - 1) * PGSIZE : ℕ) - (n * PGSIZE : ℕ)) / PGSIZE + 1 = k := by
    rw [uint, hpg]
    omega
  rw [mappages]
  simp only [ha, hlast, hrounds]

variable {E : VmStop → Prop}

/-- A range of the kernel is mapped, up to page `hi`. -/
theorem KernelUpto.wp_kernel {Q : Pgdir × Bool → Vm → Prop} {perm : Perm} {pa : Frame}
    {k : ℕ} (h : KernelUpto s₀ s d q devPage) (hi : ℕ) (hperm : perm.u = false)
    (hq : userPages ≤ q) (hk : 0 < k) (hqk : q + k = hi) (hhi : hi ≤ kernelEnd)
    (hleak : ∀ t d', Leaked s₀ t → Inside s₀ t → Q (d', false) t)
    (hok : ∀ t d', KernelUpto s₀ t d' hi devPage → Q (d', true) t) :
    wp (mappages d (q * PGSIZE) (k * PGSIZE) pa perm) Q E s := by
  have hlast : kernelEnd ≤ numPages := by decide
  have hnext : ∀ n, q ≤ n → n < hi → Next n n devPage (n + 1) devPage := fun n hlo hn =>
    .inl ⟨rfl, rfl, rfl, hq.trans hlo, hn.trans_le hhi, rfl⟩
  rw [mappages_pages hk (by omega)]
  refine wp_mappagesLoop (fun n _ s d => KernelUpto s₀ s d n devPage) (hhi.trans hlast)
    (fun n _ s d hlo hn hI hp => absurd hp (hI.fresh (hnext n hlo hn))) ?_ ?_
    (fun _ s d hI => hok s d hI) le_rfl hqk h
  · intro n pa s d hlo hn hI hhas hg
    obtain ⟨hl, hin⟩ := hI.leaked (hnext n hlo hn) hhas hg
    exact hleak _ _ hl hin
  · intro n pa s d t d' hlo hn hI hm
    exact hI.step (hnext n hlo hn) rfl hperm hm

/-- The devices are mapped. -/
theorem KernelUpto.wp_devices {Q : Pgdir × Bool → Vm → Prop} {perm : Perm} {pa : Frame}
    (h : KernelUpto s₀ s d kernelEnd devPage) (hperm : perm.u = false)
    (hleak : ∀ t d', Leaked s₀ t → Inside s₀ t → Q (d', false) t)
    (hok : ∀ t d', KernelUpto s₀ t d' kernelEnd numPages → Q (d', true) t) :
    wp (mappages d (devPage * PGSIZE) (8192 * PGSIZE) pa perm) Q E s := by
  have hlast : devPage < numPages := by decide
  have hnext : ∀ n, devPage ≤ n → n < numPages → Next n kernelEnd n kernelEnd (n + 1) :=
    fun n hlo hn => .inr ⟨rfl, rfl, rfl, hlo, hn, rfl⟩
  rw [mappages_pages (by decide) (by decide)]
  refine wp_mappagesLoop (fun n _ s d => KernelUpto s₀ s d kernelEnd n) le_rfl
    (fun n _ s d hlo hn hI hp => absurd hp (hI.fresh (hnext n hlo hn))) ?_ ?_
    (fun _ s d hI => hok s d hI) le_rfl (by decide) h
  · intro n pa s d hlo hn hI hhas hg
    obtain ⟨hl, hin⟩ := hI.leaked (hnext n hlo hn) hhas hg
    exact hleak _ _ hl hin
  · intro n pa s d t d' hlo hn hI hm
    exact hI.step (hnext n hlo hn) rfl hperm hm

/-- An entry of `kmap` of `c` pages from page `n`. -/
theorem wp_mapKernel_cons {k : Kmap} {ks : List Kmap} {c : ℕ} {Q : Option Pgdir → Vm → Prop}
    (hvirt : k.virt = n * PGSIZE) (hsize : uint (k.physEnd - k.physStart) = c * PGSIZE)
    (h : wp (mappages d (n * PGSIZE) (c * PGSIZE) (k.physStart / PGSIZE) k.perm)
      (fun r t => (r.2 = false → Q none t) ∧ (r.2 = true → wp (mapKernel ks r.1) Q E t)) E s) :
    wp (mapKernel (k :: ks) d) Q E s := by
  rw [mapKernel, wp_bind, hvirt, hsize]
  refine wp_mono h ?_ fun _ he => he
  rintro ⟨d', _ | _⟩ t ⟨hfail, hok⟩
  · exact wp_pure.mpr (hfail rfl)
  · exact hok rfl

/-- The entries of `kmap`, in pages; `data` is `e` pages from the start of memory. -/
theorem kmap_pages {link : Linker} {e : ℕ} (he : link.data = e * PGSIZE) :
    KERNBASE = userPages * PGSIZE ∧ uint ((EXTMEM : ℕ) - (0 : ℕ)) = 256 * PGSIZE ∧
      KERNLINK = textPage * PGSIZE ∧
      uint (link.data - (KERNLINK - KERNBASE : ℕ)) = (e - 256) * PGSIZE ∧
      KERNBASE + link.data = (userPages + e) * PGSIZE ∧
      uint ((PHYSTOP : ℕ) - link.data) = (57344 - e) * PGSIZE ∧
      DEVSPACE = devPage * PGSIZE ∧ uint ((0 : ℕ) - (DEVSPACE : ℕ)) = 8192 * PGSIZE := by
  have hpg : PGSIZE = 4096 := rfl
  have habove := link.above
  have hbelow := link.below
  have hlink : KERNLINK - KERNBASE = 256 * 4096 := rfl
  rw [EXTMEM, he, hpg] at habove
  rw [PHYSTOP, he, hpg] at hbelow
  refine ⟨by rw [userPages_eq]; rfl, by decide, rfl, ?_, ?_, ?_, by decide, by decide⟩
  · rw [hlink, he, hpg, uint]
    omega
  · rw [he, hpg, KERNBASE, userPages_eq]
    omega
  · rw [he, hpg, uint, PHYSTOP]
    omega

/-- The whole of `kmap` is mapped. -/
theorem KernelUpto.wp_kmap {link : Linker} {Q : Option Pgdir → Vm → Prop}
    (h : KernelUpto s₀ s d userPages devPage)
    (hleak : ∀ t, Leaked s₀ t → Inside s₀ t → Q none t)
    (hok : ∀ t d', KernelUpto s₀ t d' kernelEnd numPages → Q (some d') t) :
    wp (mapKernel (kmap link.data) d) Q E s := by
  have hfail : ∀ (t : Vm) (d' : Pgdir) (ks : List Kmap), Leaked s₀ t → Inside s₀ t →
      ((false : Bool) = false → Q none t) ∧
        ((false : Bool) = true → wp (mapKernel ks d') Q E t) := fun t d' ks hl hin =>
    ⟨fun _ => hleak t hl hin, fun h => by cases h⟩
  have hpg : PGSIZE = 4096 := rfl
  obtain ⟨e, he⟩ : ∃ e, link.data = e * PGSIZE :=
    ⟨link.data / PGSIZE, (Nat.div_mul_cancel (Nat.dvd_of_mod_eq_zero link.aligned)).symm⟩
  have habove := link.above
  have hbelow := link.below
  rw [EXTMEM, he, hpg] at habove
  rw [PHYSTOP, he, hpg] at hbelow
  have htext : userPages + 256 = textPage := by rw [userPages_eq]; rfl
  have hend : kernelEnd = userPages + 57344 := by rw [userPages_eq]; rfl
  obtain ⟨hio, hioSize, hlink, htextSize, hdata, hdataSize, hdev, hdevSize⟩ := kmap_pages he
  refine wp_mapKernel_cons hio hioSize ?_
  refine h.wp_kernel textPage rfl le_rfl (by decide) htext (by clear hioSize hdevSize; omega)
    (fun t d' => hfail t d' _) ?_
  intro s₁ d₁ h₁
  refine ⟨fun h => (by cases h), fun _ => wp_mapKernel_cons hlink htextSize ?_⟩
  clear hioSize
  refine h₁.wp_kernel (userPages + e) rfl (by clear hdevSize; omega) (by clear hdevSize; omega)
    (by clear hdevSize; omega) (by clear hdevSize; omega) (fun t d' => hfail t d' _) ?_
  intro s₂ d₂ h₂
  refine ⟨fun h => (by cases h), fun _ => wp_mapKernel_cons hdata hdataSize ?_⟩
  refine h₂.wp_kernel kernelEnd rfl (by clear hdevSize; omega) (by clear hdevSize; omega)
    (by clear hdevSize; omega) le_rfl (fun t d' => hfail t d' _) ?_
  intro s₃ d₃ h₃
  refine ⟨fun h => (by cases h), fun _ => wp_mapKernel_cons hdev hdevSize ?_⟩
  refine h₃.wp_devices rfl (fun t d' => hfail t d' _) ?_
  intro s₄ d₄ h₄
  exact ⟨fun h => (by cases h), fun _ => wp_pure.mpr (hok s₄ d₄ h₄)⟩

/-- Nothing is mapped below the kernel yet. -/
theorem KernelUpto.newSpace (h : KernelUpto s₀ s d kernelEnd numPages) : NewSpace s₀ s d where
  present := fun n hn => by
    rw [h.present n hn]
    simp [hn]
  user := h.user
  tables := fun i => by
    have hi := i.isLt
    have hdir : NPDENTRIES = 1024 := rfl
    have hent : NPTENTRIES = 1024 := rfl
    rw [h.tables, hent, kernelEnd, numPages_eq]
    omega
  granted := by
    rw [h.granted, kernelEnd, userPages_eq, numPages_eq, devPage]
    rfl
  acct := by
    have hpages : d.pages = 0 := Pgdir.pages_eq_zero fun n hn => by
      rw [h.present n (hn.trans userPages_lt), devPage]
      have := userPages_eq
      omega
    rw [Pgdir.held, hpages, add_zero]
    exact h.acct
  inside := h.inside

/-- `setupkvm` builds a new space, fails without taking anything, or fails with a leak. -/
theorem wp_setupkvm {Q : Option Pgdir → Vm → Prop} (hnone : s.granted = 0 → Q none s.refuse)
    (hleak : ∀ t, Leaked s t → Inside s t → Q none t)
    (hok : ∀ t d, NewSpace s t d → Q (some d) t) : wp setupkvm Q E s := by
  rw [setupkvm, wp_bind]
  refine wp_kalloc (fun h => wp_pure.mpr (hnone h)) fun f free hfree hgranted => ?_
  dsimp only
  rw [wp_bind, wp_clear, if_neg (by decide), wp_bind, wp_get]
  exact (kernelUpto_empty hfree hgranted).wp_kmap hleak fun t d h => hok t d h.newSpace

end Kernel

end Xv6
