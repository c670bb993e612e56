import Xv6.Vm.Copyout
import Xv6.Vm.Fresh

/-!
# The address space that `copyuvm` makes

What is mapped below `sz` is copied, page by page, to pages from `kalloc`. These are
different from each other and from the pages of the old address space, so what is stored
later through one page directory is not seen through the other. It is seen where the kernel
has all of physical memory: there, both page directories have the same pages.
-/

namespace Xv6

open Foundation VmM

/-- The user addresses of two page directories have no place in common. -/
def Apart (d e : Pgdir) : Prop :=
  ∀ a < KERNBASE, ∀ b < KERNBASE, (d.pte a).p = true → (e.pte b).p = true →
    (d.pte a).frame ≠ (e.pte b).frame

/-- Stores through `d`, to user addresses that are mapped, are not seen there through `e`. -/
def Unseen (d e : Pgdir) : Prop :=
  ∀ (g : PhysByte → UInt8) (ws : List (ℕ × UInt8)),
    (∀ w ∈ ws, w.1 < KERNBASE ∧ (d.pte w.1).p = true) →
    ∀ a < KERNBASE, (e.pte a).p = true → storeAll d.place ws g (e.place a) = g (e.place a)

/-- The address space that `copyuvm` returns. -/
structure CopyOf (s : Vm) (pgdir : Pgdir) (sz : ℕ) (t : Vm) (d : Pgdir) : Prop where
  copied : ∀ m, m * PGSIZE < sz → ∃ f ∈ s.freelist,
    d.pte (m * PGSIZE) = ⟨f, true, (pgdir.pte (m * PGSIZE)).w, (pgdir.pte (m * PGSIZE)).u⟩ ∧
      t.page f = s.page (pgdir.pte (m * PGSIZE)).frame
  above : ∀ m < userPages, sz ≤ m * PGSIZE → ¬ (d.pte (m * PGSIZE)).p = true
  kernel : ∃ d₀ t₀, setupkvm s = .ok (some d₀, t₀) ∧
    ∀ a < 2 ^ 32, KERNBASE ≤ a → d.pte a = d₀.pte a
  distinct : ∀ m n, m < n → n < userPages → (d.pte (m * PGSIZE)).p = true →
    (d.pte (n * PGSIZE)).p = true → (d.pte (m * PGSIZE)).frame ≠ (d.pte (n * PGSIZE)).frame
  apart : Apart d pgdir
  unseen : Unseen d pgdir ∧ Unseen pgdir d
  old : ∀ f ∉ s.freelist, t.page f = s.page f

theorem Apart.symm {d e : Pgdir} (h : Apart d e) : Apart e d := fun a ha b hb hpa hpb heq =>
  h b hb a ha hpb hpa heq.symm

theorem Apart.unseen {d e : Pgdir} (h : Apart d e) : Unseen d e := fun _ _ hws a ha hp =>
  storeAll_of_ne fun w hw heq =>
    h w.1 (hws w hw).1 a ha (hws w hw).2 hp (congrArg Prod.fst heq)

section Copy

variable {s t u : Vm} {d d' pgdir : Pgdir} {q k a sz : ℕ} {pa : Frame} {perm : Perm}
  {E : VmStop → Prop}

/-! ### `setupkvm` uses pages of the free list only -/

theorem wp_walkpgdir_uses {alloc : Bool} :
    wp (walkpgdir d a alloc) (fun _ t => Uses s t) (fun _ => True) s := by
  rw [walkpgdir]
  split
  · exact wp_pure.mpr Uses.refl
  · rw [wp_ite]
    refine ⟨fun _ => ?_, fun _ => wp_pure.mpr Uses.refl⟩
    rw [wp_bind]
    refine wp_kalloc_answer (fun _ => wp_pure.mpr ?_) fun _ f free hfree _ => ?_
    · exact ⟨List.suffix_rfl, fun _ _ => rfl, rfl⟩
    · dsimp only
      rw [wp_bind, wp_clear, wp_pure]
      exact Uses.take hfree

theorem wp_mappagesLoop_uses :
    wp (mappagesLoop perm k a pa d) (fun _ t => Uses s t) (fun _ => True) s := by
  induction k generalizing a pa d s with
  | zero => exact wp_pure.mpr Uses.refl
  | succ k ih =>
      rw [mappagesLoop, wp_bind]
      refine wp_mono wp_walkpgdir_uses (fun r t huses => ?_) fun _ he => he
      cases r with
      | none => exact wp_pure.mpr huses
      | some d' =>
          dsimp only
          rw [wp_ite]
          refine ⟨fun _ => wp_panic.mpr trivial, fun _ => ?_⟩
          exact wp_mono ih (fun _ u huses' => huses.trans huses') fun _ he => he

theorem wp_mapKernel_uses {ks : List Kmap} :
    wp (mapKernel ks d) (fun _ t => Uses s t) (fun _ => True) s := by
  induction ks generalizing d s with
  | nil => exact wp_pure.mpr Uses.refl
  | cons k ks ih =>
      rw [mapKernel, wp_bind, mappages]
      refine wp_mono wp_mappagesLoop_uses (fun r t huses => ?_) fun _ he => he
      dsimp only
      rw [wp_ite]
      refine ⟨fun _ => ?_, fun _ => wp_pure.mpr huses⟩
      exact wp_mono ih (fun _ u huses' => huses.trans huses') fun _ he => he

theorem wp_setupkvm_uses : wp setupkvm (fun _ t => Uses s t) (fun _ => True) s := by
  rw [setupkvm, wp_bind]
  refine wp_kalloc_answer (fun _ => wp_pure.mpr ?_) fun _ f free hfree _ => ?_
  · exact ⟨List.suffix_rfl, fun _ _ => rfl, rfl⟩
  · dsimp only
    rw [wp_bind, wp_clear, wp_ite]
    refine ⟨fun _ => wp_panic.mpr trivial, fun _ => ?_⟩
    rw [wp_bind, wp_get]
    have huses : Uses s ((s.give f free).store f fun _ => 0) := Uses.take hfree
    exact wp_mono wp_mapKernel_uses (fun _ u huses' => huses.trans huses') fun _ he => he

/-! ### The rounds -/

def Pgdir.permOf (d : Pgdir) (m : ℕ) : Perm := ⟨(d.pte (m * PGSIZE)).w, (d.pte (m * PGSIZE)).u⟩

def Vm.contents (s : Vm) (d : Pgdir) (m : ℕ) : Page := s.page (d.pte (m * PGSIZE)).frame

/-- The rounds of `copyuvm`, as long as they go on. -/
theorem wp_copyuvmLoop_rounds {x : ℕ → Page} {Q : Pgdir × Bool → Vm → Prop}
    (hqk : q + k ≤ userPages)
    (hpresent : ∀ m, q ≤ m → m < q + k → (pgdir.pte (m * PGSIZE)).p = true)
    (hfree : ∀ m, q ≤ m → m < q + k → (pgdir.pte (m * PGSIZE)).frame ∉ s.freelist)
    (hx : ∀ m, q ≤ m → m < q + k → s.contents pgdir m = x m)
    (hfresh : ∀ m, q ≤ m → m < q + k → ¬ (d.pte (m * PGSIZE)).p = true)
    (hok : ∀ t d', Rounds x pgdir.permOf q k s d t d' → Q (d', true) t)
    (hfail : ∀ t d', Q (d', false) t) :
    wp (copyuvmLoop pgdir k (q * PGSIZE) d) Q E s := by
  have hun := userPages_lt
  induction k generalizing q s d Q with
  | zero => exact wp_pure.mpr (hok s d .done)
  | succ k ih =>
      have hp := hpresent q le_rfl (by omega)
      have hnext : uint ((q * PGSIZE : ℕ) + PGSIZE) = (q + 1) * PGSIZE :=
        uint_page_succ (by omega)
      rw [copyuvmLoop, wp_bind, wp_walkpgdir_found (Pgdir.hasTable_of_p hp)]
      dsimp only
      rw [wp_ite]
      refine ⟨fun hnp => by simp [hp] at hnp, fun _ => ?_⟩
      rw [wp_bind]
      refine wp_kalloc_answer (fun _ => wp_pure.mpr (hfail _ _)) fun hyes f free hlist hanswers => ?_
      dsimp only
      rw [wp_bind, wp_get, wp_bind, wp_store, wp_bind, hnext]
      have hpage : (s.give f free).page (pgdir.pte (q * PGSIZE)).frame = x q :=
        hx q le_rfl (by omega)
      rw [hpage]
      refine wp_fill (by omega) (hfresh q le_rfl (by omega)) hlist hyes hanswers
        (fun l t d' h => ?_) fun t _ => wp_pure.mpr (hfail t d)
      have huses := h.uses
      refine ih (by omega) (fun m hqm hmk => hpresent m (by omega) (by omega))
        (fun m hqm hmk hmem => hfree m (by omega) (by omega) (huses.suffix.mem hmem))
        (fun m hqm hmk => ?_) (fun m hqm hmk => ?_) (fun u d'' hrest => hok u d'' (.map h hrest))
        hfail
      · exact (huses.page _ (hfree m (by omega) (by omega))).trans (hx m (by omega) (by omega))
      · rw [h.pte m (by omega), if_neg (by omega)]
        exact hfresh m (by omega) (by omega)

/-- How `copyuvm` comes to an address space. -/
structure Steps (s : Vm) (pgdir : Pgdir) (sz : ℕ) (t₀ : Vm) (d₀ : Pgdir) (t : Vm) (d : Pgdir) :
    Prop where
  kernel : setupkvm s = .ok (some d₀, t₀)
  uses : Uses s t₀
  rounds : Filled (s.contents pgdir) pgdir.permOf 0 (pageUp sz) t₀ d₀ t d

theorem wp_copyuvm_steps (hsz : sz ≤ KERNBASE) (hnodup : s.freelist.Nodup)
    (hpresent : ∀ m, m * PGSIZE < sz → (pgdir.pte (m * PGSIZE)).p = true)
    (hfree : ∀ m < userPages, (pgdir.pte (m * PGSIZE)).p = true →
      (pgdir.pte (m * PGSIZE)).frame ∉ s.freelist) :
    wp (copyuvm pgdir sz) (fun r t => ∀ d ∈ r, ∃ t₀ d₀, Steps s pgdir sz t₀ d₀ t d)
      (fun _ => True) s := by
  have hset : wp setupkvm (fun r t => ∀ d ∈ r, NewSpace s t d) (fun _ => False) s :=
    wp_setupkvm (fun _ => by simp) (fun _ _ _ => by simp) fun t d h => by simpa using h
  obtain ⟨r, t₀, hrun, hnew⟩ := hset.exists_ok
  have huses : Uses s t₀ := (wp_of_ok hrun).mp wp_setupkvm_uses
  rw [copyuvm, wp_bind, wp_of_ok hrun]
  cases r with
  | none => exact wp_pure.mpr (by simp)
  | some d₀ =>
      have hnew := hnew d₀ rfl
      have hpages : 0 + pageUp sz ≤ userPages := by
        rw [KERNBASE] at hsz
        rw [pageUp, userPages_eq, PGSIZE_eq]
        omega
      have hun := userPages_lt
      have hrounds : copyuvmLoop pgdir ((sz + PGSIZE - 1) / PGSIZE) 0 d₀ =
          copyuvmLoop pgdir (pageUp sz) (0 * PGSIZE) d₀ := by
        rw [zero_mul]
        rfl
      have hthere : ∀ m, 0 ≤ m → m < 0 + pageUp sz → (pgdir.pte (m * PGSIZE)).p = true :=
        fun m _ hm => hpresent m (lt_pageUp_iff.mp (by omega))
      have hkept : ∀ m, 0 ≤ m → m < 0 + pageUp sz →
          (pgdir.pte (m * PGSIZE)).frame ∉ s.freelist := fun m hlo hm =>
        hfree m (by omega) (hthere m hlo hm)
      have hfresh : ∀ m, 0 ≤ m → m < 0 + pageUp sz → ¬ (d₀.pte (m * PGSIZE)).p = true :=
        fun m _ hm => hnew.fresh (by omega)
      dsimp only
      rw [wp_bind, hrounds]
      refine wp_copyuvmLoop_rounds hpages hthere
        (fun m hlo hm hmem => hkept m hlo hm (huses.suffix.mem hmem))
        (fun m hlo hm => huses.page _ (hkept m hlo hm)) hfresh (fun t d h => ?_) fun t d => ?_
      · refine wp_pure.mpr ?_
        rintro _ ⟨⟩
        exact ⟨t₀, d₀, hrun, huses, h.filled (by omega) (huses.nodup hnodup) hfresh⟩
      · dsimp only
        rw [if_neg (by simp), wp_bind]
        exact wp_of_forall (fun _ _ => wp_pure.mpr (by simp)) fun _ => trivial

theorem user_page (ha : a < KERNBASE) : a / PGSIZE < userPages := by
  rw [KERNBASE] at ha
  rw [userPages_eq, PGSIZE_eq]
  omega

theorem Steps.copyOf {t₀ : Vm} {d₀ : Pgdir} (h : Steps s pgdir sz t₀ d₀ t d) (hspace : Space d sz)
    (hfree : ∀ m < userPages, (pgdir.pte (m * PGSIZE)).p = true →
      (pgdir.pte (m * PGSIZE)).frame ∉ s.freelist) : CopyOf s pgdir sz t d := by
  have hfilled := h.rounds
  have hun := userPages_lt
  have hbelow : ∀ m < userPages, (d.pte (m * PGSIZE)).p = true → m < 0 + pageUp sz := fun m hm hp => by
    by_contra hge
    exact hspace.above m hm (pageUp_le_iff.mp (by omega)) hp
  have hnewPage : ∀ m < userPages, (d.pte (m * PGSIZE)).p = true →
      (d.pte (m * PGSIZE)).frame ∈ s.freelist := fun m hm hp => by
    obtain ⟨f, hf, -, -, hpte⟩ := hfilled.pages m (Nat.zero_le m) (hbelow m hm hp) hp
    rw [hpte]
    exact h.uses.suffix.mem hf
  have hapart : Apart d pgdir := fun a ha b hb hpa hpb heq => by
    rw [← Pgdir.pte_page] at hpa hpb
    rw [← Pgdir.pte_page, ← Pgdir.pte_page (a := b)] at heq
    exact hfree _ (user_page hb) hpb (heq ▸ hnewPage _ (user_page ha) hpa)
  refine ⟨fun m hm => ?_, hspace.above, ⟨d₀, t₀, h.kernel, fun a ha hk => ?_⟩,
    fun m n hmn hn hpm hpn => ?_, hapart, ⟨hapart.unseen, hapart.symm.unseen⟩, ?_⟩
  · obtain ⟨f, hf, -, hpage, hpte⟩ := hfilled.pages m (Nat.zero_le m)
      (hbelow m (hspace.page_lt hm) (hspace.present m hm)) (hspace.present m hm)
    exact ⟨f, h.uses.suffix.mem hf, hpte, hpage⟩
  · rw [← Pgdir.pte_page, hfilled.others (a / PGSIZE), Pgdir.pte_page]
    · rw [PGSIZE_eq, numPages]
      omega
    · have hpages : pageUp sz ≤ userPages := by
        have hbound := hspace.bound
        rw [KERNBASE] at hbound
        rw [pageUp, userPages_eq, PGSIZE_eq]
        omega
      rw [userPages_eq] at hpages
      rw [KERNBASE] at hk
      rw [PGSIZE_eq]
      omega
  · exact hfilled.distinct m n (Nat.zero_le m) hmn (hbelow n hn hpn) hpm hpn
  · exact (h.uses.trans hfilled.toUses).page

theorem wp_copyuvm_copy (hsz : sz ≤ KERNBASE) (hnodup : s.freelist.Nodup)
    (hpresent : ∀ m, m * PGSIZE < sz → (pgdir.pte (m * PGSIZE)).p = true)
    (hfree : ∀ m < userPages, (pgdir.pte (m * PGSIZE)).p = true →
      (pgdir.pte (m * PGSIZE)).frame ∉ s.freelist) :
    wp (copyuvm pgdir sz) (fun r t => ∀ d ∈ r, CopyOf s pgdir sz t d) (fun _ => True) s := by
  have hcopied : wp (copyuvm pgdir sz) (fun r t => Copied sz s t r) (fun _ => True) s :=
    wp_copyuvm (.inl ⟨trivial, trivial⟩) (.inl trivial) (.inl trivial) fun _ _ h => h
  refine wp_mono (wp_and (wp_copyuvm_steps hsz hnodup hpresent hfree) hcopied) ?_
    fun _ _ => trivial
  rintro r t ⟨hsteps, hcopied⟩ d hd
  obtain ⟨t₀, d₀, h⟩ := hsteps d hd
  exact h.copyOf (hcopied.space d hd hsz) hfree

/-- When `copyuvm` returns a page directory, this is a copy of its own: below the size every page
has the contents and the permissions of the old one, in a page that was free and is nobody else's,
and the kernel is mapped as `setupkvm` maps it. No page is twice on the free list, and none of the
old address space is on it. -/
theorem copyuvm_copy (s t : Vm) (pgdir d : Pgdir) (hsz : sz ≤ KERNBASE)
    (hnodup : s.freelist.Nodup)
    (hpresent : ∀ m, m * PGSIZE < sz → (pgdir.pte (m * PGSIZE)).p = true)
    (hfree : ∀ m < userPages, (pgdir.pte (m * PGSIZE)).p = true →
      (pgdir.pte (m * PGSIZE)).frame ∉ s.freelist)
    (hok : copyuvm pgdir sz s = .ok (some d, t)) : CopyOf s pgdir sz t d :=
  (wp_of_ok hok).mp (wp_copyuvm_copy hsz hnodup hpresent hfree) d rfl

end Copy

/-- An address space as `setupkvm` makes it, with one page for the user. -/
def oneSpace : Pgdir where
  frame := 400
  pde i :=
    if i.val = 0 then
      some ⟨401, fun j => if j.val = 0 then ⟨402, true, true, true⟩ else .zero⟩
    else if 512 ≤ i.val ∧ i.val < 568 then
      some ⟨i.val, fun j => ⟨(i.val - 512) * 1024 + j.val, true,
        !decide (256 ≤ (i.val - 512) * 1024 + j.val ∧ (i.val - 512) * 1024 + j.val < 258), false⟩⟩
    else if 1016 ≤ i.val then
      some ⟨i.val, fun j => ⟨i.val * 1024 + j.val, true, true, false⟩⟩
    else none

/-- Free pages for another address space of this kind. -/
def sparePages : List Frame := (List.range 67).map (· + 2000)

theorem mem_sparePages {f : ℕ} (hf : f ∈ sparePages) : 2000 ≤ f ∧ f < 2067 := by
  obtain ⟨n, hn, rfl⟩ := List.mem_map.mp hf
  exact ⟨Nat.le_add_left _ _, Nat.add_lt_add_right (List.mem_range.mp hn) 2000⟩

theorem oneSpace_user {m : ℕ} (hm : m < userPages) (hp : (oneSpace.pte (m * PGSIZE)).p = true) :
    (oneSpace.pte (m * PGSIZE)).frame = 402 := by
  have hpdx : (PDX (m * PGSIZE)).val < 512 := by
    rw [PDX_val (hm.trans userPages_lt), NPTENTRIES_eq]
    rw [userPages_eq] at hm
    omega
  simp only [Pgdir.pte, oneSpace] at hp ⊢
  rw [if_neg (show ¬ (512 ≤ (PDX (m * PGSIZE)).val ∧ _) from fun h => absurd h.1 (by omega)),
    if_neg (show ¬ 1016 ≤ (PDX (m * PGSIZE)).val by omega)] at hp ⊢
  split at hp
  · rename_i t ht
    split at ht
    · cases ht
      by_cases hj : (PTX (m * PGSIZE)).val = 0
      · simp [*]
      · simp [hj, Pte.zero] at hp
    · cases ht
  · cases hp

/-- The kernel has a page of physical memory at its address. -/
theorem oneSpace_kernel {f : ℕ} (hf : 2000 ≤ f ∧ f < 2067) :
    (oneSpace.pte (KERNBASE + f * PGSIZE)).p = true ∧
      (oneSpace.pte (KERNBASE + f * PGSIZE)).frame = f := by
  obtain ⟨hlo, hhi⟩ := hf
  have haddr : KERNBASE + f * PGSIZE = (524288 + f) * PGSIZE := by
    rw [Nat.add_mul]
    rfl
  have hpdx : (PDX ((524288 + f) * PGSIZE)).val = 512 + f / 1024 := by
    rw [PDX_val (by rw [numPages]; omega), NPTENTRIES_eq]
    omega
  have hptx : (PTX ((524288 + f) * PGSIZE)).val = f % 1024 := by
    rw [PTX_page]
    change (524288 + f) % 1024 = f % 1024
    omega
  have hframe : (512 + f / 1024 - 512) * 1024 + f % 1024 = f := by omega
  rw [haddr]
  simp only [Pgdir.pte, oneSpace, hpdx]
  rw [if_neg (show ¬ 512 + f / 1024 = 0 by omega),
    if_pos (show 512 ≤ 512 + f / 1024 ∧ 512 + f / 1024 < 568 by omega)]
  dsimp only
  rw [hptx]
  exact ⟨rfl, hframe⟩

theorem oneSpace_present : ∀ m, m * PGSIZE < 4096 → (oneSpace.pte (m * PGSIZE)).p = true :=
  fun m hm => by
    obtain rfl : m = 0 := by
      rw [PGSIZE_eq] at hm
      omega
    rfl

theorem copyuvm_oneSpace :
    ∃ d t, copyuvm oneSpace 4096 (freePages sparePages) = .ok (some d, t) := by
  have hgood : ∀ f ∈ (freePages sparePages).free, ¬ BadFrame (freePages sparePages).link f :=
    fun (f : ℕ) hf => by
      have hbounds := mem_sparePages hf
      change ¬ (f = 0 ∨ f * 4096 < 0x110000 ∨ f * 4096 ≥ 0xE000000)
      omega
  have hwp : wp (copyuvm oneSpace 4096) (fun r t => Copied 4096 (freePages sparePages) t r)
      (fun _ => False) (freePages sparePages) :=
    wp_copyuvm (.inr oneSpace_present) (.inr (by decide)) (.inr hgood) fun _ _ h => h
  obtain ⟨r, t, hok, hcopied⟩ := hwp.exists_ok
  have hneed : (copyNeeds 4096)[(freePages sparePages).granted]? = none := rfl
  obtain ⟨d, rfl⟩ := Option.isSome_iff_exists.mp (hcopied.served.mpr hneed)
  exact ⟨d, t, hok⟩

theorem oneSpace_notMem : ∀ m < userPages, (oneSpace.pte (m * PGSIZE)).p = true →
    (oneSpace.pte (m * PGSIZE)).frame ∉ (freePages sparePages).freelist := fun m hm hp hmem => by
  rw [oneSpace_user hm hp] at hmem
  exact absurd (mem_sparePages hmem).1 (by decide)

theorem copyuvm_copy_one : ∃ d t, copyuvm oneSpace 4096 (freePages sparePages) = .ok (some d, t) ∧
    CopyOf (freePages sparePages) oneSpace 4096 t d := by
  obtain ⟨d, t, hok⟩ := copyuvm_oneSpace
  exact ⟨d, t, hok, copyuvm_copy (freePages sparePages) t oneSpace d (by decide) (by decide)
    oneSpace_present oneSpace_notMem hok⟩

/-- The page of the copy is one that the kernel has in the old address space: what is stored to
address 0 of the copy is seen there. -/
theorem copyuvm_seen : ∃ d t, copyuvm oneSpace 4096 (freePages sparePages) = .ok (some d, t) ∧
    ∃ a < 2 ^ 32, (oneSpace.pte a).p = true ∧ (d.pte 0).p = true ∧
      (oneSpace.pte a).frame = (d.pte 0).frame ∧
        storeAll d.place [(0, 1)] (fun _ => 0) (oneSpace.place a) ≠ 0 := by
  obtain ⟨d, t, hok⟩ := copyuvm_oneSpace
  obtain ⟨f, hf, hpte, -⟩ := ((wp_of_ok hok).mp (wp_copyuvm_copy (by decide) (by decide)
    oneSpace_present oneSpace_notMem) d rfl).copied 0 (by decide)
  have hbounds := mem_sparePages hf
  obtain ⟨hp, hframe⟩ := oneSpace_kernel hbounds
  rw [Nat.zero_mul] at hpte
  have hplace : oneSpace.place (KERNBASE + f * PGSIZE) = d.place 0 := by
    rw [Pgdir.place, Pgdir.place, hframe, hpte]
    refine Prod.ext rfl (Fin.ext ?_)
    change (KERNBASE + f * PGSIZE) % PGSIZE = 0 % PGSIZE
    rw [Nat.add_mul_mod_self_right]
    rfl
  refine ⟨d, t, hok, KERNBASE + f * PGSIZE, ?_, hp, by rw [hpte], by rw [hframe, hpte], ?_⟩
  · rw [KERNBASE, PGSIZE_eq]
    omega
  · rw [hplace, storeAll, storeAll, Function.update_self]
    exact one_ne_zero

end Xv6
