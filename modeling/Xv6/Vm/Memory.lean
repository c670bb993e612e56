import Xv6.Vm.Alloc
import Xv6.Vm.Copy

/-!
# The memory of a process

Between two calls, the pages of a process and the free ones are kept once. `allocuvm` then
keeps the memory below the old size as it is, and what it adds is zero.
-/

namespace Xv6

open Foundation VmM

/-- The memory of a process whose size was `oldsz` and is `newsz`. -/
structure ProcMemory (s : Vm) (d : Pgdir) (oldsz newsz : ℕ) (t : Vm) (d' : Pgdir) : Prop where
  present : ∀ m, m * PGSIZE < newsz → (d'.pte (m * PGSIZE)).p = true
  common : ∀ m, m * PGSIZE < oldsz → m * PGSIZE < newsz →
    d'.pte (m * PGSIZE) = d.pte (m * PGSIZE) ∧ t.contents d' m = s.contents d m
  zero : ∀ m, oldsz ≤ m * PGSIZE → m * PGSIZE < newsz → t.contents d' m = fun _ => 0

/-- No page is touched but the free ones and those of an address space. -/
structure Inner (s : Vm) (d : Pgdir) (t : Vm) (d' : Pgdir) : Prop where
  le : t.free + d'.held ≤ s.free + d.held
  page : ∀ f ∉ s.free + d.held, t.page f = s.page f
  link : t.link = s.link

section Memory

variable {s t u : Vm} {d d' d'' : Pgdir} {q m oldsz newsz r : ℕ} {E : VmStop → Prop}

theorem Inner.refl : Inner s d s d := ⟨le_rfl, fun _ _ => rfl, rfl⟩

theorem Inner.trans (h : Inner s d t d') (h' : Inner t d' u d'') : Inner s d u d'' :=
  ⟨h'.le.trans h.le, fun f hf => by
    rw [h'.page f fun hmem => hf (Multiset.mem_of_le h.le hmem), h.page f hf],
    h'.link.trans h.link⟩

/-! ### Pages -/

/-- Where no page is kept twice, different pages have different frames. -/
theorem Pgdir.frame_inj (hnodup : d.pages.Nodup) {m n : ℕ} (hm : m < userPages) (hn : n < userPages)
    (hpm : (d.pte (m * PGSIZE)).p = true) (hpn : (d.pte (n * PGSIZE)).p = true)
    (heq : (d.pte (m * PGSIZE)).frame = (d.pte (n * PGSIZE)).frame) : m = n := by
  by_contra hne
  have hpages : (d.pte (m * PGSIZE)).frames + (d.pte (n * PGSIZE)).frames ≤ d.pages := by
    have hsub : ({m, n} : Finset ℕ) ⊆ Finset.range userPages := by
      intro k hk
      rcases Finset.mem_insert.mp hk with rfl | hk
      · exact Finset.mem_range.mpr hm
      · rw [Finset.mem_singleton] at hk
        rw [hk]
        exact Finset.mem_range.mpr hn
    rw [Pgdir.pages, ← Finset.sum_pair (f := fun k => (d.pte (k * PGSIZE)).frames) hne]
    exact Finset.sum_le_sum_of_subset hsub
  have hdisjoint := (Multiset.nodup_add.mp (Multiset.nodup_of_le hpages hnodup)).2.2
  rw [Pte.frames, Pte.frames, if_pos hpm, if_pos hpn, Multiset.disjoint_singleton] at hdisjoint
  exact hdisjoint (Multiset.mem_singleton.mpr heq.symm)

theorem Pgdir.frame_mem (hm : m < userPages) (hp : (d.pte (m * PGSIZE)).p = true) :
    (d.pte (m * PGSIZE)).frame ∈ d.pages := by
  rw [Pgdir.pages, Multiset.mem_sum]
  refine ⟨m, Finset.mem_range.mpr hm, ?_⟩
  rw [Pte.frames, if_pos hp]
  exact Multiset.mem_singleton_self _

/-- From the end of an address space, nothing is passed over. -/
theorem Space.not_passes (h : Space d oldsz) (hhas : ∀ i, d.has i = true → d'.has i = true)
    (hm : pageUp oldsz ≤ m) : ¬ d'.Passes (pageUp oldsz) m := by
  rintro ⟨hlt, hmissing⟩
  rw [NPTENTRIES_eq] at hlt hmissing
  have hno := hmissing (pageUp oldsz / 1024) (by omega) le_rfl
  have hlast : (pageUp oldsz - 1) * PGSIZE < oldsz := by
    rw [← lt_pageUp_iff]
    omega
  have hthere := Pgdir.hasTable_of_p (h.present _ hlast)
  rw [hasTable_congr (m := pageUp oldsz / 1024 * 1024) (by rw [NPTENTRIES_eq]; omega)] at hthere
  have hyes : d'.hasTable (pageUp oldsz / 1024 * 1024 * PGSIZE) = true := hhas _ hthere
  rw [hyes] at hno
  cases hno

/-! ### What a process has -/

/-- What a process has and what is free. -/
structure Apiece (s : Vm) (d : Pgdir) (sz : ℕ) : Prop where
  space : Space d sz
  nodup : (s.free + d.held).Nodup
  sound : Sound s d

theorem Apiece.freeList (h : Apiece s d oldsz) : FreeList s where
  nodup := Multiset.coe_nodup.mp (Multiset.nodup_add.mp h.nodup).1
  good := fun f hf => h.sound f (Multiset.mem_add.mpr (.inl hf))

theorem Apiece.pages (h : Apiece s d oldsz) : d.pages.Nodup := by
  have hheld := (Multiset.nodup_add.mp h.nodup).2.1
  exact (Multiset.nodup_add.mp hheld).2.1

theorem Apiece.notMem (h : Apiece s d oldsz) (hm : m < userPages)
    (hp : (d.pte (m * PGSIZE)).p = true) : (d.pte (m * PGSIZE)).frame ∉ s.freelist := fun hmem => by
  have hheld : (d.pte (m * PGSIZE)).frame ∈ d.held :=
    Multiset.mem_add.mpr (.inr (Pgdir.frame_mem hm hp))
  exact Multiset.disjoint_left.mp (Multiset.nodup_add.mp h.nodup).2.2 hmem hheld

theorem Apiece.good (h : Apiece s d oldsz) (hm : m < userPages)
    (hp : (d.pte (m * PGSIZE)).p = true) : ¬ BadFrame s.link (d.pte (m * PGSIZE)).frame :=
  h.sound _ (Multiset.mem_add.mpr (.inr (Multiset.mem_add.mpr (.inr (Pgdir.frame_mem hm hp)))))

/-- The pages of `allocuvm`, when all of them are mapped. -/
theorem Filled.memory (h : Filled (fun _ _ => 0) (fun _ => ⟨true, true⟩) (pageUp oldsz)
    (pageUp newsz - pageUp oldsz) s d t d') (hap : Apiece s d oldsz)
    (hall : ∀ m, pageUp oldsz ≤ m → m < pageUp newsz → (d'.pte (m * PGSIZE)).p = true) :
    ProcMemory s d oldsz newsz t d' := by
  have hspace := hap.space
  have hold : ∀ m, m * PGSIZE < oldsz → d'.pte (m * PGSIZE) = d.pte (m * PGSIZE) := fun m hm =>
    h.others m ((hspace.page_lt hm).trans userPages_lt) (.inl (lt_pageUp_iff.mpr hm))
  refine ⟨fun m hm => ?_, fun m hm _ => ⟨hold m hm, ?_⟩, fun m hlo hhi => ?_⟩
  · by_cases hmo : m * PGSIZE < oldsz
    · rw [hold m hmo]
      exact hspace.present m hmo
    · exact hall m (pageUp_le_iff.mpr (Nat.not_lt.mp hmo)) (lt_pageUp_iff.mpr hm)
  · rw [Vm.contents, hold m hm]
    exact h.page _ (hap.notMem (hspace.page_lt hm) (hspace.present m hm))
  · have hlo' := pageUp_le_iff.mpr hlo
    have hhi' := lt_pageUp_iff.mpr hhi
    obtain ⟨f, -, -, hpage, hpte⟩ := h.pages m hlo' (by omega) (hall m hlo' hhi')
    rw [Vm.contents, hpte]
    exact hpage

/-- No page is touched by `allocuvm` but free ones. -/
theorem AllocEnd.page {k : ℕ} (h : AllocEnd q k newsz s d t d' r) (hqk : q + k ≤ userPages)
    (hnew : newsz ≤ (q + k) * PGSIZE) (hnodup : s.freelist.Nodup)
    (hfresh : ∀ m, q ≤ m → m < q + k → ¬ (d.pte (m * PGSIZE)).p = true) :
    ∀ f ∉ s.freelist, t.page f = s.page f := by
  have hun := userPages_lt
  cases h with
  | all h => exact (h.filled (by omega) hnodup hfresh).page
  | @back j hj u d'' h hno hc =>
      have hfilled := h.filled (by omega) hnodup fun m hlo hhi => hfresh m hlo (by omega)
      intro f hf
      refine (hc.page f fun m hm hr hmem => hf ?_).trans (hfilled.page f hf)
      have hlo := hr.1.1
      have hhi : m < q + k := Nat.lt_of_mul_lt_mul_right (hr.1.2.trans_le hnew)
      by_cases hp : (d''.pte (m * PGSIZE)).p = true
      · have hmj : m < q + j := by
          by_contra hmj
          rw [hfilled.others m (hm.trans hun) (.inr (by omega))] at hp
          exact hfresh m hlo hhi hp
        obtain ⟨g, hg, -, -, hpte⟩ := hfilled.pages m hlo hmj hp
        rw [hpte, Pte.frames, if_pos rfl, Multiset.mem_singleton] at hmem
        rwa [hmem]
      · rw [Pte.frames_of_not_p hp] at hmem
        exact absurd hmem (Multiset.notMem_zero _)

/-- `allocuvm`, where no page table is refused. -/
theorem wp_allocuvm_memory {Q : Pgdir × ℕ → Vm → Prop} (h : Apiece s d oldsz)
    (hle : oldsz ≤ newsz) (hneed : (allocNeeds d.has oldsz newsz)[s.granted]? ≠ some .table)
    (hok : ∀ t d', newsz < KERNBASE → Inner s d t d' → Apiece t d' newsz →
      ProcMemory s d oldsz newsz t d' → Alloc oldsz newsz s d t d' newsz → Q (d', newsz) t)
    (hbad : ∀ t d', Inner s d t d' → Alloc oldsz newsz s d t d' 0 → Q (d', 0) t) :
    wp (allocuvm d oldsz newsz) Q E s := by
  have hspace := h.space
  have hun := userPages_lt
  have halloc : wp (allocuvm d oldsz newsz)
      (fun r t => Alloc oldsz newsz s d t r.1 r.2) (fun _ => False) s :=
    wp_allocuvm (.inr hspace.above_of_lt) (.inr h.sound) fun t d' r ha => ha
  by_cases hnew : newsz < KERNBASE
  · have hpages : pageUp newsz ≤ userPages := by
      rw [KERNBASE] at hnew
      rw [pageUp, userPages_eq, PGSIZE_eq]
      omega
    have hpageUp : pageUp oldsz ≤ pageUp newsz := by
      rw [pageUp, pageUp, PGSIZE_eq]
      omega
    have hend : wp (allocuvm d oldsz newsz) (fun r t =>
        AllocEnd (pageUp oldsz) (pageUp newsz - pageUp oldsz) newsz s d t r.1 r.2)
        (fun _ => False) s :=
      wp_allocuvm_end hle hnew h.freeList (hspace.above_of_lt hnew) fun t d' r hend => hend
    have hfresh : ∀ m, pageUp oldsz ≤ m → m < pageUp oldsz + (pageUp newsz - pageUp oldsz) →
        ¬ (d.pte (m * PGSIZE)).p = true := fun m hlo hhi =>
      hspace.above_of_lt hnew m (pageUp_le_iff.mp hlo) (lt_pageUp_iff.mp (by omega))
    refine wp_mono (wp_and halloc hend) ?_ fun _ he => he.1.elim
    rintro ⟨d', r⟩ t ⟨ha, hend⟩
    dsimp only at ha hend
    have hinner : Inner s d t d' := by
      refine ⟨ha.balance.le, fun f hf => ?_, ha.evolves.link⟩
      refine hend.page (by omega) ?_ h.freeList.nodup hfresh f fun hmem =>
        hf (Multiset.mem_add.mpr (.inl hmem))
      rw [Nat.add_sub_cancel' hpageUp]
      exact pageUp_le_iff.mp le_rfl
    by_cases hr : r = 0
    · subst hr
      exact hbad t d' hinner ha
    · cases hend with
      | back => exact absurd rfl hr
      | all hrounds =>
          have hserved := ha.served_of_ne hr hneed
          have hspace' : Space d' newsz := by
            have hspace' := ha.space hspace (by rw [hserved]; simp)
            rwa [if_neg hr] at hspace'
          have hacct : t.free + d'.held = s.free + d.held := by
            have hbal := ha.balance
            rw [hserved] at hbal
            simpa [Balance] using hbal
          refine hok t d' hnew hinner ⟨hspace', by rw [hacct]; exact h.nodup,
            h.sound.mono hinner.link hinner.le⟩ ?_ ha
          exact (hrounds.filled (by omega) h.freeList.nodup hfresh).memory h fun m _ hhi =>
            hspace'.present m (lt_pageUp_iff.mp hhi)
  · refine wp_mono halloc ?_ fun _ he => he.elim
    rintro ⟨d', r⟩ t ha
    cases ha with
    | tooBig _ ht hd hr =>
        subst ht hd hr
        exact hbad _ _ Inner.refl (.tooBig (Nat.not_lt.mp hnew) rfl rfl rfl)
    | smaller hnew' => exact absurd hnew' hnew
    | grows hnew' => exact absurd hnew' hnew

end Memory

end Xv6
