import Xv6.Vm.Translate
import Xv6.Vm.Uvm

/-!
# What `deallocuvm` unmaps

Where a page table is missing, `deallocuvm` goes on 4 MB further, not at the next page
table. When its first page is not the first one of a page table, it can come into a page
table behind a page that is there, and this page stays mapped.
-/

namespace Xv6

open Foundation VmM

/-- From page `q`, page `m` is passed over: the page tables before that of page `m` are missing,
and its own is entered behind it. -/
def Pgdir.Passes (d : Pgdir) (q m : ℕ) : Prop :=
  m % NPTENTRIES < q % NPTENTRIES ∧
    ∀ i < m / NPTENTRIES, q / NPTENTRIES ≤ i → d.hasTable (i * NPTENTRIES * PGSIZE) = false

instance (d : Pgdir) (q m : ℕ) : Decidable (d.Passes q m) := inferInstanceAs (Decidable (_ ∧ _))

/-- Page `m` is looked at on the way from page `q` to `oldsz`. -/
def Pgdir.Reaches (d : Pgdir) (q oldsz m : ℕ) : Prop :=
  (q ≤ m ∧ m * PGSIZE < oldsz) ∧ ¬ d.Passes q m

instance (d : Pgdir) (q oldsz m : ℕ) : Decidable (d.Reaches q oldsz m) :=
  inferInstanceAs (Decidable (_ ∧ _))

/-- One round of `deallocuvm` as `vm.c` has it. -/
def VmM.deallocuvmRound (oldsz : ℕ) : ℕ × Pgdir → VmM ((ℕ × Pgdir) ⊕ Pgdir)
  | (a, d) =>
      if a < oldsz then do
        match ← walkpgdir d a false with
        | none => return .inl (uint (a + (NPTENTRIES - 1) * PGSIZE + PGSIZE), d)
        | some d =>
            if (d.pte a).p then do
              if (d.pte a).frame = 0 then panic .kfree
              else do
                kfree (d.pte a).frame
                return .inl (uint (a + PGSIZE), d.setPte a .zero)
            else return .inl (uint (a + PGSIZE), d)
      else return .inr d

/-- What has been unmapped from page `q` on. -/
structure Clears (s : Vm) (d : Pgdir) (q oldsz : ℕ) (t : Vm) (d' : Pgdir) : Prop where
  frame : d'.frame = d.frame
  has : ∀ i, (d'.pde i).isSome = (d.pde i).isSome
  pte : ∀ m < numPages, d'.pte (m * PGSIZE) =
    if d.Reaches q oldsz m ∧ (d.pte (m * PGSIZE)).p = true then .zero else d.pte (m * PGSIZE)
  good : ∀ m < numPages, d.Reaches q oldsz m → (d.pte (m * PGSIZE)).p = true →
    ¬ BadFrame s.link (d.pte (m * PGSIZE)).frame
  freed : ∃ l : List Frame, t.freelist = l ++ s.freelist ∧ (l : Multiset Frame) =
    ∑ m ∈ Finset.range userPages, if d.Reaches q oldsz m then (d.pte (m * PGSIZE)).frames else 0
  page : ∀ f, (∀ m < userPages, d.Reaches q oldsz m → f ∉ (d.pte (m * PGSIZE)).frames) →
    t.page f = s.page f

variable {s t : Vm} {d d' : Pgdir} {q m oldsz newsz : ℕ} {E : VmStop → Prop}

/-! ### The walk -/

theorem Pgdir.hasTable_of_p (hp : (d.pte (m * PGSIZE)).p = true) :
    d.hasTable (m * PGSIZE) = true := by
  by_contra hno
  rw [pte_of_not_hasTable (by simpa using hno)] at hp
  cases hp

/-- Where there is a page table, nothing is passed over. -/
theorem Pgdir.not_passes_of_hasTable (h : d.hasTable (q * PGSIZE) = true) (hqm : q ≤ m) :
    ¬ d.Passes q m := by
  rintro ⟨hlt, hmissing⟩
  rw [NPTENTRIES_eq] at hlt hmissing
  have hno := hmissing (q / 1024) (by omega) le_rfl
  rw [← NPTENTRIES_eq, hasTable_congr (m := q)] at hno
  · rw [h] at hno
    cases hno
  · rw [NPTENTRIES_eq]
    omega

/-- The first page of a page table is not passed over, nor any page behind it. -/
theorem Pgdir.not_passes_of_first (h : q % NPTENTRIES = 0) : ¬ d.Passes q m := fun hpass => by
  have hlt := hpass.1
  omega

/-- A page table is missing. -/
theorem Pgdir.reaches_null (h : d.hasTable (q * PGSIZE) = false)
    (hp : (d.pte (m * PGSIZE)).p = true) :
    d.Reaches q oldsz m ↔ d.Reaches (q + 1024) oldsz m := by
  have htable := hasTable_of_p hp
  have hne : q / 1024 ≠ m / 1024 := fun heq => by
    rw [← hasTable_congr (d := d) (n := q) (by rw [NPTENTRIES_eq, heq]), h] at htable
    cases htable
  have hfirst : d.hasTable (q / 1024 * 1024 * PGSIZE) = false := by
    rw [hasTable_congr (m := q) (by rw [NPTENTRIES_eq]; omega)]
    exact h
  have hpass : d.Passes q m ↔ m % 1024 < q % 1024 ∧ (m < q + 1024 ∨ d.Passes (q + 1024) m) := by
    rw [Passes, Passes, NPTENTRIES_eq]
    constructor
    · rintro ⟨hlt, hall⟩
      exact ⟨hlt, .inr ⟨by omega, fun i hi hqi => hall i hi (by omega)⟩⟩
    · rintro ⟨hlt, hnear | ⟨-, hall⟩⟩
      · refine ⟨hlt, fun i hi hqi => ?_⟩
        obtain rfl : i = q / 1024 := by omega
        exact hfirst
      · refine ⟨hlt, fun i hi hqi => ?_⟩
        by_cases hiq : i = q / 1024
        · rw [hiq]
          exact hfirst
        · exact hall i hi (by omega)
  rw [Reaches, Reaches, hpass]
  constructor
  · rintro ⟨⟨hqm, hlt⟩, hno⟩
    have hfar : q + 1024 ≤ m := by
      by_contra hnear
      exact hno ⟨by omega, .inl (by omega)⟩
    refine ⟨⟨hfar, hlt⟩, fun hpass' => hno ⟨?_, .inr hpass'⟩⟩
    have hlt' := hpass'.1
    rw [NPTENTRIES_eq] at hlt'
    omega
  · rintro ⟨⟨hqm, hlt⟩, hno⟩
    exact ⟨⟨by omega, hlt⟩, fun hpass' => hpass'.2.elim (by omega) hno⟩

/-- There is a page table: the next page is looked at. -/
theorem Pgdir.reaches_succ (h : d.hasTable (q * PGSIZE) = true) :
    d.Reaches q oldsz m ↔ m = q ∧ q * PGSIZE < oldsz ∨ d.Reaches (q + 1) oldsz m := by
  have hnext : q + 1 ≤ m → ¬ d.Passes (q + 1) m := fun hqm => by
    by_cases hfirst : (q + 1) % NPTENTRIES = 0
    · exact not_passes_of_first hfirst
    · refine not_passes_of_hasTable ?_ hqm
      rw [NPTENTRIES_eq] at hfirst
      rw [hasTable_congr (m := q) (by rw [NPTENTRIES_eq]; omega)]
      exact h
  rw [Reaches, Reaches]
  constructor
  · rintro ⟨⟨hqm, hlt⟩, -⟩
    rcases Nat.eq_or_lt_of_le hqm with rfl | hqm
    · exact .inl ⟨rfl, hlt⟩
    · exact .inr ⟨⟨hqm, hlt⟩, hnext hqm⟩
  · rintro (⟨rfl, hlt⟩ | ⟨⟨hqm, hlt⟩, -⟩)
    · exact ⟨⟨le_rfl, hlt⟩, not_passes_of_hasTable h le_rfl⟩
    · exact ⟨⟨by omega, hlt⟩, not_passes_of_hasTable h (by omega)⟩

/-! ### What a round does -/

theorem Clears.done (h : oldsz ≤ q * PGSIZE) : Clears s d q oldsz s d := by
  have hno : ∀ m, ¬ d.Reaches q oldsz m := fun m hm =>
    absurd (h.trans (Nat.mul_le_mul_right _ hm.1.1)) (Nat.not_le.mpr hm.1.2)
  refine ⟨rfl, fun _ => rfl, fun m _ => ?_, fun m _ hm => absurd hm (hno m), ⟨[], rfl, ?_⟩,
    fun _ _ => rfl⟩
  · rw [if_neg fun hm => hno m hm.1]
  · exact (Finset.sum_eq_zero fun m _ => if_neg (hno m)).symm

/-- A round that frees nothing. -/
theorem Clears.skip {q' : ℕ} (h : Clears s d q' oldsz t d')
    (hiff : ∀ m, (d.pte (m * PGSIZE)).p = true → (d.Reaches q oldsz m ↔ d.Reaches q' oldsz m)) :
    Clears s d q oldsz t d' := by
  have hframes : ∀ m, (if d.Reaches q oldsz m then (d.pte (m * PGSIZE)).frames else 0) =
      if d.Reaches q' oldsz m then (d.pte (m * PGSIZE)).frames else 0 := fun m => by
    by_cases hp : (d.pte (m * PGSIZE)).p = true
    · rw [if_congr (hiff m hp) rfl rfl]
    · rw [Pte.frames_of_not_p hp, ite_self, ite_self]
  obtain ⟨l, hl, hsum⟩ := h.freed
  refine ⟨h.frame, h.has, fun m hm => ?_, fun m hm hr hp => h.good m hm ((hiff m hp).mp hr) hp,
    ⟨l, hl, ?_⟩, fun f hf => h.page f fun m hm hreach hmem => ?_⟩
  · rw [h.pte m hm]
    refine if_congr ?_ rfl rfl
    exact and_congr_left fun hp => (hiff m hp).symm
  · rw [hsum]
    exact Finset.sum_congr rfl fun m _ => (hframes m).symm
  · have hp : (d.pte (m * PGSIZE)).p = true := by
      by_contra hp
      rw [Pte.frames_of_not_p hp] at hmem
      exact Multiset.notMem_zero f hmem
    exact hf m hm ((hiff m hp).mpr hreach) hmem

/-- A round that frees a page. -/
theorem Clears.free (hq : q < userPages) (hlt : q * PGSIZE < oldsz)
    (hhas : d.hasTable (q * PGSIZE) = true) (hp : (d.pte (q * PGSIZE)).p = true)
    (hgood : ¬ BadFrame s.link (d.pte (q * PGSIZE)).frame)
    (h : Clears (s.putFree (d.pte (q * PGSIZE)).frame) (d.setPte (q * PGSIZE) .zero) (q + 1) oldsz
      t d') : Clears s d q oldsz t d' := by
  have hqn := hq.trans userPages_lt
  have hset : ∀ m < numPages, (d.setPte (q * PGSIZE) .zero).pte (m * PGSIZE) =
      if m = q then .zero else d.pte (m * PGSIZE) := fun m hm =>
    Pgdir.pte_setPte_page hhas hqn hm
  have hreach : ∀ m, (d.setPte (q * PGSIZE) .zero).Reaches (q + 1) oldsz m ↔
      d.Reaches (q + 1) oldsz m := fun m => by
    simp only [Pgdir.Reaches, Pgdir.Passes, Pgdir.hasTable, Pgdir.isSome_setPte]
  have hiff : ∀ m, d.Reaches q oldsz m ↔ m = q ∨ d.Reaches (q + 1) oldsz m := fun m => by
    rw [Pgdir.reaches_succ hhas]
    simp [hlt]
  have hno : ¬ d.Reaches (q + 1) oldsz q := fun hr => absurd hr.1.1 (by omega)
  obtain ⟨l, hl, hsum⟩ := h.freed
  refine ⟨h.frame.trans Pgdir.frame_setPte, fun i => (h.has i).trans Pgdir.isSome_setPte,
    fun m hm => ?_, fun m hm hr hpm => ?_, ⟨l ++ [(d.pte (q * PGSIZE)).frame], ?_, ?_⟩,
    fun f hf => ?_⟩
  · rw [h.pte m hm, hset m hm]
    by_cases hmq : m = q
    · rw [if_pos hmq, if_neg (by simp [Pte.zero]), if_pos ⟨(hiff m).mpr (.inl hmq), hmq ▸ hp⟩]
    · rw [if_neg hmq]
      refine if_congr (and_congr_left fun _ => ?_) rfl rfl
      rw [hreach, hiff]
      simp [hmq]
  · by_cases hmq : m = q
    · rw [hmq]
      exact hgood
    · have hg := h.good m hm ((hreach m).mpr (((hiff m).mp hr).resolve_left hmq))
      rw [hset m hm, if_neg hmq] at hg
      exact hg hpm
  · rw [hl, List.append_assoc]
    rfl
  · have hmem : q ∈ Finset.range userPages := Finset.mem_range.mpr hq
    have hrest : ∀ m ∈ (Finset.range userPages).erase q,
        (if d.Reaches q oldsz m then (d.pte (m * PGSIZE)).frames else 0) =
          if (d.setPte (q * PGSIZE) .zero).Reaches (q + 1) oldsz m then
            ((d.setPte (q * PGSIZE) .zero).pte (m * PGSIZE)).frames else 0 := by
      intro m hm
      rw [Finset.mem_erase, Finset.mem_range] at hm
      rw [hset m (hm.2.trans userPages_lt), if_neg hm.1]
      refine if_congr ?_ rfl rfl
      rw [hreach, hiff]
      simp [hm.1]
    have hnone : (if (d.setPte (q * PGSIZE) .zero).Reaches (q + 1) oldsz q then
        ((d.setPte (q * PGSIZE) .zero).pte (q * PGSIZE)).frames else 0) = 0 :=
      if_neg fun hr => hno ((hreach q).mp hr)
    rw [← Multiset.coe_add, hsum, ← Finset.add_sum_erase _ _ hmem, hnone, zero_add,
      ← Finset.add_sum_erase _ (fun m => if d.Reaches q oldsz m then
        (d.pte (m * PGSIZE)).frames else 0) hmem, Finset.sum_congr rfl hrest,
      if_pos ((hiff q).mpr (.inl rfl)), Pte.frames_of_p hp, add_comm]
    rfl
  · have hfq : f ≠ (d.pte (q * PGSIZE)).frame := fun heq => by
      refine hf q hq ((hiff q).mpr (.inl rfl)) ?_
      rw [Pte.frames_of_p hp, heq]
      exact Multiset.mem_singleton_self _
    rw [h.page f fun m hm hr hmem => ?_]
    · exact Function.update_of_ne hfq _ _
    · have hr' := (hreach m).mp hr
      have hmq : m ≠ q := fun heq => hno (heq ▸ hr')
      rw [hset m (hm.trans userPages_lt), if_neg hmq] at hmem
      exact hf m hm ((hiff m).mpr (.inr hr')) hmem

theorem wp_deallocuvmLoop_clears (hold : oldsz ≤ KERNBASE) {rounds : ℕ}
    {Q : Pgdir → Vm → Prop} (hrounds : oldsz ≤ (q + rounds) * PGSIZE)
    (hbad : ∀ m < numPages, q ≤ m → m * PGSIZE < oldsz → (d.pte (m * PGSIZE)).p = true →
      BadFrame s.link (d.pte (m * PGSIZE)).frame → E (.panic .kfree))
    (hok : ∀ t d', Clears s d q oldsz t d' → Q d' t) :
    wp (deallocuvmLoop oldsz rounds (q * PGSIZE) d) Q E s :=
  wp_deallocuvmLoop_of hold (fun q s d t d' => Clears s d q oldsz t d')
    (fun _ _ _ hend => Clears.done hend)
    (fun _ _ _ _ _ _ hhas h => h.skip fun _ hp => Pgdir.reaches_null hhas hp)
    (fun q _ d _ _ _ hhas hp h => h.skip fun m hpm => by
      have hmq : m ≠ q := by
        rintro rfl
        exact hp hpm
      rw [Pgdir.reaches_succ hhas]
      simp [hmq])
    (fun _ _ _ _ _ hq hlt hhas hp hgood h => Clears.free hq hlt hhas hp hgood h) hrounds hbad hok

/-! ### `deallocuvm` -/

/-- The pages of `[PGROUNDUP(newsz), oldsz)`, and nothing else, have been unmapped and freed. -/
structure Unmaps (s : Vm) (d : Pgdir) (oldsz newsz : ℕ) (t : Vm) (d' : Pgdir) : Prop where
  gone : ∀ a, newsz ≤ a / PGSIZE * PGSIZE → a < oldsz → d'.translate a = none
  others : ∀ a < 2 ^ 32, a / PGSIZE * PGSIZE < newsz ∨ oldsz ≤ a / PGSIZE * PGSIZE →
    d'.pte a = d.pte a
  freed : ∃ l : List Frame, t.freelist = l ++ s.freelist ∧ (l : Multiset Frame) =
    ∑ m ∈ Finset.Ico (pageUp newsz) (pageUp oldsz), (d.pte (m * PGSIZE)).frames

/-- A present page of the range that is not unmapped, or that `kfree` refuses. -/
def Stuck (s : Vm) (d : Pgdir) (oldsz newsz m : ℕ) : Prop :=
  (newsz ≤ m * PGSIZE ∧ m * PGSIZE < oldsz ∧ (d.pte (m * PGSIZE)).p = true) ∧
    (d.Passes (pageUp newsz) m ∨ BadFrame s.link (d.pte (m * PGSIZE)).frame)

theorem wp_deallocuvm_clears (hold : oldsz ≤ KERNBASE) (hlt : newsz < oldsz)
    {Q : Pgdir × ℕ → Vm → Prop}
    (hbad : ∀ m, newsz ≤ m * PGSIZE → m * PGSIZE < oldsz → (d.pte (m * PGSIZE)).p = true →
      BadFrame s.link (d.pte (m * PGSIZE)).frame → E (.panic .kfree))
    (hok : ∀ t d', Clears s d (pageUp newsz) oldsz t d' → Q (d', newsz) t) :
    wp (deallocuvm d oldsz newsz) Q E s := by
  rw [deallocuvm, if_neg (Nat.not_le.mpr hlt), wp_bind, PGROUNDUP_eq (hlt.le.trans hold)]
  refine wp_deallocuvmLoop_clears hold ?_
    (fun m _ hqm hmlt hp => hbad m (pageUp_le_iff.mp hqm) hmlt hp) fun t d' h =>
    wp_pure.mpr (hok t d' h)
  rw [PGSIZE_eq]
  omega

/-- Where nothing is stuck, everything in the range is unmapped. -/
theorem Clears.unmaps (h : Clears s d (pageUp newsz) oldsz t d') (hold : oldsz ≤ KERNBASE)
    (hfree : ∀ m, ¬ Stuck s d oldsz newsz m) : Unmaps s d oldsz newsz t d' := by
  have hreach : ∀ m, (d.pte (m * PGSIZE)).p = true →
      (d.Reaches (pageUp newsz) oldsz m ↔ newsz ≤ m * PGSIZE ∧ m * PGSIZE < oldsz) := by
    intro m hp
    rw [Pgdir.Reaches, pageUp_le_iff, and_iff_left_iff_imp]
    exact fun hin hpass => hfree m ⟨⟨hin.1, hin.2, hp⟩, .inl hpass⟩
  have hpage : ∀ a < 2 ^ 32, a / PGSIZE < numPages := fun a ha => by
    rw [PGSIZE_eq, numPages]
    omega
  refine ⟨fun a hlo hhi => ?_, fun a ha hout => ?_, ?_⟩
  · have hlt : a < 2 ^ 32 := by
      rw [KERNBASE] at hold
      omega
    rw [Pgdir.translate_eq_none_iff, ← Pgdir.pte_page, h.pte _ (hpage a hlt)]
    by_cases hp : (d.pte (a / PGSIZE * PGSIZE)).p = true
    · rw [if_pos ⟨(hreach _ hp).mpr ⟨hlo, (Nat.div_mul_le_self a PGSIZE).trans_lt hhi⟩, hp⟩]
      simp [Pte.zero]
    · rw [if_neg fun hr => hp hr.2]
      exact hp
  · rw [← Pgdir.pte_page, h.pte _ (hpage a ha), if_neg, Pgdir.pte_page]
    rintro ⟨hr, hp⟩
    obtain ⟨hlo, hhi⟩ := (hreach _ hp).mp hr
    omega
  · obtain ⟨l, hl, hsum⟩ := h.freed
    refine ⟨l, hl, ?_⟩
    have hsub : Finset.Ico (pageUp newsz) (pageUp oldsz) ⊆ Finset.range userPages := fun m hm => by
      rw [Finset.mem_Ico, lt_pageUp_iff] at hm
      rw [Finset.mem_range, userPages_eq]
      rw [KERNBASE] at hold
      rw [PGSIZE_eq] at hm
      omega
    rw [hsum, ← Finset.sum_subset hsub]
    · refine Finset.sum_congr rfl fun m hm => ?_
      rw [Finset.mem_Ico, pageUp_le_iff, lt_pageUp_iff] at hm
      by_cases hp : (d.pte (m * PGSIZE)).p = true
      · rw [if_pos ((hreach m hp).mpr hm)]
      · rw [Pte.frames_of_not_p hp, ite_self]
    · intro m _ hm
      rw [Finset.mem_Ico, pageUp_le_iff, lt_pageUp_iff] at hm
      by_cases hp : (d.pte (m * PGSIZE)).p = true
      · rw [if_neg fun hr => hm ((hreach m hp).mp hr)]
      · rw [Pte.frames_of_not_p hp, ite_self]

theorem deallocuvm_ok_iff (hold : oldsz ≤ KERNBASE) (hlt : newsz < oldsz) :
    (∃ t d', deallocuvm d oldsz newsz s = .ok ((d', newsz), t) ∧ Unmaps s d oldsz newsz t d') ↔
      ∀ m, ¬ Stuck s d oldsz newsz m := by
  constructor
  · rintro ⟨t, d', hok, hunmaps⟩ m ⟨⟨hlo, hhi, hp⟩, hstuck⟩
    have hclears : wp (deallocuvm d oldsz newsz)
        (fun r t => Clears s d (pageUp newsz) oldsz t r.1) (fun _ => True) s :=
      wp_deallocuvm_clears hold hlt (fun _ _ _ _ _ => trivial) fun _ _ h => h
    have h := (wp_of_ok hok).mp hclears
    have hmn : m < numPages := by
      rw [KERNBASE] at hold
      rw [PGSIZE_eq] at hhi
      rw [numPages]
      omega
    have hdiv : m * PGSIZE / PGSIZE = m := Nat.mul_div_cancel m (by decide)
    have hgone := Pgdir.translate_eq_none_iff.mp
      (hunmaps.gone (m * PGSIZE) (by rwa [hdiv]) hhi)
    by_cases hpass : d.Passes (pageUp newsz) m
    · rw [h.pte m hmn, if_neg fun hr => hr.1.2 hpass] at hgone
      exact hgone hp
    · exact h.good m hmn ⟨⟨pageUp_le_iff.mpr hlo, hhi⟩, hpass⟩ hp (hstuck.resolve_left hpass)
  · intro hfree
    have hwp : wp (deallocuvm d oldsz newsz) (fun r t => ∃ d', r = (d', newsz) ∧
        Unmaps s d oldsz newsz t d') (fun _ => False) s :=
      wp_deallocuvm_clears hold hlt
        (fun m hlo hhi hp hbad => hfree m ⟨⟨hlo, hhi, hp⟩, .inr hbad⟩)
        fun t d' h => ⟨d', rfl, h.unmaps hold hfree⟩
    obtain ⟨_, t, hok, d', rfl, hunmaps⟩ := hwp.exists_ok
    exact ⟨t, d', hok, hunmaps⟩

/-! ### The rounds of `deallocuvm` come to an end -/

/-- A round that is not the last one starts below `oldsz` and goes on by a page at least. -/
theorem deallocuvmRound_inl {a : ℕ} {b : ℕ × Pgdir}
    (h : deallocuvmRound oldsz (a, d) s = .ok (.inl b, t)) :
    a < oldsz ∧ (b.1 = uint (a + PGSIZE) ∨ b.1 = uint (a + (NPTENTRIES - 1) * PGSIZE + PGSIZE)) := by
  have hround : wp (deallocuvmRound oldsz (a, d)) (fun r _ => ∀ b, r = .inl b → a < oldsz ∧
      (b.1 = uint (a + PGSIZE) ∨ b.1 = uint (a + (NPTENTRIES - 1) * PGSIZE + PGSIZE)))
      (fun _ => True) s := by
    rw [deallocuvmRound, wp_ite]
    refine ⟨fun hlt => ?_, fun _ => by simp⟩
    rw [wp_bind]
    refine wp_of_forall (fun r u => ?_) fun _ => trivial
    cases r with
    | none =>
        rw [wp_pure]
        intro b hb
        exact ⟨hlt, .inr (congrArg Prod.fst (Sum.inl.inj hb)).symm⟩
    | some d =>
        dsimp only
        rw [wp_ite, wp_ite]
        refine ⟨fun _ => ⟨fun _ => wp_panic.mpr trivial, fun _ => ?_⟩, fun _ => ?_⟩
        · rw [wp_bind]
          refine wp_of_forall (fun _ v => ?_) fun _ => trivial
          rw [wp_pure]
          intro b hb
          exact ⟨hlt, .inl (congrArg Prod.fst (Sum.inl.inj hb)).symm⟩
        · rw [wp_pure]
          intro b hb
          exact ⟨hlt, .inl (congrArg Prod.fst (Sum.inl.inj hb)).symm⟩
  exact (wp_of_ok h).mp hround b rfl

theorem deallocuvmRound_endsIn (hold : oldsz ≤ KERNBASE) {a rounds : ℕ}
    (hrounds : oldsz ≤ a + rounds * PGSIZE) :
    EndsIn (rounds + 1) (deallocuvmRound oldsz) (a, d) (deallocuvmLoop oldsz rounds a d) := by
  rw [KERNBASE] at hold
  induction rounds generalizing a d with
  | zero =>
      have hge : ¬ a < oldsz := by omega
      refine EndsIn.round (fun b => deallocuvmLoop oldsz 0 b.1 b.2)
        (fun s b t h => absurd (deallocuvmRound_inl h).1 hge) ?_
      rw [deallocuvmLoop, deallocuvmRound, if_neg hge]
      rfl
  | succ rounds ih =>
      refine EndsIn.round (fun b => deallocuvmLoop oldsz rounds b.1 b.2)
        (fun s b t h => ?_) ?_
      · obtain ⟨hlt, hnext⟩ := deallocuvmRound_inl h
        refine ih ?_
        rcases hnext with hnext | hnext
        · rw [hnext, uint]
          rw [PGSIZE_eq] at hrounds ⊢
          omega
        · rw [hnext, uint, NPTENTRIES_eq]
          rw [PGSIZE_eq] at hrounds ⊢
          omega
      · rw [deallocuvmLoop, deallocuvmRound]
        split
        · rw [bind_assoc]
          refine bind_congr fun r => ?_
          cases r with
          | none => rfl
          | some d =>
              dsimp only
              split
              · split
                · rfl
                · rw [bind_assoc]
                  rfl
              · rfl
        · rfl

/-- `deallocuvm` comes to an end, and it unmaps and frees its range exactly if nothing is stuck
there. A page is stuck that `kfree` refuses, or that the loop passes: from an address without a
page table it goes on 1024 pages further, which is behind the start of the next table when it has
not come from the start of one. -/
theorem deallocuvm_unmaps (s : Vm) (d : Pgdir) (hold : oldsz ≤ KERNBASE) (hlt : newsz < oldsz) :
    (∃ n m, EndsIn n (deallocuvmRound oldsz) (PGROUNDUP newsz, d) m ∧
      deallocuvm d oldsz newsz = (fun d' => (d', newsz)) <$> m) ∧
    ((∃ t d', deallocuvm d oldsz newsz s = .ok ((d', newsz), t) ∧ Unmaps s d oldsz newsz t d') ↔
      ∀ m, newsz ≤ m * PGSIZE → m * PGSIZE < oldsz → (d.pte (m * PGSIZE)).p = true →
        ¬ d.Passes (pageUp newsz) m ∧ ¬ BadFrame s.link (d.pte (m * PGSIZE)).frame) := by
  have hrounds : oldsz ≤ PGROUNDUP newsz + (oldsz + PGSIZE - 1) / PGSIZE * PGSIZE := by
    rw [PGSIZE_eq]
    omega
  refine ⟨⟨_, _, deallocuvmRound_endsIn hold hrounds, ?_⟩,
    (deallocuvm_ok_iff hold hlt).trans ?_⟩
  · rw [deallocuvm, if_neg (Nat.not_le.mpr hlt)]
    rfl
  · simp only [Stuck, not_and, not_or, and_imp]

/-- A page table for the second 4 MB in which the first page is mapped. -/
def secondTable : Pgdir :=
  ⟨301, fun i => if i = 1 then
    some ⟨302, fun j => if j = 0 then ⟨300, true, true, true⟩ else .zero⟩ else none⟩

theorem secondTable_frame {a : ℕ} (hp : (secondTable.pte a).p = true) :
    (secondTable.pte a).frame = 300 := by
  simp only [Pgdir.pte, secondTable] at hp ⊢
  split at hp
  · rename_i t ht
    split at ht
    · cases ht
      by_cases hj : PTX a = 0
      · simp [hj]
      · simp [hj, Pte.zero] at hp
    · cases ht
  · cases hp

theorem not_badFrame_freePages : ¬ BadFrame (freePages []).link 300 := by
  simp [BadFrame, freePages, PGSIZE, PHYSTOP]

/-- From the start of the first page table, the page is unmapped. -/
theorem deallocuvm_unmaps_first : ∃ t d',
    deallocuvm secondTable 0x401000 0 (freePages []) = .ok ((d', 0), t) ∧
      Unmaps (freePages []) secondTable 0x401000 0 t d' := by
  refine (deallocuvm_unmaps (freePages []) secondTable (show 0x401000 ≤ KERNBASE by decide)
    (show 0 < 0x401000 by decide)).2.mpr fun m _ _ hp => ⟨Pgdir.not_passes_of_first rfl, ?_⟩
  rw [secondTable_frame hp]
  exact not_badFrame_freePages

/-- From its second page, the first page of the next page table is passed over. -/
theorem deallocuvm_passes : ¬ BadFrame (freePages []).link 300 ∧
    ¬ ∃ t d', deallocuvm secondTable 0x401000 0x1000 (freePages []) = .ok ((d', 0x1000), t) ∧
      Unmaps (freePages []) secondTable 0x401000 0x1000 t d' := by
  refine ⟨not_badFrame_freePages, ?_⟩
  rw [deallocuvm_ok_iff (by decide) (by decide)]
  have hpass : secondTable.Passes (pageUp 0x1000) 1024 := by decide
  exact fun hfree => hfree 1024 ⟨⟨by decide, by decide, rfl⟩, .inl hpass⟩

end Xv6
