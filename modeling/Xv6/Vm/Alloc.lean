import Xv6.Vm.Fresh

/-!
# What `allocuvm` promises

`allocuvm` does not look at the result of `mappages`: where there is no page for a page
table it goes on, and returns the new size with a page missing.
-/

namespace Xv6

open Foundation VmM

/-- From page `q`, page `m` is passed over where there are these page tables. -/
def passesOver (has : Fin NPDENTRIES → Bool) (q m : ℕ) : Prop :=
  m % NPTENTRIES < q % NPTENTRIES ∧
    ∀ i < m / NPTENTRIES, q / NPTENTRIES ≤ i → has (PDX (i * NPTENTRIES * PGSIZE)) = false

/-- By the answers of `kalloc`, what `allocuvm` does about `k` pages from page `q` on is right:
when it gets to the end all of them are mapped, and otherwise none of those that are mapped is
passed over when they are unmapped. -/
def AllocFits (has : Fin NPDENTRIES → Bool) (q k : ℕ) (answer : ℕ → Bool) : Prop :=
  if (mappedPages has q k answer).2 then
    ∀ m, q ≤ m → m < q + k → m ∈ (mappedPages has q k answer).1
  else ∀ m ∈ (mappedPages has q k answer).1,
    ¬ passesOver (tablesOf has (mappedPages has q k answer).1) q m

/-- What `allocuvm` does when it is right. -/
structure AllocRight (s : Vm) (d : Pgdir) (oldsz newsz : ℕ) (t : Vm) (d' : Pgdir) (r : ℕ) :
    Prop where
  served : r ≠ 0 → r = newsz ∧ ∀ m, oldsz ≤ m * PGSIZE → m * PGSIZE < newsz →
    NewPage s (fun _ => 0) ⟨true, true⟩ m t d'
  distinct : r ≠ 0 → ∀ m n, oldsz ≤ m * PGSIZE → m < n → n * PGSIZE < newsz →
    (d'.pte (m * PGSIZE)).frame ≠ (d'.pte (n * PGSIZE)).frame
  refused : r = 0 → ∀ m, oldsz ≤ m * PGSIZE → m * PGSIZE < newsz →
    ¬ (d'.pte (m * PGSIZE)).p = true
  others : ∀ m < numPages, m * PGSIZE < oldsz ∨ newsz ≤ m * PGSIZE →
    d'.pte (m * PGSIZE) = d.pte (m * PGSIZE)

abbrev ZeroRounds := Rounds (fun _ _ => 0) fun _ => ⟨true, true⟩

section Alloc

variable {s t u : Vm} {d d' d'' : Pgdir} {q k oldsz newsz r : ℕ} {E : VmStop → Prop}

/-- The rounds of `allocuvm`, and what follows when there is no page to map. -/
theorem wp_allocuvmLoop_rounds {Q : Pgdir × ℕ → Vm → Prop} (hqk : q + k ≤ userPages)
    (hfresh : ∀ m, q ≤ m → m < q + k → ¬ (d.pte (m * PGSIZE)).p = true)
    (hok : ∀ t d', ZeroRounds q k s d t d' → Q (d', newsz) t)
    (hbad : ∀ j < k, ∀ u d'', ZeroRounds q j s d u d'' → u.answer 0 = false →
      wp (deallocuvm d'' newsz oldsz) (fun r t => Q (r.1, 0) t) E u.refuse) :
    wp (allocuvmLoop oldsz newsz k (q * PGSIZE) d) Q E s := by
  have hun := userPages_lt
  induction k generalizing q s d Q with
  | zero => exact wp_pure.mpr (hok s d .done)
  | succ k ih =>
      have hnext : uint ((q * PGSIZE : ℕ) + PGSIZE) = (q + 1) * PGSIZE :=
        uint_page_succ (by omega)
      rw [allocuvmLoop, wp_bind]
      refine wp_kalloc_answer (fun hno => ?_) fun hyes f free hfree hanswers => ?_
      · dsimp only
        rw [wp_bind]
        exact wp_mono (hbad 0 (Nat.succ_pos k) s d .done hno)
          (fun r t h => wp_pure.mpr h) fun _ h => h
      · dsimp only
        rw [wp_bind, wp_clear, wp_bind, hnext]
        refine wp_fill (by omega) (hfresh q le_rfl (by omega)) hfree hyes hanswers
          (fun l t d' h => ?_) fun t h => ?_
        · refine ih (by omega) (fun m hqm hmk => ?_) (fun t d'' hrest => hok t d'' (.map h hrest))
            fun j hj u d'' hrest => hbad (j + 1) (Nat.succ_lt_succ hj) u d'' (.map h hrest)
          rw [h.pte m (by omega), if_neg (by omega)]
          exact hfresh m (by omega) (by omega)
        · exact ih (by omega) (fun m hqm hmk => hfresh m (by omega) (by omega))
            (fun t d'' hrest => hok t d'' (.lose h hrest))
            fun j hj u d'' hrest => hbad (j + 1) (Nat.succ_lt_succ hj) u d'' (.lose h hrest)

/-- How `allocuvm` ends, from page `q` with `k` pages to map. -/
inductive AllocEnd (q k newsz : ℕ) (s : Vm) (d : Pgdir) (t : Vm) (d' : Pgdir) : ℕ → Prop where
  | all (h : ZeroRounds q k s d t d') : AllocEnd q k newsz s d t d' newsz
  | back {j : ℕ} (hj : j < k) {u : Vm} {d'' : Pgdir} (h : ZeroRounds q j s d u d'')
      (hno : u.answer 0 = false) (hc : Clears u.refuse d'' q newsz t d') :
      AllocEnd q k newsz s d t d' 0

theorem wp_allocuvm_end {Q : Pgdir × ℕ → Vm → Prop} (hold : oldsz ≤ newsz) (hnew : newsz < KERNBASE)
    (hlist : FreeList s)
    (hfresh : ∀ m, oldsz ≤ m * PGSIZE → m * PGSIZE < newsz → ¬ (d.pte (m * PGSIZE)).p = true)
    (hok : ∀ t d' r, AllocEnd (pageUp oldsz) (pageUp newsz - pageUp oldsz) newsz s d t d' r →
      Q (d', r) t) : wp (allocuvm d oldsz newsz) Q E s := by
  have hrange : ∀ m, pageUp oldsz ≤ m → m < pageUp oldsz + (pageUp newsz - pageUp oldsz) →
      oldsz ≤ m * PGSIZE ∧ m * PGSIZE < newsz := fun m hlo hhi =>
    ⟨pageUp_le_iff.mp hlo, lt_pageUp_iff.mp (by omega)⟩
  have hqk : pageUp oldsz + (pageUp newsz - pageUp oldsz) ≤ userPages := by
    rw [KERNBASE] at hnew
    rw [pageUp, pageUp, userPages_eq, PGSIZE_eq]
    omega
  have hfresh' : ∀ m, pageUp oldsz ≤ m → m < pageUp oldsz + (pageUp newsz - pageUp oldsz) →
      ¬ (d.pte (m * PGSIZE)).p = true := fun m hlo hhi =>
    hfresh m (hrange m hlo hhi).1 (hrange m hlo hhi).2
  rw [allocuvm, if_neg (by omega), if_neg (by omega), PGROUNDUP_eq (hold.trans hnew.le)]
  have hrounds : (newsz - pageUp oldsz * PGSIZE + PGSIZE - 1) / PGSIZE =
      pageUp newsz - pageUp oldsz := by
    rw [pageUp, pageUp, PGSIZE_eq]
    omega
  simp only [hrounds]
  refine wp_allocuvmLoop_rounds hqk hfresh' (fun t d' h => hok t d' newsz (.all h))
    fun j hj u d'' h hno => ?_
  have hlt : oldsz < newsz := by
    rw [pageUp, pageUp, PGSIZE_eq] at hj
    omega
  have hfilled := h.filled (by have := userPages_lt; omega) hlist.nodup fun m hlo hhi =>
    hfresh' m hlo (by omega)
  refine wp_deallocuvm_clears hnew.le hlt (fun m hlo hhi hp hbadf => ?_) fun t d' hc =>
    hok t d' 0 (.back hj h hno hc)
  rw [← pageUp_le_iff] at hlo
  by_cases hm : m < pageUp oldsz + j
  · obtain ⟨f, hf, -, -, hpte⟩ := hfilled.pages m hlo hm hp
    rw [hpte] at hbadf
    have hlink : u.refuse.link = s.link := hfilled.link
    rw [hlink] at hbadf
    exact absurd hbadf (hlist.good f hf)
  · have hmn : m < numPages := by
      rw [KERNBASE] at hnew
      rw [PGSIZE_eq] at hhi
      rw [numPages]
      omega
    rw [hfilled.others m hmn (.inr (by omega))] at hp
    exact absurd hp (hfresh m (pageUp_le_iff.mp hlo) hhi)

/-- When `allocuvm` gets to its end, it is right if every page is mapped. -/
theorem fits_of_all (h : ZeroRounds q k s d t d') (hqk : q + k ≤ numPages)
    (hnodup : s.freelist.Nodup)
    (hfresh : ∀ m, q ≤ m → m < q + k → ¬ (d.pte (m * PGSIZE)).p = true) :
    AllocFits d.has q k s.answer ↔
      ∀ m, q ≤ m → m < q + k → (d'.pte (m * PGSIZE)).p = true := by
  obtain ⟨l, hmem, -, hplan⟩ := h.mapped hqk hnodup hfresh
  have hl := hplan 0
  rw [Nat.add_zero, mappedPages, List.append_nil] at hl
  rw [AllocFits, hl, if_pos rfl]
  refine forall_congr' fun m => forall_congr' fun hlo => forall_congr' fun hhi => ?_
  rw [hmem, and_iff_right ⟨hlo, hhi⟩]

/-- When there is no page for a round, it is right if nothing is passed over. -/
theorem fits_of_back {j : ℕ} (h : ZeroRounds q j s d u d'') (hno : u.answer 0 = false) (hj : j < k)
    (hqj : q + j ≤ numPages) (hnodup : s.freelist.Nodup)
    (hfresh : ∀ m, q ≤ m → m < q + j → ¬ (d.pte (m * PGSIZE)).p = true) :
    AllocFits d.has q k s.answer ↔
      ∀ m, q ≤ m → m < q + j → (d''.pte (m * PGSIZE)).p = true → ¬ d''.Passes q m := by
  obtain ⟨l, hmem, htables, hplan⟩ := h.mapped hqj hnodup hfresh
  obtain ⟨i, hi⟩ : ∃ i, k = j + (i + 1) := ⟨k - j - 1, by omega⟩
  have hl := hplan (i + 1)
  rw [mappedPages, if_neg (by rw [hno]; simp), List.append_nil] at hl
  rw [AllocFits, hi, hl, if_neg (by simp), ← htables]
  refine forall_congr' fun m => ?_
  rw [hmem, and_imp, and_imp]
  exact Iff.rfl

theorem AllocEnd.right (h : AllocEnd (pageUp oldsz) (pageUp newsz - pageUp oldsz) newsz s d t d' r)
    (hold : oldsz ≤ newsz) (hnew : newsz < KERNBASE) (hlist : FreeList s)
    (hfresh : ∀ m, oldsz ≤ m * PGSIZE → m * PGSIZE < newsz → ¬ (d.pte (m * PGSIZE)).p = true) :
    AllocRight s d oldsz newsz t d' r ↔
      AllocFits d.has (pageUp oldsz) (pageUp newsz - pageUp oldsz) s.answer := by
  have hle : pageUp oldsz ≤ pageUp newsz := by
    rw [pageUp, pageUp, PGSIZE_eq]
    omega
  have hqk : pageUp newsz ≤ numPages := by
    rw [KERNBASE] at hnew
    rw [pageUp, numPages, PGSIZE_eq]
    omega
  have hrange : pageUp oldsz + (pageUp newsz - pageUp oldsz) = pageUp newsz := by omega
  have hfresh' : ∀ m, pageUp oldsz ≤ m → m < pageUp newsz → ¬ (d.pte (m * PGSIZE)).p = true :=
    fun m hlo hhi => hfresh m (pageUp_le_iff.mp hlo) (lt_pageUp_iff.mp hhi)
  have hout : ∀ m, m * PGSIZE < oldsz ∨ newsz ≤ m * PGSIZE →
      m < pageUp oldsz ∨ pageUp newsz ≤ m := fun m h =>
    h.imp lt_pageUp_iff.mpr pageUp_le_iff.mpr
  cases h with
  | all h =>
      have hfilled := h.filled (by omega) hlist.nodup fun m hlo hhi => hfresh' m hlo (by omega)
      rw [fits_of_all h (by omega) hlist.nodup fun m hlo hhi => hfresh' m hlo (by omega), hrange]
      constructor
      · intro hright m hlo hhi
        have hne : newsz ≠ 0 := by
          have := lt_pageUp_iff.mp hhi
          omega
        obtain ⟨f, -, -, -, hpte⟩ := (hright.served hne).2 m (pageUp_le_iff.mp hlo)
          (lt_pageUp_iff.mp hhi)
        rw [hpte]
      · intro hall
        refine ⟨fun _ => ⟨rfl, fun m hlo hhi => ?_⟩, fun _ m n hlo hmn hhi => ?_,
          fun h0 m hlo hhi => by omega, fun m hm hmout => ?_⟩
        · rw [← pageUp_le_iff] at hlo
          rw [← lt_pageUp_iff] at hhi
          exact hfilled.pages m hlo (by omega) (hall m hlo hhi)
        · rw [← pageUp_le_iff] at hlo
          rw [← lt_pageUp_iff] at hhi
          exact hfilled.distinct m n hlo hmn (by omega) (hall m hlo (by omega))
            (hall n (by omega) hhi)
        · have hm' := hout m hmout
          exact hfilled.others m hm (by omega)
  | @back j hj u d'' h hno hc =>
      have hfilled := h.filled (by omega) hlist.nodup fun m hlo hhi => hfresh' m hlo (by omega)
      rw [fits_of_back h hno hj (by omega) hlist.nodup fun m hlo hhi => hfresh' m hlo (by omega)]
      have hpte := hc.pte
      constructor
      · intro hright m hlo hhi hp hpass
        have hgone := hright.refused rfl m (pageUp_le_iff.mp hlo) (lt_pageUp_iff.mp (by omega))
        rw [hpte m (by omega), if_neg fun hr => hr.1.2 hpass] at hgone
        exact hgone hp
      · intro hall
        refine ⟨fun h0 => absurd rfl h0, fun h0 => absurd rfl h0, fun _ m hlo hhi => ?_,
          fun m hm hmout => ?_⟩
        · have hlo' := pageUp_le_iff.mpr hlo
          have hhi' := lt_pageUp_iff.mpr hhi
          rw [hpte m (by omega)]
          by_cases hp : (d''.pte (m * PGSIZE)).p = true
          · have hmj : m < pageUp oldsz + j := by
              by_contra hmj
              rw [hfilled.others m (by omega) (.inr (by omega))] at hp
              exact hfresh m hlo hhi hp
            rw [if_pos ⟨⟨⟨hlo', hhi⟩, hall m hlo' hmj hp⟩, hp⟩]
            simp [Pte.zero]
          · rw [if_neg fun hr => hp hr.2]
            exact hp
        · have hnr : ¬ d''.Reaches (pageUp oldsz) newsz m := fun hr => by
            have hlo := pageUp_le_iff.mp hr.1.1
            have hhi := hr.1.2
            omega
          have hm' := hout m hmout
          rw [hpte m hm, if_neg fun hr => hnr hr.1]
          exact hfilled.others m hm (by omega)

/-- `allocuvm` does what it promises exactly if the answers of `kalloc` let it: it returns the new
size with zeroed pages up to there, each its own, or 0 with the address space as it was. It fails
to when a page is there but no page table for it: the result of `mappages` is not looked at. -/
theorem allocuvm_promises (s : Vm) (d : Pgdir) (hold : oldsz ≤ newsz) (hnew : newsz < KERNBASE)
    (hlist : FreeList s)
    (hfresh : ∀ m, oldsz ≤ m * PGSIZE → m * PGSIZE < newsz → ¬ (d.pte (m * PGSIZE)).p = true) :
    (∃ d' r t, allocuvm d oldsz newsz s = .ok ((d', r), t) ∧
      AllocRight s d oldsz newsz t d' r) ↔
      AllocFits d.has (pageUp oldsz) (pageUp newsz - pageUp oldsz) s.answer := by
  have hwp : wp (allocuvm d oldsz newsz) (fun r t => AllocRight s d oldsz newsz t r.1 r.2 ↔
      AllocFits d.has (pageUp oldsz) (pageUp newsz - pageUp oldsz) s.answer) (fun _ => False) s :=
    wp_allocuvm_end hold hnew hlist hfresh fun t d' r h => h.right hold hnew hlist hfresh
  obtain ⟨⟨d', r⟩, t, hok, hiff⟩ := hwp.exists_ok
  constructor
  · rintro ⟨e, r', u, hok', hright⟩
    rw [hok] at hok'
    cases hok'
    exact hiff.mp hright
  · exact fun hfits => ⟨d', r, t, hok, hiff.mpr hfits⟩

end Alloc

theorem freeList_freePages {free : List Frame} (hnodup : free.Nodup)
    (hgood : ∀ f ∈ free, ¬ BadFrame (freePages []).link f) : FreeList (freePages free) :=
  ⟨hnodup, hgood⟩

/-- With two free pages, a page and its page table, the first page is mapped. -/
theorem allocuvm_promises_first : ∃ d' r t,
    allocuvm (.empty 300) 0 4096 (freePages [301, 302]) = .ok ((d', r), t) ∧
      AllocRight (freePages [301, 302]) (.empty 300) 0 4096 t d' r := by
  refine (allocuvm_promises (freePages [301, 302]) (.empty 300) (by decide) (by decide)
    (freeList_freePages (by decide) ?_) fun m _ _ => ?_).mpr ?_
  · simp [BadFrame, freePages, PGSIZE, PHYSTOP]
  · exact Bool.false_ne_true
  · have hmapped : mappedPages (Pgdir.empty 300).has (pageUp 0) (pageUp 4096 - pageUp 0)
        (freePages [301, 302]).answer = ([0], true) := rfl
    rw [AllocFits, hmapped, if_pos rfl]
    intro m _ hm
    obtain rfl : m = 0 := Nat.lt_one_iff.mp hm
    exact List.mem_singleton.mpr rfl

/-- With one free page, there is no page table, and `allocuvm` returns the new size without
the page. -/
theorem allocuvm_unmapped : ∃ d' t,
    allocuvm (.empty 300) 0 4096 (freePages [301]) = .ok ((d', 4096), t) ∧
      ¬ AllocRight (freePages [301]) (.empty 300) 0 4096 t d' 4096 := by
  refine ⟨_, _, rfl, fun hright => ?_⟩
  obtain ⟨f, -, -, -, hpte⟩ := (hright.served (by decide)).2 0 (by decide) (by decide)
  exact Bool.false_ne_true (congrArg Pte.p hpte)

end Xv6
