import Mathlib.Algebra.Order.BigOperators.Group.Finset
import Mathlib.Algebra.Order.Group.Multiset
import Xv6.Foundation.Hoare
import Xv6.Vm.Exec

/-!
# The pages of an address space

`Pgdir.held` is the multiset of the physical pages that a page directory keeps: its own,
those of its page tables, and those mapped below `KERNBASE`. What `vm.c` does to an
address space is described by what it does to `s.free + d.held`.
-/

namespace Xv6

open Foundation

def Pte.frames (x : Pte) : Multiset Frame := if x.p then {x.frame} else 0

def Vm.free (s : Vm) : Multiset Frame := s.freelist

namespace Pgdir

/-- The page that an entry of the directory keeps. -/
def tableAt (d : Pgdir) (i : Fin NPDENTRIES) : Multiset Frame :=
  match d.pde i with
  | some t => {t.frame}
  | none => 0

def tables (d : Pgdir) : Multiset Frame := ∑ i, d.tableAt i

def pages (d : Pgdir) : Multiset Frame := ∑ n ∈ Finset.range userPages, (d.pte (n * PGSIZE)).frames

def held (d : Pgdir) : Multiset Frame := {d.frame} + d.tables + d.pages

end Pgdir

/-! ### Page numbers -/

theorem PDX_page (n : ℕ) : PDX (n * PGSIZE) = Fin.ofNat NPDENTRIES (n / NPTENTRIES) := by
  rw [PDX, mul_comm n, mul_comm NPTENTRIES, Nat.mul_div_mul_left _ _ (by decide)]

theorem PTX_page (n : ℕ) : PTX (n * PGSIZE) = Fin.ofNat NPTENTRIES n := by
  rw [PTX, Nat.mul_div_cancel _ (by decide)]

def numPages : ℕ := 2 ^ 20

/-- Different pages have different entries. -/
theorem page_inj {n m : ℕ} (hn : n < numPages) (hm : m < numPages)
    (hd : PDX (n * PGSIZE) = PDX (m * PGSIZE)) (ht : PTX (n * PGSIZE) = PTX (m * PGSIZE)) :
    n = m := by
  rw [PDX_page, PDX_page, Fin.ext_iff] at hd
  rw [PTX_page, PTX_page, Fin.ext_iff] at ht
  change n / 1024 % 1024 = m / 1024 % 1024 at hd
  change n % 1024 = m % 1024 at ht
  rw [numPages] at hn hm
  omega

theorem userPages_eq : userPages = 524288 := by
  rw [userPages]
  rfl

theorem userPages_lt : userPages < numPages := by
  rw [userPages_eq]
  decide

namespace Pgdir

variable {d : Pgdir}

/-! ### Entries -/

@[simp] theorem frame_setPde {i : Fin NPDENTRIES} {t : Table} : (d.setPde i t).frame = d.frame :=
  rfl

@[simp] theorem frame_setPte {va : ℕ} {x : Pte} : (d.setPte va x).frame = d.frame := by
  rw [setPte]
  split <;> rfl

/-- An empty page table changes no entry. -/
theorem pte_setPde_empty {va : ℕ} {f : Frame} (h : d.pde (PDX va) = none) (vb : ℕ) :
    (d.setPde (PDX va) (.empty f)).pte vb = d.pte vb := by
  by_cases hb : PDX vb = PDX va
  · simp [pte, setPde, hb, h, Table.empty]
  · simp [pte, setPde, hb]

theorem pte_setPte {va vb : ℕ} {x : Pte} (h : d.hasTable va = true) :
    (d.setPte va x).pte vb =
      if PDX vb = PDX va ∧ PTX vb = PTX va then x else d.pte vb := by
  obtain ⟨t, ht⟩ := Option.isSome_iff_exists.mp h
  by_cases hb : PDX vb = PDX va
  · by_cases hx : PTX vb = PTX va
    · simp [setPte, ht, pte, setPde, hb, hx]
    · simp [setPte, ht, pte, setPde, hb, hx]
  · simp [setPte, ht, pte, setPde, hb]

/-- Setting the entry of a page changes no other page. -/
theorem pte_setPte_page {n m : ℕ} {x : Pte} (h : d.hasTable (n * PGSIZE) = true)
    (hn : n < numPages) (hm : m < numPages) :
    (d.setPte (n * PGSIZE) x).pte (m * PGSIZE) = if m = n then x else d.pte (m * PGSIZE) := by
  rw [pte_setPte h]
  by_cases hmn : m = n
  · simp [hmn]
  · rw [if_neg hmn, if_neg fun hb => hmn (page_inj hm hn hb.1 hb.2)]

/-- The entry for an address is that for its page. -/
theorem pte_page {a : ℕ} : d.pte (a / PGSIZE * PGSIZE) = d.pte a := by
  have hpg : PGSIZE = 4096 := rfl
  have hent : NPTENTRIES = 1024 := rfl
  have hd : PDX (a / PGSIZE * PGSIZE) = PDX a := by
    rw [PDX, PDX, hent, hpg]
    congr 1
    omega
  have ht : PTX (a / PGSIZE * PGSIZE) = PTX a := by
    rw [PTX, PTX, hpg]
    congr 1
    omega
  rw [pte, pte, hd, ht]

theorem isSome_setPde {i j : Fin NPDENTRIES} {t : Table} :
    ((d.setPde i t).pde j).isSome = (decide (j = i) || (d.pde j).isSome) := by
  by_cases hj : j = i <;> simp [setPde, hj]

theorem isSome_setPte {va : ℕ} {x : Pte} {i : Fin NPDENTRIES} :
    ((d.setPte va x).pde i).isSome = (d.pde i).isSome := by
  rw [setPte]
  split
  · rename_i t ht
    by_cases hi : i = PDX va
    · simp [setPde, hi, ht]
    · simp [setPde, hi]
  · rfl

theorem pte_of_not_hasTable {va : ℕ} (h : d.hasTable va = false) : d.pte va = .zero := by
  rw [hasTable, Option.isSome_eq_false_iff, Option.isNone_iff_eq_none] at h
  simp [pte, h]

/-! ### The pages that are kept -/

theorem tables_setPde {i : Fin NPDENTRIES} {t : Table} (h : d.pde i = none) :
    (d.setPde i t).tables = {t.frame} + d.tables := by
  have hnew : (d.setPde i t).tableAt i = {t.frame} := by simp [tableAt, setPde]
  have hold : d.tableAt i = 0 := by simp [tableAt, h]
  have hrest : ∑ j ∈ Finset.univ.erase i, (d.setPde i t).tableAt j =
      ∑ j ∈ Finset.univ.erase i, d.tableAt j := by
    refine Finset.sum_congr rfl fun j hj => ?_
    simp [tableAt, setPde, Finset.ne_of_mem_erase hj]
  rw [tables, tables, ← Finset.add_sum_erase _ _ (Finset.mem_univ i),
    ← Finset.add_sum_erase Finset.univ d.tableAt (Finset.mem_univ i), hrest, hnew, hold, zero_add]

theorem tables_setPte {va : ℕ} {x : Pte} : (d.setPte va x).tables = d.tables := by
  rw [setPte]
  split
  · rename_i t ht
    rw [tables, tables]
    refine Finset.sum_congr rfl fun j _ => ?_
    by_cases hj : j = PDX va
    · simp [tableAt, setPde, hj, ht]
    · simp [tableAt, setPde, hj]
  · rfl

theorem pages_congr {d' : Pgdir}
    (h : ∀ n < userPages, (d'.pte (n * PGSIZE)).frames = (d.pte (n * PGSIZE)).frames) :
    d'.pages = d.pages := by
  rw [pages, pages]
  refine Finset.sum_congr rfl fun n hn => ?_
  rw [h n (Finset.mem_range.mp hn)]

/-- The pages after one entry has changed. -/
theorem pages_update {d' : Pgdir} {n : ℕ} {x : Pte} (hn : n < userPages)
    (h : ∀ m < userPages,
      d'.pte (m * PGSIZE) = if m = n then x else d.pte (m * PGSIZE)) :
    d'.pages + (d.pte (n * PGSIZE)).frames = d.pages + x.frames := by
  have hmem : n ∈ Finset.range userPages := Finset.mem_range.mpr hn
  have hrest : ∑ m ∈ (Finset.range userPages).erase n, (d'.pte (m * PGSIZE)).frames =
      ∑ m ∈ (Finset.range userPages).erase n, (d.pte (m * PGSIZE)).frames := by
    refine Finset.sum_congr rfl fun m hm => ?_
    rw [Finset.mem_erase, Finset.mem_range] at hm
    rw [h m hm.2, if_neg hm.1]
  rw [pages, pages, ← Finset.add_sum_erase _ _ hmem,
    ← Finset.add_sum_erase (Finset.range userPages) (fun m => (d.pte (m * PGSIZE)).frames) hmem,
    hrest, h n hn, if_pos rfl]
  abel

theorem pages_eq_zero (h : ∀ n < userPages, ¬ (d.pte (n * PGSIZE)).p = true) : d.pages = 0 := by
  rw [pages]
  refine Finset.sum_eq_zero fun n hn => ?_
  rw [Pte.frames, if_neg (h n (Finset.mem_range.mp hn))]

theorem tables_empty {f : Frame} : (empty f).tables = 0 := Finset.sum_eq_zero fun _ _ => rfl

theorem tables_eq : d.tables = ((List.finRange NPDENTRIES).map d.tableAt).sum := by
  rw [tables, Fin.sum_univ_def]

/-- A page that is mapped below `KERNBASE` is kept. -/
theorem mem_held_of_page {n : ℕ} (hn : n < userPages) (hp : (d.pte (n * PGSIZE)).p = true) :
    (d.pte (n * PGSIZE)).frame ∈ d.held := by
  rw [held, pages, Multiset.mem_add, Multiset.mem_sum]
  refine .inr ⟨n, Finset.mem_range.mpr hn, ?_⟩
  rw [Pte.frames, if_pos hp]
  exact Multiset.mem_singleton_self _

theorem mem_held_of_table {i : Fin NPDENTRIES} {t : Table} (h : d.pde i = some t) :
    t.frame ∈ d.held := by
  rw [held, tables, Multiset.mem_add, Multiset.mem_add, Multiset.mem_sum]
  refine .inl (.inr ⟨i, Finset.mem_univ i, ?_⟩)
  rw [tableAt, h]
  exact Multiset.mem_singleton_self _

theorem frame_mem_held : d.frame ∈ d.held := by
  rw [held, Multiset.mem_add, Multiset.mem_add]
  exact .inl (.inl (Multiset.mem_singleton_self _))

end Pgdir

-- the sums are not to be evaluated
attribute [irreducible] Pgdir.tables Pgdir.pages

end Xv6
