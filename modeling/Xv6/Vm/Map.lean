import Xv6.Vm.Frames

/-!
# What `kalloc`, `walkpgdir` and `mappages` do

One rule for each function, for any postcondition and any way to stop. `granted` counts
the calls of `kalloc` that succeed before one fails. `Evolves` is what is true of every
change to an address space: it keeps its page tables, and stores stay inside what the
call has been given.
-/

namespace Xv6

open Foundation VmM

namespace Vm

/-- How many calls of `kalloc` succeed in a row. -/
def grantedOf : List Frame → List Bool → ℕ
  | [], _ => 0
  | _ :: free, fails => if fails.headD false then 0 else grantedOf free fails.tail + 1

def granted (s : Vm) : ℕ := grantedOf s.freelist s.fails

variable {s : Vm}

@[simp] theorem free_refuse : s.refuse.free = s.free := rfl
@[simp] theorem link_refuse : s.refuse.link = s.link := rfl
@[simp] theorem taken_refuse : s.refuse.taken = s.taken := rfl
@[simp] theorem stray_refuse : s.refuse.stray = s.stray := rfl
@[simp] theorem unread_refuse : s.refuse.unread = s.unread := rfl

@[simp] theorem link_give {f : Frame} {l : List Frame} : (s.give f l).link = s.link := rfl
@[simp] theorem taken_give {f : Frame} {l : List Frame} : (s.give f l).taken = f :: s.taken := rfl
@[simp] theorem stray_give {f : Frame} {l : List Frame} : (s.give f l).stray = s.stray := rfl
@[simp] theorem unread_give {f : Frame} {l : List Frame} : (s.give f l).unread = s.unread := rfl

@[simp] theorem free_store {f : Frame} {x : Page} : (s.store f x).free = s.free := rfl
@[simp] theorem granted_store {f : Frame} {x : Page} : (s.store f x).granted = s.granted := rfl
@[simp] theorem link_store {f : Frame} {x : Page} : (s.store f x).link = s.link := rfl
@[simp] theorem taken_store {f : Frame} {x : Page} : (s.store f x).taken = s.taken := rfl
@[simp] theorem unread_store {f : Frame} {x : Page} : (s.store f x).unread = s.unread := rfl


@[simp] theorem link_putFree {f : Frame} : (s.putFree f).link = s.link := rfl
@[simp] theorem taken_putFree {f : Frame} : (s.putFree f).taken = s.taken := rfl
@[simp] theorem stray_putFree {f : Frame} : (s.putFree f).stray = s.stray := rfl
@[simp] theorem unread_putFree {f : Frame} : (s.putFree f).unread = s.unread := rfl

@[simp] theorem free_putFree {f : Frame} : (s.putFree f).free = {f} + s.free := rfl

theorem stray_store {f : Frame} {x : Page} (h : f ∈ s.taken) : (s.store f x).stray = s.stray :=
  if_pos h

end Vm

/-- The stores between two states are to pages that the call was given. -/
structure Inside (s t : Vm) : Prop where
  link : t.link = s.link
  unread : t.unread = s.unread
  nread : t.nread = s.nread
  fails : s.fails = [] → t.fails = []
  taken : ∀ f ∈ s.taken, f ∈ t.taken
  stray : t.stray = s.stray

namespace Inside

variable {s t u : Vm}

theorem refl : Inside s s := ⟨rfl, rfl, rfl, id, fun _ h => h, rfl⟩

theorem trans (h : Inside s t) (h' : Inside t u) : Inside s u :=
  ⟨h'.link.trans h.link, h'.unread.trans h.unread, h'.nread.trans h.nread,
    fun hs => h'.fails (h.fails hs), fun f hf => h'.taken f (h.taken f hf), h'.stray.trans h.stray⟩

theorem refuse : Inside s s.refuse :=
  ⟨rfl, rfl, rfl, fun h => congrArg List.tail h, fun _ h => h, rfl⟩

theorem give {f : Frame} {l : List Frame} : Inside s (s.give f l) :=
  ⟨rfl, rfl, rfl, fun h => congrArg List.tail h, fun _ h => List.mem_cons_of_mem _ h, rfl⟩

theorem store {f : Frame} {x : Page} (hf : f ∈ s.taken) : Inside s (s.store f x) :=
  ⟨rfl, rfl, rfl, id, fun _ h => h, Vm.stray_store hf⟩

theorem putFree {f : Frame} : Inside s (s.putFree f) := ⟨rfl, rfl, rfl, id, fun _ h => h, rfl⟩

end Inside

/-- How an address space grows or shrinks. -/
structure Evolves (s : Vm) (d : Pgdir) (t : Vm) (d' : Pgdir) : Prop extends Inside s t where
  frame : d'.frame = d.frame
  keeps : ∀ i, (d.pde i).isSome = true → (d'.pde i).isSome = true

namespace Evolves

variable {s t u : Vm} {d d' d'' : Pgdir}

theorem trans (h : Evolves s d t d') (h' : Evolves t d' u d'') : Evolves s d u d'' :=
  ⟨h.toInside.trans h'.toInside, h'.frame.trans h.frame, fun i hi => h'.keeps i (h.keeps i hi)⟩

/-- A step that leaves the page directory as it is. -/
theorem of_inside (h : Inside s t) : Evolves s d t d := ⟨h, rfl, fun _ hi => hi⟩

end Evolves

section Rules

variable {s : Vm} {d : Pgdir} {E : VmStop → Prop}

/-- `kalloc` fails exactly when nothing is granted. -/
theorem wp_kalloc {Q : Option Frame → Vm → Prop} (hnone : s.granted = 0 → Q none s.refuse)
    (hsome : ∀ f free, s.free = {f} + (s.give f free).free →
      s.granted = (s.give f free).granted + 1 → Q (some f) (s.give f free)) :
    wp kalloc Q E s := by
  rw [kalloc, wp_bind, wp_get]
  cases hfree : s.freelist with
  | nil =>
      dsimp only
      rw [wp_bind, wp_set, wp_pure]
      exact hnone (by rw [Vm.granted, hfree, Vm.grantedOf])
  | cons f free =>
      dsimp only
      rw [wp_ite]
      constructor
      · intro hfails
        rw [wp_bind, wp_set, wp_pure]
        exact hnone (by rw [Vm.granted, hfree, Vm.grantedOf, if_pos hfails])
      · intro hfails
        rw [wp_bind, wp_set, wp_pure]
        refine hsome f free ?_ ?_
        · rw [Vm.free, hfree]
          rfl
        · rw [Vm.granted, hfree, Vm.grantedOf, if_neg hfails]
          rfl

theorem wp_panic {α : Type} {e : Panic} {Q : α → Vm → Prop} :
    wp (VmM.panic e) Q E s ↔ E (.panic e) := wp_throw

theorem wp_kfree_iff {f : Frame} {Q : Unit → Vm → Prop} :
    wp (kfree f) Q E s ↔ (f * PGSIZE < s.link.kend ∨ f * PGSIZE ≥ PHYSTOP → E (.panic .kfree)) ∧
      (¬ (f * PGSIZE < s.link.kend ∨ f * PGSIZE ≥ PHYSTOP) → Q () (s.putFree f)) := by
  rw [kfree, wp_bind, wp_get, wp_ite, wp_panic, wp_set]

theorem wp_kfree {f : Frame} {Q : Unit → Vm → Prop}
    (hbad : f * PGSIZE < s.link.kend ∨ f * PGSIZE ≥ PHYSTOP → E (.panic .kfree))
    (hok : Q () (s.putFree f)) : wp (kfree f) Q E s :=
  wp_kfree_iff.mpr ⟨hbad, fun _ => hok⟩

theorem wp_store {f : Frame} {x : Page} {Q : Unit → Vm → Prop} :
    wp (store f x) Q E s ↔ Q () (s.store f x) := wp_modify

theorem wp_clear {f : Frame} {Q : Unit → Vm → Prop} :
    wp (clear f) Q E s ↔ Q () (s.store f fun _ => 0) := wp_modify

theorem wp_walkpgdir_found {va : ℕ} {alloc : Bool} {Q : Option Pgdir → Vm → Prop}
    (h : d.hasTable va = true) : wp (walkpgdir d va alloc) Q E s ↔ Q (some d) s := by
  obtain ⟨t, ht⟩ := Option.isSome_iff_exists.mp h
  rw [walkpgdir, ht]
  exact wp_pure

theorem wp_walkpgdir_null {va : ℕ} {Q : Option Pgdir → Vm → Prop}
    (h : d.hasTable va = false) : wp (walkpgdir d va false) Q E s ↔ Q none s := by
  rw [Pgdir.hasTable, Option.isSome_eq_false_iff, Option.isNone_iff_eq_none] at h
  rw [walkpgdir, h]
  exact wp_pure

structure AddsTable (s : Vm) (d : Pgdir) (va : ℕ) (t : Vm) (d' : Pgdir) : Prop
    extends Evolves s d t d' where
  pte : ∀ vb, d'.pte vb = d.pte vb
  has : ∀ i, (d'.pde i).isSome = (decide (i = PDX va) || (d.pde i).isSome)
  acct : t.free + d'.tables = s.free + d.tables
  granted : s.granted = t.granted + 1

theorem wp_walkpgdir_alloc {va : ℕ} {Q : Option Pgdir → Vm → Prop}
    (h : d.hasTable va = false) (hnone : s.granted = 0 → Q none s.refuse)
    (hsome : ∀ t d', AddsTable s d va t d' → Q (some d') t) :
    wp (walkpgdir d va true) Q E s := by
  have hpde : d.pde (PDX va) = none := by
    rwa [Pgdir.hasTable, Option.isSome_eq_false_iff, Option.isNone_iff_eq_none] at h
  rw [walkpgdir, hpde]
  simp only [if_true, wp_bind]
  refine wp_kalloc (fun h => wp_pure.mpr (hnone h)) fun f free hfree hgranted => ?_
  simp only [wp_bind, wp_clear, wp_pure]
  have hin : Inside s ((s.give f free).store f fun _ => 0) :=
    Inside.give.trans (Inside.store List.mem_cons_self)
  refine hsome _ _ ⟨⟨hin, rfl, fun i hi => ?_⟩, Pgdir.pte_setPde_empty hpde,
    fun i => Pgdir.isSome_setPde, ?_, hgranted⟩
  · rw [Pgdir.isSome_setPde, hi, Bool.or_true]
  · rw [Pgdir.tables_setPde hpde, Vm.free_store, hfree]
    simp only [Table.empty]
    abel

structure Maps (s : Vm) (d : Pgdir) (n : ℕ) (x : Pte) (t : Vm) (d' : Pgdir) : Prop
    extends Evolves s d t d' where
  pte : ∀ m < numPages, d'.pte (m * PGSIZE) = if m = n then x else d.pte (m * PGSIZE)
  has : ∀ i, (d'.pde i).isSome = (decide (i = PDX (n * PGSIZE)) || (d.pde i).isSome)
  acct : t.free + d'.tables = s.free + d.tables
  granted : s.granted = t.granted + if d.hasTable (n * PGSIZE) then 0 else 1

theorem maps_setPte {n : ℕ} {x : Pte} (hn : n < numPages) (h : d.hasTable (n * PGSIZE) = true) :
    Maps s d n x s (d.setPte (n * PGSIZE) x) where
  toInside := Inside.refl
  frame := Pgdir.frame_setPte
  keeps := fun i hi => by rw [Pgdir.isSome_setPte, hi]
  pte := fun m hm => Pgdir.pte_setPte_page h hn hm
  has := fun i => by
    rw [Pgdir.isSome_setPte]
    by_cases hi : i = PDX (n * PGSIZE)
    · rw [hi]
      simpa [Pgdir.hasTable] using h
    · simp [hi]
  acct := by rw [Pgdir.tables_setPte]
  granted := by rw [if_pos h, add_zero]

theorem Evolves.maps_of_addsTable {t u : Vm} {d' d'' : Pgdir} {n : ℕ} {x : Pte}
    (hd : d.hasTable (n * PGSIZE) = false) (h : AddsTable s d (n * PGSIZE) t d')
    (h' : Maps t d' n x u d'') : Maps s d n x u d'' where
  toEvolves := h.toEvolves.trans h'.toEvolves
  pte := fun m hm => by rw [h'.pte m hm, h.pte]
  has := fun i => by
    rw [h'.has, h.has]
    cases decide (i = PDX (n * PGSIZE)) <;> rfl
  acct := h'.acct.trans h.acct
  granted := by
    have hhas : d'.hasTable (n * PGSIZE) = true := by
      rw [Pgdir.hasTable, h.has]
      simp
    rw [h.granted, h'.granted, hd, hhas]
    simp

theorem uint_page_succ {n : ℕ} (h : n + 1 < numPages) :
    uint ((n * PGSIZE : ℕ) + PGSIZE) = (n + 1) * PGSIZE := by
  have hpg : PGSIZE = 4096 := rfl
  rw [numPages] at h
  rw [uint, hpg]
  omega

/-- One round of `mappages`. -/
theorem wp_mappagesLoop_succ {perm : Perm} {k n : ℕ} {pa : Frame}
    {Q : Pgdir × Bool → Vm → Prop} (hn : n < numPages)
    (hremap : (d.pte (n * PGSIZE)).p = true → E (.panic .remap))
    (hfail : d.hasTable (n * PGSIZE) = false → s.granted = 0 → Q (d, false) s.refuse)
    (hok : ¬ (d.pte (n * PGSIZE)).p = true →
      ∀ t d', Maps s d n ⟨pa, true, perm.w, perm.u⟩ t d' →
        wp (mappagesLoop perm k (uint ((n * PGSIZE : ℕ) + PGSIZE)) (nextFrame pa) d') Q E t) :
    wp (mappagesLoop perm (k + 1) (n * PGSIZE) pa d) Q E s := by
  rw [mappagesLoop, wp_bind]
  cases hhas : d.hasTable (n * PGSIZE) with
  | true =>
      rw [wp_walkpgdir_found hhas]
      dsimp only
      rw [wp_ite, wp_panic]
      exact ⟨hremap, fun hp => hok hp s _ (maps_setPte hn hhas)⟩
  | false =>
      refine wp_walkpgdir_alloc hhas (fun h => wp_pure.mpr (hfail hhas h)) fun t d' ht => ?_
      have hhas' : d'.hasTable (n * PGSIZE) = true := by
        rw [Pgdir.hasTable, ht.has]
        simp
      dsimp only
      rw [wp_ite, wp_panic, ht.pte]
      exact ⟨hremap, fun hp =>
        hok hp t _ (Evolves.maps_of_addsTable hhas ht (maps_setPte hn hhas'))⟩

/-- The loop of `mappages` over the pages from `lo` to `hi`: `I n pa` holds when page `n` is
next, to be mapped to page `pa`. -/
theorem wp_mappagesLoop {perm : Perm} {Q : Pgdir × Bool → Vm → Prop}
    (I : ℕ → Frame → Vm → Pgdir → Prop) {lo hi : ℕ} (hhi : hi ≤ numPages)
    (hremap : ∀ n pa s d, lo ≤ n → n < hi → I n pa s d → (d.pte (n * PGSIZE)).p = true →
      E (.panic .remap))
    (hfail : ∀ n pa s d, lo ≤ n → n < hi → I n pa s d → d.hasTable (n * PGSIZE) = false →
      s.granted = 0 → Q (d, false) s.refuse)
    (hstep : ∀ n pa s d t d', lo ≤ n → n < hi → I n pa s d →
      Maps s d n ⟨pa, true, perm.w, perm.u⟩ t d' → I (n + 1) (nextFrame pa) t d')
    (hdone : ∀ pa s d, I hi pa s d → Q (d, true) s) :
    ∀ {k n : ℕ} {pa : Frame} {s : Vm} {d : Pgdir}, lo ≤ n → n + k = hi → I n pa s d →
      wp (mappagesLoop perm k (n * PGSIZE) pa d) Q E s
  | 0, n, pa, s, d, hlo, hk, hI => by
      rw [Nat.add_zero] at hk
      exact wp_pure.mpr (hdone pa s d (hk ▸ hI))
  | k + 1, n, pa, s, d, hlo, hk, hI => by
      have hn : n < hi := by omega
      refine wp_mappagesLoop_succ (hn.trans_le hhi) (hremap n pa s d hlo hn hI)
        (hfail n pa s d hlo hn hI) fun _ t d' ht => ?_
      have hI' := hstep n pa s d t d' hlo hn hI ht
      cases k with
      | zero => exact wp_pure.mpr (hdone _ t d' ((show n + 1 = hi by omega) ▸ hI'))
      | succ k =>
          rw [uint_page_succ (by omega)]
          exact wp_mappagesLoop I hhi hremap hfail hstep hdone (by omega) (by omega) hI'

theorem wp_mappages_page {perm : Perm} {n : ℕ} {pa : Frame} {Q : Pgdir × Bool → Vm → Prop}
    (hn : n < numPages) (hremap : (d.pte (n * PGSIZE)).p = true → E (.panic .remap))
    (hfail : d.hasTable (n * PGSIZE) = false → s.granted = 0 → Q (d, false) s.refuse)
    (hok : ¬ (d.pte (n * PGSIZE)).p = true →
      ∀ t d', Maps s d n ⟨pa, true, perm.w, perm.u⟩ t d' → Q (d', true) t) :
    wp (mappages d (n * PGSIZE) PGSIZE pa perm) Q E s := by
  have hpg : PGSIZE = 4096 := rfl
  have ha : PGROUNDDOWN (n * PGSIZE) = n * PGSIZE := by
    rw [PGROUNDDOWN, Nat.mul_div_cancel _ (by decide)]
  have hlast : PGROUNDDOWN (uint ((n * PGSIZE : ℕ) + PGSIZE - 1)) = n * PGSIZE := by
    rw [numPages] at hn
    rw [PGROUNDDOWN, uint, hpg]
    omega
  have hrounds : uint ((n * PGSIZE : ℕ) - (n * PGSIZE : ℕ)) / PGSIZE + 1 = 1 := by
    rw [sub_self]
    rfl
  rw [mappages]
  simp only [ha, hlast, hrounds]
  exact wp_mappagesLoop_succ hn hremap hfail fun hp t d' ht => wp_pure.mpr (hok hp t d' ht)

end Rules

end Xv6
