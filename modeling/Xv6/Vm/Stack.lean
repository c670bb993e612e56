import Xv6.Vm.Load

/-!
# What `exec` puts on the stack

The stack is the last page of the process, and the page before it is not for the user. The
strings go from the top of the page down, the array of pointers comes below them. A string
shorter than a page cannot get past the page that is not for the user, so what `copyout`
stores lies in the stack. `copyout` fails only where it gets to that page.
-/

namespace Xv6

open Foundation VmM

/-- These bytes are in memory from an address on. -/
def Holds (t : Vm) (d : Pgdir) (a : ℕ) (bs : List UInt8) : Prop :=
  ∀ i < bs.length, bs[i]? = some (t.byte (d.place (a + i)))

/-- Copies of the strings with a null byte lie below `top`, each below the one before. -/
def Strings (t : Vm) (d : Pgdir) : ℕ → List (List UInt8) → List ℕ → Prop
  | _, [], [] => True
  | top, arg :: argv, p :: ps =>
      p + (arg.length + 1) ≤ top ∧ Holds t d p (arg ++ [0]) ∧ Strings t d p argv ps
  | _, _, _ => False

/-- The stack of a process of size `sz`. -/
structure StackBuilt (t : Vm) (d : Pgdir) (argv : List (List UInt8)) (sz sp : ℕ) (ps : List ℕ) :
    Prop where
  inside : sz - PGSIZE ≤ sp
  frame : Holds t d sp
    (([0xffffffff, argv.length, sp + 12] ++ ps ++ [0]).flatMap uintBytes)
  below : sp + (3 + argv.length + 1) * 4 ≤ ps.getLastD sz
  strings : Strings t d sz argv ps

/-- A process with a stack at its end. -/
structure HasStack (s : Vm) (d : Pgdir) (sz : ℕ) : Prop extends Apiece s d sz where
  aligned : sz % PGSIZE = 0
  room : 2 * PGSIZE ≤ sz
  guard : (d.pte (sz - 2 * PGSIZE)).u = false
  user : (d.pte (sz - PGSIZE)).u = true

/-- Nothing is stored but to the stack below `top`. -/
structure Pokes (d : Pgdir) (sz top : ℕ) (s t : Vm) : Prop extends Stores False s t where
  page : ∀ f, (∀ a, sz - PGSIZE ≤ a → a < sz → (d.pte a).frame ≠ f) → t.page f = s.page f
  byte : ∀ x, (∀ a, sz - PGSIZE ≤ a → a < top → d.place a ≠ x) → t.byte x = s.byte x

section Stack

variable {s t u : Vm} {d : Pgdir} {sz top sp va a : ℕ} {buf : List UInt8}
  {argv : List (List UInt8)} {ps : List ℕ} {E : VmStop → Prop}

theorem Pokes.refl : Pokes d sz top s s :=
  ⟨Stores.refl, fun _ _ => rfl, fun _ _ => rfl⟩

theorem Pokes.trans (h : Pokes d sz top s t) (h' : Pokes d sz sp t u) (hle : sp ≤ top) :
    Pokes d sz top s u :=
  ⟨h.toStores.trans h'.toStores id, fun f hf => (h'.page f hf).trans (h.page f hf),
    fun x hx => (h'.byte x fun a hlo hhi => hx a hlo (hhi.trans_le hle)).trans (h.byte x hx)⟩

/-- The memory from `top` on and below the stack is the same. -/
theorem Pokes.same (h : Pokes d sz top s t) (hap : Apiece s d sz) (ha : a < sz)
    (hout : a < sz - PGSIZE ∨ top ≤ a) (htop : top ≤ sz) :
    t.byte (d.place a) = s.byte (d.place a) :=
  h.byte _ fun b hlo hhi heq => by
    have hba := hap.place_inj (hhi.trans_le htop) ha heq
    omega

theorem Pokes.inner (h : Pokes d sz top s t) (hap : Apiece s d sz) : Inner s d t d :=
  Inner.of_stores h.toStores fun f hf => h.page f fun _ _ hhi heq =>
    hf (heq ▸ hap.frame_mem hhi)

theorem Pokes.hasStack (h : Pokes d sz top s t) (hst : HasStack s d sz) : HasStack t d sz :=
  ⟨hst.toApiece.stores h.toStores, hst.aligned, hst.room, hst.guard, hst.user⟩

theorem Holds.same (h : Holds s d va buf) (hsame : ∀ a, va ≤ a → a < va + buf.length →
    t.byte (d.place a) = s.byte (d.place a)) : Holds t d va buf := fun i hi => by
  rw [h i hi, hsame (va + i) (Nat.le_add_right va i) (by omega)]

/-- What the user can access in the last two pages lies in the stack. -/
theorem HasStack.accessible (h : HasStack s d sz) (hlo : sz - 2 * PGSIZE ≤ a)
    (hacc : Accessible d a) : sz - PGSIZE ≤ a := by
  have hpg : PGSIZE = 4096 := rfl
  have haligned := h.aligned
  have hroom := h.room
  by_contra hlt
  have hpage : a / PGSIZE = (sz - 2 * PGSIZE) / PGSIZE := by
    rw [hpg] at haligned hroom hlt hlo ⊢
    omega
  have hu := hacc.2
  rw [Pgdir.pte_congr hpage, h.guard] at hu
  cases hu

theorem HasStack.accessible_of_le (h : HasStack s d sz) (hlo : sz - PGSIZE ≤ a) (ha : a < sz) :
    Accessible d a := by
  have hpg : PGSIZE = 4096 := rfl
  have haligned := h.aligned
  have hroom := h.room
  have hpage : (sz - PGSIZE) / PGSIZE * PGSIZE = sz - PGSIZE := by
    rw [hpg] at haligned ⊢
    omega
  have hsame : d.pte a = d.pte (sz - PGSIZE) := by
    refine Pgdir.pte_congr ?_
    rw [hpg] at haligned hroom hlo ⊢
    omega
  refine ⟨?_, by rw [hsame, h.user]⟩
  rw [hsame, ← hpage]
  exact h.space.present _ (by rw [hpage]; omega)

theorem HasStack.hasTable (h : HasStack s d sz) (ha : a < sz) : d.hasTable a = true := by
  have hpage : a / PGSIZE * PGSIZE < sz := (Nat.div_mul_le_self a PGSIZE).trans_lt ha
  rw [← Pgdir.hasTable_page]
  exact Pgdir.hasTable_of_p (h.space.present _ hpage)

/-! ### `copyout` to the stack -/

theorem wp_copyout_stack {Q : Bool → Vm → Prop} (hst : HasStack s d sz)
    (hva : sz - 2 * PGSIZE ≤ va) (hend : va + buf.length ≤ sz)
    (hok : ∀ t, Pokes d sz (va + buf.length) s t → (0 < buf.length → sz - PGSIZE ≤ va) →
      Holds t d va buf → Q true t)
    (hbad : ∀ t, Pokes d sz (va + buf.length) s t → va < sz - PGSIZE → Q false t) :
    wp (copyout d va buf) Q E s := by
  have hbound := hst.space.bound
  rw [KERNBASE] at hbound
  have hnull : ¬ NoTable d va buf.length := by
    rintro ⟨k, hk, -, hno⟩
    rw [hst.hasTable (by omega)] at hno
    cases hno
  have hcopying : wp (copyout d va buf) (fun ok t => Copying s d va buf t ok) (fun _ => False) s :=
    wp_copyoutLoop_copying le_rfl (by omega) (fun h => hnull h) fun _ _ h => h
  have hstores : wp (copyout d va buf) (fun _ t => Stores (OwnPages d s) s t) (fun _ => True) s :=
    wp_copyout sz (by omega) (.inl trivial) fun t b ht _ _ => ht
  -- the bytes that are stored lie in the stack
  have hpokes : ∀ (t : Vm) (bs : List UInt8), Stores (OwnPages d s) s t →
      bs.length ≤ buf.length → (∀ i < bs.length, Accessible d (va + i)) →
      t.byte = storeAt d.place va bs s.byte → Pokes d sz (va + buf.length) s t :=
    fun t bs hs hle hall hbyte => by
      have hin : ∀ i < bs.length, sz - PGSIZE ≤ va + i ∧ va + i < va + buf.length := fun i hi =>
        ⟨hst.accessible (by omega) (hall i hi), by omega⟩
      have hstored : ∀ x, (∀ a, sz - PGSIZE ≤ a → a < va + buf.length → d.place a ≠ x) →
          t.byte x = s.byte x := fun x hx => by
        rw [hbyte]
        exact storeAt_of_ne fun i hi => hx (va + i) (hin i hi).1 (hin i hi).2
      refine ⟨hs.mono False.elim, fun f hf => ?_, hstored⟩
      funext j
      exact hstored (f, j) fun a hlo hhi heq => hf a hlo (by omega) (congrArg Prod.fst heq)
  refine wp_mono (wp_and hcopying hstores) ?_ fun _ he => he.1.elim
  rintro ok t ⟨hcopy, hs⟩
  cases ok with
  | true =>
      obtain ⟨hall, hbyte⟩ := hcopy
      refine hok t (hpokes t buf hs le_rfl hall hbyte) (fun hpos => ?_) fun i hi => ?_
      · exact hst.accessible hva (hall 0 hpos)
      · rw [hbyte, storeAt_place hi fun j hj heq => ?_]
        · exact List.getElem?_eq_getElem hi
        · have hji := hst.place_inj (by omega) (by omega) heq
          omega
  | false =>
      obtain ⟨k, hk, hall, hno, -, hbyte⟩ := hcopy
      refine hbad t (hpokes t (buf.take k) hs ?_ (fun i hi => hall i ?_) hbyte) ?_
      · exact List.length_take_le' _ _
      · rw [List.length_take] at hi
        omega
      · by_contra hge
        exact hno (hst.accessible_of_le (by omega) (by omega))

/-! ### The strings and the array of pointers -/

theorem Strings.length (h : Strings t d top argv ps) : ps.length = argv.length := by
  induction argv generalizing top ps with
  | nil =>
      cases ps with
      | nil => rfl
      | cons p ps => exact h.elim
  | cons arg argv ih =>
      cases ps with
      | nil => exact h.elim
      | cons p ps => exact congrArg Nat.succ (ih h.2.2)

theorem Strings.le (h : Strings t d top argv ps) : ps.getLastD top ≤ top := by
  induction argv generalizing top ps with
  | nil =>
      cases ps with
      | nil => exact le_rfl
      | cons p ps => exact h.elim
  | cons arg argv ih =>
      cases ps with
      | nil => exact h.elim
      | cons p ps =>
          obtain ⟨hle, -, hrest⟩ := h
          rw [List.getLastD_cons]
          exact (ih hrest).trans (by omega)

/-- What is below the strings may change. -/
theorem Strings.same (h : Strings s d top argv ps)
    (hsame : ∀ a, ps.getLastD top ≤ a → a < top → t.byte (d.place a) = s.byte (d.place a)) :
    Strings t d top argv ps := by
  induction argv generalizing top ps with
  | nil =>
      cases ps with
      | nil => trivial
      | cons p ps => exact h.elim
  | cons arg argv ih =>
      cases ps with
      | nil => exact h.elim
      | cons p ps =>
          obtain ⟨hle, hholds, hrest⟩ := h
          rw [List.getLastD_cons] at hsame
          have hlast := Strings.le hrest
          refine ⟨hle, hholds.same fun a hlo hhi => ?_, ih hrest fun a hlo hhi => ?_⟩
          · rw [List.length_append, List.length_singleton] at hhi
            exact hsame a (hlast.trans hlo) (by omega)
          · exact hsame a hlo (by omega)

theorem pushed_eq {len : ℕ} (hsp : len + 1 ≤ sp) (hlt : sp < 2 ^ 32) :
    pushed sp len = (sp - (len + 1)) / 4 * 4 := by
  rw [pushed, uint]
  omega

/-- A string shorter than a page does not get past the page below the stack. -/
theorem pushed_ge {len : ℕ} (haligned : sz % PGSIZE = 0) (hlo : sz - PGSIZE ≤ sp)
    (hlen : len < PGSIZE) : sz - 2 * PGSIZE ≤ (sp - (len + 1)) / 4 * 4 := by
  rw [PGSIZE_eq] at haligned hlo hlen
  rw [Nat.sub_le_iff_le_add, PGSIZE_eq]
  omega

/-- The room that is enough for the strings; each begins at a multiple of 4. -/
def stringsRoom (argv : List (List UInt8)) : ℕ := (argv.map fun arg => arg.length + 4).sum

/-- The strings and the array of pointers fit in the stack. -/
def ArgsFit (argv : List (List UInt8)) : Prop :=
  stringsRoom argv + (3 + argv.length + 1) * 4 ≤ PGSIZE

theorem stringsRoom_cons (arg : List UInt8) :
    stringsRoom (arg :: argv) = arg.length + 4 + stringsRoom argv := by
  rw [stringsRoom, List.map_cons, List.sum_cons, stringsRoom]

theorem wp_pushArgs_strings {argc : ℕ} {ustack : List ℕ} {Q : Option (ℕ × List ℕ) → Vm → Prop}
    (hst : HasStack s d sz) (hlo : sz - PGSIZE ≤ sp) (hhi : sp ≤ sz)
    (hargs : ∀ arg ∈ argv, arg.length < PGSIZE)
    (hok : ∀ t ps, Pokes d sz sp s t → Strings t d sp argv ps →
      sz - PGSIZE ≤ ps.getLastD sp → sp ≤ ps.getLastD sp + stringsRoom argv →
      Q (some (ps.getLastD sp, ustack ++ ps)) t)
    (hbad : ∀ t, Pokes d sz sp s t →
      MAXARG < argc + argv.length ∨ sp < sz - PGSIZE + stringsRoom argv → Q none t) :
    wp (pushArgs d argv argc sp ustack) Q E s := by
  have hpg : PGSIZE = 4096 := rfl
  have hbound := hst.space.bound
  have hroom := hst.room
  rw [KERNBASE] at hbound
  rw [hpg] at hroom
  induction argv generalizing argc sp ustack s with
  | nil =>
      have hend := hok s [] Pokes.refl trivial hlo (Nat.le_add_right _ _)
      rw [List.append_nil] at hend
      exact wp_pure.mpr hend
  | cons arg argv ih =>
      obtain ⟨harg, hargs⟩ := List.forall_mem_cons.mp hargs
      rw [stringsRoom_cons] at hok hbad
      rw [List.length_cons] at hbad
      rw [pushArgs, wp_ite, wp_pure]
      refine ⟨fun hmany => hbad s Pokes.refl (.inl (by omega)), fun _ => ?_⟩
      change wp (copyout d (pushed sp arg.length) (arg ++ [0]) >>= fun b =>
        if b then pushArgs d argv (argc + 1) (pushed sp arg.length)
          (ustack ++ [pushed sp arg.length]) else pure none) Q E s
      have hlen : (arg ++ [0]).length = arg.length + 1 := by
        rw [List.length_append, List.length_singleton]
      have hpushed : pushed sp arg.length = (sp - (arg.length + 1)) / 4 * 4 := by
        rw [hpg] at harg hlo
        exact pushed_eq (by omega) (by omega)
      have hle : pushed sp arg.length + (arg ++ [0]).length ≤ sp := by
        rw [hpg] at harg hlo
        omega
      rw [wp_bind]
      refine wp_copyout_stack hst ?_ (hle.trans hhi) (fun t hp hin hholds => ?_) fun t hp hlow => ?_
      · rw [hpushed]
        exact pushed_ge hst.aligned hlo harg
      · have hp' : Pokes d sz sp s t := Pokes.refl.trans hp hle
        have hlast : ∀ u, Pokes d sz (pushed sp arg.length) t u → Pokes d sz sp s u :=
          fun u hu => hp'.trans hu (by omega)
        rw [if_pos rfl]
        refine ih (hp.hasStack hst) (hin (by rw [hlen]; exact Nat.succ_pos _)) (by omega) hargs
          (fun u ps hu hstrings hge hroom => ?_) fun u hu hwhy => hbad u (hlast u hu) (by omega)
        have hend := hok u (pushed sp arg.length :: ps) (hlast u hu)
          ⟨by rw [hlen] at hle; exact hle, ?_, hstrings⟩
        · rw [List.getLastD_cons, List.append_cons] at hend
          exact hend hge (by omega)
        · refine hholds.same fun a halo hahi => hu.same (hp.hasStack hst).toApiece (by omega)
            (.inr halo) (by omega)
      · exact wp_pure.mpr (hbad t (Pokes.refl.trans hp hle) (.inr (by omega)))

/-- The array of pointers, for `n` strings. -/
theorem pushedLast_eq {n : ℕ} (hn : n < MAXARG) (hlo : PGSIZE ≤ sp) (hlt : sp < 2 ^ 32) :
    pushedLast sp n + (3 + n + 1) * 4 = sp ∧ uint (sp - (n + 1) * 4) = pushedLast sp n + 12 := by
  rw [MAXARG] at hn
  rw [PGSIZE_eq] at hlo
  rw [pushedLast, uint, uint]
  omega

theorem wp_pushStack_built {Q : Option ℕ → Vm → Prop} (hst : HasStack s d sz)
    (hargs : ∀ arg ∈ argv, arg.length < PGSIZE) (hargc : argv.length < MAXARG)
    (hok : ∀ t sp ps, Pokes d sz sz s t → StackBuilt t d argv sz sp ps → Q (some sp) t)
    (hbad : ∀ t, Pokes d sz sz s t → ¬ ArgsFit argv → Q none t) :
    wp (pushStack d argv sz) Q E s := by
  have hpg : PGSIZE = 4096 := rfl
  have hbound := hst.space.bound
  have hroom := hst.room
  rw [KERNBASE] at hbound
  rw [pushStack, wp_bind]
  refine wp_pushArgs_strings hst (Nat.sub_le _ _) le_rfl hargs
    (fun t ps hp hstrings hlo hfit => ?_) fun t hp hwhy => wp_pure.mpr (hbad t hp fun hfit => ?_)
  swap
  · rw [ArgsFit] at hfit
    rw [MAXARG] at hargc hwhy
    rw [hpg] at hroom hfit hwhy
    omega
  have hlen := hstrings.length
  have hhi := hstrings.le
  obtain ⟨hlast, hargvp⟩ := pushedLast_eq (show ps.length < MAXARG by omega)
    (show PGSIZE ≤ ps.getLastD sz by omega) (by omega)
  dsimp only
  rw [List.nil_append, hargvp, hlen]
  rw [hlen] at hlast
  change wp (copyout d (pushedLast (ps.getLastD sz) argv.length) _ >>= fun b =>
    if b then pure (some (pushedLast (ps.getLastD sz) argv.length)) else pure none) Q E t
  have hbuf : (([0xffffffff, argv.length, pushedLast (ps.getLastD sz) argv.length + 12] ++ ps ++
      [0]).flatMap uintBytes).length = (3 + argv.length + 1) * 4 := by
    rw [length_uintBytes, List.length_append, List.length_append, hlen]
    rfl
  generalize pushedLast (ps.getLastD sz) argv.length = sp at *
  have hend : sp + (3 + argv.length + 1) * 4 ≤ sz := by omega
  have hall : ∀ u, Pokes d sz (sp + (3 + argv.length + 1) * 4) t u → Pokes d sz sz s u :=
    fun u hu => hp.trans hu hend
  have hva : sz - 2 * PGSIZE ≤ sp := by
    rw [MAXARG] at hargc
    omega
  rw [wp_bind]
  refine wp_copyout_stack (hp.hasStack hst) hva (by rw [hbuf]; exact hend)
    (fun u hu hin hholds => ?_) fun u hu hlow => ?_
  · rw [hbuf] at hu hin
    refine wp_pure.mpr (hok u sp ps (hall u hu) ⟨hin (by omega), hholds, by omega, ?_⟩)
    exact hstrings.same fun a halo hahi => hu.same (hp.hasStack hst).toApiece hahi
      (.inr (by omega)) hend
  · rw [hbuf] at hu
    refine wp_pure.mpr (hbad u (hall u hu) fun hfits => ?_)
    rw [ArgsFit] at hfits
    rw [hpg] at hroom hfits hlow
    omega

end Stack

end Xv6
