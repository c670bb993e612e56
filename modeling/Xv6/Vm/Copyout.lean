import Xv6.Foundation.Store
import Xv6.Vm.Image
import Xv6.Vm.Translate

/-!
# What `copyout` copies

A page directory puts each byte of the address space in a place of physical memory.
`copyout` stores the bytes of its buffer in the places of the addresses from `va` on, page
by page, up to the first page that is not there for the user. Where this page has no page
table either, `uva2ka` uses the null pointer that it gets from `walkpgdir`.
-/

namespace Xv6

open Foundation VmM

abbrev PhysByte := Frame × Fin PGSIZE

def Pgdir.place (d : Pgdir) (a : ℕ) : PhysByte :=
  ((d.pte a).frame, ⟨a % PGSIZE, Nat.mod_lt _ (by decide)⟩)

def Vm.byte (s : Vm) (x : PhysByte) : UInt8 := s.page x.1 x.2

/-- The user can access an address, and it has a place of its own. -/
def Pgdir.Distinct (d : Pgdir) : Prop :=
  ∀ a < 2 ^ 32, ∀ b < 2 ^ 32, Accessible d a → Accessible d b → d.place a = d.place b → a = b

/-- What `copyout` of the bytes of `buf` to `va` does when it is right. -/
structure CopiesOut (s : Vm) (d : Pgdir) (va : ℕ) (buf : List UInt8) (t : Vm) (ok : Bool) :
    Prop where
  served : ok = true ↔ ∀ i < buf.length, Accessible d (va + i)
  copied : ok = true → t.byte = storeAt d.place va buf s.byte
  partly : ok = false → ∃ k < buf.length, t.byte = storeAt d.place va (buf.take k) s.byte

variable {s t : Vm} {d : Pgdir} {va n : ℕ} {buf : List UInt8} {E : VmStop → Prop}

theorem accessible_page {a : ℕ} : Accessible d (a / PGSIZE * PGSIZE) ↔ Accessible d a := by
  rw [Accessible, Accessible, Pgdir.pte_page]

theorem Pgdir.pte_congr {a b : ℕ} (h : a / PGSIZE = b / PGSIZE) : d.pte a = d.pte b := by
  rw [← pte_page, h, pte_page]

theorem Pgdir.hasTable_page {a : ℕ} : d.hasTable (a / PGSIZE * PGSIZE) = d.hasTable a := by
  have hpg : PGSIZE = 4096 := rfl
  have hent : NPTENTRIES = 1024 := rfl
  have hd : PDX (a / PGSIZE * PGSIZE) = PDX a := by
    rw [PDX, PDX, hent, hpg]
    congr 1
    omega
  rw [hasTable, hasTable, hd]

/-- Bytes of a single page are stored by one store to it. -/
theorem byte_store_write (va : ℕ) (buf : List UInt8) (hlen : va % PGSIZE + buf.length ≤ PGSIZE) :
    (s.store (d.pte va).frame ((s.page (d.pte va).frame).write (va % PGSIZE) buf)).byte =
      storeAt d.place va buf s.byte := by
  have hpg : PGSIZE = 4096 := rfl
  have hplace : ∀ i < buf.length, d.place (va + i) =
      ((d.pte va).frame, ⟨(va + i) % PGSIZE, Nat.mod_lt _ (by decide)⟩) := fun i hi => by
    have hpage : (va + i) / PGSIZE = va / PGSIZE := by
      rw [hpg] at hlen ⊢
      omega
    rw [Pgdir.place, Pgdir.pte_congr hpage]
  have hmod : ∀ i < buf.length, (va + i) % PGSIZE = va % PGSIZE + i := fun i hi => by
    rw [hpg] at hlen ⊢
    omega
  funext ⟨f, j⟩
  change Function.update s.page (d.pte va).frame _ f j = _
  by_cases hf : f = (d.pte va).frame
  · rw [hf, Function.update_self, Page.write]
    by_cases hj : va % PGSIZE ≤ j.val ∧ j.val < va % PGSIZE + buf.length
    · have hlt : j.val - va % PGSIZE < buf.length := by omega
      have hat : d.place (va + (j.val - va % PGSIZE)) = ((d.pte va).frame, j) := by
        rw [hplace _ hlt]
        refine Prod.ext rfl (Fin.ext ?_)
        change (va + (j.val - va % PGSIZE)) % PGSIZE = j.val
        rw [hmod _ hlt]
        omega
      rw [if_pos hj, ← hat, storeAt_place hlt, List.getD_eq_getElem?_getD,
        List.getElem?_eq_getElem hlt, Option.getD_some]
      intro k hk heq
      rw [hplace k hk, hat] at heq
      have hval := congrArg (fun x : PhysByte => x.2.val) heq
      change (va + k) % PGSIZE = j.val at hval
      rw [hmod k hk] at hval
      omega
    · rw [if_neg hj, storeAt_of_ne]
      · rfl
      · intro k hk heq
        rw [hplace k hk] at heq
        have hval := congrArg (fun x : PhysByte => x.2.val) heq
        change (va + k) % PGSIZE = j.val at hval
        rw [hmod k hk] at hval
        exact hj (by omega)
  · rw [Function.update_of_ne hf, storeAt_of_ne]
    · rfl
    · intro k hk heq
      rw [hplace k hk] at heq
      exact hf (congrArg Prod.fst heq).symm

/-- How `copyout` comes to its end: everything is copied, or there is a first address that the
user cannot access. -/
def Copying (s : Vm) (d : Pgdir) (va : ℕ) (buf : List UInt8) (t : Vm) (ok : Bool) : Prop :=
  if ok then (∀ i < buf.length, Accessible d (va + i)) ∧ t.byte = storeAt d.place va buf s.byte
  else ∃ k < buf.length, (∀ i < k, Accessible d (va + i)) ∧ ¬ Accessible d (va + k) ∧
    d.hasTable (va + k) = true ∧ t.byte = storeAt d.place va (buf.take k) s.byte

/-- The first address that the user cannot access has no page table. -/
def NoTable (d : Pgdir) (va len : ℕ) : Prop :=
  ∃ k < len, (∀ i < k, Accessible d (va + i)) ∧ d.hasTable (va + k) = false

theorem wp_uva2ka_null {Q : Option Frame → Vm → Prop} (h : d.hasTable va = false) :
    wp (uva2ka d va) Q E s ↔ E .nullPtr := by
  rw [uva2ka, wp_bind, wp_walkpgdir_null h]
  exact wp_throw

/-- A chunk up to the end of a page. -/
theorem chunk_end (hend : va + buf.length ≤ 2 ^ 32)
    (hn : n = min (PGSIZE - va % PGSIZE) buf.length) :
    (∀ i < n, (va + i) / PGSIZE = va / PGSIZE) ∧ va % PGSIZE + n ≤ PGSIZE ∧
      (n < buf.length → uint ((va / PGSIZE * PGSIZE : ℕ) + PGSIZE) = va + n) := by
  have hpg : PGSIZE = 4096 := rfl
  rw [hpg] at hn ⊢
  refine ⟨fun i hi => by omega, by omega, fun hlt => ?_⟩
  rw [uint]
  omega

/-- A chunk has been copied, and what comes after it. -/
theorem Copying.chunk {u : Vm} {ok : Bool} (hn : n ≤ buf.length)
    (hpage : ∀ i < n, Accessible d (va + i))
    (hbyte : t.byte = storeAt d.place va (buf.take n) s.byte)
    (h : Copying t d (va + n) (buf.drop n) u ok) : Copying s d va buf u ok := by
  have hlen : (buf.take n).length = n := by rw [List.length_take, Nat.min_eq_left hn]
  have hrest : ∀ i, n ≤ i → va + n + (i - n) = va + i := fun i hi => by omega
  cases ok with
  | true =>
      obtain ⟨hall, hu⟩ := h
      refine ⟨fun i hi => ?_, ?_⟩
      · by_cases hin : i < n
        · exact hpage i hin
        · have hacc := hall (i - n) (by rw [List.length_drop]; omega)
          rwa [hrest i (by omega)] at hacc
      · rw [hu, hbyte]
        conv_rhs => rw [← List.take_append_drop n buf]
        rw [storeAt_append, hlen]
  | false =>
      obtain ⟨k, hk, hall, hno, htable, hu⟩ := h
      rw [Nat.add_assoc] at hno htable
      rw [List.length_drop] at hk
      refine ⟨n + k, by omega, fun i hi => ?_, hno, htable, ?_⟩
      · by_cases hin : i < n
        · exact hpage i hin
        · have hacc := hall (i - n) (by omega)
          rwa [hrest i (by omega)] at hacc
      · rw [hu, hbyte, List.take_add, storeAt_append, hlen]

theorem copying_nil : Copying s d va [] s true :=
  ⟨fun i hi => absurd hi (Nat.not_lt_zero i), rfl⟩

theorem NoTable.chunk (hn : n ≤ buf.length) (hpage : ∀ i < n, Accessible d (va + i))
    (h : NoTable d (va + n) (buf.drop n).length) : NoTable d va buf.length := by
  obtain ⟨k, hk, hall, hno⟩ := h
  rw [List.length_drop] at hk
  rw [Nat.add_assoc] at hno
  refine ⟨n + k, by omega, fun i hi => ?_, hno⟩
  by_cases hin : i < n
  · exact hpage i hin
  · have hacc := hall (i - n) (by omega)
    rwa [show va + n + (i - n) = va + i by omega] at hacc

theorem copyoutLoop_nil {fuel : ℕ} : copyoutLoop d fuel va [] = pure true := by
  cases fuel <;> rfl

theorem wp_copyoutLoop_copying {fuel : ℕ} {Q : Bool → Vm → Prop} (hfuel : buf.length ≤ fuel)
    (hend : va + buf.length ≤ 2 ^ 32) (hnull : NoTable d va buf.length → E .nullPtr)
    (hok : ∀ t ok, Copying s d va buf t ok → Q ok t) :
    wp (copyoutLoop d fuel va buf) Q E s := by
  induction fuel generalizing va buf s Q with
  | zero =>
      obtain rfl : buf = [] := List.length_eq_zero_iff.mp (by omega)
      exact wp_pure.mpr (hok s true copying_nil)
  | succ fuel ih =>
      rw [copyoutLoop, wp_ite, wp_pure]
      refine ⟨fun hnil => hok s true (hnil ▸ copying_nil), fun hne => ?_⟩
      have hlen : 0 < buf.length := List.length_pos_iff.mpr hne
      have hfirst : ∀ i < 0, Accessible d (va + i) := fun i hi => absurd hi (Nat.not_lt_zero i)
      rw [wp_bind]
      cases hhas : d.hasTable (PGROUNDDOWN va) with
      | false =>
          rw [wp_uva2ka_null hhas]
          rw [PGROUNDDOWN, Pgdir.hasTable_page] at hhas
          exact hnull ⟨0, hlen, hfirst, hhas⟩
      | true =>
          refine wp_uva2ka (.inr hhas) (fun _ hacc => wp_pure.mpr (hok s false ?_)) fun hacc => ?_
          · rw [PGROUNDDOWN, Pgdir.hasTable_page] at hhas
            rw [PGROUNDDOWN, accessible_page] at hacc
            exact ⟨0, hlen, hfirst, hacc, hhas, rfl⟩
          · rw [PGROUNDDOWN, accessible_page] at hacc
            have hoff : va - PGROUNDDOWN va = va % PGSIZE := by
              rw [PGROUNDDOWN]
              have hdiv := Nat.div_add_mod' va PGSIZE
              omega
            obtain ⟨n, hn⟩ : ∃ n, n = min (PGSIZE - va % PGSIZE) buf.length := ⟨_, rfl⟩
            obtain ⟨hpage, hfit, hnext⟩ := chunk_end hend hn
            have hle : n ≤ buf.length := hn ▸ Nat.min_le_right _ _
            have hpos : 0 < n := by
              have hmod := Nat.mod_lt va (show 0 < PGSIZE by decide)
              omega
            have hacc' : ∀ i < n, Accessible d (va + i) := fun i hi => by
              rw [Accessible, Pgdir.pte_congr (hpage i hi)]
              exact hacc
            have htake : (buf.take n).length = n := by rw [List.length_take, Nat.min_eq_left hle]
            have hpte : d.pte (PGROUNDDOWN va) = d.pte va := Pgdir.pte_page
            dsimp only
            rw [wp_bind, wp_get, wp_bind, wp_store, hoff, ← hn, hpte]
            have hbyte := byte_store_write (s := s) (d := d) va (buf.take n)
              (by rw [htake]; exact hfit)
            generalize s.store _ _ = t at hbyte ⊢
            by_cases hlast : n < buf.length
            · rw [PGROUNDDOWN, hnext hlast]
              have hlen' : (buf.drop n).length = buf.length - n := List.length_drop
              exact ih (by omega) (by omega) (fun hno => hnull (hno.chunk hle hacc'))
                fun u ok h => hok u ok (h.chunk hle hacc' hbyte)
            · have hnil : buf.drop n = [] := List.drop_eq_nil_of_le (Nat.not_lt.mp hlast)
              rw [hnil, copyoutLoop_nil, wp_pure]
              refine hok t true (Copying.chunk hle hacc' hbyte ?_)
              rw [hnil]
              exact copying_nil

theorem Copying.copiesOut {ok : Bool} (h : Copying s d va buf t ok) : CopiesOut s d va buf t ok := by
  cases ok with
  | true =>
      obtain ⟨hall, hbyte⟩ := h
      exact ⟨⟨fun _ => hall, fun _ => rfl⟩, fun _ => hbyte, fun hno => absurd hno (by decide)⟩
  | false =>
      obtain ⟨k, hk, _, hno, _, hbyte⟩ := h
      exact ⟨⟨fun hok => absurd hok (by decide), fun hall => absurd (hall k hk) hno⟩,
        fun hok => absurd hok (by decide), fun _ => ⟨k, hk, hbyte⟩⟩

/-- Where every address has a place of its own, the buffer can be read back and nothing else has
changed. -/
theorem CopiesOut.read {ok : Bool} (h : CopiesOut s d va buf t ok) (hd : d.Distinct)
    (hend : va + buf.length ≤ 2 ^ 32) (hok : ok = true) {a : ℕ} (ha : a < 2 ^ 32)
    (hacc : Accessible d a) :
    t.byte (d.place a) =
      if va ≤ a ∧ a < va + buf.length then buf.getD (a - va) 0 else s.byte (d.place a) := by
  have hall := h.served.mp hok
  rw [h.copied hok]
  by_cases hin : va ≤ a ∧ a < va + buf.length
  · have hlt : a - va < buf.length := by omega
    have hat : va + (a - va) = a := by omega
    rw [if_pos hin, List.getD_eq_getElem?_getD, List.getElem?_eq_getElem hlt, Option.getD_some]
    conv_lhs => rw [← hat]
    refine storeAt_place hlt fun j hj heq => ?_
    rw [hat] at heq
    have hja := hd (va + j) (by omega) a ha (hall j hj) hacc heq
    omega
  · rw [if_neg hin]
    refine storeAt_of_ne fun j hj heq => hin ?_
    have hja := hd (va + j) (by omega) a ha (hall j hj) hacc heq
    omega

/-- When it comes to its end, it has not come to an address without a page table. -/
theorem Copying.not_noTable {ok : Bool} (h : Copying s d va buf t ok) :
    ¬ NoTable d va buf.length := by
  rintro ⟨k, hk, hall, hno⟩
  have hnacc : ¬ Accessible d (va + k) := fun hacc => by
    have hp := hacc.1
    rw [Pgdir.pte_of_not_hasTable hno] at hp
    cases hp
  cases ok with
  | true => exact hnacc (h.1 k hk)
  | false =>
      obtain ⟨j, hj, hall', hnacc', htable, -⟩ := h
      obtain rfl : k = j := by
        refine le_antisymm (Nat.not_lt.mp fun hlt => ?_) (Nat.not_lt.mp fun hlt => ?_)
        · exact hnacc' (hall j hlt)
        · exact hnacc (hall' k hlt)
      rw [hno] at htable
      cases htable

/-- `copyout` copies all the bytes to where the page directory maps them, or fails at the first
page that a user program could not use, exactly if it does not come to an address without a page
table, for which `uva2ka` loads from a null pointer. Where every address has a place of its own,
what has been copied is read back, and nothing else has changed. -/
theorem copyout_exact (s : Vm) (d : Pgdir) (hend : va + buf.length ≤ 2 ^ 32) :
    ((∃ ok t, copyout d va buf s = .ok (ok, t) ∧ CopiesOut s d va buf t ok) ↔
      ∀ k < buf.length, (∀ i < k, Accessible d (va + i)) → d.hasTable (va + k) = true) ∧
    ∀ ok t, copyout d va buf s = .ok (ok, t) → d.Distinct → ok = true →
      ∀ a < 2 ^ 32, Accessible d a → t.byte (d.place a) =
        if va ≤ a ∧ a < va + buf.length then buf.getD (a - va) 0 else s.byte (d.place a) := by
  have hcopying : wp (copyout d va buf) (fun ok t => Copying s d va buf t ok) (fun _ => True) s :=
    wp_copyoutLoop_copying le_rfl hend (fun _ => trivial) fun _ _ h => h
  refine ⟨⟨?_, fun htables => ?_⟩, fun ok t hok hd hres a ha hacc => ?_⟩
  · rintro ⟨ok, t, hok, -⟩ k hk hall
    by_contra hno
    exact ((wp_of_ok hok).mp hcopying).not_noTable ⟨k, hk, hall, by simpa using hno⟩
  · refine (wp_copyoutLoop_copying le_rfl hend (fun hno => ?_)
      fun t ok h => h.copiesOut).exists_ok
    obtain ⟨k, hk, hall, hno⟩ := hno
    rw [htables k hk hall] at hno
    cases hno
  · exact ((wp_of_ok hok).mp hcopying).copiesOut.read hd hend hres ha hacc

/-- A page directory with a single page for the user, at address 0. -/
def userPage : Pgdir :=
  ⟨301, fun i => if i = 0 then
    some ⟨302, fun j => if j = 0 then ⟨300, true, true, true⟩ else .zero⟩ else none⟩

/-- Two bytes across the end of the page: the next page is not there, and `copyout` says so. -/
theorem copyout_exact_two : ∃ ok t, copyout userPage 4095 [1, 2] (freePages []) = .ok (ok, t) ∧
    CopiesOut (freePages []) userPage 4095 [1, 2] t ok := by
  refine (copyout_exact (freePages []) userPage
    (show 4095 + ([1, 2] : List UInt8).length ≤ 2 ^ 32 by decide)).1.mpr
    fun k hk _ => ?_
  have hlt : k < 2 := hk
  interval_cases k <;> rfl

/-- An address in the second 4 MB, where there is no page table. -/
theorem copyout_null : copyout userPage 0x400000 [1] (freePages []) = .error .nullPtr ∧
    ¬ ∃ ok t, copyout userPage 0x400000 [1] (freePages []) = .ok (ok, t) ∧
      CopiesOut (freePages []) userPage 0x400000 [1] t ok := by
  have herror : copyout userPage 0x400000 [1] (freePages []) = .error .nullPtr := rfl
  refine ⟨herror, ?_⟩
  rintro ⟨ok, t, hok, -⟩
  rw [herror] at hok
  cases hok

end Xv6
