import Xv6.Foundation.Loop
import Xv6.Vm.Uvm

/-!
# What addresses are translated to

`Pgdir.translate` is what the hardware makes of an address. `mappages` maps the pages of
its range one after the other, each to the physical page after the one before, and
`setupkvm` puts the four ranges of `kmap` side by side.
-/

namespace Xv6

open Foundation VmM

/-- What an address is translated to: a physical address, and what can be done there. -/
def Pgdir.translate (d : Pgdir) (a : ℕ) : Option (ℕ × Perm) :=
  if (d.pte a).p then
    some ((d.pte a).frame * PGSIZE + a % PGSIZE, ⟨(d.pte a).w, (d.pte a).u⟩)
  else none

/-- One round of `mappages` as `vm.c` has it: the round for page `last` is the last one. -/
def VmM.mappagesRound (perm : Perm) (last : ℕ) :
    ℕ × Frame × Pgdir → VmM ((ℕ × Frame × Pgdir) ⊕ (Pgdir × Bool))
  | (a, pa, d) => do
      match ← walkpgdir d a true with
      | none => return .inr (d, false)
      | some d =>
          if (d.pte a).p then panic .remap
          else
            let d := d.setPte a ⟨pa, true, perm.w, perm.u⟩
            if a = last then return .inr (d, true)
            else return .inl (uint (a + PGSIZE), nextFrame pa, d)

/-- Number of bytes of an entry of `kmap`. -/
def VmM.Kmap.size (k : Kmap) : ℕ := uint (k.physEnd - k.physStart)

/-- The addresses of an entry of `kmap`. -/
def VmM.Kmap.Covers (k : Kmap) (a : ℕ) : Prop := k.virt ≤ a ∧ a < k.virt + k.size

instance (k : Kmap) (a : ℕ) : Decidable (k.Covers a) := inferInstanceAs (Decidable (_ ∧ _))

/-- An entry of `kmap` is made of pages and ends in the address space. -/
structure VmM.Kmap.Fits (k : Kmap) : Prop where
  virt : k.virt % PGSIZE = 0
  phys : k.physStart % PGSIZE = 0
  page : k.physStart < 2 ^ 32
  pos : 0 < k.size
  size : k.size % PGSIZE = 0
  last : k.virt + k.size ≤ 2 ^ 32

/-- What the kernel's addresses are translated to, for `V2P(data)`. -/
def kernelTranslate (data a : ℕ) : Option (ℕ × Perm) :=
  if KERNBASE ≤ a ∧ a < KERNBASE + PHYSTOP then
    some (a - KERNBASE, ⟨!decide (KERNLINK ≤ a ∧ a < KERNBASE + data), false⟩)
  else if DEVSPACE ≤ a then some (a, ⟨true, false⟩)
  else none

section Translate

variable {d d' : Pgdir} {s t : Vm} {n k a va size pa : ℕ} {perm : Perm}
  {E : VmStop → Prop}

theorem Pgdir.translate_eq_none_iff : d.translate a = none ↔ ¬ (d.pte a).p = true := by
  rw [translate]
  split <;> simp_all

theorem nextFrame_eq : nextFrame pa = (pa + 1) % numPages := by
  have hpg : PGSIZE = 4096 := rfl
  change uint ((pa * PGSIZE : ℕ) + PGSIZE) / PGSIZE = (pa + 1 : ℕ) % numPages
  rw [uint, hpg, numPages]
  omega

/-! ### `mappages` -/

/-- The pages from `n` on are mapped, `k` of them. -/
def MapsRange (d : Pgdir) (n k : ℕ) (pa : Frame) (perm : Perm) (d' : Pgdir) : Prop :=
  ∀ m < numPages, d'.pte (m * PGSIZE) =
    if n ≤ m ∧ m < n + k then ⟨(pa + (m - n)) % numPages, true, perm.w, perm.u⟩
    else d.pte (m * PGSIZE)

theorem MapsRange.refl : MapsRange d n 0 pa perm d := fun m _ => by
  rw [if_neg (by omega)]

/-- One more page. -/
theorem MapsRange.succ (h : MapsRange d n k pa perm d') {d'' : Pgdir}
    (hm : Maps s d' (n + k) ⟨(pa + k) % numPages, true, perm.w, perm.u⟩ t d'') :
    MapsRange d n (k + 1) pa perm d'' := fun m hmn => by
  rw [hm.pte m hmn]
  by_cases hmk : m = n + k
  · rw [if_pos hmk, if_pos (by omega), hmk, Nat.add_sub_cancel_left]
  · rw [if_neg hmk, h m hmn]
    by_cases hin : n ≤ m ∧ m < n + k
    · rw [if_pos hin, if_pos (by omega)]
    · rw [if_neg hin, if_neg (by omega)]

/-- `mappages` maps its range, or there is no page for a page table. -/
theorem wp_mappagesLoop_range (hnk : n + k ≤ numPages) (hpa : pa < numPages)
    (hfresh : ∀ m, n ≤ m → m < n + k → ¬ (d.pte (m * PGSIZE)).p = true) :
    wp (mappagesLoop perm k (n * PGSIZE) pa d)
      (fun r _ => r.2 = true → MapsRange d n k pa perm r.1) E s := by
  refine wp_mappagesLoop
    (fun m q _ e => q = (pa + (m - n)) % numPages ∧ MapsRange d n (m - n) pa perm e) hnk
    (fun m q s e hlo hm hI hp => ?_) (fun m q s e hlo hm hI _ _ h => by cases h)
    (fun m q s e t e' hlo hm hI hmaps => ?_) (fun q s e hI _ => ?_) le_rfl rfl ?_
  · rw [hI.2 m (by omega), if_neg (by omega)] at hp
    exact absurd hp (hfresh m hlo hm)
  · obtain ⟨hq, hI⟩ := hI
    rw [show m + 1 - n = m - n + 1 by omega]
    refine ⟨?_, hI.succ (s := s) (t := t) ?_⟩
    · rw [nextFrame_eq, hq, Nat.mod_add_mod, Nat.add_assoc]
    · rw [Nat.add_sub_cancel' hlo, ← hq]
      exact hmaps
  · rw [Nat.add_sub_cancel_left] at hI
    exact hI.2
  · rw [Nat.sub_self, Nat.add_zero, Nat.mod_eq_of_lt hpa]
    exact ⟨rfl, MapsRange.refl⟩

/-- The page tables that the pages from `n` on need, `k` of them. -/
def rangeTables (n k : ℕ) : ℕ := (n + k - 1) / NPTENTRIES + 1 - n / NPTENTRIES

/-- With a page for every page table of its range, `mappages` does not fail. -/
theorem wp_mappagesLoop_served (hnk : n + k ≤ numPages) (hroom : rangeTables n k ≤ s.granted) :
    wp (mappagesLoop perm k (n * PGSIZE) pa d) (fun r _ => r.2 = true) (fun _ => True) s := by
  have hent : NPTENTRIES = 1024 := rfl
  rw [rangeTables, hent] at hroom
  -- what is still to be asked for from page `m` on is granted
  refine wp_mappagesLoop (fun m _ t e => (n + k - 1) / 1024 + 1 - m / 1024 ≤
    t.granted + if e.hasTable (m * PGSIZE) then 1 else 0) hnk (fun _ _ _ _ _ _ _ _ => trivial)
    (fun m _ t e hlo hm hI hno hzero => ?_) (fun m q t e u e' hlo hm hI hmaps => ?_)
    (fun _ _ _ _ => rfl) le_rfl rfl (hroom.trans (Nat.le_add_right _ _))
  · rw [hno, hzero] at hI
    simp only [Bool.false_eq_true, if_false] at hI
    omega
  · have hgranted := hmaps.granted
    have hthere : e'.hasTable (m * PGSIZE) = true := by
      rw [Pgdir.hasTable, hmaps.has]
      simp
    have hone : t.granted + (if e.hasTable (m * PGSIZE) then 1 else 0) = u.granted + 1 := by
      rw [hgranted]
      split <;> rfl
    rw [hone] at hI
    by_cases hsame : (m + 1) / 1024 = m / 1024
    · rw [hasTable_congr (m := m) (by rw [hent, hsame]), hthere, if_pos rfl, hsame]
      exact hI
    · omega

/-- The rounds of `mappages`. -/
theorem mappages_eq (hpos : 0 < size) (hend : va + size - 1 < 2 ^ 32) :
    mappages d va size pa perm = mappagesLoop perm
      ((va + size - 1) / PGSIZE + 1 - va / PGSIZE) (va / PGSIZE * PGSIZE) pa d := by
  have hpg : PGSIZE = 4096 := rfl
  have hlast : PGROUNDDOWN (uint ((va : ℤ) + size - 1)) = (va + size - 1) / PGSIZE * PGSIZE := by
    rw [PGROUNDDOWN, uint, hpg]
    omega
  have hrounds : uint (((va + size - 1) / PGSIZE * PGSIZE : ℕ) - (va / PGSIZE * PGSIZE : ℕ)) /
      PGSIZE + 1 = (va + size - 1) / PGSIZE + 1 - va / PGSIZE := by
    rw [uint, hpg]
    omega
  rw [mappages]
  simp only [hlast]
  rw [PGROUNDDOWN, hrounds]

/-- `mappages` translates the addresses of its pages, and no other. -/
theorem wp_mappages_translate (hva : va % PGSIZE = 0) (hpa : pa < numPages) (hpos : 0 < size)
    (hend : va + size - 1 < 2 ^ 32)
    (hfresh : ∀ a, va ≤ a → a / PGSIZE ≤ (va + size - 1) / PGSIZE → d.translate a = none) :
    wp (mappages d va size pa perm)
      (fun r _ => r.2 = true → ∀ a < 2 ^ 32, r.1.translate a =
        if va ≤ a ∧ a / PGSIZE ≤ (va + size - 1) / PGSIZE then
          some ((pa * PGSIZE + (a - va)) % 2 ^ 32, perm)
        else d.translate a) E s := by
  have hpg : PGSIZE = 4096 := rfl
  have hbase : va / PGSIZE * PGSIZE = va := Nat.div_mul_cancel (Nat.dvd_of_mod_eq_zero hva)
  rw [mappages_eq hpos hend]
  refine wp_mono (wp_mappagesLoop_range ?_ hpa fun m hlo hm => ?_) (fun r _ hr hok a ha => ?_)
    fun _ he => he
  · rw [numPages, hpg]
    rw [hpg] at hbase
    omega
  · refine Pgdir.translate_eq_none_iff.mp (hfresh (m * PGSIZE) ?_ ?_)
    · rw [hpg] at *
      omega
    · rw [hpg] at *
      omega
  · have hpte := hr hok (a / PGSIZE) (by rw [numPages, hpg]; omega)
    have hrange : (va / PGSIZE ≤ a / PGSIZE ∧
        a / PGSIZE < va / PGSIZE + ((va + size - 1) / PGSIZE + 1 - va / PGSIZE)) ↔
        (va ≤ a ∧ a / PGSIZE ≤ (va + size - 1) / PGSIZE) := by
      rw [hpg] at hva ⊢
      omega
    rw [Pgdir.pte_page, Pgdir.pte_page, if_congr hrange rfl rfl] at hpte
    rw [Pgdir.translate, hpte]
    by_cases hin : va ≤ a ∧ a / PGSIZE ≤ (va + size - 1) / PGSIZE
    · have haddr : (pa + (a / PGSIZE - va / PGSIZE)) % numPages * PGSIZE + a % PGSIZE =
          (pa * PGSIZE + (a - va)) % 2 ^ 32 := by
        rw [hpg] at hva hin ⊢
        rw [numPages]
        omega
      rw [if_pos hin, if_pos hin, if_pos rfl, haddr]
    · rw [if_neg hin, if_neg hin]
      rfl

/-! ### `setupkvm` -/

theorem VmM.Kmap.Fits.covers_iff {k : Kmap} (h : k.Fits) :
    k.Covers a ↔ k.virt ≤ a ∧ a / PGSIZE ≤ (k.virt + k.size - 1) / PGSIZE := by
  have hpg : PGSIZE = 4096 := rfl
  have hvirt := h.virt
  have hsize := h.size
  have hpos := h.pos
  rw [Kmap.Covers]
  rw [hpg] at *
  omega

/-- The entries of a table that do not overlap are all mapped. -/
theorem wp_mapKernel_translate {ks : List Kmap} (hfits : ∀ k ∈ ks, k.Fits)
    (hdisjoint : ks.Pairwise fun k l => ∀ a, k.Covers a → ¬ l.Covers a)
    (hfresh : ∀ k ∈ ks, ∀ a, k.Covers a → d.translate a = none) :
    wp (mapKernel ks d)
      (fun r _ => ∀ d' ∈ r, ∀ a < 2 ^ 32, d'.translate a =
        (ks.find? (·.Covers a)).elim (d.translate a)
          fun k => some ((k.physStart + (a - k.virt)) % 2 ^ 32, k.perm)) E s := by
  induction ks generalizing d s with
  | nil =>
      rw [mapKernel, wp_pure]
      rintro d' ⟨⟩ a _
      rfl
  | cons k ks ih =>
      obtain ⟨hfits, hrest⟩ := List.forall_mem_cons.mp hfits
      obtain ⟨hk, hks⟩ := List.pairwise_cons.mp hdisjoint
      obtain ⟨hkfresh, hksfresh⟩ := List.forall_mem_cons.mp hfresh
      have hphys : k.physStart / PGSIZE * PGSIZE = k.physStart :=
        Nat.div_mul_cancel (Nat.dvd_of_mod_eq_zero hfits.phys)
      have hpa : k.physStart / PGSIZE < numPages := by
        have hpage := hfits.page
        have hpg : PGSIZE = 4096 := rfl
        rw [numPages, hpg]
        omega
      have hend : k.virt + k.size - 1 < 2 ^ 32 := by
        have hlast := hfits.last
        omega
      rw [mapKernel, wp_bind]
      refine wp_mono (wp_mappages_translate hfits.virt hpa hfits.pos hend fun a hlo hhi =>
        hkfresh a (hfits.covers_iff.mpr ⟨hlo, hhi⟩)) ?_ fun _ he => he
      rintro ⟨d₁, ok⟩ t hd₁
      cases ok with
      | false =>
          dsimp only
          rw [if_neg (by simp), wp_pure]
          rintro d' ⟨⟩
      | true =>
          have htr : ∀ a < 2 ^ 32, d₁.translate a = if k.Covers a then
              some ((k.physStart + (a - k.virt)) % 2 ^ 32, k.perm) else d.translate a := by
            intro a ha
            rw [hd₁ rfl a ha, hphys]
            exact if_congr hfits.covers_iff.symm rfl rfl
          dsimp only
          rw [if_pos rfl]
          refine wp_mono (ih hrest hks fun l hl a ha => ?_) (fun r u hr d' hd' a ha => ?_)
            fun _ he => he
          · have hlt : a < 2 ^ 32 := ha.2.trans_le (hrest l hl).last
            rw [htr a hlt, if_neg fun hcov => hk l hl a hcov ha]
            exact hksfresh l hl a ha
          · rw [hr d' hd' a ha, htr a ha, List.find?_cons]
            by_cases hcov : k.Covers a
            · have hnone : ks.find? (·.Covers a) = none :=
                List.find?_eq_none.mpr fun l hl => by simpa using hk l hl a hcov
              simp [hcov, hnone]
            · simp [hcov]

/-- The sizes of the entries of `kmap`. -/
theorem kmap_sizes (link : Linker) :
    uint ((EXTMEM : ℕ) - (0 : ℕ)) = EXTMEM ∧
      uint (link.data - (KERNLINK - KERNBASE : ℕ)) = link.data - EXTMEM ∧
      uint ((PHYSTOP : ℕ) - link.data) = PHYSTOP - link.data ∧
      uint ((0 : ℕ) - (DEVSPACE : ℕ)) = 2 ^ 32 - DEVSPACE := by
  have habove := link.above
  have hbelow := link.below
  rw [EXTMEM] at habove
  rw [PHYSTOP] at hbelow
  simp only [uint, KERNLINK, KERNBASE, EXTMEM, PHYSTOP, DEVSPACE]
  omega

/-- The layout of memory, for `V2P(data)`. -/
theorem layout (link : Linker) : PGSIZE = 4096 ∧ KERNBASE = 0x80000000 ∧ EXTMEM = 0x100000 ∧
    KERNLINK = 0x80100000 ∧ PHYSTOP = 0xE000000 ∧ DEVSPACE = 0xFE000000 ∧
    0x100000 < link.data ∧ link.data < 0xE000000 ∧ link.data % 4096 = 0 :=
  ⟨rfl, rfl, rfl, rfl, rfl, rfl, link.above, link.below, link.aligned⟩

/-- The entries of `kmap` are made of pages. -/
theorem kmap_fits {link : Linker} : ∀ k ∈ kmap link.data, k.Fits := by
  obtain ⟨hio, htext, hdata, hdev⟩ := kmap_sizes link
  have hlayout := layout link
  simp only [kmap, List.forall_mem_cons, List.not_mem_nil, IsEmpty.forall_iff, implies_true,
    and_true]
  refine ⟨?_, ?_, ?_, ?_⟩
  · constructor <;> simp only [Kmap.size, hio, hlayout.1] <;> omega
  · constructor <;> simp only [Kmap.size, htext, hlayout.1] <;> omega
  · constructor <;> simp only [Kmap.size, hdata, hlayout.1] <;> omega
  · constructor <;> simp only [Kmap.size, hdev, hlayout.1] <;> omega

/-- The entries of `kmap` do not overlap. -/
theorem kmap_disjoint {link : Linker} :
    (kmap link.data).Pairwise fun k l => ∀ a, k.Covers a → ¬ l.Covers a := by
  obtain ⟨hio, htext, hdata, hdev⟩ := kmap_sizes link
  have hlayout := layout link
  simp only [kmap, List.pairwise_cons, List.forall_mem_cons, List.not_mem_nil,
    IsEmpty.forall_iff, implies_true, and_true, List.Pairwise.nil, Kmap.Covers, Kmap.size, hio,
    htext, hdata, hdev]
  refine ⟨⟨?_, ?_, ?_⟩, ⟨?_, ?_⟩, ?_⟩
  all_goals
    intro a hk hl
    omega

/-- Together they are what the kernel's addresses are translated to. -/
theorem kmap_find {link : Linker} (ha : a < 2 ^ 32) :
    ((kmap link.data).find? (·.Covers a)).elim none
      (fun k => some ((k.physStart + (a - k.virt)) % 2 ^ 32, k.perm)) =
        kernelTranslate link.data a := by
  obtain ⟨hioSize, htextSize, hdataSize, hdevSize⟩ := kmap_sizes link
  have hlayout := layout link
  simp only [kmap, List.find?_cons, List.find?_nil, Kmap.Covers, Kmap.size, kernelTranslate]
  split
  · rename_i hio
    replace hio := of_decide_eq_true hio
    rw [hioSize] at hio
    rw [Option.elim_some, if_pos (by omega), decide_eq_false (by omega), Bool.not_false]
    dsimp only
    rw [show (0 + (a - KERNBASE)) % 2 ^ 32 = a - KERNBASE by omega]
  rename_i hio
  replace hio := of_decide_eq_false hio
  rw [hioSize] at hio
  split
  · rename_i htext
    replace htext := of_decide_eq_true htext
    rw [htextSize] at htext
    rw [Option.elim_some, if_pos (by omega), decide_eq_true (by omega), Bool.not_true]
    dsimp only
    rw [show (KERNLINK - KERNBASE + (a - KERNLINK)) % 2 ^ 32 = a - KERNBASE by omega]
  rename_i htext
  replace htext := of_decide_eq_false htext
  rw [htextSize] at htext
  split
  · rename_i hdata
    replace hdata := of_decide_eq_true hdata
    rw [hdataSize] at hdata
    rw [Option.elim_some, if_pos (by omega), decide_eq_false (by omega), Bool.not_false]
    dsimp only
    rw [show (link.data + (a - (KERNBASE + link.data))) % 2 ^ 32 = a - KERNBASE by omega]
  rename_i hdata
  replace hdata := of_decide_eq_false hdata
  rw [hdataSize] at hdata
  split
  · rename_i hdev
    replace hdev := of_decide_eq_true hdev
    rw [hdevSize] at hdev
    rw [Option.elim_some, if_neg (by omega), if_pos (by omega)]
    dsimp only
    rw [show (DEVSPACE + (a - DEVSPACE)) % 2 ^ 32 = a by omega]
  · rename_i hdev
    replace hdev := of_decide_eq_false hdev
    rw [hdevSize] at hdev
    rw [Option.elim_none, if_neg (by omega), if_neg (by omega)]

theorem Pgdir.translate_empty {f : Frame} : (Pgdir.empty f).translate a = none :=
  translate_eq_none_iff.mpr (by simp [pte, empty, Pte.zero])

/-- `setupkvm` builds the kernel's translation, or there is no page for it. -/
theorem wp_setupkvm_translate :
    wp setupkvm (fun r _ => ∀ d ∈ r, ∀ a < 2 ^ 32,
      d.translate a = kernelTranslate s.link.data a) E s := by
  rw [setupkvm, wp_bind]
  refine wp_kalloc (fun _ => wp_pure.mpr fun d hd => by cases hd) fun f free _ _ => ?_
  dsimp only
  rw [wp_bind, wp_clear, if_neg (by decide), wp_bind, wp_get, Vm.link_store, Vm.link_give]
  refine wp_mono (wp_mapKernel_translate kmap_fits kmap_disjoint fun _ _ _ _ =>
    Pgdir.translate_empty) (fun r _ hr d hd a ha => ?_) fun _ he => he
  rw [hr d hd a ha, Pgdir.translate_empty]
  exact kmap_find ha

/-! ### The rounds of `mappages` come to an end -/

/-- A round that is not the last one goes on with the next page. -/
theorem mappagesRound_inl {last : ℕ} {b : ℕ × Frame × Pgdir}
    (h : mappagesRound perm last (a, pa, d) s = .ok (.inl b, t)) :
    a ≠ last ∧ ∃ d', b = (uint (a + PGSIZE), nextFrame pa, d') := by
  have hround : wp (mappagesRound perm last (a, pa, d)) (fun r _ => ∀ b, r = .inl b →
      a ≠ last ∧ ∃ d', b = (uint (a + PGSIZE), nextFrame pa, d')) (fun _ => True) s := by
    rw [mappagesRound, wp_bind]
    refine wp_of_forall (fun r u => ?_) fun _ => trivial
    cases r with
    | none => simp
    | some d =>
        dsimp only
        rw [wp_ite, wp_ite]
        refine ⟨fun _ => wp_panic.mpr trivial, fun _ => ⟨fun _ => ?_, fun hne => ?_⟩⟩
        · simp
        · rw [wp_pure]
          intro b hb
          exact ⟨hne, _, (Sum.inl.inj hb).symm⟩
  exact (wp_of_ok h).mp hround b rfl

/-- The last page is met before the address comes round to it a second time. -/
theorem mappagesRound_endsIn {last : ℕ} (ha : a < 2 ^ 32) (hlast : last < 2 ^ 32)
    (hk : uint ((last : ℤ) - a) = k * PGSIZE) :
    EndsIn (k + 1) (mappagesRound perm last) (a, pa, d) (mappagesLoop perm (k + 1) a pa d) := by
  have hpg : PGSIZE = 4096 := rfl
  induction k generalizing a pa d with
  | zero =>
      have heq : a = last := by
        rw [uint] at hk
        omega
      refine EndsIn.round (fun b => mappagesLoop perm 0 b.1 b.2.1 b.2.2)
        (fun s b t h => absurd heq (mappagesRound_inl h).1) ?_
      rw [mappagesLoop, mappagesRound, bind_assoc]
      refine bind_congr fun r => ?_
      cases r with
      | none => rfl
      | some d =>
          dsimp only
          rw [if_pos heq]
          split <;> rfl
  | succ k ih =>
      have hne : a ≠ last := by
        rintro rfl
        rw [sub_self, uint, hpg] at hk
        omega
      have hnext : uint ((last : ℤ) - (uint (a + PGSIZE) : ℕ)) = k * PGSIZE := by
        rw [hpg] at hk ⊢
        rw [uint] at hk ⊢
        rw [uint]
        omega
      refine EndsIn.round (fun b => mappagesLoop perm (k + 1) b.1 b.2.1 b.2.2)
        (fun s b t h => ?_) ?_
      · obtain ⟨-, d', rfl⟩ := mappagesRound_inl h
        exact ih (by rw [uint]; omega) hnext
      · rw [mappagesLoop, mappagesRound, bind_assoc]
        refine bind_congr fun r => ?_
        cases r with
        | none => rfl
        | some d =>
            dsimp only
            rw [if_neg hne]
            split <;> rfl

/-- The loop of `mappages` ends, wherever its range ends. -/
theorem mappages_endsIn (hva : va < 2 ^ 32) :
    EndsIn (uint ((PGROUNDDOWN (uint ((va : ℤ) + size - 1)) : ℕ) - (PGROUNDDOWN va : ℕ)) / PGSIZE + 1)
      (mappagesRound perm (PGROUNDDOWN (uint ((va : ℤ) + size - 1)))) (PGROUNDDOWN va, pa, d)
      (mappages d va size pa perm) := by
  have hpg : PGSIZE = 4096 := rfl
  refine mappagesRound_endsIn ?_ ?_ ?_
  · rw [PGROUNDDOWN, hpg]
    omega
  · rw [PGROUNDDOWN, uint, hpg]
    omega
  · simp only [PGROUNDDOWN, uint, hpg]
    omega

/-- The number of page tables for the pages of a range. -/
def tablesFor (va size : ℕ) : ℕ :=
  rangeTables (va / PGSIZE) ((va + size - 1) / PGSIZE + 1 - va / PGSIZE)

theorem wp_mappages_served (hpos : 0 < size) (hend : va + size - 1 < 2 ^ 32)
    (hroom : tablesFor va size ≤ s.granted) :
    wp (mappages d va size pa perm) (fun r _ => r.2 = true) (fun _ => True) s := by
  rw [mappages_eq hpos hend]
  refine wp_mappagesLoop_served ?_ hroom
  rw [numPages, PGSIZE_eq]
  omega

theorem wp_setupkvm_served (hroom : 1 + kernelTables ≤ s.granted) :
    wp setupkvm (fun r _ => r.isSome = true) E s := by
  refine wp_setupkvm (fun hzero => by omega) (fun t hl _ => ?_) fun _ _ _ => rfl
  have hlt := hl.2.1
  omega

/-- `mappages` and `setupkvm` build the translations they are meant to build: `mappages` comes
to an end, and when it finds its pages free and gets its page tables it maps them as they are
asked for; `setupkvm` never finds a page mapped. Both succeed when there are pages enough, for
`mappages` one for each page table of the range, for `setupkvm` the page directory and 64 page
tables. -/
theorem translations_built (s : Vm) :
    (∀ d va size pa perm, va % PGSIZE = 0 → pa < numPages → 0 < size → va + size - 1 < 2 ^ 32 →
      (∀ a, va ≤ a → a / PGSIZE ≤ (va + size - 1) / PGSIZE → d.translate a = none) →
      (∃ n, EndsIn n (mappagesRound perm (PGROUNDDOWN (va + size - 1))) (va, pa, d)
        (mappages d va size pa perm)) ∧
      ∃ r t, mappages d va size pa perm s = .ok (r, t) ∧
        (tablesFor va size ≤ s.granted → r.2 = true) ∧
        (r.2 = true → ∀ a < 2 ^ 32, r.1.translate a =
          if va ≤ a ∧ a / PGSIZE ≤ (va + size - 1) / PGSIZE then
            some ((pa * PGSIZE + (a - va)) % 2 ^ 32, perm)
          else d.translate a)) ∧
    ∃ r t, setupkvm s = .ok (r, t) ∧ (1 + kernelTables ≤ s.granted → r.isSome = true) ∧
      ∀ d ∈ r, ∀ a < 2 ^ 32, d.translate a = kernelTranslate s.link.data a := by
  refine ⟨fun d va size pa perm hva hpa hpos hend hfresh => ⟨?_, ?_⟩, ?_⟩
  · have hlast : uint ((va : ℤ) + size - 1) = va + size - 1 := by
      rw [uint]
      omega
    have hbase : PGROUNDDOWN va = va := Nat.div_mul_cancel (Nat.dvd_of_mod_eq_zero hva)
    have hends : EndsIn _ (mappagesRound perm _) (PGROUNDDOWN va, pa, d)
        (mappages d va size pa perm) := mappages_endsIn (show va < 2 ^ 32 by omega)
    rw [hlast, hbase] at hends
    exact ⟨_, hends⟩
  · obtain ⟨r, t, hr, htr⟩ :=
      (wp_mappages_translate hva hpa hpos hend hfresh).exists_ok
    exact ⟨r, t, hr, fun hroom => (wp_of_ok hr).mp (wp_mappages_served hpos hend hroom), htr⟩
  · obtain ⟨r, t, hr, htr⟩ := (wp_setupkvm_translate (s := s)).exists_ok
    exact ⟨r, t, hr,
      fun hroom => (wp_of_ok hr).mp (wp_setupkvm_served (E := fun _ => True) hroom), htr⟩

def freePages (free : List Frame) : Vm :=
  ⟨free, [], fun _ _ => 0, ⟨0x102000, 0x110000, by decide, by decide, by decide, by decide⟩,
    0, [], [], false⟩

/-- A range that ends with the last page of the address space, and the kernel's pages. -/
theorem translations_built_last :
    (∃ n, EndsIn n (mappagesRound ⟨true, false⟩ 0xFFFFF000) (0xFFFFF000, 5, .empty 300)
      (mappages (.empty 300) 0xFFFFF000 PGSIZE 5 ⟨true, false⟩)) ∧
      (∃ d t, mappages (.empty 300) 0xFFFFF000 PGSIZE 5 ⟨true, false⟩
          (freePages (List.range' 301 65)) = .ok ((d, true), t) ∧
        d.translate 0xFFFFF010 = some (0x5010, ⟨true, false⟩)) ∧
      ∃ d t, setupkvm (freePages (List.range' 301 65)) = .ok (some d, t) ∧
        d.translate 0x80101010 = some (0x101010, ⟨false, false⟩) ∧ d.translate 0x1000 = none := by
  obtain ⟨hmap, k, t', hk, hsome, hktr⟩ := translations_built (freePages (List.range' 301 65))
  obtain ⟨hends, r, t, hr, hserved, htr⟩ := hmap (.empty 300) 0xFFFFF000 PGSIZE 5 ⟨true, false⟩
    (by decide) (by decide) (by decide) (by decide) fun _ _ _ => Pgdir.translate_empty
  refine ⟨hends, ?_, ?_⟩
  · obtain ⟨d, ok⟩ := r
    obtain rfl : ok = true := hserved (by decide)
    refine ⟨d, t, hr, ?_⟩
    rw [htr rfl _ (by decide), if_pos (by decide)]
    rfl
  · obtain ⟨d, rfl⟩ := Option.isSome_iff_exists.mp (hsome (by decide))
    refine ⟨d, t', hk, ?_, ?_⟩
    · rw [hktr d rfl _ (by decide)]
      rfl
    · rw [hktr d rfl _ (by decide)]
      rfl

end Translate

end Xv6
