import Xv6.Vm.Grow
import Xv6.Vm.Unmap

/-!
# Pages from `kalloc` that are filled and mapped

The rounds of `allocuvm` and of `copyuvm` are the same: a page is taken and filled, then it
is mapped, for which another page is taken where there is no page table. `Rounds` says what
some of these rounds have done, also where `allocuvm` does not notice that a page could not
be mapped. Which rounds these are is settled by the answers of `kalloc`, one for each call.
-/

namespace Xv6

open Foundation VmM

/-- Whether the next calls of `kalloc` are given a page: one after the other. -/
def kallocAnswer : List Frame → List Bool → ℕ → Bool
  | free, fails, 0 => !fails.headD false && !free.isEmpty
  | free, fails, n + 1 =>
      kallocAnswer (if fails.headD false then free else free.tail) fails.tail n

/-- Whether the call of `kalloc` after `n` others is given a page. -/
def Vm.answer (s : Vm) (n : ℕ) : Bool := kallocAnswer s.freelist s.fails n

/-- What is on the free list is there once, and `kfree` accepts it. -/
structure FreeList (s : Vm) : Prop where
  nodup : s.freelist.Nodup
  good : ∀ f ∈ s.freelist, ¬ BadFrame s.link f

/-- Only pages of the free list are taken, and only these are stored to. -/
structure Uses (s t : Vm) : Prop where
  suffix : t.freelist <:+ s.freelist
  page : ∀ f ∉ s.freelist, t.page f = s.page f
  link : t.link = s.link

/-- The pages from page `q` on that are mapped in `k` rounds, by the answers of `kalloc`, and
whether no round has to do without a page. -/
def mappedPages : (Fin NPDENTRIES → Bool) → ℕ → ℕ → (ℕ → Bool) → List ℕ × Bool
  | _, _, 0, _ => ([], true)
  | has, q, k + 1, answer =>
      if answer 0 then
        if has (PDX (q * PGSIZE)) then
          let rest := mappedPages has (q + 1) k fun n => answer (n + 1)
          (q :: rest.1, rest.2)
        else if answer 1 then
          let rest := mappedPages (addTable has q) (q + 1) k fun n => answer (n + 2)
          (q :: rest.1, rest.2)
        else mappedPages has (q + 1) k fun n => answer (n + 2)
      else ([], false)

section Rules

variable {s t u : Vm} {d d' d'' : Pgdir} {q k m : ℕ} {f : Frame} {x : Page} {perm : Perm}
  {E : VmStop → Prop}

@[simp] theorem Vm.answer_store {n : ℕ} : (s.store f x).answer n = s.answer n := rfl

theorem Vm.answer_refuse (h : s.answer 0 = false) (n : ℕ) :
    s.refuse.answer n = s.answer (n + 1) := by
  change kallocAnswer s.freelist s.fails.tail n = kallocAnswer _ s.fails.tail n
  change (!s.fails.headD false && !s.freelist.isEmpty) = false at h
  split
  · rfl
  · rename_i hhead
    rw [eq_false_of_ne_true hhead, Bool.not_false, Bool.true_and] at h
    have hnil : s.freelist = [] := by simpa using h
    rw [hnil]
    rfl

theorem wp_kalloc_answer {Q : Option Frame → Vm → Prop}
    (hnone : s.answer 0 = false → Q none s.refuse)
    (hsome : s.answer 0 = true → ∀ f free, s.freelist = f :: free →
      (∀ n, (s.give f free).answer n = s.answer (n + 1)) → Q (some f) (s.give f free)) :
    wp kalloc Q E s := by
  rw [kalloc, wp_bind, wp_get]
  cases hfree : s.freelist with
  | nil =>
      dsimp only
      rw [wp_bind, wp_set, wp_pure]
      exact hnone (by simp [Vm.answer, kallocAnswer, hfree])
  | cons f free =>
      dsimp only
      rw [wp_ite]
      constructor
      · intro hfails
        rw [wp_bind, wp_set, wp_pure]
        refine hnone ?_
        rw [Vm.answer, kallocAnswer, hfails]
        rfl
      · intro hfails
        rw [wp_bind, wp_set, wp_pure]
        refine hsome ?_ f free hfree fun n => ?_
        · simpa [Vm.answer, kallocAnswer, hfree] using hfails
        · change kallocAnswer free s.fails.tail n = kallocAnswer _ s.fails.tail n
          rw [if_neg hfails, hfree]
          rfl

/-- A page from `kalloc` that holds `x` has been mapped at page `q`; `l` is what was taken for
the page table. -/
structure MapsNew (s : Vm) (d : Pgdir) (q : ℕ) (perm : Perm) (x : Page) (f : Frame)
    (l : List Frame) (t : Vm) (d' : Pgdir) : Prop where
  free : s.freelist = f :: (l ++ t.freelist)
  page : ∀ g ∉ l, t.page g = if g = f then x else s.page g
  link : t.link = s.link
  frame : d'.frame = d.frame
  pte : ∀ m < numPages, d'.pte (m * PGSIZE) =
    if m = q then ⟨f, true, perm.w, perm.u⟩ else d.pte (m * PGSIZE)
  has : d'.has = addTable d.has q
  page_answer : s.answer 0 = true
  answers : d.hasTable (q * PGSIZE) = true ∧ (∀ n, t.answer n = s.answer (n + 1)) ∨
    d.hasTable (q * PGSIZE) = false ∧ s.answer 1 = true ∧ ∀ n, t.answer n = s.answer (n + 2)

/-- There was a page from `kalloc`, but none for the page table. -/
structure Loses (s : Vm) (d : Pgdir) (q : ℕ) (t : Vm) : Prop where
  free : ∃ f, s.freelist = f :: t.freelist
  page : ∀ g ∉ s.freelist, t.page g = s.page g
  link : t.link = s.link
  table : d.hasTable (q * PGSIZE) = false
  page_answer : s.answer 0 = true
  table_answer : s.answer 1 = false
  answers : ∀ n, t.answer n = s.answer (n + 2)

theorem Uses.refl : Uses s s := ⟨List.suffix_rfl, fun _ _ => rfl, rfl⟩

theorem Uses.trans (h : Uses s t) (h' : Uses t u) : Uses s u :=
  ⟨h'.suffix.trans h.suffix, fun g hg => by
    rw [h'.page g fun hmem => hg (h.suffix.mem hmem), h.page g hg], h'.link.trans h.link⟩

theorem Uses.nodup (h : Uses s t) (hnodup : s.freelist.Nodup) : t.freelist.Nodup :=
  hnodup.sublist h.suffix.sublist

/-- A page is taken, and stored to. -/
theorem Uses.take {free : List Frame} (hfree : s.freelist = f :: free) :
    Uses s ((s.give f free).store f x) := by
  refine ⟨?_, fun g hg => ?_, rfl⟩
  · rw [hfree]
    exact List.suffix_cons f free
  · have hgf : g ≠ f := fun heq => hg (by rw [hfree, heq]; exact List.mem_cons_self)
    exact Function.update_of_ne hgf x s.page

theorem MapsNew.uses {l : List Frame} (h : MapsNew s d q perm x f l t d') : Uses s t := by
  have hfree := h.free
  refine ⟨?_, fun g hg => ?_, h.link⟩
  · rw [hfree]
    exact (List.suffix_append l _).trans (List.suffix_cons f _)
  · have hgl : g ∉ l := fun hmem => hg (by
      rw [hfree]
      exact List.mem_cons_of_mem _ (List.mem_append_left _ hmem))
    have hgf : g ≠ f := fun heq => hg (by rw [hfree, heq]; exact List.mem_cons_self)
    rw [h.page g hgl, if_neg hgf]

theorem Loses.uses (h : Loses s d q t) : Uses s t := by
  obtain ⟨f, hfree⟩ := h.free
  refine ⟨?_, h.page, h.link⟩
  rw [hfree]
  exact List.suffix_cons f _

/-- `mappages` of one page, where no page is mapped yet. -/
theorem wp_mappages_one {Q : Pgdir × Bool → Vm → Prop} (hq : q < numPages)
    (hp : ¬ (d.pte (q * PGSIZE)).p = true)
    (hfound : d.hasTable (q * PGSIZE) = true →
      Q (d.setPte (q * PGSIZE) ⟨f, true, perm.w, perm.u⟩, true) s)
    (hfail : d.hasTable (q * PGSIZE) = false → s.answer 0 = false → Q (d, false) s.refuse)
    (hnew : d.hasTable (q * PGSIZE) = false → s.answer 0 = true → ∀ g free,
      s.freelist = g :: free → (∀ n, (s.give g free).answer n = s.answer (n + 1)) →
        Q (((d.setPde (PDX (q * PGSIZE)) (.empty g)).setPte (q * PGSIZE)
          ⟨f, true, perm.w, perm.u⟩), true) ((s.give g free).store g fun _ => 0)) :
    wp (mappages d (q * PGSIZE) PGSIZE f perm) Q E s := by
  have hone : mappages d (q * PGSIZE) (1 * PGSIZE) f perm =
      mappagesLoop perm 1 (q * PGSIZE) f d := mappages_pages Nat.one_pos hq
  rw [one_mul] at hone
  rw [hone, mappagesLoop, wp_bind]
  cases hhas : d.hasTable (q * PGSIZE) with
  | true =>
      rw [wp_walkpgdir_found hhas]
      dsimp only
      rw [if_neg hp, mappagesLoop, wp_pure]
      exact hfound hhas
  | false =>
      have hpde : d.pde (PDX (q * PGSIZE)) = none := by
        rwa [Pgdir.hasTable, Option.isSome_eq_false_iff, Option.isNone_iff_eq_none] at hhas
      rw [walkpgdir, hpde]
      simp only [if_true, wp_bind]
      refine wp_kalloc_answer (fun h => wp_pure.mpr (wp_pure.mpr (hfail hhas h)))
        fun h g free hfree hanswer => ?_
      dsimp only
      rw [wp_bind, wp_clear, wp_pure]
      dsimp only
      rw [Pgdir.pte_setPde_empty hpde, if_neg hp, mappagesLoop, wp_pure]
      exact hnew hhas h g free hfree hanswer

/-- A page is taken, filled and mapped. -/
theorem wp_fill {free : List Frame} {Q : Pgdir × Bool → Vm → Prop} (hq : q < numPages)
    (hp : ¬ (d.pte (q * PGSIZE)).p = true) (hfree : s.freelist = f :: free) (hanswer : s.answer 0 = true)
    (hanswers : ∀ n, (s.give f free).answer n = s.answer (n + 1))
    (hok : ∀ l t d', MapsNew s d q perm x f l t d' → Q (d', true) t)
    (hlost : ∀ t, Loses s d q t → Q (d, false) t) :
    wp (mappages d (q * PGSIZE) PGSIZE f perm) Q E ((s.give f free).store f x) := by
  have hpage : ∀ g, ((s.give f free).store f x).page g = if g = f then x else s.page g := fun g => by
    change Function.update s.page f x g = _
    by_cases hg : g = f
    · rw [if_pos hg, hg, Function.update_self]
    · rw [if_neg hg, Function.update_of_ne hg]
  have hnext : ∀ n, ((s.give f free).store f x).answer n = s.answer (n + 1) := hanswers
  refine wp_mappages_one hq hp (fun hhas => hok [] _ _ ?_) (fun hhas hno => hlost _ ?_)
    fun hhas hyes g rest hrest hnext' => hok [g] _ _ ?_
  · refine ⟨hfree, fun g _ => hpage g, rfl, Pgdir.frame_setPte,
      fun m hm => Pgdir.pte_setPte_page hhas hq hm, ?_, hanswer, .inl ⟨hhas, hnext⟩⟩
    funext i
    exact (maps_setPte (s := s) hq hhas).has i
  · refine ⟨⟨f, hfree⟩, fun g hg => ?_, rfl, hhas, hanswer, ?_, fun n => ?_⟩
    · have hgf : g ≠ f := fun heq => hg (by rw [heq, hfree]; exact List.mem_cons_self)
      exact (hpage g).trans (if_neg hgf)
    · rw [hnext] at hno
      exact hno
    · rw [Vm.answer_refuse hno, hnext]
  · have hpde : d.pde (PDX (q * PGSIZE)) = none := by
      rwa [Pgdir.hasTable, Option.isSome_eq_false_iff, Option.isNone_iff_eq_none] at hhas
    have hhas' : (d.setPde (PDX (q * PGSIZE)) (.empty g)).hasTable (q * PGSIZE) = true := by
      rw [Pgdir.hasTable, Pgdir.isSome_setPde]
      simp
    have hfree' : free = g :: rest := hrest
    refine ⟨by rw [hfree, hfree']; rfl, fun h hh => ?_, rfl, ?_, fun m hm => ?_, ?_, hanswer,
      .inr ⟨hhas, ?_, fun n => ?_⟩⟩
    · have hhg : h ≠ g := fun heq => hh (heq ▸ List.mem_cons_self)
      exact (Function.update_of_ne hhg _ _).trans (hpage h)
    · rw [Pgdir.frame_setPte, Pgdir.frame_setPde]
    · rw [Pgdir.pte_setPte_page hhas' hq hm, Pgdir.pte_setPde_empty hpde]
    · funext i
      exact Pgdir.isSome_setPte.trans Pgdir.isSome_setPde
    · rw [hnext] at hyes
      exact hyes
    · rw [Vm.answer_store, hnext', hnext]

/-- What `k` rounds from page `q` on have done: page `m` is filled with `x m` and mapped, or
there was no page for its page table. -/
inductive Rounds (x : ℕ → Page) (perm : ℕ → Perm) : ℕ → ℕ → Vm → Pgdir → Vm → Pgdir → Prop where
  | done {q : ℕ} {s : Vm} {d : Pgdir} : Rounds x perm q 0 s d s d
  | map {q k : ℕ} {s t u : Vm} {d d' d'' : Pgdir} {f : Frame} {l : List Frame}
      (h : MapsNew s d q (perm q) (x q) f l t d') (rest : Rounds x perm (q + 1) k t d' u d'') :
      Rounds x perm q (k + 1) s d u d''
  | lose {q k : ℕ} {s t u : Vm} {d d'' : Pgdir} (h : Loses s d q t)
      (rest : Rounds x perm (q + 1) k t d u d'') : Rounds x perm q (k + 1) s d u d''

/-- Page `m` is mapped to a page that was free and holds `x`. -/
def NewPage (s : Vm) (x : Page) (perm : Perm) (m : ℕ) (u : Vm) (d'' : Pgdir) : Prop :=
  ∃ f ∈ s.freelist, f ∉ u.freelist ∧ u.page f = x ∧
    d''.pte (m * PGSIZE) = ⟨f, true, perm.w, perm.u⟩

/-- The state after some rounds. -/
structure Filled (x : ℕ → Page) (perm : ℕ → Perm) (q k : ℕ) (s : Vm) (d : Pgdir) (u : Vm)
    (d'' : Pgdir) : Prop extends Uses s u where
  frame : d''.frame = d.frame
  others : ∀ m < numPages, m < q ∨ q + k ≤ m → d''.pte (m * PGSIZE) = d.pte (m * PGSIZE)
  pages : ∀ m, q ≤ m → m < q + k → (d''.pte (m * PGSIZE)).p = true →
    NewPage s (x m) (perm m) m u d''
  distinct : ∀ m n, q ≤ m → m < n → n < q + k → (d''.pte (m * PGSIZE)).p = true →
    (d''.pte (n * PGSIZE)).p = true →
    (d''.pte (m * PGSIZE)).frame ≠ (d''.pte (n * PGSIZE)).frame

section Facts

variable {x : ℕ → Page} {perm : ℕ → Perm}

theorem Filled.done : Filled x perm q 0 s d s d :=
  ⟨Uses.refl, rfl, fun _ _ _ => rfl, fun m hm hmq => by omega,
    fun m n hm hmn hn => by omega⟩

theorem Filled.map {l : List Frame} (h' : Filled x perm (q + 1) k t d' u d'')
    (h : MapsNew s d q (perm q) (x q) f l t d') (hqk : q + (k + 1) ≤ numPages)
    (hnodup : s.freelist.Nodup) : Filled x perm q (k + 1) s d u d'' := by
  have hfree := h.free
  have hf : f ∉ l ++ t.freelist := by
    rw [hfree] at hnodup
    exact (List.nodup_cons.mp hnodup).1
  have huses := h.uses
  have hft : f ∉ t.freelist := fun hmem => hf (List.mem_append_right l hmem)
  have hfl : f ∉ l := fun hmem => hf (List.mem_append_left _ hmem)
  have hq : d''.pte (q * PGSIZE) = ⟨f, true, (perm q).w, (perm q).u⟩ := by
    rw [h'.others q (by omega) (.inl (Nat.lt_succ_self q)), h.pte q (by omega), if_pos rfl]
  refine ⟨huses.trans h'.toUses, h'.frame.trans h.frame, fun m hm hout => ?_,
    fun m hqm hmk hp => ?_, fun m n hqm hmn hnk hpm hpn => ?_⟩
  · rw [h'.others m hm (by omega), h.pte m hm, if_neg (by omega)]
  · by_cases hmq : m = q
    · rw [hmq]
      refine ⟨f, by rw [hfree]; exact List.mem_cons_self, fun hmem => hft (h'.suffix.mem hmem),
        ?_, hq⟩
      rw [h'.page f hft, h.page f hfl, if_pos rfl]
    · obtain ⟨g, hg, hgu, hpage, hpte⟩ := h'.pages m (by omega) (by omega) hp
      exact ⟨g, huses.suffix.mem hg, hgu, hpage, hpte⟩
  · by_cases hmq : m = q
    · obtain ⟨g, hg, -, -, hpte⟩ := h'.pages n (by omega) (by omega) hpn
      rw [hmq, hq, hpte]
      exact fun heq => hft ((show f = g from heq) ▸ hg)
    · exact h'.distinct m n (by omega) hmn (by omega) hpm hpn

theorem Filled.lose (h' : Filled x perm (q + 1) k t d u d'') (h : Loses s d q t)
    (hqk : q + (k + 1) ≤ numPages) (hp : ¬ (d.pte (q * PGSIZE)).p = true) :
    Filled x perm q (k + 1) s d u d'' := by
  have huses := h.uses
  have hq : ¬ (d''.pte (q * PGSIZE)).p = true := by
    rwa [h'.others q (by omega) (.inl (Nat.lt_succ_self q))]
  refine ⟨huses.trans h'.toUses, h'.frame, fun m hm hout => h'.others m hm (by omega),
    fun m hqm hmk hpm => ?_, fun m n hqm hmn hnk hpm hpn => ?_⟩
  · have hmq : m ≠ q := by
      rintro rfl
      exact hq hpm
    obtain ⟨g, hg, hgu, hpage, hpte⟩ := h'.pages m (by omega) (by omega) hpm
    exact ⟨g, huses.suffix.mem hg, hgu, hpage, hpte⟩
  · have hmq : m ≠ q := by
      rintro rfl
      exact hq hpm
    exact h'.distinct m n (by omega) hmn (by omega) hpm hpn

theorem Rounds.filled (h : Rounds x perm q k s d u d'') (hqk : q + k ≤ numPages)
    (hnodup : s.freelist.Nodup)
    (hfresh : ∀ m, q ≤ m → m < q + k → ¬ (d.pte (m * PGSIZE)).p = true) :
    Filled x perm q k s d u d'' := by
  induction h with
  | done => exact Filled.done
  | @map q k s t u d d' d'' f l h rest ih =>
      refine (ih (by omega) (h.uses.nodup hnodup) fun m hqm hmk => ?_).map h hqk hnodup
      rw [h.pte m (by omega), if_neg (by omega)]
      exact hfresh m (by omega) (by omega)
  | @lose q k s t u d d'' h rest ih =>
      exact (ih (by omega) (h.uses.nodup hnodup) fun m hqm hmk =>
        hfresh m (by omega) (by omega)).lose h hqk (hfresh q le_rfl (by omega))

/-- The page tables with those of some pages. -/
def tablesOf (has : Fin NPDENTRIES → Bool) (l : List ℕ) : Fin NPDENTRIES → Bool := fun i =>
  has i || l.any fun m => decide (i = PDX (m * PGSIZE))

theorem addTable_of_has {has : Fin NPDENTRIES → Bool} (h : has (PDX (q * PGSIZE)) = true) :
    addTable has q = has := by
  funext i
  rw [addTable]
  by_cases hi : i = PDX (q * PGSIZE)
  · rw [hi, h, Bool.or_true]
  · rw [decide_eq_false hi, Bool.false_or]

theorem tablesOf_cons {has : Fin NPDENTRIES → Bool} {l : List ℕ} :
    tablesOf has (q :: l) = tablesOf (addTable has q) l := by
  funext i
  rw [tablesOf, tablesOf, addTable, List.any_cons, ← Bool.or_assoc,
    Bool.or_comm (has i)]

/-- The rounds map the pages that the answers of `kalloc` let them map. -/
theorem Rounds.mapped (h : Rounds x perm q k s d u d'') (hqk : q + k ≤ numPages)
    (hnodup : s.freelist.Nodup)
    (hfresh : ∀ m, q ≤ m → m < q + k → ¬ (d.pte (m * PGSIZE)).p = true) :
    ∃ l, (∀ m, m ∈ l ↔ (q ≤ m ∧ m < q + k) ∧ (d''.pte (m * PGSIZE)).p = true) ∧
      d''.has = tablesOf d.has l ∧
      ∀ i, mappedPages d.has q (k + i) s.answer =
        (l ++ (mappedPages d''.has (q + k) i u.answer).1,
          (mappedPages d''.has (q + k) i u.answer).2) := by
  induction h with
  | @done q s d =>
      refine ⟨[], fun m => ?_, ?_, fun i => ?_⟩
      · simp only [List.not_mem_nil, false_iff]
        omega
      · funext i
        rw [tablesOf, List.any_nil, Bool.or_false]
      · rw [Nat.zero_add, Nat.add_zero]
        rfl
  | @map q k s t u d d' d'' f l h rest ih =>
      have hfresh' : ∀ m, q + 1 ≤ m → m < q + 1 + k → ¬ (d'.pte (m * PGSIZE)).p = true :=
        fun m hqm hmk => by
          rw [h.pte m (by omega), if_neg (by omega)]
          exact hfresh m (by omega) (by omega)
      have hnodup' := h.uses.nodup hnodup
      obtain ⟨l', hmem, htables, hplan⟩ := ih (by omega) hnodup' hfresh'
      have hq : (d''.pte (q * PGSIZE)).p = true := by
        rw [(rest.filled (by omega) hnodup' hfresh').others q (by omega)
          (.inl (Nat.lt_succ_self q)), h.pte q (by omega), if_pos rfl]
      refine ⟨q :: l', fun m => ?_, ?_, fun i => ?_⟩
      · rw [List.mem_cons, hmem]
        constructor
        · rintro (rfl | ⟨hin, hp⟩)
          · exact ⟨⟨le_rfl, by omega⟩, hq⟩
          · exact ⟨by omega, hp⟩
        · rintro ⟨hin, hp⟩
          by_cases hmq : m = q
          · exact .inl hmq
          · exact .inr ⟨by omega, hp⟩
      · rw [htables, h.has, tablesOf_cons]
      · have hrest := hplan i
        rw [show q + (k + 1) = q + 1 + k by omega, show k + 1 + i = k + i + 1 by omega,
          mappedPages, if_pos h.page_answer]
        rcases h.answers with ⟨hhas, hanswer⟩ | ⟨hhas, hyes, hanswer⟩
        · have hhas' : d.has (PDX (q * PGSIZE)) = true := hhas
          rw [if_pos hhas', ← funext hanswer]
          rw [h.has, addTable_of_has hhas'] at hrest
          rw [hrest]
          rfl
        · have hhas' : d.has (PDX (q * PGSIZE)) = false := hhas
          rw [if_neg (by rw [hhas']; simp), if_pos hyes, ← funext hanswer]
          rw [h.has] at hrest
          rw [hrest]
          rfl
  | @lose q k s t u d d'' h rest ih =>
      have hfresh' : ∀ m, q + 1 ≤ m → m < q + 1 + k → ¬ (d.pte (m * PGSIZE)).p = true :=
        fun m hqm hmk => hfresh m (by omega) (by omega)
      have hnodup' := h.uses.nodup hnodup
      obtain ⟨l', hmem, htables, hplan⟩ := ih (by omega) hnodup' hfresh'
      have hq : ¬ (d''.pte (q * PGSIZE)).p = true := by
        rw [(rest.filled (by omega) hnodup' hfresh').others q (by omega)
          (.inl (Nat.lt_succ_self q))]
        exact hfresh q le_rfl (by omega)
      refine ⟨l', fun m => ?_, htables, fun i => ?_⟩
      · rw [hmem]
        constructor
        · rintro ⟨hin, hp⟩
          exact ⟨by omega, hp⟩
        · rintro ⟨hin, hp⟩
          have hmq : m ≠ q := by
            rintro rfl
            exact hq hp
          exact ⟨by omega, hp⟩
      · have hhas' : d.has (PDX (q * PGSIZE)) = false := h.table
        rw [show q + (k + 1) = q + 1 + k by omega, show k + 1 + i = k + i + 1 by omega,
          mappedPages, if_pos h.page_answer, if_neg (by rw [hhas']; simp),
          if_neg (by rw [h.table_answer]; simp), ← funext h.answers]
        exact hplan i

end Facts

end Rules

end Xv6
