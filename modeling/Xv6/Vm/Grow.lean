import Xv6.Vm.Uvm

/-!
# Growing and copying an address space

`allocuvm` and `copyuvm`. The pages that they ask for are known beforehand: one for each
page to map, and one for each page table that is missing when its first page is mapped.
As long as the first page that is refused is not one for a page table, everything is
either mapped or given back. Otherwise the page that was to be mapped is lost.
-/

namespace Xv6

open Foundation VmM

variable {s t : Vm} {d d' : Pgdir} {q k : ℕ} {E : VmStop → Prop}

inductive Need where
  | page
  /-- to become a page table, in `walkpgdir` -/
  | table
  deriving DecidableEq

def Pgdir.has (d : Pgdir) : Fin NPDENTRIES → Bool := fun i => (d.pde i).isSome

/-- The page tables, with the one for page `q`. -/
def addTable (has : Fin NPDENTRIES → Bool) (q : ℕ) : Fin NPDENTRIES → Bool :=
  fun i => decide (i = PDX (q * PGSIZE)) || has i

/-- The pages that are asked for in order to map `k` pages from page `q`. -/
def pageNeeds : (Fin NPDENTRIES → Bool) → ℕ → ℕ → List Need
  | _, _, 0 => []
  | has, q, k + 1 =>
      .page :: if has (PDX (q * PGSIZE)) then pageNeeds (addTable has q) (q + 1) k
        else .table :: pageNeeds (addTable has q) (q + 1) k

/-- The page tables when `k` pages from page `q` are mapped. -/
def tablesAfter : (Fin NPDENTRIES → Bool) → ℕ → ℕ → Fin NPDENTRIES → Bool
  | has, _, 0 => has
  | has, q, k + 1 => tablesAfter (addTable has q) (q + 1) k

/-- Nothing is lost, unless the page that is refused was to become a page table. -/
def Balance (refused : Option Need) (after before : Multiset Frame) : Prop :=
  if refused = some .table then after < before else after = before

namespace Balance

variable {refused : Option Need} {after before : Multiset Frame}

theorem le (h : Balance refused after before) : after ≤ before := by
  rw [Balance] at h
  split at h
  · exact h.le
  · exact h.le

theorem of_eq (h : refused ≠ some .table) (heq : after = before) : Balance refused after before := by
  rwa [Balance, if_neg h]

theorem of_lt (h : refused = some .table) (hlt : after < before) : Balance refused after before := by
  rwa [Balance, if_pos h]

theorem add (h : Balance refused after before) (x : Multiset Frame) :
    Balance refused (after + x) (before + x) := by
  by_cases htable : refused = some .table
  · rw [Balance, if_pos htable] at h ⊢
    exact add_lt_add_of_lt_of_le h le_rfl
  · rw [Balance, if_neg htable] at h ⊢
    rw [h]

theorem trans_eq {start : Multiset Frame} (h : Balance refused after before)
    (heq : before = start) : Balance refused after start := heq ▸ h

end Balance

/-- A page that the call was given is mapped. -/
structure Adds (s : Vm) (d : Pgdir) (q : ℕ) (perm : Perm) (t : Vm) (d' : Pgdir) : Prop
    extends Evolves s d t d' where
  pte : ∃ f ∈ t.taken, ∀ m < numPages,
    d'.pte (m * PGSIZE) = if m = q then ⟨f, true, perm.w, perm.u⟩ else d.pte (m * PGSIZE)
  has : d'.has = addTable d.has q
  acct : t.free + d'.held = s.free + d.held
  granted : s.granted = t.granted + (1 + if d.hasTable (q * PGSIZE) then 0 else 1)

/-- The page that was to be mapped is lost. -/
structure Drops (s : Vm) (d : Pgdir) (q : ℕ) (t : Vm) : Prop extends Inside s t where
  lost : t.free < s.free
  table : d.hasTable (q * PGSIZE) = false
  granted : s.granted = 1

/-- A page from `kalloc` is filled and mapped. -/
theorem wp_mapNew {perm : Perm} {f : Frame} {free : List Frame} {x : Page}
    {Q : Pgdir × Bool → Vm → Prop} (hq : q < userPages)
    (hfree : s.free = {f} + (s.give f free).free)
    (hgranted : s.granted = (s.give f free).granted + 1)
    (hremap : (d.pte (q * PGSIZE)).p = true → E (.panic .remap))
    (hlost : ∀ t, Drops s d q t → Q (d, false) t)
    (hok : ∀ t d', Adds s d q perm t d' → Q (d', true) t) :
    wp (mappages d (q * PGSIZE) PGSIZE f perm) Q E ((s.give f free).store f x) := by
  have hin : Inside s ((s.give f free).store f x) :=
    Inside.give.trans (Inside.store List.mem_cons_self)
  refine wp_mappages_page (hq.trans userPages_lt) hremap (fun hhas hg => ?_)
    fun hp t d' hm => ?_
  · refine hlost _ ⟨hin.trans Inside.refuse, ?_, hhas, ?_⟩
    · rw [Vm.free_refuse, Vm.free_store, hfree, Multiset.singleton_add]
      exact Multiset.lt_cons_self _ _
    · rw [Vm.granted_store] at hg
      rw [hgranted, hg]
  · refine hok t d' ⟨(Evolves.of_inside hin).trans hm.toEvolves,
      ⟨f, hm.taken f List.mem_cons_self, hm.pte⟩, ?_, ?_, ?_⟩
    · funext i
      exact hm.has i
    · have hheld := hm.held_user hq
      rw [Pte.frames_of_not_p hp, add_zero, Pte.frames_of_p rfl] at hheld
      rw [hheld, hfree, Vm.free_store]
      abel
    · rw [hgranted, ← Vm.granted_store (f := f) (x := x), hm.granted]
      omega

theorem pageNeeds_succ : pageNeeds d.has q (k + 1) =
    .page :: ((if d.hasTable (q * PGSIZE) then [] else [.table]) ++
      pageNeeds (addTable d.has q) (q + 1) k) := by
  rw [pageNeeds]
  change Need.page :: (if d.hasTable (q * PGSIZE) then _ else _) = _
  cases d.hasTable (q * PGSIZE) <;> rfl

/-- The rest of what is asked for, after a page has been mapped. -/
theorem Adds.needs {perm : Perm} (h : Adds s d q perm t d') :
    (pageNeeds d.has q (k + 1))[s.granted]? = (pageNeeds d'.has (q + 1) k)[t.granted]? := by
  rw [pageNeeds_succ, h.granted, h.has]
  cases d.hasTable (q * PGSIZE) with
  | true => simp [Nat.add_comm 1]
  | false => simp

theorem Adds.granted_needs {perm : Perm} (h : Adds s d q perm t d') :
    s.granted + (pageNeeds d'.has (q + 1) k).length =
      t.granted + (pageNeeds d.has q (k + 1)).length := by
  rw [pageNeeds_succ, h.granted, h.has]
  cases d.hasTable (q * PGSIZE) with
  | true => simp; omega
  | false => simp; omega

theorem Drops.needs (h : Drops s d q t) :
    (pageNeeds d.has q (k + 1))[s.granted]? = some .table := by
  rw [pageNeeds_succ, h.granted, h.table]
  rfl

/-- The entries at and above `KERNBASE` are as they were. -/
def KernelSame (d d' : Pgdir) : Prop :=
  ∀ m < numPages, userPages ≤ m → d'.pte (m * PGSIZE) = d.pte (m * PGSIZE)

theorem KernelSame.trans {d'' : Pgdir} (h : KernelSame d d') (h' : KernelSame d' d'') :
    KernelSame d d'' := fun m hm hk => (h' m hm hk).trans (h m hm hk)

theorem Adds.kernel {perm : Perm} (h : Adds s d q perm t d') (hq : q < userPages) :
    KernelSame d d' := fun m hm hk => by
  obtain ⟨f, -, hpte⟩ := h.pte
  rw [hpte m hm, if_neg (by omega)]

theorem Frees.kernel {oldsz : ℕ} (h : Frees s d q oldsz t d') (hold : oldsz ≤ KERNBASE) :
    KernelSame d d' := fun m hm hk => by
  refine h.same m hm (.inr (hold.trans ?_))
  rw [userPages_eq] at hk
  rw [KERNBASE, PGSIZE_eq]
  omega

/-! ### `allocuvm` -/

/-- `k` pages from page `q` are mapped. -/
structure Served (q k : ℕ) (s : Vm) (d : Pgdir) (t : Vm) (d' : Pgdir) : Prop where
  granted : s.granted = t.granted + (pageNeeds d.has q k).length
  has : d'.has = tablesAfter d.has q k
  pages : ∀ m, q ≤ m → m < q + k → (d'.pte (m * PGSIZE)).p = true ∧
    (d'.pte (m * PGSIZE)).u = true ∧ (d'.pte (m * PGSIZE)).frame ∈ t.taken
  others : ∀ m < numPages, m < q ∨ q + k ≤ m → d'.pte (m * PGSIZE) = d.pte (m * PGSIZE)

/-- Nothing is mapped that was not, and nothing from page `q₀` to `newsz` where page `q₀`
had been mapped. -/
def Undone (q₀ newsz q : ℕ) (d d' : Pgdir) : Prop :=
  (q₀ < q → d.hasTable (q₀ * PGSIZE) = true) →
    ∀ m < numPages, (d'.pte (m * PGSIZE)).p = true →
      d'.pte (m * PGSIZE) = d.pte (m * PGSIZE) ∧ (q₀ < q → ¬ (q₀ ≤ m ∧ m * PGSIZE < newsz))

/-- What the loop of `allocuvm` has done in the end, from page `q` with `k` pages to go; the
call began with page `q₀`. -/
structure Grows (q₀ newsz q k : ℕ) (s : Vm) (d : Pgdir) (t : Vm) (d' : Pgdir) (r : ℕ) : Prop
    extends Evolves s d t d' where
  size : r = 0 ∨ r = newsz
  kernel : KernelSame d d'
  below : ∀ m < numPages, m < q₀ → d'.pte (m * PGSIZE) = d.pte (m * PGSIZE)
  balance : Balance (pageNeeds d.has q k)[s.granted]? (t.free + d'.held) (s.free + d.held)
  served : (pageNeeds d.has q k)[s.granted]? = none → r = newsz ∧ Served q k s d t d'
  refused : (pageNeeds d.has q k)[s.granted]? = some .page → r = 0 ∧ Undone q₀ newsz q d d'

section Rounds

variable {q₀ newsz r : ℕ} {u : Vm} {d'' : Pgdir} {perm : Perm}

theorem Grows.done : Grows q₀ newsz q 0 s d s d newsz where
  toEvolves := Evolves.of_inside Inside.refl
  size := .inr rfl
  kernel := fun _ _ _ => rfl
  below := fun _ _ _ => rfl
  balance := Balance.of_eq (by simp [pageNeeds]) rfl
  served := fun _ => ⟨rfl, rfl, rfl, fun m hm hmq => by omega, fun _ _ _ => rfl⟩
  refused := fun h => by simp [pageNeeds] at h

/-- There is no page to map. -/
theorem Grows.rollback (hgranted : s.granted = 0) (hnew : newsz ≤ KERNBASE)
    (h : Frees s.refuse d q₀ newsz t d') : Grows q₀ newsz q (k + 1) s d t d' 0 := by
  have hneed : (pageNeeds d.has q (k + 1))[s.granted]? = some .page := by
    rw [hgranted, pageNeeds]
    rfl
  refine ⟨(Evolves.of_inside Inside.refuse).trans h.toEvolves, .inl rfl, h.kernel hnew,
    fun m hm hlt => h.same m hm (.inl hlt), Balance.of_eq (by rw [hneed]; simp) h.acct,
    fun hn => absurd hn (by rw [hneed]; simp),
    fun _ => ⟨rfl, fun htable m hm hp => ⟨?_, fun hlt hin => ?_⟩⟩⟩
  · rcases h.each m hm with heq | hgone
    · exact heq
    · rw [hgone] at hp
      cases hp
  · rw [h.gone (.inr (htable hlt)) m hm hin.1 hin.2] at hp
    cases hp

/-- A page is lost, whatever comes after. -/
theorem Grows.drop (h' : Grows q₀ newsz (q + 1) k t d u d' r) (h : Drops s d q t) :
    Grows q₀ newsz q (k + 1) s d u d' r := by
  have hneed := h.needs (k := k)
  refine ⟨(Evolves.of_inside h.toInside).trans h'.toEvolves, h'.size, h'.kernel, h'.below,
    Balance.of_lt hneed (h'.balance.le.trans_lt ?_), fun hn => absurd hn (by rw [hneed]; simp),
    fun hn => absurd hn (by rw [hneed]; simp)⟩
  exact add_lt_add_of_lt_of_le h.lost le_rfl

/-- A page is mapped. -/
theorem Grows.add (h' : Grows q₀ newsz (q + 1) k t d' u d'' r) (hq : q < userPages)
    (hq₀ : q₀ ≤ q) (hnew : q * PGSIZE < newsz) (h : Adds s d q ⟨true, true⟩ t d') :
    Grows q₀ newsz q (k + 1) s d u d'' r := by
  have hqn := hq.trans userPages_lt
  have hneed := h.needs (k := k)
  obtain ⟨f, hf, hpte⟩ := h.pte
  refine ⟨h.toEvolves.trans h'.toEvolves, h'.size, (h.kernel hq).trans h'.kernel,
    fun m hm hlt => ?_, ?_, fun hn => ?_, fun hn => ?_⟩
  · rw [h'.below m hm hlt, hpte m hm, if_neg (by omega)]
  · rw [hneed]
    exact h'.balance.trans_eq h.acct
  · rw [hneed] at hn
    obtain ⟨hr, hs⟩ := h'.served hn
    refine ⟨hr, ?_, ?_, fun m hqm hmk => ?_, fun m hm hout => ?_⟩
    · have hcount := h.granted_needs (k := k)
      rw [hs.granted] at hcount
      omega
    · rw [hs.has, h.has]
      rfl
    · by_cases hmq : m = q
      · subst hmq
        rw [hs.others m hqn (.inl (Nat.lt_succ_self m)), hpte m hqn, if_pos rfl]
        exact ⟨rfl, rfl, h'.taken f hf⟩
      · exact hs.pages m (by omega) (by omega)
    · rw [hs.others m hm (by omega), hpte m hm, if_neg (by omega)]
  · rw [hneed] at hn
    obtain ⟨hr, hu⟩ := h'.refused hn
    refine ⟨hr, fun htable m hm hp => ?_⟩
    have hhas : q₀ < q + 1 → d'.hasTable (q₀ * PGSIZE) = true := fun _ => by
      by_cases hlt : q₀ < q
      · exact h.keeps _ (htable hlt)
      · obtain rfl : q₀ = q := by omega
        change d'.has _ = true
        rw [h.has]
        simp [addTable]
    obtain ⟨heq, hout⟩ := hu hhas m hm hp
    have hout' := hout (by omega)
    refine ⟨?_, fun _ => hout'⟩
    rw [heq, hpte m hm, if_neg]
    rintro rfl
    exact hout' ⟨hq₀, hnew⟩

/-- The rounds of `allocuvm`. -/
theorem wp_allocuvmLoop {oldsz : ℕ} {Q : Pgdir × ℕ → Vm → Prop} (hnew : newsz < KERNBASE)
    (hold : oldsz ≤ newsz) (hup : pageUp oldsz = q₀) (hq : q₀ ≤ q)
    (hk : 0 < k → q + k = pageUp newsz)
    (hremap : E (.panic .remap) ∨
      ∀ m, q ≤ m → m < q + k → ¬ (d.pte (m * PGSIZE)).p = true)
    (hsound : E (.panic .kfree) ∨ Sound s d)
    (hok : ∀ t d' r, Grows q₀ newsz q k s d t d' r → Q (d', r) t) :
    wp (allocuvmLoop oldsz newsz k (q * PGSIZE) d) Q E s := by
  induction k generalizing q s d Q with
  | zero => exact wp_pure.mpr (hok s d newsz Grows.done)
  | succ k ih =>
      have hlast := hk (Nat.succ_pos k)
      rw [pageUp, PGSIZE_eq] at hlast
      have hnewsz : q * PGSIZE < newsz := by
        rw [PGSIZE_eq]
        omega
      have holdsz : oldsz < newsz := by
        rw [pageUp, PGSIZE_eq] at hup
        rw [PGSIZE_eq] at hnewsz
        omega
      have hqk : q + (k + 1) ≤ userPages := by
        rw [KERNBASE] at hnew
        rw [userPages_eq]
        omega
      have hqu : q < userPages := by omega
      have hun := userPages_lt
      have hnext : uint ((q * PGSIZE : ℕ) + PGSIZE) = (q + 1) * PGSIZE := by
        exact uint_page_succ (by omega)
      rw [allocuvmLoop, wp_bind]
      refine wp_kalloc (fun hgranted => ?_) fun f free hfree hgranted => ?_
      · dsimp only
        rw [wp_bind]
        refine wp_deallocuvm hnew.le holdsz hsound fun t d' h => wp_pure.mpr (hok t d' 0 ?_)
        rw [hup] at h
        exact Grows.rollback hgranted hnew.le h
      · dsimp only
        rw [wp_bind, wp_clear, wp_bind, hnext]
        refine wp_mapNew hqu hfree hgranted
          (fun hp => hremap.resolve_right fun h => h q le_rfl (by omega) hp)
          (fun t h => ?_) fun t d' h => ?_
        · refine ih (hq.trans (Nat.le_succ q)) (fun hpos => by have := hk (by omega); omega)
            (hremap.imp_right fun h m hm hmk => h m (by omega) (by omega))
            (hsound.imp_right fun hs => hs.mono h.link ?_) fun u d'' r h' =>
              hok u d'' r (h'.drop h)
          exact add_le_add_left h.lost.le _
        · obtain ⟨f, -, hpte⟩ := h.pte
          refine ih (hq.trans (Nat.le_succ q)) (fun hpos => by have := hk (by omega); omega)
            (hremap.imp_right fun hr m hm hmk => ?_)
            (hsound.imp_right fun hs => hs.mono h.link h.acct.le) fun u d'' r h' =>
              hok u d'' r (h'.add hqu hq hnewsz h)
          rw [hpte m (by omega), if_neg (by omega)]
          exact hr m (by omega) (by omega)

def allocNeeds (has : Fin NPDENTRIES → Bool) (oldsz newsz : ℕ) : List Need :=
  if newsz ≥ KERNBASE ∨ newsz < oldsz then []
  else pageNeeds has (pageUp oldsz) (pageUp newsz - pageUp oldsz)

/-- What `allocuvm` returns when it gets all that it asks for. -/
def allocSize (oldsz newsz : ℕ) : ℕ :=
  if newsz ≥ KERNBASE then 0 else if newsz < oldsz then oldsz else newsz

/-- The page tables when `allocuvm` gets all that it asks for. -/
def allocHas (has : Fin NPDENTRIES → Bool) (oldsz newsz : ℕ) : Fin NPDENTRIES → Bool :=
  if newsz ≥ KERNBASE ∨ newsz < oldsz then has
  else tablesAfter has (pageUp oldsz) (pageUp newsz - pageUp oldsz)

inductive Alloc (oldsz newsz : ℕ) (s : Vm) (d : Pgdir) (t : Vm) (d' : Pgdir) (r : ℕ) : Prop where
  | tooBig (hnew : newsz ≥ KERNBASE) (ht : t = s) (hd : d' = d) (hr : r = 0)
  | smaller (hnew : newsz < KERNBASE) (hlt : newsz < oldsz) (ht : t = s) (hd : d' = d)
      (hr : r = oldsz)
  | grows (hnew : newsz < KERNBASE) (hle : oldsz ≤ newsz)
      (h : Grows (pageUp oldsz) newsz (pageUp oldsz) (pageUp newsz - pageUp oldsz) s d t d' r)

theorem wp_allocuvm {oldsz newsz : ℕ} {Q : Pgdir × ℕ → Vm → Prop}
    (hremap : E (.panic .remap) ∨
      (newsz < KERNBASE → ∀ m, oldsz ≤ m * PGSIZE → m * PGSIZE < newsz →
        ¬ (d.pte (m * PGSIZE)).p = true))
    (hsound : E (.panic .kfree) ∨ Sound s d)
    (hok : ∀ t d' r, Alloc oldsz newsz s d t d' r → Q (d', r) t) :
    wp (allocuvm d oldsz newsz) Q E s := by
  rw [allocuvm, wp_ite, wp_pure, wp_ite, wp_pure]
  refine ⟨fun hbig => hok s d 0 (.tooBig hbig rfl rfl rfl), fun hbig =>
    ⟨fun hlt => hok s d oldsz (.smaller (by omega) hlt rfl rfl rfl), fun hge => ?_⟩⟩
  have hnew : newsz < KERNBASE := by omega
  have hle : oldsz ≤ newsz := by omega
  rw [PGROUNDUP_eq (hle.trans hnew.le)]
  have hrounds : (newsz - pageUp oldsz * PGSIZE + PGSIZE - 1) / PGSIZE =
      pageUp newsz - pageUp oldsz := by
    rw [pageUp, pageUp, PGSIZE_eq]
    omega
  simp only [hrounds]
  refine wp_allocuvmLoop hnew hle rfl le_rfl (fun hpos => by omega)
    (hremap.imp_right fun h m hm hmk => h hnew m ?_ ?_) hsound fun t d' r h =>
      hok t d' r (.grows hnew hle h)
  · rw [pageUp] at hm
    rw [PGSIZE_eq] at hm ⊢
    omega
  · rw [pageUp, pageUp] at hmk
    rw [PGSIZE_eq] at hmk ⊢
    omega

namespace Alloc

variable {oldsz newsz : ℕ}

theorem evolves (h : Alloc oldsz newsz s d t d' r) : Evolves s d t d' := by
  cases h with
  | tooBig _ ht hd => exact ht ▸ hd ▸ Evolves.of_inside Inside.refl
  | smaller _ _ ht hd => exact ht ▸ hd ▸ Evolves.of_inside Inside.refl
  | grows _ _ h => exact h.toEvolves

theorem kernel (h : Alloc oldsz newsz s d t d' r) : KernelSame d d' := by
  cases h with
  | tooBig _ _ hd => exact hd ▸ fun _ _ _ => rfl
  | smaller _ _ _ hd => exact hd ▸ fun _ _ _ => rfl
  | grows _ _ h => exact h.kernel

theorem balance (h : Alloc oldsz newsz s d t d' r) :
    Balance (allocNeeds d.has oldsz newsz)[s.granted]? (t.free + d'.held) (s.free + d.held) := by
  rw [allocNeeds]
  cases h with
  | tooBig hnew ht hd =>
      rw [if_pos (.inl hnew), ht, hd]
      exact Balance.of_eq (by simp) rfl
  | smaller _ hlt ht hd =>
      rw [if_pos (.inr hlt), ht, hd]
      exact Balance.of_eq (by simp) rfl
  | grows hnew hle h =>
      rw [if_neg (by omega)]
      exact h.balance

/-- After a failure nothing is mapped that was not, unless a page was lost. -/
theorem undone (h : Alloc oldsz newsz s d t d' r) (hr : r = 0)
    (hneed : (allocNeeds d.has oldsz newsz)[s.granted]? ≠ some .table) {m : ℕ} (hm : m < numPages)
    (hp : (d'.pte (m * PGSIZE)).p = true) : d'.pte (m * PGSIZE) = d.pte (m * PGSIZE) := by
  cases h with
  | tooBig _ _ hd => rw [hd]
  | smaller _ _ _ hd => rw [hd]
  | grows hnew hle h =>
      rw [allocNeeds, if_neg (by omega)] at hneed
      cases hn : (pageNeeds d.has (pageUp oldsz) (pageUp newsz - pageUp oldsz))[s.granted]? with
      | none =>
          obtain ⟨hsize, hs⟩ := h.served hn
          obtain rfl : newsz = 0 := hsize.symm.trans hr
          have hzero : pageUp 0 = 0 := rfl
          refine hs.others m hm ?_
          omega
      | some need =>
          cases need with
          | page => exact ((h.refused hn).2 (fun hlt => absurd hlt (lt_irrefl _)) m hm hp).1
          | table => exact absurd hn hneed

/-- Everything that was asked for is there. -/
theorem granted (h : Alloc oldsz newsz s d t d' r)
    (hn : (allocNeeds d.has oldsz newsz)[s.granted]? = none) :
    s.granted = t.granted + (allocNeeds d.has oldsz newsz).length := by
  rw [allocNeeds] at hn ⊢
  cases h with
  | tooBig hnew ht => rw [if_pos (.inl hnew), ht, List.length_nil, add_zero]
  | smaller _ hlt ht => rw [if_pos (.inr hlt), ht, List.length_nil, add_zero]
  | grows hnew hle h =>
      rw [if_neg (by omega)] at hn ⊢
      exact (h.served hn).2.granted

theorem has (h : Alloc oldsz newsz s d t d' r)
    (hn : (allocNeeds d.has oldsz newsz)[s.granted]? = none) :
    d'.has = allocHas d.has oldsz newsz := by
  rw [allocNeeds] at hn
  rw [allocHas]
  cases h with
  | tooBig hnew _ hd => rw [if_pos (.inl hnew), hd]
  | smaller _ hlt _ hd => rw [if_pos (.inr hlt), hd]
  | grows hnew hle h =>
      rw [if_neg (by omega)] at hn ⊢
      exact (h.served hn).2.has

theorem size (h : Alloc oldsz newsz s d t d' r)
    (hn : (allocNeeds d.has oldsz newsz)[s.granted]? = none) : r = allocSize oldsz newsz := by
  rw [allocNeeds] at hn
  rw [allocSize]
  cases h with
  | tooBig hnew _ _ hr => rw [if_pos hnew, hr]
  | smaller hnew hlt _ _ hr => rw [if_neg (by omega), if_pos hlt, hr]
  | grows hnew hle h =>
      rw [if_neg (by omega)] at hn
      rw [if_neg (by omega), if_neg (by omega)]
      exact (h.served hn).1

/-- The page that is refused was to be mapped. -/
theorem refused (h : Alloc oldsz newsz s d t d' r)
    (hn : (allocNeeds d.has oldsz newsz)[s.granted]? = some .page) : r = 0 := by
  rw [allocNeeds] at hn
  cases h with
  | tooBig _ _ _ hr => exact hr
  | smaller _ hlt =>
      rw [if_pos (.inr hlt)] at hn
      simp at hn
  | grows hnew hle h =>
      rw [if_neg (by omega)] at hn
      exact (h.refused hn).1

end Alloc

end Rounds

/-- Only the entries below `KERNBASE` can have `PTE_U`. -/
def KernelOnly (d : Pgdir) : Prop :=
  ∀ m < numPages, userPages ≤ m → (d.pte (m * PGSIZE)).u = false

theorem KernelSame.kernelOnly (h : KernelSame d d') (hd : KernelOnly d) : KernelOnly d' :=
  fun m hm hk => by rw [h m hm hk, hd m hm hk]

/-- The memory of a process of this size is there, and no more. -/
structure Space (d : Pgdir) (sz : ℕ) : Prop where
  bound : sz ≤ KERNBASE
  present : ∀ m, m * PGSIZE < sz → (d.pte (m * PGSIZE)).p = true
  above : ∀ m < userPages, sz ≤ m * PGSIZE → ¬ (d.pte (m * PGSIZE)).p = true
  kernelOnly : KernelOnly d

theorem Space.page_lt {sz : ℕ} (h : Space d sz) {m : ℕ} (hm : m * PGSIZE < sz) : m < userPages := by
  have hbound := h.bound
  rw [KERNBASE] at hbound
  rw [PGSIZE_eq] at hm
  rw [userPages_eq]
  omega

/-- Nothing is in the way of a larger memory. -/
theorem Space.above_of_lt {sz newsz : ℕ} (h : Space d sz) (hnew : newsz < KERNBASE) (m : ℕ)
    (hm : sz ≤ m * PGSIZE) (hlt : m * PGSIZE < newsz) : ¬ (d.pte (m * PGSIZE)).p = true := by
  refine h.above m ?_ hm
  rw [KERNBASE] at hnew
  rw [PGSIZE_eq] at hlt
  rw [userPages_eq]
  omega

/-- `allocuvm` keeps the memory as it is or makes it larger, unless a page is lost. -/
theorem Alloc.space {oldsz newsz r : ℕ} (h : Alloc oldsz newsz s d t d' r) (hd : Space d oldsz)
    (hneed : (allocNeeds d.has oldsz newsz)[s.granted]? ≠ some .table) :
    Space d' (if r = 0 then oldsz else r) := by
  have hun := userPages_lt
  cases h with
  | tooBig _ _ hd' hr => rwa [if_pos hr, hd']
  | smaller _ hlt _ hd' hr => rwa [if_neg (by omega), hd', hr]
  | grows hnew hle h =>
      rw [allocNeeds, if_neg (by omega)] at hneed
      have hkernel := h.kernel.kernelOnly hd.kernelOnly
      cases hn : (pageNeeds d.has (pageUp oldsz) (pageUp newsz - pageUp oldsz))[s.granted]? with
      | none =>
          obtain ⟨hsize, hs⟩ := h.served hn
          have hr : (if r = 0 then oldsz else r) = newsz := by
            split
            · omega
            · exact hsize
          have hmono : pageUp oldsz ≤ pageUp newsz :=
            pageUp_le_iff.mpr (hle.trans (pageUp_le_iff.mp le_rfl))
          rw [hr]
          refine ⟨hnew.le, fun m hm => ?_, fun m hm hge hp => ?_, hkernel⟩
          · have hlast := lt_pageUp_iff.mpr hm
            by_cases hlt : m * PGSIZE < oldsz
            · have hfirst := lt_pageUp_iff.mpr hlt
              rw [hs.others m ((hd.page_lt hlt).trans hun) (.inl hfirst)]
              exact hd.present m hlt
            · have hfirst := pageUp_le_iff.mpr (Nat.not_lt.mp hlt)
              exact (hs.pages m hfirst (by omega)).1
          · have hlast := pageUp_le_iff.mpr hge
            rw [hs.others m (hm.trans hun) (.inr (by omega))] at hp
            exact hd.above m hm (hle.trans hge) hp
      | some need =>
          cases need with
          | table => exact absurd hn hneed
          | page =>
              obtain ⟨hr, hu⟩ := h.refused hn
              rw [if_pos hr]
              refine ⟨hd.bound, fun m hm => ?_, fun m hm hge hp => ?_, hkernel⟩
              · rw [h.below m ((hd.page_lt hm).trans hun) (lt_pageUp_iff.mpr hm)]
                exact hd.present m hm
              · rw [(hu (fun hlt => absurd hlt (lt_irrefl _)) m (hm.trans hun) hp).1] at hp
                exact hd.above m hm hge hp

/-- `deallocuvm` makes the memory smaller. -/
theorem Frees.space {oldsz newsz : ℕ} (h : Frees s d (pageUp newsz) oldsz t d') (hd : Space d oldsz)
    (hlt : newsz < oldsz) : Space d' newsz := by
  have hun := userPages_lt
  refine ⟨hlt.le.trans hd.bound, fun m hm => ?_, fun m hm hge hp => ?_,
    (h.kernel hd.bound).kernelOnly hd.kernelOnly⟩
  · have hm' := hm.trans hlt
    rw [h.same m ((hd.page_lt hm').trans hun) (.inl (lt_pageUp_iff.mpr hm))]
    exact hd.present m hm'
  · by_cases hmo : m * PGSIZE < oldsz
    · have hfirst : pageUp newsz * PGSIZE < oldsz :=
        (Nat.mul_le_mul_right _ (pageUp_le_iff.mpr hge)).trans_lt hmo
      have htable : d.hasTable (pageUp newsz * PGSIZE) = true := by
        by_contra hno
        have hpte := hd.present _ hfirst
        rw [Pgdir.pte_of_not_hasTable (by simpa using hno)] at hpte
        cases hpte
      rw [h.gone (.inr htable) m (hm.trans hun) (pageUp_le_iff.mpr hge) hmo] at hp
      cases hp
    · rw [h.same m (hm.trans hun) (.inr (Nat.not_lt.mp hmo))] at hp
      exact hd.above m hm (Nat.not_lt.mp hmo) hp

/-! ### `copyuvm` -/

/-- The page tables of a new address space. -/
def kernelHas : Fin NPDENTRIES → Bool := fun i => 512 ≤ i.val && i.val < 568 || 1016 ≤ i.val

def kernelNeeds : List Need := .page :: List.replicate kernelTables .table

def copyNeeds (sz : ℕ) : List Need := kernelNeeds ++ pageNeeds kernelHas 0 (pageUp sz)

theorem NewSpace.has (h : NewSpace s t d) : d.has = kernelHas := by
  funext i
  rw [Bool.eq_iff_iff, kernelHas]
  simpa [Pgdir.has] using h.tables i

/-- What is asked for after the kernel part. -/
theorem NewSpace.needs (h : NewSpace s t d) (needs : List Need) :
    (kernelNeeds ++ needs)[s.granted]? = needs[t.granted]? := by
  have hlen : kernelNeeds.length = 65 := rfl
  have hgranted : s.granted = kernelNeeds.length + t.granted := by
    rw [h.granted, hlen, kernelTables]
    omega
  rw [hgranted, List.getElem?_append_right (Nat.le_add_right _ _), Nat.add_sub_cancel_left]

theorem Leaked.needs (h : Leaked s t) (needs : List Need) :
    (kernelNeeds ++ needs)[s.granted]? = some .table := by
  obtain ⟨hpos, hlt, -⟩ := h
  have hlen : s.granted < kernelNeeds.length := by
    rw [kernelNeeds, List.length_cons, List.length_replicate]
    omega
  rw [List.getElem?_append_left hlen]
  obtain ⟨n, hn⟩ : ∃ n, s.granted = n + 1 := ⟨s.granted - 1, by omega⟩
  rw [hn] at hlt ⊢
  rw [kernelNeeds, List.getElem?_cons_succ, List.getElem?_replicate, if_pos (by omega)]

/-- What the loop of `copyuvm` has done in the end. -/
structure Copies (q k : ℕ) (s : Vm) (d : Pgdir) (t : Vm) (d' : Pgdir) (ok : Bool) : Prop
    extends Evolves s d t d' where
  kernel : KernelSame d d'
  balance : Balance (pageNeeds d.has q k)[s.granted]? (t.free + d'.held) (s.free + d.held)
  served : ok = true ↔ (pageNeeds d.has q k)[s.granted]? = none
  pages : ok = true → ∀ m < numPages, q ≤ m → m < q + k → (d'.pte (m * PGSIZE)).p = true
  others : ∀ m < numPages, m < q ∨ q + k ≤ m → d'.pte (m * PGSIZE) = d.pte (m * PGSIZE)

section Copy

variable {u : Vm} {d'' : Pgdir} {perm : Perm} {ok : Bool}

theorem Copies.done : Copies q 0 s d s d true where
  toEvolves := Evolves.of_inside Inside.refl
  kernel := fun _ _ _ => rfl
  balance := Balance.of_eq (by simp [pageNeeds]) rfl
  served := by simp [pageNeeds]
  pages := fun _ m _ hm hmq => by omega
  others := fun _ _ _ => rfl

theorem Copies.refused (hgranted : s.granted = 0) : Copies q (k + 1) s d s.refuse d false := by
  have hneed : (pageNeeds d.has q (k + 1))[s.granted]? = some .page := by
    rw [hgranted, pageNeeds]
    rfl
  refine ⟨Evolves.of_inside Inside.refuse, fun _ _ _ => rfl, Balance.of_eq ?_ rfl, ?_, by simp,
    fun _ _ _ => rfl⟩
  · rw [hneed]
    simp
  · rw [hneed]
    simp

theorem Copies.drop (h : Drops s d q t) : Copies q (k + 1) s d t d false := by
  have hneed := h.needs (k := k)
  refine ⟨Evolves.of_inside h.toInside, fun _ _ _ => rfl, Balance.of_lt hneed ?_, ?_, by simp,
    fun _ _ _ => rfl⟩
  · exact add_lt_add_of_lt_of_le h.lost le_rfl
  · rw [hneed]
    simp

theorem Copies.add (h' : Copies (q + 1) k t d' u d'' ok) (hq : q < userPages)
    (h : Adds s d q perm t d') : Copies q (k + 1) s d u d'' ok where
  toEvolves := h.toEvolves.trans h'.toEvolves
  kernel := (h.kernel hq).trans h'.kernel
  balance := by
    rw [h.needs]
    exact h'.balance.trans_eq h.acct
  served := by
    rw [h.needs]
    exact h'.served
  pages := fun hok m hm hqm hmk => by
    obtain ⟨f, -, hpte⟩ := h.pte
    by_cases hmq : m = q
    · rw [h'.others m hm (.inl (by omega)), hpte m hm, if_pos hmq]
    · exact h'.pages hok m hm (by omega) (by omega)
  others := fun m hm hout => by
    obtain ⟨f, -, hpte⟩ := h.pte
    rw [h'.others m hm (by omega), hpte m hm, if_neg (by omega)]

/-- The rounds of `copyuvm`. It cannot go beyond the first page of the kernel. -/
theorem wp_copyuvmLoop {pgdir : Pgdir} {Q : Pgdir × Bool → Vm → Prop} (hq : q ≤ userPages)
    (hkernel : (d.pte (userPages * PGSIZE)).p = true)
    (hmissing : E (.panic .copyuvmPte) ∧ E (.panic .copyuvmPage) ∨
      ∀ m, q ≤ m → m < q + k → (pgdir.pte (m * PGSIZE)).p = true)
    (hremap : E (.panic .remap) ∨ q + k ≤ userPages ∧
      ∀ m, q ≤ m → m < q + k → ¬ (d.pte (m * PGSIZE)).p = true)
    (hok : ∀ t d' ok, Copies q k s d t d' ok → Q (d', ok) t) :
    wp (copyuvmLoop pgdir k (q * PGSIZE) d) Q E s := by
  have hun := userPages_lt
  induction k generalizing q s d Q with
  | zero => exact wp_pure.mpr (hok s d true Copies.done)
  | succ k ih =>
      rw [copyuvmLoop, wp_bind]
      cases hhas : pgdir.hasTable (q * PGSIZE) with
      | false =>
          rw [wp_walkpgdir_null hhas]
          dsimp only
          rw [wp_panic]
          refine hmissing.elim And.left fun h => ?_
          have hp := h q le_rfl (by omega)
          rw [Pgdir.pte_of_not_hasTable hhas] at hp
          cases hp
      | true =>
          rw [wp_walkpgdir_found hhas]
          dsimp only
          rw [wp_ite, wp_panic]
          refine ⟨fun hp => hmissing.elim And.right fun h => ?_, fun hp => ?_⟩
          · rw [h q le_rfl (by omega)] at hp
            cases hp
          · rw [wp_bind]
            refine wp_kalloc (fun hgranted => wp_pure.mpr (hok _ _ _ (Copies.refused hgranted)))
              fun f free hfree hgranted => ?_
            dsimp only
            rw [wp_bind, wp_get, wp_bind, wp_store, wp_bind]
            by_cases hqu : q < userPages
            · have hnext : uint ((q * PGSIZE : ℕ) + PGSIZE) = (q + 1) * PGSIZE :=
                uint_page_succ (by omega)
              rw [hnext]
              refine wp_mapNew hqu hfree hgranted
                (fun hp => hremap.resolve_right fun h => h.2 q le_rfl (by omega) hp)
                (fun t h => wp_pure.mpr (hok t d false (Copies.drop h))) fun t d' h => ?_
              obtain ⟨f, -, hpte⟩ := h.pte
              dsimp only
              rw [if_pos rfl]
              refine ih hqu ?_ (hmissing.imp_right fun h m hm hmk => h m (by omega) (by omega))
                (hremap.imp_right fun hr => ⟨by omega, fun m hm hmk => ?_⟩)
                fun u d'' ok h' => hok u d'' ok (h'.add hqu h)
              · rw [hpte _ hun, if_neg (by omega)]
                exact hkernel
              · rw [hpte m (by omega), if_neg (by omega)]
                exact hr.2 m (by omega) (by omega)
            · obtain rfl : q = userPages := by omega
              refine wp_mappages_page hun
                (fun _ => hremap.resolve_right fun h => by omega) (fun hhas' _ => ?_)
                fun hfresh => absurd hkernel hfresh
              rw [Pgdir.pte_of_not_hasTable hhas'] at hkernel
              cases hkernel

theorem NewSpace.kernelOnly (h : NewSpace s t d) : KernelOnly d := fun m hm _ => h.user m hm

theorem NewSpace.kernel_present (h : NewSpace s t d) : (d.pte (userPages * PGSIZE)).p = true := by
  refine (h.present _ userPages_lt).mpr (.inl ⟨le_rfl, ?_⟩)
  rw [userPages_eq, kernelEnd]
  decide

theorem NewSpace.fresh (h : NewSpace s t d) {m : ℕ} (hm : m < userPages) :
    ¬ (d.pte (m * PGSIZE)).p = true := by
  rw [h.present m (hm.trans userPages_lt), devPage]
  rw [userPages_eq] at hm ⊢
  omega

def heldBy : Option Pgdir → Multiset Frame
  | none => 0
  | some d => d.held

structure Copied (sz : ℕ) (s t : Vm) (r : Option Pgdir) : Prop where
  inside : Inside s t
  balance : Balance (copyNeeds sz)[s.granted]? (t.free + heldBy r) s.free
  served : r.isSome = true ↔ (copyNeeds sz)[s.granted]? = none
  kernelOnly : ∀ d ∈ r, KernelOnly d
  space : ∀ d ∈ r, sz ≤ KERNBASE → Space d sz

theorem wp_copyuvm {pgdir : Pgdir} {sz : ℕ} {Q : Option Pgdir → Vm → Prop}
    (hmissing : E (.panic .copyuvmPte) ∧ E (.panic .copyuvmPage) ∨
      ∀ m, m * PGSIZE < sz → (pgdir.pte (m * PGSIZE)).p = true)
    (hremap : E (.panic .remap) ∨ sz ≤ KERNBASE)
    (hsound : E (.panic .kfree) ∨ ∀ f ∈ s.free, ¬ BadFrame s.link f)
    (hok : ∀ t r, Copied sz s t r → Q r t) : wp (copyuvm pgdir sz) Q E s := by
  rw [copyuvm, wp_bind]
  refine wp_setupkvm (fun hgranted => wp_pure.mpr (hok _ _ ?_))
    (fun t hleak hin => wp_pure.mpr (hok _ _ ?_)) fun t d hnew => ?_
  · have hneed : (copyNeeds sz)[s.granted]? = some .page := by
      rw [hgranted]
      rfl
    exact ⟨Inside.refuse, Balance.of_eq (by rw [hneed]; simp) (add_zero _),
      by rw [hneed]; simp, by simp, by simp⟩
  · have hneed : (copyNeeds sz)[s.granted]? = some .table := hleak.needs _
    exact ⟨hin, Balance.of_lt hneed (by rw [heldBy, add_zero]; exact hleak.2.2),
      by rw [hneed]; simp, by simp, by simp⟩
  · have hneed : (copyNeeds sz)[s.granted]? = (pageNeeds d.has 0 (pageUp sz))[t.granted]? := by
      rw [hnew.has]
      exact hnew.needs _
    have hrounds : copyuvmLoop pgdir ((sz + PGSIZE - 1) / PGSIZE) 0 d =
        copyuvmLoop pgdir (pageUp sz) (0 * PGSIZE) d := by
      rw [zero_mul]
      rfl
    have hmissing' : E (.panic .copyuvmPte) ∧ E (.panic .copyuvmPage) ∨
        ∀ m, 0 ≤ m → m < 0 + pageUp sz → (pgdir.pte (m * PGSIZE)).p = true :=
      hmissing.imp_right fun h m _ hm => h m (by
        rw [pageUp, PGSIZE_eq] at hm
        rw [PGSIZE_eq]
        omega)
    have hremap' : E (.panic .remap) ∨ 0 + pageUp sz ≤ userPages ∧
        ∀ m, 0 ≤ m → m < 0 + pageUp sz → ¬ (d.pte (m * PGSIZE)).p = true :=
      hremap.imp_right fun h => by
        have hsz : pageUp sz ≤ userPages := by
          rw [KERNBASE] at h
          rw [pageUp, userPages_eq, PGSIZE_eq]
          omega
        exact ⟨by omega, fun m _ hm => hnew.fresh (by omega)⟩
    dsimp only
    rw [wp_bind, hrounds]
    refine wp_copyuvmLoop (Nat.zero_le _) hnew.kernel_present hmissing' hremap' fun u d' ok h => ?_
    have hbal : Balance (copyNeeds sz)[s.granted]? (u.free + d'.held) s.free := by
      rw [hneed]
      exact h.balance.trans_eq hnew.acct
    cases ok with
    | true =>
        have hkernel := h.kernel.kernelOnly hnew.kernelOnly
        refine wp_pure.mpr (hok u (some d') ⟨hnew.inside.trans h.toInside, hbal, ?_, ?_, ?_⟩)
        · rw [hneed, ← h.served]
          simp
        · rintro _ ⟨⟩
          exact hkernel
        · rintro _ ⟨⟩ hsz
          have hun := userPages_lt
          refine ⟨hsz, fun m hm => ?_, fun m hm hge => ?_, hkernel⟩
          · have hlast := lt_pageUp_iff.mpr hm
            have hmu : m < userPages := by
              rw [KERNBASE] at hsz
              rw [PGSIZE_eq] at hm
              rw [userPages_eq]
              omega
            exact h.pages rfl m (hmu.trans hun) (Nat.zero_le m) (by omega)
          · have hlast := pageUp_le_iff.mpr hge
            rw [h.others m (hm.trans hun) (.inr (by omega))]
            exact hnew.fresh hm
    | false =>
        dsimp only
        rw [if_neg (by simp), wp_bind]
        refine wp_freevm (hsound.imp_right fun hs f hf => ?_) fun v hin hfree =>
          wp_pure.mpr (hok v none ⟨hnew.inside.trans (h.toInside.trans hin), ?_, ?_, by simp, by simp⟩)
        · rw [h.link, hnew.inside.link]
          exact hs f (Multiset.mem_of_le hbal.le hf)
        · rw [heldBy, add_zero, hfree]
          exact hbal
        · rw [hneed, ← h.served]
          simp

end Copy

end Xv6
