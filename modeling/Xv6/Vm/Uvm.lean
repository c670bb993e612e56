import Xv6.Vm.Kvm

/-!
# Freeing, growing and copying an address space

`deallocuvm`, `freevm`, `allocuvm` and `copyuvm`, by what they do to `s.free + d.held`.
`deallocuvm` and `freevm` lose nothing. `allocuvm` and `copyuvm` lose the page that they
could not map, when `mappages` fails for want of a page table.
-/

namespace Xv6

open Foundation VmM

variable {s t : Vm} {d d' : Pgdir} {n : ℕ} {x : Pte} {E : VmStop → Prop}

theorem PGSIZE_eq : PGSIZE = 4096 := rfl

theorem NPTENTRIES_eq : NPTENTRIES = 1024 := rfl

theorem Pte.frames_of_p (h : x.p = true) : x.frames = {x.frame} := if_pos h

theorem Pte.frames_of_not_p (h : ¬ x.p = true) : x.frames = 0 := if_neg h

/-- The pages after a user page has been mapped or unmapped. -/
theorem Maps.held_user (h : Maps s d n x t d') (hn : n < userPages) :
    t.free + d'.held + (d.pte (n * PGSIZE)).frames = s.free + d.held + x.frames := by
  have hpages := Pgdir.pages_update hn fun m hm => h.pte m (hm.trans userPages_lt)
  calc t.free + d'.held + (d.pte (n * PGSIZE)).frames
      = {d'.frame} + (t.free + d'.tables) + (d'.pages + (d.pte (n * PGSIZE)).frames) := by
        rw [Pgdir.held]
        abel
    _ = {d.frame} + (s.free + d.tables) + (d.pages + x.frames) := by
        rw [h.frame, h.acct, hpages]
    _ = s.free + d.held + x.frames := by
        rw [Pgdir.held]
        abel

theorem Maps.hasTable (h : Maps s d n x t d') {m : ℕ} (hm : d.hasTable (m * PGSIZE) = true) :
    d'.hasTable (m * PGSIZE) = true :=
  h.keeps _ hm

/-- Two pages with the same page table. -/
theorem hasTable_congr {m : ℕ} (h : n / NPTENTRIES = m / NPTENTRIES) :
    d.hasTable (n * PGSIZE) = d.hasTable (m * PGSIZE) := by
  rw [Pgdir.hasTable, Pgdir.hasTable, PDX_page, PDX_page, h]

/-! ### `deallocuvm` -/

/-- A page that `kfree` refuses. -/
def BadFrame (link : Linker) (f : Frame) : Prop :=
  f = 0 ∨ f * PGSIZE < link.kend ∨ f * PGSIZE ≥ PHYSTOP

/-- User pages from page `q` to `oldsz` are freed. -/
structure Frees (s : Vm) (d : Pgdir) (q oldsz : ℕ) (t : Vm) (d' : Pgdir) : Prop
    extends Evolves s d t d' where
  acct : t.free + d'.held = s.free + d.held
  has : ∀ i, (d'.pde i).isSome = (d.pde i).isSome
  tables : d'.tables = d.tables
  same : ∀ m < numPages, m < q ∨ oldsz ≤ m * PGSIZE → d'.pte (m * PGSIZE) = d.pte (m * PGSIZE)
  each : ∀ m < numPages, d'.pte (m * PGSIZE) = d.pte (m * PGSIZE) ∨
    (d'.pte (m * PGSIZE)).p = false
  gone : q % NPTENTRIES = 0 ∨ d.hasTable (q * PGSIZE) = true →
    ∀ m < numPages, q ≤ m → m * PGSIZE < oldsz → (d'.pte (m * PGSIZE)).p = false

theorem Frees.refl {q oldsz : ℕ} (h : ∀ m < numPages, q ≤ m → oldsz ≤ m * PGSIZE) :
    Frees s d q oldsz s d :=
  ⟨Evolves.of_inside Inside.refl, rfl, fun _ => rfl, rfl, fun _ _ _ => rfl, fun _ _ => .inl rfl,
    fun _ m hm hq hlt => absurd (h m hm hq) (Nat.not_le.mpr hlt)⟩

/-- A round that finds nothing to free. -/
theorem Frees.skip {q q' oldsz : ℕ} (h : Frees s d q' oldsz t d') (hq : q ≤ q')
    (hnone : q % NPTENTRIES = 0 ∨ d.hasTable (q * PGSIZE) = true →
      (q' % NPTENTRIES = 0 ∨ d.hasTable (q' * PGSIZE) = true) ∧
        ∀ m < numPages, q ≤ m → m < q' → (d.pte (m * PGSIZE)).p = false) :
    Frees s d q oldsz t d' where
  toEvolves := h.toEvolves
  acct := h.acct
  has := h.has
  tables := h.tables
  same := fun m hm hout => h.same m hm (hout.imp (fun hlt => hlt.trans_le hq) id)
  each := h.each
  gone := fun hstart m hm hqm hlt => by
    obtain ⟨hstart', hempty⟩ := hnone hstart
    by_cases hm' : m < q'
    · rcases h.each m hm with heq | hgone
      · rw [heq]
        exact hempty m hm hqm hm'
      · exact hgone
    · exact h.gone hstart' m hm (by omega) hlt

/-- A round that frees a page. -/
theorem Frees.free {q oldsz : ℕ} {f : Frame} (hq : q < userPages)
    (hlt : q * PGSIZE < oldsz) (hhas : d.hasTable (q * PGSIZE) = true)
    (hp : (d.pte (q * PGSIZE)).p = true) (hf : (d.pte (q * PGSIZE)).frame = f)
    (h : Frees (s.putFree f) (d.setPte (q * PGSIZE) .zero) (q + 1) oldsz t d') :
    Frees s d q oldsz t d' := by
  have hqn := hq.trans userPages_lt
  have hm : Maps (s.putFree f) d q .zero (s.putFree f) (d.setPte (q * PGSIZE) .zero) :=
    maps_setPte hqn hhas
  have hheld := hm.held_user hq
  rw [Pte.frames_of_p hp, Pte.frames_of_not_p (by decide), hf, add_zero] at hheld
  refine ⟨(Evolves.of_inside Inside.putFree).trans (hm.toEvolves.trans h.toEvolves), ?_,
    fun i => ?_, h.tables.trans Pgdir.tables_setPte, fun m hmn hout => ?_, fun m hmn => ?_,
    fun _ m hmn hqm hmlt => ?_⟩
  · rw [h.acct]
    have hcancel : ({f} : Multiset Frame) +
        ((s.putFree f).free + (d.setPte (q * PGSIZE) .zero).held) = {f} + (s.free + d.held) := by
      rw [add_comm, hheld, Vm.free_putFree]
      abel
    exact add_left_cancel hcancel
  · rw [h.has, Pgdir.isSome_setPte]
  · rw [h.same m hmn (hout.imp (fun hlt => hlt.trans (Nat.lt_succ_self q)) id), hm.pte m hmn,
      if_neg]
    rintro rfl
    omega
  · rcases h.each m hmn with heq | hgone
    · rw [heq, hm.pte m hmn]
      split
      · exact .inr rfl
      · exact .inl rfl
    · exact .inr hgone
  · by_cases hmq : m = q
    · rcases h.each m hmn with heq | hgone
      · rw [heq, hm.pte m hmn, if_pos hmq]
        rfl
      · exact hgone
    · refine h.gone ?_ m hmn (by omega) hmlt
      by_cases hstart : (q + 1) % NPTENTRIES = 0
      · exact .inl hstart
      · refine .inr (hm.hasTable ?_)
        rw [NPTENTRIES_eq] at hstart
        rw [hasTable_congr (m := q) (by rw [NPTENTRIES_eq]; omega)]
        exact hhas

/-- The rounds of `deallocuvm`: `R q` is what is done from page `q` on. -/
theorem wp_deallocuvmLoop_of {oldsz : ℕ} (hold : oldsz ≤ KERNBASE)
    (R : ℕ → Vm → Pgdir → Vm → Pgdir → Prop)
    (hdone : ∀ q s d, oldsz ≤ q * PGSIZE → R q s d s d)
    (hnull : ∀ q s d t d', q < userPages → d.hasTable (q * PGSIZE) = false →
      R (q + 1024) s d t d' → R q s d t d')
    (hskip : ∀ q s d t d', q < userPages → d.hasTable (q * PGSIZE) = true →
      ¬ (d.pte (q * PGSIZE)).p = true → R (q + 1) s d t d' → R q s d t d')
    (hfree : ∀ q s d t d', q < userPages → q * PGSIZE < oldsz → d.hasTable (q * PGSIZE) = true →
      (d.pte (q * PGSIZE)).p = true → ¬ BadFrame s.link (d.pte (q * PGSIZE)).frame →
      R (q + 1) (s.putFree (d.pte (q * PGSIZE)).frame) (d.setPte (q * PGSIZE) .zero) t d' →
      R q s d t d')
    {rounds q : ℕ} {Q : Pgdir → Vm → Prop} (hrounds : oldsz ≤ (q + rounds) * PGSIZE)
    (hbad : ∀ m < numPages, q ≤ m → m * PGSIZE < oldsz → (d.pte (m * PGSIZE)).p = true →
      BadFrame s.link (d.pte (m * PGSIZE)).frame → E (.panic .kfree))
    (hok : ∀ t d', R q s d t d' → Q d' t) :
    wp (deallocuvmLoop oldsz rounds (q * PGSIZE) d) Q E s := by
  induction rounds generalizing q s d Q with
  | zero =>
      rw [deallocuvmLoop, wp_pure]
      exact hok s d (hdone q s d hrounds)
  | succ rounds ih =>
      rw [deallocuvmLoop, wp_ite, wp_pure]
      refine ⟨fun hlt => ?_, fun hge => hok s d (hdone q s d (Nat.not_lt.mp hge))⟩
      have hq : q < userPages := by
        rw [userPages_eq]
        rw [KERNBASE] at hold
        rw [PGSIZE_eq] at hlt
        omega
      have hqn := hq.trans userPages_lt
      have hnext : uint ((q * PGSIZE : ℕ) + PGSIZE) = (q + 1) * PGSIZE := by
        rw [userPages_eq] at hq
        exact uint_page_succ (by rw [numPages_eq]; omega)
      have hrounds' : oldsz ≤ (q + 1 + rounds) * PGSIZE := by
        rwa [Nat.add_assoc, Nat.add_comm 1 rounds]
      rw [wp_bind]
      cases hhas : d.hasTable (q * PGSIZE) with
      | false =>
          have hjump : uint ((q * PGSIZE : ℕ) + (NPTENTRIES - 1) * PGSIZE + PGSIZE) =
              (q + 1024) * PGSIZE := by
            rw [userPages_eq] at hq
            rw [uint, NPTENTRIES_eq, PGSIZE_eq]
            omega
          rw [wp_walkpgdir_null hhas]
          dsimp only
          rw [hjump]
          exact ih (hrounds.trans (Nat.mul_le_mul_right _ (by omega)))
            (fun m hm hqm => hbad m hm (by omega)) fun t d' h =>
              hok t d' (hnull q s d t d' hq hhas h)
      | true =>
          rw [wp_walkpgdir_found hhas]
          dsimp only
          rw [wp_ite, hnext]
          refine ⟨fun hp => ?_, fun hp => ?_⟩
          · rw [wp_ite, wp_panic]
            refine ⟨fun hzero => hbad q hqn le_rfl hlt hp (.inl hzero), fun hzero => ?_⟩
            rw [wp_bind]
            refine wp_kfree_iff.mpr ⟨fun hf => hbad q hqn le_rfl hlt hp (.inr hf), fun hf => ?_⟩
            refine ih hrounds' (fun m hm hqm hmlt => ?_) fun t d' h =>
              hok t d' (hfree q s d t d' hq hlt hhas hp (not_or.mpr ⟨hzero, hf⟩) h)
            rw [Pgdir.pte_setPte_page hhas hqn hm, if_neg (by omega)]
            exact hbad m hm (by omega) hmlt
          · exact ih hrounds' (fun m hm hqm => hbad m hm (by omega))
              fun t d' h => hok t d' (hskip q s d t d' hq hhas hp h)

theorem wp_deallocuvmLoop {oldsz : ℕ} (hold : oldsz ≤ KERNBASE) {rounds q : ℕ}
    {Q : Pgdir → Vm → Prop} (hrounds : oldsz ≤ (q + rounds) * PGSIZE)
    (hbad : ∀ m < numPages, q ≤ m → m * PGSIZE < oldsz → (d.pte (m * PGSIZE)).p = true →
      BadFrame s.link (d.pte (m * PGSIZE)).frame → E (.panic .kfree))
    (hok : ∀ t d', Frees s d q oldsz t d' → Q d' t) :
    wp (deallocuvmLoop oldsz rounds (q * PGSIZE) d) Q E s := by
  refine wp_deallocuvmLoop_of hold (fun q s d t d' => Frees s d q oldsz t d')
    (fun q s d hend => Frees.refl fun m _ hqm => hend.trans (Nat.mul_le_mul_right _ hqm))
    (fun q s d t d' _ hhas h => h.skip (by omega) fun hstart => ?_)
    (fun q s d t d' _ hhas hp h => h.skip (Nat.le_succ q) fun _ => ⟨?_, fun m _ hqm hmq => ?_⟩)
    (fun q s d t d' hq hlt hhas hp _ h => Frees.free hq hlt hhas hp rfl h) hrounds hbad hok
  · rw [NPTENTRIES_eq] at hstart ⊢
    have hq0 : q % 1024 = 0 := by simpa [hhas] using hstart
    refine ⟨.inl (by omega), fun m _ hqm hmq => ?_⟩
    rw [Pgdir.pte_of_not_hasTable]
    · rfl
    · rw [hasTable_congr (m := q) (by rw [NPTENTRIES_eq]; omega)]
      exact hhas
  · by_cases hstart : (q + 1) % NPTENTRIES = 0
    · exact .inl hstart
    · rw [NPTENTRIES_eq] at hstart
      rw [hasTable_congr (m := q) (by rw [NPTENTRIES_eq]; omega)]
      exact .inr hhas
  · obtain rfl : m = q := by omega
    simpa using hp

/-- No page that `kfree` refuses is free or kept. -/
def Sound (s : Vm) (d : Pgdir) : Prop := ∀ f ∈ s.free + d.held, ¬ BadFrame s.link f

theorem Sound.mono (h : Sound s d) (hlink : t.link = s.link)
    (hle : t.free + d'.held ≤ s.free + d.held) : Sound t d' := fun f hf => by
  rw [hlink]
  exact h f (Multiset.mem_of_le hle hf)

def pageUp (a : ℕ) : ℕ := (a + (PGSIZE - 1)) / PGSIZE

theorem pageUp_le_iff {a m : ℕ} : pageUp a ≤ m ↔ a ≤ m * PGSIZE := by
  rw [pageUp, PGSIZE_eq]
  omega

theorem lt_pageUp_iff {a m : ℕ} : m < pageUp a ↔ m * PGSIZE < a := by
  rw [← not_le, pageUp_le_iff, not_le]

theorem PGROUNDUP_eq {a : ℕ} (h : a ≤ KERNBASE) : PGROUNDUP a = pageUp a * PGSIZE := by
  rw [KERNBASE] at h
  rw [PGROUNDUP, pageUp, uint, PGSIZE_eq]
  omega

theorem wp_deallocuvm {oldsz newsz : ℕ} (hold : oldsz ≤ KERNBASE) (hlt : newsz < oldsz)
    {Q : Pgdir × ℕ → Vm → Prop} (hsound : E (.panic .kfree) ∨ Sound s d)
    (hok : ∀ t d', Frees s d (pageUp newsz) oldsz t d' → Q (d', newsz) t) :
    wp (deallocuvm d oldsz newsz) Q E s := by
  rw [deallocuvm, if_neg (Nat.not_le.mpr hlt), wp_bind, PGROUNDUP_eq (hlt.le.trans hold)]
  refine wp_deallocuvmLoop hold ?_ (fun m hm hqm hmlt hp hbad => ?_) fun t d' h =>
    wp_pure.mpr (hok t d' h)
  · rw [PGSIZE_eq]
    omega
  · refine hsound.resolve_right fun hs => hs _ (Multiset.mem_add.mpr (.inr ?_)) hbad
    refine Pgdir.mem_held_of_page ?_ hp
    rw [KERNBASE] at hold
    rw [PGSIZE_eq] at hmlt
    rw [userPages_eq]
    omega

/-! ### `freevm` -/

theorem wp_freeTables {is : List (Fin NPDENTRIES)} {Q : Unit → Vm → Prop}
    (hbad : ∀ i tb, d.pde i = some tb → BadFrame s.link tb.frame → E (.panic .kfree))
    (hok : ∀ t, Inside s t → t.free = s.free + (is.map d.tableAt).sum → Q () t) :
    wp (freeTables d is) Q E s := by
  induction is generalizing s with
  | nil =>
      rw [freeTables, wp_pure]
      exact hok s Inside.refl (by simp)
  | cons i is ih =>
      rw [freeTables]
      cases hi : d.pde i with
      | none =>
          have hnone : d.tableAt i = 0 := by simp [Pgdir.tableAt, hi]
          refine ih hbad fun t hin hfree => hok t hin ?_
          rw [hfree, List.map_cons, List.sum_cons, hnone, zero_add]
      | some tb =>
          have hsome : d.tableAt i = {tb.frame} := by simp [Pgdir.tableAt, hi]
          dsimp only
          rw [wp_bind]
          refine wp_kfree (fun hf => hbad i tb hi (.inr hf)) ?_
          refine ih hbad fun t hin hfree => hok t (Inside.putFree.trans hin) ?_
          rw [hfree, List.map_cons, List.sum_cons, hsome, Vm.free_putFree]
          abel

/-- `freevm` gives everything back. -/
theorem wp_freevm {Q : Unit → Vm → Prop} (hsound : E (.panic .kfree) ∨ Sound s d)
    (hok : ∀ t, Inside s t → t.free = s.free + d.held → Q () t) :
    wp (freevm d) Q E s := by
  rw [freevm, wp_bind]
  refine wp_deallocuvm le_rfl (by decide) hsound fun t d' h => ?_
  have hpages : d'.pages = 0 := Pgdir.pages_eq_zero fun m hm => by
    rw [h.gone (.inl rfl) m (hm.trans userPages_lt) (Nat.zero_le m)]
    · simp
    · rw [userPages_eq] at hm
      rw [KERNBASE, PGSIZE_eq]
      omega
  have hsound' : E (.panic .kfree) ∨ Sound t d' := hsound.imp_right fun hs =>
    hs.mono h.link h.acct.le
  dsimp only
  rw [wp_bind]
  refine wp_freeTables (fun i tb hi hbad => hsound'.resolve_right fun hs =>
    hs _ (Multiset.mem_add.mpr (.inr (Pgdir.mem_held_of_table hi))) hbad) fun u hin hfree => ?_
  refine wp_kfree (fun hbad => hsound'.resolve_right fun hs => hs d'.frame ?_ ?_) ?_
  · exact Multiset.mem_add.mpr (.inr Pgdir.frame_mem_held)
  · rw [← hin.link]
    exact .inr hbad
  · refine hok _ (h.toInside.trans (hin.trans Inside.putFree)) ?_
    rw [Vm.free_putFree, hfree, ← Pgdir.tables_eq, ← h.acct, Pgdir.held, hpages]
    abel

end Xv6
