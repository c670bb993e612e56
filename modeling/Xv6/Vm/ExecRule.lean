import Xv6.Vm.Image

/-!
# What `exec` does

The new image and the stack in it. Where the file, the arguments and the pages that are
granted lead to no panic, there is none; and where `exec` comes to its end, they did not.
-/

namespace Xv6

open Foundation VmM

variable {s t u : Vm} {d d' d'' : Pgdir} {E : VmStop → Prop} {file : Reader}

/-! ### The guard page -/

/-- `clearpteu` keeps the pages. -/
theorem pte_clear {va : ℕ} (hhas : d.hasTable va = true) (vb : ℕ) :
    (d.setPte va { d.pte va with u := false }).pte vb =
      { d.pte vb with u := if PDX vb = PDX va ∧ PTX vb = PTX va then false else (d.pte vb).u } := by
  rw [Pgdir.pte_setPte hhas]
  split
  · rename_i hsame
    have hpte : d.pte vb = d.pte va := by
      rw [Pgdir.pte, Pgdir.pte, hsame.1, hsame.2]
    rw [hpte]
  · rfl

/-- The guard page of the stack. -/
structure Guards (va : ℕ) (d d' : Pgdir) : Prop where
  pte : ∀ vb, d'.pte vb =
    { d.pte vb with u := if PDX vb = PDX va ∧ PTX vb = PTX va then false else (d.pte vb).u }
  has : d'.has = d.has
  held : d'.held = d.held

theorem wp_clearpteu {va : ℕ} {Q : Pgdir → Vm → Prop}
    (hnone : E (.panic .clearpteu) ∨ d.hasTable va = true)
    (hok : ∀ d', Guards va d d' → Q d' s) : wp (clearpteu d va) Q E s := by
  rw [clearpteu, wp_bind]
  cases hhas : d.hasTable va with
  | false =>
      rw [wp_walkpgdir_null hhas]
      dsimp only
      rw [wp_panic]
      exact hnone.resolve_right (by rw [hhas]; simp)
  | true =>
      rw [wp_walkpgdir_found hhas]
      refine wp_pure.mpr (hok _ ⟨pte_clear hhas, ?_, ?_⟩)
      · funext i
        exact Pgdir.isSome_setPte
      · have hpages : (d.setPte va { d.pte va with u := false }).pages = d.pages :=
          Pgdir.pages_congr fun n _ => by
            rw [pte_clear hhas]
            rfl
        rw [Pgdir.held, Pgdir.held, Pgdir.frame_setPte, Pgdir.tables_setPte, hpages]

theorem Guards.kernelOnly {va : ℕ} (h : Guards va d d') (hd : KernelOnly d) : KernelOnly d' :=
  fun m hm hk => by
    rw [h.pte]
    simp [hd m hm hk]

theorem Guards.space {va sz : ℕ} (h : Guards va d d') (hd : Space d sz) : Space d' sz where
  bound := hd.bound
  present := fun m hm => by
    rw [h.pte]
    exact hd.present m hm
  above := fun _ hm hge => by
    rw [h.pte]
    exact hd.above _ hm hge
  kernelOnly := h.kernelOnly hd.kernelOnly

theorem Guards.ownPages {va : ℕ} (h : Guards va d d') (hd : Owned d s) (hkernel : KernelOnly d) :
    OwnPages d' s := fun m hm hacc => by
  by_cases hmu : m < userPages
  · have hp := hacc.1
    rw [h.pte] at hp ⊢
    exact hd m hmu hp
  · have hu := hacc.2
    rw [h.kernelOnly hkernel m hm (Nat.not_lt.mp hmu)] at hu
    cases hu

/-! ### The stack -/

theorem PGROUNDUP_le {sz : ℕ} (h : sz ≤ KERNBASE) : PGROUNDUP sz ≤ KERNBASE := by
  rw [PGROUNDUP_eq h]
  rw [KERNBASE] at h ⊢
  rw [pageUp, PGSIZE_eq]
  omega

/-- The size of a process can be rounded up. -/
theorem Space.roundUp {sz : ℕ} (h : Space d sz) : Space d (PGROUNDUP sz) := by
  refine ⟨PGROUNDUP_le h.bound, fun m hm => h.present m ?_, fun _ hm hge => h.above _ hm ?_,
    h.kernelOnly⟩
  · rw [PGROUNDUP_eq h.bound] at hm
    exact lt_pageUp_iff.mp (Nat.lt_of_mul_lt_mul_right hm)
  · rw [PGROUNDUP_eq h.bound] at hge
    exact pageUp_le_iff.mp (Nat.le_of_mul_le_mul_right hge (by decide))

theorem UserSpace.roundUp {sz : ℕ} (h : UserSpace d sz) : UserSpace d (PGROUNDUP sz) where
  toSpace := h.toSpace.roundUp
  access := fun m hm => h.access m <| by
    rw [PGROUNDUP_eq h.bound] at hm
    exact lt_pageUp_iff.mp (Nat.lt_of_mul_lt_mul_right hm)

/-- The guard page is below the end of the stack. -/
theorem guard_page {sz r : ℕ} (hsz : sz ≤ KERNBASE) (hr : r = allocSize (PGROUNDUP sz) (stackEnd sz))
    (hne : r ≠ 0) : uint (r - 2 * PGSIZE) = pageUp sz * PGSIZE ∧ pageUp sz * PGSIZE < r ∧
      pageUp sz * PGSIZE = r - 2 * PGSIZE := by
  have hup := PGROUNDUP_le hsz
  have heq := PGROUNDUP_eq hsz
  rw [KERNBASE] at hup
  have hend : stackEnd sz = PGROUNDUP sz + 2 * PGSIZE := by
    rw [stackEnd, uint, PGSIZE_eq]
    omega
  have hsize : r = PGROUNDUP sz + 2 * PGSIZE := by
    rw [hend, allocSize] at hr
    split at hr
    · exact absurd hr hne
    · split at hr
      · omega
      · exact hr
  rw [hsize, ← heq, uint, PGSIZE_eq]
  omega

/-- With the guard page, the user can access the memory but for that page. -/
theorem Guards.guarded {m size : ℕ} (h : Guards (m * PGSIZE) d d') (hd : UserSpace d size)
    (hm : m * PGSIZE < size) (hguard : m * PGSIZE = size - 2 * PGSIZE) : Guarded d' size where
  tables := fun n hn => by
    have hhas : d'.hasTable (n * PGSIZE) = d.hasTable (n * PGSIZE) := congrFun h.has _
    rw [hhas]
    exact hd.hasTable hn
  accessible := fun n hn => by
    have hmn := (hd.page_lt hm).trans userPages_lt
    have hsame : PDX (n * PGSIZE) = PDX (m * PGSIZE) ∧ PTX (n * PGSIZE) = PTX (m * PGSIZE) ↔
        n * PGSIZE = size - 2 * PGSIZE := by
      rw [← hguard]
      constructor
      · exact fun heq => by rw [page_inj hn hmn heq.1 heq.2]
      · exact fun heq => by rw [heq]; exact ⟨rfl, rfl⟩
    rw [Accessible, h.pte]
    simp only [hsame]
    by_cases heq : n * PGSIZE = size - 2 * PGSIZE
    · simp [heq]
    · rw [if_neg heq]
      refine ⟨fun hacc => ⟨?_, heq⟩, fun hin => ⟨hd.present n hin.1, hd.access n hin.1⟩⟩
      by_contra hge
      by_cases hnu : n < userPages
      · exact hd.above n hnu (Nat.not_lt.mp hge) hacc.1
      · have hu := hacc.2
        rw [hd.kernelOnly n hn (Nat.not_lt.mp hnu)] at hu
        cases hu

theorem stackNeeds_eq (has : Fin NPDENTRIES → Bool) (sz : ℕ) :
    stackNeeds has sz = allocNeeds has (PGROUNDUP sz) (stackEnd sz) := rfl

/-- How `exec` ends when it has got its stack. -/
theorem stackFate_served {argv : List (List UInt8)} {sz newsz r : ℕ} (hnew : stackEnd sz = newsz)
    (h : Alloc (PGROUNDUP sz) newsz s d t d' r) (hr : r ≠ 0)
    (hserved : (allocNeeds d.has (PGROUNDUP sz) newsz)[s.granted]? = none) :
    stackFate argv d.has sz s.granted = pushFate d'.has r argv 0 r := by
  have hneeds : (stackNeeds d.has sz)[s.granted]? = none := by
    rw [stackNeeds_eq, hnew]
    exact hserved
  rw [stackFate, hneeds, hnew, ← h.has hserved, ← h.size hserved]
  exact if_neg hr

/-- When it has not, that is not fatal. -/
theorem stackFate_ne_fatal {argv : List (List UInt8)} {sz newsz r : ℕ} (hnew : stackEnd sz = newsz)
    (h : Alloc (PGROUNDUP sz) newsz s d t d' r)
    (hr : (allocNeeds d.has (PGROUNDUP sz) newsz)[s.granted]? = none → r = 0) :
    stackFate argv d.has sz s.granted ≠ .fatal := by
  rw [stackFate, stackNeeds_eq, hnew]
  cases hneeds : (allocNeeds d.has (PGROUNDUP sz) newsz)[s.granted]? with
  | some need => exact Fate.afterAlloc_ne_fatal _ _
  | none =>
      rw [← h.size hneeds, hr hneeds]
      exact fun hfatal => by cases hfatal

/-! ### The whole of `exec` -/

/-- What a part of `buildImage` has done in the end, in an address space of this size; nothing has
gone wrong where `safe` holds. -/
structure Builds (safe : Prop) (needs : List Need) (fate : Fate) (sz : ℕ) (s : Vm) (d : Pgdir)
    (t : Vm) (d' : Pgdir) (r : Option (ℕ × ℕ)) : Prop where
  link : t.link = s.link
  unread : t.unread = s.unread
  bound : ∀ x ∈ r, x.1 ≤ KERNBASE
  kernelOnly : KernelOnly d → KernelOnly d'
  balance : Balance needs[s.granted]? (t.free + d'.held) (s.free + d.held)
  fate : UserSpace d sz → fate ≠ .fatal
  space : needs[s.granted]? ≠ some .table → UserSpace d sz → ∀ x ∈ r, Space d' x.1
  stray : safe → t.stray = s.stray

def makeStack (argv : List (List UInt8)) (d : Pgdir) (sz : ℕ) : VmM (Pgdir × Option (ℕ × ℕ)) := do
  let sz := PGROUNDUP sz
  let (d, sz) ← allocuvm d sz (uint (sz + 2 * PGSIZE))
  if sz = 0 then return (d, none)
  else do
    let d ← clearpteu d (uint (sz - 2 * PGSIZE))
    match ← pushStack d argv sz with
    | none => return (d, none)
    | some sp => return (d, some (sz, sp))

/-- The stack is made of pages of the call. -/
structure StackSafe (s : Vm) (d : Pgdir) (sz : ℕ) : Prop where
  needs : (stackNeeds d.has sz)[s.granted]? ≠ some .table
  space : Space d sz
  owned : Owned d s
  sound : Sound s d

/-- No argument leads to a null pointer: they are short, or the end is known to be safe. -/
structure PushSafe (argv : List (List UInt8)) (s : Vm) (d : Pgdir) (sz : ℕ) : Prop where
  needs : (stackNeeds d.has sz)[s.granted]? ≠ some .table
  space : UserSpace d sz
  push : (∀ i, kernelHas i = true → d.has i = true) ∧ ArgsShort argv ∨
    stackFate argv d.has sz s.granted = .safe

section Stack

variable {argv : List (List UInt8)} {sz newsz r : ℕ}

/-- The stack with its guard page. -/
theorem Alloc.guarded (ha : Alloc (PGROUNDUP sz) newsz s d t d' r) (hnew : stackEnd sz = newsz)
    (hr : r ≠ 0) (hserved : (allocNeeds d.has (PGROUNDUP sz) newsz)[s.granted]? = none)
    (hd : UserSpace d sz) (hg : Guards (uint (r - 2 * PGSIZE)) d' d'') : Guarded d'' r := by
  obtain ⟨huint, hlt, hguard⟩ := guard_page hd.bound (hnew ▸ ha.size hserved) hr
  rw [huint] at hg
  exact hg.guarded (ha.userSpace hd.roundUp hserved hr) hlt hguard

theorem PushSafe.pushFate (h : PushSafe argv s d sz) (ha : Alloc (PGROUNDUP sz) newsz s d t d' r)
    (hnew : stackEnd sz = newsz) (hr : r ≠ 0)
    (hserved : (allocNeeds d.has (PGROUNDUP sz) newsz)[s.granted]? = none) :
    pushFate d'.has r argv 0 r ≠ .fatal := by
  rcases h.push with ⟨hhas, hargs⟩ | hsafe
  · exact pushFate_ne_fatal (fun i hi => ha.evolves.keeps i (hhas i hi))
      (ha.bound (PGROUNDUP_le h.space.bound)) le_rfl (Nat.zero_le _) hargs
  · rw [← stackFate_served hnew ha hr hserved, hsafe]
    simp

theorem wp_makeStack {Q : Pgdir × Option (ℕ × ℕ) → Vm → Prop} (hsz : sz ≤ KERNBASE)
    (hpanics : ExecPanics E ∨ StackSafe s d sz) (hnull : E .nullPtr ∨ PushSafe argv s d sz)
    (hok : ∀ t d' r, Builds (StackSafe s d sz) (stackNeeds d.has sz)
      (stackFate argv d.has sz s.granted) sz s d t d' r → Q (d', r) t) :
    wp (makeStack argv d sz) Q E s := by
  have hneeds := stackNeeds_eq d.has sz
  rw [makeStack]
  dsimp only
  rw [wp_bind]
  change wp (allocuvm d (PGROUNDUP sz) (stackEnd sz)) _ E s
  rw [hneeds] at hok
  have hroom : ∀ hs : StackSafe s d sz,
      (allocNeeds d.has (PGROUNDUP sz) (stackEnd sz))[s.granted]? ≠ some .table := fun hs =>
    hneeds ▸ hs.needs
  have hpush : ∀ hs : PushSafe argv s d sz,
      (allocNeeds d.has (PGROUNDUP sz) (stackEnd sz))[s.granted]? ≠ some .table := fun hs =>
    hneeds ▸ hs.needs
  generalize hnew : stackEnd sz = newsz at *
  refine wp_allocuvm (hpanics.imp ExecPanics.remap fun hs => hs.space.roundUp.above_of_lt)
    (hpanics.imp ExecPanics.kfree StackSafe.sound) fun u d₂ r ha => ?_
  rw [wp_ite, wp_pure]
  refine ⟨fun hr => hok u d₂ none ⟨ha.evolves.link, ha.evolves.unread, by simp, ha.kernel.kernelOnly,
    ha.balance, fun _ => stackFate_ne_fatal hnew ha fun _ => hr, by simp, fun _ => ha.evolves.stray⟩,
    fun hr => ?_⟩
  have hspace : (allocNeeds d.has (PGROUNDUP sz) newsz)[s.granted]? ≠ some .table →
      Space d sz → Space d₂ r := fun hneed hd => by
    have h := ha.space hd.roundUp hneed
    rwa [if_neg hr] at h
  rw [wp_bind]
  refine wp_clearpteu (hpanics.imp ExecPanics.clearpteu fun hs => ?_) fun d₃ hg => ?_
  · have hserved := ha.served_of_ne hr (hroom hs)
    obtain ⟨huint, hlt, -⟩ := guard_page hsz (hnew ▸ ha.size hserved) hr
    rw [huint]
    exact (hspace (hroom hs) hs.space).hasTable hlt
  rw [wp_bind]
  refine wp_pushStack r (hnull.imp_right fun hs => ?_) fun v r' hv _ hne => ?_
  · have hserved := ha.served_of_ne hr (hpush hs)
    refine ⟨ha.guarded hnew hr hserved hs.space hg, ?_⟩
    rw [hg.has]
    exact hs.pushFate ha hnew hr hserved
  have hend : ∀ r', (∀ x ∈ r', x.1 = r) → Builds (StackSafe s d sz)
      (allocNeeds d.has (PGROUNDUP sz) newsz) (stackFate argv d.has sz s.granted) sz s d v
        d₃ r' := fun r' hr' => by
    refine ⟨hv.link.trans ha.evolves.link, hv.unread.trans ha.evolves.unread, fun x hx => ?_,
      fun hd => hg.kernelOnly (ha.kernel.kernelOnly hd), ?_, fun hd => ?_, fun hneed hd x hx => ?_,
      fun hs => ?_⟩
    · rw [hr' x hx]
      exact ha.bound (PGROUNDUP_le hsz)
    · rw [hv.free, hg.held]
      exact ha.balance
    · by_cases hserved : (allocNeeds d.has (PGROUNDUP sz) newsz)[s.granted]? = none
      · rw [stackFate_served hnew ha hr hserved, ← hg.has]
        exact hne (ha.guarded hnew hr hserved hd hg)
      · exact stackFate_ne_fatal hnew ha fun hnone => absurd hnone hserved
    · rw [hr' x hx]
      exact hg.space (hspace hneed hd.toSpace)
    · have howned := ha.owned (ha.served_of_ne hr (hroom hs)) hs.owned
      rw [hv.stray (hg.ownPages howned (ha.kernel.kernelOnly hs.space.kernelOnly)),
        ha.evolves.stray]
  cases r' with
  | none => exact wp_pure.mpr (hok v d₃ none (hend none (by simp)))
  | some sp =>
      refine wp_pure.mpr (hok v d₃ (some (r, sp)) (hend _ ?_))
      rintro _ ⟨⟩
      rfl

/-- The stack is made after the segments have been loaded. -/
theorem Builds.of_loaded {safe safe' : Prop} {needs rest : List Need} {fate : Continuation → Fate}
    {next : Fate} {sz' : ℕ} {x : Option (ℕ × ℕ)} (hrest : stackNeeds d'.has sz' = rest)
    (hnext : stackFate argv d'.has sz' t.granted = next)
    (h : Builds safe' rest next sz' t d' u d'' x)
    (hl : Loaded safe needs fate sz s d t d' (some sz')) (hsafe : safe → safe') :
    Builds safe needs (fate (stackFate argv)) sz s d u d'' x := by
  have hgood := hl.good sz' rfl
  have hfollows := hl.follows sz' rfl (stackFate argv)
  rw [hrest] at hgood
  rw [hnext] at hfollows
  refine ⟨h.link.trans hl.link, h.unread.trans hl.unread, h.bound,
    fun hd => h.kernelOnly (hl.kernel.kernelOnly hd), hgood.balance h.balance, fun hd => ?_,
    fun hneed hd => h.space (fun htable => hneed ?_) (hl.space hneed hd sz' rfl),
    fun hs => (h.stray (hsafe hs)).trans (hl.stray hs)⟩
  · rcases hfollows with hastray | ⟨hfate, hspace⟩
    · simp [hastray]
    · rw [hfate]
      exact h.fate (hspace hd)
  · cases hgood with
    | going hneed' _ => rw [hneed', htable]
    | lost hneed' _ => exact hneed'

/-- What is not refused from the first header on is not refused for the stack. -/
theorem Loaded.stackNeeds {safe : Prop} {needs : List Need} {fate : Continuation → Fate} {sz' : ℕ}
    (h : Loaded safe needs fate sz s d t d' (some sz')) (hneed : needs[s.granted]? ≠ some .table) :
    (stackNeeds d'.has sz')[t.granted]? ≠ some .table := fun htable => hneed <| by
  cases h.good sz' rfl with
  | going hneed' _ => rw [hneed', htable]
  | lost hneed' _ => exact hneed'

end Stack

/-- No argument leads to a null pointer, in an address space that is still empty. -/
structure ArgsSafe (needs : List Need) (fate : Fate) (argv : List (List UInt8)) (s : Vm)
    (d : Pgdir) : Prop where
  needs : needs[s.granted]? ≠ some .table
  space : Space d 0
  push : (∀ i, kernelHas i = true → d.has i = true) ∧ ArgsShort argv ∨ fate = .safe

theorem wp_buildImage {elf : Elfhdr} {argv : List (List UInt8)}
    {Q : Pgdir × Option (ℕ × ℕ) → Vm → Prop}
    (hpanics : ExecPanics E ∨ SegmentsSafe file elf.phnum elf.phoff s d 0)
    (hnull : E .nullPtr ∨ ArgsSafe (segmentNeeds file elf.phnum elf.phoff d.has 0 s.nread)
      (fateFrom file elf.phnum elf.phoff s d 0 (stackFate argv)) argv s d)
    (hok : ∀ t d' r, Builds (SegmentsSafe file elf.phnum elf.phoff s d 0)
      (segmentNeeds file elf.phnum elf.phoff d.has 0 s.nread)
      (fateFrom file elf.phnum elf.phoff s d 0 (stackFate argv)) 0 s d t d' r → Q (d', r) t) :
    wp (buildImage file elf argv d) Q E s := by
  rw [buildImage, wp_bind]
  refine wp_loadSegments hpanics fun t d₁ r h => ?_
  cases r with
  | none => exact wp_pure.mpr (hok t d₁ none ⟨h.link, h.unread, by simp, h.kernel.kernelOnly,
      h.bad rfl, fun _ => h.fatal rfl _, by simp, h.stray⟩)
  | some sz =>
      have hsafe : SegmentsSafe file elf.phnum elf.phoff s d 0 → StackSafe t d₁ sz := fun hs =>
        ⟨h.stackNeeds hs.needs, (h.space hs.needs hs.space.userSpace sz rfl).toSpace,
          h.owned hs sz rfl, hs.sound.mono h.link (h.good sz rfl).le⟩
      change wp (makeStack argv d₁ sz) Q E t
      refine wp_makeStack (h.bound (Nat.zero_le _) sz rfl) (hpanics.imp_right hsafe)
        (hnull.imp_right fun hs => ?_) fun u d₂ x hb =>
          hok u d₂ x (hb.of_loaded rfl rfl h hsafe)
      refine ⟨h.stackNeeds hs.needs, h.space hs.needs hs.space.userSpace sz rfl,
        hs.push.imp (fun hshort => ⟨fun i hi => h.has i (hshort.1 i hi), hshort.2⟩) fun hfate => ?_⟩
      rcases h.follows sz rfl (stackFate argv) with hastray | ⟨hnext, -⟩
      · rw [hastray] at hfate
        cases hfate
      · rw [← hnext]
        exact hfate

/-- The segments of the file fit. -/
def FileFits (file : Option Reader) (stack : List UInt8) (k : ℕ) : Prop :=
  ∀ f ∈ file, SegmentsFit f (elfAt f stack k).phnum (elfAt f stack k).phoff 0 (k + 1)

/-- Nothing can go wrong in `exec` but for the stack. -/
structure ExecSafe (file : Option Reader) (stack : List UInt8) (s : Vm) (old : Pgdir) : Prop where
  needs : kernelNeeds.length ≤ s.granted → (execNeeds file stack s.nread)[s.granted]? ≠ some .table
  fate : fileFate (fun _ _ _ => .safe) file stack s.nread s.granted = .safe
  sound : Sound s old

/-- What `exec` has done in the end. -/
structure Execs (file : Option Reader) (stack : List UInt8) (s : Vm) (old : Pgdir) (t : Vm)
    (r : Option Image) : Prop where
  link : t.link = s.link
  unread : t.unread = false ↔ ∀ f ∈ file, (answer f s.nread 0 sizeofElfhdr).isSome = true
  stray : ExecSafe file stack s old → t.stray = []
  bound : ∀ image ∈ r, image.sz ≤ KERNBASE
  bad : r = none → Balance (execNeeds file stack s.nread)[s.granted]? t.free s.free
  good : ∀ image ∈ r, Balance (execNeeds file stack s.nread)[s.granted]?
    (t.free + image.pgdir.held) (s.free + old.held)
  kernelOnly : ∀ image ∈ r, KernelOnly image.pgdir
  space : (execNeeds file stack s.nread)[s.granted]? ≠ some .table →
    ∀ image ∈ r, Space image.pgdir image.sz

theorem NewSpace.space (h : NewSpace s t d) : Space d 0 where
  bound := Nat.zero_le _
  present := fun _ hm => absurd hm (Nat.not_lt_zero _)
  above := fun _ hm _ => h.fresh hm
  kernelOnly := h.kernelOnly

theorem execNeeds_some {stack : List UInt8} {k : ℕ}
    (hlong : ¬ uint (readResult (answer file k 0 sizeofElfhdr)) < sizeofElfhdr)
    (hmagic : ¬ (elfAt file stack k).magic ≠ ELF_MAGIC) :
    execNeeds (some file) stack k = kernelNeeds ++ segmentNeeds file (elfAt file stack k).phnum
      (elfAt file stack k).phoff kernelHas 0 (k + 1) :=
  if_neg (not_or.mpr ⟨hlong, hmagic⟩)

theorem execNeeds_bad {stack : List UInt8} {k : ℕ}
    (h : uint (readResult (answer file k 0 sizeofElfhdr)) < sizeofElfhdr ∨
      (elfAt file stack k).magic ≠ ELF_MAGIC) : execNeeds (some file) stack k = [] :=
  if_pos h

/-- After the header has been used. -/
def Vm.useHeader (s : Vm) (r : Option (List UInt8)) : Vm :=
  { s with unread := s.unread || readResult r ≠ sizeofElfhdr }

theorem wp_useHeader {r : Option (List UInt8)} {Q : Unit → Vm → Prop} :
    wp (useHeader r) Q E s ↔ Q () (s.useHeader r) := wp_modify

theorem isSome_answer {k n : ℕ} (h : (answer file k 0 n).isSome = true)
    (hlong : ¬ uint (readResult (answer file k 0 n)) < n) (hn : n < 2 ^ 31) :
    readResult (answer file k 0 n) = n := by
  obtain ⟨bs, hbs⟩ := Option.isSome_iff_exists.mp h
  have hlen : bs.length ≤ n := by
    rw [answer, Option.map_eq_some_iff] at hbs
    obtain ⟨l, -, rfl⟩ := hbs
    exact List.length_take_le _ _
  rw [hbs, readResult, uint] at hlong
  rw [hbs, readResult]
  omega

/-- The result of a `readi` that fails is no small `uint`. -/
theorem isSome_of_short {k : ℕ}
    (h : uint (readResult (answer file k 0 sizeofElfhdr)) < sizeofElfhdr) :
    (answer file k 0 sizeofElfhdr).isSome = true := by
  cases hr : answer file k 0 sizeofElfhdr with
  | none =>
      rw [hr] at h
      exact absurd h (by decide)
  | some bs => rfl

theorem isSome_of_read {k : ℕ} (h : readResult (answer file k 0 sizeofElfhdr) = sizeofElfhdr) :
    (answer file k 0 sizeofElfhdr).isSome = true := by
  cases hr : answer file k 0 sizeofElfhdr with
  | none =>
      rw [hr] at h
      exact absurd h (by decide)
  | some bs => rfl

def execFrom (file : Reader) (elf : Elfhdr) (path : List UInt8) (argv : List (List UInt8))
    (oldpgdir : Pgdir) : VmM (Option Image) := do
  match ← setupkvm with
  | none => return none
  | some d => do
      match ← buildImage file elf argv d with
      | (d, none) => do
          freevm d
          return none
      | (d, some (sz, sp)) => do
          freevm oldpgdir
          return some ⟨d, sz, elf.entry, sp, lastElem path⟩

/-- Nothing can go wrong from `setupkvm` on but for the stack. -/
structure FromSafe (file : Reader) (elf : Elfhdr) (s : Vm) (old : Pgdir) : Prop where
  needs : kernelNeeds.length ≤ s.granted →
    (kernelNeeds ++ segmentNeeds file elf.phnum elf.phoff kernelHas 0 s.nread)[s.granted]? ≠
      some .table
  fate : imageFate (fun _ _ _ => .safe) file elf s.nread s.granted = .safe
  sound : Sound s old

/-- What `exec` has done in the end, from `setupkvm` on. -/
structure Makes (safe : Prop) (needs : List Need) (fate : Fate) (s : Vm) (old : Pgdir) (t : Vm)
    (r : Option Image) : Prop where
  link : t.link = s.link
  unread : t.unread = s.unread
  stray : safe → t.stray = s.stray
  bound : ∀ image ∈ r, image.sz ≤ KERNBASE
  bad : r = none → Balance needs[s.granted]? t.free s.free
  good : ∀ image ∈ r, Balance needs[s.granted]? (t.free + image.pgdir.held) (s.free + old.held)
  kernelOnly : ∀ image ∈ r, KernelOnly image.pgdir
  fate : fate ≠ .fatal
  space : needs[s.granted]? ≠ some .table → ∀ image ∈ r, Space image.pgdir image.sz

/-- Nothing comes of `exec` without a page directory. -/
theorem Makes.of_none {safe : Prop} {needs : List Need} {fate : Fate} {old : Pgdir}
    (hin : Inside s t) (hbal : Balance needs[s.granted]? t.free s.free) (hfate : fate ≠ .fatal) :
    Makes safe needs fate s old t none :=
  ⟨hin.link, hin.unread, fun _ => hin.stray, by simp, fun _ => hbal, by simp, by simp, hfate,
    by simp⟩

section From

variable {elf : Elfhdr} {argv : List (List UInt8)} {old : Pgdir}

theorem NewSpace.enough (h : NewSpace s t d) : kernelNeeds.length ≤ s.granted := by
  have hgranted := h.granted
  rw [kernelNeeds, List.length_cons, List.length_replicate]
  omega

/-- In the new address space the end is the same. -/
theorem NewSpace.fateFrom (h : NewSpace s t d) (cont : Continuation) :
    fateFrom file elf.phnum elf.phoff t d 0 cont = imageFate cont file elf s.nread s.granted := by
  have hlen : kernelNeeds.length = 1 + kernelTables := by
    rw [kernelNeeds, List.length_cons, List.length_replicate, Nat.add_comm]
  have hgranted := h.granted
  rw [imageFate, if_neg (by omega), Xv6.fateFrom, h.has, h.inside.nread,
    show s.granted - kernelNeeds.length = t.granted by omega]

theorem FromSafe.segments (h : FromSafe file elf s old) (hnew : NewSpace s t d) :
    SegmentsSafe file elf.phnum elf.phoff t d 0 where
  needs := by
    rw [hnew.has, hnew.inside.nread, ← hnew.needs]
    exact h.needs hnew.enough
  space := hnew.space
  owned := fun m hm hp => absurd hp (hnew.fresh hm)
  sound := fun x hx => by
    rw [hnew.inside.link]
    rw [hnew.acct] at hx
    exact h.sound x (Multiset.mem_add.mpr (.inl hx))
  fate := (hnew.fateFrom _).trans h.fate

/-- A new image has been made, and the old address space given back. -/
theorem Makes.of_builds {needs : List Need} {u v : Vm} {x : Option (ℕ × ℕ)}
    {safe safe' : Prop} {fate : Fate} (hnew : NewSpace s t d)
    (hb : Builds safe' needs fate 0 t d u d' x) (hsafe : safe → safe')
    (hin : Inside u v) (r : Option Image) (hnone : r = none → v.free = u.free + d'.held)
    (hsome : ∀ image ∈ r, image.pgdir = d' ∧ (∃ y ∈ x, image.sz = y.1) ∧
      v.free = u.free + old.held) :
    Makes safe (kernelNeeds ++ needs) fate s old v r := by
  have hneeds := hnew.needs needs
  have hbal := hb.balance
  rw [hnew.acct] at hbal
  refine ⟨hin.link.trans (hb.link.trans hnew.inside.link),
    hin.unread.trans (hb.unread.trans hnew.inside.unread),
    fun hs => hin.stray.trans ((hb.stray (hsafe hs)).trans hnew.inside.stray), fun image hi => ?_,
    fun hr => ?_, fun image hi => ?_, fun image hi => ?_, hb.fate hnew.space.userSpace,
    fun hneed image hi => ?_⟩
  · obtain ⟨-, ⟨y, hy, hsz⟩, -⟩ := hsome image hi
    rw [hsz]
    exact hb.bound y hy
  · rw [hneeds, hnone hr]
    exact hbal
  · obtain ⟨hd, -, hfree⟩ := hsome image hi
    rw [hneeds, hfree, hd, add_right_comm]
    exact hbal.add old.held
  · rw [(hsome image hi).1]
    exact hb.kernelOnly hnew.kernelOnly
  · obtain ⟨hd, ⟨y, hy, hsz⟩, -⟩ := hsome image hi
    rw [hneeds] at hneed
    rw [hd, hsz]
    exact hb.space hneed hnew.space.userSpace y hy

theorem wp_execFrom {path : List UInt8} {Q : Option Image → Vm → Prop}
    (hpanics : ExecPanics E ∨ FromSafe file elf s old)
    (hnull : E .nullPtr ∨
      (kernelNeeds.length ≤ s.granted →
        (kernelNeeds ++ segmentNeeds file elf.phnum elf.phoff kernelHas 0 s.nread)[s.granted]? ≠
          some .table) ∧
      (ArgsShort argv ∨ imageFate (stackFate argv) file elf s.nread s.granted = .safe))
    (hok : ∀ t r, Makes (FromSafe file elf s old)
      (kernelNeeds ++ segmentNeeds file elf.phnum elf.phoff kernelHas 0 s.nread)
      (imageFate (stackFate argv) file elf s.nread s.granted) s old t r → Q r t) :
    wp (execFrom file elf path argv old) Q E s := by
  have hlen : kernelNeeds.length = 1 + kernelTables := by
    rw [kernelNeeds, List.length_cons, List.length_replicate, Nat.add_comm]
  rw [execFrom, wp_bind]
  refine wp_setupkvm (fun hzero => wp_pure.mpr (hok _ _ (.of_none .refuse ?_ ?_)))
    (fun t hleak hin => wp_pure.mpr (hok t _ (.of_none hin ?_ ?_))) fun t d hnew => ?_
  · rw [hzero]
    exact Balance.of_eq (by simp [kernelNeeds]) rfl
  · rw [imageFate, if_pos (by omega)]
    simp
  · exact Balance.of_lt (hleak.needs _) hleak.2.2
  · obtain ⟨-, hlt, -⟩ := hleak
    rw [imageFate, if_pos (by omega)]
    simp
  have hneeds := hnew.needs (segmentNeeds file elf.phnum elf.phoff kernelHas 0 s.nread)
  have hfree : ∀ u d' : Multiset Frame, Balance (segmentNeeds file elf.phnum elf.phoff kernelHas 0
      s.nread)[t.granted]? (u + d') (t.free + d.held) → u + d' ≤ s.free := fun u d' h => by
    rw [← hnew.acct]
    exact h.le
  dsimp only
  rw [wp_bind]
  refine wp_buildImage (hpanics.imp_right fun hs => hs.segments hnew) (hnull.imp_right fun hs => ?_)
    fun u d' x hb => ?_
  · refine ⟨?_, hnew.space, hs.2.imp (fun hargs => ⟨fun i hi => hnew.has ▸ hi, hargs⟩) fun h => ?_⟩
    · rw [hnew.has, hnew.inside.nread, ← hneeds]
      exact hs.1 hnew.enough
    · exact (hnew.fateFrom _).trans h
  rw [hnew.has, hnew.inside.nread, hnew.fateFrom] at hb
  have hulink : u.link = s.link := hb.link.trans hnew.inside.link
  have hsafe : FromSafe file elf s old → SegmentsSafe file elf.phnum elf.phoff t d 0 :=
    fun hs => hs.segments hnew
  cases x with
  | none =>
      dsimp only
      rw [wp_bind]
      refine wp_freevm (hpanics.imp ExecPanics.kfree fun hs y hy => ?_) fun v hin hv =>
        wp_pure.mpr (hok v _ (.of_builds hnew hb hsafe hin none (fun _ => hv) (by simp)))
      rw [hulink]
      exact hs.sound y (Multiset.mem_add.mpr (.inl (Multiset.mem_of_le (hfree _ _ hb.balance) hy)))
  | some x =>
      obtain ⟨sz, sp⟩ := x
      dsimp only
      rw [wp_bind]
      refine wp_freevm (hpanics.imp ExecPanics.kfree fun hs y hy => ?_) fun v hin hv =>
        wp_pure.mpr (hok v _ (.of_builds hnew hb hsafe hin _ (by simp) ?_))
      · rw [hulink]
        refine hs.sound y (Multiset.mem_of_le ?_ hy)
        exact add_le_add_left ((Multiset.le_add_right _ _).trans (hfree _ _ hb.balance)) _
      · rintro _ ⟨⟩
        exact ⟨rfl, ⟨_, rfl, rfl⟩, hv⟩

end From

section Exec

variable {f : Option Reader} {stack path : List UInt8} {argv : List (List UInt8)} {old : Pgdir}

/-- `exec` has read the file header and goes on with it. -/
structure HeaderUsed (file : Reader) (s t : Vm) : Prop where
  link : t.link = s.link
  free : t.free = s.free
  granted : t.granted = s.granted
  nread : t.nread = s.nread + 1
  stray : t.stray = []
  unread : t.unread = false ↔ (answer file s.nread 0 sizeofElfhdr).isSome = true

/-- The header that is used has been read, unless `readi` failed. -/
theorem Stores.headerUsed (ht : Stores True s t) (hread : t.nread = s.nread + 1)
    (hstray : s.stray = []) (hunread : s.unread = false)
    (hlong : ¬ uint (readResult (answer file s.nread 0 sizeofElfhdr)) < sizeofElfhdr) :
    HeaderUsed file s (t.useHeader (answer file s.nread 0 sizeofElfhdr)) := by
  refine ⟨ht.link, ht.free, ht.granted, hread, (ht.stray trivial).trans hstray, ?_⟩
  rw [Vm.useHeader, ht.unread, hunread, Bool.false_or, decide_eq_false_iff_not, not_not]
  exact ⟨isSome_of_read, fun h => isSome_answer h hlong (by decide)⟩

/-- `exec` ends before it has asked for a page. -/
theorem Execs.of_nothing (hlink : t.link = s.link) (hfree : t.free = s.free) (hstray : t.stray = [])
    (hunread : t.unread = false ↔ ∀ file ∈ f, (answer file s.nread 0 sizeofElfhdr).isSome = true)
    (hneeds : execNeeds f stack s.nread = []) : Execs f stack s old t none :=
  ⟨hlink, hunread, fun _ => hstray, by simp, fun _ => Balance.of_eq (by simp [hneeds]) hfree,
    by simp, by simp, by simp⟩

theorem Execs.of_makes {r : Option Image} (h : HeaderUsed file s t)
    (hneeds : execNeeds (some file) stack s.nread = kernelNeeds ++ segmentNeeds file
      (elfAt file stack s.nread).phnum (elfAt file stack s.nread).phoff kernelHas 0 t.nread)
    (hsafe : ExecSafe (some file) stack s old → FromSafe file (elfAt file stack s.nread) t old)
    {fate : Fate} (hm : Makes (FromSafe file (elfAt file stack s.nread) t old)
      (kernelNeeds ++ segmentNeeds file (elfAt file stack s.nread).phnum
        (elfAt file stack s.nread).phoff kernelHas 0 t.nread) fate t old u r) :
    Execs (some file) stack s old u r := by
  have hbad := hm.bad
  have hgood := hm.good
  have hspace := hm.space
  rw [← hneeds, h.granted] at hbad hgood hspace
  rw [h.free] at hbad hgood
  refine ⟨hm.link.trans h.link, ?_, fun hs => (hm.stray (hsafe hs)).trans h.stray, hm.bound, hbad,
    hgood, hm.kernelOnly, hspace⟩
  rw [hm.unread, h.unread]
  exact ⟨fun h => by rintro _ ⟨⟩; exact h, fun h => h file rfl⟩

theorem fileFate_bad {cont : Continuation} {k g : ℕ}
    (h : uint (readResult (answer file k 0 sizeofElfhdr)) < sizeofElfhdr ∨
      (elfAt file stack k).magic ≠ ELF_MAGIC) :
    fileFate cont (some file) stack k g = .safe := if_pos h

theorem fileFate_some {cont : Continuation} {k g : ℕ}
    (hlong : ¬ uint (readResult (answer file k 0 sizeofElfhdr)) < sizeofElfhdr)
    (hmagic : ¬ (elfAt file stack k).magic ≠ ELF_MAGIC) :
    fileFate cont (some file) stack k g = imageFate cont file (elfAt file stack k) (k + 1) g :=
  if_neg (not_or.mpr ⟨hlong, hmagic⟩)

theorem wp_exec {Q : Option Image → Vm → Prop} (hpanics : ExecPanics E ∨ ExecSafe f stack s old)
    (hnull : E .nullPtr ∨ (kernelNeeds.length ≤ s.granted →
        (execNeeds f stack s.nread)[s.granted]? ≠ some .table) ∧
      (ArgsShort argv ∨ fileFate (stackFate argv) f stack s.nread s.granted = .safe))
    (hok : ∀ t r, Execs f stack s old t r →
      fileFate (stackFate argv) f stack s.nread s.granted ≠ .fatal → Q r t) :
    wp (VmM.exec f stack path argv old) Q E s := by
  unfold VmM.exec begin
  rw [wp_bind, wp_modify]
  cases f with
  | none => exact wp_pure.mpr (hok _ _ (.of_nothing rfl rfl rfl ⟨by simp, fun _ => rfl⟩ rfl)
      (by simp [fileFate]))
  | some file =>
      dsimp only
      rw [wp_bind]
      refine wp_readi fun t ht hread => ?_
      change wp (if uint (readResult (answer file s.nread 0 sizeofElfhdr)) < sizeofElfhdr then
        pure none else _) Q E t
      rw [wp_ite, wp_pure]
      refine ⟨fun hshort => hok t _ (.of_nothing ht.link ht.free (ht.stray trivial)
        (iff_of_true ht.unread ?_) (execNeeds_bad (.inl hshort))) ?_, fun hlong => ?_⟩
      · rintro _ ⟨⟩
        exact isSome_of_short hshort
      · rw [fileFate_bad (.inl hshort)]
        simp
      rw [wp_bind, wp_useHeader]
      have hused : HeaderUsed file s (t.useHeader (answer file s.nread 0 sizeofElfhdr)) := by
        have h := ht.headerUsed hread rfl rfl hlong
        exact ⟨h.link, h.free, h.granted, h.nread, h.stray, h.unread⟩
      generalize t.useHeader (answer file s.nread 0 sizeofElfhdr) = t' at *
      change wp (if (elfAt file stack s.nread).magic ≠ ELF_MAGIC then pure none else _) Q E t'
      rw [wp_ite, wp_pure]
      refine ⟨fun hmagic => hok t' _ (.of_nothing hused.link hused.free hused.stray ?_
        (execNeeds_bad (.inr hmagic))) ?_, fun hmagic => ?_⟩
      · rw [hused.unread]
        exact ⟨fun h => by rintro _ ⟨⟩; exact h, fun h => h file rfl⟩
      · rw [fileFate_bad (.inr hmagic)]
        simp
      have hneeds := execNeeds_some hlong hmagic
      have hfate : ∀ cont, fileFate cont (some file) stack s.nread s.granted =
          imageFate cont file (elfAt file stack s.nread) (s.nread + 1) s.granted :=
        fun _ => fileFate_some hlong hmagic
      rw [← hused.nread] at hneeds hfate
      rw [← hused.granted] at hfate
      have hsafe : ExecSafe (some file) stack s old →
          FromSafe file (elfAt file stack s.nread) t' old := fun hs => by
        have hneed := hs.needs
        have hs' := hs.fate
        rw [hneeds, ← hused.granted] at hneed
        rw [← hused.granted, hfate] at hs'
        exact ⟨hneed, hs', hs.sound.mono hused.link (by rw [hused.free])⟩
      change wp (execFrom file (elfAt file stack s.nread) path argv old) Q E t'
      rw [hneeds, ← hused.granted, hfate] at hnull
      rw [← hused.granted, hfate] at hok
      exact wp_execFrom (hpanics.imp_right hsafe) hnull fun u r hm =>
        hok u r (.of_makes hused hneeds hsafe hm) hm.fate

end Exec

end Xv6
