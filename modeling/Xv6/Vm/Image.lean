import Xv6.Vm.Fate

/-!
# The image of `exec`

The loops of `exec` over the program headers and over the arguments do what `segmentNeeds`,
`segmentFate` and `pushFate` say: they ask for these pages, and unless they have gone astray
they end in this way.
-/

namespace Xv6

open Foundation VmM

variable {s t u : Vm} {d d' d'' : Pgdir} {E : VmStop → Prop} {file : Reader}

/-! ### Stores to the contents of pages -/

/-- Contents of pages are changed; where `P` holds, only of pages that the call was given. -/
structure Stores (P : Prop) (s t : Vm) : Prop where
  freelist : t.freelist = s.freelist
  fails : t.fails = s.fails
  link : t.link = s.link
  unread : t.unread = s.unread
  taken : t.taken = s.taken
  stray : P → t.stray = s.stray

namespace Stores

variable {P P' : Prop}

theorem refl : Stores P s s := ⟨rfl, rfl, rfl, rfl, rfl, fun _ => rfl⟩

theorem trans (h : Stores P s t) (h' : Stores P' t u) (hP : P → P') : Stores P s u :=
  ⟨h'.freelist.trans h.freelist, h'.fails.trans h.fails, h'.link.trans h.link,
    h'.unread.trans h.unread, h'.taken.trans h.taken,
    fun hp => (h'.stray (hP hp)).trans (h.stray hp)⟩

theorem mono (h : Stores P s t) (hP : P' → P) : Stores P' s t :=
  ⟨h.freelist, h.fails, h.link, h.unread, h.taken, fun hp => h.stray (hP hp)⟩

theorem store {f : Frame} {x : Page} (hP : P → f ∈ s.taken) : Stores P s (s.store f x) :=
  ⟨rfl, rfl, rfl, rfl, rfl, fun hp => Vm.stray_store (hP hp)⟩

theorem free (h : Stores P s t) : t.free = s.free := by
  rw [Vm.free, Vm.free, h.freelist]

theorem granted (h : Stores P s t) : t.granted = s.granted := by
  rw [Vm.granted, Vm.granted, h.freelist, h.fails]

end Stores

theorem wp_readi {off n : ℕ} {Q : Option (List UInt8) → Vm → Prop}
    (hok : ∀ t, Stores True s t → t.nread = s.nread + 1 → Q (answer file s.nread off n) t) :
    wp (readi file off n) Q E s := by
  rw [readi, wp_bind, wp_get, wp_bind, wp_set]
  exact wp_pure.mpr (hok _ ⟨rfl, rfl, rfl, rfl, rfl, fun _ => rfl⟩ rfl)

/-- `readPage` writes to the page if there is anything to read. -/
theorem wp_readPage {f : Frame} {off n : ℕ} {Q : Option (List UInt8) → Vm → Prop}
    (hok : ∀ t, Stores (0 < readResult (answer file s.nread off n) → f ∈ s.taken) s t →
      t.nread = s.nread + 1 → Q (answer file s.nread off n) t) :
    wp (readPage file f off n) Q E s := by
  rw [readPage, wp_bind]
  refine wp_readi fun t ht hread => ?_
  have ht' : Stores (0 < readResult (answer file s.nread off n) → f ∈ s.taken) s t :=
    ht.mono fun _ => trivial
  cases hr : answer file s.nread off n with
  | none => exact wp_pure.mpr (hr ▸ hok t ht' hread)
  | some bs =>
      cases bs with
      | nil => exact wp_pure.mpr (hr ▸ hok t ht' hread)
      | cons b bs =>
          dsimp only
          rw [wp_bind, wp_get, wp_bind, wp_store]
          refine wp_pure.mpr (hr ▸ hok _ (ht'.trans (Stores.store id) fun hf => ?_) hread)
          rw [ht.taken]
          refine hf ?_
          rw [hr, readResult, List.length_cons]
          omega

/-! ### `loaduvm` -/

/-- There are page tables for the memory below a size. -/
def Tables (d : Pgdir) (size : ℕ) : Prop := ∀ m, m * PGSIZE < size → d.hasTable (m * PGSIZE) = true

/-- The pages below a size are the call's own. -/
def OwnBelow (d : Pgdir) (size : ℕ) (s : Vm) : Prop :=
  ∀ m, m * PGSIZE < size → (d.pte (m * PGSIZE)).frame ∈ s.taken

section Round

variable {has : Fin NPDENTRIES → Bool} {size addr offset sz rounds i k : ℕ}

/-- A round of `loaduvm` that reads a whole page. -/
theorem loadFate_succ (hhas : has (PDX (uint (addr + i))) = true)
    (hread : readResult (answer file k (uint (offset + i)) (chunk sz i)) = chunk sz i) :
    loadFate file has size addr offset sz (rounds + 1) i k = .astray ∨
      loadFate file has size addr offset sz (rounds + 1) i k =
        loadFate file has size addr offset sz rounds (i + PGSIZE) (k + 1) := by
  rw [loadFate, if_neg (by simp [hhas])]
  split
  · exact .inl rfl
  · exact .inr (if_neg (not_not.mpr hread))

/-- What a round of `loaduvm` writes, it writes to the pages of the call, if all is well. -/
theorem store_of_loadFate (haligned : (addr + i) % PGSIZE = 0)
    (hsafe : loadFate file has size addr offset sz (rounds + 1) i k = .safe)
    (hown : OwnBelow d size s)
    (hread : 0 < readResult (answer file k (uint (offset + i)) (chunk sz i))) :
    (d.pte (uint (addr + i))).frame ∈ s.taken := by
  rw [loadFate] at hsafe
  split at hsafe
  · cases hsafe
  split at hsafe
  · cases hsafe
  rename_i hout
  have hlt : uint (addr + i) < size := by
    by_contra hge
    exact hout ⟨Nat.not_lt.mp hge, hread⟩
  have hpage : uint (addr + i) = uint (addr + i) / PGSIZE * PGSIZE := by
    rw [PGSIZE_eq] at haligned ⊢
    rw [uint]
    omega
  rw [hpage] at hlt ⊢
  exact hown _ hlt

theorem wp_loaduvmLoop {Q : Bool → Vm → Prop} (haligned : (addr + i) % PGSIZE = 0)
    (haddr : E (.panic .loaduvmAddress) ∨
      Tables d size ∧ loadFate file d.has size addr offset sz rounds i s.nread = .safe)
    (hok : ∀ t, Stores (loadFate file d.has size addr offset sz rounds i s.nread = .safe ∧
        OwnBelow d size s) s t →
      t.nread = (loadReads file offset sz rounds i s.nread).2 →
      loadFate file d.has size addr offset sz rounds i s.nread ≠ .fatal →
      Q (loadReads file offset sz rounds i s.nread).1 t) :
    wp (loaduvmLoop d addr file offset sz rounds i) Q E s := by
  induction rounds generalizing i s with
  | zero => exact wp_pure.mpr (hok s Stores.refl rfl (by simp [loadFate]))
  | succ rounds ih =>
      rw [loaduvmLoop, wp_bind]
      cases hhas : d.hasTable (uint (addr + i)) with
      | false =>
          rw [wp_walkpgdir_null hhas]
          dsimp only
          rw [wp_panic]
          refine haddr.resolve_right fun hall => ?_
          obtain ⟨htables, hsafe⟩ := hall
          rcases Nat.lt_or_ge (uint (addr + i)) size with hlt | hge
          · have hpage : uint (addr + i) = uint (addr + i) / PGSIZE * PGSIZE := by
              rw [PGSIZE_eq] at haligned ⊢
              rw [uint]
              omega
            rw [hpage] at hlt hhas
            rw [htables _ hlt] at hhas
            cases hhas
          · rw [loadFate, if_pos ⟨hge, hhas⟩] at hsafe
            cases hsafe
      | true =>
          rw [wp_walkpgdir_found hhas]
          change wp (readPage file _ _ (chunk sz i) >>= fun r =>
            if readResult r ≠ chunk sz i then pure false
            else loaduvmLoop d addr file offset sz rounds (i + PGSIZE)) Q E s
          rw [wp_bind]
          refine wp_readPage fun t ht hread => ?_
          rw [wp_ite, wp_pure]
          have hfirst : Stores (loadFate file d.has size addr offset sz (rounds + 1) i s.nread =
              .safe ∧ OwnBelow d size s) s t :=
            ht.mono fun hall hpos => store_of_loadFate haligned hall.1 hall.2 hpos
          refine ⟨fun hne => ?_, fun heq => ?_⟩
          · have hreads : loadReads file offset sz (rounds + 1) i s.nread = (false, s.nread + 1) := by
              rw [loadReads, if_pos hne]
            rw [hreads] at hok
            refine hok t hfirst hread ?_
            have hthere : d.has (PDX (uint (addr + i))) = true := hhas
            rw [loadFate, if_neg (by simp [hthere]), if_pos hne]
            split <;> simp
          · have hreads : loadReads file offset sz (rounds + 1) i s.nread =
                loadReads file offset sz rounds (i + PGSIZE) t.nread := by
              rw [loadReads, if_neg heq, hread]
            have hfate : loadFate file d.has size addr offset sz (rounds + 1) i s.nread = .astray ∨
                loadFate file d.has size addr offset sz (rounds + 1) i s.nread =
                  loadFate file d.has size addr offset sz rounds (i + PGSIZE) t.nread := by
              rw [hread]
              exact loadFate_succ hhas (not_not.mp heq)
            rw [hreads] at hok
            have hsafe : loadFate file d.has size addr offset sz (rounds + 1) i s.nread = .safe →
                loadFate file d.has size addr offset sz rounds (i + PGSIZE) t.nread = .safe :=
              fun h => by
                rcases hfate with hastray | hnext
                · rw [hastray] at h
                  cases h
                · rwa [← hnext]
            refine ih ?_ (haddr.imp_right fun h => ⟨h.1, hsafe h.2⟩) fun u hu hlast hne =>
              hok u (hfirst.trans hu fun h => ⟨hsafe h.1, fun m hm => ?_⟩) hlast ?_
            · rw [PGSIZE_eq] at haligned ⊢
              omega
            · rw [ht.taken]
              exact h.2 m hm
            · rcases hfate with hastray | hnext
              · rw [hastray]
                simp
              · rwa [hnext]

end Round

theorem wp_loaduvm {ph : Proghdr} {k size : ℕ} {Q : Bool → Vm → Prop} (hk : s.nread = k + 1)
    (hE : E (.panic .loaduvmAligned) ∧ E (.panic .loaduvmAddress) ∨
      Tables d size ∧ segmentLoad file k d.has size ph = .safe)
    (hok : ∀ t, Stores (segmentLoad file k d.has size ph = .safe ∧ OwnBelow d size s) s t →
      t.nread = (segmentReads file k ph).2 → segmentLoad file k d.has size ph ≠ .fatal →
      Q (segmentReads file k ph).1 t) :
    wp (loaduvm d ph.vaddr file ph.off ph.filesz) Q E s := by
  rw [loaduvm, wp_ite, wp_panic]
  refine ⟨fun hodd => ?_, fun haligned => ?_⟩
  · refine hE.elim And.left fun h => ?_
    have hfatal : segmentLoad file k d.has size ph = .fatal := if_pos hodd
    rw [hfatal] at h
    cases h.2
  · change wp (loaduvmLoop d ph.vaddr file ph.off ph.filesz (segmentPages ph.filesz) 0) Q E s
    have hload : segmentLoad file k d.has size ph = loadFate file d.has size ph.vaddr ph.off
        ph.filesz (segmentPages ph.filesz) 0 s.nread := by
      rw [hk]
      exact if_neg haligned
    rw [hload] at hE hok
    refine wp_loaduvmLoop (not_not.mp haligned) (hE.imp And.right id) fun t ht hread => ?_
    rw [hk] at hread ht ⊢
    rw [hk] at hok
    exact hok t ht hread

/-! ### Program headers -/

/-- The user pages are the call's own. -/
def Owned (d : Pgdir) (s : Vm) : Prop :=
  ∀ m < userPages, (d.pte (m * PGSIZE)).p = true → (d.pte (m * PGSIZE)).frame ∈ s.taken

/-- What has been asked for so far is either there, and `rest` is still to be asked for, or
a page is lost. -/
inductive Progress (needs rest : List Need) (s : Vm) (d : Pgdir) (t : Vm) (d' : Pgdir) : Prop where
  | going (hneed : needs[s.granted]? = rest[t.granted]?)
      (hacct : t.free + d'.held = s.free + d.held)
  | lost (hneed : needs[s.granted]? = some .table) (hacct : t.free + d'.held < s.free + d.held)

namespace Progress

variable {needs mid rest : List Need}

theorem le (h : Progress needs rest s d t d') : t.free + d'.held ≤ s.free + d.held := by
  cases h with
  | going _ hacct => exact hacct.le
  | lost _ hacct => exact hacct.le

theorem none (h : Progress needs rest s d t d') (hneed : needs[s.granted]? = none) :
    rest[t.granted]? = none := by
  cases h with
  | going hneed' _ => rw [← hneed', hneed]
  | lost hneed' _ =>
      rw [hneed] at hneed'
      cases hneed'

theorem trans (h : Progress needs mid s d t d') (h' : Progress mid rest t d' u d'') :
    Progress needs rest s d u d'' := by
  cases h with
  | lost hneed hacct => exact .lost hneed (h'.le.trans_lt hacct)
  | going hneed hacct =>
      cases h' with
      | going hneed' hacct' => exact .going (hneed.trans hneed') (hacct'.trans hacct)
      | lost hneed' hacct' => exact .lost (hneed.trans hneed') (hacct'.trans_eq hacct)

theorem balance {after : Multiset Frame} (h : Progress needs rest s d t d')
    (h' : Balance rest[t.granted]? after (t.free + d'.held)) :
    Balance needs[s.granted]? after (s.free + d.held) := by
  cases h with
  | lost hneed hacct => exact Balance.of_lt hneed (h'.le.trans_lt hacct)
  | going hneed hacct =>
      rw [hneed]
      exact h'.trans_eq hacct

/-- Nothing has been asked for. -/
theorem of_stores {P : Prop} (h : Stores P s t) (hheld : d'.held = d.held) :
    Progress needs needs s d t d' := by
  refine .going ?_ ?_
  · rw [h.granted]
  · rw [h.free, hheld]

end Progress

namespace Alloc

variable {oldsz newsz r : ℕ}

/-- After a success of `allocuvm` the rest is to be asked for. -/
theorem progress (h : Alloc oldsz newsz s d t d' r) (hr : r ≠ 0) {rest rest' : List Need}
    (hrest : d'.has = allocHas d.has oldsz newsz → r = allocSize oldsz newsz → rest = rest') :
    Progress (allocNeeds d.has oldsz newsz ++ rest) rest' s d t d' := by
  have hbal := h.balance
  cases hn : (allocNeeds d.has oldsz newsz)[s.granted]? with
  | none =>
      rw [hn] at hbal
      refine .going ?_ (by simpa [Balance] using hbal)
      rw [h.granted hn, Nat.add_comm, List.getElem?_append_right (Nat.le_add_right _ _),
        Nat.add_sub_cancel_left, hrest (h.has hn) (h.size hn)]
  | some need =>
      have hlt := (List.getElem?_eq_some_iff.mp hn).1
      cases need with
      | page => exact absurd (h.refused hn) hr
      | table =>
          rw [hn] at hbal
          refine .lost ?_ (by simpa [Balance] using hbal)
          rw [List.getElem?_append_left hlt, hn]

/-- After a success of `allocuvm` everything is there, unless a page was lost. -/
theorem served_of_ne (h : Alloc oldsz newsz s d t d' r) (hr : r ≠ 0)
    (hneed : (allocNeeds d.has oldsz newsz)[s.granted]? ≠ some .table) :
    (allocNeeds d.has oldsz newsz)[s.granted]? = none := by
  cases hn : (allocNeeds d.has oldsz newsz)[s.granted]? with
  | none => rfl
  | some need =>
      cases need with
      | page => exact absurd (h.refused hn) hr
      | table => exact absurd hn hneed

theorem owned (h : Alloc oldsz newsz s d t d' r)
    (hn : (allocNeeds d.has oldsz newsz)[s.granted]? = none) (hd : Owned d s) : Owned d' t := by
  rw [allocNeeds] at hn
  cases h with
  | tooBig _ ht hd' => rwa [ht, hd']
  | smaller _ _ ht hd' => rwa [ht, hd']
  | grows hnew hle h =>
      rw [if_neg (by omega)] at hn
      obtain ⟨-, hs⟩ := h.served hn
      intro m hm hp
      by_cases hin : pageUp oldsz ≤ m ∧ m < pageUp oldsz + (pageUp newsz - pageUp oldsz)
      · exact (hs.pages m hin.1 hin.2).2.2
      · rw [hs.others m (hm.trans userPages_lt) (by omega)] at hp ⊢
        exact h.taken _ (hd m hm hp)

/-- A size that `allocuvm` returns is not too large. -/
theorem bound (h : Alloc oldsz newsz s d t d' r) (hold : oldsz ≤ KERNBASE) : r ≤ KERNBASE := by
  cases h with
  | tooBig _ _ _ hr => exact hr ▸ Nat.zero_le _
  | smaller _ _ _ _ hr => exact hr ▸ hold
  | grows hnew _ h =>
      rcases h.size with hr | hr
      · exact hr ▸ Nat.zero_le _
      · exact hr ▸ hnew.le

/-- After a failure of `allocuvm` nothing more is asked for. -/
theorem balance_append (h : Alloc oldsz newsz s d t d' r) {rest : List Need}
    (hrest : allocSize oldsz newsz = 0 → rest = []) (hr : r = 0) :
    Balance (allocNeeds d.has oldsz newsz ++ rest)[s.granted]? (t.free + d'.held)
      (s.free + d.held) := by
  have hbal := h.balance
  cases hn : (allocNeeds d.has oldsz newsz)[s.granted]? with
  | none =>
      rw [hrest (by rw [← h.size hn, hr]), List.append_nil]
      exact hbal
  | some need =>
      have hlt := (List.getElem?_eq_some_iff.mp hn).1
      rw [List.getElem?_append_left hlt]
      exact hbal

end Alloc

/-- The ways in which `exec` can panic. -/
structure ExecPanics (E : VmStop → Prop) : Prop where
  remap : E (.panic .remap)
  kfree : E (.panic .kfree)
  aligned : E (.panic .loaduvmAligned)
  address : E (.panic .loaduvmAddress)
  clearpteu : E (.panic .clearpteu)

/-- The memory of a process of this size is there, and the user can access it. -/
structure UserSpace (d : Pgdir) (sz : ℕ) : Prop extends Space d sz where
  access : ∀ m, m * PGSIZE < sz → (d.pte (m * PGSIZE)).u = true

theorem Space.userSpace (h : Space d 0) : UserSpace d 0 where
  toSpace := h
  access := fun _ hm => absurd hm (Nat.not_lt_zero _)

theorem Space.hasTable {sz m : ℕ} (h : Space d sz) (hm : m * PGSIZE < sz) :
    d.hasTable (m * PGSIZE) = true := by
  by_contra hno
  have hp := h.present m hm
  rw [Pgdir.pte_of_not_hasTable (by simpa using hno)] at hp
  cases hp

theorem Space.tables {sz : ℕ} (h : Space d sz) : Tables d sz := fun _ => h.hasTable

theorem Space.ownBelow {sz : ℕ} (h : Space d sz) (hd : Owned d s) : OwnBelow d sz s :=
  fun m hm => hd m (h.page_lt hm) (h.present m hm)

/-- The user can access what `allocuvm` has added. -/
theorem Alloc.user {oldsz newsz r m : ℕ} (h : Alloc oldsz newsz s d t d' r)
    (hn : (allocNeeds d.has oldsz newsz)[s.granted]? = none) (hr : r ≠ 0)
    (hlo : oldsz ≤ m * PGSIZE) (hhi : m * PGSIZE < r) : (d'.pte (m * PGSIZE)).u = true := by
  rw [allocNeeds] at hn
  cases h with
  | tooBig _ _ _ hzero => exact absurd hzero hr
  | smaller _ _ _ _ hsame => omega
  | grows hnew hle h =>
      rw [if_neg (by omega)] at hn
      obtain ⟨hsize, hs⟩ := h.served hn
      have hlast := lt_pageUp_iff.mpr (hsize ▸ hhi)
      exact (hs.pages m (pageUp_le_iff.mpr hlo) (by omega)).2.1

/-- `allocuvm` makes the memory larger when it gets all that it asks for. -/
theorem Alloc.userSpace {oldsz newsz r : ℕ} (h : Alloc oldsz newsz s d t d' r)
    (hd : UserSpace d oldsz) (hn : (allocNeeds d.has oldsz newsz)[s.granted]? = none)
    (hr : r ≠ 0) : UserSpace d' r where
  toSpace := by
    have hspace := h.space hd.toSpace (by rw [hn]; simp)
    rwa [if_neg hr] at hspace
  access := fun m hm => by
    by_cases hlt : m * PGSIZE < oldsz
    swap
    · exact h.user hn hr (Nat.not_lt.mp hlt) hm
    rw [allocNeeds] at hn
    cases h with
    | tooBig _ _ _ hzero => exact absurd hzero hr
    | smaller _ _ _ hd' hsame =>
        rw [hd']
        exact hd.access m hlt
    | grows hnew hle h =>
        rw [if_neg (by omega)] at hn
        obtain ⟨-, hs⟩ := h.served hn
        rw [hs.others m ((hd.page_lt hlt).trans userPages_lt) (.inl (lt_pageUp_iff.mpr hlt))]
        exact hd.access m hlt

/-- Nothing can go wrong in `loadSegments`. -/
structure SegmentsSafe (file : Reader) (n off : ℕ) (s : Vm) (d : Pgdir) (sz : ℕ) : Prop where
  needs : (segmentNeeds file n off d.has sz s.nread)[s.granted]? ≠ some .table
  space : Space d sz
  owned : Owned d s
  sound : Sound s d
  fate : segmentFate file (fun _ _ _ => .safe) n off d.has sz s.nread s.granted = .safe

/-- The end is this one unless `exec` goes astray; the memory is there until then. -/
def Follows (fate rest : Fate) (d : Pgdir) (sz : ℕ) (d' : Pgdir) (sz' : ℕ) : Prop :=
  fate = .astray ∨ fate = rest ∧ (UserSpace d sz → UserSpace d' sz')

/-- What `loadSegments` has done in the end; nothing has gone wrong where `safe` holds. -/
structure Loaded (safe : Prop) (needs : List Need) (fate : Continuation → Fate) (sz : ℕ) (s : Vm)
    (d : Pgdir) (t : Vm) (d' : Pgdir) (r : Option ℕ) : Prop where
  link : t.link = s.link
  unread : t.unread = s.unread
  kernel : KernelSame d d'
  has : ∀ i, d.has i = true → d'.has i = true
  bound : sz ≤ KERNBASE → ∀ sz ∈ r, sz ≤ KERNBASE
  bad : r = none → Balance needs[s.granted]? (t.free + d'.held) (s.free + d.held)
  good : ∀ sz ∈ r, Progress needs (stackNeeds d'.has sz) s d t d'
  fatal : r = none → ∀ cont, fate cont ≠ .fatal
  follows : ∀ sz' ∈ r, ∀ cont, Follows (fate cont) (cont d'.has sz' t.granted) d sz d' sz'
  space : needs[s.granted]? ≠ some .table → UserSpace d sz → ∀ sz ∈ r, UserSpace d' sz
  stray : safe → t.stray = s.stray
  owned : safe → ∀ sz ∈ r, Owned d' t

/-- A part of `loadSegments` that is done. -/
structure LoadStep (safe safe' : Prop) (needs rest : List Need) (fate fate' : Continuation → Fate)
    (sz sz' : ℕ) (s : Vm) (d : Pgdir) (t : Vm) (d' : Pgdir) : Prop where
  link : t.link = s.link
  unread : t.unread = s.unread
  kernel : KernelSame d d'
  has : ∀ i, d.has i = true → d'.has i = true
  bound : sz ≤ KERNBASE → sz' ≤ KERNBASE
  progress : Progress needs rest s d t d'
  follows : ∀ cont, Follows (fate cont) (fate' cont) d sz d' sz'
  space : needs[s.granted]? ≠ some .table → UserSpace d sz → UserSpace d' sz'
  stray : safe → t.stray = s.stray
  safe : safe → safe'

namespace Loaded

variable {safe safe' : Prop} {needs rest : List Need} {fate fate' : Continuation → Fate}
  {r : Option ℕ} {sz sz' : ℕ}

theorem trans (h' : Loaded safe' rest fate' sz' t d' u d'' r)
    (h : LoadStep safe safe' needs rest fate fate' sz sz' s d t d') :
    Loaded safe needs fate sz s d u d'' r where
  link := h'.link.trans h.link
  unread := h'.unread.trans h.unread
  kernel := h.kernel.trans h'.kernel
  has := fun i hi => h'.has i (h.has i hi)
  bound := fun hsz => h'.bound (h.bound hsz)
  bad := fun hr => h.progress.balance (h'.bad hr)
  good := fun sz hsz => h.progress.trans (h'.good sz hsz)
  fatal := fun hr cont => by
    rcases h.follows cont with hastray | ⟨hnext, -⟩
    · simp [hastray]
    · rw [hnext]
      exact h'.fatal hr cont
  follows := fun sz hsz cont => by
    rcases h.follows cont with hastray | ⟨hnext, hspace⟩
    · exact .inl hastray
    · rw [hnext]
      exact (h'.follows sz hsz cont).imp_right fun h => ⟨h.1, fun hd => h.2 (hspace hd)⟩
  space := fun hneed hd => by
    refine h'.space (fun hrest => hneed ?_) (h.space hneed hd)
    cases h.progress with
    | going hneed' _ => rw [hneed', hrest]
    | lost hneed' _ => exact hneed'
  stray := fun hs => (h'.stray (h.safe hs)).trans (h.stray hs)
  owned := fun hs => h'.owned (h.safe hs)

/-- `goto bad`, when nothing more is asked for. -/
theorem of_bad (hlink : t.link = s.link) (hunread : t.unread = s.unread)
    (hkernel : KernelSame d d') (hhas : ∀ i, d.has i = true → d'.has i = true)
    (hbal : Balance needs[s.granted]? (t.free + d'.held) (s.free + d.held))
    (hfatal : ∀ cont, fate cont ≠ .fatal) (hstray : safe → t.stray = s.stray) :
    Loaded safe needs fate sz s d t d' none :=
  ⟨hlink, hunread, hkernel, hhas, by simp, fun _ => hbal, by simp, fun _ => hfatal, by simp,
    by simp, hstray, by simp⟩

end Loaded

section Header

variable {n off sz r : ℕ}

/-- How `exec` ends from a program header on, which is read next. -/
def fateFrom (file : Reader) (n off : ℕ) (s : Vm) (d : Pgdir) (sz : ℕ) (cont : Continuation) : Fate :=
  segmentFate file cont n off d.has sz s.nread s.granted

/-- A header that is not one of a segment to be loaded is passed over. -/
theorem loadStep_other (ht : Stores True s t) (hnread : t.nread = s.nread + 1)
    (hread : HeaderRead file s.nread off)
    (htype : (headerAt file s.nread off).type ≠ ELF_PROG_LOAD) :
    LoadStep (SegmentsSafe file (n + 1) off s d sz)
      (SegmentsSafe file n (uint (off + sizeofProghdr)) t d sz)
      (segmentNeeds file (n + 1) off d.has sz s.nread)
      (segmentNeeds file n (uint (off + sizeofProghdr)) d.has sz t.nread)
      (fateFrom file (n + 1) off s d sz) (fateFrom file n (uint (off + sizeofProghdr)) t d sz)
      sz sz s d t d := by
  have hfate : ∀ cont, fateFrom file (n + 1) off s d sz cont =
      fateFrom file n (uint (off + sizeofProghdr)) t d sz cont := fun cont => by
    rw [fateFrom, fateFrom, segmentFate_other hread htype, hnread, ht.granted]
  rw [segmentNeeds_other hread htype, hnread]
  refine ⟨ht.link, ht.unread, fun _ _ _ => rfl, fun _ => id, id, .of_stores ht rfl,
    fun cont => .inr ⟨hfate cont, id⟩, fun _ => id,
    fun _ => ht.stray trivial, fun hs => ⟨?_, hs.space, fun m hm hp => ?_, hs.sound.mono ht.link ?_,
      ?_⟩⟩
  · have hneeds := hs.needs
    rwa [segmentNeeds_other hread htype, ← hnread, ← ht.granted] at hneeds
  · rw [ht.taken]
    exact hs.owned m hm hp
  · rw [ht.free]
  · exact (hfate _).symm.trans hs.fate

/-- What is known about a segment once `allocuvm` has got all that it asks for. -/
theorem fateFrom_load {cont : Continuation} (ht : Stores True s t) (hl : IsLoad file s.nread off)
    (ha : Alloc sz (segmentEnd (headerAt file s.nread off)) t d u d' r) (hr : r ≠ 0)
    (hserved : (allocNeeds d.has sz (segmentEnd (headerAt file s.nread off)))[t.granted]? = none) :
    fateFrom file (n + 1) off s d sz cont =
      (segmentLoad file s.nread d'.has r (headerAt file s.nread off)).andThen
        (if (segmentReads file s.nread (headerAt file s.nread off)).1 = true then
          segmentFate file cont n (uint (off + sizeofProghdr)) d'.has r
            (segmentReads file s.nread (headerAt file s.nread off)).2 u.granted
        else .safe) := by
  have hcount : t.granted - (allocNeeds d.has sz (segmentEnd (headerAt file s.nread off))).length =
      u.granted := by
    rw [ha.granted hserved, Nat.add_sub_cancel]
  rw [fateFrom, segmentFate_load hl, ← ht.granted, hserved, hcount, ← ha.has hserved,
    ← ha.size hserved, Fate.afterAlloc, if_neg hr]

/-- Before `allocuvm` has got all that it asks for, `exec` may be astray but does not stop. -/
theorem fateFrom_refused {cont : Continuation} {need : Need} (ht : Stores True s t)
    (hl : IsLoad file s.nread off)
    (hneed : (allocNeeds d.has sz (segmentEnd (headerAt file s.nread off)))[t.granted]? =
      some need) :
    fateFrom file (n + 1) off s d sz cont = .afterAlloc (some need) .safe := by
  rw [fateFrom, segmentFate_load hl, ← ht.granted, hneed]
  exact Fate.afterAlloc_some _ _

/-- A failure of `allocuvm` is not fatal. -/
theorem fateFrom_ne_fatal {cont : Continuation} (ht : Stores True s t)
    (hl : IsLoad file s.nread off)
    (ha : Alloc sz (segmentEnd (headerAt file s.nread off)) t d u d' r) (hr : r = 0) :
    fateFrom file (n + 1) off s d sz cont ≠ .fatal := by
  cases hneed : (allocNeeds d.has sz (segmentEnd (headerAt file s.nread off)))[t.granted]? with
  | some need =>
      rw [fateFrom_refused ht hl hneed]
      exact Fate.afterAlloc_ne_fatal _ _
  | none =>
      rw [fateFrom, segmentFate_load hl, ← ht.granted, hneed, Fate.afterAlloc,
        if_pos ((ha.size hneed).symm.trans hr)]
      simp

/-- A segment of which not everything is read is not fatal, where `loaduvm` is not. -/
theorem fateFrom_ne_fatal_of_unread {cont : Continuation} (ht : Stores True s t)
    (hl : IsLoad file s.nread off)
    (ha : Alloc sz (segmentEnd (headerAt file s.nread off)) t d u d' r) (hr : r ≠ 0)
    (hfatal : segmentLoad file s.nread d'.has r (headerAt file s.nread off) ≠ .fatal)
    (hfalse : ¬ (segmentReads file s.nread (headerAt file s.nread off)).1 = true) :
    fateFrom file (n + 1) off s d sz cont ≠ .fatal := by
  cases hneed : (allocNeeds d.has sz (segmentEnd (headerAt file s.nread off)))[t.granted]? with
  | some need =>
      rw [fateFrom_refused ht hl hneed]
      exact Fate.afterAlloc_ne_fatal _ _
  | none =>
      rw [fateFrom_load ht hl ha hr hneed, if_neg hfalse]
      cases hload : segmentLoad file s.nread d'.has r (headerAt file s.nread off) with
      | safe => simp [Fate.andThen]
      | fatal => exact absurd hload hfatal
      | astray => simp [Fate.andThen]

/-- Where nothing can go wrong, the segment lies in pages of the call. -/
structure Placed (file : Reader) (k : ℕ) (ph : Proghdr) (u : Vm) (d' : Pgdir) (r : ℕ) : Prop where
  space : Space d' r
  owned : Owned d' u
  load : segmentLoad file k d'.has r ph = .safe

theorem SegmentsSafe.alloc_served (hs : SegmentsSafe file (n + 1) off s d sz)
    (ht : Stores True s t) (hl : IsLoad file s.nread off)
    (ha : Alloc sz (segmentEnd (headerAt file s.nread off)) t d u d' r) (hr : r ≠ 0) :
    (allocNeeds d.has sz (segmentEnd (headerAt file s.nread off)))[t.granted]? = none := by
  refine ha.served_of_ne hr fun htable => hs.needs ?_
  rw [segmentNeeds_load hl, ← ht.granted,
    List.getElem?_append_left (List.getElem?_eq_some_iff.mp htable).1, htable]

theorem SegmentsSafe.placed (hs : SegmentsSafe file (n + 1) off s d sz) (ht : Stores True s t)
    (hl : IsLoad file s.nread off)
    (ha : Alloc sz (segmentEnd (headerAt file s.nread off)) t d u d' r) (hr : r ≠ 0) :
    Placed file s.nread (headerAt file s.nread off) u d' r := by
  have hserved := hs.alloc_served ht hl ha hr
  refine ⟨?_, ha.owned hserved fun m hm hp => ?_, ?_⟩
  · have h := ha.space hs.space (by rw [hserved]; simp)
    rwa [if_neg hr] at h
  · rw [ht.taken]
    exact hs.owned m hm hp
  · have hfate : fateFrom file (n + 1) off s d sz (fun _ _ _ => .safe) = .safe := hs.fate
    rw [fateFrom_load ht hl ha hr hserved] at hfate
    cases hload : segmentLoad file s.nread d'.has r (headerAt file s.nread off) with
    | safe => rfl
    | fatal =>
        rw [hload] at hfate
        cases hfate
    | astray =>
        rw [hload] at hfate
        cases hfate

/-- A segment is loaded. -/
theorem loadStep_load (ht : Stores True s t)
    (hl : IsLoad file s.nread off)
    (ha : Alloc sz (segmentEnd (headerAt file s.nread off)) t d u d' r) (hr : r ≠ 0) {v : Vm}
    (hv : Stores (segmentLoad file s.nread d'.has r (headerAt file s.nread off) = .safe ∧
      OwnBelow d' r u) u v)
    (hvread : v.nread = (segmentReads file s.nread (headerAt file s.nread off)).2)
    (hfatal : segmentLoad file s.nread d'.has r (headerAt file s.nread off) ≠ .fatal)
    (hloaded : (segmentReads file s.nread (headerAt file s.nread off)).1 = true) :
    LoadStep (SegmentsSafe file (n + 1) off s d sz)
      (SegmentsSafe file n (uint (off + sizeofProghdr)) v d' r)
      (segmentNeeds file (n + 1) off d.has sz s.nread)
      (segmentNeeds file n (uint (off + sizeofProghdr)) d'.has r v.nread)
      (fateFrom file (n + 1) off s d sz) (fateFrom file n (uint (off + sizeofProghdr)) v d' r)
      sz r s d v d' := by
  have hprogress : Progress (segmentNeeds file (n + 1) off d.has sz s.nread)
      (segmentNeeds file n (uint (off + sizeofProghdr)) d'.has r v.nread) s d v d' := by
    have hstart : Progress (segmentNeeds file (n + 1) off d.has sz s.nread)
        (segmentNeeds file (n + 1) off d.has sz s.nread) s d t d := .of_stores ht rfl
    rw [segmentNeeds_load hl] at hstart ⊢
    refine (hstart.trans (ha.progress hr fun hhas hsz => ?_)).trans (.of_stores hv rfl)
    rw [← hhas, ← hsz, if_pos ⟨hr, hloaded⟩, hvread]
  have hulink : u.link = s.link := ha.evolves.link.trans ht.link
  have hnext : segmentLoad file s.nread d'.has r (headerAt file s.nread off) = .safe →
      ∀ cont, (allocNeeds d.has sz (segmentEnd (headerAt file s.nread off)))[t.granted]? = none →
        fateFrom file (n + 1) off s d sz cont =
          fateFrom file n (uint (off + sizeofProghdr)) v d' r cont := fun hsafe cont hserved => by
    rw [fateFrom_load ht hl ha hr hserved, hsafe, Fate.andThen, if_pos hloaded, fateFrom, hvread,
      hv.granted]
  refine ⟨hv.link.trans hulink, hv.unread.trans (ha.evolves.unread.trans ht.unread), ha.kernel,
    fun i hi => ha.evolves.keeps i hi, ha.bound, hprogress, fun cont => ?_, fun hneed hd => ?_,
    fun hs => ?_, fun hs => ?_⟩
  · cases hneed : (allocNeeds d.has sz (segmentEnd (headerAt file s.nread off)))[t.granted]? with
    | some need =>
        cases need with
        | page => exact absurd (ha.refused hneed) hr
        | table => exact .inl (fateFrom_refused ht hl hneed)
    | none =>
        cases hload : segmentLoad file s.nread d'.has r (headerAt file s.nread off) with
        | fatal => exact absurd hload hfatal
        | astray =>
            refine .inl ?_
            rw [fateFrom_load ht hl ha hr hneed, hload]
            rfl
        | safe => exact .inr ⟨hnext hload cont hneed, fun hd => ha.userSpace hd hneed hr⟩
  · refine ha.userSpace hd (ha.served_of_ne hr fun htable => hneed ?_) hr
    rw [segmentNeeds_load hl, ← ht.granted,
      List.getElem?_append_left (List.getElem?_eq_some_iff.mp htable).1, htable]
  · have hplaced := hs.placed ht hl ha hr
    rw [hv.stray ⟨hplaced.load, hplaced.space.ownBelow hplaced.owned⟩, ha.evolves.stray,
      ht.stray trivial]
  · have hplaced := hs.placed ht hl ha hr
    refine ⟨fun htable => hs.needs ?_, hplaced.space, fun m hm hp => ?_,
      hs.sound.mono (hv.link.trans hulink) hprogress.le, ?_⟩
    · cases hprogress with
      | going hneed _ => rw [hneed, htable]
      | lost hneed _ => exact hneed
    · rw [hv.taken]
      exact hplaced.owned m hm hp
    · exact (hnext hplaced.load _ (hs.alloc_served ht hl ha hr)).symm.trans hs.fate

end Header

theorem wp_loadSegments {n off sz : ℕ} {Q : Pgdir × Option ℕ → Vm → Prop}
    (hE : ExecPanics E ∨ SegmentsSafe file n off s d sz)
    (hok : ∀ t d' r, Loaded (SegmentsSafe file n off s d sz)
      (segmentNeeds file n off d.has sz s.nread) (fateFrom file n off s d sz) sz s d t d' r →
        Q (d', r) t) :
    wp (loadSegments file n off d sz) Q E s := by
  induction n generalizing off sz s d Q with
  | zero =>
      refine wp_pure.mpr (hok s d (some sz) ⟨rfl, rfl, fun _ _ _ => rfl, fun _ => id, fun hsz => ?_,
        by simp, ?_, by simp, ?_, fun _ hd => ?_, fun _ => rfl, fun hs => ?_⟩)
      · rintro _ ⟨⟩
        exact hsz
      · rintro _ ⟨⟩
        exact .going rfl rfl
      · rintro _ ⟨⟩ cont
        exact .inr ⟨rfl, id⟩
      · rintro _ ⟨⟩
        exact hd
      · rintro _ ⟨⟩
        exact hs.owned
  | succ n ih =>
      have hsame : KernelSame d d := fun _ _ _ => rfl
      rw [loadSegments, wp_bind]
      refine wp_readi fun t ht hnread => ?_
      have hnothing : segmentNeeds file (n + 1) off d.has sz s.nread = [] →
          (∀ cont, fateFrom file (n + 1) off s d sz cont = .safe) →
          Q (d, none) t := fun hnil hsafe => hok t d none (.of_bad ht.link ht.unread hsame (fun _ => id)
            (Balance.of_eq (by simp [hnil]) (by rw [ht.free])) (fun cont => by simp [hsafe cont])
            fun _ => ht.stray trivial)
      rw [wp_ite, wp_pure]
      refine ⟨fun hshort => hnothing (segmentNeeds_bad hshort) fun _ => segmentFate_bad hshort,
        fun h32 => ?_⟩
      have hread : HeaderRead file s.nread off := not_not.mp h32
      change wp (if (headerAt file s.nread off).type ≠ ELF_PROG_LOAD then _ else _) Q E t
      rw [wp_ite]
      refine ⟨fun htype => ih (hE.imp_right fun hs =>
          (loadStep_other ht hnread hread htype).safe hs) fun u d' r h =>
            hok u d' r (h.trans (loadStep_other ht hnread hread htype)), fun htype => ?_⟩
      rw [wp_ite, wp_pure]
      refine ⟨fun hsize => hnothing (segmentNeeds_small hread htype hsize) fun _ =>
        segmentFate_small hread htype hsize, fun hsize => ?_⟩
      have hl : IsLoad file s.nread off := ⟨hread, not_not.mp htype, Nat.not_lt.mp hsize⟩
      rw [wp_bind]
      refine wp_allocuvm (hE.imp ExecPanics.remap fun hs => hs.space.above_of_lt)
        (hE.imp ExecPanics.kfree fun hs => hs.sound.mono ht.link (by rw [ht.free]))
        fun u d' r ha => ?_
      have hulink : u.link = s.link := ha.evolves.link.trans ht.link
      have huread : u.unread = s.unread := ha.evolves.unread.trans ht.unread
      have hustray : u.stray = s.stray := ha.evolves.stray.trans (ht.stray trivial)
      have hstart : Progress (segmentNeeds file (n + 1) off d.has sz s.nread)
          (segmentNeeds file (n + 1) off d.has sz s.nread) s d t d := .of_stores ht rfl
      rw [wp_ite, wp_pure]
      refine ⟨fun hr => hok u d' none (.of_bad hulink huread ha.kernel (fun i hi =>
        ha.evolves.keeps i hi) (hstart.balance ?_) (fun cont => ?_) fun _ => hustray), fun hr => ?_⟩
      · rw [segmentNeeds_load hl]
        exact ha.balance_append (fun hzero => if_neg fun hand => hand.1 hzero) hr
      · exact fateFrom_ne_fatal ht hl ha hr
      rw [wp_bind]
      have hplaced := fun hs : SegmentsSafe file (n + 1) off s d sz => hs.placed ht hl ha hr
      have hnread' : u.nread = s.nread + 1 := ha.evolves.nread.trans hnread
      refine wp_loaduvm hnread' (hE.imp (fun hp => ⟨hp.aligned, hp.address⟩) fun hs =>
        ⟨(hplaced hs).space.tables, (hplaced hs).load⟩) fun v hv hvread hfatal => ?_
      rw [wp_ite, wp_pure]
      refine ⟨fun hloaded => ?_, fun hfalse => hok v d' none (.of_bad (hv.link.trans hulink)
        (hv.unread.trans huread) ha.kernel (fun i hi => ha.evolves.keeps i hi) ?_ (fun cont => ?_)
        fun hs => ?_)⟩
      · have hstep := loadStep_load (n := n) ht hl ha hr hv hvread hfatal hloaded
        exact ih (hE.imp_right hstep.safe) fun x d'' r' h' => hok x d'' r' (h'.trans hstep)
      · rw [hv.free]
        refine hstart.balance ?_
        rw [segmentNeeds_load hl]
        exact (ha.progress hr fun _ _ => if_neg fun hand => hfalse hand.2).balance
          (Balance.of_eq (by simp) rfl)
      · exact fateFrom_ne_fatal_of_unread ht hl ha hr hfatal hfalse
      · exact (hv.stray ⟨(hplaced hs).load,
          (hplaced hs).space.ownBelow (hplaced hs).owned⟩).trans hustray

/-! ### The stack -/

/-- The user can access the page of an address. -/
def Accessible (d : Pgdir) (va : ℕ) : Prop := (d.pte va).p = true ∧ (d.pte va).u = true

/-- The pages that the user can access are the call's own. -/
def OwnPages (d : Pgdir) (s : Vm) : Prop :=
  ∀ m < numPages, Accessible d (m * PGSIZE) → (d.pte (m * PGSIZE)).frame ∈ s.taken

/-- The memory of a process that ends with a guard page and a page for the stack. -/
structure Guarded (d : Pgdir) (size : ℕ) : Prop where
  tables : Tables d size
  accessible : ∀ m < numPages, Accessible d (m * PGSIZE) ↔
    m * PGSIZE < size ∧ m * PGSIZE ≠ size - 2 * PGSIZE

theorem wp_uva2ka {va : ℕ} {Q : Option Frame → Vm → Prop}
    (hnull : E .nullPtr ∨ d.hasTable va = true)
    (hnone : d.hasTable va = true → ¬ Accessible d va → Q none s)
    (hsome : Accessible d va → Q (some (d.pte va).frame) s) :
    wp (uva2ka d va) Q E s := by
  rw [uva2ka, wp_bind]
  cases hhas : d.hasTable va with
  | false =>
      rw [wp_walkpgdir_null hhas]
      dsimp only
      rw [wp_throw]
      exact hnull.resolve_right (by rw [hhas]; simp)
  | true =>
      rw [wp_walkpgdir_found hhas]
      dsimp only
      rw [wp_ite, wp_pure, wp_pure, Bool.and_eq_true]
      exact ⟨hsome, hnone hhas⟩

theorem wp_copyoutLoop {fuel va size : ℕ} {buf : List UInt8} {Q : Bool → Vm → Prop}
    (hva : va < 2 ^ 32)
    (hnull : E .nullPtr ∨ Guarded d size ∧ copied d.has size fuel va buf.length ≠ none)
    (hok : ∀ t b, Stores (OwnPages d s) s t → t.nread = s.nread →
      (Guarded d size → copied d.has size fuel va buf.length = some b) → Q b t) :
    wp (copyoutLoop d fuel va buf) Q E s := by
  induction fuel generalizing va buf s with
  | zero => exact wp_pure.mpr (hok s true Stores.refl rfl fun _ => rfl)
  | succ fuel ih =>
      rw [copyoutLoop, wp_ite, wp_pure]
      refine ⟨fun hnil => hok s true Stores.refl rfl fun _ => if_pos (by simp [hnil]),
        fun hne => ?_⟩
      have hlen : ¬ buf.length = 0 := (List.length_pos_iff.mpr hne).ne'
      have hm : va / PGSIZE < numPages := by
        rw [numPages_eq, PGSIZE_eq]
        omega
      rw [wp_bind]
      refine wp_uva2ka (hnull.imp_right fun h => ?_) (fun htable hno => wp_pure.mpr
        (hok s false Stores.refl rfl fun hg => ?_)) fun hacc => ?_
      · obtain ⟨hg, hnone⟩ := h
        by_contra htable
        rw [Bool.not_eq_true] at htable
        rw [copied, if_neg hlen] at hnone
        rcases Nat.lt_or_ge (PGROUNDDOWN va) size with hlt | hge
        · have hthere : d.hasTable (PGROUNDDOWN va) = true := hg.tables _ hlt
          rw [hthere] at htable
          cases htable
        · exact hnone (if_pos ⟨hge, htable⟩)
      · have hout : size ≤ PGROUNDDOWN va ∨ PGROUNDDOWN va = size - 2 * PGSIZE := by
          have hno' := (not_congr (hg.accessible _ hm)).mp hno
          rw [PGROUNDDOWN]
          omega
        have hhas : ¬ (size ≤ PGROUNDDOWN va ∧ d.has (PDX (PGROUNDDOWN va)) = false) := fun h => by
          have hno := htable.symm.trans h.2
          cases hno
        rw [copied, if_neg hlen, if_neg hhas, if_pos hout]
      · dsimp only
        rw [wp_bind, wp_get, wp_bind, wp_store]
        have hstore : ∀ x, Stores (OwnPages d s) s (s.store (d.pte (PGROUNDDOWN va)).frame x) :=
          fun x => Stores.store fun h => h _ hm hacc
        have hgo : Guarded d size → copied d.has size (fuel + 1) va buf.length = copied d.has size
            fuel (uint (PGROUNDDOWN va + PGSIZE))
              (buf.drop (min (PGSIZE - (va - PGROUNDDOWN va)) buf.length)).length := fun hg => by
          have hin : PGROUNDDOWN va < size ∧ PGROUNDDOWN va ≠ size - 2 * PGSIZE :=
            (hg.accessible _ hm).mp hacc
          have hfirst := Nat.not_le.mpr hin.1
          rw [copied, if_neg hlen, if_neg (not_and_of_not_left _ hfirst),
            if_neg (not_or.mpr ⟨hfirst, hin.2⟩), List.length_drop]
        refine ih (uint_lt _) (hnull.imp_right fun h => ⟨h.1, ?_⟩) fun t b ht hread hb =>
          hok t b ((hstore _).trans ht id) hread fun hg => (hgo hg).trans (hb hg)
        rw [← hgo h.1]
        exact h.2

theorem wp_copyout (size : ℕ) {va : ℕ} {buf : List UInt8} {Q : Bool → Vm → Prop} (hva : va < 2 ^ 32)
    (hnull : E .nullPtr ∨ Guarded d size ∧ copied d.has size buf.length va buf.length ≠ none)
    (hok : ∀ t b, Stores (OwnPages d s) s t → t.nread = s.nread →
      (Guarded d size → copied d.has size buf.length va buf.length = some b) → Q b t) :
    wp (copyout d va buf) Q E s :=
  wp_copyoutLoop hva hnull hok

theorem wp_pushArgs {argv : List (List UInt8)} {argc sp size : ℕ} {ustack : List ℕ}
    {Q : Option (ℕ × List ℕ) → Vm → Prop} (hustack : ustack.length = argc)
    (hnull : E .nullPtr ∨ Guarded d size ∧ pushFate d.has size argv argc sp ≠ .fatal)
    (hbad : ∀ t, Stores (OwnPages d s) s t → t.nread = s.nread →
      (Guarded d size → pushFate d.has size argv argc sp ≠ .fatal) → Q none t)
    (hok : ∀ t sp' args, Stores (OwnPages d s) s t → t.nread = s.nread →
      (Guarded d size → pushFate d.has size argv argc sp = pushFate d.has size [] args.length sp') →
      Q (some (sp', args)) t) :
    wp (pushArgs d argv argc sp ustack) Q E s := by
  induction argv generalizing argc sp ustack s with
  | nil => exact wp_pure.mpr (hok s sp ustack Stores.refl rfl fun _ => by rw [hustack])
  | cons str argv ih =>
      rw [pushArgs, wp_ite, wp_pure]
      refine ⟨fun hargc => hbad s Stores.refl rfl fun _ => ?_, fun hargc => ?_⟩
      · rw [pushFate, if_pos hargc]
        simp
      rw [pushFate, if_neg hargc] at hnull hbad hok
      change wp (copyout d (pushed sp str.length) (str ++ [0]) >>= fun b =>
        if b then pushArgs d argv (argc + 1) (pushed sp str.length)
          (ustack ++ [pushed sp str.length]) else pure none) Q E s
      have hva : pushed sp str.length < 2 ^ 32 :=
        (Nat.div_mul_le_self _ _).trans_lt (uint_lt _)
      have hlen : (str ++ [0]).length = str.length + 1 := by simp
      rw [wp_bind]
      refine wp_copyout size hva (hnull.imp_right fun h => ⟨h.1, fun hnone => ?_⟩)
        fun t b ht hread hb => ?_
      · rw [hlen] at hnone
        rw [hnone] at h
        exact h.2 rfl
      have hP : OwnPages d s → OwnPages d t := fun h m hm ha => by
        rw [ht.taken]
        exact h m hm ha
      rw [hlen] at hb
      cases b with
      | false => exact wp_pure.mpr (hbad t ht hread fun hg => by simp [hb hg])
      | true =>
          refine ih (by simp [hustack]) (hnull.imp_right fun h => ⟨h.1, ?_⟩)
            (fun u hu hread' hne => hbad u (ht.trans hu hP) (hread'.trans hread) fun hg => ?_)
            fun u sp' args hu hread' heq =>
              hok u sp' args (ht.trans hu hP) (hread'.trans hread) fun hg => ?_
          · have hne := h.2
            rwa [hb h.1] at hne
          · rw [hb hg]
            exact hne hg
          · rw [hb hg]
            exact heq hg

theorem length_uintBytes (l : List ℕ) : (l.flatMap uintBytes).length = l.length * 4 := by
  induction l with
  | nil => rfl
  | cons w l ih => simp [uintBytes, ih, Nat.add_mul, Nat.add_comm]

theorem wp_pushStack (size : ℕ) {argv : List (List UInt8)} {sz : ℕ} {Q : Option ℕ → Vm → Prop}
    (hnull : E .nullPtr ∨ Guarded d size ∧ pushFate d.has size argv 0 sz ≠ .fatal)
    (hok : ∀ t r, Stores (OwnPages d s) s t → t.nread = s.nread →
      (Guarded d size → pushFate d.has size argv 0 sz ≠ .fatal) → Q r t) :
    wp (pushStack d argv sz) Q E s := by
  rw [pushStack, wp_bind]
  refine wp_pushArgs rfl hnull (fun t ht hread hne => wp_pure.mpr (hok t none ht hread hne))
    fun t sp args ht hread heq => ?_
  have hP : OwnPages d s → OwnPages d t := fun h m hm ha => by
    rw [ht.taken]
    exact h m hm ha
  have hlen : ∀ w : List ℕ, w.length = 3 →
      ((w ++ args ++ [0]).flatMap uintBytes).length = (3 + args.length + 1) * 4 := fun w hw => by
    rw [length_uintBytes, List.length_append, List.length_append, hw]
    rfl
  dsimp only
  rw [wp_bind]
  refine wp_copyout size (uint_lt _) (hnull.imp_right fun h => ⟨h.1, fun hnone => ?_⟩)
    fun u b hu hread' hb => ?_
  · have hne := h.2
    rw [hlen _ rfl] at hnone
    rw [heq h.1, pushFate] at hne
    exact hne (if_pos hnone)
  · have hne : Guarded d size → pushFate d.has size argv 0 sz ≠ .fatal := fun hg => by
      have hb' := hb hg
      rw [hlen _ rfl] at hb'
      have hsome : ¬ copied d.has size ((3 + args.length + 1) * 4) (pushedLast sp args.length)
          ((3 + args.length + 1) * 4) = none := fun hnone => by
        have hno := hb'.symm.trans hnone
        cases hno
      rw [heq hg, pushFate, if_neg hsome]
      simp
    rw [wp_ite, wp_pure, wp_pure]
    exact ⟨fun _ => hok u _ (ht.trans hu hP) (hread'.trans hread) hne,
      fun _ => hok u _ (ht.trans hu hP) (hread'.trans hread) hne⟩

end Xv6
