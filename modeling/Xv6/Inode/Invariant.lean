import Xv6.Inode.Protocol

/-!
# The invariant of the inode cache

Each entry has its part (`EntryOk`) and each process its own (`StatusOk`); the entries
in use are for different inodes, and a freshly allocated inode is not visible in any
entry that can be locked. A step works on one entry, and `Inv.stepOn` says what is left
to check of it.
-/

namespace Xv6

namespace InodeSys

open Foundation

/-- The status concerns the fields of the entry `i`: it is being read or freed. -/
def About (i : Fin NINODE) : InodeStatus → Prop
  | .loading j => j = i
  | .freeing j _ => j = i
  | _ => False

/-- What holds of the copy `d` of an inode and of the inode `dip` on the disk, at each
stage of freeing it. -/
def FreeOk (d dip : Dinode) : FreeStage → Prop
  | .trunc => d = dip ∧ dip.type ≠ 0 ∧ dip.nlink = 0
  | .truncUpdate => d.type ≠ 0 ∧ d.nlink = 0 ∧ dip.type ≠ 0 ∧ dip.nlink = 0
  | .clear => dip.type ≠ 0 ∧ dip.nlink = 0
  | .freeUpdate => dip.type ≠ 0 ∧ dip.nlink = 0
  | .finish => True

structure EntryOk (s : InodeSys) (i : Fin NINODE) : Prop where
  /-- `ref` counts the references, those being given up included -/
  count : (s.ip i).ref = (s.refs i).length + s.putting i
  /-- whoever uses the entry has a reference to rely on -/
  users : ∀ u ∈ s.users i, u.2 ∈ s.refs i
  alone : ∀ p q, s.holds p i = true → s.holds q i = true → p = q
  busy : (s.ip i).busy = true ↔ ∃ p, s.holds p i = true
  holder : ∀ p, s.holds p i = true →
    (∃ stage, s.status p = .freeing i stage) ∨ ∃ h, (p, h) ∈ s.users i
  putting : s.putting i ≠ 0 → s.putting i = 1 ∧ ∃ p stage, s.status p = .freeing i stage
  locked : ∀ p, s.holds p i = true → s.status p ≠ .loading i → (s.ip i).valid = true
  /-- an entry that nobody is reading or freeing agrees with the inode on the disk -/
  agrees : (s.ip i).ref > 0 → (s.ip i).valid = true → (∀ p, ¬ About i (s.status p)) →
    (s.ip i).d.type = (s.dip i).type ∧ (s.dip i).type ≠ 0 ∧
      (s.changed i = false → (s.ip i).d = s.dip i)
  changed : s.changed i = true → ∃ p, s.holds p i = true ∧ ¬ About i (s.status p)

/-- What the status of a process says about the entry that it is concerned with. -/
def StatusOk (s : InodeSys) (p : Pid) : InodeStatus → Prop
  | .waiting i => ∃ h, (p, h) ∈ s.users i
  | .sleeping i => ∃ h, (p, h) ∈ s.users i
  | .loading i => s.holds p i = true ∧ (∃ h, (p, h) ∈ s.users i) ∧
      (s.panicked = none → (s.ip i).valid = true → (s.ip i).d = s.dip i ∧ (s.dip i).type ≠ 0)
  | .freeing i stage => s.holds p i = true ∧ s.putting i = 1 ∧ FreeOk (s.ip i).d (s.dip i) stage
  | .scanning _ _ type _ => type ≠ 0
  | _ => True

/-- The fresh inode is on the disk, and no entry shows anything else: an entry with
`I_VALID` set is one whose flags the `iput` that freed the inode is about to clear. -/
def FreshOk (s : InodeSys) (dev inum : ℕ) (d : Dinode) : Prop :=
  s.disk dev inum = d ∧ d.type ≠ 0 ∧ ∀ i, (s.ip i).Names dev inum →
    (s.ip i).valid = true → ∃ p, s.status p = .freeing i .finish

structure Inv (s : InodeSys) : Prop where
  entry : ∀ i, s.EntryOk i
  unique : ∀ i j, (s.ip i).ref > 0 → (s.ip j).Names (s.ip i).dev (s.ip i).inum → j = i
  status : ∀ p, s.StatusOk p (s.status p)
  fresh : ∀ dev inum d, s.fresh dev inum = some d → s.FreshOk dev inum d
  panics : s.panicked = none ∨ s.panicked = some .igetNoInodes ∨
    s.panicked = some .iallocNoInodes ∨ s.panicked = some .ilockNoType

theorem inv_init (ninodes : ℕ) (disk : ℕ → ℕ → Dinode) : Inv (init ninodes disk) where
  entry := fun i => by
    constructor <;> simp [init]
  unique := by simp [init]
  status := by simp [init, StatusOk]
  fresh := by simp [init]
  panics := .inl rfl

/-- Everything about the entry `j` is as before. -/
structure SameAt (j : Fin NINODE) (s t : InodeSys) : Prop where
  ip : t.ip j = s.ip j
  refs : t.refs j = s.refs j
  users : t.users j = s.users j
  putting : t.putting j = s.putting j
  changed : t.changed j = s.changed j
  holds : ∀ p, t.holds p j = s.holds p j
  status : ∀ p st, About j st → (t.status p = st ↔ s.status p = st)
  dip : (s.ip j).ref > 0 → t.dip j = s.dip j

section Frame

variable {s t : InodeSys}

theorem about_iff {i : Fin NINODE} {st : InodeStatus} :
    About i st ↔ st = .loading i ∨ ∃ stage, st = .freeing i stage := by
  cases st <;> simp [About, eq_comm]

theorem SameAt.about {j : Fin NINODE} (h : SameAt j s t) (p : Pid) :
    About j (t.status p) ↔ About j (s.status p) := by
  constructor
  · intro ha
    have heq := (h.status p _ ha).mp rfl
    rwa [heq]
  · intro ha
    have heq := (h.status p _ ha).mpr rfl
    rwa [heq]

theorem SameAt.entryOk {j : Fin NINODE} (h : SameAt j s t) (hs : s.EntryOk j) : t.EntryOk j where
  count := by rw [h.ip, h.refs, h.putting]; exact hs.count
  users := by rw [h.users, h.refs]; exact hs.users
  alone := by
    intro p q hp hq
    rw [h.holds] at hp hq
    exact hs.alone p q hp hq
  busy := by
    rw [h.ip, hs.busy]
    simp only [h.holds]
  holder := by
    intro p hp
    rw [h.holds] at hp
    rw [h.users]
    exact (hs.holder p hp).imp_left fun ⟨stage, hst⟩ =>
      ⟨stage, (h.status p (.freeing j stage) rfl).mpr hst⟩
  putting := by
    rw [h.putting]
    intro hp
    obtain ⟨h₁, p, stage, hst⟩ := hs.putting hp
    exact ⟨h₁, p, stage, (h.status p (.freeing j stage) rfl).mpr hst⟩
  locked := by
    intro p hp hst
    rw [h.holds] at hp
    rw [h.ip]
    exact hs.locked p hp fun heq => hst ((h.status p (.loading j) rfl).mpr heq)
  agrees := by
    intro hr hv ha
    rw [h.ip] at hr hv ⊢
    rw [h.dip hr, h.changed]
    exact hs.agrees hr hv fun p hp => ha p ((h.about p).mpr hp)
  changed := by
    intro hc
    rw [h.changed] at hc
    obtain ⟨p, hp, ha⟩ := hs.changed hc
    exact ⟨p, (h.holds p).trans hp, fun ha' => ha ((h.about p).mp ha')⟩

/-- The status of a process stays right if what it uses and what it holds stays. -/
theorem StatusOk.frame {p : Pid} {st : InodeStatus} (h : s.StatusOk p st)
    (hpanic : t.panicked = none → s.panicked = none)
    (husers : ∀ j h, (p, h) ∈ s.users j → (p, h) ∈ t.users j)
    (hholds : ∀ j, s.holds p j = true → About j st → t.holds p j = true ∧
      (t.ip j).valid = (s.ip j).valid ∧ (t.ip j).d = (s.ip j).d ∧ t.dip j = s.dip j ∧
      t.putting j = s.putting j) : t.StatusOk p st := by
  cases st with
  | idle => trivial
  | waiting i =>
      obtain ⟨g, hg⟩ := h
      exact ⟨g, husers i g hg⟩
  | sleeping i =>
      obtain ⟨g, hg⟩ := h
      exact ⟨g, husers i g hg⟩
  | loading i =>
      obtain ⟨hi, ⟨g, hg⟩, hv⟩ := h
      obtain ⟨h₁, h₂, h₃, h₄, -⟩ := hholds i hi rfl
      refine ⟨h₁, ⟨g, husers i g hg⟩, ?_⟩
      rw [h₂, h₃, h₄]
      exact fun hp => hv (hpanic hp)
  | freeing i stage =>
      obtain ⟨hi, hput, hfree⟩ := h
      obtain ⟨h₁, -, h₃, h₄, h₅⟩ := hholds i hi rfl
      refine ⟨h₁, h₅.trans hput, ?_⟩
      rw [h₃, h₄]
      exact hfree
  | scanning g dev type inum => exact h
  | allocated g dev inum => trivial

end Frame

namespace Inv

variable {s t : InodeSys}

/-- A process that holds an entry uses it or is freeing it, so it is referenced. -/
theorem ref_pos_of_holds (h : Inv s) {p : Pid} {i : Fin NINODE} (hp : s.holds p i = true) :
    (s.ip i).ref > 0 := by
  have he := h.entry i
  rw [he.count]
  rcases he.holder p hp with ⟨stage, hst⟩ | ⟨g, hg⟩
  · have hok := h.status p
    rw [hst] at hok
    have hput : s.putting i = 1 := hok.2.1
    omega
  · have hmem := he.users _ hg
    have hlen := List.length_pos_of_mem hmem
    omega

/-- Who is reading or freeing an entry holds it. -/
theorem holds_of_about (h : Inv s) {p : Pid} {i : Fin NINODE} (ha : About i (s.status p)) :
    s.holds p i = true := by
  have hok := h.status p
  rcases about_iff.mp ha with hst | ⟨stage, hst⟩
  · rw [hst] at hok
    exact hok.1
  · rw [hst] at hok
    exact hok.1

/-- An entry that a process works on, other than reading it or at the end of freeing
it, is not fresh. -/
theorem not_fresh (h : Inv s) {p : Pid} {i : Fin NINODE} (hp : s.holds p i = true)
    (hload : s.status p ≠ .loading i) (hfin : s.status p ≠ .freeing i .finish) :
    s.fresh (s.ip i).dev (s.ip i).inum = none := by
  cases hf : s.fresh (s.ip i).dev (s.ip i).inum with
  | none => rfl
  | some d =>
      have hvalid := (h.entry i).locked p hp hload
      obtain ⟨-, -, hnames⟩ := h.fresh _ _ _ hf
      obtain ⟨q, hq⟩ := hnames i ⟨h.ref_pos_of_holds hp, rfl, rfl⟩ hvalid
      have hqi : s.holds q i = true := h.holds_of_about (by rw [hq]; rfl)
      obtain rfl := (h.entry i).alone p q hp hqi
      exact absurd hq hfin

/-- Everything a step of the processes `own` on the entry `i` has to show. -/
theorem stepOn (h : Inv s) (own : Set Pid) {i : Fin NINODE}
    (hframe : ∀ j, j ≠ i → SameAt j s t) (hentry : t.EntryOk i)
    (hunique : (t.ip i).ref > 0 → ∀ j, j ≠ i → ¬ (s.ip j).Names (t.ip i).dev (t.ip i).inum)
    (hself : ∀ q ∈ own, t.StatusOk q (t.status q))
    (hothers : ∀ q ∉ own, t.status q = s.status q ∨
      s.status q = .sleeping i ∧ t.status q = .waiting i)
    (husers : ∀ q ∉ own, ∀ g, (q, g) ∈ s.users i → (q, g) ∈ t.users i)
    (hkeep : ∀ q ∉ own, s.holds q i = true → t.holds q i = true ∧
      (t.ip i).valid = (s.ip i).valid ∧ (t.ip i).d = (s.ip i).d ∧ t.dip i = s.dip i ∧
      t.putting i = s.putting i)
    (hpanic : t.panicked = none → s.panicked = none)
    (hfresh : ∀ dev inum d, t.fresh dev inum = some d → s.fresh dev inum = some d ∧
      t.disk dev inum = s.disk dev inum ∧ ((t.ip i).Names dev inum → (t.ip i).valid = true →
        ∃ q, t.status q = .freeing i .finish))
    (hpanics : t.panicked = none ∨ t.panicked = some .igetNoInodes ∨
      t.panicked = some .iallocNoInodes ∨ t.panicked = some .ilockNoType) : Inv t where
  entry := by
    intro j
    rcases eq_or_ne j i with rfl | hj
    · exact hentry
    · exact (hframe j hj).entryOk (h.entry j)
  unique := by
    intro j k hj hk
    rcases eq_or_ne j i with rfl | hji
    · by_contra hkj
      rw [(hframe k hkj).ip] at hk
      exact hunique hj k hkj hk
    · rw [(hframe j hji).ip] at hj hk
      rcases eq_or_ne k i with rfl | hki
      · exact absurd ⟨hj, hk.2.1.symm, hk.2.2.symm⟩ (hunique hk.1 j hji)
      · rw [(hframe k hki).ip] at hk
        exact h.unique j k hj hk
  status := by
    intro q
    by_cases hq : q ∈ own
    · exact hself q hq
    have hok : t.StatusOk q (s.status q) := by
      refine (h.status q).frame hpanic ?_ ?_
      · intro j g hg
        rcases eq_or_ne j i with rfl | hj
        · exact husers q hq g hg
        · rw [(hframe j hj).users]
          exact hg
      · intro j hj _
        rcases eq_or_ne j i with rfl | hji
        · exact hkeep q hq hj
        · have hsame := hframe j hji
          rw [hsame.holds, hsame.ip, hsame.putting, hsame.dip (h.ref_pos_of_holds hj)]
          exact ⟨hj, rfl, rfl, rfl, rfl⟩
    rcases hothers q hq with hst | ⟨hst, hst'⟩
    · rw [hst]
      exact hok
    · rw [hst] at hok
      rw [hst']
      exact hok
  fresh := by
    intro dev inum d hd
    obtain ⟨hd', hdisk, hnames⟩ := hfresh dev inum d hd
    obtain ⟨hdip, htype, hall⟩ := h.fresh dev inum d hd'
    refine ⟨hdisk.trans hdip, htype, fun j hj hv => ?_⟩
    rcases eq_or_ne j i with rfl | hji
    · exact hnames hj hv
    · have hsame := hframe j hji
      rw [hsame.ip] at hj hv
      obtain ⟨q, hq⟩ := hall j hj hv
      exact ⟨q, (hsame.status q (.freeing j .finish) rfl).mpr hq⟩
  panics := hpanics

/-- A panic of the remaining kinds stops the run and changes nothing. -/
theorem panic (h : Inv s) {e : Panic}
    (he : e = .igetNoInodes ∨ e = .iallocNoInodes) : Inv (s.panic e) where
  entry := fun i => ⟨(h.entry i).count, (h.entry i).users, (h.entry i).alone, (h.entry i).busy,
    (h.entry i).holder, (h.entry i).putting, (h.entry i).locked, (h.entry i).agrees,
    (h.entry i).changed⟩
  unique := h.unique
  status := fun p => (h.status p).frame (by simp [InodeSys.panic]) (fun _ _ hu => hu)
    fun _ hj _ => ⟨hj, rfl, rfl, rfl, rfl⟩
  fresh := h.fresh
  panics := by
    rcases he with rfl | rfl
    · exact .inr (.inl rfl)
    · exact .inr (.inr (.inl rfl))

end Inv

end InodeSys

end Xv6
