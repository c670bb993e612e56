import Xv6.Inode.Steps

/-!
# Correctness of the inode cache

In every state that an interleaving of the processes reaches, an inode has one entry,
an unlocked entry shows the inode on the disk, and an inode is freed only when it has
no links and one reference; a process that gets a freshly allocated inode sees what
`ialloc` wrote, also when the `iput` that freed it has not finished.
-/

namespace Xv6

namespace InodeSys

open Foundation

variable {s t : InodeSys} {l : Label}

theorem iget_status (s : InodeSys) (g : Holder) (dev inum : ℕ) :
    (s.iget g dev inum).status = s.status := by
  unfold InodeSys.iget
  split <;> rfl

theorem iget_disk (s : InodeSys) (g : Holder) (dev inum : ℕ) :
    (s.iget g dev inum).disk = s.disk := by
  unfold InodeSys.iget
  split <;> rfl

theorem Inv.step (h : Inv s) (hl : step s l = some t) : Inv t := by
  have hpanic := step_panicked hl
  cases step_took hl with
  | iget => exact h.iget _ _ _
  | idup hg => exact h.idup hg _
  | ilock hp hg => exact h.ilock hp hg
  | lock hp => exact h.lock hp
  | load hp => exact h.load hp hpanic
  | modify hp hi hd => exact h.modify hp hi hd
  | iupdate hp hi => exact h.iupdate hp hi
  | iunlock hp hi hc => exact h.iunlock hp hi hc
  | iput hp hm => exact h.iput hp hm
  | free hp => exact h.free hp
  | ialloc hp ht => exact h.setStatus (fun i => by rw [hp]; exact id) (fun _ => id) ht
  | scan hp => exact h.scan hpanic hp
  | allocIget hp =>
      refine (h.iget _ _ _).setStatus (fun i => ?_) (fun _ => id) trivial
      rw [iget_status, hp]
      exact id
  | wake hp =>
      rename_i p i
      have hok := h.status p
      rw [hp] at hok
      exact h.setStatus (fun i => by rw [hp]; exact id) (fun _ => id) hok

theorem inv_run {ninodes : ℕ} {disk : ℕ → ℕ → Dinode} {ls : List Label} {s : InodeSys}
    (hrun : run step (init ninodes disk) ls = some s) : Inv s :=
  run_invariant Inv (fun _ _ _ h hl => h.step hl) (inv_init ninodes disk) hrun

/-! ### Identity -/

/-- The entries in use keep their identity. -/
def KeepsIdentity (s t : InodeSys) : Prop :=
  ∀ i, (s.ip i).ref ≠ 0 → (t.ip i).dev = (s.ip i).dev ∧ (t.ip i).inum = (s.ip i).inum

theorem KeepsIdentity.refl (s : InodeSys) : KeepsIdentity s s := fun _ _ => ⟨rfl, rfl⟩

theorem keepsIdentity_setIp {i : Fin NINODE} {x : Inode} (ht : t.icache = (s.setIp i x).icache)
    (hx : (s.ip i).ref ≠ 0 → x.dev = (s.ip i).dev ∧ x.inum = (s.ip i).inum) :
    KeepsIdentity s t := by
  intro j hj
  rw [show t.ip j = (s.setIp i x).ip j from congrFun ht j]
  rcases eq_or_ne j i with rfl | hji
  · rw [show (s.setIp j x).ip j = x from Function.update_self ..]
    exact hx hj
  · rw [show (s.setIp i x).ip j = s.ip j from Function.update_of_ne hji ..]
    exact ⟨rfl, rfl⟩

theorem keepsIdentity_iget (s : InodeSys) (g : Holder) (dev inum : ℕ) :
    KeepsIdentity s (s.iget g dev inum) := by
  unfold InodeSys.iget
  split
  · rename_i i c hget
    rcases Icache.iget_cases hget with ⟨-, rfl⟩ | ⟨-, hzero, rfl⟩
    · exact keepsIdentity_setIp (i := i) rfl fun _ => ⟨rfl, rfl⟩
    · exact keepsIdentity_setIp (i := i) rfl fun hne => absurd hzero hne
  · exact .refl s

/-- An entry changes identity only when its `ref` is 0. -/
theorem keepsIdentity_step (hl : step s l = some t) : KeepsIdentity s t := by
  have hsame : ∀ {t : InodeSys} (i : Fin NINODE) (x : Inode),
      t.icache = (s.setIp i x).icache → x.dev = (s.ip i).dev → x.inum = (s.ip i).inum →
      KeepsIdentity s t :=
    fun i x ht hdev hinum => keepsIdentity_setIp ht fun _ => ⟨hdev, hinum⟩
  cases step_took hl with
  | iget => exact keepsIdentity_iget s _ _ _
  | allocIget hp => exact keepsIdentity_iget s _ _ _
  | idup hg =>
      rename_i i
      exact hsame i _ rfl rfl rfl
  | ilock hp hg =>
      unfold InodeSys.ilock
      split <;> exact .refl s
  | lock hp =>
      rename_i i
      unfold InodeSys.lock
      split
      · exact .refl s
      · exact hsame i _ rfl rfl rfl
  | load hp =>
      rename_i i
      unfold InodeSys.load
      simp only
      split
      · split <;> exact hsame i _ rfl rfl rfl
      · exact .refl s
  | modify hp hi hd =>
      rename_i i d
      exact hsame i _ rfl rfl rfl
  | iupdate hp hi => exact .refl s
  | iunlock hp hi hc =>
      rename_i p i
      unfold InodeSys.iunlock
      split
      · exact .refl s
      · exact hsame i _ rfl rfl rfl
  | iput hp hm =>
      rename_i i
      unfold InodeSys.iput
      simp only
      split
      · split
        · exact .refl s
        · exact hsame i _ rfl rfl rfl
      · exact hsame i _ rfl rfl rfl
  | free hp =>
      rename_i i stage
      cases stage with
      | trunc => exact hsame i _ rfl rfl rfl
      | truncUpdate => exact .refl s
      | clear => exact hsame i _ rfl rfl rfl
      | freeUpdate => exact .refl s
      | finish => exact hsame i _ rfl rfl rfl
  | ialloc hp ht => exact .refl s
  | scan hp =>
      unfold InodeSys.scan
      split
      · split <;> exact .refl s
      · exact .refl s
  | wake hp => exact .refl s

/-! ### Freeing -/

/-- The inode is freed on the disk by an `iput` that has truncated it. -/
def Frees (s : InodeSys) (l : Label) (dev inum : ℕ) : Prop :=
  ∃ p i, l = .free p ∧ s.status p = .freeing i .freeUpdate ∧ (s.ip i).dev = dev ∧
    (s.ip i).inum = inum

theorem setDisk_disk_type {d : Dinode} {dev inum dev' inum' : ℕ} (hd : d.type ≠ 0)
    (hs : (s.disk dev inum).type ≠ 0) : ((s.setDisk dev' inum' d).disk dev inum).type ≠ 0 := by
  simp only [setDisk, Function.update_apply]
  split
  · rw [Function.update_apply]
    split
    · exact hd
    · rename_i hdev _
      rwa [← hdev]
  · exact hs

/-- Only `iput` frees an inode on the disk, and the inode has no links. -/
theorem frees_of_step (h : Inv s) (hl : step s l = some t) {dev inum : ℕ}
    (hs : (s.disk dev inum).type ≠ 0) (ht : (t.disk dev inum).type = 0) :
    Frees s l dev inum ∧ (s.disk dev inum).nlink = 0 := by
  cases step_took hl with
  | iget => exact absurd (by rwa [iget_disk] at ht) hs
  | allocIget hp =>
      change ((s.iget _ _ _).disk dev inum).type = 0 at ht
      exact absurd (by rwa [iget_disk] at ht) hs
  | idup hg => exact absurd ht hs
  | ilock hp hg =>
      unfold InodeSys.ilock at ht
      split at ht <;> exact absurd ht hs
  | lock hp =>
      unfold InodeSys.lock at ht
      split at ht <;> exact absurd ht hs
  | load hp =>
      unfold InodeSys.load at ht
      simp only at ht
      split at ht
      · split at ht <;> exact absurd ht hs
      · exact absurd ht hs
  | modify hp hi hd => exact absurd ht hs
  | iupdate hp hi =>
      rename_i p i
      have hvalid := (h.entry i).locked p hi (by rw [hp]; simp)
      obtain ⟨heq, htype, -⟩ := (h.entry i).agrees (h.ref_pos_of_holds hi) hvalid
        (h.not_about_of_idle hi hp)
      exact absurd ht (setDisk_disk_type (heq ▸ htype) hs)
  | iunlock hp hi hc =>
      unfold InodeSys.iunlock at ht
      split at ht <;> exact absurd ht hs
  | iput hp hm =>
      unfold InodeSys.iput at ht
      simp only at ht
      split at ht
      · split at ht <;> exact absurd ht hs
      · exact absurd ht hs
  | free hp =>
      rename_i p i stage
      obtain ⟨-, -, hok, -, -⟩ := h.of_freeing hp
      cases stage with
      | trunc => exact absurd ht hs
      | truncUpdate => exact absurd ht (setDisk_disk_type hok.1 hs)
      | clear => exact absurd ht hs
      | freeUpdate =>
          have hid : (s.ip i).dev = dev ∧ (s.ip i).inum = inum := by
            by_contra hne
            change ((s.setDisk (s.ip i).dev (s.ip i).inum (s.ip i).d).disk dev inum).type = 0 at ht
            rw [Inv.setDisk_disk _ hne] at ht
            exact hs ht
          obtain ⟨rfl, rfl⟩ := hid
          exact ⟨⟨p, i, rfl, hp, rfl, rfl⟩, hok.2⟩
      | finish => exact absurd ht hs
  | ialloc hp htype => exact absurd ht hs
  | scan hp =>
      rename_i p g dev' type inum'
      have htype : type ≠ 0 := by
        have hok := h.status p
        rwa [hp] at hok
      unfold InodeSys.scan at ht
      split at ht
      · split at ht
        · exact absurd ht (setDisk_disk_type (d := Dinode.fresh type) htype hs)
        · exact absurd ht hs
      · exact absurd ht hs
  | wake hp => exact absurd ht hs

/-- `iput` starts to free an inode that has no links, and to which the caller has the
only reference. -/
theorem only_reference_of_step (h : Inv s) {p : Pid} {g : Holder} {i : Fin NINODE}
    (hl : step s (.iput p g i) = some t) (ht : t.status p = .freeing i .trunc) :
    (s.dip i).nlink = 0 ∧ (s.ip i).ref = 1 ∧ s.refs i = [g] ∧ s.users i = [] := by
  cases step_took hl with
  | iput hp hm =>
      unfold InodeSys.iput at ht
      simp only at ht
      split at ht
      · rename_i hfree
        obtain ⟨hone, hvalid, hnlink⟩ := hfree
        obtain ⟨hrefs, -, husers, -, hnot, -, hchanged⟩ := h.only_reference hm hone
        have heq := ((h.entry i).agrees (h.ref_pos hm.1) hvalid hnot).2.2 hchanged
        exact ⟨heq ▸ hnlink, hone, hrefs, husers⟩
      · rw [show ((s.setIp i _).setRefs i _).status p = .idle from hp] at ht
        cases ht

/-! ### What `ilock` returns -/

/-- An `ilock` that returns shows the inode on the disk, and it returns if that inode
has a type. -/
theorem load_shows (h : Inv s) (hpanic : s.panicked = none) {p : Pid} {i : Fin NINODE}
    (hp : s.status p = .loading i) :
    ((s.load p i).panicked = none → ((s.load p i).ip i).d = s.dip i) ∧
      ((s.dip i).type ≠ 0 → (s.load p i).panicked = none) := by
  have hok := h.status p
  rw [hp] at hok
  unfold InodeSys.load
  cases hv : (s.ip i).valid with
  | true => exact ⟨fun _ => (hok.2.2 hpanic hv).1, fun _ => hpanic⟩
  | false =>
      have hd : (s.setIp i { s.ip i with d := s.dip i, valid := true }).ip i =
          { s.ip i with d := s.dip i, valid := true } := Function.update_self ..
      simp only [Bool.not_false, if_true, hd]
      by_cases hzero : (s.dip i).type = 0
      · rw [if_pos hzero]
        exact ⟨fun hnone => (by cases hnone), fun hne => absurd hzero hne⟩
      · rw [if_neg hzero]
        exact ⟨fun _ => congrArg Inode.d hd, fun _ => hpanic⟩

/-- Correctness of the inode cache, in every state that any interleaving reaches. No
two entries in use are for the same inode. An entry changes identity only when its
`ref` is 0. An entry in use with `I_VALID` set and `I_BUSY` clear agrees with the inode
on the disk. An on-disk inode is freed only by an `iput`, when its `nlink` is 0; that
`iput` found that its caller had the only reference and that nobody was using the
entry, and it never panics. And an `ilock` that returns shows the newest on-disk inode:
the first one of a freshly allocated inode returns what `ialloc` wrote. -/
theorem icache_correct {ninodes : ℕ} {disk : ℕ → ℕ → Dinode} {ls : List Label} {s : InodeSys}
    (hrun : run step (init ninodes disk) ls = some s) :
    (∀ i j, (s.ip i).ref > 0 → (s.ip j).Names (s.ip i).dev (s.ip i).inum → i = j) ∧
    (∀ l t, step s l = some t → KeepsIdentity s t) ∧
    (∀ i, (s.ip i).ref > 0 → (s.ip i).valid = true → (s.ip i).busy = false →
      (s.ip i).d = s.dip i) ∧
    (∀ l t dev inum, step s l = some t → (s.disk dev inum).type ≠ 0 →
      (t.disk dev inum).type = 0 → Frees s l dev inum ∧ (s.disk dev inum).nlink = 0) ∧
    (∀ p g i t, step s (.iput p g i) = some t → t.status p = .freeing i .trunc →
      (s.dip i).nlink = 0 ∧ (s.ip i).ref = 1 ∧ s.refs i = [g] ∧ s.users i = []) ∧
    s.panicked ≠ some .iputBusy ∧
    (∀ p i t, s.status p = .loading i → step s (.load p) = some t →
      (t.panicked = none → (t.ip i).d = s.dip i) ∧
      ∀ d, s.fresh (s.ip i).dev (s.ip i).inum = some d →
        t.panicked = none ∧ (t.ip i).d = d) := by
  have hinv := inv_run hrun
  refine ⟨?unique, fun _ _ hl => keepsIdentity_step hl, ?agrees,
    fun _ _ _ _ hl hs ht => frees_of_step hinv hl hs ht,
    fun _ _ _ _ hl ht => only_reference_of_step hinv hl ht, ?panics, ?load⟩
  case unique => exact fun i j hi hj => (hinv.unique i j hi hj).symm
  case agrees =>
    intro i hr hv hb
    have he := hinv.entry i
    -- nobody holds the entry
    have hheld : ∀ p, ¬ s.holds p i = true := by
      intro p hp
      rw [he.busy.mpr ⟨p, hp⟩] at hb
      cases hb
    refine (he.agrees hr hv fun p ha => hheld p (hinv.holds_of_about ha)).2.2 ?_
    by_contra hc
    obtain ⟨p, hp, -⟩ := he.changed (Bool.not_eq_false _ ▸ hc)
    exact hheld p hp
  case panics =>
    rcases hinv.panics with h | h | h | h
    all_goals
      rw [h]
      simp
  case load =>
    intro p i t hp hl
    have hpanic := step_panicked hl
    obtain ⟨hshows, hreturns⟩ := load_shows hinv hpanic hp
    have ht : t = s.load p i := by
      simpa [step, hpanic, hp] using hl.symm
    subst ht
    refine ⟨hshows, fun d hd => ?_⟩
    obtain ⟨hdisk, htype, -⟩ := hinv.fresh _ _ d hd
    have hdip : s.dip i = d := hdisk
    have hnone := hreturns (hdip ▸ htype)
    exact ⟨hnone, (hshows hnone).trans hdip⟩

/-- The last reference to an inode without links is given up, and another process
allocates that inode before the entry is free again. -/
def reuse : List Label :=
  [.iget 0 0 1 1, .ilock 0 0 0, .lock 0, .load 0, .modify 0 0 { Dinode.fresh T_FILE with size := 5 },
    .iupdate 0 0, .iunlock 0 0, .iput 0 0 0, .free 0, .free 0, .free 0, .free 0,
    .ialloc 1 1 1 T_DIR, .scan 1, .allocIget 1, .ilock 1 1 0, .lock 1, .free 0, .lock 1]

theorem icache_correct_reuse :
    ∃ s, run step (init 2 fun _ _ => Dinode.fresh T_FILE) reuse = some s ∧
      s.status 1 = .loading 0 ∧
      ∀ t, step s (.load 1) = some t → (t.ip 0).d = Dinode.fresh T_DIR := by
  have hrun : (run step (init 2 fun _ _ => Dinode.fresh T_FILE) reuse).map
      (fun s => (s.status 1, s.fresh (s.ip 0).dev (s.ip 0).inum)) =
        some (.loading 0, some (Dinode.fresh T_DIR)) := by decide +kernel
  obtain ⟨s, hs, hst⟩ := Option.map_eq_some_iff.mp hrun
  obtain ⟨hstatus, hfresh⟩ := Prod.mk.inj hst
  exact ⟨s, hs, hstatus, fun t ht =>
    ((icache_correct hs).2.2.2.2.2.2 1 0 t hstatus ht).2 _ hfresh |>.2⟩

end InodeSys

end Xv6
