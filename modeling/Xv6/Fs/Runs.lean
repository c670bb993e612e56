import Xv6.Fs.Called
import Xv6.Fs.Creating

/-!
# Runs of calls

One call after the other, by any processes. A call that returns leaves a resting file system, when
the process was live and, for a call that may add a name, there were blocks and links for it. So
after every run the file system is settled, and the log has whole sections only. Of the calls that
add a name none panics because a directory is full, unless it adds the name to that directory.
-/

namespace Xv6

open Foundation

namespace Call

/-- The path of the name that the call may add. -/
def adds : Call → Option (List UInt8)
  | sysLink _ new => new
  | sysMkdir path => path
  | sysMknod path _ _ => path
  | sysOpen path (some omode) => if omode &&& O_CREATE ≠ 0 then path else none
  | _ => none

/-- The process can make the call, and there is room for what it may add. -/
structure Meets (p : Fin NPROC) (c : Call) (s : Fs) : Prop where
  live : (s.user.proc p).state = .live
  roomy : c.adds.isSome → s.Roomy

/-- The condition on a step of a run. -/
def Ok (s : Fs) (x : Fin NPROC × Call) : Prop := x.2.Meets x.1 s

/-- Nothing when the call does not return. -/
def step (s : Fs) (x : Fin NPROC × Call) : Option Fs :=
  match x.2.run x.1 s with
  | .ok (_, t) => some t
  | .error _ => none

section Runs

variable {c : Call} {s t : Fs} {p : Fin NPROC} {E : Stop → Prop} {path : List UInt8}
  {ls : List (Fin NPROC × Call)}

theorem step_eq_some : step s (p, c) = some t ↔ ∃ r, c.run p s = .ok (r, t) := by
  unfold step
  cases hrun : c.run p s with
  | error e => simp
  | ok x => simp [Prod.ext_iff]

/-- A call that returns leaves a resting file system, and it does not panic because a directory is
full unless it adds a name to one. -/
theorem wp_rests (hE : Fs.Lax E) (h : s.Resting) (hm : c.Meets p s)
    (hspace : E (.panic .dirlink) ∨ ∀ path, c.adds = some path → ¬ s.begun.Crowds p path) :
    wp (c.run p) (fun _ t => t.Resting) E s := by
  have hroomy : ∀ path, c.adds = some path → s.Roomy := fun path hadds =>
    hm.roomy (by rw [hadds]; rfl)
  cases c with
  | sysClose fd => exact Fs.Running.wp_sysClose hE h fun _ t ht => ht
  | exit =>
      unfold run
      rw [wp_bind]
      exact Fs.Running.wp_exit hE h hm.live fun t ht => wp_pure.mpr ht
  | sysLink old new => exact Fs.Running.wp_sysLink hE h hm.live hroomy hspace fun _ t ht => ht
  | sysUnlink path => exact Fs.Running.wp_sysUnlink hE h hm.live fun _ t ht => ht
  | sysMkdir path => exact Fs.Running.wp_sysMkdir hE h hm.live hroomy hspace fun _ t ht => ht
  | sysMknod path major minor =>
      exact Fs.Running.wp_sysMknod hE h hm.live hroomy hspace fun _ t ht => ht
  | sysOpen path omode =>
      have hadds : ∀ path' omode', path = some path' → omode = some omode' →
          omode' &&& O_CREATE ≠ 0 → (sysOpen path omode).adds = some path' := by
        rintro path' omode' rfl rfl hcreate
        exact if_pos hcreate
      exact Fs.Running.wp_sysOpen hE h hm.live
        (fun x y hx hy hcreate => hroomy x (hadds x y hx hy hcreate))
        (hspace.imp id fun hcrowds x y hx hy hcreate => hcrowds x (hadds x y hx hy hcreate))
        fun _ t ht => ht
  | sysChdir path => exact Fs.Running.wp_sysChdir hE h hm.live fun _ t ht => ht
  | exec m stack path =>
      unfold run
      rw [wp_bind]
      exact Fs.Running.wp_exec hE h hm.live fun _ t ht => wp_pure.mpr ht

theorem step_resting (h : s.Resting) (hm : c.Meets p s) (hstep : step s (p, c) = some t) :
    t.Resting := by
  obtain ⟨r, hrun⟩ := step_eq_some.mp hstep
  exact (wp_of_ok hrun).mp (c.wp_rests .true h hm (.inl trivial))

theorem step_sections (h : s.Resting) (hm : c.Meets p s) (hstep : step s (p, c) = some t) :
    s.log.Sections t.log := by
  obtain ⟨r, hrun⟩ := step_eq_some.mp hstep
  exact ((wp_of_ok hrun).mp (wp_run (h.settled hm.live) c)).sections

/-- After a run the file system rests, and the log has got whole sections only. -/
theorem run_resting (h : s.Resting) (hok : RunMeets step Ok s ls)
    (hrun : Foundation.run step s ls = some t) : t.Resting ∧ s.log.Sections t.log := by
  refine run_invariant_of_meets (fun u => u.Resting ∧ s.log.Sections u.log)
    (fun u x v hu hx hv => ?_) ⟨h, .refl⟩ hok hrun
  exact ⟨step_resting hu.1 hx hv, hu.2.trans (step_sections hu.1 hx hv)⟩

/-- `create` never finds that the name is there after all. -/
theorem createDirlink_not (h : s.Resting) (hm : c.Meets p s) :
    c.run p s ≠ .error (.panic .createDirlink) := by
  have hE : Fs.Lax fun e => e ≠ .panic .createDirlink := fun e he heq => he (.inr heq)
  intro hrun
  exact (wp_of_error hrun).mp (c.wp_rests hE h hm (.inl (by decide))) rfl

/-- `dirlink` panics for a full directory only. -/
theorem dirlink_not (h : s.Resting) (hm : c.Meets p s)
    (hspace : ∀ path, c.adds = some path → ¬ s.Crowds p path) :
    c.run p s ≠ .error (.panic .dirlink) := by
  have hE : Fs.Lax fun e => e ≠ .panic .dirlink := fun e he heq => he (.inl heq)
  intro hrun
  exact (wp_of_error hrun).mp (c.wp_rests hE h hm (.inr hspace)) rfl

end Runs

end Call

/-- Only the first process is there, and no file is open. -/
theorem inodes_first {u : User} (hfile : ∀ f, (u.ftable f).type = .none)
    (hproc : ∀ p, u.proc p = ⟨if p = 0 then .live else .unused, fun _ => none, 0⟩) :
    u.inodes = Function.update (fun _ => none) (.inl 0) (some 0) := by
  funext c
  cases c with
  | inl q =>
      rw [User.inodes, hproc]
      by_cases hq : q = 0
      · rw [hq, Function.update_self]
        rfl
      · rw [Function.update_of_ne fun hc => hq (Sum.inl_injective hc), if_neg hq]
        rfl
  | inr f =>
      rw [User.inodes, hfile]
      rw [Function.update_of_ne Sum.inr_ne_inl]
      rfl

namespace Fs

/-- A file system that is settled rests when the links and the references are counted right. -/
theorem Settled.resting {s : Fs} {p : Fin NPROC} (h : s.Settled p)
    (hfew : s.disk.sb.ninodes ≤ 2 ^ 16) (hzero : (s.disk.dinode 0).type = 0)
    (hlinked : s.disk.Linked 0)
    (hnlink : ∀ n < s.disk.sb.ninodes, (s.disk.dinode n).type ≠ 0 → (s.disk.dinode n).nlink ≠ 0)
    (hrefs : ∀ i, (s.icache i).ref = pointers s.user.inodes i) : s.Resting where
  sound := {
    ok := h.ok
    one := h.one
    root := h.root.inum
    few := hfew
    files := fun n hn htype => by
      rw [h.disk_view] at htype ⊢
      exact h.files n hn htype
    apart := fun m hm n hn hne b hb hb' => by
      rw [FsDisk.Owns, h.disk_view] at hb hb'
      exact h.apart m hm n hn hne hb.1 hb'.1 b hb.2 hb'.2
    dir := fun n hn htype => by
      rw [h.disk_view] at htype ⊢
      exact h.dir n hn htype
    listed := fun n hn htype k name m hslot => by
      rw [h.disk_view] at htype hslot
      exact (h.entry n hn htype k name m hslot).inum }
  linked := hlinked
  zero := hzero
  room := Nat.zero_le _
  few := fun n hn => by
    rw [h.disk_view]
    simpa using (h.nlink n hn).2
  refs := fun i => by
    rw [hrefs i]
    exact (add_zero _).symm
  nonneg := h.tidy.nonneg
  shows := fun i hi => ⟨h.tidy.dev i hi, h.inum i hi, h.alloc i hi, h.synced i hi,
    fun hzero => absurd hzero (hnlink _ (h.inum i hi) (h.alloc i hi))⟩
  unique := fun i j hi hj heq =>
    h.tidy.unique i j _ ⟨hi, h.tidy.dev i hi, rfl⟩ ⟨hj, h.tidy.dev j hj, heq.symm⟩
  busy := fun i hi => by
    rw [h.idle i hi]
    exact iff_of_false Bool.false_ne_true (Finset.notMem_empty i)
  held := fun i hi => absurd hi (Finset.notMem_empty i)
  reached := fun n hn htype => .inl (hnlink n hn htype)
  closed := h.closed

/-- Only the first process is there, in the root directory. -/
def restingRoot : Fs :=
  { settledRoot with
    user := { settledRoot.user with
      proc := fun p => ⟨if p = 0 then .live else .unused, fun _ => none, 0⟩ } }

theorem restingRoot_dinode {n : ℕ} (hn : n ≠ ROOTINO) :
    restingRoot.disk.dinode n = Dinode.zero := Function.update_of_ne hn _ _

theorem restingRoot_resting : restingRoot.Resting := by
  have hsettled : restingRoot.Settled 0 :=
    settledRoot_settled.setUser (p := 0) rfl (settledRoot_settled (p := 0)).closed
  have hleads : ∀ n, restingRoot.disk.leads ROOTINO n = 0 := fun n => by
    rw [FsDisk.leads_of_dir rfl]
    refine Slots.leads_eq_zero fun k name hslot hname => hname.1 ?_
    exact congrArg Prod.fst (rooted_slot hslot).2
  refine hsettled.resting (p := 0) (by decide) rfl (.of_root (r := ROOTINO) (by decide) ?_ ?_
    (hleads _) fun n _ => ?_) (fun n _ htype => ?_) fun i => ?_
  · intro n _ hfree
    by_cases hn : n = ROOTINO
    · rw [hn] at hfree
      exact absurd hfree (by decide)
    · rw [restingRoot_dinode hn]
      rfl
  · intro n _ htype
    by_contra hn
    rw [restingRoot_dinode hn] at htype
    cases htype
  · rw [hleads]
    by_cases hn : n = ROOTINO
    · rw [hn]
      decide
    · rw [restingRoot_dinode hn]
      decide
  · by_cases hn : n = ROOTINO
    · rw [hn]
      decide
    · rw [restingRoot_dinode hn] at htype
      exact absurd rfl htype
  · rw [inodes_first (fun _ => rfl) fun _ => rfl, pointers_single]
    change (if i = 0 then (1 : ℤ) else 0) = _
    by_cases hi : i = 0
    · rw [hi]
      rfl
    · rw [if_neg hi, if_neg (Ne.symm hi)]
      rfl

theorem restingRoot_roomy : restingRoot.Roomy := by
  refine ⟨by decide +kernel, fun n _ => ?_⟩
  by_cases hn : n = ROOTINO
  · rw [hn]
    decide
  · rw [restingRoot_dinode hn]
    decide

theorem restingRoot_size {n : ℕ} (h : (restingRoot.view n).type = T_DIR) :
    (restingRoot.view n).size = Dirent.size := by
  rw [Running.view_eq restingRoot_resting] at h ⊢
  by_cases hn : n = ROOTINO
  · rw [hn]
    rfl
  · rw [restingRoot_dinode hn] at h
    cases h

end Fs

/-- With blocks and sectors of the log for one more entry, `dirlink` returns `0` or `-1` exactly
when the name is present and its inode gets an entry of the cache, or the directory is not full.
A run in which this is so before every call does not panic. So after any run of calls by any
processes, `link`, `open`, `mkdir` and `mknod` do not panic in `dirlink` unless they add a name to a
full directory, and `create` panics at no result of `dirlink` at all. -/
theorem dirlink_returns {dp : Fin NINODE} {s : Fs} (h : s.Directory dp) :
    (∀ name inum, s.Supplied dp →
      ((∃ r t, FsM.dirlink dp name inum s = .ok (r, t) ∧ (r = 0 ∨ r = -1)) ↔
        s.Linkable dp name)) ∧
    (∀ calls, RunMeets (Fs.dirStep dp) (Fs.DirMeets dp) s calls →
      ∃ t, run (Fs.dirStep dp) s calls = some t ∧ t.Directory dp) ∧
    ∀ (u t : Fs) (ls : List (Fin NPROC × Call)), u.Resting → RunMeets Call.step Call.Ok u ls →
      run Call.step u ls = some t → ∀ p c, Call.Ok t (p, c) →
        c.run p t ≠ .error (.panic .createDirlink) ∧
        ((∀ path, c.adds = some path → ¬ t.Crowds p path) →
          c.run p t ≠ .error (.panic .dirlink)) := by
  refine ⟨fun name inum hsup => ⟨?_, fun hlink => ?_⟩, fun calls => h.run,
    fun u t ls hu hok hrun p c hc => ?_⟩
  · rintro ⟨r, t, hrun, -⟩
    unfold Fs.Linkable
    cases hfind : (s.slots dp).find (Dirent.key name) with
    | some x =>
        change (s.icache.iget (s.icache dp).dev x.2).isSome
        by_contra hnone
        have hpanic := @Fs.Directory.dirlink_no_inodes dp s inum name _ _ h hfind
          (Option.not_isSome_iff_eq_none.mp hnone)
        cases hrun.symm.trans hpanic
    | none =>
        intro hfull
        have hpanic := @Fs.Directory.dirlink_panics dp s inum name h hfind hfull
        cases hrun.symm.trans hpanic
  · rcases @Fs.Directory.dirlink_linkable dp s inum name h hsup hlink with
      ⟨t, hrun, -⟩ | ⟨t, hrun, -⟩
    · exact ⟨-1, t, hrun, .inr rfl⟩
    · exact ⟨0, t, hrun, .inl rfl⟩
  · have ht := (Call.run_resting hu hok hrun).1
    exact ⟨Call.createDirlink_not ht hc, Call.dirlink_not ht hc⟩

/-- In a directory with the names `a` and `b`, `dirlink` returns for `a`, which is there, and for
`c`, for which there is a slot. In a root directory that is not full, `mkdir` does not panic
there. -/
theorem dirlink_returns_few :
    (∃ r t, FsM.dirlink 0 [97] 5 Fs.fewDir = .ok (r, t) ∧ (r = 0 ∨ r = -1)) ∧
    (∃ r t, FsM.dirlink 0 [99] 5 Fs.fewDir = .ok (r, t) ∧ (r = 0 ∨ r = -1)) ∧
    (Call.sysMkdir (some [47, 97])).run 0 Fs.restingRoot ≠ .error (.panic .dirlink) := by
  have hsup : Fs.fewDir.Supplied 0 := by
    refine ⟨fun _ => ?_, ?_⟩
    · rw [Dinode.need_eq_zero fun bn hbn => ?_]
      · exact Nat.zero_le _
      · obtain rfl : bn = 0 := List.mem_singleton.mp hbn
        exact Fs.fewDir_wf.mapped 0 (by decide)
    · rw [Fs.fewDir_vacant]
      exact Fs.fewDir_mayLog (by decide)
  obtain ⟨ha, -, hc⟩ := Fs.fewDir_find
  refine ⟨?_, ?_, ?_⟩
  · refine ((dirlink_returns Fs.fewDir_directory).1 [97] 5 hsup).mpr ?_
    unfold Fs.Linkable
    rw [ha]
    exact Fs.fewDir_iget
  · refine ((dirlink_returns Fs.fewDir_directory).1 [99] 5 hsup).mpr ?_
    unfold Fs.Linkable
    rw [hc]
    exact fun hfull => absurd hfull.2 (by decide)
  · refine ((dirlink_returns Fs.fewDir_directory).2.2 _ _ [] Fs.restingRoot_resting trivial rfl 0 _
      ⟨rfl, fun _ => Fs.restingRoot_roomy⟩).2 ?_
    rintro path - ⟨d, last, hparent, -, -, -, hsize⟩
    rw [Fs.restingRoot_size (Fs.resolveParent_dir hparent)] at hsize
    exact absurd hsize (by decide)

/-- A name for the inode `3` is added to a directory with 4480 entries, while blocks are free. -/
theorem dirlink_full : Fs.fullDir.Tidy ∧ Fs.fullDir.Directory 0 ∧
    (Fs.fullDir.slots 0).find [97] = none ∧ 0 < Fs.fullDir.disk.free.length ∧
    Fs.fullDir.MayLog 0 (Fs.fullDir.slots 0).vacant ∧
    FsM.dirlink 0 [97] 3 Fs.fullDir = .error (.panic .dirlink) := by
  refine ⟨Fs.fullDir_tidy, Fs.fullDir_directory, Fs.fullDir_find, ?_, Fs.fullDir_mayLog,
    Fs.fullDir_directory.dirlink_panics Fs.fullDir_find Fs.fullDir_full⟩
  exact List.length_pos_of_mem Fs.fullDir_free

end Xv6
