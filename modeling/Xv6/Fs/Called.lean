import Xv6.Fs.Opened
import Xv6.Fs.Linked
import Xv6.Fs.Unlinked

/-!
# The calls on files

From any state between two calls, a call touches the log in whole sections that keep the quota of
`begin_op`. A call that fails leaves the files as they were; the exception is `open`, which may have
made the file before it finds that there is no place for it among the open files.
-/

namespace Xv6

open Foundation

inductive Call where
  | sysClose (fd : Option ℤ)
  | exit
  | sysLink (old new : Option (List UInt8))
  | sysUnlink (path : Option (List UInt8))
  | sysMkdir (path : Option (List UInt8))
  | sysMknod (path : Option (List UInt8)) (major minor : Option ℤ)
  | sysOpen (path : Option (List UInt8)) (omode : Option UInt32)
  | sysChdir (path : Option (List UInt8))
  | exec (m : FsM.Paging) (stack path : List UInt8)

namespace Call

/-- The call of a process. Of `exec` it is the part that uses the file system. -/
def run (p : Fin NPROC) : Call → FsM ℤ
  | sysClose fd => FsM.sysClose p fd
  | exit => do
      FsM.exit p
      return 0
  | sysLink old new => FsM.sysLink p old new
  | sysUnlink path => FsM.sysUnlink p path
  | sysMkdir path => FsM.sysMkdir p path
  | sysMknod path major minor => FsM.sysMknod p path major minor
  | sysOpen path omode => FsM.sysOpen p path omode
  | sysChdir path => FsM.sysChdir p path
  | exec m stack path => do
      let loaded ← FsM.exec m stack p path
      return if loaded then 0 else -1

/-- The call fails. `exec` may still fail when the file has been loaded. -/
def Fails : Call → ℤ → Prop
  | exec _ _ _, _ => True
  | _, r => r < 0

variable {c : Call} {s : Fs} {p : Fin NPROC}

/-- What a call does to the log, and what is left when it fails. -/
structure Does (c : Call) (p : Fin NPROC) (s : Fs) (r : ℤ) (t : Fs) : Prop where
  sections : s.log.Sections t.log
  failed : c.Fails r → s.Unchanged t ∨ ∃ path omode, c = .sysOpen (some path) (some omode) ∧
    Fs.Makes p path omode s t ∧ s.NoFile p

theorem wp_run (h : s.Settled p) (c : Call) : wp (c.run p) (c.Does p s) (fun _ => True) s := by
  cases c with
  | sysClose fd => exact h.freeable.wp_sysClose fun r t hlog hsame =>
      ⟨hlog, fun hneg => .inl (hsame hneg)⟩
  | exit =>
      unfold run
      rw [wp_bind]
      exact h.freeable.wp_exit fun t hlog =>
        wp_pure.mpr ⟨hlog, fun hneg => absurd hneg (lt_irrefl 0)⟩
  | sysLink old new => exact h.wp_sysLink fun r t hlog hsame =>
      ⟨hlog, fun hneg => .inl (hsame hneg)⟩
  | sysUnlink path => exact h.wp_sysUnlink fun r t hlog hsame =>
      ⟨hlog, fun hneg => .inl (hsame hneg)⟩
  | sysMkdir path => exact h.wp_sysMkdir fun r t hlog hsame =>
      ⟨hlog, fun hneg => .inl (hsame hneg)⟩
  | sysMknod path major minor =>
      exact h.wp_sysMknod fun r t hlog hsame => ⟨hlog, fun hneg => .inl (hsame hneg)⟩
  | sysOpen path omode =>
      refine h.wp_sysOpen fun r t hlog hsame => ⟨hlog, fun hneg => (hsame hneg).imp id ?_⟩
      rintro ⟨path, omode, rfl, rfl, hmakes⟩
      exact ⟨path, omode, rfl, hmakes⟩
  | sysChdir path => exact h.wp_sysChdir fun r t hlog hsame =>
      ⟨hlog, fun hneg => .inl (hsame hneg)⟩
  | exec m stack path =>
      unfold run
      rw [wp_bind]
      exact h.wp_exec .true fun r t hlog hsame => wp_pure.mpr ⟨hlog, fun _ => .inl hsame⟩

end Call

namespace Fs

def settledRoot : Fs := { rooted.setDinode ROOTINO rootDir with log := ⟨0, [], []⟩ }

def crowdedRoot : Fs :=
  { settledRoot with
    user := { settledRoot.user with ftable := fun _ => ⟨.pipe, 1, true, false, 0, 0, 0⟩ } }

section Root

variable {n : ℕ} {p : Fin NPROC}

theorem settledRoot_saved : Saved 0 ROOTINO rootDir rooted settledRoot :=
  ⟨rfl, rfl, fun _ _ => rfl, rfl, rfl⟩

theorem settledRoot_tidy : settledRoot.Tidy :=
  settledRoot_saved.tidy rooted_tidy (by decide)

theorem settledRoot_view : settledRoot.view n = rooted.view n := by
  rw [settledRoot_saved.view rooted_tidy rooted_root settledRoot_tidy]
  split
  · rename_i hn
    rw [hn, rooted_view]
  · rfl

/-- Only the root is there. -/
theorem settledRoot_only (h : (settledRoot.view n).type ≠ 0) : n = ROOTINO := by
  by_contra hne
  rw [settledRoot_view, rooted_view_ne hne] at h
  exact h rfl

theorem settledRoot_settled : settledRoot.Settled p where
  toWalkable := settledRoot_saved.walkable rooted_walkable rooted_root (by decide)
    fun _ => rooted_view.symm
  one := by
    change mkfsSuperblock.size ≤ BPB
    decide
  files := fun n _ htype => by
    rw [settledRoot_only htype, settledRoot_view, rooted_view]
    exact rooted_dirOk.wf.congr (fun _ _ => rfl) (fun _ hb => hb) rfl
  apart := fun m _ n _ hne hm hn =>
    absurd ((settledRoot_only hm).trans (settledRoot_only hn).symm) hne
  nlink := fun n _ => by
    by_cases hn : n = ROOTINO
    · rw [hn, settledRoot_view, rooted_view]
      decide
    · rw [settledRoot_view, rooted_view_ne hn]
      decide
  inum := fun _ _ => by
    change ROOTINO < mkfsSuperblock.ninodes
    decide
  alloc := fun _ _ => by
    change T_DIR ≠ 0
    decide
  synced := fun _ _ _ => rfl
  closed := fun _ _ => rfl

/-- Nothing but the current directory of the process matters, and that no closed file is left. -/
theorem Settled.setUser {s : Fs} (h : s.Settled p) {v : User}
    (hcwd : (v.proc p).cwd = (s.user.proc p).cwd)
    (hclosed : ∀ f, (v.ftable f).ref = 0 → (v.ftable f).type = .none) :
    ({ s with user := v } : Fs).Settled p where
  tidy := ⟨h.tidy.dev, h.tidy.nonneg, h.tidy.unique, h.tidy.read⟩
  ok := h.ok
  dir := h.dir
  entry := fun n hn htype k name m hslot =>
    ⟨(h.entry n hn htype k name m hslot).inum, (h.entry n hn htype k name m hslot).linked⟩
  idle := h.idle
  root := ⟨h.root.inum, h.root.linked⟩
  cwd := by
    change 0 < (s.icache (v.proc p).cwd).ref
    rw [hcwd]
    exact h.cwd
  here := by
    change (s.icache (v.proc p).cwd).inum < s.disk.sb.ninodes
    rw [hcwd]
    exact h.here
  one := h.one
  files := h.files
  apart := h.apart
  nlink := h.nlink
  inum := h.inum
  alloc := h.alloc
  synced := h.synced
  closed := hclosed

theorem crowdedRoot_settled : crowdedRoot.Settled p :=
  settledRoot_settled.setUser rfl fun _ hc => absurd hc one_ne_zero

end Root

end Fs

/-- What a call does to the log are whole sections from `begin_op` to `end_op`, and none of them
logs more sectors than `begin_op` reserves. -/
theorem calls_in_sections {s t : Fs} {p : Fin NPROC} {c : Call} {r : ℤ} (h : s.Settled p)
    (hrun : c.run p s = .ok (r, t)) : s.log.Sections t.log :=
  ((wp_of_ok hrun).mp (Call.wp_run h c)).sections

/-- `mkdir` returns 0. -/
theorem calls_in_sections_mkdir : ∃ t,
    (Call.sysMkdir (some [47, 97])).run 0 Fs.settledRoot = .ok (0, t) ∧
      Fs.settledRoot.log.Sections t.log := by
  have hret : ((Call.sysMkdir (some [47, 97])).run 0 Fs.settledRoot).toOption.map Prod.fst =
      some 0 := by decide +kernel
  cases hrun : (Call.sysMkdir (some [47, 97])).run 0 Fs.settledRoot with
  | error e =>
      rw [hrun] at hret
      cases hret
  | ok x =>
      obtain ⟨r, t⟩ := x
      rw [hrun] at hret
      obtain rfl : r = 0 := Option.some.inj hret
      exact ⟨t, rfl, calls_in_sections Fs.settledRoot_settled hrun⟩

/-- A call that fails changes nothing, unless it is an `open` that has made the file and has not
found a file and a descriptor for it. -/
theorem failed_calls {s t : Fs} {p : Fin NPROC} {c : Call} {r : ℤ} (h : s.Settled p)
    (hrun : c.run p s = .ok (r, t)) (hfail : c.Fails r) :
    s.Unchanged t ∨ ∃ path omode, c = .sysOpen (some path) (some omode) ∧
      Fs.Makes p path omode s t ∧ s.NoFile p :=
  ((wp_of_ok hrun).mp (Call.wp_run h c)).failed hfail

/-- `open` has made the file `a` when it returns -1. -/
theorem failed_calls_open : ∃ t,
    (Call.sysOpen (some [47, 97]) (some O_CREATE)).run 0 Fs.crowdedRoot = .ok (-1, t) ∧
      ¬ Fs.crowdedRoot.Unchanged t ∧ Fs.Makes 0 [47, 97] O_CREATE Fs.crowdedRoot t := by
  have hret : ((Call.sysOpen (some [47, 97]) (some O_CREATE)).run 0
      Fs.crowdedRoot).toOption.map (fun x => (x.1, (x.2.disk.dinode 2).type)) =
        some (-1, T_FILE) := by decide +kernel
  cases hrun : (Call.sysOpen (some [47, 97]) (some O_CREATE)).run 0 Fs.crowdedRoot with
  | error e =>
      rw [hrun] at hret
      cases hret
  | ok x =>
      obtain ⟨r, t⟩ := x
      rw [hrun] at hret
      obtain ⟨rfl, htype⟩ := Prod.mk.inj (Option.some.inj hret)
      have hchanged : ¬ Fs.crowdedRoot.Unchanged t := by
        intro hsame
        have hdisk : t.disk = Fs.crowdedRoot.disk := hsame.disk
        rw [hdisk] at htype
        cases htype
      have hneg : (-1 : ℤ) < 0 := by decide
      refine ⟨t, rfl, hchanged, ?_⟩
      rcases failed_calls Fs.crowdedRoot_settled hrun hneg with hsame | hmade
      · exact absurd hsame hchanged
      · obtain ⟨path, omode, heq, hmakes, -⟩ := hmade
        cases heq
        exact hmakes

end Xv6
