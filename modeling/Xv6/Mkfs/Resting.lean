import Xv6.Fs.Runs
import Xv6.Mkfs.Booted

/-!
# Calls on an image of mkfs

In the image that `mkfs` builds, the root is the only directory, and every file has one name and one
link. So the file system rests when the first process has looked up `/`, and whatever calls are made
from then on, it stays settled.
-/

namespace Xv6

namespace Mkfs

open Foundation

section Resting

variable {s : State} {u : Fs} {t : State} {files : List Input} {io : Io} {k n : ℕ} {de : Dirent}
  {name : List UInt8} {ls : List (Fin NPROC × Call)}

/-- The files are listed behind `.` and `..`, in the order of their inodes. -/
theorem rootEntries_get (h : (rootEntries files)[k]? = some de) :
    de = ⟨ROOTINO, dot⟩ ∨ de = ⟨ROOTINO, dotdot⟩ ∨ 2 ≤ k ∧ de.inum = k := by
  cases k with
  | zero => exact .inl (Option.some.inj h).symm
  | succ k =>
      cases k with
      | zero => exact .inr (.inl (Option.some.inj h).symm)
      | succ k =>
          rw [rootEntries, List.getElem?_cons_succ, List.getElem?_cons_succ,
            List.getElem?_mapIdx] at h
          obtain ⟨f, -, rfl⟩ := Option.map_eq_some_iff.mp h
          exact .inr (.inr ⟨Nat.le_add_left 2 k, rfl⟩)

/-- A name in the root directory that is neither `.` nor `..` is in the slot with the number of its
inode. -/
theorem Final.slot_eq (h : Final files t s)
    (hslot : (((disk s.img).dinode ROOTINO).slots (disk s.img)).slot k = some (name, n))
    (hname : Ordinary name) : 2 ≤ n ∧ n < files.length + 2 ∧ k = n := by
  rw [h.slot] at hslot
  obtain ⟨de, hde, heq⟩ := Option.map_eq_some_iff.mp hslot
  obtain ⟨rfl, rfl⟩ := Prod.mk.inj heq
  rcases rootEntries_get hde with rfl | rfl | ⟨hk, hinum⟩
  · exact absurd rfl hname.1
  · exact absurd rfl hname.2
  · refine ⟨by omega, (inum_rootEntries (List.mem_of_getElem? hde)).2, hinum.symm⟩

theorem Final.linked (h : Final files t s) : (disk s.img).Linked 0 := by
  have hlt : ∀ n < (disk s.img).sb.ninodes, n < inodes := fun n hn => by
    rw [h.sb] at hn
    exact lt_inodes hn
  refine .of_root (r := ROOTINO) ?_ (fun n hn htype => ?_) (fun n hn htype => ?_) ?_ fun n hn => ?_
  · rw [h.sb]
    decide
  · rw [(h.kind (hlt n hn)).1, Mkfs.kind] at htype
    rw [(h.kind (hlt n hn)).2, Mkfs.kind]
    split
    · rename_i hlisted
      rw [if_pos hlisted] at htype
      change (if n = ROOTINO then T_DIR else T_FILE) = 0 at htype
      split at htype <;> cases htype
    · rfl
  · exact h.dir_eq (hlt n hn) htype
  · rw [FsDisk.leads_of_dir h.root_type]
    refine Slots.leads_eq_zero fun k name hslot hname => ?_
    have hge := (h.slot_eq hslot hname).1
    exact absurd hge (by decide)
  · rw [FsDisk.leads_of_dir h.root_type]
    by_cases hlisted : 1 ≤ n ∧ n < files.length + 2
    · rw [(h.nlink hlisted.1 hlisted.2).1]
      have hone := Slots.leads_le_one (P := Ordinary) (v := n)
        (t := ((disk s.img).dinode ROOTINO).slots (disk s.img)) fun i j k l hi hk hj hl =>
          (h.slot_eq hi hk).2.2.trans (h.slot_eq hj hl).2.2.symm
      exact_mod_cast hone
    · rw [Slots.leads_eq_zero fun k name hslot hname => hlisted ?_]
      · exact (h.nlink_bound (hlt n hn)).1
      · obtain ⟨hge, hle, -⟩ := h.slot_eq hslot hname
        exact ⟨by omega, hle⟩

/-- The file system that the first process finds rests. -/
theorem mkfs_resting (h : mkfs files = .ok s) (hb : Bootable files) (io : Io) :
    (booted s.img io).Resting := by
  obtain ⟨t, ht⟩ := hb.final h
  have hsb : (booted s.img io).disk.sb = mkfsSuperblock := ht.sb
  refine (ht.settled hb (p := 0)).resting ?_ ?_ ht.linked (fun n hn htype => ?_) fun i => ?_
  · rw [hsb]
    decide
  · change ((disk s.img).dinode 0).type = 0
    rw [(ht.kind (by decide)).1, Mkfs.kind, if_neg (by omega)]
    rfl
  · rw [hsb] at hn
    change ((disk s.img).dinode n).type ≠ 0 at htype
    change ((disk s.img).dinode n).nlink ≠ 0
    rw [(ht.kind (lt_inodes hn)).1, Mkfs.kind] at htype
    rw [(ht.kind (lt_inodes hn)).2, Mkfs.kind]
    split
    · exact one_ne_zero
    · rename_i hlisted
      rw [if_neg hlisted] at htype
      exact absurd rfl htype
  · rw [inodes_first (fun _ => rfl) fun _ => rfl, pointers_single]
    by_cases hi : i = 0
    · rw [hi]
      rfl
    · rw [booted_free hi, if_neg (Ne.symm hi)]
      rfl

/-- After any run of calls that meet the condition, from the image on, a live process can make the
next call. -/
theorem mkfs_runs (h : mkfs files = .ok s) (hb : Bootable files)
    (hok : RunMeets Call.step Call.Ok (booted s.img io) ls)
    (hrun : run Call.step (booted s.img io) ls = some u) :
    u.Resting ∧ ∀ p, (u.user.proc p).state = .live → u.Settled p := by
  have hu := (Call.run_resting (mkfs_resting h hb io) hok hrun).1
  exact ⟨hu, fun p hp => hu.settled hp⟩

end Resting

end Mkfs

end Xv6
