import Xv6.Foundation.Pointers
import Xv6.Fs.Made

/-!
# `mkdir`, `mknod` and `open`

The calls that may make an inode. When `open` has made one and then finds no open file or no
descriptor, it returns `-1` and the inode stays; it is the only one of the calls to do so.
-/

namespace Xv6

open Foundation

namespace Fs

/-- `open` does not get a file and a descriptor. -/
def NoFile (s : Fs) (p : Fin NPROC) : Prop :=
  (∀ f, (s.user.ftable f).ref ≠ 0) ∨ ∀ fd, (s.user.proc p).ofile fd ≠ none

/-- `open` makes the file of a name that leads nowhere. -/
structure Makes (p : Fin NPROC) (path : List UInt8) (omode : UInt32) (s t : Fs) : Prop where
  create : omode &&& O_CREATE ≠ 0
  absent : s.resolve (s.start p path) (elements path) = none
  made : ∃ n, (s.disk.dinode n).type = 0 ∧ (t.disk.dinode n).type = T_FILE

section Opened

variable {s t u v : Fs} {p : Fin NPROC} {i : Fin NINODE} {n type : ℕ} {T : Finset ℕ}
  {path : List UInt8} {omode : UInt32} {f : Fin NFILE}

/-! ### The inode that has been made -/

theorem Created.sections (h : Created i type T s.begun t) : s.log.Sections t.ended.log :=
  .one h.logs (quota_of_le h.card (by decide))

theorem Created.wp_iunlock {Q : Unit → Fs → Prop} {E : Stop → Prop} (h : Created i type T s t)
    (hQ : Q ⟨⟩ (t.unlocked i)) : wp (FsM.iunlock i) Q E t :=
  Fs.wp_iunlock h.entry.1 h.entry.2.1.ge hQ

/-- It has a link, so it is not freed. -/
theorem Created.wp_iunlockput {Q : Unit → Fs → Prop} {E : Stop → Prop} (h : Created i type T s t)
    (hQ : Q ⟨⟩ ((t.unlocked i).dropped i)) : wp (FsM.iunlockput i) Q E t := by
  unfold FsM.iunlockput
  rw [wp_bind]
  refine h.wp_iunlock (wp_iput_drop ?_ hQ)
  rw [icache_unlocked]
  rintro ⟨-, -, hzero⟩
  change (t.dip i).nlink = 0 at hzero
  rw [h.entry.2.2] at hzero
  cases hzero

/-! ### `mkdir` and `mknod` -/

theorem Settled.wp_created {Q : ℤ → Fs → Prop} {r : Option (Fin NINODE)}
    (ht : s.begun.Answers p path type r t)
    (hQ : ∀ r t, s.log.Sections t.log → (r < 0 → s.Unchanged t) → Q r t) :
    wp (FsM.created r) Q (fun _ => True) t := by
  unfold FsM.created
  cases r with
  | none =>
      rw [wp_bind, wp_endOp, wp_pure]
      exact hQ _ _ (ht.none rfl).sections fun _ => (ht.none rfl).unchanged
  | some i =>
      change wp (FsM.iunlockput i >>= fun _ => _) _ _ _
      rw [wp_bind]
      rcases ht.some i rfl with ⟨w, n, hold, rfl⟩ | ⟨-, T, hc⟩
      · refine hold.wp_iunlockput .refl fun u hu => ?_
        rw [wp_bind, wp_endOp, wp_pure]
        exact hQ _ _ hu.sections fun _ => hu.unchanged
      · refine hc.wp_iunlockput ?_
        rw [wp_bind, wp_endOp, wp_pure]
        exact hQ _ _ hc.sections fun hneg => absurd hneg (by decide)

theorem Settled.wp_sysMkdir {Q : ℤ → Fs → Prop} {path : Option (List UInt8)} (h : s.Settled p)
    (hQ : ∀ r t, s.log.Sections t.log → (r < 0 → s.Unchanged t) → Q r t) :
    wp (FsM.sysMkdir p path) Q (fun _ => True) s := by
  unfold FsM.sysMkdir
  rw [wp_bind, wp_beginOp]
  cases path with
  | none =>
      change wp (FsM.endOp >>= fun _ => pure (-1)) _ _ _
      rw [wp_bind, wp_endOp, wp_pure]
      exact hQ _ _ Alike.refl.sections fun _ => Alike.refl.unchanged
  | some path =>
      change wp (FsM.create p path T_DIR 0 0 >>= fun i => FsM.created i) _ _ _
      rw [wp_bind]
      exact h.begun.wp_create fun r t ht => wp_created ht hQ

theorem Settled.wp_sysMknod {Q : ℤ → Fs → Prop} {path : Option (List UInt8)}
    {major minor : Option ℤ} (h : s.Settled p)
    (hQ : ∀ r t, s.log.Sections t.log → (r < 0 → s.Unchanged t) → Q r t) :
    wp (FsM.sysMknod p path major minor) Q (fun _ => True) s := by
  have hnone : wp (FsM.created none) Q (fun _ => True) s.begun := by
    change wp (FsM.endOp >>= fun _ => pure (-1)) _ _ _
    rw [wp_bind, wp_endOp, wp_pure]
    exact hQ _ _ Alike.refl.sections fun _ => Alike.refl.unchanged
  unfold FsM.sysMknod
  rw [wp_bind, wp_beginOp]
  cases path with
  | none => exact hnone
  | some path =>
      cases major with
      | none => exact hnone
      | some major =>
          cases minor with
          | none => exact hnone
          | some minor =>
              change wp (FsM.create p path T_DEV (short major) (short minor) >>= fun i =>
                FsM.created i) _ _ _
              rw [wp_bind]
              exact h.begun.wp_create fun r t ht => wp_created ht hQ

/-! ### `open` -/

/-- The inode is found or made, and locked. -/
theorem Settled.wp_openInode {Q : Option (Fin NINODE) → Fs → Prop} (h : s.Settled p)
    (hnone : ∀ t, s.Alike t → Q none t)
    (hheld : ∀ u i n, s.Holds u i n → Q (some i) (u.locked i))
    (hmade : ∀ t i T, Makes p path omode s t → Created i T_FILE T s t → Q (some i) t) :
    wp (FsM.openInode p path omode) Q (fun _ => True) s := by
  unfold FsM.openInode
  rw [wp_ite]
  refine ⟨fun hcreate => ?_, fun _ => ?_⟩
  · refine h.wp_create fun r t ht => ?_
    cases r with
    | none => exact hnone t (ht.none rfl)
    | some i =>
        rcases ht.some i rfl with ⟨u, n, hold, rfl⟩ | ⟨habsent, T, hc⟩
        · exact hheld u i n hold
        · exact hmade t i T ⟨hcreate, habsent, hc.made (by decide)⟩ hc
  · rw [wp_bind]
    refine h.toWalkable.wp_namei (.inl trivial) (.inl trivial) (fun _ t ht => ?_)
      fun t i n _ ht hk => ?_
    · exact wp_pure.mpr (hnone t ht)
    · change wp (FsM.ilock i >>= fun _ => _) _ _ _
      rw [wp_bind]
      refine ht.wp_ilock hk (.inl trivial) (.inl trivial) fun hold => ?_
      rw [wp_bind, wp_ip, wp_ite]
      refine ⟨fun _ => ?_, fun _ => wp_pure.mpr (hheld t i n hold)⟩
      rw [wp_bind]
      exact hold.wp_iunlockput .refl fun u hu => wp_pure.mpr (hnone u hu)

/-- An open file that has been taken is free again when it is closed. -/
theorem wp_fileclose_taken {Q : Unit → Fs → Prop} {E : Stop → Prop}
    (hfree : (s.user.ftable f).ref = 0) (hclosed : (s.user.ftable f).type = .none) (hQ : Q ⟨⟩ s) :
    wp (FsM.fileclose f) Q E (s.setFile f { s.user.ftable f with ref := 1 }) := by
  have hfile : (s.setFile f { s.user.ftable f with ref := 1 }).user.ftable f =
      { s.user.ftable f with ref := 1 } := Function.update_self ..
  have hback : (s.setFile f { s.user.ftable f with ref := 1 }).setFile f
      { s.user.ftable f with ref := 0, type := .none } = s := by
    have hsame : { s.user.ftable f with ref := 0, type := .none } = s.user.ftable f := by
      rw [← hfree, ← hclosed]
    rw [hsame, setFile, setFile, Function.update_idem, Function.update_eq_self]
  unfold FsM.fileclose FsM.panic
  rw [wp_bind, wp_get, hfile, wp_ite]
  refine ⟨fun hlt => absurd hlt (lt_irrefl 1), fun _ => wp_ite.mpr ⟨fun hlt => ?_, fun _ => ?_⟩⟩
  · exact absurd hlt (lt_irrefl 0)
  · rw [wp_bind, wp_set]
    change wp (FsM.when _ _) _ _ ((s.setFile f { s.user.ftable f with ref := 1 }).setFile f
      { s.user.ftable f with ref := 0, type := .none })
    rw [hback, wp_when, hclosed]
    exact ⟨fun hc => (by cases hc), fun _ => hQ⟩

theorem wp_filealloc {Q : Option (Fin NFILE) → Fs → Prop} {E : Stop → Prop}
    (hnone : (∀ f, (s.user.ftable f).ref ≠ 0) → Q none s)
    (hsome : ∀ f, (s.user.ftable f).ref = 0 →
      Q (some f) (s.setFile f { s.user.ftable f with ref := 1 })) :
    wp FsM.filealloc Q E s := by
  unfold FsM.filealloc
  rw [wp_bind, wp_get]
  cases hfile : (List.finRange NFILE).find? fun f => (s.user.ftable f).ref = 0 with
  | none =>
      refine wp_pure.mpr (hnone fun f hf => ?_)
      have hall := List.find?_eq_none.mp hfile f (List.mem_finRange f)
      rw [hf] at hall
      exact hall rfl
  | some f =>
      rw [wp_bind, wp_set, wp_pure]
      exact hsome f (by simpa using List.find?_some hfile)

theorem wp_fdalloc {Q : Option (Fin NOFILE) → Fs → Prop} {E : Stop → Prop}
    (hnone : (∀ fd, (s.user.proc p).ofile fd ≠ none) → Q none s)
    (hsome : ∀ fd, Lowest (s.user.proc p).ofile fd → Q (some fd) (s.setProc p
      { s.user.proc p with ofile := Function.update (s.user.proc p).ofile fd (some f) })) :
    wp (FsM.fdalloc p f) Q E s := by
  unfold FsM.fdalloc
  rw [wp_bind, wp_get]
  dsimp only
  cases hfd : (List.finRange NOFILE).find? fun fd => ((s.user.proc p).ofile fd).isNone with
  | none =>
      refine wp_pure.mpr (hnone fun fd hc => ?_)
      have hall := List.find?_eq_none.mp hfd fd (List.mem_finRange fd)
      rw [hc] at hall
      exact hall rfl
  | some fd =>
      rw [wp_bind, wp_set, wp_pure]
      exact hsome fd (.of_find (fun _ => Option.isNone_iff_eq_none) hfd)

/-- Either both the file and the descriptor are there, or nothing is taken. -/
theorem wp_openFile {Q : Option (Fin NFILE × Fin NOFILE) → Fs → Prop} {E : Stop → Prop}
    (hclosed : ∀ f, (s.user.ftable f).ref = 0 → (s.user.ftable f).type = .none)
    (hnone : s.NoFile p → Q none s)
    (hsome : ∀ x t, t.disk = s.disk → t.icache = s.icache → t.log = s.log → Q (some x) t) :
    wp (FsM.openFile p) Q E s := by
  unfold FsM.openFile
  rw [wp_bind]
  refine wp_filealloc (fun hfull => wp_pure.mpr (hnone (.inl hfull))) fun f hfree => ?_
  change wp (FsM.fdalloc p f >>= fun _ => _) _ _ _
  rw [wp_bind]
  refine wp_fdalloc (fun hfull => ?_) fun fd _ => wp_pure.mpr (hsome _ _ rfl rfl rfl)
  change wp (FsM.fileclose f >>= fun _ => _) _ _ _
  rw [wp_bind]
  exact wp_fileclose_taken hfree (hclosed f hfree) (wp_pure.mpr (hnone (.inr hfull)))

theorem Settled.wp_sysOpen {Q : ℤ → Fs → Prop} {path : Option (List UInt8)}
    {omode : Option UInt32} (h : s.Settled p)
    (hQ : ∀ r t, s.log.Sections t.log → (r < 0 → s.Unchanged t ∨
      ∃ path' omode', path = some path' ∧ omode = some omode' ∧ Makes p path' omode' s t ∧
        s.NoFile p) → Q r t) :
    wp (FsM.sysOpen p path omode) Q (fun _ => True) s := by
  have hbad : wp (pure (-1 : ℤ) : FsM ℤ) Q (fun _ => True) s :=
    wp_pure.mpr (hQ _ _ .refl fun _ => .inl .refl)
  unfold FsM.sysOpen
  cases path with
  | none => exact hbad
  | some path =>
      cases omode with
      | none => exact hbad
      | some omode =>
          have hquiet : ∀ t, s.begun.Alike t →
              wp (FsM.endOp >>= fun _ => pure (-1 : ℤ)) Q (fun _ => True) t := by
            intro t ht
            rw [wp_bind, wp_endOp, wp_pure]
            exact hQ _ _ ht.sections fun _ => .inl ht.unchanged
          change wp (FsM.beginOp >>= fun _ => FsM.openInode p path omode >>= fun _ => _) _ _ _
          rw [wp_bind, wp_beginOp, wp_bind]
          refine h.begun.wp_openInode hquiet (fun u i n hold => ?_) fun t i T hmakes hc => ?_
          · have hclosed : ∀ f, ((u.locked i).user.ftable f).ref = 0 →
                ((u.locked i).user.ftable f).type = .none := by
              have huser : (u.locked i).user = s.user := hold.back.user
              rw [huser]
              exact h.closed
            change wp (FsM.openFile p >>= fun _ => _) _ _ _
            rw [wp_bind]
            refine wp_openFile hclosed (fun _ => ?_) fun x t hdisk hcache hlog => ?_
            · change wp (FsM.iunlockput i >>= fun _ => _) _ _ _
              rw [wp_bind]
              exact hold.wp_iunlockput .refl hquiet
            · change wp (FsM.iunlock i >>= fun _ => _) _ _ _
              rw [wp_bind]
              refine Fs.wp_iunlock ?_ ?_ ?_
              · rw [hcache, icache_locked]
              · rw [hcache, icache_locked]
                exact hold.names.1
              · rw [wp_bind, wp_endOp, wp_bind, wp_modify, wp_pure]
                refine hQ _ _ (.one (T := ∅) ?_ (Nat.zero_le _)) fun hneg => ?_
                · have hsame : t.log = s.begun.log := hlog.trans hold.back.log
                  rw [show (t.unlocked i).log = s.begun.log from hsame]
                  exact .refl
                · omega
          · have hclosed : ∀ f, (t.user.ftable f).ref = 0 → (t.user.ftable f).type = .none := by
              rw [hc.user]
              exact h.closed
            change wp (FsM.openFile p >>= fun _ => _) _ _ _
            rw [wp_bind]
            refine wp_openFile hclosed (fun hno => ?_) fun x u hdisk hcache hlog => ?_
            · change wp (FsM.iunlockput i >>= fun _ => _) _ _ _
              rw [wp_bind]
              refine hc.wp_iunlockput ?_
              rw [wp_bind, wp_endOp, wp_pure]
              refine hQ _ _ hc.sections fun _ => .inr ⟨path, omode, rfl, rfl,
                ⟨hmakes.create, hmakes.absent, hmakes.made⟩, ?_⟩
              rw [NoFile, hc.user] at hno
              exact hno
            · change wp (FsM.iunlock i >>= fun _ => _) _ _ _
              rw [wp_bind]
              refine Fs.wp_iunlock ?_ ?_ ?_
              · rw [hcache]
                exact hc.entry.1
              · rw [hcache]
                exact hc.entry.2.1.ge
              · rw [wp_bind, wp_endOp, wp_bind, wp_modify, wp_pure]
                refine hQ _ _ ?_ fun hneg => ?_
                · change s.log.Sections u.log.endOp
                  rw [hlog]
                  exact hc.sections
                · omega

end Opened

end Fs

end Xv6
