import Xv6.Fs.Local
import Xv6.Fs.Namei
import Xv6.Fs.Section

/-!
# Between two calls

While no call runs, no inode is locked, each inode in use has its own blocks, and what is in the
inode cache is what is on the disk. From such a state a call goes through sections from `begin_op`
to `end_op`, and logs nothing outside of them.
-/

namespace Xv6

open Foundation

namespace FsLog

/-- What has been done to the log are whole sections, none of which logs more sectors than
`begin_op` reserves for it. -/
def Sections (l l' : FsLog) : Prop :=
  ∃ css : List (List ℕ), (∀ cs ∈ css, cs.toFinset.card ≤ MAXOPBLOCKS) ∧
    l'.trace = l.trace ++ css.flatMap fun cs => .beginOp :: (cs.map .logWrite ++ [.endOp])

variable {l l' l'' : FsLog} {T : Finset ℕ}

theorem Sections.refl : Sections l l :=
  ⟨[], fun _ hcs => absurd hcs List.not_mem_nil, (List.append_nil _).symm⟩

theorem Sections.trans (h : Sections l l') (h' : Sections l' l'') : Sections l l'' := by
  obtain ⟨css, hcss, htrace⟩ := h
  obtain ⟨dss, hdss, htrace'⟩ := h'
  refine ⟨css ++ dss, fun cs hcs => (List.mem_append.mp hcs).elim (hcss cs) (hdss cs), ?_⟩
  rw [htrace', htrace, List.append_assoc, List.flatMap_append]

theorem Sections.one (h : l.beginOp.Logs T l') (hT : T.card ≤ MAXOPBLOCKS) :
    Sections l l'.endOp := by
  obtain ⟨cs, rfl, htrace⟩ := h.trace
  refine ⟨[cs], fun ds hds => by rwa [List.mem_singleton.mp hds], ?_⟩
  change l'.trace ++ [.endOp] = _
  rw [htrace]
  change l.trace ++ [.beginOp] ++ cs.map .logWrite ++ [.endOp] = _
  simp

end FsLog

namespace Fs

/-- The states differ only in the log, in what is left in entries that are not in use, and in
copies of inodes that have or have not been read yet. -/
def Unchanged (s t : Fs) : Prop := s.Alike { t with log := s.log }

/-- No call runs. -/
structure Settled (s : Fs) (p : Fin NPROC) : Prop extends Walkable s p where
  one : s.OneBitmap
  files : ∀ n < s.disk.sb.ninodes, (s.view n).type ≠ 0 → (s.view n).WellFormed s.disk
  apart : ∀ m < s.disk.sb.ninodes, ∀ n < s.disk.sb.ninodes, m ≠ n → (s.view m).type ≠ 0 →
    (s.view n).type ≠ 0 → (s.view m).Apart s.disk (s.view n)
  /-- `nlink` is a `short`, and is not negative -/
  nlink : ∀ n < s.disk.sb.ninodes, 0 ≤ (s.view n).nlink ∧ (s.view n).nlink < 32768
  inum : ∀ i, 0 < (s.icache i).ref → (s.icache i).inum < s.disk.sb.ninodes
  /-- an inode that is in use is not free on the disk -/
  alloc : ∀ i, 0 < (s.icache i).ref → (s.disk.dinode (s.icache i).inum).type ≠ 0
  /-- the copies are what is on the disk -/
  synced : ∀ i, 0 < (s.icache i).ref → (s.icache i).valid = true →
    s.disk.dinode (s.icache i).inum = s.dip i
  /-- an open file that is not in use is not of an inode -/
  closed : ∀ f, (s.user.ftable f).ref = 0 → (s.user.ftable f).type = .none

/-- Every inode in use can be freed. -/
structure Freeable (s : Fs) : Prop where
  one : s.OneBitmap
  low : ∀ i, 0 < (s.icache i).ref → (s.icache i).valid = true → Low (s.dip i) s.disk

section Settled

variable {s t u : Fs} {p : Fin NPROC} {i j : Fin NINODE} {n b : ℕ} {T U : Finset ℕ} {d : Dinode}

theorem wp_beginOp {Q : Unit → Fs → Prop} {E : Stop → Prop} :
    wp FsM.beginOp Q E s ↔ Q ⟨⟩ s.begun := wp_modify

theorem wp_endOp {Q : Unit → Fs → Prop} {E : Stop → Prop} :
    wp FsM.endOp Q E s ↔ Q ⟨⟩ s.ended := wp_modify

/-! ### What holds of a file -/

theorem NoHoles.of_wellFormed (h : d.WellFormed s.disk) : NoHoles d s.disk := ⟨h.small, h.mapped⟩

theorem addr_lt (hone : s.OneBitmap) (h : d.WellFormed s.disk) (hb : d.Has s.disk b) : b < BPB := by
  have hin := h.isData b hb
  have hlt : b < s.disk.sb.size := hin.2.trans_le (Nat.sub_le _ _)
  exact hlt.trans_le hone

theorem Low.of_wellFormed (hone : s.OneBitmap) (h : d.WellFormed s.disk) : Low d s.disk where
  addr := fun k => by
    by_cases hzero : d.addr k = 0
    · rw [hzero]
      decide
    · refine addr_lt hone h ⟨hzero, ?_⟩
      by_cases hk : k < NDIRECT
      · refine .inr ⟨k, ?_⟩
        rw [Dinode.block, if_pos hk]
      · by_cases htable : k = NDIRECT
        · rw [htable]
          exact .inl rfl
        · refine absurd (dif_neg ?_) hzero
          omega
  entry := fun htable k => by
    by_cases hzero : (s.disk.data d.table).word k = 0
    · rw [hzero]
      decide
    · refine addr_lt hone h ⟨hzero, .inr ⟨NDIRECT + k, ?_⟩⟩
      rw [Dinode.block, if_neg (by omega), if_neg htable, Nat.add_sub_cancel_left]

/-- Every inode in use can be freed where every file has its blocks. -/
theorem Freeable.of_files (htidy : s.Tidy) (hone : s.OneBitmap)
    (hinum : ∀ i, 0 < (s.icache i).ref → (s.icache i).inum < s.disk.sb.ninodes)
    (hfiles : ∀ n < s.disk.sb.ninodes, (s.view n).type ≠ 0 → (s.view n).WellFormed s.disk) :
    s.Freeable where
  one := hone
  low := fun i hi hvalid => by
    have hview : s.view (s.icache i).inum = s.dip i := by
      rw [htidy.view ⟨hi, htidy.dev i hi, rfl⟩, inode, if_pos hvalid]
      rfl
    have hfile := hfiles _ (hinum i hi)
    rw [hview] at hfile
    exact .of_wellFormed hone (hfile fun hzero => htidy.read i hi ⟨hvalid, hzero⟩)

/-! ### Giving back -/

theorem Low.congr (h : Low d s.disk) (hdata : t.disk.data = s.disk.data) : Low d t.disk :=
  ⟨h.addr, by rw [hdata]; exact h.entry⟩

theorem Freeable.put (h : s.Freeable) (ht : Put i T s t) : t.Freeable where
  one := by
    rw [OneBitmap, ht.sb]
    exact h.one
  low := fun j hj hvalid => by
    by_cases hji : j = i
    · subst hji
      obtain ⟨hvalid', hdip⟩ := ht.kept hvalid
      have href := ht.ref
      rw [hdip]
      exact (h.low j (by omega) hvalid').congr ht.data
    · have hentry := ht.icache j hji
      rw [hentry] at hj hvalid
      rw [dip, hentry]
      exact (h.low j hj hvalid).congr ht.data

theorem Freeable.wp_iput {Q : Unit → Fs → Prop} (h : s.Freeable)
    (hQ : ∀ t T, Put i T s t → Q ⟨⟩ t) : wp (FsM.iput i) Q (fun _ => True) s :=
  wp_iput_any (fun hone hvalid => h.low i (by omega) hvalid) hQ

theorem Put.card_le (h : Put i T s t) : T.card ≤ 2 :=
  (Finset.card_le_card h.bound).trans Finset.card_le_two

theorem quota_of_le {k : ℕ} (hT : T.card ≤ k) (hk : k ≤ 10) : T.card ≤ MAXOPBLOCKS := hT.trans hk

/-- A section in which only a reference is given back. -/
theorem Freeable.section_iput {Q : Unit → Fs → Prop} (h : s.Freeable)
    (hQ : ∀ t, t.Freeable → t.user = s.user → s.log.Sections t.log → Q ⟨⟩ t) :
    wp (do
      FsM.beginOp
      FsM.iput i
      FsM.endOp) Q (fun _ => True) s := by
  have hbegun : s.begun.Freeable := ⟨h.one, h.low⟩
  rw [wp_bind, wp_beginOp, wp_bind]
  refine hbegun.wp_iput fun t T ht => wp_endOp.mpr (hQ _ ?_ ht.user ?_)
  · exact ⟨(hbegun.put ht).one, (hbegun.put ht).low⟩
  · exact .one ht.logs (quota_of_le ht.card_le (by decide))

theorem Freeable.wp_fileclose {Q : Unit → Fs → Prop} {f : Fin NFILE} (h : s.Freeable)
    (hQ : ∀ t, t.Freeable → s.log.Sections t.log → Q ⟨⟩ t) :
    wp (FsM.fileclose f) Q (fun _ => True) s := by
  unfold FsM.fileclose FsM.panic
  rw [wp_bind, wp_get, wp_ite]
  refine ⟨fun _ => wp_throw.mpr trivial, fun _ => wp_ite.mpr ⟨fun _ => ?_, fun _ => ?_⟩⟩
  · exact wp_set.mpr (hQ _ ⟨h.one, h.low⟩ .refl)
  · rw [wp_bind, wp_set, wp_when]
    refine ⟨fun _ => ?_, fun _ => hQ _ ⟨h.one, h.low⟩ .refl⟩
    have hset : (s.setFile f { s.user.ftable f with ref := 0, type := .none }).Freeable :=
      ⟨h.one, h.low⟩
    exact hset.section_iput fun t ht _ hlog => hQ t ht hlog

theorem wp_argfd {Q : Option (Fin NOFILE × Fin NFILE) → Fs → Prop} {E : Stop → Prop}
    {fd : Option ℤ} (hQ : ∀ x, Q x s) : wp (FsM.argfd p fd) Q E s := by
  unfold FsM.argfd
  rw [wp_bind, wp_get]
  cases fd with
  | none => exact wp_pure.mpr (hQ _)
  | some fd =>
      change wp (if _ : 0 ≤ fd ∧ fd < NOFILE then _ else _) _ _ s
      split
      · exact wp_pure.mpr (hQ _)
      · exact wp_pure.mpr (hQ _)

theorem Freeable.wp_sysClose {Q : ℤ → Fs → Prop} {fd : Option ℤ} (h : s.Freeable)
    (hQ : ∀ r t, s.log.Sections t.log → (r < 0 → s.Unchanged t) → Q r t) :
    wp (FsM.sysClose p fd) Q (fun _ => True) s := by
  unfold FsM.sysClose
  rw [wp_bind]
  refine wp_argfd fun a => ?_
  cases a with
  | none => exact wp_pure.mpr (hQ _ _ .refl fun _ => .refl)
  | some x =>
      change wp (FsM.clearFd p x.1 >>= fun _ => FsM.fileclose x.2 >>= fun _ => pure 0) _ _ _
      unfold FsM.clearFd
      rw [wp_bind, wp_modify, wp_bind]
      have hclear : (s.setProc p { s.user.proc p with
          ofile := Function.update (s.user.proc p).ofile x.1 none }).Freeable := ⟨h.one, h.low⟩
      exact hclear.wp_fileclose fun u _ hlog =>
        wp_pure.mpr (hQ _ _ hlog fun hneg => absurd hneg (by decide))

theorem Freeable.wp_closeFiles {Q : Unit → Fs → Prop} {fds : List (Fin NOFILE)} (h : s.Freeable)
    (hQ : ∀ t, t.Freeable → s.log.Sections t.log → Q ⟨⟩ t) :
    wp (FsM.closeFiles p fds) Q (fun _ => True) s := by
  induction fds generalizing s with
  | nil => exact wp_pure.mpr (hQ s h .refl)
  | cons fd fds ih =>
      rw [FsM.closeFiles, wp_bind, wp_get]
      cases (s.user.proc p).ofile fd with
      | none => exact ih h hQ
      | some f =>
          change wp (FsM.fileclose f >>= fun _ => FsM.clearFd p fd >>= fun _ =>
            FsM.closeFiles p fds) _ _ _
          unfold FsM.clearFd
          rw [wp_bind]
          refine h.wp_fileclose fun t ht hlog => ?_
          rw [wp_bind, wp_modify]
          exact ih ⟨ht.one, ht.low⟩ fun u hu hlog' => hQ u hu (hlog.trans hlog')

theorem Freeable.wp_exit {Q : Unit → Fs → Prop} (h : s.Freeable)
    (hQ : ∀ t, s.log.Sections t.log → Q ⟨⟩ t) : wp (FsM.exit p) Q (fun _ => True) s := by
  unfold FsM.exit
  rw [wp_bind]
  refine h.wp_closeFiles fun t ht hlog => ?_
  have hbegun : t.begun.Freeable := ⟨ht.one, ht.low⟩
  rw [wp_bind, wp_beginOp, wp_bind, wp_get, wp_bind]
  refine hbegun.wp_iput fun u T hu => ?_
  rw [wp_bind, wp_endOp, wp_modify]
  exact hQ _ (hlog.trans (.one hu.logs (quota_of_le hu.card_le (by decide))))

/-! ### Before a section and in it -/

namespace Settled

theorem begun (h : s.Settled p) : s.begun.Settled p where
  tidy := ⟨h.tidy.dev, h.tidy.nonneg, h.tidy.unique, h.tidy.read⟩
  ok := h.ok
  dir := h.dir
  entry := fun n hn htype k name m hslot =>
    ⟨(h.entry n hn htype k name m hslot).inum, (h.entry n hn htype k name m hslot).linked⟩
  idle := h.idle
  root := ⟨h.root.inum, h.root.linked⟩
  cwd := h.cwd
  here := h.here
  one := h.one
  files := h.files
  apart := h.apart
  nlink := h.nlink
  inum := h.inum
  alloc := h.alloc
  synced := h.synced
  closed := h.closed

theorem freeable (h : s.Settled p) : s.Freeable := .of_files h.tidy h.one h.inum h.files

end Settled

/-- With one reference more, every inode in use can still be freed. -/
theorem Refers.freeable (ht : s.Refers t i n) (hk : s.Kept n) (h : s.Settled p) : t.Freeable := by
  refine .of_files (ht.tidy h.tidy) ?_ (fun j hj => ?_) fun m hm htype => ?_
  · rw [OneBitmap, ht.disk]
    exact h.one
  · rw [ht.disk]
    by_cases hji : j = i
    · rw [hji, ht.names.2.2]
      exact hk.inum
    · rw [ht.ref_ne hji] at hj
      rw [(ht.entry hj).inum]
      exact h.inum j hj
  · rw [ht.disk] at hm ⊢
    rw [ht.view h.tidy] at htype ⊢
    exact h.files m hm htype

/-! ### Sections that change nothing -/

theorem Alike.unchanged (h : s.begun.Alike t) : s.Unchanged t.ended where
  disk := h.disk
  log := rfl
  user := h.user
  io := h.io
  ref := h.ref
  entry := fun j hj => ⟨(h.entry j hj).dev, (h.entry j hj).inum, (h.entry j hj).busy,
    (h.entry j hj).inode, (h.entry j hj).stale, (h.entry j hj).valid⟩

theorem Alike.sections (h : s.begun.Alike t) : s.log.Sections t.ended.log := by
  refine .one (T := ∅) ?_ (Nat.zero_le _)
  rw [h.log]
  exact .refl

end Settled

end Fs

end Xv6
