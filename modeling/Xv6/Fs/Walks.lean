import Xv6.Fs.Settled

/-!
# Calls that change no directory

`chdir` and `exec` look a path up and may give references back. `open` does so too when it is not
to make the file; then it takes an open file and a descriptor, and gives all back if there are none.
-/

namespace Xv6

open Foundation

namespace Fs

section Walks

variable {s t u : Fs} {p : Fin NPROC} {i j : Fin NINODE} {n b : ℕ} {T U : Finset ℕ} {d : Dinode}
  {E : Stop → Prop}

theorem Settled.wp_sysChdir {Q : ℤ → Fs → Prop} {path : Option (List UInt8)} (h : s.Settled p)
    (hQ : ∀ r t, s.log.Sections t.log → (r < 0 → s.Unchanged t) → Q r t) :
    wp (FsM.sysChdir p path) Q (fun _ => True) s := by
  have hquiet : ∀ t, s.begun.Alike t → Q (-1) t.ended := fun t ht =>
    hQ _ _ ht.sections fun _ => ht.unchanged
  unfold FsM.sysChdir
  rw [wp_bind, wp_beginOp]
  cases path with
  | none =>
      rw [wp_bind, wp_endOp, wp_pure]
      exact hquiet _ .refl
  | some path =>
      change wp (FsM.namei p path >>= fun _ => _) _ _ _
      rw [wp_bind]
      refine h.begun.toWalkable.wp_namei (.inl trivial) (.inl trivial) (fun _ t ht => ?_)
        fun t i n _ ht hk => ?_
      · change wp (FsM.endOp >>= fun _ => pure (-1)) _ _ _
        rw [wp_bind, wp_endOp, wp_pure]
        exact hquiet t ht
      · change wp (FsM.ilock i >>= fun _ => _) _ _ _
        rw [wp_bind]
        refine ht.wp_ilock hk (.inl trivial) (.inl trivial) fun hold => ?_
        rw [wp_bind, wp_ip, wp_ite]
        refine ⟨fun _ => ?_, fun _ => ?_⟩
        · rw [wp_bind]
          refine hold.wp_iunlockput .refl fun u hu => ?_
          rw [wp_bind, wp_endOp, wp_pure]
          exact hquiet u hu
        · rw [wp_bind]
          refine hold.wp_iunlock .refl fun u hu => ?_
          rw [wp_bind, wp_get, wp_bind]
          refine (hu.freeable hk h.begun).wp_iput fun v T hv => ?_
          rw [wp_bind, wp_endOp, wp_bind, wp_modify, wp_pure]
          refine hQ _ _ (.one ?_ (quota_of_le hv.card_le (by decide))) fun hneg => ?_
          · rw [← show u.log = s.log.beginOp from hu.back.log]
            exact hv.logs
          · exact absurd hneg (by decide)

/-! ### `exec` -/

/-- A segment is read. -/
theorem wp_loaduvmLoop_any {Q : Bool → Fs → Prop} {m : FsM.Paging} {call addr offset sz : ℕ}
    {rounds k : ℕ} (hE : Lax E) (h : NoHoles (s.dip i) s.disk) (hQ : ∀ r, Q r s) :
    wp (FsM.loaduvmLoop m call addr i offset sz rounds k) Q E s := by
  induction rounds generalizing k with
  | zero => exact wp_pure.mpr (hQ _)
  | succ rounds ih =>
      unfold FsM.loaduvmLoop FsM.panic
      rw [wp_ite]
      refine ⟨fun _ => wp_throw.mpr (hE _ (by decide)), fun _ => ?_⟩
      rw [wp_bind]
      refine wp_readi_any h fun r => wp_ite.mpr ⟨fun _ => wp_pure.mpr (hQ _), fun _ => ih⟩

theorem wp_loadSegments_any {Q : Bool → Fs → Prop} {m : FsM.Paging} {count off sz : ℕ}
    (hE : Lax E) (h : NoHoles (s.dip i) s.disk) (hQ : ∀ r, Q r s) :
    wp (FsM.loadSegments m i count off sz) Q E s := by
  induction count generalizing off sz with
  | zero => exact wp_pure.mpr (hQ _)
  | succ count ih =>
      unfold FsM.loadSegments FsM.loaduvm FsM.panic
      rw [wp_bind]
      refine wp_readi_any h fun r => wp_ite.mpr ⟨fun _ => wp_pure.mpr (hQ _), fun _ => ?_⟩
      refine wp_ite.mpr ⟨fun _ => ih, fun _ =>
        wp_ite.mpr ⟨fun _ => wp_pure.mpr (hQ _), fun _ => ?_⟩⟩
      refine wp_ite.mpr ⟨fun _ => wp_pure.mpr (hQ _), fun _ => ?_⟩
      rw [wp_bind, wp_ite]
      refine ⟨fun _ => wp_throw.mpr (hE _ (by decide)), fun _ => wp_loaduvmLoop_any hE h fun r => ?_⟩
      exact wp_ite.mpr ⟨fun _ => ih, fun _ => wp_pure.mpr (hQ _)⟩

/-- Reading the file does not change it. -/
theorem wp_loadImage_any {Q : Bool → Fs → Prop} {m : FsM.Paging} {stack : List UInt8}
    (hE : Lax E) (h : NoHoles (s.dip i) s.disk) (hQ : ∀ r, Q r s) :
    wp (FsM.loadImage m stack i) Q E s := by
  unfold FsM.loadImage
  rw [wp_bind]
  refine wp_readi_any h fun r => wp_ite.mpr ⟨fun _ => wp_pure.mpr (hQ _), fun _ => ?_⟩
  refine wp_ite.mpr ⟨fun _ => wp_pure.mpr (hQ _), fun _ => ?_⟩
  exact wp_ite.mpr ⟨fun _ => wp_pure.mpr (hQ _), fun _ => wp_loadSegments_any hE h hQ⟩

/-- A locked inode has its blocks. -/
theorem Holds.noHoles (hold : s.Holds t i n) (h : s.Settled p) :
    NoHoles ((t.locked i).dip i) (t.locked i).disk := by
  have hdip : (t.locked i).dip i = s.view n := dip_locked.trans hold.inode
  have hdisk : (t.locked i).disk = s.disk := hold.disk
  rw [hdip, hdisk]
  exact .of_wellFormed (h.files n hold.kept.inum hold.type)

theorem Settled.wp_exec {Q : Bool → Fs → Prop} {m : FsM.Paging} {stack path : List UInt8}
    (hE : Lax E) (h : s.Settled p) (hQ : ∀ r t, s.log.Sections t.log → s.Unchanged t → Q r t) :
    wp (FsM.exec m stack p path) Q E s := by
  unfold FsM.exec
  rw [wp_bind, wp_beginOp, wp_bind]
  refine h.begun.toWalkable.wp_namei (.inl (hE _ (by decide))) (.inl (hE _ (by decide))) (fun _ t ht => ?_)
    fun t i n _ ht hk => ?_
  · change wp (FsM.endOp >>= fun _ => pure false) _ _ _
    rw [wp_bind, wp_endOp, wp_pure]
    exact hQ _ _ ht.sections ht.unchanged
  · change wp (FsM.ilock i >>= fun _ => _) _ _ _
    rw [wp_bind]
    refine ht.wp_ilock hk (.inl (hE _ (by decide))) (.inl (hE _ (by decide))) fun hold => ?_
    rw [wp_bind]
    refine wp_loadImage_any hE (hold.noHoles h.begun) fun r => ?_
    rw [wp_bind]
    refine hold.wp_iunlockput .refl fun u hu => ?_
    rw [wp_bind, wp_endOp, wp_pure]
    exact hQ _ _ hu.sections hu.unchanged

end Walks

end Fs

end Xv6
