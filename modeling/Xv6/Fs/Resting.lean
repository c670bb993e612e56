import Xv6.Fs.Naming
import Xv6.Fs.Walks

/-!
# Between the calls

Between two calls the file system rests: no inode is locked, and every reference in the inode cache
is one of a current directory or of an open file. It is then settled for every process. The calls
that change no directory leave it so: what `close`, `exit` and `chdir` take from the processes they
give back to the cache, and `exec` gives back what it has looked up.
-/

namespace Xv6

open Foundation

/-- One reference to the inode, if there is one. -/
def one (x : Option (Fin NINODE)) : Fin NINODE → ℤ := fun i => if x = some i then 1 else 0

theorem one_none : one none = 0 := by
  funext i
  exact if_neg fun hc => by cases hc

theorem one_some {i : Fin NINODE} : one (some i) = Pi.single i 1 := by
  funext j
  by_cases hj : j = i
  · rw [hj, Pi.single_eq_same]
    exact if_pos rfl
  · rw [Pi.single_eq_of_ne hj]
    exact if_neg fun hc => hj (Option.some.inj hc).symm

namespace Fs

/-- No call is running. -/
def Resting (s : Fs) : Prop := s.Running 0 ∅ 0 0 0

/-- There are blocks for the entries that a call may write, and links for what it may count. -/
structure Roomy (s : Fs) : Prop where
  blocks : 6 ≤ s.disk.free.length
  links : ∀ n < s.disk.sb.ninodes, (s.disk.dinode n).nlink + 1 < 32768

section Resting

variable {s t u : Fs} {p q : Fin NPROC} {i j : Fin NINODE} {n b l : ℕ} {f : Fin NFILE}
  {e : Fin NINODE → ℤ} {L : Finset (Fin NINODE)} {o : Multiset ℕ} {E : Stop → Prop}
  {x : Option (Fin NINODE)}

/-! ### What the processes hold -/

theorem inodes_setFile {y : File} : (s.setFile f y).user.inodes =
    Function.update s.user.inodes (.inr f) (if y.type = .inode then some y.ip else none) := by
  funext c
  cases c with
  | inl q => exact (Function.update_of_ne Sum.inl_ne_inr _ _).symm
  | inr g =>
      change (if (Function.update s.user.ftable f y g).type = .inode then
        some (Function.update s.user.ftable f y g).ip else none) = _
      by_cases hg : g = f
      · rw [hg, Function.update_self, Function.update_self]
      · rw [Function.update_of_ne hg, Function.update_of_ne fun hc => hg (Sum.inr_injective hc)]
        rfl

theorem inodes_setProc {y : Proc} : (s.setProc p y).user.inodes =
    Function.update s.user.inodes (.inl p) (if y.state = .live then some y.cwd else none) := by
  funext c
  cases c with
  | inl q =>
      change (if (Function.update s.user.proc p y q).state = .live then
        some (Function.update s.user.proc p y q).cwd else none) = _
      by_cases hq : q = p
      · rw [hq, Function.update_self, Function.update_self]
      · rw [Function.update_of_ne hq, Function.update_of_ne fun hc => hq (Sum.inl_injective hc)]
        rfl
  | inr g => exact (Function.update_of_ne Sum.inr_ne_inl _ _).symm

namespace Running

/-- A process holds another inode, or none; the reference to the old one is with the call. -/
theorem setUser (h : s.Running e L o b l) {v : User} {c : Fin NPROC ⊕ Fin NFILE}
    (hv : v.inodes = Function.update s.user.inodes c x)
    (hclosed : ∀ g, (v.ftable g).ref = 0 → (v.ftable g).type = .none) :
    ({ s with user := v } : Fs).Running (e + one (s.user.inodes c) - one x) L o b l :=
  { h with
    refs := fun i => by
      have hcount := pointers_update (g := s.user.inodes) (a := i) c x
      change (s.icache i).ref = pointers v.inodes i + (e i + one (s.user.inodes c) i - one x i)
      rw [h.refs i, hv, one, one]
      split_ifs at hcount ⊢ <;> omega
    closed := hclosed }

theorem setFile (h : s.Running e L o b l) {y : File} (hy : y.ref = 0 → y.type = .none) :
    (s.setFile f y).Running (e + one (s.user.inodes (.inr f)) -
      one (if y.type = .inode then some y.ip else none)) L o b l := by
  refine h.setUser inodes_setFile fun g hg => ?_
  change (Function.update s.user.ftable f y g).ref = 0 at hg
  change (Function.update s.user.ftable f y g).type = .none
  by_cases hgf : g = f
  · rw [hgf, Function.update_self] at hg ⊢
    exact hy hg
  · rw [Function.update_of_ne hgf] at hg ⊢
    exact h.closed g hg

theorem setProc (h : s.Running e L o b l) {y : Proc} :
    (s.setProc p y).Running (e + one (s.user.inodes (.inl p)) -
      one (if y.state = .live then some y.cwd else none)) L o b l :=
  h.setUser inodes_setProc h.closed

/-- The descriptors of a process do not hold inodes. -/
theorem setOfile (h : s.Running e L o b l) {ofile : Fin NOFILE → Option (Fin NFILE)} :
    (s.setProc p { s.user.proc p with ofile := ofile }).Running e L o b l := by
  have hset := h.setProc (p := p) (y := { s.user.proc p with ofile := ofile })
  change Running (e + one (s.user.inodes (.inl p)) - one (s.user.inodes (.inl p))) L o b l _ at hset
  rwa [add_sub_cancel_right] at hset

/-! ### Sections -/

theorem begun (h : s.Running e L o b l) : s.begun.Running e L o b l := { h with }

theorem ended (h : s.Running e L o b l) : s.ended.Running e L o b l := { h with }

/-- A call that fails may have logged nothing else. -/
theorem unchanged (h : s.Running e L o b l) (hu : s.Unchanged t) : t.Running e L o b l :=
  { h.alike hu with }

theorem rest (h : s.Running 0 ∅ o b l) : s.Resting :=
  h.mono (Multiset.zero_le o) (Nat.zero_le b) (Nat.zero_le l)

end Running

/-! ### At rest -/

theorem Resting.roomy (h : s.Resting) (hs : s.Roomy) : s.Running 0 ∅ 0 6 1 :=
  { h with
    room := hs.blocks
    few := hs.links }

/-- A file system at rest is settled for every process. -/
theorem Resting.settled (h : s.Resting) (hp : (s.user.proc p).state = .live) : s.Settled p where
  toWalkable := h.walkable (fun _ => le_rfl) hp
  one := h.sound.one
  files := fun n hn htype => by
    rw [h.view_eq] at htype ⊢
    exact h.sound.files n hn htype
  apart := fun m hm n hn hne hmtype hntype b hb hb' => by
    rw [h.view_eq] at hmtype hntype hb hb'
    exact h.sound.apart m hm n hn hne b ⟨hmtype, hb⟩ ⟨hntype, hb'⟩
  nlink := fun n hn => by
    rw [h.view_eq]
    exact ⟨h.linked.nonneg hn, by simpa using h.few n hn⟩
  inum := fun i hi => (h.shows i hi).inum
  alloc := fun i hi => (h.shows i hi).alloc
  synced := fun i hi => (h.shows i hi).synced
  closed := h.closed

/-! ### `close` and `exit` -/

namespace Running

theorem wp_fileclose {Q : Unit → Fs → Prop} (hE : Lax E) (h : s.Running 0 ∅ o b l)
    (hQ : ∀ t, t.Running 0 ∅ o 0 l → t.user.proc = s.user.proc → Q ⟨⟩ t) :
    wp (FsM.fileclose f) Q E s := by
  have hcell : s.user.inodes (.inr f) =
      if (s.user.ftable f).type = .inode then some (s.user.ftable f).ip else none := rfl
  unfold FsM.fileclose FsM.panic
  rw [wp_bind, wp_get, wp_ite]
  refine ⟨fun _ => wp_throw.mpr (hE _ (by decide)), fun hpos => wp_ite.mpr ⟨fun hmore => ?_,
    fun _ => ?_⟩⟩
  · have hset := h.setFile (f := f)
      (y := { s.user.ftable f with ref := (s.user.ftable f).ref - 1 }) fun hzero => by
        change (s.user.ftable f).ref - 1 = 0 at hzero
        omega
    rw [← hcell, add_sub_cancel_right] at hset
    exact wp_set.mpr (hQ _ (hset.mono le_rfl (Nat.zero_le b) le_rfl) rfl)
  · have hset := h.setFile (f := f)
      (y := { s.user.ftable f with ref := 0, type := .none }) fun _ => rfl
    rw [if_neg (fun hc => by cases hc), one_none, sub_zero, zero_add, hcell] at hset
    rw [wp_bind, wp_set, wp_when]
    refine ⟨fun hinode => ?_, fun hother => ?_⟩
    · rw [if_pos hinode, one_some] at hset
      rw [wp_bind, wp_beginOp, wp_bind]
      refine hset.begun.wp_iput hE ?_ (Finset.notMem_empty _) fun t ht _ huser =>
        wp_endOp.mpr (hQ _ ?_ ?_)
      · have href := hset.refs (s.user.ftable f).ip
        rw [Pi.single_eq_same] at href
        change (s.icache (s.user.ftable f).ip).ref = _ at href
        change 0 < (s.icache (s.user.ftable f).ip).ref
        omega
      · rw [sub_self] at ht
        exact ht.ended
      · change t.user.proc = _
        rw [huser]
        rfl
    · rw [if_neg hother, one_none] at hset
      exact hQ _ (hset.mono le_rfl (Nat.zero_le b) le_rfl) rfl

theorem wp_sysClose {Q : ℤ → Fs → Prop} {fd : Option ℤ} (hE : Lax E) (h : s.Running 0 ∅ o b l)
    (hQ : ∀ r t, t.Resting → Q r t) : wp (FsM.sysClose p fd) Q E s := by
  unfold FsM.sysClose
  rw [wp_bind]
  refine wp_argfd fun a => ?_
  cases a with
  | none => exact wp_pure.mpr (hQ _ _ h.rest)
  | some x =>
      change wp (FsM.clearFd p x.1 >>= fun _ => FsM.fileclose x.2 >>= fun _ => pure 0) _ _ _
      unfold FsM.clearFd
      rw [wp_bind, wp_modify, wp_bind]
      exact h.setOfile.wp_fileclose hE fun t ht _ => wp_pure.mpr (hQ _ t ht.rest)

theorem wp_closeFiles {Q : Unit → Fs → Prop} {fds : List (Fin NOFILE)} (hE : Lax E)
    (h : s.Running 0 ∅ o b l)
    (hQ : ∀ t, t.Running 0 ∅ o 0 l → (t.user.proc p).state = (s.user.proc p).state → Q ⟨⟩ t) :
    wp (FsM.closeFiles p fds) Q E s := by
  induction fds generalizing s b with
  | nil => exact wp_pure.mpr (hQ s (h.mono le_rfl (Nat.zero_le b) le_rfl) rfl)
  | cons fd fds ih =>
      rw [FsM.closeFiles, wp_bind, wp_get]
      cases (s.user.proc p).ofile fd with
      | none => exact ih h hQ
      | some f =>
          change wp (FsM.fileclose f >>= fun _ => FsM.clearFd p fd >>= fun _ =>
            FsM.closeFiles p fds) _ _ _
          unfold FsM.clearFd
          rw [wp_bind]
          refine h.wp_fileclose hE fun t ht hproc => ?_
          rw [wp_bind, wp_modify]
          refine ih ht.setOfile fun u hu hstate => hQ u hu ?_
          rw [hstate, ← hproc]
          change (Function.update t.user.proc p _ p).state = _
          rw [Function.update_self]

theorem wp_exit {Q : Unit → Fs → Prop} (hE : Lax E) (h : s.Running 0 ∅ o b l)
    (hp : (s.user.proc p).state = .live) (hQ : ∀ t, t.Resting → Q ⟨⟩ t) :
    wp (FsM.exit p) Q E s := by
  unfold FsM.exit
  rw [wp_bind]
  refine h.wp_closeFiles hE fun t ht hstate => ?_
  have hlive : (t.user.proc p).state = .live := hstate.trans hp
  rw [wp_bind, wp_beginOp, wp_bind, wp_get, wp_bind]
  refine ht.begun.wp_iput hE (ht.cwd_pos le_rfl hlive) (Finset.notMem_empty _)
    fun u hu _ huser => ?_
  rw [wp_bind, wp_endOp, wp_modify]
  have hproc : u.user.proc p = t.user.proc p := by rw [huser]; rfl
  have hset := hu.ended.setProc (p := p)
    (y := { u.user.proc p with cwd := 0, state := .zombie })
  have hcell : u.ended.user.inodes (.inl p) = some (t.user.proc p).cwd := by
    change (if (u.user.proc p).state = .live then some (u.user.proc p).cwd else none) = _
    rw [hproc, if_pos hlive]
  rw [hcell, one_some, if_neg (fun hc => by cases hc), one_none, sub_zero] at hset
  change Running (0 - Pi.single (t.user.proc p).cwd 1 + Pi.single (t.user.proc p).cwd 1) _ _ _ _ _
    at hset
  rw [sub_add_cancel] at hset
  exact hQ _ hset.rest

/-! ### Looking up -/

/-- The inode that has been looked up is locked. -/
theorem wp_ilock_found {Q : Unit → Fs → Prop} (hE : Lax E) (h : s.Running e L o b l)
    (hr : s.Refers t i n) (hk : s.Kept n)
    (hQ : i ∉ L → s.Holds t i n → (t.locked i).Running (e + Pi.single i 1) (insert i L) o b l →
      Q ⟨⟩ (t.locked i)) : wp (FsM.ilock i) Q E t := by
  refine hr.wp_ilock hk (.inl (hE _ (by decide))) (.inl (hE _ (by decide))) fun hold => ?_
  have htype := hold.type
  rw [h.view_eq] at htype
  have ht := h.refers hr hk.inum htype
  refine hQ (fun hL => ?_) hold (ht.locked hr.names.1)
  rw [← ht.busy i hr.names.1, hold.idle] at hL
  cases hL

theorem wp_sysChdir {Q : ℤ → Fs → Prop} {path : Option (List UInt8)} (hE : Lax E)
    (h : s.Resting) (hp : (s.user.proc p).state = .live) (hQ : ∀ r t, t.Resting → Q r t) :
    wp (FsM.sysChdir p path) Q E s := by
  have hquiet : ∀ t, t.Running 0 ∅ 0 0 0 →
      wp (FsM.endOp >>= fun _ => pure (-1 : ℤ)) Q E t := fun t ht => by
    rw [wp_bind, wp_endOp, wp_pure]
    exact hQ _ _ ht.ended
  have hwalk := (Running.begun h).walkable (p := p) (fun _ => le_rfl) hp
  unfold FsM.sysChdir
  rw [wp_bind, wp_beginOp]
  cases path with
  | none => exact hquiet _ (Running.begun h)
  | some path =>
      change wp (FsM.namei p path >>= fun _ => _) _ _ _
      rw [wp_bind]
      refine hwalk.wp_namei (.inl (hE _ (by decide))) (.inl (hE _ (by decide)))
        (fun _ t ht => hquiet t ((Running.begun h).alike ht)) fun t i n _ ht hk => ?_
      change wp (FsM.ilock i >>= fun _ => _) _ _ _
      rw [wp_bind]
      refine (Running.begun h).wp_ilock_found hE ht hk fun _ hold hlocked => ?_
      have hmem := Finset.mem_insert_self i ∅
      have hempty := Finset.erase_insert (Finset.notMem_empty i)
      rw [wp_bind, wp_ip, wp_ite]
      refine ⟨fun _ => ?_, fun _ => ?_⟩
      · rw [wp_bind]
        refine hlocked.wp_iunlockput hE hmem fun u hu _ _ => hquiet u ?_
        rwa [zero_add, sub_self, hempty] at hu
      · rw [wp_bind]
        refine hlocked.wp_iunlock hmem fun hu => ?_
        rw [zero_add, hempty] at hu
        rw [wp_bind, wp_get, wp_bind]
        have huser : ((t.locked i).unlocked i).user = s.user := hold.back.user
        have hlive : (((t.locked i).unlocked i).user.proc p).state = .live := by
          rw [huser]
          exact hp
        refine hu.wp_iput hE (hu.cwd_pos ?_ hlive) (Finset.notMem_empty _) fun v hv _ hsame => ?_
        · rw [Pi.single_apply]
          split <;> decide
        · rw [wp_bind, wp_endOp, wp_bind, wp_modify, wp_pure]
          have hset := hv.ended.setProc (p := p) (y := { v.user.proc p with cwd := i })
          have hproc : v.user.proc p = s.user.proc p := by rw [hsame, huser]
          have hcell : v.ended.user.inodes (.inl p) = some (s.user.proc p).cwd := by
            change (if (v.user.proc p).state = .live then some (v.user.proc p).cwd else none) = _
            rw [hproc, if_pos hp]
          have hnew : (if (v.user.proc p).state = .live then some i else none) = some i := by
            rw [hproc, if_pos hp]
          change Running (_ + one (v.ended.user.inodes (.inl p)) -
            one (if (v.user.proc p).state = .live then some i else none)) _ _ _ _ _ at hset
          rw [hcell, hnew, one_some, one_some, huser, sub_add_cancel, sub_self] at hset
          exact hQ _ _ hset.rest

theorem wp_exec {Q : Bool → Fs → Prop} {m : FsM.Paging} {stack path : List UInt8} (hE : Lax E)
    (h : s.Resting) (hp : (s.user.proc p).state = .live) (hQ : ∀ r t, t.Resting → Q r t) :
    wp (FsM.exec m stack p path) Q E s :=
  (h.settled hp).wp_exec hE fun r t _ hu => hQ r t (Running.unchanged h hu)

end Running

end Resting

end Fs

end Xv6
