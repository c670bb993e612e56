import Xv6.Fs.ByteArray
import Xv6.Syscall.File

/-!
# Writing to open files

`filewrite` of `file.c`, on the state of the file system. The bytes to write are those from
`addr` on, of which the loop takes a chunk in each round.
-/

namespace Xv6

open Foundation

namespace FsM

/-- The file that a pointer to it points to. -/
def file (f : Fin NFILE) : FsM File := do return (← get).user.ftable f

/-- What `filewrite` does from `ilock` to `iunlock`. -/
def writeLocked (f : Fin NFILE) (src : List UInt8) : FsM ℤ := do
  let x ← file f
  ilock x.ip
  let r ← writei x.ip src x.off
  when (r > 0) do
    let x ← file f
    modify (·.setFile f { x with off := (x.off + r.toNat) % 2 ^ 32 })
  iunlock x.ip
  return r

/-- What `filewrite` does from `begin_op` to `end_op`. -/
def writeChunk (f : Fin NFILE) (src : List UInt8) : FsM ℤ := do
  beginOp
  let r ← writeLocked f src
  endOp
  return r

/-- The loop of `filewrite`, at byte `i`: how far it gets. Each round that goes on writes at least
one byte, so `fuel = n` suffices. -/
def filewriteLoop (f : Fin NFILE) (addr : ℕ → UInt8) (n : ℤ) : ℕ → ℕ → FsM ℕ
  | 0, i => return i
  | fuel + 1, i =>
      if i < n then do
        let n1 := min (n - i).toNat Syscall.filewriteMax
        let r ← writeChunk f (window addr i n1)
        if r < 0 then return i
        else if r ≠ n1 then panic .shortFilewrite
        else filewriteLoop f addr n fuel (i + n1)
      else return i

def filewrite (f : Fin NFILE) (addr : ℕ → UInt8) (n : ℤ) : FsM ℤ := do
  let s ← get
  if !(s.user.ftable f).writable then return -1
  else
    match (s.user.ftable f).type with
    | .pipe => return s.io.pipewrite (s.user.ftable f).pipe n
    | .inode => do
        let i ← filewriteLoop f addr n n.toNat 0
        if i = n then return n else return -1
    | .none => panic .filewrite

end FsM

namespace Fs

/-- The inode of an entry of the cache, which is on the disk as long as there is no copy. -/
def inode (s : Fs) (i : Fin NINODE) : Dinode :=
  if (s.icache i).valid then (s.icache i).d else s.disk.dinode (s.icache i).inum

def locked (s : Fs) (i : Fin NINODE) : Fs :=
  s.setIp i { s.icache i with busy := true, valid := true, d := s.inode i }

def unlocked (s : Fs) (i : Fin NINODE) : Fs := s.setIp i { s.icache i with busy := false }

/-- `ilock` returns at once. -/
structure Lockable (s : Fs) (i : Fin NINODE) : Prop where
  ref : 1 ≤ (s.icache i).ref
  idle : (s.icache i).busy = false
  type : (s.inode i).type ≠ 0

/-- A file that is open for writing, and its inode, which no one has locked. -/
structure Opened (s : Fs) (f : Fin NFILE) (i : Fin NINODE) : Prop extends Lockable s i where
  ok : s.disk.Ok
  inode : (s.user.ftable f).type = .inode
  writable : (s.user.ftable f).writable = true
  ip : (s.user.ftable f).ip = i
  wf : (s.inode i).WellFormed s.disk
  notDev : (s.inode i).type ≠ T_DEV

def advance (s : Fs) (f : Fin NFILE) (n : ℕ) : Fs :=
  s.setFile f { s.user.ftable f with off := ((s.user.ftable f).off + n) % 2 ^ 32 }

/-- What a write that is not refused leaves, when the inode is not locked any more. -/
def Wrote (f : Fin NFILE) (i : Fin NINODE) (off : ℕ) (src : List UInt8) (s t : Fs) : Prop :=
  ∃ u, Written i off src (s.locked i) u ∧
    t = (if 0 < src.length then u.advance f src.length else u).unlocked i

section Lock

variable {s t : Fs} {i j : Fin NINODE} {f : Fin NFILE} {E : Stop → Prop} {off n : ℕ}
  {src : List UInt8} {U : Finset ℕ}

@[simp] theorem wp_file {Q : File → Fs → Prop} :
    wp (FsM.file f) Q E s ↔ Q (s.user.ftable f) s := by
  unfold FsM.file
  rw [wp_bind, wp_get, wp_pure]

theorem icache_setIp {x : Inode} : (s.setIp i x).icache i = x := Function.update_self ..

theorem setIp_setIp {x y : Inode} : (s.setIp i x).setIp i y = s.setIp i y := by
  unfold setIp
  rw [Function.update_idem]

theorem dip_locked : (s.locked i).dip i = s.inode i := by
  rw [dip, locked, icache_setIp]

theorem inode_unlocked (h : (s.icache i).valid = true) :
    (s.unlocked i).inode i = s.dip i := by
  rw [inode, unlocked, icache_setIp, if_pos h]
  rfl

/-- `ilock` returns when the inode is not locked and not free. -/
theorem wp_ilock_of {Q : Unit → Fs → Prop} (href : 1 ≤ (s.icache i).ref)
    (hidle : E .asleep ∨ (s.icache i).busy = false)
    (htype : E (.panic .ilockNoType) ∨ (s.inode i).type ≠ 0)
    (hQ : (s.icache i).busy = false → ((s.icache i).valid = false → (s.inode i).type ≠ 0) →
      Q ⟨⟩ (s.locked i)) :
    wp (FsM.ilock i) Q E s := by
  unfold FsM.ilock FsM.panic FsM.asleep
  rw [wp_bind, wp_ip, if_neg (Int.not_lt.mpr href), wp_ite]
  refine ⟨fun hbusy => ?_, fun hbusy => ?_⟩
  · refine wp_throw.mpr (hidle.resolve_right fun hfree => ?_)
    rw [hfree] at hbusy
    cases hbusy
  · have hfree : (s.icache i).busy = false := by simpa using hbusy
    unfold locked inode at hQ
    unfold inode at htype
    rw [wp_bind, wp_setIp, wp_when]
    refine ⟨fun hnew => ?_, fun hvalid => ?_⟩
    · have hinvalid : (s.icache i).valid = false := by simpa using hnew
      rw [if_neg (by rw [hinvalid]; exact Bool.false_ne_true)] at hQ htype
      rw [wp_bind, wp_get, wp_bind, wp_setIp, wp_when, setIp_setIp]
      exact ⟨fun hzero => wp_throw.mpr (htype.resolve_right fun hne => hne hzero),
        fun hne => hQ hfree fun _ => hne⟩
    · have hvalid' : (s.icache i).valid = true := by simpa using hvalid
      rw [if_pos hvalid'] at hQ
      refine (congrArg (Q ⟨⟩) ?_).mp (hQ hfree fun hc => ?_)
      · congr 1
        rw [← hvalid']
      · rw [hvalid'] at hc
        cases hc

theorem wp_ilock {Q : Unit → Fs → Prop} (h : s.Lockable i) (hQ : Q ⟨⟩ (s.locked i)) :
    wp (FsM.ilock i) Q E s :=
  wp_ilock_of h.ref (.inr h.idle) (.inr h.type) fun _ _ => hQ

theorem wp_iunlock {Q : Unit → Fs → Prop} (hbusy : (s.icache i).busy = true)
    (href : 1 ≤ (s.icache i).ref) (hQ : Q ⟨⟩ (s.unlocked i)) : wp (FsM.iunlock i) Q E s := by
  unfold FsM.iunlock FsM.panic
  rw [wp_bind, wp_ip, wp_ite]
  refine ⟨?_, fun _ => wp_setIp.mpr hQ⟩
  rintro (hb | hr)
  · rw [hbusy] at hb
    cases hb
  · omega

/-- A write with the inode locked is refused, or it writes all. -/
theorem wp_writeLocked {Q : ℤ → Fs → Prop} (h : s.Opened f i)
    (hoff : (s.user.ftable f).off = off) (hlt : off < 2 ^ 32) (hsrc : src.length < 2 ^ 32)
    (hrefused : (s.inode i).Refused off src.length → Q (-1) ((s.locked i).unlocked i))
    (hwritten : ¬ (s.inode i).Refused off src.length →
      (s.inode i).need s.disk (span off src.length) ≤ s.disk.free.length ∧ Budget U E s ∧
        (s.locked i).writes i off src.length ⊆ U ∧
        ∀ t, Wrote f i off src s t → Q src.length t) :
    wp (FsM.writeLocked f src) Q E s := by
  have hdip : (s.locked i).dip i = s.inode i := dip_locked
  have hcache : (s.locked i).icache i =
      { s.icache i with busy := true, valid := true, d := s.inode i } := icache_setIp
  have hdisk : (s.locked i).disk = s.disk := rfl
  unfold FsM.writeLocked
  rw [wp_bind, wp_file, h.ip, hoff, wp_bind]
  refine wp_ilock h.toLockable ?_
  rw [wp_bind]
  have hwf' : ((s.locked i).dip i).WellFormed (s.locked i).disk := by
    rw [hdip]
    exact h.wf
  have htype' : ((s.locked i).dip i).type ≠ T_DEV := by
    rw [hdip]
    exact h.notDev
  by_cases hbad : (s.inode i).Refused off src.length
  · have hrun : FsM.writei i src off (s.locked i) = _ :=
      writei_refused htype' hlt hsrc (by rw [hdip]; exact hbad)
    refine (wp_of_ok hrun).mpr ?_
    rw [wp_bind, wp_when]
    refine ⟨fun hpos => absurd hpos (by decide), fun _ => ?_⟩
    rw [wp_bind]
    refine wp_iunlock (by rw [hcache]) (by rw [hcache]; exact h.ref) ?_
    exact wp_pure.mpr (hrefused hbad)
  · obtain ⟨hroom, hbudget, hU, hQ⟩ := hwritten hbad
    refine wp_writei h.ok hwf' htype' (by rw [hdip]; exact hbad) (by rw [hdip]; exact hroom)
      ⟨hbudget.outstanding, hbudget.room⟩ hU fun u hu => ?_
    have hentry : u.icache i = { (s.locked i).icache i with d := u.dip i } := hu.entry
    have hbusy : (u.icache i).busy = true := by
      rw [hentry, hcache]
    have href : 1 ≤ (u.icache i).ref := by
      rw [hentry, hcache]
      exact h.ref
    rw [wp_bind, wp_when]
    refine ⟨fun hpos => ?_, fun hzero => ?_⟩
    · have hlen : 0 < src.length := by omega
      rw [wp_bind, wp_file, wp_modify, wp_bind]
      refine wp_iunlock hbusy href (wp_pure.mpr (hQ _ ⟨u, hu, ?_⟩))
      rw [if_pos hlen]
      rfl
    · rw [wp_bind]
      refine wp_iunlock hbusy href (wp_pure.mpr (hQ _ ⟨u, hu, ?_⟩))
      rw [if_neg (by omega)]

end Lock

section Wrote

variable {s t : Fs} {i : Fin NINODE} {f : Fin NFILE} {off : ℕ} {src : List UInt8}

/-- What is not changed by `advance` and `iunlock`. -/
theorem Wrote.cases (h : Wrote f i off src s t) :
    ∃ u, Written i off src (s.locked i) u ∧ t.disk = u.disk ∧ t.log = u.log ∧
      t.inode i = u.dip i ∧ t.icache i = { u.icache i with busy := false } ∧
      (t.user = u.user ∧ src.length = 0 ∨ t.user = (u.advance f src.length).user) := by
  obtain ⟨u, hu, ht⟩ := h
  have hvalid : (u.icache i).valid = true := by
    rw [hu.entry]
    change ((s.locked i).icache i).valid = true
    rw [locked, icache_setIp]
  refine ⟨u, hu, ?_⟩
  by_cases hlen : 0 < src.length
  · rw [if_pos hlen] at ht
    subst ht
    refine ⟨rfl, rfl, ?_, icache_setIp, .inr rfl⟩
    exact inode_unlocked hvalid
  · rw [if_neg hlen] at ht
    subst ht
    refine ⟨rfl, rfl, ?_, icache_setIp, .inl ⟨rfl, by omega⟩⟩
    exact inode_unlocked hvalid

theorem Wrote.contents (h : Wrote f i off src s t) :
    (t.inode i).contents t.disk = splice ((s.inode i).contents s.disk) off src := by
  obtain ⟨u, hu, hdisk, -, hinode, -⟩ := h.cases
  have hcontents := hu.contents
  rw [dip_locked] at hcontents
  rw [hinode, hdisk, hcontents]
  rfl

theorem Wrote.wf (h : Wrote f i off src s t) : (t.inode i).WellFormed t.disk := by
  obtain ⟨u, hu, hdisk, -, hinode, -⟩ := h.cases
  rw [hinode, hdisk]
  exact hu.wf

theorem Wrote.maps (h : Wrote f i off src s t) :
    Dinode.Maps (span off src.length) s.disk t.disk (s.inode i) (t.inode i) := by
  obtain ⟨u, hu, hdisk, -, hinode, -⟩ := h.cases
  have hmaps := hu.toMaps
  rw [dip_locked] at hmaps
  rw [hinode, hdisk]
  exact hmaps

theorem Wrote.ok (h : Wrote f i off src s t) (hok : s.disk.Ok) : t.disk.Ok := by
  obtain ⟨u, hu, hdisk, -⟩ := h.cases
  rw [hdisk]
  exact hu.ok (s := s.locked i) hok

theorem Wrote.sb (h : Wrote f i off src s t) : t.disk.sb = s.disk.sb := by
  obtain ⟨u, hu, hdisk, -⟩ := h.cases
  rw [hdisk]
  exact hu.sb

theorem Wrote.logs (h : Wrote f i off src s t) :
    s.log.Logs ((s.locked i).writes i off src.length) t.log := by
  obtain ⟨u, hu, -, hlog, -⟩ := h.cases
  rw [hlog]
  exact hu.logs

theorem Wrote.type (h : Wrote f i off src s t) : (t.inode i).type = (s.inode i).type := by
  obtain ⟨u, hu, -, -, hinode, -⟩ := h.cases
  rw [hinode, hu.fields, ← dip_locked]

theorem Wrote.entry (h : Wrote f i off src s t) :
    (t.icache i).ref = (s.icache i).ref ∧ (t.icache i).busy = false ∧
      (t.icache i).inum = (s.icache i).inum := by
  obtain ⟨u, hu, -, -, -, hcache, -⟩ := h.cases
  have hentry : u.icache i = { (s.locked i).icache i with d := u.dip i } := hu.entry
  rw [hcache, hentry, locked, icache_setIp]
  exact ⟨rfl, rfl, rfl⟩

theorem Wrote.lockable (h : Wrote f i off src s t) (hlock : s.Lockable i) : t.Lockable i where
  ref := by
    rw [h.entry.1]
    exact hlock.ref
  idle := h.entry.2.1
  type := by
    rw [h.type]
    exact hlock.type

/-- The file has advanced, and the others have not. -/
theorem Wrote.ftable (h : Wrote f i off src s t) (hlt : (s.user.ftable f).off < 2 ^ 32) :
    t.user.ftable = Function.update s.user.ftable f
      { s.user.ftable f with off := ((s.user.ftable f).off + src.length) % 2 ^ 32 } := by
  obtain ⟨u, hu, -, -, -, -, huser⟩ := h.cases
  have hsame : u.user = s.user := hu.user
  rcases huser with ⟨huser, hzero⟩ | huser
  · rw [huser, hsame, hzero, Nat.add_zero, Nat.mod_eq_of_lt hlt]
    exact (Function.update_eq_self f _).symm
  · rw [huser]
    change Function.update u.user.ftable f
      { u.user.ftable f with off := ((u.user.ftable f).off + src.length) % 2 ^ 32 } = _
    rw [hsame]

theorem Wrote.opened (h : Wrote f i off src s t) (ho : s.Opened f i)
    (hlt : (s.user.ftable f).off < 2 ^ 32) : t.Opened f i where
  toLockable := h.lockable ho.toLockable
  ok := h.ok ho.ok
  inode := by
    rw [h.ftable hlt, Function.update_self]
    exact ho.inode
  writable := by
    rw [h.ftable hlt, Function.update_self]
    exact ho.writable
  ip := by
    rw [h.ftable hlt, Function.update_self]
    exact ho.ip
  wf := h.wf
  notDev := by
    rw [h.type]
    exact ho.notDev

end Wrote

end Fs

end Xv6
