import Xv6.Foundation.Pointers
import Xv6.Fs.Freed
import Xv6.Fs.LinkCount
import Xv6.Fs.Made

/-!
# In the middle of a call

A call holds references to inodes and locks them, and it counts a link before it writes the name and
takes a name away before it counts the link. All that it holds and owes is in the invariant, which
every operation on inodes keeps: the disk is sound and has a link for every name, and the inode
cache counts the references that there are and shows what is on the disk.
-/

namespace Xv6

open Foundation

/-- What an entry of the inode cache that is in use shows of the disk. -/
structure Inode.Shows (x : Inode) (disk : FsDisk) : Prop where
  dev : x.dev = ROOTDEV
  inum : x.inum < disk.sb.ninodes
  alloc : (disk.dinode x.inum).type ≠ 0
  /-- the copy is what is on the disk -/
  synced : x.valid = true → disk.dinode x.inum = x.d
  /-- an inode without links has been read, so that it is freed with its last reference -/
  read : (disk.dinode x.inum).nlink = 0 → x.valid = true

/-- The inodes that the processes refer to, by their current directories and open files. -/
def User.inodes (u : User) : Fin NPROC ⊕ Fin NFILE → Option (Fin NINODE)
  | .inl p => if (u.proc p).state = .live then some (u.proc p).cwd else none
  | .inr f => if (u.ftable f).type = .inode then some (u.ftable f).ip else none

namespace Fs

/-- A call is running. It has `e` more references to an inode than the processes have, and holds the
locks in `L`; the links in `o` are counted and have no name yet; `b` blocks are free that it may
take, and there is room for `l` links more to any inode. -/
structure Running (e : Fin NINODE → ℤ) (L : Finset (Fin NINODE)) (o : Multiset ℕ) (b l : ℕ)
    (s : Fs) : Prop where
  sound : s.disk.Sound
  linked : s.disk.Linked o
  /-- no file has the number `0` -/
  zero : (s.disk.dinode 0).type = 0
  room : b ≤ s.disk.free.length
  few : ∀ n < s.disk.sb.ninodes, (s.disk.dinode n).nlink + l < 32768
  refs : ∀ i, (s.icache i).ref = pointers s.user.inodes i + e i
  nonneg : ∀ i, 0 ≤ (s.icache i).ref
  shows : ∀ i, 0 < (s.icache i).ref → (s.icache i).Shows s.disk
  unique : ∀ i j, 0 < (s.icache i).ref → 0 < (s.icache j).ref →
    (s.icache i).inum = (s.icache j).inum → i = j
  busy : ∀ i, 0 < (s.icache i).ref → ((s.icache i).busy = true ↔ i ∈ L)
  held : ∀ i ∈ L, 0 < (s.icache i).ref ∧ (s.icache i).valid = true
  /-- an inode without links and references is free -/
  reached : ∀ n < s.disk.sb.ninodes, (s.disk.dinode n).type ≠ 0 →
    (s.disk.dinode n).nlink ≠ 0 ∨ ∃ k, (s.icache k).Names ROOTDEV n
  closed : ∀ f, (s.user.ftable f).ref = 0 → (s.user.ftable f).type = .none

/-- Only the inode `n` has been changed, and the entry `i`, which is the one for it. -/
structure Edits (i : Fin NINODE) (n : ℕ) (s t : Fs) : Prop where
  pos : 0 < n
  sb : t.disk.sb = s.disk.sb
  dinode : ∀ m, m ≠ n → t.disk.dinode m = s.disk.dinode m
  user : t.user = s.user
  icache : ∀ j, j ≠ i → t.icache j = s.icache j
  only : ∀ j, 0 < (s.icache j).ref → ((s.icache j).inum = n ↔ j = i)

section Running

variable {s t u : Fs} {p : Fin NPROC} {i j dp : Fin NINODE} {m n b c l k : ℕ}
  {e e' : Fin NINODE → ℤ} {L M : Finset (Fin NINODE)} {o o' : Multiset ℕ} {E : Stop → Prop}

namespace Running

/-! ### What holds in a call -/

theorem pos_of_type (h : s.Running e L o b l) (htype : (s.disk.dinode n).type ≠ 0) : 0 < n := by
  refine Nat.pos_of_ne_zero fun hzero => htype ?_
  rw [hzero]
  exact h.zero

theorem inum_pos (h : s.Running e L o b l) (hi : 0 < (s.icache i).ref) :
    0 < (s.icache i).inum := h.pos_of_type (h.shows i hi).alloc

theorem names (h : s.Running e L o b l) (hi : 0 < (s.icache i).ref) :
    (s.icache i).Names ROOTDEV (s.icache i).inum := ⟨hi, (h.shows i hi).dev, rfl⟩

theorem names_iff (h : s.Running e L o b l) :
    (s.icache i).Names ROOTDEV n ↔ 0 < (s.icache i).ref ∧ (s.icache i).inum = n :=
  ⟨fun hn => ⟨hn.1, hn.2.2⟩, fun hn => ⟨hn.1, (h.shows i hn.1).dev, hn.2⟩⟩

/-- The entry is the only one for its inode. -/
theorem only (h : s.Running e L o b l) (hi : 0 < (s.icache i).ref) (j : Fin NINODE)
    (hj : 0 < (s.icache j).ref) : (s.icache j).inum = (s.icache i).inum ↔ j = i :=
  ⟨h.unique j i hj hi, fun heq => by rw [heq]⟩

theorem tidy (h : s.Running e L o b l) : s.Tidy where
  dev := fun i hi => (h.shows i hi).dev
  nonneg := h.nonneg
  unique := fun i j n hi hj => h.unique i j hi.1 hj.1 (hi.2.2.trans hj.2.2.symm)
  read := fun i hi hstale => by
    have hx := h.shows i hi
    have htype := hx.alloc
    rw [hx.synced hstale.1] at htype
    exact htype hstale.2

theorem inode_eq (h : s.Running e L o b l) (hi : 0 < (s.icache i).ref) :
    s.inode i = s.disk.dinode (s.icache i).inum := by
  unfold inode
  split
  · rename_i hvalid
    exact ((h.shows i hi).synced hvalid).symm
  · rfl

theorem view_eq (h : s.Running e L o b l) : s.view n = s.disk.dinode n := by
  by_cases hn : ∃ j, (s.icache j).Names ROOTDEV n
  · obtain ⟨j, hj⟩ := hn
    rw [h.tidy.view hj, h.inode_eq hj.1, hj.2.2]
  · exact view_of_not_names fun j hj => hn ⟨j, hj⟩

/-- The copy of a locked inode. -/
theorem dip_eq (h : s.Running e L o b l) (hi : i ∈ L) :
    s.dip i = s.disk.dinode (s.icache i).inum := by
  obtain ⟨hpos, hvalid⟩ := h.held i hi
  exact ((h.shows i hpos).synced hvalid).symm

theorem kept (h : s.Running e L o b l) (hn : n < s.disk.sb.ninodes) : s.Kept n where
  inum := hn
  linked := fun htype => by
    rw [h.view_eq] at htype ⊢
    exact h.reached n hn htype

theorem graph (h : s.Running e L o b l) : s.Graph where
  tidy := h.tidy
  ok := h.sound.ok
  dir := fun n hn htype => by
    rw [h.view_eq] at htype ⊢
    exact h.sound.dir n hn htype
  entry := fun n hn htype k name m hslot => by
    rw [h.view_eq] at htype hslot
    exact h.kept (h.sound.listed n hn htype k name m hslot)

/-- A locked directory. -/
theorem directory (h : s.Running e L o b l) (hdp : dp ∈ L) (htype : (s.dip dp).type = T_DIR) :
    s.Directory dp := by
  obtain ⟨hpos, -⟩ := h.held dp hdp
  have hdip := h.dip_eq hdp
  have hdir := h.sound.dir _ (h.shows dp hpos).inum (by rw [← hdip]; exact htype)
  rw [← hdip] at hdir
  exact ⟨hpos, htype, h.sound.ok, hdir.wf, hdir.aligned, hdir.distinct⟩

/-- A process' current directory is in the cache when the call owes no reference. -/
theorem cwd_pos (h : s.Running e L o b l) (he : 0 ≤ e (s.user.proc p).cwd)
    (hp : (s.user.proc p).state = .live) : 0 < (s.icache (s.user.proc p).cwd).ref := by
  have hcell : s.user.inodes (.inl p) = some (s.user.proc p).cwd := if_pos hp
  have hcount := pointers_pos hcell
  have hrefs := h.refs (s.user.proc p).cwd
  omega

theorem walkable (h : s.Running e ∅ o b l) (he : ∀ i, 0 ≤ e i)
    (hp : (s.user.proc p).state = .live) : s.Walkable p where
  toGraph := h.graph
  idle := fun i hi => by
    rw [← Bool.not_eq_true, h.busy i hi]
    exact Finset.notMem_empty i
  root := h.kept h.sound.root
  cwd := h.cwd_pos (he _) hp
  here := (h.shows _ (h.cwd_pos (he _) hp)).inum

theorem mono (h : s.Running e L o b l) (ho : o' ≤ o) (hc : c ≤ b) (hk : k ≤ l) :
    s.Running e L o' c k :=
  { h with
    linked := h.linked.mono ho
    room := hc.trans h.room
    few := fun n hn => by
      have hfew := h.few n hn
      omega }

/-! ### What keeps it -/

/-- One inode and its entry are changed. -/
theorem edit (h : s.Running e L o b l) (ht : Edits i n s t) {δ : ℤ} (hsound : t.disk.Sound)
    (hlinked : t.disk.Linked o') (hroom : c ≤ t.disk.free.length)
    (hfew : (t.disk.dinode n).nlink + k < 32768) (hk : k ≤ l)
    (href : (t.icache i).ref = (s.icache i).ref + δ) (hnonneg : 0 ≤ (t.icache i).ref)
    (hshows : 0 < (t.icache i).ref → (t.icache i).inum = n ∧ (t.icache i).Shows t.disk ∧
      ((t.icache i).busy = true ↔ i ∈ M))
    (hM : ∀ j, j ≠ i → (j ∈ M ↔ j ∈ L))
    (hheld : i ∈ M → 0 < (t.icache i).ref ∧ (t.icache i).valid = true)
    (hreached : (t.disk.dinode n).type ≠ 0 →
      (t.disk.dinode n).nlink ≠ 0 ∨ 0 < (t.icache i).ref) :
    t.Running (e + Pi.single i δ) M o' c k where
  sound := hsound
  linked := hlinked
  zero := by
    rw [ht.dinode 0 ht.pos.ne]
    exact h.zero
  room := hroom
  few := fun m hm => by
    by_cases hmn : m = n
    · rw [hmn]
      exact hfew
    · rw [ht.sb] at hm
      have hold := h.few m hm
      rw [ht.dinode m hmn]
      omega
  refs := fun j => by
    rw [ht.user]
    by_cases hj : j = i
    · rw [hj, href, h.refs i, Pi.add_apply, Pi.single_eq_same]
      ring
    · rw [ht.icache j hj, h.refs j, Pi.add_apply, Pi.single_eq_of_ne hj, add_zero]
  nonneg := fun j => by
    by_cases hj : j = i
    · rw [hj]
      exact hnonneg
    · rw [ht.icache j hj]
      exact h.nonneg j
  shows := fun j hpos => by
    by_cases hj : j = i
    · rw [hj] at hpos ⊢
      exact (hshows hpos).2.1
    · rw [ht.icache j hj] at hpos ⊢
      have hx := h.shows j hpos
      have hne : (s.icache j).inum ≠ n := fun heq => hj ((ht.only j hpos).mp heq)
      have hsame := ht.dinode _ hne
      exact ⟨hx.dev, by rw [ht.sb]; exact hx.inum, by rw [hsame]; exact hx.alloc,
        by rw [hsame]; exact hx.synced, by rw [hsame]; exact hx.read⟩
  unique := fun j j' hj hj' heq => by
    by_cases hji : j = i
    · by_cases hji' : j' = i
      · rw [hji, hji']
      · rw [hji] at hj heq
        rw [ht.icache j' hji', (hshows hj).1] at heq
        rw [ht.icache j' hji'] at hj'
        exact absurd ((ht.only j' hj').mp heq.symm) hji'
    · rw [ht.icache j hji] at hj heq
      by_cases hji' : j' = i
      · rw [hji'] at hj' heq
        rw [(hshows hj').1] at heq
        exact absurd ((ht.only j hj).mp heq) hji
      · rw [ht.icache j' hji'] at hj' heq
        exact h.unique j j' hj hj' heq
  busy := fun j hpos => by
    by_cases hj : j = i
    · rw [hj] at hpos ⊢
      exact (hshows hpos).2.2
    · rw [ht.icache j hj] at hpos ⊢
      rw [hM j hj]
      exact h.busy j hpos
  held := fun j hj => by
    by_cases hji : j = i
    · rw [hji] at hj ⊢
      exact hheld hj
    · rw [ht.icache j hji]
      exact h.held j ((hM j hji).mp hj)
  reached := fun m hm htype => by
    by_cases hmn : m = n
    · rw [hmn] at htype ⊢
      refine (hreached htype).imp id fun hpos => ⟨i, hpos, ?_, (hshows hpos).1⟩
      exact (hshows hpos).2.1.dev
    · rw [ht.sb] at hm
      rw [ht.dinode m hmn] at htype ⊢
      refine (h.reached m hm htype).imp id fun ⟨k, hk⟩ => ⟨k, ?_⟩
      have hki : k ≠ i := fun heq => hmn (hk.2.2.symm.trans ((ht.only k hk.1).mpr heq))
      rwa [ht.icache k hki]
  closed := fun f hf => by
    rw [ht.user] at hf ⊢
    exact h.closed f hf

/-- Looking at inodes changes nothing. -/
theorem alike (h : s.Running e L o b l) (ha : s.Alike t) : t.Running e L o b l where
  sound := by
    rw [ha.disk]
    exact h.sound
  linked := by
    rw [ha.disk]
    exact h.linked
  zero := by
    rw [ha.disk]
    exact h.zero
  room := by
    rw [ha.disk]
    exact h.room
  few := by
    rw [ha.disk]
    exact h.few
  refs := fun i => by
    rw [ha.ref, ha.user]
    exact h.refs i
  nonneg := fun i => by
    rw [ha.ref]
    exact h.nonneg i
  shows := fun i hi => by
    rw [ha.ref] at hi
    have hx := h.shows i hi
    have hsame := ha.entry i hi
    refine ⟨by rw [hsame.dev, hx.dev], ?_, ?_, fun hvalid => ?_, fun hzero => ?_⟩
    · rw [hsame.inum, ha.disk]
      exact hx.inum
    · rw [hsame.inum, ha.disk]
      exact hx.alloc
    · have hinode := hsame.inode
      rw [h.inode_eq hi, inode, if_pos hvalid] at hinode
      rw [hsame.inum, ha.disk, hinode]
    · rw [hsame.inum, ha.disk] at hzero
      exact hsame.valid (hx.read hzero)
  unique := fun i j hi hj heq => by
    rw [ha.ref] at hi hj
    rw [(ha.entry i hi).inum, (ha.entry j hj).inum] at heq
    exact h.unique i j hi hj heq
  busy := fun i hi => by
    rw [ha.ref] at hi
    rw [(ha.entry i hi).busy]
    exact h.busy i hi
  held := fun i hi => by
    obtain ⟨hpos, hvalid⟩ := h.held i hi
    rw [ha.ref]
    exact ⟨hpos, (ha.entry i hpos).valid hvalid⟩
  reached := fun n hn htype => by
    rw [ha.disk] at hn htype ⊢
    rcases h.reached n hn htype with hlinks | ⟨k, hk⟩
    · exact .inl hlinks
    · exact .inr ⟨k, ha.names.mpr hk⟩
  closed := fun f hf => by
    rw [ha.user] at hf ⊢
    exact h.closed f hf

/-- A reference to an inode that is not free has been taken. -/
theorem refers (h : s.Running e L o b l) (hr : s.Refers t i n) (hn : n < s.disk.sb.ninodes)
    (htype : (s.disk.dinode n).type ≠ 0) : t.Running (e + Pi.single i 1) L o b l := by
  have hd : (t.dropped i).Running e L o b l := h.alike hr.back
  have hdisk : t.disk = s.disk := hr.disk
  have hself : (t.dropped i).icache i = { t.icache i with ref := (t.icache i).ref - 1 } :=
    icache_dropped
  have hused : ∀ j, 0 < ((t.dropped i).icache j).ref → 0 < (s.icache j).ref := fun j hj => by
    rwa [hr.back.ref] at hj
  have hedit : Edits i n (t.dropped i) t := by
    refine ⟨h.pos_of_type htype, rfl, fun _ _ => rfl, rfl,
      fun j hj => (icache_setIp_ne hj).symm, fun j hj =>
      ⟨fun heq => ?_, fun heq => ?_⟩⟩
    · exact hr.only j (hr.back.names.mp (hd.names_iff.mpr ⟨hj, heq⟩))
    · rw [heq, hself]
      exact hr.names.2.2
  refine hd.edit hedit hd.sound hd.linked hd.room (hd.few n (by rw [← hdisk] at hn; exact hn))
    le_rfl ?_ hr.names.1.le (fun _ => ⟨hr.names.2.2, ⟨hr.names.2.1, ?_, ?_, fun hvalid => ?_,
      fun hzero => ?_⟩, ?_⟩) (fun _ _ => .rfl) (fun hi => ⟨hr.names.1, ?_⟩) fun _ => .inr hr.names.1
  · rw [hself]
    ring
  · rw [hr.names.2.2, hdisk]
    exact hn
  · rw [hr.names.2.2, hdisk]
    exact htype
  · have hinode := hr.inode
    rw [inode, if_pos hvalid, h.view_eq] at hinode
    rw [hr.names.2.2, hdisk, hinode]
  · rw [hr.names.2.2, hdisk] at hzero
    obtain ⟨j, hj⟩ := (h.reached n hn htype).resolve_left (not_not.mpr hzero)
    have hji := hr.only j hj
    rw [hji] at hj
    have hvalid := (h.shows i hj.1).read (by rw [hj.2.2]; exact hzero)
    have hafter := (hr.back.entry i hj.1).valid hvalid
    rwa [hself] at hafter
  · by_cases hpos : 0 < ((t.dropped i).icache i).ref
    · have hbusy := hd.busy i hpos
      rwa [hself] at hbusy
    · have hfree : ¬ 0 < (s.icache i).ref := by rwa [hr.back.ref] at hpos
      rw [hr.fresh hfree]
      exact iff_of_false Bool.false_ne_true fun hi => hfree (h.held i hi).1
  · have hvalid := (hd.held i hi).2
    rwa [hself] at hvalid

/-! ### Locks -/

/-- An entry that is in use shows the same inode as before. -/
theorem edits (h : s.Running e L o b l) (hi : 0 < (s.icache i).ref) {x : Inode} :
    Edits i (s.icache i).inum s (s.setIp i x) :=
  ⟨h.inum_pos hi, rfl, fun _ _ => rfl, rfl, fun _ hj => icache_setIp_ne hj, h.only hi⟩

theorem locked (h : s.Running e L o b l) (hi : 0 < (s.icache i).ref) :
    (s.locked i).Running e (insert i L) o b l := by
  have hx := h.shows i hi
  have hall : (s.locked i).Running (e + Pi.single i 0) (insert i L) o b l := by
    refine h.edit (h.edits hi) h.sound h.linked h.room (h.few _ hx.inum) le_rfl ?_ ?_
      (fun _ => ?_) (fun j hj => by rw [Finset.mem_insert, or_iff_right hj]) (fun _ => ?_)
      fun _ => .inr ?_
    · rw [← Fs.locked, icache_locked, add_zero]
    · exact (ref_locked (s := s) (i := i) (j := i)).symm ▸ h.nonneg i
    · rw [← Fs.locked, icache_locked]
      refine ⟨rfl, ⟨hx.dev, hx.inum, hx.alloc, fun _ => (h.inode_eq hi).symm, fun _ => rfl⟩, ?_⟩
      exact iff_of_true rfl (Finset.mem_insert_self i L)
    · rw [← Fs.locked, icache_locked]
      exact ⟨hi, rfl⟩
    · rw [← Fs.locked, ref_locked]
      exact hi
  rwa [Pi.single_zero, add_zero] at hall

theorem unlocked (h : s.Running e L o b l) (hi : i ∈ L) :
    (s.unlocked i).Running e (L.erase i) o b l := by
  obtain ⟨hpos, -⟩ := h.held i hi
  have hx := h.shows i hpos
  have hall : (s.unlocked i).Running (e + Pi.single i 0) (L.erase i) o b l := by
    refine h.edit (h.edits hpos) h.sound h.linked h.room (h.few _ hx.inum) le_rfl ?_ ?_
      (fun _ => ?_) (fun j hj => by rw [Finset.mem_erase, and_iff_right hj])
      (fun hc => absurd rfl (Finset.mem_erase.mp hc).1) fun _ => .inr ?_
    · rw [← Fs.unlocked, icache_unlocked, add_zero]
    · rw [← Fs.unlocked, icache_unlocked]
      exact h.nonneg i
    · rw [← Fs.unlocked, icache_unlocked]
      refine ⟨rfl, ⟨hx.dev, hx.inum, hx.alloc, hx.synced, hx.read⟩, ?_⟩
      exact iff_of_false Bool.false_ne_true (Finset.notMem_erase i L)
    · rw [← Fs.unlocked, icache_unlocked]
      exact hpos
  rwa [Pi.single_zero, add_zero] at hall

/-- `ilock` returns when the inode is not locked. -/
theorem wp_ilock {Q : Unit → Fs → Prop} (hE : Lax E) (h : s.Running e L o b l)
    (hi : 0 < (s.icache i).ref)
    (hQ : i ∉ L → (s.locked i).Running e (insert i L) o b l → Q ⟨⟩ (s.locked i)) :
    wp (FsM.ilock i) Q E s := by
  refine wp_ilock_of hi (.inl (hE _ (by decide))) (.inl (hE _ (by decide))) fun hfree _ => ?_
  refine hQ (fun hL => ?_) (h.locked hi)
  rw [← h.busy i hi, hfree] at hL
  cases hL

theorem wp_iunlock {Q : Unit → Fs → Prop} (h : s.Running e L o b l) (hi : i ∈ L)
    (hQ : (s.unlocked i).Running e (L.erase i) o b l → Q ⟨⟩ (s.unlocked i)) :
    wp (FsM.iunlock i) Q E s := by
  obtain ⟨hpos, -⟩ := h.held i hi
  exact Fs.wp_iunlock ((h.busy i hpos).mpr hi) hpos (hQ (h.unlocked hi))

/-! ### References -/

/-- A reference is given back, and the inode is freed with the last one if it has no link. -/
theorem wp_iput {Q : Unit → Fs → Prop} (hE : Lax E) (h : s.Running e L o b l)
    (hi : 0 < (s.icache i).ref) (hL : i ∉ L)
    (hQ : ∀ t, t.Running (e - Pi.single i 1) L o 0 l → (∀ j, j ≠ i → t.icache j = s.icache j) →
      t.user = s.user → Q ⟨⟩ t) :
    wp (FsM.iput i) Q E s := by
  have hx := h.shows i hi
  rw [sub_eq_add_neg, ← Pi.single_neg] at hQ
  by_cases hlast : (s.icache i).ref = 1 ∧ (s.icache i).valid ∧ (s.icache i).d.nlink = 0
  · have hsynced := hx.synced hlast.2.1
    have htype : (s.dip i).type ≠ 0 := by
      rw [dip, ← hsynced]
      exact hx.alloc
    refine wp_iput_free hE hlast htype hsynced fun _ t ht => hQ t ?_ ht.icache ht.user
    have hnlink : (s.disk.dinode (s.icache i).inum).nlink = 0 := by
      rw [hsynced]
      exact hlast.2.2
    have hfew := h.few _ hx.inum
    refine h.edit ⟨h.inum_pos hi, ht.frees.sb, ht.frees.dinode, ht.user, ht.icache, h.only hi⟩
      (ht.frees.sound h.sound hx.inum) (ht.frees.linked h.sound hx.inum h.linked hnlink)
      (Nat.zero_le _) ?_ le_rfl ?_ ht.ref.ge (fun hpos => ?_) (fun _ _ => .rfl)
      (fun hc => absurd hc hL) fun hc => absurd ht.frees.type hc
    · rw [ht.frees.nlink]
      rwa [hnlink] at hfew
    · rw [ht.ref, hlast.1]
      rfl
    · rw [ht.ref] at hpos
      exact absurd hpos (lt_irrefl 0)
  · refine wp_iput_drop hlast (hQ _ ?_ (fun j hj => icache_setIp_ne hj) rfl)
    refine h.edit (h.edits hi) h.sound h.linked (Nat.zero_le _) (h.few _ hx.inum) le_rfl ?_ ?_
      (fun hpos => ?_) (fun _ _ => .rfl) (fun hc => absurd hc hL) fun htype => ?_
    · rw [← Fs.dropped, icache_dropped]
      rfl
    · rw [← Fs.dropped, icache_dropped]
      change 0 ≤ (s.icache i).ref - 1
      omega
    · rw [← Fs.dropped, icache_dropped]
      exact ⟨rfl, ⟨hx.dev, hx.inum, hx.alloc, hx.synced, hx.read⟩, h.busy i hi⟩
    · by_cases hzero : (s.disk.dinode (s.icache i).inum).nlink = 0
      · have hvalid := hx.read hzero
        rw [hx.synced hvalid] at hzero
        have hone : (s.icache i).ref ≠ 1 := fun hone => hlast ⟨hone, hvalid, hzero⟩
        rw [← Fs.dropped, icache_dropped]
        refine .inr ?_
        change 0 < (s.icache i).ref - 1
        omega
      · exact .inl hzero

theorem wp_iunlockput {Q : Unit → Fs → Prop} (hE : Lax E) (h : s.Running e L o b l) (hi : i ∈ L)
    (hQ : ∀ t, t.Running (e - Pi.single i 1) (L.erase i) o 0 l →
      (∀ j, j ≠ i → t.icache j = s.icache j) → t.user = s.user → Q ⟨⟩ t) :
    wp (FsM.iunlockput i) Q E s := by
  unfold FsM.iunlockput
  rw [wp_bind]
  refine h.wp_iunlock hi fun hu => hu.wp_iput hE ?_ (Finset.notMem_erase i L)
    fun t ht hicache huser => hQ t ht (fun j hj => ?_) huser
  · rw [icache_unlocked]
    exact (h.held i hi).1
  · rw [hicache j hj, Fs.unlocked, icache_setIp_ne hj]

end Running

end Running

end Fs

end Xv6
