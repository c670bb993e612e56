import Xv6.Fs.Graph

/-!
# The files on the disk

The disk is sound when every inode in use has its own blocks and the directories can be read. This
is so again when one inode has been changed, or has been freed together with its blocks.
-/

namespace Xv6

namespace FsDisk

/-- The block belongs to the file of the inode `n`, which is in use. -/
def Owns (disk : FsDisk) (n b : ℕ) : Prop :=
  (disk.dinode n).type ≠ 0 ∧ (disk.dinode n).Has disk b

/-- Every inode in use is well formed, and has its blocks for itself. -/
structure Sound (disk : FsDisk) : Prop where
  ok : disk.Ok
  /-- the bitmap is one block -/
  one : disk.sb.size ≤ BPB
  root : ROOTINO < disk.sb.ninodes
  /-- the number of an inode is a `ushort` -/
  few : disk.sb.ninodes ≤ 2 ^ 16
  files : ∀ n < disk.sb.ninodes, (disk.dinode n).type ≠ 0 → (disk.dinode n).WellFormed disk
  apart : ∀ m < disk.sb.ninodes, ∀ n < disk.sb.ninodes, m ≠ n → ∀ b, disk.Owns m b →
    ¬ disk.Owns n b
  dir : ∀ n < disk.sb.ninodes, (disk.dinode n).type = T_DIR → (disk.dinode n).DirOk disk
  listed : ∀ n < disk.sb.ninodes, (disk.dinode n).type = T_DIR → ∀ k name m,
    ((disk.dinode n).slots disk).slot k = some (name, m) → m < disk.sb.ninodes

/-- Only the inode `n` and its blocks are changed. -/
structure Changes (n : ℕ) (disk disk' : FsDisk) : Prop where
  sb : disk'.sb = disk.sb
  dinode : ∀ m, m ≠ n → disk'.dinode m = disk.dinode m
  data : ∀ b, disk.bitmap b = true → ¬ disk.Owns n b → disk'.data b = disk.data b
  marked : ∀ b, disk.bitmap b = true → ¬ disk.Owns n b → disk'.bitmap b = true

end FsDisk

namespace Dinode

variable {d : Dinode} {disk disk' : FsDisk}

/-- The same bytes are the same entries. -/
theorem slots_of_contents (h : d.contents disk' = d.contents disk) :
    d.slots disk' = d.slots disk := by
  refine Foundation.Slots.ext rfl ?_
  change (fun k => (Dirent.ofBytes (Foundation.record Dirent.size (d.contents disk') k)).live) = _
  rw [h]
  rfl

end Dinode

namespace FsDisk

variable {disk disk' : FsDisk} {m n b : ℕ}

theorem Changes.ok (h : Changes n disk disk') (hs : disk.Sound) (hn : n < disk.sb.ninodes) :
    disk'.Ok where
  marked := fun b hb => by
    rw [h.sb] at hb
    refine h.marked b (hs.ok.marked b hb) fun hown => ?_
    have hdata := ((hs.files n hn hown.1).isData b hown.2).1
    omega
  small := by
    rw [h.sb]
    exact hs.ok.small

namespace Changes

variable (h : Changes n disk disk') (hs : disk.Sound) (hn : n < disk.sb.ninodes) (hmn : m ≠ n)
  (hm : m < disk.sb.ninodes)

include h hs hn hmn hm

/-- The blocks of another file are what they were. -/
theorem kept (htype : (disk.dinode m).type ≠ 0) (hb : (disk.dinode m).Has disk b) :
    disk'.data b = disk.data b ∧ disk'.bitmap b = true := by
  have hused := (hs.files m hm htype).used b hb
  have hnot := hs.apart m hm n hn hmn b ⟨htype, hb⟩
  exact ⟨h.data b hused hnot, h.marked b hused hnot⟩

theorem has_iff (htype : (disk.dinode m).type ≠ 0) :
    (disk.dinode m).Has disk' b ↔ (disk.dinode m).Has disk b :=
  Dinode.has_congr (fun _ hb => (h.kept hs hn hmn hm htype hb).1) b

theorem owns_iff : disk'.Owns m b ↔ disk.Owns m b := by
  unfold Owns
  rw [h.dinode m hmn]
  exact and_congr_right fun htype => h.has_iff hs hn hmn hm htype

theorem file (htype : (disk'.dinode m).type ≠ 0) : (disk'.dinode m).WellFormed disk' := by
  rw [h.dinode m hmn] at htype ⊢
  have hwf := hs.files m hm htype
  have hhas : ∀ b, (disk.dinode m).Has disk' b ↔ (disk.dinode m).Has disk b :=
    fun b => h.has_iff hs hn hmn hm htype
  have hblock : (disk.dinode m).block disk' = (disk.dinode m).block disk :=
    Dinode.block_congr fun b hb => (h.kept hs hn hmn hm htype hb).1
  exact {
    small := hwf.small
    mapped := by
      rw [hblock]
      exact hwf.mapped
    distinct := by
      rw [hblock]
      exact hwf.distinct
    notTable := by
      rw [hblock]
      exact hwf.notTable
    used := fun b hb => (h.kept hs hn hmn hm htype ((hhas b).mp hb)).2
    isData := fun b hb => by
      rw [h.sb]
      exact hwf.isData b ((hhas b).mp hb) }

theorem slots (htype : (disk.dinode m).type ≠ 0) :
    (disk.dinode m).slots disk' = (disk.dinode m).slots disk :=
  Dinode.slots_of_contents
    (Dinode.contents_congr fun _ hb => (h.kept hs hn hmn hm htype hb).1)

theorem dir (htype : (disk'.dinode m).type = T_DIR) : (disk'.dinode m).DirOk disk' := by
  have hne : (disk'.dinode m).type ≠ 0 := by
    rw [htype]
    decide
  refine ⟨h.file hs hn hmn hm hne, ?_, ?_⟩
  · rw [h.dinode m hmn] at htype ⊢
    exact (hs.dir m hm htype).aligned
  · rw [h.dinode m hmn] at htype hne ⊢
    rw [h.slots hs hn hmn hm hne]
    exact (hs.dir m hm htype).distinct

theorem listed (htype : (disk'.dinode m).type = T_DIR) {k v : ℕ} {name : List UInt8}
    (hslot : ((disk'.dinode m).slots disk').slot k = some (name, v)) : v < disk.sb.ninodes := by
  have hne : (disk'.dinode m).type ≠ 0 := by
    rw [htype]
    decide
  rw [h.dinode m hmn] at htype hne hslot
  rw [h.slots hs hn hmn hm hne] at hslot
  exact hs.listed m hm htype k name v hslot

end Changes

/-- The inode is still in use, or has just been taken. -/
structure Sets (n : ℕ) (disk disk' : FsDisk) : Prop extends Changes n disk disk' where
  file : (disk'.dinode n).WellFormed disk'
  type : (disk'.dinode n).type ≠ 0
  /-- it takes no block that was in use -/
  fresh : ∀ b, disk.bitmap b = true → ¬ disk.Owns n b → ¬ (disk'.dinode n).Has disk' b
  aligned : (disk'.dinode n).type = T_DIR → Dirent.size ∣ (disk'.dinode n).size
  distinct : (disk'.dinode n).type = T_DIR → ((disk'.dinode n).slots disk').Distinct
  listed : (disk'.dinode n).type = T_DIR → ∀ k name m,
    ((disk'.dinode n).slots disk').slot k = some (name, m) → m < disk.sb.ninodes

theorem Sets.sound (h : Sets n disk disk') (hs : disk.Sound) (hn : n < disk.sb.ninodes) :
    disk'.Sound := by
  have hc := h.toChanges
  have hcross : ∀ m < disk.sb.ninodes, m ≠ n → ∀ b, disk.Owns m b → ¬ disk'.Owns n b := by
    intro m hm hmn b hb hb'
    exact h.fresh b ((hs.files m hm hb.1).used b hb.2) (hs.apart m hm n hn hmn b hb) hb'.2
  exact {
    ok := hc.ok hs hn
    one := by
      rw [h.sb]
      exact hs.one
    root := by
      rw [h.sb]
      exact hs.root
    few := by
      rw [h.sb]
      exact hs.few
    files := fun m hm htype => by
      rw [h.sb] at hm
      by_cases hmn : m = n
      · rw [hmn]
        exact h.file
      · exact hc.file hs hn hmn hm htype
    apart := fun l hl m hm hne b hb hb' => by
      rw [h.sb] at hl hm
      by_cases hln : l = n
      · subst hln
        exact hcross m hm (Ne.symm hne) b ((hc.owns_iff hs hl (Ne.symm hne) hm).mp hb') hb
      · rw [hc.owns_iff hs hn hln hl] at hb
        by_cases hmn : m = n
        · subst hmn
          exact hcross l hl hln b hb hb'
        · rw [hc.owns_iff hs hn hmn hm] at hb'
          exact hs.apart l hl m hm hne b hb hb'
    dir := fun m hm htype => by
      rw [h.sb] at hm
      by_cases hmn : m = n
      · rw [hmn] at htype ⊢
        exact ⟨h.file, h.aligned htype, h.distinct htype⟩
      · exact hc.dir hs hn hmn hm htype
    listed := fun m hm htype k name v hslot => by
      rw [h.sb] at hm ⊢
      by_cases hmn : m = n
      · rw [hmn] at htype hslot
        exact h.listed htype k name v hslot
      · exact hc.listed hs hn hmn hm htype hslot }

/-- The inode is free, and so are its blocks. -/
structure Frees (n : ℕ) (disk disk' : FsDisk) : Prop extends Changes n disk disk' where
  type : (disk'.dinode n).type = 0
  nlink : (disk'.dinode n).nlink = 0

theorem Frees.sound (h : Frees n disk disk') (hs : disk.Sound) (hn : n < disk.sb.ninodes) :
    disk'.Sound := by
  have hc := h.toChanges
  have hnot : ∀ b, ¬ disk'.Owns n b := fun b hb => hb.1 h.type
  exact {
    ok := hc.ok hs hn
    one := by
      rw [h.sb]
      exact hs.one
    root := by
      rw [h.sb]
      exact hs.root
    few := by
      rw [h.sb]
      exact hs.few
    files := fun m hm htype => by
      rw [h.sb] at hm
      by_cases hmn : m = n
      · rw [hmn] at htype
        exact absurd h.type htype
      · exact hc.file hs hn hmn hm htype
    apart := fun l hl m hm hne b hb hb' => by
      rw [h.sb] at hl hm
      by_cases hln : l = n
      · exact hnot b (hln ▸ hb)
      · by_cases hmn : m = n
        · exact hnot b (hmn ▸ hb')
        · rw [hc.owns_iff hs hn hln hl] at hb
          rw [hc.owns_iff hs hn hmn hm] at hb'
          exact hs.apart l hl m hm hne b hb hb'
    dir := fun m hm htype => by
      rw [h.sb] at hm
      by_cases hmn : m = n
      · rw [hmn, h.type] at htype
        cases htype
      · exact hc.dir hs hn hmn hm htype
    listed := fun m hm htype k name v hslot => by
      rw [h.sb] at hm ⊢
      by_cases hmn : m = n
      · rw [hmn, h.type] at htype
        cases htype
      · exact hc.listed hs hn hmn hm htype hslot }

/-- The links of an inode are counted anew. -/
theorem Sound.counted (hs : disk.Sound) (hn : n < disk.sb.ninodes) {z : ℤ}
    (htype : (disk.dinode n).type ≠ 0) (hdisk : disk' = { disk with
      dinode := Function.update disk.dinode n { disk.dinode n with nlink := z } }) :
    disk.Sets n disk' := by
  have hself : disk'.dinode n = { disk.dinode n with nlink := z } := by
    rw [hdisk]
    exact Function.update_self ..
  have hblock : (disk'.dinode n).block disk' = (disk.dinode n).block disk := by
    rw [hself, hdisk]
    rfl
  have hhas : ∀ b, (disk'.dinode n).Has disk' b ↔ (disk.dinode n).Has disk b := by
    intro b
    rw [Dinode.Has, Dinode.Has, hblock, hself]
    rfl
  have hslots : (disk'.dinode n).slots disk' = (disk.dinode n).slots disk := by
    rw [hself, hdisk]
    rfl
  have htype' : (disk'.dinode n).type = (disk.dinode n).type := by rw [hself]
  have hsize : (disk'.dinode n).size = (disk.dinode n).size := by rw [hself]
  have hwf := hs.files n hn htype
  exact {
    sb := by rw [hdisk]
    dinode := fun m hm => by
      rw [hdisk]
      exact Function.update_of_ne hm _ _
    data := fun _ _ _ => by rw [hdisk]
    marked := fun _ hb _ => by
      rw [hdisk]
      exact hb
    file := {
      small := by
        rw [hsize]
        exact hwf.small
      mapped := by
        rw [hblock, hsize]
        exact hwf.mapped
      distinct := by
        rw [hblock]
        exact hwf.distinct
      notTable := by
        rw [hblock, hself]
        exact hwf.notTable
      used := fun b hb => by
        rw [hdisk]
        exact hwf.used b ((hhas b).mp hb)
      isData := fun b hb => by
        rw [hdisk]
        exact hwf.isData b ((hhas b).mp hb) }
    type := by
      rw [htype']
      exact htype
    fresh := fun b _ hown hb => hown ⟨htype, (hhas b).mp hb⟩
    aligned := fun hdir => by
      rw [htype'] at hdir
      rw [hsize]
      exact (hs.dir n hn hdir).aligned
    distinct := fun hdir => by
      rw [htype'] at hdir
      rw [hslots]
      exact (hs.dir n hn hdir).distinct
    listed := fun hdir k name m hslot => by
      rw [htype'] at hdir
      rw [hslots] at hslot
      exact hs.listed n hn hdir k name m hslot }

end FsDisk

end Xv6
