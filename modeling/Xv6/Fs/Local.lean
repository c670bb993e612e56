import Xv6.Fs.ByteArray
import Xv6.Fs.Calls
import Xv6.Fs.View

/-!
# What the functions on one inode change

Whatever the blocks of an inode are, writing to it and freeing it change its own entry of the inode
cache, its own inode on the disk, blocks and bits of the bitmap. Writing one directory entry logs at
most two blocks besides the bitmap and the block of the inode; freeing logs no more than these two.
-/

namespace Xv6

open Foundation

namespace Fs

def DirFull (e : Stop) : Prop := e = .panic .dirlink ∨ e = .panic .createDirlink

instance : DecidablePred DirFull := fun _ => inferInstanceAs (Decidable (_ ∨ _))

/-- Any stop is allowed, but for those of a full directory. -/
def Lax (E : Stop → Prop) : Prop := ∀ e, ¬ DirFull e → E e

/-- Only the inode of the entry is changed, on the disk and in the cache, and the sectors `T` are
logged. -/
structure Local (i : Fin NINODE) (T : Finset ℕ) (s t : Fs) : Prop where
  sb : t.disk.sb = s.disk.sb
  user : t.user = s.user
  io : t.io = s.io
  icache : ∀ j, j ≠ i → t.icache j = s.icache j
  dev : (t.icache i).dev = (s.icache i).dev
  inum : (t.icache i).inum = (s.icache i).inum
  dinode : ∀ n, n ≠ (s.icache i).inum → t.disk.dinode n = s.disk.dinode n
  logs : s.log.Logs T t.log

/-- The inode may only have got blocks, and another size. -/
structure Writes (i : Fin NINODE) (T : Finset ℕ) (s t : Fs) : Prop extends Local i T s t where
  entry : t.icache i = { s.icache i with d := t.dip i }
  fields : t.dip i = { s.dip i with size := (t.dip i).size, addrs := (t.dip i).addrs }

def OneBitmap (s : Fs) : Prop := s.disk.sb.size ≤ BPB

def bitmapBlock (s : Fs) : ℕ := BBLOCK 0 s.disk.sb.ninodes

/-- The blocks below the size of the file are there. -/
structure NoHoles (d : Dinode) (disk : FsDisk) : Prop where
  small : d.size ≤ MAXFILE * BSIZE
  mapped : ∀ bn, bn * BSIZE < d.size → d.block disk bn ≠ 0

/-- Nothing is changed but the first block of the file, which may be new. -/
structure FirstBlock (i : Fin NINODE) (s t : Fs) : Prop where
  inside : s.disk.Ok → (t.dip i).addr 0 ≠ 0
  addrs : ∀ k, k ≠ 0 → (t.dip i).addr k = (s.dip i).addr k
  new : (t.dip i).addr 0 = (s.dip i).addr 0 ∨ s.disk.bitmap ((t.dip i).addr 0) = false
  data : ∀ c, c ≠ (t.dip i).addr 0 → t.disk.data c = s.disk.data c
  marked : ∀ c, s.disk.bitmap c = true → t.disk.bitmap c = true

/-- What `bmap` changes when it returns the block `b` with the number `bn`. -/
structure Mapped (i : Fin NINODE) (bn b : ℕ) (T : Finset ℕ) (s t : Fs) : Prop
    extends Writes i T s t where
  bound : s.OneBitmap → ∃ c, T ⊆ {s.bitmapBlock, c, b}
  first : bn = 0 → FirstBlock i s t ∧ (t.dip i).addr 0 = b
  size : (t.dip i).size = (s.dip i).size

/-- What `writei` changes when it writes the entry of a directory at `off`. -/
structure EntryWritten (i : Fin NINODE) (off : ℕ) (T : Finset ℕ) (s t : Fs) : Prop
    extends Writes i T s t where
  bound : s.OneBitmap → ∃ b c, T ⊆ {s.bitmapBlock, IBLOCK (s.icache i).inum, b, c}
  first : off < BSIZE → FirstBlock i s t
  size : (t.dip i).size = (s.dip i).size ∨ (t.dip i).size = off + Dirent.size

/-- The blocks of the file have their bits in the first block of the bitmap. -/
structure Low (d : Dinode) (disk : FsDisk) : Prop where
  addr : ∀ k, d.addr k < BPB
  entry : d.table ≠ 0 → ∀ k, (disk.data d.table).word k < BPB

section Local

variable {s t u : Fs} {i j : Fin NINODE} {T U : Finset ℕ} {b c bn k n off fuel : ℕ}
  {src : List UInt8}

theorem dip_setIp {x : Inode} : (s.setIp i x).dip i = x.d := by rw [dip, icache_setIp]

namespace Local

theorem refl : Local i ∅ s s := ⟨rfl, rfl, rfl, fun _ _ => rfl, rfl, rfl, fun _ _ => rfl, .refl⟩

theorem trans (h : Local i T s t) (h' : Local i U t u) : Local i (T ∪ U) s u where
  sb := h'.sb.trans h.sb
  user := h'.user.trans h.user
  io := h'.io.trans h.io
  icache := fun j hj => (h'.icache j hj).trans (h.icache j hj)
  dev := h'.dev.trans h.dev
  inum := h'.inum.trans h.inum
  dinode := fun n hn => (h'.dinode n (by rwa [h.inum])).trans (h.dinode n hn)
  logs := h.logs.trans h'.logs

/-- The entry is set. -/
theorem setIp {x : Inode} (hdev : x.dev = (s.icache i).dev) (hinum : x.inum = (s.icache i).inum) :
    Local i ∅ s (s.setIp i x) where
  sb := rfl
  user := rfl
  io := rfl
  icache := fun j hj => icache_setIp_ne hj
  dev := by rw [icache_setIp, hdev]
  inum := by rw [icache_setIp, hinum]
  dinode := fun _ _ => rfl
  logs := .refl

theorem updated : Local i {IBLOCK (s.icache i).inum} s (s.updated i) where
  sb := rfl
  user := rfl
  io := rfl
  icache := fun _ _ => rfl
  dev := rfl
  inum := rfl
  dinode := fun _ hn => Function.update_of_ne hn _ _
  logs := .one

end Local

namespace Writes

theorem refl : Writes i ∅ s s := ⟨.refl, rfl, rfl⟩

theorem trans (h : Writes i T s t) (h' : Writes i U t u) : Writes i (T ∪ U) s u where
  toLocal := h.toLocal.trans h'.toLocal
  entry := by rw [h'.entry, h.entry]
  fields := by rw [h'.fields, h.fields]

theorem setData {x : Block} : Writes i {c} s ((s.setData b x).logged c) :=
  ⟨⟨rfl, rfl, rfl, fun _ _ => rfl, rfl, rfl, fun _ _ => rfl, .one⟩, rfl, rfl⟩

theorem allocated : Writes i {BBLOCK b s.disk.sb.ninodes, b} s (s.allocated b) :=
  ⟨⟨rfl, rfl, rfl, fun _ _ => rfl, rfl, rfl, fun _ _ => rfl, allocated_logs⟩, rfl, rfl⟩

theorem setAddr : Writes i ∅ s (s.setIp i { s.icache i with d := (s.dip i).setAddr k b }) where
  toLocal := .setIp rfl rfl
  entry := by
    rw [icache_setIp, dip_setIp]
  fields := by
    rw [dip_setIp]
    rfl

theorem addAddr : Writes i {BBLOCK b s.disk.sb.ninodes, b} s (s.addAddr i k b) := by
  have h : Writes i ({BBLOCK b s.disk.sb.ninodes, b} ∪ ∅) s (s.addAddr i k b) :=
    allocated.trans setAddr
  rwa [Finset.union_empty] at h

theorem resize : Writes i ∅ s (s.resize i n) where
  toLocal := .setIp rfl rfl
  entry := by
    rw [dip_resize]
    exact icache_setIp
  fields := by
    rw [dip_resize]

theorem updated : Writes i {IBLOCK (s.icache i).inum} s (s.updated i) := ⟨.updated, rfl, rfl⟩

end Writes

/-! ### Allocation -/

theorem Lax.true : Lax fun _ => True := fun _ _ => trivial

theorem Lax.budget {E : Stop → Prop} (hE : Lax E) : Budget T E s :=
  ⟨.inl (hE _ (by decide)), .inl (hE _ (by decide))⟩

theorem wp_logWrite_any {Q : Unit → Fs → Prop} (hQ : Q ⟨⟩ (s.logged c)) :
    wp (FsM.logWrite c) Q (fun _ => True) s :=
  wp_logWrite (U := ∅) ⟨.inl trivial, .inl trivial⟩ hQ

theorem wp_iupdate_any {Q : Unit → Fs → Prop} (hQ : Q ⟨⟩ (s.updated i)) :
    wp (FsM.iupdate i) Q (fun _ => True) s :=
  wp_iupdate (U := ∅) ⟨.inl trivial, .inl trivial⟩ hQ

theorem bblock_eq (hsize : s.OneBitmap) (hb : b < s.disk.sb.size) :
    BBLOCK b s.disk.sb.ninodes = s.bitmapBlock := by
  rw [bitmapBlock, BBLOCK, BBLOCK, Nat.div_eq_of_lt (hb.trans_le hsize), Nat.zero_div]

/-- `balloc` returns a block that is free, when it returns. -/
theorem wp_balloc_any {Q : ℕ → Fs → Prop}
    (hQ : ∀ b < s.disk.sb.size, s.disk.bitmap b = false → Q b (s.allocated b)) :
    wp FsM.balloc Q (fun _ => True) s := by
  unfold FsM.balloc FsM.bzero FsM.panic
  rw [wp_bind, wp_get]
  cases hfind : (List.range s.disk.sb.size).find? fun b => !s.disk.bitmap b with
  | none => exact wp_throw.mpr trivial
  | some b =>
      have hlt := List.mem_range.mp (List.mem_of_find?_eq_some hfind)
      have hfree : s.disk.bitmap b = false := by simpa using List.find?_some hfind
      rw [wp_bind, wp_set, wp_bind]
      refine wp_logWrite_any ?_
      rw [wp_bind, wp_bind, wp_modify]
      exact wp_logWrite_any (wp_pure.mpr (hQ b hlt hfree))

theorem FirstBlock.here (h : (s.dip i).addr 0 ≠ 0) : FirstBlock i s s :=
  ⟨fun _ => h, fun _ _ => rfl, .inl rfl, fun _ _ => rfl, fun _ hc => hc⟩

theorem FirstBlock.added (hfree : s.disk.bitmap b = false) : FirstBlock i s (s.addAddr i 0 b) := by
  have haddr : ∀ k, ((s.addAddr i 0 b).dip i).addr k = if k = 0 then b else (s.dip i).addr k :=
    fun k => by rw [dip_addAddr, addr_setAddr (Nat.succ_pos _)]
  refine ⟨fun hok => ?_, fun k hk => ?_, .inr ?_, fun c hc => ?_, fun c hc => ?_⟩
  · rw [haddr, if_pos rfl]
    rintro rfl
    have hmarked := hok.marked 0 (Nat.succ_pos _)
    rw [hfree] at hmarked
    cases hmarked
  · rw [haddr, if_neg hk]
  · rw [haddr, if_pos rfl]
    exact hfree
  · rw [haddr, if_pos rfl] at hc
    exact data_addAddr hc
  · change Function.update s.disk.bitmap b true c = true
    by_cases hcb : c = b
    · rw [hcb, Function.update_self]
    · rw [Function.update_of_ne hcb]
      exact hc

/-- The first block is written. -/
theorem FirstBlock.setData {x : Block} (h : FirstBlock i s t) (hb : (t.dip i).addr 0 = b) :
    FirstBlock i s ((t.setData b x).logged c) where
  inside := h.inside
  addrs := h.addrs
  new := h.new
  data := fun d hd => by
    have hne : d ≠ b := by
      rw [← hb]
      exact hd
    change Function.update t.disk.data b x d = _
    rw [Function.update_of_ne hne]
    exact h.data d hd
  marked := h.marked

theorem FirstBlock.resize (h : FirstBlock i s t) :
    FirstBlock i s ((t.resize i n).updated i) := by
  have hsame : (((t.resize i n).updated i).dip i).addr = (t.dip i).addr := by
    change ((t.resize i n).dip i).addr = _
    rw [dip_resize]
    rfl
  exact ⟨by rw [hsame]; exact h.inside, by rw [hsame]; exact h.addrs,
    by rw [hsame]; exact h.new, by rw [hsame]; exact h.data, h.marked⟩

theorem size_addAddr : ((s.addAddr i k b).dip i).size = (s.dip i).size := by
  rw [dip_addAddr]
  rfl

/-- `bmap` logs the bitmap, the indirect block and the block that it returns, at most. -/
theorem wp_bmap_any {Q : ℕ → Fs → Prop} (hQ : ∀ b t T, Mapped i bn b T s t → Q b t) :
    wp (FsM.bmap i bn) Q (fun _ => True) s := by
  unfold FsM.bmap FsM.bmapTable FsM.panic
  rw [wp_bind, wp_ip, wp_ite]
  refine ⟨fun _ => ?_, fun hge => ?_⟩
  · rw [wp_ite]
    refine ⟨fun _ => ?_, fun hne => wp_pure.mpr (hQ _ s ∅
      ⟨.refl, fun _ => ⟨0, Finset.empty_subset _⟩, fun hzero => ?_, rfl⟩)⟩
    · rw [wp_bind]
      refine wp_balloc_any fun b hb hfree => ?_
      rw [wp_bind, wp_ip, wp_bind, wp_setIp]
      refine wp_pure.mpr (hQ b _ _ ⟨.addAddr, fun hone => ⟨b, ?_⟩, fun hzero => ?_,
        size_addAddr⟩)
      · rw [bblock_eq hone hb]
        simp
      · rw [hzero]
        refine ⟨.added hfree, ?_⟩
        change ((s.addAddr i 0 b).dip i).addr 0 = b
        rw [dip_addAddr, addr_setAddr (Nat.succ_pos _), if_pos rfl]
    · rw [hzero] at hne ⊢
      exact ⟨.here hne, rfl⟩
  · have hnot : bn ≠ 0 := by
      rintro rfl
      exact hge (by decide)
    rw [wp_ite]
    refine ⟨fun _ => ?_, fun _ => wp_throw.mpr trivial⟩
    have hentry : ∀ (c : ℕ) (t : Fs) (T : Finset ℕ), Writes i T s t →
        (t.dip i).size = (s.dip i).size → (s.OneBitmap → T ⊆ {s.bitmapBlock, c}) → wp (do
          let s ← get
          if (s.disk.data c).word (bn - NDIRECT) = 0 then do
            let addr ← FsM.balloc
            modify fun s => s.setData c ((s.disk.data c).setWord (bn - NDIRECT) addr)
            FsM.logWrite c
            return addr
          else return (s.disk.data c).word (bn - NDIRECT)) Q (fun _ => True) t := by
      intro c t T ht hsize hT
      have hwider : ∀ b, ({s.bitmapBlock, c} : Finset ℕ) ⊆ {s.bitmapBlock, c, b} := fun b d hd => by
        rw [Finset.mem_insert, Finset.mem_singleton] at hd
        rw [Finset.mem_insert, Finset.mem_insert]
        exact hd.imp id .inl
      rw [wp_bind, wp_get, wp_ite]
      refine ⟨fun _ => ?_, fun _ => wp_pure.mpr ?_⟩
      · rw [wp_bind]
        refine wp_balloc_any fun b hb _ => ?_
        rw [wp_bind, wp_modify, wp_bind]
        refine wp_logWrite_any (wp_pure.mpr (hQ b _ _
          ⟨(ht.trans .allocated).trans .setData, fun hone => ⟨c, ?_⟩, fun hc => absurd hc hnot,
            hsize⟩))
        have hone' : t.OneBitmap := by
          unfold OneBitmap
          rw [ht.sb]
          exact hone
        rw [bblock_eq hone' hb, bitmapBlock, ht.sb]
        refine Finset.union_subset (Finset.union_subset ((hT hone).trans (hwider b)) ?_) ?_
        · intro d hd
          rw [Finset.mem_insert, Finset.mem_singleton] at hd
          rw [Finset.mem_insert, Finset.mem_insert, Finset.mem_singleton]
          exact hd.imp id .inr
        · intro d hd
          rw [Finset.mem_singleton] at hd
          rw [hd]
          simp
      · exact hQ _ t T ⟨ht, fun hone => ⟨c, (hT hone).trans (hwider _)⟩,
          fun hc => absurd hc hnot, hsize⟩
    rw [wp_bind, wp_bind, wp_ip, wp_ite]
    refine ⟨fun _ => ?_, fun _ => wp_pure.mpr (hentry _ s ∅ .refl rfl
      fun _ => Finset.empty_subset _)⟩
    rw [wp_bind]
    refine wp_balloc_any fun b hb _ => ?_
    rw [wp_bind, wp_ip, wp_bind, wp_setIp]
    refine wp_pure.mpr (hentry b _ _ .addAddr size_addAddr fun hone => ?_)
    rw [bblock_eq hone hb]

/-! ### Writing an entry of a directory -/

/-- What is written lies in one block. -/
theorem wp_writeBlocks_any {Q : ℕ → Fs → Prop} (hpos : src ≠ [])
    (hfit : off % BSIZE + src.length ≤ BSIZE)
    (hQ : ∀ t T, Writes i T s t → (s.OneBitmap → ∃ b c, T ⊆ {s.bitmapBlock, b, c}) →
      (off < BSIZE → FirstBlock i s t) → (t.dip i).size = (s.dip i).size →
        Q (off + src.length) t) :
    wp (FsM.writeBlocks i src.length off src) Q (fun _ => True) s := by
  obtain ⟨fuel, hfuel⟩ : ∃ fuel, src.length = fuel + 1 :=
    Nat.exists_eq_succ_of_ne_zero fun hzero => hpos (List.length_eq_zero_iff.mp hzero)
  have hm : min src.length (BSIZE - off % BSIZE) = src.length := Nat.min_eq_left (by omega)
  have hround : wp (do
      let b ← FsM.bmap i (off / BSIZE)
      let m := min src.length (BSIZE - off % BSIZE)
      modify fun s => s.setData b ((s.disk.data b).write (off % BSIZE) (src.take m))
      FsM.logWrite b
      FsM.writeBlocks i fuel (off + m) (src.drop m)) Q (fun _ => True) s := by
    rw [wp_bind]
    refine wp_bmap_any fun b t T ht => ?_
    rw [hm, wp_bind, wp_modify, wp_bind, List.drop_length]
    refine wp_logWrite_any ?_
    have hdone : Q (off + src.length) ((t.setData b ((t.disk.data b).write (off % BSIZE)
        (src.take src.length))).logged b) := by
      refine hQ _ _ (ht.toWrites.trans .setData) (fun hone => ?_) (fun hoff => ?_) ht.size
      · obtain ⟨c, hc⟩ := ht.bound hone
        refine ⟨c, b, Finset.union_subset hc ?_⟩
        rw [Finset.singleton_subset_iff]
        simp
      · obtain ⟨hfirst, hb⟩ := ht.first (Nat.div_eq_of_lt hoff)
        exact hfirst.setData hb
    cases fuel with
    | zero => exact wp_pure.mpr hdone
    | succ fuel =>
        rw [FsM.writeBlocks, if_pos rfl]
        exact wp_pure.mpr hdone
  rw [hfuel, FsM.writeBlocks, if_neg hpos]
  exact hround

theorem wp_writei_any {Q : ℤ → Fs → Prop} (htype : (s.dip i).type ≠ T_DEV)
    (hlen : src.length = Dirent.size) (hoff : Dirent.size ∣ off) (hneg : Q (-1) s)
    (hQ : ∀ t T, EntryWritten i off T s t → Q Dirent.size t) :
    wp (FsM.writei i src off) Q (fun _ => True) s := by
  have hpos : src ≠ [] := by
    rintro rfl
    cases hlen
  have hfit : off % BSIZE + src.length ≤ BSIZE := by
    rw [hlen, BSIZE_eq]
    rw [Dirent.size_eq] at hoff ⊢
    omega
  unfold FsM.writei
  rw [wp_bind, wp_ip]
  change wp (if (s.dip i).type = T_DEV then _ else _) _ _ s
  rw [if_neg htype, wp_ite]
  refine ⟨fun _ => wp_pure.mpr hneg, fun _ => ?_⟩
  rw [wp_ite]
  refine ⟨fun _ => wp_pure.mpr hneg, fun _ => ?_⟩
  rw [wp_bind]
  refine wp_writeBlocks_any hpos hfit fun t T ht hT hfirst hsize => ?_
  have hinum : (t.icache i).inum = (s.icache i).inum := ht.inum
  have hwider : ∀ b c : ℕ, ({s.bitmapBlock, b, c} : Finset ℕ) ⊆
      {s.bitmapBlock, IBLOCK (s.icache i).inum, b, c} := fun b c d hd => by
    rw [Finset.mem_insert] at hd
    rw [Finset.mem_insert, Finset.mem_insert]
    exact hd.imp id .inr
  rw [wp_bind, wp_ip, wp_bind, wp_when, hlen]
  refine ⟨fun _ => ?_, fun _ => wp_pure.mpr (hQ t T ⟨ht, fun hone => ?_, hfirst, .inl hsize⟩)⟩
  · rw [wp_bind, wp_setIp]
    refine wp_iupdate_any (wp_pure.mpr (hQ _ _
      ⟨(ht.trans .resize).trans .updated, fun hone => ?_, fun hlt => ?_, .inr ?_⟩))
    · obtain ⟨b, c, hbc⟩ := hT hone
      refine ⟨b, c, Finset.union_subset (Finset.union_subset (hbc.trans (hwider b c))
        (Finset.empty_subset _)) ?_⟩
      rw [Finset.singleton_subset_iff, resize, icache_setIp, hinum]
      simp
    · exact (hfirst hlt).resize
    · change ((t.resize i (off + Dirent.size)).dip i).size = _
      rw [dip_resize]
  · exact (hT hone).imp fun b hb => hb.imp fun c hc => hc.trans (hwider b c)

/-! ### Reading -/

/-- Where there are no holes, reading changes nothing. -/
theorem wp_readBlocks_any {Q : List UInt8 → Fs → Prop} {E : Stop → Prop}
    (h : NoHoles (s.dip i) s.disk) (hend : off + n ≤ (s.dip i).size) (hQ : ∀ bs, Q bs s) :
    wp (FsM.readBlocks i fuel off n) Q E s := by
  induction fuel generalizing off n Q with
  | zero => exact wp_pure.mpr (hQ _)
  | succ fuel ih =>
      have hsmall := h.small
      rw [MAXFILE_eq, BSIZE_eq] at hsmall
      rw [FsM.readBlocks, wp_ite]
      refine ⟨fun _ => wp_pure.mpr (hQ _), fun hn => ?_⟩
      have hm : min n (BSIZE - off % BSIZE) ≤ n := Nat.min_le_left _ _
      rw [wp_bind]
      refine wp_bmap_mapped ?_ (h.mapped _ ?_) ?_
      · rw [MAXFILE_eq, BSIZE_eq]
        omega
      · rw [BSIZE_eq]
        omega
      · rw [wp_bind, wp_get, wp_bind]
        exact ih (by omega) fun bs => wp_pure.mpr (hQ _)

theorem wp_readi_any {Q : ℤ × List UInt8 → Fs → Prop} {E : Stop → Prop}
    (h : NoHoles (s.dip i) s.disk) (hQ : ∀ r, Q r s) : wp (FsM.readi i off n) Q E s := by
  unfold FsM.readi
  rw [wp_bind, wp_ip, wp_ite]
  refine ⟨fun _ => ?_, fun _ => ?_⟩
  · rw [wp_ite]
    refine ⟨fun _ => wp_pure.mpr (hQ _), fun _ => ?_⟩
    rw [wp_bind, wp_get]
    cases s.io.devread (s.icache i).d.major with
    | none => exact wp_pure.mpr (hQ _)
    | some read => exact wp_pure.mpr (hQ _)
  · rw [wp_ite]
    refine ⟨fun _ => wp_pure.mpr (hQ _), fun hin => ?_⟩
    rw [not_or, not_lt] at hin
    change wp (FsM.readBlocks i _ off _ >>= _) _ _ _
    rw [wp_bind]
    refine wp_readBlocks_any h ?_ fun bs => wp_pure.mpr (hQ _)
    have hle : off ≤ (s.dip i).size := hin.1
    change off + (if off + n > (s.dip i).size then (s.dip i).size - off else n) ≤ (s.dip i).size
    split
    · omega
    · omega

/-- A scan of a directory changes nothing; it stops at an entry. -/
theorem wp_scanDir_any {Q : Option (ℕ × Dirent) → Fs → Prop} {E : Stop → Prop} {e : Panic}
    {p : Dirent → Bool} (hE : E (.panic e)) (h : NoHoles (s.dip i) s.disk)
    (hoff : Dirent.size ∣ off) (hnone : Q none s)
    (hsome : ∀ o de, Dirent.size ∣ o → o < (s.dip i).size → Q (some (o, de)) s) :
    wp (FsM.scanDir e i p fuel off) Q E s := by
  induction fuel generalizing off with
  | zero => exact wp_pure.mpr hnone
  | succ fuel ih =>
      unfold FsM.scanDir FsM.panic
      rw [wp_bind, wp_ip, wp_ite]
      refine ⟨fun hlt => ?_, fun _ => wp_pure.mpr hnone⟩
      rw [wp_bind]
      refine wp_readi_any h fun r => ?_
      change wp (if r.1 ≠ Dirent.size then _ else _) _ _ s
      rw [wp_ite]
      refine ⟨fun _ => wp_throw.mpr hE, fun _ => ?_⟩
      rw [wp_ite]
      exact ⟨fun _ => wp_pure.mpr (hsome _ _ hoff hlt),
        fun _ => ih (hoff.add (dvd_refl _))⟩

theorem wp_scanFrom_any {Q : Option (ℕ × Dirent) → Fs → Prop} {E : Stop → Prop} {e : Panic}
    {p : Dirent → Bool} (hE : E (.panic e)) (h : NoHoles (s.dip i) s.disk)
    (hoff : Dirent.size ∣ off) (hnone : Q none s)
    (hsome : ∀ o de, Dirent.size ∣ o → o < (s.dip i).size → Q (some (o, de)) s) :
    wp (FsM.scanFrom e i p off) Q E s := by
  unfold FsM.scanFrom
  rw [wp_bind, wp_ip]
  exact wp_scanDir_any hE h hoff hnone hsome

theorem wp_dirlookup_any {Q : Option (Fin NINODE × ℕ) → Fs → Prop} {name : List UInt8}
    (h : NoHoles (s.dip i) s.disk) (hnone : Q none s) (hsome : ∀ x t, Q (some x) t) :
    wp (FsM.dirlookup i name) Q (fun _ => True) s := by
  unfold FsM.dirlookup FsM.panic
  rw [wp_bind, wp_ip, wp_ite]
  refine ⟨fun _ => wp_throw.mpr trivial, fun _ => ?_⟩
  rw [wp_bind]
  refine wp_scanFrom_any trivial h (dvd_zero _) (wp_pure.mpr hnone) fun o de _ _ => ?_
  change wp (do
    let i ← FsM.iget (s.icache i).dev de.inum
    return some (i, o)) _ _ s
  rw [wp_bind]
  exact wp_of_forall (fun _ t => wp_pure.mpr (hsome _ t)) fun _ => trivial

/-- The offset of a new entry: that of a free one, or the end of the directory. -/
def EntryAt (d : Dinode) (o : ℕ) : Prop :=
  Dirent.size ∣ o ∧ (o < d.size ∨ o = (d.size + (Dirent.size - 1)) / Dirent.size * Dirent.size)

theorem wp_dirlinkNew_any {Q : ℤ → Fs → Prop} {name : List UInt8}
    (htype : (s.dip i).type ≠ T_DEV) (h : NoHoles (s.dip i) s.disk)
    (hQ : ∀ o t T, EntryAt (s.dip i) o → EntryWritten i o T s t → Q 0 t) :
    wp (FsM.dirlinkNew i name n) Q (fun _ => True) s := by
  have hwrite : ∀ o, EntryAt (s.dip i) o → wp (do
      let r ← FsM.writei i (Dirent.bytes ⟨n, name⟩) o
      if r ≠ Dirent.size then FsM.panic .dirlink else return 0) Q (fun _ => True) s := by
    intro o ho
    rw [wp_bind]
    unfold FsM.panic
    refine wp_writei_any htype Dirent.length_bytes ho.1 ?_ fun t T ht => ?_
    · rw [if_pos (by decide)]
      exact wp_throw.mpr trivial
    · rw [if_neg (not_not.mpr rfl)]
      exact wp_pure.mpr (hQ o t T ho ht)
  unfold FsM.dirlinkNew
  rw [wp_bind, wp_ip, wp_bind]
  exact wp_scanFrom_any trivial h (dvd_zero _) (hwrite _ ⟨dvd_mul_left _ _, .inr rfl⟩)
    fun o de ho hlt => hwrite o ⟨ho, .inl hlt⟩

theorem wp_dirlink_any {Q : ℤ → Fs → Prop} {name : List UInt8}
    (htype : (s.dip i).type ≠ T_DEV) (h : NoHoles (s.dip i) s.disk) (hneg : ∀ t, Q (-1) t)
    (hQ : ∀ o t T, EntryAt (s.dip i) o → EntryWritten i o T s t → Q 0 t) :
    wp (FsM.dirlink i name n) Q (fun _ => True) s := by
  unfold FsM.dirlink
  rw [wp_bind]
  refine wp_dirlookup_any h (wp_dirlinkNew_any htype h hQ) fun x t => ?_
  change wp (FsM.iput x.1 >>= fun _ => _) _ _ t
  rw [wp_bind]
  exact wp_of_forall (fun _ u => wp_pure.mpr (hneg u)) fun _ => trivial

/-! ### Freeing -/

/-- What `itrunc` does to the file: some of its blocks are given back. -/
structure Cut (i : Fin NINODE) (T : Finset ℕ) (s t : Fs) : Prop extends Local i T s t where
  ref : (t.icache i).ref = (s.icache i).ref
  data : t.disk.data = s.disk.data
  addr : ∀ k, (t.dip i).addr k = (s.dip i).addr k ∨ (t.dip i).addr k = 0

theorem Cut.refl : Cut i ∅ s s := ⟨.refl, rfl, rfl, fun _ => .inl rfl⟩

theorem Cut.trans (h : Cut i T s t) (h' : Cut i U t u) : Cut i (T ∪ U) s u where
  toLocal := h.toLocal.trans h'.toLocal
  ref := h'.ref.trans h.ref
  data := h'.data.trans h.data
  addr := fun k => by
    rcases h'.addr k with hk | hk
    · rw [hk]
      exact h.addr k
    · exact .inr hk

theorem Cut.low (h : Cut i T s t) (hlow : Low (s.dip i) s.disk) : Low (t.dip i) t.disk where
  addr := fun k => by
    rcases h.addr k with hk | hk
    · rw [hk]
      exact hlow.addr k
    · rw [hk]
      decide
  entry := fun hne k => by
    have htable : (t.dip i).table = (s.dip i).table := (h.addr NDIRECT).resolve_right hne
    rw [h.data]
    rw [htable] at hne ⊢
    exact hlow.entry hne k

/-- The entry is set, without its blocks. -/
theorem Cut.setIp {x : Inode} (hdev : x.dev = (s.icache i).dev) (hinum : x.inum = (s.icache i).inum)
    (href : x.ref = (s.icache i).ref)
    (haddr : ∀ k, x.d.addr k = (s.dip i).addr k ∨ x.d.addr k = 0) :
    Cut i ∅ s (s.setIp i x) where
  toLocal := .setIp hdev hinum
  ref := by rw [icache_setIp, href]
  data := rfl
  addr := fun k => by
    rw [dip_setIp]
    exact haddr k

theorem Cut.updated : Cut i {IBLOCK (s.icache i).inum} s (s.updated i) :=
  ⟨.updated, rfl, rfl, fun _ => .inl rfl⟩

theorem Cut.wp_setIp {Q : Unit → Fs → Prop} {x : Inode} (h : Cut i T s t)
    (hdev : x.dev = (t.icache i).dev) (hinum : x.inum = (t.icache i).inum)
    (href : x.ref = (t.icache i).ref) (haddr : ∀ k, x.d.addr k = (t.dip i).addr k)
    (hQ : ∀ u, Cut i T s u → u.icache i = x → Q ⟨⟩ u) :
    wp (FsM.setIp i x) Q (fun _ => True) t := by
  have hset := h.trans (.setIp hdev hinum href fun k => .inl (haddr k))
  rw [Finset.union_empty] at hset
  exact Fs.wp_setIp.mpr (hQ _ hset icache_setIp)

theorem Cut.wp_iupdate {Q : Unit → Fs → Prop} (h : Cut i T s t)
    (hQ : ∀ u, Cut i (T ∪ {IBLOCK (s.icache i).inum}) s u → Q ⟨⟩ u) :
    wp (FsM.iupdate i) Q (fun _ => True) t := by
  have hsaved := h.trans .updated
  rw [h.inum] at hsaved
  exact wp_iupdate_any (hQ _ hsaved)

theorem Cut.bitmapBlock (h : Cut i T s t) : t.bitmapBlock = s.bitmapBlock := by
  rw [Fs.bitmapBlock, Fs.bitmapBlock, h.sb]

theorem wp_bfree_any {Q : Unit → Fs → Prop} (hb : b < BPB)
    (hQ : ∀ t, Cut i {s.bitmapBlock} s t → t.icache = s.icache → Q ⟨⟩ t) :
    wp (FsM.bfree b) Q (fun _ => True) s := by
  unfold FsM.bfree FsM.panic
  rw [wp_bind, wp_get, wp_ite]
  refine ⟨fun _ => wp_throw.mpr trivial, fun _ => ?_⟩
  rw [wp_bind, wp_set]
  have hblock : BBLOCK b s.disk.sb.ninodes = s.bitmapBlock := by
    rw [Fs.bitmapBlock, BBLOCK, BBLOCK, Nat.div_eq_of_lt hb, Nat.zero_div]
  rw [hblock]
  exact wp_logWrite_any (hQ _ ⟨⟨rfl, rfl, rfl, fun _ _ => rfl, rfl, rfl, fun _ _ => rfl, .one⟩,
    rfl, rfl, fun _ => .inl rfl⟩ rfl)

theorem wp_itruncDirect_any {Q : Unit → Fs → Prop} {js : List ℕ} (h : Low (s.dip i) s.disk)
    (hjs : ∀ j ∈ js, j < NDIRECT + 1)
    (hQ : ∀ t T, Cut i T s t → T ⊆ {s.bitmapBlock} → Q ⟨⟩ t) :
    wp (FsM.itruncDirect i js) Q (fun _ => True) s := by
  induction js generalizing s with
  | nil => exact wp_pure.mpr (hQ s ∅ .refl (Finset.empty_subset _))
  | cons j js ih =>
      have hrest : ∀ t T, Cut i T s t → T ⊆ {s.bitmapBlock} →
          wp (FsM.itruncDirect i js) Q (fun _ => True) t := by
        intro t T ht hT
        refine ih (ht.low h) (fun k hk => hjs k (List.mem_cons_of_mem _ hk)) fun u U hu hU => ?_
        rw [ht.bitmapBlock] at hU
        exact hQ u _ (ht.trans hu) (Finset.union_subset hT hU)
      rw [FsM.itruncDirect, wp_bind, wp_ip, wp_bind, wp_when]
      refine ⟨fun _ => ?_, fun _ => hrest s ∅ .refl (Finset.empty_subset _)⟩
      rw [wp_bind]
      refine wp_bfree_any (i := i) (h.addr j) fun t ht hcache => ?_
      have hset : Cut i ∅ t (t.setIp i { s.icache i with d := (s.icache i).d.setAddr j 0 }) := by
        refine .setIp (by rw [hcache]) (by rw [hcache]) (by rw [hcache]) fun k => ?_
        have hdip : t.dip i = (s.icache i).d := by rw [dip, hcache]
        rw [addr_setAddr (hjs j List.mem_cons_self), hdip]
        split
        · exact .inr rfl
        · exact .inl rfl
      rw [wp_setIp]
      exact hrest _ _ (ht.trans hset) (Finset.union_subset (Finset.Subset.refl _)
        (Finset.empty_subset _))

theorem wp_itruncEntries_any {Q : Unit → Fs → Prop} {bs : List ℕ} (hbs : ∀ b ∈ bs, b < BPB)
    (hQ : ∀ t T, Cut i T s t → t.icache = s.icache → T ⊆ {s.bitmapBlock} → Q ⟨⟩ t) :
    wp (FsM.itruncEntries bs) Q (fun _ => True) s := by
  induction bs generalizing s with
  | nil => exact wp_pure.mpr (hQ s ∅ .refl rfl (Finset.empty_subset _))
  | cons b bs ih =>
      have hrest : ∀ t T, Cut i T s t → t.icache = s.icache → T ⊆ {s.bitmapBlock} →
          wp (FsM.itruncEntries bs) Q (fun _ => True) t := by
        intro t T ht hcache hT
        refine ih (fun c hc => hbs c (List.mem_cons_of_mem _ hc)) fun u U hu hcache' hU => ?_
        rw [ht.bitmapBlock] at hU
        exact hQ u _ (ht.trans hu) (hcache'.trans hcache) (Finset.union_subset hT hU)
      rw [FsM.itruncEntries, wp_bind, wp_when]
      refine ⟨fun _ => wp_bfree_any (i := i) (hbs b List.mem_cons_self) fun t ht hcache => ?_,
        fun _ => hrest s ∅ .refl rfl (Finset.empty_subset _)⟩
      exact hrest t _ ht hcache (Finset.Subset.refl _)

theorem wp_itruncTable_any {Q : Unit → Fs → Prop} (h : Low (s.dip i) s.disk)
    (hQ : ∀ t T, Cut i T s t → T ⊆ {s.bitmapBlock} → Q ⟨⟩ t) :
    wp (FsM.itruncTable i) Q (fun _ => True) s := by
  unfold FsM.itruncTable
  rw [wp_bind, wp_ip, wp_when]
  refine ⟨fun htable => ?_, fun _ => hQ s ∅ .refl (Finset.empty_subset _)⟩
  rw [wp_bind, wp_get, wp_bind]
  have hentries : ∀ b ∈ (List.range NINDIRECT).map (s.disk.data ((s.icache i).d.addr NDIRECT)).word,
      b < BPB := by
    intro b hb
    obtain ⟨k, -, rfl⟩ := List.mem_map.mp hb
    exact h.entry htable k
  refine wp_itruncEntries_any (i := i) hentries fun t T ht hcache hT => ?_
  rw [wp_bind]
  refine wp_bfree_any (i := i) (h.addr NDIRECT) fun u hu hcache' => ?_
  rw [wp_setIp]
  have hset : Cut i ∅ u (u.setIp i { s.icache i with d := (s.icache i).d.setAddr NDIRECT 0 }) := by
    have hsame : u.icache = s.icache := hcache'.trans hcache
    refine .setIp (by rw [hsame]) (by rw [hsame]) (by rw [hsame]) fun k => ?_
    have hdip : u.dip i = (s.icache i).d := by rw [dip, hsame]
    rw [addr_setAddr (Nat.lt_succ_self _), hdip]
    split
    · exact .inr rfl
    · exact .inl rfl
  rw [ht.bitmapBlock] at hu
  exact hQ _ _ ((ht.trans hu).trans hset) (Finset.union_subset (Finset.union_subset hT
    (Finset.Subset.refl _)) (Finset.empty_subset _))

/-- Freeing an inode logs the bitmap and the block of the inode. -/
theorem wp_ifree_any {Q : Unit → Fs → Prop} (h : Low (s.dip i) s.disk)
    (hQ : ∀ t T, Cut i T s t → (t.icache i).valid = false →
      T ⊆ {s.bitmapBlock, IBLOCK (s.icache i).inum} → Q ⟨⟩ t) :
    wp (FsM.ifree i) Q (fun _ => True) s := by
  unfold FsM.ifree FsM.itrunc FsM.panic
  rw [wp_bind, wp_ip, wp_ite]
  refine ⟨fun _ => wp_throw.mpr trivial, fun _ => ?_⟩
  rw [wp_bind, wp_setIp, wp_bind, wp_bind]
  have hbusy : Cut i ∅ s (s.setIp i { s.icache i with busy := true }) :=
    .setIp rfl rfl rfl fun _ => .inl rfl
  refine wp_itruncDirect_any (hbusy.low h)
    (fun j hj => Nat.lt_succ_of_lt (List.mem_range.mp hj)) fun t T ht hT => ?_
  have ht' := hbusy.trans ht
  rw [wp_bind]
  refine wp_itruncTable_any (ht'.low h) fun u U hu hU => ?_
  have hu' := ht'.trans hu
  rw [ht'.bitmapBlock] at hU
  rw [hbusy.bitmapBlock] at hT
  rw [wp_bind, wp_ip, wp_bind]
  refine hu'.wp_setIp rfl rfl rfl (fun _ => rfl) fun v hv _ => ?_
  refine hv.wp_iupdate fun v hv => ?_
  rw [wp_bind, wp_ip, wp_bind]
  refine hv.wp_setIp rfl rfl rfl (fun _ => rfl) fun v hv _ => ?_
  rw [wp_bind]
  refine hv.wp_iupdate fun v hv => ?_
  rw [wp_bind, wp_ip]
  refine hv.wp_setIp rfl rfl rfl (fun _ => rfl) fun v hv heq => hQ v _ hv (by rw [heq]) ?_
  have hbit : ({s.bitmapBlock} : Finset ℕ) ⊆ {s.bitmapBlock, IBLOCK (s.icache i).inum} := by simp
  have hown : ({IBLOCK (s.icache i).inum} : Finset ℕ) ⊆
      {s.bitmapBlock, IBLOCK (s.icache i).inum} := by simp
  refine Finset.union_subset (Finset.union_subset (Finset.union_subset
    (Finset.union_subset (Finset.empty_subset _) (hT.trans hbit)) (hU.trans hbit)) hown) hown

/-- What `iput` does, whether it frees the inode or not. -/
structure Put (i : Fin NINODE) (T : Finset ℕ) (s t : Fs) : Prop extends Local i T s t where
  data : t.disk.data = s.disk.data
  ref : (t.icache i).ref = (s.icache i).ref - 1
  kept : (t.icache i).valid = true → (s.icache i).valid = true ∧ t.dip i = s.dip i
  bound : T ⊆ {s.bitmapBlock, IBLOCK (s.icache i).inum}

/-- A reference is given back. -/
theorem wp_iput_any {Q : Unit → Fs → Prop}
    (h : (s.icache i).ref = 1 → (s.icache i).valid = true → Low (s.dip i) s.disk)
    (hQ : ∀ t T, Put i T s t → Q ⟨⟩ t) : wp (FsM.iput i) Q (fun _ => True) s := by
  have hdrop : ∀ t T, Cut i T s t → T ⊆ {s.bitmapBlock, IBLOCK (s.icache i).inum} →
      ((t.icache i).valid = true → (s.icache i).valid = true ∧ t.dip i = s.dip i) → wp (do
        let x ← FsM.ip i
        FsM.setIp i { x with ref := x.ref - 1 }) Q (fun _ => True) t := by
    intro t T ht hT hvalid
    rw [wp_bind, wp_ip, wp_setIp]
    refine hQ _ _ ⟨ht.toLocal.trans (.setIp rfl rfl), ht.data, ?_, ?_, ?_⟩
    · rw [icache_setIp, ht.ref]
    · rw [icache_setIp, dip_setIp]
      exact hvalid
    · exact Finset.union_subset hT (Finset.empty_subset _)
  unfold FsM.iput
  rw [wp_bind, wp_ip, wp_bind, wp_when]
  refine ⟨fun hlast => ?_, fun _ => hdrop s ∅ .refl (Finset.empty_subset _) fun hv => ⟨hv, rfl⟩⟩
  refine wp_ifree_any (h hlast.1 hlast.2.1) fun t T ht hno hT => hdrop t T ht hT fun hv => ?_
  rw [hno] at hv
  cases hv

end Local

end Fs

end Xv6
