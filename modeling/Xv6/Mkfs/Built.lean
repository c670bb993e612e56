import Xv6.Mkfs.Append

/-!
# The files of the image

While `mkfs` runs, each inode shows the bytes that have been appended to it, and no two have a block
in common. This holds as long as the inodes are in front of the bitmap.
-/

namespace Xv6

namespace Mkfs

open Foundation

/-- The inodes up to here are in sectors in front of the bitmap. These sectors have room for 208
inodes; `sb.ninodes` is 200. -/
def inodes : ℕ := (BBLOCK 0 ninodes - 2) * IPB

theorem inodes_eq : inodes = 208 := rfl

def superSector : Block :=
  (((Block.zero.setWord 0 size).setWord 1 nblocks).setWord 2 ninodes).setWord 3 nlog

def State.withDinode (s : State) (n : ℕ) (d : Dinode) : State :=
  s.wrote (IBLOCK n) ((s.img (IBLOCK n)).setDinode (n % IPB) d)

/-- What an inode says of its file besides its bytes, when the first `k` inodes have been given
out. -/
def kind (k n : ℕ) : Dinode :=
  if 1 ≤ n ∧ n < k then
    { Dinode.zero with type := if n = ROOTINO then T_DIR else T_FILE, nlink := 1 }
  else Dinode.zero

structure Base (s : State) (content : ℕ → List UInt8) : Prop extends Fresh s where
  bound : s.freeblock ≤ size
  super : s.img 1 = superSector
  shows : ∀ n < inodes, Shows (s.work.dinode n) s (content n)
  fields : ∀ n < inodes, ∃ k addrs,
    s.work.dinode n = { kind s.freeinode n with size := k, addrs := addrs }
  none : ∀ n, s.freeinode ≤ n → content n = []
  apart : ∀ m < inodes, ∀ n < inodes, m ≠ n →
    (s.work.dinode m).Apart s.work (s.work.dinode n)
  owned : ∀ b, mkfsSuperblock.dataStart ≤ b → b < s.freeblock →
    ∃ n < inodes, (s.work.dinode n).Has s.work b

/-- The sizes are those of the files. -/
structure Built (s : State) (content : ℕ → List UInt8) : Prop extends Base s content where
  size : ∀ n < inodes, (s.work.dinode n).size = (content n).length

section Inodes

variable {s s' : State} {d d' e : Dinode} {m n k b : ℕ} {cs : List UInt8}

theorem inodes_lt (hn : n < inodes) : 2 ≤ IBLOCK n ∧ IBLOCK n < 28 := by
  have hipb : IPB = 8 := rfl
  rw [inodes_eq] at hn
  unfold IBLOCK
  rw [hipb]
  omega

theorem dataStart_eq : mkfsSuperblock.dataStart = 29 := rfl

theorem img_withDinode (hb : b ≠ IBLOCK n) : (s.withDinode n d).img b = s.img b :=
  Function.update_of_ne hb _ _

/-- The other inodes are the same. -/
theorem dinode_withDinode (hd : d.Fits) :
    (s.withDinode n d).work.dinode = Function.update s.work.dinode n d := by
  have hipb : IPB = 8 := rfl
  funext m
  change ((s.withDinode n d).img (IBLOCK m)).dinode (m % IPB) = _
  by_cases hsector : IBLOCK m = IBLOCK n
  · have himg : (s.withDinode n d).img (IBLOCK m) =
        (s.img (IBLOCK n)).setDinode (n % IPB) d := by
      rw [hsector]
      exact Function.update_self ..
    rw [himg]
    by_cases hmn : m = n
    · have hlt : n % IPB < 8 := Nat.mod_lt _ (by decide)
      rw [hmn, Function.update_self, Block.dinode_setDinode hlt hd]
    · have hslot : n % IPB ≠ m % IPB := by
        unfold IBLOCK at hsector
        rw [hipb] at hsector ⊢
        omega
      rw [Function.update_of_ne hmn, Block.dinode_setDinode_ne hslot, ← hsector]
      rfl
  · rw [img_withDinode hsector, Function.update_of_ne (fun hmn => hsector (by rw [hmn]))]
    rfl

theorem Shows.congr (h : Shows e s cs) (himg : ∀ b, e.Has s.work b → s'.img b = s.img b)
    (hle : s.freeblock ≤ s'.freeblock) : Shows e s' cs := by
  have hblock : e.block s'.work = e.block s.work := Dinode.block_congr himg
  exact {
    has := by
      rw [hblock]
      exact h.has
    table := h.table
    distinct := by
      rw [hblock]
      exact h.distinct
    notTable := by
      rw [hblock]
      exact h.notTable
    inside := fun b hb => by
      have hin := h.inside b ((Dinode.has_congr himg b).mp hb)
      omega
    bytes := by
      rw [Dinode.byteAt_congr himg]
      exact h.bytes }

theorem Shows.resize (h : Shows d s cs) : Shows { d with size := k } s cs :=
  ⟨⟨h.has, h.table, h.distinct, h.notTable, h.inside⟩, h.bytes⟩

/-- An inode without addresses has no blocks. -/
theorem not_has (haddr : d.addrs = fun _ => 0) (b : ℕ) : ¬ d.Has s.work b := by
  have hzero : ∀ k, d.addr k = 0 := fun k => by
    unfold Dinode.addr
    rw [haddr]
    split <;> rfl
  rintro ⟨hne, rfl | ⟨bn, rfl⟩⟩
  · exact hne (hzero _)
  · refine hne ?_
    rw [Dinode.block, hzero bn, Dinode.table, hzero NDIRECT, if_pos rfl, ite_self]

theorem Shows.empty (haddr : d.addrs = fun _ => 0) : Shows d s [] := by
  have hno := not_has (s := s) haddr
  have hblock : ∀ bn, d.block s.work bn = 0 := fun bn => by
    by_contra hne
    exact hno _ (.of_block hne)
  have hblocks : blocks ([] : List UInt8).length = 0 := rfl
  exact {
    has := fun bn => by
      rw [hblocks]
      exact iff_of_false (fun hne => hne (hblock bn)) (Nat.not_lt_zero _)
    table := by
      rw [hblocks]
      exact iff_of_false (fun hne => hno _ (.of_table hne)) (Nat.not_lt_zero _)
    distinct := fun m n hne => absurd (hblock m) hne
    notTable := fun bn hne => absurd (hblock bn) hne
    inside := fun b hb => absurd hb (hno b)
    bytes := fun k => if_pos (hblock _) }

/-- The addresses are those of sectors. -/
theorem Lists.addr_lt {nb : ℕ} (h : Lists d s nb) (hbound : s.freeblock ≤ Mkfs.size) :
    d.addr k < 2 ^ 32 := by
  have hsize : Mkfs.size = 1024 := rfl
  by_cases hzero : d.addr k = 0
  · rw [hzero]
    norm_num
  · have hhas : d.Has s.work (d.addr k) := by
      refine ⟨hzero, ?_⟩
      by_cases hlt : k < NDIRECT
      · exact .inr ⟨k, (Dinode.block_of_lt hlt).symm⟩
      · by_cases hk : k = NDIRECT
        · exact .inl (by rw [hk]; rfl)
        · exact absurd (dif_neg (by omega)) hzero
    have hin := h.inside _ hhas
    omega

theorem Shows.length_le (h : Shows d s cs) : cs.length ≤ MAXFILE * BSIZE := by
  have hle := h.toLists.le
  unfold blocks at hle
  rw [MAXFILE_eq, BSIZE_eq] at *
  omega

theorem kind_fits {nb : ℕ} {addrs : Fin (NDIRECT + 1) → ℕ} (hk : k < 2 ^ 32)
    (h : Lists d s nb) (haddrs : d.addrs = addrs) (hbound : s.freeblock ≤ Mkfs.size) :
    ({ kind m n with size := k, addrs := addrs } : Dinode).Fits := by
  subst haddrs
  have hkind : (kind m n).type < 65536 ∧ (kind m n).major = 0 ∧ (kind m n).minor = 0 ∧
      ((kind m n).nlink = 0 ∨ (kind m n).nlink = 1) := by
    unfold kind
    split
    · split
      · exact ⟨by decide, rfl, rfl, .inr rfl⟩
      · exact ⟨by decide, rfl, rfl, .inr rfl⟩
    · exact ⟨by decide, rfl, rfl, .inl rfl⟩
  obtain ⟨htype, hmajor, hminor, hnlink⟩ := hkind
  exact {
    type := htype
    major := by
      change -32768 ≤ (kind m n).major ∧ (kind m n).major < 32768
      omega
    minor := by
      change -32768 ≤ (kind m n).minor ∧ (kind m n).minor < 32768
      omega
    nlink := by
      change -32768 ≤ (kind m n).nlink ∧ (kind m n).nlink < 32768
      omega
    size := hk
    addr := fun i => h.addr_lt hbound }

/-! ### An inode is saved -/

/-- What the state is after a file has grown and its inode has been written. -/
structure Saves (s : State) (n : ℕ) (d' : Dinode) (t : State) : Prop where
  freeblock : s.freeblock ≤ t.freeblock
  dinode : ∀ m < inodes, t.work.dinode m = if m = n then d' else s.work.dinode m
  img : ∀ b, mkfsSuperblock.dataStart ≤ b → b < s.freeblock → ¬ (s.work.dinode n).Has s.work b →
    t.img b = s.img b
  has : ∀ b, d'.Has t.work b ↔
    (s.work.dinode n).Has s.work b ∨ s.freeblock ≤ b ∧ b < t.freeblock

variable {content : ℕ → List UInt8} {t : State}

theorem Base.sector (h : Base s content) (hn : n < inodes) (hb : b < mkfsSuperblock.dataStart)
    (hg : Grows (s.work.dinode n) s d' s') : s'.img b = s.img b := by
  have hlow := h.low
  refine hg.img b (by omega) fun hc => ?_
  have hin := (h.shows n hn).inside b hc
  omega

theorem Base.saves (h : Base s content) (hn : n < inodes) (hg : Grows (s.work.dinode n) s d' s')
    (hshows : Shows d' s' cs) (hb : s'.freeblock ≤ Mkfs.size) (hk : k < 2 ^ 32) :
    Saves s n { d' with size := k } (s'.withDinode n { d' with size := k }) := by
  have hblock := inodes_lt hn
  have hdata : ∀ b, mkfsSuperblock.dataStart ≤ b →
      (s'.withDinode n { d' with size := k }).img b = s'.img b := fun b hb' => by
    rw [dataStart_eq] at hb'
    exact img_withDinode (by omega)
  have hfits : ({ d' with size := k } : Dinode).Fits := by
    obtain ⟨j, addrs, hfields⟩ := h.fields n hn
    have heq : ({ d' with size := k } : Dinode) =
        { kind s.freeinode n with size := k, addrs := d'.addrs } := by
      rw [hg.fields, hfields]
    rw [heq]
    exact kind_fits hk hshows.toLists rfl hb
  exact {
    freeblock := hg.le
    dinode := fun m hm => by
      have hsector := inodes_lt hm
      rw [dinode_withDinode hfits, Function.update_apply]
      refine if_congr Iff.rfl rfl ?_
      change (s'.img _).dinode _ = _
      rw [h.sector hn (by rw [dataStart_eq]; omega) hg]
      rfl
    img := fun b hge hlt hno => (hdata b hge).trans (hg.img b hlt hno)
    has := fun b =>
      (Dinode.has_congr (e := d') (fun b hb' => hdata b (hshows.inside b hb').1) b).trans
        (hg.has b) }

theorem Fresh.withDinode (h : Fresh s) (hn : n < inodes) : Fresh (s.withDinode n d) where
  sectors := by
    have hblock := inodes_lt hn
    have hsize : Mkfs.size = 1024 := rfl
    have hsectors := h.sectors
    change max s.sectors (IBLOCK n + 1) = Mkfs.size
    omega
  low := h.low
  used := h.used
  zero := fun b hb => by
    have hblock := inodes_lt hn
    have hlow := h.low
    have hb' : s.freeblock ≤ b := hb
    rw [dataStart_eq] at hlow
    exact (img_withDinode (by omega)).trans (h.zero b hb')

namespace Saves

variable (h : Saves s n d' t) (hs : Base s content) (hn : n < inodes)

include h hs hn

/-- The other files are the same. -/
theorem other (hm : m < inodes) (hmn : m ≠ n) : t.work.dinode m = s.work.dinode m ∧
    ∀ b, (s.work.dinode m).Has s.work b → t.img b = s.img b := by
  refine ⟨by rw [h.dinode m hm, if_neg hmn], fun b hb => ?_⟩
  have hin := (hs.shows m hm).inside b hb
  exact h.img b hin.1 hin.2 (hs.apart m hm n hn hmn b hb)

theorem has_other (hm : m < inodes) (hmn : m ≠ n) (b : ℕ) :
    (t.work.dinode m).Has t.work b ↔ (s.work.dinode m).Has s.work b := by
  obtain ⟨hdinode, hdata⟩ := h.other hs hn hm hmn
  rw [hdinode]
  exact Dinode.has_congr hdata b

omit hs in
theorem has_self (b : ℕ) : (t.work.dinode n).Has t.work b ↔
    (s.work.dinode n).Has s.work b ∨ s.freeblock ≤ b ∧ b < t.freeblock := by
  rw [h.dinode n hn, if_pos rfl, h.has]

theorem apart_self (hm : m < inodes) (hmn : m ≠ n) (b : ℕ)
    (hb : (t.work.dinode m).Has t.work b) : ¬ (t.work.dinode n).Has t.work b := by
  rw [h.has_other hs hn hm hmn] at hb
  have hin := (hs.shows m hm).inside b hb
  rw [h.has_self hn]
  rintro (hc | hc)
  · exact hs.apart m hm n hn hmn b hb hc
  · omega

/-- All files are as they should be, if the one is. -/
theorem base (hfresh : Fresh t) (hbound : t.freeblock ≤ Mkfs.size) (hsuper : t.img 1 = superSector)
    (hshows : Shows d' t cs) (hkind : ∀ m, m ≠ n → kind t.freeinode m = kind s.freeinode m)
    (hfields : ∃ k addrs, d' = { kind t.freeinode n with size := k, addrs := addrs })
    (hnone : ∀ m, t.freeinode ≤ m → Function.update content n cs m = []) :
    Base t (Function.update content n cs) where
  toFresh := hfresh
  bound := hbound
  super := hsuper
  shows := fun m hm => by
    by_cases hmn : m = n
    · rw [hmn, Function.update_self, h.dinode n hn, if_pos rfl]
      exact hshows
    · obtain ⟨hdinode, hdata⟩ := h.other hs hn hm hmn
      rw [Function.update_of_ne hmn, hdinode]
      exact (hs.shows m hm).congr hdata h.freeblock
  fields := fun m hm => by
    by_cases hmn : m = n
    · rw [hmn, h.dinode n hn, if_pos rfl]
      exact hfields
    · rw [(h.other hs hn hm hmn).1, hkind m hmn]
      exact hs.fields m hm
  none := hnone
  apart := fun m hm j hj hmj b hb => by
    by_cases hjn : j = n
    · rw [hjn] at hmj ⊢
      exact h.apart_self hs hn hm hmj b hb
    · intro hc
      by_cases hmn : m = n
      · rw [hmn] at hb
        exact h.apart_self hs hn hj hjn b hc hb
      · rw [h.has_other hs hn hm hmn] at hb
        rw [h.has_other hs hn hj hjn] at hc
        exact hs.apart m hm j hj hmj b hb hc
  owned := fun b hge hlt' => by
    by_cases hold : b < s.freeblock
    · obtain ⟨m, hm, hb⟩ := hs.owned b hge hold
      by_cases hmn : m = n
      · rw [hmn] at hb
        exact ⟨n, hn, (h.has_self hn b).mpr (.inl hb)⟩
      · exact ⟨m, hm, (h.has_other hs hn hm hmn b).mpr hb⟩
    · exact ⟨n, hn, (h.has_self hn b).mpr (.inr ⟨Nat.not_lt.mp hold, hlt'⟩)⟩

end Saves

/-- A file has grown, and its inode is written with some size. -/
theorem Base.save (h : Base s content) (hn : n < inodes) (hlt : n < s.freeinode)
    (hg : Grows (s.work.dinode n) s d' s') (hfresh : Fresh s') (hshows : Shows d' s' cs)
    (hb : s'.freeblock ≤ Mkfs.size) (hk : k < 2 ^ 32) :
    Base (s'.withDinode n { d' with size := k }) (Function.update content n cs) := by
  have hblock := inodes_lt hn
  have hsaves := h.saves hn hg hshows hb hk
  have hfree : (s'.withDinode n { d' with size := k }).freeinode = s.freeinode := hg.freeinode
  refine hsaves.base h hn (hfresh.withDinode hn) hb ?_ ?_ (fun m _ => by rw [hfree]) ?_
    fun m hm => ?_
  · rw [img_withDinode (by omega), h.sector hn (by decide) hg]
    exact h.super
  · refine (hshows.resize (k := k)).congr (fun b hb' => img_withDinode ?_) (Nat.le_refl _)
    have hin := hshows.inside b hb'
    rw [dataStart_eq] at hin
    omega
  · obtain ⟨j, addrs, hfields⟩ := h.fields n hn
    refine ⟨k, d'.addrs, ?_⟩
    rw [hfree, hg.fields, hfields]
  · rw [hfree] at hm
    rw [Function.update_of_ne (by omega)]
    exact h.none m hm

/-! ### `iappend` and `ialloc` -/

theorem wp_winode {Q : Unit → State → Prop} (hQ : Q ⟨⟩ (s.withDinode n d)) :
    wp (winode n d) Q (fun _ => True) s := by
  unfold winode
  rw [wp_bind]
  exact wp_rsect fun _ => wp_wsect.mpr hQ

theorem wp_rinode {Q : Dinode → State → Prop} (hQ : Q (s.work.dinode n) s) :
    wp (rinode n) Q (fun _ => True) s := by
  unfold rinode
  rw [wp_bind]
  exact wp_rsect fun _ => wp_pure.mpr hQ

theorem wp_iappend {Q : Unit → State → Prop} {src : List UInt8} (h : Built s content)
    (hn : n < inodes) (hlt : n < s.freeinode)
    (hQ : ∀ t, Built t (Function.update content n (content n ++ src)) →
      t.freeinode = s.freeinode → t.freeblock + cost (blocks (content n).length) =
        s.freeblock + cost (blocks (content n ++ src).length) → Q ⟨⟩ t) :
    wp (iappend n src) Q (fun _ => True) s := by
  unfold iappend
  rw [wp_bind]
  refine wp_rinode ?_
  rw [wp_bind, h.size n hn]
  refine wp_appendLoop (Nat.le_refl _) h.toFresh h.bound (h.shows n hn)
    fun d' s' hg hfresh hb hshows hcost => wp_winode (hQ _ ?_ hg.freeinode hcost)
  have hle := hshows.length_le
  have hk : (content n ++ src).length < 2 ^ 32 := by
    rw [MAXFILE_eq, BSIZE_eq] at hle
    omega
  refine ⟨h.save hn hlt hg hfresh hshows hb hk, fun m hm => ?_⟩
  rw [(h.saves hn hg hshows hb hk).dinode m hm]
  by_cases hmn : m = n
  · rw [if_pos hmn, hmn, Function.update_self]
  · rw [if_neg hmn, Function.update_of_ne hmn]
    exact h.size m hm

theorem Lists.not_has (h : Lists d s 0) (b : ℕ) : ¬ d.Has s.work b := by
  rintro ⟨hne, rfl | ⟨bn, rfl⟩⟩
  · exact absurd (h.table.mp hne) (Nat.not_lt_zero _)
  · exact absurd ((h.has bn).mp hne) (Nat.not_lt_zero _)

theorem wp_ialloc {Q : ℕ → State → Prop} {type : ℕ} (h : Built s content)
    (hn : s.freeinode < inodes) (hpos : 1 ≤ s.freeinode)
    (htype : type = if s.freeinode = ROOTINO then T_DIR else T_FILE)
    (hQ : ∀ t, Built t content → t.freeinode = s.freeinode + 1 → t.freeblock = s.freeblock →
      Q s.freeinode t) : wp (ialloc type) Q (fun _ => True) s := by
  have hblock := inodes_lt hn
  have hnone : content s.freeinode = [] := h.none _ (Nat.le_refl _)
  set n := s.freeinode with hfree
  set d : Dinode := { Dinode.zero with type := type, nlink := 1, size := 0 } with hd
  have hkind : d = { kind (n + 1) n with size := 0, addrs := fun _ => 0 } := by
    rw [kind, if_pos ⟨hpos, Nat.lt_succ_self n⟩, hd, htype]
    rfl
  have hfits : d.Fits := by
    rw [hkind]
    exact kind_fits (by norm_num) (Shows.empty (d := d) (s := s) rfl).toLists rfl h.bound
  have hsaves : Saves s n d (State.withDinode { s with freeinode := n + 1 } n d) := {
    freeblock := Nat.le_refl _
    dinode := fun m _ => by
      rw [dinode_withDinode hfits, Function.update_apply]
      rfl
    img := fun b hge _ _ => by
      rw [dataStart_eq] at hge
      exact img_withDinode (by omega)
    has := fun b => by
      have hlists := (h.shows n hn).toLists
      rw [hnone] at hlists
      refine iff_of_false (not_has rfl b) ?_
      rintro (hc | hc)
      · exact hlists.not_has b hc
      · exact absurd hc.2 (Nat.not_lt.mpr hc.1) }
  have hbase : Base (State.withDinode { s with freeinode := n + 1 } n d)
      (Function.update content n []) := by
    have hfresh : Fresh { s with freeinode := n + 1 } := ⟨h.sectors, h.low, h.used, h.zero⟩
    refine hsaves.base h.toBase hn (hfresh.withDinode hn) h.bound ?_ (.empty rfl) (fun m hm => ?_)
      ⟨0, fun _ => 0, hkind⟩ fun m hm => ?_
    · exact (img_withDinode (by omega)).trans h.super
    · change kind (n + 1) m = kind n m
      unfold kind
      exact if_congr (by omega) rfl rfl
    · have hm' : n + 1 ≤ m := hm
      rw [Function.update_of_ne (by omega)]
      exact h.none m (by omega)
  rw [← hnone, Function.update_eq_self] at hbase
  unfold ialloc
  rw [wp_bind, wp_get, wp_bind, wp_set, wp_bind]
  refine wp_winode (wp_pure.mpr (hQ _ ⟨hbase, fun m hm => ?_⟩ rfl rfl))
  rw [hsaves.dinode m hm]
  by_cases hmn : m = n
  · rw [if_pos hmn, hmn, hnone]
    rfl
  · rw [if_neg hmn]
    exact h.size m hm

end Inodes

end Mkfs

end Xv6
