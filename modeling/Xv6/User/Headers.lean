import Xv6.Foundation.Circular
import Xv6.Foundation.Extents
import Xv6.Lib.Words
import Xv6.User.Umalloc

/-!
# The headers of the allocator

A block of the heap is its header with what belongs to it. The blocks lie side by side in the
memory behind `base`; so a store in one header leaves the other ones as they are, and blocks
are joined, cut and added by a store of a size.
-/

namespace Xv6

namespace Umalloc

open Foundation

/-- A block: where its header is, and how many headers it is long. -/
structure Chunk where
  addr : UInt32
  size : UInt32

def Chunk.stop (c : Chunk) : ℕ := c.addr.toNat + 8 * c.size.toNat

def Chunk.extent (c : Chunk) : ℕ × ℕ := (c.addr.toNat, c.stop)

namespace Heap

def setPtr (h : Heap) (p x : UInt32) : Heap := { h with mem := h.mem.storeWord p x }

def setSize (h : Heap) (p x : UInt32) : Heap := { h with mem := h.mem.storeWord (p + 4) x }

def Has (h : Heap) (p : UInt32) : Prop := p.toNat + 8 ≤ h.sz.toNat ∧ h.sz.toNat < KERNBASE

end Heap

variable {base p q x n : UInt32} {K : Set ℕ} {sz : ℕ} {h : Heap} {b c d : Chunk} {bs cs : List Chunk}
  {E : Stop → Prop}

theorem KERNBASE_eq : KERNBASE = 2 ^ 31 := by decide

theorem le_PGROUNDUP {sz : ℕ} (hsz : sz < KERNBASE) : sz ≤ PGROUNDUP sz := by
  rw [KERNBASE_eq] at hsz
  rw [PGROUNDUP, uint, show PGSIZE = 4096 from rfl]
  omega

theorem toNat_size (hp : p.toNat + 8 ≤ 2 ^ 32) : (p + 4).toNat = p.toNat + 4 :=
  toNat_addr (i := 4) (n := 8) hp (by decide)

/-! ### Loads and stores -/

section Rules

open UmallocM

variable {Q : UInt32 → Heap → Prop} {R : Unit → Heap → Prop}

theorem wp_load (hp : h.Has p) (hle : q.toNat ≤ p.toNat + 4) :
    wp (load q) Q E h ↔ Q (h.mem.uint q) h := by
  have hup := le_PGROUNDUP hp.2
  have hin := hp.1
  rw [load, wp_bind, wp_get, if_pos (by omega), wp_pure]

theorem wp_store (hp : h.Has p) (hle : q.toNat ≤ p.toNat + 4) :
    wp (store q x) R E h ↔ R () { h with mem := h.mem.storeWord q x } := by
  have hup := le_PGROUNDUP hp.2
  have hin := hp.1
  rw [store, wp_bind, wp_get, if_pos (by omega), wp_set]

theorem Heap.Has.bound (hp : h.Has p) : p.toNat + 8 ≤ 2 ^ 32 := by
  have hin := hp.1
  have hlt := hp.2
  rw [KERNBASE_eq] at hlt
  omega

theorem Heap.Has.setSize (hp : h.Has p) : (h.setSize q x).Has p := hp

theorem wp_ptr (hp : h.Has p) : wp (ptr p) Q E h ↔ Q (h.mem.uint p) h :=
  wp_load hp (Nat.le_add_right _ _)

theorem wp_size (hp : h.Has p) : wp (size p) Q E h ↔ Q (h.mem.uint (p + 4)) h :=
  wp_load hp (toNat_size hp.bound).le

theorem wp_setPtr (hp : h.Has p) : wp (UmallocM.setPtr p x) R E h ↔ R () (h.setPtr p x) :=
  wp_store hp (Nat.le_add_right _ _)

theorem wp_setSize (hp : h.Has p) : wp (UmallocM.setSize p x) R E h ↔ R () (h.setSize p x) :=
  wp_store hp (toNat_size hp.bound).le

theorem wp_setFreep : wp (setFreep p) R E h ↔ R () { h with freep := p } := by
  rw [setFreep, wp_modify]

end Rules

/-! ### Two headers -/

/-- Places of headers that are the same or do not overlap. -/
structure Separate (p q : UInt32) : Prop where
  left : p.toNat + 8 ≤ 2 ^ 32
  right : q.toNat + 8 ≤ 2 ^ 32
  beside : q = p ∨ q.toNat + 8 ≤ p.toNat ∨ p.toNat + 8 ≤ q.toNat

namespace Separate

theorem ptr_setPtr (hpq : Separate p q) :
    (h.setPtr p x).mem.uint q = if q = p then x else h.mem.uint q := by
  have hp := hpq.left
  have hq := hpq.right
  by_cases heq : q = p
  · rw [if_pos heq, heq]
    exact Memory.uint_storeWord
  · have hbeside := hpq.beside.resolve_left heq
    rw [if_neg heq]
    exact Memory.uint_storeWord_of_beside (by omega) (by omega) (by omega)

theorem size_setPtr (hpq : Separate p q) :
    (h.setPtr p x).mem.uint (q + 4) = h.mem.uint (q + 4) := by
  have hp := hpq.left
  have hsize := toNat_size hpq.right
  have hbound := hpq.right
  refine Memory.uint_storeWord_of_beside (by omega) (by omega) ?_
  rcases hpq.beside with rfl | hbeside
  · omega
  · omega

theorem ptr_setSize (hpq : Separate p q) : (h.setSize p x).mem.uint q = h.mem.uint q := by
  have hq := hpq.right
  have hsize := toNat_size hpq.left
  have hbound := hpq.left
  refine Memory.uint_storeWord_of_beside (by omega) (by omega) ?_
  rcases hpq.beside with rfl | hbeside
  · omega
  · omega

theorem size_setSize (hpq : Separate p q) :
    (h.setSize p x).mem.uint (q + 4) = if q = p then x else h.mem.uint (q + 4) := by
  have hp := toNat_size hpq.left
  have hq := toNat_size hpq.right
  have hleft := hpq.left
  have hright := hpq.right
  by_cases heq : q = p
  · rw [if_pos heq, heq]
    exact Memory.uint_storeWord
  · have hbeside := hpq.beside.resolve_left heq
    rw [if_neg heq]
    exact Memory.uint_storeWord_of_beside (by omega) (by omega) (by omega)

end Separate

/-! ### All headers -/

/-- Where the blocks are: between `base` and `sz`, and they are the memory `K`. -/
structure Layout (base : UInt32) (K : Set ℕ) (sz : ℕ) (bs : List Chunk) : Prop where
  base_pos : 0 < base.toNat
  base_le : base.toNat + 8 ≤ sz
  sz_lt : sz < KERNBASE
  extents : Extents (base.toNat + 8) sz (bs.map Chunk.extent)
  covers : covered (bs.map Chunk.extent) = K

def places (base : UInt32) (bs : List Chunk) : List UInt32 := base :: bs.map Chunk.addr

theorem mem_places (hc : c ∈ bs) : c.addr ∈ places base bs :=
  List.mem_cons_of_mem _ (List.mem_map_of_mem hc)

theorem base_mem_places : base ∈ places base bs := List.mem_cons_self

theorem places_subset (hsub : bs ⊆ cs) (hp : p ∈ places base bs) : p ∈ places base cs := by
  rcases List.mem_cons.mp hp with rfl | hp
  · exact base_mem_places
  · exact List.mem_cons_of_mem _ (List.map_subset Chunk.addr hsub hp)

theorem places_left : places base bs ⊆ places base (bs ++ cs) := fun _ hp =>
  places_subset (List.subset_append_left _ _) hp

namespace Layout

theorem inside (hl : Layout base K sz bs) (hc : c ∈ bs) :
    base.toNat + 8 ≤ c.addr.toNat ∧ c.addr.toNat < c.stop ∧ c.stop ≤ sz :=
  hl.extents.inside c.extent (List.mem_map_of_mem hc)

theorem pos (hl : Layout base K sz bs) (hc : c ∈ bs) : 0 < c.size.toNat := by
  have hin := (hl.inside hc).2.1
  rw [Chunk.stop] at hin
  omega

theorem stop_le (hl : Layout base K sz bs) (hc : c ∈ bs) : c.addr.toNat + 8 ≤ c.stop := by
  have hpos := hl.pos hc
  rw [Chunk.stop]
  omega

theorem stop_lt (hl : Layout base K sz bs) (hc : c ∈ bs) : c.stop < 2 ^ 31 := by
  have hin := (hl.inside hc).2.2
  have hlt := hl.sz_lt
  rw [KERNBASE_eq] at hlt
  omega

theorem base_lt (hl : Layout base K sz bs) (hc : c ∈ bs) : base.toNat + 8 ≤ c.addr.toNat :=
  (hl.inside hc).1

theorem le_sz (hl : Layout base K sz bs) (hp : p ∈ places base bs) : p.toNat + 8 ≤ sz := by
  rcases List.mem_cons.mp hp with rfl | hp
  · exact hl.base_le
  · obtain ⟨c, hc, rfl⟩ := List.mem_map.mp hp
    exact (hl.stop_le hc).trans (hl.inside hc).2.2

theorem bound (hl : Layout base K sz bs) (hp : p ∈ places base bs) : p.toNat + 8 ≤ 2 ^ 32 := by
  have hle := hl.le_sz hp
  have hlt := hl.sz_lt
  rw [KERNBASE_eq] at hlt
  omega

theorem separate (hl : Layout base K sz bs) (hp : p ∈ places base bs)
    (hq : q ∈ places base bs) : Separate p q := by
  refine ⟨hl.bound hp, hl.bound hq, ?_⟩
  rcases List.mem_cons.mp hp with rfl | hp
  · rcases List.mem_cons.mp hq with rfl | hq
    · exact .inl rfl
    · obtain ⟨c, hc, rfl⟩ := List.mem_map.mp hq
      exact .inr (.inr (hl.base_lt hc))
  · obtain ⟨c, hc, rfl⟩ := List.mem_map.mp hp
    rcases List.mem_cons.mp hq with rfl | hq
    · exact .inr (.inl (hl.base_lt hc))
    · obtain ⟨d, hd, rfl⟩ := List.mem_map.mp hq
      by_cases heq : d.addr = c.addr
      · exact .inl heq
      · refine .inr ?_
        have hne : c.extent ≠ d.extent := fun hext =>
          heq (UInt32.toNat_inj.mp (congrArg Prod.fst hext)).symm
        have hbeside := hl.extents.beside.forall (List.mem_map_of_mem hc)
          (List.mem_map_of_mem hd) hne
        rcases hbeside with hle | hle
        · exact .inr ((hl.stop_le hc).trans hle)
        · exact .inl ((hl.stop_le hd).trans hle)

theorem perm (hl : Layout base K sz bs) (hperm : bs.Perm cs) : Layout base K sz cs :=
  { hl with
    extents := hl.extents.perm (hperm.map _)
    covers := (covered_perm (hperm.map _)).symm.trans hl.covers }

theorem tail (hl : Layout base K sz (c :: bs)) :
    Layout base (covered (bs.map Chunk.extent)) sz bs :=
  { hl with extents := (Extents.cons_iff.mp hl.extents).2.2, covers := rfl }

/-- A block before another one ends where that begins, or before. -/
theorem stop_le_of_lt (hl : Layout base K sz bs) (hc : c ∈ bs) (hd : d ∈ bs)
    (hlt : c.addr.toNat < d.addr.toNat) : c.stop ≤ d.addr.toNat := by
  have hne : c.extent ≠ d.extent := fun heq => hlt.ne (congrArg Prod.fst heq)
  rcases hl.extents.beside.forall (List.mem_map_of_mem hc) (List.mem_map_of_mem hd) hne with
    hle | hle
  · exact hle
  · exact absurd ((hl.inside hd).2.1.trans_le hle) hlt.asymm

theorem ne_head (hl : Layout base K sz (c :: bs)) (hd : d ∈ bs) : d.addr ≠ c.addr := by
  intro heq
  have hc := (hl.inside List.mem_cons_self).2.1
  have hdin := (hl.inside (List.mem_cons_of_mem _ hd)).2.1
  have hplace := congrArg UInt32.toNat heq
  rcases (Extents.cons_iff.mp hl.extents).2.1 d.extent (List.mem_map_of_mem hd) with hle | hle
  · change c.stop ≤ d.addr.toNat at hle
    omega
  · change d.stop ≤ c.addr.toNat at hle
    omega

/-- Two blocks that meet. -/
theorem join (hl : Layout base K sz (c :: d :: bs)) (hmeet : c.stop = d.addr.toNat) :
    (c.size + d.size).toNat = c.size.toNat + d.size.toNat ∧
      Layout base K sz (⟨c.addr, c.size + d.size⟩ :: bs) := by
  have hlt := hl.stop_lt (List.mem_cons_of_mem _ List.mem_cons_self)
  have hsum : (c.size + d.size).toNat = c.size.toNat + d.size.toNat := by
    rw [UInt32.toNat_add]
    rw [Chunk.stop] at hlt hmeet
    omega
  have hstop : Chunk.stop ⟨c.addr, c.size + d.size⟩ = d.stop := by
    change c.addr.toNat + 8 * (c.size + d.size).toNat = d.addr.toNat + 8 * d.size.toNat
    rw [Chunk.stop] at hmeet
    omega
  have hmap : (c :: d :: bs).map Chunk.extent =
      (c.addr.toNat, c.stop) :: (c.stop, d.stop) :: bs.map Chunk.extent := by
    rw [List.map_cons, List.map_cons, Chunk.extent, Chunk.extent, hmeet]
  have hc := (hl.inside List.mem_cons_self).2.1
  have hd := (hl.inside (List.mem_cons_of_mem _ List.mem_cons_self)).2.1
  refine ⟨hsum, { hl with extents := ?_, covers := ?_ }⟩
  · rw [List.map_cons, Chunk.extent, hstop]
    exact (hmap ▸ hl.extents).join
  · rw [List.map_cons, Chunk.extent, hstop, ← covered_join hc.le (hmeet ▸ hd.le), ← hmap]
    exact hl.covers

/-- The place where a block ends. -/
theorem toNat_plus (hn : p.toNat + 8 * n.toNat < 2 ^ 32) :
    (UmallocM.plus p n).toNat = p.toNat + 8 * n.toNat := by
  rw [UmallocM.plus, UInt32.toNat_add, UInt32.toNat_mul]
  change (p.toNat + n.toNat * 8 % 2 ^ 32) % 2 ^ 32 = _
  omega

/-- A block is cut in two, the second one of `n` headers. -/
theorem split (hl : Layout base K sz (c :: bs)) (hpos : 0 < n.toNat)
    (hlt : n.toNat < c.size.toNat) :
    Layout base K sz (⟨c.addr, c.size - n⟩ :: ⟨UmallocM.plus c.addr (c.size - n), n⟩ :: bs) := by
  have hstop := hl.stop_lt List.mem_cons_self
  have hsub : (c.size - n).toNat = c.size.toNat - n.toNat :=
    UInt32.toNat_sub_of_le _ _ (UInt32.le_iff_toNat_le.mpr hlt.le)
  rw [Chunk.stop] at hstop
  have hplus := toNat_plus (p := c.addr) (n := c.size - n) (by omega)
  have hsecond : Chunk.stop ⟨UmallocM.plus c.addr (c.size - n), n⟩ = c.stop := by
    change (UmallocM.plus c.addr (c.size - n)).toNat + 8 * n.toNat =
      c.addr.toNat + 8 * c.size.toNat
    omega
  have hmap : (⟨c.addr, c.size - n⟩ :: ⟨UmallocM.plus c.addr (c.size - n), n⟩ :: bs).map
      Chunk.extent = (c.addr.toNat, (UmallocM.plus c.addr (c.size - n)).toNat) ::
        ((UmallocM.plus c.addr (c.size - n)).toNat, c.stop) :: bs.map Chunk.extent := by
    rw [List.map_cons, List.map_cons, Chunk.extent, Chunk.extent, hsecond, Chunk.stop, ← hplus]
  have hleft : c.addr.toNat < (UmallocM.plus c.addr (c.size - n)).toNat := by omega
  have hright : (UmallocM.plus c.addr (c.size - n)).toNat < c.stop := by
    rw [Chunk.stop]
    omega
  refine { hl with extents := ?_, covers := ?_ }
  · rw [hmap]
    exact Extents.split hl.extents hleft hright
  · rw [hmap, covered_join hleft.le hright.le]
    exact hl.covers

/-- A block is added behind all others. -/
theorem grow (hl : Layout base K p.toNat bs) (hpos : 0 < n.toNat)
    (hlt : p.toNat + 8 * n.toNat < KERNBASE) :
    Layout base (Set.Ico p.toNat (p.toNat + 8 * n.toNat) ∪ K) (p.toNat + 8 * n.toNat)
      (⟨p, n⟩ :: bs) :=
  { hl with
    base_le := hl.base_le.trans (Nat.le_add_right _ _)
    sz_lt := hlt
    extents := hl.extents.grow hl.base_le (by omega)
    covers := covered_cons.trans (congrArg _ hl.covers) }

end Layout

structure Headers (base : UInt32) (K : Set ℕ) (h : Heap) (bs : List Chunk) : Prop extends
    Layout base K h.sz.toNat bs where
  base_size : h.mem.uint (base + 4) = 0
  sizes : ∀ c ∈ bs, h.mem.uint (c.addr + 4) = c.size

namespace Headers

theorem has (hh : Headers base K h bs) (hp : p ∈ places base bs) : h.Has p :=
  ⟨hh.le_sz hp, hh.sz_lt⟩

theorem perm (hh : Headers base K h bs) (hperm : bs.Perm cs) : Headers base K h cs :=
  { hh.toLayout.perm hperm with
    base_size := hh.base_size
    sizes := fun c hc => hh.sizes c (hperm.mem_iff.mpr hc) }

/-- A pointer is stored. -/
theorem setPtr (hh : Headers base K h bs) (hp : p ∈ places base bs) :
    Headers base K (h.setPtr p x) bs :=
  { hh with
    base_size := (hh.separate hp base_mem_places).size_setPtr.trans hh.base_size
    sizes := fun c hc => (hh.separate hp (mem_places hc)).size_setPtr.trans (hh.sizes c hc) }

theorem setFreep (hh : Headers base K h bs) : Headers base K { h with freep := p } bs :=
  { hh with }

/-- The size of a block is stored, which may be a new block or an old one with a new size. -/
theorem setSize (hl : Layout base K h.sz.toNat (c :: bs)) (hbase : h.mem.uint (base + 4) = 0)
    (hsizes : ∀ d ∈ bs, h.mem.uint (d.addr + 4) = d.size) :
    Headers base K (h.setSize c.addr c.size) (c :: bs) := by
  have hc : c.addr ∈ places base (c :: bs) := mem_places List.mem_cons_self
  refine { hl with base_size := ?_, sizes := List.forall_mem_cons.mpr ⟨?_, fun d hd => ?_⟩ }
  · rw [(hl.separate hc base_mem_places).size_setSize, if_neg, hbase]
    intro heq
    have hlt := hl.base_lt List.mem_cons_self
    rw [← heq] at hlt
    omega
  · rw [(hl.separate hc hc).size_setSize, if_pos rfl]
  · rw [(hl.separate hc (mem_places (List.mem_cons_of_mem _ hd))).size_setSize,
      if_neg (hl.ne_head hd), hsizes d hd]

theorem join (hh : Headers base K h (c :: d :: bs)) (hmeet : c.stop = d.addr.toNat) :
    Headers base K (h.setSize c.addr (c.size + d.size)) (⟨c.addr, c.size + d.size⟩ :: bs) :=
  setSize (hh.toLayout.join hmeet).2 hh.base_size fun e he =>
    hh.sizes e (List.mem_cons_of_mem _ (List.mem_cons_of_mem _ he))

theorem split (hh : Headers base K h (c :: bs)) (hpos : 0 < n.toNat)
    (hlt : n.toNat < c.size.toNat) :
    Headers base K ((h.setSize c.addr (c.size - n)).setSize (UmallocM.plus c.addr (c.size - n)) n)
      (⟨UmallocM.plus c.addr (c.size - n), n⟩ :: ⟨c.addr, c.size - n⟩ :: bs) := by
  have hl := (hh.toLayout.split hpos hlt).perm (List.Perm.swap _ _ _)
  have hfirst : Headers base _ (h.setSize c.addr (c.size - n)) (⟨c.addr, c.size - n⟩ :: bs) :=
    setSize hl.tail hh.base_size fun d hd => hh.sizes d (List.mem_cons_of_mem _ hd)
  exact setSize (c := ⟨UmallocM.plus c.addr (c.size - n), n⟩) hl hfirst.base_size hfirst.sizes

/-- `sbrk` has given `n` headers. -/
theorem grow {g : Heap} (hh : Headers base K h bs) (hmem : g.mem = h.mem)
    (hpos : 0 < n.toNat) (hlt : h.sz.toNat + 8 * n.toNat < KERNBASE)
    (hsz : g.sz.toNat = h.sz.toNat + 8 * n.toNat) :
    Headers base (Set.Ico h.sz.toNat g.sz.toNat ∪ K) (g.setSize h.sz n) (⟨h.sz, n⟩ :: bs) := by
  have hl : Layout base (Set.Ico h.sz.toNat g.sz.toNat ∪ K) g.sz.toNat (⟨h.sz, n⟩ :: bs) := by
    rw [hsz]
    exact hh.toLayout.grow hpos hlt
  refine setSize (c := ⟨h.sz, n⟩) hl ?_ ?_
  · rw [hmem]
    exact hh.base_size
  · rw [hmem]
    exact hh.sizes

end Headers

end Umalloc

end Xv6
