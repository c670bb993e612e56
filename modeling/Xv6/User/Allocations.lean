import Xv6.User.Malloc

/-!
# What a program has allocated

A program calls `malloc` and `free` and stores in what it has got. As long as it asks for at
most `2^31 - 16` bytes at a time, each call gives memory of the process that is not in use.
For any larger request this goes wrong: the number of headers or of bytes wraps around.
-/

namespace Xv6

namespace Umalloc

open Foundation

variable {base p q x n nbytes : UInt32} {K : Set ℕ} {fuel : ℕ} {h : Heap} {b c d : Chunk}
  {bs fl live live' u w : List Chunk} {s t : System} {E : Stop → Prop}

/-! ### The invariant -/

def Small (nbytes : UInt32) : Prop := nbytes.toNat ≤ 2 ^ 31 - 16

instance (nbytes : UInt32) : Decidable (Small nbytes) :=
  inferInstanceAs (Decidable (nbytes.toNat ≤ 2 ^ 31 - 16))

def Alloc.block (q : Alloc) : Chunk := ⟨q.ptr - 8, UmallocM.units q.nbytes⟩

/-- `malloc` has not been called yet, or the free list is there. -/
def Ready (base : UInt32) (K : Set ℕ) (h : Heap) (live : List Chunk) : Prop :=
  (h.freep = 0 ∧ live = [] ∧ Layout base K h.sz.toNat []) ∨ ∃ fl, Tidy base K h fl live

/-- The allocations are small and have their blocks. -/
structure Sound (base : UInt32) (K : Set ℕ) (s : System) : Prop where
  ready : Ready base K s.heap (s.live.map Alloc.block)
  small : ∀ q ∈ s.live, Small q.nbytes

theorem toNat_units (nbytes : UInt32) : (UmallocM.units nbytes).toNat =
    (nbytes.toNat + 7) % 2 ^ 32 / 8 + 1 := by
  have hbytes : (nbytes + 8 - 1).toNat = (nbytes.toNat + 7) % 2 ^ 32 := by
    have hlt := nbytes.toNat_lt
    rw [UInt32.toNat_sub, UInt32.toNat_add]
    change (2 ^ 32 - 1 + (nbytes.toNat + 8) % 2 ^ 32) % 2 ^ 32 = _
    omega
  rw [UmallocM.units, UInt32.toNat_add, UInt32.toNat_div, hbytes]
  change ((nbytes.toNat + 7) % 2 ^ 32 / 8 + 1) % 2 ^ 32 = _
  omega

/-- The headers of a small request. -/
theorem Small.units (hn : Small nbytes) : 8 * (UmallocM.units nbytes).toNat < 2 ^ 31 ∧
    nbytes.toNat + 8 ≤ 8 * (UmallocM.units nbytes).toNat := by
  rw [Small] at hn
  rw [toNat_units]
  omega

theorem units_pos : 0 < (UmallocM.units nbytes).toNat := by
  rw [toNat_units]
  exact Nat.succ_pos _

/-! ### The calls -/

theorem Tidy.perm (ht : Tidy base K h fl live) (hperm : live.Perm live') :
    Tidy base K h fl live' :=
  { ht with headers := ht.headers.perm (hperm.append_left fl) }

/-- The first call makes a list of `base` alone. -/
theorem tidy_base (hl : Layout base K h.sz.toNat []) (hfreep : h.freep = base) :
    Tidy base K ((h.setPtr base base).setSize base 0) [] [] := by
  have hsep : Separate base base := hl.separate base_mem_places base_mem_places
  refine ⟨{ hl with base_size := ?_, sizes := ?_ }, ?_, List.pairwise_singleton _ _, ?_,
    fun c hc => absurd hc List.not_mem_nil⟩
  · exact hsep.size_setSize.trans (if_pos rfl)
  · exact fun c hc => absurd hc List.not_mem_nil
  · refine Linked.cons_cons.mpr ⟨?_, Linked.singleton⟩
    rw [hsep.ptr_setSize]
    exact hsep.ptr_setPtr.trans (if_pos rfl)
  · exact List.mem_singleton.mpr hfreep

/-- How often the loops go round at most. -/
def rounds (fl : List Chunk) : ℕ := 4 * fl.length + 8

theorem wp_malloc_tidy (ht : Tidy base K h fl live)
    (hn : 8 * (UmallocM.units nbytes).toNat < 2 ^ 31) (hfuel : rounds fl ≤ fuel ∨ E .running) :
    wp (UmallocM.malloc base fuel nbytes)
      (Answers base K (UmallocM.units nbytes) live h) E h := by
  obtain ⟨k, hle, hk⟩ := ht.ring.reaches (ht.ring.next_mem ht.freep) ht.freep
  rw [List.length_map] at hle
  rw [UmallocM.malloc, wp_bind, wp_get, if_neg (ht.pos ht.freep), wp_bind,
    wp_ptr (ht.headers.has (places_left ht.freep))]
  refine wp_mallocLoop ht units_pos hn ht.freep rfl hk (hfuel.imp_left fun hfuel => ?_)
  rw [rounds] at hfuel
  omega

def started (base : UInt32) (h : Heap) : Heap :=
  (Heap.setPtr { h with freep := base } base base).setSize base 0

theorem wp_malloc_first {Q : UInt32 → Heap → Prop} (hl : Layout base K h.sz.toNat [])
    (hfreep : h.freep = 0) : wp (UmallocM.malloc base fuel nbytes) Q E h ↔
      wp (UmallocM.mallocLoop (UmallocM.units nbytes) fuel base base) Q E (started base h) := by
  have ht := tidy_base (h := { h with freep := base }) hl rfl
  have hhas : h.Has base := ⟨hl.le_sz base_mem_places, hl.sz_lt⟩
  have hptr := (Linked.cons_cons.mp ht.ring).1
  rw [UmallocM.malloc, wp_bind, wp_get, if_pos hfreep, wp_bind, wp_setFreep, wp_bind,
    wp_setPtr (h := { h with freep := base }) hhas, wp_bind,
    wp_setSize (h := Heap.setPtr { h with freep := base } base base) hhas, wp_bind,
    wp_ptr (ht.headers.has base_mem_places), hptr]
  rfl

/-- Enough rounds for every call. -/
theorem Ready.wp_malloc (hr : Ready base K h live)
    (hn : 8 * (UmallocM.units nbytes).toNat < 2 ^ 31) : ∃ k, ∀ fuel, k ≤ fuel ∨ E .running →
      wp (UmallocM.malloc base fuel nbytes)
        (Answers base K (UmallocM.units nbytes) live h) E h := by
  rcases hr with ⟨hfreep, rfl, hl⟩ | ⟨fl, ht⟩
  · have ht : Tidy base K (started base h) [] [] := tidy_base hl rfl
    refine ⟨rounds [], fun fuel hfuel => (wp_malloc_first hl hfreep).mpr ?_⟩
    refine wp_mono (wp_mallocLoop (k := 0) ht units_pos hn base_mem_places
      (Linked.cons_cons.mp ht.ring).1 rfl (hfuel.imp_left (Nat.lt_of_lt_of_le (by decide))))
      (fun _ _ ha => ⟨ha.sz, ha.full, ha.answer⟩) fun _ he => he
  · exact ⟨_, fun fuel hfuel => wp_malloc_tidy ht hn hfuel⟩

theorem Ready.setFull (hr : Ready base K h live) (full : List Bool) :
    Ready base K { h with full := full } live := by
  rcases hr with ⟨hfreep, hlive, hl⟩ | ⟨fl, ht⟩
  · exact .inl ⟨hfreep, hlive, hl⟩
  · exact .inr ⟨fl, ht.setFull full⟩

/-- The place of an allocation and its block. -/
theorem Tidy.alloc {a : Alloc} (ht : Tidy base K h fl live) (ha : a.block ∈ live)
    (hn : Small a.nbytes) : a.ptr.toNat = a.block.addr.toNat + 8 ∧
      a.ptr.toNat + a.nbytes.toNat ≤ a.block.stop := by
  have hmem := List.mem_append_right fl ha
  have hstop := ht.headers.stop_lt hmem
  have hle := ht.headers.stop_le hmem
  have hptr : a.ptr.toNat = a.block.addr.toNat + 8 := by
    have hback : a.block.addr + 8 = a.ptr := UInt32.sub_add_cancel _ _
    rw [← hback, UInt32.toNat_add]
    change (a.block.addr.toNat + 8) % 2 ^ 32 = _
    omega
  have hunits := hn.units.2
  refine ⟨hptr, ?_⟩
  change _ ≤ a.block.addr.toNat + 8 * (UmallocM.units a.nbytes).toNat
  omega

/-- What `malloc` gives is an allocation beside the others, in the memory of the process. -/
theorem Got.block {r : UInt32} (hg : Got base K (UmallocM.units nbytes) live r h) :
    r ≠ 0 ∧ ∃ fl, Tidy base K h fl (Alloc.block ⟨r, nbytes⟩ :: live) := by
  obtain ⟨b, fl, rfl, hsize, ht⟩ := hg
  have hblock : Alloc.block ⟨b.addr + 8, nbytes⟩ = b := by
    cases b
    rw [Alloc.block, UInt32.add_sub_cancel, ← hsize]
  refine ⟨fun hzero => ?_, fl, by rw [hblock]; exact ht⟩
  have hmem : b ∈ fl ++ b :: live := List.mem_append_right _ List.mem_cons_self
  have hstop := ht.headers.stop_lt hmem
  have hle := ht.headers.stop_le hmem
  have hnat := congrArg UInt32.toNat hzero
  rw [UInt32.toNat_add] at hnat
  change (b.addr.toNat + 8) % 2 ^ 32 = 0 at hnat
  omega

/-- A byte that is in no header may be stored. -/
theorem Tidy.store {a : UInt32} {x : UInt8} (ht : Tidy base K h fl live)
    (hout : ∀ p ∈ places base (fl ++ live), a.toNat < p.toNat ∨ p.toNat + 8 ≤ a.toNat) :
    Tidy base K { h with mem := Function.update h.mem a x } fl live := by
  have hptr : ∀ p ∈ places base (fl ++ live),
      Memory.uint (Function.update h.mem a x) p = h.mem.uint p := by
    intro p hp
    have hbound := ht.headers.bound hp
    have hp := hout p hp
    exact Memory.uint_update_of_outside (by omega) (by omega)
  have hsize : ∀ p ∈ places base (fl ++ live),
      Memory.uint (Function.update h.mem a x) (p + 4) = h.mem.uint (p + 4) := by
    intro p hp
    have hbound := ht.headers.bound hp
    have hnat := toNat_size hbound
    have hp := hout p hp
    exact Memory.uint_update_of_outside (by omega) (by omega)
  refine ⟨{ ht.headers with base_size := ?_, sizes := fun c hc => ?_ }, ?_, ht.keys, ht.freep,
    ht.apart⟩
  · exact (hsize base base_mem_places).trans ht.headers.base_size
  · exact (hsize c.addr (mem_places hc)).trans (ht.headers.sizes c hc)
  · exact ht.ring.congr fun p hp => hptr p (places_left hp)

/-- A byte of a block that is not free may be stored. -/
theorem Tidy.write {a : UInt32} {x : UInt8} (ht : Tidy base K h fl live) (hb : b ∈ live)
    (hlo : b.addr.toNat + 8 ≤ a.toNat) (hhi : a.toNat < b.stop) :
    Tidy base K { h with mem := Function.update h.mem a x } fl live := by
  have hmem : b ∈ fl ++ live := List.mem_append_right _ hb
  refine ht.store fun p hp => ?_
  rcases List.mem_cons.mp hp with rfl | hp
  · have hlt := ht.headers.base_lt hmem
    omega
  · obtain ⟨c, hc, rfl⟩ := List.mem_map.mp hp
    have hle := ht.headers.stop_le hc
    rcases lt_trichotomy b.addr.toNat c.addr.toNat with hlt | heq | hlt
    · have hbeside := ht.headers.stop_le_of_lt hmem hc hlt
      omega
    · omega
    · have hbeside := ht.headers.stop_le_of_lt hc hmem hlt
      omega

/-! ### Runs -/

def Op.Small : Op → Prop
  | .malloc nbytes _ _ => Umalloc.Small nbytes
  | _ => True

def Op.IsMalloc : Op → Prop
  | .malloc _ _ _ => True
  | _ => False

theorem Tidy.freep_ne (ht : Tidy base K h fl live) : h.freep ≠ 0 := ht.pos ht.freep

/-- A call that does not ask for memory. -/
theorem Sound.keep (ht : Sound base K t) (hsz : t.heap.sz = h.sz) :
    h.sz.toNat ≤ t.heap.sz.toNat ∧ Sound base (more K h t.heap) t :=
  ⟨by rw [hsz], (more_of_eq hsz).symm ▸ ht⟩

theorem Sound.step {o : Op} (hs : Sound base K s) (ho : o.Small)
    (hstep : step base s o = some t) :
    (s.heap.sz.toNat ≤ t.heap.sz.toNat ∧ Sound base (more K s.heap t.heap) t) ∧
      (o.IsMalloc ∨ s.heap.freep ≠ 0 → t.heap.freep ≠ 0) := by
  cases o with
  | malloc nbytes full fuel =>
      rw [Umalloc.step] at hstep
      cases hres : UmallocM.malloc base fuel nbytes { s.heap with full := full } with
      | error e =>
          rw [hres] at hstep
          cases hstep
      | ok r =>
          obtain ⟨p, h'⟩ := r
          rw [hres] at hstep
          cases hstep
          obtain ⟨k, hwp⟩ := (hs.ready.setFull full).wp_malloc (E := fun _ => True)
            ho.units.1
          obtain ⟨hsz, -, hanswer⟩ := (wp_of_ok hres).mp (hwp fuel (.inr trivial))
          rcases hanswer with hgot | ⟨hzero, hready, -⟩
          · obtain ⟨hne, fl, ht⟩ := hgot.block
            rw [if_neg hne]
            exact ⟨⟨hsz, .inr ⟨fl, ht⟩, List.forall_mem_cons.mpr ⟨ho, hs.small⟩⟩,
              fun _ => ht.freep_ne⟩
          · obtain ⟨fl, ht⟩ := hready
            rw [if_pos hzero]
            exact ⟨⟨hsz, .inr ⟨fl, ht⟩, hs.small⟩, fun _ => ht.freep_ne⟩
  | free q fuel =>
      rw [Umalloc.step] at hstep
      by_cases hq : q ∈ s.live
      · rw [if_pos hq] at hstep
        cases hres : UmallocM.free fuel q.ptr s.heap with
        | error e =>
            rw [hres] at hstep
            cases hstep
        | ok r =>
            rw [hres] at hstep
            cases hstep
            have hperm := (List.perm_cons_erase hq).map Alloc.block
            rcases hs.ready with ⟨-, hlive, -⟩ | ⟨fl, ht⟩
            · rw [List.map_eq_nil_iff.mp hlive] at hq
              cases hq
            · have hwp : wp (UmallocM.free fuel (q.block.addr + 8)) _ (fun _ => True) s.heap :=
                wp_free (ht.perm hperm) (.inr trivial)
              have hptr : q.block.addr + 8 = q.ptr := UInt32.sub_add_cancel _ _
              rw [hptr] at hwp
              obtain ⟨fl', ht', -, -, hkept⟩ := (wp_of_ok hres).mp hwp
              exact ⟨Sound.keep ⟨.inr ⟨fl', ht'⟩,
                fun a ha => hs.small a (List.mem_of_mem_erase ha)⟩ hkept.sz, fun _ => ht'.freep_ne⟩
      · rw [if_neg hq] at hstep
        cases hstep
  | write q i x =>
      rw [Umalloc.step] at hstep
      by_cases hq : q ∈ s.live ∧ i < q.nbytes
      · rw [if_pos hq] at hstep
        cases hstep
        rcases hs.ready with ⟨-, hlive, -⟩ | ⟨fl, ht⟩
        · rw [List.map_eq_nil_iff.mp hlive] at hq
          cases hq.1
        · have hmem := List.mem_map_of_mem (f := Alloc.block) hq.1
          have hstop := ht.headers.stop_lt (List.mem_append_right fl hmem)
          obtain ⟨hptr, hle⟩ := ht.alloc hmem (hs.small q hq.1)
          have hi : i.toNat < q.nbytes.toNat := UInt32.lt_iff_toNat_lt.mp hq.2
          have hsum : (q.ptr + i).toNat = q.ptr.toNat + i.toNat := by
            rw [UInt32.toNat_add]
            omega
          exact ⟨Sound.keep ⟨.inr ⟨fl, ht.write hmem (by omega) (by omega)⟩, hs.small⟩ rfl,
            fun _ => ht.freep_ne⟩
      · rw [if_neg hq] at hstep
        cases hstep

/-- A program has its variables below its size, which is below the kernel. -/
structure Loads (base sz : UInt32) : Prop where
  base_pos : 0 < base.toNat
  base_le : base.toNat + 8 ≤ sz.toNat
  sz_lt : sz.toNat < KERNBASE

theorem Loads.layout {sz : UInt32} (hl : Loads base sz) : Layout base ∅ sz.toNat [] :=
  ⟨hl.base_pos, hl.base_le, hl.sz_lt, Extents.nil, covered_nil⟩

/-- `malloc(nbytes)` returns, does not take memory from the process, and gives nothing or
`nbytes` bytes of the memory of the process beside all that is allocated. -/
def Right (base : UInt32) (s : System) (nbytes : UInt32) : Prop :=
  ∀ full, ∃ k, ∀ fuel ≥ k, ∃ p h',
    UmallocM.malloc base fuel nbytes { s.heap with full := full } = .ok (p, h') ∧
    s.heap.sz.toNat ≤ h'.sz.toNat ∧
    (p = 0 ∨ p.toNat + nbytes.toNat ≤ h'.sz.toNat ∧ ∀ q ∈ s.live,
      q.ptr.toNat + q.nbytes.toNat ≤ p.toNat ∨ p.toNat + nbytes.toNat ≤ q.ptr.toNat)

/-- What `malloc` has given: its block is in the memory of the process, beside what is in use,
and has room for the bytes behind its header. -/
structure Alloc.Fits (a : Alloc) (live : List Alloc) (h : Heap) : Prop where
  ptr : a.ptr.toNat = a.block.addr.toNat + 8
  room : a.ptr.toNat + a.nbytes.toNat ≤ a.block.stop
  inside : a.block.stop ≤ h.sz.toNat
  beside : ∀ q ∈ live, Beside a.block.extent q.block.extent

/-- `malloc` returns and has asked `sbrk` at most once. -/
theorem Sound.gives (hs : Sound base K s) (hn : Small nbytes) (full : List Bool) :
    ∃ k, ∀ fuel ≥ k, ∃ p h',
      UmallocM.malloc base fuel nbytes { s.heap with full := full } = .ok (p, h') ∧
      s.heap.sz.toNat ≤ h'.sz.toNat ∧ (h'.full = full ∨ h'.full = full.tail) ∧
      (p = 0 ∨ Alloc.Fits ⟨p, nbytes⟩ s.live h') := by
  obtain ⟨k, hwp⟩ := (hs.ready.setFull full).wp_malloc (E := fun _ => False) hn.units.1
  refine ⟨k, fun fuel hfuel => ?_⟩
  obtain ⟨p, h', hres, hsz, hfull, hanswer⟩ := (hwp fuel (.inl hfuel)).exists_ok
  refine ⟨p, h', hres, hsz, hfull, ?_⟩
  rcases hanswer with hgot | ⟨hzero, -⟩
  · obtain ⟨-, fl, ht⟩ := hgot.block
    obtain ⟨hptr, hle⟩ := ht.alloc List.mem_cons_self hn
    have hin := ht.headers.inside (List.mem_append_right fl List.mem_cons_self)
    have hh := ht.headers.perm List.perm_middle
    refine .inr ⟨hptr, hle, hin.2.2, fun q hq => ?_⟩
    have hmem : q.block ∈ s.live.map Alloc.block := List.mem_map_of_mem hq
    exact (Extents.cons_iff.mp hh.extents).2.1 q.block.extent
      (List.mem_map_of_mem (List.mem_append_right fl hmem))
  · exact .inl hzero

/-- The place of an allocation that is in use. -/
theorem Sound.alloc {q : Alloc} (hs : Sound base K s) (hq : q ∈ s.live) :
    q.ptr.toNat = q.block.addr.toNat + 8 ∧ q.ptr.toNat + q.nbytes.toNat ≤ q.block.stop := by
  rcases hs.ready with ⟨-, hlive, -⟩ | ⟨fl, ht⟩
  · rw [List.map_eq_nil_iff.mp hlive] at hq
    cases hq
  · exact ht.alloc (List.mem_map_of_mem hq) (hs.small q hq)

theorem Sound.right (hs : Sound base K s) (hn : Small nbytes) : Right base s nbytes := by
  intro full
  obtain ⟨k, hall⟩ := hs.gives hn full
  refine ⟨k, fun fuel hfuel => ?_⟩
  obtain ⟨p, h', hres, hsz, -, hp⟩ := hall fuel hfuel
  refine ⟨p, h', hres, hsz, hp.imp_right fun hfits => ⟨hfits.room.trans hfits.inside, ?_⟩⟩
  intro q hq
  obtain ⟨hptr, hle⟩ := hs.alloc hq
  have hroom := hfits.room
  have hplace := hfits.ptr
  change p.toNat = _ at hplace
  change p.toNat + nbytes.toNat ≤ _ at hroom
  rcases hfits.beside q hq with hbeside | hbeside
  · change Chunk.stop _ ≤ q.block.addr.toNat at hbeside
    exact .inr (by omega)
  · change q.block.stop ≤ (Alloc.block ⟨p, nbytes⟩).addr.toNat at hbeside
    exact .inl (by omega)

/-- What has been allocated can be given back. -/
theorem Sound.frees {q : Alloc} (hs : Sound base K s) (hq : q ∈ s.live) :
    ∃ k, ∀ fuel ≥ k, ∃ h', UmallocM.free fuel q.ptr s.heap = .ok ((), h') := by
  rcases hs.ready with ⟨-, hlive, -⟩ | ⟨fl, ht⟩
  · rw [List.map_eq_nil_iff.mp hlive] at hq
    cases hq
  · refine ⟨2 * fl.length + 3, fun fuel hfuel => ?_⟩
    have hwp : wp (UmallocM.free fuel (q.block.addr + 8)) _ (fun _ => False) s.heap :=
      wp_free (ht.perm ((List.perm_cons_erase hq).map Alloc.block)) (.inl hfuel)
    have hptr : q.block.addr + 8 = q.ptr := UInt32.sub_add_cancel _ _
    rw [hptr] at hwp
    obtain ⟨_, h', hres, -⟩ := hwp.exists_ok
    exact ⟨h', hres⟩

/-! ### Large requests -/

/-- One header for a request that wraps around: it is for no byte. -/
theorem not_right_of_wraps {m : Memory} {sz : UInt32} (hl : Loads base sz)
    (hsz : sz.toNat + 8 * 4096 < KERNBASE) (hn : 2 ^ 32 - 7 ≤ nbytes.toNat) :
    ¬ Right base (loaded m sz) nbytes := by
  intro hright
  have hlt := nbytes.toNat_lt
  have hone : UmallocM.units nbytes = 1 := by
    refine UInt32.toNat_inj.mp ?_
    rw [toNat_units]
    change _ = 1
    omega
  have hready : Ready base ∅ (loaded m sz).heap [] := .inl ⟨rfl, rfl, hl.layout⟩
  have hfew : 8 * (UmallocM.units nbytes).toNat < 2 ^ 31 := by
    rw [hone]
    decide
  obtain ⟨k, hwp⟩ := hready.wp_malloc (E := fun _ => False) hfew
  obtain ⟨k', hall⟩ := hright []
  obtain ⟨p, h', hres, -, hin⟩ := hall (max k k') (le_max_right _ _)
  obtain ⟨-, -, hgot | ⟨-, -, hno⟩⟩ := (wp_of_ok hres).mp (hwp _ (.inl (le_max_left _ _)))
  · obtain ⟨hne, fl, ht⟩ := hgot.block
    have hbound := ht.headers.sz_lt
    rw [KERNBASE_eq] at hbound
    have hle := (hin.resolve_left hne).1
    omega
  · rw [hone] at hno
    rcases hno with hno | hno
    · exact absurd hsz (not_lt.mpr hno)
    · cases hno

section Back

/-- Whatever else happens, a load gives the word in memory. -/
theorem wp_load_any {Q : UInt32 → Heap → Prop} (hQ : Q (h.mem.uint p) h) :
    wp (UmallocM.load p) Q (fun _ => True) h := by
  rw [UmallocM.load, wp_bind, wp_get, wp_ite]
  exact ⟨fun _ => wp_pure.mpr hQ, fun _ => wp_throw.mpr trivial⟩

theorem wp_store_any {Q : Unit → Heap → Prop}
    (hQ : Q () { h with mem := h.mem.storeWord p x }) :
    wp (UmallocM.store p x) Q (fun _ => True) h := by
  rw [UmallocM.store, wp_bind, wp_get, wp_ite]
  exact ⟨fun _ => wp_set.mpr hQ, fun _ => wp_throw.mpr trivial⟩

/-- With an argument that is not positive as an `int`, `sbrk` gives the end of the memory, and
may take some of it away. -/
theorem wp_sbrk_back (hn : int n ≤ 0) : wp (UmallocM.sbrk n)
    (fun r h' => r = h.sz ∧ h'.sz.toNat ≤ h.sz.toNat ∧ h'.mem = h.mem ∧ h'.freep = h.freep)
    (fun _ => True) h := by
  rw [UmallocM.sbrk, wp_bind, wp_get, wp_bind, UmallocM.growproc, wp_bind, wp_get,
    if_neg (not_lt.mpr hn), wp_ite]
  refine ⟨fun _ => wp_ite.mpr ⟨fun _ => wp_throw.mpr trivial, fun _ => ?_⟩, fun _ => ?_⟩
  · rw [wp_bind, wp_set, wp_pure, wp_pure]
    refine ⟨rfl, ?_, rfl, rfl⟩
    change (UmallocM.deallocuvm h.sz (h.sz + n)).toNat ≤ h.sz.toNat
    rw [UmallocM.deallocuvm]
    by_cases hle : h.sz ≤ h.sz + n
    · rw [if_pos hle]
    · rw [if_neg hle]
      exact le_of_lt (not_le.mp fun hnat => hle (UInt32.le_iff_toNat_le.mpr hnat))
  · rw [wp_pure, wp_pure]
    exact ⟨rfl, le_rfl, rfl, rfl⟩

/-- The list of `base` alone, with the end of the memory at a place that no block reaches from
there and that no block which begins there has as its end. -/
structure Alone (base z : UInt32) (h : Heap) : Prop where
  ptr : h.mem.uint base = base
  size : h.mem.uint (base + 4) = 0
  freep : h.freep = base
  lt : base.toNat + 8 ≤ z.toNat
  bound : z.toNat + 8 ≤ 2 ^ 32
  apart : ∀ n, UmallocM.plus z n ≠ base

variable {z : UInt32}

theorem Alone.separate (ha : Alone base z h) : Separate base z ∧ Separate z base := by
  have hlt := ha.lt
  have hbound := ha.bound
  exact ⟨⟨by omega, hbound, .inr (.inr hlt)⟩, ⟨hbound, by omega, .inr (.inl hlt)⟩⟩

/-- A block at the end of the memory becomes the only one of the list. -/
theorem Alone.wp_free (ha : Alone base z h) (hn : h.mem.uint (z + 4) = n) :
    wp (UmallocM.free fuel (z + 8)) (fun _ h' => h'.freep = base ∧ h'.sz = h.sz ∧
      h'.mem.uint base = z ∧ h'.mem.uint (z + 4) = n) (fun _ => True) h := by
  obtain ⟨hbz, hzb⟩ := ha.separate
  have hlt := ha.lt
  have hless : base < z := UInt32.lt_iff_toNat_lt.mpr (by omega)
  have hne : z ≠ base := fun heq => absurd (heq ▸ hless) (UInt32.lt_irrefl _)
  rw [UmallocM.free, UInt32.add_sub_cancel, wp_bind, wp_get, wp_bind, ha.freep]
  cases fuel with
  | zero =>
      rw [UmallocM.freeLoop, wp_throw]
      trivial
  | succ fuel =>
      rw [UmallocM.freeLoop, wp_bind]
      refine wp_load_any ?_
      rw [ha.ptr, if_neg fun hin => absurd hin.2 (UInt32.lt_asymm hless),
        if_pos ⟨UInt32.le_refl _, .inl hless⟩, wp_pure, wp_bind, UmallocM.joinNext, wp_bind]
      refine wp_load_any ?_
      rw [wp_bind]
      refine wp_load_any ?_
      rw [ha.ptr, if_neg (ha.apart _)]
      refine wp_store_any ?_
      change wp _ _ _ (h.setPtr z base)
      rw [wp_bind, UmallocM.joinPrev, wp_bind]
      refine wp_load_any ?_
      rw [hzb.size_setPtr, ha.size, UmallocM.plus, UInt32.zero_mul, UInt32.add_zero, if_neg hne.symm]
      refine wp_store_any ?_
      change wp _ _ _ ((h.setPtr z base).setPtr base z)
      rw [wp_setFreep]
      refine ⟨rfl, rfl, ?_, ?_⟩
      · exact Memory.uint_storeWord
      · exact hbz.size_setPtr.trans ((Separate.mk ha.bound ha.bound (.inl rfl)).size_setPtr.trans hn)

/-- `morecore` gives the list of this block, which is not in the memory. -/
theorem Alone.wp_morecore (ha : Alone base h.sz h) (hn : ¬ n < 4096)
    (hint : int (n * 8) ≤ 0) :
    wp (UmallocM.morecore fuel n) (fun r h' => r = base ∧ h'.freep = base ∧
      h'.sz.toNat ≤ h.sz.toNat ∧ h'.mem.uint base = h.sz ∧ h'.mem.uint (h.sz + 4) = n)
      (fun _ => True) h := by
  have hbound := ha.bound
  have hne : h.sz ≠ 0xFFFFFFFF := by
    intro heq
    rw [heq] at hbound
    exact absurd hbound (by decide)
  rw [UmallocM.morecore, wp_bind, if_neg hn]
  refine wp_mono (wp_sbrk_back hint) (fun r g hpost => ?_) fun _ he => he
  obtain ⟨rfl, hsz, hmem, hfreep⟩ := hpost
  obtain ⟨hbz, hzb⟩ := ha.separate
  have hself : Separate h.sz h.sz := ⟨hbound, hbound, .inl rfl⟩
  rw [if_neg hne, wp_bind]
  refine wp_store_any ?_
  change wp _ _ _ (g.setSize h.sz n)
  have ha' : Alone base h.sz (g.setSize h.sz n) := by
    refine { ha with ptr := ?_, size := ?_, freep := hfreep.trans ha.freep }
    · rw [hzb.ptr_setSize, hmem, ha.ptr]
    · rw [hzb.size_setSize, if_neg, hmem, ha.size]
      intro heq
      have hlt := ha.lt
      rw [← heq] at hlt
      omega
  rw [wp_bind]
  refine wp_mono (ha'.wp_free (hself.size_setSize.trans (if_pos rfl))) (fun _ h' hpost => ?_)
    fun _ he => he
  obtain ⟨hf, hs, hp, hz⟩ := hpost
  rw [wp_bind, wp_get, wp_pure]
  exact ⟨hf, hf, by rw [hs]; exact hsz, hp, hz⟩

/-- `malloc` gives what lies behind the memory of the process. -/
theorem Alone.wp_mallocLoop (ha : Alone base h.sz h) (hbase : base ≠ 0) (hn : ¬ n < 4096)
    (hint : int (n * 8) ≤ 0) :
    wp (UmallocM.mallocLoop n fuel base base)
      (fun r h' => r = h.sz + 8 ∧ h'.sz.toNat ≤ h.sz.toNat) (fun _ => True) h := by
  have hpos : ¬ n ≤ 0 := by
    intro hle
    exact hn (UInt32.lt_of_le_of_lt hle (by decide))
  cases fuel with
  | zero =>
      rw [UmallocM.mallocLoop, wp_throw]
      trivial
  | succ fuel =>
      rw [UmallocM.mallocLoop, wp_bind]
      refine wp_load_any ?_
      rw [ha.size, if_neg hpos, wp_bind, wp_get, if_pos ha.freep.symm, wp_bind]
      refine wp_mono (ha.wp_morecore hn hint) (fun r g hpost => ?_) fun _ he => he
      obtain ⟨rfl, -, hsz, hptr, hsize⟩ := hpost
      rw [if_neg hbase, wp_bind]
      refine wp_load_any ?_
      rw [hptr]
      cases fuel with
      | zero =>
          rw [UmallocM.mallocLoop, wp_throw]
          trivial
      | succ fuel =>
          rw [UmallocM.mallocLoop, wp_bind]
          refine wp_load_any ?_
          rw [hsize, if_pos (UInt32.le_refl _), UmallocM.take, if_pos rfl, wp_bind]
          refine wp_load_any ?_
          rw [wp_bind]
          refine wp_store_any ?_
          rw [wp_bind, wp_setFreep, wp_pure]
          exact ⟨rfl, hsz⟩

end Back

/-- More bytes than an `int` has: `sbrk` is called with a number that is not positive. -/
theorem not_right_of_back {m : Memory} {sz : UInt32} (hl : Loads base sz)
    (hmod : sz.toNat % 8 ≠ base.toNat % 8) (hlo : 2 ^ 31 - 16 < nbytes.toNat)
    (hhi : nbytes.toNat < 2 ^ 32 - 7) : ¬ Right base (loaded m sz) nbytes := by
  intro hright
  have hlt := hl.sz_lt
  rw [KERNBASE_eq] at hlt
  have hunits := toNat_units nbytes
  have hmany : ¬ UmallocM.units nbytes < 4096 := by
    intro hless
    have hnat : (UmallocM.units nbytes).toNat < 4096 := UInt32.lt_iff_toNat_lt.mp hless
    omega
  have hint : int (UmallocM.units nbytes * 8) ≤ 0 := by
    have hbytes : (UmallocM.units nbytes * 8).toNat =
        (UmallocM.units nbytes).toNat * 8 % 2 ^ 32 := UInt32.toNat_mul _ _
    rw [int]
    split_ifs
    · omega
    · have hword := (UmallocM.units nbytes * 8).toNat_lt
      omega
  have ht : Tidy base ∅ (started base (loaded m sz).heap) [] [] := tidy_base hl.layout rfl
  have halone : Alone base sz (started base (loaded m sz).heap) := by
    refine ⟨(Linked.cons_cons.mp ht.ring).1, ht.headers.base_size, rfl, hl.base_le, by omega,
      fun n heq => hmod ?_⟩
    have hnat := congrArg UInt32.toNat heq
    rw [UmallocM.plus, UInt32.toNat_add, UInt32.toNat_mul] at hnat
    change (sz.toNat + n.toNat * 8 % 2 ^ 32) % 2 ^ 32 = _ at hnat
    omega
  obtain ⟨k, hall⟩ := hright []
  obtain ⟨p, h', hres, -, hin⟩ := hall k le_rfl
  have hwp : wp (UmallocM.malloc base k nbytes) _ _ (loaded m sz).heap :=
    (wp_malloc_first hl.layout rfl).mpr (Alone.wp_mallocLoop (h := started base (loaded m sz).heap) halone
      (ht.pos base_mem_places) hmany hint)
  obtain ⟨rfl, hsz⟩ := (wp_of_ok hres).mp hwp
  have hplace : (sz + 8).toNat = sz.toNat + 8 := toNat_addr (i := 8) (n := 9) (by omega) (by decide)
  change h'.sz.toNat ≤ sz.toNat at hsz
  rcases hin with hzero | ⟨hle, -⟩
  · have hnat := congrArg UInt32.toNat hzero
    change (sz + 8).toNat = 0 at hnat
    omega
  · change (sz + 8).toNat + nbytes.toNat ≤ h'.sz.toNat at hle
    omega

/-- A program with its variables from `0x1004` on. -/
theorem loads_small : Loads 0x1004 0x4008 := ⟨by decide, by decide, by decide⟩

/-- No larger request goes right there. -/
theorem not_right_of_large {m : Memory} (hn : 2 ^ 31 - 16 < nbytes.toNat) :
    ¬ Right 0x1004 (loaded m 0x4008) nbytes := by
  by_cases hwraps : 2 ^ 32 - 7 ≤ nbytes.toNat
  · exact not_right_of_wraps loads_small (by decide) hwraps
  · exact not_right_of_back loads_small (by decide) hn (not_le.mp hwraps)

theorem sound_loaded {m : Memory} {sz : UInt32} (hl : Loads base sz) :
    Sound base ∅ (loaded m sz) :=
  ⟨.inl ⟨rfl, rfl, hl.layout⟩, fun _ hq => absurd hq List.not_mem_nil⟩

/-- A request goes right in every state of every program that has asked for at most
`2^31 - 16` bytes at a time, if and only if it is for at most `2^31 - 16` bytes itself. -/
theorem malloc_right (nbytes : UInt32) :
    (∀ base sz m ops s, Loads base sz → (∀ o ∈ ops, o.Small) →
      run (step base) (loaded m sz) ops = some s → Right base s nbytes) ↔
    nbytes.toNat ≤ 2 ^ 31 - 16 := by
  constructor
  · intro hright
    by_contra hlarge
    exact not_right_of_large (not_le.mp hlarge)
      (hright _ _ (fun _ => 0) [] _ loads_small (fun _ ho => absurd ho List.not_mem_nil) rfl)
  · intro hn base sz m ops s hl hsmall hrun
    have hmeets : RunMeets (step base) (fun _ o => o.Small) (loaded m sz) ops :=
      runMeets_of_forall (fun o ho _ => hsmall o ho) _
    obtain ⟨K, hs⟩ := run_invariant_of_meets (fun s => ∃ K, Sound base K s)
      (fun _ _ _ ⟨_, hs⟩ ho hstep => ⟨_, (hs.step ho hstep).1.2⟩) ⟨∅, sound_loaded hl⟩ hmeets hrun
    exact hs.right hn

/-- A hundred bytes. -/
theorem malloc_right_hundred : Right 0x1004 (loaded (fun _ => 0) 0x4008) 100 :=
  (malloc_right 100).mpr (by decide) _ _ _ [] _ loads_small (fun _ ho => absurd ho List.not_mem_nil)
    rfl

/-- `malloc(0xFFFFFFFF)` for a program that has just been loaded. -/
theorem malloc_gives_less : Loads 0x1004 0x4008 ∧
    ¬ Right 0x1004 (loaded (fun _ => 0) 0x4008) 0xFFFFFFFF :=
  ⟨loads_small, not_right_of_large (by decide)⟩

end Umalloc

end Xv6
