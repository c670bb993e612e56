import Xv6.User.Allocations

/-!
# The heap of a program

A program may call `sbrk` itself, between its calls of `malloc` and `free`. Then the memory
that `morecore` gets is not in one piece. After every call the free blocks and the
allocations are exactly this memory, and free blocks that meet have been joined.
-/

namespace Xv6

namespace Umalloc

open Foundation

inductive Call where
  | op (o : Op)
  /-- `sbrk(n)`; the kernel says when the pages run out -/
  | sbrk (n : UInt32) (full : List Bool)
  /-- a store in what `sbrk` has given to the program -/
  | store (a : UInt32) (x : UInt8)

/-- The allocations, and what `sbrk` has given. -/
structure Session where
  sys : System
  /-- to `morecore` -/
  core : List (ℕ × ℕ)
  /-- to the program -/
  own : List (ℕ × ℕ)

/-- What `sbrk` has given to a call. -/
def given (h h' : Heap) : List (ℕ × ℕ) :=
  if h.sz < h'.sz then [(h.sz.toNat, h'.sz.toNat)] else []

/-- One step. A program does not give memory back with `sbrk`. -/
def callStep (base : UInt32) (t : Session) : Call → Option Session
  | .op o => (step base t.sys o).map fun s => ⟨s, given t.sys.heap s.heap ++ t.core, t.own⟩
  | .sbrk n full =>
      if int n < 0 then none
      else match UmallocM.sbrk n { t.sys.heap with full := full } with
        | .ok (_, h) => some ⟨⟨h, t.sys.live⟩, t.core, given t.sys.heap h ++ t.own⟩
        | .error _ => none
  | .store a x =>
      if ∃ o ∈ t.own, o.1 ≤ a.toNat ∧ a.toNat < o.2 then
        let mem := Function.update t.sys.heap.mem a x
        some { t with sys := { t.sys with heap := { t.sys.heap with mem := mem } } }
      else none

def Session.loaded (m : Memory) (sz : UInt32) : Session := ⟨Umalloc.loaded m sz, [], []⟩

def Call.Small : Call → Prop
  | .op o => o.Small
  | _ => True

def Call.IsMalloc : Call → Prop
  | .op o => o.IsMalloc
  | _ => False

/-- The free list is `base` with the blocks `fl`. -/
structure Partitioned (base : UInt32) (t : Session) (fl : List Chunk) : Prop where
  /-- it is a circle in which the addresses ascend, but for the way back to `base` -/
  ring : Circular t.sys.heap.mem.uint base (fl.map Chunk.addr)
  ascending : Ascending UInt32.toNat (places base fl)
  freep : t.sys.heap.freep ∈ places base fl
  sizes : ∀ c ∈ ⟨base, 0⟩ :: fl, t.sys.heap.mem.uint (c.addr + 4) = c.size
  /-- `base` and the blocks, free or not, are disjoint -/
  beside : ((base.toNat, base.toNat + 8) ::
    (fl ++ t.sys.live.map Alloc.block).map Chunk.extent).Pairwise Beside
  /-- no two blocks of the list are adjacent -/
  apart : ∀ c ∈ ⟨base, 0⟩ :: fl, ∀ d ∈ ⟨base, 0⟩ :: fl, c.addr ≠ d.addr → c.stop ≠ d.addr.toNat
  /-- nothing is lost of what `morecore` has got -/
  total : ((fl ++ t.sys.live.map Alloc.block).map fun c => 8 * c.size.toNat).sum =
    (t.core.map fun o => o.2 - o.1).sum

variable {base n nbytes : UInt32} {K : Set ℕ} {h h' : Heap} {fl live : List Chunk}
  {s t : Session} {lo : ℕ} {l : List (ℕ × ℕ)} {E : Stop → Prop}

/-! ### Memory for the program -/

theorem covered_given (hle : h.sz.toNat ≤ h'.sz.toNat) :
    covered (given h h' ++ l) = more (covered l) h h' := by
  rw [given, more]
  by_cases hlt : h.sz < h'.sz
  · rw [if_pos hlt, List.singleton_append, covered_cons]
  · have heq : h'.sz.toNat = h.sz.toNat :=
      le_antisymm (not_lt.mp fun hnat => hlt (UInt32.lt_iff_toNat_lt.mpr hnat)) hle
    rw [if_neg hlt, List.nil_append, heq, Set.Ico_self, Set.empty_union]

theorem extents_given (hl : Extents lo h.sz.toNat l) (hlo : lo ≤ h.sz.toNat)
    (hle : h.sz.toNat ≤ h'.sz.toNat) : Extents lo h'.sz.toNat (given h h' ++ l) := by
  rw [given]
  by_cases hlt : h.sz < h'.sz
  · rw [if_pos hlt]
    exact hl.grow hlo (UInt32.lt_iff_toNat_lt.mp hlt)
  · rw [if_neg hlt]
    exact hl.mono hle

/-- `sbrk` with an argument that is not negative. -/
theorem wp_sbrk_forth (hn : ¬ int n < 0) (hsz : h.sz.toNat < KERNBASE) : wp (UmallocM.sbrk n)
    (fun _ h' => h.sz.toNat ≤ h'.sz.toNat ∧ h'.sz.toNat < KERNBASE ∧ h'.mem = h.mem ∧
      h'.freep = h.freep) E h := by
  rw [UmallocM.sbrk, wp_bind, wp_get, wp_bind, UmallocM.growproc, wp_bind, wp_get, wp_ite]
  refine ⟨fun hpos => ?_, fun _ => ?_⟩
  · have hint := hpos
    have hbase := hsz
    rw [int] at hint
    rw [KERNBASE_eq] at hbase
    have hword := n.toNat_lt
    have hz : (h.sz + n).toNat = h.sz.toNat + n.toNat := by
      rw [UInt32.toNat_add]
      split_ifs at hint
      · omega
      · omega
    have hlt : h.sz.toNat < (h.sz + n).toNat := by
      split_ifs at hint
      · omega
      · omega
    rcases allocuvm_cases (h.full.headD false) hlt with ⟨halloc, -⟩ | ⟨halloc, hbound⟩
    · rw [halloc, if_pos rfl, wp_bind, wp_set, wp_pure, wp_pure]
      exact ⟨le_rfl, hsz, rfl, rfl⟩
    · have hne : h.sz + n ≠ 0 := fun hzero => by
        rw [hzero] at hlt
        exact absurd hlt (Nat.not_lt_zero _)
      rw [halloc, if_neg hne, wp_bind, wp_set, wp_pure, wp_pure]
      exact ⟨hlt.le, hbound, rfl, rfl⟩
  · rw [if_neg hn, wp_pure, wp_pure]
    exact ⟨le_rfl, hsz, rfl, rfl⟩

theorem Layout.widen {sz z : ℕ} {bs : List Chunk} (hl : Layout base K sz bs) (hle : sz ≤ z)
    (hlt : z < KERNBASE) : Layout base K z bs :=
  { hl with
    base_le := hl.base_le.trans hle
    sz_lt := hlt
    extents := hl.extents.mono hle }

/-- The process has more memory. -/
theorem Ready.widen (hr : Ready base K h live) (hle : h.sz.toNat ≤ h'.sz.toNat)
    (hlt : h'.sz.toNat < KERNBASE) (hmem : h'.mem = h.mem) (hfreep : h'.freep = h.freep) :
    Ready base K h' live := by
  rcases hr with ⟨hzero, hlive, hl⟩ | ⟨fl, ht⟩
  · exact .inl ⟨hfreep.trans hzero, hlive, hl.widen hle hlt⟩
  · refine .inr ⟨fl, { ht.headers.toLayout.widen hle hlt with
        base_size := ?_, sizes := fun c hc => ?_ }, ?_, ht.keys, ?_, ht.apart⟩
    · rw [hmem]
      exact ht.headers.base_size
    · rw [hmem]
      exact ht.headers.sizes c hc
    · rw [hmem]
      exact ht.ring
    · rw [hfreep]
      exact ht.freep

/-- A byte outside of the allocator's memory is stored. -/
theorem Ready.store {a : UInt32} {x : UInt8} (hr : Ready base K h live)
    (hbase : base.toNat + 8 ≤ a.toNat) (ha : a.toNat ∉ K) :
    Ready base K { h with mem := Function.update h.mem a x } live := by
  rcases hr with ⟨hzero, hlive, hl⟩ | ⟨fl, ht⟩
  · exact .inl ⟨hzero, hlive, hl⟩
  · refine .inr ⟨fl, ht.store fun p hp => ?_⟩
    rcases List.mem_cons.mp hp with rfl | hp
    · exact .inr hbase
    · obtain ⟨c, hc, rfl⟩ := List.mem_map.mp hp
      by_contra hin
      push Not at hin
      have hle := ht.headers.stop_le hc
      refine ha (ht.headers.covers ▸ ⟨c.extent, List.mem_map_of_mem hc, hin.1, ?_⟩)
      exact hin.2.trans_le hle

/-! ### Every call -/

/-- What `sbrk` has given is beside each other, and the blocks are what `morecore` has got. -/
structure Session.Sound (base : UInt32) (t : Session) : Prop where
  sound : Umalloc.Sound base (covered t.core) t.sys
  extents : Extents (base.toNat + 8) t.sys.heap.sz.toNat (t.core ++ t.own)

theorem Ready.layout (hr : Ready base K h live) :
    base.toNat + 8 ≤ h.sz.toNat ∧ h.sz.toNat < KERNBASE := by
  rcases hr with ⟨-, -, hl⟩ | ⟨fl, ht⟩
  · exact ⟨hl.base_le, hl.sz_lt⟩
  · exact ⟨ht.headers.base_le, ht.headers.sz_lt⟩

theorem Session.Sound.step {c : Call} (hs : s.Sound base) (hc : c.Small)
    (hstep : callStep base s c = some t) :
    t.Sound base ∧ (c.IsMalloc ∨ s.sys.heap.freep ≠ 0 → t.sys.heap.freep ≠ 0) := by
  obtain ⟨hbase, hsz⟩ := hs.sound.ready.layout
  cases c with
  | op o =>
      obtain ⟨sys, hsys, rfl⟩ := Option.map_eq_some_iff.mp hstep
      obtain ⟨⟨hle, hsound⟩, hbegun⟩ := hs.sound.step hc hsys
      refine ⟨⟨(covered_given hle).symm ▸ hsound, ?_⟩, hbegun⟩
      change Extents _ _ (_ ++ s.core ++ s.own)
      rw [List.append_assoc]
      exact extents_given hs.extents hbase hle
  | sbrk n full =>
      rw [callStep] at hstep
      by_cases hn : int n < 0
      · rw [if_pos hn] at hstep
        cases hstep
      · rw [if_neg hn] at hstep
        cases hres : UmallocM.sbrk n { s.sys.heap with full := full } with
        | error e =>
            rw [hres] at hstep
            cases hstep
        | ok r =>
            rw [hres] at hstep
            cases hstep
            have hwp := wp_sbrk_forth (E := fun _ => False) (h := { s.sys.heap with full := full })
              hn hsz
            obtain ⟨hle, hlt, hmem, hfreep⟩ := (wp_of_ok hres).mp hwp
            refine ⟨⟨⟨hs.sound.ready.widen hle hlt hmem hfreep, hs.sound.small⟩, ?_⟩,
              fun h => hfreep ▸ h.resolve_left id⟩
            refine (extents_given (l := s.core ++ s.own) hs.extents hbase hle).perm ?_
            rw [← List.append_assoc]
            exact (List.perm_append_comm.append_right _).trans (by rw [List.append_assoc])
  | store a x =>
      rw [callStep] at hstep
      by_cases ha : ∃ o ∈ s.own, o.1 ≤ a.toNat ∧ a.toNat < o.2
      · rw [if_pos ha] at hstep
        cases hstep
        have hin : a.toNat ∈ covered (s.core ++ s.own) := by
          rw [covered_append]
          exact .inr ha
        refine ⟨⟨⟨hs.sound.ready.store ?_ ?_, hs.sound.small⟩, hs.extents⟩,
          fun h => h.resolve_left id⟩
        · exact (hs.extents.covered_subset hin).1
        · exact fun hcore => hs.extents.not_covered hcore ha
      · rw [if_neg ha] at hstep
        cases hstep

theorem Session.sound_loaded {m : Memory} {sz : UInt32} (hl : Loads base sz) :
    (Session.loaded m sz).Sound base := by
  refine ⟨?_, Extents.nil⟩
  change Umalloc.Sound base (covered []) _
  rw [covered_nil]
  exact Umalloc.sound_loaded hl

/-- Before the first `malloc` nothing is there, then the heap is partitioned. -/
theorem Session.Sound.partitioned (hs : s.Sound base) :
    (s.sys.heap.freep = 0 ∧ s.sys.live = [] ∧ s.core = []) ∨ ∃ fl, Partitioned base s fl := by
  have hcore : Extents (base.toNat + 8) s.sys.heap.sz.toNat s.core :=
    ⟨fun o ho => hs.extents.inside o (List.mem_append_left _ ho),
      (List.pairwise_append.mp hs.extents.beside).1⟩
  rcases hs.sound.ready with ⟨hzero, hlive, hl⟩ | ⟨fl, ht⟩
  · refine .inl ⟨hzero, List.map_eq_nil_iff.mp hlive, List.eq_nil_iff_forall_not_mem.mpr ?_⟩
    intro o ho
    have hin : o.1 ∈ covered s.core := ⟨o, ho, le_rfl, (hcore.inside o ho).2.1⟩
    rw [← hl.covers] at hin
    obtain ⟨_, hmem, -⟩ := hin
    exact List.not_mem_nil hmem
  · refine .inr ⟨fl, ht.ring, ht.keys, ht.freep, List.forall_mem_cons.mpr ⟨ht.headers.base_size,
      fun c hc => ht.headers.sizes c (List.mem_append_left _ hc)⟩, List.pairwise_cons.mpr ⟨?_,
      ht.headers.extents.beside⟩, ?_, ?_⟩
    · intro e he
      exact .inl (ht.headers.extents.inside e he).1
    · have hbefore : ∀ c ∈ fl, base.toNat + 8 ≤ c.addr.toNat ∧ c.addr.toNat < c.stop := by
        intro c hc
        have hin := ht.headers.inside (List.mem_append_left _ hc)
        exact ⟨hin.1, hin.2.1⟩
      refine List.forall_mem_cons.mpr ⟨List.forall_mem_cons.mpr ⟨fun hne => absurd rfl hne, ?_⟩, ?_⟩
      · intro d hd _
        have hd := hbefore d hd
        change base.toNat + 8 * 0 ≠ _
        omega
      · intro c hc
        refine List.forall_mem_cons.mpr ⟨fun _ => ?_, fun d hd _ => ht.apart c hc d hd⟩
        have hc := hbefore c hc
        change c.stop ≠ base.toNat
        omega
    · rw [← hcore.ncard_covered, ← ht.headers.covers, ht.headers.extents.ncard_covered,
        List.map_map]
      refine congrArg List.sum (List.map_congr_left fun c _ => ?_)
      exact (Nat.add_sub_cancel_left _ _).symm

/-- Once `malloc` has been called there is a free list. -/
theorem Session.Sound.freep_ne {calls : List Call} (hs : s.Sound base)
    (hsmall : ∀ c ∈ calls, c.Small) (hrun : run (callStep base) s calls = some t)
    (h : s.sys.heap.freep ≠ 0 ∨ ∃ c ∈ calls, c.IsMalloc) : t.sys.heap.freep ≠ 0 := by
  induction calls generalizing s with
  | nil =>
      cases hrun
      exact h.resolve_right (by simp)
  | cons c calls ih =>
      obtain ⟨hc, hsmall⟩ := List.forall_mem_cons.mp hsmall
      obtain ⟨u, hstep, hrest⟩ := run_cons_eq_some.mp hrun
      obtain ⟨hu, hbegun⟩ := hs.step hc hstep
      refine ih hu hsmall hrest ?_
      rcases h with hne | ⟨c', hc', hmalloc⟩
      · exact .inl (hbegun (.inr hne))
      · rcases List.mem_cons.mp hc' with rfl | hc'
        · exact .inl (hbegun (.inl hmalloc))
        · exact .inr ⟨c', hc', hmalloc⟩

/-- In every run of a program that asks for at most `2^31 - 16` bytes at a time, the heap is
partitioned after every call, `malloc` and `free` return, and `malloc` gives memory that is not
in use. Only before the first `malloc` is there no free list, and nothing has been obtained. -/
theorem heap_partitioned {base sz : UInt32} {m : Memory} {calls : List Call} {t : Session}
    (hl : Loads base sz) (hsmall : ∀ c ∈ calls, c.Small)
    (hrun : run (callStep base) (Session.loaded m sz) calls = some t) :
    (((∀ c ∈ calls, ¬ c.IsMalloc) ∧ t.sys.heap.freep = 0 ∧ t.sys.live = [] ∧ t.core = []) ∨
      ∃ fl, Partitioned base t fl) ∧
    (∀ nbytes full, Small nbytes → ∃ k, ∀ fuel ≥ k, ∃ p h',
      UmallocM.malloc base fuel nbytes { t.sys.heap with full := full } = .ok (p, h') ∧
      (h'.full = full ∨ h'.full = full.tail) ∧
      (p = 0 ∨ Alloc.Fits ⟨p, nbytes⟩ t.sys.live h')) ∧
    ∀ q ∈ t.sys.live, ∃ k, ∀ fuel ≥ k, ∃ h',
      UmallocM.free fuel q.ptr t.sys.heap = .ok ((), h') := by
  have hmeets : RunMeets (callStep base) (fun _ c => c.Small) (Session.loaded m sz) calls :=
    runMeets_of_forall (fun c hc _ => hsmall c hc) _
  have hs : t.Sound base := run_invariant_of_meets (Session.Sound base)
    (fun _ _ _ hs hc hstep => (hs.step hc hstep).1) (Session.sound_loaded hl) hmeets hrun
  have hnone : t.sys.heap.freep = 0 → ∀ c ∈ calls, ¬ c.IsMalloc := fun hzero c hc hmalloc =>
    (Session.sound_loaded hl).freep_ne hsmall hrun (.inr ⟨c, hc, hmalloc⟩) hzero
  refine ⟨hs.partitioned.imp_left fun h => ⟨hnone h.1, h⟩, fun nbytes full hn => ?_, fun q hq => hs.sound.frees hq⟩
  obtain ⟨k, hall⟩ := hs.sound.gives hn full
  refine ⟨k, fun fuel hfuel => ?_⟩
  obtain ⟨p, h', hres, -, hfull, hp⟩ := hall fuel hfuel
  exact ⟨p, h', hres, hfull, hp⟩

/-- Eight bytes and, behind memory of the program, some more. -/
theorem heap_partitioned_twice : ∃ t, run (callStep 0x1004) (Session.loaded (fun _ => 0) 0x4008)
    [.op (.malloc 8 [] 9), .sbrk 100 [], .op (.malloc 40000 [] 9)] = some t ∧
    ∃ fl, Partitioned 0x1004 t fl := by
  have hsome : (run (callStep 0x1004) (Session.loaded (fun _ => 0) 0x4008)
      [.op (.malloc 8 [] 9), .sbrk 100 [], .op (.malloc 40000 [] 9)]).isSome = true := by
    decide +kernel
  obtain ⟨t, ht⟩ := Option.isSome_iff_exists.mp hsome
  refine ⟨t, ht, (heap_partitioned loads_small (fun c hc => ?_) ht).1.resolve_left fun h =>
    h.1 _ List.mem_cons_self trivial⟩
  simp only [List.mem_cons, List.not_mem_nil, or_false] at hc
  rcases hc with rfl | rfl | rfl
  · exact show Small 8 by decide
  · trivial
  · exact show Small 40000 by decide

end Umalloc

end Xv6
