import Xv6.User.FreeList

/-!
# `malloc`

A free block that is large enough is unlinked, or its end is cut off. If there is none,
`morecore` adds one; then the loop finds it, before it comes back to its beginning.
-/

namespace Xv6

namespace Umalloc

open Foundation

variable {base p q x n : UInt32} {K : Set ℕ} {fuel : ℕ} {h : Heap} {b c d : Chunk}
  {bs fl live u w : List Chunk} {s t : List UInt32} {E : Stop → Prop}

/-! ### A block is taken -/

theorem exists_last (base : UInt32) (u : List Chunk) : ∃ s p, places base u = s ++ [p] :=
  ⟨_, _, (List.dropLast_append_getLast (List.cons_ne_nil _ _)).symm⟩

/-- A free block is unlinked. -/
theorem Tidy.unlink (ht : Tidy base K h (u ++ c :: w) live) (hu : places base u = s ++ [p]) :
    h.mem.uint p = c.addr ∧
      Tidy base K { h.setPtr p (h.mem.uint c.addr) with freep := p } (u ++ w) (c :: live) := by
  have hring := circular_iff.mp ht.ring
  obtain ⟨hfront, hback⟩ := Linked.split.mp hring
  obtain ⟨hune, hwne⟩ := ne_of_keys ht.keys
  have hkeys : Ascending UInt32.toNat (places base (u ++ w)) := by
    refine ht.keys.sublist ?_
    rw [places_append, places_append]
    exact (List.Sublist.refl _).append (List.sublist_cons_self _ _)
  have hperm : (u ++ c :: w ++ live).Perm (u ++ w ++ c :: live) := by
    rw [List.append_assoc, List.append_assoc]
    exact List.perm_middle.symm.append_left u
  have hp := mem_places_of_last hu
  have hsub : ∀ q ∈ places base u, q ∈ places base (u ++ c :: w ++ live) := fun q hq =>
    places_subset (fun d hd => by simp [hd]) hq
  rw [hu, List.append_assoc] at hring
  obtain ⟨hnext, -⟩ := Linked.cons_cons.mp (Linked.split.mp hring).2
  refine ⟨hnext, ((ht.headers.perm hperm).setPtr ?_).setFreep, ?_, hkeys, ?_,
    ht.apart.subset ((List.sublist_cons_self c w).append_left u).subset⟩
  · exact places_subset (fun d hd => by simp [hd]) hp
  · have hs := mem_front hkeys hu
    change Linked _ (base :: ((u ++ w).map Chunk.addr ++ [base]))
    rw [List.map_append, List.append_assoc, ← List.cons_append]
    change Linked _ (places base u ++ _)
    rw [hu, List.append_assoc]
    refine Linked.split.mpr ⟨?_, ?_⟩
    · exact (Linked.split.mp hring).1.congr fun q hq =>
        ht.headers.ptr_setPtr_of_ne (hsub p hp) (hsub q (hs q hq).1) (hs q hq).2
    · refine hback.relink (fun q hq => ?_) (ht.headers.ptr_setPtr (hsub p hp))
      refine ht.headers.ptr_setPtr_of_ne (hsub p hp) ?_ fun heq => (hwne q hq).2 (heq ▸ hp)
      exact List.mem_cons_of_mem _ (List.map_subset Chunk.addr (fun d hd => by simp [hd]) hq)
  · rw [places_append]
    exact List.mem_append_left _ hp

/-- The end of a free block is cut off. -/
theorem Tidy.cut (ht : Tidy base K h (u ++ c :: w) live) (hp : p ∈ places base (u ++ c :: w))
    (hpos : 0 < n.toNat) (hlt : n.toNat < c.size.toNat) :
    (h.setSize c.addr (c.size - n)).Has (UmallocM.plus c.addr (c.size - n)) ∧
    Tidy base K { (h.setSize c.addr (c.size - n)).setSize
        (UmallocM.plus c.addr (c.size - n)) n with freep := p }
      (u ++ ⟨c.addr, c.size - n⟩ :: w) (⟨UmallocM.plus c.addr (c.size - n), n⟩ :: live) := by
  have hperm : (u ++ c :: w ++ live).Perm (c :: (u ++ w ++ live)) := by
    simp
  have hh := (ht.headers.perm hperm).split hpos hlt
  have hperm' : (⟨UmallocM.plus c.addr (c.size - n), n⟩ :: ⟨c.addr, c.size - n⟩ ::
      (u ++ w ++ live)).Perm (u ++ ⟨c.addr, c.size - n⟩ :: w ++
        ⟨UmallocM.plus c.addr (c.size - n), n⟩ :: live) := by
    refine List.Perm.trans (List.Perm.cons _ ?_) List.perm_middle.symm
    simpa using List.perm_middle.symm
  have hplaces : places base (u ++ ⟨c.addr, c.size - n⟩ :: w) = places base (u ++ c :: w) := by
    simp [places]
  have hfirst : (⟨c.addr, c.size - n⟩ : Chunk) ∈ u ++ ⟨c.addr, c.size - n⟩ :: w ++
      ⟨UmallocM.plus c.addr (c.size - n), n⟩ :: live := by simp
  refine ⟨hh.has (mem_places List.mem_cons_self), (hh.perm hperm').setFreep, ?_, hplaces ▸ ht.keys,
    hplaces ▸ hp, ?_⟩
  · refine ring_setSize (hh.toLayout.perm hperm') ?_ ?_ ?_
    · exact mem_places (c := ⟨UmallocM.plus c.addr (c.size - n), n⟩)
        (List.mem_append_right _ List.mem_cons_self)
    · exact places_left
    · have hring := ring_setSize (x := c.size - n) ht.headers.toLayout
        (mem_places (c := c) (by simp))
        places_left ht.ring
      simpa using hring
  · have hsub : u ++ w ⊆ u ++ c :: w := ((List.sublist_cons_self c w).append_left u).subset
    have hlast : c ∈ u ++ c :: w := by simp
    have hin := (hh.toLayout.perm hperm').inside hfirst
    refine (ht.apart.subset hsub).insert hin.2.1.ne' (fun e he heq => ?_) fun e he => ?_
    · -- the cut block would end where `e` begins, which is before the old end
      have hc := ht.headers.inside (List.mem_append_left live hlast)
      have hle := ht.headers.stop_le_of_lt (List.mem_append_left live hlast)
        (List.mem_append_left live (hsub he)) (heq ▸ hin.2.1)
      have hsub' := UInt32.toNat_sub_of_le c.size n (UInt32.le_iff_toNat_le.mpr hlt.le)
      change c.addr.toNat + 8 * (c.size - n).toNat = e.addr.toNat at heq
      change c.addr.toNat + 8 * c.size.toNat ≤ e.addr.toNat at hle
      omega
    · exact ht.apart e (hsub he) c hlast

/-- `malloc` has got a block of `n` headers. -/
def Got (base : UInt32) (K : Set ℕ) (n : UInt32) (live : List Chunk) (r : UInt32) (h : Heap) : Prop :=
  ∃ b fl, r = b.addr + 8 ∧ b.size = n ∧ Tidy base K h fl (b :: live)

theorem wp_take (ht : Tidy base K h fl live) (hc : c ∈ fl) (hp : p ∈ places base fl)
    (hnext : h.mem.uint p = c.addr) (hpos : 0 < n.toNat) (hle : n.toNat ≤ c.size.toNat) :
    wp (UmallocM.take n p c.addr c.size)
      (fun r h' => Got base K n live r h' ∧ Kept h h') E h := by
  obtain ⟨u, w, rfl⟩ := List.append_of_mem hc
  have hcp := ht.headers.has (places_left (mem_places hc))
  rw [UmallocM.take, wp_ite]
  constructor
  · intro heq
    obtain ⟨s, q, hu⟩ := exists_last base u
    obtain ⟨hlast, hunlink⟩ := ht.unlink hu
    have hqp : q = p := by
      refine ht.ring.next_inj ht.keys.nodup ?_ hp (hlast.trans hnext.symm)
      change q ∈ places base (u ++ c :: w)
      rw [places_append]
      exact List.mem_append_left _ (mem_places_of_last hu)
    rw [wp_bind, wp_ptr hcp, wp_bind, wp_setPtr (ht.headers.has (places_left hp)), wp_bind, wp_setFreep,
      wp_pure, ← hqp]
    exact ⟨⟨c, _, rfl, heq, hunlink⟩, rfl, rfl⟩
  · intro hne
    have hlt : n.toNat < c.size.toNat :=
      lt_of_le_of_ne hle fun heq => hne (UInt32.toNat_inj.mp heq.symm)
    obtain ⟨hhas, hcut⟩ := ht.cut hp hpos hlt
    rw [wp_bind, wp_setSize hcp, wp_bind, wp_setSize hhas, wp_bind, wp_setFreep, wp_pure]
    exact ⟨⟨⟨UmallocM.plus c.addr (c.size - n), n⟩, _, rfl, rfl, hcut⟩, rfl, rfl⟩

/-! ### Memory is added -/

def NoMemory (h : Heap) (nu : ℕ) : Prop :=
  KERNBASE ≤ h.sz.toNat + 8 * nu ∨ h.full.headD false = true

/-- `allocuvm` fails, or the process has as many bytes as it has asked for. -/
theorem allocuvm_cases (full : Bool) {z : UInt32} (hlt : h.sz.toNat < z.toNat) :
    (UmallocM.allocuvm full h.sz z = 0 ∧ (KERNBASE ≤ z.toNat ∨ full = true)) ∨
      (UmallocM.allocuvm full h.sz z = z ∧ z.toNat < KERNBASE) := by
  by_cases hbase : KERNBASE ≤ z.toNat
  · exact .inl ⟨if_pos hbase, .inl hbase⟩
  · have hle : ¬ z < h.sz := fun hz => hlt.asymm (UInt32.lt_iff_toNat_lt.mp hz)
    rw [UmallocM.allocuvm, if_neg hbase, if_neg hle]
    by_cases hfull : full = true ∧ PGROUNDUP h.sz.toNat < z.toNat
    · exact .inl ⟨if_pos hfull, .inr hfull.1⟩
    · exact .inr ⟨if_neg hfull, not_le.mp hbase⟩

/-- `sbrk(nu * sizeof(Header))`, where this is positive as an `int`. -/
theorem sbrk_eq (nu : UInt32) (hpos : 0 < nu.toNat) (hnu : 8 * nu.toNat < 2 ^ 31)
    (hsz : h.sz.toNat < KERNBASE) :
    (UmallocM.sbrk (nu * 8) h = .ok (0xFFFFFFFF, { h with full := h.full.tail }) ∧
      NoMemory h nu.toNat) ∨
    ∃ z, z.toNat = h.sz.toNat + 8 * nu.toNat ∧ z.toNat < KERNBASE ∧
      UmallocM.sbrk (nu * 8) h = .ok (h.sz, { h with sz := z, full := h.full.tail }) := by
  rw [KERNBASE_eq] at hsz
  have hbytes : (nu * 8).toNat = 8 * nu.toNat := by
    rw [UInt32.toNat_mul]
    change nu.toNat * 8 % 2 ^ 32 = _
    omega
  have hint : 0 < int (nu * 8) := by
    rw [int, if_pos (by omega)]
    omega
  have hz : (h.sz + nu * 8).toNat = h.sz.toNat + 8 * nu.toNat := by
    rw [UInt32.toNat_add, hbytes]
    omega
  rcases allocuvm_cases (h := h) (h.full.headD false) (z := h.sz + nu * 8) (by omega) with
    ⟨halloc, hno⟩ | ⟨halloc, hlt⟩
  · rw [hz] at hno
    refine .inl ⟨wp.eq ?_, hno⟩
    rw [UmallocM.sbrk, wp_bind, wp_get, wp_bind, UmallocM.growproc, wp_bind, wp_get, if_pos hint,
      halloc, if_pos rfl, wp_bind, wp_set, wp_pure, wp_pure]
    rfl
  · refine .inr ⟨_, hz, hlt, wp.eq ?_⟩
    have hne : h.sz + nu * 8 ≠ 0 := by
      intro hzero
      rw [hzero] at hz
      change 0 = _ at hz
      omega
    rw [UmallocM.sbrk, wp_bind, wp_get, wp_bind, UmallocM.growproc, wp_bind, wp_get, if_pos hint,
      halloc, if_neg hne, wp_bind, wp_set, wp_pure, wp_pure]
    rfl

def coreUnits (n : UInt32) : UInt32 := if n < 4096 then 4096 else n

theorem le_coreUnits : n.toNat ≤ (coreUnits n).toNat ∧ 4096 ≤ (coreUnits n).toNat ∧
    (coreUnits n).toNat ≤ max n.toNat 4096 := by
  rw [coreUnits]
  by_cases hlt : n < 4096
  · have hnat : n.toNat < 4096 := UInt32.lt_iff_toNat_lt.mp hlt
    rw [if_pos hlt]
    exact ⟨hnat.le, le_rfl, le_max_right _ _⟩
  · have hnat : ¬ n.toNat < 4096 := fun hnat => hlt (UInt32.lt_iff_toNat_lt.mpr hnat)
    rw [if_neg hlt]
    exact ⟨le_rfl, not_lt.mp hnat, le_max_left _ _⟩

theorem Tidy.pos (ht : Tidy base K h fl live) (hp : p ∈ places base fl) : p ≠ 0 := by
  rintro rfl
  have hpos := ht.headers.base_pos
  rcases List.mem_cons.mp hp with rfl | hp
  · exact absurd hpos (lt_irrefl _)
  · obtain ⟨c, hc, haddr⟩ := List.mem_map.mp hp
    have hlt := ht.headers.base_lt (List.mem_append_left _ hc)
    rw [haddr] at hlt
    exact absurd hlt (by simp)

/-- New memory is a block that is not free yet. -/
theorem Tidy.grow {g : Heap} (ht : Tidy base K h fl live) (hmem : g.mem = h.mem)
    (hfreep : g.freep = h.freep) (hpos : 0 < n.toNat)
    (hsz : g.sz.toNat = h.sz.toNat + 8 * n.toNat) (hlt : g.sz.toNat < KERNBASE) :
    Tidy base (Set.Ico h.sz.toNat g.sz.toNat ∪ K) (g.setSize h.sz n) fl (⟨h.sz, n⟩ :: live) := by
  have hh := (ht.headers.grow hmem hpos (hsz ▸ hlt) hsz).perm List.perm_middle.symm
  have hl : Layout base (Set.Ico h.sz.toNat g.sz.toNat ∪ K) g.sz.toNat (fl ++ ⟨h.sz, n⟩ :: live) :=
    hh.toLayout
  refine ⟨hh, ring_setSize hl ?_ ?_ (hmem ▸ ht.ring), ht.keys, ?_, ht.apart⟩
  · exact mem_places (c := ⟨h.sz, n⟩) (List.mem_append_right _ List.mem_cons_self)
  · exact places_left
  · change g.freep ∈ _
    rw [hfreep]
    exact ht.freep

/-- The memory of the allocator, after `sbrk` has been called for it or has not been called. -/
def more (K : Set ℕ) (h h' : Heap) : Set ℕ := Set.Ico h.sz.toNat h'.sz.toNat ∪ K

theorem more_of_eq {h' : Heap} (hsz : h'.sz = h.sz) : more K h h' = K := by
  rw [more, hsz, Set.Ico_self, Set.empty_union]

theorem Tidy.setFull (ht : Tidy base K h fl live) (full : List Bool) :
    Tidy base K { h with full := full } fl live :=
  ⟨{ ht.headers with }, ht.ring, ht.keys, ht.freep, ht.apart⟩

/-- `morecore` fails, or there is a free block that is large enough. It asks `sbrk` once. -/
theorem wp_morecore (ht : Tidy base K h fl live) (hn : 8 * n.toNat < 2 ^ 31)
    (hfuel : 2 * fl.length + 2 < fuel ∨ E .running) :
    wp (UmallocM.morecore fuel n) (fun r h' => h'.full = h.full.tail ∧
      ((r = 0 ∧ Tidy base K h' fl live ∧ h'.sz = h.sz ∧ NoMemory h (coreUnits n).toNat) ∨
      (r = h'.freep ∧ r ≠ 0 ∧ h.sz.toNat ≤ h'.sz.toNat ∧ ∃ fl', Tidy base (more K h h') h' fl' live ∧
        (∃ c ∈ fl', n.toNat ≤ c.size.toNat) ∧ fl'.length ≤ fl.length + 1))) E h := by
  obtain ⟨hle, hcore, hmax⟩ := le_coreUnits (n := n)
  have hsz := ht.headers.sz_lt
  rw [UmallocM.morecore, wp_bind]
  change wp (UmallocM.sbrk (coreUnits n * 8)) _ E h
  rcases sbrk_eq (h := h) (coreUnits n) (by omega) (by omega) hsz with
    ⟨hsbrk, hno⟩ | ⟨z, hz, hlt, hsbrk⟩
  · rw [wp_of_ok hsbrk, if_pos rfl, wp_pure]
    exact ⟨rfl, .inl ⟨rfl, ht.setFull _, rfl, hno⟩⟩
  · have hne : h.sz ≠ 0xFFFFFFFF := by
      intro heq
      rw [heq] at hsz
      exact absurd hsz (by decide)
    have hgrow := ht.grow (g := { h with sz := z, full := h.full.tail }) rfl rfl (by omega) hz hlt
    have hhas : Heap.Has { h with sz := z, full := h.full.tail } h.sz :=
      hgrow.headers.has (mem_places (c := ⟨h.sz, coreUnits n⟩) (by simp))
    rw [wp_of_ok hsbrk, if_neg hne, wp_bind]
    change wp (UmallocM.setSize h.sz (coreUnits n)) _ E _
    rw [wp_setSize hhas, wp_bind]
    have hfree := wp_free (E := E) hgrow hfuel
    refine wp_mono hfree (fun _ h' hpost => ?_) fun _ he => he
    obtain ⟨fl', ht', ⟨c, hc, hsize⟩, hlen, hkept⟩ := hpost
    rw [wp_bind, wp_get, wp_pure]
    refine ⟨hkept.full, .inr ⟨rfl, ht'.pos ht'.freep, ?_, fl', ?_, ⟨c, hc, hle.trans hsize⟩, hlen⟩⟩
    · rw [hkept.sz]
      change h.sz.toNat ≤ z.toNat
      omega
    · rw [more, hkept.sz]
      exact ht'

/-! ### The loop -/

/-- A node of the list whose size is not 0 is a free block. -/
theorem Tidy.chunk (ht : Tidy base K h fl live) (hq : q ∈ places base fl)
    (hpos : 0 < (h.mem.uint (q + 4)).toNat) :
    ∃ c ∈ fl, c.addr = q ∧ h.mem.uint (q + 4) = c.size := by
  rcases List.mem_cons.mp hq with rfl | hq
  · rw [ht.headers.base_size] at hpos
    exact absurd hpos (lt_irrefl _)
  · obtain ⟨c, hc, rfl⟩ := List.mem_map.mp hq
    exact ⟨c, hc, rfl, ht.headers.sizes c (List.mem_append_left _ hc)⟩

/-- At a node that is large enough, the loop takes from it. -/
theorem wp_mallocLoop_here (ht : Tidy base K h fl live) (hpos : 0 < n.toNat)
    (hp : p ∈ places base fl) (hnext : h.mem.uint p = q) (hq : q ∈ places base fl)
    (hle : n.toNat ≤ (h.mem.uint (q + 4)).toNat) :
    wp (UmallocM.mallocLoop n (fuel + 1) p q)
      (fun r h' => Got base K n live r h' ∧ Kept h h') E h := by
  obtain ⟨c, hc, rfl, hsize⟩ := ht.chunk hq (hpos.trans_le hle)
  rw [hsize] at hle
  rw [UmallocM.mallocLoop, wp_bind, wp_size (ht.headers.has (places_left hq)), hsize,
    if_pos (UInt32.le_iff_toNat_le.mpr hle)]
  exact wp_take ht hc hp hnext hpos hle

/-- At a node that is not, it goes on. -/
theorem wp_mallocLoop_next {Q : UInt32 → Heap → Prop} (ht : Tidy base K h fl live)
    (hq : q ∈ places base fl) (hlt : ¬ n.toNat ≤ (h.mem.uint (q + 4)).toNat)
    (hne : q ≠ h.freep) : wp (UmallocM.mallocLoop n (fuel + 1) p q) Q E h ↔
      wp (UmallocM.mallocLoop n fuel q (h.mem.uint q)) Q E h := by
  have hhas := ht.headers.has (places_left hq)
  rw [UmallocM.mallocLoop, wp_bind, wp_size hhas,
    if_neg fun hle => hlt (UInt32.le_iff_toNat_le.mp hle), wp_bind, wp_get, if_neg hne, wp_bind,
    wp_ptr hhas]

/-- Where there is a free block that is large enough, the loop finds one. -/
theorem wp_mallocLoop_found (ht : Tidy base K h fl live) (hpos : 0 < n.toNat) {k : ℕ}
    (hc : c ∈ fl) (hle : n.toNat ≤ c.size.toNat) (hp : p ∈ places base fl)
    (hnext : h.mem.uint p = q) (hk : h.mem.uint^[k] q = c.addr)
    (hfirst : ∀ i < k, h.mem.uint^[i] q ≠ h.freep) (hfuel : k < fuel ∨ E .running) :
    wp (UmallocM.mallocLoop n fuel p q)
      (fun r h' => Got base K n live r h' ∧ Kept h h') E h := by
  have hq : q ∈ places base fl := hnext ▸ ht.ring.next_mem hp
  induction fuel generalizing k p q with
  | zero =>
      rw [UmallocM.mallocLoop, wp_throw]
      exact hfuel.resolve_left (Nat.not_lt_zero k)
  | succ fuel ih =>
      by_cases hhere : n.toNat ≤ (h.mem.uint (q + 4)).toNat
      · exact wp_mallocLoop_here ht hpos hp hnext hq hhere
      · cases k with
        | zero =>
            refine absurd ?_ hhere
            rw [show q = c.addr from hk, ht.headers.sizes c (List.mem_append_left _ hc)]
            exact hle
        | succ k =>
            rw [wp_mallocLoop_next ht hq hhere (hfirst 0 (Nat.succ_pos k))]
            exact ih hq rfl hk (fun i hi => hfirst (i + 1) (Nat.succ_lt_succ hi))
              (hfuel.imp_left Nat.lt_of_succ_lt_succ) (ht.ring.next_mem hq)

/-- What `malloc` does: it fails and nothing is allocated, or it has got a block. It asks `sbrk`
at most once. -/
structure Answers (base : UInt32) (K : Set ℕ) (n : UInt32) (live : List Chunk) (h : Heap)
    (r : UInt32) (h' : Heap) : Prop where
  sz : h.sz.toNat ≤ h'.sz.toNat
  full : h'.full = h.full ∨ h'.full = h.full.tail
  answer : Got base (more K h h') n live r h' ∨ r = 0 ∧
    (∃ fl, Tidy base (more K h h') h' fl live) ∧ NoMemory h (coreUnits n).toNat

theorem wp_mallocLoop (ht : Tidy base K h fl live) (hpos : 0 < n.toNat)
    (hn : 8 * n.toNat < 2 ^ 31) {k : ℕ} (hp : p ∈ places base fl) (hnext : h.mem.uint p = q)
    (hk : h.mem.uint^[k] q = h.freep) (hfuel : k + 2 * fl.length + 5 < fuel ∨ E .running) :
    wp (UmallocM.mallocLoop n fuel p q) (Answers base K n live h) E h := by
  have hq : q ∈ places base fl := hnext ▸ ht.ring.next_mem hp
  induction fuel generalizing k p q with
  | zero =>
      rw [UmallocM.mallocLoop, wp_throw]
      exact hfuel.resolve_left (Nat.not_lt_zero _)
  | succ fuel ih =>
      by_cases hhere : n.toNat ≤ (h.mem.uint (q + 4)).toNat
      · refine wp_mono (wp_mallocLoop_here ht hpos hp hnext hq hhere) (fun r h' hpost => ?_)
          fun _ he => he
        obtain ⟨hgot, hkept⟩ := hpost
        exact ⟨by rw [hkept.sz], .inl hkept.full, .inl (more_of_eq hkept.sz ▸ hgot)⟩
      · by_cases hback : q = h.freep
        · rw [UmallocM.mallocLoop, wp_bind, wp_size (ht.headers.has (places_left hq)),
            if_neg fun hle => hhere (UInt32.le_iff_toNat_le.mp hle), wp_bind, wp_get, if_pos hback,
            wp_bind]
          refine wp_mono (wp_morecore ht hn (hfuel.imp_left fun hlt => by omega)) (fun r h₁ hpost => ?_) fun _ he => he
          obtain ⟨hfull, hpost⟩ := hpost
          rcases hpost with ⟨rfl, ht₁, hsz, hno⟩ | ⟨rfl, hr, hsz, fl', ht₁, ⟨c, hc, hle⟩, hlen⟩
          · rw [if_pos rfl, wp_pure]
            exact ⟨by rw [hsz], .inr hfull, .inr ⟨rfl, ⟨fl, more_of_eq hsz ▸ ht₁⟩, hno⟩⟩
          · obtain ⟨j, hjle, hj, hfirst⟩ := ht₁.ring.reaches_first (c := c.addr)
              (mem_places hc) ht₁.freep
            rw [List.length_map] at hjle
            rw [if_neg hr, wp_bind, wp_ptr (ht₁.headers.has (places_left ht₁.freep))]
            refine wp_mono (wp_mallocLoop_found ht₁ hpos hc hle ht₁.freep rfl hj hfirst
              (hfuel.imp_left fun hlt => by omega)) (fun r h₂ hpost => ?_) fun _ he => he
            obtain ⟨hgot, hkept⟩ := hpost
            refine ⟨by rw [hkept.sz]; exact hsz, .inr (hkept.full.trans hfull), .inl ?_⟩
            rw [more, hkept.sz]
            exact hgot
        · rw [wp_mallocLoop_next ht hq hhere hback]
          cases k with
          | zero => exact absurd hk hback
          | succ k =>
              exact ih hq rfl hk (hfuel.imp_left fun hlt => by omega) (ht.ring.next_mem hq)

end Umalloc

end Xv6
