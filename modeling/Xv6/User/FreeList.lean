import Xv6.User.Headers

/-!
# The free list

From `base` the pointers lead through the free blocks, in the order of their places, and
back. `free` finds the place of a block and joins it with its neighbours, where they meet.
-/

namespace Xv6

namespace Umalloc

open Foundation

variable {base p x : UInt32} {K : Set ℕ} {fuel : ℕ} {h : Heap} {b c d : Chunk}
  {bs cs fl live u w : List Chunk} {s t : List UInt32} {E : Stop → Prop}

/-- No block begins where another one ends. -/
def Apart (bs : List Chunk) : Prop := ∀ c ∈ bs, ∀ d ∈ bs, c.stop ≠ d.addr.toNat

theorem Apart.subset (ha : Apart cs) (hsub : bs ⊆ cs) : Apart bs :=
  fun c hc d hd => ha c (hsub hc) d (hsub hd)

theorem Apart.insert (ha : Apart (u ++ w)) (hb : b.stop ≠ b.addr.toNat)
    (hends : ∀ d ∈ u ++ w, b.stop ≠ d.addr.toNat) (hstarts : ∀ c ∈ u ++ w, c.stop ≠ b.addr.toNat) :
    Apart (u ++ b :: w) := by
  intro c hc d hd
  rw [List.perm_middle.mem_iff] at hc hd
  rcases List.mem_cons.mp hc with rfl | hc
  · rcases List.mem_cons.mp hd with rfl | hd
    · exact hb
    · exact hends d hd
  · rcases List.mem_cons.mp hd with heq | hd
    · rw [heq]
      exact hstarts c hc
    · exact ha c hc d hd

/-- The blocks `fl` are free and the blocks `live` are not. -/
structure Tidy (base : UInt32) (K : Set ℕ) (h : Heap) (fl live : List Chunk) : Prop where
  headers : Headers base K h (fl ++ live)
  ring : Circular h.mem.uint base (fl.map Chunk.addr)
  keys : Ascending UInt32.toNat (places base fl)
  freep : h.freep ∈ places base fl
  apart : Apart fl

namespace Headers

theorem ptr_setPtr (hh : Headers base K h bs) (hp : p ∈ places base bs) :
    (h.setPtr p x).mem.uint p = x :=
  (hh.separate hp hp).ptr_setPtr.trans (if_pos rfl)

theorem ptr_setPtr_of_ne (hh : Headers base K h bs) {q : UInt32} (hp : p ∈ places base bs)
    (hq : q ∈ places base bs) (hne : q ≠ p) : (h.setPtr p x).mem.uint q = h.mem.uint q :=
  (hh.separate hp hq).ptr_setPtr.trans (if_neg hne)

theorem ptr_setSize (hh : Headers base K h bs) {q : UInt32} (hp : p ∈ places base bs)
    (hq : q ∈ places base bs) : (h.setSize p x).mem.uint q = h.mem.uint q :=
  (hh.separate hp hq).ptr_setSize

end Headers

/-- The size of a block that is not free may be stored. -/
theorem ring_setSize {sz : ℕ} {q : UInt32} (hl : Layout base K sz bs) (hq : q ∈ places base bs)
    (hsub : places base fl ⊆ places base bs)
    (hring : Circular h.mem.uint base (fl.map Chunk.addr)) :
    Circular (h.setSize q x).mem.uint base (fl.map Chunk.addr) :=
  hring.congr fun _ hp => (hl.separate hq (hsub hp)).ptr_setSize

/-! ### The place of a block -/

theorem places_append : places base (u ++ w) = places base u ++ w.map Chunk.addr := by
  rw [places, places, List.map_append, List.cons_append]

/-- The free blocks before a place and behind it. -/
theorem exists_split (hkeys : Ascending UInt32.toNat (places base fl))
    (hbase : base.toNat < x.toNat) (hx : ∀ c ∈ fl, c.addr ≠ x) :
    ∃ u w s p, fl = u ++ w ∧ places base u = s ++ [p] ∧ p.toNat < x.toNat ∧
      ∀ c ∈ w, x.toNat < c.addr.toNat := by
  have hne : ∀ q ∈ places base fl, q.toNat ≠ x.toNat := by
    refine List.forall_mem_cons.mpr ⟨hbase.ne, fun q hq heq => ?_⟩
    obtain ⟨c, hc, rfl⟩ := List.mem_map.mp hq
    exact hx c hc (UInt32.toNat_inj.mp heq)
  obtain ⟨s, p, t, hs, hp, ht⟩ := exists_place hkeys hbase hne
  cases s with
  | nil =>
      obtain ⟨rfl, hfl⟩ := List.cons.inj hs
      refine ⟨[], fl, [], base, rfl, rfl, hp, fun c hc => ht c.addr ?_⟩
      rw [← hfl]
      exact List.mem_map_of_mem hc
  | cons a s =>
      obtain ⟨rfl, hfl⟩ := List.cons.inj hs
      obtain ⟨u, v, rfl, rfl, hv⟩ := List.map_eq_append_iff.mp hfl
      obtain ⟨d, w, rfl, rfl, rfl⟩ := List.map_eq_cons_iff.mp hv
      refine ⟨u ++ [d], w, base :: u.map Chunk.addr, d.addr, (List.append_cons u d w), ?_, hp,
        fun c hc => ht c.addr (List.mem_map_of_mem hc)⟩
      rw [places_append, places]
      rfl

/-- The keys stay in order when a block is put at its place. -/
theorem keys_insert (hkeys : Ascending UInt32.toNat (places base (u ++ w)))
    (hu : places base u = s ++ [p]) (hp : p.toNat < b.addr.toNat)
    (hw : ∀ c ∈ w, b.addr.toNat < c.addr.toNat) :
    Ascending UInt32.toNat (places base (u ++ b :: w)) := by
  rw [places_append] at hkeys ⊢
  obtain ⟨hleft, hright, hcross⟩ := List.pairwise_append.mp hkeys
  have hbelow : ∀ q ∈ places base u, q.toNat < b.addr.toNat := by
    intro q hq
    rw [hu] at hq hleft
    rcases List.mem_append.mp hq with hq | hq
    · exact ((List.pairwise_append.mp hleft).2.2 q hq p List.mem_cons_self).trans hp
    · rw [List.mem_singleton.mp hq]
      exact hp
  refine List.pairwise_append.mpr ⟨hleft, List.pairwise_cons.mpr ⟨fun q hq => ?_, hright⟩, ?_⟩
  · obtain ⟨c, hc, rfl⟩ := List.mem_map.mp hq
    exact hw c hc
  · intro q hq
    exact List.forall_mem_cons.mpr ⟨hbelow q hq, hcross q hq⟩

/-- The blocks before a place are before it, those behind it are behind it. -/
theorem around (hkeys : Ascending UInt32.toNat (places base (u ++ b :: w))) :
    (∀ c ∈ u, c.addr.toNat < b.addr.toNat) ∧ ∀ d ∈ w, b.addr.toNat < d.addr.toNat := by
  rw [places_append] at hkeys
  obtain ⟨-, hright, hcross⟩ := List.pairwise_append.mp hkeys
  refine ⟨fun c hc => ?_, fun d hd => ?_⟩
  · exact hcross c.addr (mem_places hc) b.addr List.mem_cons_self
  · exact (List.pairwise_cons.mp hright).1 d.addr (List.mem_map_of_mem hd)

/-- The loop of `free` goes to the place. -/
theorem wp_freeLoop {Q : UInt32 → Heap → Prop} (hhas : ∀ q ∈ places base fl, h.Has q)
    (hring : Circular h.mem.uint base (fl.map Chunk.addr))
    (hkeys : Ascending UInt32.toNat (places base fl)) (hbase : base.toNat < x.toNat)
    (hsplit : places base fl = s ++ p :: t) (hp : p.toNat < x.toNat)
    (ht : ∀ q ∈ t, x.toNat < q.toNat) (hQ : Q p h) {k : ℕ} {q : UInt32}
    (hq : q ∈ places base fl) (hk : h.mem.uint^[k] q = p) (hfuel : k < fuel ∨ E .running) :
    wp (UmallocM.freeLoop x fuel q) Q E h := by
  induction fuel generalizing k q with
  | zero =>
      rw [UmallocM.freeLoop, wp_throw]
      exact hfuel.resolve_left (Nat.not_lt_zero k)
  | succ fuel ih =>
      have hplace := hring.place_iff hkeys hbase hsplit hp ht hq
      rw [UmallocM.freeLoop, wp_bind, wp_ptr (hhas q hq), wp_ite]
      refine ⟨fun hin => ?_, fun hin => wp_ite.mpr ⟨fun hend => ?_, fun hend => ?_⟩⟩
      · rw [wp_pure, hplace.mp (.inl hin)]
        exact hQ
      · rw [wp_pure, hplace.mp (.inr hend)]
        exact hQ
      · cases k with
        | zero =>
            rcases hplace.mpr hk with hin' | hend'
            · exact absurd hin' hin
            · exact absurd hend' hend
        | succ k => exact ih (hring.next_mem hq) hk (hfuel.imp_left Nat.lt_of_succ_lt_succ)

/-! ### A block is joined with its neighbours -/

/-- What `free` and `malloc` do with pointers and sizes does not change the rest. -/
structure Kept (h h' : Heap) : Prop where
  sz : h'.sz = h.sz
  full : h'.full = h.full

/-- The block `b` has its place between `u` and `w`, and is linked to what is behind it. -/
structure Gap (base : UInt32) (K : Set ℕ) (h : Heap) (u w live : List Chunk) (b : Chunk) : Prop where
  headers : Headers base K h (b :: (u ++ w ++ live))
  keys : Ascending UInt32.toNat (places base (u ++ b :: w))
  apart : Apart (u ++ w)
  ends : ∀ d ∈ u ++ w, b.stop ≠ d.addr.toNat
  front : Linked h.mem.uint (places base u)
  back : Linked h.mem.uint (b.addr :: (w.map Chunk.addr ++ [base]))

theorem mem_places_of_last (hu : places base u = s ++ [p]) : p ∈ places base u := by
  rw [hu]
  exact List.mem_append_right _ List.mem_cons_self

/-- The other blocks are at other places. -/
theorem ne_of_keys (hkeys : Ascending UInt32.toNat (places base (u ++ b :: w))) :
    (∀ q ∈ places base u, q ≠ b.addr) ∧ ∀ q ∈ w.map Chunk.addr, q ≠ b.addr ∧ q ∉ places base u := by
  have hnodup := hkeys.nodup
  rw [places_append, List.map_cons] at hnodup
  obtain ⟨-, hright, hcross⟩ := List.nodup_append.mp hnodup
  refine ⟨fun q hq => hcross q hq b.addr List.mem_cons_self, fun q hq => ⟨?_, fun hmem => ?_⟩⟩
  · rintro rfl
    exact (List.nodup_cons.mp hright).1 hq
  · exact hcross q hmem q (List.mem_cons_of_mem _ hq) rfl

theorem mem_before {q : UInt32} (hq : q ∈ places base u) :
    q ∈ places base (b :: (u ++ w ++ live)) :=
  places_subset (fun c hc => by simp [hc]) hq

theorem mem_behind {q : UInt32} (hq : q ∈ w.map Chunk.addr) :
    q ∈ places base (b :: (u ++ w ++ live)) :=
  List.mem_cons_of_mem _ (List.map_subset Chunk.addr (fun c hc => by simp [hc]) hq)

/-- The blocks before the last one are at other places. -/
theorem mem_front (hkeys : Ascending UInt32.toNat (places base (u ++ w)))
    (hu : places base u = s ++ [p]) : ∀ q ∈ s, q ∈ places base u ∧ q ≠ p := by
  intro q hq
  have hnodup := hkeys.nodup
  rw [places_append] at hnodup
  have hnodup := (List.nodup_append.mp hnodup).1
  rw [hu] at hnodup ⊢
  exact ⟨List.mem_append_left _ hq, (List.nodup_append.mp hnodup).2.2 q hq p List.mem_cons_self⟩

/-- The pointers before the last one are not those of the block. -/
theorem front_congr {h' : Heap} (hfront : Linked h.mem.uint (places base u))
    (hu : places base u = s ++ [p])
    (heq : ∀ q ∈ s, h'.mem.uint q = h.mem.uint q) : Linked h'.mem.uint (places base u) := by
  rw [hu] at hfront ⊢
  exact hfront.congr heq

/-- If the next block does not begin where this one ends, no other block does. -/
theorem ends_of_ne (hh : Headers base K h (b :: (u ++ w ++ live)))
    (hkeys : Ascending UInt32.toNat (places base (u ++ b :: w)))
    (hne : ∀ d v, w = d :: v → b.stop ≠ d.addr.toNat) : ∀ d ∈ u ++ w, b.stop ≠ d.addr.toNat := by
  have hb : b ∈ b :: (u ++ w ++ live) := List.mem_cons_self
  have hlt := (hh.inside hb).2.1
  obtain ⟨hbefore, hbehind⟩ := around hkeys
  intro e he
  rcases List.mem_append.mp he with he | he
  · exact ((hbefore e he).trans hlt).ne'
  · cases w with
    | nil => cases he
    | cons d v =>
        rcases List.mem_cons.mp he with rfl | he
        · exact hne _ v rfl
        · have hd : d ∈ b :: (u ++ d :: v ++ live) := by simp
          have hle := hh.stop_le_of_lt hb hd (hbehind d List.mem_cons_self)
          rw [places_append, List.map_cons, List.map_cons] at hkeys
          have hkeys := List.pairwise_cons.mp
            (List.pairwise_cons.mp (List.pairwise_append.mp hkeys).2.1).2
          exact (hle.trans_lt (hkeys.1 e.addr (List.mem_map_of_mem he))).ne

/-- If the last block before this one does not end where it begins, no other block does. -/
theorem starts_of_ne (hg : Gap base K h u w live b) (hu : places base u = s ++ [p])
    (hne : ∀ c ∈ u, c.addr = p → c.stop ≠ b.addr.toNat) :
    ∀ c ∈ u ++ w, c.stop ≠ b.addr.toNat := by
  obtain ⟨hbefore, hbehind⟩ := around hg.keys
  have hin : ∀ c ∈ u ++ w, c ∈ b :: (u ++ w ++ live) := fun c hc =>
    List.mem_cons_of_mem _ (List.mem_append_left _ hc)
  intro c hc
  rcases List.mem_append.mp hc with hcu | hcw
  · by_cases heq : c.addr = p
    · exact hne c hcu heq
    · have hkeys := hg.keys
      rw [places_append] at hkeys
      have hkeys := (List.pairwise_append.mp hkeys).1
      have hcs : c.addr ∈ s := by
        have hmem : c.addr ∈ places base u := mem_places hcu
        rw [hu] at hmem
        exact (List.mem_append.mp hmem).resolve_right fun hlast => heq (List.mem_singleton.mp hlast)
      have hp := mem_places_of_last hu
      rw [hu] at hkeys
      have hlt := (List.pairwise_append.mp hkeys).2.2 c.addr hcs p List.mem_cons_self
      rcases List.mem_cons.mp hp with rfl | hp
      · have hbase := hg.headers.base_lt (hin c hc)
        omega
      · obtain ⟨d, hd, rfl⟩ := List.mem_map.mp hp
        have hle := hg.headers.stop_le_of_lt (hin c hc) (hin d (List.mem_append_left _ hd)) hlt
        exact (hle.trans_lt (hbefore d hd)).ne
  · exact ((hbehind c hcw).trans (hg.headers.inside (hin c hc)).2.1).ne'

/-- The block is joined with the one behind it, or linked to it. -/
theorem wp_joinNext (hh : Headers base K h (b :: (u ++ w ++ live)))
    (hkeys : Ascending UInt32.toNat (places base (u ++ b :: w)))
    (hapart : Apart (u ++ w)) (hfront : Linked h.mem.uint (places base u))
    (hu : places base u = s ++ [p])
    (hback : Linked h.mem.uint (p :: (w.map Chunk.addr ++ [base]))) :
    wp (UmallocM.joinNext p b.addr) (fun _ h' => ∃ b' w', Gap base K h' u w' live b' ∧
      b'.addr = b.addr ∧ b.size.toNat ≤ b'.size.toNat ∧ w'.length ≤ w.length ∧ Kept h h') E h := by
  have hb : b.addr ∈ places base (b :: (u ++ w ++ live)) := mem_places List.mem_cons_self
  have hp : p ∈ places base (b :: (u ++ w ++ live)) := mem_before (mem_places_of_last hu)
  have hs : ∀ q ∈ s, q ∈ places base u := by
    intro q hq
    rw [hu]
    exact List.mem_append_left _ hq
  obtain ⟨hune, hwne⟩ := ne_of_keys hkeys
  have hstop := hh.stop_lt List.mem_cons_self
  rw [UmallocM.joinNext, wp_bind, wp_size (hh.has hb), wp_bind, wp_ptr (hh.has hp),
    hh.sizes b List.mem_cons_self, wp_ite]
  constructor
  · intro hmeet
    have hmeet := congrArg UInt32.toNat hmeet
    rw [Layout.toNat_plus (hstop.trans (by decide))] at hmeet
    cases w with
    | nil =>
        rw [(Linked.cons_cons.mp hback).1] at hmeet
        have hlt := hh.base_lt (c := b) List.mem_cons_self
        omega
    | cons d w =>
        obtain ⟨hnext, hback⟩ := Linked.cons_cons.mp hback
        rw [hnext] at hmeet ⊢
        have hmem : d ∈ b :: (u ++ d :: w ++ live) := by simp
        have hd : d.addr ∈ places base (b :: (u ++ d :: w ++ live)) := mem_places hmem
        have hperm : (b :: (u ++ d :: w ++ live)).Perm (b :: d :: (u ++ w ++ live)) := by
          simp
        have hjoin := (hh.perm hperm).join hmeet
        have hb' : b.addr ∈ places base (⟨b.addr, b.size + d.size⟩ :: (u ++ w ++ live)) :=
          mem_places (c := ⟨b.addr, b.size + d.size⟩) List.mem_cons_self
        have hsum := ((hh.perm hperm).toLayout.join hmeet).1
        rw [wp_bind, wp_size (hh.has hd), hh.sizes d hmem, wp_bind, wp_setSize (hh.has hb), wp_bind,
          wp_ptr (hh.has hd).setSize, wp_setPtr (hh.has hb).setSize, hh.ptr_setSize hb hd]
        have hsub : u ++ w ⊆ u ++ d :: w :=
          ((List.sublist_cons_self d w).append_left u).subset
        refine ⟨⟨b.addr, b.size + d.size⟩, w, ⟨hjoin.setPtr hb', ?_, hapart.subset hsub, ?_, ?_, ?_⟩,
          rfl, ?_, Nat.le_succ _, rfl, rfl⟩
        · refine hkeys.sublist ?_
          rw [places_append, places_append]
          exact (List.Sublist.refl _).append ((List.sublist_cons_self _ _).cons_cons _)
        · intro e he
          have hend : Chunk.stop ⟨b.addr, b.size + d.size⟩ = d.stop := by
            change b.addr.toNat + 8 * (b.size + d.size).toNat = d.addr.toNat + 8 * d.size.toNat
            omega
          rw [hend]
          exact hapart d (List.mem_append_right _ List.mem_cons_self) e (hsub he)
        · refine front_congr hfront hu fun q hq => ?_
          rw [hjoin.ptr_setPtr_of_ne hb' (mem_before (hs q hq)) (hune q (hs q hq)),
            hh.ptr_setSize hb (mem_before (hs q hq))]
        · refine hback.relink (fun q hq => ?_) (hjoin.ptr_setPtr hb')
          have hq' := List.mem_cons_of_mem d.addr hq
          rw [hjoin.ptr_setPtr_of_ne hb' (mem_behind hq) (hwne q hq').1,
            hh.ptr_setSize hb (mem_behind (w := d :: w) hq')]
        · change b.size.toNat ≤ (b.size + d.size).toNat
          omega
  · intro hmeet
    rw [wp_setPtr (hh.has hb)]
    refine ⟨b, w, ⟨hh.setPtr hb, hkeys, hapart, ?_, ?_, ?_⟩, rfl, le_rfl, le_rfl, rfl, rfl⟩
    · refine ends_of_ne hh hkeys fun d v hw => ?_
      rw [hw] at hback
      rw [(Linked.cons_cons.mp hback).1] at hmeet
      refine fun heq => hmeet (UInt32.toNat_inj.mp ?_)
      exact (Layout.toNat_plus (hstop.trans (by decide))).trans heq
    · exact front_congr hfront hu fun q hq =>
        hh.ptr_setPtr_of_ne hb (mem_before (hs q hq)) (hune q (hs q hq))
    · exact hback.relink (fun q hq => hh.ptr_setPtr_of_ne hb (mem_behind hq) (hwne q hq).1)
        (hh.ptr_setPtr hb)

/-- From `base` through the blocks before a place and behind it. -/
theorem circular_iff : Circular h.mem.uint base ((u ++ b :: w).map Chunk.addr) ↔
    Linked h.mem.uint (places base u ++ b.addr :: (w.map Chunk.addr ++ [base])) := by
  rw [Circular, places, List.map_append, List.append_assoc]
  rfl

/-- The block is linked to the one before it. -/
theorem Gap.insert (hg : Gap base K h u w live b) (hu : places base u = s ++ [p])
    (hstarts : ∀ c ∈ u ++ w, c.stop ≠ b.addr.toNat) :
    Tidy base K { h.setPtr p b.addr with freep := p } (u ++ b :: w) live := by
  have hp := mem_places_of_last hu
  have hp' : p ∈ places base (b :: (u ++ w ++ live)) := mem_before hp
  have hs := mem_front hg.keys hu
  obtain ⟨hune, hwne⟩ := ne_of_keys hg.keys
  have hb : b.addr ∈ places base (b :: (u ++ w ++ live)) := mem_places List.mem_cons_self
  have hperm : (b :: (u ++ w ++ live)).Perm (u ++ b :: w ++ live) := by
    simpa using List.perm_middle.symm
  refine ⟨((hg.headers.perm hperm).setPtr ?_).setFreep, ?_, hg.keys, ?_,
    hg.apart.insert (hg.headers.inside List.mem_cons_self).2.1.ne' hg.ends hstarts⟩
  · exact places_subset (fun c hc => by simp [hc]) hp
  · refine circular_iff.mpr ?_
    rw [hu, List.append_assoc]
    refine Linked.split.mpr ⟨?_, Linked.cons_cons.mpr ⟨hg.headers.ptr_setPtr hp', ?_⟩⟩
    · rw [← hu]
      exact front_congr hg.front hu fun q hq =>
        hg.headers.ptr_setPtr_of_ne hp' (mem_before (hs q hq).1) (hs q hq).2
    · refine Linked.congr (l := b.addr :: w.map Chunk.addr) hg.back
        (List.forall_mem_cons.mpr ⟨?_, fun q hq => ?_⟩)
      · exact hg.headers.ptr_setPtr_of_ne hp' hb (hune p hp).symm
      · refine hg.headers.ptr_setPtr_of_ne hp' (mem_behind hq) fun heq => ?_
        exact (hwne q hq).2 (heq ▸ hp)
  · rw [places_append]
    exact List.mem_append_left _ hp

/-- The block is joined with the one before it. -/
theorem Gap.join (hg : Gap base K h (u ++ [d]) w live b) (hmeet : d.stop = b.addr.toNat) :
    (d.size + b.size).toNat = d.size.toNat + b.size.toNat ∧
    Tidy base K { (h.setSize d.addr (d.size + b.size)).setPtr d.addr (h.mem.uint b.addr) with
      freep := d.addr } (u ++ ⟨d.addr, d.size + b.size⟩ :: w) live := by
  have hperm : (b :: (u ++ [d] ++ w ++ live)).Perm (d :: b :: (u ++ w ++ live)) := by
    simpa using (List.perm_middle.cons b).trans (List.Perm.swap d b _)
  have hd : d.addr ∈ places base (b :: (u ++ [d] ++ w ++ live)) := mem_places (by simp)
  have hjoin := (hg.headers.perm hperm).join hmeet
  have hd' : d.addr ∈ places base (⟨d.addr, d.size + b.size⟩ :: (u ++ w ++ live)) :=
    mem_places (c := ⟨d.addr, d.size + b.size⟩) List.mem_cons_self
  have hkeys : Ascending UInt32.toNat (places base (u ++ ⟨d.addr, d.size + b.size⟩ :: w)) := by
    refine hg.keys.sublist ?_
    rw [List.append_assoc, places_append, places_append]
    exact (List.Sublist.refl _).append ((List.sublist_cons_self _ _).cons_cons _)
  obtain ⟨hune, hwne⟩ := ne_of_keys hkeys
  have hperm' : (⟨d.addr, d.size + b.size⟩ :: (u ++ w ++ live)).Perm
      (u ++ ⟨d.addr, d.size + b.size⟩ :: w ++ live) := by
    simpa using List.perm_middle.symm
  refine ⟨((hg.headers.perm hperm).toLayout.join hmeet).1,
    ((hjoin.setPtr hd').perm hperm').setFreep, ?_, hkeys, ?_, ?_⟩
  · refine circular_iff.mpr (Linked.split.mpr ⟨?_, ?_⟩)
    · have hfront := hg.front
      rw [places_append] at hfront
      refine hfront.congr fun q hq => ?_
      rw [hjoin.ptr_setPtr_of_ne hd' (mem_before hq) (hune q hq),
        hg.headers.ptr_setSize hd (mem_before (by rw [places_append]; exact List.mem_append_left _ hq))]
    · refine hg.back.relink (fun q hq => ?_) (hjoin.ptr_setPtr hd')
      rw [hjoin.ptr_setPtr_of_ne hd' (mem_behind hq) (hwne q hq).1,
        hg.headers.ptr_setSize hd (mem_behind hq)]
  · rw [places_append]
    exact List.mem_append_right _ List.mem_cons_self
  · have hsub : u ++ w ⊆ u ++ [d] ++ w :=
      ((List.sublist_append_left u [d]).append_right w).subset
    have hlast : d ∈ u ++ [d] ++ w := by simp
    have hend : Chunk.stop ⟨d.addr, d.size + b.size⟩ = b.stop := by
      have hsum := ((hg.headers.perm hperm).toLayout.join hmeet).1
      change d.addr.toNat + 8 * d.size.toNat = _ at hmeet
      change d.addr.toNat + 8 * (d.size + b.size).toNat = b.addr.toNat + 8 * b.size.toNat
      omega
    refine (hg.apart.subset hsub).insert ?_ (fun e he => ?_) fun c hc => ?_
    · exact (hjoin.inside List.mem_cons_self).2.1.ne'
    · rw [hend]
      exact hg.ends e (hsub he)
    · exact hg.apart c (hsub hc) d hlast

/-- The block is joined with the one before it, or linked to it. -/
theorem wp_joinPrev (hg : Gap base K h u w live b) (hu : places base u = s ++ [p]) :
    wp (UmallocM.joinPrev p b.addr) (fun _ h' => ∃ fl, Tidy base K { h' with freep := p } fl live ∧
      (∃ c ∈ fl, b.size.toNat ≤ c.size.toNat) ∧ fl.length ≤ u.length + w.length + 1 ∧
        Kept h h') E h := by
  have hb : b.addr ∈ places base (b :: (u ++ w ++ live)) := mem_places List.mem_cons_self
  have hp : p ∈ places base (b :: (u ++ w ++ live)) := mem_before (mem_places_of_last hu)
  rw [UmallocM.joinPrev, wp_bind, wp_size (hg.headers.has hp), wp_ite]
  constructor
  · intro hmeet
    rcases List.eq_nil_or_concat u with rfl | ⟨u, d, rfl⟩
    · obtain ⟨-, rfl⟩ : s = [] ∧ base = p := by
        cases s with
        | nil => exact ⟨rfl, (List.cons.inj hu).1⟩
        | cons a s => simp [places] at hu
      rw [hg.headers.base_size] at hmeet
      have hlt := hg.headers.base_lt (c := b) List.mem_cons_self
      rw [← hmeet, UmallocM.plus, UInt32.zero_mul, UInt32.add_zero] at hlt
      omega
    · rw [List.concat_eq_append] at hg hu hb hp ⊢
      rw [places_append] at hu
      obtain ⟨-, hlast⟩ := List.append_inj' hu rfl
      obtain ⟨rfl, -⟩ := List.cons.inj hlast
      have hmem : d ∈ b :: (u ++ [d] ++ w ++ live) := by simp
      have hstop := hg.headers.stop_lt hmem
      rw [hg.headers.sizes d hmem] at hmeet ⊢
      have hmeet := congrArg UInt32.toNat hmeet
      rw [Layout.toNat_plus (hstop.trans (by decide))] at hmeet
      obtain ⟨hsum, htidy⟩ := hg.join hmeet
      rw [wp_bind, wp_size (hg.headers.has hb), hg.headers.sizes b List.mem_cons_self, wp_bind,
        wp_setSize (hg.headers.has hp), wp_bind, wp_ptr (hg.headers.has hb).setSize,
        wp_setPtr (hg.headers.has hp).setSize, hg.headers.ptr_setSize hp hb]
      refine ⟨_, htidy, ⟨_, List.mem_append_right _ List.mem_cons_self, ?_⟩, ?_, rfl, rfl⟩
      · change b.size.toNat ≤ (d.size + b.size).toNat
        omega
      · simp only [List.length_append, List.length_cons, List.length_nil]
        omega
  · intro hmeet
    rw [wp_setPtr (hg.headers.has hp)]
    have hstarts : ∀ c ∈ u ++ w, c.stop ≠ b.addr.toNat := by
      refine starts_of_ne hg hu fun c hc haddr heq => hmeet ?_
      have hmem : c ∈ b :: (u ++ w ++ live) := by simp [hc]
      have hstop := hg.headers.stop_lt hmem
      rw [← haddr, hg.headers.sizes c hmem]
      exact UInt32.toNat_inj.mp ((Layout.toNat_plus (hstop.trans (by decide))).trans heq)
    refine ⟨_, hg.insert hu hstarts, ⟨b, List.mem_append_right _ List.mem_cons_self, le_rfl⟩, ?_, rfl, rfl⟩
    rw [List.length_append, List.length_cons]
    omega

/-- `free(bp + 1)` for the block `b` -/
theorem wp_free (ht : Tidy base K h fl (b :: live)) (hfuel : 2 * fl.length + 2 < fuel ∨ E .running) :
    wp (UmallocM.free fuel (b.addr + 8)) (fun _ h' => ∃ fl', Tidy base K h' fl' live ∧
      (∃ c ∈ fl', b.size.toNat ≤ c.size.toNat) ∧ fl'.length ≤ fl.length + 1 ∧ Kept h h') E h := by
  have hh : Headers base K h (b :: (fl ++ live)) := ht.headers.perm List.perm_middle
  have hbase := hh.base_lt (c := b) List.mem_cons_self
  obtain ⟨u, w, s, p, rfl, hu, hp, hw⟩ := exists_split ht.keys (x := b.addr) (by omega)
    fun c hc => hh.ne_head (List.mem_append_left _ hc)
  have hsplit : places base (u ++ w) = s ++ p :: w.map Chunk.addr := by
    rw [places_append, hu, List.append_assoc]
    rfl
  have hmem : p ∈ places base (u ++ w) := by
    rw [hsplit]
    exact List.mem_append_right _ List.mem_cons_self
  obtain ⟨k, hle, hk⟩ := ht.ring.reaches ht.freep hmem
  rw [List.length_map] at hle
  have hhas : ∀ q ∈ places base (u ++ w), h.Has q := fun q hq =>
    ht.headers.has (places_left hq)
  have hring : Linked h.mem.uint (s ++ p :: (w.map Chunk.addr ++ [base])) := by
    have hring := ht.ring
    rw [Circular, ← List.cons_append] at hring
    change Linked _ (places base (u ++ w) ++ [base]) at hring
    rw [hsplit, List.append_assoc] at hring
    exact hring
  obtain ⟨hfront, hback⟩ := Linked.split.mp hring
  rw [UmallocM.free, UInt32.add_sub_cancel, wp_bind, wp_get, wp_bind]
  refine wp_freeLoop hhas ht.ring ht.keys (by omega) hsplit hp ?_ ?_ ht.freep hk
    (hfuel.imp_left hle.trans_lt)
  · intro q hq
    obtain ⟨c, hc, rfl⟩ := List.mem_map.mp hq
    exact hw c hc
  · rw [wp_bind]
    refine wp_mono (wp_joinNext hh (keys_insert ht.keys hu hp hw) ht.apart (hu ▸ hfront) hu hback)
      (fun _ h₁ hpost => ?_) fun _ he => he
    obtain ⟨b', w', hgap, haddr, hsize, hlen, hkept⟩ := hpost
    rw [wp_bind, ← haddr]
    refine wp_mono (wp_joinPrev hgap hu) (fun _ h₂ hpost => ?_) fun _ he => he
    obtain ⟨fl, htidy, ⟨c, hc, hcsize⟩, hlen', hkept'⟩ := hpost
    rw [wp_setFreep]
    refine ⟨fl, htidy, ⟨c, hc, hsize.trans hcsize⟩, ?_, hkept'.sz.trans hkept.sz,
      hkept'.full.trans hkept.full⟩
    rw [List.length_append]
    omega

end Umalloc

end Xv6
