import Xv6.Vm.ExecRule
import Xv6.Vm.Memory

/-!
# The segments that `exec` loads

While `exec` reads it, a file does not change. The segments lie one behind the other, each
from the start of a page, so each is loaded to pages of its own: `allocuvm` has filled them
with zeros, and `loaduvm` overwrites the first bytes with those of the file.
-/

namespace Xv6

open Foundation VmM

/-- What `readi` returns for a file with these contents. -/
def fileReader (content : List UInt8) : Reader := fun _ off n =>
  if off > content.length ∨ uint (off + n) < off then none else some ((content.drop off).take n)

/-- The headers of the segments that `exec` loads, `n` program headers from an offset on. -/
def loadHeaders (content : List UInt8) : ℕ → ℕ → List Proghdr
  | 0, _ => []
  | n + 1, off =>
      if off + sizeofProghdr ≤ content.length then
        let ph := Proghdr.ofBytes ((content.drop off).take sizeofProghdr)
        if ph.type = ELF_PROG_LOAD then
          ph :: loadHeaders content n (uint (off + sizeofProghdr))
        else loadHeaders content n (uint (off + sizeofProghdr))
      else []

/-- The file is complete: the program headers are in it, and of each segment that `exec` loads
the bytes, which the memory has room for. `allocuvm` returns 0 for a segment without memory at
address 0, and `exec` takes that for a failure. -/
def SegmentsIn (content : List UInt8) : ℕ → ℕ → Prop
  | 0, _ => True
  | n + 1, off => off + sizeofProghdr ≤ content.length ∧
      (let ph := Proghdr.ofBytes ((content.drop off).take sizeofProghdr)
      ph.type = ELF_PROG_LOAD → ph.filesz ≤ ph.memsz ∧ 0 < ph.vaddr + ph.memsz ∧
        ph.off + ph.filesz ≤ content.length) ∧
      SegmentsIn content n (uint (off + sizeofProghdr))

/-- The segments lie one behind the other, each from the start of a page. -/
def SegmentsOk : List Proghdr → ℕ → Prop
  | [], _ => True
  | ph :: phs, sz => ph.vaddr % PGSIZE = 0 ∧ sz ≤ ph.vaddr ∧
      ph.vaddr + ph.memsz < KERNBASE - 3 * PGSIZE ∧ SegmentsOk phs (ph.vaddr + ph.memsz)

/-- A segment is in memory: the bytes of the file, and then zeros. -/
structure SegmentLoaded (content : List UInt8) (t : Vm) (d : Pgdir) (ph : Proghdr) : Prop where
  size : ph.filesz ≤ ph.memsz
  file : ∀ i < ph.filesz, content[ph.off + i]? = some (t.byte (d.place (ph.vaddr + i)))
  zero : ∀ i, ph.filesz ≤ i → i < ph.memsz → t.byte (d.place (ph.vaddr + i)) = 0

/-- The memory below `sz` is the same. -/
def SameBelow (s : Vm) (d : Pgdir) (sz : ℕ) (t : Vm) (d' : Pgdir) : Prop :=
  ∀ m, m * PGSIZE < sz →
    d'.pte (m * PGSIZE) = d.pte (m * PGSIZE) ∧ t.contents d' m = s.contents d m

section Load

variable {s t u v : Vm} {d d' d'' : Pgdir} {content : List UInt8} {k n off sz newsz a : ℕ}
  {ph : Proghdr} {phs : List Proghdr} {E : VmStop → Prop}

/-! ### Bytes and pages -/

theorem byte_place : s.byte (d.place a) =
    s.contents d (a / PGSIZE) ⟨a % PGSIZE, Nat.mod_lt _ (by decide)⟩ := by
  rw [Vm.byte, Pgdir.place, Vm.contents, Pgdir.pte_page]

theorem SameBelow.refl : SameBelow s d sz s d := fun _ _ => ⟨rfl, rfl⟩

theorem SameBelow.trans (h : SameBelow s d sz t d') (h' : SameBelow t d' newsz u d'')
    (hle : sz ≤ newsz) : SameBelow s d sz u d'' := fun m hm => by
  obtain ⟨hpte, hpage⟩ := h m hm
  obtain ⟨hpte', hpage'⟩ := h' m (hm.trans_le hle)
  exact ⟨hpte'.trans hpte, hpage'.trans hpage⟩

theorem SameBelow.byte (h : SameBelow s d sz t d') (ha : a < sz) :
    t.byte (d'.place a) = s.byte (d.place a) := by
  rw [byte_place, byte_place, (h _ ((Nat.div_mul_le_self a PGSIZE).trans_lt ha)).2]

theorem ProcMemory.sameBelow (h : ProcMemory s d sz newsz t d') (hle : sz ≤ newsz) :
    SameBelow s d sz t d' := fun m hm => h.common m hm (hm.trans_le hle)

theorem SegmentLoaded.same (h : SegmentLoaded content s d ph)
    (hsame : ∀ a < ph.vaddr + ph.memsz, t.byte (d'.place a) = s.byte (d.place a)) :
    SegmentLoaded content t d' ph := by
  have hsize := h.size
  refine ⟨hsize, fun i hi => ?_, fun i hlo hhi => ?_⟩
  · rw [hsame _ (by omega)]
    exact h.file i hi
  · rw [hsame _ (by omega)]
    exact h.zero i hlo hhi

theorem SegmentLoaded.below (h : SegmentLoaded content s d ph) (hsame : SameBelow s d sz t d')
    (hend : ph.vaddr + ph.memsz ≤ sz) : SegmentLoaded content t d' ph :=
  h.same fun _ ha => hsame.byte (ha.trans_le hend)

/-! ### The file -/

theorem answer_fileReader (h : off + n ≤ content.length) (hlen : content.length < 2 ^ 32) :
    answer (fileReader content) k off n = some ((content.drop off).take n) := by
  have hwrap : ¬ (off > content.length ∨ uint (off + n) < off) := by
    rw [uint]
    omega
  rw [answer, fileReader, if_neg hwrap, Option.map_some, List.take_take, Nat.min_self]

/-- Everything is read exactly if it is in the file. -/
theorem readResult_fileReader (hlen : content.length < 2 ^ 32) :
    readResult (answer (fileReader content) k off n) = n ↔ off + n ≤ content.length := by
  constructor
  · intro hread
    by_contra hlt
    rw [answer, fileReader] at hread
    split at hread
    · rw [Option.map_none, readResult] at hread
      omega
    · rw [Option.map_some, readResult, List.take_take, Nat.min_self, List.length_take,
        List.length_drop] at hread
      omega
  · intro h
    rw [answer_fileReader h hlen, readResult, List.length_take, List.length_drop]
    omega

theorem headerRead_iff (hlen : content.length < 2 ^ 32) :
    HeaderRead (fileReader content) k off ↔ off + sizeofProghdr ≤ content.length :=
  readResult_fileReader hlen

theorem headerAt_eq (h : off + sizeofProghdr ≤ content.length) (hlen : content.length < 2 ^ 32) :
    headerAt (fileReader content) k off =
      Proghdr.ofBytes ((content.drop off).take sizeofProghdr) := by
  rw [headerAt, answer_fileReader h hlen, readInto]
  simp

/-! ### `loaduvm` -/

/-- What `loaduvm` has stored, from the byte `i` of the segment on. -/
structure LoadsBytes (content : List UInt8) (addr offset sz i : ℕ) (s : Vm) (d : Pgdir) (t : Vm)
    (ok : Bool) : Prop where
  inFile : ok = true → i < sz → offset + sz ≤ content.length
  bytes : ok = true → t.byte =
    storeAt d.place (addr + i) ((content.drop (offset + i)).take (sz - i)) s.byte
  page : ∀ f, (∀ a, addr ≤ a → a < addr + sz → (d.pte a).frame ≠ f) → t.page f = s.page f
  whole : offset + sz ≤ content.length → ok = true

theorem wp_readPage_bytes {f : Frame} {file : Reader} {Q : Option (List UInt8) → Vm → Prop}
    (hok : ∀ t, t.page =
        (s.store f ((s.page f).write 0 ((answer file s.nread off n).getD []))).page →
      Q (answer file s.nread off n) t) :
    wp (readPage file f off n) Q E s := by
  have hnil : (s.store f ((s.page f).write 0 [])).page = s.page := by
    have hsame : (s.page f).write 0 [] = s.page f := by
      funext j
      rw [Page.write, if_neg]
      exact fun h => absurd h.2 (by simp)
    rw [hsame]
    exact Function.update_eq_self f s.page
  have hans : answer file s.nread off n = (file s.nread off n).map (·.take n) := rfl
  rw [hans] at hok
  rw [readPage, wp_bind, readi, wp_bind, wp_get, wp_bind, wp_set, wp_pure]
  cases hr : (file s.nread off n).map (·.take n) with
  | none =>
      rw [hr] at hok
      exact wp_pure.mpr (hok _ hnil.symm)
  | some bs =>
      rw [hr] at hok
      cases bs with
      | nil => exact wp_pure.mpr (hok _ hnil.symm)
      | cons b bs =>
          dsimp only
          rw [wp_bind, wp_get, wp_bind, wp_store]
          exact wp_pure.mpr (hok _ rfl)

/-- The chunk of a round, when the round before it was a full one. -/
theorem LoadsBytes.round {addr offset i : ℕ} {ok : Bool} (hlt : i < sz)
    (hread : offset + i + chunk sz i ≤ content.length)
    (ht : t.byte = storeAt d.place (addr + i) ((content.drop (offset + i)).take (chunk sz i)) s.byte)
    (hpage : ∀ f, (d.pte (addr + i)).frame ≠ f → t.page f = s.page f)
    (h : LoadsBytes content addr offset sz (i + PGSIZE) t d u ok) :
    LoadsBytes content addr offset sz i s d u ok := by
  have hpg : PGSIZE = 4096 := rfl
  refine ⟨fun hok _ => ?_, fun hok => ?_, fun f hf => ?_, h.whole⟩
  · by_cases hmore : i + PGSIZE < sz
    · exact h.inFile hok hmore
    · rw [chunk] at hread
      split at hread <;> omega
  · have hlen : ((content.drop (offset + i)).take (chunk sz i)).length = chunk sz i := by
      rw [List.length_take, List.length_drop]
      omega
    rw [h.bytes hok, ht]
    by_cases hfull : sz - i < PGSIZE
    · have hchunk : chunk sz i = sz - i := if_pos hfull
      rw [hchunk, Nat.sub_eq_zero_of_le (by omega : sz ≤ i + PGSIZE), List.take_zero, storeAt_nil]
    · have hchunk : chunk sz i = PGSIZE := if_neg hfull
      have hsplit : sz - i = PGSIZE + (sz - (i + PGSIZE)) := by omega
      rw [hchunk] at hlen ⊢
      rw [hsplit, List.take_add, storeAt_append, hlen, List.drop_drop, Nat.add_assoc, Nat.add_assoc]
  · rw [h.page f hf, hpage f (hf (addr + i) (by omega) (by omega))]

theorem wp_loaduvmLoop_bytes {addr offset rounds i : ℕ} (hlen : content.length < 2 ^ 32)
    (haddr : addr % PGSIZE = 0) (hend : addr + sz ≤ KERNBASE) (hi : i % PGSIZE = 0)
    (hrounds : rounds = (sz - i + PGSIZE - 1) / PGSIZE) (hoff : i < sz → offset + i < 2 ^ 32) :
    wp (loaduvmLoop d addr (fileReader content) offset sz rounds i)
      (fun ok t => LoadsBytes content addr offset sz i s d t ok) (fun _ => True) s := by
  have hpg : PGSIZE = 4096 := rfl
  rw [KERNBASE] at hend
  induction rounds generalizing i s with
  | zero =>
      have hdone : sz - i = 0 := by
        rw [hpg] at hrounds
        omega
      refine wp_pure.mpr ⟨fun _ hlt => by omega, fun _ => ?_, fun _ _ => rfl, fun _ => rfl⟩
      rw [hdone, List.take_zero, storeAt_nil]
  | succ rounds ih =>
      have hlt : i < sz := by
        rw [hpg] at hrounds
        omega
      have huint : uint ((addr : ℤ) + i) = addr + i := by
        rw [uint]
        omega
      have huoff : uint ((offset : ℤ) + i) = offset + i := by
        have hoff := hoff hlt
        rw [uint]
        omega
      have hchunk : 0 < chunk sz i := by
        rw [chunk]
        split <;> omega
      rw [loaduvmLoop, wp_bind, huint]
      cases hhas : d.hasTable (addr + i) with
      | false =>
          rw [wp_walkpgdir_null hhas]
          exact wp_panic.mpr trivial
      | true =>
          rw [wp_walkpgdir_found hhas]
          change wp (readPage (fileReader content) _ _ (chunk sz i) >>= fun r =>
            if readResult r ≠ chunk sz i then pure false
            else loaduvmLoop d addr (fileReader content) offset sz rounds (i + PGSIZE)) _ _ s
          rw [wp_bind, huoff]
          refine wp_readPage_bytes fun t ht => ?_
          have hpage : ∀ f, (d.pte (addr + i)).frame ≠ f → t.page f = s.page f := fun f hf => by
            rw [ht]
            exact Function.update_of_ne hf.symm _ _
          rw [wp_ite, wp_pure]
          refine ⟨fun hshort => ⟨fun hok => absurd hok (by decide),
            fun hok => absurd hok (by decide),
            fun f hf => hpage f (hf (addr + i) (by omega) (by omega)), fun hin => ?_⟩,
            fun hfull => ?_⟩
          · refine absurd ((readResult_fileReader hlen).mpr ?_) hshort
            rw [chunk]
            split <;> omega
          have hread := (readResult_fileReader hlen).mp (not_not.mp hfull)
          have hmod : (addr + i) % PGSIZE = 0 := by
            rw [hpg] at haddr hi ⊢
            omega
          have hbyte : t.byte = storeAt d.place (addr + i)
              ((content.drop (offset + i)).take (chunk sz i)) s.byte := by
            rw [answer_fileReader hread hlen, Option.getD_some] at ht
            have hstore := byte_store_write (s := s) (d := d) (addr + i)
              ((content.drop (offset + i)).take (chunk sz i)) (by
                rw [hmod, List.length_take, chunk]
                split <;> omega)
            rw [hmod] at hstore
            rw [← hstore]
            funext x
            exact congrFun (congrFun ht x.1) x.2
          refine wp_mono (ih ?_ ?_ fun hmore => ?_)
            (fun ok u h => h.round hlt hread hbyte hpage) fun _ he => he
          · rw [hpg] at hi ⊢
            omega
          · rw [hpg] at hrounds ⊢
            omega
          · have hchunk : chunk sz i = PGSIZE := by
              rw [chunk, if_neg (by omega)]
            omega

/-- Different addresses of a process have different places. -/
theorem Apiece.place_inj (h : Apiece s d sz) {b : ℕ} (ha : a < sz) (hb : b < sz)
    (heq : d.place a = d.place b) : a = b := by
  have hspace := h.space
  have hpage : ∀ x < sz, x / PGSIZE * PGSIZE < sz := fun x hx =>
    (Nat.div_mul_le_self x PGSIZE).trans_lt hx
  have hframe : (d.pte (a / PGSIZE * PGSIZE)).frame = (d.pte (b / PGSIZE * PGSIZE)).frame := by
    rw [Pgdir.pte_page, Pgdir.pte_page]
    exact congrArg Prod.fst heq
  have hdiv := Pgdir.frame_inj h.pages (hspace.page_lt (hpage a ha)) (hspace.page_lt (hpage b hb))
    (hspace.present _ (hpage a ha)) (hspace.present _ (hpage b hb)) hframe
  have hmod : a % PGSIZE = b % PGSIZE := congrArg (fun x : PhysByte => x.2.val) heq
  rw [← Nat.div_add_mod' a PGSIZE, ← Nat.div_add_mod' b PGSIZE, hdiv, hmod]

/-- The page of an address of a process is one of its own. -/
theorem Apiece.frame_mem (h : Apiece s d sz) (ha : a < sz) : (d.pte a).frame ∈ d.held := by
  have hspace := h.space
  have hpage : a / PGSIZE * PGSIZE < sz := (Nat.div_mul_le_self a PGSIZE).trans_lt ha
  rw [← Pgdir.pte_page]
  exact Multiset.mem_add.mpr
    (.inr (Pgdir.frame_mem (hspace.page_lt hpage) (hspace.present _ hpage)))

/-- Stores to the contents of pages take nothing away. -/
theorem Apiece.stores {P : Prop} (h : Apiece s d sz) (hs : Stores P s t) : Apiece t d sz where
  space := h.space
  nodup := by
    rw [hs.free]
    exact h.nodup
  sound := h.sound.mono hs.link (by rw [hs.free])

theorem Inner.of_stores {P : Prop} (hs : Stores P s t)
    (hpage : ∀ f ∉ d.held, t.page f = s.page f) : Inner s d t d :=
  ⟨by rw [hs.free], fun f hf => hpage f fun hmem => hf (Multiset.mem_add.mpr (.inr hmem)), hs.link⟩

theorem LoadsBytes.segmentLoaded (h : LoadsBytes content ph.vaddr ph.off ph.filesz 0 u d v true)
    (hap : Apiece u d sz) (hend : ph.vaddr + ph.memsz ≤ sz) (hsize : ph.filesz ≤ ph.memsz)
    (hzero : ∀ i < ph.memsz, u.byte (d.place (ph.vaddr + i)) = 0) :
    SegmentLoaded content v d ph := by
  have hbytes := h.bytes rfl
  rw [Nat.add_zero, Nat.add_zero, Nat.sub_zero] at hbytes
  have hinj : ∀ i < ph.memsz, ∀ j < ph.memsz, d.place (ph.vaddr + i) = d.place (ph.vaddr + j) →
      i = j := fun i hi j hj heq => by
    have hij := hap.place_inj (by omega) (by omega) heq
    omega
  refine ⟨hsize, fun i hi => ?_, fun i hlo hhi => ?_⟩
  · have hin := h.inFile rfl (by omega)
    have hlen : i < ((content.drop ph.off).take ph.filesz).length := by
      rw [List.length_take, List.length_drop]
      omega
    rw [hbytes, storeAt_place hlen fun j hj heq => ?_]
    · rw [List.getElem_take, List.getElem_drop, List.getElem?_eq_getElem]
    · rw [List.length_take] at hj
      exact hinj j (by omega) i (by omega) heq
  · rw [hbytes, storeAt_of_ne fun j hj heq => ?_]
    · exact hzero i hhi
    · rw [List.length_take] at hj
      have hji := hinj j (by omega) i hhi heq
      omega

/-! ### The program headers -/

/-- What `loadSegments` has done when it succeeds. -/
structure SegmentsLoaded (content : List UInt8) (phs : List Proghdr) (sz : ℕ) (s : Vm) (d : Pgdir)
    (t : Vm) (d' : Pgdir) (r : ℕ) : Prop where
  inner : Inner s d t d'
  below : SameBelow s d sz t d'
  le : sz ≤ r
  bound : r < KERNBASE - 3 * PGSIZE ∨ r = sz
  apiece : Apiece t d' r
  loaded : ∀ ph ∈ phs, SegmentLoaded content t d' ph ∧ ph.vaddr + ph.memsz ≤ r

theorem SegmentsLoaded.cons (h : SegmentsLoaded content phs newsz t d' u d'' k)
    (hinner : Inner s d t d') (hbelow : SameBelow s d sz t d') (hle : sz ≤ newsz)
    (hbound : newsz < KERNBASE - 3 * PGSIZE) (hend : ph.vaddr + ph.memsz ≤ newsz)
    (hloaded : SegmentLoaded content t d' ph) :
    SegmentsLoaded content (ph :: phs) sz s d u d'' k where
  inner := hinner.trans h.inner
  below := hbelow.trans h.below hle
  le := hle.trans h.le
  bound := .inl (h.bound.elim id fun heq => heq ▸ hbound)
  apiece := h.apiece
  loaded := by
    refine List.forall_mem_cons.mpr ⟨⟨hloaded.below h.below hend, hend.trans h.le⟩, h.loaded⟩

/-- A segment is loaded to the pages that `allocuvm` has added. -/
theorem wp_loaduvm_segment {Q : Bool → Vm → Prop} (hlen : content.length < 2 ^ 32)
    (haligned : ph.vaddr % PGSIZE = 0) (hle : sz ≤ ph.vaddr)
    (hend : ph.vaddr + ph.memsz < KERNBASE) (hsize : ph.filesz ≤ ph.memsz) (hoff : ph.off < 2 ^ 32)
    (hap : Apiece u d (ph.vaddr + ph.memsz))
    (hzero : ∀ m, sz ≤ m * PGSIZE → m * PGSIZE < ph.vaddr + ph.memsz →
      u.contents d m = fun _ => 0)
    (hok : ∀ ok t, Inner u d t d → SameBelow u d sz t d → Apiece t d (ph.vaddr + ph.memsz) →
      (ok = true → SegmentLoaded content t d ph) →
      (ph.off + ph.filesz ≤ content.length → ok = true) →
      t.nread = (segmentReads (fileReader content) k ph).2 →
      Stores (segmentLoad (fileReader content) k d.has (ph.vaddr + ph.memsz) ph = .safe ∧
        OwnBelow d (ph.vaddr + ph.memsz) u) u t →
      segmentLoad (fileReader content) k d.has (ph.vaddr + ph.memsz) ph ≠ .fatal →
      ok = (segmentReads (fileReader content) k ph).1 → Q ok t) (hk : u.nread = k + 1) :
    wp (loaduvm d ph.vaddr (fileReader content) ph.off ph.filesz) Q E u := by
  have hpg : PGSIZE = 4096 := rfl
  have hspace := hap.space
  have hpage : ∀ i < ph.memsz, uint ((ph.vaddr : ℤ) + (i : ℕ)) = ph.vaddr + i ∧
      (ph.vaddr + i) / PGSIZE * PGSIZE < ph.vaddr + ph.memsz ∧
        sz ≤ (ph.vaddr + i) / PGSIZE * PGSIZE := fun i hi => by
    rw [KERNBASE] at hend
    rw [hpg] at haligned ⊢
    rw [uint]
    omega
  have hsafe : segmentLoad (fileReader content) k d.has (ph.vaddr + ph.memsz) ph = .safe := by
    rw [segmentLoad, if_neg (not_not.mpr haligned)]
    refine loadFate_safe fun j hj => ?_
    have hj : j * PGSIZE < ph.filesz := by
      rw [segmentPages, hpg] at hj
      rw [hpg]
      omega
    rw [KERNBASE] at hend
    rw [Nat.zero_add, uint]
    omega
  have hstores : wp (loaduvm d ph.vaddr (fileReader content) ph.off ph.filesz)
      (fun ok t => (Stores (segmentLoad (fileReader content) k d.has (ph.vaddr + ph.memsz) ph =
        .safe ∧ OwnBelow d (ph.vaddr + ph.memsz) u) u t ∧
        t.nread = (segmentReads (fileReader content) k ph).2) ∧
        ok = (segmentReads (fileReader content) k ph).1) (fun _ => False) u :=
    wp_loaduvm hk (.inr ⟨hspace.tables, hsafe⟩) fun t ht hread _ => ⟨⟨ht, hread⟩, rfl⟩
  have hbytes : wp (loaduvm d ph.vaddr (fileReader content) ph.off ph.filesz)
      (fun ok t => LoadsBytes content ph.vaddr ph.off ph.filesz 0 u d t ok) (fun _ => True) u := by
    rw [loaduvm, wp_ite, wp_panic]
    refine ⟨fun _ => trivial, fun _ => ?_⟩
    refine wp_loaduvmLoop_bytes hlen haligned (by omega) (Nat.zero_mod _) ?_ fun _ => hoff
    rw [Nat.sub_zero]
  refine wp_mono (wp_and hstores hbytes) ?_ fun _ he => he.1.elim
  rintro ok t ⟨⟨⟨hs, hread⟩, hres⟩, hb⟩
  refine hok ok t (Inner.of_stores hs fun f hf => hb.page f fun a hlo hhi heq => ?_)
    (fun m hm => ⟨rfl, ?_⟩) (hap.stores hs) (fun hok => ?_) hb.whole hread hs
      (by simp [hsafe]) hres
  · exact hf (heq ▸ hap.frame_mem (by omega))
  · have hlast : m * PGSIZE < ph.vaddr + ph.memsz := by omega
    refine hb.page _ fun a hlo hhi heq => ?_
    rw [← Pgdir.pte_page] at heq
    obtain ⟨-, hlt, hge⟩ := hpage (a - ph.vaddr) (by omega)
    rw [Nat.add_sub_cancel' hlo] at hlt hge
    have hma := Pgdir.frame_inj hap.pages (hspace.page_lt hlt) (hspace.page_lt hlast)
      (hspace.present _ hlt) (hspace.present _ hlast) heq
    rw [hma] at hge
    omega
  · subst hok
    refine hb.segmentLoaded hap le_rfl hsize fun i hi => ?_
    obtain ⟨-, hlt, hge⟩ := hpage i hi
    rw [byte_place, hzero _ hge hlt]

theorem segmentEnd_eq (h : ph.vaddr + ph.memsz < KERNBASE) :
    segmentEnd ph = ph.vaddr + ph.memsz := by
  rw [KERNBASE] at h
  rw [segmentEnd, uint]
  omega

theorem uintAt_lt (bs : List UInt8) (o : ℕ) : uintAt bs o < 2 ^ 32 := by
  rw [uintAt]
  have h0 := (bs.getD o 0).toNat_lt
  have h1 := (bs.getD (o + 1) 0).toNat_lt
  have h2 := (bs.getD (o + 2) 0).toNat_lt
  have h3 := (bs.getD (o + 3) 0).toNat_lt
  omega

theorem wp_readi_iff {file : Reader} {Q : Option (List UInt8) → Vm → Prop} :
    wp (readi file off n) Q E s ↔
      Q (answer file s.nread off n) { s with nread := s.nread + 1 } := by
  rw [readi, wp_bind, wp_get, wp_bind, wp_set]
  exact wp_pure

/-- One segment gets its pages and its bytes. The loop goes on with `K`, or it has failed for one of
three reasons. -/
theorem wp_loadSegment {Q : Pgdir × Option ℕ → Vm → Prop}
    {K : Pgdir → ℕ → VmM (Pgdir × Option ℕ)} (hlen : content.length < 2 ^ 32)
    (hap : Apiece s d sz) (haligned : ph.vaddr % PGSIZE = 0) (hle : sz ≤ ph.vaddr)
    (hend : ph.vaddr + ph.memsz < KERNBASE) (hsize : ph.filesz ≤ ph.memsz) (hoff : ph.off < 2 ^ 32)
    (hneed : (allocNeeds d.has sz (ph.vaddr + ph.memsz))[s.granted]? ≠ some .table)
    (hk : s.nread = k + 1)
    (hnext : ∀ u t d', Alloc sz (ph.vaddr + ph.memsz) s d u d' (ph.vaddr + ph.memsz) →
      ph.vaddr + ph.memsz ≠ 0 → Inner s d t d' → SameBelow s d sz t d' →
      Apiece t d' (ph.vaddr + ph.memsz) → SegmentLoaded content t d' ph →
      t.nread = (segmentReads (fileReader content) k ph).2 →
      Stores (segmentLoad (fileReader content) k d'.has (ph.vaddr + ph.memsz) ph = .safe ∧
        OwnBelow d' (ph.vaddr + ph.memsz) u) u t →
      segmentLoad (fileReader content) k d'.has (ph.vaddr + ph.memsz) ph ≠ .fatal →
      (segmentReads (fileReader content) k ph).1 = true →
      wp (K d' (ph.vaddr + ph.memsz)) Q E t)
    (hbad : ∀ t d', Inner s d t d' → (ph.vaddr + ph.memsz = 0 ∨
      content.length < ph.off + ph.filesz ∨
        ∃ u d'', Alloc sz (ph.vaddr + ph.memsz) s d u d'' 0) → Q (d', none) t) :
    wp (do
      let (d, sz) ← allocuvm d sz (uint (ph.vaddr + ph.memsz))
      if sz = 0 then return (d, none)
      else if ← loaduvm d ph.vaddr (fileReader content) ph.off ph.filesz then K d sz
      else return (d, none)) Q E s := by
  have hnew : uint (ph.vaddr + ph.memsz) = ph.vaddr + ph.memsz := segmentEnd_eq hend
  rw [hnew, wp_bind]
  refine wp_allocuvm_memory hap (by omega) hneed
    (fun u d' _ hin hapu hmemory ha => ?_) fun u d' hin ha => ?_
  · dsimp only
    rw [wp_ite, wp_pure]
    refine ⟨fun hzero => hbad u d' hin (.inl hzero), fun hr => ?_⟩
    rw [wp_bind]
    refine wp_loaduvm_segment (k := k) hlen haligned hle hend hsize hoff hapu
      (fun m hlo hhi => hmemory.zero m hlo hhi)
      (fun ok v hv hsame hapv hseg hwhole hvread hstores hfatal hres => ?_) ?_
    · rw [wp_ite, wp_pure]
      refine ⟨fun hloaded => ?_, fun hpart => hbad v d' (hin.trans hv) (.inr (.inl ?_))⟩
      · subst hloaded
        exact hnext u v d' ha hr (hin.trans hv)
          ((hmemory.sameBelow (by omega)).trans hsame le_rfl) hapv (hseg rfl) hvread hstores hfatal
          hres.symm
      · exact Nat.not_le.mp fun hfits => hpart (hwhole hfits)
    · rw [ha.evolves.nread, hk]
  · dsimp only
    rw [wp_ite, wp_pure]
    exact ⟨fun _ => hbad u d' hin (.inr (.inr ⟨u, d', ha⟩)), fun hne => absurd rfl hne⟩

/-- Where nothing can go wrong, the segments are in memory if `loadSegments` succeeds. -/
theorem wp_loadSegments_loaded {Q : Pgdir × Option ℕ → Vm → Prop} (hlen : content.length < 2 ^ 32)
    (hap : Apiece s d sz) (hs : SegmentsSafe (fileReader content) n off s d sz)
    (hsegs : SegmentsOk (loadHeaders content n off) sz)
    (hok : ∀ t d' r, SegmentsLoaded content (loadHeaders content n off) sz s d t d' r →
      (stackNeeds d'.has r)[t.granted]? ≠ some .table →
      ((segmentNeeds (fileReader content) n off d.has sz s.nread)[s.granted]? = none →
        (stackNeeds d'.has r)[t.granted]? = none) → Q (d', some r) t)
    (hbad : ∀ t d', Inner s d t d' →
      ¬ (SegmentsIn content n off ∧
        (segmentNeeds (fileReader content) n off d.has sz s.nread)[s.granted]? = none) →
      Q (d', none) t) :
    wp (loadSegments (fileReader content) n off d sz) Q E s := by
  induction n generalizing off sz s d Q with
  | zero =>
      exact wp_pure.mpr (hok s d sz
        ⟨Inner.refl, SameBelow.refl, le_rfl, .inr rfl, hap, by simp [loadHeaders]⟩ hs.needs id)
  | succ n ih =>
      rw [loadSegments, wp_bind, wp_readi_iff]
      have ht : Stores True s { s with nread := s.nread + 1 } :=
        ⟨rfl, rfl, rfl, rfl, rfl, fun _ => rfl⟩
      have hinner : Inner s d { s with nread := s.nread + 1 } d :=
        Inner.of_stores ht fun _ _ => rfl
      have hsame : SameBelow s d sz { s with nread := s.nread + 1 } d := SameBelow.refl
      have hnread : ({ s with nread := s.nread + 1 } : Vm).nread = s.nread + 1 := rfl
      have hapt := hap.stores ht
      generalize ({ s with nread := s.nread + 1 } : Vm) = t at *
      rw [wp_ite, wp_pure]
      refine ⟨fun h32 => hbad t d hinner fun hall => h32 ?_, fun h32 => ?_⟩
      · exact (headerRead_iff hlen).mpr hall.1.1
      have hread : HeaderRead (fileReader content) s.nread off := not_not.mp h32
      have hfits := (headerRead_iff hlen).mp hread
      rw [loadHeaders, if_pos hfits, ← headerAt_eq (k := s.nread) hfits hlen] at hsegs hok
      rw [SegmentsIn, ← headerAt_eq (k := s.nread) hfits hlen] at hbad
      dsimp only at hsegs hok hbad
      have hheader : Proghdr.ofBytes (readInto [] (answer (fileReader content) s.nread off
        sizeofProghdr)) = headerAt (fileReader content) s.nread off := rfl
      dsimp only
      rw [hheader, wp_ite]
      refine ⟨fun htype => ?_, fun htype => ?_⟩
      · rw [if_neg htype] at hsegs hok
        have hstep : LoadStep _ _ _ _ _ _ sz sz s d t d :=
          loadStep_other (n := n) ht hnread hread htype
        refine ih hapt (hstep.safe hs) hsegs
          (fun u d' r h hneed hnone => hok u d' r ⟨hinner.trans h.inner, hsame.trans h.below le_rfl,
            h.le, h.bound, h.apiece, h.loaded⟩ hneed fun hn => hnone (hstep.progress.none hn))
          fun u d' h hwhy => hbad u d' (hinner.trans h) fun hall =>
            hwhy ⟨hall.1.2.2, hstep.progress.none hall.2⟩
      · rw [if_pos (not_not.mp htype)] at hsegs hok
        rw [wp_ite, wp_pure]
        refine ⟨fun hsize => hbad t d hinner fun hall =>
          absurd (hall.1.2.1 (not_not.mp htype)).1 (Nat.not_le.mpr hsize), fun hsize => ?_⟩
        have hl : IsLoad (fileReader content) s.nread off := ⟨hread, not_not.mp htype, Nat.not_lt.mp hsize⟩
        obtain ⟨haligned, hle, hend, hrest⟩ := hsegs
        have hoff : (headerAt (fileReader content) s.nread off).off < 2 ^ 32 := uintAt_lt _ _
        have hlt := hend.trans_le (Nat.sub_le KERNBASE (3 * PGSIZE))
        have hnew := segmentEnd_eq hlt
        have hneeds := @segmentNeeds_load _ n off sz _ d.has hl
        rw [hnew] at hneeds
        refine wp_loadSegment hlen hapt haligned hle hlt hl.size hoff (fun htable => hs.needs ?_)
          hnread (fun u v d' ha hr hv hsamev hapv hseg hvread hstores hfatal hloaded => ?_)
          fun v d' hv hwhy => hbad v d' (hinner.trans hv) fun hall => ?_
        · rw [hneeds, ← ht.granted,
            List.getElem?_append_left (List.getElem?_eq_some_iff.mp htable).1, htable]
        · have hstep := loadStep_load (n := n) ht hl (by rw [hnew]; exact ha) hr hstores hvread
            hfatal hloaded
          have hnone := hstep.progress.none
          exact ih hapv (hstep.safe hs) hrest (fun x d'' r h hneed' hlast => hok x d'' r
            (h.cons (hinner.trans hv) (hsame.trans hsamev le_rfl) (by omega) hend le_rfl hseg)
            hneed' fun hn => hlast (hnone hn))
            fun x d'' h hwhy => hbad x d'' ((hinner.trans hv).trans h) fun hall =>
              hwhy ⟨hall.1.2.2, hnone hall.2⟩
        · obtain ⟨-, hpos, hbytes⟩ := hall.1.2.1 (not_not.mp htype)
          rcases hwhy with hzero | hshort | ⟨u, d'', ha⟩
          · omega
          · omega
          · have hserved := hall.2
            rw [hneeds, ← ht.granted, List.getElem?_eq_none_iff, List.length_append] at hserved
            have hsize := ha.size (List.getElem?_eq_none_iff.mpr (by omega))
            rw [allocSize, if_neg (by omega), if_neg (by omega)] at hsize
            omega

end Load

end Xv6
