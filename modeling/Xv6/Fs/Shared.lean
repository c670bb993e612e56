import Xv6.Foundation.Run
import Xv6.Fs.Chunks

/-!
# Writers that share a file

Any number of calls of `filewrite` on one open file, each with its own bytes. A call takes a step
when it enters a transaction, when it writes a chunk with the inode locked, and when it leaves the
transaction. The offset is in the file, and is read and advanced with the inode locked, so the
chunks follow each other in the order in which they are written.
-/

namespace Xv6

open Foundation

/-- How far a call of `filewrite` is. -/
inductive WriteAt where
  /-- at the head of the loop, at byte `i` -/
  | loop (i : ℕ)
  /-- behind `begin_op` -/
  | begun (i : ℕ)
  /-- behind `iunlock`, with the result of `writei` -/
  | wrote (i : ℕ) (r : ℤ)
  | done (r : ℤ)

structure Writers (ι : Type) where
  fs : Fs
  place : ι → WriteAt

namespace Writers

variable {ι : Type} [DecidableEq ι]

/-- Size of the chunk at byte `i`. -/
def chunkSize (n : ι → ℕ) (c : ι) (i : ℕ) : ℕ := min (n c - i) Syscall.filewriteMax

/-- The call `c` goes on. It sleeps in `begin_op` as long as the operation may not fit in the log;
nothing where it panics. -/
def step (f : Fin NFILE) (addr : ι → ℕ → UInt8) (n : ι → ℕ) (s : Writers ι) (c : ι) :
    Option (Writers ι) :=
  match s.place c with
  | .loop i =>
      if i < n c then
        if s.fs.log.lh.length + (s.fs.log.outstanding + 1) * MAXOPBLOCKS > LOGSIZE then none
        else some ⟨s.fs.begun, Function.update s.place c (.begun i)⟩
      else some ⟨s.fs, Function.update s.place c (.done (if i = n c then n c else -1))⟩
  | .begun i =>
      match FsM.writeLocked f (window (addr c) i (chunkSize n c i)) s.fs with
      | .ok (r, fs) => some ⟨fs, Function.update s.place c (.wrote i r)⟩
      | .error _ => none
  | .wrote i r =>
      if r < 0 then
        some ⟨s.fs.ended, Function.update s.place c (.done (if i = n c then n c else -1))⟩
      else if r ≠ chunkSize n c i then none
      else some ⟨s.fs.ended, Function.update s.place c (.loop (i + chunkSize n c i))⟩
  | .done _ => none

theorem step_begun {f : Fin NFILE} {addr : ι → ℕ → UInt8} {n : ι → ℕ} {s : Writers ι} {c : ι}
    {i : ℕ} {r : ℤ} {fs : Fs} (hp : s.place c = .begun i)
    (hw : FsM.writeLocked f (window (addr c) i (chunkSize n c i)) s.fs = .ok (r, fs)) :
    step f addr n s c = some ⟨fs, Function.update s.place c (.wrote i r)⟩ := by
  unfold step
  rw [hp]
  simp only [hw]

def written (n : ι → ℕ) (c : ι) : WriteAt → ℕ
  | .loop i => i
  | .begun i => i
  | .wrote i _ => i + chunkSize n c i
  | .done _ => n c

/-- What a call at a place has done. -/
def PlaceOk (n : ι → ℕ) (c : ι) : WriteAt → Prop
  | .loop i => i ≤ n c
  | .begun i => i < n c
  | .wrote i r => i < n c ∧ r = chunkSize n c i
  | .done r => r = n c

/-- The chunks that the call `c` has written, in order. -/
def chunksOf (c : ι) (parts : List (ι × List UInt8)) : List UInt8 :=
  ((parts.filter fun x => x.1 = c).map Prod.snd).flatten

def joined (parts : List (ι × List UInt8)) : List UInt8 := (parts.map Prod.snd).flatten

/-- `parts` has been written to the file, one after the other, from `off` on. -/
structure Inv [Fintype ι] (f : Fin NFILE) (i : Fin NINODE) (addr : ι → ℕ → UInt8) (n : ι → ℕ)
    (bytes : List UInt8) (off : ℕ) (s : Writers ι) (parts : List (ι × List UInt8)) : Prop where
  opened : s.fs.Opened f i
  place : ∀ c, PlaceOk n c (s.place c)
  chunks : ∀ c, chunksOf c parts = window (addr c) 0 (written n c (s.place c))
  small : ∀ x ∈ parts, x.2.length ≤ Syscall.filewriteMax
  length : (joined parts).length = ∑ c, written n c (s.place c)
  contents : (s.fs.inode i).contents s.fs.disk = splice bytes off (joined parts)
  advanced : (s.fs.user.ftable f).off = off + (joined parts).length
  room : (s.fs.inode i).need s.fs.disk (span off (∑ c, n c)) ≤ s.fs.disk.free.length

section Parts

variable {n : ι → ℕ} {c d : ι} {parts : List (ι × List UInt8)} {bs : List UInt8} {p : WriteAt}

omit [DecidableEq ι] in
theorem joined_concat : joined (parts ++ [(c, bs)]) = joined parts ++ bs := by
  rw [joined, List.map_append, List.flatten_append]
  exact congrArg _ (List.append_nil bs)

theorem chunksOf_concat :
    chunksOf d (parts ++ [(c, bs)]) = chunksOf d parts ++ if c = d then bs else [] := by
  rw [chunksOf, List.filter_append, List.map_append, List.flatten_append]
  congr 1
  by_cases hcd : c = d
  · simp [hcd]
  · simp [hcd]

omit [DecidableEq ι] in
theorem PlaceOk.written_le (h : PlaceOk n c p) : written n c p ≤ n c := by
  cases p with
  | loop i => exact h
  | begun i => exact Nat.le_of_lt h
  | wrote i r =>
      have hlt : i < n c := h.1
      change i + min (n c - i) Syscall.filewriteMax ≤ n c
      omega
  | done r => exact Nat.le_refl _

/-- What is written in all when one call goes on. -/
theorem sum_update [Fintype ι] {place : ι → WriteAt} {v : ℕ}
    (h : written n c p = written n c (place c) + v) :
    ∑ d, written n d (Function.update place c p d) = ∑ d, written n d (place d) + v := by
  have hsplit : ∀ g : ι → ℕ, ∑ d, g d = g c + ∑ d ∈ Finset.univ.erase c, g d :=
    fun g => (Finset.add_sum_erase _ g (Finset.mem_univ c)).symm
  have hrest : ∑ d ∈ Finset.univ.erase c, written n d (Function.update place c p d) =
      ∑ d ∈ Finset.univ.erase c, written n d (place d) := by
    refine Finset.sum_congr rfl fun d hd => ?_
    rw [Function.update_of_ne (Finset.ne_of_mem_erase hd)]
  rw [hsplit, hsplit fun d => written n d (place d), hrest, Function.update_self, h]
  omega

end Parts

section Steps

variable [Fintype ι] {f : Fin NFILE} {i : Fin NINODE} {addr : ι → ℕ → UInt8} {n : ι → ℕ}
  {bytes : List UInt8} {off : ℕ} {s t : Writers ι} {parts : List (ι × List UInt8)} {c : ι}
  {p : WriteAt} {k : ℕ}

/-- A call goes on without a write. -/
theorem Inv.move (h : Inv f i addr n bytes off s parts) {fs : Fs} (hopened : fs.Opened f i)
    (hdisk : fs.disk = s.fs.disk) (hinode : fs.inode i = s.fs.inode i)
    (huser : fs.user = s.fs.user) (hp : PlaceOk n c p)
    (hwritten : written n c p = written n c (s.place c)) :
    Inv f i addr n bytes off ⟨fs, Function.update s.place c p⟩ parts where
  opened := hopened
  place := (Function.forall_update_iff _ (PlaceOk n)).mpr ⟨hp, fun d _ => h.place d⟩
  chunks := by
    refine (Function.forall_update_iff _ fun d q =>
      chunksOf d parts = window (addr d) 0 (written n d q)).mpr ⟨?_, fun d _ => h.chunks d⟩
    rw [hwritten]
    exact h.chunks c
  small := h.small
  length := h.length.trans (sum_update (v := 0) hwritten).symm
  contents := by
    rw [hinode, hdisk]
    exact h.contents
  advanced := by
    rw [huser]
    exact h.advanced
  room := by
    rw [hinode, hdisk]
    exact h.room

/-- There is room in the file for the chunk of a call. -/
theorem Inv.fits (h : Inv f i addr n bytes off s parts) (hp : s.place c = .begun k) :
    (joined parts).length + chunkSize n c k ≤ ∑ d, n d := by
  have hk : k < n c := by
    have hplace := h.place c
    rw [hp] at hplace
    exact hplace
  have hsum : ∑ d, written n d (Function.update s.place c (.wrote k 0) d) =
      ∑ d, written n d (s.place d) + chunkSize n c k := by
    refine sum_update ?_
    rw [hp]
    rfl
  rw [h.length, ← hsum]
  refine Finset.sum_le_sum fun d _ => ?_
  by_cases hd : d = c
  · subst hd
    rw [Function.update_self]
    change k + min (n d - k) Syscall.filewriteMax ≤ n d
    omega
  · rw [Function.update_of_ne hd]
    exact (h.place d).written_le

/-- A call writes a chunk. -/
theorem Inv.write (h : Inv f i addr n bytes off s parts) (hlow : off ≤ bytes.length)
    (hmax : off + ∑ d, n d ≤ MAXFILE * BSIZE) (hp : s.place c = .begun k) {r : ℤ} {fs : Fs}
    (hrun : FsM.writeLocked f (window (addr c) k (chunkSize n c k)) s.fs = .ok (r, fs)) :
    Inv f i addr n bytes off ⟨fs, Function.update s.place c (.wrote k r)⟩
      (parts ++ [(c, window (addr c) k (chunkSize n c k))]) := by
  have hk : k < n c := by
    have hplace := h.place c
    rw [hp] at hplace
    exact hplace
  have hfits := h.fits hp
  have hM : MAXFILE * BSIZE = 71680 := rfl
  have hlen : (window (addr c) k (chunkSize n c k)).length = chunkSize n c k := length_window
  have hsmall : chunkSize n c k ≤ Syscall.filewriteMax := Nat.min_le_right _ _
  have hspan : span (off + (joined parts).length) (chunkSize n c k) ⊆ span off (∑ d, n d) :=
    span_subset (Nat.le_add_right _ _) (by omega)
  have hneed : (s.fs.inode i).need s.fs.disk
      (span (off + (joined parts).length) (chunkSize n c k)) ≤ s.fs.disk.free.length :=
    (Dinode.need_le_of_subset nodup_span hspan).trans h.room
  have hgood : ¬ (s.fs.inode i).Refused (off + (joined parts).length)
      (window (addr c) k (chunkSize n c k)).length := by
    have hsize : (s.fs.inode i).size = max bytes.length (off + (joined parts).length) := by
      have hlength : ((s.fs.inode i).contents s.fs.disk).length = (s.fs.inode i).size :=
        Fs.size_eq_length
      rw [← hlength, h.contents, length_splice hlow]
    unfold Dinode.Refused
    rw [hlen, hsize]
    omega
  have hwp : wp (FsM.writeLocked f (window (addr c) k (chunkSize n c k)))
      (fun r t => r = chunkSize n c k ∧ Fs.Wrote f i (off + (joined parts).length)
        (window (addr c) k (chunkSize n c k)) s.fs t) (fun _ => True) s.fs := by
    refine Fs.wp_writeLocked h.opened h.advanced (by omega) (by omega)
      (fun hbad => absurd hbad hgood) fun _ => ⟨by rw [hlen]; exact hneed,
        ⟨.inl trivial, .inl trivial⟩, Finset.Subset.refl _, fun t ht => ⟨by rw [hlen], ht⟩⟩
  obtain ⟨rfl, hwrote⟩ := (wp_of_ok hrun).mp hwp
  have hlt : (s.fs.user.ftable f).off < 2 ^ 32 := by
    rw [h.advanced]
    omega
  have hmaps := hwrote.maps
  rw [hlen] at hmaps
  have hrest := hmaps.need_sub nodup_span nodup_span hspan
  have hwritten : written n c (.wrote k (chunkSize n c k : ℕ)) =
      written n c (s.place c) + chunkSize n c k := by
    rw [hp]
    rfl
  exact {
    opened := hwrote.opened h.opened hlt
    place := (Function.forall_update_iff _ (PlaceOk n)).mpr ⟨⟨hk, rfl⟩, fun d _ => h.place d⟩
    chunks := by
      refine (Function.forall_update_iff _ fun d q => chunksOf d _ =
        window (addr d) 0 (written n d q)).mpr ⟨?_, fun d hd => ?_⟩
      · rw [chunksOf_concat, if_pos rfl, h.chunks c, hwritten, window_add, hp, Nat.zero_add]
        rfl
      · rw [chunksOf_concat, if_neg hd.symm, List.append_nil, h.chunks d]
    small := fun x hx => by
      rcases List.mem_append.mp hx with hx | hx
      · exact h.small x hx
      · rw [List.mem_singleton.mp hx, hlen]
        exact hsmall
    length := by
      rw [joined_concat, List.length_append, hlen, h.length]
      exact (sum_update hwritten).symm
    contents := by
      rw [hwrote.contents, h.contents, joined_concat, splice_append hlow]
    advanced := by
      rw [hwrote.ftable hlt, Function.update_self]
      change ((s.fs.user.ftable f).off + _) % 2 ^ 32 = _
      rw [h.advanced, hlen, joined_concat, List.length_append, hlen, Nat.mod_eq_of_lt (by omega),
        Nat.add_assoc]
    room := by
      have hleft : (s.fs.disk.free.drop ((s.fs.inode i).need s.fs.disk
          (span (off + (joined parts).length) (chunkSize n c k)))).length =
          s.fs.disk.free.length - (s.fs.inode i).need s.fs.disk
            (span (off + (joined parts).length) (chunkSize n c k)) := List.length_drop
      have hroom := h.room
      change (fs.inode i).need fs.disk (span off (∑ d, n d)) ≤ fs.disk.free.length
      rw [hmaps.free]
      omega }

theorem Inv.step (h : Inv f i addr n bytes off s parts) (hlow : off ≤ bytes.length)
    (hmax : off + ∑ d, n d ≤ MAXFILE * BSIZE) (hl : step f addr n s c = some t) :
    ∃ parts', Inv f i addr n bytes off t parts' := by
  have hplace := h.place c
  unfold Writers.step at hl
  cases hp : s.place c with
  | loop k =>
      rw [hp] at hl hplace
      have hk : k ≤ n c := hplace
      simp only at hl
      split at hl
      · split at hl
        · cases hl
        · rw [← Option.some.inj hl]
          refine ⟨parts, h.move h.opened.begun rfl rfl rfl ‹k < n c› ?_⟩
          rw [hp]
          rfl
      · have hdone : k = n c := by omega
        rw [← Option.some.inj hl]
        refine ⟨parts, h.move h.opened rfl rfl rfl (if_pos hdone) ?_⟩
        rw [hp]
        exact hdone.symm
  | begun k =>
      rw [hp] at hl
      simp only at hl
      split at hl
      · rw [← Option.some.inj hl]
        exact ⟨_, h.write hlow hmax hp ‹_›⟩
      · cases hl
  | wrote k r =>
      rw [hp] at hl hplace
      obtain ⟨hk, rfl⟩ := hplace
      simp only at hl
      rw [if_neg (by omega), if_neg (by omega)] at hl
      rw [← Option.some.inj hl]
      refine ⟨parts, h.move h.opened.ended rfl rfl rfl ?_ ?_⟩
      · change k + min (n c - k) Syscall.filewriteMax ≤ n c
        omega
      · rw [hp]
        rfl
  | done r =>
      rw [hp] at hl
      cases hl

end Steps

end Writers

end Xv6
