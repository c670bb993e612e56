import Xv6.Pipe.Protocol

/-!
# A pipe is a lossless stream

The counters of the pipe are the numbers of bytes stored and read so far, modulo `2^32`,
and the ring holds the bytes between them. A step changes none of this, or stores one
byte in a pipe that is not full, or reads one from a pipe that is not empty.
-/

namespace Xv6

namespace Sleepers

open Foundation

variable {s t : Sleepers} {l : Label}

def bytes (s : Sleepers) : List UInt8 := s.stored.map Prod.snd

/-- The ring holds the bytes that are stored and not yet read. -/
structure Fifo (s : Sleepers) : Prop where
  nread : s.pipe.nread.toNat = s.delivered.length % 2 ^ 32
  nwrite : s.pipe.nwrite.toNat = s.bytes.length % 2 ^ 32
  le : s.delivered.length ≤ s.bytes.length
  room : s.bytes.length ≤ s.delivered.length + PIPESIZE
  delivered : s.delivered = s.bytes.take s.delivered.length
  held : ∀ j b, s.delivered.length ≤ j → s.bytes[j]? = some b →
    s.pipe.data (Fin.ofNat PIPESIZE j) = b

/-- The contents of the pipe and the two streams are the same. -/
structure SameBytes (s t : Sleepers) : Prop where
  data : t.pipe.data = s.pipe.data
  nread : t.pipe.nread = s.pipe.nread
  nwrite : t.pipe.nwrite = s.pipe.nwrite
  stored : t.stored = s.stored
  delivered : t.delivered = s.delivered

inductive Bytes (s t : Sleepers) : Prop where
  | same (h : SameBytes s t)
  | store (p : Pid) (addr : List UInt8) (i : ℕ) (b : UInt8)
      (hp : s.status p = .test (.write addr i)) (hb : addr[i]? = some b)
      (hfull : s.pipe.full = false)
      (ht : t = (s.store p b).setStatus p (.test (.write addr (i + 1))))
  | deliver (p : Pid) (n : ℕ) (hempty : s.pipe.empty = false)
      (ht : t = s.deliver.setStatus p (.copy n))

theorem bytes_step (hl : step s l = some t) : Bytes s t := by
  have same : ∀ {t : Sleepers}, t.pipe.data = s.pipe.data → t.pipe.nread = s.pipe.nread →
      t.pipe.nwrite = s.pipe.nwrite → t.stored = s.stored → t.delivered = s.delivered →
      Bytes s t := fun h₁ h₂ h₃ h₄ h₅ => .same ⟨h₁, h₂, h₃, h₄, h₅⟩
  cases step_took hl with
  | test hp hc =>
      rename_i p c
      cases c with
      | write addr i =>
          simp only [Sleepers.test, writeTest]
          split
          · exact same rfl rfl rfl rfl rfl
          · rename_i b hb
            split
            · exact same rfl rfl rfl rfl rfl
            · rename_i hfull
              exact .store p addr i b hp hb (by simpa using hfull) rfl
      | read n =>
          simp only [Sleepers.test]
          split <;> exact same rfl rfl rfl rfl rfl
      | ticks n ticks0 =>
          simp only [Sleepers.test]
          split <;> exact same rfl rfl rfl rfl rfl
      | wait => exact absurd rfl hc
  | testKilled hp =>
      rename_i p c
      cases c <;>
      · simp only [Sleepers.testKilled]
        split <;> exact same rfl rfl rfl rfl rfl
  | copy hp =>
      rename_i p n
      cases n with
      | zero => exact same rfl rfl rfl rfl rfl
      | succ n =>
          simp only [Sleepers.copy]
          split
          · exact same rfl rfl rfl rfl rfl
          · rename_i hempty
            exact .deliver p n (by simpa using hempty) rfl
  | clear hp =>
      rename_i p w
      cases w <;> exact same rfl rfl rfl rfl rfl
  | _ => exact same rfl rfl rfl rfl rfl

theorem fifo_init : Fifo init where
  nread := rfl
  nwrite := rfl
  le := le_refl _
  room := by simp [init, bytes]
  delivered := rfl
  held := by simp [init, bytes]

theorem Fifo.same (h : Fifo s) (hs : SameBytes s t) : Fifo t := by
  have hbytes : t.bytes = s.bytes := by rw [bytes, hs.stored, bytes]
  exact {
    nread := by rw [hs.nread, hs.delivered]; exact h.nread
    nwrite := by rw [hs.nwrite, hbytes]; exact h.nwrite
    le := by rw [hs.delivered, hbytes]; exact h.le
    room := by rw [hs.delivered, hbytes]; exact h.room
    delivered := by rw [hs.delivered, hbytes]; exact h.delivered
    held := by rw [hs.delivered, hbytes, hs.data]; exact h.held }

theorem toNat_succ (x : UInt32) : (x + 1).toNat = (x.toNat + 1) % 2 ^ 32 := by
  rw [UInt32.toNat_add]
  rfl

/-- The pipe is full when `PIPESIZE` bytes are in it, however often the counters have
wrapped. -/
theorem Fifo.full_iff (h : Fifo s) :
    s.pipe.full = true ↔ s.bytes.length = s.delivered.length + PIPESIZE := by
  have hsize : (UInt32.ofNat 512).toNat = 512 := rfl
  have hroom := h.room
  have hle := h.le
  unfold PIPESIZE at hroom
  simp only [Pipe.full, PIPESIZE, decide_eq_true_eq, ← UInt32.toNat_inj, UInt32.toNat_add,
    hsize, h.nread, h.nwrite]
  omega

theorem Fifo.empty_iff (h : Fifo s) :
    s.pipe.empty = true ↔ s.bytes.length = s.delivered.length := by
  have hroom := h.room
  have hle := h.le
  unfold PIPESIZE at hroom
  simp only [Pipe.empty, decide_eq_true_eq, ← UInt32.toNat_inj, h.nread, h.nwrite]
  omega

/-- The index of a counter is that of the number it counts. -/
theorem ofNat_mod (n : ℕ) : Fin.ofNat PIPESIZE (n % 2 ^ 32) = Fin.ofNat PIPESIZE n := by
  ext
  simp only [Fin.ofNat, PIPESIZE]
  omega

theorem Fifo.store (h : Fifo s) {p : Pid} {b : UInt8} (hfull : s.pipe.full = false) :
    Fifo (s.store p b) := by
  have hbytes : (s.store p b).bytes = s.bytes ++ [b] := by simp [Sleepers.store, bytes]
  have hlt : s.bytes.length < s.delivered.length + PIPESIZE := by
    have hne : ¬ s.bytes.length = s.delivered.length + PIPESIZE := by
      rw [← h.full_iff, hfull]
      simp
    exact lt_of_le_of_ne h.room hne
  exact {
    nread := h.nread
    nwrite := by
      rw [hbytes, List.length_append, List.length_singleton]
      change (s.pipe.nwrite + 1).toNat = _
      rw [toNat_succ, h.nwrite]
      omega
    le := by
      rw [hbytes, List.length_append]
      exact Nat.le_add_right_of_le h.le
    room := by
      rw [hbytes, List.length_append, List.length_singleton]
      exact hlt
    delivered := by
      change s.delivered = List.take s.delivered.length (s.store p b).bytes
      rw [hbytes, List.take_append_of_le_length h.le]
      exact h.delivered
    held := by
      intro j c hj hc
      rw [hbytes] at hc
      change Function.update s.pipe.data (Fin.ofNat PIPESIZE s.pipe.nwrite.toNat) b
        (Fin.ofNat PIPESIZE j) = c
      rw [h.nwrite, ofNat_mod]
      rcases Nat.lt_or_ge j s.bytes.length with hlt' | hge
      · -- the byte is not at the place of the new one: the pipe is not full
        have hne : Fin.ofNat PIPESIZE j ≠ Fin.ofNat PIPESIZE s.bytes.length := by
          intro heq
          have hmod := congrArg Fin.val heq
          have hj' : s.delivered.length ≤ j := hj
          simp only [Fin.ofNat, PIPESIZE] at hmod hlt
          omega
        rw [Function.update_of_ne hne]
        rw [List.getElem?_append_left hlt'] at hc
        exact h.held j c hj hc
      · obtain rfl : j = s.bytes.length := by
          have hlen := (List.getElem?_eq_some_iff.mp hc).1
          rw [List.length_append, List.length_singleton] at hlen
          omega
        rw [Function.update_self]
        simpa using hc }

theorem Fifo.deliver (h : Fifo s) (hempty : s.pipe.empty = false) : Fifo s.deliver := by
  have hlt : s.delivered.length < s.bytes.length := by
    have hne : ¬ s.bytes.length = s.delivered.length := by
      rw [← h.empty_iff, hempty]
      simp
    exact lt_of_le_of_ne h.le (Ne.symm hne)
  obtain ⟨b, hb⟩ : ∃ b, s.bytes[s.delivered.length]? = some b :=
    ⟨_, List.getElem?_eq_getElem hlt⟩
  have hnext : s.pipe.next = b := by
    rw [Pipe.next, h.nread, ofNat_mod]
    exact h.held _ b (le_refl _) hb
  have hlen : s.deliver.delivered.length = s.delivered.length + 1 := by simp [Sleepers.deliver]
  exact {
    nread := by
      rw [hlen]
      change (s.pipe.nread + 1).toNat = _
      rw [toNat_succ, h.nread]
      omega
    nwrite := h.nwrite
    le := by rw [hlen]; exact hlt
    room := by
      rw [hlen]
      exact h.room.trans (by omega)
    delivered := by
      change s.delivered ++ [s.pipe.next] = s.bytes.take s.deliver.delivered.length
      rw [hlen, List.take_add_one, ← h.delivered, hb, hnext]
      rfl
    held := by
      intro j c hj hc
      rw [hlen] at hj
      exact h.held j c (by omega) hc }

theorem Fifo.step (h : Fifo s) (hl : Sleepers.step s l = some t) : Fifo t := by
  cases bytes_step hl with
  | same hs => exact h.same hs
  | store p addr i b hp hb hfull ht =>
      subst ht
      exact (h.store hfull).same ⟨rfl, rfl, rfl, rfl, rfl⟩
  | deliver p n hempty ht =>
      subst ht
      exact (h.deliver hempty).same ⟨rfl, rfl, rfl, rfl, rfl⟩

/-! ### The order of each writer -/

/-- The bytes of a call of `pipewrite` by `q`. -/
def Label.writes (q : Pid) : Label → Option (List UInt8)
  | .pipewrite p addr => if p = q then some addr else none
  | _ => none

/-- What a step does to the bytes that `q` has stored and to its call of `pipewrite`. -/
inductive Wrote (s t : Sleepers) (l : Label) (q : Pid) : Prop where
  | call (addr : List UInt8) (hl : l.writes q = some addr) (hs : t.storedBy q = s.storedBy q)
      (hb : t.before q = s.storedBy q) (hc : (t.status q).caller = some (.write addr 0))
  | store (addr : List UInt8) (i : ℕ) (b : UInt8) (hl : l.writes q = none)
      (hb : addr[i]? = some b) (hs : t.storedBy q = s.storedBy q ++ [b])
      (hbef : t.before q = s.before q) (hc : (s.status q).caller = some (.write addr i))
      (hc' : (t.status q).caller = some (.write addr (i + 1)))
  | same (hl : l.writes q = none) (hs : t.storedBy q = s.storedBy q)
      (hb : t.before q = s.before q)
      (hc : ∀ addr i, (t.status q).caller = some (.write addr i) →
        (s.status q).caller = some (.write addr i))

theorem storedBy_store (s : Sleepers) (p q : Pid) (b : UInt8) :
    (s.store p b).storedBy q = if q = p then s.storedBy q ++ [b] else s.storedBy q := by
  by_cases h : q = p
  · simp [Sleepers.store, storedBy, h]
  · simp [Sleepers.store, storedBy, h, Ne.symm h]

@[simp] theorem storedBy_setStatus (s : Sleepers) (p q : Pid) (a : At) :
    (s.setStatus p a).storedBy q = s.storedBy q := rfl

theorem storedBy_congr (h : t.stored = s.stored) (q : Pid) : t.storedBy q = s.storedBy q := by
  rw [storedBy, h, storedBy]

/-- A process that moves and does not enter a `pipewrite` writes nothing. -/
theorem Wrote.move {x : Sleepers} {p : Pid} {a : At} (q : Pid) (hl : l.writes q = none)
    (hst : x.status = s.status) (hs : x.stored = s.stored) (hb : x.before = s.before)
    (hc : ∀ addr i, a.caller = some (.write addr i) →
      (s.status p).caller = some (.write addr i)) : Wrote s (x.setStatus p a) l q := by
  refine .same hl (storedBy_congr hs q) (congrFun hb q) fun addr i h => ?_
  by_cases hq : q = p
  · subst hq
    simp only [setStatus, Function.update_self] at h
    exact hc addr i h
  · simpa only [setStatus, Function.update_of_ne hq, hst] using h

theorem wrote_test {p : Pid} {c : Caller} (hp : s.status p = .test c) (hc : c ≠ .wait) (q : Pid) :
    Wrote s (s.test p c) (.go p) q := by
  cases c with
  | write addr i =>
      simp only [Sleepers.test, writeTest]
      split
      · exact .move q rfl rfl rfl rfl (by simp [At.caller])
      · rename_i b hb
        split
        · exact .move q rfl rfl rfl rfl (by simp [At.caller, hp])
        · by_cases hq : q = p
          · subst hq
            refine .store addr i b rfl hb ?_ rfl (by simp [hp, At.caller])
              (by simp [setStatus, At.caller])
            rw [storedBy_setStatus, storedBy_store, if_pos rfl]
          · refine .same rfl ?_ rfl ?_
            · rw [storedBy_setStatus, storedBy_store, if_neg hq]
            · simp [setStatus, Sleepers.store, Function.update_of_ne hq]
  | read n =>
      simp only [Sleepers.test]
      split <;> exact .move q rfl rfl rfl rfl (by simp [At.caller])
  | ticks n ticks0 =>
      simp only [Sleepers.test]
      split <;> exact .move q rfl rfl rfl rfl (by simp [At.caller])
  | wait => exact absurd rfl hc

theorem wrote_testKilled {p : Pid} {c : Caller} (hp : s.status p = .testKilled c) (q : Pid) :
    Wrote s (s.testKilled p c) (.go p) q := by
  cases c <;>
  · simp only [Sleepers.testKilled]
    split <;> exact .move q rfl rfl rfl rfl (by simp [At.caller, hp])

theorem wrote_copy {p : Pid} {n : ℕ} (q : Pid) : Wrote s (s.copy p n) (.go p) q := by
  cases n with
  | zero => exact .move q rfl rfl rfl rfl (by simp [At.caller])
  | succ n =>
      simp only [Sleepers.copy]
      split <;> exact .move q rfl rfl rfl rfl (by simp [At.caller])

theorem wrote_step (hl : step s l = some t) (q : Pid) : Wrote s t l q := by
  cases step_took hl with
  | pipewrite hp =>
      rename_i p addr
      by_cases hq : p = q
      · subst hq
        exact .call addr (by simp [Label.writes]) rfl (by simp [setStatus])
          (by simp [setStatus, At.caller])
      · refine .same (by simp [Label.writes, hq]) rfl ?_ ?_
        · simp [setStatus, Function.update_of_ne (Ne.symm hq)]
        · simp [setStatus, Function.update_of_ne (Ne.symm hq)]
  | test hp hc => exact wrote_test hp hc q
  | testKilled hp => exact wrote_testKilled hp q
  | copy hp => exact wrote_copy q
  | kill => exact .same rfl rfl rfl fun _ _ h => h
  | tick => exact .same rfl rfl rfl fun _ _ h => h
  | childExit => exact .same rfl rfl rfl fun _ _ h => h
  | _ =>
      rename_i hp
      exact .move q rfl rfl rfl rfl (by simp_all [At.caller])

/-- The bytes of the calls of `pipewrite` by `q`, one list for each call. -/
def writes (q : Pid) (ls : List Label) : List (List UInt8) := ls.filterMap (Label.writes q)

theorem writes_concat (q : Pid) (ls : List Label) (l : Label) :
    writes q (ls ++ [l]) = writes q ls ++ (l.writes q).toList := by
  rw [writes, List.filterMap_append, ← writes]
  cases h : l.writes q <;> simp [h]

/-- `out` is what the calls have stored: a prefix of the bytes of each call, in order. -/
def InOrder (out : List UInt8) (calls : List (List UInt8)) : Prop :=
  ∃ ps : List (List UInt8), out = ps.flatten ∧ List.Forall₂ (· <+: ·) ps calls

theorem InOrder.concat {out : List UInt8} {calls : List (List UInt8)} (h : InOrder out calls)
    {bs addr : List UInt8} (hb : bs <+: addr) : InOrder (out ++ bs) (calls ++ [addr]) := by
  obtain ⟨ps, rfl, hps⟩ := h
  exact ⟨ps ++ [bs], by simp, List.rel_append hps (.cons hb .nil)⟩

/-- Every process has stored its bytes in its own order; inside `pipewrite`, what it stored
before the call, and the first `i` bytes of the call. -/
def Ordered (ls : List Label) (s : Sleepers) : Prop :=
  ∀ q, InOrder (s.storedBy q) (writes q ls) ∧
    ∀ addr i, (s.status q).caller = some (.write addr i) →
      s.storedBy q = s.before q ++ addr.take i ∧
      ∃ calls, writes q ls = calls ++ [addr] ∧ InOrder (s.before q) calls

theorem ordered_init : Ordered [] init :=
  fun q => ⟨⟨[], rfl, .nil⟩, by simp [init, At.caller]⟩

theorem Ordered.step {ls : List Label} (h : Ordered ls s) (hl : Sleepers.step s l = some t) :
    Ordered (ls ++ [l]) t := by
  intro q
  obtain ⟨hin, hcall⟩ := h q
  rw [writes_concat]
  cases wrote_step hl q with
  | call addr hw hs hb hc =>
      rw [hw, hs, hb, Option.toList_some]
      refine ⟨?_, fun addr' i' hc' => ?_⟩
      · simpa using hin.concat (List.nil_prefix : [] <+: addr)
      · obtain ⟨rfl, rfl⟩ : addr = addr' ∧ 0 = i' := by simpa [hc] using hc'
        exact ⟨by simp, _, rfl, hin⟩
  | store addr i b hw hb hs hbef hc hc' =>
      obtain ⟨hst, calls, hcalls, hbefore⟩ := hcall addr i hc
      have htake : t.storedBy q = s.before q ++ addr.take (i + 1) := by
        rw [hs, hst, List.append_assoc, List.take_add_one, hb, Option.toList_some]
      rw [hw, Option.toList_none, List.append_nil, hcalls, htake, hbef]
      refine ⟨hbefore.concat (List.take_prefix _ _), fun addr' i' hc'' => ?_⟩
      obtain ⟨rfl, rfl⟩ : addr = addr' ∧ i + 1 = i' := by simpa [hc'] using hc''
      exact ⟨rfl, calls, rfl, hbefore⟩
  | same hw hs hb hc =>
      rw [hw, hs, hb, Option.toList_none, List.append_nil]
      exact ⟨hin, fun addr i hc' => hcall addr i (hc addr i hc')⟩

def ring (s : Sleepers) : List UInt8 :=
  (List.range (s.pipe.nwrite - s.pipe.nread).toNat).map fun k =>
    s.pipe.data (Fin.ofNat PIPESIZE (s.pipe.nread + UInt32.ofNat k).toNat)

/-- The ring is what is stored and not delivered. -/
theorem Fifo.ring_eq (h : Fifo s) : s.ring = s.bytes.drop s.delivered.length := by
  have hcount : (s.pipe.nwrite - s.pipe.nread).toNat = s.bytes.length - s.delivered.length := by
    have hroom := h.room
    have hle := h.le
    unfold PIPESIZE at hroom
    rw [UInt32.toNat_sub, h.nread, h.nwrite]
    omega
  apply List.ext_getElem?
  intro k
  rw [ring, hcount, List.getElem?_map, List.getElem?_drop]
  rcases Nat.lt_or_ge k (s.bytes.length - s.delivered.length) with hk | hk
  · have hlt : s.delivered.length + k < s.bytes.length := by omega
    have hidx : (s.pipe.nread + UInt32.ofNat k).toNat = (s.delivered.length + k) % 2 ^ 32 := by
      rw [UInt32.toNat_add, h.nread, UInt32.toNat_ofNat']
      omega
    rw [List.getElem?_range hk, List.getElem?_eq_getElem hlt, Option.map_some, hidx, ofNat_mod]
    exact congrArg some (h.held _ _ (Nat.le_add_right _ _) (List.getElem?_eq_getElem hlt))
  · rw [List.getElem?_eq_none (by simpa using hk), List.getElem?_eq_none (by omega),
      Option.map_none]

/-- **A pipe is a lossless stream.** In every interleaving of any number of readers and
writers, however often the counters wrap, the bytes delivered are a prefix of the bytes
stored, the ring holds exactly the bytes between, and each writer's bytes are in its own
order. -/
theorem lossless {ls : List Label} (hrun : run Sleepers.step init ls = some s) :
    s.bytes = s.delivered ++ s.ring ∧ s.ring.length ≤ PIPESIZE ∧
      (∀ j b, s.delivered.length ≤ j → s.bytes[j]? = some b →
        s.pipe.data (Fin.ofNat PIPESIZE j) = b) ∧
      Ordered ls s := by
  have hfifo : Fifo s := run_invariant Fifo (fun _ _ _ h hl => h.step hl) fifo_init hrun
  have hroom := hfifo.room
  refine ⟨?_, ?_, hfifo.held, run_history Ordered ordered_init (fun _ _ _ _ => Ordered.step) hrun⟩
  · have h := List.take_append_drop s.delivered.length s.bytes
    rw [← hfifo.delivered, ← hfifo.ring_eq] at h
    exact h.symm
  · rw [hfifo.ring_eq, List.length_drop]
    omega

/-- Two writers and a reader that comes first and sleeps. -/
def twoWriters : List Label :=
  [.piperead 2 2] ++ List.replicate 6 (.go 2) ++ [.pipewrite 0 [1, 2]] ++
    List.replicate 6 (.go 0) ++ [.pipewrite 1 [3]] ++ List.replicate 5 (.go 1) ++
    List.replicate 4 (.go 2)

theorem lossless_twoWriters :
    ∃ s, run Sleepers.step init twoWriters = some s ∧ s.delivered = [1, 2] ∧
      s.bytes = [1, 2] ++ s.ring := by
  have hrun : (run Sleepers.step init twoWriters).map Sleepers.delivered = some [1, 2] := by
    decide +kernel
  obtain ⟨s, hs, hd⟩ := Option.map_eq_some_iff.mp hrun
  have hbytes := (lossless hs).1
  rw [hd] at hbytes
  exact ⟨s, hs, hd, hbytes⟩

end Sleepers

end Xv6
