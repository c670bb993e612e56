import Xv6.Fs.File

/-!
# Sections of `filewrite`

What `filewrite` does between `begin_op` and `end_op`, and the sectors that are logged there.
-/

namespace Xv6

open Foundation

namespace Event

def sector : Event → Option ℕ
  | .logWrite c => some c
  | _ => none

end Event

namespace FsLog

/-- The sectors that have been logged between two states of the log. -/
def since (l l' : FsLog) : Finset ℕ :=
  ((l'.trace.drop l.trace.length).filterMap Event.sector).toFinset

variable {l l' : FsLog} {T : Finset ℕ}

theorem since_eq {es : List Event} (h : l'.trace = l.trace ++ es) :
    l.since l' = (es.filterMap Event.sector).toFinset := by
  rw [since, h, List.drop_left]

theorem Logs.trace (h : Logs l T l') :
    ∃ cs : List ℕ, cs.toFinset = T ∧ l'.trace = l.trace ++ cs.map .logWrite := by
  obtain ⟨cs, hT, rfl⟩ := h
  refine ⟨cs, hT, ?_⟩
  clear hT
  induction cs generalizing l with
  | nil => rw [List.map_nil, List.append_nil]; rfl
  | cons c cs ih =>
      rw [List.foldl_cons, ih, List.map_cons]
      exact List.append_assoc ..

theorem sectors_map (cs : List ℕ) : (cs.map Event.logWrite).filterMap Event.sector = cs := by
  induction cs with
  | nil => rfl
  | cons c cs ih =>
      change c :: (cs.map Event.logWrite).filterMap Event.sector = c :: cs
      rw [ih]

end FsLog

namespace Fs

def begun (s : Fs) : Fs := { s with log := s.log.beginOp }

def ended (s : Fs) : Fs := { s with log := s.log.endOp }

section Section

variable {s t : Fs} {i : Fin NINODE} {f : Fin NFILE} {E : Stop → Prop} {off : ℕ}
  {src : List UInt8} {U T : Finset ℕ}

/-- From `begin_op` to `end_op`. -/
theorem wp_writeChunk {Q : ℤ → Fs → Prop} (h : s.Opened f i)
    (hoff : (s.user.ftable f).off = off) (hlt : off < 2 ^ 32) (hsrc : src.length < 2 ^ 32)
    (hrefused : (s.inode i).Refused off src.length → Q (-1) ((s.begun.locked i).unlocked i).ended)
    (hwritten : ¬ (s.inode i).Refused off src.length →
      (s.inode i).need s.disk (span off src.length) ≤ s.disk.free.length ∧
        (E (.panic .tooBig) ∨ s.Room U) ∧ (s.locked i).writes i off src.length ⊆ U ∧
        ∀ t, Wrote f i off src s.begun t → Q src.length t.ended) :
    wp (FsM.writeChunk f src) Q E s := by
  unfold FsM.writeChunk FsM.beginOp FsM.endOp
  rw [wp_bind, wp_modify, wp_bind]
  change wp (FsM.writeLocked f src) _ E s.begun
  have hbegun : s.begun.Opened f i :=
    ⟨⟨h.ref, h.idle, h.type⟩, h.ok, h.inode, h.writable, h.ip, h.wf, h.notDev⟩
  refine wp_writeLocked (U := U) hbegun hoff hlt hsrc (fun hbad => ?_) fun hgood => ?_
  · rw [wp_bind, wp_modify, wp_pure]
    exact hrefused hbad
  · obtain ⟨hroom, hlog, hU, hQ⟩ := hwritten hgood
    refine ⟨hroom, ⟨.inr (Nat.le_add_left 1 _), hlog⟩, hU, fun t ht => ?_⟩
    rw [wp_bind, wp_modify, wp_pure]
    exact hQ t ht

theorem since_section (h : s.begun.log.Logs T t.log) : s.log.since t.ended.log = T := by
  obtain ⟨cs, rfl, htrace⟩ := h.trace
  have hall : t.ended.log.trace =
      s.log.trace ++ ([Event.beginOp] ++ cs.map .logWrite ++ [.endOp]) := by
    change t.log.trace ++ [.endOp] = _
    rw [htrace]
    change s.log.trace ++ [.beginOp] ++ cs.map .logWrite ++ [.endOp] = _
    rw [List.append_assoc, List.append_assoc, List.append_assoc]
  have hends : [Event.beginOp].filterMap Event.sector = [] ∧
      [Event.endOp].filterMap Event.sector = [] := ⟨rfl, rfl⟩
  rw [FsLog.since_eq hall, List.filterMap_append, List.filterMap_append, FsLog.sectors_map,
    hends.1, hends.2, List.nil_append, List.append_nil]

end Section

end Fs

end Xv6
