import Xv6.Fs.Opened
import Xv6.User.Shell
import Xv6.Vm.FileCalls

/-!
# Descriptors in the shell and in the kernel

The shell's model has its own `fdalloc`, `dup` and `pipe`, on the list of a process' open
files. Here they are compared with those of the kernel: for any names of the files in
`ftable`, what the kernel does to `proc->ofile` is what the shell's model says, with the
same descriptors. A pipe of the kernel is two files that no descriptor led to before, and
these are given the names of its ends.
-/

namespace Xv6

open Foundation

namespace Shell

variable {files : Fin NFILE → File} {ofile : Fin NOFILE → Option (Fin NFILE)} {f : Fin NFILE}
  {fd : Fin NOFILE}

/-- `proc->ofile` of the kernel as the shell's model has it. -/
def seen (files : Fin NFILE → File) (ofile : Fin NOFILE → Option (Fin NFILE)) :
    List (Option File) :=
  List.ofFn fun fd => (ofile fd).map files

theorem seen_congr {files' : Fin NFILE → File}
    (h : ∀ fd f, ofile fd = some f → files f = files' f) : seen files ofile = seen files' ofile := by
  unfold seen
  congr
  funext fd
  exact Option.map_congr fun f hf => h fd f hf

theorem seen_update : (seen files ofile).set fd ((some f).map files) =
    seen files (Function.update ofile fd (some f)) := by
  refine List.ext_getElem (by simp [seen]) fun i hi hi' => ?_
  rw [List.getElem_set]
  by_cases heq : fd.val = i
  · subst heq
    simp [seen]
  · have hne : (⟨i, by simpa [seen] using hi'⟩ : Fin NOFILE) ≠ fd := fun h => heq (by rw [← h])
    simp [seen, heq, hne]

theorem fdalloc_of_lowest (h : Lowest ofile fd) :
    fdalloc (seen files ofile) (files f) =
      some (fd.val, seen files (Function.update ofile fd (some f))) := by
  have hfind : (seen files ofile).findIdx? (·.isNone) = some fd.val := by
    refine List.findIdx?_eq_some_iff_getElem.mpr
      ⟨by simp [seen], by simp [seen, h.free], fun j hj => ?_⟩
    have hused := h.least ⟨j, hj.trans fd.isLt⟩ hj
    simpa [seen] using hused
  rw [fdalloc, hfind, ← seen_update]
  rfl

theorem fdalloc_of_full (h : ∀ fd, ofile fd ≠ none) (x : File) :
    fdalloc (seen files ofile) x = none := by
  rw [fdalloc, Option.map_eq_none_iff, List.findIdx?_eq_none_iff]
  intro y hy
  obtain ⟨fd, rfl⟩ := List.mem_ofFn.mp hy
  rw [Option.isNone_map, Option.isNone_eq_false_iff, Option.isSome_iff_ne_none]
  exact h fd

/-- `fdalloc` of the kernel is that of the shell's model. -/
theorem fdalloc_kernel {p : Slot} {w w' : Kernel} {r : Option (Fin NOFILE)}
    (h : KernelM.fdalloc p f w = .ok (r, w')) :
    fdalloc (seen files (w.proc p).ofile) (files f) =
      r.map fun fd => (fd.val, seen files (w'.proc p).ofile) := by
  have hw : wp (KernelM.fdalloc p f) (fun r w' => fdalloc (seen files (w.proc p).ofile) (files f) =
      r.map fun fd => (fd.val, seen files (w'.proc p).ofile)) (fun _ => True) w := by
    refine wp_fdalloc (fun hfull => fdalloc_of_full hfull _) fun fd hfd => ?_
    rw [fdalloc_of_lowest hfd]
    simp [Kernel.setProc]
  exact (wp_of_ok h).mp hw

/-- So is `fdalloc` of the calls on files. -/
theorem fdalloc_fs {p : Fin NPROC} {s s' : Fs} {r : Option (Fin NOFILE)}
    (h : FsM.fdalloc p f s = .ok (r, s')) :
    fdalloc (seen files (s.user.proc p).ofile) (files f) =
      r.map fun fd => (fd.val, seen files (s'.user.proc p).ofile) := by
  have hw : wp (FsM.fdalloc p f) (fun r s' =>
      fdalloc (seen files (s.user.proc p).ofile) (files f) =
        r.map fun fd => (fd.val, seen files (s'.user.proc p).ofile)) (fun _ => True) s := by
    refine Fs.wp_fdalloc (fun hfull => fdalloc_of_full hfull _) fun fd hfd => ?_
    rw [fdalloc_of_lowest hfd]
    simp [Fs.setProc]
  exact (wp_of_ok h).mp hw

section Calls

variable {p : Slot} {w w' : Kernel}

/-- `sys_dup` answers as the shell's model does and leaves the descriptors that it says; a
call that fails leaves them as they are. -/
theorem sys_dup_kernel {r : Option (Fin NOFILE)} (hw : Files w 0)
    (h : KernelM.sys_dup p fd w = .ok (r, w')) :
    sys_dup (seen files (w.proc p).ofile) fd =
        (r.map fun fd' => (fd'.val, seen files (w'.proc p).ofile)) ∧
      (r = none → seen files (w'.proc p).ofile = seen files (w.proc p).ofile) := by
  have hdups : wp (KernelM.sys_dup p fd) (fun r w' => Dups p fd w r w') (fun _ => True) w :=
    wp_sys_dup hw fun _ _ _ _ h => h
  have hget : (seen files (w.proc p).ofile)[fd.val]?.join = ((w.proc p).ofile fd).map files := by
    simp [seen]
  have hdup := (wp_of_ok h).mp hdups
  rw [sys_dup, hget]
  cases r with
  | none =>
      obtain ⟨hfull, hsame⟩ := hdup
      rw [hsame]
      refine ⟨?_, fun _ => rfl⟩
      obtain hno | hfull := hfull
      · rw [hno]
        rfl
      · cases (w.proc p).ofile fd with
        | none => rfl
        | some f => exact fdalloc_of_full hfull _
  | some fd' =>
      obtain ⟨hopen, hlow, hset⟩ := hdup
      refine ⟨?_, nofun⟩
      obtain ⟨f, hf⟩ := Option.ne_none_iff_exists'.mp hopen
      rw [hset, hf]
      exact fdalloc_of_lowest hlow

/-- A `sys_pipe` that succeeds gives the descriptors of the shell's model, if the two new
files are named as the ends of its pipe; no other process sees them. -/
theorem sys_pipe_kernel {r : Option (Fin NOFILE × Fin NOFILE)} (hw : Files w 0)
    (husable : w.Usable) (hdisj : ∀ x ∈ w.vm.free, x ∉ w.pipePages) (k : ℕ)
    (h : KernelM.sys_pipe p w = .ok (r, w')) :
    match r with
    | none => seen files (w'.proc p).ofile = seen files (w.proc p).ofile
    | some (fd0, fd1) => ∃ files' : Fin NFILE → File,
        (∀ q, seen files' (w.proc q).ofile = seen files (w.proc q).ofile) ∧
        sys_pipe (seen files (w.proc p).ofile) k =
          some (fd0.val, fd1.val, seen files' (w'.proc p).ofile) := by
  have hopens : wp (KernelM.sys_pipe p) (fun r w' => OpensPipe p w r w') (fun _ => True) w :=
    wp_sys_pipe hw husable hdisj fun _ _ _ _ h => h
  have hpipe := (wp_of_ok h).mp hopens
  cases r with
  | none => exact congrArg (seen files) hpipe
  | some r =>
      obtain ⟨fd0, fd1⟩ := r
      obtain ⟨rf, wf, hne, hrf, hwf, hfd0, hfd1, hset⟩ := hpipe
      let files' := Function.update (Function.update files rf (.read k)) wf (.write k)
      have hread : files' rf = .read k := by
        simp only [files', Function.update_of_ne hne, Function.update_self]
      have hwrite : files' wf = .write k := by
        simp only [files', Function.update_self]
      have hold : ∀ q, seen files' (w.proc q).ofile = seen files (w.proc q).ofile := fun q => by
        refine seen_congr fun fd f hf => ?_
        have hf₀ : f ≠ rf := fun heq => hrf (q, fd) (heq ▸ hf)
        have hf₁ : f ≠ wf := fun heq => hwf (q, fd) (heq ▸ hf)
        simp only [files', Function.update_of_ne hf₁, Function.update_of_ne hf₀]
      refine ⟨files', hold, ?_⟩
      have h0 : fdalloc (seen files' (w.proc p).ofile) (files' rf) = _ := fdalloc_of_lowest hfd0
      have h1 : fdalloc (seen files' _) (files' wf) = _ := fdalloc_of_lowest hfd1
      rw [hread] at h0
      rw [hwrite] at h1
      rw [← hold p, sys_pipe, h0, hset]
      simp only [Option.bind_some, h1, Option.map_some]

end Calls

end Shell

end Xv6
