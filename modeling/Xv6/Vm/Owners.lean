import Xv6.Vm.System

/-!
# The owner of a page

As long as `exec` gets its page tables and its arguments are short, every physical page has
at most one owner between two calls. An argument of more than 32 MB leads `exec` to a null
pointer instead.
-/

namespace Xv6

open Foundation

/-- Every page is at most once free, in a pipe, in the page directory of the kernel, or a
kernel stack, a page table or a mapped page of a process. -/
def Kernel.OneOwner (w : Kernel) : Prop :=
  ∀ f, w.vm.free.count f + w.pipePages.val.count f + (heldBy w.kpgdir).count f +
    ∑ p, (w.proc p).held.count f ≤ 1

section Runs

variable {w₀ w w' : Kernel} {ls : List KernelStep}

theorem Kernel.Sane.oneOwner (h : w.Sane) : w.OneOwner := fun f => by
  have hcount := Multiset.nodup_iff_count_le_one.mp h.nodup f
  rwa [Kernel.owners, Kernel.procPages, Multiset.count_add, Multiset.count_add,
    Multiset.count_add, Multiset.count_sum'] at hcount

/-- In a run in which `exec` fits, every page has one owner at most: a page is on the free list,
or it is the page directory, a page table, a page of memory or the kernel stack of one process, or
a pipe. The calls are `fork`, `exec`, `sbrk`, `exit`, `wait` and those on files, by any processes;
an `exec` that writes through a page that it does not own is what the condition excludes. -/
theorem one_owner (hboot : w₀.Booted) (hfits : RunMeets Kernel.step ExecFits w₀ ls)
    (hrun : run Kernel.step w₀ ls = some w) : w.OneOwner :=
  (run_invariant_of_meets Kernel.Sane (fun _ _ _ h hl hstep => hl.sane h hstep)
    hboot.boots.sane hfits hrun).oneOwner

/-- The first process forks. -/
theorem one_owner_fork : ∃ w₀ w : Kernel,
    run Kernel.step w₀ [⟨initproc, .fork, [], w₀⟩] = some w ∧ w.OneOwner := by
  obtain ⟨w₀, hboot⟩ := exists_booted
  obtain ⟨w, hstep⟩ : ∃ w, w₀.step ⟨initproc, .fork, [], w₀⟩ = some w :=
    exists_step hboot.boots rfl (by simp)
  have hrun : run Kernel.step w₀ [⟨initproc, .fork, [], w₀⟩] = some w := by
    rw [run_cons, hstep]
    rfl
  have hfork : ExecFits w₀ ⟨initproc, .fork, [], w₀⟩ := fun _ _ _ _ h => by cases h
  have hfits : RunMeets Kernel.step ExecFits w₀ [⟨initproc, .fork, [], w₀⟩] :=
    ⟨hfork, fun _ _ => trivial⟩
  exact ⟨w₀, w, hrun, one_owner hboot hfits hrun⟩

end Runs

/-! ### An argument that is too long -/

def bareElf : Reader := fun _ _ _ => some ([0x7F, 0x45, 0x4C, 0x46] ++ List.replicate 48 0)

section LongArg

variable {s : Vm} {d : Pgdir}

theorem answer_bareElf (k : ℕ) : answer bareElf k 0 sizeofElfhdr =
    some ([0x7F, 0x45, 0x4C, 0x46] ++ List.replicate 48 0) := rfl

@[irreducible] def longArg : List UInt8 := List.replicate 50331648 65

theorem length_longArg : longArg.length = 50331648 := by
  rw [longArg]
  exact List.length_replicate

/-- The argument would lie between the memory of the kernel and the devices. -/
theorem pushed_longArg : pushed (2 * PGSIZE) longArg.length = 4244643836 := by
  rw [length_longArg, pushed, uint, PGSIZE_eq]
  omega

theorem page_longArg : PGROUNDDOWN 4244643836 = 1036289 * PGSIZE := by
  rw [PGROUNDDOWN, PGSIZE_eq]

theorem table_longArg : (PDX (1036289 * PGSIZE)).val = 1012 := by
  rw [PDX_val (by rw [numPages_eq]; norm_num), NPTENTRIES_eq]

/-- The page tables of the program without segments, in the end. -/
def bareHas : Fin NPDENTRIES → Bool := tablesAfter kernelHas 0 2

theorem bareHas_zero : bareHas 0 = true := by decide

theorem bareHas_longArg {i : Fin NPDENTRIES} (hi : i.val = 1012) : bareHas i = false := by
  have hi' : i = 1012 := Fin.ext hi
  subst hi'
  decide

theorem bareNeeds_length : (pageNeeds kernelHas 0 2).length = 3 := by decide

theorem wp_copyout_null {va : ℕ} {buf : List UInt8} {Q : Bool → Vm → Prop} (hbuf : buf ≠ [])
    (h : d.hasTable (PGROUNDDOWN va) = false) :
    wp (VmM.copyout d va buf) Q (· = .nullPtr) s := by
  obtain ⟨b, bs, rfl⟩ := List.exists_cons_of_ne_nil hbuf
  rw [VmM.copyout, List.length_cons, VmM.copyoutLoop, if_neg hbuf, wp_bind, VmM.uva2ka, wp_bind,
    wp_walkpgdir_null h]
  exact wp_throw.mpr rfl

/-- The first argument is pushed to where there is no page table. -/
theorem wp_pushStack_null {arg : List UInt8} {sp : ℕ} {Q : Option ℕ → Vm → Prop}
    (h : d.hasTable (PGROUNDDOWN (pushed sp arg.length)) = false) :
    wp (VmM.pushStack d [arg] sp) Q (· = .nullPtr) s := by
  rw [VmM.pushStack, wp_bind, VmM.pushArgs, if_neg (by decide), wp_bind]
  exact wp_copyout_null (List.append_ne_nil_of_right_ne_nil _ (List.cons_ne_nil _ _)) h

theorem wp_pushStack_longArg {Q : Option ℕ → Vm → Prop} (h : d.has = bareHas) :
    wp (VmM.pushStack d [longArg] (2 * PGSIZE)) Q (· = .nullPtr) s := by
  refine wp_pushStack_null ?_
  rw [pushed_longArg, page_longArg]
  exact (congrFun h _).trans (bareHas_longArg table_longArg)

theorem bareNeeds (hd : d.has = kernelHas) :
    allocNeeds d.has (PGROUNDUP 0) (stackEnd 0) = pageNeeds kernelHas 0 2 := by
  have hz : PGROUNDUP 0 = 0 := by decide
  have he : stackEnd 0 = 8192 := by decide
  rw [hd, hz, he, allocNeeds, if_neg (by decide)]
  rfl

theorem bareHas_eq (hd : d.has = kernelHas) :
    allocHas d.has (PGROUNDUP 0) (stackEnd 0) = bareHas := by
  have hz : PGROUNDUP 0 = 0 := by decide
  have he : stackEnd 0 = 8192 := by decide
  rw [hd, hz, he, allocHas, if_neg (by decide)]
  rfl

theorem bareSize : allocSize (PGROUNDUP 0) (stackEnd 0) = 2 * PGSIZE := by decide

/-- With these page tables the argument is not pushed. -/
theorem wp_buildImage_longArg {elf : Elfhdr} {Q : Pgdir × Option (ℕ × ℕ) → Vm → Prop}
    (helf : elf.phnum = 0) (hspace : Space d 0) (hhas : d.has = kernelHas) (hsound : Sound s d)
    (hroom : 3 ≤ s.granted) :
    wp (VmM.buildImage bareElf elf [longArg] d) Q (· = .nullPtr) s := by
  rw [VmM.buildImage, helf, wp_bind, VmM.loadSegments, wp_pure]
  dsimp only
  rw [wp_bind]
  change wp (VmM.allocuvm d (PGROUNDUP 0) (stackEnd 0)) _ _ s
  refine wp_allocuvm (.inr hspace.roundUp.above_of_lt) (.inr hsound) fun u d₁ r ha => ?_
  have hserved : (allocNeeds d.has (PGROUNDUP 0) (stackEnd 0))[s.granted]? = none := by
    rw [bareNeeds hhas]
    exact List.getElem?_eq_none (bareNeeds_length.le.trans hroom)
  have hr := ha.size hserved
  have hd₁ := ha.has hserved
  rw [bareSize] at hr
  rw [bareHas_eq hhas] at hd₁
  subst hr
  dsimp only
  rw [if_neg (by decide), wp_bind]
  have hzero : uint ((2 * PGSIZE : ℕ) - 2 * PGSIZE) = 0 := by decide
  refine wp_clearpteu (.inr ?_) fun d₂ hg => ?_
  · have htable : d₁.has (PDX 0) = true := by
      rw [hd₁]
      exact bareHas_zero
    exact htable
  · rw [wp_bind]
    exact wp_pushStack_longArg (hg.has.trans hd₁)

/-- `exec` of the program without segments and with the long argument. -/
theorem wp_exec_longArg {path : List UInt8} {old : Pgdir} {Q : Option Image → Vm → Prop}
    (hroom : 68 ≤ s.granted) (hgood : ∀ f ∈ s.free, ¬ BadFrame s.link f) :
    wp (VmM.exec (some bareElf) [] path [longArg] old) Q (· = .nullPtr) s := by
  unfold VmM.exec VmM.begin
  rw [wp_bind, wp_modify]
  dsimp only
  rw [wp_bind]
  refine wp_readi fun t ht _ => ?_
  have hgranted : t.granted = s.granted := ht.granted
  have hfree : t.free = s.free := ht.free
  have hlink : t.link = s.link := ht.link
  rw [answer_bareElf, if_neg (by decide), wp_bind, wp_useHeader]
  have hgranted' : (t.useHeader (some ([0x7F, 0x45, 0x4C, 0x46] ++ List.replicate 48 0))).granted =
      s.granted := hgranted
  have hfree' : (t.useHeader (some ([0x7F, 0x45, 0x4C, 0x46] ++ List.replicate 48 0))).free =
      s.free := hfree
  have hlink' : (t.useHeader (some ([0x7F, 0x45, 0x4C, 0x46] ++ List.replicate 48 0))).link =
      s.link := hlink
  generalize t.useHeader (some ([0x7F, 0x45, 0x4C, 0x46] ++ List.replicate 48 0)) = u at *
  have helf : Elfhdr.ofBytes (readInto [] (some ([0x7F, 0x45, 0x4C, 0x46] ++ List.replicate 48 0))) =
      ⟨ELF_MAGIC, 0, 0, 0⟩ := rfl
  rw [helf, if_neg (by simp), wp_bind]
  refine wp_setupkvm (fun hnone => absurd hnone (by omega)) (fun v hleak _ => ?_) fun v d hnew => ?_
  · obtain ⟨-, hlt, -⟩ := hleak
    rw [kernelTables] at hlt
    omega
  · dsimp only
    rw [wp_bind]
    have hcount := hnew.granted
    rw [kernelTables] at hcount
    refine wp_buildImage_longArg rfl hnew.space hnew.has (fun x hx => ?_) (by omega)
    rw [hnew.inside.link, hlink']
    rw [hnew.acct, hfree'] at hx
    exact hgood x hx

theorem length_pageNeeds (has : Fin NPDENTRIES → Bool) (q k : ℕ) :
    (pageNeeds has q k).length ≤ 2 * k := by
  induction k generalizing has q with
  | zero => exact le_rfl
  | succ k ih =>
      have hrest := ih (addTable has q) (q + 1)
      rw [pageNeeds, List.length_cons]
      split
      · omega
      · rw [List.length_cons]
        omega

theorem pageUp_grown : pageUp (PGSIZE + 67108864) - pageUp PGSIZE = 16384 := by
  rw [pageUp, pageUp, PGSIZE_eq]

theorem uint_grown : uint ((PGSIZE : ℕ) + 67108864) = PGSIZE + 67108864 := by
  rw [uint, PGSIZE_eq]
  omega

/-- The first process gets 64 MB more. -/
theorem exists_grown : ∃ w₀ w₁ : Kernel, w₀.Booted ∧
    w₀.step ⟨initproc, .sbrk 67108864, [], w₀⟩ = some w₁ ∧ w₁.Sane ∧
      (w₁.proc initproc).state = .RUNNABLE ∧ longArg.length < (w₁.proc initproc).sz ∧
        68 ≤ w₁.vm.free.card := by
  obtain ⟨w₀, hboot⟩ := exists_booted
  have hinit := hboot.boots.init
  have halive : (w₀.proc initproc).state ≠ .UNUSED := by
    rw [hinit.1]
    simp
  obtain ⟨d, hd, hspace⟩ := hboot.boots.spaces initproc halive
  have hcall : wp (KernelM.call initproc (.sbrk 67108864)) (fun _ w =>
      (w.proc initproc).state = .RUNNABLE ∧ longArg.length < (w.proc initproc).sz ∧
        68 ≤ w.vm.free.card) (fun _ => False) (w₀.enter []) := by
    rw [KernelM.call, wp_bind]
    refine wp_growproc (hboot.boots.sane.enter []) halive hd (.inr hspace) (by simp)
      fun t d' r h => wp_pure.mpr ?_
    change Resized 67108864 (w₀.proc initproc).sz _ _ _ _ _ at h
    rw [hinit.2] at h
    have hcount : (w₀.enter []).vm.granted = w₀.vm.free.card := granted_of_no_fails rfl
    have hroom := hboot.boots.room
    cases h with
    | same hn => exact absurd hn (by decide)
    | down hn => exact absurd hn (by decide)
    | up _ ha =>
        rw [uint_grown] at ha
        have hlen : (allocNeeds d.has PGSIZE (PGSIZE + 67108864)).length ≤ 32768 := by
          rw [allocNeeds, if_neg (by rw [KERNBASE, PGSIZE_eq]; omega), pageUp_grown]
          exact length_pageNeeds _ _ 16384
        have hserved : (allocNeeds d.has PGSIZE (PGSIZE + 67108864))[(w₀.enter []).vm.granted]? =
            none := List.getElem?_eq_none (by omega)
        have hsize : r = PGSIZE + 67108864 := by
          rw [ha.size hserved, allocSize, if_neg (by rw [KERNBASE, PGSIZE_eq]; omega),
            if_neg (by omega)]
        have hgranted := ha.granted hserved
        rw [granted_of_no_fails (ha.evolves.fails rfl), hcount] at hgranted
        subst hsize
        refine ⟨?_, ?_, ?_⟩
        · rw [proc_setProc_self]
          exact hinit.1
        · rw [proc_setProc_self, if_neg (by rw [PGSIZE_eq]; omega), length_longArg, PGSIZE_eq]
          change 50331648 < 4096 + 67108864
          norm_num
        · change 68 ≤ t.free.card
          omega
  obtain ⟨_, w₁, hok, hrun, hsize, hroom⟩ := hcall.exists_ok
  have hout : w₀.outcome ⟨initproc, .sbrk 67108864, [], w₀⟩ = .ok ((), w₁) := hok
  exact ⟨w₀, w₁, hboot, step_of_ok hinit.1 hout,
    (keeps_of_ok hboot.boots.sane hinit.1 hout).sane hboot.boots.sane, hrun, hsize, hroom⟩

/-- `exec` takes an argument of 48 MB to a null pointer; then a page may be free twice. -/
theorem owner_lost : ∃ w₀ w₁ w : Kernel, w₀.Booted ∧
    run Kernel.step w₀ [⟨initproc, .sbrk 67108864, [], w₀⟩] = some w₁ ∧
      longArg.length < (w₁.proc initproc).sz ∧
        run Kernel.step w₁ [⟨initproc, .exec (some bareElf) [] [] [longArg], [], w⟩] = some w ∧
          ¬ w.OneOwner := by
  obtain ⟨w₀, w₁, hboot, hstep, hw, hrun, hsize, hroom⟩ := exists_grown
  obtain ⟨d, hd, -⟩ := (hw.procs initproc).pgdir (by rw [hrun]; simp)
  have hentered := hw.enter []
  have hd' : ((w₁.enter []).proc initproc).pgdir = some d := hd
  have hcount : (w₁.enter []).vm.granted = w₁.vm.free.card := granted_of_no_fails rfl
  have hcall : wp (KernelM.call initproc (.exec (some bareElf) [] [] [longArg]))
      (fun _ _ => False) (· = .nullPtr) (w₁.enter []) := by
    rw [KernelM.call, wp_bind, KernelM.exec, wp_bind, wp_kernelPgdir hd', wp_bind, wp_onVm]
    exact wp_exec_longArg (hcount ▸ hroom) fun x hx =>
      hentered.usable x (Multiset.mem_add.mpr (.inl hx))
  have hnull : w₁.outcome ⟨initproc, .exec (some bareElf) [] [] [longArg], [], w₁⟩ =
      .error .nullPtr := by
    change KernelM.call initproc (.exec (some bareElf) [] [] [longArg]) (w₁.enter []) = _
    cases hout : KernelM.call initproc (.exec (some bareElf) [] [] [longArg]) (w₁.enter []) with
    | ok r => exact ((wp_of_ok (a := r.1) (t := r.2) hout).mp hcall).elim
    | error e => rw [(wp_of_error hout).mp hcall]
  refine ⟨w₀, w₁, w₁.setVm { w₁.vm with freelist := [0, 0] }, hboot, ?_, hsize, ?_, fun hone => ?_⟩
  · rw [run_cons, hstep]
    rfl
  · have hnull' : w₁.outcome ⟨initproc, .exec (some bareElf) [] [] [longArg], [],
        w₁.setVm { w₁.vm with freelist := [0, 0] }⟩ = .error .nullPtr := hnull
    rw [run_cons, step_of_nullPtr hrun hnull']
    rfl
  · have hcount := hone 0
    have htwo : (w₁.setVm { w₁.vm with freelist := [0, 0] }).vm.free.count 0 = 2 := rfl
    omega

end LongArg

end Xv6
