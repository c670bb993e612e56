import Xv6.Foundation.Fields
import Xv6.Fs.Graph

/-!
# Looking paths up

A path is split at the runs of slashes. `namei` looks its elements up one after the other, from
the root or the current directory on, and `nameiparent` all but the last.
-/

namespace Xv6

open Foundation

/-- The elements of a path, of which `DIRSIZ` bytes count. -/
def elements (path : List UInt8) : List (List UInt8) :=
  (fields (fun c => decide (c = slash)) path).map fun f => f.take DIRSIZ

section Elements

variable {path name rest : List UInt8}

/-- `skipelem` returns the first element, and the path behind it. -/
theorem skipelem_cases (path : List UInt8) : skipelem path = none ∧ elements path = [] ∨
    ∃ name rest, skipelem path = some (name, rest) ∧ elements path = name :: elements rest ∧
      rest.length < path.length ∧ (rest = [] ↔ elements rest = []) := by
  have hdrop : elements (path.dropWhile fun c => decide (c = slash)) = elements path := by
    rw [elements, fields_dropWhile, elements]
  have hlen : (path.dropWhile fun c => decide (c = slash)).length ≤ path.length :=
    (List.dropWhile_suffix _).length_le
  rw [← hdrop, skipelem]
  cases hs : path.dropWhile fun c => decide (c = slash) with
  | nil => exact .inl ⟨rfl, rfl⟩
  | cons a l =>
      have ha : decide (a = slash) = false := by
        have hhead := List.head_dropWhile_not (fun c => decide (c = slash)) (by rw [hs]; simp)
        simpa [hs] using hhead
      have hnot : (fun c => !decide (c = slash)) = fun c => decide (c ≠ slash) := by
        funext c
        exact (decide_not (p := c = slash)).symm
      refine .inr ⟨_, _, rfl, ?_, ?_, ?_⟩
      · have hfirst : fields (fun c => decide (c = slash)) (a :: l) = _ := fields_cons ha
        rw [elements, hfirst, List.map_cons, hnot, elements, fields_dropWhile]
      · rw [hs] at hlen
        rw [List.dropWhile_cons_of_pos (by simpa using ha)]
        have hfirst : (l.dropWhile fun c => decide (c ≠ slash)).length ≤ l.length :=
          (List.dropWhile_suffix _).length_le
        have hsecond := (List.dropWhile_suffix (fun c => decide (c = slash))
          (l := l.dropWhile fun c => decide (c ≠ slash))).length_le
        rw [List.length_cons] at hlen
        omega
      · rw [elements, List.map_eq_nil_iff, fields_eq_nil]
        intro b hb
        have hhead := List.head?_dropWhile_not (fun c => decide (c = slash))
          ((a :: l).dropWhile fun c => decide (c ≠ slash))
        rw [Option.mem_def.mp hb] at hhead
        exact hhead

theorem skipelem_length (h : skipelem path = some (name, rest)) : rest.length < path.length := by
  rcases skipelem_cases path with ⟨hnone, -⟩ | ⟨name', rest', hsome, -, hlt, -⟩
  · rw [hnone] at h
    cases h
  · rw [hsome] at h
    cases h
    exact hlt

def skipelems (path : List UInt8) : List (List UInt8) :=
  match _h : skipelem path with
  | none => []
  | some (name, rest) => name :: skipelems rest
termination_by path.length
decreasing_by exact skipelem_length _h

/-- Iterating `skipelem` splits the path. -/
theorem skipelems_eq (path : List UInt8) : skipelems path = elements path := by
  induction path using skipelems.induct with
  | case1 path hnone =>
      rw [skipelems, hnone]
      rcases skipelem_cases path with ⟨-, hempty⟩ | ⟨name, rest, hsome, -⟩
      · exact hempty.symm
      · rw [hnone] at hsome
        cases hsome
  | case2 path name rest hsome ih =>
      rw [skipelems, hsome]
      rcases skipelem_cases path with ⟨hnone, -⟩ | ⟨name', rest', hsome', hcons, -⟩
      · rw [hnone] at hsome
        cases hsome
      · rw [hsome] at hsome'
        cases hsome'
        rw [hcons, ← ih]

end Elements

namespace Fs

/-- The inode that a list of names leads to. -/
def resolve (s : Fs) (n : ℕ) (names : List (List UInt8)) : Option ℕ := names.foldlM s.lookup n

/-- The directory that all names but the last lead to. -/
def resolveParent (s : Fs) (n : ℕ) (names : List (List UInt8)) : Option ℕ :=
  if names = [] then none
  else (s.resolve n names.dropLast).filter fun d => (s.view d).type = T_DIR

/-- What the loop of `namex` finds. -/
def found (s : Fs) (parent : Bool) (n : ℕ) (names : List (List UInt8)) : Option ℕ :=
  if parent then s.resolveParent n names else s.resolve n names

def start (s : Fs) (p : Fin NPROC) (path : List UInt8) : ℕ :=
  if path.head? = some slash then ROOTINO else (s.icache (s.user.proc p).cwd).inum

/-- The process looks paths up in a graph of directories, while no other process runs. -/
structure Walkable (s : Fs) (p : Fin NPROC) : Prop extends Graph s where
  idle : s.Idle
  root : s.Kept ROOTINO
  cwd : 0 < (s.icache (s.user.proc p).cwd).ref
  here : (s.icache (s.user.proc p).cwd).inum < s.disk.sb.ninodes

/-- No name leads to an inode that is free. -/
structure Alive (s : Fs) (p : Fin NPROC) : Prop where
  entry : ∀ n < s.disk.sb.ninodes, (s.view n).type = T_DIR → ∀ k name m,
    ((s.view n).slots s.disk).slot k = some (name, m) → (s.view m).type ≠ 0
  root : (s.view ROOTINO).type ≠ 0
  here : (s.view (s.icache (s.user.proc p).cwd).inum).type ≠ 0

section Resolve

variable {s t u : Fs} {n m d : ℕ} {name : List UInt8} {names : List (List UInt8)}

theorem resolve_nil : s.resolve n [] = some n := rfl

theorem resolve_cons : s.resolve n (name :: names) = (s.lookup n name).bind (s.resolve · names) :=
  List.foldlM_cons

theorem resolve_append {before after : List (List UInt8)} : s.resolve n (before ++ after) =
    (s.resolve n before).bind (s.resolve · after) := List.foldlM_append

theorem lookup_of_not_dir (h : (s.view n).type ≠ T_DIR) : s.lookup n name = none := if_neg h

theorem lookup_of_dir (h : (s.view n).type = T_DIR) : s.lookup n name =
    (((s.view n).slots s.disk).find (Dirent.key name)).map Prod.snd := if_pos h

/-- The lookup of a name fails when the inode is not a directory or does not have the name. -/
theorem lookup_eq_none : s.lookup n name = none ↔ (s.view n).type ≠ T_DIR ∨
    ((s.view n).slots s.disk).find (Dirent.key name) = none := by
  by_cases h : (s.view n).type = T_DIR
  · rw [lookup_of_dir h, Option.map_eq_none_iff]
    exact ⟨.inr, fun hor => hor.resolve_left (not_not.mpr h)⟩
  · rw [lookup_of_not_dir h]
    exact iff_of_true rfl (.inl h)

/-- Names lead nowhere when one of them is looked up in vain. -/
theorem resolve_eq_none : s.resolve n names = none ↔ ∃ before name after d,
    names = before ++ name :: after ∧ s.resolve n before = some d ∧ s.lookup d name = none := by
  constructor
  · induction names generalizing n with
    | nil => intro h; cases h
    | cons name names ih =>
        intro h
        rw [resolve_cons] at h
        cases hfirst : s.lookup n name with
        | none => exact ⟨[], name, names, n, rfl, resolve_nil, hfirst⟩
        | some m =>
            rw [hfirst] at h
            obtain ⟨before, last, after, d, rfl, hbefore, hlast⟩ := ih h
            refine ⟨name :: before, last, after, d, rfl, ?_, hlast⟩
            rw [resolve_cons, hfirst]
            exact hbefore
  · rintro ⟨before, name, after, d, rfl, hbefore, hname⟩
    rw [resolve_append, hbefore, Option.bind_some, resolve_cons, hname]
    rfl

theorem resolveParent_nil : s.resolveParent n [] = none := if_pos rfl

theorem resolveParent_singleton :
    s.resolveParent n [name] = if (s.view n).type = T_DIR then some n else none := by
  rw [resolveParent, if_neg (List.cons_ne_nil name []), List.dropLast_singleton, resolve_nil,
    Option.filter_some]
  by_cases h : (s.view n).type = T_DIR
  · rw [if_pos h, if_pos (decide_eq_true h)]
  · rw [if_neg h, if_neg (by simpa using h)]

theorem resolveParent_dir (h : s.resolveParent n names = some d) : (s.view d).type = T_DIR := by
  unfold resolveParent at h
  split at h
  · cases h
  · simpa using (Option.filter_eq_some_iff.mp h).2

theorem resolveParent_cons (h : names ≠ []) : s.resolveParent n (name :: names) =
    (s.lookup n name).bind (s.resolveParent · names) := by
  rw [resolveParent, if_neg (List.cons_ne_nil name names), List.dropLast_cons_of_ne_nil h,
    resolve_cons]
  cases s.lookup n name with
  | none => rfl
  | some m => rw [Option.bind_some, Option.bind_some, resolveParent, if_neg h]

/-- The last name is looked up in the directory that the others lead to. -/
theorem resolve_eq_parent (h : names ≠ []) : s.resolve n names =
    (s.resolveParent n names).bind (s.lookup · (names.getLast h)) := by
  have hsplit := List.dropLast_concat_getLast h
  rw [resolveParent, if_neg h]
  conv_lhs => rw [← hsplit, resolve_append]
  cases s.resolve n names.dropLast with
  | none => rfl
  | some d =>
      rw [Option.bind_some, resolve_cons, Option.filter_some]
      by_cases hd : (s.view d).type = T_DIR
      · rw [if_pos (decide_eq_true hd), Option.bind_some]
        cases s.lookup d (names.getLast h) with
        | none => rfl
        | some m => rfl
      · rw [if_neg (by simpa using hd), lookup_of_not_dir hd]
        rfl

/-- One round of the loop. -/
theorem found_cons {parent : Bool} (h : ¬ (parent = true ∧ names = [])) :
    s.found parent n (name :: names) = (s.lookup n name).bind (s.found parent · names) := by
  cases parent with
  | false => exact resolve_cons
  | true => exact resolveParent_cons fun hnil => h ⟨rfl, hnil⟩

theorem found_of_not_dir {parent : Bool} (h : (s.view n).type ≠ T_DIR) :
    s.found parent n (name :: names) = none := by
  by_cases hlast : parent = true ∧ names = []
  · rw [hlast.1, hlast.2]
    have hparent : s.resolveParent n [name] = none := by rw [resolveParent_singleton, if_neg h]
    exact hparent
  · rw [found_cons hlast, lookup_of_not_dir h]
    rfl

end Resolve

section Rules

variable {s t : Fs} {p : Fin NPROC} {i : Fin NINODE} {n : ℕ} {path name : List UInt8}
  {parent : Bool} {E : Stop → Prop}

/-- The loop of `namex` looks up the elements of the path. -/
theorem wp_namexLoop {Q : Option (Fin NINODE × List UInt8) → Fs → Prop} (hs : s.Graph)
    (hidle : s.Idle) (hspare : E (.panic .igetNoInodes) ∨ s.Spare 2)
    (hdead : E (.panic .ilockNoType) ∨ s.Alive p) (fuel : ℕ) (hfuel : path.length < fuel)
    (h : s.Refers t i n) (hk : s.Kept n)
    (htype : E (.panic .ilockNoType) ∨ (s.view n).type ≠ 0)
    (hnone : s.found parent n (elements path) = none → ∀ u, s.Alike u → Q none u)
    (hok : ∀ u j m last, s.found parent n (elements path) = some m → s.Refers u j m →
      s.Kept m → (parent = true → (elements path).getLast? = some last) → Q (some (j, last)) u) :
    wp (FsM.namexLoop parent fuel i path name) Q E t := by
  induction fuel generalizing t i n path name with
  | zero => exact absurd hfuel (Nat.not_lt_zero _)
  | succ fuel ih =>
      unfold FsM.namexLoop
      rcases skipelem_cases path with ⟨hskip, hnil⟩ | ⟨name, rest, hskip, hcons, hlt, hend⟩
      · rw [hskip]
        rw [hnil] at hnone hok
        cases parent with
        | true =>
            rw [if_pos rfl, wp_bind]
            exact h.wp_iput hk fun u hu =>
              wp_pure.mpr (hnone (resolveParent_nil (s := s) (n := n)) u hu)
        | false => exact wp_pure.mpr (hok t i n _ rfl h hk fun hc => by cases hc)
      · rw [hskip]
        rw [hcons] at hnone hok
        change wp (FsM.ilock i >>= fun _ => _) _ _ _
        rw [wp_bind]
        refine h.wp_ilock hk (.inr (h.busy hidle)) htype fun hold => ?_
        have hdip : (t.locked i).dip i = s.view n := dip_locked.trans h.inode
        rw [wp_bind, wp_ip]
        change wp (if ((t.locked i).dip i).type ≠ T_DIR then _ else _) _ _ _
        rw [hdip]
        by_cases hdir : (s.view n).type = T_DIR
        · rw [if_neg (not_not.mpr hdir)]
          by_cases hlast : parent = true ∧ elements rest = []
          · have hparent : s.resolveParent n [name] = some n := by
              rw [resolveParent_singleton, if_pos hdir]
            rw [if_pos ⟨hlast.1, hend.mpr hlast.2⟩, wp_bind]
            rw [hlast.1, hlast.2] at hok
            exact hold.wp_iunlock .refl fun u hu =>
              wp_pure.mpr (hok u i n name hparent hu hk fun _ => rfl)
          · rw [if_neg fun hc => hlast ⟨hc.1, hend.mp hc.2⟩, wp_bind]
            have hfound : s.found parent n (name :: elements rest) =
                (s.lookup n name).bind (s.found parent · (elements rest)) := found_cons hlast
            rw [lookup_of_dir hdir] at hfound
            refine hold.wp_dirlookup hs hdir hspare (fun hmiss => ?_) fun u j k m hslot hu => ?_
            · rw [hmiss] at hfound
              change wp (FsM.iunlockput i >>= fun _ => _) _ _ _
              rw [wp_bind]
              exact hold.wp_iunlockput .refl fun u hu => wp_pure.mpr (hnone hfound u hu)
            · rw [hslot] at hfound
              change s.found parent n (name :: elements rest) = s.found parent m (elements rest)
                at hfound
              rw [hfound] at hnone hok
              have hentry := Slots.slot_of_find hslot
              change wp (FsM.iunlockput i >>= fun _ => _) _ _ _
              rw [wp_bind]
              refine hold.wp_iunlockput_found hu hs.tidy fun v hv => ?_
              refine ih (by omega) hv (hs.entry n hk.inum hdir k _ m hentry)
                (hdead.imp id fun ha => ha.entry n hk.inum hdir k _ m hentry)
                hnone fun w j' m' last hm hw hkw hend => hok w j' m' last hm hw hkw fun hp => ?_
              rw [List.getLast?_cons_of_ne_nil fun hc => hlast ⟨hp, hc⟩]
              exact hend hp
        · rw [if_pos hdir, wp_bind]
          exact hold.wp_iunlockput .refl fun u hu =>
            wp_pure.mpr (hnone (found_of_not_dir hdir) u hu)

/-- The current directory is in the cache. -/
theorem Walkable.names_cwd (h : s.Walkable p) : (s.icache (s.user.proc p).cwd).Names ROOTDEV
    (s.icache (s.user.proc p).cwd).inum := ⟨h.cwd, h.tidy.dev _ h.cwd, rfl⟩

theorem Walkable.start_kept (h : s.Walkable p) : s.Kept (s.start p path) := by
  unfold start
  split
  · exact h.root
  · exact ⟨h.here, fun _ => .inr ⟨_, h.names_cwd⟩⟩

theorem Alive.start (h : s.Alive p) : (s.view (s.start p path)).type ≠ 0 := by
  unfold Fs.start
  split
  · exact h.root
  · exact h.here

/-- The lookup of a path starts with a reference to the root or to the current directory. -/
theorem Walkable.wp_namexStart {Q : Fin NINODE → Fs → Prop} (h : s.Walkable p)
    (hspare : E (.panic .igetNoInodes) ∨ s.Spare 2)
    (hQ : ∀ t i, s.Refers t i (s.start p path) → Q i t) :
    wp (FsM.namexStart p path) Q E s := by
  unfold FsM.namexStart
  unfold start at hQ
  by_cases hslash : path.head? = some slash
  · rw [if_pos hslash] at hQ ⊢
    refine wp_iget_refers h.tidy (hspare.imp id fun hs => ?_) fun i t ht => hQ t i ht
    exact le_trans (by decide) hs
  · rw [if_neg hslash] at hQ ⊢
    rw [wp_bind, wp_get, wp_bind]
    exact wp_idup (wp_pure.mpr (hQ _ _ (dup_refers h.tidy h.names_cwd)))

theorem Walkable.wp_namex {Q : Option (Fin NINODE × List UInt8) → Fs → Prop} (h : s.Walkable p)
    (hspare : E (.panic .igetNoInodes) ∨ s.Spare 2)
    (hdead : E (.panic .ilockNoType) ∨ s.Alive p)
    (hnone : s.found parent (s.start p path) (elements path) = none → ∀ u, s.Alike u → Q none u)
    (hok : ∀ u j m last, s.found parent (s.start p path) (elements path) = some m →
      s.Refers u j m → s.Kept m → (parent = true → (elements path).getLast? = some last) →
        Q (some (j, last)) u) :
    wp (FsM.namex p path parent) Q E s := by
  unfold FsM.namex
  rw [wp_bind]
  exact h.wp_namexStart hspare fun t i ht => wp_namexLoop h.toGraph h.idle hspare hdead _
    (Nat.lt_succ_self _) ht h.start_kept (hdead.imp id fun ha => ha.start) hnone hok

theorem Walkable.wp_namei {Q : Option (Fin NINODE) → Fs → Prop} (h : s.Walkable p)
    (hspare : E (.panic .igetNoInodes) ∨ s.Spare 2)
    (hdead : E (.panic .ilockNoType) ∨ s.Alive p)
    (hnone : s.resolve (s.start p path) (elements path) = none → ∀ u, s.Alike u → Q none u)
    (hok : ∀ u j m, s.resolve (s.start p path) (elements path) = some m → s.Refers u j m →
      s.Kept m → Q (some j) u) : wp (FsM.namei p path) Q E s := by
  unfold FsM.namei
  rw [wp_bind]
  exact h.wp_namex hspare hdead (fun hmiss u hu => wp_pure.mpr (hnone hmiss u hu))
    fun u j m _ hfound hu hk _ => wp_pure.mpr (hok u j m hfound hu hk)

theorem Walkable.wp_nameiparent {Q : Option (Fin NINODE × List UInt8) → Fs → Prop}
    (h : s.Walkable p) (hspare : E (.panic .igetNoInodes) ∨ s.Spare 2)
    (hdead : E (.panic .ilockNoType) ∨ s.Alive p)
    (hnone : s.resolveParent (s.start p path) (elements path) = none →
      ∀ u, s.Alike u → Q none u)
    (hok : ∀ u j d last, s.resolveParent (s.start p path) (elements path) = some d →
      (elements path).getLast? = some last → s.Refers u j d → s.Kept d →
        (s.view d).type = T_DIR → Q (some (j, last)) u) :
    wp (FsM.nameiparent p path) Q E s := by
  unfold FsM.nameiparent
  exact h.wp_namex hspare hdead hnone fun u j d last hfound hu hk hlast =>
    hok u j d last hfound (hlast rfl) hu hk (resolveParent_dir hfound)

end Rules

end Fs

end Xv6
