import Solcompat.At.Dance

/-!
# The functions of the source among other threads

One specification for each function, by the rules for its system calls, up to the statement
that every call keeps to what it owes the others and makes its operations from the
directories it names.
-/

namespace Solcompat.At

open Lib

variable {Dir Tid : Type} {t : Tid} {call : Call} {initial : Dir}
variable {dirs : ℤ → Option (Option Dir)} {saved : Option ℤ} {away : Option Dir}
variable {names : List (CString × Dir)} {s : World Dir Tid × View Dir}

/-- The path needs no descriptor, or has one of the program. -/
def Admitted (dirs : ℤ → Option (Option Dir)) (dirfd : ℤ) (path : Option CString) : Prop :=
  path.any isAbsolute = true ∨ isAtFdcwd dirfd = true ∨ ∃ dir, dirs dirfd = some dir

theorem Admitted.exists_dir {dirfd : ℤ} {path : Option CString}
    (h : Admitted dirs dirfd path) (habs : path.any isAbsolute = false)
    (hcwd : isAtFdcwd dirfd = false) : ∃ dir, dirs dirfd = some dir := by
  rcases h with h | h | h
  · rw [habs] at h
    cases h
  · rw [hcwd] at h
    cases h
  · exact h

/-- The descriptors of the program, as a call finds them. -/
def World.clients (w : World Dir Tid) (fd : ℤ) : Option (Option Dir) :=
  (w.fds fd).bind fun entry => if entry.owner.isNone then some entry.dir else none

theorem World.exists_clients {w : World Dir Tid} {fd : ℤ} (h : w.isClient fd = true) :
    isAtFdcwd fd = false ∧ ∃ dir, w.clients fd = some dir := by
  rw [World.isClient, Bool.and_eq_true, decide_eq_true_iff] at h
  obtain ⟨entry, hentry, howner⟩ := (Option.any_eq_true _ _).mp h.2
  constructor
  · have hpos := h.1
    unfold isAtFdcwd atFdcwd atFdcwdLinux
    simp only [Bool.or_eq_false_iff, beq_eq_false_iff_ne]
    omega
  · exact ⟨entry.dir, by rw [World.clients, hentry, Option.bind_some, if_pos howner]⟩

theorem World.admits_path {w : World Dir Tid} {call : Call} (h : w.admits call = true) :
    ∀ arg ∈ call.pathArgs, Admitted w.clients arg.1 arg.2 := by
  have hpath : ∀ arg, w.admitsPath arg = true → Admitted w.clients arg.1 arg.2 := by
    intro arg harg
    rw [World.admitsPath, Bool.or_eq_true, Bool.or_eq_true, or_assoc] at harg
    exact harg.imp id (Or.imp id fun hclient => (World.exists_clients hclient).2)
  intro arg hmem
  cases call with
  | fdopendir fd =>
    obtain rfl := List.mem_singleton.mp hmem
    exact .inr (.inr (World.exists_clients h).2)
  | _ => exact hpath arg (List.all_eq_true.mp h arg hmem)

/-- Where `at_enter` leaves the process: in the directory of `dirfd`, or where it was if the
path does not need that. -/
def Entered (dirs : ℤ → Option (Option Dir)) (dirfd : ℤ) (path : Option CString)
    (away : Option Dir) : Prop :=
  if path.any isAbsolute || isAtFdcwd dirfd then away = none
  else ∃ d, away = some d ∧ dirs dirfd = some (some d)

/-- The string for an operation outside `at_enter`: the path, as much of it as fits, or the
name of the directory in front of it. -/
inductive Prepared (dirs : ℤ → Option (Option Dir)) (names : List (CString × Dir)) (dirfd : ℤ)
    (path : CString) : CString → Prop
  | copied {n : ℕ} (h : isAbsolute path = true ∨ isAtFdcwd dirfd = true)
      (hn : n < path.strlen → n = bufSize - 1) :
      Prepared dirs names dirfd path (path.take n)
  | joined {name : CString} {d : Dir} (habs : isAbsolute path = false)
      (hcwd : isAtFdcwd dirfd = false) (hdir : dirs dirfd = some (some d))
      (hname : (name, d) ∈ names) (hsize : name.strlen < bufSize) :
      Prepared dirs names dirfd path (snprintfPath name path)

/-- A path of a call and the string made from it. -/
def Ready (dirs : ℤ → Option (Option Dir)) (names : List (CString × Dir))
    (arg : ℤ × Option CString) (given : Option CString) : Prop :=
  ∃ path full, arg.2 = some path ∧ given = some full ∧ Prepared dirs names arg.1 path full

theorem Prepared.mono {names' : List (CString × Dir)} {dirfd : ℤ} {path full : CString}
    (h : Prepared dirs names dirfd path full) (hsub : names ⊆ names') :
    Prepared dirs names' dirfd path full := by
  cases h with
  | copied h hn => exact .copied h hn
  | joined habs hcwd hdir hname hsize => exact .joined habs hcwd hdir (hsub hname) hsize

theorem Prepared.self {dirfd : ℤ} {path : CString}
    (h : isAbsolute path = true ∨ isAtFdcwd dirfd = true) :
    Prepared dirs names dirfd path path := by
  have hcopy : Prepared dirs names dirfd path (path.take path.strlen) :=
    .copied h fun hlt => absurd hlt (lt_irrefl _)
  rwa [CString.take_strlen] at hcopy

theorem Knows.dirOf {fd : ℤ} {d : Dir} (h : Knows t initial dirs saved away names s)
    (hdir : dirs fd = some (some d)) : s.1.dirOf fd = some d := by
  rw [World.dirOf, h.client fd _ hdir]
  rfl

theorem Prepared.locates {dirfd : ℤ} {path full : CString}
    (h : Prepared dirs names dirfd path full) (hs : Knows t initial dirs saved away names s)
    (hcwd : isAbsolute full = false → s.1.cwd = initial) (hfresh : s.2.Fresh s.1.tree) :
    s.1.Locates initial (dirfd, some path) (some full) := by
  cases h with
  | copied h hn =>
    by_cases habs : isAbsolute path = true
    · exact World.locates_take (d := s.1.tree.root) (by rw [World.base, if_pos habs])
        (fun hrel => absurd habs (by simp [hrel])) hn
    · rw [Bool.not_eq_true] at habs
      have hfd : isAtFdcwd dirfd = true := h.resolve_left (by simp [habs])
      refine World.locates_take (d := initial) ?_ (fun _ => hcwd (isAbsolute_take habs _)) hn
      rw [World.base, habs, hfd]
      rfl
  | joined habs hfd hdir hname hsize =>
    exact World.locates_snprintfPath habs hfd (hs.dirOf hdir)
      (hfresh _ (by rw [hs.got]; exact hname)) hsize

theorem Action.usesCwd_of_mem {op : Op} {path : Option CString} (hmem : path ∈ op.paths)
    (hrel : path.any isAbsolute = false) : (Action.call op).usesCwd = true := by
  rw [Action.usesCwd, List.any_eq_true]
  exact ⟨path, hmem, by rw [hrel]; rfl⟩

theorem Entered.locates {dirfd : ℤ} {path : Option CString}
    (h : Entered dirs dirfd path away) (hs : Knows t initial dirs saved away names s)
    (hcwd : path.any isAbsolute = false → away = none → s.1.cwd = initial) :
    s.1.Locates initial (dirfd, path) path := by
  rcases path with _ | path
  · rfl
  unfold Entered at h
  by_cases habs : isAbsolute path = true
  · exact World.locates_self (d := s.1.tree.root) (by rw [World.base, if_pos habs])
      fun hrel => absurd habs (by simp [hrel])
  rw [Bool.not_eq_true] at habs
  by_cases hfd : isAtFdcwd dirfd = true
  · rw [if_pos (by simp [hfd])] at h
    refine World.locates_self (d := initial) ?_ fun _ => hcwd habs h
    rw [World.base, habs, hfd]
    rfl
  · rw [Bool.not_eq_true] at hfd
    rw [if_neg (by simp [habs, hfd])] at h
    obtain ⟨d, haway, hdir⟩ := h
    refine World.locates_self (d := d) ?_ fun _ => hs.cwd d haway
    rw [World.base_of_relative habs hfd, hs.dirOf hdir]

variable [DecidableEq Dir]

theorem sound_atEnter {dirfd : ℤ} {path : Option CString}
    {post : Except Errno ℤ → World Dir Tid × View Dir → Prop}
    (h : Knows t initial dirs none none names s) (hpath : Admitted dirs dirfd path)
    (herror : ∀ e s', Knows t initial dirs none none names s' → post (.error e) s')
    (hok : ∀ fd away s', 0 ≤ fd → Entered dirs dirfd path away →
      Knows t initial dirs (some fd) away names s' → post (.ok fd) s') :
    (atEnter dirfd path).Sound (surroundings t call initial) post s := by
  unfold atEnter
  rw [Program.sound_bind]
  refine sound_pthreadMutexLock h fun s h => ?_
  rw [Program.sound_bind]
  refine sound_openDot h ?_ ?_
  · intro e s h
    rw [Program.sound_bind]
    exact sound_pthreadMutexUnlock h fun s h => herror e s h
  intro fd s hpos h
  dsimp only
  by_cases habs : path.any isAbsolute = true
  · rw [if_pos habs]
    exact hok fd none s hpos (by simp [Entered, habs]) h
  by_cases hcwd : isAtFdcwd dirfd = true
  · rw [if_neg habs, if_pos hcwd]
    exact hok fd none s hpos (by simp [Entered, hcwd]) h
  obtain ⟨dir, hdir⟩ := hpath.exists_dir (by simpa using habs) (by simpa using hcwd)
  rw [if_neg habs, if_neg hcwd, Program.sound_bind]
  refine sound_fchdir h hdir ?_ ?_
  · intro e s h
    rw [Program.sound_bind]
    refine sound_close h fun s h => ?_
    rw [Program.sound_bind]
    exact sound_pthreadMutexUnlock h fun s h => herror e s h
  · intro d s hd h
    refine hok fd (some d) s hpos ?_ h
    rw [Entered, if_neg (by simp [habs, hcwd])]
    exact ⟨d, rfl, hdir.trans (congrArg some hd)⟩

/-- The way back: `fchdir` to the saved directory, `close`, and what comes behind. -/
theorem sound_goBack {R : Type} {fd : ℤ} {rest : Code R}
    {post : R → World Dir Tid × View Dir → Prop}
    (h : Knows t initial dirs (some fd) away names s)
    (hrest : ∀ s', Knows t initial dirs none none names s' →
      rest.Sound (surroundings t call initial) post s') :
    Program.Sound (surroundings t call initial) post
      (do
        let _ ← fchdir fd
        let _ ← close fd
        rest) s := by
  rw [Program.sound_bind]
  refine sound_fchdir_saved h fun x s h => ?_
  rw [Program.sound_bind]
  exact sound_close h hrest

theorem sound_atLeave {fd : ℤ} {post : Unit → World Dir Tid × View Dir → Prop}
    (h : Knows t initial dirs (some fd) away names s) (hpos : 0 ≤ fd)
    (hpost : ∀ s', Knows t initial dirs none none names s' → post () s') :
    (atLeave fd).Sound (surroundings t call initial) post s := by
  unfold atLeave
  rw [if_pos hpos]
  refine sound_goBack h fun s h => ?_
  exact sound_pthreadMutexUnlock h hpost

theorem sound_resolveDirfdPath {dirfd : ℤ} {dir : Option Dir}
    {post : Except Errno CString → World Dir Tid × View Dir → Prop}
    (h : Knows t initial dirs none none names s) (hfd : dirs dirfd = some dir)
    (herror : ∀ e s', Knows t initial dirs none none names s' → post (.error e) s')
    (hok : ∀ name d s', name.strlen < bufSize → dir = some d →
      Knows t initial dirs none none (names ++ [(name, d)]) s' → post (.ok name) s') :
    (resolveDirfdPath dirfd).Sound (surroundings t call initial) post s := by
  unfold resolveDirfdPath
  rw [Program.sound_bind]
  refine sound_openDot h herror ?_
  intro fd s hpos h
  rw [Program.sound_bind]
  refine sound_fchdir h hfd ?_ ?_
  · intro e s h
    rw [Program.sound_bind]
    exact sound_close h fun s h => herror e s h
  intro d s hd h
  rw [Program.sound_bind]
  refine sound_getcwd h ?_ ?_
  · intro e s h
    exact sound_goBack h fun s h => herror e s h
  · intro name s hsize h
    exact sound_goBack h fun s h => hok name d s hsize hd h

theorem sound_fullPath {dirfd : ℤ} {path : CString}
    {post : Except Errno CString → World Dir Tid × View Dir → Prop}
    (h : Knows t initial dirs none none names s) (hpath : Admitted dirs dirfd (some path))
    (herror : ∀ e s', Knows t initial dirs none none names s' → post (.error e) s')
    (hok : ∀ full names' s', names ⊆ names' → Prepared dirs names' dirfd path full →
      Knows t initial dirs none none names' s' → post (.ok full) s') :
    (fullPath dirfd path).Sound (surroundings t call initial) post s := by
  unfold fullPath
  by_cases hcopy : (isAbsolute path || isAtFdcwd dirfd) = true
  · rw [if_pos hcopy]
    exact hok _ names s (fun _ => id) (.copied (by simpa using hcopy) fun _ => rfl) h
  obtain ⟨habs, hcwd⟩ : isAbsolute path = false ∧ isAtFdcwd dirfd = false := by
    simpa using hcopy
  obtain ⟨dir, hdir⟩ := hpath.exists_dir (by simpa using habs) hcwd
  rw [if_neg hcopy, Program.sound_bind]
  refine sound_resolveDirfdPath h hdir herror ?_
  rintro name d s hsize rfl h
  dsimp only
  rw [Program.sound_bind]
  refine sound_snprintf h fun s h => ?_
  exact hok _ _ s (List.subset_append_left ..)
    (.joined habs hcwd hdir (by simp) hsize) h

/-- The body of the calls with two paths, for any operation on the two strings. -/
theorem sound_onFullPaths {olddirfd newdirfd : ℤ} {oldpath newpath : CString}
    {post : Except Errno ℤ → World Dir Tid × View Dir → Prop}
    {op : CString → CString → Code (Except Errno ℤ)}
    (h : Knows t initial dirs none none names s)
    (hold : Admitted dirs olddirfd (some oldpath)) (hnew : Admitted dirs newdirfd (some newpath))
    (hop : ∀ old new names' s' post', Prepared dirs names' olddirfd oldpath old →
      Prepared dirs names' newdirfd newpath new → Knows t initial dirs none none names' s' →
      (∀ x s', Knows t initial dirs none none names' s' → post' x s') →
      (op old new).Sound (surroundings t call initial) post' s')
    (hpost : ∀ x names' s', Knows t initial dirs none none names' s' → post x s') :
    (onFullPaths olddirfd oldpath newdirfd newpath op).Sound (surroundings t call initial) post
      s := by
  unfold onFullPaths
  rw [Program.sound_bind]
  refine sound_pthreadMutexLock h fun s h => ?_
  rw [Program.sound_bind]
  refine sound_fullPath h hold ?_ ?_
  · intro e s h
    rw [Program.sound_bind]
    exact sound_pthreadMutexUnlock h fun s h => hpost _ _ s h
  intro old names₁ s _ hprepared h
  rw [Program.sound_bind]
  refine sound_fullPath h hnew ?_ ?_
  · intro e s h
    rw [Program.sound_bind]
    exact sound_pthreadMutexUnlock h fun s h => hpost _ _ s h
  intro new names₂ s hsub hprepared' h
  rw [Program.sound_bind]
  refine hop old new names₂ s _ (hprepared.mono hsub) hprepared' h fun x s h => ?_
  rw [Program.sound_bind]
  exact sound_pthreadMutexUnlock h fun s h => hpost _ _ s h

theorem sound_between {dirfd : ℤ} {path : Option CString} {op : Op}
    {post : Except Errno op.Reply → World Dir Tid × View Dir → Prop}
    (h : Knows t initial dirs none none names s) (hpath : Admitted dirs dirfd path)
    (hargs : call.pathArgs = [(dirfd, path)]) (hop : op.paths = [path])
    (hpost : ∀ x s', Knows t initial dirs none none names s' → post x s') :
    (between dirfd path op).Sound (surroundings t call initial) post s := by
  unfold between
  rw [Program.sound_bind]
  refine sound_atEnter h hpath (fun e s h => hpost _ s h) ?_
  intro fd away s hpos hentered h
  rw [Program.sound_bind]
  refine sound_syscall h ?_ ?_
  · intro s h hcwd _
    rw [Operation.Based, hargs, hop]
    refine .cons (hentered.locates h fun hrel haway => hcwd ?_ haway) .nil
    exact Action.usesCwd_of_mem (by simp [hop]) hrel
  · intro x s h
    rw [Program.sound_bind]
    exact sound_atLeave h hpos fun s h => hpost x s h

theorem sound_syscall_prepared {op : Op}
    {post : Except Errno op.Reply → World Dir Tid × View Dir → Prop}
    (h : Knows t initial dirs saved none names s)
    (hop : List.Forall₂ (Ready dirs names) call.pathArgs op.paths)
    (hpost : ∀ x s', Knows t initial dirs saved none names s' → post x s') :
    (syscall op).Sound (surroundings t call initial) post s := by
  refine sound_syscall h ?_ hpost
  intro s h hcwd hfresh
  obtain ⟨hlength, hready⟩ := List.forall₂_iff_get.mp hop
  refine List.forall₂_iff_get.mpr ⟨hlength, fun i hi hi' => ?_⟩
  obtain ⟨path, full, hpath, hfull, hprepared⟩ := hready i hi hi'
  have hlocates := hprepared.locates h ?_ hfresh
  · rw [← hpath, ← hfull] at hlocates
    exact hlocates
  · intro hrel
    refine hcwd (Action.usesCwd_of_mem (List.get_mem op.paths ⟨i, hi'⟩) ?_) rfl
    rw [hfull]
    exact hrel

theorem sound_renameat {olddirfd newdirfd : ℤ} {oldpath newpath : CString}
    {post : Except Errno ℤ → World Dir Tid × View Dir → Prop}
    (h : Knows t initial dirs none none names s)
    (hold : Admitted dirs olddirfd (some oldpath)) (hnew : Admitted dirs newdirfd (some newpath))
    (hargs : call.pathArgs = [(olddirfd, some oldpath), (newdirfd, some newpath)])
    (hpost : ∀ x names' s', Knows t initial dirs none none names' s' → post x s') :
    (renameat olddirfd oldpath newdirfd newpath).Sound (surroundings t call initial) post s := by
  unfold renameat
  by_cases hcwd : (isAtFdcwd olddirfd && isAtFdcwd newdirfd) = true
  · rw [if_pos hcwd]
    rw [Bool.and_eq_true] at hcwd
    refine sound_syscall_prepared h ?_ fun x s h => hpost x names s h
    rw [hargs]
    exact .cons ⟨_, _, rfl, rfl, .self (.inr hcwd.1)⟩
      (.cons ⟨_, _, rfl, rfl, .self (.inr hcwd.2)⟩ .nil)
  · rw [if_neg hcwd]
    refine sound_onFullPaths h hold hnew ?_ hpost
    intro old new names' s' post' hold' hnew' h hpost'
    refine sound_syscall_prepared h ?_ hpost'
    rw [hargs]
    exact .cons ⟨_, _, rfl, rfl, hold'⟩ (.cons ⟨_, _, rfl, rfl, hnew'⟩ .nil)

theorem sound_linkat {olddirfd newdirfd : ℤ} {oldpath newpath : CString} {flags : BitVec 32}
    {post : Except Errno ℤ → World Dir Tid × View Dir → Prop}
    (h : Knows t initial dirs none none names s)
    (hold : Admitted dirs olddirfd (some oldpath)) (hnew : Admitted dirs newdirfd (some newpath))
    (hargs : call.pathArgs = [(olddirfd, some oldpath), (newdirfd, some newpath)])
    (hpost : ∀ x names' s', Knows t initial dirs none none names' s' → post x s') :
    (linkat olddirfd oldpath newdirfd newpath flags).Sound (surroundings t call initial) post
      s := by
  refine sound_onFullPaths h hold hnew ?_ hpost
  intro old new names' s' post' hold' hnew' h hpost'
  refine sound_syscall_prepared h ?_ hpost'
  rw [hargs]
  exact .cons ⟨_, _, rfl, rfl, hold'⟩ (.cons ⟨_, _, rfl, rfl, hnew'⟩ .nil)

theorem sound_utimeFull {dirfd : ℤ} {path full : CString} {times : Option (Timespec × Timespec)}
    {post : Except Errno ℤ → World Dir Tid × View Dir → Prop}
    (h : Knows t initial dirs none none names s) (hargs : call.pathArgs = [(dirfd, some path)])
    (hfull : Prepared dirs names dirfd path full)
    (hpost : ∀ x s', Knows t initial dirs none none names s' → post x s') :
    (utimeFull full times).Sound (surroundings t call initial) post s := by
  have hready : ∀ op : Op, op.paths = [some full] →
      List.Forall₂ (Ready dirs names) call.pathArgs op.paths := by
    intro op hop
    rw [hargs, hop]
    exact .cons ⟨_, _, rfl, rfl, hfull⟩ .nil
  rcases times with _ | ⟨actime, modtime⟩
  · exact sound_syscall_prepared h (hready _ rfl) hpost
  unfold utimeFull
  rw [Program.sound_bind]
  refine sound_timeNow h fun now s h => ?_
  split_ifs
  · rw [Program.sound_bind]
    refine sound_syscall_prepared h (hready _ rfl) fun x s h => ?_
    cases x with
    | error e => exact hpost _ s h
    | ok st => exact sound_syscall_prepared h (hready _ rfl) hpost
  · exact sound_syscall_prepared h (hready _ rfl) hpost

theorem sound_utimensat {dirfd : ℤ} {path : CString} {times : Option (Timespec × Timespec)}
    {flags : BitVec 32} {post : Except Errno ℤ → World Dir Tid × View Dir → Prop}
    (h : Knows t initial dirs none none names s) (hpath : Admitted dirs dirfd (some path))
    (hargs : call.pathArgs = [(dirfd, some path)])
    (hpost : ∀ x names' s', Knows t initial dirs none none names' s' → post x s') :
    (utimensat dirfd path times flags).Sound (surroundings t call initial) post s := by
  unfold utimensat
  by_cases hcopy : (isAbsolute path || isAtFdcwd dirfd) = true
  · rw [if_pos hcopy]
    exact sound_utimeFull h hargs (.copied (by simpa using hcopy) fun _ => rfl)
      fun x s h => hpost x names s h
  obtain ⟨habs, hcwd⟩ : isAbsolute path = false ∧ isAtFdcwd dirfd = false := by
    simpa using hcopy
  obtain ⟨dir, hdir⟩ := hpath.exists_dir (by simpa using habs) hcwd
  rw [if_neg hcopy, Program.sound_bind]
  refine sound_openDot h (fun e s h => hpost _ names s h) ?_
  intro fd s hpos h
  rw [Program.sound_bind]
  refine sound_fchdir h hdir ?_ ?_
  · intro e s h
    rw [Program.sound_bind]
    exact sound_close h fun s h => hpost _ names s h
  rintro d s rfl h
  rw [Program.sound_bind]
  refine sound_getcwd h ?_ ?_
  · intro e s h
    exact sound_goBack h fun s h => hpost _ names s h
  · intro name s hsize h
    refine sound_goBack h fun s h => ?_
    rw [Program.sound_bind]
    refine sound_snprintf h fun s h => ?_
    exact sound_utimeFull h hargs (.joined habs hcwd hdir (by simp) hsize)
      fun x s h => hpost x _ s h

theorem sound_fdopendir {fd : ℤ} {dir : Option Dir}
    {post : Except Errno ℤ → World Dir Tid × View Dir → Prop}
    (h : Knows t initial dirs none none names s) (hdir : dirs fd = some dir)
    (hcwd : isAtFdcwd fd = false) (hargs : call.pathArgs = [(fd, some default)])
    (hpost : ∀ x names' s', Knows t initial dirs none none names' s' → post x s') :
    (fdopendir fd).Sound (surroundings t call initial) post s := by
  unfold fdopendir
  rw [Program.sound_bind]
  refine sound_openDot h (fun e s h => hpost _ names s h) ?_
  intro saved s hpos h
  rw [Program.sound_bind]
  refine sound_fchdir h hdir ?_ ?_
  · intro e s h
    rw [Program.sound_bind]
    exact sound_close h fun s h => hpost _ names s h
  rintro d s rfl h
  rw [Program.sound_bind]
  refine sound_getcwd h ?_ ?_
  · intro e s h
    exact sound_goBack h fun s h => hpost _ names s h
  · intro name s hsize h
    refine sound_goBack h fun s h => ?_
    refine sound_syscall h ?_ fun x s h => hpost x _ s h
    intro s h _ hfresh
    rw [Operation.Based, hargs]
    refine .cons (World.locates_name hcwd (h.dirOf hdir) (hfresh (name, d) ?_)) .nil
    rw [h.got]
    simp

/-- The call has come back and has closed what it opened. -/
def Finished (t : Tid) (s : World Dir Tid × View Dir) : Prop :=
  s.2.away = false ∧ ∀ fd entry, s.1.fds fd = some entry → entry.owner ≠ some t

omit [DecidableEq Dir] in
theorem Knows.finished (h : Knows t initial dirs none none names s) : Finished t s :=
  ⟨h.isAway, fun fd entry hentry howner => absurd (h.own fd entry hentry howner) (by simp)⟩

theorem finished_stable {s₁ s₂ : World Dir Tid × View Dir}
    (hrely : (surroundings t call initial).rely s₁ s₂) (h : Finished t s₁) : Finished t s₂ :=
  ⟨by rw [hrely.1, h.1], fun fd entry hentry howner =>
    h.2 fd entry (hrely.2.own fd entry hentry howner) howner⟩

theorem between_finished {dirfd : ℤ} {path : Option CString} (op : Op)
    (h : Knows t initial dirs none none names s) (hpath : Admitted dirs dirfd path)
    (hargs : call.pathArgs = [(dirfd, path)]) (hop : op.paths = [path]) :
    (between dirfd path op).Sound (surroundings t call initial) (fun _ s' => Finished t s') s :=
  sound_between h hpath hargs hop fun _ _ h => h.finished

theorem sound_returning {α : Type} {reply : α → Reply} {code : Code (Except Errno α)}
    (h : code.Sound (surroundings t call initial) (fun _ s' => Finished t s') s) :
    (returning reply code).Sound (surroundings t call initial) (fun _ s' => Finished t s') s := by
  unfold returning
  rw [Program.sound_bind]
  exact h

/-- Every call keeps to what it owes the others, whatever they do meanwhile. -/
theorem Call.code_sound (h : Knows t initial dirs none none [] s)
    (hpaths : ∀ arg ∈ call.pathArgs, Admitted dirs arg.1 arg.2)
    (hfdopendir : ∀ fd, call = .fdopendir fd → isAtFdcwd fd = false ∧ ∃ dir, dirs fd = some dir) :
    call.code.Sound (surroundings t call initial) (fun _ s' => Finished t s') s := by
  cases call with
  | renameat olddirfd oldpath newdirfd newpath =>
    exact sound_returning (sound_renameat h (hpaths _ (.head _)) (hpaths _ (.tail _ (.head _))) rfl
      fun x names s h => h.finished)
  | linkat olddirfd oldpath newdirfd newpath flags =>
    exact sound_returning (sound_linkat h (hpaths _ (.head _)) (hpaths _ (.tail _ (.head _))) rfl
      fun x names s h => h.finished)
  | utimensat dirfd pathname times flags =>
    exact sound_returning (sound_utimensat h (hpaths _ (.head _)) rfl
      fun x names s h => h.finished)
  | fdopendir fd =>
    obtain ⟨hcwd, dir, hdir⟩ := hfdopendir fd rfl
    exact sound_returning (sound_fdopendir h hdir hcwd rfl fun x names s h => h.finished)
  | unlinkat dirfd pathname flags =>
    apply sound_returning
    unfold At.unlinkat
    split_ifs
    · exact between_finished (.rmdir pathname) h (hpaths _ (.head _)) rfl rfl
    · exact between_finished (.unlink pathname) h (hpaths _ (.head _)) rfl rfl
  | fstatat dirfd pathname flags =>
    apply sound_returning
    unfold At.fstatat
    split_ifs
    · exact between_finished (.lstat pathname) h (hpaths _ (.head _)) rfl rfl
    · exact between_finished (.stat pathname) h (hpaths _ (.head _)) rfl rfl
  | fchownat dirfd pathname owner group flags =>
    apply sound_returning
    unfold At.fchownat
    split_ifs
    · exact between_finished (.lchown pathname owner group) h (hpaths _ (.head _)) rfl rfl
    · exact between_finished (.chown pathname owner group) h (hpaths _ (.head _)) rfl rfl
  | openat dirfd pathname flags mode =>
    apply sound_returning
    exact between_finished (.open pathname flags _) h (hpaths _ (.head _)) rfl rfl
  | mkdirat dirfd pathname mode =>
    apply sound_returning
    exact between_finished (.mkdir pathname mode) h (hpaths _ (.head _)) rfl rfl
  | fchmodat dirfd pathname mode flags =>
    apply sound_returning
    exact between_finished (.chmod pathname mode) h (hpaths _ (.head _)) rfl rfl
  | readlinkat dirfd pathname bufsiz =>
    apply sound_returning
    exact between_finished (.readlink pathname bufsiz) h (hpaths _ (.head _)) rfl rfl
  | symlinkat target newdirfd linkpath =>
    apply sound_returning
    exact between_finished (.symlink target linkpath) h (hpaths _ (.head _)) rfl rfl
  | faccessat dirfd pathname mode flags =>
    apply sound_returning
    exact between_finished (.access pathname mode) h (hpaths _ (.head _)) rfl rfl

end Solcompat.At
