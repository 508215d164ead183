import Solcompat.At.Model

/-!
# The names that are handed over

`renameat`, `linkat` and `utimensat` copy a path, or the name of a directory and the path, into a
buffer of 1024 bytes and hand the buffer to the system call. What does not fit is cut off, and the
operation is made on the name that is left. When the formatter gets no memory, the operation is made
on what happens to be in the buffer.
-/

namespace Solcompat.At

open Lib

/-- What a call has done, with the answers it got. -/
abbrev Trace := List ((a : Action) × a.Answer)

namespace Trace

def calls (trace : Trace) : List Op :=
  trace.filterMap fun
    | ⟨.call op, _⟩ => some op
    | _ => none

def directories (trace : Trace) : List CString :=
  trace.filterMap fun
    | ⟨.getcwd _, .ok dir⟩ => some dir
    | _ => none

/-- Whether the formatter had its memory, for every name it was to write. -/
def grants (trace : Trace) : List Bool :=
  trace.filterMap fun
    | ⟨.snprintf _ _, .written⟩ => some true
    | ⟨.snprintf _ _, .refused _⟩ => some false
    | _ => none

/-- `getcwd` has returned these names, and the formatter had the memory to write each one in front
of its path, or had not. -/
def Answered (trace : Trace) (answers : List (CString × Bool)) : Prop :=
  trace.directories = answers.map Prod.fst ∧ trace.grants = answers.map Prod.snd

theorem calls_append (t u : Trace) : calls (t ++ u) = calls t ++ calls u :=
  List.filterMap_append

theorem directories_append (t u : Trace) : directories (t ++ u) = directories t ++ directories u :=
  List.filterMap_append

theorem grants_append (t u : Trace) : grants (t ++ u) = grants t ++ grants u :=
  List.filterMap_append

theorem Answered.append {t u : Trace} {answers answers' : List (CString × Bool)}
    (ht : t.Answered answers) (hu : u.Answered answers') :
    (t ++ u).Answered (answers ++ answers') := by
  constructor
  · rw [directories_append, ht.1, hu.1, List.map_append]
  · rw [grants_append, ht.2, hu.2, List.map_append]

end Trace

/-- The path needs no directory in front of it. -/
def isDirect (fd : ℤ) (path : CString) : Bool := isAbsolute path || isAtFdcwd fd

/-- The names that a call means by its paths, when `getcwd` has returned these directories. Each
directory belongs to one path. -/
def meant : List (ℤ × CString) → List CString → Option (List CString)
  | [], [] => some []
  | [], _ :: _ => none
  | (fd, path) :: args, [] =>
    if isDirect fd path then (meant args []).map (path :: ·) else none
  | (fd, path) :: args, dir :: dirs =>
    if isDirect fd path then (meant args (dir :: dirs)).map (path :: ·)
    else (meant args dirs).map (slashJoin dir path :: ·)

/-- The calls that build path names. -/
inductive PathCall where
  | renameat (olddirfd : ℤ) (oldpath : CString) (newdirfd : ℤ) (newpath : CString)
  | linkat (olddirfd : ℤ) (oldpath : CString) (newdirfd : ℤ) (newpath : CString)
      (flags : BitVec 32)
  | utimensat (dirfd : ℤ) (pathname : CString) (times : Option (Timespec × Timespec))
      (flags : BitVec 32)

namespace PathCall

def code : PathCall → Code (Except Errno ℤ)
  | renameat olddirfd oldpath newdirfd newpath => At.renameat olddirfd oldpath newdirfd newpath
  | linkat olddirfd oldpath newdirfd newpath flags =>
    At.linkat olddirfd oldpath newdirfd newpath flags
  | utimensat dirfd pathname times flags => At.utimensat dirfd pathname times flags

def args : PathCall → List (ℤ × CString)
  | renameat olddirfd oldpath newdirfd newpath | linkat olddirfd oldpath newdirfd newpath _ =>
    [(olddirfd, oldpath), (newdirfd, newpath)]
  | utimensat dirfd pathname _ _ => [(dirfd, pathname)]

/-- Whether the names go through buffers: with both descriptors `AT_FDCWD`, `rename` gets the
paths themselves. -/
def isBuffered : PathCall → Bool
  | renameat olddirfd _ newdirfd _ => !(isAtFdcwd olddirfd && isAtFdcwd newdirfd)
  | _ => true

/-- Every operation of the run is made on the names that the call means, and none is made, and
the call fails, when one of them does not fit its buffer. -/
structure Faithful (call : PathCall) (trace : Trace) (result : Except Errno ℤ) : Prop where
  names : ∀ op ∈ trace.calls, ∃ names, meant call.args trace.directories = some names ∧
    op.paths = names.map some
  fails : call.isBuffered = true → ∀ names, meant call.args trace.directories = some names →
    (∃ name ∈ names, bufSize ≤ name.strlen) → trace.calls = [] ∧ ∃ e, result = .error e

end PathCall

/-- A name as it is left in a buffer. -/
def cutName (name : CString) : CString := name.take (bufSize - 1)

theorem cutName_eq_iff {name : CString} : cutName name = name ↔ name.strlen < bufSize := by
  have hpos : 0 < bufSize := by decide
  constructor
  · intro h
    have hbytes := congrArg CString.bytes h
    rw [cutName, CString.bytes_take, List.take_eq_self_iff] at hbytes
    unfold CString.strlen
    omega
  · intro h
    apply CString.ext_bytes
    rw [cutName, CString.bytes_take, List.take_eq_self_iff]
    unfold CString.strlen at h
    omega

/-- The runs of `resolve_dirfd_path` make no operation and return what `getcwd` answered. -/
theorem runs_resolveDirfdPath {fd : ℤ} {trace : Trace} {x : Except Errno CString}
    (h : (resolveDirfdPath fd).Runs trace x) :
    trace.calls = [] ∧ trace.grants = [] ∧
      ((∃ e, x = .error e ∧ trace.directories = []) ∨
        ∃ dir, x = .ok dir ∧ trace.directories = [dir]) := by
  obtain ⟨saved, t₁, rfl, h⟩ := h
  cases saved with
  | error e =>
    obtain ⟨rfl, rfl⟩ := h
    exact ⟨rfl, rfl, .inl ⟨e, rfl, rfl⟩⟩
  | ok saved =>
    obtain ⟨moved, t₂, rfl, h⟩ := h
    cases moved with
    | error e =>
      obtain ⟨_, t₃, rfl, rfl, rfl⟩ := h
      exact ⟨rfl, rfl, .inl ⟨e, rfl, rfl⟩⟩
    | ok _ =>
      obtain ⟨_, t₃, rfl, _, t₄, rfl, _, t₅, rfl, rfl, rfl⟩ := h
      cases x with
      | error e => exact ⟨rfl, rfl, .inl ⟨e, rfl, rfl⟩⟩
      | ok dir => exact ⟨rfl, rfl, .inr ⟨dir, rfl, rfl⟩⟩

theorem exists_runs_resolveDirfdPath (fd : ℤ) (dir : CString) :
    ∃ trace : Trace, (resolveDirfdPath fd).Runs trace (.ok dir) ∧ trace.calls = [] ∧
      trace.directories = [dir] ∧ trace.grants = [] :=
  ⟨[⟨.openDot, .ok 0⟩, ⟨.fchdir fd, .ok ()⟩, ⟨.getcwd bufSize, .ok dir⟩, ⟨.fchdir 0, .ok ()⟩,
    ⟨.close 0, ()⟩], ⟨_, _, rfl, _, _, rfl, _, _, rfl, _, _, rfl, _, _, rfl, rfl, rfl⟩,
    rfl, rfl, rfl⟩

theorem meant_direct {fd : ℤ} {path : CString} (h : isDirect fd path = true)
    (args : List (ℤ × CString)) (dirs : List CString) :
    meant ((fd, path) :: args) dirs = (meant args dirs).map (path :: ·) := by
  cases dirs with
  | nil => exact if_pos h
  | cons dir dirs => exact if_pos h

theorem meant_joined {fd : ℤ} {path : CString} (h : isDirect fd path = false)
    (args : List (ℤ × CString)) (dir : CString) (dirs : List CString) :
    meant ((fd, path) :: args) (dir :: dirs) =
      (meant args dirs).map (slashJoin dir path :: ·) :=
  if_neg (by simp [h])

theorem meant_missing {fd : ℤ} {path : CString} (h : isDirect fd path = false)
    (args : List (ℤ × CString)) : meant ((fd, path) :: args) [] = none :=
  if_neg (by simp [h])

theorem fullPath_direct {fd : ℤ} {path : CString} (h : isDirect fd path = true) :
    fullPath fd path = pure (.ok (cutName path)) :=
  if_pos h

/-- The name of the directory is written in front of the path. -/
def writeFull (path : CString) : Except Errno CString → Code (Except Errno CString)
  | .error e => pure (.error e)
  | .ok dirpath => do
    let outcome ← snprintf dirpath path
    pure (.ok (outcome.full dirpath path))

theorem fullPath_joined {fd : ℤ} {path : CString} (h : isDirect fd path = false) :
    fullPath fd path = resolveDirfdPath fd >>= writeFull path := by
  unfold fullPath
  rw [if_neg (by simpa [isDirect] using h)]
  rfl

theorem runs_writeFull {dir path : CString} {trace : Trace} {x : Except Errno CString}
    (h : (writeFull path (.ok dir)).Runs trace x) :
    trace.calls = [] ∧ trace.directories = [] ∧
      ∃ full, x = .ok full ∧ (false ∉ trace.grants → full = cutName (slashJoin dir path)) := by
  obtain ⟨outcome, rest, rfl, rfl, rfl⟩ := h
  cases outcome with
  | written => exact ⟨rfl, rfl, _, rfl, fun _ => rfl⟩
  | refused left => exact ⟨rfl, rfl, _, rfl, fun h => absurd List.mem_cons_self h⟩

/-- With no memory the buffer may hold something else, such as the empty string. -/
theorem exists_runs_writeFull (dir path : CString) (granted : Bool) :
    ∃ (trace : Trace) (full : CString), (writeFull path (.ok dir)).Runs trace (.ok full) ∧
      trace.calls = [] ∧ trace.directories = [] ∧ trace.grants = [granted] ∧
      (granted = false → full ≠ slashJoin dir path) := by
  cases granted with
  | true =>
    exact ⟨[⟨.snprintf dir path, .written⟩], snprintfPath dir path, ⟨_, _, rfl, rfl, rfl⟩, rfl, rfl,
      rfl, fun h => by cases h⟩
  | false =>
    refine ⟨[⟨.snprintf dir path, .refused default⟩], default, ⟨_, _, rfl, rfl, rfl⟩, rfl, rfl,
      rfl, fun _ heq => ?_⟩
    exact List.append_ne_nil_of_right_ne_nil _ (List.cons_ne_nil _ _)
      (congrArg CString.bytes heq).symm

/-- The block that fills a buffer leaves the name there, as far as it fits, unless the formatter
has no memory, or fails. -/
theorem runs_fullPath {fd : ℤ} {path : CString} {trace : Trace} {x : Except Errno CString}
    (h : (fullPath fd path).Runs trace x) :
    trace.calls = [] ∧
      ((∃ e, x = .error e ∧ trace.directories = [] ∧ isDirect fd path = false) ∨
        ∃ name full, x = .ok full ∧ (false ∉ trace.grants → full = cutName name) ∧
          ∀ args dirs, meant ((fd, path) :: args) (trace.directories ++ dirs) =
            (meant args dirs).map (name :: ·)) := by
  cases hdirect : isDirect fd path with
  | true =>
    rw [fullPath_direct hdirect] at h
    obtain ⟨rfl, rfl⟩ := h
    exact ⟨rfl, .inr ⟨path, _, rfl, fun _ => rfl, fun args dirs => meant_direct hdirect args dirs⟩⟩
  | false =>
    rw [fullPath_joined hdirect, Program.runs_bind] at h
    obtain ⟨before, y, after, rfl, hresolve, h⟩ := h
    obtain ⟨hcalls, hgrants, ⟨e, rfl, hdirs⟩ | ⟨dir, rfl, hdirs⟩⟩ := runs_resolveDirfdPath hresolve
    · obtain ⟨rfl, rfl⟩ := h
      rw [List.append_nil]
      exact ⟨hcalls, .inl ⟨e, rfl, hdirs, rfl⟩⟩
    · obtain ⟨hcalls', hdirs', full, rfl, hfull⟩ := runs_writeFull h
      rw [Trace.calls_append, Trace.directories_append, Trace.grants_append, hcalls, hgrants, hdirs,
        hcalls', hdirs', List.nil_append]
      refine ⟨rfl, .inr ⟨slashJoin dir path, full, rfl, hfull, fun args dirs => ?_⟩⟩
      exact meant_joined hdirect args dir dirs

/-- Every name that is meant is built in some run, and another name if there is no memory for it. -/
theorem exists_runs_fullPath {fd : ℤ} {path : CString} {args : List (ℤ × CString)}
    {answers : List (CString × Bool)} {names : List CString}
    (h : meant ((fd, path) :: args) (answers.map Prod.fst) = some names) :
    ∃ (trace : Trace) (full name : CString) (names' : List CString)
      (answers₁ answers₂ : List (CString × Bool)),
      (fullPath fd path).Runs trace (.ok full) ∧ trace.calls = [] ∧ trace.Answered answers₁ ∧
        answers = answers₁ ++ answers₂ ∧ names = name :: names' ∧
        meant args (answers₂.map Prod.fst) = some names' ∧
        (false ∈ answers₁.map Prod.snd → full ≠ name) := by
  cases hdirect : isDirect fd path with
  | true =>
    rw [meant_direct hdirect, Option.map_eq_some_iff] at h
    obtain ⟨names', hnames, rfl⟩ := h
    rw [fullPath_direct hdirect]
    exact ⟨[], cutName path, path, names', [], answers, ⟨rfl, rfl⟩, rfl, ⟨rfl, rfl⟩, rfl, rfl,
      hnames, fun h => absurd h List.not_mem_nil⟩
  | false =>
    rcases answers with _ | ⟨⟨dir, granted⟩, answers⟩
    · rw [List.map_nil, meant_missing hdirect] at h
      cases h
    · rw [List.map_cons, meant_joined hdirect, Option.map_eq_some_iff] at h
      obtain ⟨names', hnames, rfl⟩ := h
      obtain ⟨before, hbefore, hcalls, hdirs, hgrants⟩ := exists_runs_resolveDirfdPath fd dir
      obtain ⟨after, full, hafter, hcalls', hdirs', hgrants', hne⟩ :=
        exists_runs_writeFull dir path granted
      rw [fullPath_joined hdirect]
      refine ⟨before ++ after, full, slashJoin dir path, names', [(dir, granted)], answers, ?_, ?_,
        ⟨?_, ?_⟩, rfl, rfl, hnames, ?_⟩
      · rw [Program.runs_bind]
        exact ⟨before, .ok dir, after, rfl, hbefore, hafter⟩
      · rw [Trace.calls_append, hcalls, hcalls']
        rfl
      · rw [Trace.directories_append, hdirs, hdirs']
        rfl
      · rw [Trace.grants_append, hgrants, hgrants']
        rfl
      · intro hmem
        exact hne (List.mem_singleton.mp hmem).symm

/-- The code has the names `given` in its buffers, goes on to build those that `args` mean, and
makes its operations on all of them. -/
structure Builds (given : List CString) (args : List (ℤ × CString))
    (code : Code (Except Errno ℤ)) : Prop where
  sound : ∀ (trace : Trace) result, code.Runs trace result →
    (trace.calls = [] ∧ meant args trace.directories = none) ∨
      ∃ names, meant args trace.directories = some names ∧ (false ∉ trace.grants →
        ∀ op ∈ trace.calls, op.paths = (given ++ names.map cutName).map some)
  reaches : ∀ answers names, meant args (answers.map Prod.fst) = some names →
    ∃ (trace : Trace) (result : Except Errno ℤ) (fulls : List CString), code.Runs trace result ∧
      trace.Answered answers ∧ (∃ op ∈ trace.calls, op.paths = (given ++ fulls).map some) ∧
      (false ∈ answers.map Prod.snd → fulls ≠ names)

variable {given : List CString} {args : List (ℤ × CString)}

/-- Failing on the way is to end without an operation. -/
def Quits (code : Code (Except Errno ℤ)) : Prop :=
  ∀ (trace : Trace) result, code.Runs trace result → trace.calls = [] ∧ trace.directories = []

theorem builds_fullPath {fd : ℤ} {path : CString}
    {next : Except Errno CString → Code (Except Errno ℤ)} (hquits : ∀ e, Quits (next (.error e)))
    (hbuilds : ∀ full, Builds (given ++ [full]) args (next (.ok full))) :
    Builds given ((fd, path) :: args) (fullPath fd path >>= next) where
  sound := by
    intro trace result h
    rw [Program.runs_bind] at h
    obtain ⟨before, x, after, rfl, hfull, hnext⟩ := h
    rw [Trace.calls_append, Trace.directories_append, Trace.grants_append]
    obtain ⟨hcalls, ⟨e, rfl, hdirs, hdirect⟩ | ⟨name, full, rfl, hname, hmeant⟩⟩ :=
      runs_fullPath hfull
    · obtain ⟨hcalls', hdirs'⟩ := hquits e after result hnext
      rw [hcalls, hdirs, hcalls', hdirs']
      exact .inl ⟨rfl, meant_missing hdirect args⟩
    · rw [hcalls, hmeant, List.nil_append]
      obtain ⟨hnone, hmissing⟩ | ⟨names, hnames, hops⟩ := (hbuilds _).sound after result hnext
      · exact .inl ⟨hnone, by rw [hmissing]; rfl⟩
      · refine .inr ⟨name :: names, by rw [hnames]; rfl, fun hgranted op hop => ?_⟩
        rw [List.mem_append, not_or] at hgranted
        rw [hops hgranted.2 op hop, hname hgranted.1, List.append_assoc]
        rfl
  reaches := by
    intro answers names h
    obtain ⟨before, full, name, names', answers₁, answers₂, hfull, hcalls, hanswered, rfl, rfl,
      hmeant, hne⟩ := exists_runs_fullPath h
    obtain ⟨after, result, fulls, hnext, hanswered', ⟨op, hop, hpaths⟩, hne'⟩ :=
      (hbuilds full).reaches answers₂ names' hmeant
    refine ⟨before ++ after, result, full :: fulls, ?_, hanswered.append hanswered', ⟨op, ?_, ?_⟩,
      ?_⟩
    · rw [Program.runs_bind]
      exact ⟨before, _, after, rfl, hfull, hnext⟩
    · rw [Trace.calls_append, hcalls]
      exact hop
    · rw [hpaths, List.append_assoc]
      rfl
    · intro hrefused heq
      rw [List.map_append, List.mem_append] at hrefused
      obtain ⟨rfl, rfl⟩ := List.cons.inj heq
      rcases hrefused with hrefused | hrefused
      · exact hne hrefused rfl
      · exact hne' hrefused rfl

theorem builds_nil {code : Code (Except Errno ℤ)}
    (hops : ∀ (trace : Trace) result, code.Runs trace result → trace.Answered [] ∧
      ∀ op ∈ trace.calls, op.paths = given.map some)
    (hreaches : ∃ (trace : Trace) (result : Except Errno ℤ), code.Runs trace result ∧
      trace.calls ≠ []) : Builds given [] code where
  sound := by
    intro trace result h
    obtain ⟨⟨hdirs, -⟩, hpaths⟩ := hops trace result h
    rw [hdirs]
    refine .inr ⟨[], rfl, fun _ op hop => ?_⟩
    rw [hpaths op hop, List.map_nil, List.append_nil]
  reaches := by
    intro answers names h
    obtain ⟨trace, result, hruns, hne⟩ := hreaches
    cases answers with
    | nil =>
      obtain ⟨op, hop⟩ := List.exists_mem_of_ne_nil _ hne
      obtain ⟨hanswered, hpaths⟩ := hops trace result hruns
      refine ⟨trace, result, [], hruns, hanswered, ⟨op, hop, ?_⟩,
        fun h => absurd h List.not_mem_nil⟩
      rw [hpaths op hop, List.append_nil]
    | cons answer answers => cases h

theorem builds_lock {code : Code (Except Errno ℤ)} (h : Builds given args code) :
    Builds given args (pthreadMutexLock >>= fun _ => code) where
  sound := by
    rintro _ result ⟨_, trace, rfl, hruns⟩
    exact h.sound trace result hruns
  reaches := by
    intro answers names hmeant
    obtain ⟨trace, result, fulls, hruns, hanswered, hop, hne⟩ := h.reaches answers names hmeant
    exact ⟨⟨.lock, ()⟩ :: trace, result, fulls, ⟨(), trace, rfl, hruns⟩, hanswered, hop, hne⟩

theorem builds_unlock {op : Op} {call : Code (Except Errno ℤ)} (hpaths : op.paths = given.map some)
    (hcall : ∀ (trace : Trace) x, call.Runs trace x → ∃ y, trace = [⟨.call op, y⟩])
    (hruns : ∃ (trace : Trace) (x : Except Errno ℤ), call.Runs trace x) :
    Builds given [] (do
      let result ← call
      let _ ← pthreadMutexUnlock
      pure result) := by
  apply builds_nil
  · intro trace result h
    rw [Program.runs_bind] at h
    obtain ⟨before, x, after, rfl, hx, _, rest, rfl, rfl, -⟩ := h
    obtain ⟨y, rfl⟩ := hcall before x hx
    refine ⟨⟨rfl, rfl⟩, fun op' hop => ?_⟩
    obtain rfl := List.mem_singleton.mp hop
    exact hpaths
  · obtain ⟨before, x, hx⟩ := hruns
    obtain ⟨y, rfl⟩ := hcall before x hx
    refine ⟨[⟨.call op, y⟩] ++ [⟨.unlock, ()⟩], x, ?_, by simp [Trace.calls]⟩
    rw [Program.runs_bind]
    exact ⟨_, x, _, rfl, hx, (), [], rfl, rfl, rfl⟩

theorem quits_unlock (e : Errno) :
    Quits (do
      let _ ← pthreadMutexUnlock
      pure (.error e)) := by
  rintro _ _ ⟨_, _, rfl, rfl, rfl⟩
  exact ⟨rfl, rfl⟩

theorem builds_onFullPaths {olddirfd newdirfd : ℤ} {oldpath newpath : CString}
    {call : CString → CString → Code (Except Errno ℤ)} (op : CString → CString → Op)
    (hpaths : ∀ old new, (op old new).paths = [some old, some new])
    (hcall : ∀ old new (trace : Trace) x, (call old new).Runs trace x →
      ∃ y, trace = [⟨.call (op old new), y⟩])
    (hruns : ∀ old new, ∃ (trace : Trace) (x : Except Errno ℤ), (call old new).Runs trace x) :
    Builds [] [(olddirfd, oldpath), (newdirfd, newpath)]
      (onFullPaths olddirfd oldpath newdirfd newpath call) := by
  apply builds_lock
  apply builds_fullPath quits_unlock
  intro old
  apply builds_fullPath quits_unlock
  intro new
  exact builds_unlock (hpaths old new) (hcall old new) (hruns old new)

theorem runs_syscall {op : Op} {trace : Trace} {x : Except Errno op.Reply}
    (h : (syscall op).Runs trace x) : trace = [⟨.call op, x⟩] := by
  obtain ⟨y, rest, rfl, rfl, rfl⟩ := h
  rfl

theorem exists_runs_syscall (op : Op) :
    ∃ (trace : Trace) (x : Except Errno op.Reply), (syscall op).Runs trace x :=
  ⟨_, .error .EBADF, _, _, rfl, rfl, rfl⟩

theorem builds_linkat (olddirfd : ℤ) (oldpath : CString) (newdirfd : ℤ) (newpath : CString)
    (flags : BitVec 32) :
    Builds [] [(olddirfd, oldpath), (newdirfd, newpath)]
      (linkat olddirfd oldpath newdirfd newpath flags) :=
  builds_onFullPaths Op.link (fun _ _ => rfl) (fun _ _ _ x h => ⟨x, runs_syscall h⟩)
    fun old new => exists_runs_syscall (.link old new)

theorem builds_renameat {olddirfd newdirfd : ℤ} (oldpath newpath : CString)
    (h : (isAtFdcwd olddirfd && isAtFdcwd newdirfd) = false) :
    Builds [] [(olddirfd, oldpath), (newdirfd, newpath)]
      (renameat olddirfd oldpath newdirfd newpath) := by
  unfold renameat
  rw [if_neg (by simp [h])]
  exact builds_onFullPaths Op.rename (fun _ _ => rfl) (fun _ _ _ x h => ⟨x, runs_syscall h⟩)
    fun old new => exists_runs_syscall (.rename old new)

/-- Go on with the name in the buffer, or fail. -/
def withFull (next : CString → Code (Except Errno ℤ)) : Except Errno CString → Code (Except Errno ℤ)
  | .error e => pure (.error e)
  | .ok full => next full

/-- `utimensat` is the block of the other two, and then the operations. -/
theorem utimensat_eq (dirfd : ℤ) (pathname : CString) (times : Option (Timespec × Timespec))
    (flags : BitVec 32) :
    utimensat dirfd pathname times flags =
      fullPath dirfd pathname >>= withFull fun full => utimeFull full times := by
  cases hdirect : isDirect dirfd pathname with
  | true =>
    rw [fullPath_direct hdirect]
    exact if_pos hdirect
  | false =>
    rw [fullPath_joined hdirect]
    unfold utimensat
    rw [if_neg (by simpa [isDirect] using hdirect)]
    apply congrArg (Program.act Action.openDot)
    funext saved
    cases saved with
    | error e => rfl
    | ok saved =>
      apply congrArg (Program.act (Action.fchdir dirfd))
      funext moved
      cases moved with
      | error e => rfl
      | ok _ =>
        apply congrArg (Program.act (Action.getcwd bufSize))
        funext cwd
        cases cwd <;> rfl

theorem runs_utimeFull {full : CString} {times : Option (Timespec × Timespec)} {trace : Trace}
    {x : Except Errno ℤ} (h : (utimeFull full times).Runs trace x) :
    trace.Answered [] ∧ ∀ op ∈ trace.calls, op.paths = [some full] := by
  cases times with
  | none =>
    obtain rfl := runs_syscall h
    refine ⟨⟨rfl, rfl⟩, fun op hop => ?_⟩
    obtain rfl := List.mem_singleton.mp hop
    rfl
  | some times =>
    obtain ⟨actime, modtime⟩ := times
    obtain ⟨now, rest, rfl, h⟩ := h
    split_ifs at h with homit
    · obtain ⟨st, rest, rfl, h⟩ := h
      cases st with
      | error e =>
        obtain ⟨rfl, rfl⟩ := h
        refine ⟨⟨rfl, rfl⟩, fun op hop => ?_⟩
        obtain rfl := List.mem_singleton.mp hop
        rfl
      | ok st =>
        obtain rfl := runs_syscall h
        refine ⟨⟨rfl, rfl⟩, fun op hop => ?_⟩
        change op ∈ [Op.stat (some full), Op.utime full _] at hop
        rw [List.mem_cons, List.mem_singleton] at hop
        rcases hop with rfl | rfl
        · rfl
        · rfl
    · obtain rfl := runs_syscall h
      refine ⟨⟨rfl, rfl⟩, fun op hop => ?_⟩
      obtain rfl := List.mem_singleton.mp hop
      rfl

theorem exists_runs_utimeFull (full : CString) (times : Option (Timespec × Timespec)) :
    ∃ (trace : Trace) (x : Except Errno ℤ), (utimeFull full times).Runs trace x ∧
      trace.calls ≠ [] := by
  cases times with
  | none => exact ⟨_, .error .EBADF, ⟨_, _, rfl, rfl, rfl⟩, by simp [Trace.calls]⟩
  | some times =>
    obtain ⟨actime, modtime⟩ := times
    by_cases homit : actime.nsec = utimeOmit ∨ modtime.nsec = utimeOmit
    · refine ⟨[⟨.time, (0 : ℤ)⟩, ⟨.call (.stat (some full)), .error .EBADF⟩], .error .EBADF,
        Program.runs_perform_bind.mpr ⟨0, _, rfl, ?_⟩, List.cons_ne_nil _ _⟩
      rw [if_pos homit]
      exact ⟨_, _, rfl, rfl, rfl⟩
    · let stamps := (newTime 0 0 actime, newTime 0 0 modtime)
      refine ⟨[⟨.time, (0 : ℤ)⟩, ⟨.call (.utime full (some stamps)), .error .EBADF⟩], .error .EBADF,
        Program.runs_perform_bind.mpr ⟨0, _, rfl, ?_⟩, List.cons_ne_nil _ _⟩
      rw [if_neg homit]
      exact ⟨_, _, rfl, rfl, rfl⟩

theorem builds_utimensat (dirfd : ℤ) (pathname : CString) (times : Option (Timespec × Timespec))
    (flags : BitVec 32) :
    Builds [] [(dirfd, pathname)] (utimensat dirfd pathname times flags) := by
  rw [utimensat_eq]
  apply builds_fullPath
  · rintro e _ _ ⟨rfl, rfl⟩
    exact ⟨rfl, rfl⟩
  · intro full
    exact builds_nil (fun _ _ h => runs_utimeFull h) (exists_runs_utimeFull full times)

namespace PathCall

theorem builds {call : PathCall} (h : call.isBuffered = true) :
    Builds [] call.args call.code := by
  cases call with
  | renameat olddirfd oldpath newdirfd newpath =>
    exact builds_renameat oldpath newpath (by simpa only [isBuffered, Bool.not_eq_true'] using h)
  | linkat olddirfd oldpath newdirfd newpath flags =>
    exact builds_linkat olddirfd oldpath newdirfd newpath flags
  | utimensat dirfd pathname times flags => exact builds_utimensat dirfd pathname times flags

theorem faithful_of_unbuffered {call : PathCall} (h : call.isBuffered = false) {trace : Trace}
    {result : Except Errno ℤ} (hruns : call.code.Runs trace result) :
    call.Faithful trace result := by
  refine ⟨?_, fun hbuffered => by rw [h] at hbuffered; cases hbuffered⟩
  cases call with
  | renameat olddirfd oldpath newdirfd newpath =>
    have hboth : (isAtFdcwd olddirfd && isAtFdcwd newdirfd) = true := by
      simpa [isBuffered] using h
    have hdirect : isDirect olddirfd oldpath = true ∧ isDirect newdirfd newpath = true := by
      simp only [Bool.and_eq_true] at hboth
      simp [isDirect, hboth]
    change (At.renameat olddirfd oldpath newdirfd newpath).Runs trace result at hruns
    rw [At.renameat, if_pos hboth] at hruns
    obtain rfl := runs_syscall hruns
    intro op hop
    obtain rfl := List.mem_singleton.mp hop
    refine ⟨[oldpath, newpath], ?_, rfl⟩
    change meant [(olddirfd, oldpath), (newdirfd, newpath)] [] = _
    rw [meant_direct hdirect.1, meant_direct hdirect.2]
    rfl
  | linkat => cases h
  | utimensat => cases h

/-- Exactly the names that the call means reach its operations, and it fails when one of them
does not fit, unless the names go through buffers and one of them does not fit, when it is cut, or
is not written because the formatter has no memory. -/
theorem faithful_iff (call : PathCall) (answers : List (CString × Bool)) :
    (∀ (trace : Trace) result, call.code.Runs trace result → trace.Answered answers →
      call.Faithful trace result) ↔
    (call.isBuffered = true → ∀ names, meant call.args (answers.map Prod.fst) = some names →
      (∀ name ∈ names, name.strlen < bufSize) ∧ ∀ answer ∈ answers, answer.2 = true) := by
  constructor
  · intro hfaithful hbuffered names hnames
    obtain ⟨trace, result, fulls, hruns, hanswered, ⟨op, hop, hpaths⟩, hne⟩ :=
      (builds hbuffered).reaches answers names hnames
    have hrun := hfaithful trace result hruns hanswered
    rw [← hanswered.1] at hnames
    constructor
    · by_contra hlong
      simp only [not_forall, not_lt, exists_prop] at hlong
      rw [(hrun.fails hbuffered names hnames hlong).1] at hop
      cases hop
    · intro answer hanswer
      by_contra hrefused
      apply hne (List.mem_map.mpr ⟨answer, hanswer, Bool.eq_false_of_not_eq_true hrefused⟩)
      obtain ⟨names', hnames', hpaths'⟩ := hrun.names op hop
      obtain rfl : names' = names := Option.some.inj (hnames'.symm.trans hnames)
      exact (List.map_injective_iff.mpr (Option.some_injective CString)) (hpaths.symm.trans hpaths')
  · rintro hfit trace result hruns hanswered
    cases hbuffered : call.isBuffered with
    | false => exact faithful_of_unbuffered hbuffered hruns
    | true =>
      have hfit := hfit hbuffered
      rw [← hanswered.1] at hfit
      constructor
      · intro op hop
        obtain ⟨hnone, -⟩ | ⟨names, hnames, hpaths⟩ := (builds hbuffered).sound trace result hruns
        · rw [hnone] at hop
          cases hop
        · obtain ⟨hshort, hgranted⟩ := hfit names hnames
          have hcut : names.map cutName = names.map id :=
            List.map_congr_left fun name hname => cutName_eq_iff.mpr (hshort name hname)
          have hall : false ∉ trace.grants := by
            rw [hanswered.2, List.mem_map]
            rintro ⟨answer, hanswer, hrefused⟩
            rw [hgranted answer hanswer] at hrefused
            cases hrefused
          refine ⟨names, hnames, ?_⟩
          rw [hpaths hall op hop, List.nil_append, hcut, List.map_id]
      · rintro - names hnames ⟨name, hname, hlong⟩
        exact absurd ((hfit names hnames).1 name hname) hlong.not_gt

/-- A directory with a name of 1016 bytes. -/
def deepDir : CString where
  bytes := ch '/' :: List.replicate 1015 (ch 'd')
  nulFree := by
    intro b hb
    rcases List.mem_cons.mp hb with rfl | hb
    · decide
    · rw [List.eq_of_mem_replicate hb]
      decide

theorem strlen_deepDir : deepDir.strlen = 1016 := by
  change (ch '/' :: List.replicate 1015 (ch 'd')).length = 1016
  rw [List.length_cons, List.length_replicate]

theorem cutName_deepDir : cutName (slashJoin deepDir (.ofString "report.old")) =
    slashJoin deepDir (.ofString "report") := by
  apply CString.ext_bytes
  have hlen : bufSize - 1 = deepDir.bytes.length + 7 := congrArg (· + 7) strlen_deepDir.symm
  rw [cutName, CString.bytes_take, hlen, slashJoin, List.take_length_add_append]
  rfl

/-- `renameat(3, "report.old", AT_FDCWD, "/x")` renames `report`. -/
theorem renameat_other_file :
    ∃ (trace : Trace) (result : Except Errno ℤ),
      (renameat 3 (.ofString "report.old") atFdcwd (.ofString "/x")).code.Runs trace result ∧
      trace.directories = [deepDir] ∧ deepDir.strlen < bufSize ∧
      trace.calls = [.rename (slashJoin deepDir (.ofString "report")) (.ofString "/x")] ∧
      ¬ (renameat 3 (.ofString "report.old") atFdcwd (.ofString "/x")).Faithful trace result := by
  have hjoined : isDirect 3 (.ofString "report.old") = false := by decide
  have hdirect : isDirect atFdcwd (.ofString "/x") = true := by decide
  have hmeant : meant [(3, .ofString "report.old"), (atFdcwd, .ofString "/x")] [deepDir] =
      some [slashJoin deepDir (.ofString "report.old"), .ofString "/x"] := by
    rw [meant_joined hjoined, meant_direct hdirect]
    rfl
  have hlong : bufSize ≤ (slashJoin deepDir (.ofString "report.old")).strlen := by
    rw [← not_lt, ← cutName_eq_iff, cutName_deepDir]
    intro h
    exact absurd (List.append_cancel_left (congrArg CString.bytes h)) (by decide)
  have hruns : (At.renameat 3 (.ofString "report.old") atFdcwd (.ofString "/x")).Runs
      [⟨.lock, ()⟩, ⟨.openDot, .ok 5⟩, ⟨.fchdir 3, .ok ()⟩, ⟨.getcwd bufSize, .ok deepDir⟩,
        ⟨.fchdir 5, .ok ()⟩, ⟨.close 5, ()⟩,
        ⟨.snprintf deepDir (.ofString "report.old"), .written⟩,
        ⟨.call (.rename (cutName (slashJoin deepDir (.ofString "report.old")))
          (cutName (.ofString "/x"))), .ok (0 : ℤ)⟩,
        ⟨.unlock, ()⟩] (.ok 0) := by
    rw [At.renameat, if_neg (by decide), onFullPaths, fullPath_joined hjoined,
      fullPath_direct hdirect]
    exact ⟨_, _, rfl, _, _, rfl, _, _, rfl, _, _, rfl, _, _, rfl, _, _, rfl, _, _, rfl, _, _, rfl,
      _, _, rfl, rfl, rfl⟩
  rw [cutName_deepDir, cutName_eq_iff.mpr (by decide : (CString.ofString "/x").strlen < bufSize)]
    at hruns
  refine ⟨_, _, hruns, rfl, ?_, rfl, fun hfaithful => ?_⟩
  · rw [strlen_deepDir]
    decide
  · obtain ⟨hnone, -⟩ := hfaithful.fails (by decide) _ hmeant ⟨_, List.mem_cons_self, hlong⟩
    cases hnone

end PathCall

end Solcompat.At
