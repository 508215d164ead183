import Mathlib.Logic.Function.Basic
import Solcompat.At.Model

/-!
# Threads that share a working directory

The state of the process is its working directory, its descriptors, `at_mutex` and the
file tree; each thread has the rest of the call it is in. A run is a list of events: a
thread begins a call, or makes its next system call with the outcome the kernel chose.
The process also keeps what no step reads: which thread opened a descriptor for the
emulation, whether a thread is between its `fchdir(dirfd)` and the `fchdir` that restores
the directory, the path names it got from `getcwd`, and all operations made so far.
-/

namespace Solcompat.At

open Lib

inductive Call where
  | openat (dirfd : ℤ) (pathname : Option CString) (flags mode : BitVec 32)
  | mkdirat (dirfd : ℤ) (pathname : Option CString) (mode : BitVec 32)
  | unlinkat (dirfd : ℤ) (pathname : Option CString) (flags : BitVec 32)
  | fstatat (dirfd : ℤ) (pathname : Option CString) (flags : BitVec 32)
  | fchownat (dirfd : ℤ) (pathname : Option CString) (owner group : ℤ) (flags : BitVec 32)
  | fchmodat (dirfd : ℤ) (pathname : Option CString) (mode flags : BitVec 32)
  | readlinkat (dirfd : ℤ) (pathname : Option CString) (bufsiz : ℕ)
  | symlinkat (target : Option CString) (newdirfd : ℤ) (linkpath : Option CString)
  | faccessat (dirfd : ℤ) (pathname : Option CString) (mode flags : BitVec 32)
  | renameat (olddirfd : ℤ) (oldpath : CString) (newdirfd : ℤ) (newpath : CString)
  | linkat (olddirfd : ℤ) (oldpath : CString) (newdirfd : ℤ) (newpath : CString)
      (flags : BitVec 32)
  | utimensat (dirfd : ℤ) (pathname : CString) (times : Option (Timespec × Timespec))
      (flags : BitVec 32)
  | fdopendir (fd : ℤ)

inductive Reply where
  | number (n : ℤ)
  | stat (st : Stat)
  | text (bytes : List UInt8)
  deriving DecidableEq

def returning {α : Type} (reply : α → Reply) (code : Code (Except Errno α)) :
    Code (Except Errno Reply) := do
  let result ← code
  pure (result.map reply)

namespace Call

def code : Call → Code (Except Errno Reply)
  | openat dirfd pathname flags mode => returning .number (At.openat dirfd pathname flags mode)
  | mkdirat dirfd pathname mode => returning .number (At.mkdirat dirfd pathname mode)
  | unlinkat dirfd pathname flags => returning .number (At.unlinkat dirfd pathname flags)
  | fstatat dirfd pathname flags => returning .stat (At.fstatat dirfd pathname flags)
  | fchownat dirfd pathname owner group flags =>
    returning .number (At.fchownat dirfd pathname owner group flags)
  | fchmodat dirfd pathname mode flags =>
    returning .number (At.fchmodat dirfd pathname mode flags)
  | readlinkat dirfd pathname bufsiz => returning .text (At.readlinkat dirfd pathname bufsiz)
  | symlinkat target newdirfd linkpath =>
    returning .number (At.symlinkat target newdirfd linkpath)
  | faccessat dirfd pathname mode flags =>
    returning .number (At.faccessat dirfd pathname mode flags)
  | renameat olddirfd oldpath newdirfd newpath =>
    returning .number (At.renameat olddirfd oldpath newdirfd newpath)
  | linkat olddirfd oldpath newdirfd newpath flags =>
    returning .number (At.linkat olddirfd oldpath newdirfd newpath flags)
  | utimensat dirfd pathname times flags =>
    returning .number (At.utimensat dirfd pathname times flags)
  | fdopendir fd => returning .number (At.fdopendir fd)

/-- The paths of a call, each with the descriptor it is relative to. The directory that
`fdopendir` opens is the empty path relative to its descriptor. -/
def pathArgs : Call → List (ℤ × Option CString)
  | openat dirfd pathname _ _ | mkdirat dirfd pathname _ | unlinkat dirfd pathname _
  | fstatat dirfd pathname _ | fchownat dirfd pathname _ _ _ | fchmodat dirfd pathname _ _
  | readlinkat dirfd pathname _ | symlinkat _ dirfd pathname | faccessat dirfd pathname _ _ =>
    [(dirfd, pathname)]
  | renameat olddirfd oldpath newdirfd newpath | linkat olddirfd oldpath newdirfd newpath _ =>
    [(olddirfd, some oldpath), (newdirfd, some newpath)]
  | utimensat dirfd pathname _ _ => [(dirfd, some pathname)]
  | fdopendir fd => [(fd, some default)]

/-- The calls that run under `at_mutex`: those of `at_funcs.c`, but for `renameat` with
both descriptors `AT_FDCWD`. -/
def isLocked : Call → Bool
  | renameat olddirfd _ newdirfd _ => !(isAtFdcwd olddirfd && isAtFdcwd newdirfd)
  | utimensat _ _ _ _ | fdopendir _ => false
  | _ => true

end Call

/-- An open descriptor: the directory behind it, if it is one, and the thread that opened
it with `open(".")`. Descriptors of the program have no such thread. -/
structure Entry (Dir Tid : Type) where
  dir : Option Dir
  owner : Option Tid
  deriving DecidableEq

structure World (Dir Tid : Type) where
  cwd : Dir
  atMutex : Option Tid
  fds : ℤ → Option (Entry Dir Tid)
  tree : FileTree Dir

/-- The decisions of the kernel for one system call: whether it fails, the number it
returns, the directory behind a new descriptor, the data it stores, and the file tree that
a successful operation leaves. -/
structure Choice (Dir : Type) where
  failure : Option Errno
  number : ℤ
  dir : Option Dir
  stat : Stat
  text : CString
  tree : FileTree Dir

variable {Dir Tid : Type}

namespace World

def setFd (w : World Dir Tid) (fd : ℤ) (entry : Option (Entry Dir Tid)) : World Dir Tid :=
  { w with fds := Function.update w.fds fd entry }

def dirOf (w : World Dir Tid) (fd : ℤ) : Option Dir := (w.fds fd).bind Entry.dir

/-- The descriptor was opened by the emulation to save the working directory. -/
def isSaved (w : World Dir Tid) (fd : ℤ) : Bool :=
  (w.fds fd).any fun entry => entry.owner.isSome

/-- An open descriptor that the emulation did not open itself. -/
def isClient (w : World Dir Tid) (fd : ℤ) : Bool :=
  0 ≤ fd && (w.fds fd).any fun entry => entry.owner.isNone

/-- A relative path comes with `AT_FDCWD` or with an open descriptor of the program. -/
def admitsPath (w : World Dir Tid) (arg : ℤ × Option CString) : Bool :=
  arg.2.any isAbsolute || isAtFdcwd arg.1 || w.isClient arg.1

def admits (w : World Dir Tid) : Call → Bool
  | .fdopendir fd => w.isClient fd
  | call => call.pathArgs.all w.admitsPath

def succeed (w : World Dir Tid) (c : Choice Dir) :
    (op : Op) → Option (Except Errno op.Reply × World Dir Tid)
  | .open _ _ _ =>
    if 0 ≤ c.number ∧ (w.fds c.number).isNone then
      some (.ok c.number, { w with tree := c.tree }.setFd c.number (some ⟨c.dir, none⟩))
    else none
  | .stat _ | .lstat _ => some (.ok c.stat, { w with tree := c.tree })
  | .readlink _ _ => some (.ok c.text.bytes, { w with tree := c.tree })
  | .mkdir _ _ | .rename _ _ | .rmdir _ | .unlink _ | .chown _ _ _ | .lchown _ _ _ | .chmod _ _
  | .symlink _ _ | .link _ _ | .access _ _ | .utime _ _ | .opendir _ =>
    some (.ok c.number, { w with tree := c.tree })

section Fields

variable (w : World Dir Tid) (fd : ℤ) (entry : Option (Entry Dir Tid))

@[simp] theorem setFd_cwd : (w.setFd fd entry).cwd = w.cwd := rfl
@[simp] theorem setFd_atMutex : (w.setFd fd entry).atMutex = w.atMutex := rfl
@[simp] theorem setFd_tree : (w.setFd fd entry).tree = w.tree := rfl

@[simp]
theorem setFd_self : (w.setFd fd entry).fds fd = entry := Function.update_self ..

variable {fd}

theorem setFd_of_ne {fd' : ℤ} (h : fd' ≠ fd) : (w.setFd fd entry).fds fd' = w.fds fd' :=
  Function.update_of_ne h ..

end Fields

/-- A successful operation changes the file tree and may open a descriptor. -/
theorem succeed_cases {w w' : World Dir Tid} {c : Choice Dir} {op : Op}
    {x : Except Errno op.Reply} (h : w.succeed c op = some (x, w')) :
    w' = { w with tree := c.tree } ∨
      (w.fds c.number = none ∧
        w' = { w with tree := c.tree }.setFd c.number (some ⟨c.dir, none⟩)) := by
  cases op <;> simp only [succeed] at h
  case «open» =>
    split_ifs at h with hfresh
    exact .inr ⟨Option.isNone_iff_eq_none.mp hfresh.2,
      (Prod.mk.inj (Option.some.inj h)).2.symm⟩
  all_goals exact .inl (Prod.mk.inj (Option.some.inj h)).2.symm

variable [DecidableEq Dir]

/-- A system call of thread `t` with the given outcome; `none` if the call blocks or cannot
end that way. A descriptor is new when it is opened, the name from `getcwd` is one of the
working directory and fits the buffer, going back to a saved directory does not fail, and the
formatter gets its memory. -/
def perform (w : World Dir Tid) (t : Tid) (c : Choice Dir) :
    (a : Action) → Option (a.Answer × World Dir Tid)
  | .lock => if w.atMutex.isNone then some ((), { w with atMutex := some t }) else none
  | .unlock => some ((), { w with atMutex := none })
  | .openDot =>
    match c.failure with
    | some e => some (.error e, w)
    | none =>
      if 0 ≤ c.number ∧ (w.fds c.number).isNone then
        some (.ok c.number, w.setFd c.number (some ⟨some w.cwd, some t⟩))
      else none
  | .fchdir fd =>
    match c.failure with
    | some e => if w.isSaved fd then none else some (.error e, w)
    | none => (w.dirOf fd).map fun d => (.ok (), { w with cwd := d })
  | .close fd => some ((), w.setFd fd none)
  | .getcwd size =>
    match c.failure with
    | some e => some (.error e, w)
    | none =>
      if c.text.strlen < size ∧ w.tree.Names w.cwd c.text.bytes then some (.ok c.text, w)
      else none
  | .time => some (c.number, w)
  | .snprintf _ _ => some (.written, w)
  | .call op =>
    match c.failure with
    | some e => some (.error e, w)
    | none => w.succeed c op

end World

/-- What a call in progress has done: whether it is away in the directory of its descriptor,
and the directory names it got. -/
structure View (Dir : Type) where
  away : Bool
  names : List (CString × Dir)

namespace View

variable (v : View Dir) (w : World Dir Tid)

def after : (a : Action) → a.Answer → View Dir
  | .fchdir fd, (.ok _ : Except Errno Unit) => { v with away := !w.isSaved fd }
  | .getcwd _, (.ok name : Except Errno CString) => { v with names := v.names ++ [(name, w.cwd)] }
  | _, _ => v

end View

structure Running (Dir : Type) where
  call : Call
  rest : Code (Except Errno Reply)
  view : View Dir

/-- An underlying operation, with the call that made it and the state it found. -/
structure Operation (Dir Tid : Type) where
  call : Call
  op : Op
  world : World Dir Tid

structure State (Dir Tid : Type) where
  world : World Dir Tid
  threads : Tid → Option (Running Dir)
  returned : Tid → List (Except Errno Reply)
  operations : List (Operation Dir Tid)

inductive Event (Dir Tid : Type) where
  | begin (t : Tid) (call : Call)
  | act (t : Tid) (c : Choice Dir)

namespace State

/-- Nothing is in progress; `descriptors` are those of the program. -/
def start (cwd : Dir) (tree : FileTree Dir) (descriptors : ℤ → Option (Option Dir)) :
    State Dir Tid where
  world := ⟨cwd, none, fun fd => (descriptors fd).map fun dir => ⟨dir, none⟩, tree⟩
  threads := fun _ => none
  returned := fun _ => []
  operations := []

variable [DecidableEq Tid]

def setThread (s : State Dir Tid) (t : Tid) (running : Option (Running Dir)) : State Dir Tid :=
  { s with threads := Function.update s.threads t running }

section Threads

variable (s : State Dir Tid) (t : Tid) (running : Option (Running Dir))

@[simp] theorem setThread_world : (s.setThread t running).world = s.world := rfl
@[simp] theorem setThread_operations : (s.setThread t running).operations = s.operations := rfl

@[simp]
theorem setThread_self : (s.setThread t running).threads t = running := Function.update_self ..

variable {t}

theorem setThread_of_ne {t' : Tid} (h : t' ≠ t) :
    (s.setThread t running).threads t' = s.threads t' :=
  Function.update_of_ne h ..

theorem setThread_cases {t' : Tid} {r : Running Dir}
    (h : (s.setThread t running).threads t' = some r) :
    (t' = t ∧ running = some r) ∨ (t' ≠ t ∧ s.threads t' = some r) := by
  by_cases ht : t' = t
  · subst ht
    rw [setThread_self] at h
    exact .inl ⟨rfl, h⟩
  · rw [setThread_of_ne _ _ ht] at h
    exact .inr ⟨ht, h⟩

end Threads

/-- Go on with `rest`, or return from the call when nothing is left. -/
def resume (s : State Dir Tid) (t : Tid) (call : Call) (view : View Dir) :
    Code (Except Errno Reply) → State Dir Tid
  | .done result =>
    { s with returned := Function.update s.returned t (s.returned t ++ [result]) }.setThread t none
  | rest => s.setThread t (some ⟨call, rest, view⟩)

def record (s : State Dir Tid) (call : Call) : Action → State Dir Tid
  | .call op => { s with operations := s.operations ++ [⟨call, op, s.world⟩] }
  | _ => s

omit [DecidableEq Tid] in
@[simp]
theorem record_threads (s : State Dir Tid) (call : Call) (a : Action) :
    (s.record call a).threads = s.threads := by
  cases a <;> rfl

omit [DecidableEq Tid] in
theorem mem_record {s : State Dir Tid} {call : Call} {a : Action} {o : Operation Dir Tid}
    (h : o ∈ (s.record call a).operations) :
    o ∈ s.operations ∨ ∃ op, a = .call op ∧ o = ⟨call, op, s.world⟩ := by
  cases a with
  | call op =>
    rcases List.mem_append.mp h with h | h
    · exact .inl h
    · exact .inr ⟨op, rfl, List.mem_singleton.mp h⟩
  | _ => exact .inl h

variable [DecidableEq Dir]

def step (s : State Dir Tid) : Event Dir Tid → Option (State Dir Tid)
  | .begin t call =>
    if (s.threads t).isNone ∧ s.world.admits call then
      some (s.resume t call ⟨false, []⟩ call.code)
    else none
  | .act t c =>
    match s.threads t with
    | some ⟨call, .act a next, view⟩ =>
      (s.world.perform t c a).map fun (x, w) =>
        { s.record call a with world := w }.resume t call (view.after s.world a x) (next x)
    | _ => none

/-- A step begins a call of an idle thread, or makes the next system call of another. -/
theorem step_cases {s s' : State Dir Tid} {e : Event Dir Tid} (h : s.step e = some s') :
    (∃ t call, e = .begin t call ∧ s.threads t = none ∧ s.world.admits call = true ∧
      s' = s.resume t call ⟨false, []⟩ call.code) ∨
    ∃ t c call a next view x w, e = .act t c ∧
      s.threads t = some ⟨call, .act a next, view⟩ ∧ s.world.perform t c a = some (x, w) ∧
      s' = { s.record call a with world := w }.resume t call (view.after s.world a x) (next x) := by
  cases e with
  | begin t call =>
    simp only [step] at h
    split_ifs at h with hbegin
    exact .inl ⟨t, call, rfl, Option.isNone_iff_eq_none.mp hbegin.1, hbegin.2,
      (Option.some.inj h).symm⟩
  | act t c =>
    simp only [step] at h
    split at h
    · next call a next view ht =>
      obtain ⟨⟨x, w⟩, hp, hs⟩ := Option.map_eq_some_iff.mp h
      exact .inr ⟨t, c, call, a, next, view, x, w, rfl, ht, hp, hs.symm⟩
    · cases h

def run (s : State Dir Tid) : List (Event Dir Tid) → Option (State Dir Tid)
  | [] => some s
  | e :: events => (s.step e).bind fun s' => s'.run events

def Quiet (s : State Dir Tid) : Prop := ∀ t, s.threads t = none

end State

end Solcompat.At
