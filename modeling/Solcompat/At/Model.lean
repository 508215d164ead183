import Mathlib.Logic.Function.Basic
import Solcompat.Lib.FileTree
import Solcompat.Lib.Memory
import Solcompat.Lib.Program

/-!
# Calls relative to a directory descriptor

`at_funcs.c`, with `utimensat` and `fdopendir` of `filesystem.c`, as programs over the
system calls of Solaris 7. The working directory belongs to the process, so the calls of
different threads meet in it: a thread is interrupted between any two of its system calls.
The kernel decides the outcome of a system call; a `Choice` holds all of its decisions.
-/

namespace Solcompat.At

open Lib

/-- The two times of `struct stat` that the modelled code reads. -/
structure Stat where
  atime : ℤ
  mtime : ℤ
  deriving DecidableEq

structure Timespec where
  sec : ℤ
  nsec : ℤ
  deriving DecidableEq

/-- The plain system calls behind the emulation. A null path name is `none`. -/
inductive Op where
  | open (path : Option CString) (flags mode : BitVec 32)
  | mkdir (path : Option CString) (mode : BitVec 32)
  | rename (old new : CString)
  | rmdir (path : Option CString)
  | unlink (path : Option CString)
  | stat (path : Option CString)
  | lstat (path : Option CString)
  | chown (path : Option CString) (owner group : ℤ)
  | lchown (path : Option CString) (owner group : ℤ)
  | chmod (path : Option CString) (mode : BitVec 32)
  | readlink (path : Option CString) (bufsiz : ℕ)
  | symlink (target path : Option CString)
  | link (old new : CString)
  | access (path : Option CString) (mode : BitVec 32)
  | utime (path : CString) (times : Option (ℤ × ℤ))
  | opendir (path : CString)

namespace Op

/-- The path names the kernel looks up. The target of a symbolic link is only text. -/
def paths : Op → List (Option CString)
  | .open path _ _ | mkdir path _ | rmdir path | unlink path | stat path | lstat path
  | chown path _ _ | lchown path _ _ | chmod path _ | readlink path _ | symlink _ path
  | access path _ => [path]
  | rename old new | link old new => [some old, some new]
  | utime path _ | opendir path => [some path]

@[reducible]
def Reply : Op → Type
  | stat _ | lstat _ => Stat
  | readlink _ _ => List UInt8
  | _ => ℤ

end Op

/-- How `solcompat_snprintf` ends: its string is in the buffer, or memory was refused, the
result was -1, and the buffer still holds what happened to be there. -/
inductive Formatting where
  | written
  | refused (left : CString)

inductive Action where
  /-- `pthread_mutex_lock(&at_mutex)` -/
  | lock
  /-- `pthread_mutex_unlock(&at_mutex)` -/
  | unlock
  /-- `open(".", O_RDONLY)` -/
  | openDot
  | fchdir (fd : ℤ)
  | close (fd : ℤ)
  | getcwd (size : ℕ)
  /-- `time(NULL)` -/
  | time
  /-- `solcompat_snprintf(full, sizeof(full), "%s/%s", dirpath, path)` -/
  | snprintf (dirpath path : CString)
  | call (op : Op)

@[reducible]
def Action.Answer : Action → Type
  | lock | unlock | close _ => Unit
  | openDot => Except Errno ℤ
  | fchdir _ => Except Errno Unit
  | getcwd _ => Except Errno CString
  | time => ℤ
  | snprintf _ _ => Formatting
  | call op => Except Errno op.Reply

abbrev Code (R : Type) := Program Action Action.Answer R

section Primitives

def pthreadMutexLock : Code Unit := Program.perform Action.lock
def pthreadMutexUnlock : Code Unit := Program.perform Action.unlock
def openDot : Code (Except Errno ℤ) := Program.perform Action.openDot
def fchdir (fd : ℤ) : Code (Except Errno Unit) := Program.perform (Action.fchdir fd)
def close (fd : ℤ) : Code Unit := Program.perform (Action.close fd)
def getcwd (size : ℕ) : Code (Except Errno CString) := Program.perform (Action.getcwd size)
def timeNow : Code ℤ := Program.perform Action.time
def snprintf (dirpath path : CString) : Code Formatting :=
  Program.perform (Action.snprintf dirpath path)
def syscall (op : Op) : Code (Except Errno op.Reply) := Program.perform (Action.call op)

end Primitives

section Source

/-- `AT_FDCWD`, the value of Solaris 9 and later -/
def atFdcwd : ℤ := -3041965

def atFdcwdLinux : ℤ := -100

def isAtFdcwd (fd : ℤ) : Bool := fd == atFdcwd || fd == atFdcwdLinux

def atSymlinkNofollow : BitVec 32 := 0x100
def atRemovedir : BitVec 32 := 0x200

def oCreat : BitVec 32 := 0x100

def hasFlag (flags bit : BitVec 32) : Bool := flags &&& bit != 0

/-- `path[0] == '/'` -/
def isAbsolute (path : CString) : Bool := FileTree.isAbsolute path.bytes

/-- The size of every path buffer in the source. -/
def bufSize : ℕ := 1024

/-- `strlcpy(full, path, sizeof(full))` -/
def strlcpy (path : CString) : CString := path.take (bufSize - 1)

/-- The two strings with a slash between them. -/
def slashJoin (dirpath path : CString) : CString where
  bytes := dirpath.bytes ++ ch '/' :: path.bytes
  nulFree := by
    intro b hb
    rcases List.mem_append.mp hb with hb | hb
    · exact dirpath.nulFree b hb
    · rcases List.mem_cons.mp hb with rfl | hb
      · decide
      · exact path.nulFree b hb

/-- What `solcompat_snprintf(full, sizeof(full), "%s/%s", dirpath, path)` writes. -/
def snprintfPath (dirpath path : CString) : CString := (slashJoin dirpath path).take (bufSize - 1)

/-- The buffer behind the call, whose result is not looked at. -/
def Formatting.full (dirpath path : CString) : Formatting → CString
  | written => snprintfPath dirpath path
  | refused left => left

/-- Lock, save the working directory in a descriptor, and enter the directory of `dirfd`
unless the path does not need it. -/
def atEnter (dirfd : ℤ) (path : Option CString) : Code (Except Errno ℤ) := do
  let _ ← pthreadMutexLock
  match ← openDot with
  | .error e =>
    let _ ← pthreadMutexUnlock
    pure (.error e)
  | .ok savedFd =>
    if path.any isAbsolute then pure (.ok savedFd)
    else if isAtFdcwd dirfd then pure (.ok savedFd)
    else
      match ← fchdir dirfd with
      | .error e =>
        let _ ← close savedFd
        let _ ← pthreadMutexUnlock
        pure (.error e)
      | .ok _ => pure (.ok savedFd)

def atLeave (savedFd : ℤ) : Code Unit := do
  if 0 ≤ savedFd then
    let _ ← fchdir savedFd
    let _ ← close savedFd
  pthreadMutexUnlock

/-- The path name of the directory of a descriptor, by `fchdir` and `getcwd`. -/
def resolveDirfdPath (dirfd : ℤ) : Code (Except Errno CString) := do
  match ← openDot with
  | .error e => pure (.error e)
  | .ok saved =>
    match ← fchdir dirfd with
    | .error e =>
      let _ ← close saved
      pure (.error e)
    | .ok _ =>
      let p ← getcwd bufSize
      let _ ← fchdir saved
      let _ ← close saved
      pure p

/-- The body of the functions with one path: enter, one system call, leave. -/
def between (dirfd : ℤ) (pathname : Option CString) (op : Op) : Code (Except Errno op.Reply) := do
  match ← atEnter dirfd pathname with
  | .error e => pure (.error e)
  | .ok saved =>
    let result ← syscall op
    let _ ← atLeave saved
    pure result

def openat (dirfd : ℤ) (pathname : Option CString) (flags modeArg : BitVec 32) :
    Code (Except Errno ℤ) :=
  between dirfd pathname
    (.open pathname flags (if hasFlag flags oCreat then modeArg else 0))

def mkdirat (dirfd : ℤ) (pathname : Option CString) (mode : BitVec 32) : Code (Except Errno ℤ) :=
  between dirfd pathname (.mkdir pathname mode)

def unlinkat (dirfd : ℤ) (pathname : Option CString) (flags : BitVec 32) :
    Code (Except Errno ℤ) :=
  if hasFlag flags atRemovedir then between dirfd pathname (.rmdir pathname)
  else between dirfd pathname (.unlink pathname)

def fstatat (dirfd : ℤ) (pathname : Option CString) (flags : BitVec 32) :
    Code (Except Errno Stat) :=
  if hasFlag flags atSymlinkNofollow then between dirfd pathname (.lstat pathname)
  else between dirfd pathname (.stat pathname)

def fchownat (dirfd : ℤ) (pathname : Option CString) (owner group : ℤ) (flags : BitVec 32) :
    Code (Except Errno ℤ) :=
  if hasFlag flags atSymlinkNofollow then between dirfd pathname (.lchown pathname owner group)
  else between dirfd pathname (.chown pathname owner group)

/-- The flags are ignored. -/
def fchmodat (dirfd : ℤ) (pathname : Option CString) (mode _flags : BitVec 32) :
    Code (Except Errno ℤ) :=
  between dirfd pathname (.chmod pathname mode)

def readlinkat (dirfd : ℤ) (pathname : Option CString) (bufsiz : ℕ) :
    Code (Except Errno (List UInt8)) :=
  between dirfd pathname (.readlink pathname bufsiz)

def symlinkat (target : Option CString) (newdirfd : ℤ) (linkpath : Option CString) :
    Code (Except Errno ℤ) :=
  between newdirfd linkpath (.symlink target linkpath)

/-- The flags are ignored. -/
def faccessat (dirfd : ℤ) (pathname : Option CString) (mode _flags : BitVec 32) :
    Code (Except Errno ℤ) :=
  between dirfd pathname (.access pathname mode)

/-- The block of `renameat` and `linkat` that fills `old_full` or `new_full`. -/
def fullPath (dirfd : ℤ) (path : CString) : Code (Except Errno CString) := do
  if isAbsolute path || isAtFdcwd dirfd then pure (.ok (strlcpy path))
  else
    match ← resolveDirfdPath dirfd with
    | .error e => pure (.error e)
    | .ok dirpath =>
      let outcome ← snprintf dirpath path
      pure (.ok (outcome.full dirpath path))

/-- Resolve both paths under the lock and make the system call on the results. -/
def onFullPaths (olddirfd : ℤ) (oldpath : CString) (newdirfd : ℤ) (newpath : CString)
    (call : CString → CString → Code (Except Errno ℤ)) : Code (Except Errno ℤ) := do
  let _ ← pthreadMutexLock
  match ← fullPath olddirfd oldpath with
  | .error e =>
    let _ ← pthreadMutexUnlock
    pure (.error e)
  | .ok oldFull =>
    match ← fullPath newdirfd newpath with
    | .error e =>
      let _ ← pthreadMutexUnlock
      pure (.error e)
    | .ok newFull =>
      let result ← call oldFull newFull
      let _ ← pthreadMutexUnlock
      pure result

/-- With both descriptors `AT_FDCWD` no lock is taken. -/
def renameat (olddirfd : ℤ) (oldpath : CString) (newdirfd : ℤ) (newpath : CString) :
    Code (Except Errno ℤ) :=
  if isAtFdcwd olddirfd && isAtFdcwd newdirfd then syscall (.rename oldpath newpath)
  else onFullPaths olddirfd oldpath newdirfd newpath fun old new => syscall (.rename old new)

/-- The flags are ignored. -/
def linkat (olddirfd : ℤ) (oldpath : CString) (newdirfd : ℤ) (newpath : CString)
    (_flags : BitVec 32) : Code (Except Errno ℤ) :=
  onFullPaths olddirfd oldpath newdirfd newpath fun old new => syscall (.link old new)

/-- `UTIME_NOW` and `UTIME_OMIT` -/
def utimeNow : ℤ := 2 ^ 30 - 1
def utimeOmit : ℤ := 2 ^ 30 - 2

def newTime (now : ℤ) (old : ℤ) (ts : Timespec) : ℤ :=
  if ts.nsec = utimeNow then now else if ts.nsec = utimeOmit then old else ts.sec

/-- The part of `utimensat` behind the path resolution. Without `UTIME_OMIT` the result of
`stat` is not read, so that its value there does not matter. -/
def utimeFull (fullpath : CString) : Option (Timespec × Timespec) → Code (Except Errno ℤ)
  | none => syscall (.utime fullpath none)
  | some (actime, modtime) => do
    let now ← timeNow
    if actime.nsec = utimeOmit ∨ modtime.nsec = utimeOmit then
      match ← syscall (.stat (some fullpath)) with
      | .error e => pure (.error e)
      | .ok (st : Stat) =>
        syscall (.utime fullpath
          (some (newTime now st.atime actime, newTime now st.mtime modtime)))
    else
      syscall (.utime fullpath (some (newTime now 0 actime, newTime now 0 modtime)))

/-- `utimensat` makes the moves of `resolve_dirfd_path` itself, and takes no lock. -/
def utimensat (dirfd : ℤ) (pathname : CString) (times : Option (Timespec × Timespec))
    (_flags : BitVec 32) : Code (Except Errno ℤ) := do
  if isAbsolute pathname || isAtFdcwd dirfd then utimeFull (strlcpy pathname) times
  else
    match ← openDot with
    | .error e => pure (.error e)
    | .ok savedFd =>
      match ← fchdir dirfd with
      | .error e =>
        let _ ← close savedFd
        pure (.error e)
      | .ok _ =>
        match ← getcwd bufSize with
        | .error e =>
          let _ ← fchdir savedFd
          let _ ← close savedFd
          pure (.error e)
        | .ok cwd =>
          let _ ← fchdir savedFd
          let _ ← close savedFd
          let outcome ← snprintf cwd pathname
          utimeFull (outcome.full cwd pathname) times

/-- Every failure before `opendir` is reported as `EBADF`. -/
def fdopendir (fd : ℤ) : Code (Except Errno ℤ) := do
  match ← openDot with
  | .error _ => pure (.error .EBADF)
  | .ok saved =>
    match ← fchdir fd with
    | .error _ =>
      let _ ← close saved
      pure (.error .EBADF)
    | .ok _ =>
      let p ← getcwd bufSize
      let _ ← fchdir saved
      let _ ← close saved
      match p with
      | .error _ => pure (.error .EBADF)
      | .ok dirpath => syscall (.opendir dirpath)

end Source

end Solcompat.At
