import Solcompat.Lib.CString
import Solcompat.Lib.Handles
import Solcompat.Lib.Program

/-!
# Calls that open descriptors

`pty.c`, with `daemon`, `pipe2`, `dup3` and `mkostemp` of `process.c`, `accept4` of
`network.c` and the mappings of `/dev/zero` of `memory.c`, as programs over the system
calls of Solaris 7. The threads of a process share its descriptors, and a thread is
interrupted between any two of its system calls. A system call that can fail may fail at
any time.
-/

namespace Solcompat.Descriptor

open Lib

/-- What a descriptor refers to. -/
inductive File where
  /-- Opened under a path name. -/
  | opened (path : CString)
  /-- A connection of a listening socket, with the status flags that it got from `accept`. -/
  | accepted (sockfd : ℤ) (status : BitVec 32)
  | pipeEnd (writing : Bool)
  /-- The new file of `mkstemp`. -/
  | temporary
  deriving DecidableEq

/-- A descriptor: its file, the flag `FD_CLOEXEC`, and the status flags of the file. -/
structure Entry where
  file : File
  cloexec : Bool
  status : BitVec 32
  deriving DecidableEq

/-- The system calls that return one new descriptor. -/
inductive Opening where
  | open (path : CString) (flags : BitVec 32)
  | accept (sockfd : ℤ)
  | mkstemp (tmpl : CString)

def oRdwr : BitVec 32 := 0x2

/-- What stands behind the new descriptor. The status flags of a connection are left to the
system: Solaris takes over `FNDELAY` and `FNONBLOCK` of the listening socket. -/
def Opening.entry (inherited : BitVec 32) : Opening → Entry
  | .open path flags => ⟨.opened path, false, flags⟩
  | .accept sockfd => ⟨.accepted sockfd inherited, false, inherited⟩
  | .mkstemp _ => ⟨.temporary, false, oRdwr⟩

/-- What else is done with a descriptor. Only whether it works is seen. -/
inductive Control where
  | grantpt
  | unlockpt
  /-- `ioctl(fd, I_PUSH, module)` -/
  | push (module : CString)
  /-- `tcsetattr(fd, TCSANOW, termp)` -/
  | tcsetattr
  /-- `ioctl(fd, TIOCSWINSZ, winp)` -/
  | setWinsize

inductive Fork where
  | failed
  | child
  | parent (pid : ℤ)

structure Mapping where
  addr : ℤ
  length : ℕ
  prot : BitVec 32
  flags : BitVec 32
  fd : ℤ
  offset : ℤ

inductive Call where
  | new (opening : Opening)
  | pipe
  | close (fd : ℤ)
  | dup2 (oldfd newfd : ℤ)
  /-- `fcntl(fd, F_SETFD, flags)` -/
  | setFd (fd : ℤ) (flags : BitVec 32)
  /-- `fcntl(fd, F_GETFL)` -/
  | getFl (fd : ℤ)
  /-- `fcntl(fd, F_SETFL, flags)` -/
  | setFl (fd : ℤ) (flags : BitVec 32)
  | control (fd : ℤ) (what : Control)
  | ptsname (fd : ℤ)
  | ttyname (fd : ℤ)
  | setsid
  /-- `chdir("/")` -/
  | chdirRoot
  | fork
  | exit (status : ℤ)
  | mmap (mapping : Mapping)

@[reducible]
def Call.Answer : Call → Type
  | new _ => Option ℤ
  | pipe => Option (ℤ × ℤ)
  | close _ => Unit
  | dup2 _ _ | setFd _ _ | setFl _ _ | control _ _ | setsid | chdirRoot => Bool
  | getFl _ => Option (BitVec 32)
  | ptsname _ | ttyname _ => Option CString
  | fork => Fork
  | exit _ => Empty
  | mmap _ => Option ℤ

abbrev Code (R : Type) := Program Call Call.Answer R

section Source

/-- `O_NONBLOCK`, `O_APPEND`, `O_NOCTTY` of Solaris, and `O_CLOEXEC` of `fcntl.h.append` -/
def oNonblock : BitVec 32 := 0x80
def oAppend : BitVec 32 := 0x8
def oNoctty : BitVec 32 := 0x800
def oCloexec : BitVec 32 := 0x800000

def sockCloexec : BitVec 32 := 0x80000
def sockNonblock : BitVec 32 := 0x800

def fdCloexec : BitVec 32 := 0x1

/-- The flag `MAP_ANONYMOUS` of `sys/mman.h.append` -/
def mapAnonymous : BitVec 32 := 0x100

def hasFlag (flags bit : BitVec 32) : Bool := flags &&& bit != 0

def devNull : CString := .ofString "/dev/null"
def devZero : CString := .ofString "/dev/zero"
def devPtmx : CString := .ofString "/dev/ptmx"

def perform (call : Call) : Code call.Answer := Program.perform call

def exit {R : Type} (status : ℤ) : Code R := do
  let never ← perform (.exit status)
  nomatch never

/-- `fcntl(fd, F_SETFL, fcntl(fd, F_GETFL) | flag)`, where the answer -1 of a failed `F_GETFL`
is not looked at. -/
def addStatus (fd : ℤ) (flag : BitVec 32) : Code Unit := do
  let status ← perform (.getFl fd)
  let _ ← perform (.setFl fd (status.getD (-1) ||| flag))
  pure ()

/-- The two blocks of `pipe2` behind `pipe`. -/
def nonblockEnds (reading writing : ℤ) (flags : BitVec 32) : Code Unit := do
  if hasFlag flags oNonblock then
    addStatus reading oNonblock
    addStatus writing oNonblock

def cloexecEnds (reading writing : ℤ) (flags : BitVec 32) : Code Unit := do
  if hasFlag flags oCloexec then
    let _ ← perform (.setFd reading fdCloexec)
    let _ ← perform (.setFd writing fdCloexec)

def pipe2 (flags : BitVec 32) : Code (Option (ℤ × ℤ)) := do
  match ← perform .pipe with
  | none => pure none
  | some (reading, writing) =>
    nonblockEnds reading writing flags
    cloexecEnds reading writing flags
    pure (some (reading, writing))

/-- `none` is -1; `errno` is `EINVAL` for equal descriptors. -/
def dup3 (oldfd newfd : ℤ) (flags : BitVec 32) : Code (Option ℤ) := do
  if oldfd = newfd then pure none
  else if ← perform (.dup2 oldfd newfd) then
    if hasFlag flags oCloexec then
      let _ ← perform (.setFd newfd fdCloexec)
    pure (some newfd)
  else pure none

def mkostemp (tmpl : CString) (flags : BitVec 32) : Code (Option ℤ) := do
  match ← perform (.new (.mkstemp tmpl)) with
  | none => pure none
  | some fd =>
    if hasFlag flags oCloexec then
      let _ ← perform (.setFd fd fdCloexec)
    if hasFlag flags oAppend then
      addStatus fd oAppend
    pure (some fd)

/-- The part of `accept4` behind `SOCK_CLOEXEC`. -/
def accept4Status (fd : ℤ) (flags : BitVec 32) : Code (Option ℤ) := do
  if hasFlag flags sockNonblock then
    match ← perform (.getFl fd) with
    | none =>
      let _ ← perform (.close fd)
      pure none
    | some status =>
      if ← perform (.setFl fd (status ||| oNonblock)) then pure (some fd)
      else
        let _ ← perform (.close fd)
        pure none
  else pure (some fd)

/-- The address that `accept` stores is not looked at. -/
def accept4 (sockfd : ℤ) (flags : BitVec 32) : Code (Option ℤ) := do
  match ← perform (.new (.accept sockfd)) with
  | none => pure none
  | some fd =>
    if hasFlag flags sockCloexec then
      if ← perform (.setFd fd fdCloexec) then accept4Status fd flags
      else
        let _ ← perform (.close fd)
        pure none
    else accept4Status fd flags

/-- `if (fd > 2) close(fd)` -/
def closeHigh (fd : ℤ) : Code Unit := if fd > 2 then perform (.close fd) else pure ()

/-- The three calls of `dup2` that `daemon` makes; their results are not looked at. -/
def toStandard (fd : ℤ) : Code Unit := do
  let _ ← perform (.dup2 fd 0)
  let _ ← perform (.dup2 fd 1)
  let _ ← perform (.dup2 fd 2)
  closeHigh fd

/-- The block of `daemon` under `!noclose`. -/
def nullToStandard : Code Unit := do
  match ← perform (.new (.open devNull oRdwr)) with
  | none => pure ()
  | some fd => toStandard fd

/-- Only the child returns, or the caller when there is none. -/
def daemon (nochdir noclose : Bool) : Code ℤ := do
  match ← perform .fork with
  | .failed => pure (-1)
  | .parent _ => exit 0
  | .child =>
    if ← perform .setsid then
      if !nochdir then
        let _ ← perform .chdirRoot
      if !noclose then nullToStandard
      pure 0
    else pure (-1)

def posixOpenpt (flags : BitVec 32) : Code (Option ℤ) := perform (.new (.open devPtmx flags))

/-- What `openpty` stores through its pointers. -/
structure Pty where
  amaster : ℤ
  aslave : ℤ
  name : CString

/-- `termp` and `winp` are given or not. -/
def openpty (termp winp : Bool) : Code (Option Pty) := do
  match ← posixOpenpt (oRdwr ||| oNoctty) with
  | none => pure none
  | some master =>
    if ← perform (.control master .grantpt) then
      if ← perform (.control master .unlockpt) then
        match ← perform (.ptsname master) with
        | none =>
          let _ ← perform (.close master)
          pure none
        | some slavename =>
          match ← perform (.new (.open slavename (oRdwr ||| oNoctty))) with
          | none =>
            let _ ← perform (.close master)
            pure none
          | some slave =>
            let _ ← perform (.control slave (.push (.ofString "ptem")))
            let _ ← perform (.control slave (.push (.ofString "ldterm")))
            let _ ← perform (.control slave (.push (.ofString "ttcompat")))
            if termp then
              let _ ← perform (.control slave .tcsetattr)
            if winp then
              let _ ← perform (.control slave .setWinsize)
            pure (some ⟨master, slave, slavename⟩)
      else
        let _ ← perform (.close master)
        pure none
    else
      let _ ← perform (.close master)
      pure none

/-- The terminal is opened once more, to make it the controlling terminal. -/
def reopenTty (fd : ℤ) : Code Unit := do
  match ← perform (.ttyname fd) with
  | none => pure ()
  | some tty =>
    match ← perform (.new (.open tty oRdwr)) with
    | none => pure ()
    | some tmpfd => perform (.close tmpfd)

def loginTty (fd : ℤ) : Code Bool := do
  if ← perform .setsid then
    reopenTty fd
    if !(← perform (.dup2 fd 0)) then return false
    if !(← perform (.dup2 fd 1)) then return false
    if !(← perform (.dup2 fd 2)) then return false
    closeHigh fd
    return true
  else return false

/-- The result of `forkpty`: -1, 0, or the process with the master. -/
inductive Forked where
  | failed
  | child
  | parent (pid amaster : ℤ)

/-- The name is the one that `openpty` stores. -/
def forkpty (termp winp : Bool) : Code (Forked × Option CString) := do
  match ← openpty termp winp with
  | none => pure (.failed, none)
  | some pty =>
    match ← perform .fork with
    | .failed =>
      let _ ← perform (.close pty.amaster)
      let _ ← perform (.close pty.aslave)
      pure (.failed, some pty.name)
    | .child =>
      let _ ← perform (.close pty.amaster)
      if ← loginTty pty.aslave then pure (.child, some pty.name)
      else exit 1
    | .parent pid =>
      let _ ← perform (.close pty.aslave)
      pure (.parent pid pty.amaster, some pty.name)

/-- `solcompat_mmap_anon`; `none` is `MAP_FAILED`. -/
def solcompatMmapAnon (addr : ℤ) (length : ℕ) (prot flags : BitVec 32) : Code (Option ℤ) := do
  match ← perform (.new (.open devZero oRdwr)) with
  | none => pure none
  | some fd =>
    let result ← perform (.mmap ⟨addr, length, prot, flags &&& ~~~ mapAnonymous, fd, 0⟩)
    let _ ← perform (.close fd)
    pure result

/-- `do_mmap_anon_fixup` and `do_mmap64_anon_fixup`, which call `mmap` and `mmap64`. -/
def doMmapAnonFixup (mapping : Mapping) : Code (Option ℤ) :=
  if hasFlag mapping.flags mapAnonymous then
    solcompatMmapAnon mapping.addr mapping.length mapping.prot mapping.flags
  else perform (.mmap mapping)

end Source

/-- The descriptors of the process, the `fcntl` and `dup2` calls that have failed, and whether
no new descriptor was to be had. -/
structure Process where
  fds : Handles ℤ Entry
  refused : List Call
  exhausted : Bool

namespace Process

/-- A process before a call: the descriptors, and those that other threads leave alone. -/
def start (table : ℤ → Option Entry) (kept : Set ℤ) : Process := ⟨⟨table, ∅, kept⟩, [], false⟩

variable (p : Process)

def put (fd : ℤ) (entry : Entry) : Process := { p with fds := p.fds.put fd entry }

def refuse (call : Call) : Process := { p with refused := call :: p.refused }

def Changed (call : Call) (fd : ℤ) (f : Entry → Entry) (ok : Bool) (p' : Process) : Prop :=
  if ok then ∃ entry, p.fds.table fd = some entry ∧ p' = p.put fd (f entry)
  else p' = p.refuse call

/-- What a system call may answer, and leave behind. After `fork` the child has one thread. -/
def Sem (p : Process) : (call : Call) → call.Answer → Process → Prop
  | .new _, none, p' => p' = { p with exhausted := true }
  | .new opening, some fd, p' =>
    0 ≤ fd ∧ p.fds.table fd = none ∧ ∃ inherited, p' = p.put fd (opening.entry inherited)
  | .pipe, none, p' => p' = p
  | .pipe, some (reading, writing), p' =>
    reading ≠ writing ∧ p.fds.table reading = none ∧ p.fds.table writing = none ∧
      p' = (p.put reading ⟨.pipeEnd false, false, oRdwr⟩).put writing ⟨.pipeEnd true, false, oRdwr⟩
  | .close fd, _, p' => p' = { p with fds := p.fds.remove fd }
  | .dup2 oldfd newfd, ok, p' =>
    if ok then ∃ entry, p.fds.table oldfd = some entry ∧
      p' = if oldfd = newfd then p else p.put newfd { entry with cloexec := false }
    else p' = p.refuse (.dup2 oldfd newfd)
  | .setFd fd flags, ok, p' =>
    p.Changed (.setFd fd flags) fd
      (fun entry => { entry with cloexec := hasFlag flags fdCloexec }) ok p'
  | .getFl fd, none, p' => p' = p.refuse (.getFl fd)
  | .getFl fd, some status, p' =>
    p' = p ∧ ∃ entry, p.fds.table fd = some entry ∧ entry.status = status
  | .setFl fd flags, ok, p' =>
    p.Changed (.setFl fd flags) fd (fun entry => { entry with status := flags }) ok p'
  | .control _ _, _, p' | .ptsname _, _, p' | .ttyname _, _, p' | .setsid, _, p'
  | .chdirRoot, _, p' | .mmap _, _, p' => p' = p
  | .fork, .child, p' => p' = { p with fds := p.fds.alone }
  | .fork, _, p' => p' = p

/-- Except for `dup2`, which is told what to replace, a call only works on descriptors that it
has itself. The system does not know the flag `MAP_ANONYMOUS`. -/
def Ok (p : Process) : Call → Prop
  | .close fd | .setFd fd _ | .getFl fd | .setFl fd _ | .control fd _ | .ptsname fd
  | .ttyname fd => fd ∈ p.fds.mine
  | .mmap mapping => hasFlag mapping.flags mapAnonymous = false
  | _ => True

end Process

def surroundings : Program.Surroundings Call Call.Answer Process where
  rely p p' := Handles.Rely p.fds p'.fds ∧ p'.refused = p.refused ∧ p'.exhausted = p.exhausted
  given _ _ := True
  ok := Process.Ok
  sem := Process.Sem

end Solcompat.Descriptor
