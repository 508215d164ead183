import Solcompat.Lib.Buffer
import Solcompat.Lib.Memory

/-!
# `execvpe`

What `execve` makes of each path it is given is known in advance, call by call; a call that
succeeds does not return. Beside the loop over the text of the path stands the search over a
list of candidates that it amounts to.
-/

namespace Solcompat.Process

open Solcompat.Lib

def ENOENT : Errno := .system 2

def EACCES : Errno := .system 13

def ENOTDIR : Errno := .system 20

def pathMax : ℕ := 1024

/-- A call of `execvpe` and what it meets; `argv` is only handed on. -/
structure ExecCall where
  filename : CString
  /-- The entries of `envp`; none is the null pointer. -/
  envp : Option (List CString)
  /-- `getenv("PATH")` -/
  callerPath : Option CString
  /-- How `execve` fails on a path, after so many calls; none if it succeeds. -/
  execve : ℕ → List UInt8 → Option Errno
  /-- What `candidate_path` holds at first. -/
  candidatePath : Buffer
  size_eq : candidatePath.length = pathMax

/-- What a search has done so far. -/
structure Search where
  /-- The paths that `execve` was called with. -/
  tried : List (List UInt8)
  replaced : Bool
  /-- `saved_errno`; none for 0. -/
  savedErrno : Option Errno
  /-- `errno`; none while the call has not set it. -/
  errno : Option Errno
  deriving DecidableEq

/-- `if (saved_errno != 0) errno = saved_errno;` -/
def Search.report (s : Search) : Search := { s with errno := s.savedErrno.or s.errno }

def findPath : List CString → Option CString
  | [] => none
  | entry :: entries =>
    if entry.strncmp (.ofString "PATH=") 5 = 0 then some (entry.drop 5) else findPath entries

namespace ExecCall

variable (c : ExecCall)

def searchPath : CString :=
  match (c.envp.bind findPath).or c.callerPath with
  | none => .ofString "/usr/bin:/bin"
  | some path => if path.read 0 = some 0 then .ofString "/usr/bin:/bin" else path

/-- `execve` with what follows it: whether the search goes on. -/
def attempt (path : List UInt8) (s : Search) : Bool × Search :=
  let tried := s.tried ++ [path]
  match c.execve s.tried.length path with
  | none => (false, { s with tried, replaced := true })
  | some e =>
    if e = EACCES then (true, { s with tried, errno := some e, savedErrno := some EACCES })
    else if e ≠ ENOENT ∧ e ≠ ENOTDIR then (false, { s with tried, errno := some e })
    else (true, { s with tried, errno := some e })

/-- The candidate in the current working directory. -/
def buildHere (buffer : Buffer) : Option Buffer := do
  let buffer ← buffer.store 0 [ch '.']
  let buffer ← buffer.store 1 [ch '/']
  buffer.store 2 (c.filename.bytes ++ [0])

/-- The candidate in the directory of the component. -/
def buildIn (componentStart : CString) (dirLength : ℕ) (buffer : Buffer) : Option Buffer := do
  let buffer ← buffer.store 0 (componentStart.bytes.take dirLength)
  let buffer ← buffer.store dirLength [ch '/']
  buffer.store (dirLength + 1) (c.filename.bytes ++ [0])

/-- What is built for a component: none is a store outside of the buffer, and `some none` a
candidate that is skipped. -/
def build (componentStart : CString) (dirLength : ℕ) (buffer : Buffer) : Option (Option Buffer) :=
  if dirLength = 0 then
    if c.filename.strlen + 3 ≤ pathMax then (c.buildHere buffer).map some else some none
  else if dirLength + 1 + c.filename.strlen + 1 ≤ pathMax then
    (c.buildIn componentStart dirLength buffer).map some
  else some none

/-- The loop over the components, for at most so many rounds. -/
def searchLoop : ℕ → Option CString → Buffer → Search → Option Search
  | 0, _, _, _ => none
  | _ + 1, none, _, s => some s
  | rounds + 1, some componentStart, buffer, s =>
    let componentEnd := componentStart.strchr (ch ':')
    let dirLength := (componentEnd.map fun e => componentStart.strlen - e.strlen).getD
      componentStart.strlen
    let next := componentEnd.map (·.drop 1)
    match c.build componentStart dirLength buffer with
    | none => none
    | some none => searchLoop rounds next buffer s
    | some (some buffer) =>
      let (goesOn, s) := c.attempt buffer.text s
      if goesOn then searchLoop rounds next buffer s else some s

/-- `execvpe`; the answer is none if a byte is stored outside of `candidate_path` or the loop
does not end. -/
def execvpe : Option Search :=
  if (c.filename.strchr (ch '/')).isSome then
    some (c.attempt c.filename.bytes ⟨[], false, none, none⟩).2
  else
    (c.searchLoop (c.searchPath.strlen + 2) (some c.searchPath) c.candidatePath
      ⟨[], false, none, none⟩).map Search.report

end ExecCall

end Solcompat.Process
