import Solcompat.Lib.Labelled
import Solcompat.Lib.Program
import Solcompat.Lib.RecordLocks

/-!
# Locks on whole files

`flock` of `filesystem.c` locks all bytes of a file with `fcntl`. The locks of `fcntl` belong to
processes and are lost when the process closes any descriptor of the file; those of `flock` should
belong to the open file. As long as no process has a file open twice there is no difference: every
run is one of locks that belong to open files, with the same answers.
-/

namespace Solcompat.Filesystem

open Lib

/-- The values of `errno` of a lock request. -/
inductive LockError
  | EACCES
  | EAGAIN
  | EBADF
  | EDEADLK
  | EINTR
  | EINVAL
  | ENOLCK
  deriving DecidableEq, Repr

def ewouldblock : LockError := .EAGAIN

def lockSh : UInt32 := 1
def lockEx : UInt32 := 2
def lockNb : UInt32 := 4
def lockUn : UInt32 := 8

def isSet (operation flag : UInt32) : Bool := operation &&& flag != 0

/-- `l_type` -/
inductive LockType
  | rdlck
  | wrlck
  | unlck
  deriving DecidableEq, Repr

inductive LockCmd
  | setlk
  | setlkw
  deriving DecidableEq, Repr

/-- `struct flock`, with `SEEK_SET`. The length zero reaches to the end. -/
structure FlockRecord where
  lType : LockType
  lStart : ℕ
  lLen : ℕ
  deriving DecidableEq, Repr

/-- The lock that is asked for, if the operation is a valid one. -/
def lockType (operation : UInt32) : Option LockType :=
  if isSet operation lockUn then some .unlck
  else if isSet operation lockEx then some .wrlck
  else if isSet operation lockSh then some .rdlck
  else none

def lockCmd (operation : UInt32) : LockCmd := if isSet operation lockNb then .setlk else .setlkw

/-- What is made of the answer of `fcntl`. -/
def flockResult : Except LockError Unit → Except LockError Unit
  | .error errno => .error (if errno = .EACCES then ewouldblock else errno)
  | .ok () => .ok ()

def flock (operation : UInt32) :
    Program (LockCmd × FlockRecord) (fun _ => Except LockError Unit) (Except LockError Unit) :=
  match lockType operation with
  | none => .done (.error .EINVAL)
  | some lType =>
    .act (lockCmd operation, ⟨lType, 0, 0⟩) fun answer => .done (flockResult answer)

def LockType.access : LockType → Option Access
  | .rdlck => some .read
  | .wrlck => some .write
  | .unlck => none

def FlockRecord.range (fl : FlockRecord) : Set ℕ :=
  {x | fl.lStart ≤ x ∧ (fl.lLen = 0 ∨ x < fl.lStart + fl.lLen)}

structure OpenFile (F : Type) where
  file : F
  reads : Bool
  writes : Bool

/-- The descriptor is open for what is to be locked. -/
def OpenFile.Allows {F : Type} (d : OpenFile F) : Access → Prop
  | .read => d.reads = true
  | .write => d.writes = true

structure Host (P F : Type) where
  descs : P → ℕ → Option (OpenFile F)
  locks : F → LockTable P

/-- Processes open and close files and call `flock`, or `fcntl` on their own. -/
inductive LockEvent (P F : Type)
  | openFile (p : P) (fd : ℕ) (d : OpenFile F)
  | close (p : P) (fd : ℕ)
  | flock (p : P) (fd : ℕ) (operation : UInt32) (result : Except LockError Unit)
  | fcntl (p : P) (fd : ℕ) (cmd : LockCmd) (fl : FlockRecord) (result : Except LockError Unit)

def LockEvent.process {P F : Type} : LockEvent P F → P
  | .openFile p .. => p
  | .close p .. => p
  | .flock p .. => p
  | .fcntl p .. => p

/-- No locks but those of `flock`. -/
def LockEvent.Whole {P F : Type} : LockEvent P F → Prop
  | .fcntl .. => False
  | _ => True

section System

variable {P F : Type} [DecidableEq P] [DecidableEq F]

namespace Host

def start : Host P F := ⟨fun _ _ => none, fun _ => .empty⟩

def setDesc (w : Host P F) (p : P) (fd : ℕ) (d : Option (OpenFile F)) : Host P F :=
  { w with descs := Function.update w.descs p (Function.update (w.descs p) fd d) }

noncomputable def lock (w : Host P F) (p : P) (f : F) (r : Set ℕ) (a : Option Access) : Host P F :=
  { w with locks := Function.update w.locks f ((w.locks f).put p r a) }

/-- The system call `fcntl` with its answer. A request of `F_SETLKW` that clashes is answered when
it does not any more, or when it is given up. -/
inductive Fcntl (w : Host P F) (p : P) (fd : ℕ) (cmd : LockCmd) (fl : FlockRecord) :
    Except LockError Unit → Host P F → Prop
  | closed (hd : w.descs p fd = none) : Fcntl w p fd cmd fl (.error .EBADF) w
  | mode {d : OpenFile F} {a : Access} (hd : w.descs p fd = some d)
      (ha : fl.lType.access = some a) (hmode : ¬ d.Allows a) : Fcntl w p fd cmd fl (.error .EBADF) w
  | unlock {d : OpenFile F} (hd : w.descs p fd = some d) (ha : fl.lType.access = none) :
      Fcntl w p fd cmd fl (.ok ()) (w.lock p d.file fl.range none)
  | grant {d : OpenFile F} {a : Access} (hd : w.descs p fd = some d)
      (ha : fl.lType.access = some a) (hmode : d.Allows a)
      (hgrants : (w.locks d.file).Grants p fl.range a) :
      Fcntl w p fd cmd fl (.ok ()) (w.lock p d.file fl.range (some a))
  | busy {d : OpenFile F} {a : Access} {e : LockError} (hd : w.descs p fd = some d)
      (ha : fl.lType.access = some a) (hmode : d.Allows a)
      (hclash : ¬ (w.locks d.file).Grants p fl.range a) (hcmd : cmd = .setlk)
      (he : e = .EACCES ∨ e = .EAGAIN) : Fcntl w p fd cmd fl (.error e) w
  | givenUp {d : OpenFile F} {a : Access} {e : LockError} (hd : w.descs p fd = some d)
      (ha : fl.lType.access = some a) (hmode : d.Allows a)
      (hclash : ¬ (w.locks d.file).Grants p fl.range a) (hcmd : cmd = .setlkw)
      (he : e = .EINTR ∨ e = .EDEADLK) : Fcntl w p fd cmd fl (.error e) w
  | full {d : OpenFile F} (hd : w.descs p fd = some d) : Fcntl w p fd cmd fl (.error .ENOLCK) w

/-- The calls of a program, one after the other. -/
def Serves (p : P) (fd : ℕ) :
    List ((_ : LockCmd × FlockRecord) × Except LockError Unit) → Host P F → Host P F → Prop
  | [], w, w' => w' = w
  | ⟨(cmd, fl), answer⟩ :: rest, w, w' =>
    ∃ w₁, Fcntl w p fd cmd fl answer w₁ ∧ Serves p fd rest w₁ w'

inductive Step : Host P F → LockEvent P F → Host P F → Prop
  | openFile {w : Host P F} {p : P} {fd : ℕ} {d : OpenFile F} (hfree : w.descs p fd = none) :
      Step w (.openFile p fd d) (w.setDesc p fd (some d))
  | close {w : Host P F} {p : P} {fd : ℕ} {d : OpenFile F} (hd : w.descs p fd = some d) :
      Step w (.close p fd) ((w.setDesc p fd none).lock p d.file Set.univ none)
  | flock {w w' : Host P F} {p : P} {fd : ℕ} {operation : UInt32} {result : Except LockError Unit}
      {trace : List ((_ : LockCmd × FlockRecord) × Except LockError Unit)}
      (hcall : (Filesystem.flock operation).Runs trace result) (hserves : Serves p fd trace w w') :
      Step w (.flock p fd operation result) w'
  | fcntl {w w' : Host P F} {p : P} {fd : ℕ} {cmd : LockCmd} {fl : FlockRecord}
      {result : Except LockError Unit} (hcall : Fcntl w p fd cmd fl result w') :
      Step w (.fcntl p fd cmd fl result) w'

/-- No process has a file open twice. -/
def Once (w : Host P F) : Prop :=
  ∀ p fd fd' d d', w.descs p fd = some d → w.descs p fd' = some d' → d.file = d'.file → fd = fd'

/-- A step with no locks but those of `flock`, while no process has a file open twice. -/
def OnceStep (w : Host P F) (e : LockEvent P F) (w' : Host P F) : Prop :=
  Step w e w' ∧ e.Whole ∧ w.Once ∧ w'.Once

end Host

/-- The purpose of `flock`: every open file has a lock or none. -/
structure OpenFiles (P F : Type) where
  descs : P → ℕ → Option (OpenFile F)
  held : P → ℕ → Option Access

namespace OpenFiles

def start : OpenFiles P F := ⟨fun _ _ => none, fun _ _ => none⟩

def setDesc (s : OpenFiles P F) (p : P) (fd : ℕ) (d : Option (OpenFile F)) : OpenFiles P F :=
  { s with descs := Function.update s.descs p (Function.update (s.descs p) fd d) }

def setHeld (s : OpenFiles P F) (p : P) (fd : ℕ) (a : Option Access) : OpenFiles P F :=
  { s with held := Function.update s.held p (Function.update (s.held p) fd a) }

/-- No other open file has a lock that clashes. -/
def Grants (s : OpenFiles P F) (p : P) (fd : ℕ) (f : F) (a : Access) : Prop :=
  ∀ q fd', (q, fd') ≠ (p, fd) → ∀ d ∈ s.descs q fd', d.file = f →
    ∀ b ∈ s.held q fd', ¬ a.Clashes b

/-- No two open files have locks on the same file that clash. -/
def Exclusive (s : OpenFiles P F) : Prop :=
  ∀ p fd q fd' d d', (q, fd') ≠ (p, fd) → s.descs p fd = some d → s.descs q fd' = some d' →
    d'.file = d.file → ∀ a ∈ s.held p fd, ∀ b ∈ s.held q fd', ¬ a.Clashes b

/-- The answer and the lock of the open file afterwards. -/
inductive Flock (s : OpenFiles P F) (p : P) (fd : ℕ) (operation : UInt32) :
    Except LockError Unit → Option Access → Prop
  | invalid (htype : lockType operation = none) :
      Flock s p fd operation (.error .EINVAL) (s.held p fd)
  | closed (hd : s.descs p fd = none) : Flock s p fd operation (.error .EBADF) (s.held p fd)
  | mode {d : OpenFile F} {a : Access} (hd : s.descs p fd = some d)
      (ha : (lockType operation).map LockType.access = some (some a)) (hmode : ¬ d.Allows a) :
      Flock s p fd operation (.error .EBADF) (s.held p fd)
  | unlock {d : OpenFile F} (hd : s.descs p fd = some d)
      (ha : (lockType operation).map LockType.access = some none) :
      Flock s p fd operation (.ok ()) none
  | grant {d : OpenFile F} {a : Access} (hd : s.descs p fd = some d)
      (ha : (lockType operation).map LockType.access = some (some a)) (hmode : d.Allows a)
      (hgrants : s.Grants p fd d.file a) : Flock s p fd operation (.ok ()) (some a)
  | wouldBlock {d : OpenFile F} {a : Access} (hd : s.descs p fd = some d)
      (ha : (lockType operation).map LockType.access = some (some a)) (hmode : d.Allows a)
      (hclash : ¬ s.Grants p fd d.file a) (hnb : isSet operation lockNb = true) :
      Flock s p fd operation (.error ewouldblock) (s.held p fd)
  | givenUp {d : OpenFile F} {a : Access} {e : LockError} (hd : s.descs p fd = some d)
      (ha : (lockType operation).map LockType.access = some (some a)) (hmode : d.Allows a)
      (hclash : ¬ s.Grants p fd d.file a) (hnb : isSet operation lockNb = false)
      (he : e = .EINTR ∨ e = .EDEADLK) : Flock s p fd operation (.error e) (s.held p fd)
  | full {d : OpenFile F} (hd : s.descs p fd = some d) :
      Flock s p fd operation (.error .ENOLCK) (s.held p fd)

inductive Step : OpenFiles P F → LockEvent P F → OpenFiles P F → Prop
  | openFile {s : OpenFiles P F} {p : P} {fd : ℕ} {d : OpenFile F} (hfree : s.descs p fd = none) :
      Step s (.openFile p fd d) (s.setDesc p fd (some d))
  | close {s : OpenFiles P F} {p : P} {fd : ℕ} {d : OpenFile F} (hd : s.descs p fd = some d) :
      Step s (.close p fd) ((s.setDesc p fd none).setHeld p fd none)
  | flock {s : OpenFiles P F} {p : P} {fd : ℕ} {operation : UInt32}
      {result : Except LockError Unit} {a : Option Access}
      (hflock : s.Flock p fd operation result a) :
      Step s (.flock p fd operation result) (s.setHeld p fd a)

end OpenFiles

end System

end Solcompat.Filesystem
