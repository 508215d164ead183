import Mathlib.Data.List.Basic
import Mathlib.Logic.Function.Basic
import Mathlib.Tactic

/-!
# The destructor registry

`cxa_atexit.c` as a machine of threads with call stacks. A thread in client code, or in a
destructor, may call `__cxa_atexit` or `__cxa_finalize`; inside these it takes the steps of
the source, one critical section or one loop iteration at a time. The lock is released
before a destructor is called, so that the table may change under a walk. Pointers are
numbers with `0` for the null pointer. The history records what was registered, when a walk
began, and which destructor was called with which argument; no step reads it.
-/

namespace Solcompat.Cxa

structure Entry where
  destructorFunc : ℕ
  objectArg : ℕ
  dsoHandle : ℕ
  inUse : Bool

def cxaAtexitMax : ℕ := 1024

/-- A function on the call stack of a thread, with its place in the source. -/
inductive Frame where
  /-- `__cxa_atexit` before its lock -/
  | registering (func arg dso : ℕ)
  /-- `__cxa_atexit` before its unlock, with its result -/
  | registered (result : ℤ)
  /-- `__cxa_finalize` before its lock -/
  | finalizing (dso : ℕ)
  /-- the loop of `__cxa_finalize`, with the entries below `i` still to look at -/
  | walking (dso i : ℕ)
  /-- entry `k` was marked as consumed; the lock is still held -/
  | claimed (dso k : ℕ)
  /-- the lock is released; the destructor of entry `k` is called next -/
  | calling (dso k : ℕ)
  /-- the destructor of entry `k` is running above this frame, or has returned -/
  | inCallback (dso k : ℕ)
  /-- a destructor, which is client code -/
  | running (func arg : ℕ)

inductive Event (Tid : Type) where
  /-- `atexit(cxa_atexit_cleanup)` -/
  | hooked (t : Tid)
  | registered (t : Tid) (func arg dso : ℕ)
  | started (t : Tid) (dso : ℕ)
  | executed (t : Tid) (dso k func arg : ℕ)

/-- The table holds the slots below `cxa_atexit_count`. -/
structure State (Tid : Type) where
  table : List Entry
  cxaFinalizeRegistered : Bool
  cxaAtexitLock : Option Tid
  stack : Tid → List Frame
  history : List (Event Tid)

/-- What a thread does next: client code calls or returns, the library goes on. -/
inductive Action where
  | cxaAtexit (func arg dso : ℕ)
  | cxaFinalize (dso : ℕ)
  | ret
  | advance

/-- `cxa_atexit_cleanup`, the handler that runs at program exit. -/
def cxaAtexitCleanup : Action := .cxaFinalize 0

/-- `dso_handle == NULL || entry->dso_handle == dso_handle` -/
def matchesDso (dso : ℕ) (entryDso : ℕ) : Bool := dso == 0 || entryDso == dso

def Entry.consume (e : Entry) : Entry := { e with inUse := false }

namespace State

variable {Tid : Type} [DecidableEq Tid]

def initial : State Tid := ⟨[], false, none, fun _ => [], []⟩

def setStack (s : State Tid) (t : Tid) (frames : List Frame) : State Tid :=
  { s with stack := Function.update s.stack t frames }

def setLock (s : State Tid) (owner : Option Tid) : State Tid :=
  { s with cxaAtexitLock := owner }

def record (s : State Tid) (e : Event Tid) : State Tid :=
  { s with history := s.history ++ [e] }

/-- A new slot at `cxa_atexit_count`, which grows by one. -/
def append (s : State Tid) (e : Entry) : State Tid :=
  { s with table := s.table ++ [e] }

def consume (s : State Tid) (k : ℕ) (e : Entry) : State Tid :=
  { s with table := s.table.set k e.consume }

/-- The first registration hooks the cleanup into `atexit`. -/
def hookCleanup (s : State Tid) (t : Tid) : State Tid :=
  if s.cxaFinalizeRegistered then s
  else { s with cxaFinalizeRegistered := true }.record (.hooked t)

section Fields

variable (s : State Tid) (t : Tid) (frames : List Frame) (owner : Option Tid)
  (event : Event Tid) (k : ℕ) (e : Entry)

@[simp] theorem setStack_table : (s.setStack t frames).table = s.table := rfl
@[simp] theorem setStack_history : (s.setStack t frames).history = s.history := rfl

@[simp]
theorem setStack_stack : (s.setStack t frames).stack = Function.update s.stack t frames := rfl

omit [DecidableEq Tid]

@[simp] theorem setLock_table : (s.setLock owner).table = s.table := rfl
@[simp] theorem setLock_history : (s.setLock owner).history = s.history := rfl
@[simp] theorem setLock_stack : (s.setLock owner).stack = s.stack := rfl
@[simp] theorem record_table : (s.record event).table = s.table := rfl
@[simp] theorem record_history : (s.record event).history = s.history ++ [event] := rfl
@[simp] theorem record_stack : (s.record event).stack = s.stack := rfl
@[simp] theorem append_table : (s.append e).table = s.table ++ [e] := rfl
@[simp] theorem append_history : (s.append e).history = s.history := rfl
@[simp] theorem append_stack : (s.append e).stack = s.stack := rfl
@[simp] theorem consume_table : (s.consume k e).table = s.table.set k e.consume := rfl
@[simp] theorem consume_history : (s.consume k e).history = s.history := rfl
@[simp] theorem consume_stack : (s.consume k e).stack = s.stack := rfl

@[simp]
theorem hookCleanup_table : (s.hookCleanup t).table = s.table := by
  unfold hookCleanup
  split <;> rfl

@[simp]
theorem hookCleanup_stack : (s.hookCleanup t).stack = s.stack := by
  unfold hookCleanup
  split <;> rfl

end Fields

/-- The critical section of `__cxa_atexit`, up to its unlock. -/
def register (s : State Tid) (t : Tid) (func arg dso : ℕ) (rest : List Frame) : State Tid :=
  let s := (s.setLock (some t)).hookCleanup t
  if s.table.length < cxaAtexitMax then
    ((s.append ⟨func, arg, dso, true⟩).record (.registered t func arg dso)).setStack t
      (.registered 0 :: rest)
  else s.setStack t (.registered (-1) :: rest)

/-- One iteration of the loop, at index `k`. -/
def visit (s : State Tid) (t : Tid) (dso k : ℕ) (e : Entry) (rest : List Frame) : State Tid :=
  if e.inUse && matchesDso dso e.dsoHandle then
    (s.consume k e).setStack t (.claimed dso k :: rest)
  else s.setStack t (.walking dso k :: rest)

/-- A step inside the library; `none` while the lock is not free. -/
def advance (s : State Tid) (t : Tid) : List Frame → Option (State Tid)
  | .registering func arg dso :: rest =>
    if s.cxaAtexitLock.isNone then some (s.register t func arg dso rest) else none
  | .registered _ :: rest => some ((s.setLock none).setStack t rest)
  | .finalizing dso :: rest =>
    if s.cxaAtexitLock.isNone then
      some (((s.setLock (some t)).record (.started t dso)).setStack t
        (.walking dso s.table.length :: rest))
    else none
  | .walking _ 0 :: rest => some ((s.setLock none).setStack t rest)
  | .walking dso (k + 1) :: rest => do
    let e ← s.table[k]?
    some (s.visit t dso k e rest)
  | .claimed dso k :: rest => some ((s.setLock none).setStack t (.calling dso k :: rest))
  | .calling dso k :: rest => do
    let e ← s.table[k]?
    some ((s.record (.executed t dso k e.destructorFunc e.objectArg)).setStack t
      (.running e.destructorFunc e.objectArg :: .inCallback dso k :: rest))
  | .inCallback dso k :: rest =>
    if s.cxaAtexitLock.isNone then
      some ((s.setLock (some t)).setStack t (.walking dso k :: rest))
    else none
  | .running _ _ :: _ => none
  | [] => none

/-- Client code is on top: a destructor, or the thread outside of all of them. -/
def inClient : List Frame → Bool
  | [] => true
  | .running _ _ :: _ => true
  | _ => false

def step (s : State Tid) (t : Tid) : Action → Option (State Tid)
  | .cxaAtexit func arg dso =>
    if inClient (s.stack t) then
      some (s.setStack t (.registering func arg dso :: s.stack t))
    else none
  | .cxaFinalize dso =>
    if inClient (s.stack t) then some (s.setStack t (.finalizing dso :: s.stack t)) else none
  | .ret =>
    match s.stack t with
    | .running _ _ :: rest => some (s.setStack t rest)
    | _ => none
  | .advance => s.advance t (s.stack t)

/-- A run, given by the thread and the action of every step. -/
def run (s : State Tid) (actions : List (Tid × Action)) : Option (State Tid) :=
  actions.foldlM (fun s a => s.step a.1 a.2) s

def Reachable (s : State Tid) : Prop := ∃ actions, initial.run actions = some s

end State

section History

variable {Tid : Type}

/-- The successful registrations in order; the one at `k` fills slot `k`. -/
def registrations (history : List (Event Tid)) : List (ℕ × ℕ × ℕ) :=
  history.filterMap fun
    | .registered _ func arg dso => some (func, arg, dso)
    | _ => none

/-- The destructors called, in order, each with its slot and argument. -/
def executions (history : List (Event Tid)) : List (ℕ × ℕ × ℕ) :=
  history.filterMap fun
    | .executed _ _ k func arg => some (k, func, arg)
    | _ => none

def executedSlots (history : List (Event Tid)) : List ℕ :=
  (executions history).map Prod.fst

end History

end Solcompat.Cxa
