import Mathlib.Data.Fintype.Basic
import Solcompat.At.Runs

/-!
# The calls outside the lock

`utimensat` and `fdopendir` change the working directory without `at_mutex`, and `renameat`
with `AT_FDCWD` twice depends on it without the lock. Nothing but the schedule keeps them
apart from the calls that hold the lock: in calm runs they do what they should, and a run
that is not calm can leave the process in a wrong directory for good.
-/

namespace Solcompat.At

open Lib

variable {Dir Tid : Type} [DecidableEq Dir] [DecidableEq Tid]

section Sample

instance [Fintype Tid] (s : State Dir Tid) (e : Event Dir Tid) : Decidable (s.Calm e) :=
  match e with
  | .begin _ _ => inferInstanceAs (Decidable True)
  | .act _ _ => inferInstanceAs (Decidable (_ ∧ _))

instance decidableCalmRun [Fintype Tid] :
    (events : List (Event Dir Tid)) → (s : State Dir Tid) → Decidable (s.CalmRun events)
  | [], _ => inferInstanceAs (Decidable True)
  | _ :: events, _ =>
    have := decidableCalmRun events
    inferInstanceAs (Decidable (_ ∧ _))

/-- `openat(3, "f", O_RDONLY)` in one thread, `utimensat(4, "x", NULL, 0)` in the other. -/
def beginBoth : List (Event (Fin 3) Bool) :=
  [.begin false (.openat 3 (some (.ofString "f")) 0 0),
    .begin true (.utimensat 4 (.ofString "x") none 0)]

/-- `utimensat` saves the working directory before `openat` goes away, and goes away itself
when `openat` is back. -/
def calmEvents : List (Event (Fin 3) Bool) :=
  beginBoth ++ [.act true (success 6)] ++
    ([.act false (success 0), .act false (success 5), .act false (success 0),
      .act false (success 7), .act false (success 0), .act false (success 0),
      .act false (success 0)] : List (Event (Fin 3) Bool)) ++
    ([.act true (success 0), .act true (success 0), .act true (success 0), .act true (success 0),
      .act true (success 0), .act true (success 0)] : List (Event (Fin 3) Bool))

/-- `utimensat` saves the working directory while `openat` is away in `a`, and goes back
there in the end. -/
def strayEvents : List (Event (Fin 3) Bool) :=
  beginBoth ++ ([.act false (success 0), .act false (success 5), .act false (success 0)] :
      List (Event (Fin 3) Bool)) ++
    [.act true (success 6)] ++
    ([.act false (success 7), .act false (success 0), .act false (success 0),
      .act false (success 0)] : List (Event (Fin 3) Bool)) ++
    ([.act true (success 0), .act true (success 0), .act true (success 0), .act true (success 0),
      .act true (success 0), .act true (success 0)] : List (Event (Fin 3) Bool))

end Sample

end Solcompat.At
