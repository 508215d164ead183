import Mathlib.Data.List.Basic

/-!
# Machines that answer

A machine makes calls one after the other, with an answer for each. It refines another one if a
call gives the same answer on both and leaves states that belong together; then so do all runs.
-/

namespace Solcompat.Lib.Machine

variable {Call Answer S A : Type}

def run (step : Call → S → Answer × S) : List Call → S → List Answer × S
  | [], s => ([], s)
  | c :: calls, s =>
    let (answer, s) := step c s
    let (answers, s) := run step calls s
    (answer :: answers, s)

def Refines (step : Call → S → Answer × S) (spec : Call → A → Answer × A) (abs : S → A) : Prop :=
  ∀ c s, spec c (abs s) = ((step c s).1, abs (step c s).2)

theorem run_cons (step : Call → S → Answer × S) (c : Call) (calls : List Call) (s : S) :
    run step (c :: calls) s =
      ((step c s).1 :: (run step calls (step c s).2).1, (run step calls (step c s).2).2) :=
  rfl

theorem Refines.run_eq {step : Call → S → Answer × S} {spec : Call → A → Answer × A} {abs : S → A}
    (h : Refines step spec abs) (calls : List Call) (s : S) :
    run spec calls (abs s) = ((run step calls s).1, abs (run step calls s).2) := by
  induction calls generalizing s with
  | nil => rfl
  | cons c calls ih => rw [run_cons, run_cons, h c s, ih]

end Solcompat.Lib.Machine
