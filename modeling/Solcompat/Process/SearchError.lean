import Mathlib.Data.List.ReduceOption
import Solcompat.Process.PathSearch

/-!
# The error of a search that fails

`errno` is left at the error of the last call of `execve`, unless `EACCES` was seen before:
then it is `EACCES`, also when the search was ended by another error. A search in which every
candidate is skipped does not set it.
-/

namespace Solcompat.Process

open Solcompat.Lib

namespace ExecCall

variable (c : ExecCall)

/-- The errors of the calls of `execve` on the paths, in order. -/
def errorsOf (paths : List (List UInt8)) : List Errno := (paths.mapIdx c.execve).reduceOption

def errors : List Errno := c.errorsOf (upTo c.ends 0 c.candidates)

end ExecCall

/-- What a search with these errors is to report. -/
structure RightError (errors : List Errno) (errno : Option Errno) : Prop where
  fatal : ∀ e, errors.getLast? = some e → Fatal e → errno = some e
  access : ∀ e, errors.getLast? = some e → ¬ Fatal e → EACCES ∈ errors → errno = some EACCES
  last : ∀ e, errors.getLast? = some e → ¬ Fatal e → EACCES ∉ errors → errno = some e
  set_when_skipped : errors = [] → errno ≠ none

/-- What the variables of the search know of its errors. -/
structure Tracks (c : ExecCall) (s : Search) : Prop where
  errno_eq : s.errno = (c.errorsOf s.tried).getLast?
  saved_eq : s.savedErrno = if EACCES ∈ c.errorsOf s.tried then some EACCES else none
  length_eq : s.replaced = false → (c.errorsOf s.tried).length = s.tried.length

variable {c : ExecCall}

section Errors

theorem errorsOf_concat (paths : List (List UInt8)) (path : List UInt8) :
    c.errorsOf (paths ++ [path]) =
      c.errorsOf paths ++ (c.execve paths.length path).toList := by
  rw [ExecCall.errorsOf, List.mapIdx_concat, List.reduceOption_append]
  cases c.execve paths.length path with
  | none => rfl
  | some e => rfl

theorem tracks_start : Tracks c ⟨[], false, none, none⟩ :=
  ⟨rfl, rfl, fun _ => rfl⟩

theorem attempt_tracks (path : List UInt8) {s : Search} (h : Tracks c s) :
    Tracks c (c.attempt path s).2 := by
  have herrors := errorsOf_concat (c := c) s.tried path
  unfold ExecCall.attempt
  cases hexecve : c.execve s.tried.length path with
  | none =>
    rw [hexecve, Option.toList_none, List.append_nil] at herrors
    exact ⟨by simp [herrors, h.errno_eq], by simp [herrors, h.saved_eq], by simp⟩
  | some e =>
    rw [hexecve, Option.toList_some] at herrors
    have hlength : s.replaced = false →
        (c.errorsOf (s.tried ++ [path])).length = (s.tried ++ [path]).length := by
      intro hreplaced
      rw [herrors, List.length_append, List.length_append, h.length_eq hreplaced]
      rfl
    dsimp only
    split_ifs with haccess hother
    · exact ⟨by simp [herrors], by simp [herrors, haccess], hlength⟩
    · exact ⟨by simp [herrors], by simp [herrors, h.saved_eq, Ne.symm haccess], hlength⟩
    · exact ⟨by simp [herrors], by simp [herrors, h.saved_eq, Ne.symm haccess], hlength⟩

theorem tryAll_tracks (paths : List (List UInt8)) {s : Search} (h : Tracks c s) :
    Tracks c (c.tryAll paths s) := by
  induction paths generalizing s with
  | nil => exact h
  | cons path paths ih =>
    have hattempt := attempt_tracks path h
    rw [ExecCall.tryAll]
    dsimp only
    split_ifs
    · exact ih hattempt
    · exact hattempt

theorem rightError_iff (errors : List Errno) :
    RightError errors ((if EACCES ∈ errors then some EACCES else none).or errors.getLast?) ↔
      errors ≠ [] ∧ ∀ e, errors.getLast? = some e → Fatal e → EACCES ∉ errors := by
  by_cases haccess : EACCES ∈ errors
  · rw [if_pos haccess, Option.some_or]
    constructor
    · intro h
      refine ⟨List.ne_nil_of_mem haccess, fun e hlast hfatal => ?_⟩
      have heq := Option.some.inj (h.fatal e hlast hfatal)
      exact absurd heq.symm hfatal.1
    · intro h
      exact ⟨fun e hlast hfatal => absurd haccess (h.2 e hlast hfatal), fun _ _ _ _ => rfl,
        fun _ _ _ hnot => absurd haccess hnot, fun hnil => absurd hnil h.1⟩
  · rw [if_neg haccess, Option.none_or]
    constructor
    · intro h
      refine ⟨fun hnil => ?_, fun _ _ _ => haccess⟩
      exact h.set_when_skipped hnil (by rw [hnil]; rfl)
    · intro h
      exact ⟨fun e hlast _ => hlast, fun _ _ _ hmem => absurd hmem haccess,
        fun e hlast _ _ => hlast, fun hnil => absurd hnil h.1⟩

end Errors

/-- The file of the first directory may not be executed, and the others have none. -/
def refusedCall : ExecCall where
  filename := .ofString "cc"
  envp := some [.ofString "PATH=/bin:/opt"]
  callerPath := none
  execve k _ := if k = 0 then some EACCES else some ENOENT
  candidatePath := List.replicate 1024 0
  size_eq := length_freshPath

/-- The search reports the right error exactly when some candidate fits and no `EACCES` was seen
before a fatal error. -/
theorem execvpe_error_iff (c : ExecCall) (s : Search) (hslash : ch '/' ∉ c.filename.bytes)
    (h : c.execvpe = some s) (hfail : s.replaced = false) :
    RightError c.errors s.errno ↔
      c.candidates ≠ [] ∧ ∀ e, c.errors.getLast? = some e → Fatal e → EACCES ∉ c.errors := by
  rw [execvpe_eq hslash] at h
  obtain rfl := Option.some.inj h
  have htracks := tryAll_tracks c.candidates (tracks_start (c := c))
  have htried := tryAll_tried (c := c) c.candidates ⟨[], false, none, none⟩
  have herrors : c.errorsOf (c.tryAll c.candidates ⟨[], false, none, none⟩).tried = c.errors := by
    rw [htried]
    rfl
  have hlength := htracks.length_eq hfail
  have herrno := htracks.errno_eq
  have hsaved := htracks.saved_eq
  rw [herrors] at hlength herrno hsaved
  have hempty : c.errors = [] ↔ c.candidates = [] := by
    rw [← List.length_eq_zero_iff, hlength, htried]
    cases c.candidates with
    | nil => simp [upTo]
    | cons path paths =>
      rw [upTo]
      split_ifs <;> simp
  rw [Search.report, herrno, hsaved, ne_eq, ← hempty]
  exact rightError_iff c.errors

theorem refusedCall_run : refusedCall.execvpe =
    some ⟨[(CString.ofString "/bin/cc").bytes, (CString.ofString "/opt/cc").bytes], false,
      some EACCES, some EACCES⟩ := by
  rw [execvpe_eq (by decide)]
  decide

theorem execvpe_error_iff_sample :
    ∃ s, refusedCall.execvpe = some s ∧ s.errno = some EACCES ∧
      (RightError refusedCall.errors s.errno ↔ refusedCall.candidates ≠ [] ∧
        ∀ e, refusedCall.errors.getLast? = some e → Fatal e → EACCES ∉ refusedCall.errors) :=
  ⟨_, refusedCall_run, rfl, execvpe_error_iff refusedCall _ (by decide) refusedCall_run rfl⟩

/-- The file of the first directory may not be executed, and the second cannot be read. -/
def brokenCall : ExecCall where
  filename := .ofString "cc"
  envp := some [.ofString "PATH=/bin:/opt"]
  callerPath := none
  execve k _ := if k = 0 then some EACCES else some .ioError
  candidatePath := List.replicate 1024 0
  size_eq := length_freshPath

theorem longName_nulFree : ∀ b ∈ List.replicate 1024 (ch 'a'), b ≠ 0 := by
  intro b hb
  rw [List.eq_of_mem_replicate hb]
  decide

/-- The name is too long for the buffer. -/
def skippedCall : ExecCall where
  filename := ⟨List.replicate 1024 (ch 'a'), longName_nulFree⟩
  envp := some [.ofString "PATH=/bin"]
  callerPath := none
  execve _ _ := some ENOENT
  candidatePath := List.replicate 1024 0
  size_eq := length_freshPath

theorem skippedCall_candidates : skippedCall.candidates = [] := by
  have hpath : skippedCall.effectivePath = (CString.ofString "/bin").bytes := by decide
  have hlong : ¬ (skippedCall.pathIn (CString.ofString "/bin").bytes).length ≤ pathMax - 1 := by
    rw [ExecCall.pathIn, if_neg (by decide), List.length_append, List.length_cons, skippedCall,
      List.length_replicate]
    decide
  rw [ExecCall.candidates, hpath, candidatesOf_last (by decide)]
  simpa using hlong

theorem execvpe_error_wrong :
    (∃ s, brokenCall.execvpe = some s ∧ s.replaced = false ∧
      ¬ RightError brokenCall.errors s.errno) ∧
    ∃ s, skippedCall.execvpe = some s ∧ s.replaced = false ∧
      ¬ RightError skippedCall.errors s.errno := by
  constructor
  · have hrun : brokenCall.execvpe =
        some ⟨[(CString.ofString "/bin/cc").bytes, (CString.ofString "/opt/cc").bytes], false,
          some EACCES, some EACCES⟩ := by
      rw [execvpe_eq (by decide)]
      decide
    have hlast : brokenCall.errors.getLast? = some .ioError := by decide
    refine ⟨_, hrun, rfl, fun h => ?_⟩
    exact absurd (h.fatal .ioError hlast (by decide)) (by decide)
  · have hslash : ch '/' ∉ skippedCall.filename.bytes := by
      intro hmem
      exact absurd (List.eq_of_mem_replicate hmem) (by decide)
    have hrun : skippedCall.execvpe = some ⟨[], false, none, none⟩ := by
      rw [execvpe_eq hslash, skippedCall_candidates]
      rfl
    have herrors : skippedCall.errors = [] := by
      rw [ExecCall.errors, skippedCall_candidates]
      rfl
    refine ⟨_, hrun, rfl, fun h => ?_⟩
    exact h.set_when_skipped herrors rfl

end Solcompat.Process
