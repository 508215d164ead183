import Mathlib.Data.UInt
import Solcompat.Lib.CString
import Solcompat.Lib.Memory
import Solcompat.Lib.Program

/-!
# Temporary directories

`mkdtemp` of `stdlib.c`. Other processes may make and remove directories at any time, so the
answers of `mkdir` are not known; `mkdir` itself makes a directory or does nothing.
-/

namespace Solcompat.Filesystem

open Lib

namespace Mkdtemp

def eexist : Errno := .system 17

def tmpnamAlphabet : List UInt8 :=
  "ABCDEFGHIJKLMNOPQRSTUVWXYZabcdefghijklmnopqrstuvwxyz0123456789".toList.map ch

structure Entropy where
  bytes : List UInt8
  length : bytes.length = 6

structure Suffix where
  bytes : List UInt8
  length : bytes.length = 6
  letters : ∀ b ∈ bytes, b ∈ tmpnamAlphabet

inductive Action where
  /-- `getentropy(entropy, sizeof(entropy))` -/
  | getentropy
  /-- `time(NULL)` -/
  | time
  | getpid
  | mkdir (path : CString) (mode : BitVec 32)

@[reducible]
def Action.Answer : Action → Type
  | getentropy => Except Errno Entropy
  | time | getpid => UInt32
  | mkdir _ _ => Except Errno Unit

abbrev Code (R : Type) := Program Action Action.Answer R

def perform (action : Action) : Code action.Answer := Program.perform action

theorem alphabet_length : tmpnamAlphabet.length = 62 := by decide

theorem index_lt (b : UInt8) : b.toNat % 62 < tmpnamAlphabet.length := by
  rw [alphabet_length]
  exact Nat.mod_lt _ (by decide)

/-- `TMPNAM_ALPHABET[b % 62]` -/
def letter (b : UInt8) : UInt8 := tmpnamAlphabet.get ⟨b.toNat % 62, index_lt b⟩

theorem letter_mem (b : UInt8) : letter b ∈ tmpnamAlphabet := List.get_mem ..

theorem letters_mem (bytes : List UInt8) : ∀ b ∈ bytes.map letter, b ∈ tmpnamAlphabet := by
  intro b hb
  obtain ⟨a, -, rfl⟩ := List.mem_map.mp hb
  exact letter_mem a

theorem length_letters (entropy : Entropy) : (entropy.bytes.map letter).length = 6 := by
  rw [List.length_map, entropy.length]

def suffixOf (entropy : Entropy) : Suffix :=
  ⟨entropy.bytes.map letter, length_letters entropy, letters_mem entropy.bytes⟩

/-- `n` bytes of the generator behind `seed`. -/
def mix : ℕ → UInt32 → List UInt8
  | 0, _ => []
  | n + 1, seed =>
    let seed := seed * 1103515245 + 12345
    (seed >>> 16).toUInt8 :: mix n seed

theorem length_mix (n : ℕ) (seed : UInt32) : (mix n seed).length = n := by
  induction n generalizing seed with
  | zero => rfl
  | succ n ih => exact congrArg (· + 1) (ih _)

/-- The seed of the fallback. -/
def seedOf (time pid : UInt32) (retryCount : ℕ) : UInt32 :=
  time ^^^ (pid * 2654435761) ^^^ (UInt32.ofNat retryCount * 16777619)

def mkdtempFillSuffix (retryCount : ℕ) : Code Suffix := do
  match ← perform .getentropy with
  | .ok entropy => pure (suffixOf entropy)
  | .error _ =>
    let time ← perform .time
    let pid ← perform .getpid
    pure (suffixOf ⟨mix 6 (seedOf time pid retryCount), length_mix _ _⟩)

theorem alphabet_nulFree : ∀ b ∈ tmpnamAlphabet, b ≠ 0 := by decide

theorem nulFree_withSuffix (stem : CString) (suffix : Suffix) :
    ∀ b ∈ stem.bytes ++ suffix.bytes, b ≠ 0 := by
  intro b hb
  rcases List.mem_append.mp hb with hstem | hsuffix
  · exact stem.nulFree b hstem
  · exact alphabet_nulFree b (suffix.letters b hsuffix)

def withSuffix (stem : CString) (suffix : Suffix) : CString :=
  ⟨stem.bytes ++ suffix.bytes, nulFree_withSuffix stem suffix⟩

/-- What `mkdtemp` returns, the pointer or `errno`, and the text in its buffer. -/
structure Result where
  ret : Except Errno Unit
  tmpl : Option CString

/-- The loop with this many attempts left; `text` is in the buffer. -/
def attempts (stem : CString) : ℕ → ℕ → CString → Code Result
  | 0, _, text => pure ⟨.error eexist, some text⟩
  | left + 1, attempt, _ => do
    let suffix ← mkdtempFillSuffix attempt
    match ← perform (.mkdir (withSuffix stem suffix) 0o700) with
    | .ok _ => pure ⟨.ok (), some (withSuffix stem suffix)⟩
    | .error e =>
      if e ≠ eexist then pure ⟨.error e, some (withSuffix stem suffix)⟩
      else attempts stem left (attempt + 1) (withSuffix stem suffix)

/-- `"XXXXXX"` -/
def placeholder : List UInt8 := "XXXXXX".toList.map ch

def mkdtemp : Option CString → Code Result
  | none => pure ⟨.error .EINVAL, none⟩
  | some tmpl =>
    if tmpl.strlen < 6 then pure ⟨.error .EINVAL, some tmpl⟩
    else if (tmpl.drop (tmpl.strlen - 6)).bytes ≠ placeholder then
      pure ⟨.error .EINVAL, some tmpl⟩
    else attempts (tmpl.take (tmpl.strlen - 6)) 1000 0 tmpl

abbrev Trace := List ((action : Action) × action.Answer)

/-- The calls of `mkdir` with what they answered. -/
def mkdirs : Trace → List (CString × BitVec 32 × Except Errno Unit)
  | [] => []
  | ⟨.mkdir path mode, answer⟩ :: trace => (path, mode, answer) :: mkdirs trace
  | _ :: trace => mkdirs trace

theorem mkdirs_append (before after : Trace) :
    mkdirs (before ++ after) = mkdirs before ++ mkdirs after := by
  induction before with
  | nil => rfl
  | cons event before ih =>
    obtain ⟨action, answer⟩ := event
    cases action with
    | mkdir path mode => exact congrArg _ ih
    | _ => exact ih

def refused (path : CString) : CString × BitVec 32 × Except Errno Unit :=
  (path, 0o700, .error eexist)

theorem mkdirs_fill {retryCount : ℕ} {trace : Trace} {suffix : Suffix}
    (h : (mkdtempFillSuffix retryCount).Runs trace suffix) : mkdirs trace = [] := by
  obtain ⟨answer, rest, rfl, h⟩ := h
  cases answer with
  | ok entropy =>
    obtain ⟨rfl, -⟩ := h
    rfl
  | error e =>
    obtain ⟨time, rest, rfl, pid, rest, rfl, rfl, -⟩ := h
    rfl

/-- What a run of the loop has done: names that were taken, and then a name that was not, an
error of another kind, or the last attempt. -/
inductive Attempted (stem : CString) (left : ℕ) (text : CString) :
    List (CString × BitVec 32 × Except Errno Unit) → Result → Prop
  | made {taken : List Suffix} {suffix : Suffix} (h : taken.length < left) :
    Attempted stem left text
      (taken.map (fun s => refused (withSuffix stem s)) ++
        [(withSuffix stem suffix, 0o700, .ok ())])
      ⟨.ok (), some (withSuffix stem suffix)⟩
  | failed {taken : List Suffix} {suffix : Suffix} {e : Errno} (h : taken.length < left)
    (he : e ≠ eexist) :
    Attempted stem left text
      (taken.map (fun s => refused (withSuffix stem s)) ++
        [(withSuffix stem suffix, 0o700, .error e)])
      ⟨.error e, some (withSuffix stem suffix)⟩
  | taken {taken : List Suffix} (h : taken.length = left) :
    Attempted stem left text (taken.map fun s => refused (withSuffix stem s))
      ⟨.error eexist, some ((taken.getLast?.map (withSuffix stem)).getD text)⟩

theorem Attempted.cons {stem text : CString} {left : ℕ} {suffix : Suffix}
    {calls : List (CString × BitVec 32 × Except Errno Unit)} {result : Result}
    (h : Attempted stem left (withSuffix stem suffix) calls result) :
    Attempted stem (left + 1) text (refused (withSuffix stem suffix) :: calls) result := by
  cases h with
  | @made taken last h => exact @Attempted.made _ _ _ (suffix :: taken) _ (Nat.succ_lt_succ h)
  | @failed taken last e h he =>
    exact @Attempted.failed _ _ _ (suffix :: taken) _ _ (Nat.succ_lt_succ h) he
  | @taken taken h =>
    have hlast : ((suffix :: taken).getLast?.map (withSuffix stem)).getD text =
        (taken.getLast?.map (withSuffix stem)).getD (withSuffix stem suffix) := by
      cases taken with
      | nil => rfl
      | cons next taken =>
        rw [List.getLast?_cons_cons, List.getLast?_cons]
        rfl
    rw [← hlast]
    exact @Attempted.taken _ _ _ (suffix :: taken) (congrArg (· + 1) h)

theorem attempts_run {stem : CString} {left attempt : ℕ} {text : CString} {trace : Trace}
    {result : Result} (h : (attempts stem left attempt text).Runs trace result) :
    Attempted stem left text (mkdirs trace) result := by
  induction left generalizing attempt text trace with
  | zero =>
    obtain ⟨rfl, rfl⟩ := h
    exact @Attempted.taken _ _ _ [] rfl
  | succ left ih =>
    obtain ⟨before, suffix, after, rfl, hfill, answer, rest, rfl, hrun⟩ :=
      (Program.runs_bind (mkdtempFillSuffix attempt) _).mp h
    rw [mkdirs_append, mkdirs_fill hfill, List.nil_append]
    cases answer with
    | ok made =>
      obtain ⟨rfl, rfl⟩ := hrun
      exact @Attempted.made _ _ _ [] _ (Nat.succ_pos left)
    | error e =>
      change Program.Runs (if e ≠ eexist then pure ⟨.error e, some (withSuffix stem suffix)⟩
        else attempts stem left (attempt + 1) (withSuffix stem suffix)) rest result at hrun
      by_cases he : e = eexist
      · subst he
        rw [if_neg (not_not.mpr rfl)] at hrun
        exact (ih hrun).cons
      · rw [if_pos he] at hrun
        obtain ⟨rfl, rfl⟩ := hrun
        exact @Attempted.failed _ _ _ [] _ _ (Nat.succ_pos left) he

/-- A template: its last six characters are to be replaced. -/
def IsTemplate (tmpl : CString) : Prop := ∃ stem : List UInt8, tmpl.bytes = stem ++ placeholder

theorem isTemplate_iff (tmpl : CString) :
    IsTemplate tmpl ↔ 6 ≤ tmpl.strlen ∧ (tmpl.drop (tmpl.strlen - 6)).bytes = placeholder := by
  constructor
  · rintro ⟨stem, hstem⟩
    have hlength : tmpl.strlen = stem.length + 6 := by
      rw [CString.strlen, hstem, List.length_append]
      rfl
    refine ⟨by omega, ?_⟩
    rw [hlength, Nat.add_sub_cancel]
    change tmpl.bytes.drop stem.length = placeholder
    rw [hstem]
    exact List.drop_left' rfl
  · rintro ⟨-, hdrop⟩
    refine ⟨(tmpl.take (tmpl.strlen - 6)).bytes, ?_⟩
    rw [← hdrop]
    exact (List.take_append_drop ..).symm

/-- In every run `mkdtemp` only tries names that differ from the template in the last six
characters, at most a thousand of them, and goes on only when the name was taken. It makes one
directory if it succeeds, with the name in the buffer, and none if it fails. -/
theorem mkdtemp_run (tmpl : CString) (trace : Trace) (result : Result)
    (h : (mkdtemp (some tmpl)).Runs trace result) :
    (IsTemplate tmpl →
      Attempted (tmpl.take (tmpl.strlen - 6)) 1000 tmpl (mkdirs trace) result) ∧
      (¬ IsTemplate tmpl → trace = [] ∧ result = ⟨.error .EINVAL, some tmpl⟩) := by
  rw [isTemplate_iff]
  simp only [mkdtemp] at h
  by_cases hlength : tmpl.strlen < 6
  · rw [if_pos hlength] at h
    exact ⟨fun ht => absurd ht.1 (not_le.mpr hlength), fun _ => h⟩
  · rw [if_neg hlength] at h
    by_cases hdrop : (tmpl.drop (tmpl.strlen - 6)).bytes = placeholder
    · rw [if_neg (not_not.mpr hdrop)] at h
      exact ⟨fun _ => attempts_run h, fun ht => absurd ⟨not_lt.mp hlength, hdrop⟩ ht⟩
    · rw [if_pos hdrop] at h
      exact ⟨fun ht => absurd ht.2 hdrop, fun _ => h⟩

theorem mkdtemp_run_made :
    Attempted (.ofString "/tmp/") 1000 (.ofString "/tmp/XXXXXX")
      [(.ofString "/tmp/BBBBBB", 0o700, .ok ())] ⟨.ok (), some (.ofString "/tmp/BBBBBB")⟩ :=
  (mkdtemp_run (.ofString "/tmp/XXXXXX")
    [⟨.getentropy, .ok ⟨[1, 1, 1, 1, 1, 1], rfl⟩⟩, ⟨.mkdir (.ofString "/tmp/BBBBBB") 0o700, .ok ()⟩]
    ⟨.ok (), some (.ofString "/tmp/BBBBBB")⟩ (by
      exact ⟨_, _, rfl, _, _, rfl, rfl, rfl⟩)).1 ⟨"/tmp/".toList.map ch, by decide⟩

end Mkdtemp

end Solcompat.Filesystem
