import Solcompat.Lib.Memory
import Solcompat.Printf.Format

/-!
# Formatting into a bounded buffer

`solcompat_vsnprintf` lets the system `vsprintf` format into a heap block, doubles
the block until the reported length fits, and copies what fits into the caller's
buffer. The system formatter is a parameter: it maps a format and its arguments
to the bytes it stores, or reports an error, by when it has stored some bytes too.
Allocation requests are numbered and each may fail. A caller's buffer is the memory from its
pointer on.
-/

namespace Solcompat.Printf

open Lib

def stackBufSize : ℕ := 8192

/-- The code outside this file that formatting rests on. -/
structure System (Args : Type*) where
  vsprintf : List UInt8 → Args → Option (List UInt8)
  /-- How many bytes a `vsprintf` that reports an error has stored. -/
  storedOnError : List UInt8 → Args → ℕ
  malloc : ℕ → Bool

/-- How the grow loop ends: with the output in a block that holds it, or with `-1`
and possibly an error number. The number of allocation requests made is kept. -/
inductive Grown
  | fits (output : List UInt8) (requests : ℕ)
  | fails (errno : Option Errno) (requests : ℕ)
  deriving DecidableEq, Repr

section

variable {Args : Type*} (sys : System Args)

/-- The heap-based grow loop, from a block of `workSize` bytes on. -/
def growLoop (fmt : List UInt8) (ap : Args) (request workSize : ℕ) (hpos : 0 < workSize) :
    Grown :=
  if sys.malloc request = false then .fails (some .ENOMEM) (request + 1)
  else
    match sys.vsprintf fmt ap with
    | none => .fails none (request + 1)
    | some output =>
      if output.length < workSize then .fits output (request + 1)
      else if h : 8 * 1024 * 1024 < workSize then .fails (some .ENOMEM) (request + 1)
      else growLoop fmt ap (request + 1) (workSize * 2) (by omega)
termination_by 16777217 - workSize

/-- The copy of the formatted string and its terminator into `size` bytes. -/
def copyOut (str : Memory) (size : ℕ) (output : List UInt8) : Memory :=
  if output.length < size then str.memcpy (output ++ [0]) (output.length + 1)
  else Function.update (str.memcpy output (size - 1)) (size - 1) 0

/-- Return value, the caller's buffer if there is one, the error number if one was
set, and the number of allocation requests so far. -/
structure Result where
  ret : ℤ
  str : Option (Memory)
  errno : Option Errno
  requests : ℕ

def solcompatVsnprintf (request : ℕ) (str : Option (Memory)) (size : ℕ) (fmt : CString)
    (ap : Args) : Result :=
  match growLoop sys ((preprocessFmt fmt 2048).result fmt) ap request stackBufSize (by decide) with
  | .fails errno requests => ⟨-1, str, errno, requests⟩
  | .fits output requests =>
    ⟨output.length, if 0 < size then str.map fun m => copyOut m size output else str, none,
      requests⟩

/-- `vasprintf` measures, allocates one byte more and formats again. `fresh` is what
the allocated block happens to contain. The last field is `*strp`. -/
def vasprintf (fresh : Memory) (fmt : CString) (ap : Args) : Result :=
  let measured := solcompatVsnprintf sys 0 none 0 fmt ap
  if measured.ret < 0 then ⟨-1, none, measured.errno, measured.requests⟩
  else if sys.malloc measured.requests = false then
    ⟨-1, none, some .ENOMEM, measured.requests + 1⟩
  else
    let formatted := solcompatVsnprintf sys (measured.requests + 1) (some fresh)
      (measured.ret.toNat + 1) fmt ap
    ⟨measured.ret, formatted.str, formatted.errno, formatted.requests⟩

variable {sys}

/-- Doubling from a power of two reaches sixteen megabytes and gives up there. -/
theorem growLoop_of_output (hm : ∀ i, sys.malloc i = true) {fmt output : List UInt8} {ap : Args}
    (hv : sys.vsprintf fmt ap = some output) (n : ℕ) :
    ∀ (k request : ℕ) (hpos : 0 < 2 ^ k), n + k = 24 →
      ∃ requests, growLoop sys fmt ap request (2 ^ k) hpos =
        if output.length < 16777216 then .fits output requests
        else .fails (some .ENOMEM) requests := by
  induction n with
  | zero =>
    intro k request hpos hk
    obtain rfl : k = 24 := by omega
    refine ⟨request + 1, ?_⟩
    rw [growLoop]
    simp only [hm, hv, Bool.true_eq_false, if_false]
    norm_num
  | succ n ih =>
    intro k request hpos hk
    have hle : 2 ^ k ≤ 8388608 := Nat.pow_le_pow_right (by norm_num) (show k ≤ 23 by omega)
    rw [growLoop]
    simp only [hm, hv, Bool.true_eq_false, if_false]
    by_cases hfit : output.length < 2 ^ k
    · refine ⟨request + 1, ?_⟩
      rw [if_pos hfit, if_pos (by omega)]
    · obtain ⟨requests, hnext⟩ := ih (k + 1) (request + 1) (by positivity) (by omega)
      refine ⟨requests, ?_⟩
      rw [if_neg hfit, dif_neg (by omega)]
      exact hnext

theorem growLoop_of_error (hm : ∀ i, sys.malloc i = true) {fmt : List UInt8} {ap : Args}
    (hv : sys.vsprintf fmt ap = none) (request workSize : ℕ) (hpos : 0 < workSize) :
    growLoop sys fmt ap request workSize hpos = .fails none (request + 1) := by
  rw [growLoop]
  simp [hm, hv]

theorem copyOut_apply (str : Memory) {size : ℕ} (hsize : 0 < size) (output : List UInt8)
    (i : ℕ) :
    copyOut str size output i =
      if i < min output.length (size - 1) then output.getD i 0
      else if i = min output.length (size - 1) then 0 else str i := by
  unfold copyOut
  by_cases hfit : output.length < size
  · rw [if_pos hfit, min_eq_left (by omega)]
    unfold Memory.memcpy
    rcases lt_trichotomy i output.length with hi | rfl | hi
    · rw [if_pos (by omega), if_pos hi]
      simp [List.getD, List.getElem?_append_left hi]
    · simp
    · rw [if_neg (by omega), if_neg (by omega), if_neg (by omega)]
  · rw [if_neg hfit, min_eq_right (by omega), Function.update_apply]
    unfold Memory.memcpy
    by_cases hi : i = size - 1
    · subst hi
      simp
    · rw [if_neg hi]
      simp [hi]

/-- What a caller may rely on after a call that has formatted `output`. -/
structure Formatted (output : List UInt8) (size : ℕ) (before after : Memory) : Prop where
  contents : ∀ i, i < min output.length (size - 1) → after i = output.getD i 0
  terminator : after (min output.length (size - 1)) = 0
  frame : ∀ i, min (output.length + 1) size ≤ i → after i = before i

theorem copyOut_formatted (str : Memory) {size : ℕ} (hsize : 0 < size)
    (output : List UInt8) : Formatted output size str (copyOut str size output) where
  contents := fun i hi => by rw [copyOut_apply str hsize, if_pos hi]
  terminator := by rw [copyOut_apply str hsize, if_neg (by omega), if_pos rfl]
  frame := fun i hi => by
    rw [copyOut_apply str hsize, if_neg (by omega), if_neg (by omega)]

theorem solcompatVsnprintf_of_output (hm : ∀ i, sys.malloc i = true) (fmt : CString) (ap : Args)
    {output : List UInt8} (hv : sys.vsprintf ((preprocessFmt fmt 2048).result fmt) ap = some output)
    (hlen : output.length < 16777216) (request : ℕ) (str : Option (Memory)) (size : ℕ) :
    ∃ requests, solcompatVsnprintf sys request str size fmt ap =
      ⟨output.length, if 0 < size then str.map fun m => copyOut m size output else str, none,
        requests⟩ := by
  obtain ⟨requests, hgrow⟩ := growLoop_of_output hm hv 11 13 request (by norm_num) rfl
  refine ⟨requests, ?_⟩
  rw [if_pos hlen] at hgrow
  unfold solcompatVsnprintf
  rw [show growLoop sys _ ap request stackBufSize _ = _ from hgrow]

theorem solcompatVsnprintf_of_too_long (hm : ∀ i, sys.malloc i = true) (fmt : CString)
    (ap : Args) {output : List UInt8}
    (hv : sys.vsprintf ((preprocessFmt fmt 2048).result fmt) ap = some output)
    (hlen : 16777216 ≤ output.length) (request : ℕ) (str : Option (Memory)) (size : ℕ) :
    ∃ requests, solcompatVsnprintf sys request str size fmt ap =
      ⟨-1, str, some .ENOMEM, requests⟩ := by
  obtain ⟨requests, hgrow⟩ := growLoop_of_output hm hv 11 13 request (by norm_num) rfl
  refine ⟨requests, ?_⟩
  rw [if_neg (by omega)] at hgrow
  unfold solcompatVsnprintf
  rw [show growLoop sys _ ap request stackBufSize _ = _ from hgrow]

theorem solcompatVsnprintf_of_error (hm : ∀ i, sys.malloc i = true) (fmt : CString) (ap : Args)
    (hv : sys.vsprintf ((preprocessFmt fmt 2048).result fmt) ap = none) (request : ℕ)
    (str : Option (Memory)) (size : ℕ) :
    solcompatVsnprintf sys request str size fmt ap = ⟨-1, str, none, request + 1⟩ := by
  unfold solcompatVsnprintf
  rw [growLoop_of_error hm hv]

/-- A short output fits the first block, so that one allocation is made. -/
theorem solcompatVsnprintf_of_short {request : ℕ} (hm : sys.malloc request = true) (fmt : CString)
    (ap : Args) {output : List UInt8}
    (hv : sys.vsprintf ((preprocessFmt fmt 2048).result fmt) ap = some output)
    (hlen : output.length < 8192) (str : Option (Memory)) (size : ℕ) :
    solcompatVsnprintf sys request str size fmt ap =
      ⟨output.length, if 0 < size then str.map fun m => copyOut m size output else str, none,
        request + 1⟩ := by
  unfold solcompatVsnprintf
  rw [growLoop]
  simp only [hm, hv, Bool.true_eq_false, if_false, stackBufSize, hlen, if_true]

theorem solcompatVsnprintf_of_refused {request : ℕ} (hm : sys.malloc request = false)
    (fmt : CString) (ap : Args) (str : Option (Memory)) (size : ℕ) :
    solcompatVsnprintf sys request str size fmt ap = ⟨-1, str, some .ENOMEM, request + 1⟩ := by
  unfold solcompatVsnprintf
  rw [growLoop, if_pos hm]

/-- The C99 contract, for a system whose allocations succeed. Below sixteen
megabytes the length is returned for every buffer and size, the buffer holds the
truncated output and its terminator, and nothing else changes; otherwise the
call fails and leaves the buffer alone. Measuring and then formatting, as
`vasprintf` does, therefore yields the complete string. -/
theorem solcompatVsnprintf_contract (sys : System Args) (hm : ∀ i, sys.malloc i = true)
    (fmt : CString) (ap : Args) :
    match sys.vsprintf ((preprocessFmt fmt 2048).result fmt) ap with
    | none => ∀ request str size,
        (solcompatVsnprintf sys request str size fmt ap).ret = -1 ∧
          (solcompatVsnprintf sys request str size fmt ap).str = str
    | some output =>
      if output.length < 16777216 then
        (∀ request str size,
          (solcompatVsnprintf sys request str size fmt ap).ret = output.length) ∧
        (∀ request m size, 0 < size →
          ∃ after, (solcompatVsnprintf sys request (some m) size fmt ap).str = some after ∧
            Formatted output size m after) ∧
        (∀ fresh, ∃ block,
          (vasprintf sys fresh fmt ap).ret = output.length ∧
          (vasprintf sys fresh fmt ap).str = some block ∧
          (∀ i, i < output.length → block i = output.getD i 0) ∧ block output.length = 0)
      else ∀ request str size,
        (solcompatVsnprintf sys request str size fmt ap).ret = -1 ∧
          (solcompatVsnprintf sys request str size fmt ap).str = str := by
  split
  · rename_i hv
    intro request str size
    rw [solcompatVsnprintf_of_error hm fmt ap hv]
    exact ⟨rfl, rfl⟩
  · rename_i output hv
    split_ifs with hlen
    · have hcall := solcompatVsnprintf_of_output hm fmt ap hv hlen
      refine ⟨?_, ?_, ?_⟩
      · intro request str size
        obtain ⟨requests, h⟩ := hcall request str size
        rw [h]
      · intro request m size hsize
        obtain ⟨requests, h⟩ := hcall request (some m) size
        rw [h]
        exact ⟨copyOut m size output, by simp [hsize], copyOut_formatted m hsize output⟩
      · intro fresh
        obtain ⟨measured, h₁⟩ := hcall 0 none 0
        obtain ⟨formatted, h₂⟩ := hcall (measured + 1) (some fresh) (output.length + 1)
        have hf := copyOut_formatted fresh (Nat.succ_pos output.length) output
        have hneg : ¬ (output.length : ℤ) < 0 := by omega
        refine ⟨copyOut fresh (output.length + 1) output, ?_, ?_, ?_, ?_⟩
        · simp [vasprintf, h₁, hm, hneg]
        · simp [vasprintf, h₁, hm, h₂, hneg]
        · intro i hi
          exact hf.contents i (by simpa using hi)
        · simpa using hf.terminator
    · intro request str size
      obtain ⟨requests, h⟩ :=
        solcompatVsnprintf_of_too_long hm fmt ap hv (by omega) request str size
      rw [h]
      exact ⟨rfl, rfl⟩

/-- A format without directives is its own output. -/
def literalSystem : System Unit := ⟨fun fmt _ => some fmt, fun _ _ => 0, fun _ => true⟩

theorem solcompatVsnprintf_contract_literal :
    (∀ i, literalSystem.malloc i = true) ∧
    match literalSystem.vsprintf
        ((preprocessFmt (.ofString "ready") 2048).result (.ofString "ready")) () with
    | none => False
    | some output => output.length = 5 ∧
      (∀ str size, (solcompatVsnprintf literalSystem 0 str size (.ofString "ready") ()).ret = 5) ∧
      ∃ after, (solcompatVsnprintf literalSystem 0 (some fun _ => 7) 3 (.ofString "ready") ()).str =
        some after ∧ Formatted output 3 (fun _ => 7) after := by
  have h := solcompatVsnprintf_contract literalSystem (fun _ => rfl) (.ofString "ready") ()
  have hv : literalSystem.vsprintf
      ((preprocessFmt (.ofString "ready") 2048).result (.ofString "ready")) () =
      some (CString.ofString "ready").bytes := by decide +kernel
  rw [hv] at h ⊢
  have hlen : (CString.ofString "ready").bytes.length = 5 := by decide +kernel
  simp only [hlen] at h ⊢
  rw [if_pos (by norm_num)] at h
  exact ⟨fun _ => rfl, trivial, h.1 0, h.2.1 0 _ 3 (by norm_num)⟩

end

end Solcompat.Printf
