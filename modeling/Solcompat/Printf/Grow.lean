import Solcompat.Printf.Cut

/-!
# The writes of the grow loop

The block is allocated before the length of the output is known, and `vsprintf` has stored the
output and its terminator before the two are compared, or so much of the output as comes before a
conversion that fails. The first block decides: an output that it does not hold is stored past
its end, one that it holds ends the loop, and so does an error.
-/

namespace Solcompat.Printf

open Lib

section

variable {Args : Type*} (sys : System Args)

/-- The grow loop with, for each block that the formatter stored to, the size of the block and
the number of bytes stored: the output and its terminator, or what precedes an error. -/
def growTrace (text : List UInt8) (ap : Args) (request workSize : ℕ) (hpos : 0 < workSize) :
    Grown × List (ℕ × ℕ) :=
  if sys.malloc request = false then (.fails (some .ENOMEM) (request + 1), [])
  else
    match sys.vsprintf text ap with
    | none => (.fails none (request + 1), [(workSize, sys.storedOnError text ap)])
    | some output =>
      if output.length < workSize then
        (.fits output (request + 1), [(workSize, output.length + 1)])
      else if h : 8 * 1024 * 1024 < workSize then
        (.fails (some .ENOMEM) (request + 1), [(workSize, output.length + 1)])
      else
        let next := growTrace text ap (request + 1) (workSize * 2) (by omega)
        (next.1, (workSize, output.length + 1) :: next.2)
termination_by 16777217 - workSize

theorem growTrace_fst (text : List UInt8) (ap : Args) (request workSize : ℕ)
    (hpos : 0 < workSize) :
    (growTrace sys text ap request workSize hpos).1 =
      growLoop sys text ap request workSize hpos := by
  fun_induction growTrace sys text ap request workSize hpos with
  | case1 request workSize hpos hm => rw [growLoop, if_pos hm]
  | case2 request workSize hpos hm hv =>
    rw [growLoop, if_neg hm]
    simp only [hv]
  | case3 request workSize hpos hm output hv hfit =>
    rw [growLoop, if_neg hm]
    simp only [hv, hfit, if_true]
  | case4 request workSize hpos hm output hv hfit hlimit =>
    rw [growLoop, if_neg hm]
    simp only [hv, hfit, hlimit, if_false, dif_pos]
  | case5 request workSize hpos hm output hv hfit hlimit next ih =>
    rw [growLoop, if_neg hm]
    simp only [hv, hfit, hlimit, if_false, dif_neg, not_false_eq_true]
    exact ih

/-- The first block is stored to, and no other one if it holds the output. -/
theorem growTrace_writes {text output : List UInt8} {ap : Args} {request workSize : ℕ}
    (hpos : 0 < workSize) (hm : sys.malloc request = true)
    (hv : sys.vsprintf text ap = some output) :
    ∃ later, (growTrace sys text ap request workSize hpos).2 =
      (workSize, output.length + 1) :: later ∧ (output.length < workSize → later = []) := by
  rw [growTrace, if_neg (by simp [hm])]
  simp only [hv]
  split_ifs with hfit
  · exact ⟨[], rfl, fun _ => rfl⟩
  · exact ⟨[], rfl, fun _ => rfl⟩
  · exact ⟨_, rfl, fun hfit' => absurd hfit' hfit⟩

theorem growTrace_error {text : List UInt8} {ap : Args} {request workSize : ℕ}
    (hpos : 0 < workSize) (hm : sys.malloc request = true) (hv : sys.vsprintf text ap = none) :
    (growTrace sys text ap request workSize hpos).2 = [(workSize, sys.storedOnError text ap)] := by
  rw [growTrace, if_neg (by simp [hm])]
  simp only [hv]

theorem stackBufSize_pos : 0 < stackBufSize := by decide

/-- What a call stores to its work buffers. -/
def workWrites (request : ℕ) (fmt : CString) (ap : Args) : List (ℕ × ℕ) :=
  (growTrace sys ((preprocessFmt fmt 2048).result fmt) ap request stackBufSize stackBufSize_pos).2

/-- Every block holds what is stored to it if and only if there is no first one or it holds what is
stored: an output below 8192 bytes, or at most 8192 bytes before an error. -/
theorem workWrites_inside_iff (request : ℕ) (fmt : CString) (ap : Args) :
    (∀ write ∈ workWrites sys request fmt ap, write.2 ≤ write.1) ↔
      (sys.malloc request = true →
        match sys.vsprintf ((preprocessFmt fmt 2048).result fmt) ap with
        | none => sys.storedOnError ((preprocessFmt fmt 2048).result fmt) ap ≤ 8192
        | some output => output.length < 8192) := by
  unfold workWrites
  constructor
  · intro h hm
    cases hv : sys.vsprintf ((preprocessFmt fmt 2048).result fmt) ap with
    | none =>
      rw [growTrace_error sys stackBufSize_pos hm hv] at h
      exact h _ List.mem_cons_self
    | some output =>
      obtain ⟨later, hwrites, -⟩ := growTrace_writes sys stackBufSize_pos hm hv
      exact h (stackBufSize, output.length + 1) (by rw [hwrites]; exact List.mem_cons_self)
  · intro h write hwrite
    cases hm : sys.malloc request with
    | false =>
      rw [growTrace, if_pos hm] at hwrite
      cases hwrite
    | true =>
      have hlen := h hm
      cases hv : sys.vsprintf ((preprocessFmt fmt 2048).result fmt) ap with
      | none =>
        rw [hv] at hlen
        rw [growTrace_error sys stackBufSize_pos hm hv] at hwrite
        rw [List.mem_singleton.mp hwrite]
        exact hlen
      | some output =>
        rw [hv] at hlen
        obtain ⟨later, hwrites, hlater⟩ :=
          growTrace_writes sys stackBufSize_pos hm hv
        rw [hwrites, hlater hlen] at hwrite
        rw [List.mem_singleton.mp hwrite]
        exact hlen

end

theorem preprocessFmt_literal {fmt : CString} (h : ∀ b ∈ fmt.bytes, b ≠ ch '%') (outsize : ℕ) :
    (preprocessFmt fmt outsize).result fmt = fmt.bytes := by
  have hitems : items fmt.bytes = fmt.bytes.map .literal ++ [] := by
    have hnil : items [] = [] := by rw [items]
    have hall := @items_literal fmt.bytes [] h
    rwa [List.append_nil, hnil] at hall
  have hchanged := (preprocessFmt_scanned fmt outsize).changed
  rw [hitems, somewhere_literal fun _ _ => id] at hchanged
  apply if_neg
  rw [hchanged]
  simp [not_somewhere_nil]

/-- Plain text of 8192 bytes, whose terminator is stored behind the first block. -/
def fullFormat : CString :=
  ⟨List.replicate 8192 (ch 'x'), fun b hb => by rw [List.eq_of_mem_replicate hb]; decide⟩

theorem workWrites_overruns :
    ¬ ∀ write ∈ workWrites literalSystem 0 fullFormat (), write.2 ≤ write.1 := by
  have hplain : ∀ b ∈ fullFormat.bytes, b ≠ ch '%' := fun b hb => by
    rw [List.eq_of_mem_replicate hb]
    decide
  have hv : literalSystem.vsprintf ((preprocessFmt fullFormat 2048).result fullFormat) () =
      some fullFormat.bytes := by
    rw [preprocessFmt_literal hplain]
    rfl
  obtain ⟨later, hwrites, -⟩ :=
    growTrace_writes literalSystem stackBufSize_pos rfl hv
  intro h
  have := h (stackBufSize, fullFormat.bytes.length + 1) (by
    rw [workWrites, hwrites]
    exact List.mem_cons_self)
  rw [fullFormat, List.length_replicate] at this
  exact absurd this (by decide)

end Solcompat.Printf
