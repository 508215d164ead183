import Mathlib.Data.List.Basic
import Mathlib.Data.UInt
import Mathlib.Tactic

/-!
# C strings

A C string is a list of non-zero bytes; in memory the terminator follows them.
`read` is the indexed access of C: it answers the terminator at the length and
nothing beyond it, so that a read outside the object cannot be mistaken for one
inside. Pointers into a string are its suffixes.
-/

namespace Solcompat.Lib

/-- The byte a C character literal stands for. -/
def ch (c : Char) : UInt8 := UInt8.ofNat c.toNat

/-- Bytes are looked at one by one, not all values of a byte. -/
instance decidableNulFree (bytes : List UInt8) : Decidable (∀ b ∈ bytes, b ≠ 0) :=
  List.decidableBAll (· ≠ 0) bytes

structure CString where
  bytes : List UInt8
  nulFree : ∀ b ∈ bytes, b ≠ 0
  deriving DecidableEq

namespace CString

instance : Inhabited CString := ⟨⟨[], by simp⟩⟩

/-- The string literal of C. A zero byte would end the literal, so none is kept. -/
def ofString (text : String) : CString :=
  ⟨(text.toList.map ch).filter (· ≠ 0), by simp⟩

def strlen (s : CString) : ℕ := s.bytes.length

def read (s : CString) (i : ℕ) : Option UInt8 := (s.bytes ++ [0])[i]?

def drop (s : CString) (n : ℕ) : CString :=
  ⟨s.bytes.drop n, fun b hb => s.nulFree b (List.mem_of_mem_drop hb)⟩

def take (s : CString) (n : ℕ) : CString :=
  ⟨s.bytes.take n, fun b hb => s.nulFree b (List.mem_of_mem_take hb)⟩

/-- `strchr`: the suffix that starts at the first `c`. The terminator is part of
the search. -/
def strchr (s : CString) (c : UInt8) : Option CString :=
  if c = 0 then some (s.drop s.strlen)
  else if c ∈ s.bytes then some (s.drop (s.bytes.idxOf c))
  else none

/-- The comparison of `strncmp` on the bytes before the terminators; only the sign
of the result is documented. -/
def compareBytes : List UInt8 → List UInt8 → ℕ → ℤ
  | _, _, 0 => 0
  | [], [], _ + 1 => 0
  | [], _ :: _, _ + 1 => -1
  | _ :: _, [], _ + 1 => 1
  | x :: xs, y :: ys, n + 1 =>
    if x = y then compareBytes xs ys n else if x < y then -1 else 1

def strncmp (s t : CString) (n : ℕ) : ℤ := compareBytes s.bytes t.bytes n

@[simp]
theorem bytes_take (s : CString) (n : ℕ) : (s.take n).bytes = s.bytes.take n := rfl

@[simp]
theorem bytes_drop (s : CString) (n : ℕ) : (s.drop n).bytes = s.bytes.drop n := rfl

theorem ext_bytes {s t : CString} (h : s.bytes = t.bytes) : s = t := by
  cases s
  cases t
  simpa using h

theorem read_append {s : CString} {front back : List UInt8} {b : UInt8}
    (h : s.bytes = front ++ b :: back) : s.read front.length = some b := by
  simp [read, h]

theorem read_end {s : CString} {n : ℕ} (h : s.bytes.length = n) : s.read n = some 0 := by
  subst h
  simp [read]

/-- Up to the terminator every read is inside the string, and only the last one is zero. -/
theorem exists_read {s : CString} {i : ℕ} (h : i ≤ s.strlen) :
    ∃ b, s.read i = some b ∧ (b = 0 ↔ i = s.strlen) := by
  rcases h.lt_or_eq with hlt | rfl
  · refine ⟨s.bytes.get ⟨i, hlt⟩, ?_, ?_⟩
    · rw [read, List.getElem?_append_left hlt, List.getElem?_eq_getElem hlt]
      rfl
    · have hne : s.bytes.get ⟨i, hlt⟩ ≠ 0 := s.nulFree _ (List.get_mem ..)
      simp only [hne, hlt.ne]
  · exact ⟨0, read_end rfl, by simp⟩

theorem strchr_append {s : CString} {front back : List UInt8} {c : UInt8}
    (h : s.bytes = front ++ c :: back) (hc : c ≠ 0) (hfront : c ∉ front) :
    ∃ t, s.strchr c = some t ∧ t.bytes = c :: back := by
  refine ⟨s.drop (s.bytes.idxOf c), ?_, ?_⟩
  · simp [strchr, hc, h]
  · simp [h, List.idxOf_append_of_notMem hfront]

theorem strchr_pos {s t : CString} {c : UInt8} (hc : c ≠ 0) (h : s.strchr c = some t) :
    0 < t.strlen := by
  rw [strchr, if_neg hc] at h
  split_ifs at h with hmem
  rw [← Option.some.inj h, strlen, bytes_drop, List.length_drop]
  have hlt := List.idxOf_lt_length_of_mem hmem
  omega

theorem strchr_of_notMem {s : CString} {c : UInt8} (hc : c ≠ 0) (h : c ∉ s.bytes) :
    s.strchr c = none := by
  simp [strchr, hc, h]

theorem compareBytes_eq_zero (xs ys : List UInt8) (n : ℕ) :
    compareBytes xs ys n = 0 ↔ xs.take n = ys.take n := by
  fun_induction compareBytes xs ys n with
  | case1 => simp
  | case2 => simp
  | case3 => simp
  | case4 => simp
  | case5 x xs ys n ih => simpa using ih
  | case6 x xs y ys n hxy hlt => simp [hxy]
  | case7 x xs y ys n hxy hlt => simp [hxy]

/-- A `strncmp` over the length of the second text asks for a prefix. -/
theorem strncmp_eq_zero {s t : CString} {name rest : List UInt8}
    (ht : t.bytes = name ++ rest) : s.strncmp t name.length = 0 ↔ name <+: s.bytes := by
  rw [strncmp, compareBytes_eq_zero, ht, List.take_left', List.prefix_iff_eq_take, eq_comm]
  rfl

end CString

end Solcompat.Lib
