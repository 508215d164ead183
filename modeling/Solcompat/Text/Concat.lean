import Solcompat.Lib.CString
import Solcompat.Lib.Contents

/-!
# Bounded concatenation

The model of `strnlen`, `strlcpy` and `strlcat` of `string.c`. A destination is the memory from
its pointer on, and the source is a string of another object. Lengths are natural numbers: two
objects that lie in one address space have a sum of lengths below `SIZE_MAX`.

A destination that holds the text `t` after some calls holds `(t ++ src).take (size - 1)` after
the next one. Truncation is sticky because a text of length `size - 1` is its own truncation, and
it is seen at the first call that meets it.
-/

namespace Solcompat.Text

open Lib

/-- The `while` loop, from `len` on; `room` is `maxlen - len`. -/
def strnlenLoop (s : Memory) : ℕ → ℕ → ℕ
  | 0, len => len
  | room + 1, len => if s len ≠ 0 then strnlenLoop s room (len + 1) else len

def strnlen (s : Memory) (maxlen : ℕ) : ℕ := strnlenLoop s maxlen 0

/-- The value that is returned, and the destination. -/
def strlcpy (dst : Memory) (src : CString) (size : ℕ) : ℕ × Memory :=
  let srclen := src.strlen
  if size > 0 then
    let copylen := if srclen ≥ size then size - 1 else srclen
    let dst := dst.putBytes 0 (src.object.take copylen)
    (srclen, dst.put copylen 0)
  else (srclen, dst)

def strlcat (dst : Memory) (src : CString) (size : ℕ) : ℕ × Memory :=
  let dstlen := strnlen dst size
  let srclen := src.strlen
  if dstlen = size then (size + srclen, dst)
  else if srclen < size - dstlen then
    (dstlen + srclen, dst.putBytes dstlen (src.object.take (srclen + 1)))
  else
    let dst := dst.putBytes dstlen (src.object.take (size - dstlen - 1))
    (dstlen + srclen, dst.put (size - 1) 0)

/-- The calls of `strlcat` of a caller that appends several strings. -/
def strlcatAll (size : ℕ) : List CString → Memory → List ℕ × Memory
  | [], dst => ([], dst)
  | src :: rest, dst =>
    let (ret, dst) := strlcat dst src size
    let (rets, dst) := strlcatAll size rest dst
    (ret :: rets, dst)

/-- `strlcpy` of the first string, `strlcat` of the others. -/
def concat (size : ℕ) (first : CString) (rest : List CString) (dst : Memory) : List ℕ × Memory :=
  let (ret, dst) := strlcpy dst first size
  let (rets, dst) := strlcatAll size rest dst
  (ret :: rets, dst)

theorem strnlenLoop_of_nul {s : Memory} {text : List UInt8} {len room : ℕ}
    (htext : ∀ b ∈ text, b ≠ 0) (h : s.Holds len (text ++ [0])) (hroom : text.length < room) :
    strnlenLoop s room len = len + text.length := by
  induction text generalizing len room with
  | nil =>
    obtain ⟨room, rfl⟩ := Nat.exists_eq_add_of_lt hroom
    have hzero : s len = 0 := h.1
    simp [strnlenLoop, hzero]
  | cons b text ih =>
    obtain ⟨room, rfl⟩ := Nat.exists_eq_add_of_lt (Nat.zero_lt_of_lt hroom)
    rw [List.forall_mem_cons] at htext
    rw [List.length_cons] at hroom
    have hbyte : s len = b := h.1
    have hne : s len ≠ 0 := by
      rw [hbyte]
      exact htext.1
    have hrest : strnlenLoop s (0 + room) (len + 1) = len + 1 + text.length :=
      ih htext.2 h.2 (by omega)
    rw [strnlenLoop, if_pos hne, hrest, List.length_cons]
    omega

theorem strnlen_of_nul {s : Memory} {text : List UInt8} {maxlen : ℕ}
    (htext : ∀ b ∈ text, b ≠ 0) (h : s.Holds 0 (text ++ [0])) (hmax : text.length < maxlen) :
    strnlen s maxlen = text.length := by
  rw [strnlen, strnlenLoop_of_nul htext h hmax, Nat.zero_add]

theorem strnlenLoop_of_noNul {s : Memory} {room len : ℕ}
    (h : ∀ i, len ≤ i → i < len + room → s i ≠ 0) : strnlenLoop s room len = len + room := by
  induction room generalizing len with
  | zero => rfl
  | succ room ih =>
    have hne : s len ≠ 0 := h len le_rfl (by omega)
    have hrest : strnlenLoop s room (len + 1) = len + 1 + room :=
      ih fun i hi hi' => h i (by omega) (by omega)
    rw [strnlenLoop, if_pos hne, hrest]
    omega

theorem strnlen_of_noNul {s : Memory} {maxlen : ℕ} (h : ∀ i < maxlen, s i ≠ 0) :
    strnlen s maxlen = maxlen := by
  rw [strnlen, strnlenLoop_of_noNul fun i _ hi => h i (by omega), Nat.zero_add]

/-- A text that was cut already is cut at the same place when more comes behind it. -/
theorem take_append_cut (text bs : List UInt8) (n : ℕ) :
    (text ++ bs).take n = text.take n ++ bs.take (n - (text.take n).length) := by
  rw [List.take_append, List.length_take]
  congr 2
  omega

/-- The destination holds as much of the text as there is room for, and its terminator; the bytes
from `size` on are those of `old`. -/
structure Cut (size : ℕ) (text : List UInt8) (old dst : Memory) : Prop where
  holds : dst.Holds 0 (text.take (size - 1) ++ [0])
  frame : ∀ i, size ≤ i → dst i = old i

theorem Cut.of_store {size : ℕ} {text bs : List UInt8} {old dst : Memory}
    (hbs : text.take (size - 1) = bs) (hsize : bs.length < size) (h : dst.Holds 0 bs)
    (hframe : ∀ i, size ≤ i → dst i = old i) : Cut size text old (dst.put bs.length 0) := by
  constructor
  · rw [hbs, Memory.holds_append, Nat.zero_add]
    constructor
    · apply (Memory.holds_congr _).mpr h
      intro x _ hx
      exact Memory.put_of_ne dst (by omega) 0
    · exact ⟨Memory.put_self dst bs.length 0, Memory.holds_nil _ _⟩
  · intro i hi
    rw [Memory.put_of_ne dst (by omega), hframe i hi]

theorem strlcpy_fst (dst : Memory) (src : CString) (size : ℕ) :
    (strlcpy dst src size).1 = src.strlen := by
  by_cases h : size > 0 <;> simp [strlcpy, h]

theorem strlcpy_cut (dst : Memory) (src : CString) {size : ℕ} (hsize : 0 < size) :
    Cut size src.bytes dst (strlcpy dst src size).2 := by
  have hcopy : ∀ n, n < size → n ≤ src.strlen → src.bytes.take (size - 1) = src.bytes.take n →
      Cut size src.bytes dst ((dst.putBytes 0 (src.object.take n)).put n 0) := by
    intro n hn hlen htake
    have hlength : (src.bytes.take n).length = n := List.length_take_of_le hlen
    have hholds := Memory.holds_putBytes dst 0 (src.bytes.take n)
    have hframe : ∀ i, size ≤ i → dst.putBytes 0 (src.bytes.take n) i = dst i := by
      intro i hi
      exact Memory.putBytes_outside dst (by omega)
    have hcut := Cut.of_store htake (by omega) hholds hframe
    rwa [hlength, ← CString.take_object hlen] at hcut
  rw [strlcpy, if_pos hsize]
  by_cases hlong : src.strlen ≥ size
  · rw [if_pos hlong]
    exact hcopy _ (by omega) (by omega) rfl
  · rw [if_neg hlong]
    apply hcopy _ (by omega) le_rfl
    rw [List.take_of_length_le (by rw [← CString.strlen]; omega),
      List.take_of_length_le (by rw [← CString.strlen])]

theorem strlcat_of_cut {size : ℕ} {text : List UInt8} {old dst : Memory} (hsize : 0 < size)
    (htext : ∀ b ∈ text, b ≠ 0) (h : Cut size text old dst) (src : CString) :
    (strlcat dst src size).1 = min text.length (size - 1) + src.strlen ∧
      Cut size (text ++ src.bytes) old (strlcat dst src size).2 := by
  have hlength : (text.take (size - 1)).length = min text.length (size - 1) := by
    rw [List.length_take, Nat.min_comm]
  have hdstlen : strnlen dst size = (text.take (size - 1)).length :=
    strnlen_of_nul (fun b hb => htext b (List.mem_of_mem_take hb)) h.holds (by omega)
  have hheld := h.holds.of_append
  have hsrc : src.bytes.length = src.strlen := rfl
  have hcut := take_append_cut text src.bytes (size - 1)
  generalize text.take (size - 1) = kept at hlength hdstlen hheld hcut
  rw [strlcat, hdstlen, if_neg (by omega)]
  by_cases hfits : src.strlen < size - kept.length
  · have hstored : src.object.length = src.strlen + 1 := src.length_object
    rw [if_pos hfits, List.take_of_length_le hstored.le]
    constructor
    · rw [hlength]
    have hall : src.bytes.take (size - 1 - kept.length) = src.bytes :=
      List.take_of_length_le (by omega)
    constructor
    · rw [hcut, hall, List.append_assoc, ← CString.object]
      simpa only [Nat.zero_add] using hheld.putBytes_append src.object
    · intro i hi
      dsimp only
      rw [Memory.putBytes_outside dst (by omega), h.frame i hi]
  · rw [if_neg hfits, CString.take_object (by omega)]
    constructor
    · rw [hlength]
    rw [Nat.sub_right_comm] at hcut
    have hpiece : (src.bytes.take (size - kept.length - 1)).length = size - kept.length - 1 :=
      List.length_take_of_le (by omega)
    generalize src.bytes.take (size - kept.length - 1) = piece at hpiece hcut
    have hwhole : (kept ++ piece).length = size - 1 := by
      rw [List.length_append]
      omega
    have hholds := hheld.putBytes_append piece
    rw [Nat.zero_add] at hholds
    have hframe : ∀ i, size ≤ i → dst.putBytes kept.length piece i = old i := by
      intro i hi
      rw [Memory.putBytes_outside dst (by omega), h.frame i hi]
    have hdone := Cut.of_store hcut (by omega) hholds hframe
    rwa [hwhole] at hdone

theorem strlcatAll_cut {size : ℕ} {text : List UInt8} {old dst : Memory} (hsize : 0 < size)
    (htext : ∀ b ∈ text, b ≠ 0) (h : Cut size text old dst) (rest : List CString) :
    Cut size (text ++ rest.flatMap CString.bytes) old (strlcatAll size rest dst).2 := by
  induction rest generalizing text dst with
  | nil => simpa [strlcatAll] using h
  | cons src rest ih =>
    have hnext := (strlcat_of_cut hsize htext h src).2
    have hnul : ∀ b ∈ text ++ src.bytes, b ≠ 0 := by
      intro b hb
      exact (List.mem_append.mp hb).elim (htext b) (src.nulFree b)
    rw [List.flatMap_cons, ← List.append_assoc]
    exact ih hnul hnext

/-- Truncation that happened before, or is seen by one of the calls, is that of the whole text. -/
theorem strlcatAll_seen {size : ℕ} {text : List UInt8} {old dst : Memory} (hsize : 0 < size)
    (htext : ∀ b ∈ text, b ≠ 0) (h : Cut size text old dst) (rest : List CString) :
    (size ≤ text.length ∨ ∃ ret ∈ (strlcatAll size rest dst).1, size ≤ ret) ↔
      size ≤ (text ++ rest.flatMap CString.bytes).length := by
  induction rest generalizing text dst with
  | nil => simp [strlcatAll]
  | cons src rest ih =>
    obtain ⟨hret, hnext⟩ := strlcat_of_cut hsize htext h src
    have hnul : ∀ b ∈ text ++ src.bytes, b ≠ 0 := by
      intro b hb
      exact (List.mem_append.mp hb).elim (htext b) (src.nulFree b)
    have hcall : (size ≤ text.length ∨ size ≤ (strlcat dst src size).1) ↔
        size ≤ (text ++ src.bytes).length := by
      rw [hret, List.length_append, CString.strlen]
      omega
    have hrets : (strlcatAll size (src :: rest) dst).1 =
        (strlcat dst src size).1 :: (strlcatAll size rest (strlcat dst src size).2).1 := rfl
    rw [List.flatMap_cons, ← List.append_assoc, ← ih hnul hnext, ← hcall, hrets, or_assoc]
    simp only [List.exists_mem_cons_iff]

/-- The text is cut to the room for it, nothing is written behind, and a return value tells. -/
theorem concat_cut (size : ℕ) (hsize : 0 < size) (first : CString) (rest : List CString)
    (dst : Memory) :
    Cut size ((first :: rest).flatMap CString.bytes) dst (concat size first rest dst).2 ∧
      ((∃ ret ∈ (concat size first rest dst).1, size ≤ ret) ↔
        size - 1 < ((first :: rest).flatMap CString.bytes).length) := by
  have hfirst := strlcpy_cut dst first hsize
  constructor
  · exact strlcatAll_cut hsize first.nulFree hfirst rest
  · have hseen := strlcatAll_seen hsize first.nulFree hfirst rest
    have hrets : (concat size first rest dst).1 = (strlcpy dst first size).1 ::
        (strlcatAll size rest (strlcpy dst first size).2).1 := rfl
    rw [hrets, List.exists_mem_cons_iff, strlcpy_fst, CString.strlen, List.flatMap_cons, hseen]
    omega

theorem strlcat_of_noNul {dst : Memory} {size : ℕ} (h : ∀ i < size, dst i ≠ 0) (src : CString) :
    strlcat dst src size = (size + src.strlen, dst) := by
  rw [strlcat, strnlen_of_noNul h, if_pos rfl]

/-- Bounded concatenation: what the calls leave in the destination and return, and what `strlcat`
does with a destination that is not terminated. -/
theorem bounded_concatenation :
    (∀ (size : ℕ) (first : CString) (rest : List CString) (dst : Memory), 1 ≤ size →
      let whole := (first :: rest).flatMap CString.bytes
      let run := concat size first rest dst
      run.2.bytes 0 (min whole.length (size - 1) + 1) = whole.take (size - 1) ++ [0] ∧
        (∀ i, size ≤ i → run.2 i = dst i) ∧
        ((∃ ret ∈ run.1, size ≤ ret) ↔ size - 1 < whole.length)) ∧
      ∀ (size : ℕ) (src : CString) (dst : Memory), (∀ i < size, dst i ≠ 0) →
        strlcat dst src size = (size + src.strlen, dst) := by
  constructor
  · intro size first rest dst hsize
    obtain ⟨hcut, hseen⟩ := concat_cut size hsize first rest dst
    have hlength : min ((first :: rest).flatMap CString.bytes).length (size - 1) + 1 =
        (((first :: rest).flatMap CString.bytes).take (size - 1) ++ [0]).length := by
      rw [List.length_append, List.length_take, List.length_singleton, Nat.min_comm]
    constructor
    · rw [hlength]
      exact (Memory.bytes_eq_iff_holds _ _ _).mpr hcut.holds
    · exact ⟨hcut.frame, hseen⟩
  · intro size src dst h
    exact strlcat_of_noNul h src

/-- `"hello"` and `" world"` in eight bytes, and `" world"` behind two bytes without terminator. -/
theorem bounded_concatenation_hello :
    (concat 8 (CString.ofString "hello") [CString.ofString " world"] fun _ => 255).2.bytes 0 8 =
        (CString.ofString "hello w").bytes ++ [0] ∧
      (∃ ret ∈ (concat 8 (CString.ofString "hello") [CString.ofString " world"]
        fun _ => 255).1, 8 ≤ ret) ∧
      strlcat (fun _ => 255) (CString.ofString " world") 2 = (8, fun _ => 255) := by
  have hcalls := bounded_concatenation.1 8 (CString.ofString "hello")
    [CString.ofString " world"] (fun _ => 255) (by decide)
  constructor
  · exact hcalls.1
  · constructor
    · exact hcalls.2.2.mpr (by decide)
    · exact bounded_concatenation.2 2 (CString.ofString " world") (fun _ => 255) (by decide)

end Solcompat.Text
