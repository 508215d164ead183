import Mathlib.Data.List.Basic
import Mathlib.Data.List.GetD
import Mathlib.Data.UInt
import Mathlib.Tactic

/-!
# Files of bytes

A file opened for update as its stream sees it: the bytes written so far and the position.
Bytes written at the position replace those that are there and extend the file; a gap
before them reads as zeros. What is buffered and what is on disk is not told apart.
-/

namespace Solcompat.Lib

/-- The contents after `data` was written at `pos`. -/
def overwrite (content : List UInt8) (pos : ℕ) (data : List UInt8) : List UInt8 :=
  if data = [] then content
  else
    content.take pos ++ List.replicate (pos - content.length) 0 ++ data ++
      content.drop (pos + data.length)

structure ByteFile where
  content : List UInt8
  pos : ℕ

namespace ByteFile

def empty : ByteFile := ⟨[], 0⟩

def write (f : ByteFile) (data : List UInt8) : ByteFile :=
  ⟨overwrite f.content f.pos data, f.pos + data.length⟩

def read (f : ByteFile) (n : ℕ) : List UInt8 × ByteFile :=
  let bs := (f.content.drop f.pos).take n
  (bs, { f with pos := f.pos + bs.length })

def seek (f : ByteFile) (pos : ℕ) : ByteFile := { f with pos }

end ByteFile

theorem length_overwrite (content : List UInt8) (pos : ℕ) (data : List UInt8) :
    (overwrite content pos data).length =
      if data = [] then content.length else max content.length (pos + data.length) := by
  unfold overwrite
  split_ifs
  · rfl
  · simp only [List.length_append, List.length_take, List.length_replicate, List.length_drop]
    omega

theorem length_front (content : List UInt8) (pos : ℕ) :
    (content.take pos ++ List.replicate (pos - content.length) (0 : UInt8)).length = pos := by
  simp only [List.length_append, List.length_take, List.length_replicate]
  omega

theorem getD_front (content : List UInt8) {pos i : ℕ} (hi : i < pos) :
    (content.take pos ++ List.replicate (pos - content.length) 0).getD i 0 = content.getD i 0 := by
  by_cases hold : i < content.length
  · rw [List.getD_append _ _ _ _ (by rw [List.length_take]; omega), List.getD_eq_getElem?_getD,
      List.getD_eq_getElem?_getD, List.getElem?_take_of_lt hi]
  · rw [List.getD_append_right _ _ _ _ (by rw [List.length_take]; omega),
      List.getD_replicate 0 (by rw [List.length_take]; omega),
      List.getD_eq_default content 0 (by omega)]

/-- Byte by byte: the data, and elsewhere what was there; outside the file all is zero. -/
theorem getD_overwrite (content : List UInt8) (pos : ℕ) (data : List UInt8) (i : ℕ) :
    (overwrite content pos data).getD i 0 =
      if pos ≤ i ∧ i < pos + data.length then data.getD (i - pos) 0 else content.getD i 0 := by
  have hfront := length_front content pos
  unfold overwrite
  split_ifs with hnil hin hin
  · simp only [hnil, List.length_nil] at hin
    omega
  · rfl
  · rw [List.getD_append _ _ _ _ (by rw [List.length_append, hfront]; omega),
      List.getD_append_right _ _ _ _ (by omega), hfront]
  · by_cases hi : i < pos
    · rw [List.getD_append _ _ _ _ (by rw [List.length_append, hfront]; omega),
        List.getD_append _ _ _ _ (by omega), getD_front content hi]
    · rw [List.getD_append_right _ _ _ _ (by rw [List.length_append, hfront]; omega),
        List.length_append, hfront, List.getD_eq_getElem?_getD, List.getD_eq_getElem?_getD,
        List.getElem?_drop]
      congr 2
      omega

theorem overwrite_end (content data : List UInt8) :
    overwrite content content.length data = content ++ data := by
  unfold overwrite
  split_ifs with hnil
  · rw [hnil, List.append_nil]
  · simp

theorem ext_getD {xs ys : List UInt8} (hlength : xs.length = ys.length)
    (h : ∀ i, xs.getD i 0 = ys.getD i 0) : xs = ys := by
  apply List.ext_getElem hlength
  intro i hx hy
  have hi := h i
  rwa [List.getD_eq_getElem _ _ hx, List.getD_eq_getElem _ _ hy] at hi

theorem overwrite_append (content : List UInt8) (pos : ℕ) (data data' : List UInt8) :
    overwrite (overwrite content pos data) (pos + data.length) data' =
      overwrite content pos (data ++ data') := by
  apply ext_getD
  · simp only [length_overwrite, List.append_eq_nil_iff, List.length_append]
    by_cases hnil : data = []
    · simp [hnil]
    · by_cases hnil' : data' = []
      · simp [hnil, hnil']
      · simp only [hnil, hnil', and_self, if_false]
        omega
  · intro i
    simp only [getD_overwrite, List.length_append]
    by_cases hlate : pos + data.length ≤ i
    · by_cases hend : i < pos + data.length + data'.length
      · rw [if_pos ⟨hlate, hend⟩, if_pos (by omega), List.getD_append_right _ _ _ _ (by omega)]
        congr 1
        omega
      · rw [if_neg (by omega), if_neg (by omega), if_neg (by omega)]
    · by_cases hstart : pos ≤ i
      · rw [if_neg (by omega), if_pos (by omega), if_pos (by omega),
          List.getD_append _ _ _ _ (by omega)]
      · rw [if_neg (by omega), if_neg (by omega), if_neg (by omega)]

theorem take_drop_overwrite (content : List UInt8) (pos : ℕ) (data : List UInt8) :
    ((overwrite content pos data).drop pos).take data.length = data := by
  unfold overwrite
  split_ifs with hnil
  · simp [hnil]
  · have hfront := length_front content pos
    rw [List.append_assoc, List.drop_left' hfront, List.take_left]

end Solcompat.Lib
