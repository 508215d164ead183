import Solcompat.Lib.Memory

/-!
# Segments of memory

A list of segments is one long buffer: bytes are scattered over it in order, and gathered from
it. Segments may be empty, and may overlap.
-/

namespace Solcompat.Lib

structure Segment where
  base : ℕ
  len : ℕ

namespace Segments

def total (segs : List Segment) : ℕ := (segs.map Segment.len).sum

def places (segs : List Segment) : List ℕ :=
  segs.flatMap fun v => (List.range v.len).map (v.base + ·)

/-- Put bytes to the segments, one segment after the other. -/
def scatter : List Segment → List UInt8 → Memory → Memory
  | [], _, m => m
  | v :: segs, bs, m => scatter segs (bs.drop v.len) (m.putBytes v.base (bs.take v.len))

def gather (m : Memory) (segs : List Segment) : List UInt8 :=
  segs.flatMap fun v => m.bytes v.base v.len

@[simp] theorem total_cons (v : Segment) (segs : List Segment) :
    total (v :: segs) = v.len + total segs := by
  simp [total]

@[simp] theorem gather_cons (m : Memory) (v : Segment) (segs : List Segment) :
    gather m (v :: segs) = m.bytes v.base v.len ++ gather m segs :=
  rfl

theorem length_gather (m : Memory) (segs : List Segment) : (gather m segs).length = total segs := by
  induction segs with
  | nil => rfl
  | cons v segs ih => rw [gather_cons, List.length_append, ih, total_cons, Memory.bytes,
      List.length_map, List.length_range]

theorem scatter_nil (segs : List Segment) (m : Memory) : scatter segs [] m = m := by
  induction segs generalizing m with
  | nil => rfl
  | cons v segs ih => rw [scatter, List.take_nil, List.drop_nil, Memory.putBytes_nil, ih]

theorem scatter_first {v : Segment} {segs : List Segment} {bs : List UInt8} {m : Memory}
    (h : bs.length ≤ v.len) : scatter (v :: segs) bs m = m.putBytes v.base bs := by
  rw [scatter, List.take_of_length_le h, List.drop_of_length_le h, scatter_nil]

theorem scatter_append {v : Segment} {segs : List Segment} {bs cs : List UInt8} {m : Memory}
    (h : bs.length = v.len) :
    scatter (v :: segs) (bs ++ cs) m = scatter segs cs (m.putBytes v.base bs) := by
  rw [scatter, List.take_left' h, List.drop_left' h]

/-- Memory behind the bytes, and outside of the segments, is not touched. -/
theorem scatter_outside {segs : List Segment} {bs : List UInt8} {m : Memory} {x : ℕ}
    (h : x ∉ (places segs).take bs.length) : scatter segs bs m x = m x := by
  induction segs generalizing bs m with
  | nil => rfl
  | cons v segs ih =>
    have hplaces : places (v :: segs) = (List.range v.len).map (v.base + ·) ++ places segs := rfl
    rw [hplaces, List.take_append, List.mem_append, not_or, List.length_map, List.length_range] at h
    rw [scatter, ih]
    · apply Memory.putBytes_outside
      rintro ⟨hlow, hhigh⟩
      rw [List.length_take] at hhigh
      apply h.1
      rw [← List.map_take, List.take_range, List.mem_map]
      exact ⟨x - v.base, List.mem_range.mpr (by omega), by omega⟩
    · rw [List.length_drop]
      exact h.2

end Segments

end Solcompat.Lib
