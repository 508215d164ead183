import Solcompat.Lib.Checked
import Solcompat.Lib.Memory

/-!
# `posix_fallocate`

The model of `posix_fallocate` of `filesystem.c`. `off_t` has 64 bits. The end of the range is
their wrapped sum, and a negative end is behind no file: the file then counts as large enough.
-/

namespace Solcompat.Filesystem

open Lib

/-- What the calls of the system answer: `fstat`, and `ftruncate` for a size. -/
structure FileSystem where
  fstat : Option Errno
  ftruncate : Int64 → Option Errno

/-- The returned error number, and the size of the file afterwards. -/
def posix_fallocate (offset len : Int64) (system : FileSystem) (st_size : Int64) :
    Option Errno × Int64 :=
  if offset < 0 ∨ len ≤ 0 then (some .EINVAL, st_size)
  else
    let required_size := offset + len
    match system.fstat with
    | some e => (some e, st_size)
    | none =>
      if st_size ≥ required_size then (none, st_size)
      else
        match system.ftruncate required_size with
        | some e => (some e, st_size)
        | none => (none, required_size)

/-- What the call promises for a range: its end is inside the file after a success, the file does
not get shorter, and a range that `off_t` does not hold is refused. -/
structure Allocates (offset len st_size : Int64) (reply : Option Errno × Int64) : Prop where
  reached : reply.1 = none → offset.toInt + len.toInt ≤ reply.2.toInt
  kept : st_size.toInt ≤ reply.2.toInt
  refused : 9223372036854775807 < offset.toInt + len.toInt →
    reply.1 ≠ none ∧ reply.2 = st_size

section Range

variable {offset len : Int64}

theorem required_size_cases (hoffset : 0 ≤ offset.toInt) (hlen : 0 < len.toInt) :
    (offset.toInt + len.toInt < 9223372036854775808 ∧
      (offset + len).toInt = offset.toInt + len.toInt) ∨
    (9223372036854775808 ≤ offset.toInt + len.toInt ∧ (offset + len).toInt < 0) := by
  have hbounds := fits64_toInt (offset + len)
  have ho := fits64_toInt offset
  have hl := fits64_toInt len
  obtain ⟨k, hk⟩ := add64_spec offset len
  simp only [Fits64] at *
  omega

/-- The size that is asked for is the end of the range, or the file stays. -/
theorem posix_fallocate_of_fits {system : FileSystem} {st_size : Int64} (hoffset : 0 ≤ offset.toInt)
    (hlen : 0 < len.toInt) (hend : (offset + len).toInt = offset.toInt + len.toInt) :
    Allocates offset len st_size (posix_fallocate offset len system st_size) := by
  have hvalid : ¬ (offset < 0 ∨ len ≤ 0) := by
    rw [Int64.lt_iff_toInt_lt, Int64.le_iff_toInt_le, Int64.toInt_zero]
    omega
  have hbounds := fits64_toInt (offset + len)
  rw [Fits64] at hbounds
  have hkept : ∀ ret, ret ≠ none → Allocates offset len st_size (ret, st_size) := by
    intro ret hret
    exact ⟨fun h => absurd h hret, le_rfl, fun h => by omega⟩
  rw [posix_fallocate, if_neg hvalid]
  cases system.fstat with
  | some e => exact hkept _ (Option.some_ne_none e)
  | none =>
    by_cases hlarge : st_size ≥ offset + len
    · have hle : (offset + len).toInt ≤ st_size.toInt := Int64.le_iff_toInt_le.mp hlarge
      dsimp only
      rw [if_pos hlarge]
      exact ⟨fun _ => by dsimp only; omega, le_rfl, fun h => by omega⟩
    · have hlt : st_size.toInt < (offset + len).toInt := by
        rwa [ge_iff_le, Int64.le_iff_toInt_le, not_le] at hlarge
      dsimp only
      rw [if_neg hlarge]
      cases system.ftruncate (offset + len) with
      | some e => exact hkept _ (Option.some_ne_none e)
      | none => exact ⟨fun _ => hend.ge, hlt.le, fun h => by omega⟩

/-- A range that does not fit is taken for one that is there already. -/
theorem posix_fallocate_of_wrap {system : FileSystem} {st_size : Int64}
    (hoffset : 0 ≤ offset.toInt) (hlen : 0 < len.toInt) (hsize : 0 ≤ st_size.toInt)
    (hend : (offset + len).toInt < 0) :
    posix_fallocate offset len system st_size = (system.fstat, st_size) := by
  have hvalid : ¬ (offset < 0 ∨ len ≤ 0) := by
    rw [Int64.lt_iff_toInt_lt, Int64.le_iff_toInt_le, Int64.toInt_zero]
    omega
  have hlarge : st_size ≥ offset + len := by
    rw [ge_iff_le, Int64.le_iff_toInt_le]
    omega
  rw [posix_fallocate, if_neg hvalid]
  cases system.fstat with
  | some e => rfl
  | none => exact if_pos hlarge

end Range

/-- The promise is kept unless the range ends behind what `off_t` holds and `fstat` succeeds. -/
theorem posix_fallocate_allocates_iff (offset len st_size : Int64) (system : FileSystem)
    (hoffset : 0 ≤ offset.toInt) (hlen : 0 < len.toInt) (hsize : 0 ≤ st_size.toInt) :
    Allocates offset len st_size (posix_fallocate offset len system st_size) ↔
      offset.toInt + len.toInt < 9223372036854775808 ∨ system.fstat ≠ none := by
  rcases required_size_cases hoffset hlen with ⟨hfits, hend⟩ | ⟨hover, hneg⟩
  · exact iff_of_true (posix_fallocate_of_fits hoffset hlen hend) (Or.inl hfits)
  · rw [posix_fallocate_of_wrap hoffset hlen hsize hneg]
    constructor
    · intro h
      exact Or.inr (h.refused (by omega)).1
    · rintro (h | h)
      · omega
      · exact ⟨fun h' => absurd h' h, le_rfl, fun _ => ⟨h, rfl⟩⟩

/-- A system on which both calls succeed. -/
def willing : FileSystem := ⟨none, fun _ => none⟩

/-- One byte behind the largest offset: success, and the file is as empty as before. -/
theorem posix_fallocate_misses :
    posix_fallocate 9223372036854775807 1 willing 0 = (none, 0) ∧
      ¬ Allocates 9223372036854775807 1 0
        (posix_fallocate 9223372036854775807 1 willing 0) := by
  constructor
  · decide
  · intro h
    exact absurd (h.reached (by decide)) (by decide)

theorem posix_fallocate_allocates_page :
    Allocates 4096 4096 100 (posix_fallocate 4096 4096 willing 100) :=
  (posix_fallocate_allocates_iff 4096 4096 100 willing (by decide) (by decide) (by decide)).mpr
    (Or.inl (by decide))

end Solcompat.Filesystem
