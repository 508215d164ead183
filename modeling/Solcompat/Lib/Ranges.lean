import Mathlib.Data.List.Basic

/-!
# Ranges between two patterns

A range begins at an element that starts one and ends at the next element that stops one, or at
the end of the list. An element that starts a range inside of another one does nothing.
-/

namespace Solcompat.Lib.Ranges

variable {α : Type*} (start stop : α → Bool)

/-- The elements outside of all ranges; `inside` says that a range is open. -/
def deleteRanges : Bool → List α → List α
  | _, [] => []
  | false, x :: xs =>
    if start x then deleteRanges true xs else x :: deleteRanges false xs
  | true, x :: xs => deleteRanges (!stop x) xs

/-- The ranges in their order; `current` is the part of an open one. -/
def ranges : Option (List α) → List α → List (List α)
  | none, [] => []
  | some current, [] => [current]
  | none, x :: xs => if start x then ranges (some [x]) xs else ranges none xs
  | some current, x :: xs =>
    if stop x then (current ++ [x]) :: ranges none xs else ranges (some (current ++ [x])) xs

variable {start stop} {front body : List α} {first last : α}

theorem deleteRanges_outside (h : ∀ x ∈ front, start x = false) (xs : List α) :
    deleteRanges start stop false (front ++ xs) = front ++ deleteRanges start stop false xs := by
  induction front with
  | nil => rfl
  | cons y front ih =>
    rw [List.forall_mem_cons] at h
    rw [List.cons_append, deleteRanges, h.1, if_neg Bool.false_ne_true, ih h.2, List.cons_append]

theorem deleteRanges_inside (h : ∀ x ∈ body, stop x = false) (hlast : stop last = true)
    (xs : List α) :
    deleteRanges start stop true (body ++ last :: xs) = deleteRanges start stop false xs := by
  induction body with
  | nil => rw [List.nil_append, deleteRanges, hlast, Bool.not_true]
  | cons y body ih =>
    rw [List.forall_mem_cons] at h
    rw [List.cons_append, deleteRanges, h.1, Bool.not_false, ih h.2]

theorem deleteRanges_last (hfront : ∀ x ∈ front, start x = false) (hfirst : start first = true)
    (hbody : ∀ x ∈ body, stop x = false) (hlast : stop last = true) :
    deleteRanges start stop false (front ++ first :: (body ++ [last])) = front := by
  rw [deleteRanges_outside hfront, deleteRanges, if_pos hfirst, deleteRanges_inside hbody hlast,
    deleteRanges, List.append_nil]

theorem ranges_outside (h : ∀ x ∈ front, start x = false) (xs : List α) :
    ranges start stop none (front ++ xs) = ranges start stop none xs := by
  induction front with
  | nil => rfl
  | cons y front ih =>
    rw [List.forall_mem_cons] at h
    rw [List.cons_append, ranges, h.1, if_neg Bool.false_ne_true, ih h.2]

theorem ranges_inside (h : ∀ x ∈ body, stop x = false) (hlast : stop last = true)
    (current xs : List α) :
    ranges start stop (some current) (body ++ last :: xs) =
      (current ++ body ++ [last]) :: ranges start stop none xs := by
  induction body generalizing current with
  | nil => rw [List.nil_append, ranges, if_pos hlast, List.append_nil]
  | cons y body ih =>
    rw [List.forall_mem_cons] at h
    rw [List.cons_append, ranges, h.1, if_neg Bool.false_ne_true, ih h.2, List.append_assoc,
      List.append_assoc, List.append_assoc, List.singleton_append, List.cons_append]

theorem ranges_last (hfront : ∀ x ∈ front, start x = false) (hfirst : start first = true)
    (hbody : ∀ x ∈ body, stop x = false) (hlast : stop last = true) :
    ranges start stop none (front ++ first :: (body ++ [last])) =
      [first :: (body ++ [last])] := by
  rw [ranges_outside hfront, ranges, if_pos hfirst, ranges_inside hbody hlast, ranges,
    List.singleton_append, List.cons_append]

end Solcompat.Lib.Ranges
