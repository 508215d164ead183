import Mathlib.Data.Set.Basic
import Mathlib.Tactic

/-!
# Handles that a program opens among others

A table says what stands behind each handle. Several programs share it. A program knows
its own handles, and the others leave these alone, and some more as well. `Holds` says
what a program has made of the table so far: which handles it has, what stands behind
them, and that everything else it left as it was.
-/

namespace Solcompat.Lib

variable {ι α : Type}

/-- The table, the handles of the program, and the handles that the others leave alone. -/
structure Handles (ι α : Type) where
  table : ι → Option α
  mine : Set ι
  kept : Set ι

namespace Handles

/-- What the others may do. -/
structure Rely (h h' : Handles ι α) : Prop where
  mine : h'.mine = h.mine
  kept : h'.kept = h.kept
  table : ∀ i, i ∈ h.mine ∨ i ∈ h.kept → h'.table i = h.table i

/-- The program has the handles of `held`, and has left the others as it found them in
`before`, as far as these do not belong to anyone else. -/
structure Holds (before h : Handles ι α) (held : ι → Option α) : Prop where
  mine : ∀ i, i ∈ h.mine ↔ (held i).isSome
  kept : before.kept ⊆ h.kept
  entries : ∀ i a, held i = some a → h.table i = some a
  rest : ∀ i ∈ before.kept, held i = none → h.table i = before.table i

def nothing : ι → Option α := fun _ => none

@[simp]
theorem nothing_apply (i : ι) : (nothing i : Option α) = none := rfl

theorem holds_nothing {h : Handles ι α} (hmine : h.mine = ∅) : Holds h h nothing where
  mine i := by simp [hmine]
  kept := subset_rfl
  entries i a h := by simp at h
  rest _ _ _ := rfl

variable {before h h' : Handles ι α} {held : ι → Option α} {i j : ι} {a b : α}

theorem Rely.refl (h : Handles ι α) : Rely h h := ⟨rfl, rfl, fun _ _ => rfl⟩

theorem Holds.rely (hold : Holds before h held) (hrely : Rely h h') : Holds before h' held where
  mine j := by
    rw [hrely.mine]
    exact hold.mine j
  kept := by
    rw [hrely.kept]
    exact hold.kept
  entries j b hj :=
    (hrely.table j (.inl ((hold.mine j).mpr (by rw [hj]; rfl)))).trans (hold.entries j b hj)
  rest j hj hnone :=
    (hrely.table j (.inr (hold.kept hj))).trans (hold.rest j hj hnone)

theorem Holds.mem (hold : Holds before h held) (hi : held i = some a) : i ∈ h.mine :=
  (hold.mine i).mpr (by rw [hi]; rfl)

theorem Holds.eq_none (hold : Holds before h held) (hfree : h.table i = none) :
    held i = none := by
  cases hi : held i with
  | none => rfl
  | some a =>
    have hentry := hold.entries i a hi
    rw [hfree] at hentry
    cases hentry

/-- A handle that is free now was free before, unless it belongs to someone else. -/
theorem Holds.fresh (hold : Holds before h held) (hfree : h.table i = none)
    (hi : i ∈ before.kept) : before.table i = none :=
  (hold.rest i hi (hold.eq_none hfree)).symm.trans hfree

/-- From here on the others leave all handles alone. -/
def alone (h : Handles ι α) : Handles ι α := { h with kept := Set.univ }

theorem Holds.alone (hold : Holds before h held) : Holds before h.alone held where
  mine := hold.mine
  kept := Set.subset_univ _
  entries := hold.entries
  rest := hold.rest

variable [DecidableEq ι]

/-- The program puts `a` behind a handle, which is its own from then on. -/
def put (h : Handles ι α) (i : ι) (a : α) : Handles ι α :=
  { h with table := Function.update h.table i (some a), mine := insert i h.mine }

def remove (h : Handles ι α) (i : ι) : Handles ι α :=
  { h with table := Function.update h.table i none, mine := h.mine \ {i} }

theorem Holds.put (hold : Holds before h held) (i : ι) (a : α) :
    Holds before (h.put i a) (Function.update held i (some a)) where
  mine j := by
    by_cases hji : j = i
    · simp [Handles.put, hji]
    · rw [Function.update_of_ne hji, ← hold.mine j]
      exact Set.mem_insert_iff.trans (or_iff_right hji)
  kept := hold.kept
  entries j b hj := by
    by_cases hji : j = i
    · subst hji
      rw [Function.update_self] at hj
      rw [← hj]
      exact Function.update_self ..
    · rw [Function.update_of_ne hji] at hj
      exact (Function.update_of_ne hji ..).trans (hold.entries j b hj)
  rest j hj hnone := by
    have hji : j ≠ i := by
      rintro rfl
      rw [Function.update_self] at hnone
      cases hnone
    rw [Function.update_of_ne hji] at hnone
    exact (Function.update_of_ne hji ..).trans (hold.rest j hj hnone)

theorem Holds.remove (hold : Holds before h held)
    (hfresh : i ∈ before.kept → before.table i = none) :
    Holds before (h.remove i) (Function.update held i none) where
  mine j := by
    by_cases hji : j = i
    · simp [Handles.remove, hji]
    · rw [Function.update_of_ne hji, ← hold.mine j]
      exact and_iff_left hji
  kept := hold.kept
  entries j b hj := by
    have hji : j ≠ i := by
      rintro rfl
      rw [Function.update_self] at hj
      cases hj
    rw [Function.update_of_ne hji] at hj
    exact (Function.update_of_ne hji ..).trans (hold.entries j b hj)
  rest j hj hnone := by
    by_cases hji : j = i
    · subst hji
      rw [hfresh hj]
      exact Function.update_self ..
    · rw [Function.update_of_ne hji] at hnone
      exact (Function.update_of_ne hji ..).trans (hold.rest j hj hnone)

theorem update_put_remove (hi : held i = none) :
    Function.update (Function.update held i (some a)) i none = held := by
  rw [Function.update_idem, ← hi, Function.update_eq_self]

end Handles

end Solcompat.Lib
