import Mathlib.Data.Set.Basic
import Mathlib.Tactic

/-!
# Locks on the bytes of a file

Every owner has a lock on every byte, or none. Locks for reading may overlap; a lock for writing
clashes with all locks of other owners. A request replaces what its owner has in the range, so a
table where no locks clash stays one if only requests are granted that clash with nothing.
-/

namespace Solcompat.Lib

inductive Access
  | read
  | write
  deriving DecidableEq, Repr

def Access.Clashes (a b : Access) : Prop := a = .write ∨ b = .write

/-- The lock of each owner on each byte. -/
abbrev LockTable (P : Type) := P → ℕ → Option Access

namespace LockTable

variable {P : Type}

def empty : LockTable P := fun _ _ => none

/-- No other owner has a lock in the range that clashes. -/
def Grants (t : LockTable P) (p : P) (r : Set ℕ) (a : Access) : Prop :=
  ∀ q, q ≠ p → ∀ x ∈ r, ∀ b ∈ t q x, ¬ a.Clashes b

open Classical in
/-- The owner gets a lock on a range, or loses what it has there. -/
noncomputable def put (t : LockTable P) (p : P) (r : Set ℕ) (a : Option Access) : LockTable P :=
  fun q x => if q = p ∧ x ∈ r then a else t q x

def Compatible (t : LockTable P) : Prop :=
  ∀ p q, p ≠ q → ∀ x, ∀ a ∈ t p x, ∀ b ∈ t q x, ¬ a.Clashes b

variable {t : LockTable P} {p q : P} {r : Set ℕ} {x : ℕ} {a : Option Access}

theorem put_mem (hx : x ∈ r) : t.put p r a p x = a := if_pos ⟨rfl, hx⟩

theorem put_ne (hq : q ≠ p) : t.put p r a q x = t q x := if_neg fun h => hq h.1

theorem compatible_empty : (empty : LockTable P).Compatible := by
  intro p q _ x a ha
  cases ha

theorem Compatible.put (ht : t.Compatible) (hgrants : ∀ b ∈ a, t.Grants p r b) :
    (t.put p r a).Compatible := by
  have hself : ∀ q, q ≠ p → ∀ x, ∀ b ∈ t.put p r a p x, ∀ c ∈ t q x, ¬ b.Clashes c := by
    intro q hq x b hb c hc
    unfold LockTable.put at hb
    split_ifs at hb with hx
    · exact hgrants b hb q hq x hx.2 c hc
    · exact ht p q hq.symm x b hb c hc
  intro q q' hqq' x b hb c hc
  by_cases hq : q = p
  · subst hq
    rw [put_ne hqq'.symm] at hc
    exact hself q' hqq'.symm x b hb c hc
  · rw [put_ne hq] at hb
    by_cases hq' : q' = p
    · subst hq'
      rintro (rfl | rfl)
      · exact hself q hq x c hc _ hb (.inr rfl)
      · exact hself q hq x _ hc b hb (.inl rfl)
    · rw [put_ne hq'] at hc
      exact ht q q' hqq' x b hb c hc

theorem Compatible.alone (ht : t.Compatible) (hp : t p x = some .write) (hq : q ≠ p) :
    t q x = none := by
  cases hother : t q x with
  | none => rfl
  | some b => exact absurd (.inl rfl) (ht p q hq.symm x .write hp b hother)

end LockTable

end Solcompat.Lib
