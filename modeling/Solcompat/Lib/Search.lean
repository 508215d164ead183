import Mathlib.Order.Bounds.Basic
import Mathlib.Tactic

/-!
# Searches by scanning

A search answers an extremal element of a set of candidates, or that there is none. The loops are
those of C: a test that reads outside of its object has no result, and then the search has none.
-/

namespace Solcompat.Lib.Search

/-- The answer is extreme in `S`, and missing exactly when `S` is empty. -/
structure Finds {β : Type*} (Extreme : Set β → β → Prop) (S : Set β) (answer : Option β) :
    Prop where
  extreme : ∀ k, answer = some k → Extreme S k
  none_iff : answer = none ↔ S = ∅

section Answers

variable {β : Type*} {Extreme : Set β → β → Prop} {S : Set β} {k : β}

theorem finds_some (hmem : k ∈ S) (h : Extreme S k) : Finds Extreme S (some k) where
  extreme _ hk := Option.some.inj hk ▸ h
  none_iff := by
    constructor
    · exact fun hnone => absurd hnone (Option.some_ne_none k)
    · rintro rfl
      exact absurd hmem (Set.notMem_empty k)

theorem finds_none (h : S = ∅) : Finds Extreme S none where
  extreme _ hk := absurd hk.symm (Option.some_ne_none _)
  none_iff := iff_of_true rfl h

end Answers

/-- `for (; more; i++) if (test) return i; return NULL;`, in less than `fuel` rounds. -/
def scanUp (more test : ℕ → Option Bool) : ℕ → ℕ → Option (Option ℕ)
  | 0, _ => none
  | fuel + 1, i => do
    if ← more i then
      if ← test i then some (some i) else scanUp more test fuel (i + 1)
    else some none

/-- `while (i != 0) { --i; if (test) return i; } return NULL;` -/
def scanDown (test : ℕ → Option Bool) : ℕ → Option (Option ℕ)
  | 0 => some none
  | i + 1 => do
    if ← test i then some (some i) else scanDown test i

section Loops

variable {more test : ℕ → Option Bool} {P : ℕ → Prop} [DecidablePred P]

theorem scanUp_finds {n : ℕ} (hmore : ∀ i ≤ n, more i = some (decide (i < n)))
    (htest : ∀ i < n, test i = some (decide (P i))) {fuel i : ℕ} (hi : i ≤ n)
    (hfuel : n - i < fuel) :
    ∃ answer, scanUp more test fuel i = some answer ∧
      Finds IsLeast {k | i ≤ k ∧ k < n ∧ P k} answer := by
  induction fuel generalizing i with
  | zero => exact absurd hfuel (Nat.not_lt_zero _)
  | succ fuel ih =>
    rw [scanUp, hmore i hi]
    by_cases hend : i < n
    · rw [decide_eq_true hend]
      dsimp only [Option.bind_eq_bind, Option.bind_some, if_true]
      rw [htest i hend]
      by_cases hP : P i
      · refine ⟨some i, by simp [hP], finds_some ⟨le_rfl, hend, hP⟩ ⟨⟨le_rfl, hend, hP⟩, ?_⟩⟩
        exact fun k hk => hk.1
      · obtain ⟨answer, hscan, hfinds⟩ := ih (i := i + 1) (by omega) (by omega)
        have hset : {k | i ≤ k ∧ k < n ∧ P k} = {k | i + 1 ≤ k ∧ k < n ∧ P k} := by
          ext k
          constructor
          · rintro ⟨hlow, hhigh, hk⟩
            have hne : i ≠ k := fun heq => hP (heq ▸ hk)
            exact ⟨by omega, hhigh, hk⟩
          · rintro ⟨hlow, hhigh, hk⟩
            exact ⟨by omega, hhigh, hk⟩
        exact ⟨answer, by simp [hP, hscan], hset ▸ hfinds⟩
    · refine ⟨none, by simp [hend], finds_none ?_⟩
      rw [Set.eq_empty_iff_forall_notMem]
      rintro k ⟨hlow, hhigh, -⟩
      omega

theorem scanDown_finds {n : ℕ} (htest : ∀ i < n, test i = some (decide (P i))) :
    ∃ answer, scanDown test n = some answer ∧ Finds IsGreatest {k | k < n ∧ P k} answer := by
  induction n with
  | zero =>
    refine ⟨none, rfl, finds_none ?_⟩
    rw [Set.eq_empty_iff_forall_notMem]
    rintro k ⟨hk, -⟩
    omega
  | succ n ih =>
    rw [scanDown, htest n (Nat.lt_succ_self n)]
    by_cases hP : P n
    · have hlast : n ∈ {k | k < n + 1 ∧ P k} := ⟨Nat.lt_succ_self n, hP⟩
      refine ⟨some n, by simp [hP], finds_some hlast ⟨hlast, ?_⟩⟩
      exact fun k hk => Nat.lt_succ_iff.mp hk.1
    · obtain ⟨answer, hscan, hfinds⟩ := ih fun i hi => htest i (by omega)
      have hset : {k | k < n + 1 ∧ P k} = {k | k < n ∧ P k} := by
        ext k
        constructor
        · rintro ⟨hhigh, hk⟩
          have hne : k ≠ n := fun heq => hP (heq ▸ hk)
          exact ⟨by omega, hk⟩
        · rintro ⟨hhigh, hk⟩
          exact ⟨by omega, hk⟩
      exact ⟨answer, by simp [hP, hscan], hset ▸ hfinds⟩

end Loops

section Occurrences

variable {α : Type*} {needle haystack : List α} {k : ℕ}

/-- The offsets at which `needle` stands in `haystack`. -/
def occurrences (needle haystack : List α) : Set ℕ :=
  {k | ∃ front back, haystack = front ++ needle ++ back ∧ front.length = k}

theorem mem_occurrences :
    k ∈ occurrences needle haystack ↔ k ≤ haystack.length ∧ needle <+: haystack.drop k := by
  constructor
  · rintro ⟨front, back, rfl, rfl⟩
    rw [List.append_assoc, List.length_append, List.drop_left]
    exact ⟨Nat.le_add_right _ _, List.prefix_append _ _⟩
  · rintro ⟨hk, back, hback⟩
    refine ⟨haystack.take k, back, ?_, List.length_take_of_le hk⟩
    rw [List.append_assoc, hback, List.take_append_drop]

theorem add_length_le (h : k ∈ occurrences needle haystack) :
    k + needle.length ≤ haystack.length := by
  obtain ⟨front, back, rfl, rfl⟩ := h
  simp only [List.length_append]
  omega

theorem occurrences_eq {n : ℕ} (hlow : ∀ k ∈ occurrences needle haystack, k < n)
    (hhigh : n ≤ haystack.length + 1) :
    occurrences needle haystack = {k | 0 ≤ k ∧ k < n ∧ needle <+: haystack.drop k} := by
  ext k
  constructor
  · intro hk
    exact ⟨Nat.zero_le k, hlow k hk, (mem_occurrences.mp hk).2⟩
  · rintro ⟨-, hk, hprefix⟩
    exact mem_occurrences.mpr ⟨by omega, hprefix⟩

theorem finds_nil (haystack : List α) : Finds IsLeast (occurrences [] haystack) (some 0) := by
  have hzero : 0 ∈ occurrences [] haystack :=
    mem_occurrences.mpr ⟨Nat.zero_le _, List.nil_prefix⟩
  exact finds_some hzero ⟨hzero, fun k _ => Nat.zero_le k⟩

end Occurrences

end Solcompat.Lib.Search
