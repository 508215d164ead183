import Mathlib.Data.List.Basic
import Mathlib.Tactic

/-!
# Tokens between separators

The pieces of a list between its separators, by an induction that follows the cuts and not the
single elements: a list has no separator, or it is a piece, a separator and another list.
-/

namespace Solcompat.Lib.Tokens

variable {α : Type*} {p : α → Bool}

theorem exists_cut {xs : List α} (h : ∃ x ∈ xs, p x = true) :
    ∃ token sep rest, xs = token ++ sep :: rest ∧ (∀ x ∈ token, p x = false) ∧ p sep = true := by
  induction xs with
  | nil => simp at h
  | cons x xs ih =>
    cases hx : p x with
    | true => exact ⟨[], x, xs, rfl, by simp, hx⟩
    | false =>
      have hrest : ∃ y ∈ xs, p y = true := by simpa [hx] using h
      obtain ⟨token, sep, rest, rfl, htoken, hsep⟩ := ih hrest
      exact ⟨x :: token, sep, rest, rfl, by simpa [hx] using htoken, hsep⟩

theorem cut_induction {motive : List α → Prop}
    (last : ∀ token, (∀ x ∈ token, p x = false) → motive token)
    (cut : ∀ token sep rest, (∀ x ∈ token, p x = false) → p sep = true → motive rest →
      motive (token ++ sep :: rest)) (xs : List α) : motive xs := by
  induction hn : xs.length using Nat.strong_induction_on generalizing xs with
  | _ n ih =>
    by_cases hsep : ∃ x ∈ xs, p x = true
    · obtain ⟨token, sep, rest, rfl, htoken, hp⟩ := exists_cut hsep
      apply cut token sep rest htoken hp
      apply ih rest.length _ rest rfl
      rw [← hn, List.length_append, List.length_cons]
      omega
    · apply last
      simpa using hsep

/-- The tokens with their separators between them. -/
def join (tokens : List (List α)) (seps : List α) : List α :=
  (List.zipWith (· ++ ·) tokens (seps.map (fun sep => [sep]) ++ [[]])).flatten

theorem countP_token {token : List α} (h : ∀ x ∈ token, p x = false) : token.countP p = 0 := by
  rw [List.countP_eq_zero]
  simpa using h

theorem length_splitOnP (xs : List α) : (xs.splitOnP p).length = xs.countP p + 1 := by
  induction xs using cut_induction (p := p) with
  | last token h => rw [List.splitOnP_eq_singleton h, countP_token h, List.length_singleton]
  | cut token sep rest h hsep ih =>
    rw [List.splitOnP_append_cons_of_forall_mem h sep hsep, List.length_cons, ih,
      List.countP_append, countP_token h, List.countP_cons_of_pos hsep, Nat.zero_add]

theorem notSep_of_mem_splitOnP {xs token : List α} (h : token ∈ xs.splitOnP p) :
    ∀ x ∈ token, p x = false := by
  induction xs using cut_induction (p := p) with
  | last whole hwhole =>
    rw [List.splitOnP_eq_singleton hwhole, List.mem_singleton] at h
    rwa [h]
  | cut first sep rest hfirst hsep ih =>
    rw [List.splitOnP_append_cons_of_forall_mem hfirst sep hsep] at h
    rcases List.mem_cons.mp h with rfl | hrest
    · exact hfirst
    · exact ih hrest

/-- Between two separators that touch, and at an end that is a separator, there is an empty token;
its number is that of the separators in front of it. -/
theorem splitOnP_empty {xs ys : List α} (hxs : xs = [] ∨ ∃ sep ∈ xs.getLast?, p sep = true)
    (hys : ys = [] ∨ ∃ sep ∈ ys.head?, p sep = true) :
    ((xs ++ ys).splitOnP p)[xs.countP p]? = some [] := by
  have hempty : ∀ zs, (zs = [] ∨ ∃ sep ∈ zs.head?, p sep = true) →
      (zs.splitOnP p)[0]? = some [] := by
    intro zs hzs
    cases zs with
    | nil => rfl
    | cons z zs =>
      have hz : p z = true := by simpa using hzs
      simp [List.splitOnP_cons_eq_if_modifyHead, hz]
  rcases hxs with rfl | ⟨sep, hmem, hsep⟩
  · exact hempty ys hys
  · obtain ⟨front, rfl⟩ := List.getLast?_eq_some_iff.mp hmem
    rw [List.append_assoc, List.singleton_append, List.splitOnP_append_cons front ys hsep,
      List.countP_append, List.countP_singleton, if_pos hsep, ← length_splitOnP,
      List.getElem?_append_right le_rfl, Nat.sub_self]
    exact hempty ys hys

end Solcompat.Lib.Tokens
