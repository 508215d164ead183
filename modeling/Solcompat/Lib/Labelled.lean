import Mathlib.Data.List.Basic

/-!
# Runs of labelled steps

A run is a chain of steps, with the events that label them. What every step keeps is kept by every
run, and a relation that the steps of two systems keep together is kept by their runs.
-/

namespace Solcompat.Lib

variable {S A E : Type}

inductive Steps (Step : S → E → S → Prop) : S → List E → S → Prop
  | nil (s : S) : Steps Step s [] s
  | cons {s s₁ s' : S} {e : E} {es : List E} (hstep : Step s e s₁) (hrest : Steps Step s₁ es s') :
      Steps Step s (e :: es) s'

namespace Steps

variable {Step : S → E → S → Prop} {Spec : A → E → A → Prop} {s s' : S} {es : List E}

theorem trans {s₁ : S} {fs : List E} (h : Steps Step s es s₁) (h' : Steps Step s₁ fs s') :
    Steps Step s (es ++ fs) s' := by
  induction h with
  | nil => exact h'
  | cons hstep _ ih => exact .cons hstep (ih h')

theorem mono {Step' : S → E → S → Prop} (hrun : Steps Step s es s')
    (hsub : ∀ s e s', Step s e s' → Step' s e s') : Steps Step' s es s' := by
  induction hrun with
  | nil => exact .nil _
  | cons hstep _ ih => exact .cons (hsub _ _ _ hstep) ih

theorem invariant {I : S → Prop} (hrun : Steps Step s es s') (hs : I s)
    (hkeep : ∀ s e s', e ∈ es → I s → Step s e s' → I s') : I s' := by
  induction hrun with
  | nil => exact hs
  | cons hstep _ ih =>
    exact ih (hkeep _ _ _ List.mem_cons_self hs hstep)
      fun s e s' he => hkeep s e s' (List.mem_cons_of_mem _ he)

/-- Every step is one of the other system, between states that belong together. -/
theorem simulates {R : S → A → Prop} (hrun : Steps Step s es s')
    (hsim : ∀ s e s' a, R s a → Step s e s' → ∃ a', Spec a e a' ∧ R s' a') {a : A} (ha : R s a) :
    ∃ a', Steps Spec a es a' ∧ R s' a' := by
  induction hrun generalizing a with
  | nil => exact ⟨a, .nil a, ha⟩
  | cons hstep _ ih =>
    obtain ⟨a₁, hspec, ha₁⟩ := hsim _ _ _ a ha hstep
    obtain ⟨a', hrest, ha'⟩ := ih ha₁
    exact ⟨a', .cons hspec hrest, ha'⟩

end Steps

end Solcompat.Lib
