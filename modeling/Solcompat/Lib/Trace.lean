import Mathlib.Data.List.Basic
import Mathlib.Tactic

/-!
# Lawful traces

A protocol says of every event after which traces it may come.
-/

namespace Solcompat.Lib

variable {α : Type} {allowed : List α → α → Prop} {events : List α}

/-- Every event may come after the events before it. -/
def Lawful (allowed : List α → α → Prop) (events : List α) : Prop :=
  ∀ past e, past ++ [e] <+: events → allowed past e

theorem lawful_nil : Lawful allowed [] := by
  intro past e h
  exact absurd (List.prefix_nil.mp h) (by simp)

theorem Lawful.concat (h : Lawful allowed events) {e : α} (he : allowed events e) :
    Lawful allowed (events ++ [e]) := by
  intro past e' hpast
  rcases List.prefix_concat_iff.mp hpast with heq | hold
  · obtain ⟨rfl, hlast⟩ := List.append_inj' heq rfl
    rw [List.singleton_inj] at hlast
    rwa [hlast]
  · exact h past e' hold

end Solcompat.Lib
