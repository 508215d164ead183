import Mathlib.Logic.Function.Basic
import Mathlib.Tactic

/-!
# A ledger of heap blocks

Every owner holds at most one block. It replaces the block by a new one and frees the old
one, or hands its block over for good. Blocks are numbered as they are allocated. In a
balanced ledger a block that is held or handed over was never freed, and every other one
exactly once.
-/

namespace Solcompat.Lib

structure Ledger (ι : Type) where
  held : ι → Option ℕ
  left : List ℕ
  issued : ℕ
  frees : ℕ → ℕ

namespace Ledger

variable {ι : Type}

/-- The block is held by an owner or was handed over. -/
def Live (l : Ledger ι) (b : ℕ) : Prop := b ∈ l.left ∨ ∃ i, l.held i = some b

structure Balanced (l : Ledger ι) : Prop where
  issued : ∀ b, l.Live b → b < l.issued
  exclusive : ∀ i b, l.held i = some b → b ∉ l.left ∧ ∀ j, l.held j = some b → j = i
  live : ∀ b, l.Live b → l.frees b = 0
  superseded : ∀ b < l.issued, ¬ l.Live b → l.frees b = 1
  unissued : ∀ b, l.issued ≤ b → l.frees b = 0

/-- Freeing a block, or the null pointer. -/
def release (frees : ℕ → ℕ) : Option ℕ → ℕ → ℕ
  | some b => Function.update frees b (frees b + 1)
  | none => frees

theorem balanced_empty : Balanced (⟨fun _ : ι => none, [], 0, fun _ => 0⟩ : Ledger ι) where
  issued b h := by simp [Live] at h
  exclusive i b h := by simp at h
  live _ _ := rfl
  superseded b h := absurd h (Nat.not_lt_zero b)
  unissued _ _ := rfl

variable [DecidableEq ι]

/-- The owner gets the next block and its old one is freed. -/
def replace (l : Ledger ι) (i : ι) : Ledger ι where
  held := Function.update l.held i (some l.issued)
  left := l.left
  issued := l.issued + 1
  frees := release l.frees (l.held i)

/-- The owner hands its block over. -/
def handOver (l : Ledger ι) (i : ι) : Ledger ι :=
  { l with held := Function.update l.held i none, left := (l.held i).toList ++ l.left }

variable {l : Ledger ι} {i : ι} {b : ℕ}

theorem live_handOver (i : ι) (b : ℕ) : (l.handOver i).Live b ↔ l.Live b := by
  simp only [Live, handOver, List.mem_append, Option.mem_toList]
  constructor
  · rintro ((hheld | hleft) | ⟨j, hj⟩)
    · exact .inr ⟨i, hheld⟩
    · exact .inl hleft
    · by_cases hji : j = i
      · rw [hji, Function.update_self] at hj
        exact absurd hj (by simp)
      · rw [Function.update_of_ne hji] at hj
        exact .inr ⟨j, hj⟩
  · rintro (hleft | ⟨j, hj⟩)
    · exact .inl (.inr hleft)
    · by_cases hji : j = i
      · exact .inl (.inl (hji ▸ hj))
      · exact .inr ⟨j, by rwa [Function.update_of_ne hji]⟩

theorem Balanced.handOver (h : l.Balanced) (i : ι) : (l.handOver i).Balanced where
  issued b hb := h.issued b ((live_handOver i b).mp hb)
  exclusive j b hj := by
    by_cases hji : j = i
    · simp only [Ledger.handOver, hji, Function.update_self] at hj
      exact absurd hj (by simp)
    · simp only [Ledger.handOver, Function.update_of_ne hji] at hj
      obtain ⟨hleft, hunique⟩ := h.exclusive j b hj
      refine ⟨?_, fun k hk => ?_⟩
      · simp only [Ledger.handOver, List.mem_append, Option.mem_toList, not_or]
        exact ⟨fun hi => hji (hunique i hi).symm, hleft⟩
      · by_cases hki : k = i
        · simp only [Ledger.handOver, hki, Function.update_self] at hk
          exact absurd hk (by simp)
        · simp only [Ledger.handOver, Function.update_of_ne hki] at hk
          exact hunique k hk
  live b hb := h.live b ((live_handOver i b).mp hb)
  superseded b hb hlive := h.superseded b hb fun hl => hlive ((live_handOver i b).mpr hl)
  unissued b hb := h.unissued b hb

theorem release_of_ne {frees : ℕ → ℕ} {o : Option ℕ} (h : o ≠ some b) :
    release frees o b = frees b := by
  cases o with
  | none => rfl
  | some c => exact Function.update_of_ne (fun hbc => h (by rw [hbc])) _ _

/-- The old block is the only one that is no longer live, and the new one is live. -/
theorem live_replace (h : l.Balanced) (i : ι) (b : ℕ) :
    (l.replace i).Live b ↔ b = l.issued ∨ l.Live b ∧ l.held i ≠ some b := by
  simp only [Live, replace]
  constructor
  · rintro (hleft | ⟨j, hj⟩)
    · exact .inr ⟨.inl hleft, fun hi => (h.exclusive i b hi).1 hleft⟩
    · by_cases hji : j = i
      · rw [hji, Function.update_self] at hj
        exact .inl (Option.some.inj hj).symm
      · rw [Function.update_of_ne hji] at hj
        exact .inr ⟨.inr ⟨j, hj⟩, fun hi => hji ((h.exclusive i b hi).2 j hj)⟩
  · rintro (rfl | ⟨hleft | ⟨j, hj⟩, hne⟩)
    · exact .inr ⟨i, Function.update_self ..⟩
    · exact .inl hleft
    · have hji : j ≠ i := fun hji => hne (hji ▸ hj)
      exact .inr ⟨j, by rwa [Function.update_of_ne hji]⟩

theorem Balanced.replace (h : l.Balanced) (i : ι) : (l.replace i).Balanced where
  issued b hb := by
    rcases (live_replace h i b).mp hb with rfl | ⟨hlive, -⟩
    · exact Nat.lt_succ_self _
    · exact Nat.lt_succ_of_lt (h.issued b hlive)
  exclusive j b hj := by
    by_cases hji : j = i
    · simp only [Ledger.replace, hji, Function.update_self, Option.some.injEq] at hj
      subst hj hji
      refine ⟨fun hleft => absurd (h.issued _ (.inl hleft)) (lt_irrefl _), fun k hk => ?_⟩
      by_contra hkj
      simp only [Ledger.replace, Function.update_of_ne hkj] at hk
      exact absurd (h.issued _ (.inr ⟨k, hk⟩)) (lt_irrefl _)
    · simp only [Ledger.replace, Function.update_of_ne hji] at hj
      obtain ⟨hleft, hunique⟩ := h.exclusive j b hj
      refine ⟨hleft, fun k hk => ?_⟩
      by_cases hki : k = i
      · simp only [Ledger.replace, hki, Function.update_self, Option.some.injEq] at hk
        exact absurd (h.issued b (.inr ⟨j, hj⟩)) (by omega)
      · simp only [Ledger.replace, Function.update_of_ne hki] at hk
        exact hunique k hk
  live b hb := by
    rcases (live_replace h i b).mp hb with rfl | ⟨hlive, hne⟩
    · have hne : l.held i ≠ some l.issued :=
        fun hi => absurd (h.issued _ (.inr ⟨i, hi⟩)) (lt_irrefl _)
      exact (release_of_ne hne).trans (h.unissued _ le_rfl)
    · exact (release_of_ne hne).trans (h.live b hlive)
  superseded b hb hlive := by
    rw [live_replace h, not_or, not_and, not_not] at hlive
    have hlt : b < l.issued := lt_of_le_of_ne (Nat.le_of_lt_succ hb) hlive.1
    by_cases hl : l.Live b
    · simp only [Ledger.replace, hlive.2 hl, release, Function.update_self, h.live b hl]
    · have hne : l.held i ≠ some b := fun hi => hl (.inr ⟨i, hi⟩)
      exact (release_of_ne hne).trans (h.superseded b hlt hl)
  unissued b hb := by
    have hlt : l.issued < b := hb
    have hne : l.held i ≠ some b := fun hi => absurd (h.issued b (.inr ⟨i, hi⟩)) (by omega)
    exact (release_of_ne hne).trans (h.unissued b hlt.le)

end Ledger

end Solcompat.Lib
