import Mathlib.Logic.Equiv.Basic
import Mathlib.Data.List.Perm.Basic
import Mathlib.Data.Int.Order.Basic
import Mathlib.Tactic

/-!
# Rearranging and ordering an interval of an indexed family

An array is a family `a : ℕ → α` of which only a closed interval of positions
is of interest. `RearrangedOn` says that one family arises from another by a
permutation of the positions of such an interval; it composes, it holds of a
swap, and every pointwise bound on the interval survives it. `SortedOn` orders
an interval by the sign of a three-way comparison, and `TotalPreorderOn` is
what such a comparison has to satisfy on the values that occur.
-/

namespace Solcompat.Lib

variable {α : Type*}

/-- `b` is `a` with the positions of the closed interval `[lo, hi]` permuted. -/
def RearrangedOn (lo hi : ℕ) (a b : ℕ → α) : Prop :=
  ∃ σ : Equiv.Perm ℕ, (∀ k, k < lo ∨ hi < k → σ k = k) ∧ b = a ∘ σ

namespace RearrangedOn

variable {lo hi : ℕ} {a b c : ℕ → α}

theorem refl (lo hi : ℕ) (a : ℕ → α) : RearrangedOn lo hi a a :=
  ⟨Equiv.refl ℕ, fun _ _ => rfl, rfl⟩

theorem trans (hab : RearrangedOn lo hi a b) (hbc : RearrangedOn lo hi b c) :
    RearrangedOn lo hi a c := by
  obtain ⟨σ, hσ, rfl⟩ := hab
  obtain ⟨τ, hτ, rfl⟩ := hbc
  refine ⟨τ.trans σ, ?_, rfl⟩
  intro k hk
  simp [hτ k hk, hσ k hk]

theorem mono {lo' hi' : ℕ} (hlo : lo' ≤ lo) (hhi : hi ≤ hi') (h : RearrangedOn lo hi a b) :
    RearrangedOn lo' hi' a b := by
  obtain ⟨σ, hσ, rfl⟩ := h
  exact ⟨σ, fun k hk => hσ k (by omega), rfl⟩

theorem swap (a : ℕ → α) {i j : ℕ} (hi₁ : lo ≤ i) (hi₂ : i ≤ hi) (hj₁ : lo ≤ j) (hj₂ : j ≤ hi) :
    RearrangedOn lo hi a (a ∘ Equiv.swap i j) := by
  refine ⟨Equiv.swap i j, ?_, rfl⟩
  intro k hk
  exact Equiv.swap_apply_of_ne_of_ne (by omega) (by omega)

theorem eq_outside (h : RearrangedOn lo hi a b) {k : ℕ} (hk : k < lo ∨ hi < k) : b k = a k := by
  obtain ⟨σ, hσ, rfl⟩ := h
  simp [hσ k hk]

theorem exists_source (h : RearrangedOn lo hi a b) {k : ℕ} (h₁ : lo ≤ k) (h₂ : k ≤ hi) :
    ∃ j, lo ≤ j ∧ j ≤ hi ∧ b k = a j := by
  obtain ⟨σ, hσ, rfl⟩ := h
  refine ⟨σ k, ?_, ?_, rfl⟩ <;>
  · by_contra hout
    have hfix : σ (σ k) = σ k := hσ (σ k) (by omega)
    have : σ k = k := σ.injective hfix
    omega

/-- A property of every value on the interval is a property of every value after. -/
theorem forall_mem (h : RearrangedOn lo hi a b) {P : α → Prop}
    (hP : ∀ k, lo ≤ k → k ≤ hi → P (a k)) : ∀ k, lo ≤ k → k ≤ hi → P (b k) := by
  intro k h₁ h₂
  obtain ⟨j, hj₁, hj₂, he⟩ := h.exists_source h₁ h₂
  rw [he]
  exact hP j hj₁ hj₂

/-- Listing the first positions turns a rearrangement into a list permutation. -/
theorem map_range_perm {n : ℕ} (h : RearrangedOn lo hi a b) (hn : hi < n) :
    ((List.range n).map b).Perm ((List.range n).map a) := by
  obtain ⟨σ, hσ, rfl⟩ := h
  have hlt : ∀ k, k < n → σ k < n := by
    intro k hk
    by_contra hout
    have : σ k = k := σ.injective (hσ (σ k) (by omega))
    omega
  have hrange : ((List.range n).map σ).Perm (List.range n) := by
    apply (List.perm_ext_iff_of_nodup (List.nodup_range.map σ.injective) List.nodup_range).mpr
    intro k
    simp only [List.mem_map, List.mem_range]
    constructor
    · rintro ⟨j, hj, rfl⟩
      exact hlt j hj
    · intro hk
      refine ⟨σ.symm k, ?_, by simp⟩
      by_contra hout
      have : σ (σ.symm k) = σ.symm k := hσ _ (by omega)
      simp at this
      omega
  simpa [List.map_map] using hrange.map a

end RearrangedOn

/-- A three-way comparison whose sign is antisymmetric and transitive on `S`. -/
structure TotalPreorderOn (S : Set α) (cmp : α → α → ℤ) : Prop where
  antisymm : ∀ x ∈ S, ∀ y ∈ S, (cmp x y).sign = -(cmp y x).sign
  trans : ∀ x ∈ S, ∀ y ∈ S, ∀ z ∈ S, cmp x y ≤ 0 → cmp y z ≤ 0 → cmp x z ≤ 0

namespace TotalPreorderOn

variable {S : Set α} {cmp : α → α → ℤ}

theorem le_of_pos (h : TotalPreorderOn S cmp) {x y : α} (hx : x ∈ S) (hy : y ∈ S)
    (hpos : 0 < cmp x y) : cmp y x ≤ 0 := by
  have hs := h.antisymm x hx y hy
  rw [Int.sign_eq_one_of_pos hpos] at hs
  exact (Int.sign_eq_neg_one_iff_neg.mp (by omega)).le

theorem refl (h : TotalPreorderOn S cmp) {x : α} (hx : x ∈ S) : cmp x x ≤ 0 := by
  by_contra hpos
  exact hpos (h.le_of_pos hx hx (not_le.mp hpos))

end TotalPreorderOn

/-- The values at the positions of `[lo, hi]` are in non-decreasing order. -/
def SortedOn (cmp : α → α → ℤ) (lo hi : ℕ) (a : ℕ → α) : Prop :=
  ∀ i j, lo ≤ i → i ≤ j → j ≤ hi → cmp (a i) (a j) ≤ 0

namespace SortedOn

variable {S : Set α} {cmp : α → α → ℤ} {lo hi : ℕ} {a : ℕ → α}

theorem of_le (h : TotalPreorderOn S cmp) (hS : ∀ k, lo ≤ k → k ≤ hi → a k ∈ S)
    (hle : hi ≤ lo) : SortedOn cmp lo hi a := by
  intro i j h₁ h₂ h₃
  obtain rfl : i = j := by omega
  exact h.refl (hS i h₁ h₃)

/-- Two sorted halves around a pivot position that separates them are sorted. -/
theorem join (h : TotalPreorderOn S cmp) (hS : ∀ k, lo ≤ k → k ≤ hi → a k ∈ S) {p : ℕ}
    (hlo : lo ≤ p) (hhi : p ≤ hi)
    (hleft : ∀ i j, lo ≤ i → i ≤ j → j < p → cmp (a i) (a j) ≤ 0)
    (hright : ∀ i j, p < i → i ≤ j → j ≤ hi → cmp (a i) (a j) ≤ 0)
    (hbelow : ∀ k, lo ≤ k → k < p → cmp (a k) (a p) ≤ 0)
    (habove : ∀ k, p < k → k ≤ hi → cmp (a p) (a k) ≤ 0) : SortedOn cmp lo hi a := by
  have hp : a p ∈ S := hS p hlo hhi
  intro i j h₁ h₂ h₃
  rcases lt_trichotomy i p with hi' | rfl | hi'
  · rcases lt_trichotomy j p with hj | rfl | hj
    · exact hleft i j h₁ h₂ hj
    · exact hbelow i h₁ hi'
    · exact h.trans _ (hS i h₁ (by omega)) _ hp _ (hS j (by omega) h₃)
        (hbelow i h₁ hi') (habove j hj h₃)
  · rcases Nat.eq_or_lt_of_le h₂ with rfl | hj
    · exact h.refl hp
    · exact habove j hj h₃
  · exact hright i j hi' h₂ h₃

/-- The recursive step of a quicksort. `a` is separated at `p`; `b` sorts the side
below `p` and `c` then the side above, either of which is skipped when empty. -/
theorem of_sides (h : TotalPreorderOn S cmp) {b c : ℕ → α} {p : ℕ} (hlo : lo ≤ p) (hhi : p ≤ hi)
    (hS : ∀ k, lo ≤ k → k ≤ hi → a k ∈ S)
    (hbelow : ∀ k, lo ≤ k → k < p → cmp (a k) (a p) ≤ 0)
    (habove : ∀ k, p < k → k ≤ hi → 0 < cmp (a k) (a p))
    (hb : if lo < p then RearrangedOn lo (p - 1) a b ∧ SortedOn cmp lo (p - 1) b else b = a)
    (hc : if p < hi then RearrangedOn (p + 1) hi b c ∧ SortedOn cmp (p + 1) hi c else c = b) :
    SortedOn cmp lo hi c := by
  have hb_out : ∀ k, p ≤ k → b k = a k := by
    intro k hk
    split_ifs at hb with hl
    · exact hb.1.eq_outside (by omega)
    · rw [hb]
  have hc_out : ∀ k, k ≤ p → c k = b k := by
    intro k hk
    split_ifs at hc with hr
    · exact hc.1.eq_outside (by omega)
    · rw [hc]
  have hb_in : ∀ k, lo ≤ k → k < p → c k ∈ S ∧ cmp (c k) (a p) ≤ 0 := by
    intro k h₁ h₂
    rw [hc_out k h₂.le]
    rw [if_pos (by omega)] at hb
    exact hb.1.forall_mem (P := fun x => x ∈ S ∧ cmp x (a p) ≤ 0)
      (fun i h₃ h₄ => ⟨hS i h₃ (by omega), hbelow i h₃ (by omega)⟩) k h₁ (by omega)
  have hc_in : ∀ k, p < k → k ≤ hi → c k ∈ S ∧ 0 < cmp (c k) (a p) := by
    intro k h₁ h₂
    rw [if_pos (by omega)] at hc
    refine hc.1.forall_mem (P := fun x => x ∈ S ∧ 0 < cmp x (a p)) ?_ k h₁ h₂
    intro i h₃ h₄
    rw [hb_out i (by omega)]
    exact ⟨hS i (by omega) h₄, habove i h₃ h₄⟩
  have hp : c p = a p := by rw [hc_out p le_rfl, hb_out p le_rfl]
  have hp_mem : a p ∈ S := hS p hlo hhi
  refine join h ?_ hlo hhi ?_ ?_ ?_ ?_
  · intro k h₁ h₂
    rcases lt_trichotomy k p with hk | rfl | hk
    · exact (hb_in k h₁ hk).1
    · rwa [hp]
    · exact (hc_in k hk h₂).1
  · intro i j h₁ h₂ h₃
    rw [if_pos (by omega)] at hb
    rw [hc_out i (by omega), hc_out j h₃.le]
    exact hb.2 i j h₁ h₂ (by omega)
  · intro i j h₁ h₂ h₃
    rw [if_pos (by omega)] at hc
    exact hc.2 i j h₁ h₂ h₃
  · intro k h₁ h₂
    rw [hp]
    exact (hb_in k h₁ h₂).2
  · intro k h₁ h₂
    rw [hp]
    exact h.le_of_pos (hc_in k h₁ h₂).1 hp_mem (hc_in k h₁ h₂).2

end SortedOn

/-- Sorted but for position `j`, whose value is only known to bound those after it. -/
structure SortedExceptAt (cmp : α → α → ℤ) (lo hi j : ℕ) (a : ℕ → α) : Prop where
  others : ∀ i k, lo ≤ i → i ≤ k → k ≤ hi → i ≠ j → k ≠ j → cmp (a i) (a k) ≤ 0
  after : ∀ k, j < k → k ≤ hi → cmp (a j) (a k) ≤ 0

namespace SortedExceptAt

variable {S : Set α} {cmp : α → α → ℤ} {lo hi j : ℕ} {a : ℕ → α}

/-- Moving the misplaced value below a greater neighbour moves the gap down. -/
theorem swap (h : TotalPreorderOn S cmp) (hS : ∀ k, lo ≤ k → k ≤ hi → a k ∈ S)
    (hlo : lo ≤ j) (hhi : j + 1 ≤ hi) (hpos : 0 < cmp (a j) (a (j + 1)))
    (hx : SortedExceptAt cmp lo hi (j + 1) a) :
    SortedExceptAt cmp lo hi j (a ∘ Equiv.swap j (j + 1)) := by
  have hval : ∀ k, k ≠ j → k ≠ j + 1 → (a ∘ Equiv.swap j (j + 1)) k = a k := fun k h₁ h₂ => by
    simp [Equiv.swap_apply_of_ne_of_ne h₁ h₂]
  have hleft : (a ∘ Equiv.swap j (j + 1)) j = a (j + 1) := by simp
  have hright : (a ∘ Equiv.swap j (j + 1)) (j + 1) = a j := by simp
  constructor
  · intro i k h₁ h₂ h₃ hi' hk'
    by_cases hi₁ : i = j + 1
    · subst hi₁
      rw [hright]
      by_cases hk₁ : k = j + 1
      · subst hk₁
        rw [hright]
        exact h.refl (hS j hlo (by omega))
      · rw [hval k hk' hk₁]
        exact hx.others j k hlo (by omega) h₃ (by omega) hk₁
    · rw [hval i hi' hi₁]
      by_cases hk₁ : k = j + 1
      · subst hk₁
        rw [hright]
        exact hx.others i j h₁ (by omega) (by omega) hi₁ (by omega)
      · rw [hval k hk' hk₁]
        exact hx.others i k h₁ h₂ h₃ hi₁ hk₁
  · intro k h₁ h₂
    rw [hleft]
    by_cases hk₁ : k = j + 1
    · subst hk₁
      rw [hright]
      exact h.le_of_pos (hS j hlo (by omega)) (hS (j + 1) (by omega) hhi) hpos
    · rw [hval k (by omega) hk₁]
      exact hx.after k (by omega) h₂

/-- The gap closes once the misplaced value is not below its predecessor. -/
theorem sorted (h : TotalPreorderOn S cmp) (hS : ∀ k, lo ≤ k → k ≤ hi → a k ∈ S)
    (hhi : j ≤ hi) (hprev : lo < j → cmp (a (j - 1)) (a j) ≤ 0)
    (hx : SortedExceptAt cmp lo hi j a) : SortedOn cmp lo hi a := by
  intro i k h₁ h₂ h₃
  by_cases hi' : i = j
  · subst hi'
    rcases Nat.eq_or_lt_of_le h₂ with rfl | hlt
    · exact h.refl (hS i h₁ h₃)
    · exact hx.after k hlt h₃
  · by_cases hk' : k = j
    · subst hk'
      have hlast := hprev (by omega)
      rcases Nat.eq_or_lt_of_le (show i ≤ k - 1 by omega) with heq | hlt
      · rwa [heq]
      · exact h.trans _ (hS i h₁ (by omega)) _ (hS (k - 1) (by omega) (by omega)) _
          (hS k (by omega) h₃)
          (hx.others i (k - 1) h₁ (by omega) (by omega) hi' (by omega)) hlast
    · exact hx.others i k h₁ h₂ h₃ hi' hk'

end SortedExceptAt

end Solcompat.Lib
