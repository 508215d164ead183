import Solcompat.Lib.Rearrange
import Solcompat.Sort.Model

/-!
# The sort seen on elements

Every step of the sort touches memory through whole-element swaps only. The
bytes of one element form a list; exchanging bytes under two moving pointers
exchanges two such lists and nothing else. From here on a machine is a family
of elements, and each loop rearranges the interval it is given.
-/

namespace Solcompat.Sort

open Lib

/-- Exchanging two blocks that coincide or do not overlap, byte by byte. -/
theorem qsortSwapBytes_apply (left right n : ℕ) (m : Memory) (x : ℕ)
    (hsep : left + n ≤ right ∨ right + n ≤ left ∨ left = right) :
    qsortSwapBytes left right n m x =
      if left ≤ x ∧ x < left + n then m (right + (x - left))
      else if right ≤ x ∧ x < right + n then m (left + (x - right)) else m x := by
  induction n generalizing left right m with
  | zero =>
    simp only [qsortSwapBytes]
    split_ifs <;> first | omega | rfl
  | succ n ih =>
    rw [qsortSwapBytes, ih (left + 1) (right + 1) _ (by omega)]
    simp only [Function.update_apply]
    split_ifs <;> first | omega | (congr 1; omega) | rfl

namespace Sorter

variable {γ σ : Type*} (q : Sorter γ σ)

/-- The bytes of the element stored from address `p` on. -/
def bytesAt (m : Memory) (p : ℕ) : List UInt8 :=
  (List.range q.elementSize).map fun k => m (p + k)

/-- The elements of the machine's memory by position. -/
def array (s : Machine σ) (i : ℕ) : List UInt8 := q.bytesAt s.memory (q.address i)

def elements (n : ℕ) (s : Machine σ) : List (List UInt8) := (List.range n).map (q.array s)

theorem address_add_le {i j : ℕ} (h : i < j) : q.address i + q.elementSize ≤ q.address j := by
  have hsteps := Nat.mul_le_mul_right q.elementSize (Nat.succ_le_of_lt h)
  rw [Nat.succ_mul] at hsteps
  unfold address
  omega

theorem address_disjoint {i j : ℕ} (h : i ≠ j) :
    q.address i + q.elementSize ≤ q.address j ∨ q.address j + q.elementSize ≤ q.address i :=
  (Nat.lt_or_gt_of_ne h).imp q.address_add_le q.address_add_le

theorem address_separated (i j : ℕ) :
    q.address i + q.elementSize ≤ q.address j ∨ q.address j + q.elementSize ≤ q.address i ∨
      q.address i = q.address j := by
  by_cases h : i = j
  · exact .inr (.inr (by rw [h]))
  · exact or_assoc.mp (.inl (q.address_disjoint h))

@[simp] theorem array_swap (i j : ℕ) (s : Machine σ) :
    q.array (q.swap i j s) = q.array s ∘ Equiv.swap i j := by
  funext p
  simp only [array, bytesAt, swap, Function.comp_apply]
  apply List.map_congr_left
  intro k hk
  rw [List.mem_range] at hk
  rw [qsortSwapBytes_apply _ _ _ _ _ (q.address_separated i j)]
  by_cases hpi : p = i
  · subst hpi
    rw [Equiv.swap_apply_left, if_pos (by omega)]
    congr 1
    omega
  · have hdi := q.address_disjoint hpi
    rw [if_neg (by omega)]
    by_cases hpj : p = j
    · subst hpj
      rw [Equiv.swap_apply_right, if_pos (by omega)]
      congr 1
      omega
    · have hdj := q.address_disjoint hpj
      rw [Equiv.swap_apply_of_ne_of_ne hpi hpj, if_neg (by omega)]

@[simp] theorem array_compare (i j : ℕ) (s : Machine σ) :
    q.array (q.compare i j s).2 = q.array s := rfl

@[simp] theorem array_subtract (a b : ℕ) (s : Machine σ) :
    q.array (subtract a b s).2 = q.array s := rfl

@[simp] theorem subtract_fst (a b : ℕ) (s : Machine σ) : (subtract a b s).1 = a - b := rfl

theorem insertionInner_rearranged {left hi : ℕ} (inner : ℕ) (s : Machine σ) (h : inner ≤ hi) :
    RearrangedOn left hi (q.array s) (q.array (q.insertionInner left inner s)) := by
  induction inner generalizing s with
  | zero => exact .refl _ _ _
  | succ inner ih =>
    simp only [insertionInner]
    split_ifs with hl ho
    · have hswap : RearrangedOn left hi (q.array s) (q.array s ∘ Equiv.swap inner (inner + 1)) :=
        .swap _ (by omega) (by omega) (by omega) (by omega)
      have hrest := ih (q.swap inner (inner + 1)
        (q.compare inner (inner + 1) (subtract (inner + 1) 1 s).2).2) (by omega)
      rw [array_swap, array_compare, array_subtract] at hrest
      exact hswap.trans hrest
    · exact .refl _ _ _
    · exact .refl _ _ _

theorem insertionOuter_rearranged {left hi : ℕ} (k : ℕ) (s : Machine σ) (h : left + k ≤ hi) :
    RearrangedOn left hi (q.array s) (q.array (q.insertionOuter left k s)) := by
  induction k with
  | zero => exact .refl _ _ _
  | succ k ih =>
    exact (ih (by omega)).trans (q.insertionInner_rearranged _ _ (by omega))

theorem lomutoScan_rearranged {left right : ℕ} (k : ℕ) (s : Machine σ) (h : left + k ≤ right) :
    RearrangedOn left right (q.array s) (q.array (q.lomutoScan left right k s).2) := by
  induction k with
  | zero => exact .refl _ _ _
  | succ k ih =>
    have hb := q.lomutoScan_bounds left right k s
    have hprior := ih (by omega)
    simp only [lomutoScan]
    split_ifs with ho
    · rw [array_swap, array_compare]
      exact hprior.trans (.swap _ (by omega) (by omega) (by omega) (by omega))
    · exact hprior

theorem qsortLomutoPartition_rearranged {left right : ℕ} (h : left ≤ right) (s : Machine σ) :
    RearrangedOn left right (q.array s) (q.array (q.qsortLomutoPartition left right s).2) := by
  have hb := q.lomutoScan_bounds left right (right - left) s
  simp only [qsortLomutoPartition, array_swap]
  exact (q.lomutoScan_rearranged _ s (by omega)).trans
    (.swap _ (by omega) (by omega) (by omega) (by omega))

theorem orderPair_rearranged {left right i j : ℕ} (s : Machine σ) (hi₁ : left ≤ i)
    (hi₂ : i ≤ right) (hj₁ : left ≤ j) (hj₂ : j ≤ right) :
    RearrangedOn left right (q.array s) (q.array (q.orderPair i j s)) := by
  simp only [orderPair]
  split_ifs
  · rw [array_swap, array_compare]
    exact .swap _ hi₁ hi₂ hj₁ hj₂
  · exact .refl _ _ _

theorem medianToEnd_rearranged {left mid right : ℕ} (s : Machine σ) (h₁ : left ≤ mid)
    (h₂ : mid ≤ right) :
    RearrangedOn left right (q.array s) (q.array (q.medianToEnd left mid right s)) := by
  simp only [medianToEnd, array_swap]
  have h₃ : left ≤ right := h₁.trans h₂
  exact (((q.orderPair_rearranged s le_rfl h₃ h₁ h₂).trans
    (q.orderPair_rearranged _ le_rfl h₃ h₃ le_rfl)).trans
    (q.orderPair_rearranged _ h₁ h₂ h₃ le_rfl)).trans (.swap _ h₁ h₂ h₃ le_rfl)

theorem partitionAroundMedian_rearranged {left right : ℕ} (h : left ≤ right) (s : Machine σ) :
    RearrangedOn left right (q.array s) (q.array (q.partitionAroundMedian left right s).2) := by
  have hmid : left + (right - left) / 2 ≤ right := by omega
  exact (q.medianToEnd_rearranged (subtract right left s).2 (by omega) hmid).trans
    (q.qsortLomutoPartition_rearranged h _)

theorem qsortRecursive_rearranged (left right : ℕ) (s : Machine σ) :
    RearrangedOn left right (q.array s) (q.array (q.qsortRecursive left right s)) := by
  induction left, right, s using q.qsortRecursive_induction with
  | trivial left right s h => exact .refl _ _ _
  | small left right s h => exact q.insertionOuter_rearranged _ _ (by omega)
  | split left right s parted below h hp hbelow ihl ihr =>
    have hb := q.partitionAroundMedian_bounds h.le (subtract right left s).2
    have hpart := q.partitionAroundMedian_rearranged h.le (subtract right left s).2
    rw [← hp] at hb hpart
    have hlow : RearrangedOn left right (q.array parted.2) (q.array below) := by
      by_cases hl : left < parted.1
      · exact (ihl hl).mono le_rfl (by omega)
      · rw [hbelow, if_neg hl]
        exact .refl _ _ _
    split_ifs with hr
    · exact (hpart.trans hlow).trans ((ihr hr).mono (by omega) le_rfl)
    · exact hpart.trans hlow

theorem qsortR_rearranged (n : ℕ) (s : Machine σ) :
    RearrangedOn 0 (n - 1) (q.array s) (q.array (q.qsortR n s)) := by
  unfold qsortR
  split_ifs
  · exact .refl _ _ _
  · exact q.qsortRecursive_rearranged 0 (n - 1) (subtract n 1 s).2

end Sorter

end Solcompat.Sort
