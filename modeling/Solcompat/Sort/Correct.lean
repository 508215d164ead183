import Solcompat.Sort.Elements

/-!
# `qsort_r` sorts

For a comparison function that, at the given context argument, depends only on
the contents of the two elements and is a total preorder on the elements of the
array, the final array is a sorted rearrangement of the initial one.
-/

namespace Solcompat.Sort.Sorter

open Lib

variable {γ σ : Type*} (q : Sorter γ σ)

/-- The answer of the comparison function at the context argument is `cmp` of
the two elements' contents, whatever its own state. -/
def ComparesContents (cmp : List UInt8 → List UInt8 → ℤ) : Prop :=
  ∀ m p r w, (q.compareFn m p r q.contextArg w).1 = cmp (q.bytesAt m p) (q.bytesAt m r)

variable {q} {cmp : List UInt8 → List UInt8 → ℤ} {S : Set (List UInt8)}

theorem ComparesContents.compare_fst (hq : q.ComparesContents cmp) (i j : ℕ) (s : Machine σ) :
    (q.compare i j s).1 = cmp (q.array s i) (q.array s j) :=
  hq _ _ _ _

theorem insertionInner_sorted (hq : q.ComparesContents cmp) (h : TotalPreorderOn S cmp)
    {left hi : ℕ} (inner : ℕ) (s : Machine σ) (h₁ : left ≤ inner) (h₂ : inner ≤ hi)
    (hS : ∀ k, left ≤ k → k ≤ hi → q.array s k ∈ S)
    (hx : SortedExceptAt cmp left hi inner (q.array s)) :
    SortedOn cmp left hi (q.array (q.insertionInner left inner s)) := by
  induction inner generalizing s with
  | zero => exact hx.sorted h hS h₂ (by omega)
  | succ inner ih =>
    simp only [insertionInner, hq.compare_fst, array_subtract, subtract_fst,
      Nat.add_sub_cancel]
    split_ifs with hl ho
    · apply ih _ (by omega) (by omega)
      · rw [array_swap, array_compare, array_subtract]
        exact (RearrangedOn.swap (q.array s) (by omega) (by omega) (by omega) h₂).forall_mem hS
      · rw [array_swap, array_compare, array_subtract]
        exact hx.swap h hS (by omega) h₂ ho
    · exact hx.sorted h hS h₂ fun _ => not_lt.mp ho
    · exact hx.sorted h hS h₂ fun hlt => absurd hlt hl

theorem insertionOuter_sorted (hq : q.ComparesContents cmp) (h : TotalPreorderOn S cmp)
    {left : ℕ} (k : ℕ) (s : Machine σ)
    (hS : ∀ i, left ≤ i → i ≤ left + k → q.array s i ∈ S) :
    SortedOn cmp left (left + k) (q.array (q.insertionOuter left k s)) := by
  induction k with
  | zero => exact SortedOn.of_le h hS le_rfl
  | succ k ih =>
    have hsorted := ih fun i h₁ h₂ => hS i h₁ (by omega)
    have hprior : RearrangedOn left (left + (k + 1)) (q.array s)
        (q.array (q.insertionOuter left k s)) := q.insertionOuter_rearranged k s (by omega)
    refine insertionInner_sorted hq h _ _ (by omega) (by omega) (hprior.forall_mem hS) ?_
    constructor
    · intro i j h₁ h₂ h₃ hi hj
      exact hsorted i j h₁ h₂ (by omega)
    · intro j h₁ h₂
      omega

/-- What the scan has established after `k` rounds: the pivot is still in place,
the values below the store index are at most the pivot, the rest scanned above it. -/
structure ScanInvariant (cmp : List UInt8 → List UInt8 → ℤ) (left right k store : ℕ)
    (pivot : List UInt8) (a : ℕ → List UInt8) : Prop where
  pivot_at : a right = pivot
  below : ∀ i, left ≤ i → i < store → cmp (a i) pivot ≤ 0
  above : ∀ i, store ≤ i → i < left + k → 0 < cmp (a i) pivot

theorem lomutoScan_invariant (hq : q.ComparesContents cmp) {left right : ℕ} (k : ℕ)
    (s : Machine σ) (hk : left + k ≤ right) :
    ScanInvariant cmp left right k (q.lomutoScan left right k s).1 (q.array s right)
      (q.array (q.lomutoScan left right k s).2) := by
  induction k with
  | zero => exact ⟨rfl, fun i h₁ h₂ => absurd h₂ (not_lt.mpr h₁), fun i h₁ h₂ => by
      simp only [lomutoScan] at h₁; omega⟩
  | succ k ih =>
    obtain ⟨hpivot, hbelow, habove⟩ := ih (by omega)
    have hb := q.lomutoScan_bounds left right k s
    simp only [lomutoScan, hq.compare_fst, hpivot]
    generalize q.lomutoScan left right k s = prior at *
    split_ifs with ho
    · -- the scanned value joins the low zone, and the first high value takes its place
      simp only [array_swap, array_compare]
      have hval : ∀ i, i ≠ prior.1 → i ≠ left + k →
          (q.array prior.2 ∘ Equiv.swap prior.1 (left + k)) i = q.array prior.2 i :=
        fun i h₁ h₂ => by simp [Equiv.swap_apply_of_ne_of_ne h₁ h₂]
      refine ⟨?_, ?_, ?_⟩
      · rw [hval right (by omega) (by omega), hpivot]
      · intro i h₁ h₂
        by_cases hi : i = prior.1
        · subst hi
          simpa using ho
        · rw [hval i hi (by omega)]
          exact hbelow i h₁ (by omega)
      · intro i h₁ h₂
        by_cases hi : i = left + k
        · subst hi
          simpa using habove prior.1 le_rfl (by omega)
        · rw [hval i (by omega) hi]
          exact habove i (by omega) (by omega)
    · refine ⟨by simpa using hpivot, hbelow, ?_⟩
      intro i h₁ h₂
      by_cases hi : i = left + k
      · subst hi
        exact not_le.mp ho
      · exact habove i h₁ (by omega)

/-- The partition separates: at most the pivot before it, greater after it. -/
theorem qsortLomutoPartition_separates (hq : q.ComparesContents cmp) {left right : ℕ}
    (hlr : left ≤ right) (s : Machine σ) :
    let parted := q.qsortLomutoPartition left right s
    (∀ i, left ≤ i → i < parted.1 →
      cmp (q.array parted.2 i) (q.array parted.2 parted.1) ≤ 0) ∧
    (∀ i, parted.1 < i → i ≤ right →
      0 < cmp (q.array parted.2 i) (q.array parted.2 parted.1)) := by
  have hb := q.lomutoScan_bounds left right (right - left) s
  obtain ⟨hpivot, hbelow, habove⟩ :=
    lomutoScan_invariant hq (right - left) s (show left + (right - left) ≤ right by omega)
  simp only [qsortLomutoPartition, array_swap, Function.comp_apply, Equiv.swap_apply_left]
  generalize q.lomutoScan left right (right - left) s = scanned at *
  rw [hpivot]
  constructor
  · intro i h₁ h₂
    rw [Equiv.swap_apply_of_ne_of_ne (by omega) (by omega)]
    exact hbelow i h₁ h₂
  · intro i h₁ h₂
    by_cases hi : i = right
    · subst hi
      rw [Equiv.swap_apply_right]
      exact habove scanned.1 le_rfl (by omega)
    · rw [Equiv.swap_apply_of_ne_of_ne (by omega) hi]
      exact habove i h₁.le (by omega)

theorem qsortRecursive_sorted (hq : q.ComparesContents cmp) (h : TotalPreorderOn S cmp)
    (left right : ℕ) (s : Machine σ) (hS : ∀ k, left ≤ k → k ≤ right → q.array s k ∈ S) :
    SortedOn cmp left right (q.array (q.qsortRecursive left right s)) := by
  induction left, right, s using q.qsortRecursive_induction with
  | trivial left right s hle => exact SortedOn.of_le h hS hle
  | small left right s hlt =>
    have hsorted : SortedOn cmp left (left + (right - left))
        (q.array (q.qsortInsertionSort left right (subtract right left s).2)) :=
      insertionOuter_sorted hq h _ _ fun i h₁ h₂ => hS i h₁ (by omega)
    rwa [Nat.add_sub_of_le hlt.le] at hsorted
  | split left right s parted below hlt hp hbelow ihl ihr =>
    have hb := q.partitionAroundMedian_bounds hlt.le (subtract right left s).2
    have hpart := q.partitionAroundMedian_rearranged hlt.le (subtract right left s).2
    have hsep : (∀ i, left ≤ i → i < parted.1 →
          cmp (q.array parted.2 i) (q.array parted.2 parted.1) ≤ 0) ∧
        ∀ i, parted.1 < i → i ≤ right →
          0 < cmp (q.array parted.2 i) (q.array parted.2 parted.1) := by
      rw [hp]
      exact qsortLomutoPartition_separates hq hlt.le _
    rw [← hp] at hb hpart
    have hS₁ := hpart.forall_mem hS
    have hlow : if left < parted.1 then
        RearrangedOn left (parted.1 - 1) (q.array parted.2) (q.array below) ∧
          SortedOn cmp left (parted.1 - 1) (q.array below)
        else q.array below = q.array parted.2 := by
      split_ifs with hl
      · refine ⟨?_, ihl hl fun k h₁ h₂ => hS₁ k h₁ (by omega)⟩
        rw [hbelow, if_pos hl]
        exact q.qsortRecursive_rearranged _ _ _
      · rw [hbelow, if_neg hl]
    have hS₂ : ∀ k, parted.1 + 1 ≤ k → k ≤ right → q.array below k ∈ S := by
      intro k h₁ h₂
      have heq : q.array below k = q.array parted.2 k := by
        split_ifs at hlow with hl
        · exact hlow.1.eq_outside (by omega)
        · rw [hlow]
      rw [heq]
      exact hS₁ k (by omega) h₂
    refine SortedOn.of_sides h hb.1 hb.2 hS₁ hsep.1 hsep.2 hlow ?_
    by_cases hr : parted.1 < right
    · simp only [if_pos hr]
      exact ⟨q.qsortRecursive_rearranged _ _ _, ihr hr hS₂⟩
    · simp only [if_neg hr]

/-- Sorting any array of elements of at least one byte: the answers of the
comparison function on the final memory are non-positive in index order, and the
final elements are the initial ones rearranged. -/
theorem qsortR_sorts (q : Sorter γ σ) (cmp : List UInt8 → List UInt8 → ℤ) (n : ℕ)
    (s : Machine σ) (hsize : 1 ≤ q.elementSize) (hq : q.ComparesContents cmp)
    (h : TotalPreorderOn { x | x ∈ q.elements n s } cmp) :
    (∀ i j w, i ≤ j → j < n →
      (q.compareFn (q.qsortR n s).memory (q.address i) (q.address j) q.contextArg w).1 ≤ 0) ∧
    (q.elements n (q.qsortR n s)).Perm (q.elements n s) := by
  have hS : ∀ k, k < n → q.array s k ∈ { x | x ∈ q.elements n s } := fun k hk =>
    List.mem_map.mpr ⟨k, List.mem_range.mpr hk, rfl⟩
  rcases Nat.eq_zero_or_pos n with rfl | hn
  · exact ⟨fun i j w h₁ h₂ => absurd h₂ (by omega), by simp [elements]⟩
  have hperm := (q.qsortR_rearranged n s).map_range_perm (show n - 1 < n by omega)
  refine ⟨?_, hperm⟩
  have hsorted : SortedOn cmp 0 (n - 1) (q.array (q.qsortR n s)) := by
    unfold qsortR
    split_ifs with htrivial
    · exact SortedOn.of_le h (fun k _ hk => hS k (by omega)) (by omega)
    · exact qsortRecursive_sorted hq h 0 (n - 1) _ fun k _ hk => hS k (by omega)
  intro i j w h₁ h₂
  rw [hq]
  exact hsorted i j (by omega) h₁ (by omega)

/-- Two-byte elements compared by their first byte only. -/
def firstByte : Sorter Unit Unit where
  base := 0
  elementSize := 2
  compareFn m p r _ _ := ((m p).toNat - (m r).toNat, ())
  contextArg := ()

/-- Sixteen such elements in decreasing order. -/
def descending : Machine Unit := ⟨fun p => UInt8.ofNat (32 - p), (), []⟩

theorem firstByte_sorts :
    (∀ i j w, i ≤ j → j < 16 → (firstByte.compareFn (firstByte.qsortR 16 descending).memory
      (firstByte.address i) (firstByte.address j) () w).1 ≤ 0) ∧
    (firstByte.elements 16 (firstByte.qsortR 16 descending)).Perm
      (firstByte.elements 16 descending) := by
  refine firstByte.qsortR_sorts (fun x y => ((x.headD 0).toNat : ℤ) - (y.headD 0).toNat)
    16 descending (by decide) ?_ ?_
  · intro m p r w
    rfl
  · constructor
    · intro x hx y hy
      rw [← Int.sign_neg, neg_sub]
    · intro x hx y hy z hz h₁ h₂
      omega

end Solcompat.Sort.Sorter
