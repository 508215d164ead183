import Solcompat.Lib.Memory

/-!
# The hybrid sort behind `qsort_r`

`stdlib.c` sorts raw bytes in place: insertion sort up to twelve elements,
median-of-three Lomuto quicksort above. Memory is a map from addresses to
bytes and elements are moved byte by byte, as in the source. The comparison
function is arbitrary code: it may read all of memory, is handed the two
element addresses and the context argument, and keeps a state of its own.

The machine also records the element positions that are compared or swapped and
the operands of each `size_t` subtraction, which the source computes unchecked.
-/

namespace Solcompat.Sort

open Lib

inductive Event
  | compare (i j : ℕ)
  | swap (i j : ℕ)
  | subtract (minuend subtrahend : ℕ)
  deriving DecidableEq, Repr

/-- Memory, the comparison function's own state, and the events so far, newest first. -/
structure Machine (σ : Type*) where
  memory : Memory
  world : σ
  trace : List Event

/-- The arguments every function of the sort passes along unchanged. -/
structure Sorter (γ σ : Type*) where
  base : ℕ
  elementSize : ℕ
  compareFn : Memory → ℕ → ℕ → γ → σ → ℤ × σ
  contextArg : γ

def qsortInsertionCutoff : ℕ := 12

/-- `byte_count` steps of exchanging the two bytes under the moving pointers. -/
def qsortSwapBytes (left right : ℕ) : ℕ → Memory → Memory
  | 0, m => m
  | byteCount + 1, m =>
    qsortSwapBytes (left + 1) (right + 1) byteCount
      (Function.update (Function.update m left (m right)) right (m left))

def subtract {σ : Type*} (a b : ℕ) (s : Machine σ) : ℕ × Machine σ :=
  (a - b, { s with trace := .subtract a b :: s.trace })

namespace Sorter

variable {γ σ : Type*} (q : Sorter γ σ)

def address (i : ℕ) : ℕ := q.base + i * q.elementSize

def compare (i j : ℕ) (s : Machine σ) : ℤ × Machine σ :=
  let answer := q.compareFn s.memory (q.address i) (q.address j) q.contextArg s.world
  (answer.1, { s with world := answer.2, trace := .compare i j :: s.trace })

def swap (i j : ℕ) (s : Machine σ) : Machine σ :=
  { s with
    memory := qsortSwapBytes (q.address i) (q.address j) q.elementSize s.memory
    trace := .swap i j :: s.trace }

/-- The inner loop of the insertion sort: move the element at `inner_index` down
until its predecessor is not greater. -/
def insertionInner (left : ℕ) : ℕ → Machine σ → Machine σ
  | 0, s => s
  | inner + 1, s =>
    if left < inner + 1 then
      let previous := subtract (inner + 1) 1 s
      let order := q.compare previous.1 (inner + 1) previous.2
      if 0 < order.1 then insertionInner left inner (q.swap previous.1 (inner + 1) order.2)
      else order.2
    else s

/-- The first `k` rounds of the outer loop, for `outer_index` up to `left + k`. -/
def insertionOuter (left : ℕ) : ℕ → Machine σ → Machine σ
  | 0, s => s
  | k + 1, s => q.insertionInner left (left + k + 1) (insertionOuter left k s)

def qsortInsertionSort (left right : ℕ) (s : Machine σ) : Machine σ :=
  q.insertionOuter left (right - left) s

/-- The first `k` rounds of the Lomuto scan, with the store index they leave. -/
def lomutoScan (left right : ℕ) : ℕ → Machine σ → ℕ × Machine σ
  | 0, s => (left, s)
  | k + 1, s =>
    let prior := lomutoScan left right k s
    let order := q.compare (left + k) right prior.2
    if order.1 ≤ 0 then (prior.1 + 1, q.swap prior.1 (left + k) order.2)
    else (prior.1, order.2)

def qsortLomutoPartition (left right : ℕ) (s : Machine σ) : ℕ × Machine σ :=
  let scanned := q.lomutoScan left right (right - left) s
  (scanned.1, q.swap scanned.1 right scanned.2)

/-- One `if (compare_fn(..) > 0) qsort_swap_bytes(..)` of the median selection. -/
def orderPair (i j : ℕ) (s : Machine σ) : Machine σ :=
  let order := q.compare i j s
  if 0 < order.1 then q.swap i j order.2 else order.2

/-- Median-of-three: order the three probes, then park the median at the end. -/
def medianToEnd (left mid right : ℕ) (s : Machine σ) : Machine σ :=
  q.swap mid right (q.orderPair mid right (q.orderPair left right (q.orderPair left mid s)))

theorem lomutoScan_bounds (left right k : ℕ) (s : Machine σ) :
    left ≤ (q.lomutoScan left right k s).1 ∧ (q.lomutoScan left right k s).1 ≤ left + k := by
  induction k with
  | zero => simp [lomutoScan]
  | succ k ih =>
    simp only [lomutoScan]
    split_ifs <;> simp only <;> omega

theorem qsortLomutoPartition_bounds {left right : ℕ} (h : left ≤ right) (s : Machine σ) :
    left ≤ (q.qsortLomutoPartition left right s).1 ∧
      (q.qsortLomutoPartition left right s).1 ≤ right := by
  have hb := q.lomutoScan_bounds left right (right - left) s
  simp only [qsortLomutoPartition]
  omega

/-- The part of `qsort_recursive` between the cutoff test and the two calls. -/
def partitionAroundMedian (left right : ℕ) (s : Machine σ) : ℕ × Machine σ :=
  let width := subtract right left s
  q.qsortLomutoPartition left right (q.medianToEnd left (left + width.1 / 2) right width.2)

theorem partitionAroundMedian_bounds {left right : ℕ} (h : left ≤ right) (s : Machine σ) :
    left ≤ (q.partitionAroundMedian left right s).1 ∧
      (q.partitionAroundMedian left right s).1 ≤ right :=
  q.qsortLomutoPartition_bounds h _

/-- The pivot index stays in `[left, right]`, so both recursive calls work on a
shorter interval, whatever the comparison function answers. -/
def qsortRecursive (left right : ℕ) (s : Machine σ) : Machine σ :=
  if h : right ≤ left then s
  else
    let span := subtract right left s
    if span.1 + 1 ≤ qsortInsertionCutoff then q.qsortInsertionSort left right span.2
    else
      let parted := q.partitionAroundMedian left right span.2
      have hb : left ≤ parted.1 ∧ parted.1 ≤ right :=
        q.partitionAroundMedian_bounds (by omega) span.2
      let below :=
        if hl : left < parted.1 then
          let last := subtract parted.1 1 parted.2
          have : last.1 - left < right - left := by
            change parted.1 - 1 - left < right - left
            omega
          qsortRecursive left last.1 last.2
        else parted.2
      have : right - (parted.1 + 1) < right - left := by omega
      if parted.1 < right then qsortRecursive (parted.1 + 1) right below else below
termination_by right - left

/-- Induction along the recursive calls. The interval is trivial, or short enough
for the insertion sort, or split by a pivot with each side either sorted by a
recursive call or left alone. -/
theorem qsortRecursive_induction {motive : ℕ → ℕ → Machine σ → Machine σ → Prop}
    (trivial : ∀ left right s, right ≤ left → motive left right s s)
    (small : ∀ left right s, left < right →
      motive left right s (q.qsortInsertionSort left right (subtract right left s).2))
    (split : ∀ left right s (parted : ℕ × Machine σ) below, left < right →
      parted = q.partitionAroundMedian left right (subtract right left s).2 →
      below = (if left < parted.1 then
        q.qsortRecursive left (parted.1 - 1) (subtract parted.1 1 parted.2).2 else parted.2) →
      (left < parted.1 → motive left (parted.1 - 1) (subtract parted.1 1 parted.2).2 below) →
      (parted.1 < right →
        motive (parted.1 + 1) right below (q.qsortRecursive (parted.1 + 1) right below)) →
      motive left right s
        (if parted.1 < right then q.qsortRecursive (parted.1 + 1) right below else below))
    (left right : ℕ) (s : Machine σ) : motive left right s (q.qsortRecursive left right s) := by
  induction hn : right - left using Nat.strong_induction_on generalizing left right s with
  | _ n ih =>
    rw [qsortRecursive]
    by_cases h : right ≤ left
    · rw [dif_pos h]
      exact trivial left right s h
    rw [dif_neg h]
    dsimp only
    by_cases hsmall : (subtract right left s).1 + 1 ≤ qsortInsertionCutoff
    · rw [if_pos hsmall]
      exact small left right s (by omega)
    rw [if_neg hsmall]
    have hb := q.partitionAroundMedian_bounds (show left ≤ right by omega) (subtract right left s).2
    generalize hp : q.partitionAroundMedian left right (subtract right left s).2 = parted at hb ⊢
    refine split left right s parted _ (by omega) hp.symm (dite_eq_ite ..) ?_ ?_
    · intro hl
      rw [dif_pos hl]
      exact ih (parted.1 - 1 - left) (by omega) _ _ _ rfl
    · intro hr
      exact ih (right - (parted.1 + 1)) (by omega) _ _ _ rfl

def qsortR (elementCount : ℕ) (s : Machine σ) : Machine σ :=
  if elementCount ≤ 1 ∨ q.elementSize = 0 then s
  else
    let last := subtract elementCount 1 s
    q.qsortRecursive 0 last.1 last.2

end Sorter

end Solcompat.Sort
