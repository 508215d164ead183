import Solcompat.Sort.Elements

/-!
# The sort under any comparison function

Nothing is assumed of the answers: they may contradict each other and change from call to
call. The positions compared and swapped still lie in the interval a function was given, no
subtraction goes below zero, and no byte outside that interval changes. With the
rearrangement of the elements this is all that a caller may rely on in every case.
-/

namespace Solcompat.Sort

open Lib

/-- Positions of `[lo, hi]` only, and no subtraction of the greater from the smaller. -/
def Event.Within (lo hi : ℕ) : Event → Prop
  | compare i j | swap i j => (lo ≤ i ∧ i ≤ hi) ∧ lo ≤ j ∧ j ≤ hi
  | subtract minuend subtrahend => subtrahend ≤ minuend

theorem Event.Within.mono {lo hi lo' hi' : ℕ} (hlo : lo' ≤ lo) (hhi : hi ≤ hi') {e : Event}
    (h : e.Within lo hi) : e.Within lo' hi' := by
  cases e with
  | compare i j => exact ⟨⟨hlo.trans h.1.1, h.1.2.trans hhi⟩, hlo.trans h.2.1, h.2.2.trans hhi⟩
  | swap i j => exact ⟨⟨hlo.trans h.1.1, h.1.2.trans hhi⟩, hlo.trans h.2.1, h.2.2.trans hhi⟩
  | subtract a b => exact h

namespace Sorter

variable {γ σ : Type*} (q : Sorter γ σ)

theorem address_le {i j : ℕ} (h : i ≤ j) : q.address i ≤ q.address j :=
  Nat.add_le_add_left (Nat.mul_le_mul_right _ h) _

/-- What may happen between `s` and `s'` to code that works on the positions `[lo, hi]`. -/
structure Confined (lo hi : ℕ) (s s' : Machine σ) : Prop where
  events : ∃ events, s'.trace = events ++ s.trace ∧ ∀ e ∈ events, e.Within lo hi
  memory : ∀ x, x < q.address lo ∨ q.address hi + q.elementSize ≤ x → s'.memory x = s.memory x

namespace Confined

variable {q} {lo hi : ℕ} {s s' s'' : Machine σ}

theorem refl (lo hi : ℕ) (s : Machine σ) : q.Confined lo hi s s :=
  ⟨⟨[], rfl, by simp⟩, fun _ _ => rfl⟩

theorem trans (h : q.Confined lo hi s s') (h' : q.Confined lo hi s' s'') :
    q.Confined lo hi s s'' := by
  obtain ⟨events, htrace, hevents⟩ := h.events
  obtain ⟨events', htrace', hevents'⟩ := h'.events
  refine ⟨⟨events' ++ events, by rw [htrace', htrace, List.append_assoc], ?_⟩, ?_⟩
  · intro e he
    rcases List.mem_append.mp he with he | he
    · exact hevents' e he
    · exact hevents e he
  · intro x hx
    rw [h'.memory x hx, h.memory x hx]

theorem mono {lo' hi' : ℕ} (hlo : lo' ≤ lo) (hhi : hi ≤ hi') (h : q.Confined lo hi s s') :
    q.Confined lo' hi' s s' := by
  obtain ⟨events, htrace, hevents⟩ := h.events
  refine ⟨⟨events, htrace, fun e he => (hevents e he).mono hlo hhi⟩, ?_⟩
  intro x hx
  have h₁ := q.address_le hlo
  have h₂ := q.address_le hhi
  exact h.memory x (by omega)

end Confined

section Steps

variable {lo hi : ℕ} (s : Machine σ)

theorem confined_compare {i j : ℕ} (hi₁ : lo ≤ i) (hi₂ : i ≤ hi) (hj₁ : lo ≤ j) (hj₂ : j ≤ hi) :
    q.Confined lo hi s (q.compare i j s).2 :=
  ⟨⟨[.compare i j], rfl, by simp [Event.Within, hi₁, hi₂, hj₁, hj₂]⟩, fun _ _ => rfl⟩

theorem confined_subtract {a b : ℕ} (h : b ≤ a) : q.Confined lo hi s (subtract a b s).2 :=
  ⟨⟨[.subtract a b], rfl, by simpa [Event.Within] using h⟩, fun _ _ => rfl⟩

theorem confined_swap {i j : ℕ} (hi₁ : lo ≤ i) (hi₂ : i ≤ hi) (hj₁ : lo ≤ j) (hj₂ : j ≤ hi) :
    q.Confined lo hi s (q.swap i j s) := by
  refine ⟨⟨[.swap i j], rfl, by simp [Event.Within, hi₁, hi₂, hj₁, hj₂]⟩, ?_⟩
  intro x hx
  have hi₁ := q.address_le hi₁
  have hi₂ := q.address_le hi₂
  have hj₁ := q.address_le hj₁
  have hj₂ := q.address_le hj₂
  refine (qsortSwapBytes_apply _ _ _ _ _ (q.address_separated i j)).trans ?_
  rw [if_neg (by omega), if_neg (by omega)]

end Steps

theorem insertionInner_confined {left hi : ℕ} (inner : ℕ) (s : Machine σ) (h : inner ≤ hi) :
    q.Confined left hi s (q.insertionInner left inner s) := by
  induction inner generalizing s with
  | zero => exact .refl _ _ _
  | succ inner ih =>
    simp only [insertionInner, subtract_fst, Nat.add_sub_cancel]
    split_ifs with hl ho
    · have hcompare := (q.confined_subtract s (show 1 ≤ inner + 1 by omega)).trans
        (q.confined_compare _ (show left ≤ inner by omega) (show inner ≤ hi by omega) hl.le h)
      exact (hcompare.trans (q.confined_swap _ (by omega) (by omega) hl.le h)).trans
        (ih _ (by omega))
    · exact (q.confined_subtract s (show 1 ≤ inner + 1 by omega)).trans
        (q.confined_compare _ (by omega) (by omega) hl.le h)
    · exact .refl _ _ _

theorem insertionOuter_confined {left hi : ℕ} (k : ℕ) (s : Machine σ) (h : left + k ≤ hi) :
    q.Confined left hi s (q.insertionOuter left k s) := by
  induction k with
  | zero => exact .refl _ _ _
  | succ k ih => exact (ih (by omega)).trans (q.insertionInner_confined _ _ (by omega))

theorem lomutoScan_confined {left right : ℕ} (k : ℕ) (s : Machine σ) (h : left + k ≤ right) :
    q.Confined left right s (q.lomutoScan left right k s).2 := by
  induction k with
  | zero => exact .refl _ _ _
  | succ k ih =>
    have hb := q.lomutoScan_bounds left right k s
    have hcompare := (ih (by omega)).trans (q.confined_compare _ (show left ≤ left + k by omega)
      (show left + k ≤ right by omega) (show left ≤ right by omega) le_rfl)
    simp only [lomutoScan]
    split_ifs with ho
    · exact hcompare.trans (q.confined_swap _ (by omega) (by omega) (by omega) (by omega))
    · exact hcompare

theorem qsortLomutoPartition_confined {left right : ℕ} (h : left ≤ right) (s : Machine σ) :
    q.Confined left right s (q.qsortLomutoPartition left right s).2 := by
  have hb := q.lomutoScan_bounds left right (right - left) s
  exact (q.lomutoScan_confined _ s (by omega)).trans
    (q.confined_swap _ (by omega) (by omega) h le_rfl)

theorem orderPair_confined {left right i j : ℕ} (s : Machine σ) (hi₁ : left ≤ i)
    (hi₂ : i ≤ right) (hj₁ : left ≤ j) (hj₂ : j ≤ right) :
    q.Confined left right s (q.orderPair i j s) := by
  have hcompare := q.confined_compare s hi₁ hi₂ hj₁ hj₂
  simp only [orderPair]
  split_ifs
  · exact hcompare.trans (q.confined_swap _ hi₁ hi₂ hj₁ hj₂)
  · exact hcompare

theorem medianToEnd_confined {left mid right : ℕ} (s : Machine σ) (h₁ : left ≤ mid)
    (h₂ : mid ≤ right) : q.Confined left right s (q.medianToEnd left mid right s) := by
  have h₃ : left ≤ right := h₁.trans h₂
  exact (((q.orderPair_confined s le_rfl h₃ h₁ h₂).trans
    (q.orderPair_confined _ le_rfl h₃ h₃ le_rfl)).trans
    (q.orderPair_confined _ h₁ h₂ h₃ le_rfl)).trans (q.confined_swap _ h₁ h₂ h₃ le_rfl)

theorem partitionAroundMedian_confined {left right : ℕ} (h : left ≤ right) (s : Machine σ) :
    q.Confined left right s (q.partitionAroundMedian left right s).2 := by
  have hmid : left + (right - left) / 2 ≤ right := by omega
  exact ((q.confined_subtract s h).trans (q.medianToEnd_confined _ (by omega) hmid)).trans
    (q.qsortLomutoPartition_confined h _)

theorem qsortRecursive_confined (left right : ℕ) (s : Machine σ) :
    q.Confined left right s (q.qsortRecursive left right s) := by
  induction left, right, s using q.qsortRecursive_induction with
  | trivial left right s h => exact .refl _ _ _
  | small left right s h =>
    exact (q.confined_subtract s h.le).trans (q.insertionOuter_confined _ _ (by omega))
  | split left right s parted below h hp hbelow ihl ihr =>
    have hb := q.partitionAroundMedian_bounds h.le (subtract right left s).2
    have hpart := (q.confined_subtract s h.le).trans (q.partitionAroundMedian_confined h.le _)
    rw [← hp] at hb hpart
    have hlow : q.Confined left right parted.2 below := by
      by_cases hl : left < parted.1
      · exact (q.confined_subtract _ (by omega)).trans ((ihl hl).mono le_rfl (by omega))
      · rw [hbelow, if_neg hl]
        exact .refl _ _ _
    split_ifs with hr
    · exact (hpart.trans hlow).trans ((ihr hr).mono (by omega) le_rfl)
    · exact hpart.trans hlow

/-- For every array, element size and comparison function: the elements are rearranged, only
positions of the array are compared and swapped, no subtraction goes below zero, and no byte
outside the array changes. -/
theorem qsortR_safe (q : Sorter γ σ) (n : ℕ) (s : Machine σ) :
    (∃ events, (q.qsortR n s).trace = events ++ s.trace ∧
      ∀ e ∈ events, match e with
        | .compare i j | .swap i j => i < n ∧ j < n
        | .subtract minuend subtrahend => subtrahend ≤ minuend) ∧
    (q.elements n (q.qsortR n s)).Perm (q.elements n s) ∧
    ∀ x, x < q.base ∨ q.base + n * q.elementSize ≤ x → (q.qsortR n s).memory x = s.memory x := by
  rcases Nat.eq_zero_or_pos n with rfl | hn
  · have htrivial : q.qsortR 0 s = s := if_pos (.inl (Nat.zero_le 1))
    rw [htrivial]
    exact ⟨⟨[], rfl, by simp⟩, .refl _, fun _ _ => rfl⟩
  have hconfined : q.Confined 0 (n - 1) s (q.qsortR n s) := by
    unfold qsortR
    split_ifs
    · exact .refl _ _ _
    · exact (q.confined_subtract s hn).trans (q.qsortRecursive_confined _ _ _)
  obtain ⟨events, htrace, hevents⟩ := hconfined.events
  refine ⟨⟨events, htrace, fun e he => ?_⟩, ?_, fun x hx => hconfined.memory x ?_⟩
  · have hwithin := hevents e he
    cases e with
    | compare i j => exact ⟨by have := hwithin.1; omega, by have := hwithin.2; omega⟩
    | swap i j => exact ⟨by have := hwithin.1; omega, by have := hwithin.2; omega⟩
    | subtract a b => exact hwithin
  · exact (q.qsortR_rearranged n s).map_range_perm (by omega)
  · have hend : q.address (n - 1) + q.elementSize = q.base + n * q.elementSize := by
      rw [address, Nat.add_assoc, ← Nat.succ_mul, Nat.succ_eq_add_one, Nat.sub_add_cancel hn]
    have hstart : q.address 0 = q.base := by simp [address]
    rw [hend, hstart]
    exact hx

end Sorter

end Solcompat.Sort
