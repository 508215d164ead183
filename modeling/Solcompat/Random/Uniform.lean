import Solcompat.Lib.Residues
import Solcompat.Random.Arc4

/-!
# `arc4random_uniform`

The words are drawn from a source with a state, which for the library is the generator. A
word is taken or rejected by itself, and of the words that are taken every residue modulo
the bound has equally many.
-/

namespace Solcompat.Random

open Finset Solcompat.Lib

variable {σ : Type}

/-- The loop of `arc4random_uniform`, for at most so many rounds. -/
def uniformLoop (next : σ → Option (UInt32 × σ)) (min upperBound : UInt32) :
    ℕ → σ → Option (UInt32 × σ)
  | 0, _ => none
  | rounds + 1, s =>
    (next s).bind fun (r, s) =>
      if min ≤ r then some (r % upperBound, s) else uniformLoop next min upperBound rounds s

/-- `(uint32_t)(-(int32_t)upper_bound) % upper_bound` -/
def uniformMin (upperBound : UInt32) : UInt32 := (-upperBound.toInt32).toUInt32 % upperBound

def arc4randomUniform (next : σ → Option (UInt32 × σ)) (rounds : ℕ) (upperBound : UInt32) (s : σ) :
    Option (UInt32 × σ) :=
  if upperBound < 2 then some (0, s)
  else uniformLoop next (uniformMin upperBound) upperBound rounds s

/-- What is returned if the word `r` is drawn; `none` stands for another round. -/
def afterWord (upperBound r : UInt32) : Option UInt32 :=
  (arc4randomUniform (fun _ => some (r, ())) 1 upperBound ()).map Prod.fst

section Loop

variable {upperBound : UInt32}

theorem uniformMin_toNat (h : 2 ≤ upperBound) :
    (uniformMin upperBound).toNat = 2 ^ 32 % upperBound.toNat := by
  have hpos : 2 ≤ upperBound.toNat := UInt32.le_iff_toNat_le.mp h
  have hlt := upperBound.toNat_lt
  rw [uniformMin, Int32.toUInt32_neg, UInt32.toUInt32_toInt32, UInt32.toNat_mod, UInt32.toNat_neg,
    Nat.mod_eq_of_lt (Nat.sub_lt (by decide) (by omega))]
  exact (Nat.mod_eq_sub_mod hlt.le).symm

theorem not_lt_two (h : 2 ≤ upperBound) : ¬ upperBound < 2 := by
  rw [UInt32.not_lt]
  exact h

theorem afterWord_eq (h : 2 ≤ upperBound) (r : UInt32) :
    afterWord upperBound r =
      if uniformMin upperBound ≤ r then some (r % upperBound) else none := by
  rw [afterWord, arc4randomUniform, if_neg (not_lt_two h), uniformLoop, Option.bind_some]
  by_cases hmin : uniformMin upperBound ≤ r
  · simp [hmin]
  · simp [hmin, uniformLoop]

theorem afterWord_eq_some_iff (h : 2 ≤ upperBound) {r v : UInt32} :
    afterWord upperBound r = some v ↔
      r.toNat ∈
        {n ∈ Ico (2 ^ 32 % upperBound.toNat) (2 ^ 32) | n % upperBound.toNat = v.toNat} := by
  rw [afterWord_eq h, mem_filter, mem_Ico, ← uniformMin_toNat h, ← UInt32.le_iff_toNat_le,
    ← UInt32.toNat_mod, UInt32.toNat_inj]
  have hlt := r.toNat_lt
  split_ifs with hmin
  · simp [hmin, hlt]
  · simp [hmin]

theorem afterWord_eq_none_iff (h : 2 ≤ upperBound) {r : UInt32} :
    afterWord upperBound r = none ↔ r.toNat ∈ range (2 ^ 32 % upperBound.toNat) := by
  rw [afterWord_eq h, mem_range, ← uniformMin_toNat h, ← UInt32.lt_iff_toNat_lt]
  split_ifs with hmin
  · simpa using hmin
  · simpa using hmin

/-- A value that is returned comes from the word that was drawn last. -/
theorem arc4randomUniform_spec (h : 2 ≤ upperBound) (next : σ → Option (UInt32 × σ))
    {rounds : ℕ} {s s' : σ} {v : UInt32}
    (hret : arc4randomUniform next rounds upperBound s = some (v, s')) :
    ∃ r t, next t = some (r, s') ∧ afterWord upperBound r = some v := by
  rw [arc4randomUniform, if_neg (not_lt_two h)] at hret
  induction rounds generalizing s with
  | zero => exact absurd hret (by simp [uniformLoop])
  | succ rounds ih =>
    rw [uniformLoop] at hret
    obtain ⟨⟨r, t⟩, hnext, hret⟩ := Option.bind_eq_some_iff.mp hret
    dsimp only at hret
    split_ifs at hret with hmin
    · obtain ⟨rfl, rfl⟩ := Prod.mk.inj (Option.some.inj hret)
      exact ⟨r, s, hnext, by rw [afterWord_eq h, if_pos hmin]⟩
    · exact ih hret

theorem afterWord_lt (h : 2 ≤ upperBound) {r v : UInt32} (hr : afterWord upperBound r = some v) :
    v < upperBound := by
  rw [afterWord_eq h] at hr
  split_ifs at hr
  obtain rfl := Option.some.inj hr
  have hpos : 0 < upperBound := lt_of_lt_of_le (b := 2) (by decide) h
  exact UInt32.mod_lt r hpos

/-- Unbiased and in range. -/
theorem arc4randomUniform_unbiased (upperBound : UInt32) (h : 2 ≤ upperBound) :
    (∀ v, v < upperBound →
      Nat.card {r : UInt32 // afterWord upperBound r = some v} = 2 ^ 32 / upperBound.toNat) ∧
    (∀ r v, afterWord upperBound r = some v → v < upperBound) ∧
    (∀ (σ : Type) (next : σ → Option (UInt32 × σ)) (rounds : ℕ) (s s' : σ) (v : UInt32),
      arc4randomUniform next rounds upperBound s = some (v, s') →
        v < upperBound ∧ ∃ r t, next t = some (r, s') ∧ afterWord upperBound r = some v) ∧
    2 * Nat.card {r : UInt32 // afterWord upperBound r = none} < 2 ^ 32 := by
  have hpos : 2 ≤ upperBound.toNat := UInt32.le_iff_toNat_le.mp h
  have hlt := upperBound.toNat_lt
  refine ⟨?_, fun r v => afterWord_lt h, ?_, ?_⟩
  · intro v hv
    rw [card_words _ _ fun r => afterWord_eq_some_iff h]
    · exact card_residue (2 ^ 32) (UInt32.lt_iff_toNat_lt.mp hv)
    · intro n hn
      exact (mem_Ico.mp (mem_filter.mp hn).1).2
  · intro σ next rounds s s' v hret
    obtain ⟨r, t, hnext, hr⟩ := arc4randomUniform_spec h next hret
    exact ⟨afterWord_lt h hr, r, t, hnext, hr⟩
  · have hhalf := two_mul_mod_lt (by omega) hlt.le
    rw [card_words _ _ fun r => afterWord_eq_none_iff h, card_range]
    · exact hhalf
    · intro n hn
      have hn := mem_range.mp hn
      omega

theorem arc4randomUniform_unbiased_six :
    (2 : UInt32) ≤ 6 ∧ Nat.card {r : UInt32 // afterWord 6 r = some 5} = 2 ^ 32 / 6 :=
  ⟨by decide, (arc4randomUniform_unbiased 6 (by decide)).1 5 (by decide)⟩

end Loop

end Solcompat.Random
