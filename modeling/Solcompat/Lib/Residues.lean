import Mathlib.Data.Int.CardIntervalMod
import Mathlib.Data.UInt
import Mathlib.SetTheory.Cardinal.Finite
import Mathlib.Tactic

/-!
# Words of one residue

Of the numbers below `N`, the first `N % m` are left out. Among the others every residue
modulo `m` is as frequent as every other one.
-/

namespace Solcompat.Lib

open Finset

theorem card_residue (N : ℕ) {m v : ℕ} (hv : v < m) :
    #{n ∈ Ico (N % m) N | n % m = v} = N / m := by
  have hpos : (m : ℚ) ≠ 0 := by
    rw [Nat.cast_ne_zero]
    omega
  have hmod : ∀ n, n % m = v ↔ n ≡ v [MOD m] := by
    intro n
    rw [Nat.ModEq, Nat.mod_eq_of_lt hv]
  have hsplit : ((N : ℚ) - v) / m = (((N % m : ℕ) : ℚ) - v) / m + (N / m : ℕ) := by
    have hN : (N : ℚ) = m * (N / m : ℕ) + (N % m : ℕ) := by
      exact_mod_cast (Nat.div_add_mod N m).symm
    rw [hN]
    field_simp
    ring
  have hcard := Nat.Ico_filter_modEq_card (N % m) N (by omega : 0 < m) v
  rw [hsplit, Int.ceil_add_natCast, add_sub_cancel_left, max_eq_left (Int.natCast_nonneg _)]
    at hcard
  simp only [hmod]
  exact_mod_cast hcard

theorem two_mul_mod_lt {N m : ℕ} (hm : 0 < m) (hN : m ≤ N) : 2 * (N % m) < N := by
  have hmod := Nat.mod_lt N hm
  have hquot : 1 ≤ N / m := (Nat.one_le_div_iff hm).mpr hN
  have hmul : m ≤ m * (N / m) := Nat.le_mul_of_pos_right m hquot
  have hdiv := Nat.div_add_mod N m
  omega

theorem card_words (s : Finset ℕ) (hs : ∀ n ∈ s, n < 2 ^ 32) {P : UInt32 → Prop}
    (hP : ∀ r : UInt32, P r ↔ r.toNat ∈ s) : Nat.card {r : UInt32 // P r} = #s := by
  have hequiv : {r : UInt32 // P r} ≃ s :=
    { toFun := fun r => ⟨r.1.toNat, (hP r.1).mp r.2⟩
      invFun := fun n => ⟨UInt32.ofNat n.1, (hP _).mpr (by
        rw [UInt32.toNat_ofNat_of_lt' (hs n.1 n.2)]
        exact n.2)⟩
      left_inv := fun r => Subtype.ext (UInt32.ofNat_toNat)
      right_inv := fun n => Subtype.ext (UInt32.toNat_ofNat_of_lt' (hs n.1 n.2)) }
  rw [Nat.card_congr hequiv, Nat.card_eq_fintype_card, Fintype.card_coe]

end Solcompat.Lib
