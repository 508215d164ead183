import Mathlib.Data.Int.Basic
import Mathlib.Tactic

/-!
# Signed machine arithmetic

An operation on machine integers has the mathematical result up to a multiple of `2 ^ 32` or
`2 ^ 64`; together with the bounds of the type this determines it, and linear arithmetic can use
both facts. `Checked` runs a computation with wrapping operations and remembers whether one of
them left its type.
-/

namespace Solcompat.Lib

/-- The integers that 32 bits hold. -/
def Fits32 (z : ℤ) : Prop := -2147483648 ≤ z ∧ z < 2147483648

def Fits64 (z : ℤ) : Prop := -9223372036854775808 ≤ z ∧ z < 9223372036854775808

instance (z : ℤ) : Decidable (Fits32 z) := inferInstanceAs (Decidable (_ ∧ _))

instance (z : ℤ) : Decidable (Fits64 z) := inferInstanceAs (Decidable (_ ∧ _))

section Wrapping

theorem bmod_spec (z : ℤ) (m : ℕ) : ∃ k : ℤ, z.bmod m = z + m * k := by
  obtain ⟨k, hk⟩ := Int.dvd_self_sub_bmod (x := z) (m := m)
  exact ⟨-k, by rw [mul_neg, ← hk]; ring⟩

theorem fits32_toInt (a : Int32) : Fits32 a.toInt := ⟨a.le_toInt, a.toInt_lt⟩

theorem fits64_toInt (a : Int64) : Fits64 a.toInt := ⟨a.le_toInt, a.toInt_lt⟩

/-- Numbers of the type that differ by a multiple of its size are equal. -/
theorem eq_of_fits32 {x y k : ℤ} (hx : Fits32 x) (hy : Fits32 y) (h : x = y + 4294967296 * k) :
    x = y := by
  rw [Fits32] at hx hy
  omega

theorem add32_spec (a b : Int32) : ∃ k : ℤ, (a + b).toInt = a.toInt + b.toInt + 4294967296 * k := by
  rw [Int32.toInt_add]
  exact bmod_spec _ _

theorem sub32_spec (a b : Int32) : ∃ k : ℤ, (a - b).toInt = a.toInt - b.toInt + 4294967296 * k := by
  rw [Int32.toInt_sub]
  exact bmod_spec _ _

theorem mul32_spec (a b : Int32) : ∃ k : ℤ, (a * b).toInt = a.toInt * b.toInt + 4294967296 * k := by
  rw [Int32.toInt_mul]
  exact bmod_spec _ _

theorem bmod_of_fits32 {z : ℤ} (h : Fits32 z) : z.bmod (2 ^ 32) = z :=
  Int.bmod_eq_of_le h.1 h.2

theorem add32_of_fits {a b : Int32} (h : Fits32 (a.toInt + b.toInt)) :
    (a + b).toInt = a.toInt + b.toInt := by
  rw [Int32.toInt_add, bmod_of_fits32 h]

theorem sub32_of_fits {a b : Int32} (h : Fits32 (a.toInt - b.toInt)) :
    (a - b).toInt = a.toInt - b.toInt := by
  rw [Int32.toInt_sub, bmod_of_fits32 h]

theorem mul32_of_fits {a b : Int32} (h : Fits32 (a.toInt * b.toInt)) :
    (a * b).toInt = a.toInt * b.toInt := by
  rw [Int32.toInt_mul, bmod_of_fits32 h]

theorem bmod_of_fits64 {z : ℤ} (h : Fits64 z) : z.bmod (2 ^ 64) = z :=
  Int.bmod_eq_of_le h.1 h.2

theorem sub64_of_fits {a b : Int64} (h : Fits64 (a.toInt - b.toInt)) :
    (a - b).toInt = a.toInt - b.toInt := by
  rw [Int64.toInt_sub, bmod_of_fits64 h]

theorem add64_spec (a b : Int64) :
    ∃ k : ℤ, (a + b).toInt = a.toInt + b.toInt + 18446744073709551616 * k := by
  rw [Int64.toInt_add]
  exact bmod_spec _ _

theorem toInt32_spec (a : Int64) : ∃ k : ℤ, a.toInt32.toInt = a.toInt + 4294967296 * k := by
  rw [Int64.toInt_toInt32]
  exact bmod_spec _ _

theorem div32_of_pos {a b : Int32} (h : 0 < b.toInt) : (a / b).toInt = a.toInt.tdiv b.toInt := by
  apply Int32.toInt_div_of_ne_right
  rintro rfl
  exact absurd h (by decide)

/-- Quotient and remainder of C: the remainder has the sign of the dividend. -/
theorem tdiv_spec (n : ℤ) {d : ℤ} (hd : 0 < d) :
    d * n.tdiv d + n.tmod d = n ∧ (0 ≤ n → 0 ≤ n.tmod d) ∧ (n ≤ 0 → n.tmod d ≤ 0) ∧
      -d < n.tmod d ∧ n.tmod d < d := by
  refine ⟨Int.mul_tdiv_add_tmod n d, fun h => ?_, fun h => ?_, ?_, ?_⟩
  · exact Int.tmod_nonneg d h
  · have hneg := Int.tmod_nonneg d (Int.neg_nonneg.mpr h)
    rw [Int.neg_tmod] at hneg
    exact Int.neg_nonneg.mp hneg
  · exact Int.lt_tmod_of_pos n hd
  · exact Int.tmod_lt_of_pos n hd

end Wrapping

/-- A result, and whether it came about without overflow. -/
structure Checked (α : Type) where
  value : α
  exact : Bool

namespace Checked

variable {α β : Type}

instance : Monad Checked where
  pure a := ⟨a, true⟩
  bind x f := ⟨(f x.value).value, x.exact && (f x.value).exact⟩

def add32 (a b : Int32) : Checked Int32 := ⟨a + b, decide (Fits32 (a.toInt + b.toInt))⟩

def sub32 (a b : Int32) : Checked Int32 := ⟨a - b, decide (Fits32 (a.toInt - b.toInt))⟩

def mul32 (a b : Int32) : Checked Int32 := ⟨a * b, decide (Fits32 (a.toInt * b.toInt))⟩

def sub64 (a b : Int64) : Checked Int64 := ⟨a - b, decide (Fits64 (a.toInt - b.toInt))⟩

@[simp] theorem value_pure (a : α) : (pure a : Checked α).value = a := rfl

@[simp] theorem exact_pure (a : α) : (pure a : Checked α).exact = true := rfl

@[simp] theorem value_bind (x : Checked α) (f : α → Checked β) :
    (x >>= f).value = (f x.value).value :=
  rfl

@[simp] theorem exact_bind (x : Checked α) (f : α → Checked β) :
    (x >>= f).exact = (x.exact && (f x.value).exact) :=
  rfl

@[simp] theorem value_add32 (a b : Int32) : (add32 a b).value = a + b := rfl

@[simp] theorem value_sub32 (a b : Int32) : (sub32 a b).value = a - b := rfl

@[simp] theorem value_mul32 (a b : Int32) : (mul32 a b).value = a * b := rfl

@[simp] theorem value_sub64 (a b : Int64) : (sub64 a b).value = a - b := rfl

@[simp] theorem exact_add32 (a b : Int32) :
    (add32 a b).exact = true ↔ Fits32 (a.toInt + b.toInt) :=
  decide_eq_true_iff

@[simp] theorem exact_sub32 (a b : Int32) :
    (sub32 a b).exact = true ↔ Fits32 (a.toInt - b.toInt) :=
  decide_eq_true_iff

@[simp] theorem exact_mul32 (a b : Int32) :
    (mul32 a b).exact = true ↔ Fits32 (a.toInt * b.toInt) :=
  decide_eq_true_iff

@[simp] theorem exact_sub64 (a b : Int64) :
    (sub64 a b).exact = true ↔ Fits64 (a.toInt - b.toInt) :=
  decide_eq_true_iff

end Checked

end Solcompat.Lib
