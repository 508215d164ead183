import Mathlib.Data.UInt
import Mathlib.Logic.Function.Iterate
import Mathlib.Tactic

/-!
# Words updated in place

A generator that keeps its state in an array makes one word after the other out of the word
itself and another one. Such an assignment loses nothing if the other word and the result
give the old word back, and then no number of them does.
-/

namespace Solcompat.Lib

variable {α : Type} {n : ℕ}

/-- `s[i] = f(s[i], s[j])` -/
def assign (i j : Fin n) (f : α → α → α) (s : Vector α n) : Vector α n := s.set i (f s[i] s[j])

theorem assign_assign {i j : Fin n} (hij : i ≠ j) {f g : α → α → α} (h : ∀ a b, g (f a b) b = a)
    (s : Vector α n) : assign i j g (assign i j f s) = s := by
  have hother : (i : ℕ) ≠ j := fun heq => hij (Fin.ext heq)
  ext k hk
  simp only [assign, Fin.getElem_fin, Vector.set_set, Vector.getElem_set_self,
    Vector.getElem_set_ne _ _ hother]
  by_cases heq : (i : ℕ) = k
  · subst heq
    rw [Vector.getElem_set_self, h]
  · rw [Vector.getElem_set_ne _ _ heq]

theorem assign_bijective {i j : Fin n} (hij : i ≠ j) {f g : α → α → α}
    (hback : ∀ a b, g (f a b) b = a) (hforth : ∀ a b, f (g a b) b = a) :
    Function.Bijective (assign i j f) :=
  Function.bijective_iff_has_inverse.mpr
    ⟨assign i j g, assign_assign hij hback, assign_assign hij hforth⟩

section Words

theorem xor_xor_cancel (a b : UInt32) : a ^^^ b ^^^ b = a := by
  rw [UInt32.xor_assoc, UInt32.xor_self, UInt32.xor_zero]

theorem add_assign_bijective {i j : Fin n} (hij : i ≠ j) :
    Function.Bijective (assign i j fun a b : UInt32 => a + b) :=
  assign_bijective hij (fun a b => UInt32.add_sub_cancel a b) fun a b => UInt32.sub_add_cancel a b

theorem xor_assign_bijective {i j : Fin n} (hij : i ≠ j) :
    Function.Bijective (assign i j fun a b : UInt32 => a ^^^ b) :=
  assign_bijective hij xor_xor_cancel xor_xor_cancel

/-- The bits of a word move `k` places up, and those that leave it come in below. -/
def rotate (k : ℕ) (a : UInt32) : UInt32 := a <<< UInt32.ofNat k ||| a >>> UInt32.ofNat (32 - k)

theorem toBitVec_rotate {k : ℕ} (hpos : 0 < k) (hk : k < 32) (a : UInt32) :
    (rotate k a).toBitVec = a.toBitVec.rotateLeft k := by
  have hleft : ((UInt32.ofNat k).toBitVec % 32).toNat = k := by
    simp
    omega
  have hright : ((UInt32.ofNat (32 - k)).toBitVec % 32).toNat = 32 - k := by
    simp
    omega
  rw [rotate, UInt32.toBitVec_or, UInt32.toBitVec_shiftLeft, UInt32.toBitVec_shiftRight,
    BitVec.rotateLeft_def, BitVec.shiftLeft_eq', BitVec.ushiftRight_eq', hleft, hright,
    Nat.mod_eq_of_lt hk]

theorem rotate_rotate {k : ℕ} (hpos : 0 < k) (hk : k < 32) (a : UInt32) :
    rotate (32 - k) (rotate k a) = a := by
  have hback : 32 - k < 32 := by omega
  apply UInt32.toBitVec_inj.mp
  rw [toBitVec_rotate (by omega) hback, toBitVec_rotate hpos hk]
  apply BitVec.eq_of_getElem_eq
  intro i hi
  simp only [BitVec.getElem_rotateLeft, Nat.mod_eq_of_lt hk, Nat.mod_eq_of_lt hback]
  split_ifs
  · omega
  · congr 1
    omega
  · congr 1
    omega
  · omega

theorem rotate_assign_bijective {i j : Fin n} (hij : i ≠ j) {k : ℕ} (hpos : 0 < k) (hk : k < 32) :
    Function.Bijective (assign i j fun a _ => rotate k a) := by
  apply assign_bijective (g := fun a _ => rotate (32 - k) a) hij
  · intro a _
    exact rotate_rotate hpos hk a
  · intro a _
    have h := rotate_rotate (by omega : 0 < 32 - k) (by omega) a
    rwa [Nat.sub_sub_self hk.le] at h

end Words

end Solcompat.Lib
