import Mathlib.Data.Finset.Basic
import Mathlib.Data.Fintype.Basic
import Mathlib.Data.UInt
import Mathlib.Tactic

/-!
# Sets of bits

The bits of a word name a set: `members index w` are the `a` whose bit `index a` is set. The
operations on words are then operations on sets, and a claim about masks and shifts is one about
unions and differences.
-/

namespace Solcompat.Lib

def bit (w : UInt32) (i : ℕ) : Bool := w.toBitVec.getLsbD i

section Bits

variable {w v : UInt32} {i n : ℕ}

theorem eq_of_bit (h : ∀ i < 32, bit w i = bit v i) : w = v := by
  apply UInt32.toBitVec_inj.mp
  exact BitVec.eq_of_getLsbD_eq fun i hi => h i hi

theorem bit_of_le (h : 32 ≤ i) : bit w i = false := BitVec.getLsbD_of_ge _ _ h

@[simp] theorem bit_zero (i : ℕ) : bit 0 i = false := BitVec.getLsbD_zero

@[simp] theorem bit_and (w v : UInt32) (i : ℕ) : bit (w &&& v) i = (bit w i && bit v i) := by
  simp [bit]

@[simp] theorem bit_or (w v : UInt32) (i : ℕ) : bit (w ||| v) i = (bit w i || bit v i) := by
  simp [bit]

theorem bit_not (w : UInt32) (h : i < 32) : bit (~~~w) i = !bit w i := by
  simp [bit, h]

theorem toNat_mod_of_lt {n : UInt32} (hn : n.toNat < 32) :
    (n.toBitVec % 32).toNat = n.toNat := by
  have hmod : (n.toBitVec % 32).toNat = n.toBitVec.toNat % 32 := BitVec.toNat_umod
  rw [hmod, UInt32.toNat_toBitVec, Nat.mod_eq_of_lt hn]

theorem bit_shiftLeft (w : UInt32) {n : UInt32} (hn : n.toNat < 32) (h : i < 32) :
    bit (w <<< n) i = (decide (n.toNat ≤ i) && bit w (i - n.toNat)) := by
  rw [bit, UInt32.toBitVec_shiftLeft, BitVec.shiftLeft_eq', toNat_mod_of_lt hn,
    BitVec.getLsbD_shiftLeft, bit, ← decide_not, decide_eq_true h, Bool.true_and]
  simp only [not_lt]

theorem bit_shiftRight (w : UInt32) {n : UInt32} (hn : n.toNat < 32) :
    bit (w >>> n) i = bit w (n.toNat + i) := by
  rw [bit, UInt32.toBitVec_shiftRight, BitVec.ushiftRight_eq', toNat_mod_of_lt hn,
    BitVec.getLsbD_ushiftRight, bit]

theorem bit_low {k : ℕ} (h : i < 32) : bit (UInt32.ofNat (2 ^ k - 1)) i = decide (i < k) := by
  rw [bit, UInt32.toBitVec_ofNat', BitVec.getLsbD_ofNat, Nat.testBit_two_pow_sub_one]
  simp [h]

theorem lt_two_pow_iff_bit {k : ℕ} : w.toNat < 2 ^ k ↔ ∀ i, k ≤ i → bit w i = false := by
  constructor
  · intro h i hi
    exact Nat.testBit_lt_two_pow (h.trans_le (Nat.pow_le_pow_right (by decide) hi))
  · intro h
    exact Nat.lt_pow_two_of_testBit w.toNat h

end Bits

section Members

variable {α : Type} [Fintype α] {index : α → ℕ} {w v : UInt32}

def members (index : α → ℕ) (w : UInt32) : Finset α :=
  Finset.univ.filter fun a => bit w (index a) = true

@[simp] theorem mem_members {a : α} : a ∈ members index w ↔ bit w (index a) = true := by
  simp [members]

variable [DecidableEq α]

theorem members_and (w v : UInt32) :
    members index (w &&& v) = members index w ∩ members index v := by
  ext a
  simp

end Members

end Solcompat.Lib
