import Solcompat.Lib.CString
import Solcompat.Lib.Memory

/-!
# Byte lists in memory

`m.Holds a bs` says that the bytes `bs` stand in `m` from `a` on. Two lists that stand in one
place agree as far as both reach, so a text is determined by its place and its terminator.
-/

namespace Solcompat.Lib

/-- The bytes of the object, with the terminator. -/
def CString.object (s : CString) : List UInt8 := s.bytes ++ [0]

theorem CString.take_object {s : CString} {n : ℕ} (h : n ≤ s.strlen) :
    s.object.take n = s.bytes.take n :=
  List.take_append_of_le_length h

@[simp] theorem CString.length_object (s : CString) : s.object.length = s.strlen + 1 :=
  List.length_append

namespace Memory

/-- `m[a] = b` -/
def put (m : Memory) (a : ℕ) (b : UInt8) : Memory := Function.update m a b

def Holds (m : Memory) : ℕ → List UInt8 → Prop
  | _, [] => True
  | a, b :: bs => m a = b ∧ Holds m (a + 1) bs

instance decidableHolds (m : Memory) : ∀ a bs, Decidable (m.Holds a bs)
  | _, [] => .isTrue trivial
  | a, b :: bs =>
    have := decidableHolds m (a + 1) bs
    inferInstanceAs (Decidable (m a = b ∧ m.Holds (a + 1) bs))

@[simp] theorem put_self (m : Memory) (a : ℕ) (b : UInt8) : m.put a b a = b := by
  rw [put, Function.update_self]

theorem put_of_ne (m : Memory) {a x : ℕ} (h : x ≠ a) (b : UInt8) : m.put a b x = m x := by
  rw [put, Function.update_of_ne h]

@[simp] theorem holds_nil (m : Memory) (a : ℕ) : m.Holds a [] := trivial

@[simp] theorem holds_cons (m : Memory) (a : ℕ) (b : UInt8) (bs : List UInt8) :
    m.Holds a (b :: bs) ↔ m a = b ∧ m.Holds (a + 1) bs :=
  Iff.rfl

theorem holds_append (m : Memory) (a : ℕ) (xs ys : List UInt8) :
    m.Holds a (xs ++ ys) ↔ m.Holds a xs ∧ m.Holds (a + xs.length) ys := by
  induction xs generalizing a with
  | nil => simp
  | cons x xs ih =>
    have hplace : a + 1 + xs.length = a + (x :: xs).length := by
      rw [List.length_cons]
      omega
    rw [List.cons_append, holds_cons, holds_cons, ih, hplace, and_assoc]

theorem holds_congr {m m' : Memory} {a : ℕ} {bs : List UInt8}
    (h : ∀ x, a ≤ x → x < a + bs.length → m' x = m x) : m'.Holds a bs ↔ m.Holds a bs := by
  induction bs generalizing a with
  | nil => simp
  | cons b bs ih =>
    rw [List.length_cons] at h
    have hfirst : m' a = m a := h a le_rfl (by omega)
    have hrest : m'.Holds (a + 1) bs ↔ m.Holds (a + 1) bs :=
      ih fun x hx hx' => h x (by omega) (by omega)
    rw [holds_cons, holds_cons, hfirst, hrest]

theorem Holds.of_append {m : Memory} {a : ℕ} {xs ys : List UInt8} (h : m.Holds a (xs ++ ys)) :
    m.Holds a xs :=
  ((holds_append m a xs ys).mp h).1

theorem Holds.getElem {m : Memory} {a i : ℕ} {bs : List UInt8} (h : m.Holds a bs)
    (hi : i < bs.length) : m (a + i) = bs[i] := by
  induction bs generalizing a i with
  | nil => exact absurd hi (Nat.not_lt_zero i)
  | cons b bs ih =>
    cases i with
    | zero => exact h.1
    | succ i =>
      have hplace : a + (i + 1) = a + 1 + i := by omega
      rw [hplace, List.getElem_cons_succ]
      exact ih h.2 _

theorem holds_putBytes (m : Memory) (a : ℕ) (bs : List UInt8) : (m.putBytes a bs).Holds a bs := by
  induction bs generalizing a m with
  | nil => exact holds_nil _ _
  | cons b bs ih =>
    have hsplit := putBytes_append m a [b] bs
    rw [List.singleton_append, List.length_singleton] at hsplit
    rw [← hsplit, holds_cons]
    constructor
    · rw [putBytes_outside _ (by omega)]
      simp [putBytes]
    · exact ih _ _

theorem put_eq_putBytes (m : Memory) (a : ℕ) (b : UInt8) : m.put a b = m.putBytes a [b] := by
  funext x
  by_cases hx : x = a
  · subst hx
    simp [putBytes]
  · rw [put_of_ne m hx, putBytes_outside m (by rw [List.length_singleton]; omega)]

theorem Holds.putBytes_behind {m : Memory} {a c : ℕ} {bs cs : List UInt8} (h : m.Holds a bs)
    (hc : a + bs.length ≤ c) : (m.putBytes c cs).Holds a bs :=
  (holds_congr fun _ _ hx => putBytes_outside m (by omega)).mpr h

theorem Holds.putBytes_append {m : Memory} {a : ℕ} {bs : List UInt8} (h : m.Holds a bs)
    (cs : List UInt8) : (m.putBytes (a + bs.length) cs).Holds a (bs ++ cs) :=
  (holds_append _ _ _ _).mpr ⟨h.putBytes_behind le_rfl, holds_putBytes _ _ _⟩

theorem bytes_eq_iff_holds (m : Memory) (a : ℕ) (bs : List UInt8) :
    m.bytes a bs.length = bs ↔ m.Holds a bs := by
  constructor
  · intro h
    have hsame : m.Holds a bs ↔ (m.putBytes a bs).Holds a bs := by
      apply holds_congr
      intro x hx hx'
      obtain ⟨i, rfl⟩ := Nat.exists_eq_add_of_le hx
      have hi : i < bs.length := by omega
      have hbyte : (m.bytes a bs.length)[i]? = bs[i]? := congrArg (·[i]?) h
      rw [(holds_putBytes m a bs).getElem hi]
      simpa [bytes, hi] using hbyte
    exact hsame.mpr (holds_putBytes m a bs)
  · intro h
    have hsame : m.bytes a bs.length = (m.putBytes a bs).bytes a bs.length := by
      apply bytes_congr
      intro x hx hx'
      obtain ⟨i, rfl⟩ := Nat.exists_eq_add_of_le hx
      have hi : i < bs.length := by omega
      rw [h.getElem hi, (holds_putBytes m a bs).getElem hi]
    exact hsame.trans (bytes_putBytes m a bs)

end Memory

end Solcompat.Lib
