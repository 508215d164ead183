import Mathlib.Data.List.Basic
import Mathlib.Data.List.GetD
import Mathlib.Data.UInt
import Mathlib.Tactic

/-!
# Byte memory and error numbers

Memory is a map from offsets to bytes; a buffer is the memory from its pointer
on, so that "nothing else changes" is a statement about all other offsets.
-/

namespace Solcompat.Lib

abbrev Memory := ℕ → UInt8

/-- The values of `errno` that the modelled functions set, and those that a failed
system call leaves. -/
inductive Errno
  | EAFNOSUPPORT
  | EBADF
  | EINVAL
  /-- `EIO` -/
  | ioError
  | ENOMEM
  | ENOSPC
  | system (code : ℕ)
  deriving DecidableEq, Repr

namespace Memory

/-- `memcpy` of the first `n` bytes of `source` to the start of `m`. -/
def memcpy (m : Memory) (source : List UInt8) (n : ℕ) : Memory :=
  fun i => if i < n then source.getD i 0 else m i

/-- The big-endian number in the `n` bytes from `addr` on. -/
def number (m : Memory) (addr : ℕ) : ℕ → ℕ
  | 0 => 0
  | n + 1 => m.number addr n * 256 + (m (addr + n)).toNat

/-- Store a number big-endian in the `n` bytes from `addr` on. -/
def putNumber (m : Memory) (addr n v : ℕ) : Memory :=
  fun x => if addr ≤ x ∧ x < addr + n then UInt8.ofNat (v / 256 ^ (addr + n - 1 - x)) else m x

def bytes (m : Memory) (addr n : ℕ) : List UInt8 := (List.range n).map fun k => m (addr + k)

/-- `memcpy` of a list of bytes to `addr`. -/
def putBytes (m : Memory) (addr : ℕ) (bs : List UInt8) : Memory :=
  fun x => if addr ≤ x ∧ x < addr + bs.length then bs.getD (x - addr) 0 else m x

theorem putBytes_outside (m : Memory) {addr x : ℕ} {bs : List UInt8}
    (h : ¬ (addr ≤ x ∧ x < addr + bs.length)) : m.putBytes addr bs x = m x :=
  if_neg h

theorem putBytes_nil (m : Memory) (addr : ℕ) : m.putBytes addr [] = m :=
  funext fun _ => if_neg (by simp only [List.length_nil]; omega)

theorem putBytes_append (m : Memory) (addr : ℕ) (xs ys : List UInt8) :
    (m.putBytes addr xs).putBytes (addr + xs.length) ys = m.putBytes addr (xs ++ ys) := by
  funext x
  simp only [putBytes, List.length_append]
  by_cases hlow : x < addr + xs.length
  · by_cases haddr : addr ≤ x
    · rw [if_neg (by omega), if_pos ⟨haddr, hlow⟩, if_pos (by omega),
        List.getD_append _ _ _ _ (by omega)]
    · rw [if_neg (by omega), if_neg (by omega), if_neg (by omega)]
  · by_cases hhigh : x < addr + xs.length + ys.length
    · rw [if_pos (by omega), if_pos (by omega), List.getD_append_right _ _ _ _ (by omega)]
      congr 1
      omega
    · rw [if_neg (by omega), if_neg (by omega), if_neg (by omega)]

theorem bytes_putBytes (m : Memory) (addr : ℕ) (bs : List UInt8) :
    (m.putBytes addr bs).bytes addr bs.length = bs := by
  apply List.ext_getElem
  · simp [bytes]
  · intro i _ hi
    simp [bytes, putBytes, hi]

theorem bytes_congr {m m' : Memory} {addr n : ℕ}
    (h : ∀ x, addr ≤ x → x < addr + n → m x = m' x) : m.bytes addr n = m'.bytes addr n := by
  apply List.map_congr_left
  intro k hk
  rw [List.mem_range] at hk
  exact h _ (by omega) (by omega)

theorem putNumber_outside (m : Memory) {addr n v x : ℕ} (h : ¬ (addr ≤ x ∧ x < addr + n)) :
    m.putNumber addr n v x = m x :=
  if_neg h

theorem number_congr {m m' : Memory} {addr n : ℕ}
    (h : ∀ x, addr ≤ x → x < addr + n → m x = m' x) : m.number addr n = m'.number addr n := by
  induction n with
  | zero => rfl
  | succ n ih =>
    rw [number, number, ih fun x hx hx' => h x hx (by omega), h (addr + n) (by omega) (by omega)]

theorem number_lt (m : Memory) (addr n : ℕ) : m.number addr n < 256 ^ n := by
  induction n with
  | zero => simp [number]
  | succ n ih =>
    have hbyte := (m (addr + n)).toNat_lt
    rw [number, pow_succ]
    omega

/-- The number in the first bytes is the number in all of them without its low part. -/
theorem number_div (m : Memory) (addr n k : ℕ) :
    m.number addr (n + k) / 256 ^ k = m.number addr n := by
  induction k with
  | zero => simp
  | succ k ih =>
    have hbyte := (m (addr + (n + k))).toNat_lt
    have hlow : (m.number addr (n + k) * 256 + (m (addr + (n + k))).toNat) / 256 =
        m.number addr (n + k) := by
      omega
    rw [← Nat.add_assoc, number, pow_succ', ← Nat.div_div_eq_div_mul, hlow, ih]

theorem putNumber_number (m m' : Memory) {addr n x : ℕ} (h : addr ≤ x ∧ x < addr + n) :
    m.putNumber addr n (m'.number addr n) x = m' x := by
  obtain ⟨i, rfl⟩ := Nat.exists_eq_add_of_le h.1
  obtain ⟨k, hk⟩ := Nat.exists_eq_add_of_lt (by omega : i < n)
  have hshift : addr + n - 1 - (addr + i) = k := by omega
  rw [putNumber, if_pos h, hshift, hk, show i + k + 1 = i + 1 + k by omega, number_div, number]
  apply UInt8.toNat_inj.mp
  have hbyte := (m' (addr + i)).toNat_lt
  simp only [UInt8.toNat_ofNat']
  omega

theorem number_putNumber (m : Memory) {addr n v : ℕ} (hv : v < 256 ^ n) :
    (m.putNumber addr n v).number addr n = v := by
  have hfirst : ∀ k, k ≤ n → (m.putNumber addr n v).number addr k = v / 256 ^ (n - k) := by
    intro k
    induction k with
    | zero =>
      intro _
      rw [number, Nat.sub_zero, Nat.div_eq_of_lt hv]
    | succ k ih =>
      intro hk
      have hshift : addr + n - 1 - (addr + k) = n - (k + 1) := by omega
      have hpow : 256 ^ (n - k) = 256 ^ (n - (k + 1)) * 256 := by
        rw [← pow_succ]
        congr 1
        omega
      rw [number, ih (by omega), putNumber, if_pos (by omega), hshift, hpow,
        ← Nat.div_div_eq_div_mul]
      simp only [UInt8.toNat_ofNat']
      omega
  have h := hfirst n le_rfl
  rwa [Nat.sub_self, pow_zero, Nat.div_one] at h

/-- A number that fits is also read back when other places were written since. -/
theorem number_of_putNumber {m m' : Memory} {addr n v : ℕ} (hv : v < 256 ^ n)
    (h : ∀ x, addr ≤ x → x < addr + n → m' x = m.putNumber addr n v x) :
    m'.number addr n = v :=
  (number_congr h).trans (number_putNumber m hv)

end Memory

end Solcompat.Lib
