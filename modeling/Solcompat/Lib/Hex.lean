import Solcompat.Lib.CString
import Mathlib.Data.List.TakeWhile
import Mathlib.Data.Nat.Digits.Lemmas

/-!
# Hexadecimal text

`hexText` is the text of C's `%x`: lower-case digits without leading zeros.
`strtoul16` is C's `strtoul` in base sixteen on a 32-bit `unsigned long`: it skips
white space, takes a sign and an optional `0x`, saturates, and answers the rest of
the string after the digits it has used. In front of a digit it takes all the digits,
possibly behind a `0x`, and the value of written digits is the number.
-/

namespace Solcompat.Lib

def hexDigit (d : ℕ) : UInt8 := UInt8.ofNat (if d < 10 then 48 + d else 87 + d)

def hexText (w : ℕ) : List UInt8 :=
  if w = 0 then [hexDigit 0] else (Nat.digits 16 w).reverse.map hexDigit

def isxdigit (b : UInt8) : Bool :=
  (ch '0' ≤ b && b ≤ ch '9') || (ch 'A' ≤ b && b ≤ ch 'F') || (ch 'a' ≤ b && b ≤ ch 'f')

def isspace (b : UInt8) : Bool := b == 32 || (9 ≤ b && b ≤ 13)

def xdigitValue (b : UInt8) : ℕ :=
  if b ≤ ch '9' then b.toNat - 48 else if b ≤ ch 'F' then b.toNat - 55 else b.toNat - 87

def xvalue (digits : List UInt8) : ℕ := digits.foldl (fun v b => 16 * v + xdigitValue b) 0

/-- A sign, if there is one. -/
def takeSign : List UInt8 → Bool × List UInt8
  | b :: rest =>
    if b = ch '-' then (true, rest) else if b = ch '+' then (false, rest) else (false, b :: rest)
  | [] => (false, [])

/-- The `0x` of a hexadecimal number counts only in front of a digit. -/
def skipHexPrefix : List UInt8 → List UInt8
  | z :: x :: d :: rest =>
    if z = ch '0' ∧ (x = ch 'x' ∨ x = ch 'X') ∧ isxdigit d then d :: rest
    else z :: x :: d :: rest
  | short => short

/-- `strtoul(s, &end, 16)`: the value and the string at `end`. -/
def strtoul16 (s : List UInt8) : ℕ × List UInt8 :=
  let signed := takeSign (s.dropWhile isspace)
  let body := skipHexPrefix signed.2
  let digits := body.takeWhile isxdigit
  if digits = [] then (0, s)
  else
    let v := xvalue digits
    (if 4294967296 ≤ v then 4294967295
      else if signed.1 then (4294967296 - v) % 4294967296 else v,
      body.dropWhile isxdigit)

theorem isxdigit_hexDigit {d : ℕ} (h : d < 16) : isxdigit (hexDigit d) = true := by
  revert h d
  decide

theorem xdigitValue_hexDigit {d : ℕ} (h : d < 16) : xdigitValue (hexDigit d) = d := by
  revert h d
  decide

theorem hexText_ne_nil (w : ℕ) : hexText w ≠ [] := by
  unfold hexText
  split_ifs with h
  · simp
  · simpa using Nat.digits_ne_nil_iff_ne_zero.mpr h

theorem isxdigit_of_mem_hexText {w : ℕ} {b : UInt8} (h : b ∈ hexText w) : isxdigit b = true := by
  unfold hexText at h
  split_ifs at h
  · rw [List.mem_singleton.mp h]
    decide
  · obtain ⟨d, hd, rfl⟩ := List.mem_map.mp h
    exact isxdigit_hexDigit (Nat.digits_lt_base (by norm_num) (List.mem_reverse.mp hd))

theorem xvalue_hexText (w : ℕ) : xvalue (hexText w) = w := by
  unfold hexText
  split_ifs with h
  · rw [h]
    rfl
  · have hval : ∀ ds : List ℕ, (∀ d ∈ ds, d < 16) →
        ds.foldr (fun d v => 16 * v + xdigitValue (hexDigit d)) 0 = Nat.ofDigits 16 ds := by
      intro ds hds
      induction ds with
      | nil => rfl
      | cons d ds ih =>
        rw [List.foldr_cons, ih fun e he => hds e (List.mem_cons_of_mem d he),
          xdigitValue_hexDigit (hds d List.mem_cons_self), Nat.ofDigits_cons]
        exact Nat.add_comm _ _
    unfold xvalue
    rw [List.foldl_map, List.foldl_reverse,
      hval _ fun d hd => Nat.digits_lt_base (by norm_num) hd, Nat.ofDigits_digits]

theorem hexText_length_le {w n : ℕ} (hn : 0 < n) (h : w < 16 ^ n) : (hexText w).length ≤ n := by
  unfold hexText
  split_ifs with h0
  · exact hn
  · simpa using (Nat.digits_length_le_iff (by norm_num) w).mpr h

/-- The bytes of a hexadecimal digit are none of the special ones `strtoul` knows. -/
theorem isxdigit_plain {b : UInt8} (h : isxdigit b = true) :
    isspace b = false ∧ b ≠ ch '-' ∧ b ≠ ch '+' ∧ b ≠ ch 'x' ∧ b ≠ ch 'X' ∧ b ≠ ch ':' ∧ b ≠ 0 := by
  have hall : ∀ n : Fin 256, isxdigit (UInt8.ofNat n) = true →
      isspace (UInt8.ofNat n) = false ∧ UInt8.ofNat n ≠ ch '-' ∧ UInt8.ofNat n ≠ ch '+' ∧
        UInt8.ofNat n ≠ ch 'x' ∧ UInt8.ofNat n ≠ ch 'X' ∧ UInt8.ofNat n ≠ ch ':' ∧
        UInt8.ofNat n ≠ 0 := by decide +kernel
  simpa using hall ⟨b.toNat, b.toNat_lt⟩ (by simpa using h)

theorem xdigitValue_lt {b : UInt8} (h : isxdigit b = true) : xdigitValue b < 16 := by
  have hall : ∀ n : Fin 256, isxdigit (UInt8.ofNat n) = true →
      xdigitValue (UInt8.ofNat n) < 16 := by decide +kernel
  simpa using hall ⟨b.toNat, b.toNat_lt⟩ (by simpa using h)

theorem xvalue_lt {digits : List UInt8} (h : ∀ b ∈ digits, isxdigit b = true) :
    xvalue digits < 16 ^ digits.length := by
  induction digits using List.reverseRecOn with
  | nil => decide
  | append_singleton digits b ih =>
    have hb := xdigitValue_lt (h b (by simp))
    have hrest := ih fun c hc => h c (by simp [hc])
    rw [xvalue, List.foldl_append, List.length_append, List.length_singleton, pow_succ]
    change 16 * xvalue digits + xdigitValue b < _
    omega

/-- The marks that may stand in front of hexadecimal digits. -/
def hexMarks : List (List UInt8) := [[], [ch '0', ch 'x'], [ch '0', ch 'X']]

theorem nil_mem_hexMarks : [] ∈ hexMarks := List.mem_cons_self

/-- A number that does not fit is the largest one. -/
def saturated (v : ℕ) : ℕ := if 4294967296 ≤ v then 4294967295 else v

section Strtoul

variable {s : List UInt8}

/-- In front of a digit there is neither white space nor a sign to skip. -/
theorem strtoul16_of_isxdigit (h : isxdigit (s.headD 0) = true) :
    strtoul16 s =
      if (skipHexPrefix s).takeWhile isxdigit = [] then (0, s)
      else (saturated (xvalue ((skipHexPrefix s).takeWhile isxdigit)),
        (skipHexPrefix s).dropWhile isxdigit) := by
  have hplain := isxdigit_plain h
  cases s with
  | nil => exact absurd rfl hplain.2.2.2.2.2.2
  | cons b rest =>
    have hb : (b :: rest).headD 0 = b := rfl
    rw [hb] at hplain
    have hspace : (b :: rest).dropWhile isspace = b :: rest :=
      List.dropWhile_cons_of_neg (by simp [hplain.1])
    have hsign : takeSign (b :: rest) = (false, b :: rest) := by
      rw [takeSign, if_neg hplain.2.1, if_neg hplain.2.2.1]
    unfold strtoul16 saturated
    simp only [hspace, hsign, Bool.false_eq_true, if_false]

theorem skipHexPrefix_split (s : List UInt8) :
    ∃ mark ∈ hexMarks, s = mark ++ skipHexPrefix s ∧
      (mark ≠ [] → isxdigit ((skipHexPrefix s).headD 0) = true) := by
  unfold skipHexPrefix
  split
  · rename_i z x d rest
    split_ifs with hmark
    · obtain ⟨rfl, rfl | rfl, hd⟩ := hmark
      · exact ⟨[ch '0', ch 'x'], by simp [hexMarks], rfl, fun _ => hd⟩
      · exact ⟨[ch '0', ch 'X'], by simp [hexMarks], rfl, fun _ => hd⟩
    · exact ⟨[], by simp [hexMarks], rfl, fun h => absurd rfl h⟩
  · exact ⟨[], by simp [hexMarks], rfl, fun h => absurd rfl h⟩

theorem strtoul16_split (h : isxdigit (s.headD 0) = true) :
    ∃ mark ∈ hexMarks, ∃ digits, digits ≠ [] ∧ (∀ b ∈ digits, isxdigit b = true) ∧
      s = mark ++ digits ++ (strtoul16 s).2 ∧ (strtoul16 s).1 = saturated (xvalue digits) := by
  obtain ⟨mark, hmark, hs, hdigit⟩ := skipHexPrefix_split s
  have hhead : isxdigit ((skipHexPrefix s).headD 0) = true := by
    by_cases hnil : mark = []
    · rw [hnil, List.nil_append] at hs
      rwa [← hs]
    · exact hdigit hnil
  have hne : (skipHexPrefix s).takeWhile isxdigit ≠ [] := by
    cases hskip : skipHexPrefix s with
    | nil =>
      rw [hskip] at hhead
      exact absurd hhead (by decide)
    | cons b rest =>
      rw [hskip] at hhead
      have hb : isxdigit b = true := hhead
      simp [hb]
  refine ⟨mark, hmark, _, hne, fun b hb => List.mem_takeWhile_imp hb, ?_⟩
  rw [strtoul16_of_isxdigit h, if_neg hne, List.append_assoc, List.takeWhile_append_dropWhile]
  exact ⟨hs, rfl⟩

/-- Digits behind a mark are taken up to anything that is no digit and no `x`. -/
theorem strtoul16_append {mark digits rest : List UInt8} (hmark : mark ∈ hexMarks)
    (hne : digits ≠ []) (hall : ∀ b ∈ digits, isxdigit b = true)
    (hrest : ∀ b ∈ rest.head?, isxdigit b = false ∧ b ≠ ch 'x' ∧ b ≠ ch 'X') :
    strtoul16 (mark ++ digits ++ rest) = (saturated (xvalue digits), rest) := by
  obtain ⟨d, ds, rfl⟩ := List.exists_cons_of_ne_nil hne
  have hd : isxdigit d = true := hall d List.mem_cons_self
  have hskip : skipHexPrefix (mark ++ (d :: ds) ++ rest) = d :: ds ++ rest := by
    simp only [hexMarks, List.mem_cons, List.not_mem_nil, or_false] at hmark
    rcases hmark with rfl | rfl | rfl
    · -- the second byte is a digit or the first one of the rest
      have hsecond : ∀ c ∈ (ds ++ rest).head?, c ≠ ch 'x' ∧ c ≠ ch 'X' := by
        cases ds with
        | nil => exact fun c hc => (hrest c hc).2
        | cons e es =>
          rintro c ⟨⟩
          have he := isxdigit_plain (hall e (by simp))
          exact ⟨he.2.2.2.1, he.2.2.2.2.1⟩
      rw [List.nil_append, List.cons_append]
      cases htail : ds ++ rest with
      | nil => rfl
      | cons c tail =>
        have hc := hsecond c (by rw [htail]; rfl)
        cases tail with
        | nil => rfl
        | cons e es => simp [skipHexPrefix, hc.1, hc.2]
    · simp [skipHexPrefix, hd]
    · simp [skipHexPrefix, hd]
  have htake : (d :: ds ++ rest).takeWhile isxdigit = d :: ds := by
    rw [List.takeWhile_append_of_pos hall]
    cases rest with
    | nil => simp
    | cons r rs =>
      rw [List.takeWhile_cons_of_neg (by simp [(hrest r rfl).1]), List.append_nil]
  have hdrop : (d :: ds ++ rest).dropWhile isxdigit = rest := by
    rw [List.dropWhile_append_of_pos hall]
    cases rest with
    | nil => rfl
    | cons r rs => rw [List.dropWhile_cons_of_neg (by simp [(hrest r rfl).1])]
  have hhead : isxdigit ((mark ++ (d :: ds) ++ rest).headD 0) = true := by
    simp only [hexMarks, List.mem_cons, List.not_mem_nil, or_false] at hmark
    rcases hmark with rfl | rfl | rfl
    · exact hd
    · exact (by decide : isxdigit (ch '0') = true)
    · exact (by decide : isxdigit (ch '0') = true)
  rw [strtoul16_of_isxdigit hhead, hskip, htake, hdrop, if_neg hne]

end Strtoul

end Solcompat.Lib
