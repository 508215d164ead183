import Solcompat.Lib.Hex
import Solcompat.Printf.Translate

/-!
# Rendering integers with the rewritten length modifiers

The rules of C for the integer conversions: the length modifier narrows the argument, the
precision fills up with zeros, and the width pads on one of three sides. All but the first are
the same for a directive and its rewritten one, and the value can be read back from its text. So
the two texts are equal just when the narrowed values are.
-/

namespace Solcompat.Printf

open Lib

inductive IntConv
  | d
  | i
  | o
  | u
  | x
  | X
  deriving DecidableEq, Repr

namespace IntConv

def read (conversion : List UInt8) : Option IntConv :=
  if conversion = [ch 'd'] then some d
  else if conversion = [ch 'i'] then some i
  else if conversion = [ch 'o'] then some o
  else if conversion = [ch 'u'] then some u
  else if conversion = [ch 'x'] then some x
  else if conversion = [ch 'X'] then some X
  else none

def signed : IntConv → Bool
  | d => true
  | i => true
  | _ => false

def base : IntConv → ℕ
  | o => 8
  | x => 16
  | X => 16
  | _ => 10

def digit (c : IntConv) (n : ℕ) : UInt8 :=
  if c = X ∧ 10 ≤ n then UInt8.ofNat (55 + n) else hexDigit n

end IntConv

namespace Modifier

/-- The width of the promoted argument, on a target where `int` and `long` have 32 bits. -/
def argWidth : Modifier → ℕ
  | j => 64
  | standard text => if text = [ch 'l', ch 'l'] ∨ text = [ch 'q'] then 64 else 32
  | _ => 32

/-- The width of the type that the argument is converted to before it is printed. -/
def valueWidth : Modifier → ℕ
  | hh => 8
  | j => 64
  | standard text =>
    if text = [ch 'h'] then 16
    else if text = [ch 'l', ch 'l'] ∨ text = [ch 'q'] then 64 else 32
  | _ => 32

end Modifier

def IntConv.value (c : IntConv) (m : Modifier) {w : ℕ} (v : BitVec w) : ℤ :=
  if c.signed then (v.setWidth m.valueWidth).toInt else (v.setWidth m.valueWidth).toNat

/-- Flags, width and precision of a directive, with the arguments of its stars. -/
structure Layout where
  left : Bool
  plus : Bool
  space : Bool
  alternate : Bool
  zero : Bool
  width : ℕ
  precision : Option ℕ
  deriving DecidableEq, Repr

namespace Layout

variable (l : Layout)

/-- The digits, filled up to the precision. The alternate form of `o` starts with a zero. -/
def numeral (c : IntConv) (n : ℕ) : List UInt8 :=
  let digits := (Nat.digits c.base n).reverse.map c.digit
  let filled := List.replicate (l.precision.getD 1 - digits.length) (ch '0') ++ digits
  if l.alternate = true ∧ c = .o ∧ filled.headD 0 ≠ ch '0' then ch '0' :: filled else filled

/-- The sign of a signed conversion, or the prefix of the alternate form of `x` and `X`. -/
def lead (c : IntConv) (v : ℤ) : List UInt8 :=
  if c.signed then
    if v < 0 then [ch '-'] else if l.plus then [ch '+'] else if l.space then [ch ' '] else []
  else if l.alternate = true ∧ v ≠ 0 then
    if c = .x then [ch '0', ch 'x'] else if c = .X then [ch '0', ch 'X'] else []
  else []

/-- A field of at least the width. The flag `0` counts without `-` and without a precision. -/
def render (c : IntConv) (v : ℤ) : List UInt8 :=
  let lead := l.lead c v
  let numeral := l.numeral c v.natAbs
  let missing := l.width - (lead.length + numeral.length)
  if l.left then lead ++ numeral ++ List.replicate missing (ch ' ')
  else if l.zero = true ∧ l.precision = none then
    lead ++ List.replicate missing (ch '0') ++ numeral
  else List.replicate missing (ch ' ') ++ lead ++ numeral

end Layout

/-- The number that decimal digits spell. -/
def decimal (digits : List UInt8) : ℕ := digits.foldl (fun n b => 10 * n + (b.toNat - 48)) 0

namespace Directive

/-- A width or the digits after a point, where a star takes the next argument. -/
def count (text : List UInt8) (stars : List ℤ) : ℤ × List ℤ :=
  if text = [ch '*'] then (stars.headD 0, stars.tail) else (decimal text, stars)

/-- A negative width is a `-` flag and a width, a negative precision is none. -/
def layout (d : Directive) (stars : List ℤ) : Layout :=
  let width := count d.width stars
  let precision := count d.precision.tail width.2
  { left := d.flags.contains (ch '-') || width.1 < 0
    plus := d.flags.contains (ch '+')
    space := d.flags.contains (ch ' ')
    alternate := d.flags.contains (ch '#')
    zero := d.flags.contains (ch '0')
    width := width.1.natAbs
    precision := if d.precision = [] ∨ precision.1 < 0 then none else some precision.1.natAbs }

/-- What an integer directive prints for an argument. -/
def render (d : Directive) (stars : List ℤ) {w : ℕ} (v : BitVec w) : Option (List UInt8) :=
  (IntConv.read d.conversion).map fun c =>
    (d.normal.layout stars).render c (c.value d.modifier v)

end Directive

/-- The number that the digits of a text spell, whatever else is in it. -/
def magnitude (base : ℕ) (text : List UInt8) : ℕ :=
  Nat.ofDigits base ((text.filter isxdigit).map xdigitValue).reverse

section Magnitude

variable {base : ℕ} {xs ys : List UInt8}

theorem magnitude_append_left (hxs : ∀ b ∈ xs, isxdigit b = true → xdigitValue b = 0) :
    magnitude base (xs ++ ys) = magnitude base ys := by
  have hzeros : (xs.filter isxdigit).map xdigitValue =
      List.replicate (xs.filter isxdigit).length 0 := by
    rw [List.map_eq_replicate_iff]
    intro b hb
    obtain ⟨hmem, hdigit⟩ := List.mem_filter.mp hb
    exact hxs b hmem hdigit
  rw [magnitude, List.filter_append, List.map_append, hzeros, List.reverse_append,
    List.reverse_replicate, Nat.ofDigits_append_replicate_zero, magnitude]

theorem magnitude_append_right (hys : ∀ b ∈ ys, isxdigit b = false) :
    magnitude base (xs ++ ys) = magnitude base xs := by
  have hnone : ys.filter isxdigit = [] := by
    rw [List.filter_eq_nil_iff]
    intro b hb
    rw [hys b hb]
    decide
  rw [magnitude, List.filter_append, hnone, List.append_nil, magnitude]

end Magnitude

namespace IntConv

theorem digit_spec (c : IntConv) {n : ℕ} (h : n < 16) :
    isxdigit (c.digit n) = true ∧ xdigitValue (c.digit n) = n := by
  unfold digit
  split_ifs with hupper
  · obtain ⟨-, hten⟩ := hupper
    interval_cases n <;> exact ⟨by decide, by decide⟩
  · exact ⟨isxdigit_hexDigit h, xdigitValue_hexDigit h⟩

theorem base_spec (c : IntConv) : 1 < c.base ∧ c.base ≤ 16 := by
  cases c <;> decide

theorem magnitude_digits (c : IntConv) (n : ℕ) :
    magnitude c.base ((Nat.digits c.base n).reverse.map c.digit) = n := by
  have hlt : ∀ k ∈ (Nat.digits c.base n).reverse, k < 16 := by
    intro k hk
    exact (Nat.digits_lt_base c.base_spec.1 (List.mem_reverse.mp hk)).trans_le c.base_spec.2
  have hfilter : ((Nat.digits c.base n).reverse.map c.digit).filter isxdigit =
      (Nat.digits c.base n).reverse.map c.digit := by
    rw [List.filter_eq_self]
    intro b hb
    obtain ⟨k, hk, rfl⟩ := List.mem_map.mp hb
    exact (c.digit_spec (hlt k hk)).1
  have hmap : ((Nat.digits c.base n).reverse.map c.digit).map xdigitValue =
      (Nat.digits c.base n).reverse := by
    have hid : ∀ k ∈ (Nat.digits c.base n).reverse, (xdigitValue ∘ c.digit) k = id k :=
      fun k hk => (c.digit_spec (hlt k hk)).2
    rw [List.map_map, List.map_congr_left hid, List.map_id]
  rw [magnitude, hfilter, hmap, List.reverse_reverse, Nat.ofDigits_digits]

theorem isxdigit_of_mem_digits (c : IntConv) {n : ℕ} {b : UInt8}
    (hb : b ∈ (Nat.digits c.base n).reverse.map c.digit) : isxdigit b = true := by
  obtain ⟨k, hk, rfl⟩ := List.mem_map.mp hb
  have hlt := Nat.digits_lt_base c.base_spec.1 (List.mem_reverse.mp hk)
  exact (c.digit_spec (hlt.trans_le c.base_spec.2)).1

end IntConv

namespace Layout

variable (l : Layout) (c : IntConv)

theorem xdigitValue_zero {b : UInt8} (hb : b = ch '0') : isxdigit b = true → xdigitValue b = 0 := by
  rw [hb]
  decide

theorem magnitude_numeral (n : ℕ) : magnitude c.base (l.numeral c n) = n := by
  unfold numeral
  dsimp only
  split_ifs
  · rw [← List.singleton_append, magnitude_append_left, magnitude_append_left, c.magnitude_digits]
    · exact fun b hb => xdigitValue_zero (List.eq_of_mem_replicate hb)
    · exact fun b hb => xdigitValue_zero (List.mem_singleton.mp hb)
  · rw [magnitude_append_left, c.magnitude_digits]
    exact fun b hb => xdigitValue_zero (List.eq_of_mem_replicate hb)

theorem isxdigit_of_mem_numeral {n : ℕ} {b : UInt8} (hb : b ∈ l.numeral c n) :
    isxdigit b = true := by
  have hfilled : ∀ k, b ∈ List.replicate k (ch '0') ++ (Nat.digits c.base n).reverse.map c.digit →
      isxdigit b = true := by
    intro k hb
    rcases List.mem_append.mp hb with hb | hb
    · rw [List.eq_of_mem_replicate hb]
      decide
    · exact c.isxdigit_of_mem_digits hb
  unfold numeral at hb
  dsimp only at hb
  split_ifs at hb
  · rcases List.mem_cons.mp hb with rfl | hb
    · decide
    · exact hfilled _ hb
  · exact hfilled _ hb

theorem xdigitValue_lead {v : ℤ} {b : UInt8} (hb : b ∈ l.lead c v) :
    isxdigit b = true → xdigitValue b = 0 := by
  have hsubset : l.lead c v ⊆ [ch '-', ch '+', ch ' ', ch '0', ch 'x', ch 'X'] := by
    unfold lead
    split_ifs <;> simp
  have hall : [ch '-', ch '+', ch ' ', ch '0', ch 'x', ch 'X'].all
      (fun b => !isxdigit b || xdigitValue b == 0) = true := by
    decide
  intro hdigit
  have hvalue := List.all_eq_true.mp hall b (hsubset hb)
  rw [hdigit] at hvalue
  simpa using hvalue

theorem minus_mem_lead (v : ℤ) : ch '-' ∈ l.lead c v ↔ c.signed = true ∧ v < 0 := by
  unfold lead
  split_ifs with hsigned hneg hplus hspace halternate
  · simp [hsigned, hneg]
  · simp +decide [hneg]
  · simp +decide [hneg]
  · simp [hneg]
  · simp +decide [hsigned]
  · simp +decide [hsigned]
  · simp [hsigned]
  · simp [hsigned]

theorem magnitude_render (v : ℤ) : magnitude c.base (l.render c v) = v.natAbs := by
  have hspaces : ∀ k, ∀ b ∈ List.replicate k (ch ' '), isxdigit b = false := by
    intro k b hb
    rw [List.eq_of_mem_replicate hb]
    decide
  have hzeros : ∀ k, ∀ b ∈ List.replicate k (ch '0'), isxdigit b = true → xdigitValue b = 0 :=
    fun k b hb => xdigitValue_zero (List.eq_of_mem_replicate hb)
  have hlead : ∀ b ∈ l.lead c v, isxdigit b = true → xdigitValue b = 0 :=
    fun b hb => l.xdigitValue_lead c hb
  unfold render
  dsimp only
  split_ifs
  · rw [magnitude_append_right (hspaces _), magnitude_append_left hlead, l.magnitude_numeral]
  · rw [List.append_assoc, magnitude_append_left hlead, magnitude_append_left (hzeros _),
      l.magnitude_numeral]
  · rw [List.append_assoc, magnitude_append_left, magnitude_append_left hlead,
      l.magnitude_numeral]
    intro b hb hdigit
    rw [hspaces _ b hb] at hdigit
    cases hdigit

theorem minus_mem_render (v : ℤ) : ch '-' ∈ l.render c v ↔ c.signed = true ∧ v < 0 := by
  have hnumeral : ch '-' ∉ l.numeral c v.natAbs := fun hmem =>
    (isxdigit_plain (l.isxdigit_of_mem_numeral c hmem)).2.1 rfl
  have hspaces : ∀ k, ch '-' ∉ List.replicate k (ch ' ') := fun k hmem =>
    absurd (List.eq_of_mem_replicate hmem) (by decide)
  have hzeros : ∀ k, ch '-' ∉ List.replicate k (ch '0') := fun k hmem =>
    absurd (List.eq_of_mem_replicate hmem) (by decide)
  rw [← l.minus_mem_lead c v]
  unfold render
  dsimp only
  split_ifs
  · simp only [List.mem_append, hnumeral, hspaces, or_false]
  · simp only [List.mem_append, hnumeral, hzeros, or_false]
  · simp only [List.mem_append, hnumeral, hspaces, or_false, false_or]

theorem render_inj {v w : ℤ} (hv : c.signed = true ∨ 0 ≤ v) (hw : c.signed = true ∨ 0 ≤ w) :
    l.render c v = l.render c w ↔ v = w := by
  constructor
  · intro heq
    have habs : v.natAbs = w.natAbs := by
      rw [← l.magnitude_render c v, ← l.magnitude_render c w, heq]
    have hminus : c.signed = true ∧ v < 0 ↔ c.signed = true ∧ w < 0 := by
      rw [← l.minus_mem_render c v, ← l.minus_mem_render c w, heq]
    by_cases hsigned : c.signed = true
    · simp only [hsigned, true_and] at hminus
      omega
    · have := hv.resolve_left hsigned
      have := hw.resolve_left hsigned
      omega
  · rintro rfl
    rfl

end Layout

/-- The low sixteen bits, as the conversion reads them, are those of a value of type `char`. -/
def IntConv.FitsChar (c : IntConv) {w : ℕ} (v : BitVec w) : Prop :=
  if c.signed then -128 ≤ (v.setWidth 16).toInt ∧ (v.setWidth 16).toInt ≤ 127
  else (v.setWidth 16).toNat ≤ 255

theorem IntConv.value_nonneg (c : IntConv) (m : Modifier) {w : ℕ} (v : BitVec w) :
    c.signed = true ∨ 0 ≤ c.value m v := by
  unfold value
  split_ifs with hsigned
  · exact .inl hsigned
  · exact .inr (Int.natCast_nonneg _)

theorem IntConv.value_rewritten_iff (c : IntConv) {m : Modifier} (hm : m.isNew = true) {w : ℕ}
    (v : BitVec w) : c.value m.rewritten v = c.value m v ↔ (m = .hh → c.FitsChar v) := by
  cases m with
  | hh =>
    simp only [forall_const]
    have h8 : ∀ v : BitVec w, c.value .hh v =
      if c.signed then (v.setWidth 8).toInt else (v.setWidth 8).toNat := fun _ => rfl
    have h16 : ∀ v : BitVec w, c.value (Modifier.rewritten .hh) v =
      if c.signed then (v.setWidth 16).toInt else (v.setWidth 16).toNat := fun _ => rfl
    rw [h8, h16, FitsChar]
    split_ifs
    · simp only [BitVec.toInt_eq_toNat_cond, BitVec.toNat_setWidth]
      omega
    · simp only [BitVec.toNat_setWidth]
      omega
  | standard text => cases hm
  | _ => exact iff_of_true rfl (by simp)

/-- The code rewrites an integer directive with a C99 length modifier, and the rewritten one prints
the same text for an argument if and only if the modifier is not `hh` or the argument, as a value
of type `short`, is one of type `char`. -/
theorem rewritten_render_iff (d : Directive) (hd : d.IsC99) (c : IntConv)
    (hc : IntConv.read d.conversion = some c) (hnew : d.modifier.isNew = true) (stars : List ℤ)
    (v : BitVec d.modifier.argWidth) :
    (∀ fmt : CString, fmt.bytes = ch '%' :: d.text → ∀ outsize,
      d.rewritten.text.length + 1 < outsize →
        (preprocessFmt fmt outsize).result fmt = ch '%' :: d.rewritten.text) ∧
    (d.rewritten.render stars v = d.render stars v ↔ (d.modifier = .hh → c.FitsChar v)) := by
  constructor
  · intro fmt hfmt outsize hfits
    have hxs : ∀ x ∈ [Item.directive d], x.IsC99 := by
      rw [List.forall_mem_singleton]
      exact hd
    have hbytes : fmt.bytes = [Item.directive d].flatMap Item.text := by
      rw [hfmt, List.flatMap_singleton, Item.text]
    have htranslate : translate [Item.directive d] = ch '%' :: d.rewritten.text := by
      rw [translate_cons, translate_nil, List.append_nil, Item.translated]
    rw [preprocessFmt_result hxs hbytes (by rw [htranslate]; exact hfits), htranslate]
  · have hvalue : ∀ m, c.signed = true ∨ 0 ≤ c.value m v := fun m => c.value_nonneg m v
    have hconversion : IntConv.read d.rewritten.conversion = some c := hc
    unfold Directive.render
    rw [hc, hconversion, Option.map_some, Option.map_some, Option.some_inj]
    exact (Layout.render_inj _ c (hvalue _) (hvalue _)).trans (c.value_rewritten_iff hnew v)

/-- The format `%04hhx` and the argument `171`. -/
theorem rewritten_render_byte :
    (Directive.rewritten ⟨[ch '0'], [ch '4'], [], .hh, [ch 'x']⟩).render [] 171#32 =
      Directive.render ⟨[ch '0'], [ch '4'], [], .hh, [ch 'x']⟩ [] 171#32 := by
  have hd : Directive.IsC99 ⟨[ch '0'], [ch '4'], [], .hh, [ch 'x']⟩ := by
    refine ⟨?_, .inr ?_, .inl rfl, by decide, ch 'x', by decide, rfl⟩
    · rw [List.forall_mem_singleton]
      decide
    · rw [List.forall_mem_singleton]
      decide
  refine (rewritten_render_iff _ hd .x (by decide) rfl [] 171#32).2.mpr fun _ => ?_
  exact (by decide : (BitVec.setWidth 16 171#32).toNat ≤ 255)

/-- The format `%hhd` and the argument `300`: C99 prints `44`, the rewritten `%hd` prints `300`. -/
theorem rewritten_render_differs :
    Directive.IsC99 ⟨[], [], [], .hh, [ch 'd']⟩ ∧
    (Directive.rewritten ⟨[], [], [], .hh, [ch 'd']⟩).render [] 300#32 ≠
      Directive.render ⟨[], [], [], .hh, [ch 'd']⟩ [] 300#32 := by
  refine ⟨⟨by simp, .inr (by simp), .inl rfl, by decide, ch 'd', by decide, rfl⟩, ?_⟩
  have hlong : (Directive.rewritten ⟨[], [], [], .hh, [ch 'd']⟩).render [] 300#32 =
      some [ch '3', ch '0', ch '0'] := by
    decide +kernel
  have hshort : Directive.render ⟨[], [], [], .hh, [ch 'd']⟩ [] 300#32 =
      some [ch '4', ch '4'] := by
    decide +kernel
  rw [hlong, hshort]
  decide

end Solcompat.Printf
