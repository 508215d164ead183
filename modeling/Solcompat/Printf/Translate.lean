import Solcompat.Printf.Scan

/-!
# Formats of C99 are translated exactly

The formats that C99 describes are read back as the items they were written from, except that
the leading zeros of a width are read as flags, which changes no byte. Where the translation
fits, the scanner returns it, or the format itself when there is nothing to rewrite.
-/

namespace Solcompat.Printf

open Lib

def c99Modifiers : List Modifier :=
  [.standard [], .hh, .standard [ch 'h'], .standard [ch 'l'], .standard [ch 'l', ch 'l'],
    .standard [ch 'L'], .standard [ch 'q'], .z, .t, .j]

def c99Conversions : List UInt8 := "diouxXfFeEgGaAcspn".toList.map ch

/-- A directive as C99 writes it. -/
structure Directive.IsC99 (d : Directive) : Prop where
  flags : ∀ b ∈ d.flags, isFlag b = true
  width : d.width = [ch '*'] ∨ ∀ b ∈ d.width, isDigit b = true
  precision : d.precision = [] ∨ d.precision = [ch '.', ch '*'] ∨
    ∃ digits, (∀ b ∈ digits, isDigit b = true) ∧ d.precision = ch '.' :: digits
  modifier : d.modifier ∈ c99Modifiers
  conversion : ∃ b ∈ c99Conversions, d.conversion = [b]

def Item.IsC99 : Item → Prop
  | literal b => b ≠ ch '%'
  | percent => True
  | lonePercent => False
  | directive d => d.IsC99

/-- A byte that ends flags, width and precision. -/
def isPlain (b : UInt8) : Bool :=
  !isFlag b && !isDigit b && b != ch '*' && b != ch '.' && b != ch '%'

/-- A byte that ends a length modifier. -/
def isEnding (b : UInt8) : Bool :=
  isPlain b && !isLength b && b != ch 'z' && b != ch 't' && b != ch 'j' && b != ch 'h'

theorem isEnding_of_conversion {b : UInt8} (hb : b ∈ c99Conversions) : isEnding b = true :=
  List.all_eq_true.mp (show c99Conversions.all isEnding = true by decide) b hb

section Modifier

variable {m : Modifier} (hm : m ∈ c99Modifiers) {b : UInt8} (hb : b ∈ c99Conversions)
include hm hb

theorem isPlain_head (rest : List UInt8) :
    isPlain ((m.text ++ b :: rest).headD 0) = true := by
  have hending := isEnding_of_conversion hb
  cases hm' : m.text with
  | nil =>
    simp only [isEnding, Bool.and_eq_true] at hending
    exact hending.1.1.1.1.1
  | cons a text =>
    have hall : c99Modifiers.all (fun m => m.text.all isPlain) = true := by decide
    have hplain := List.all_eq_true.mp (List.all_eq_true.mp hall m hm) a
    exact hplain (by rw [hm']; exact List.mem_cons_self)

theorem Modifier.read_text (rest : List UInt8) : Modifier.read (m.text ++ b :: rest) = m := by
  have hending := isEnding_of_conversion hb
  simp only [isEnding, Bool.and_eq_true, Bool.not_eq_true', bne_iff_ne, ne_eq] at hending
  obtain ⟨⟨⟨⟨⟨-, hlength⟩, hz⟩, ht⟩, hj⟩, hh⟩ := hending
  simp only [c99Modifiers, List.mem_cons, List.not_mem_nil, or_false] at hm
  rcases hm with rfl | rfl | rfl | rfl | rfl | rfl | rfl | rfl | rfl | rfl <;>
    simp +decide [Modifier.read, Modifier.text, hlength, hz, ht, hj, hh]

end Modifier

section Reading

variable {p : UInt8 → Bool} {xs ys : List UInt8}

theorem takeWhile_of_head (h : p (ys.headD 0) = false) : ys.takeWhile p = [] := by
  cases ys with
  | nil => rfl
  | cons b rest => exact List.takeWhile_cons_of_neg (by simpa using h)

theorem takeWhile_append_stop (hxs : ∀ b ∈ xs, p b = true) (hys : p (ys.headD 0) = false) :
    (xs ++ ys).takeWhile p = xs := by
  rw [List.takeWhile_append_of_pos hxs, takeWhile_of_head hys, List.append_nil]

theorem headD_append_ne {c : UInt8} (hxs : ∀ b ∈ xs, b ≠ c) (hys : ys.headD 0 ≠ c) :
    (xs ++ ys).headD 0 ≠ c := by
  cases xs with
  | nil => exact hys
  | cons b xs => exact hxs b List.mem_cons_self

theorem ne_of_all {c : UInt8} (hc : p c = false) (hxs : ∀ b ∈ xs, p b = true) :
    ∀ b ∈ xs, b ≠ c := by
  rintro b hb rfl
  rw [hxs b hb] at hc
  cases hc

theorem readCount_append (hxs : xs = [ch '*'] ∨ ∀ b ∈ xs, isDigit b = true)
    (hdigit : isDigit (ys.headD 0) = false) (hstar : ys.headD 0 ≠ ch '*') :
    readCount (xs ++ ys) = xs := by
  rcases hxs with rfl | hxs
  · rfl
  · have hhead : (xs ++ ys).headD 0 ≠ ch '*' :=
      headD_append_ne (ne_of_all (by decide) hxs) hstar
    rw [readCount, if_neg hhead, takeWhile_append_stop hxs hdigit]

theorem readPrecision_append
    (hxs : xs = [] ∨ xs = [ch '.', ch '*'] ∨
      ∃ digits, (∀ b ∈ digits, isDigit b = true) ∧ xs = ch '.' :: digits)
    (hys : isPlain (ys.headD 0) = true) : readPrecision (xs ++ ys) = xs := by
  simp only [isPlain, Bool.and_eq_true, Bool.not_eq_true', bne_iff_ne, ne_eq] at hys
  obtain ⟨⟨⟨⟨-, hdigit⟩, hstar⟩, hpoint⟩, -⟩ := hys
  rcases hxs with rfl | rfl | ⟨digits, hdigits, rfl⟩
  · exact if_neg hpoint
  · rfl
  · exact (if_pos rfl).trans (congrArg _ (readCount_append (.inr hdigits) hdigit hstar))

end Reading

namespace Directive

/-- Leading zeros of a width are flags to a reader. -/
def normal (d : Directive) : Directive :=
  { d with
    flags := d.flags ++ d.width.takeWhile isFlag
    width := d.width.dropWhile isFlag }

theorem text_normal (d : Directive) : d.normal.text = d.text := by
  simp only [text, normal, List.append_assoc]
  rw [← List.append_assoc (d.width.takeWhile isFlag), List.takeWhile_append_dropWhile]

theorem rewritten_text_normal (d : Directive) : d.normal.rewritten.text = d.rewritten.text :=
  text_normal d.rewritten

theorem IsC99.normal_width {d : Directive} (hd : d.IsC99) :
    d.normal.width = [ch '*'] ∨ ∀ b ∈ d.normal.width, isDigit b = true := by
  rcases hd.width with hstar | hdigits
  · left
    rw [normal, hstar]
    rfl
  · exact .inr fun b hb => hdigits b ((List.dropWhile_suffix isFlag).subset hb)

theorem read_text {d : Directive} (hd : d.IsC99) (rest : List UInt8) :
    read (d.text ++ rest) = (d.normal, rest) := by
  obtain ⟨b, hb, hconversion⟩ := hd.conversion
  have hhead := isPlain_head hd.modifier hb rest
  have hmodifier := Modifier.read_text hd.modifier hb rest
  have hprecision := readPrecision_append hd.precision hhead
  generalize htail : d.modifier.text ++ b :: rest = tail at hhead hprecision hmodifier
  have hafter : isFlag ((d.precision ++ tail).headD 0) = false ∧
      isDigit ((d.precision ++ tail).headD 0) = false ∧
        (d.precision ++ tail).headD 0 ≠ ch '*' := by
    simp only [isPlain, Bool.and_eq_true, Bool.not_eq_true', bne_iff_ne, ne_eq] at hhead
    rcases hd.precision with hnil | hstar | ⟨digits, -, hdigits⟩
    · rw [hnil]
      exact ⟨hhead.1.1.1.1, hhead.1.1.1.2, hhead.1.1.2⟩
    · rw [hstar]
      exact ⟨rfl, rfl, (by decide : ch '.' ≠ ch '*')⟩
    · rw [hdigits]
      exact ⟨rfl, rfl, (by decide : ch '.' ≠ ch '*')⟩
  have htext : d.text ++ rest = d.flags ++ (d.width ++ (d.precision ++ tail)) := by
    rw [← htail, text, hconversion]
    simp
  have hflags : (d.text ++ rest).takeWhile isFlag = d.normal.flags := by
    rw [htext, List.takeWhile_append_of_pos hd.flags, List.takeWhile_append,
      takeWhile_of_head hafter.1]
    split_ifs with hlen
    · rw [List.append_nil, normal, (List.takeWhile_prefix isFlag).eq_of_length hlen]
    · rfl
  have hafterFlags : afterFlags (d.text ++ rest) = d.normal.width ++ (d.precision ++ tail) := by
    have hsplit : d.text ++ rest = d.normal.flags ++ (d.normal.width ++ (d.precision ++ tail)) := by
      rw [htext, normal]
      simp only [List.append_assoc]
      rw [← List.append_assoc (d.width.takeWhile isFlag), List.takeWhile_append_dropWhile]
    rw [afterFlags, hflags, hsplit, List.drop_left]
  have hafterWidth : readCount (d.normal.width ++ (d.precision ++ tail)) = d.normal.width :=
    readCount_append hd.normal_width hafter.2.1 hafter.2.2
  simp only [read, afterModifier, afterPrecision, afterWidth, hafterFlags, hflags, hafterWidth,
    List.drop_left, hprecision, hmodifier]
  rw [← htail, List.drop_left]
  simp [normal, hconversion]

theorem IsC99.head_ne {d : Directive} (hd : d.IsC99) (rest : List UInt8) :
    (d.text ++ rest).headD 0 ≠ ch '%' := by
  obtain ⟨b, hb, hconversion⟩ := hd.conversion
  have hhead := isPlain_head hd.modifier hb rest
  have htext : d.text ++ rest = d.flags ++ (d.width ++ (d.precision ++
      (d.modifier.text ++ b :: rest))) := by
    rw [text, hconversion]
    simp
  simp only [isPlain, Bool.and_eq_true, bne_iff_ne, ne_eq] at hhead
  rw [htext]
  apply headD_append_ne (ne_of_all (by decide) hd.flags)
  apply headD_append_ne
  · rcases hd.width with hstar | hdigits
    · rw [hstar, List.forall_mem_singleton]
      decide
    · exact ne_of_all (by decide) hdigits
  apply headD_append_ne
  · rcases hd.precision with hnil | hstar | ⟨digits, hdigits, hprecision⟩
    · simp [hnil]
    · rw [hstar, List.forall_mem_cons, List.forall_mem_singleton]
      decide
    · rw [hprecision, List.forall_mem_cons]
      exact ⟨by decide, ne_of_all (by decide) hdigits⟩
  exact hhead.2

end Directive

namespace Item

def normal : Item → Item
  | directive d => directive d.normal
  | item => item

theorem translated_normal (x : Item) : x.normal.translated = x.translated := by
  cases x with
  | directive d => exact congrArg (ch '%' :: ·) d.rewritten_text_normal
  | _ => rfl

theorem isNew_normal (x : Item) : x.normal.isNew = x.isNew := by
  cases x <;> rfl

theorem translated_of_not_isNew {x : Item} (h : x.isNew = false) : x.translated = x.text := by
  cases x with
  | directive d =>
    cases hm : d.modifier with
    | standard text =>
      simp [translated, Item.text, Directive.rewritten, Directive.text, Modifier.rewritten, hm]
    | _ => simp [isNew, Modifier.isNew, hm] at h
  | _ => rfl

end Item

theorem translate_normal (xs : List Item) : translate (xs.map Item.normal) = translate xs := by
  simp only [translate, List.flatMap_map, Item.translated_normal]

theorem items_directive {d : Directive} (hd : d.IsC99) (rest : List UInt8) :
    items (ch '%' :: (d.text ++ rest)) = .directive d.normal :: items rest := by
  have hne : d.text ++ rest ≠ [] := by
    obtain ⟨b, -, hconversion⟩ := hd.conversion
    simp [Directive.text, hconversion]
  rw [items, if_neg (not_not.mpr rfl), if_neg hne, if_neg (hd.head_ne _), Directive.read_text hd]

theorem items_text {xs : List Item} (hxs : ∀ x ∈ xs, x.IsC99) :
    items (xs.flatMap Item.text) = xs.map Item.normal := by
  induction xs with
  | nil => rw [List.flatMap_nil, items, List.map_nil]
  | cons x xs ih =>
    rw [List.forall_mem_cons] at hxs
    obtain ⟨hx, hxs⟩ := hxs
    rw [List.flatMap_cons, List.map_cons, ← ih hxs]
    cases x with
    | literal b =>
      have hb : b ≠ ch '%' := hx
      rw [Item.text, List.singleton_append, items, if_pos hb]
      rfl
    | percent =>
      rw [Item.text, List.cons_append, List.singleton_append, items, if_neg (not_not.mpr rfl),
        if_neg (List.cons_ne_nil _ _), if_pos List.headD_cons, List.tail_cons]
      rfl
    | lonePercent => exact hx.elim
    | directive d => exact items_directive hx _

/-- In a translation that fits the scanner gets to the length modifier of every directive. -/
theorem somewhere_rewrites_iff {xs : List Item} (hxs : ∀ x ∈ xs, x.IsC99) {limit : ℕ}
    (hfits : (translate xs).length ≤ limit) :
    Somewhere (Item.Rewrites limit) (xs.map Item.normal) 0 ↔ ∃ x ∈ xs, x.isNew = true := by
  constructor
  · rintro ⟨before, y, after, hsplit, hy⟩
    have hmem : y ∈ xs.map Item.normal := by
      rw [hsplit]
      exact List.mem_append_right _ List.mem_cons_self
    obtain ⟨x, hx, rfl⟩ := List.mem_map.mp hmem
    refine ⟨x, hx, ?_⟩
    rw [← x.isNew_normal]
    cases hnormal : x.normal with
    | directive d =>
      rw [hnormal] at hy
      exact hy.1
    | _ =>
      rw [hnormal] at hy
      exact hy.elim
  · rintro ⟨x, hx, hnew⟩
    obtain ⟨before, after, rfl⟩ := List.append_of_mem hx
    refine ⟨before.map Item.normal, x.normal, after.map Item.normal, by simp, ?_⟩
    have hc99 := hxs x hx
    cases x with
    | directive d =>
      have hlen := d.rewritten_text_length
      obtain ⟨b, -, hconversion⟩ := Directive.IsC99.conversion hc99
      rw [hconversion, List.length_singleton] at hlen
      have hwidth : (d.width.takeWhile isFlag).length + (d.width.dropWhile isFlag).length =
          d.width.length := by
        rw [← List.length_append, List.takeWhile_append_dropWhile]
      simp only [translate, List.flatMap_append, List.flatMap_cons, List.length_append,
        Item.translated, List.length_cons] at hfits
      rw [translate_normal]
      refine ⟨hnew, ?_, .inl ?_⟩
      · simp only [translate]
        omega
      · simp only [translate, Directive.normal, List.length_append]
        omega
    | _ => cases hnew

section Fits

variable {xs : List Item} (hxs : ∀ x ∈ xs, x.IsC99) {fmt : CString}
  (hfmt : fmt.bytes = xs.flatMap Item.text) {outsize : ℕ}
  (hfits : (translate xs).length < outsize)
include hxs hfmt hfits

theorem preprocessFmt_changed_iff :
    (preprocessFmt fmt outsize).changed = true ↔ ∃ x ∈ xs, x.isNew = true := by
  rw [(preprocessFmt_scanned fmt outsize).changed, hfmt, items_text hxs, List.length_nil,
    somewhere_rewrites_iff hxs (Nat.le_sub_one_of_lt hfits)]
  simp

theorem preprocessFmt_result : (preprocessFmt fmt outsize).result fmt = translate xs := by
  have hscanned := preprocessFmt_scanned fmt outsize
  rw [hfmt, items_text hxs] at hscanned
  unfold Preprocessed.result
  split_ifs with h
  · rw [hscanned.fits, List.nil_append, translate_normal]
    rw [List.length_nil, translate_normal]
    omega
  · rw [hfmt, translate]
    have hsame : ∀ x ∈ xs, x.text = x.translated := by
      intro x hx
      have hnew : ¬ x.isNew = true := fun hnew =>
        h ((preprocessFmt_changed_iff hxs hfmt hfits).mpr ⟨x, hx, hnew⟩)
      rw [Item.translated_of_not_isNew (Bool.not_eq_true _ ▸ hnew)]
    simp only [List.flatMap, List.map_congr_left hsame]

end Fits

/-- A format of C99 whose translation fits is translated, and returned as it is when it has no
length modifier to rewrite. -/
theorem preprocessFmt_translates (xs : List Item) (hxs : ∀ x ∈ xs, x.IsC99) (fmt : CString)
    (hfmt : fmt.bytes = xs.flatMap Item.text) (outsize : ℕ)
    (hfits : (translate xs).length < outsize) :
    (preprocessFmt fmt outsize).result fmt = translate xs ∧
      ((preprocessFmt fmt outsize).changed = true ↔ ∃ x ∈ xs, x.isNew = true) :=
  ⟨preprocessFmt_result hxs hfmt hfits, preprocessFmt_changed_iff hxs hfmt hfits⟩

/-- The format `%-*zu %%` is rewritten to `%-*u %%`. -/
theorem preprocessFmt_translates_size :
    (preprocessFmt (.ofString "%-*zu %%") 2048).result (.ofString "%-*zu %%") =
      (CString.ofString "%-*u %%").bytes ∧
    (preprocessFmt (.ofString "%-*zu %%") 2048).changed = true := by
  have hd : Directive.IsC99 ⟨[ch '-'], [ch '*'], [], .z, [ch 'u']⟩ := by
    refine ⟨?_, .inl rfl, .inl rfl, by decide, ch 'u', by decide, rfl⟩
    rw [List.forall_mem_singleton]
    decide
  have hxs : ∀ x ∈ [Item.directive ⟨[ch '-'], [ch '*'], [], .z, [ch 'u']⟩, .literal (ch ' '),
      .percent], x.IsC99 := by
    rw [List.forall_mem_cons, List.forall_mem_cons, List.forall_mem_singleton]
    exact ⟨hd, (by decide : ch ' ' ≠ ch '%'), trivial⟩
  have h := preprocessFmt_translates _ hxs (.ofString "%-*zu %%") (by decide +kernel) 2048
    (by decide +kernel)
  refine ⟨h.1.trans (by decide +kernel), h.2.mpr ⟨_, List.mem_cons_self, rfl⟩⟩

end Solcompat.Printf
