import Solcompat.Printf.Format

/-!
# The directives of a format

A format is a sequence of literal bytes, `%%` and directives: a `%`, flags, a width, a
precision, a length modifier and a conversion character. Reading is total, so that a directive
of an ill-formed format may lack its conversion and a lone `%` may end the format. The
translation replaces the length modifiers that C99 added by those that the system knows, and
keeps every other byte.
-/

namespace Solcompat.Printf

open Lib

/-- The modifiers that C99 added, and those that were there before. -/
inductive Modifier
  | z
  | t
  | j
  | hh
  | standard (text : List UInt8)
  deriving DecidableEq, Repr

namespace Modifier

def text : Modifier → List UInt8
  | z => [ch 'z']
  | t => [ch 't']
  | j => [ch 'j']
  | hh => [ch 'h', ch 'h']
  | standard text => text

def isNew : Modifier → Bool
  | standard _ => false
  | _ => true

/-- The modifier that the system knows for the same argument. -/
def rewritten : Modifier → Modifier
  | z => standard []
  | t => standard []
  | j => standard [ch 'l', ch 'l']
  | hh => standard [ch 'h']
  | standard text => standard text

def read (source : List UInt8) : Modifier :=
  if source.headD 0 = ch 'z' then z
  else if source.headD 0 = ch 't' then t
  else if source.headD 0 = ch 'j' then j
  else if source.headD 0 = ch 'h' ∧ source.tail.headD 0 = ch 'h' then hh
  else standard (source.takeWhile isLength)

theorem read_standard {source text : List UInt8} (h : read source = standard text) :
    text = source.takeWhile isLength := by
  unfold read at h
  split_ifs at h
  injection h with h
  exact h.symm

theorem read_starts (source : List UInt8) : (read source).text <+: source := by
  have hone : ∀ b, b ≠ 0 → source.headD 0 = b → [b] <+: source := by
    rintro b hb rfl
    cases source with
    | nil => exact absurd rfl hb
    | cons b rest => exact List.prefix_append [b] rest
  unfold read
  split_ifs with hz ht hj hh
  · exact hone _ (by decide) hz
  · exact hone _ (by decide) ht
  · exact hone _ (by decide) hj
  · obtain ⟨rest, rfl⟩ := hone _ (by decide) hh.1
    cases rest with
    | nil => exact absurd hh.2 (by decide)
    | cons b rest =>
      rw [show b = ch 'h' from hh.2]
      exact ⟨rest, rfl⟩
  · exact List.takeWhile_prefix _

end Modifier

/-- A width, or a precision after its point: `*` or digits. -/
def readCount (source : List UInt8) : List UInt8 :=
  if source.headD 0 = ch '*' then [ch '*'] else source.takeWhile isDigit

def readPrecision (source : List UInt8) : List UInt8 :=
  if source.headD 0 = ch '.' then ch '.' :: readCount source.tail else []

theorem readCount_starts (source : List UInt8) : readCount source <+: source := by
  unfold readCount
  split_ifs with hstar
  · cases source with
    | nil => exact absurd hstar (by decide)
    | cons b rest =>
      rw [← show b = ch '*' from hstar]
      exact List.prefix_append [b] rest
  · exact List.takeWhile_prefix _

theorem readPrecision_starts (source : List UInt8) : readPrecision source <+: source := by
  unfold readPrecision
  split_ifs with hpoint
  · cases source with
    | nil => exact absurd hpoint (by decide)
    | cons b rest =>
      rw [← show b = ch '.' from hpoint]
      exact List.cons_prefix_cons.mpr ⟨rfl, readCount_starts rest⟩
  · exact List.nil_prefix

/-- What follows the `%` of a directive. The precision includes its point, and the conversion is
a list of at most one character. -/
structure Directive where
  flags : List UInt8
  width : List UInt8
  precision : List UInt8
  modifier : Modifier
  conversion : List UInt8
  deriving DecidableEq, Repr

namespace Directive

def text (d : Directive) : List UInt8 :=
  d.flags ++ d.width ++ d.precision ++ d.modifier.text ++ d.conversion

def rewritten (d : Directive) : Directive := { d with modifier := d.modifier.rewritten }

theorem rewritten_text_length (d : Directive) :
    d.rewritten.text.length = d.flags.length + d.width.length + d.precision.length +
      d.modifier.rewritten.text.length + d.conversion.length := by
  simp only [rewritten, text, List.length_append]

def afterFlags (source : List UInt8) : List UInt8 :=
  source.drop (source.takeWhile isFlag).length

def afterWidth (source : List UInt8) : List UInt8 :=
  (afterFlags source).drop (readCount (afterFlags source)).length

def afterPrecision (source : List UInt8) : List UInt8 :=
  (afterWidth source).drop (readPrecision (afterWidth source)).length

def afterModifier (source : List UInt8) : List UInt8 :=
  (afterPrecision source).drop (Modifier.read (afterPrecision source)).text.length

/-- The directive at the start of `source` and what follows it. -/
def read (source : List UInt8) : Directive × List UInt8 :=
  (⟨source.takeWhile isFlag, readCount (afterFlags source), readPrecision (afterWidth source),
    Modifier.read (afterPrecision source), (afterModifier source).take 1⟩,
    (afterModifier source).drop 1)

section Read

variable {source rest : List UInt8} {d : Directive}

theorem read_modifier (hd : (read source).1 = d) :
    Modifier.read (afterPrecision source) = d.modifier := by
  rw [← hd]
  simp only [read]

theorem afterWidth_of_precision (hd : (read source).1 = d) :
    (d.precision = [] ∧ Modifier.read (afterWidth source) = d.modifier) ∨
      (0 < d.precision.length ∧ (afterWidth source).headD 0 = ch '.') := by
  rw [← read_modifier hd, ← hd]
  simp only [read, afterPrecision, readPrecision]
  split_ifs with hpoint
  · exact .inr ⟨by simp, hpoint⟩
  · exact .inl ⟨rfl, rfl⟩

theorem read_conversion (hd : (read source).1 = d) :
    ((afterPrecision source).drop d.modifier.text.length).take 1 = d.conversion := by
  rw [← read_modifier hd, ← hd]
  simp only [read, afterModifier]

theorem read_rest (hd : read source = (d, rest)) :
    ((afterPrecision source).drop d.modifier.text.length).drop 1 = rest := by
  have hsnd : (read source).2 = rest := by rw [hd]
  rw [← read_modifier (by rw [hd]), ← hsnd]
  simp only [read, afterModifier]

theorem rest_of_conversion (hd : read source = (d, rest)) (h : d.conversion = []) :
    rest = [] := by
  rw [← read_conversion (by rw [hd])] at h
  rw [← read_rest hd]
  rcases List.take_eq_nil_iff.mp h with h | h
  · cases h
  · rw [h, List.drop_nil]

theorem conversion_length (hd : (read source).1 = d) : d.conversion.length ≤ 1 := by
  rw [← read_conversion hd]
  exact List.length_take_le 1 _

/-- The parts of a directive and what follows are the source it was read from. -/
theorem read_split (hd : read source = (d, rest)) :
    source = d.flags ++ d.width ++ d.precision ++ afterPrecision source ∧
      afterPrecision source = d.modifier.text ++ (d.conversion ++ rest) := by
  have hfst : (read source).1 = d := by rw [hd]
  constructor
  · have hflags := List.prefix_append_drop (List.takeWhile_prefix isFlag (l := source))
    have hwidth := List.prefix_append_drop (readCount_starts (afterFlags source))
    have hprecision := List.prefix_append_drop (readPrecision_starts (afterWidth source))
    rw [← afterFlags] at hflags
    rw [← afterWidth] at hwidth
    rw [← afterPrecision] at hprecision
    rw [← hfst]
    simp only [read, List.append_assoc]
    rw [← hprecision, ← hwidth, ← hflags]
  · rw [← read_conversion hfst, ← read_rest hd, List.take_append_drop, ← read_modifier hfst]
    exact (List.prefix_append_drop (Modifier.read_starts _))

end Read

theorem read_length (source : List UInt8) : (read source).2.length ≤ source.length := by
  simp only [read, afterModifier, afterPrecision, afterWidth, afterFlags, List.length_drop]
  omega

end Directive

inductive Item
  | literal (b : UInt8)
  | percent
  | lonePercent
  | directive (d : Directive)
  deriving DecidableEq, Repr

namespace Item

def text : Item → List UInt8
  | literal b => [b]
  | percent => [ch '%', ch '%']
  | lonePercent => [ch '%']
  | directive d => ch '%' :: d.text

def translated : Item → List UInt8
  | directive d => ch '%' :: d.rewritten.text
  | item => item.text

def isNew : Item → Bool
  | directive d => d.modifier.isNew
  | _ => false

theorem translated_ne_nil (item : Item) : item.translated ≠ [] := by
  cases item <;> simp [translated, text]

end Item

def items (source : List UInt8) : List Item :=
  match source with
  | [] => []
  | b :: rest =>
    if b ≠ ch '%' then .literal b :: items rest
    else if rest = [] then [.lonePercent]
    else if rest.headD 0 = ch '%' then .percent :: items rest.tail
    else .directive (Directive.read rest).1 :: items (Directive.read rest).2
termination_by source.length
decreasing_by
  · simp
  · simp only [List.length_tail, List.length_cons]
    omega
  · have := Directive.read_length rest
    simp only [List.length_cons]
    omega

/-- The format with every length modifier of C99 replaced. -/
def translate (xs : List Item) : List UInt8 := xs.flatMap Item.translated

@[simp]
theorem translate_nil : translate [] = [] := rfl

@[simp]
theorem translate_cons (x : Item) (xs : List Item) :
    translate (x :: xs) = x.translated ++ translate xs := rfl

/-- `P` holds of one of the items at its offset in the translation, which starts at `o`. -/
def Somewhere (P : Item → ℕ → Prop) (xs : List Item) (o : ℕ) : Prop :=
  ∃ before x after, xs = before ++ x :: after ∧ P x (o + (translate before).length)

/-- `P` holds of the last item at its offset in the translation, which starts at `o`. -/
def AtEnd (P : Item → ℕ → Prop) (xs : List Item) (o : ℕ) : Prop :=
  ∃ before x, xs = before ++ [x] ∧ P x (o + (translate before).length)

section Places

variable {P : Item → ℕ → Prop} {x : Item} {xs : List Item} {o : ℕ}

theorem not_somewhere_nil : ¬ Somewhere P [] o := by
  rintro ⟨before, x, after, h, -⟩
  simp at h

theorem somewhere_cons :
    Somewhere P (x :: xs) o ↔ P x o ∨ Somewhere P xs (o + x.translated.length) := by
  constructor
  · rintro ⟨before, y, after, h, hy⟩
    cases before with
    | nil =>
      obtain ⟨rfl, rfl⟩ := List.cons.inj h
      exact .inl hy
    | cons z before =>
      obtain ⟨rfl, rfl⟩ := List.cons.inj h
      rw [translate_cons, List.length_append, ← Nat.add_assoc] at hy
      exact .inr ⟨before, y, after, rfl, hy⟩
  · rintro (h | ⟨before, y, after, rfl, hy⟩)
    · exact ⟨[], x, xs, rfl, h⟩
    · refine ⟨x :: before, y, after, rfl, ?_⟩
      rwa [translate_cons, List.length_append, ← Nat.add_assoc]

theorem atEnd_cons :
    AtEnd P (x :: xs) o ↔ xs = [] ∧ P x o ∨ AtEnd P xs (o + x.translated.length) := by
  constructor
  · rintro ⟨before, y, h, hy⟩
    cases before with
    | nil =>
      obtain ⟨rfl, rfl⟩ := List.cons.inj h
      exact .inl ⟨rfl, hy⟩
    | cons z before =>
      obtain ⟨rfl, rfl⟩ := List.cons.inj h
      rw [translate_cons, List.length_append, ← Nat.add_assoc] at hy
      exact .inr ⟨before, y, rfl, hy⟩
  · rintro (⟨rfl, h⟩ | ⟨before, y, rfl, hy⟩)
    · exact ⟨[], x, rfl, h⟩
    · refine ⟨x :: before, y, rfl, ?_⟩
      rwa [translate_cons, List.length_append, ← Nat.add_assoc]

theorem AtEnd.somewhere (h : AtEnd P xs o) : Somewhere P xs o := by
  obtain ⟨before, x, rfl, hx⟩ := h
  exact ⟨before, x, [], rfl, hx⟩

theorem not_somewhere_of_le {limit : ℕ} (hP : ∀ x o, P x o → o < limit) (h : limit ≤ o) :
    ¬ Somewhere P xs o := by
  rintro ⟨before, x, after, -, hx⟩
  have := hP _ _ hx
  omega

end Places

end Solcompat.Printf
