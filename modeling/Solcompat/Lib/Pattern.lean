import Mathlib.Data.List.Infix
import Mathlib.Tactic

/-!
# Basic regular expressions

Ordinary characters, `.`, `*` behind an element, `^` at the start and `$` at the end, as `grep` and
`sed` read them. Brackets and backslashes are not read; a text without any of these characters
stands for itself.
-/

namespace Solcompat.Lib.Pattern

/-- One element: a character or any character, once or any number of times. -/
structure Item where
  char : Option Char
  starred : Bool
  deriving DecidableEq

def Item.accepts (item : Item) (c : Char) : Bool := item.char.all (· = c)

def item (c : Char) (starred : Bool) : Item := ⟨if c = '.' then none else some c, starred⟩

/-- The elements, and whether the pattern ends with `$`. -/
def parseItems : List Char → List Item × Bool
  | [] => ([], false)
  | ['$'] => ([], true)
  | c :: '*' :: cs => (item c true :: (parseItems cs).1, (parseItems cs).2)
  | c :: cs => (item c false :: (parseItems cs).1, (parseItems cs).2)

/-- Any number of characters that `item` accepts, and `rest` behind them. -/
def star (item : Item) (rest : List Char → Bool) : List Char → Bool
  | [] => rest []
  | c :: cs => rest (c :: cs) || (item.accepts c && star item rest cs)

/-- The text begins with the elements, and ends with them if `atEnd` says so. -/
def matchHere (atEnd : Bool) : List Item → List Char → Bool
  | [], text => !atEnd || text.isEmpty
  | item :: items, text =>
    if item.starred then star item (matchHere atEnd items) text
    else
      match text with
      | [] => false
      | c :: cs => item.accepts c && matchHere atEnd items cs

def isMatch (pattern line : List Char) : Bool :=
  match pattern with
  | '^' :: cs => matchHere (parseItems cs).2 (parseItems cs).1 line
  | cs => line.tails.any (matchHere (parseItems cs).2 (parseItems cs).1)

def special : List Char := ['.', '*', '$', '^', '[', '\\']

def Plain (text : List Char) : Prop := ∀ c ∈ text, c ∉ special

/-- The characters of the text are looked at, not all characters. -/
instance decidablePlain (text : List Char) : Decidable (Plain text) :=
  List.decidableBAll (fun c => c ∉ special) text

def literal (c : Char) : Item := ⟨some c, false⟩

section Literals

variable {atEnd : Bool} {c : Char} {text pattern rest line : List Char}

theorem ne_of_not_special (h : c ∉ special) : c ≠ '.' ∧ c ≠ '*' ∧ c ≠ '$' := by
  simp only [special, List.mem_cons, not_or] at h
  exact ⟨h.1, h.2.1, h.2.2.1⟩

theorem plain_cons : Plain (c :: text) ↔ c ∉ special ∧ Plain text := List.forall_mem_cons

theorem Plain.append (h : Plain text) (hrest : Plain rest) : Plain (text ++ rest) :=
  List.forall_mem_append.mpr ⟨h, hrest⟩

theorem parseItems_cons (hc : c ≠ '$') (h : text.head? ≠ some '*') :
    parseItems (c :: text) = (item c false :: (parseItems text).1, (parseItems text).2) := by
  cases text with
  | nil => simp [parseItems, hc]
  | cons d text =>
    have hd : d ≠ '*' := fun heq => h (congrArg some heq)
    simp [parseItems, hd]

theorem parseItems_plain (h : Plain text) (hrest : rest.head? ≠ some '*') :
    parseItems (text ++ rest) =
      (text.map literal ++ (parseItems rest).1, (parseItems rest).2) := by
  induction text with
  | nil => rfl
  | cons c text ih =>
    rw [plain_cons] at h
    obtain ⟨hdot, -, hdollar⟩ := ne_of_not_special h.1
    have hitem : item c false = literal c := by rw [item, if_neg hdot, literal]
    have hhead : (text ++ rest).head? ≠ some '*' := by
      cases text with
      | nil => exact hrest
      | cons d text =>
        have hd := ne_of_not_special (plain_cons.mp h.2).1
        exact fun heq => hd.2.1 (Option.some.inj heq)
    rw [List.cons_append, parseItems_cons hdollar hhead, ih h.2, hitem]
    rfl

theorem parseItems_text (h : Plain text) :
    parseItems text = (text.map literal, false) := by
  have hnil : ([] : List Char).head? ≠ some '*' := (Option.some_ne_none _).symm
  have hparse := parseItems_plain h hnil
  rwa [List.append_nil, parseItems, List.append_nil] at hparse

theorem matchHere_literal (items : List Item) :
    matchHere atEnd (text.map literal ++ items) line = true ↔
      ∃ tail, line = text ++ tail ∧ matchHere atEnd items tail = true := by
  induction text generalizing line with
  | nil => simp
  | cons c text ih =>
    cases line with
    | nil => simp [matchHere, literal]
    | cons d line =>
      simp only [List.map_cons, List.cons_append, matchHere, literal, Bool.false_eq_true, if_false,
        Item.accepts, Option.all_some, Bool.and_eq_true, decide_eq_true_eq, List.cons.injEq]
      constructor
      · rintro ⟨rfl, h⟩
        obtain ⟨tail, rfl, htail⟩ := ih.mp h
        exact ⟨tail, ⟨rfl, rfl⟩, htail⟩
      · rintro ⟨tail, ⟨rfl, rfl⟩, htail⟩
        exact ⟨rfl, ih.mpr ⟨tail, rfl, htail⟩⟩

theorem matchHere_starred {i : Item} (h : i.starred = true) {items : List Item} :
    matchHere atEnd (i :: items) line = star i (matchHere atEnd items) line := by
  cases line <;> rw [matchHere.eq_def] <;> exact if_pos h

theorem star_any {accept : List Char → Bool} :
    star (item '.' true) accept line = true ↔ ∃ tail, tail <:+ line ∧ accept tail = true := by
  induction line with
  | nil => simp [star]
  | cons c line ih =>
    rw [star, Bool.or_eq_true, Bool.and_eq_true, ih]
    constructor
    · rintro (h | ⟨-, tail, hsuffix, h⟩)
      · exact ⟨c :: line, List.suffix_rfl, h⟩
      · exact ⟨tail, hsuffix.trans (List.suffix_cons c line), h⟩
    · rintro ⟨tail, hsuffix, h⟩
      rcases List.suffix_cons_iff.mp hsuffix with rfl | hrest
      · exact Or.inl h
      · exact Or.inr ⟨rfl, tail, hrest, h⟩

end Literals

section Anchored

variable {text back line : List Char}

theorem isMatch_start (h : Plain text) :
    isMatch ('^' :: text) line = true ↔ text <+: line := by
  rw [isMatch, parseItems_text h, ← List.append_nil (text.map literal), matchHere_literal]
  constructor
  · rintro ⟨tail, rfl, -⟩
    exact List.prefix_append _ _
  · rintro ⟨tail, rfl⟩
    exact ⟨tail, rfl, rfl⟩

theorem isMatch_whole (h : Plain text) :
    isMatch ('^' :: (text ++ ['$'])) line = true ↔ line = text := by
  rw [isMatch, parseItems_plain h (by decide), matchHere_literal]
  constructor
  · rintro ⟨tail, rfl, htail⟩
    have hnil : tail = [] := by simpa [parseItems, matchHere] using htail
    rw [hnil, List.append_nil]
  · rintro rfl
    exact ⟨[], (List.append_nil _).symm, rfl⟩

theorem isMatch_gap (h : Plain text) (hback : Plain back) :
    isMatch ('^' :: (text ++ '.' :: '*' :: back)) line = true ↔
      ∃ tail, line = text ++ tail ∧ back <:+: tail := by
  have hgap : parseItems ('.' :: '*' :: back) = (item '.' true :: back.map literal, false) := by
    rw [parseItems, parseItems_text hback]
  have hhead : ('.' :: '*' :: back).head? ≠ some '*' := by
    rw [List.head?_cons]
    decide
  rw [isMatch, parseItems_plain h hhead, matchHere_literal, hgap]
  have hstar : ∀ tail, matchHere false (item '.' true :: back.map literal) tail = true ↔
      back <:+: tail := by
    intro tail
    rw [matchHere_starred rfl, star_any]
    constructor
    · rintro ⟨t, hsuffix, ht⟩
      rw [← List.append_nil (back.map literal), matchHere_literal] at ht
      obtain ⟨rest, rfl, -⟩ := ht
      exact (List.prefix_append back rest).isInfix.trans hsuffix.isInfix
    · rintro ⟨front, rest, rfl⟩
      refine ⟨back ++ rest, ⟨front, (List.append_assoc _ _ _).symm⟩, ?_⟩
      rw [← List.append_nil (back.map literal), matchHere_literal]
      exact ⟨rest, rfl, rfl⟩
  simp only [hstar]

end Anchored

end Solcompat.Lib.Pattern
