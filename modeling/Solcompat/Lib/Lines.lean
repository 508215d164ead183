import Mathlib.Data.List.Infix
import Mathlib.Tactic

/-!
# Texts and their lines

The lines of a text keep their newlines, so that a text is its lines one behind the other; only the
last may lack its newline. Editors and filters look at the contents, without the newline. A text is
ended if another text can stand behind it without joining a line.
-/

namespace Solcompat.Lib.Lines

abbrev Text := List Char

/-- The lines, each with its newline. -/
def lines : Text → List Text
  | [] => []
  | c :: cs =>
    if c = '\n' then [c] :: lines cs
    else
      match lines cs with
      | [] => [[c]]
      | l :: ls => (c :: l) :: ls

/-- A line without its newline. -/
def content (l : Text) : Text := if l.getLast? = some '\n' then l.dropLast else l

def contents (text : Text) : List Text := (lines text).map content

/-- No line is left open. -/
def Ended (text : Text) : Prop := text = [] ∨ text.getLast? = some '\n'

instance (text : Text) : Decidable (Ended text) := inferInstanceAs (Decidable (_ ∨ _))

section Splitting

variable {a b l : Text}

theorem lines_cons_ne {c : Char} (hc : c ≠ '\n') (cs : Text) :
    lines (c :: cs) = (c :: (lines cs).headD []) :: (lines cs).tail := by
  rw [lines, if_neg hc]
  cases lines cs <;> rfl

theorem lines_ne_nil (h : a ≠ []) : lines a ≠ [] := by
  obtain ⟨c, cs, rfl⟩ := List.exists_cons_of_ne_nil h
  by_cases hc : c = '\n'
  · rw [lines, if_pos hc]
    exact List.cons_ne_nil _ _
  · rw [lines_cons_ne hc]
    exact List.cons_ne_nil _ _

@[simp] theorem flatten_lines (text : Text) : (lines text).flatten = text := by
  induction text with
  | nil => rfl
  | cons c cs ih =>
    by_cases hc : c = '\n'
    · rw [lines, if_pos hc, List.flatten_cons, ih, List.singleton_append]
    · rw [lines_cons_ne hc, List.flatten_cons]
      cases hlines : lines cs with
      | nil =>
        rw [hlines] at ih
        rw [← ih]
        rfl
      | cons l ls =>
        rw [hlines, List.flatten_cons] at ih
        rw [← ih]
        rfl

theorem Ended.of_cons {c : Char} (h : Ended (c :: a)) : Ended a := by
  rcases h with h | h
  · exact absurd h (List.cons_ne_nil _ _)
  · cases a with
    | nil => exact Or.inl rfl
    | cons d a => exact Or.inr (by rwa [List.getLast?_cons_cons] at h)

theorem lines_append (h : Ended a) (b : Text) : lines (a ++ b) = lines a ++ lines b := by
  induction a with
  | nil => rfl
  | cons c cs ih =>
    have hrest : lines (cs ++ b) = lines cs ++ lines b := ih h.of_cons
    by_cases hc : c = '\n'
    · rw [List.cons_append, lines, lines, if_pos hc, if_pos hc, hrest, List.cons_append]
    · have hne : cs ≠ [] := by
        rintro rfl
        rcases h with h | h
        · exact absurd h (List.cons_ne_nil _ _)
        · exact hc (by simpa using h)
      obtain ⟨l, ls, hlines⟩ := List.exists_cons_of_ne_nil (lines_ne_nil hne)
      rw [List.cons_append, lines_cons_ne hc, lines_cons_ne hc, hrest, hlines]
      rfl

theorem contents_append (h : Ended a) (b : Text) :
    contents (a ++ b) = contents a ++ contents b := by
  rw [contents, lines_append h, List.map_append, contents, contents]

theorem lines_open (h : '\n' ∉ l) (hl : l ≠ []) : lines l = [l] := by
  induction l with
  | nil => exact absurd rfl hl
  | cons c cs ih =>
    rw [List.mem_cons, not_or] at h
    rw [lines_cons_ne (Ne.symm h.1)]
    by_cases hcs : cs = []
    · subst hcs
      rfl
    · rw [ih h.2 hcs]
      rfl

theorem lines_newline (h : '\n' ∉ l) : lines (l ++ ['\n']) = [l ++ ['\n']] := by
  induction l with
  | nil => rfl
  | cons c cs ih =>
    rw [List.mem_cons, not_or] at h
    rw [List.cons_append, lines_cons_ne (Ne.symm h.1), ih h.2]
    rfl

theorem content_newline (l : Text) : content (l ++ ['\n']) = l := by
  rw [content, if_pos List.getLast?_concat, List.dropLast_concat]

theorem content_of_notMem (h : '\n' ∉ l) : content l = l := by
  rw [content, if_neg fun hlast => h (List.mem_of_getLast? hlast)]

theorem lines_line (h : '\n' ∉ l) (hl : l ≠ []) (newline : Bool) :
    lines (l ++ if newline then ['\n'] else []) = [l ++ if newline then ['\n'] else []] := by
  cases newline with
  | true => exact lines_newline h
  | false =>
    rw [if_neg Bool.false_ne_true, List.append_nil]
    exact lines_open h hl

theorem content_line (h : '\n' ∉ l) (newline : Bool) :
    content (l ++ if newline then ['\n'] else []) = l := by
  cases newline with
  | true => exact content_newline l
  | false =>
    rw [if_neg Bool.false_ne_true, List.append_nil]
    exact content_of_notMem h

theorem ended_append (ha : a ≠ []) (h : Ended a) (b : Text) : Ended (b ++ a) := by
  rcases h with h | h
  · exact absurd h ha
  · refine Or.inr ?_
    rw [List.getLast?_append, h, Option.some_or]

theorem ended_newline (l : Text) : Ended (l ++ ['\n']) := Or.inr List.getLast?_concat

theorem exists_open (text : Text) : ∃ a l, text = a ++ l ∧ Ended a ∧ '\n' ∉ l := by
  induction text with
  | nil => exact ⟨[], [], rfl, Or.inl rfl, List.not_mem_nil⟩
  | cons c cs ih =>
    obtain ⟨a, l, rfl, ha, hl⟩ := ih
    by_cases hnil : a = []
    · subst hnil
      by_cases hc : c = '\n'
      · subst hc
        exact ⟨['\n'], l, rfl, Or.inr rfl, hl⟩
      · refine ⟨[], c :: l, rfl, Or.inl rfl, ?_⟩
        rw [List.mem_cons, not_or]
        exact ⟨Ne.symm hc, hl⟩
    · exact ⟨c :: a, l, rfl, ended_append hnil ha [c], hl⟩

theorem contents_append_newline (a b : Text) :
    ∃ blank, (∀ line ∈ blank, line = []) ∧
      contents (a ++ '\n' :: b) = contents a ++ blank ++ contents b := by
  obtain ⟨front, l, rfl, hfront, hl⟩ := exists_open a
  have hsplit : front ++ l ++ '\n' :: b = front ++ ((l ++ ['\n']) ++ b) := by
    simp only [List.append_assoc, List.singleton_append]
  have hline : contents (l ++ ['\n']) = [l] := by
    rw [contents, lines_newline hl, List.map_singleton, content_newline]
  rw [hsplit, contents_append hfront, contents_append hfront, contents_append (ended_newline l),
    hline]
  by_cases hnil : l = []
  · subst hnil
    refine ⟨[[]], fun line hmem => List.mem_singleton.mp hmem, ?_⟩
    simp [contents, lines]
  · have hopen : contents l = [l] := by
      rw [contents, lines_open hl hnil, List.map_singleton, content_of_notMem hl]
    refine ⟨[], fun line hmem => absurd hmem List.not_mem_nil, ?_⟩
    rw [hopen, List.append_nil, List.append_assoc]

end Splitting

end Solcompat.Lib.Lines
