import Mathlib.Data.List.Basic
import Mathlib.Tactic

/-!
# Conditional inclusion

A reader goes over lines, some of which are directives that open, continue and close conditional
groups. The lines of selected groups are read, and each may change what later conditions come to.
A rewriting of the lines keeps what is read if each line keeps its kind and its condition; notes
that the reader passes over may come in.
-/

namespace Solcompat.Lib.Conditional

inductive Kind
  | opening
  /-- `#elif` -/
  | elif
  /-- `#else` -/
  | alternative
  | closing
  | text
  deriving DecidableEq

/-- How lines are read. The state is what reading leaves behind. -/
structure Reader (L σ : Type*) where
  kind : L → Kind
  read : σ → L → σ
  /-- Whether the condition of a directive holds. -/
  holds : σ → L → Bool

/-- An open conditional: whether it stands in a selected group, whether one of its groups has been
selected so far, and whether the present one is. -/
structure Frame where
  enclosing : Bool
  taken : Bool
  selected : Bool

/-- Whether lines are selected inside of these conditionals, the innermost first. -/
def live : List Frame → Bool
  | [] => true
  | f :: _ => f.selected

/-- The open conditionals behind a directive. -/
def next (kind : Kind) (condition : Bool) : List Frame → List Frame
  | frames =>
    match kind, frames with
    | .opening, frames => ⟨live frames, condition, live frames && condition⟩ :: frames
    | .elif, f :: frames =>
      ⟨f.enclosing, f.taken || condition, f.enclosing && !f.taken && condition⟩ :: frames
    | .alternative, f :: frames => ⟨f.enclosing, true, f.enclosing && !f.taken⟩ :: frames
    | .closing, _ :: frames => frames
    | _, frames => frames

variable {L σ : Type*}

/-- The lines that are read. -/
def select (r : Reader L σ) : List Frame → σ → List L → List L
  | _, _, [] => []
  | frames, s, l :: ls =>
    if r.kind l = .text then
      if live frames then l :: select r frames (r.read s l) ls else select r frames s ls
    else select r (next (r.kind l) (r.holds s l) frames) s ls

section

variable {r r' : Reader L σ} {l : L} {ls notes : List L} {frames : List Frame} {s : σ}

theorem select_selected (hkind : r.kind l = .text) (hlive : live frames = true) :
    select r frames s (l :: ls) = l :: select r frames (r.read s l) ls := by
  rw [select, if_pos hkind, if_pos hlive]

theorem select_skipped (hkind : r.kind l = .text) (hlive : ¬ live frames = true) :
    select r frames s (l :: ls) = select r frames s ls := by
  rw [select, if_pos hkind, if_neg hlive]

theorem select_directive (hkind : r.kind l ≠ .text) :
    select r frames s (l :: ls) = select r (next (r.kind l) (r.holds s l) frames) s ls := by
  rw [select, if_neg hkind]

/-- What a line may be replaced by: notes that the reader passes over, and a line of its kind, the
same if it is text, and with its condition if it is a directive. -/
structure Replaces (r r' : Reader L σ) (note : L → Bool) (l : L) (notes : List L) (l' : L) :
    Prop where
  notes_note : ∀ x ∈ notes, note x = true ∧ r'.kind x = .text ∧ ∀ s, r'.read s x = s
  kind : r'.kind l' = r.kind l
  text : r.kind l = .text → l' = l ∧ ∀ s, r'.read s l = r.read s l
  condition : r.kind l ≠ .text → ∀ s, r'.holds s l' = r.holds s l

variable {note : L → Bool}

theorem select_notes (h : ∀ x ∈ notes, note x = true ∧ r.kind x = .text ∧ ∀ s, r.read s x = s)
    (ls : List L) :
    (select r frames s (notes ++ ls)).filter (fun x => !note x) =
      (select r frames s ls).filter (fun x => !note x) := by
  induction notes with
  | nil => rfl
  | cons x notes ih =>
    rw [List.forall_mem_cons] at h
    obtain ⟨⟨hnote, hkind, hread⟩, hrest⟩ := h
    by_cases hlive : live frames = true
    · rw [List.cons_append, select_selected hkind hlive, hread, List.filter_cons_of_neg, ih hrest]
      simp [hnote]
    · rw [List.cons_append, select_skipped hkind hlive, ih hrest]

/-- The new reader reads the rewritten lines as the old one reads the lines, apart from notes. -/
theorem select_flatMap {notesOf : L → List L} {image : L → L}
    (h : ∀ l ∈ ls, Replaces r r' note l (notesOf l) (image l)) (frames : List Frame) (s : σ) :
    (select r' frames s (ls.flatMap fun l => notesOf l ++ [image l])).filter (fun x => !note x) =
      (select r frames s ls).filter (fun x => !note x) := by
  induction ls generalizing frames s with
  | nil => rfl
  | cons l ls ih =>
    rw [List.forall_mem_cons] at h
    obtain ⟨hl, hrest⟩ := h
    rw [List.flatMap_cons, List.append_assoc, select_notes hl.notes_note, List.singleton_append]
    by_cases hkind : r.kind l = .text
    · obtain ⟨himage, hread⟩ := hl.text hkind
      have hkind' : r'.kind (image l) = .text := hl.kind.trans hkind
      rw [himage] at hkind' ⊢
      by_cases hlive : live frames = true
      · rw [select_selected hkind hlive, select_selected hkind' hlive, hread, List.filter_cons,
          List.filter_cons, ih hrest]
      · rw [select_skipped hkind hlive, select_skipped hkind' hlive, ih hrest]
    · have hkind' : r'.kind (image l) ≠ .text := fun h => hkind (hl.kind ▸ h)
      rw [select_directive hkind, select_directive hkind', hl.kind, hl.condition hkind, ih hrest]

end

end Solcompat.Lib.Conditional
