import Solcompat.Lib.Lines

/-!
# Printed lines

A filter reads the contents of the lines of a text and prints lines, each with a newline behind it.
What it prints is ended, and reads as the lines that were printed.
-/

namespace Solcompat.Lib.Lines

/-- The lines one behind the other, each with its newline. -/
def printed (ls : List Text) : Text := ls.flatMap fun l => l ++ ['\n']

section

variable {l text : Text} {ls : List Text}

@[simp] theorem printed_nil : printed [] = [] := rfl

@[simp] theorem printed_cons (l : Text) (ls : List Text) :
    printed (l :: ls) = l ++ '\n' :: printed ls := by
  rw [printed, List.flatMap_cons, ← printed, List.append_assoc, List.singleton_append]

theorem printed_append (ls ls' : List Text) : printed (ls ++ ls') = printed ls ++ printed ls' :=
  List.flatMap_append

theorem ended_printed (ls : List Text) : Ended (printed ls) := by
  induction ls with
  | nil => exact .inl rfl
  | cons l ls ih =>
    have hline : Ended (l ++ ['\n']) := ended_newline l
    rw [printed, List.flatMap_cons, ← printed]
    by_cases hnil : printed ls = []
    · rw [hnil, List.append_nil]
      exact hline
    · exact ended_append hnil ih _

theorem contents_printed (h : ∀ l ∈ ls, '\n' ∉ l) : contents (printed ls) = ls := by
  induction ls with
  | nil => rfl
  | cons l ls ih =>
    rw [List.forall_mem_cons] at h
    have hline : contents (l ++ ['\n']) = [l] := by
      rw [contents, lines_newline h.1, List.map_singleton, content_newline]
    rw [printed, List.flatMap_cons, ← printed, contents_append (ended_newline l), hline, ih h.2,
      List.singleton_append]

theorem content_cons (hl : l ≠ []) (c : Char) : content (c :: l) = c :: content l := by
  obtain ⟨d, l, rfl⟩ := List.exists_cons_of_ne_nil hl
  simp only [content, List.getLast?_cons_cons]
  split_ifs <;> rfl

theorem ne_nil_of_mem_lines (h : l ∈ lines text) : l ≠ [] := by
  induction text generalizing l with
  | nil => exact absurd h List.not_mem_nil
  | cons c cs ih =>
    by_cases hc : c = '\n'
    · rw [lines, if_pos hc] at h
      rcases List.mem_cons.mp h with rfl | hrest
      · exact List.cons_ne_nil _ _
      · exact ih hrest
    · rw [lines_cons_ne hc] at h
      rcases List.mem_cons.mp h with rfl | hrest
      · exact List.cons_ne_nil _ _
      · exact ih (List.mem_of_mem_tail hrest)

theorem contents_newline (cs : Text) : contents ('\n' :: cs) = [] :: contents cs := rfl

theorem contents_cons_ne {c : Char} (hc : c ≠ '\n') (cs : Text) :
    contents (c :: cs) = (c :: (contents cs).headD []) :: (contents cs).tail := by
  rw [contents, contents, lines_cons_ne hc]
  cases hlines : lines cs with
  | nil =>
    have hopen : content [c] = [c] := content_of_notMem (by simpa using Ne.symm hc)
    exact congrArg (fun l => [l]) hopen
  | cons l ls =>
    have hl : l ≠ [] := ne_nil_of_mem_lines (hlines ▸ List.mem_cons_self)
    rw [List.headD_cons, List.tail_cons, List.map_cons, content_cons hl]
    rfl

theorem newline_notMem_contents (h : l ∈ contents text) : '\n' ∉ l := by
  induction text generalizing l with
  | nil => exact absurd h List.not_mem_nil
  | cons c cs ih =>
    by_cases hc : c = '\n'
    · subst hc
      rcases List.mem_cons.mp h with rfl | hrest
      · exact List.not_mem_nil
      · exact ih hrest
    · rw [contents_cons_ne hc] at h
      rcases List.mem_cons.mp h with rfl | hrest
      · rw [List.mem_cons, not_or]
        refine ⟨Ne.symm hc, ?_⟩
        cases hcontents : contents cs with
        | nil => exact List.not_mem_nil
        | cons l ls =>
          have hmem : l ∈ contents cs := by simp [hcontents]
          exact ih hmem
      · exact ih (List.mem_of_mem_tail hrest)

theorem printed_contents (h : Ended text) : printed (contents text) = text := by
  induction text with
  | nil => rfl
  | cons c cs ih =>
    have hrest := ih h.of_cons
    by_cases hc : c = '\n'
    · subst hc
      rw [contents_newline, printed_cons, hrest, List.nil_append]
    · have hne : cs ≠ [] := by
        rintro rfl
        rcases h with h | h
        · exact absurd h (List.cons_ne_nil _ _)
        · exact hc (by simpa using h)
      rw [contents_cons_ne hc, printed_cons, List.cons_append]
      cases hcontents : contents cs with
      | nil =>
        rw [hcontents] at hrest
        exact absurd hrest.symm hne
      | cons l ls =>
        rw [hcontents, printed_cons] at hrest
        exact congrArg _ hrest

theorem mem_contents_line (hl : '\n' ∉ l) {line : Text} (h : line ∈ contents l) : line = l := by
  by_cases hnil : l = []
  · subst hnil
    exact absurd h List.not_mem_nil
  · rw [contents, lines_open hl hnil, List.map_singleton, content_of_notMem hl] at h
    exact List.mem_singleton.mp h

theorem contents_printed_cons (l : Text) (ls : List Text) :
    ∃ blank, (∀ line ∈ blank, line = []) ∧
      contents (printed (l :: ls)) = contents l ++ blank ++ contents (printed ls) := by
  rw [printed_cons]
  exact contents_append_newline l (printed ls)

theorem mem_contents_printed {line : Text} (h : line ∈ contents (printed ls)) :
    line = [] ∨ ∃ l ∈ ls, line ∈ contents l := by
  induction ls with
  | nil => exact absurd h List.not_mem_nil
  | cons l ls ih =>
    obtain ⟨blank, hblank, hcontents⟩ := contents_printed_cons l ls
    rw [hcontents, List.mem_append, List.mem_append] at h
    rcases h with (h | h) | h
    · exact .inr ⟨l, List.mem_cons_self, h⟩
    · exact .inl (hblank line h)
    · rcases ih h with hnil | ⟨l', hl', hline⟩
      · exact .inl hnil
      · exact .inr ⟨l', List.mem_cons_of_mem _ hl', hline⟩

theorem mem_contents_printed_of_mem (hl : '\n' ∉ l) (h : l ∈ ls) : l ∈ contents (printed ls) := by
  obtain ⟨front, back, rfl⟩ := List.append_of_mem h
  have hline : contents (l ++ ['\n']) = [l] := by
    rw [contents, lines_newline hl, List.map_singleton, content_newline]
  have hsplit : printed (l :: back) = (l ++ ['\n']) ++ printed back := by
    rw [printed_cons, List.append_assoc, List.singleton_append]
  rw [printed_append, hsplit, contents_append (ended_printed _), contents_append (ended_newline l),
    hline]
  exact List.mem_append_right _ (List.mem_append_left _ (List.mem_singleton_self l))

theorem infix_of_mem_contents (h : l ∈ contents text) : l <:+: text := by
  obtain ⟨line, hline, rfl⟩ := List.mem_map.mp h
  have hcontent : content line <+: line := by
    rw [content]
    split_ifs
    · exact List.dropLast_prefix line
    · exact List.prefix_rfl
  rw [← flatten_lines text]
  exact hcontent.isInfix.trans (List.infix_of_mem_flatten hline)

theorem prefix_contents {w : Text} (hw : '\n' ∉ w) (h : w <+: text) :
    w <+: (contents text).headD [] := by
  induction text generalizing w with
  | nil => exact h
  | cons c cs ih =>
    cases w with
    | nil => exact List.nil_prefix
    | cons d w =>
      obtain ⟨rfl, hrest⟩ := List.cons_prefix_cons.mp h
      rw [List.mem_cons, not_or] at hw
      rw [contents_cons_ne (Ne.symm hw.1), List.headD_cons, List.cons_prefix_cons]
      exact ⟨rfl, ih hw.2 hrest⟩

theorem infix_contents {w : Text} (hnil : w ≠ []) (hw : '\n' ∉ w) (h : w <:+: text) :
    ∃ l ∈ contents text, w <:+: l := by
  induction text with
  | nil => exact absurd (List.infix_nil.mp h) hnil
  | cons c cs ih =>
    rcases List.infix_cons_iff.mp h with hprefix | hrest
    · have hhead := prefix_contents hw hprefix
      cases hcontents : contents (c :: cs) with
      | nil =>
        rw [hcontents] at hhead
        exact absurd (List.prefix_nil.mp hhead) hnil
      | cons l ls =>
        rw [hcontents] at hhead
        exact ⟨l, List.mem_cons_self, hhead.isInfix⟩
    · obtain ⟨l, hl, hwithin⟩ := ih hrest
      by_cases hc : c = '\n'
      · subst hc
        exact ⟨l, List.mem_cons_of_mem _ hl, hwithin⟩
      · rw [contents_cons_ne hc]
        cases hcontents : contents cs with
        | nil => exact absurd (hcontents ▸ hl) List.not_mem_nil
        | cons l' ls =>
          rcases List.mem_cons.mp (hcontents ▸ hl) with rfl | hmem
          · exact ⟨c :: l, List.mem_cons_self, hwithin.trans (List.suffix_cons c l).isInfix⟩
          · exact ⟨l, List.mem_cons_of_mem _ hmem, hwithin⟩

end

end Solcompat.Lib.Lines
