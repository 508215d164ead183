import Solcompat.Install.Model

/-!
# Runs of the append step

Between two runs the target is the header, the comments of all versions so far, each behind a
newline, and the block of the last one. No line in front of the block opens the guard, so the range
that the next run deletes is the block, and the new comment and block take its place.
-/

namespace Solcompat.Install

open Lib Lines

variable {g : Guard}

theorem Word.plain {text : Text} (h : Word text) : Pattern.Plain text := by
  intro c hc hmem
  have hword := h c hc
  simp only [Pattern.special, List.mem_cons, List.not_mem_nil, or_false] at hmem
  rcases hmem with rfl | rfl | rfl | rfl | rfl | rfl <;> exact absurd hword (by decide)

theorem Guard.plain_name (g : Guard) : Pattern.Plain g.name := by
  have hfixed : Pattern.Plain "_SOLCOMPAT_".toList := by decide
  exact hfixed.append g.word.plain

theorem Guard.plain_opening (g : Guard) : Pattern.Plain g.opening := by
  have hfixed : Pattern.Plain "#ifndef ".toList := by decide
  exact hfixed.append g.plain_name

theorem isMatch_start {line : Text} :
    Pattern.isMatch ("^#ifndef ".toList ++ g.name ++ "$".toList) line = true ↔
      line = g.opening :=
  Pattern.isMatch_whole g.plain_opening

/-- A text does not begin inside of another one that lacks its first character. -/
theorem infix_append_iff {c : Char} {text front back : Text} (h : c ∉ front) :
    c :: text <:+: front ++ back ↔ c :: text <:+: back := by
  induction front with
  | nil => rfl
  | cons d front ih =>
    rw [List.mem_cons, not_or] at h
    rw [List.cons_append, List.infix_cons_iff, ih h.2, List.cons_prefix_cons]
    exact or_iff_right fun hprefix => h.1 hprefix.1

theorem isMatch_stop (line : Text) :
    Pattern.isMatch ("^#endif.*".toList ++ g.name) line = g.closes line := by
  have hplain : Pattern.Plain "#endif".toList := by decide
  have hname : g.name = '_' :: ("SOLCOMPAT_".toList ++ g.suffix) := rfl
  have hgap : Pattern.isMatch ("^#endif.*".toList ++ g.name) line = true ↔
      ∃ tail, line = "#endif".toList ++ tail ∧ g.name <:+: tail :=
    Pattern.isMatch_gap hplain g.plain_name
  rw [Bool.eq_iff_iff, hgap, Guard.closes, Bool.and_eq_true, List.isPrefixOf_iff_prefix,
    decide_eq_true_eq]
  constructor
  · rintro ⟨tail, rfl, htail⟩
    exact ⟨List.prefix_append _ _, htail.trans (List.suffix_append _ _).isInfix⟩
  · rintro ⟨⟨tail, rfl⟩, htail⟩
    refine ⟨tail, rfl, ?_⟩
    rw [hname] at htail ⊢
    exact (infix_append_iff (by decide)).mp htail

theorem Guard.opening_line (g : Guard) : '\n' ∉ g.opening := by
  intro hmem
  rcases List.mem_append.mp hmem with hfront | hname
  · exact absurd hfront (by decide)
  · rcases List.mem_append.mp hname with hfixed | hsuffix
    · exact absurd hfixed (by decide)
    · exact absurd (g.word _ hsuffix) (by decide)

theorem Guard.prefix_opening (g : Guard) : "#ifndef _SOLCOMPAT_".toList <+: g.opening :=
  ⟨g.suffix, rfl⟩

namespace Version

variable (v : Version g)

theorem closing_ne_nil : v.closing ≠ [] := by
  intro hnil
  have hcloses := v.layout.closing_closes
  rw [hnil] at hcloses
  exact absurd hcloses Bool.false_ne_true

theorem lines_block :
    lines v.block = (g.opening ++ "\n".toList) ::
      (lines v.body ++ [v.closing ++ if v.newline then ['\n'] else []]) := by
  have hfirst : lines (g.opening ++ "\n".toList) = [g.opening ++ "\n".toList] :=
    lines_newline g.opening_line
  have hended : Ended (g.opening ++ "\n".toList) := ended_newline g.opening
  rw [block, List.append_assoc, lines_append hended, lines_append v.layout.body_ended, hfirst,
    lines_line v.layout.closing_line v.closing_ne_nil, List.singleton_append]

theorem content_closing : content (v.closing ++ if v.newline then ['\n'] else []) = v.closing :=
  content_line v.layout.closing_line v.newline

theorem contents_block :
    contents v.block = g.opening :: (contents v.body ++ [v.closing]) := by
  have hfirst : content (g.opening ++ "\n".toList) = g.opening := content_newline g.opening
  rw [contents, lines_block, List.map_cons, hfirst, List.map_append, List.map_singleton,
    content_closing, contents]

end Version

theorem removeFirst_append {c : Char} (text back : Text) :
    removeFirst (c :: text) (c :: text ++ back) = back := by
  have hprefix : (c :: text).isPrefixOf (c :: text ++ back) = true :=
    List.isPrefixOf_iff_prefix.mpr (List.prefix_append _ _)
  rw [List.cons_append] at hprefix ⊢
  rw [removeFirst, if_pos hprefix, ← List.cons_append, List.drop_left]

theorem guardOf_text (v : Version g) : guardOf v.text = g.name := by
  have hplain : Pattern.Plain "#ifndef _SOLCOMPAT_".toList := by decide
  have hmatch : ∀ line, Pattern.isMatch "^#ifndef _SOLCOMPAT_".toList line = true ↔
      "#ifndef _SOLCOMPAT_".toList <+: line := fun line => Pattern.isMatch_start hplain
  have hcomment : (contents v.comment).filter
      (Pattern.isMatch "^#ifndef _SOLCOMPAT_".toList) = [] := by
    rw [List.filter_eq_nil_iff]
    intro line hline
    rw [hmatch]
    exact v.layout.noDirective line hline
  have hopening : Pattern.isMatch "^#ifndef _SOLCOMPAT_".toList g.opening = true :=
    (hmatch _).mpr g.prefix_opening
  rw [guardOf, grep, Version.text, contents_append v.layout.comment_ended, List.filter_append,
    hcomment, List.nil_append, v.contents_block, List.filter_cons_of_pos hopening, List.headD_cons]
  exact removeFirst_append _ g.name

theorem appendStep_unopened (v : Version g) {target : Text}
    (h : ∀ line ∈ contents target, line ≠ g.opening) :
    appendStep v.text (some target) = target ++ '\n' :: v.comment ++ v.block := by
  have hgrep : grep ("^#ifndef ".toList ++ g.name ++ "$".toList) target = [] := by
    rw [grep, List.filter_eq_nil_iff]
    intro line hline
    rw [isMatch_start]
    exact h line hline
  rw [appendStep, guardOf_text]
  rw [if_neg fun hboth => hboth.2 hgrep, Version.text]
  simp only [List.append_assoc, List.cons_append]
  rfl

theorem sedDelete_block (u : Version g) {front : Text} (hended : Ended front)
    (h : ∀ line ∈ contents front, line ≠ g.opening) :
    sedDelete ("^#ifndef ".toList ++ g.name ++ "$".toList) ("^#endif.*".toList ++ g.name)
      (front ++ u.block) = front := by
  have hfirst : content (g.opening ++ "\n".toList) = g.opening := content_newline g.opening
  rw [sedDelete, lines_append hended, u.lines_block, Ranges.deleteRanges_last, flatten_lines]
  · intro l hl
    rw [← Bool.not_eq_true, isMatch_start]
    exact h _ (List.mem_map_of_mem hl)
  · rw [isMatch_start]
    exact hfirst
  · intro l hl
    rw [isMatch_stop]
    exact u.layout.noClosing _ (List.mem_map_of_mem hl)
  · rw [isMatch_stop, u.content_closing]
    exact u.layout.closing_closes

theorem appendStep_patched (u v : Version g) {front : Text} (hended : Ended front)
    (h : ∀ line ∈ contents front, line ≠ g.opening) :
    appendStep v.text (some (front ++ u.block)) = front ++ '\n' :: v.comment ++ v.block := by
  have hname : g.name ≠ [] := List.cons_ne_nil _ _
  have hgrep : grep ("^#ifndef ".toList ++ g.name ++ "$".toList) (front ++ u.block) ≠ [] := by
    apply List.ne_nil_of_mem (a := g.opening)
    rw [grep, List.mem_filter, contents_append hended, u.contents_block]
    exact ⟨List.mem_append_right _ List.mem_cons_self, isMatch_start.mpr rfl⟩
  rw [appendStep, guardOf_text]
  rw [if_pos ⟨hname, hgrep⟩, sedDelete_block u hended h, Version.text]
  simp only [List.append_assoc, List.cons_append]
  rfl

theorem spliced_append {a : Text} (h : Ended a) (b : Text) :
    spliced (a ++ b) = spliced a ++ spliced b := by
  fun_induction spliced a with
  | case1 cs ih => exact ih h.of_cons.of_cons
  | case2 c cs hsplice ih =>
    -- an ended text has a character behind a backslash
    have hnext : ∀ ds, c = '\\' → cs ++ b = '\n' :: ds → False := by
      intro ds hc hds
      cases cs with
      | nil =>
        subst hc
        rcases h with h | h
        · exact absurd h (List.cons_ne_nil _ _)
        · exact absurd h (by decide)
      | cons d cs => exact hsplice cs hc (congrArg (· :: cs) (List.cons.inj hds).1)
    rw [List.cons_append, spliced.eq_2 c (cs ++ b) hnext, ih h.of_cons, List.cons_append]
  | case3 => rfl

theorem Scan.all_append (s : Scan) (a b : Text) :
    s.all (a ++ b) = (s.all a).bind fun s => s.all b := by
  induction a generalizing s with
  | nil => rfl
  | cons c cs ih =>
    rw [List.cons_append, Scan.all, Scan.all, Option.bind_assoc]
    simp only [ih]

theorem CommentText.append {a b : Text} (hended : Ended a) (ha : CommentText a)
    (hb : CommentText b) : CommentText (a ++ b) := by
  rw [CommentText, spliced_append hended, Scan.all_append, ha]
  exact hb

theorem CommentText.newline {a : Text} (h : CommentText a) : CommentText ('\n' :: a) :=
  CommentText.append (Or.inr rfl) (by decide : CommentText ['\n']) h

/-- What the runs put between the header and the block. -/
def comments (versions : List (Version g)) : Text := versions.flatMap fun v => '\n' :: v.comment

theorem comments_concat (versions : List (Version g)) (v : Version g) :
    comments (versions ++ [v]) = comments versions ++ '\n' :: v.comment := by
  rw [comments, List.flatMap_append, List.flatMap_singleton, ← comments]

theorem Version.ended_comment (v : Version g) : Ended ('\n' :: v.comment) := by
  by_cases hnil : v.comment = []
  · rw [hnil]
    exact Or.inr rfl
  · exact ended_append hnil v.layout.comment_ended ['\n']

theorem commentText_comments (versions : List (Version g)) : CommentText (comments versions) := by
  induction versions with
  | nil => rfl
  | cons v versions ih => exact v.layout.isComment.newline.append v.ended_comment ih

theorem exists_lines_comments (header : Text) (versions : List (Version g)) :
    ∃ added, contents (header ++ comments versions) = contents header ++ added ∧
      ∀ line ∈ added, line = [] ∨ ∃ v ∈ versions, line ∈ contents v.comment := by
  induction versions using List.reverseRecOn with
  | nil => exact ⟨[], by simp [comments], fun line hline => absurd hline List.not_mem_nil⟩
  | append_singleton versions v ih =>
    obtain ⟨added, hadded, horigin⟩ := ih
    obtain ⟨blank, hblank, hlines⟩ :=
      contents_append_newline (header ++ comments versions) v.comment
    refine ⟨added ++ blank ++ contents v.comment, ?_, ?_⟩
    · rw [comments_concat, ← List.append_assoc, hlines, hadded]
      simp only [List.append_assoc]
    · intro line hline
      rcases List.mem_append.mp hline with hold | hnew
      · rcases List.mem_append.mp hold with hold | hline
        · exact (horigin line hold).imp_right fun ⟨u, hu, hmem⟩ =>
            ⟨u, List.mem_append_left _ hu, hmem⟩
        · exact Or.inl (hblank line hline)
      · exact Or.inr ⟨v, List.mem_append_right _ List.mem_cons_self, hnew⟩

theorem comments_unopened {header : Text} (h : ∀ line ∈ contents header, line ≠ g.opening)
    (versions : List (Version g)) :
    ∀ line ∈ contents (header ++ comments versions), line ≠ g.opening := by
  obtain ⟨added, hadded, horigin⟩ := exists_lines_comments header versions
  intro line hline
  rw [hadded] at hline
  rcases List.mem_append.mp hline with hold | hnew
  · exact h line hold
  · rintro rfl
    rcases horigin _ hnew with hblank | ⟨v, -, hcomment⟩
    · exact absurd hblank (List.cons_ne_nil _ _)
    · exact v.layout.noDirective _ hcomment g.prefix_opening

theorem ended_comments (header : Text) (versions : List (Version g)) (v : Version g) :
    Ended (header ++ comments (versions ++ [v])) := by
  rw [comments_concat, ← List.append_assoc]
  exact ended_append (List.cons_ne_nil _ _) v.ended_comment _

theorem runs_append_singleton (header : Text) (versions : List (Version g)) (v : Version g) :
    runs header (versions ++ [v]) = appendStep v.text (some (runs header versions)) := by
  rw [runs, List.foldl_append, List.foldl_cons, List.foldl_nil, ← runs]

theorem runs_eq {header : Text} (h : ∀ line ∈ contents header, line ≠ g.opening)
    (versions : List (Version g)) (latest : Version g) :
    runs header (versions ++ [latest]) =
      header ++ comments (versions ++ [latest]) ++ latest.block := by
  induction versions using List.reverseRecOn generalizing latest with
  | nil =>
    have hcomments : comments [latest] = '\n' :: latest.comment := by
      rw [comments, List.flatMap_singleton]
    rw [runs_append_singleton, List.nil_append, hcomments]
    exact appendStep_unopened latest h
  | append_singleton versions u ih =>
    have hended := ended_comments header versions u
    have hunopened := comments_unopened h (versions ++ [u])
    rw [runs_append_singleton, ih u, appendStep_patched u latest hended hunopened,
      comments_concat (versions ++ [u]), ← List.append_assoc]

/-- What the target is after runs whose last version is `latest`. -/
structure Current (header : Text) (versions : List (Version g)) (latest : Version g)
    (target : Text) : Prop where
  /-- One block of the guard, that of the latest version. -/
  oneBlock : Ranges.ranges (fun line => decide (line = g.opening)) g.closes none
    (contents target) = [contents latest.block]
  /-- It is last in the file, verbatim. -/
  lastBlock : latest.block <:+ target
  /-- The lines of the header, in their order, and blank lines and lines of comments. -/
  kept : ∃ added, contents target = contents header ++ added ++ contents latest.block ∧
    ∀ line ∈ added, line = [] ∨ ∃ v ∈ versions, line ∈ contents v.comment
  /-- Nothing but comments and white space was added to the header in front of the block. -/
  addedComment : ∃ added, target = header ++ added ++ latest.block ∧ CommentText added

/-- After every run the target has one current block. The header has no line `#ifndef G`; that is
all that is needed of a header that does not mention the guard. -/
theorem install_headers_current (header : Text) (h : ∀ line ∈ contents header, line ≠ g.opening)
    (versions : List (Version g)) (latest : Version g) :
    Current header (versions ++ [latest]) latest (runs header (versions ++ [latest])) := by
  obtain ⟨added, hadded, horigin⟩ := exists_lines_comments header (versions ++ [latest])
  have hended := ended_comments header versions latest
  have hunopened := comments_unopened h (versions ++ [latest])
  rw [runs_eq h]
  constructor
  · rw [contents_append hended, latest.contents_block, Ranges.ranges_last]
    · intro line hline
      exact decide_eq_false (hunopened line hline)
    · exact decide_eq_true rfl
    · exact latest.layout.noClosing
    · exact latest.layout.closing_closes
  · exact List.suffix_append _ _
  · refine ⟨added, ?_, horigin⟩
    rw [contents_append hended, hadded]
  · exact ⟨comments (versions ++ [latest]), rfl, commentText_comments _⟩

theorem stdio_word : Word "STDIO_H_APPEND".toList := by
  decide

def stdioGuard : Guard := ⟨"STDIO_H_APPEND".toList, stdio_word⟩

def stdioComment : Text := "/* stdio.h.append */\n\n".toList

def stdioClosing : Text := "#endif /* _SOLCOMPAT_STDIO_H_APPEND */".toList

theorem stdio_layout {body : Text} (hended : Ended body)
    (hbody : ∀ line ∈ contents body, stdioGuard.closes line = false) :
    Layout stdioGuard stdioComment body stdioClosing where
  comment_ended := by decide
  isComment := by decide
  noDirective := by decide
  body_ended := hended
  noClosing := hbody
  closing_line := by decide
  closing_closes := by decide

theorem stdio_old_layout :
    Layout stdioGuard stdioComment "#ifdef A\n#endif\nint f(void);\n".toList stdioClosing :=
  stdio_layout (by decide) (by decide)

theorem stdio_new_layout : Layout stdioGuard stdioComment "int g(void);\n".toList stdioClosing :=
  stdio_layout (by decide) (by decide)

def stdioOld : Version stdioGuard := ⟨_, _, _, true, stdio_old_layout⟩

def stdioNew : Version stdioGuard := ⟨_, _, _, false, stdio_new_layout⟩

theorem install_headers_current_stdio :
    Current "#define EOF (-1)\n".toList [stdioOld, stdioNew] stdioNew
      (runs "#define EOF (-1)\n".toList [stdioOld, stdioNew]) :=
  install_headers_current "#define EOF (-1)\n".toList (by decide) [stdioOld] stdioNew

end Solcompat.Install
