import Mathlib.Data.List.DropRight
import Solcompat.Install.Rerun
import Solcompat.Lib.Printed

/-!
# The prepend step

The content of a `.prepend` file goes behind the first `#define` of an include guard of the target,
unless the guard of the file stands anywhere in the target. What a run puts in is found by later
runs, if the file has a guard at all.
-/

namespace Solcompat.Install

open Lib Lines

/-- `[_A-Za-z0-9]` -/
def isWord (c : Char) : Bool := c.isAlphanum || c = '_'

/-- `^[_A-Za-z0-9]+_H` -/
def wordThenH : Text → Bool
  | [] => false
  | c :: cs => isWord c && ("_H".toList.isPrefixOf cs || wordThenH cs)

/-- `/^#define [_A-Za-z0-9]+_H/` -/
def definesH (line : Text) : Bool :=
  "#define ".toList.isPrefixOf line && wordThenH (line.drop "#define ".toList.length)

/-- What `awk` prints. The content is printed once, as if it were one line. -/
def insertContent (content : Text) : List Text → List Text
  | [] => []
  | l :: ls => if definesH l then l :: [] :: content :: ls else l :: insertContent content ls

/-- `$(cat file)` is without the newlines at its end. -/
def stripped (file : Text) : Text := file.rdropWhile (· = '\n')

/-- What `awk -v content=...` makes of a text. The escape sequences that it reads all begin with a
backslash, and some of them differ from one `awk` to the next. -/
structure Awk where
  read : Text → Text
  read_plain : ∀ text, '\\' ∉ text → read text = text

/-- The target afterwards. -/
def prependStep (awk : Awk) (prepend_file target : Text) : Text :=
  let guard := guardOf prepend_file
  if guard ≠ [] ∧ grep guard target ≠ [] then target
  else printed (insertContent (awk.read (stripped prepend_file)) (contents target))

/-- The target after runs with one file after the other. -/
def prependRuns (awk : Awk) (header : Text) (prepend_files : List Text) : Text :=
  prepend_files.foldl (fun target prepend_file => prependStep awk prepend_file target) header

/-- What becomes of a header. -/
inductive Prepended (prepend_file header : Text) : Text → Prop
  /-- The guard was found. -/
  | found : grep (guardOf prepend_file) header ≠ [] → Prepended prepend_file header header
  /-- There is no place for the content. -/
  | nowhere : (∀ l ∈ contents header, definesH l = false) →
      Prepended prepend_file header (printed (contents header))
  /-- The content is behind the first `#define`, and a blank line is between them. -/
  | inserted {front back : List Text} {l : Text} : contents header = front ++ l :: back →
      (∀ l ∈ front, definesH l = false) → definesH l = true →
      Prepended prepend_file header
        (printed (front ++ l :: [] :: stripped prepend_file :: back))

section

variable {awk : Awk} {content header prepend_file target : Text} {front back ls : List Text}
variable {l : Text}

theorem insertContent_nowhere (h : ∀ l ∈ ls, definesH l = false) :
    insertContent content ls = ls := by
  induction ls with
  | nil => rfl
  | cons l ls ih =>
    rw [List.forall_mem_cons] at h
    rw [insertContent, h.1, if_neg Bool.false_ne_true, ih h.2]

theorem insertContent_first (hfront : ∀ l ∈ front, definesH l = false) (hl : definesH l = true) :
    insertContent content (front ++ l :: back) = front ++ l :: [] :: content :: back := by
  induction front with
  | nil => rw [List.nil_append, insertContent, if_pos hl, List.nil_append]
  | cons x front ih =>
    rw [List.forall_mem_cons] at hfront
    rw [List.cons_append, insertContent, hfront.1, if_neg Bool.false_ne_true, ih hfront.2,
      List.cons_append]

/-- The lines up to the first `#define` of an include guard, if there is one. -/
theorem exists_first (ls : List Text) :
    (∀ l ∈ ls, definesH l = false) ∨
      ∃ front l back, ls = front ++ l :: back ∧ (∀ l ∈ front, definesH l = false) ∧
        definesH l = true := by
  induction ls with
  | nil => exact .inl (by simp)
  | cons x ls ih =>
    by_cases hx : definesH x = true
    · exact .inr ⟨[], x, ls, rfl, by simp, hx⟩
    · rw [Bool.not_eq_true] at hx
      rcases ih with hnone | ⟨front, l, back, rfl, hfront, hl⟩
      · exact .inl (List.forall_mem_cons.mpr ⟨hx, hnone⟩)
      · exact .inr ⟨x :: front, l, back, rfl, List.forall_mem_cons.mpr ⟨hx, hfront⟩, hl⟩

theorem Awk.read_stripped (awk : Awk) {file : Text} (h : '\\' ∉ file) :
    awk.read (stripped file) = stripped file :=
  awk.read_plain _ fun hmem => h ((List.rdropWhile_prefix _ _).subset hmem)

theorem prependStep_inserts (hplain : '\\' ∉ prepend_file) (hguard : ¬ (guardOf prepend_file ≠ [] ∧
      grep (guardOf prepend_file) target ≠ []))
    (htarget : contents target = front ++ l :: back) (hfront : ∀ l ∈ front, definesH l = false)
    (hl : definesH l = true) :
    prependStep awk prepend_file target =
      printed (front ++ l :: [] :: stripped prepend_file :: back) := by
  rw [prependStep, if_neg hguard, htarget, awk.read_stripped hplain,
    insertContent_first hfront hl]

theorem prependStep_prepended (awk : Awk) (hplain : '\\' ∉ prepend_file)
    (hguard : guardOf prepend_file ≠ []) (header : Text) :
    Prepended prepend_file header (prependStep awk prepend_file header) := by
  by_cases hfound : grep (guardOf prepend_file) header ≠ []
  · rw [prependStep, if_pos ⟨hguard, hfound⟩]
    exact .found hfound
  · have hnot : ¬ (guardOf prepend_file ≠ [] ∧ grep (guardOf prepend_file) header ≠ []) :=
      fun h => hfound h.2
    rcases exists_first (contents header) with hnone | ⟨front, l, back, hlines, hfront, hl⟩
    · rw [prependStep, if_neg hnot, insertContent_nowhere hnone]
      exact .nowhere hnone
    · rw [prependStep_inserts hplain hnot hlines hfront hl]
      exact .inserted hlines hfront hl

theorem isMatch_plain {w : Text} (hw : Pattern.Plain w) (hhead : w.head? ≠ some '^')
    {line : Text} (h : w <:+: line) : Pattern.isMatch w line = true := by
  obtain ⟨a, b, rfl⟩ := h
  have hhere : Pattern.matchHere false (w.map Pattern.literal) (w ++ b) = true := by
    rw [← List.append_nil (w.map Pattern.literal), Pattern.matchHere_literal]
    exact ⟨b, rfl, rfl⟩
  unfold Pattern.isMatch
  split
  · exact absurd rfl hhead
  · rw [List.any_eq_true, Pattern.parseItems_text hw]
    exact ⟨w ++ b, by simp, hhere⟩

theorem removeFirst_prefix {c : Char} {text back line : Text} (h : line = c :: text ++ back) :
    removeFirst (c :: text) line = back := by
  rw [h, removeFirst_append]

/-- The guard stands in the file, in one line, and begins with an underscore. -/
theorem guardOf_infix (h : guardOf prepend_file ≠ []) :
    guardOf prepend_file <:+: prepend_file ∧ '\n' ∉ guardOf prepend_file ∧
      (guardOf prepend_file).head? = some '_' := by
  have hplain : Pattern.Plain "#ifndef _SOLCOMPAT_".toList := by decide
  unfold guardOf at h ⊢
  cases hgrep : grep "^#ifndef _SOLCOMPAT_".toList prepend_file with
  | nil =>
    rw [hgrep] at h
    exact absurd rfl h
  | cons line rest =>
    have hmem : line ∈ grep "^#ifndef _SOLCOMPAT_".toList prepend_file :=
      hgrep ▸ List.mem_cons_self
    rw [grep, List.mem_filter] at hmem
    obtain ⟨hline, hmatch⟩ := hmem
    obtain ⟨back, hback⟩ := (Pattern.isMatch_start hplain).mp hmatch
    have hsplit : line = '#' :: "ifndef ".toList ++ ("_SOLCOMPAT_".toList ++ back) := hback.symm
    have hremoved : removeFirst "#ifndef ".toList line = "_SOLCOMPAT_".toList ++ back :=
      removeFirst_prefix hsplit
    have hsuffix : "_SOLCOMPAT_".toList ++ back <:+ line := ⟨_, hsplit.symm⟩
    rw [List.headD_cons, hremoved]
    refine ⟨?_, fun hnewline => newline_notMem_contents hline (hsuffix.subset hnewline), rfl⟩
    exact hsuffix.isInfix.trans (infix_of_mem_contents hline)

theorem infix_stripped {w file : Text} (hw : '\n' ∉ w) (h : w <:+: file) :
    w <:+: stripped file := by
  induction file using List.reverseRecOn with
  | nil => exact h
  | append_singleton file c ih =>
    by_cases hc : c = '\n'
    · subst hc
      rw [stripped, List.rdropWhile_concat_pos _ _ _ (by decide)]
      apply ih
      rcases List.infix_concat_iff.mp h with hsuffix | hwithin
      · rcases List.suffix_concat_iff.mp hsuffix with rfl | ⟨t, rfl, -⟩
        · exact List.nil_infix
        · exact absurd (by simp) hw
      · exact hwithin
    · rw [stripped, List.rdropWhile_concat_neg _ _ _ (by simpa using hc)]
      exact h

theorem grep_guard (hguard : guardOf prepend_file ≠ [])
    (hplain : Pattern.Plain (guardOf prepend_file)) (h : guardOf prepend_file <:+: target) :
    grep (guardOf prepend_file) target ≠ [] := by
  obtain ⟨-, hline, hhead⟩ := guardOf_infix hguard
  obtain ⟨l, hl, hwithin⟩ := infix_contents hguard hline h
  have hcaret : (guardOf prepend_file).head? ≠ some '^' := by
    rw [hhead]
    decide
  apply List.ne_nil_of_mem (a := l)
  rw [grep, List.mem_filter]
  exact ⟨hl, isMatch_plain hplain hcaret hwithin⟩

theorem Prepended.again {newer : Text} (hguard : guardOf prepend_file ≠ [])
    (hplain : Pattern.Plain (guardOf prepend_file)) (hsame : guardOf newer = guardOf prepend_file)
    (h : Prepended prepend_file header target) :
    prependStep awk newer target = target := by
  rw [prependStep, hsame]
  by_cases hfound : grep (guardOf prepend_file) target ≠ []
  · exact if_pos ⟨hguard, hfound⟩
  · rw [if_neg fun hboth => hfound hboth.2]
    cases h with
    | found hgrep => exact absurd hgrep hfound
    | nowhere hnone =>
      have hcontents : contents (printed (contents header)) = contents header :=
        contents_printed fun l hl => newline_notMem_contents hl
      rw [hcontents, insertContent_nowhere hnone]
    | @inserted front back l =>
      obtain ⟨hwithin, hline, -⟩ := guardOf_infix hguard
      have hcontent : stripped prepend_file <:+:
          printed (front ++ l :: [] :: stripped prepend_file :: back) :=
        ⟨printed (front ++ [l, []]), '\n' :: printed back, by simp [printed_append]⟩
      exact absurd (grep_guard hguard hplain ((infix_stripped hline hwithin).trans hcontent)) hfound

end

/-- The first version of a file that is put into a header stays there: runs with later versions,
which have the same guard, leave the target as the first run has made it. -/
theorem prepend_first (awk : Awk) (header prepend_file : Text) (newer : List Text)
    (hfile : '\\' ∉ prepend_file) (hguard : guardOf prepend_file ≠ [])
    (hplain : Pattern.Plain (guardOf prepend_file))
    (hsame : ∀ file ∈ newer, guardOf file = guardOf prepend_file) :
    Prepended prepend_file header (prependRuns awk header (prepend_file :: newer)) := by
  have hfirst := prependStep_prepended awk hfile hguard header
  have hstays : prependRuns awk (prependStep awk prepend_file header) newer =
      prependStep awk prepend_file header := by
    induction newer with
    | nil => rfl
    | cons file newer ih =>
      rw [List.forall_mem_cons] at hsame
      rw [prependRuns, List.foldl_cons, hfirst.again hguard hplain hsame.1]
      exact ih hsame.2
  rw [prependRuns, List.foldl_cons, ← prependRuns, hstays]
  exact hfirst

/-- It makes nothing of a text that has no backslash. -/
def plainAwk : Awk := ⟨id, fun _ _ => rfl⟩

def stdioPrepend : Text :=
  "#ifndef _SOLCOMPAT_STDIO_H_PREPEND\n#define _SOLCOMPAT_STDIO_H_PREPEND\n#endif\n\n".toList

/-- A version with one more comment, for a header that has no last newline. -/
theorem prepend_first_stdio :
    Prepended stdioPrepend "#ifndef _STDIO_H\n#define _STDIO_H\n#endif".toList
      (prependRuns plainAwk "#ifndef _STDIO_H\n#define _STDIO_H\n#endif".toList
        [stdioPrepend, "/* newer */\n".toList ++ stdioPrepend]) :=
  prepend_first plainAwk "#ifndef _STDIO_H\n#define _STDIO_H\n#endif".toList stdioPrepend
    ["/* newer */\n".toList ++ stdioPrepend] (by decide +kernel) (by decide +kernel)
    (by decide +kernel) (by decide +kernel)

theorem prependStep_unguarded {awk : Awk} {prepend_file : Text} {front rest : List Text} {l : Text}
    (hfile : '\\' ∉ prepend_file) (hguard : guardOf prepend_file = [])
    (hlines : ∀ x ∈ front ++ [l], '\n' ∉ x)
    (hfront : ∀ l ∈ front, definesH l = false) (hl : definesH l = true) :
    prependStep awk prepend_file (printed (front ++ l :: rest)) =
      printed (front ++ l :: [] :: stripped prepend_file :: rest) := by
  have hsplit : ∀ rest, printed (front ++ l :: rest) = printed (front ++ [l]) ++ printed rest := by
    intro rest
    rw [← printed_append, List.append_assoc, List.singleton_append]
  have htarget : contents (printed (front ++ l :: rest)) =
      front ++ l :: contents (printed rest) := by
    rw [hsplit, contents_append (ended_printed _), contents_printed hlines, List.append_assoc,
      List.singleton_append]
  have hrest : printed ([] :: stripped prepend_file :: contents (printed rest)) =
      printed ([] :: stripped prepend_file :: rest) := by
    rw [printed_cons, printed_cons, printed_contents (ended_printed rest), printed_cons,
      printed_cons]
  rw [prependStep_inserts hfile (fun h => h.1 hguard) htarget hfront hl, hsplit, hrest, ← hsplit]

/-- The content of a file without a guard, as that for `sys/socket.h` is, comes in once more with
every run. -/
theorem prepend_unguarded (awk : Awk) (header prepend_file : Text) (front back : List Text)
    (l : Text) (hfile : '\\' ∉ prepend_file)
    (hguard : guardOf prepend_file = []) (hheader : contents header = front ++ l :: back)
    (hfront : ∀ l ∈ front, definesH l = false) (hl : definesH l = true) (n : ℕ) :
    prependRuns awk header (List.replicate (n + 1) prepend_file) =
      printed (front ++ l ::
        ((List.replicate (n + 1) [[], stripped prepend_file]).flatten ++ back)) := by
  have hlines : ∀ x ∈ front ++ [l], '\n' ∉ x := by
    intro x hx
    have hmem : x ∈ contents header := by
      rw [hheader, ← List.singleton_append, ← List.append_assoc]
      exact List.mem_append_left _ hx
    exact newline_notMem_contents hmem
  induction n with
  | zero => exact prependStep_inserts hfile (fun h => h.1 hguard) hheader hfront hl
  | succ n ih =>
    rw [List.replicate_succ', prependRuns, List.foldl_append, List.foldl_cons, List.foldl_nil,
      ← prependRuns, ih, prependStep_unguarded hfile hguard hlines hfront hl]
    rfl

theorem prepend_unguarded_socket :
    prependRuns plainAwk "#define _SYS_SOCKET_H".toList
        (List.replicate 3 "/* minimal */\n".toList) =
      ("#define _SYS_SOCKET_H\n" ++ "\n/* minimal */\n" ++ "\n/* minimal */\n" ++
        "\n/* minimal */\n").toList :=
  (prepend_unguarded plainAwk "#define _SYS_SOCKET_H".toList "/* minimal */\n".toList [] []
    "#define _SYS_SOCKET_H".toList (by decide +kernel) (by decide +kernel) (by decide +kernel)
    (by simp) (by decide +kernel) 2).trans (by decide +kernel)

end Solcompat.Install
