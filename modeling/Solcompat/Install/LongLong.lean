import Solcompat.Install.Model
import Solcompat.Lib.Conditional
import Solcompat.Lib.Printed

/-!
# The gates of `longlong_t`

The step of `install-headers` that rewrites the conditions under which `sys/types.h` and `stdio.h`
declare `longlong_t`, with `awk`, and then looks for the new condition with `grep`. A header may be
as Solaris 7 has it, or as earlier runs have left it.
-/

namespace Solcompat.Install

open Lib Lines Conditional

/-- As in Solaris 7. -/
def rawGate : Text := "#if __STDC__ - 0 == 0 && !defined(_NO_LONGLONG)".toList

/-- As in Solaris 7, the other one. -/
def rawGateAlt : Text := "#if  !defined(__STRICT_ANSI__) && !defined(_NO_LONGLONG)".toList

/-- An earlier patch, for C++. -/
def priorGate : Text :=
  "#if (defined(__cplusplus) || __STDC__ - 0 == 0) && !defined(_NO_LONGLONG)".toList

/-- An earlier patch of the other one. -/
def priorGateAlt : Text :=
  "#if (defined(__cplusplus) || !defined(__STRICT_ANSI__)) && !defined(_NO_LONGLONG)".toList

def gates : List Text := [rawGate, rawGateAlt, priorGate, priorGateAlt]

def marker : Text := "/* _SOLCOMPAT_LONGLONG_CXX */".toList

def unconditional : Text := "#if !defined(_NO_LONGLONG)".toList

/-- What the rules of `awk` print for a line. Each pattern is a whole line. -/
def rewriteGate (line : Text) : List Text :=
  if line = rawGate then [marker, unconditional]
  else if line = rawGateAlt then [marker, unconditional]
  else if line = priorGate then [unconditional]
  else if line = priorGateAlt then [unconditional]
  else [line]

def longlongHeader (header : Text) : Text := printed ((contents header).flatMap rewriteGate)

/-- `FATAL`: the new condition is not in the header that was moved into place. -/
def longlongFatal (header : Text) : Bool :=
  (grep "^#if !defined(_NO_LONGLONG)$".toList (longlongHeader header)).isEmpty

section

variable {header line : Text}

/-- The line that takes the place of a line. -/
def image (line : Text) : Text := if line ∈ gates then unconditional else line

/-- The marker stands only in front of what was never patched before. -/
def notesOf (line : Text) : List Text := if line = rawGate ∨ line = rawGateAlt then [marker] else []

theorem mem_gates : line ∈ gates ↔
    line = rawGate ∨ line = rawGateAlt ∨ line = priorGate ∨ line = priorGateAlt := by
  simp only [gates, List.mem_cons, List.not_mem_nil, or_false]

theorem rewriteGate_eq (line : Text) : rewriteGate line = notesOf line ++ [image line] := by
  simp only [rewriteGate, notesOf, image, mem_gates]
  split_ifs <;> simp_all

theorem notMem_gates_of_length {line : Text} (h : line.length < 47) : line ∉ gates := by
  have hgates : ∀ gate ∈ gates, 47 ≤ gate.length := by decide +kernel
  intro hgate
  have hlong := hgates line hgate
  omega

theorem toList_ne {a b : String} (h : a ≠ b) : a.toList ≠ b.toList :=
  fun hlist => h (String.toList_inj.mp hlist)

theorem unconditional_notMem_gates : unconditional ∉ gates := by
  rw [mem_gates]
  rintro (h | h | h | h)
  · exact toList_ne (by decide) h
  · exact toList_ne (by decide) h
  · exact toList_ne (by decide) h
  · exact toList_ne (by decide) h

theorem marker_notMem_gates : marker ∉ gates := by
  rw [mem_gates]
  rintro (h | h | h | h)
  · exact toList_ne (by decide) h
  · exact toList_ne (by decide) h
  · exact toList_ne (by decide) h
  · exact toList_ne (by decide) h

theorem rewriteGate_of_notMem (h : line ∉ gates) : rewriteGate line = [line] := by
  have hnotes : ¬ (line = rawGate ∨ line = rawGateAlt) := by
    rintro (hraw | hraw) <;> exact h (by simp [mem_gates, hraw])
  rw [rewriteGate_eq, notesOf, image, if_neg hnotes, if_neg h, List.nil_append]

/-- A printed line is the marker, the new condition, or a line of the header that is no gate. -/
theorem mem_rewriteGate {l : Text} (h : l ∈ rewriteGate line) :
    l = marker ∨ l = unconditional ∨ l = line ∧ l ∉ gates := by
  rw [rewriteGate_eq, List.mem_append, List.mem_singleton] at h
  rcases h with h | rfl
  · rw [notesOf] at h
    split_ifs at h with hraw
    · exact .inl (List.mem_singleton.mp h)
    · exact absurd h List.not_mem_nil
  · rw [image]
    split_ifs with hgate
    · exact .inr (.inl rfl)
    · exact .inr (.inr ⟨rfl, hgate⟩)

theorem contents_longlongHeader (header : Text) :
    contents (longlongHeader header) = (contents header).flatMap rewriteGate := by
  apply contents_printed
  intro l hl
  obtain ⟨line, hline, hl⟩ := List.mem_flatMap.mp hl
  rcases mem_rewriteGate hl with rfl | rfl | ⟨rfl, -⟩
  · decide
  · decide
  · exact newline_notMem_contents hline

end

def other (line : Text) : Bool :=
  decide (line ∉ gates) && decide (line ≠ unconditional) && decide (line ≠ marker)

/-- What a header has become: each gate is a condition of the new form in its place, with the marker
in front of it if it was never patched before, and the other lines are as they were. So no gate is
left, there are as many conditions of the new form as there were of both, and the lines besides
them keep their order. -/
structure Migrated (header target : Text) : Prop where
  lines : contents target = (contents header).flatMap fun line => notesOf line ++ [image line]
  noGate : ∀ line ∈ contents target, line ∉ gates
  conditions : (contents target).count unconditional =
    (contents header).count unconditional + (contents header).countP (· ∈ gates)
  kept : (contents target).filter other = (contents header).filter other

theorem count_rewriteGate (line : Text) :
    (rewriteGate line).count unconditional =
      [line].count unconditional + [line].countP (· ∈ gates) := by
  by_cases hgate : line ∈ gates
  · have hne : line ≠ unconditional := fun h => unconditional_notMem_gates (h ▸ hgate)
    have hnotes : (notesOf line).count unconditional = 0 := by
      rw [notesOf]
      split_ifs <;> decide
    rw [rewriteGate_eq, List.count_append, hnotes, image, if_pos hgate]
    simp [hne, hgate]
  · rw [rewriteGate_of_notMem hgate]
    simp [hgate]

theorem filter_rewriteGate (line : Text) :
    (rewriteGate line).filter other = [line].filter other := by
  by_cases hgate : line ∈ gates
  · have hother : other line = false := by simp [other, hgate]
    have hnone : (rewriteGate line).filter other = [] := by
      rw [List.filter_eq_nil_iff]
      intro l hl
      rcases mem_rewriteGate hl with rfl | rfl | ⟨rfl, hno⟩
      · decide
      · decide
      · exact absurd hgate hno
    rw [hnone, List.filter_cons_of_neg (by simp [hother]), List.filter_nil]
  · rw [rewriteGate_of_notMem hgate]

theorem migrated_longlongHeader (header : Text) : Migrated header (longlongHeader header) where
  lines := by
    rw [contents_longlongHeader]
    exact List.flatMap_congr fun line _ => rewriteGate_eq line
  noGate := by
    intro l hl
    rw [contents_longlongHeader] at hl
    obtain ⟨line, -, hl⟩ := List.mem_flatMap.mp hl
    rcases mem_rewriteGate hl with rfl | rfl | ⟨-, hl⟩
    · exact marker_notMem_gates
    · exact unconditional_notMem_gates
    · exact hl
  conditions := by
    rw [contents_longlongHeader]
    induction contents header with
    | nil => rfl
    | cons line ls ih =>
      rw [← List.singleton_append, List.flatMap_append, List.count_append, List.count_append,
        List.countP_append, ih, List.flatMap_singleton, count_rewriteGate]
      omega
  kept := by
    rw [contents_longlongHeader]
    induction contents header with
    | nil => rfl
    | cons line ls ih =>
      rw [← List.singleton_append, List.flatMap_append, List.filter_append, List.filter_append, ih,
        List.flatMap_singleton, filter_rewriteGate]

/-- A header without gates is left alone, apart from its last newline. -/
theorem longlongHeader_of_noGate {header : Text} (h : ∀ line ∈ contents header, line ∉ gates) :
    longlongHeader header = printed (contents header) := by
  have hlines : (contents header).flatMap rewriteGate = contents header := by
    have hsingle : (contents header).flatMap rewriteGate =
        (contents header).flatMap fun line => [line] :=
      List.flatMap_congr fun line hline => rewriteGate_of_notMem (h line hline)
    rw [hsingle, List.flatMap_singleton']
  rw [longlongHeader, hlines]

theorem longlongHeader_twice (header : Text) :
    longlongHeader (longlongHeader header) = longlongHeader header := by
  rw [longlongHeader_of_noGate (migrated_longlongHeader header).noGate]
  exact printed_contents (ended_printed _)

theorem longlongFatal_iff (header : Text) :
    longlongFatal header = true ↔
      ∀ line ∈ contents header, line ∉ gates ∧ line ≠ unconditional := by
  have hplain : Pattern.Plain unconditional := by decide
  have hmatch : ∀ line,
      Pattern.isMatch "^#if !defined(_NO_LONGLONG)$".toList line = true ↔ line = unconditional :=
    fun line => Pattern.isMatch_whole hplain
  have hcount := (migrated_longlongHeader header).conditions
  rw [longlongFatal, List.isEmpty_iff, grep, List.filter_eq_nil_iff]
  simp only [hmatch]
  constructor
  · intro h line hline
    have hzero : (contents (longlongHeader header)).count unconditional = 0 :=
      List.count_eq_zero.mpr fun hmem => h _ hmem rfl
    have hgates : (contents header).countP (· ∈ gates) = 0 := by omega
    have hconditions : (contents header).count unconditional = 0 := by omega
    refine ⟨by simpa using List.countP_eq_zero.mp hgates line hline, ?_⟩
    rintro rfl
    exact List.count_eq_zero.mp hconditions hline
  · rintro h line hline rfl
    have hgates : (contents header).countP (· ∈ gates) = 0 :=
      List.countP_eq_zero.mpr fun line hline => by simpa using (h line hline).1
    have hconditions : (contents header).count unconditional = 0 :=
      List.count_eq_zero.mpr fun hmem => (h _ hmem).2 rfl
    have hzero : (contents (longlongHeader header)).count unconditional = 0 := by omega
    exact List.count_eq_zero.mp hzero hline

/-- However often the step has run on a header, the header is what the first run has made of it:
every gate has become a condition of the new form and the other lines are as they were. The step
fails only for a header with neither a gate nor a new condition, and then it fails in every run. -/
theorem longlong_runs (header : Text) (n : ℕ) :
    longlongHeader^[n + 1] header = longlongHeader header ∧
      Migrated header (longlongHeader^[n + 1] header) ∧
        (longlongFatal (longlongHeader^[n] header) = true ↔
          ∀ line ∈ contents header, line ∉ gates ∧ line ≠ unconditional) := by
  have hruns : ∀ n, longlongHeader^[n + 1] header = longlongHeader header := by
    intro n
    induction n with
    | zero => rfl
    | succ n ih => rw [Function.iterate_succ_apply', ih, longlongHeader_twice]
  refine ⟨hruns n, ?_, ?_⟩
  · rw [hruns n]
    exact migrated_longlongHeader header
  · have hsame : longlongHeader (longlongHeader^[n] header) = longlongHeader header := by
      rw [← Function.iterate_succ_apply' longlongHeader n header, hruns n]
    rw [← longlongFatal_iff, longlongFatal, longlongFatal, hsame]

def blank (c : Char) : Bool := c = ' ' || c = '\t'

/-- What stands behind the `#` of a directive. -/
def directive (line : Text) : Option Text :=
  match line.dropWhile blank with
  | '#' :: rest => some (rest.dropWhile blank)
  | _ => none

/-- Other directives, such as `#define`, are read with the text. -/
def lineKind (line : Text) : Kind :=
  match directive line with
  | none => .text
  | some name =>
    if "if".toList.isPrefixOf name then .opening
    else if "elif".toList.isPrefixOf name then .elif
    else if "else".toList.isPrefixOf name then .alternative
    else if "endif".toList.isPrefixOf name then .closing
    else .text

theorem lineKind_marker : lineKind marker = .text := by decide

theorem lineKind_gates : ∀ gate ∈ gates, lineKind gate = .opening := by decide +kernel

/-- A compiler, or a mode of one: what a line means for it, and when a condition holds. The marker
is a comment. -/
structure Compiler (σ : Type*) where
  read : σ → Text → σ
  holds : σ → Text → Bool
  comment : ∀ s, read s marker = s

namespace Compiler

variable {σ : Type*} (c : Compiler σ)

def reader : Reader Text σ := ⟨lineKind, c.read, c.holds⟩

/-- The mode in which nothing but `_NO_LONGLONG` matters for a gate: `__STDC__` is zero, and
`__STRICT_ANSI__` is not defined. -/
def lenient : Reader Text σ := ⟨lineKind, c.read, fun s line => c.holds s (image line)⟩

theorem replaces (line : Text) :
    Replaces c.lenient c.reader (fun l => decide (l = marker)) line (notesOf line)
      (image line) where
  notes_note := by
    intro x hx
    rw [notesOf] at hx
    split_ifs at hx
    · obtain rfl := List.mem_singleton.mp hx
      exact ⟨decide_eq_true rfl, lineKind_marker, c.comment⟩
    · exact absurd hx List.not_mem_nil
  kind := by
    change lineKind (image line) = lineKind line
    have hnew : lineKind unconditional = .opening := by decide
    rw [image]
    split_ifs with hgate
    · rw [hnew, lineKind_gates line hgate]
    · rfl
  text := by
    intro htext
    change lineKind line = .text at htext
    have hline : line ∉ gates := by
      intro hgate
      rw [lineKind_gates line hgate] at htext
      cases htext
    rw [image, if_neg hline]
    exact ⟨rfl, fun _ => rfl⟩
  condition _ s := rfl

end Compiler

/-- In every mode of a compiler the patched header is what the header is in the lenient mode, apart
from the marker: the same lines are read, in the same order. The conditions of all other directives
may depend on everything that was read before them. -/
theorem longlong_selected {σ : Type*} (c : Compiler σ) (s : σ) (header : Text) :
    (select c.reader [] s (contents (longlongHeader header))).filter (· ≠ marker) =
      (select c.lenient [] s (contents header)).filter (· ≠ marker) := by
  have hselect :=
    select_flatMap (fun line (_ : line ∈ contents header) => c.replaces line) [] s
  rw [(migrated_longlongHeader header).lines]
  simpa only [decide_not] using hselect

theorem marker_ne_define : marker ≠ "#define _NO_LONGLONG".toList :=
  toList_ne (by decide)

/-- `gcc -std=gnu99`, which has `__STDC__` as 1 and no `__STRICT_ANSI__`; the state is whether
`_NO_LONGLONG` has been defined. Any other condition fails. -/
def gnu99 : Compiler Bool where
  read noLonglong line := noLonglong || decide (line = "#define _NO_LONGLONG".toList)
  holds noLonglong line := decide (line = unconditional ∨ line = rawGateAlt) && !noLonglong
  comment noLonglong := by
    rw [decide_eq_false marker_ne_define, Bool.or_false]

def rawTypes : Text :=
  rawGate ++ "\ntypedef long long longlong_t;\n#else\ntypedef union longlong_t;\n#endif\n".toList

/-- The raw gate fails in this mode, and the patched header gives the type all the same. -/
theorem longlong_selected_gnu99 :
    (select gnu99.reader [] false (contents (longlongHeader rawTypes))).filter (· ≠ marker) =
      ["typedef long long longlong_t;".toList] :=
  (longlong_selected gnu99 false rawTypes).trans (by decide +kernel)

end Solcompat.Install
