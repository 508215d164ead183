import Solcompat.Install.LongLong
import Solcompat.Install.Prepend

/-!
# Runs of the recipe

For one header `install-headers` rewrites the gates, puts in the `.prepend` file and appends the
`.append` file, in this order, and stops if the rewriting fails. The second run meets the header
that the first has made. Only the last step has anything left to do there.
-/

namespace Solcompat.Install

open Lib Lines

variable {g : Guard} (awk : Awk)

/-- The target in front of the append step. Only some headers have gates, and few a `.prepend`
file. -/
def prepared (gated : Bool) (prepend_file : Option Text) (target : Text) : Text :=
  let target := if gated then longlongHeader target else target
  match prepend_file with
  | none => target
  | some file => prependStep awk file target

def installStep (gated : Bool) (prepend_file : Option Text) (v : Version g) (target : Text) :
    Option Text :=
  if gated = true ∧ longlongFatal target = true then none
  else some (appendStep v.text (some (prepared awk gated prepend_file target)))

def installRuns (gated : Bool) (prepend_file : Option Text) (header : Text)
    (versions : List (Version g)) : Option Text :=
  versions.foldlM (fun target v => installStep awk gated prepend_file v target) header

section

variable {header target file : Text} {line : Text}

theorem Prepended.keeps (h : Prepended file header target) (hline : line ∈ contents header) :
    line ∈ contents target := by
  cases h with
  | found => exact hline
  | nowhere => exact mem_contents_printed_of_mem (newline_notMem_contents hline) hline
  | inserted hheader =>
    apply mem_contents_printed_of_mem (newline_notMem_contents hline)
    rw [hheader] at hline
    simp only [List.mem_append, List.mem_cons] at hline ⊢
    tauto

theorem mem_contents_stripped (h : line ∈ contents (stripped file)) : line ∈ contents file := by
  induction file using List.reverseRecOn with
  | nil => exact h
  | append_singleton file c ih =>
    by_cases hc : c = '\n'
    · subst hc
      rw [stripped, List.rdropWhile_concat_pos _ _ _ (by decide)] at h
      obtain ⟨blank, -, hcontents⟩ := contents_append_newline file []
      rw [hcontents]
      exact List.mem_append_left _ (List.mem_append_left _ (ih h))
    · rwa [stripped, List.rdropWhile_concat_neg _ _ _ (by simpa using hc)] at h

theorem Prepended.origin (h : Prepended file header target) (hline : line ∈ contents target) :
    line = [] ∨ line ∈ contents header ∨ line ∈ contents file := by
  cases h with
  | found => exact .inr (.inl hline)
  | nowhere =>
    rcases mem_contents_printed hline with rfl | ⟨l, hl, hmem⟩
    · exact .inl rfl
    · obtain rfl := mem_contents_line (newline_notMem_contents hl) hmem
      exact .inr (.inl hl)
  | @inserted front back l hheader =>
    rcases mem_contents_printed hline with rfl | ⟨l', hl', hmem⟩
    · exact .inl rfl
    · have hcases : l' ∈ contents header ∨ l' = [] ∨ l' = stripped file := by
        rw [hheader]
        simp only [List.mem_append, List.mem_cons] at hl' ⊢
        tauto
      rcases hcases with hl' | rfl | rfl
      · obtain rfl := mem_contents_line (newline_notMem_contents hl') hmem
        exact .inr (.inl hl')
      · exact absurd hmem List.not_mem_nil
      · exact .inr (.inr (mem_contents_stripped hmem))

end

/-- What a header and the files for it have to be. -/
structure Installable (g : Guard) (gated : Bool) (prepend_file : Option Text) (header : Text) :
    Prop where
  /-- Otherwise the run stops. -/
  condition : gated = true → ∃ line ∈ contents header, line ∈ gates ∨ line = unconditional
  guarded : ∀ file ∈ prepend_file, guardOf file ≠ [] ∧ Pattern.Plain (guardOf file)
  noBackslash : ∀ file ∈ prepend_file, '\\' ∉ file
  place : prepend_file ≠ none → ∃ line ∈ contents header, definesH line = true
  unopened : ∀ line ∈ contents header, line ≠ g.opening
  fileUnopened : ∀ file ∈ prepend_file, ∀ line ∈ contents file, line ≠ g.opening
  fileNoGate : gated = true → ∀ file ∈ prepend_file, ∀ line ∈ contents file, line ∉ gates

/-- The `.append` file brings no gate to a header whose gates are rewritten. -/
def NoGate (gated : Bool) (v : Version g) : Prop :=
  gated = true → ∀ line ∈ contents v.text, line ∉ gates

section

variable {gated : Bool} {prepend_file : Option Text} {header : Text}

def rewritten (gated : Bool) (header : Text) : Text :=
  if gated = true then longlongHeader header else header

theorem prepared_eq (gated : Bool) (header : Text) :
    prepared awk gated prepend_file header =
      prepend_file.elim (rewritten gated header) fun file =>
        prependStep awk file (rewritten gated header) := by
  cases prepend_file <;> rfl

theorem mem_rewritten {line : Text} (hline : line ∈ contents header) (hgate : line ∉ gates) :
    line ∈ contents (rewritten gated header) := by
  rw [rewritten]
  split_ifs
  · rw [contents_longlongHeader, List.mem_flatMap]
    exact ⟨line, hline, by rw [rewriteGate_of_notMem hgate]; exact List.mem_singleton_self line⟩
  · exact hline

theorem rewritten_origin {line : Text} (h : line ∈ contents (rewritten gated header)) :
    line = marker ∨ line = unconditional ∨ line ∈ contents header := by
  rw [rewritten] at h
  split_ifs at h
  · rw [contents_longlongHeader, List.mem_flatMap] at h
    obtain ⟨l, hl, hmem⟩ := h
    rcases mem_rewriteGate hmem with rfl | rfl | ⟨rfl, -⟩
    · exact .inl rfl
    · exact .inr (.inl rfl)
    · exact .inr (.inr hl)
  · exact .inr (.inr h)

theorem gate_not_defines {line : Text} (hgate : line ∈ gates) : definesH line = false := by
  have hgates : ∀ gate ∈ gates, definesH gate = false := by decide +kernel
  exact hgates line hgate

namespace Installable

variable (h : Installable g gated prepend_file header)

include h

theorem prepended {file : Text} (hfile : prepend_file = some file) :
    Prepended file (rewritten gated header) (prepared awk gated prepend_file header) ∧
      grep (guardOf file) (prepared awk gated prepend_file header) ≠ [] := by
  subst hfile
  obtain ⟨hguard, hplain⟩ := h.guarded file rfl
  have hstep : prepared awk gated (some file) header =
      prependStep awk file (rewritten gated header) := rfl
  have hprepended :=
    prependStep_prepended awk (h.noBackslash file rfl) hguard (rewritten gated header)
  rw [hstep]
  refine ⟨hprepended, ?_⟩
  obtain ⟨hwithin, hline, -⟩ := guardOf_infix hguard
  generalize prependStep awk file (rewritten gated header) = target at hprepended ⊢
  cases hprepended with
  | found hgrep => exact hgrep
  | nowhere hnone =>
    obtain ⟨l, hl, hdefines⟩ := h.place (Option.some_ne_none file)
    have hgate : l ∉ gates := fun hgate => by
      rw [gate_not_defines hgate] at hdefines
      cases hdefines
    rw [hnone l (mem_rewritten hl hgate)] at hdefines
    cases hdefines
  | @inserted front back l =>
    have hcontent : stripped file <:+: printed (front ++ l :: [] :: stripped file :: back) :=
      ⟨printed (front ++ [l, []]), '\n' :: printed back, by simp [printed_append]⟩
    exact grep_guard hguard hplain ((infix_stripped hline hwithin).trans hcontent)

theorem mem_prepared {line : Text} (hline : line ∈ contents (rewritten gated header)) :
    line ∈ contents (prepared awk gated prepend_file header) := by
  cases hfile : prepend_file with
  | none => exact hline
  | some file =>
    rw [← hfile]
    exact (h.prepended awk hfile).1.keeps hline

theorem prepared_unopened :
    ∀ line ∈ contents (prepared awk gated prepend_file header), line ≠ g.opening := by
  rintro line hline rfl
  have hcases : g.opening = [] ∨ g.opening ∈ contents (rewritten gated header) ∨
      ∃ file ∈ prepend_file, g.opening ∈ contents file := by
    cases hfile : prepend_file with
    | none =>
      subst hfile
      exact .inr (.inl hline)
    | some file =>
      rcases (h.prepended awk hfile).1.origin hline with hnil | hmem | hmem
      · exact .inl hnil
      · exact .inr (.inl hmem)
      · exact .inr (.inr ⟨file, rfl, hmem⟩)
  rcases hcases with hnil | hmem | ⟨file, hfile, hmem⟩
  · exact absurd hnil (List.cons_ne_nil _ _)
  · rcases rewritten_origin hmem with hmarker | hnew | hheader
    · have hhash : g.opening.head? = some '#' := rfl
      rw [hmarker] at hhash
      exact absurd hhash (by decide +kernel)
    · have hprefix := hnew ▸ g.prefix_opening
      exact absurd hprefix (by decide +kernel)
    · exact h.unopened _ hheader rfl
  · exact h.fileUnopened file hfile _ hmem rfl

theorem unconditional_mem (hgated : gated = true) :
    unconditional ∈ contents (prepared awk gated prepend_file header) := by
  obtain ⟨line, hline, hcondition⟩ := h.condition hgated
  apply h.mem_prepared awk
  rw [rewritten, if_pos hgated, contents_longlongHeader, List.mem_flatMap]
  refine ⟨line, hline, ?_⟩
  rw [rewriteGate_eq, image]
  rcases hcondition with hgate | rfl
  · rw [if_pos hgate]
    exact List.mem_append_right _ (List.mem_singleton_self _)
  · rw [if_neg unconditional_notMem_gates]
    exact List.mem_append_right _ (List.mem_singleton_self _)

theorem prepared_noGate (hgated : gated = true) :
    ∀ line ∈ contents (prepared awk gated prepend_file header), line ∉ gates := by
  have hrewritten : ∀ line ∈ contents (rewritten gated header), line ∉ gates := by
    rw [rewritten, if_pos hgated]
    exact (migrated_longlongHeader header).noGate
  intro line hline
  cases hfile : prepend_file with
  | none =>
    subst hfile
    exact hrewritten line hline
  | some file =>
    rcases (h.prepended awk hfile).1.origin hline with rfl | hmem | hmem
    · exact notMem_gates_of_length (by decide)
    · exact hrewritten line hmem
    · exact h.fileNoGate hgated file hfile line hmem

end Installable

/-- A block whose last line is ended. -/
def Version.ended (v : Version g) : Version g := { v with newline := true }

theorem printed_block (v : Version g) : printed (contents v.block) = v.ended.block := by
  have hbody : printed (contents v.body) = v.body := printed_contents v.layout.body_ended
  rw [v.contents_block, printed_cons, printed_append, hbody, printed_cons, printed_nil]
  simp [Version.block, Version.ended]

theorem contents_text (v : Version g) :
    contents v.text = contents v.comment ++ contents v.block :=
  contents_append v.layout.comment_ended v.block

variable {versions : List (Version g)}

theorem exists_lines_target (base : Text) (versions : List (Version g)) (u : Version g) :
    ∃ added, contents (base ++ comments (versions ++ [u]) ++ u.block) =
        contents base ++ added ++ contents u.block ∧
      ∀ line ∈ added, line = [] ∨ ∃ v ∈ versions ++ [u], line ∈ contents v.comment := by
  obtain ⟨added, hadded, horigin⟩ := exists_lines_comments base (versions ++ [u])
  exact ⟨added, by rw [contents_append (ended_comments base versions u), hadded], horigin⟩

/-- The first two steps of a later run end the last line, if they do anything. -/
theorem prepared_again (h : Installable g gated prepend_file header) (u : Version g)
    (hversions : ∀ v ∈ versions ++ [u], NoGate gated v) :
    ∃ u' : Version g,
      prepared awk gated prepend_file
          (prepared awk gated prepend_file header ++ comments (versions ++ [u]) ++ u.block) =
        prepared awk gated prepend_file header ++ comments (versions ++ [u]) ++ u'.block ∧
      ¬ (gated = true ∧
        longlongFatal
            (prepared awk gated prepend_file header ++ comments (versions ++ [u]) ++ u.block) =
          true) := by
  generalize hbase : prepared awk gated prepend_file header = base
  have hended := ended_comments base versions u
  obtain ⟨added, hlines, horigin⟩ := exists_lines_target base versions u
  have hrewritten : ∃ u' : Version g,
      rewritten gated (base ++ comments (versions ++ [u]) ++ u.block) =
        base ++ comments (versions ++ [u]) ++ u'.block := by
    rw [rewritten]
    split_ifs with hgated
    · have hnoGate : ∀ line ∈ contents (base ++ comments (versions ++ [u]) ++ u.block),
          line ∉ gates := by
        intro line hline
        rw [hlines, List.mem_append, List.mem_append] at hline
        rcases hline with (hline | hline) | hline
        · exact h.prepared_noGate awk hgated line (hbase ▸ hline)
        · rcases horigin line hline with rfl | ⟨v, hv, hmem⟩
          · exact notMem_gates_of_length (by decide)
          · refine hversions v hv hgated line ?_
            rw [contents_text]
            exact List.mem_append_left _ hmem
        · refine hversions u (List.mem_append_right _ (List.mem_singleton_self u)) hgated line ?_
          rw [contents_text]
          exact List.mem_append_right _ hline
      refine ⟨u.ended, ?_⟩
      rw [longlongHeader_of_noGate hnoGate, contents_append hended, printed_append,
        printed_contents hended, printed_block]
    · exact ⟨u, rfl⟩
  obtain ⟨u', hu'⟩ := hrewritten
  refine ⟨u', ?_, ?_⟩
  · rw [prepared_eq awk, hu']
    cases hfile : prepend_file with
    | none => rfl
    | some file =>
      have hfound := (h.prepended awk hfile).2
      obtain ⟨added', hlines', -⟩ := exists_lines_comments base (versions ++ [u])
      have hgrep : grep (guardOf file) (base ++ comments (versions ++ [u]) ++ u'.block) ≠ [] := by
        rw [hbase, grep] at hfound
        rw [grep, contents_append hended, hlines', List.filter_append, List.filter_append]
        intro hnil
        exact hfound (List.append_eq_nil_iff.mp (List.append_eq_nil_iff.mp hnil).1).1
      exact if_pos ⟨(h.guarded file hfile).1, hgrep⟩
  · rintro ⟨hgated, hfatal⟩
    have hmem : unconditional ∈ contents (base ++ comments (versions ++ [u]) ++ u.block) := by
      rw [hlines]
      exact List.mem_append_left _ (List.mem_append_left _ (hbase ▸ h.unconditional_mem awk hgated))
    exact ((longlongFatal_iff _).mp hfatal _ hmem).2 rfl

/-- The steps before the append step do their work in the first run. From then on a run comes to
the append step alone, and no run stops. -/
theorem install_runs (g : Guard) (gated : Bool) (prepend_file : Option Text) (header : Text)
    (h : Installable g gated prepend_file header) (versions : List (Version g))
    (latest : Version g) (hversions : ∀ v ∈ versions ++ [latest], NoGate gated v) :
    installRuns awk gated prepend_file header (versions ++ [latest]) =
      some (runs (prepared awk gated prepend_file header) (versions ++ [latest])) := by
  induction versions using List.reverseRecOn generalizing latest with
  | nil =>
    have hgoes : ¬ (gated = true ∧ longlongFatal header = true) := by
      rintro ⟨hgated, hfatal⟩
      obtain ⟨line, hline, hcondition⟩ := h.condition hgated
      obtain ⟨hgate, hnew⟩ := (longlongFatal_iff header).mp hfatal line hline
      exact hcondition.elim hgate hnew
    rw [installRuns, List.nil_append, List.foldlM_cons, installStep, if_neg hgoes]
    rfl
  | append_singleton versions u ih =>
    have hprefix : ∀ v ∈ versions ++ [u], NoGate gated v :=
      fun v hv => hversions v (List.mem_append_left _ hv)
    have hrun := ih u hprefix
    obtain ⟨u', hagain, hgoes⟩ := prepared_again awk h u hprefix
    have hended := ended_comments (prepared awk gated prepend_file header) versions u
    have hunopened := comments_unopened (h.prepared_unopened awk) (versions ++ [u])
    have hruns := runs_eq (h.prepared_unopened awk) versions u
    rw [installRuns] at hrun
    rw [installRuns, List.foldlM_append, hrun, hruns, Option.bind_eq_bind, Option.bind_some,
      List.foldlM_cons, installStep, if_neg hgoes, hagain, appendStep_patched u' latest hended
      hunopened, runs_append_singleton, hruns, appendStep_patched u latest hended hunopened]
    rfl

end

def stdioHeader : Text := rawGate ++ "\n#define _STDIO_H\n#endif".toList

theorem contents_stdioHeader :
    contents stdioHeader = [rawGate, "#define _STDIO_H".toList, "#endif".toList] := by
  decide +kernel

theorem stdio_installable : Installable stdioGuard true (some stdioPrepend) stdioHeader where
  condition _ := by
    rw [contents_stdioHeader]
    exact ⟨rawGate, List.mem_cons_self, .inl List.mem_cons_self⟩
  guarded := by
    rintro file ⟨⟩
    decide +kernel
  noBackslash := by
    rintro file ⟨⟩
    decide +kernel
  place _ := by
    rw [contents_stdioHeader]
    exact ⟨"#define _STDIO_H".toList, by simp, by decide +kernel⟩
  unopened := by
    rw [contents_stdioHeader]
    decide +kernel
  fileUnopened := by
    rintro file ⟨⟩
    decide +kernel
  fileNoGate := by
    rintro _ file ⟨⟩ line hline
    have hshort : ∀ line ∈ contents stdioPrepend, line.length < 47 := by decide +kernel
    exact notMem_gates_of_length (hshort line hline)

theorem stdio_noGate : ∀ v ∈ [stdioOld, stdioNew], NoGate true v := by
  have hshort : ∀ v ∈ [stdioOld, stdioNew], ∀ line ∈ contents v.text, line.length < 47 := by
    decide +kernel
  intro v hv _ line hline
  exact notMem_gates_of_length (hshort v hv line hline)

theorem install_runs_stdio :
    installRuns plainAwk true (some stdioPrepend) stdioHeader [stdioOld, stdioNew] =
      some (runs (prepared plainAwk true (some stdioPrepend) stdioHeader) [stdioOld, stdioNew]) :=
  install_runs plainAwk stdioGuard true (some stdioPrepend) stdioHeader stdio_installable [stdioOld]
    stdioNew stdio_noGate

end Solcompat.Install
