import Solcompat.Getopt.Render

/-!
# Looking options up

The two searches of the scanner: `strchr` in the option string finds the first entry
of a character, and the loop over the long-option table finds the entry a name spells.
-/

namespace Solcompat.Getopt

open Solcompat.Lib

section OptionString

theorem head_optionBytes_ne {options : List (UInt8 × ArgKind)} {b : UInt8}
    (h : ∀ o ∈ options, o.1 ≠ b) : (optionBytes options).head? ≠ some b := by
  cases options with
  | nil => simp [optionBytes]
  | cons o rest =>
    have ho : o.1 ≠ b := h o (by simp)
    simpa [optionBytes] using ho

/-- The byte after the first `n` ones is the first of the rest, or the terminator. -/
theorem read_ne_of_head_ne {s : CString} (front : List UInt8) {back : List UInt8}
    {b : UInt8} (hs : s.bytes = front ++ back) (hback : back.head? ≠ some b) (hb : b ≠ 0) :
    ∃ x, s.read front.length = some x ∧ x ≠ b := by
  cases back with
  | nil =>
    refine ⟨0, CString.read_end (by simp [hs]), hb.symm⟩
  | cons y back => exact ⟨y, CString.read_append hs, by simpa using hback⟩

namespace OptString

variable {opts : OptString} {c : UInt8} {k : ArgKind}

theorem mem_options_of_kind (hk : opts.kind c = some k) : (c, k) ∈ opts.options := by
  obtain ⟨before, after, hsplit, -⟩ := List.lookup_eq_some_iff.mp hk
  simp [hsplit]

/-- The first entry of a character, with its colons and no more of them. -/
theorem optionBytes_split (hk : opts.kind c = some k) :
    ∃ front back, optionBytes opts.options = front ++ c :: (k.colons ++ back) ∧
      c ∉ front ∧ back.head? ≠ some (ch ':') := by
  obtain ⟨before, after, hsplit, hbefore⟩ := List.lookup_eq_some_iff.mp hk
  have hafter : ∀ o ∈ after, o.1 ≠ ch ':' := by
    intro o ho
    exact opts.noColon o (by simp [hsplit, ho])
  refine ⟨optionBytes before, optionBytes after, ?_, ?_, head_optionBytes_ne hafter⟩
  · simp [hsplit, optionBytes]
  · intro hmem
    rcases mem_optionBytes hmem with ⟨o, ho, rfl⟩ | hcolon
    · simpa using hbefore o ho
    · exact opts.noColon _ (mem_options_of_kind hk) hcolon

/-- What remains of the option string past a mode character still has every option,
and its first byte is no option. -/
theorem pastMode_text (opts : OptString) :
    ∃ mode, (pastMode opts.text).bytes = mode ++ optionBytes opts.options ∧
      ∀ o ∈ opts.options, o.1 ∉ mode := by
  have hplus := head_optionBytes_ne opts.noPlus
  have hdash := head_optionBytes_ne opts.noDash
  rcases hlead : opts.lead with _ | _ | _
  · refine ⟨[], ?_, by simp⟩
    simp [pastMode, text, leadBytes, hlead, hplus, hdash]
  · refine ⟨[], ?_, by simp⟩
    simp [pastMode, text, leadBytes, hlead, Lead.bytes]
  · refine ⟨[ch ':'], ?_, by simpa using fun c k h => opts.noColon (c, k) h⟩
    simp [pastMode, text, leadBytes, hlead, Lead.bytes, ch]

theorem strchr_pastMode (hk : opts.kind c = some k) :
    ∃ spec back, (pastMode opts.text).strchr c = some spec ∧
      spec.bytes = c :: (k.colons ++ back) ∧ back.head? ≠ some (ch ':') := by
  have hmem := mem_options_of_kind hk
  obtain ⟨mode, htext, hmode⟩ := pastMode_text opts
  obtain ⟨front, back, hsplit, hfront, hback⟩ := optionBytes_split hk
  have hbytes : (pastMode opts.text).bytes = (mode ++ front) ++ c :: (k.colons ++ back) := by
    rw [htext, hsplit, List.append_assoc]
  have hbefore : c ∉ mode ++ front := by
    simpa using ⟨hmode _ hmem, hfront⟩
  obtain ⟨spec, hspec, hspecBytes⟩ :=
    CString.strchr_append hbytes (opts.ascii _ hmem).1 hbefore
  exact ⟨spec, back, hspec, hspecBytes, hback⟩

theorem read_text_zero (opts : OptString) :
    ∃ first, opts.text.read 0 = some first ∧ first ≠ ch '-' := by
  apply read_ne_of_head_ne [] (List.nil_append opts.text.bytes).symm ?_ (by decide)
  rcases hlead : opts.lead with _ | _ | _
  · simpa [text, leadBytes, hlead] using head_optionBytes_ne opts.noDash
  · simp [text, leadBytes, hlead, Lead.bytes, ch]
  · simp [text, leadBytes, hlead, Lead.bytes, ch]

theorem charInt_of_kind (hk : opts.kind c = some k) : charInt c = c.toNat := by
  have h := (opts.ascii _ (mem_options_of_kind hk)).2
  simp only at h
  simp [charInt, h]

end OptString

end OptionString

section Table

theorem matchLoop_cons_other {name : CString} {n : ℕ} {o : LongOption}
    (h : ¬ o.name.strncmp name n = 0) (entries : List LongOption) (i : ℕ)
    (found : Option ℕ) (ambiguous : Bool) :
    matchLoop name n (o :: entries) i found ambiguous =
      matchLoop name n entries (i + 1) found ambiguous := by
  cases found <;> simp [matchLoop, h]

theorem matchLoop_cons_exact {name : CString} {n : ℕ} {o : LongOption}
    (h : o.name.strncmp name n = 0) (hlength : o.name.strlen = n)
    (entries : List LongOption) (i : ℕ) (found : Option ℕ) (ambiguous : Bool) :
    matchLoop name n (o :: entries) i found ambiguous = (some i, false) := by
  cases found <;> simp [matchLoop, h, hlength]

theorem matchLoop_cons_proper {name : CString} {n : ℕ} {o : LongOption}
    (h : o.name.strncmp name n = 0) (hlength : ¬ o.name.strlen = n)
    (entries : List LongOption) (i : ℕ) (found : Option ℕ) (ambiguous : Bool) :
    matchLoop name n (o :: entries) i found ambiguous =
      matchLoop name n entries (i + 1) (some (found.getD i))
        (found.isSome || ambiguous) := by
  cases found <;> simp [matchLoop, h, hlength]

theorem matchLoop_skip {name : CString} {word rest : List UInt8}
    (hname : name.bytes = word ++ rest) (found : Option ℕ) (ambiguous : Bool) :
    ∀ (entries : List LongOption) (i : ℕ), (∀ o ∈ entries, ¬ word <+: o.name.bytes) →
      matchLoop name word.length entries i found ambiguous = (found, ambiguous)
  | [], i, _ => rfl
  | o :: entries, i, h => by
    have ho : ¬ o.name.strncmp name word.length = 0 := by
      rw [CString.strncmp_eq_zero hname]
      exact h o (by simp)
    have hrest : ∀ o' ∈ entries, ¬ word <+: o'.name.bytes :=
      fun o' ho' => h o' (by simp [ho'])
    rw [matchLoop_cons_other ho]
    exact matchLoop_skip hname found ambiguous entries (i + 1) hrest

theorem matchLoop_exact {name : CString} {word rest : List UInt8}
    (hname : name.bytes = word ++ rest) (o : LongOption) (ho : o.name.bytes = word)
    (after : List LongOption) :
    ∀ (before : List LongOption) (i : ℕ) (found : Option ℕ) (ambiguous : Bool),
      (∀ o' ∈ before, o'.name.bytes ≠ word) →
      matchLoop name word.length (before ++ o :: after) i found ambiguous =
        (some (i + before.length), false)
  | [], i, found, ambiguous, _ => by
    have hmatch : o.name.strncmp name word.length = 0 := by
      rw [CString.strncmp_eq_zero hname, ho]
    have hlength : o.name.strlen = word.length := by rw [CString.strlen, ho]
    exact matchLoop_cons_exact hmatch hlength after i found ambiguous
  | o' :: before, i, found, ambiguous, h => by
    have hrest : ∀ o'' ∈ before, o''.name.bytes ≠ word :=
      fun o'' ho'' => h o'' (by simp [ho''])
    have ih := fun found ambiguous =>
      matchLoop_exact hname o ho after before (i + 1) found ambiguous hrest
    have hnext : i + 1 + before.length = i + (o' :: before).length := by
      simp only [List.length_cons]
      omega
    rw [hnext] at ih
    rw [List.cons_append]
    by_cases hmatch : o'.name.strncmp name word.length = 0
    · have hlength : ¬ o'.name.strlen = word.length := by
        intro hlen
        have hstart := (CString.strncmp_eq_zero hname).mp hmatch
        exact h o' (by simp) (hstart.eq_of_length hlen.symm).symm
      rw [matchLoop_cons_proper hmatch hlength]
      exact ih _ _
    · rw [matchLoop_cons_other hmatch]
      exact ih _ _

/-- A proper beginning of one name and of no other is found, without ambiguity. -/
theorem matchLoop_unique {name : CString} {word rest : List UInt8}
    (hname : name.bytes = word ++ rest) (o : LongOption) (ho : word <+: o.name.bytes)
    (hproper : o.name.bytes ≠ word) (after : List LongOption)
    (hafter : ∀ o' ∈ after, ¬ word <+: o'.name.bytes) :
    ∀ (before : List LongOption) (i : ℕ), (∀ o' ∈ before, ¬ word <+: o'.name.bytes) →
      matchLoop name word.length (before ++ o :: after) i none false =
        (some (i + before.length), false)
  | [], i, _ => by
    have hmatch := (CString.strncmp_eq_zero hname).mpr ho
    have hlength : ¬ o.name.strlen = word.length := by
      intro hlen
      exact hproper (ho.eq_of_length hlen.symm).symm
    rw [List.nil_append, matchLoop_cons_proper hmatch hlength]
    exact matchLoop_skip hname _ _ after _ hafter
  | o' :: before, i, h => by
    have ho' : ¬ o'.name.strncmp name word.length = 0 := by
      rw [CString.strncmp_eq_zero hname]
      exact h o' (by simp)
    have hrest : ∀ o'' ∈ before, ¬ word <+: o''.name.bytes :=
      fun o'' ho'' => h o'' (by simp [ho''])
    rw [List.cons_append, matchLoop_cons_other ho',
      matchLoop_unique hname o ho hproper after hafter before (i + 1) hrest]
    simp only [List.length_cons]
    congr 2
    omega

variable {table : LongTable} {i : ℕ} {o : LongOption} {word : List UInt8}

theorem Spells.prefix_name (h : Spells table i o word) : word <+: o.name.bytes := by
  rcases h.2 with rfl | h
  · exact List.prefix_rfl
  · exact h.2.1

theorem Spells.ne_nil (h : Spells table i o word) : word ≠ [] := by
  rcases h.2 with rfl | h'
  · exact table.named o (List.mem_of_getElem? h.1)
  · exact h'.1

theorem Spells.noEquals (h : Spells table i o word) : ch '=' ∉ word := by
  intro hmem
  exact table.noEquals o (List.mem_of_getElem? h.1) (h.prefix_name.subset hmem)

theorem Spells.matchLoop_eq (h : Spells table i o word) {name : CString}
    {rest : List UInt8} (hname : name.bytes = word ++ rest) :
    matchLoop name word.length table.entries 0 none false = (some i, false) := by
  obtain ⟨hi, ho⟩ := List.getElem?_eq_some_iff.mp h.1
  have hsplit : table.entries =
      table.entries.take i ++ o :: table.entries.drop (i + 1) := by
    rw [← ho, List.cons_getElem_drop_succ, List.take_append_drop]
  have hlength : 0 + (table.entries.take i).length = i := by
    rw [List.length_take]
    omega
  by_cases hexact : o.name.bytes = word
  · have hbefore : ∀ o' ∈ table.entries.take i, o'.name.bytes ≠ word := by
      intro o' ho' heq
      have hdistinct := table.distinct
      rw [hsplit, List.map_append, List.map_cons] at hdistinct
      have hmem : o.name ∈ (table.entries.take i).map LongOption.name := by
        rw [CString.ext_bytes (hexact.trans heq.symm)]
        exact List.mem_map_of_mem ho'
      exact (List.nodup_append.mp hdistinct).2.2 _ hmem _ (by simp) rfl
    rw [hsplit, matchLoop_exact hname o hexact _ _ 0 none false hbefore, hlength]
  · obtain ⟨-, hstart, hother⟩ := h.2.resolve_left fun heq => hexact heq.symm
    have hbefore : ∀ o' ∈ table.entries.take i, ¬ word <+: o'.name.bytes := by
      intro o' ho'
      obtain ⟨j, hj⟩ := List.mem_iff_getElem?.mp ho'
      have hlt : j < i := by
        have := (List.getElem?_eq_some_iff.mp hj).1
        rw [List.length_take] at this
        omega
      rw [List.getElem?_take_of_lt hlt] at hj
      exact hother j o' hj (by omega)
    have hafter : ∀ o' ∈ table.entries.drop (i + 1), ¬ word <+: o'.name.bytes := by
      intro o' ho'
      obtain ⟨j, hj⟩ := List.mem_iff_getElem?.mp ho'
      rw [List.getElem?_drop] at hj
      exact hother _ o' hj (by omega)
    rw [hsplit, matchLoop_unique hname o hstart hexact _ hafter _ 0 hbefore, hlength]

end Table

end Solcompat.Getopt
