import Solcompat.Printf.Stages

/-!
# What the scanner leaves in its buffer

The loop of `preprocess_fmt` stores the translation item by item. The first item that does not
fit ends it: what was stored of it is all that is in the buffer then. How much that is, whether
it is past the end, and whether a length modifier was rewritten can be said of the format
alone, from the offsets of its directives in the translation.
-/

namespace Solcompat.Printf

open Lib

namespace Item

variable (limit : ℕ)

/-- The item, stored from offset `o` on, goes past the end of the buffer. -/
def Overruns : Item → ℕ → Prop
  | directive d, o => d.Overruns limit (o + 1)
  | _, _ => False

/-- The scanner comes to a length modifier that it rewrites. -/
def Rewrites : Item → ℕ → Prop
  | directive d, o => d.modifier.isNew = true ∧ d.Reached limit (o + 1)
  | _, _ => False

/-- The item does not fit and is stored all the same. -/
def Spills : Item → ℕ → Prop
  | directive d, o => d.Spills limit (o + 1)
  | _, _ => False

variable {limit} {o : ℕ}

theorem Overruns.lt {x : Item} (h : x.Overruns limit o) : o + 1 < limit := by
  cases x with
  | directive d => exact h.elim (fun h => h.1) fun h => h.1
  | _ => exact h.elim

theorem Rewrites.lt {x : Item} (h : x.Rewrites limit o) : o + 1 < limit := by
  cases x with
  | directive d => exact h.2.1
  | _ => exact h.elim

theorem Spills.overruns {x : Item} (h : x.Spills limit o) : x.Overruns limit o := by
  cases x with
  | directive d => exact h.2.elim .inr fun h => .inl h.1
  | _ => exact h.elim

theorem Overruns.cut {x : Item} (h : x.Overruns limit o) :
    limit < o + x.translated.length := by
  cases x with
  | directive d =>
    have hlen := d.rewritten_text_length
    rw [translated, List.length_cons]
    rcases h with ⟨-, hflags, hwidth⟩ | ⟨-, hsum, hm⟩
    · rw [hwidth, List.length_singleton] at hlen
      omega
    · have hone : d.modifier.rewritten.text.length = 1 := by rw [hm]; rfl
      omega
  | _ => exact h.elim

end Item

/-- The bytes that the loop stores from a source on, and its `changed`. -/
def scan (limit : ℕ) (source stored : List UInt8) (changed : Bool) : Preprocessed :=
  let final := preprocessLoop limit ⟨source, stored⟩ changed
  ⟨final.1.stored, final.2⟩

theorem preprocessFmt_eq (fmt : CString) (outsize : ℕ) :
    preprocessFmt fmt outsize = scan (outsize - 1) fmt.bytes [] false := rfl

section Steps

variable {limit : ℕ} {source stored rest : List UInt8} {changed : Bool} {b : UInt8}

theorem scan_nil : scan limit [] stored changed = ⟨stored, changed⟩ := by
  unfold scan
  rw [preprocessLoop]

theorem scan_full (h : limit ≤ stored.length) :
    scan limit source stored changed = ⟨stored, changed⟩ := by
  unfold scan
  rw [preprocessLoop]
  cases source with
  | nil => rfl
  | cons b rest => simp only [Cursor.room, h.not_gt, if_false]

theorem scan_literal (hroom : stored.length < limit) (hb : b ≠ ch '%') :
    scan limit (b :: rest) stored changed = scan limit rest (stored ++ [b]) changed := by
  unfold scan
  rw [preprocessLoop]
  simp only [Cursor.room, hroom, hb, if_true, ne_eq, not_false_eq_true]

theorem scan_percent_end (hroom : stored.length < limit)
    (h : rest = [] ∨ limit ≤ stored.length + 1) :
    scan limit (ch '%' :: rest) stored changed = ⟨stored ++ [ch '%'], changed⟩ := by
  unfold scan
  rw [preprocessLoop]
  have hend : rest = [] ∨ ¬ stored.length + 1 < limit := h.imp_right Nat.not_lt.mpr
  simp only [Cursor.room, hroom, if_true, ne_eq, not_true_eq_false, if_false, List.length_append,
    List.length_singleton, hend]

theorem scan_percent (hroom : stored.length + 1 < limit) (hne : rest ≠ [])
    (hpercent : rest.headD 0 = ch '%') :
    scan limit (ch '%' :: rest) stored changed =
      scan limit rest.tail (stored ++ [ch '%', ch '%']) changed := by
  unfold scan
  rw [preprocessLoop]
  have hroom' : stored.length < limit := by omega
  have hgo : ¬ (rest = [] ∨ ¬ stored.length + 1 < limit) := by simp [hne, hroom]
  simp only [Cursor.room, hroom', if_true, ne_eq, not_true_eq_false, if_false, List.length_append,
    List.length_singleton, hgo, Cursor.peek, hpercent, Cursor.copyByte, List.append_assoc,
    List.singleton_append]

theorem scan_directive (hroom : stored.length + 1 < limit) (hne : rest ≠ [])
    (hpercent : rest.headD 0 ≠ ch '%') :
    scan limit (ch '%' :: rest) stored changed =
      scan limit (Cursor.directive limit ⟨rest, stored ++ [ch '%']⟩).1.source
        (Cursor.directive limit ⟨rest, stored ++ [ch '%']⟩).1.stored
        (changed || (Cursor.directive limit ⟨rest, stored ++ [ch '%']⟩).2) := by
  unfold scan
  rw [preprocessLoop]
  have hroom' : stored.length < limit := by omega
  have hgo : ¬ (rest = [] ∨ ¬ stored.length + 1 < limit) := by simp [hne, hroom]
  simp only [Cursor.room, hroom', if_true, ne_eq, not_true_eq_false, if_false, List.length_append,
    List.length_singleton, hgo, Cursor.peek, hpercent]

end Steps

/-- What the items of a source say about the buffer after it was scanned. -/
structure Scanned (xs : List Item) (limit : ℕ) (stored : List UInt8) (changed : Bool)
    (out : Preprocessed) : Prop where
  fits : stored.length + (translate xs).length ≤ limit → out.stored = stored ++ translate xs
  changed : out.changed = true ↔
    changed = true ∨ Somewhere (Item.Rewrites limit) xs stored.length
  overruns : limit < out.stored.length ↔ Somewhere (Item.Overruns limit) xs stored.length
  whole : limit < stored.length + (translate xs).length →
    (out.stored = stored ++ translate xs ↔ AtEnd (Item.Spills limit) xs stored.length)

section Scanned

variable {x : Item} {xs : List Item} {limit : ℕ} {source stored : List UInt8}
  {changed changed' : Bool} {out : Preprocessed}

theorem Scanned.nil (h : stored.length ≤ limit) :
    Scanned [] limit stored changed ⟨stored, changed⟩ where
  fits _ := by simp
  changed := by simp [not_somewhere_nil]
  overruns := iff_of_false h.not_gt not_somewhere_nil
  whole hlt := absurd hlt (by simp [h])

theorem Scanned.cons (hfit : stored.length + x.translated.length ≤ limit)
    (hchanged : changed' = true ↔ changed = true ∨ x.Rewrites limit stored.length)
    (h : Scanned xs limit (stored ++ x.translated) changed' out) :
    Scanned (x :: xs) limit stored changed out := by
  have hover : ¬ x.Overruns limit stored.length := fun hover => hover.cut.not_ge hfit
  have hspills : ¬ x.Spills limit stored.length := fun hspills => hover hspills.overruns
  constructor
  · intro hlen
    rw [translate_cons, List.length_append] at hlen
    rw [h.fits (by rw [List.length_append]; omega), translate_cons, List.append_assoc]
  · rw [h.changed, hchanged, somewhere_cons, List.length_append, or_assoc]
  · rw [h.overruns, somewhere_cons, List.length_append]
    exact (or_iff_right hover).symm
  · intro hlen
    rw [translate_cons, List.length_append, ← Nat.add_assoc, ← List.length_append] at hlen
    rw [translate_cons, ← List.append_assoc, h.whole hlen, atEnd_cons, List.length_append]
    exact (or_iff_right fun h => hspills h.2).symm

/-- The first item that does not fit is the last one of which anything is stored. -/
theorem Scanned.cut (hcut : limit < stored.length + x.translated.length)
    (hchanged : out.changed = true ↔ changed = true ∨ x.Rewrites limit stored.length)
    (hover : limit < out.stored.length ↔ x.Overruns limit stored.length)
    (hwhole : x.Spills limit stored.length → out.stored = stored ++ x.translated ∧ xs = [])
    (hshort : ¬ x.Spills limit stored.length →
      out.stored.length < stored.length + x.translated.length) :
    Scanned (x :: xs) limit stored changed out := by
  constructor
  · intro hlen
    rw [translate_cons, List.length_append] at hlen
    omega
  · rw [hchanged, somewhere_cons,
      or_iff_left (not_somewhere_of_le (fun _ _ h => Nat.lt_of_succ_lt h.lt) hcut.le)]
  · rw [hover, somewhere_cons,
      or_iff_left (not_somewhere_of_le (fun _ _ h => Nat.lt_of_succ_lt h.lt) hcut.le)]
  · intro _
    have hend : ¬ AtEnd (Item.Spills limit) xs (stored.length + x.translated.length) := by
      intro h
      refine not_somewhere_of_le (fun _ _ h => ?_) hcut.le h.somewhere
      exact Nat.lt_of_succ_lt h.overruns.lt
    rw [atEnd_cons, or_iff_left hend, translate_cons]
    constructor
    · intro hstored
      by_cases hspills : x.Spills limit stored.length
      · exact ⟨(hwhole hspills).2, hspills⟩
      · have := hshort hspills
        rw [hstored, List.length_append, List.length_append] at this
        omega
    · rintro ⟨rfl, hspills⟩
      rw [(hwhole hspills).1, translate_nil, List.append_nil]

theorem Scanned.stop (h : stored.length = limit) :
    Scanned (x :: xs) limit stored changed ⟨stored, changed⟩ := by
  have hlen := List.length_pos_of_ne_nil x.translated_ne_nil
  have hover : ¬ x.Overruns limit stored.length := fun hx => by
    have := hx.lt
    omega
  apply Scanned.cut
  · omega
  · exact (or_iff_left fun hx => by have := hx.lt; omega).symm
  · exact iff_of_false h.not_gt hover
  · exact fun hx => absurd hx.overruns hover
  · intro _
    dsimp only
    omega

theorem Scanned.percent {tail : List UInt8} (h : stored.length + 1 = limit)
    (hx : x.translated = ch '%' :: tail) (hnil : tail = [] → xs = []) :
    Scanned (x :: xs) limit stored changed ⟨stored ++ [ch '%'], changed⟩ := by
  have hlen : x.translated.length = tail.length + 1 := by rw [hx, List.length_cons]
  have hfull : (stored ++ [ch '%']).length = limit := by
    rw [List.length_append, List.length_singleton, h]
  have hchanged : changed = true ↔ changed = true ∨ x.Rewrites limit stored.length :=
    (or_iff_left fun hx => by have := hx.lt; omega).symm
  by_cases htail : tail = []
  · subst htail
    obtain rfl := hnil rfl
    refine Scanned.cons (by rw [hlen, List.length_nil]; omega) hchanged ?_
    rw [hx]
    exact .nil hfull.le
  · have hpos := List.length_pos_of_ne_nil htail
    have hover : ¬ x.Overruns limit stored.length := fun hx => by
      have := hx.lt
      omega
    apply Scanned.cut
    · omega
    · exact hchanged
    · exact iff_of_false hfull.not_gt hover
    · exact fun hx => absurd hx.overruns hover
    · intro _
      dsimp only
      omega

theorem scan_directive_scanned {d : Directive} {rest rest' : List UInt8}
    (hd : Directive.read rest = (d, rest')) (hne : rest ≠ []) (hpercent : rest.headD 0 ≠ ch '%')
    (hroom : stored.length + 1 < limit)
    (ih : ∀ {stored : List UInt8} {changed : Bool}, stored.length ≤ limit →
      Scanned (items rest') limit stored changed (scan limit rest' stored changed)) :
    Scanned (.directive d :: items rest') limit stored changed
      (scan limit (ch '%' :: rest) stored changed) := by
  have hstored : (stored ++ [ch '%']).length = stored.length + 1 := by simp
  have htranslated : (Item.directive d).translated = ch '%' :: d.rewritten.text := rfl
  have hlen : (Item.directive d).translated.length = d.rewritten.text.length + 1 := rfl
  rw [scan_directive hroom hne hpercent]
  by_cases hfits : (stored ++ [ch '%']).length + d.rewritten.text.length ≤ limit
  · rw [Cursor.directive_fits hd hfits]
    have hreached : d.Reached limit (stored.length + 1) := by
      have := d.rewritten_text_length
      exact ⟨hroom, .inl (by omega)⟩
    apply Scanned.cons
    · omega
    · rw [Bool.or_eq_true]
      exact or_congr_right (and_iff_left hreached).symm
    · rw [htranslated, ← List.singleton_append, ← List.append_assoc]
      apply ih
      rw [List.length_append]
      exact hfits
  · have hcut := Cursor.directive_cutOff (by rw [hd]) (by omega) (not_le.mp hfits)
    generalize Cursor.directive limit ⟨rest, stored ++ [ch '%']⟩ = out at hcut ⊢
    have hscan : scan limit out.1.source out.1.stored (changed || out.2) =
        ⟨out.1.stored, changed || out.2⟩ := by
      rcases hcut.ended with hfull | hend
      · exact scan_full hfull
      · rw [hend, scan_nil]
    have hrewrites := hcut.changed
    have hover := hcut.overruns
    have hwhole := hcut.whole
    have hshort := hcut.short
    rw [hstored] at hrewrites hover hwhole hshort
    rw [hscan]
    apply Scanned.cut
    · omega
    · rw [Bool.or_eq_true]
      exact or_congr_right hrewrites
    · exact hover
    · intro hspills
      refine ⟨?_, ?_⟩
      · rw [hwhole hspills, htranslated, List.append_assoc, List.singleton_append]
      · rw [Directive.rest_of_conversion hd hspills.1, items]
    · intro hspills
      have := hshort hspills
      dsimp only
      omega

theorem scan_scanned (h : stored.length ≤ limit) :
    Scanned (items source) limit stored changed (scan limit source stored changed) := by
  fun_induction items source generalizing stored changed with
  | case1 =>
    rw [scan_nil]
    exact .nil h
  | case2 b rest hb ih =>
    rcases h.lt_or_eq with hroom | heq
    · rw [scan_literal hroom hb]
      apply Scanned.cons
      · exact hroom
      · exact (or_iff_left id).symm
      · apply ih
        rw [List.length_append]
        exact hroom
    · rw [scan_full heq.ge]
      exact .stop heq
  | case3 b hb =>
    obtain rfl := not_not.mp hb
    rcases h.lt_or_eq with hroom | heq
    · rw [scan_percent_end hroom (.inl rfl)]
      apply Scanned.cons
      · exact hroom
      · exact (or_iff_left id).symm
      · apply Scanned.nil
        rw [List.length_append]
        exact hroom
    · rw [scan_full heq.ge]
      exact .stop heq
  | case4 b rest hb hne hpercent ih =>
    obtain rfl := not_not.mp hb
    rcases h.lt_or_eq with hroom | heq
    · rcases (Nat.succ_le_of_lt hroom).lt_or_eq with hroom' | heq
      · rw [scan_percent hroom' hne hpercent]
        apply Scanned.cons
        · exact hroom'
        · exact (or_iff_left id).symm
        · apply ih
          rw [List.length_append]
          exact hroom'
      · rw [scan_percent_end hroom (.inr heq.ge)]
        exact .percent heq rfl (by simp)
    · rw [scan_full heq.ge]
      exact .stop heq
  | case5 b rest hb hne hpercent ih =>
    obtain rfl := not_not.mp hb
    generalize hd : Directive.read rest = r at ih
    obtain ⟨d, rest'⟩ := r
    rcases h.lt_or_eq with hroom | heq
    · rcases (Nat.succ_le_of_lt hroom).lt_or_eq with hroom' | heq
      · exact scan_directive_scanned hd hne hpercent hroom' ih
      -- a directive of which the `%` is left over has no conversion
      · rw [scan_percent_end hroom (.inr heq.ge)]
        refine .percent heq rfl fun hnil => ?_
        rw [Directive.rest_of_conversion hd (List.append_eq_nil_iff.mp hnil).2, items]
    · rw [scan_full heq.ge]
      exact .stop heq

end Scanned

theorem preprocessFmt_scanned (fmt : CString) (outsize : ℕ) :
    Scanned (items fmt.bytes) (outsize - 1) [] false (preprocessFmt fmt outsize) :=
  scan_scanned (Nat.zero_le _)

/-- The offsets in `out` that are stored to, the last of them for the terminator. -/
def Preprocessed.offsets (p : Preprocessed) : List ℕ := List.range (p.stored.length + 1)

/-- Every store is inside the buffer if and only if no directive goes past its end: neither with
a `*` width after flags, nor with a `hh` after flags, width or precision, that falls just on the
place of the terminator. -/
theorem preprocessFmt_inside_iff (fmt : CString) {outsize : ℕ} (hsize : 1 ≤ outsize) :
    (∀ i ∈ (preprocessFmt fmt outsize).offsets, i < outsize) ↔
      ¬ Somewhere (Item.Overruns (outsize - 1)) (items fmt.bytes) 0 := by
  have hover := (preprocessFmt_scanned fmt outsize).overruns
  rw [List.length_nil] at hover
  rw [← hover]
  simp only [Preprocessed.offsets, List.mem_range]
  constructor
  · intro h
    have := h _ (Nat.lt_succ_self _)
    omega
  · intro h i hi
    omega

theorem items_literal {text rest : List UInt8} (h : ∀ b ∈ text, b ≠ ch '%') :
    items (text ++ rest) = text.map .literal ++ items rest := by
  induction text with
  | nil => rfl
  | cons b text ih =>
    rw [List.forall_mem_cons] at h
    rw [List.cons_append, items, if_pos h.1, ih h.2]
    rfl

theorem somewhere_literal {P : Item → ℕ → Prop} (hP : ∀ b o, ¬ P (.literal b) o)
    (text : List UInt8) {xs : List Item} {o : ℕ} :
    Somewhere P (text.map .literal ++ xs) o ↔ Somewhere P xs (o + text.length) := by
  induction text generalizing o with
  | nil => rfl
  | cons b text ih =>
    rw [List.map_cons, List.cons_append, somewhere_cons, or_iff_right (hP b o), ih,
      List.length_cons, Nat.add_assoc, Nat.add_comm text.length]
    rfl

theorem translate_literal (text : List UInt8) : translate (text.map .literal) = text := by
  induction text with
  | nil => rfl
  | cons b text ih =>
    rw [List.map_cons, translate_cons, ih]
    rfl

/-- The format `%zu` and the buffer of the caller. -/
theorem preprocessFmt_inside_size :
    1 ≤ 2048 ∧ ∀ i ∈ (preprocessFmt (.ofString "%zu") 2048).offsets, i < 2048 := by
  refine ⟨by decide, ?_⟩
  rw [preprocessFmt_inside_iff _ (by decide)]
  have hitems : items (CString.ofString "%zu").bytes =
      [.directive ⟨[], [], [], .z, [ch 'u']⟩] := by
    decide +kernel
  rw [hitems, somewhere_cons, or_iff_left not_somewhere_nil]
  rintro (⟨-, hflags, -⟩ | ⟨-, -, hm⟩)
  · revert hflags
    decide
  · cases hm

/-- A format whose `*` falls on the last byte of the buffer: the terminator is stored behind it. -/
def overrunFormat : CString :=
  ⟨List.replicate 2045 (ch 'x') ++ (CString.ofString "%-*d").bytes, by
    intro b hb
    rcases List.mem_append.mp hb with hb | hb
    · rw [List.eq_of_mem_replicate hb]
      decide
    · exact (CString.ofString "%-*d").nulFree b hb⟩

theorem overrunFormat_items : items overrunFormat.bytes =
    (List.replicate 2045 (ch 'x')).map .literal ++
      [.directive ⟨[ch '-'], [ch '*'], [], .standard [], [ch 'd']⟩] := by
  have hitems : items (CString.ofString "%-*d").bytes =
      [.directive ⟨[ch '-'], [ch '*'], [], .standard [], [ch 'd']⟩] := by
    decide +kernel
  rw [overrunFormat, items_literal, hitems]
  intro b hb
  rw [List.eq_of_mem_replicate hb]
  decide

theorem preprocessFmt_overruns :
    ¬ ∀ i ∈ (preprocessFmt overrunFormat 2048).offsets, i < 2048 := by
  have hover : Somewhere (Item.Overruns 2047) (items overrunFormat.bytes) 0 := by
    rw [overrunFormat_items, somewhere_literal fun _ _ => id, List.length_replicate,
      somewhere_cons]
    exact .inl (.inl ⟨by decide, rfl, rfl⟩)
  have hlong := (preprocessFmt_scanned overrunFormat 2048).overruns.mpr hover
  intro h
  have := h _ List.self_mem_range_succ
  omega

end Solcompat.Printf
