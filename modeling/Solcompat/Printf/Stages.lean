import Solcompat.Printf.Directive

/-!
# The stages of the scanner

`preprocess_fmt` goes through a directive in stages: flags, width, precision, length modifier
and conversion. While there is room, each stage stores what the translation says. The first
stage without room leaves the buffer full, and the later ones store nothing more, with two
exceptions that the source makes: a `*` width and the `h` of a `hh` are stored without a test.
-/

namespace Solcompat.Printf

open Lib

section CopyWhile

variable {limit : ℕ} {p : UInt8 → Bool} {source stored : List UInt8}

theorem copyWhile_full (h : limit ≤ stored.length) :
    copyWhile limit p source stored = ⟨source, stored⟩ := by
  cases source with
  | nil => rfl
  | cons b rest => simp [copyWhile, h.not_gt]

theorem copyWhile_fits (h : stored.length + (source.takeWhile p).length ≤ limit) :
    copyWhile limit p source stored =
      ⟨source.drop (source.takeWhile p).length, stored ++ source.takeWhile p⟩ := by
  induction source generalizing stored with
  | nil => simp [copyWhile]
  | cons b rest ih =>
    cases hb : p b with
    | false => simp [copyWhile, hb]
    | true =>
      simp only [List.takeWhile_cons_of_pos hb, List.length_cons] at h
      have hroom : stored.length < limit := by omega
      have hrest : (stored ++ [b]).length + (rest.takeWhile p).length ≤ limit := by
        rw [List.length_append, List.length_singleton]
        omega
      rw [copyWhile, if_pos (by simp [hroom, hb]), ih hrest]
      simp [hb]

theorem copyWhile_cut (hroom : stored.length ≤ limit)
    (h : limit < stored.length + (source.takeWhile p).length) :
    (copyWhile limit p source stored).stored.length = limit ∧
      p (copyWhile limit p source stored).peek = true := by
  induction source generalizing stored with
  | nil => simp only [List.takeWhile_nil, List.length_nil] at h; omega
  | cons b rest ih =>
    cases hb : p b with
    | false => simp [hb] at h; omega
    | true =>
      simp only [List.takeWhile_cons_of_pos hb, List.length_cons] at h
      rcases hroom.lt_or_eq with hlt | heq
      · rw [copyWhile, if_pos (by simp [hlt, hb])]
        apply ih
        · simp only [List.length_append, List.length_singleton]
          omega
        · simp only [List.length_append, List.length_singleton]
          omega
      · rw [copyWhile_full heq.ge]
        exact ⟨heq, hb⟩

end CopyWhile

/-- A byte that is no part of a length modifier of C99. -/
structure Inert (b : UInt8) : Prop where
  z : b ≠ ch 'z'
  t : b ≠ ch 't'
  j : b ≠ ch 'j'
  h : b ≠ ch 'h'

theorem Inert.of_isFlag {b : UInt8} (hb : isFlag b = true) : Inert b := by
  constructor <;> rintro rfl <;> revert hb <;> decide

theorem Inert.of_isDigit {b : UInt8} (hb : isDigit b = true) : Inert b := by
  constructor <;> rintro rfl <;> revert hb <;> decide

theorem Inert.point : Inert (ch '.') := by
  constructor <;> decide

theorem Inert.star : Inert (ch '*') := by
  constructor <;> decide

theorem Modifier.read_inert {source : List UInt8} (h : Inert (source.headD 0)) :
    Modifier.read source = .standard (source.takeWhile isLength) := by
  rw [Modifier.read, if_neg h.z, if_neg h.t, if_neg h.j, if_neg fun hh => h.h hh.1]

namespace Cursor

variable {limit : ℕ} {source stored : List UInt8}

theorem copyByte_of_peek {b : UInt8} (h : source.headD 0 = b) :
    copyByte ⟨source, stored⟩ = ⟨source.drop 1, stored ++ [b]⟩ := by
  rw [copyByte, peek, h, List.drop_one]

theorem copyWidth_fits (h : stored.length + (readCount source).length ≤ limit) :
    copyWidth limit ⟨source, stored⟩ =
      ⟨source.drop (readCount source).length, stored ++ readCount source⟩ := by
  unfold copyWidth readCount at *
  by_cases hstar : source.headD 0 = ch '*'
  · rw [if_pos (by exact hstar), if_pos hstar, copyByte_of_peek hstar, List.length_singleton]
  · rw [if_neg hstar] at h
    rw [if_neg (by exact hstar), if_neg hstar]
    exact copyWhile_fits h

/-- After the point a `*` is tested for room, which makes no difference when it fits. -/
theorem copyPrecision_fits (h : stored.length + (readPrecision source).length ≤ limit) :
    copyPrecision limit ⟨source, stored⟩ =
      ⟨source.drop (readPrecision source).length, stored ++ readPrecision source⟩ := by
  unfold copyPrecision readPrecision at *
  by_cases hpoint : source.headD 0 = ch '.'
  · rw [if_pos hpoint, List.length_cons] at h
    have hroom : stored.length < limit := by omega
    have hcount : (stored ++ [ch '.']).length + (readCount (source.drop 1)).length ≤ limit := by
      rw [List.length_append, List.length_singleton, List.drop_one]
      omega
    have hwidth := copyWidth_fits hcount
    rw [if_pos ⟨hpoint, hroom⟩, if_pos hpoint, copyByte_of_peek hpoint]
    have hsame : (if (source.drop 1).headD 0 = ch '*' ∧
          room limit ⟨source.drop 1, stored ++ [ch '.']⟩
        then copyByte ⟨source.drop 1, stored ++ [ch '.']⟩
        else copyDigits limit ⟨source.drop 1, stored ++ [ch '.']⟩) =
        copyWidth limit ⟨source.drop 1, stored ++ [ch '.']⟩ := by
      unfold copyWidth
      by_cases hstar : (source.drop 1).headD 0 = ch '*'
      · have hlen : (readCount (source.drop 1)).length = 1 := by
          rw [readCount, if_pos hstar, List.length_singleton]
        have hnext : (stored ++ [ch '.']).length < limit := by omega
        rw [if_pos ⟨hstar, hnext⟩, if_pos (by exact hstar)]
      · rw [if_neg (fun h => hstar h.1), if_neg (by exact hstar)]
    refine hsame.trans (hwidth.trans ?_)
    simp [Nat.add_comm]
  · rw [if_neg (fun h => hpoint h.1), if_neg hpoint]
    simp

theorem convertLength_eq (limit : ℕ) (source stored : List UInt8) :
    convertLength limit ⟨source, stored⟩ =
      match Modifier.read source with
      | .z => (⟨source.drop 1, stored⟩, true)
      | .t => (⟨source.drop 1, stored⟩, true)
      | .j => (⟨source.drop 1,
          if stored.length + 1 < limit then stored ++ [ch 'l', ch 'l'] else stored⟩, true)
      | .hh => (⟨source.drop 2, stored ++ [ch 'h']⟩, true)
      | .standard _ => (copyWhile limit isLength source stored, false) := by
  have hpeek : peek ⟨source, stored⟩ = source.headD 0 := rfl
  unfold convertLength Modifier.read
  rw [List.drop_one]
  by_cases hz : source.headD 0 = ch 'z'
  · rw [if_pos (.inl (hpeek.trans hz)), if_pos hz]
  by_cases ht : source.headD 0 = ch 't'
  · rw [if_pos (.inr (hpeek.trans ht)), if_neg hz, if_pos ht]
  rw [if_neg (not_or.mpr ⟨by exact hz, by exact ht⟩), if_neg hz, if_neg ht]
  by_cases hj : source.headD 0 = ch 'j'
  · rw [if_pos (hpeek.trans hj), if_pos hj]
    split_ifs <;> rfl
  rw [if_neg (by exact hj), if_neg hj]
  by_cases hh : source.headD 0 = ch 'h' ∧ source.tail.headD 0 = ch 'h'
  · rw [if_pos ⟨hpeek.trans hh.1, hh.2⟩, if_pos hh]
  · rw [if_neg (by exact hh), if_neg hh]

theorem convertLength_fits
    (h : stored.length + (Modifier.read source).rewritten.text.length ≤ limit) :
    convertLength limit ⟨source, stored⟩ =
      (⟨source.drop (Modifier.read source).text.length,
        stored ++ (Modifier.read source).rewritten.text⟩, (Modifier.read source).isNew) := by
  rw [convertLength_eq]
  cases hm : Modifier.read source with
  | z => simp [Modifier.text, Modifier.rewritten, Modifier.isNew]
  | t => simp [Modifier.text, Modifier.rewritten, Modifier.isNew]
  | j =>
    rw [hm] at h
    have hroom : stored.length + 1 < limit := h
    simp [hroom, Modifier.text, Modifier.rewritten, Modifier.isNew]
  | hh => rfl
  | standard text =>
    rw [hm] at h
    obtain rfl := Modifier.read_standard hm
    rw [copyWhile_fits h]
    rfl

theorem copySpecifier_fits (h : stored.length + (source.take 1).length ≤ limit) :
    copySpecifier limit ⟨source, stored⟩ = ⟨source.drop 1, stored ++ source.take 1⟩ := by
  unfold copySpecifier
  cases source with
  | nil => simp
  | cons b rest =>
    rw [if_pos ⟨by simp, h⟩]
    rfl

theorem copyPrecision_full (h : limit ≤ stored.length) :
    copyPrecision limit ⟨source, stored⟩ = ⟨source, stored⟩ :=
  if_neg fun hroom => h.not_gt hroom.2

theorem copySpecifier_full (h : limit ≤ stored.length) :
    copySpecifier limit ⟨source, stored⟩ = ⟨source, stored⟩ :=
  if_neg fun hroom => h.not_gt hroom.2

theorem copyWidth_full (h : limit ≤ stored.length) (hstar : source.headD 0 ≠ ch '*') :
    copyWidth limit ⟨source, stored⟩ = ⟨source, stored⟩ := by
  unfold copyWidth copyDigits
  rw [if_neg (by exact hstar), copyWhile_full h]

theorem convertLength_full (h : limit ≤ stored.length) (hinert : Inert (source.headD 0)) :
    convertLength limit ⟨source, stored⟩ = (⟨source, stored⟩, false) := by
  rw [convertLength_eq, Modifier.read_inert hinert]
  dsimp only
  rw [copyWhile_full h]

theorem copyWidth_cut (hroom : stored.length ≤ limit) (hstar : source.headD 0 ≠ ch '*')
    (h : limit < stored.length + (readCount source).length) :
    (copyWidth limit ⟨source, stored⟩).stored.length = limit ∧
      Inert (copyWidth limit ⟨source, stored⟩).peek := by
  rw [readCount, if_neg hstar] at h
  unfold copyWidth
  rw [if_neg (by exact hstar)]
  exact (copyWhile_cut hroom h).imp_right Inert.of_isDigit

theorem copyPrecision_cut (hroom : stored.length ≤ limit)
    (h : limit < stored.length + (readPrecision source).length) :
    (copyPrecision limit ⟨source, stored⟩).stored.length = limit ∧
      Inert (copyPrecision limit ⟨source, stored⟩).peek := by
  unfold readPrecision at h
  by_cases hpoint : source.headD 0 = ch '.'
  · rw [if_pos hpoint, List.length_cons] at h
    rcases hroom.lt_or_eq with hlt | heq
    · have hnext : (stored ++ [ch '.']).length = stored.length + 1 := by simp
      unfold copyPrecision
      rw [if_pos ⟨hpoint, hlt⟩, copyByte_of_peek hpoint]
      by_cases hstar : (source.drop 1).headD 0 = ch '*'
      -- without room for the star, the digits that are looked for in its place are none
      · have hcount : (readCount source.tail).length = 1 := by
          rw [readCount, ← List.drop_one, if_pos hstar, List.length_singleton]
        have hfull : limit ≤ (stored ++ [ch '.']).length := by omega
        rw [if_neg fun h => hfull.not_gt h.2, copyDigits, copyWhile_full hfull]
        refine ⟨by dsimp only; omega, ?_⟩
        rw [peek, hstar]
        exact Inert.star
      · rw [if_neg fun h => hstar h.1]
        rw [readCount, ← List.drop_one, if_neg hstar] at h
        exact (copyWhile_cut (by dsimp only; omega) (by dsimp only; omega)).imp_right
          Inert.of_isDigit
    · rw [copyPrecision_full heq.ge]
      refine ⟨heq, ?_⟩
      rw [peek, hpoint]
      exact Inert.point
  · rw [if_neg hpoint, List.length_nil] at h
    omega

end Cursor

/-- The rewritten modifier needs no room that is tested for. -/
def Modifier.Untested (m : Modifier) : Prop := m = .z ∨ m = .t ∨ m = .hh ∨ m = .standard []

namespace Directive

variable (d : Directive) (limit o : ℕ)

/-- A `*` width that falls on the end of the buffer. -/
def StarAtEnd : Prop := o < limit ∧ o + d.flags.length = limit ∧ d.width = [ch '*']

/-- The `h` of a `hh` that falls on the end of the buffer. -/
def HalfAtEnd : Prop :=
  o < limit ∧ o + d.flags.length + d.width.length + d.precision.length = limit ∧
    d.modifier = .hh

/-- The directive whose text starts at offset `o` is stored past the end. -/
def Overruns : Prop := d.StarAtEnd limit o ∨ d.HalfAtEnd limit o

/-- The scanner gets to the length modifier of the directive. -/
def Reached : Prop :=
  o < limit ∧ (o + d.flags.length + d.width.length + d.precision.length ≤ limit ∨
    d.StarAtEnd limit o ∧ d.precision = [])

/-- A directive without conversion of which all is stored, in part past the end. -/
def Spills : Prop :=
  d.conversion = [] ∧
    (d.HalfAtEnd limit o ∨ d.StarAtEnd limit o ∧ d.precision = [] ∧ d.modifier.Untested)

variable {d limit o}

theorem StarAtEnd.not_halfAtEnd (h : d.StarAtEnd limit o) : ¬ d.HalfAtEnd limit o := by
  rintro ⟨-, hsum, -⟩
  have hflags := h.2.1
  rw [h.2.2, List.length_singleton] at hsum
  omega

end Directive

namespace Cursor

variable {limit : ℕ} {source stored : List UInt8}

theorem head_of_readCount (h : readCount source = [ch '*']) : source.headD 0 = ch '*' := by
  by_contra hstar
  rw [readCount, if_neg hstar] at h
  cases source with
  | nil => cases h
  | cons b rest =>
    rw [List.takeWhile_cons] at h
    split_ifs at h
    exact hstar (List.cons.inj h).1

/-- The scanner in front of the length modifier of a directive. -/
def upToModifier (limit : ℕ) (c : Cursor) : Cursor :=
  ((c.copyFlags limit).copyWidth limit).copyPrecision limit

theorem directive_eq (limit : ℕ) (c : Cursor) :
    directive limit c =
      (((upToModifier limit c).convertLength limit).1.copySpecifier limit,
        ((upToModifier limit c).convertLength limit).2) := rfl

section

open Directive

variable {d : Directive} (hd : (Directive.read source).1 = d)
include hd

theorem copyFlags_fits (h : stored.length + d.flags.length ≤ limit) :
    copyFlags limit ⟨source, stored⟩ = ⟨afterFlags source, stored ++ d.flags⟩ := by
  subst hd
  exact copyWhile_fits h

theorem upToModifier_fits
    (h : stored.length + d.flags.length + d.width.length + d.precision.length ≤ limit) :
    upToModifier limit ⟨source, stored⟩ =
      ⟨afterPrecision source, stored ++ d.flags ++ d.width ++ d.precision⟩ := by
  unfold upToModifier
  rw [copyFlags_fits hd (by omega)]
  subst hd
  simp only [Directive.read] at h ⊢
  have hwidth : copyWidth limit ⟨afterFlags source, stored ++ source.takeWhile isFlag⟩ =
      ⟨afterWidth source, stored ++ source.takeWhile isFlag ++ readCount (afterFlags source)⟩ :=
    copyWidth_fits (by rw [List.length_append]; omega)
  rw [hwidth]
  exact copyPrecision_fits (by simp only [List.length_append]; omega)

/-- In front of a length modifier that does not come into the buffer, and no `*` on its end. -/
theorem upToModifier_cut (hroom : stored.length < limit)
    (hstar : ¬ d.StarAtEnd limit stored.length)
    (h : limit < stored.length + d.flags.length + d.width.length + d.precision.length) :
    (upToModifier limit ⟨source, stored⟩).stored.length = limit ∧
      Inert (upToModifier limit ⟨source, stored⟩).peek := by
  unfold upToModifier
  by_cases hflags : stored.length + d.flags.length ≤ limit
  · rw [copyFlags_fits hd hflags]
    subst hd
    simp only [StarAtEnd, Directive.read] at h hflags hstar ⊢
    have hlen : (stored ++ source.takeWhile isFlag).length =
      stored.length + (source.takeWhile isFlag).length := List.length_append
    by_cases hwidth : (stored ++ source.takeWhile isFlag).length +
        (readCount (afterFlags source)).length ≤ limit
    · rw [copyWidth_fits hwidth]
      apply copyPrecision_cut
      · rw [List.length_append]
        exact hwidth
      · rw [List.length_append, hlen]
        exact h
    · have hhead : (afterFlags source).headD 0 ≠ ch '*' := by
        intro hhead
        have hcount : readCount (afterFlags source) = [ch '*'] := if_pos hhead
        rw [hcount, List.length_singleton] at hwidth
        exact hstar ⟨hroom, by omega, hcount⟩
      have hcut := copyWidth_cut (by omega) hhead (not_le.mp hwidth)
      rw [copyPrecision_full hcut.1.ge]
      exact hcut
  · subst hd
    have hcut := copyWhile_cut hroom.le (not_le.mp hflags)
    unfold copyFlags
    dsimp only
    generalize copyWhile limit isFlag source stored = c at hcut
    obtain ⟨rest, full⟩ := c
    obtain ⟨hfull, hflag⟩ := hcut
    have hhead : rest.headD 0 ≠ ch '*' := by
      intro hhead
      rw [peek, hhead] at hflag
      revert hflag
      decide
    rw [copyWidth_full hfull.ge hhead, copyPrecision_full hfull.ge]
    exact ⟨hfull, Inert.of_isFlag hflag⟩

theorem upToModifier_star (h : d.StarAtEnd limit stored.length) :
    upToModifier limit ⟨source, stored⟩ =
      ⟨afterWidth source, stored ++ d.flags ++ [ch '*']⟩ := by
  obtain ⟨hroom, hflags, hwidth⟩ := h
  unfold upToModifier
  rw [copyFlags_fits hd hflags.le]
  subst hd
  simp only [Directive.read] at hflags hwidth ⊢
  have hhead := head_of_readCount hwidth
  have hlen : (stored ++ source.takeWhile isFlag).length =
    stored.length + (source.takeWhile isFlag).length := List.length_append
  have hstar : copyWidth limit ⟨afterFlags source, stored ++ source.takeWhile isFlag⟩ =
      ⟨afterWidth source, stored ++ source.takeWhile isFlag ++ [ch '*']⟩ := by
    unfold copyWidth afterWidth
    rw [if_pos (by exact hhead), copyByte_of_peek hhead, hwidth, List.length_singleton]
  rw [hstar, copyPrecision_full (by simp only [List.length_append]; omega)]

end

theorem directive_fits {d : Directive} {rest : List UInt8}
    (hd : Directive.read source = (d, rest))
    (h : stored.length + d.rewritten.text.length ≤ limit) :
    directive limit ⟨source, stored⟩ =
      (⟨rest, stored ++ d.rewritten.text⟩, d.modifier.isNew) := by
  have hfst : (Directive.read source).1 = d := by rw [hd]
  have hlen := d.rewritten_text_length
  have hstored : (stored ++ d.flags ++ d.width ++ d.precision).length =
      stored.length + d.flags.length + d.width.length + d.precision.length := by
    simp only [List.length_append]
  have hmodifier := Directive.read_modifier hfst
  have hconversion := Directive.read_conversion hfst
  rw [directive_eq, upToModifier_fits hfst (by omega),
    convertLength_fits (by rw [hmodifier]; omega), hmodifier]
  dsimp only
  rw [copySpecifier_fits (by rw [hconversion, List.length_append]; omega), hconversion,
    Directive.read_rest hd]
  simp only [Directive.rewritten, Directive.text, List.append_assoc]

/-- What is left of a directive that does not fit: the loop ends behind it. -/
structure CutOff (d : Directive) (limit : ℕ) (stored : List UInt8) (out : Cursor × Bool) :
    Prop where
  ended : limit ≤ out.1.stored.length ∨ out.1.source = []
  changed : out.2 = true ↔ d.modifier.isNew = true ∧ d.Reached limit stored.length
  overruns : limit < out.1.stored.length ↔ d.Overruns limit stored.length
  whole : d.Spills limit stored.length → out.1.stored = stored ++ d.rewritten.text
  short : ¬ d.Spills limit stored.length →
    out.1.stored.length < stored.length + d.rewritten.text.length

section CutOff

variable {d : Directive} (hd : (Directive.read source).1 = d) (hroom : stored.length < limit)
include hd hroom

/-- No room up to the length modifier, and no `*` on the end: the buffer is just full. -/
theorem cutOff_early (hstar : ¬ d.StarAtEnd limit stored.length)
    (h : limit < stored.length + d.flags.length + d.width.length + d.precision.length) :
    CutOff d limit stored (directive limit ⟨source, stored⟩) := by
  have hcut := upToModifier_cut hd hroom hstar h
  rw [directive_eq]
  generalize upToModifier limit ⟨source, stored⟩ = c at hcut
  obtain ⟨rest, full⟩ := c
  obtain ⟨hfull, hinert⟩ := hcut
  rw [convertLength_full hfull.ge hinert, copySpecifier_full hfull.ge]
  have hhalf : ¬ d.HalfAtEnd limit stored.length := fun hhalf => (hhalf.2.1.trans_lt h).ne rfl
  have hspills : ¬ d.Spills limit stored.length :=
    fun hspills => hspills.2.elim hhalf fun h => hstar h.1
  have hlen := d.rewritten_text_length
  dsimp only at hfull
  refine ⟨.inl hfull.ge, ?_, ?_, fun h => absurd h hspills, fun _ => ?_⟩
  · refine iff_of_false (by simp) ?_
    rintro ⟨-, -, hreached | hreached⟩
    · omega
    · exact hstar hreached.1
  · refine iff_of_false hfull.not_gt ?_
    rintro (hover | hover)
    · exact hstar hover
    · exact hhalf hover
  · dsimp only
    omega

omit hd hroom in
/-- Behind a `*` on the end, what the modifier adds is all of it, rewritten, or too little. -/
theorem CutOff.of_star (hstar : d.StarAtEnd limit stored.length) (hprecision : d.precision = [])
    (rest extra : List UInt8)
    (hextra : d.modifier.Untested ∧ extra = d.modifier.rewritten.text ∨
      ¬ d.modifier.Untested ∧ extra.length < d.modifier.rewritten.text.length) :
    CutOff d limit stored
      (⟨rest, stored ++ d.flags ++ [ch '*'] ++ extra⟩, d.modifier.isNew) := by
  have hhalf := hstar.not_halfAtEnd
  obtain ⟨hroom, hflags, hwidth⟩ := id hstar
  have hlen := d.rewritten_text_length
  rw [hwidth, List.length_singleton] at hlen
  have hadded : (stored ++ d.flags ++ [ch '*'] ++ extra).length = limit + 1 + extra.length := by
    simp only [List.length_append, List.length_singleton]
    omega
  refine ⟨.inl (by dsimp only; omega), ?_, ?_, fun h => ?_, fun h => ?_⟩
  · exact (and_iff_left ⟨hroom, .inr ⟨hstar, hprecision⟩⟩).symm
  · exact iff_of_true (by dsimp only; omega) (.inl hstar)
  · obtain ⟨hconversion, h⟩ := h
    obtain ⟨-, rfl⟩ := hextra.resolve_right fun hnot => hnot.1 (h.resolve_left hhalf).2.2
    simp [Directive.rewritten, Directive.text, hwidth, hprecision, hconversion]
  · rw [hadded, hlen]
    rcases hextra with ⟨huntested, rfl⟩ | ⟨-, hextra⟩
    · have hconversion : d.conversion ≠ [] := fun hnil =>
        h ⟨hnil, .inr ⟨hstar, hprecision, huntested⟩⟩
      have := List.length_pos_of_ne_nil hconversion
      omega
    · omega

omit hd hroom in
/-- Behind a `*` on the end, the point of a precision stops the scanner. -/
theorem CutOff.of_star_point (hstar : d.StarAtEnd limit stored.length)
    (hprecision : 0 < d.precision.length) (rest : List UInt8) :
    CutOff d limit stored (⟨rest, stored ++ d.flags ++ [ch '*']⟩, false) := by
  have hhalf := hstar.not_halfAtEnd
  obtain ⟨-, hflags, hwidth⟩ := id hstar
  have hlen := d.rewritten_text_length
  rw [hwidth, List.length_singleton] at hlen
  have hfull : (stored ++ d.flags ++ [ch '*']).length = limit + 1 := by
    simp only [List.length_append, List.length_singleton]
    omega
  have hne : d.precision ≠ [] := List.ne_nil_of_length_pos hprecision
  refine ⟨.inl (by dsimp only; omega), ?_, ?_, fun h => ?_, fun _ => by dsimp only; omega⟩
  · refine iff_of_false (by simp) ?_
    rintro ⟨-, -, hreached | hreached⟩
    · rw [hwidth, List.length_singleton] at hreached
      omega
    · exact hne hreached.2
  · exact iff_of_true (by dsimp only; omega) (.inl hstar)
  · exact (h.2.elim hhalf fun h => hne h.2.1).elim

omit hroom in
/-- A `*` on the end of the buffer is stored there, and the length modifier right behind it is
treated as if there were room. -/
theorem cutOff_star (hstar : d.StarAtEnd limit stored.length) :
    CutOff d limit stored (directive limit ⟨source, stored⟩) := by
  rw [directive_eq, upToModifier_star hd hstar]
  have hfull : (stored ++ d.flags ++ [ch '*']).length = limit + 1 := by
    have hflags := hstar.2.1
    simp only [List.length_append, List.length_singleton]
    omega
  rcases Directive.afterWidth_of_precision hd with ⟨hprecision, hmodifier⟩ | ⟨hprecision, hpoint⟩
  · rw [convertLength_eq, hmodifier]
    cases hm : d.modifier with
    | z =>
      have h := CutOff.of_star hstar hprecision ((Directive.afterWidth source).drop 1) []
        (.inl ⟨.inl hm, by rw [hm]; rfl⟩)
      rw [List.append_nil, hm] at h
      dsimp only
      rw [copySpecifier_full (by omega)]
      exact h
    | t =>
      have h := CutOff.of_star hstar hprecision ((Directive.afterWidth source).drop 1) []
        (.inl ⟨.inr (.inl hm), by rw [hm]; rfl⟩)
      rw [List.append_nil, hm] at h
      dsimp only
      rw [copySpecifier_full (by omega)]
      exact h
    | j =>
      have h := CutOff.of_star hstar hprecision ((Directive.afterWidth source).drop 1) []
        (.inr (by rw [hm]; exact ⟨by simp [Modifier.Untested], by decide⟩))
      rw [List.append_nil, hm] at h
      dsimp only
      rw [if_neg (by omega), copySpecifier_full (by omega)]
      exact h
    | hh =>
      have h := CutOff.of_star hstar hprecision ((Directive.afterWidth source).drop 2) [ch 'h']
        (.inl ⟨.inr (.inr (.inl hm)), by rw [hm]; rfl⟩)
      rw [hm] at h
      dsimp only
      rw [copySpecifier_full (by rw [List.length_append]; omega)]
      exact h
    | standard text =>
      have h := CutOff.of_star hstar hprecision (Directive.afterWidth source) []
      rw [List.append_nil, hm] at h
      dsimp only
      rw [copyWhile_full (by omega), copySpecifier_full (by omega)]
      apply h
      cases text with
      | nil => exact .inl ⟨.inr (.inr (.inr rfl)), rfl⟩
      | cons b text => exact .inr ⟨by simp [Modifier.Untested], Nat.succ_pos _⟩
  · have hinert : Inert ((Directive.afterWidth source).headD 0) := hpoint ▸ Inert.point
    rw [convertLength_full (by omega) hinert, copySpecifier_full (by omega)]
    exact CutOff.of_star_point hstar hprecision _

omit hd in
theorem CutOff.of_le {out : Cursor × Bool}
    (hreach : stored.length + d.flags.length + d.width.length + d.precision.length ≤ limit)
    (h : limit < stored.length + d.rewritten.text.length)
    (hhalf : ¬ d.HalfAtEnd limit stored.length) (hle : out.1.stored.length ≤ limit)
    (hended : limit ≤ out.1.stored.length ∨ out.1.source = [])
    (hnew : out.2 = d.modifier.isNew) : CutOff d limit stored out := by
  have hstar : ¬ d.StarAtEnd limit stored.length := by
    rintro ⟨-, hflags, hwidth⟩
    rw [hwidth, List.length_singleton] at hreach
    omega
  refine ⟨hended, ?_, ?_, fun hspills => ?_, fun _ => by omega⟩
  · rw [hnew]
    exact (and_iff_left ⟨hroom, .inl hreach⟩).symm
  · exact iff_of_false hle.not_gt (not_or.mpr ⟨hstar, hhalf⟩)
  · exact (hspills.2.elim hhalf fun h => hstar h.1).elim

omit hd hroom in
/-- The `h` of a `hh` on the end of the buffer is stored there, and the conversion is not. -/
theorem CutOff.of_half (hhalf : d.HalfAtEnd limit stored.length) (rest : List UInt8) :
    CutOff d limit stored
      (⟨rest, stored ++ d.flags ++ d.width ++ d.precision ++ [ch 'h']⟩, true) := by
  obtain ⟨hroom, hsum, hm⟩ := id hhalf
  have hlen := d.rewritten_text_length
  have hone : d.modifier.rewritten.text.length = 1 := by rw [hm]; rfl
  have hadded : (stored ++ d.flags ++ d.width ++ d.precision ++ [ch 'h']).length =
      limit + 1 := by
    simp only [List.length_append, List.length_singleton]
    omega
  refine ⟨.inl (by dsimp only; omega), ?_, ?_, fun hspills => ?_, fun hspills => ?_⟩
  · exact iff_of_true rfl ⟨by rw [hm]; rfl, hroom, .inl hsum.le⟩
  · exact iff_of_true (by dsimp only; omega) (.inr hhalf)
  · simp [Directive.rewritten, Directive.text, Modifier.rewritten, Modifier.text, hm, hspills.1]
  · have hmore : d.conversion ≠ [] := fun hnil => hspills ⟨hnil, .inl hhalf⟩
    have := List.length_pos_of_ne_nil hmore
    dsimp only
    omega

/-- With the length modifier in reach, it is the rewritten modifier or the conversion that does
not fit. -/
theorem cutOff_late
    (hreach : stored.length + d.flags.length + d.width.length + d.precision.length ≤ limit)
    (h : limit < stored.length + d.rewritten.text.length) :
    CutOff d limit stored (directive limit ⟨source, stored⟩) := by
  have hmodifier := Directive.read_modifier hd
  have hconversion := Directive.conversion_length hd
  have hlen := d.rewritten_text_length
  have hstored : (stored ++ d.flags ++ d.width ++ d.precision).length =
      stored.length + d.flags.length + d.width.length + d.precision.length := by
    simp only [List.length_append]
  have hnothalf : d.modifier ≠ .hh → ¬ d.HalfAtEnd limit stored.length :=
    fun hm hhalf => hm hhalf.2.2
  rw [directive_eq, upToModifier_fits hd hreach]
  by_cases hfits : (stored ++ d.flags ++ d.width ++ d.precision).length +
      d.modifier.rewritten.text.length ≤ limit
  · have hhalf : ¬ d.HalfAtEnd limit stored.length := by
      rintro ⟨-, hsum, hm⟩
      have hone : d.modifier.rewritten.text.length = 1 := by rw [hm]; rfl
      omega
    have hfull : (stored ++ d.flags ++ d.width ++ d.precision ++
        d.modifier.rewritten.text).length = limit := by
      rw [List.length_append]
      omega
    rw [convertLength_fits (by rw [hmodifier]; exact hfits), hmodifier]
    dsimp only
    rw [copySpecifier_full hfull.ge]
    exact .of_le hroom hreach h hhalf hfull.le (.inl hfull.ge) rfl
  · rw [convertLength_eq, hmodifier]
    cases hm : d.modifier with
    | z => exact absurd (by rw [hm]; exact hstored.le.trans hreach) hfits
    | t => exact absurd (by rw [hm]; exact hstored.le.trans hreach) hfits
    | j =>
      have htwo : d.modifier.rewritten.text.length = 2 := by rw [hm]; rfl
      have hhalf := hnothalf (by rw [hm]; simp)
      dsimp only
      rw [if_neg (by omega)]
      unfold copySpecifier room
      dsimp only
      split_ifs with hmore
      · have hadded : (stored ++ d.flags ++ d.width ++ d.precision ++ [peek
            ⟨(Directive.afterPrecision source).drop 1,
              stored ++ d.flags ++ d.width ++ d.precision⟩]).length = limit := by
          rw [List.length_append, List.length_singleton]
          omega
        exact .of_le hroom hreach h hhalf hadded.le (.inl hadded.ge) (by rw [hm]; rfl)
      · refine .of_le hroom hreach h hhalf (by dsimp only; omega) ?_ (by rw [hm]; rfl)
        dsimp only
        by_cases hnil : (Directive.afterPrecision source).drop 1 = []
        · exact .inr hnil
        · exact .inl (not_lt.mp fun hlt => hmore ⟨hnil, hlt⟩)
    | hh =>
      have hone : d.modifier.rewritten.text.length = 1 := by rw [hm]; rfl
      have hhalf : d.HalfAtEnd limit stored.length := ⟨hroom, by omega, hm⟩
      dsimp only
      rw [copySpecifier_full (by rw [List.length_append]; omega)]
      exact .of_half hhalf _
    | standard text =>
      have htext : d.modifier.rewritten.text =
          (Directive.afterPrecision source).takeWhile isLength := by
        rw [hm] at hmodifier ⊢
        exact Modifier.read_standard hmodifier
      rw [htext] at hfits
      have hcut := copyWhile_cut (hstored.le.trans hreach) (not_le.mp hfits)
      dsimp only
      generalize copyWhile limit isLength _ _ = c at hcut
      obtain ⟨rest, full⟩ := c
      rw [copySpecifier_full hcut.1.ge]
      exact .of_le hroom hreach h (hnothalf (by rw [hm]; simp)) hcut.1.le (.inl hcut.1.ge)
        (by rw [hm]; rfl)

theorem directive_cutOff (h : limit < stored.length + d.rewritten.text.length) :
    CutOff d limit stored (directive limit ⟨source, stored⟩) := by
  by_cases hstar : d.StarAtEnd limit stored.length
  · exact cutOff_star hd hstar
  · by_cases hreach :
        stored.length + d.flags.length + d.width.length + d.precision.length ≤ limit
    · exact cutOff_late hd hroom hreach h
    · exact cutOff_early hd hroom hstar (not_le.mp hreach)

end CutOff

end Cursor

end Solcompat.Printf
