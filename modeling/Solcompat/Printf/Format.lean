import Solcompat.Lib.CString

/-!
# Rewriting C99 length modifiers

`preprocess_fmt` of `snprintf.c` copies a format into a bounded buffer and
rewrites the length modifiers the system formatter does not know: `z` and `t`
disappear, `j` becomes `ll`, `hh` becomes `h`. Source and destination pointers
only move forward and every store goes through `*d++`, so a cursor holds the
unread rest of the format and the bytes stored so far; `d < end` bounds how many
of these there are. Stores that the source makes without that test are kept as
they are, past the bound if need be.
-/

namespace Solcompat.Printf

open Lib

structure Cursor where
  source : List UInt8
  stored : List UInt8
  deriving DecidableEq, Repr

def isFlag (b : UInt8) : Bool :=
  b == ch '-' || b == ch '+' || b == ch ' ' || b == ch '0' || b == ch '#'

def isDigit (b : UInt8) : Bool := ch '0' ≤ b && b ≤ ch '9'

def isLength (b : UInt8) : Bool := b == ch 'h' || b == ch 'l' || b == ch 'L' || b == ch 'q'

/-- `while (*s && d < end && p(*s)) *d++ = *s++`. -/
def copyWhile (limit : ℕ) (p : UInt8 → Bool) : List UInt8 → List UInt8 → Cursor
  | [], stored => ⟨[], stored⟩
  | b :: rest, stored =>
    if stored.length < limit && p b then copyWhile limit p rest (stored ++ [b])
    else ⟨b :: rest, stored⟩

namespace Cursor

/-- `*s`, which is the terminator at the end of the format. -/
def peek (c : Cursor) : UInt8 := c.source.headD 0

/-- `d < end`, where `limit` is the distance from `out` to `end`. -/
def room (limit : ℕ) (c : Cursor) : Prop := c.stored.length < limit

instance (limit : ℕ) (c : Cursor) : Decidable (c.room limit) :=
  inferInstanceAs (Decidable (_ < _))

/-- `*d++ = *s++`. -/
def copyByte (c : Cursor) : Cursor := ⟨c.source.tail, c.stored ++ [c.peek]⟩

def copyFlags (limit : ℕ) (c : Cursor) : Cursor := copyWhile limit isFlag c.source c.stored

def copyDigits (limit : ℕ) (c : Cursor) : Cursor := copyWhile limit isDigit c.source c.stored

/-- A `*` width is copied without testing for room. -/
def copyWidth (limit : ℕ) (c : Cursor) : Cursor :=
  if c.peek = ch '*' then c.copyByte else c.copyDigits limit

def copyPrecision (limit : ℕ) (c : Cursor) : Cursor :=
  if c.peek = ch '.' ∧ c.room limit then
    let c := c.copyByte
    if c.peek = ch '*' ∧ c.room limit then c.copyByte else c.copyDigits limit
  else c

/-- Rewrite or copy the length modifier, and say whether it was rewritten. The
`h` written for `hh` is stored without testing for room. -/
def convertLength (limit : ℕ) (c : Cursor) : Cursor × Bool :=
  if c.peek = ch 'z' ∨ c.peek = ch 't' then (⟨c.source.tail, c.stored⟩, true)
  else if c.peek = ch 'j' then
    if c.stored.length + 1 < limit then (⟨c.source.tail, c.stored ++ [ch 'l', ch 'l']⟩, true)
    else (⟨c.source.tail, c.stored⟩, true)
  else if c.peek = ch 'h' ∧ c.source.tail.headD 0 = ch 'h' then
    (⟨c.source.drop 2, c.stored ++ [ch 'h']⟩, true)
  else (copyWhile limit isLength c.source c.stored, false)

def copySpecifier (limit : ℕ) (c : Cursor) : Cursor :=
  if c.source ≠ [] ∧ c.room limit then c.copyByte else c

/-- Everything of one directive after its `%`. -/
def directive (limit : ℕ) (c : Cursor) : Cursor × Bool :=
  let converted := (((c.copyFlags limit).copyWidth limit).copyPrecision limit).convertLength limit
  (converted.1.copySpecifier limit, converted.2)

end Cursor

theorem copyWhile_source_length (limit : ℕ) (p : UInt8 → Bool) (source stored : List UInt8) :
    (copyWhile limit p source stored).source.length ≤ source.length := by
  induction source generalizing stored with
  | nil => simp [copyWhile]
  | cons b rest ih =>
    rw [copyWhile]
    split_ifs
    · exact (ih _).trans (by simp)
    · rfl

namespace Cursor

theorem copyByte_source_length (c : Cursor) : c.copyByte.source.length ≤ c.source.length := by
  simp [copyByte]

theorem copyWidth_source_length (limit : ℕ) (c : Cursor) :
    (c.copyWidth limit).source.length ≤ c.source.length := by
  unfold copyWidth
  split_ifs
  · exact c.copyByte_source_length
  · exact copyWhile_source_length _ _ _ _

theorem copyPrecision_source_length (limit : ℕ) (c : Cursor) :
    (c.copyPrecision limit).source.length ≤ c.source.length := by
  unfold copyPrecision
  dsimp only
  split_ifs
  · exact (copyByte_source_length _).trans c.copyByte_source_length
  · exact (copyWhile_source_length _ _ _ _).trans c.copyByte_source_length
  · rfl

theorem convertLength_source_length (limit : ℕ) (c : Cursor) :
    (c.convertLength limit).1.source.length ≤ c.source.length := by
  unfold convertLength
  split_ifs
  · simp
  · simp
  · simp
  · simp
  · exact copyWhile_source_length _ _ _ _

theorem directive_source_length (limit : ℕ) (c : Cursor) :
    (c.directive limit).1.source.length ≤ c.source.length := by
  have hspecifier : ∀ d : Cursor, (d.copySpecifier limit).source.length ≤ d.source.length := by
    intro d
    unfold copySpecifier
    split_ifs
    · exact d.copyByte_source_length
    · rfl
  unfold directive
  exact (hspecifier _).trans ((convertLength_source_length _ _).trans
    ((copyPrecision_source_length _ _).trans ((copyWidth_source_length _ _).trans
      (copyWhile_source_length _ _ _ _))))

end Cursor

/-- The main loop of `preprocess_fmt`, with the value of `changed`. -/
def preprocessLoop (limit : ℕ) (c : Cursor) (changed : Bool) : Cursor × Bool :=
  match hc : c.source with
  | [] => (c, changed)
  | b :: rest =>
    if c.room limit then
      if b ≠ ch '%' then preprocessLoop limit ⟨rest, c.stored ++ [b]⟩ changed
      else
        let d : Cursor := ⟨rest, c.stored ++ [b]⟩
        if rest = [] ∨ ¬ d.room limit then (d, changed)
        else if d.peek = ch '%' then preprocessLoop limit d.copyByte changed
        else
          let step := d.directive limit
          preprocessLoop limit step.1 (changed || step.2)
    else (c, changed)
termination_by c.source.length
decreasing_by
  · simp [hc]
  · have := d.copyByte_source_length
    simp only [hc, List.length_cons]
    exact Nat.lt_succ_of_le this
  · have := d.directive_source_length limit
    simp only [hc, List.length_cons]
    exact Nat.lt_succ_of_le this

/-- What `preprocess_fmt` leaves behind: the bytes stored at `out` before the
final terminator, and whether the caller gets `out` or its own pointer back. -/
structure Preprocessed where
  stored : List UInt8
  changed : Bool
  deriving DecidableEq, Repr

def preprocessFmt (fmt : CString) (outsize : ℕ) : Preprocessed :=
  let final := preprocessLoop (outsize - 1) ⟨fmt.bytes, []⟩ false
  ⟨final.1.stored, final.2⟩

/-- The string behind the pointer that `preprocess_fmt` returns. -/
def Preprocessed.result (p : Preprocessed) (fmt : CString) : List UInt8 :=
  if p.changed then p.stored else fmt.bytes

end Solcompat.Printf
