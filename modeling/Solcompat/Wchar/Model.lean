import Mathlib.Data.UInt
import Mathlib.Tactic

/-!
# Conversion to and from UTF-16

`mbrtoc16` and `c16rtomb` keep half of a surrogate pair in the last two bytes of the
`mbstate_t`, between two calls. The multibyte functions of the C library are parameters:
they work on the rest of the `mbstate_t`, whose contents are of any type.
-/

namespace Solcompat.Wchar

/-- A returned `size_t`: `(size_t)-1`, `(size_t)-2`, `(size_t)-3` or a number of bytes. -/
inductive Count
  | error
  | incomplete
  | continued
  | bytes (n : ℕ)
  deriving DecidableEq

/-- An `mbstate_t`: what the C library uses, and the last two bytes. -/
structure MbState (σ : Type) where
  libc : σ
  raw : UInt8 × UInt8

/-- The multibyte functions of the locale. A `wchar_t` has 32 bits. -/
structure Libc (σ : Type) where
  /-- The contents of a zeroed state. -/
  initial : σ
  /-- The bytes written, none for an error. -/
  wcrtomb : UInt32 → σ → Option (List UInt8) × σ
  mbrtowc : List UInt8 → σ → Count × UInt32 × σ
  /-- Whether `wcrtomb` with a null pointer zeroes the whole state. -/
  clears : Bool

variable {σ : Type} (L : Libc σ)

def Libc.zeroed : MbState σ := ⟨L.initial, 0, 0⟩

/-- The unit kept in the last two bytes. -/
def pending (raw : UInt8 × UInt8) : UInt16 := raw.1.toUInt16 ||| (raw.2.toUInt16 <<< 8)

/-- The last two bytes that keep a unit. -/
def stash (unit : UInt16) : UInt8 × UInt8 :=
  ((unit &&& 0xFF).toUInt8, ((unit >>> 8) &&& 0xFF).toUInt8)

/-- `mbrtoc16`, with the unit it stores. `stores` says that `pc16` is not null, and `s` is the
`n` bytes to read, or null. -/
def mbrtoc16 (stores : Bool) (s : Option (List UInt8)) (state : MbState σ) :
    Count × Option UInt16 × MbState σ :=
  if pending state.raw ≠ 0 then
    (.continued, if stores then some (pending state.raw) else none, { state with raw := (0, 0) })
  else
    let stores := stores && s.isSome
    let (r, wc, libc) := L.mbrtowc (s.getD [0]) state.libc
    if r = .error ∨ r = .incomplete then (r, none, { state with libc })
    else if wc ≤ 0xFFFF then
      (r, if stores then some wc.toUInt16 else none, { state with libc })
    else
      let v := wc - 0x10000
      let high := (0xD800 : UInt32) ||| (v >>> 10)
      let low := (0xDC00 : UInt32) ||| (v &&& 0x3FF)
      (r, if stores then some high.toUInt16 else none, { libc, raw := stash low.toUInt16 })

/-- `wcrtomb` on the state of the caller. -/
def writeChar (wc : UInt32) (state : MbState σ) : Count × List UInt8 × MbState σ :=
  match L.wcrtomb wc state.libc with
  | (none, libc) => (.error, [], { state with libc })
  | (some bs, libc) => (.bytes bs.length, bs, { state with libc })

/-- `wcrtomb(NULL, L'\0', state)`: the bytes go nowhere. -/
def resetChar (state : MbState σ) : Count × List UInt8 × MbState σ :=
  let (r, _, state) := writeChar L 0 state
  (r, [], if L.clears then { state with raw := (0, 0) } else state)

def isHigh (unit : UInt16) : Bool := 0xD800 ≤ unit && unit ≤ 0xDBFF

def isLow (unit : UInt16) : Bool := 0xDC00 ≤ unit && unit ≤ 0xDFFF

/-- `c16rtomb`, with the bytes it writes. `toNull` says that `s` is null. -/
def c16rtomb (toNull : Bool) (c16 : UInt16) (state : MbState σ) :
    Count × List UInt8 × MbState σ :=
  if toNull then resetChar L state
  else if isHigh c16 then (.bytes 0, [], { state with raw := stash c16 })
  else if isLow c16 then
    let high := pending state.raw
    let state := { state with raw := (0, 0) }
    if isHigh high then
      let codepoint :=
        (0x10000 : UInt32) + ((high - 0xD800).toUInt32 <<< 10) + (c16 - 0xDC00).toUInt32
      writeChar L codepoint state
    else (.error, [], state)
  else writeChar L c16.toUInt32 state

end Solcompat.Wchar
