import Solcompat.Lib.CString

/-!
# Locale objects over `setlocale`

A handle is a copy of the name of its locale, on the heap. `uselocale` hands the name to
`setlocale` and remembers the handle in a static variable. Handles are numbered as they are
issued and are never issued twice; how often each was freed is counted, so that the state
goes on after a free that the heap could not survive.
-/

namespace Solcompat.Locale

open Solcompat.Lib

/-- A `locale_t`: the null pointer, `LC_GLOBAL_LOCALE`, or a handle. -/
inductive Handle
  | null
  | global
  | ref (h : ℕ)
  deriving DecidableEq

structure Process (Loc : Type) where
  /-- The names of the handles issued so far. -/
  names : List CString
  /-- How often each handle was freed. -/
  frees : ℕ → ℕ
  /-- The static variable of `uselocale`; `none` is the null pointer. -/
  current : Option ℕ
  /-- The locale of the process. -/
  locale : Loc

variable {Loc : Type}

def free (h : ℕ) (p : Process Loc) : Process Loc :=
  { p with frees := Function.update p.frees h (p.frees h + 1) }

/-- `strdup`, if there is memory. -/
def strdup (memory : Bool) (name : CString) (p : Process Loc) : Handle × Process Loc :=
  if memory then (.ref p.names.length, { p with names := p.names ++ [name] }) else (.null, p)

/-- `newlocale`. The category mask is not used, and a null name is `"C"`. -/
def newlocale (memory : Bool) (locale : Option CString) (base : Option ℕ) (p : Process Loc) :
    Handle × Process Loc :=
  let p := match base with
    | some h => free h p
    | none => p
  strdup memory (locale.getD (CString.ofString "C")) p

/-- What `uselocale` returns: `old ? old : (locale_t)-1`. -/
def Process.old (p : Process Loc) : Handle :=
  match p.current with
  | some h => .ref h
  | none => .global

/-- `uselocale`. `setlocale(LC_ALL, name)` gives the locale of a name, or none if there is no
such locale; then the locale of the process stays. -/
def uselocale (setlocale : CString → Option Loc) (newloc : Handle) (p : Process Loc) :
    Handle × Process Loc :=
  match newloc with
  | .global => (p.old, p)
  | .null => (p.old, p)
  | .ref h =>
    (p.old,
      { p with
        locale := ((p.names[h]?).bind setlocale).getD p.locale
        current := some h })

def freelocale (locobj : Handle) (p : Process Loc) : Process Loc :=
  match locobj with
  | .ref h => free h p
  | _ => p

def duplocale (memory : Bool) (locobj : Handle) (p : Process Loc) : Handle × Process Loc :=
  match locobj with
  | .ref h => newlocale memory p.names[h]? none p
  | _ => newlocale memory (some (CString.ofString "C")) none p

end Solcompat.Locale
