import Solcompat.Lib.Compact
import Solcompat.Lib.CString
import Solcompat.Lib.Memory

/-!
# The environment

`environ` is a null-terminated array of strings, in which any text may stand: entries
without `=`, and several of one name. `getenv` and `putenv` are those of the C library,
which this library calls: the first entry `NAME=` is the one that counts, and it is
replaced in place or a new one is put behind the others.
-/

namespace Solcompat.Env

open Solcompat.Lib

structure Environ where
  cells : List (Option CString)
  terminated : none ∈ cells

namespace Environ

def entries (environ : Environ) : List CString := Lib.entries environ.cells

def ofEntries (entries : List CString) : Environ :=
  ⟨entries.map some ++ [none], by simp⟩

end Environ

def named (name : List UInt8) (entry : CString) : Bool :=
  (name ++ [ch '=']).isPrefixOf entry.bytes

def getenv (environ : Environ) (name : CString) : Option CString :=
  (environ.entries.find? (named name.bytes)).map (·.drop (name.strlen + 1))

/-- The first of the entries that `p` picks is replaced, or the new one is the last. -/
def replaceFirst (p : CString → Bool) (string : CString) : List CString → List CString
  | [] => [string]
  | entry :: rest => if p entry then string :: rest else entry :: replaceFirst p string rest

/-- `putenv` of a text `NAME=VALUE`, when it finds the memory it needs. -/
def putenv (environ : Environ) (string : CString) : Environ :=
  .ofEntries
    (replaceFirst (named (string.bytes.takeWhile (· ≠ ch '='))) string environ.entries)

/-- Whether the C library finds memory, for the text and for the array. -/
structure Supply where
  malloc : Bool
  putenv : Bool

/-- What a call returns, what it stores in `errno` and what it leaves in `environ`. -/
structure Reply where
  ret : ℤ
  errno : Option Errno
  environ : Environ

/-- `!name || !name[0] || strchr(name, '=')` -/
def rejects : Option CString → Bool
  | none => true
  | some name => name.read 0 == some 0 || (name.strchr (ch '=')).isSome

/-- `envstr`: the name, `=` and the value with its terminator. -/
def assignment (name value : CString) : CString :=
  ⟨name.bytes ++ ch '=' :: value.bytes, by
    have hsign : ch '=' ≠ 0 := by decide
    simpa [or_imp, forall_and, hsign] using ⟨name.nulFree, value.nulFree⟩⟩

def setenv (supply : Supply) (name : Option CString) (value : CString) (overwrite : ℤ)
    (environ : Environ) : Reply :=
  if rejects name then ⟨-1, some .EINVAL, environ⟩
  else
    let name := name.getD default
    if overwrite = 0 ∧ (getenv environ name).isSome then ⟨0, none, environ⟩
    else if !supply.malloc then ⟨-1, some .ENOMEM, environ⟩
    else if !supply.putenv then ⟨-1, some .ENOMEM, environ⟩
    else ⟨0, none, putenv environ (assignment name value)⟩

/-- `strncmp(*ep, name, nlen) == 0 && (*ep)[nlen] == '='` -/
def skips (name : CString) (entry : CString) : Option Bool :=
  if entry.strncmp name name.strlen = 0 then
    (entry.read name.strlen).map (· == ch '=')
  else some false

/-- `none` when a string or the array would be read outside its bounds. -/
def unsetenv (name : Option CString) (environ : Environ) : Option Reply :=
  if rejects name then some ⟨-1, some .EINVAL, environ⟩
  else
    match h : compact (skips (name.getD default)) environ.cells with
    | none => none
    | some cells => some ⟨0, none, ⟨cells, compact_terminated h⟩⟩

end Solcompat.Env
