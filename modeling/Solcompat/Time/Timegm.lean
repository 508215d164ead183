import Solcompat.Env.Updates

/-!
# `timegm`

The model of `timegm` of `clock.c`: `mktime` while `TZ` is `UTC`, and the environment put back.
`mktime` is that of the C library, and a parameter; what it does with `struct tm` is left to it.

The table of entries, and not only what is found in it, is as it was. An entry of `TZ` that was
replaced is replaced again by the same text, in its place, and a new one was the only one.
-/

namespace Solcompat.Time

open Lib Env

/-- Calls of the C library, each with the environment that it finds. -/
inductive Event (Tm : Type)
  | tzset (environ : Environ)
  | mktime (environ : Environ) (tm : Tm)

/-- Which allocations are answered: the copy of the old value, and those of `setenv`. -/
structure TimegmSupply where
  strdup : Bool
  setUtc : Supply
  setSaved : Supply

/-- All of them. -/
def TimegmSupply.full : TimegmSupply := ⟨true, ⟨true, true⟩, ⟨true, true⟩⟩

structure TimegmReply (Tm : Type) where
  result : Int32
  tm : Tm
  environ : Environ
  events : List (Event Tm)

def tz : CString := CString.ofString "TZ"

def utc : CString := CString.ofString "UTC"

/-- `none` when `unsetenv` would read outside of a string or of the array. -/
def timegm {Tm : Type} (supply : TimegmSupply) (mktime : Environ → Tm → Int32 × Tm) (tm : Tm)
    (environ : Environ) : Option (TimegmReply Tm) := do
  let tz_env := getenv environ tz
  let saved_tz := if supply.strdup then tz_env else none
  let environUtc := (setenv supply.setUtc (some tz) utc 1 environ).environ
  let (result, tm') := mktime environUtc tm
  let restored ← match saved_tz with
    | some saved => some (setenv supply.setSaved (some tz) saved 1 environUtc)
    | none => unsetenv (some tz) environUtc
  return {
    result := result
    tm := tm'
    environ := restored.environ
    events := [.tzset environUtc, .mktime environUtc tm, .tzset restored.environ] }

theorem validName_tz : ValidName tz := by
  constructor
  · decide
  · decide

theorem replaceFirst_of_none {p : CString → Bool} {es : List CString} (string : CString)
    (h : es.find? p = none) : replaceFirst p string es = es ++ [string] := by
  induction es with
  | nil => rfl
  | cons e es ih =>
    cases hp : p e with
    | true => simp [hp] at h
    | false =>
      have hrest := ih (by simpa [hp] using h)
      simp [replaceFirst, hp, hrest]

theorem replaceFirst_back {p : CString → Bool} {es : List CString} {entry string : CString}
    (h : es.find? p = some entry) (hstring : p string = true) :
    replaceFirst p entry (replaceFirst p string es) = es := by
  induction es with
  | nil => simp at h
  | cons e es ih =>
    cases hp : p e with
    | true =>
      obtain rfl : e = entry := by simpa [hp] using h
      simp [replaceFirst, hp, hstring]
    | false =>
      have hrest := ih (by simpa [hp] using h)
      simp [replaceFirst, hp, hrest]

theorem filter_replaceFirst_of_none {p : CString → Bool} {es : List CString} {string : CString}
    (h : es.find? p = none) (hstring : p string = true) :
    (replaceFirst p string es).filter (fun e => !p e) = es := by
  have hkeep : ∀ e ∈ es, (!p e) = true := by
    intro e he
    simpa using List.find?_eq_none.mp h e he
  rw [replaceFirst_of_none string h, List.filter_append, List.filter_eq_self.mpr hkeep]
  simp [hstring]

/-- An entry of a name is the assignment of what `getenv` finds in it. -/
theorem assignment_of_named {name entry : CString} (h : named name.bytes entry = true) :
    assignment name (entry.drop (name.strlen + 1)) = entry := by
  obtain ⟨rest, hrest⟩ := named_iff.mp h
  have hdrop : (entry.drop (name.strlen + 1)).bytes = rest := by
    rw [CString.bytes_drop, ← hrest, List.drop_left']
    rw [List.length_append]
    rfl
  have hbytes : (assignment name (entry.drop (name.strlen + 1))).bytes =
      name.bytes ++ ch '=' :: (entry.drop (name.strlen + 1)).bytes := rfl
  apply CString.ext_bytes
  rw [hbytes, hdrop, ← hrest, List.append_assoc, List.singleton_append]

theorem setenv_environ {name : CString} (hname : ValidName name) (value : CString)
    (environ : Environ) : (setenv ⟨true, true⟩ (some name) value 1 environ).environ =
      putenv environ (assignment name value) := by
  rw [setenv_eq _ hname, if_neg (by simp), if_pos (by rfl)]

theorem putenv_entries {name : CString} (hname : ValidName name) (value : CString)
    (environ : Environ) : (putenv environ (assignment name value)).entries =
      replaceFirst (named name.bytes) (assignment name value) environ.entries := by
  rw [putenv, entries_ofEntries, takeWhile_assignment hname.plain]

theorem getenv_of_entries {environ environ' : Environ} (h : environ'.entries = environ.entries)
    (name : CString) : getenv environ' name = getenv environ name :=
  getenv_congr (by rw [h])

/-- The entries are those of before the call, and `UTC` is in place while `mktime` runs. -/
theorem timegm_environ {Tm : Type} (mktime : Environ → Tm → Int32 × Tm) (tm : Tm)
    (environ : Environ) :
    ∃ environUtc restored, timegm .full mktime tm environ = some {
        result := (mktime environUtc tm).1
        tm := (mktime environUtc tm).2
        environ := restored
        events := [.tzset environUtc, .mktime environUtc tm, .tzset restored] } ∧
      getenv environUtc tz = some utc ∧ restored.entries = environ.entries := by
  have hset := putenv_entries validName_tz utc environ
  have hutc : getenv (putenv environ (assignment tz utc)) tz = some utc :=
    (putenv_binds validName_tz.plain).1
  have henv := setenv_environ validName_tz utc environ
  generalize putenv environ (assignment tz utc) = environUtc at hset hutc henv
  cases hfind : environ.entries.find? (named tz.bytes) with
  | none =>
    obtain ⟨restored, hcall, hentries⟩ := unsetenv_entries environUtc validName_tz
    rw [hset, filter_replaceFirst_of_none hfind named_assignment] at hentries
    refine ⟨environUtc, restored, ?_, hutc, hentries⟩
    simp [timegm, TimegmSupply.full, henv, getenv, hfind, hcall]
  | some entry =>
    have hnamed : named tz.bytes entry = true := List.find?_some hfind
    have hcall := setenv_environ validName_tz (entry.drop (tz.strlen + 1)) environUtc
    have hback := putenv_entries validName_tz (entry.drop (tz.strlen + 1)) environUtc
    rw [assignment_of_named hnamed] at hcall hback
    rw [hset, replaceFirst_back hfind named_assignment] at hback
    refine ⟨environUtc, putenv environUtc entry, ?_, hutc, hback⟩
    simp [timegm, TimegmSupply.full, henv, getenv, hfind, hcall]

/-- What `getenv` finds under any name is as before, `mktime` runs while `TZ` is `UTC`, and the
last `tzset` finds the environment that is left. -/
theorem timegm_restores {Tm : Type} (mktime : Environ → Tm → Int32 × Tm) (tm : Tm)
    (environ : Environ) :
    ∃ environUtc reply, timegm .full mktime tm environ = some reply ∧
      reply.environ.entries = environ.entries ∧
      (∀ name, getenv reply.environ name = getenv environ name) ∧
      reply.events = [.tzset environUtc, .mktime environUtc tm, .tzset reply.environ] ∧
      getenv environUtc tz = some utc ∧
      (reply.result, reply.tm) = mktime environUtc tm := by
  obtain ⟨environUtc, restored, hcall, hutc, hentries⟩ := timegm_environ mktime tm environ
  exact ⟨environUtc, _, hcall, hentries, getenv_of_entries hentries, rfl, hutc, rfl⟩

end Solcompat.Time
