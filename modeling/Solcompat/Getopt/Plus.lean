import Solcompat.Getopt.Safety

/-!
# The mode character `+`

A leading `+` asks for the order the scanner keeps anyway, so that it should change nothing.
It is skipped in the lookup of an option; but the tests for the silent mode look at the
first byte of the whole string, where the `+` hides a `:`.
-/

namespace Solcompat.Getopt

open Solcompat.Lib

/-- The option string with `+` in front. -/
def plus (optstring : CString) : CString :=
  ⟨ch '+' :: optstring.bytes, List.forall_mem_cons.mpr ⟨by decide, optstring.nulFree⟩⟩

/-- One of the three functions with the arguments a client passes beside `argv` and the
option string. -/
inductive ScanFunction where
  | getopt
  | getoptLong (longopts : Option (List LongOption)) (longindex : Option ℕ)
  | getoptLongOnly (longopts : Option (List LongOption)) (longindex : Option ℕ)

def ScanFunction.call (optstring : CString) : ScanFunction → ScanCall
  | .getopt => .getopt (some optstring)
  | .getoptLong longopts longindex => .getoptLong (some optstring) longopts longindex
  | .getoptLongOnly longopts longindex => .getoptLongOnly (some optstring) longopts longindex

/-- What the client sees of one call. -/
structure Outcome where
  ret : ℤ
  optarg : Option CString
  optopt : ℤ
  optind : ℕ
  printed : Bool
  deriving DecidableEq

def outcome (st : Scanner) (r : ℤ × Scanner) : Outcome :=
  ⟨r.1, r.2.optarg, r.2.optopt, r.2.optind, r.2.stderr != st.stderr⟩

/-- What the client sees of the calls in order; none when a call would read outside its
strings. -/
def outcomes (argv : List CString) (optstring : CString) :
    List ScanFunction → Scanner → Option (List Outcome)
  | [], _ => some []
  | f :: functions, st => do
    let r ← (f.call optstring).run argv st
    let rest ← outcomes argv optstring functions r.2
    some (outcome st r :: rest)

section Alike

/-- Two option strings that no test of the scanner tells apart. -/
structure Alike (s t : CString) : Prop where
  lookup : pastMode s = pastMode t
  silent : s.bytes.head? = some (ch ':') ↔ t.bytes.head? = some (ch ':')
  operands : s.bytes.head? = some (ch '-') ↔ t.bytes.head? = some (ch '-')

variable {s t : CString} {argc : ℕ} {argv : List CString} {arg : CString} {opt : UInt8}
variable {st : Scanner}

theorem exists_read_head (s : CString) :
    ∃ b, s.read 0 = some b ∧ ∀ c, c ≠ 0 → (b = c ↔ s.bytes.head? = some c) := by
  rcases hbytes : s.bytes with _ | ⟨b, rest⟩
  · refine ⟨0, by simp [CString.read, hbytes], ?_⟩
    intro c hc
    simp [hc.symm]
  · exact ⟨b, by simp [CString.read, hbytes], by simp⟩

theorem Alike.invalidOption_eq (h : Alike s t) :
    invalidOption argv s arg opt st = invalidOption argv t arg opt st := by
  obtain ⟨b, hs, hb⟩ := exists_read_head s
  obtain ⟨c, ht, hc⟩ := exists_read_head t
  have hcolon : b = ch ':' ↔ c = ch ':' := by
    rw [hb _ (by decide), hc _ (by decide), h.silent]
  unfold invalidOption
  rw [hs, ht]
  simp only [Option.bind_eq_bind, Option.bind_some, ne_eq, hcolon]

theorem Alike.nextElementArgument_eq (h : Alike s t) :
    nextElementArgument argc argv s opt st = nextElementArgument argc argv t opt st := by
  obtain ⟨b, hs, hb⟩ := exists_read_head s
  obtain ⟨c, ht, hc⟩ := exists_read_head t
  have hcolon : b = ch ':' ↔ c = ch ':' := by
    rw [hb _ (by decide), hc _ (by decide), h.silent]
  unfold nextElementArgument
  rw [hs, ht]
  simp only [Option.bind_eq_bind, Option.bind_some, ne_eq, hcolon]

theorem Alike.getoptOption_eq (h : Alike s t) :
    getoptOption argc argv s arg opt st = getoptOption argc argv t arg opt st := by
  unfold getoptOption
  rw [h.lookup, h.invalidOption_eq]
  simp only [h.nextElementArgument_eq]

theorem Alike.getoptElement_eq (h : Alike s t) :
    getoptElement argc argv s st = getoptElement argc argv t st := by
  obtain ⟨b, hs, hb⟩ := exists_read_head s
  obtain ⟨c, ht, hc⟩ := exists_read_head t
  have hdash : b = ch '-' ↔ c = ch '-' := by
    rw [hb _ (by decide), hc _ (by decide), h.operands]
  unfold getoptElement
  rw [hs, ht]
  simp only [h.getoptOption_eq, Option.bind_eq_bind, Option.bind_some, hdash]

theorem Alike.getopt_eq (h : Alike s t) :
    getopt argc argv (some s) st = getopt argc argv (some t) st := by
  unfold getopt
  simp only [Option.getD_some, h.getoptOption_eq, h.getoptElement_eq]

theorem Alike.deliverRequired_eq (h : Alike s t) (dashes : String) (o : LongOption)
    (eq : Option CString) :
    deliverRequired argc argv (some s) dashes o eq st =
      deliverRequired argc argv (some t) dashes o eq st := by
  unfold deliverRequired
  simp only [Option.bind_some, h.silent]

theorem Alike.getoptLong_eq (h : Alike s t) (longopts : Option (List LongOption))
    (longindex : Option ℕ) :
    getoptLong argc argv (some s) longopts longindex st =
      getoptLong argc argv (some t) longopts longindex st := by
  unfold getoptLong longOption
  simp only [h.getopt_eq, h.deliverRequired_eq]

theorem Alike.getoptLongOnly_eq (h : Alike s t) (longopts : Option (List LongOption))
    (longindex : Option ℕ) :
    getoptLongOnly argc argv (some s) longopts longindex st =
      getoptLongOnly argc argv (some t) longopts longindex st := by
  unfold getoptLongOnly longOnlyOption
  simp only [h.getopt_eq, h.getoptLong_eq, h.deliverRequired_eq]

theorem Alike.call_eq (h : Alike s t) (f : ScanFunction) :
    (f.call s).run argv st = (f.call t).run argv st := by
  cases f with
  | getopt => exact h.getopt_eq
  | getoptLong longopts longindex => exact h.getoptLong_eq longopts longindex
  | getoptLongOnly longopts longindex => exact h.getoptLongOnly_eq longopts longindex

theorem Alike.outcomes_eq (h : Alike s t) (functions : List ScanFunction) (st : Scanner) :
    outcomes argv s functions st = outcomes argv t functions st := by
  induction functions generalizing st with
  | nil => rfl
  | cons f functions ih =>
    unfold outcomes
    simp only [h.call_eq, ih]

end Alike

section Plus

variable {optstring : CString}

theorem pastMode_plus (optstring : CString) : pastMode (plus optstring) = optstring := by
  have hhead : (plus optstring).bytes.head? = some (ch '+') := rfl
  rw [pastMode, if_pos (.inl hhead)]
  rfl

theorem plus_alike (hplus : optstring.bytes.head? ≠ some (ch '+'))
    (hdash : optstring.bytes.head? ≠ some (ch '-'))
    (hcolon : optstring.bytes.head? ≠ some (ch ':')) : Alike (plus optstring) optstring where
  lookup := by
    rw [pastMode_plus, pastMode, if_neg (by simp [hplus, hdash])]
  silent := iff_of_false (by simp [plus, ch]) hcolon
  operands := iff_of_false (by simp [plus, ch]) hdash

/-- The scanner always answers, so that no sequence of calls is cut off. -/
theorem exists_outcomes {argv : List CString} (optstring : CString)
    (functions : List ScanFunction) {st : Scanner} (h : Placed argv st) :
    ∃ seen, outcomes argv optstring functions st = some seen := by
  induction functions generalizing st with
  | nil => exact ⟨[], rfl⟩
  | cons f functions ih =>
    obtain ⟨ret, st₁, hcall, hplaced, -⟩ := (f.call optstring).run_proceeds h
    obtain ⟨seen, hseen⟩ := ih hplaced
    refine ⟨outcome st (ret, st₁) :: seen, ?_⟩
    simp only [outcomes, hcall, hseen, Option.bind_eq_bind, Option.bind_some]

end Plus

/-- The errors whose report depends on the first byte of the option string. -/
inductive Fault where
  | none
  | invalid
  | missing
  deriving DecidableEq

/-- A leading `:` turns off the message for an invalid option, as `opterr` does, and changes the
answer for a missing argument. -/
def Fault.Hidden (opterr : ℤ) : Fault → Prop
  | .none => True
  | .invalid => opterr = 0
  | .missing => False

section Faults

variable (argc : ℕ) (argv : List CString) (optstring : CString)

/-- `-o` of `arg`: an unknown letter, or one that wants the next element where there is none. -/
def optionFault (arg : CString) (opt : UInt8) (st : Scanner) : Fault :=
  match (pastMode optstring).strchr opt with
  | none => .invalid
  | some spec =>
    if opt = ch ':' then .invalid
    else if spec.read 1 = some (ch ':') ∧ arg.read (st.shortNext + 1) = some 0 ∧
        spec.read 2 ≠ some (ch ':') ∧ argc ≤ st.optind + 1 then .missing
    else .none

/-- An element that begins a cluster. -/
def elementFault (st : Scanner) : Fault :=
  match currentElement argc argv st.optind with
  | none => .none
  | some arg =>
    if isOption arg = some true ∧ isMarker arg = some false then
      (arg.read 1).elim .none fun opt =>
        optionFault argc optstring arg opt { st with shortNext := 1 }
    else .none

def getoptFault (st : Scanner) : Fault :=
  if 0 < st.shortNext then
    match currentElement argc argv st.optind with
    | none => .none
    | some arg =>
      (arg.read st.shortNext).elim .none fun opt =>
        if opt = 0 then
          elementFault argc argv optstring { st with shortNext := 0, optind := st.optind + 1 }
        else optionFault argc optstring arg opt st
  else elementFault argc argv optstring st

/-- A long option that wants an argument, without `=` in the last element. -/
def requiredFault (o : LongOption) (eq : Option CString) (st : Scanner) : Fault :=
  if o.hasArg = requiredArgument ∧ eq = none ∧ argc ≤ st.optind + 1 then .missing else .none

def longFault (table : List LongOption) (arg : CString) (st : Scanner) : Fault :=
  let name := arg.drop 2
  let eq := name.strchr (ch '=')
  match matchLoop name (nameLength name eq) table 0 none false with
  | (some i, false) => table[i]?.elim .none fun o => requiredFault argc o eq st
  | _ => .none

def getoptLongFault (longopts : Option (List LongOption)) (st : Scanner) : Fault :=
  match currentElement argc argv st.optind with
  | none => .none
  | some arg =>
    if 0 < st.shortNext then getoptFault argc argv optstring st
    else if isMarker arg = some true then .none
    else if isLong arg = some true then
      match longopts with
      | some table => longFault argc table arg st
      | none => getoptFault argc argv optstring st
    else getoptFault argc argv optstring st

def getoptLongOnlyFault (longopts : Option (List LongOption)) (st : Scanner) : Fault :=
  match currentElement argc argv st.optind with
  | none => .none
  | some arg =>
    if 0 < st.shortNext then getoptFault argc argv optstring st
    else if isMarker arg = some true then .none
    else if andThen (byteIs arg 0 (ch '-')) (byteIs arg 1 (ch '-')) = some true then
      getoptLongFault argc argv optstring longopts st
    else if andThen (isOption arg) (byteIsNot arg 2 0) = some true then
      match longopts with
      | none => getoptFault argc argv optstring st
      | some table =>
        let name := arg.drop 1
        let eq := name.strchr (ch '=')
        match exactLoop name (nameLength name eq) table 0 with
        | none => getoptFault argc argv optstring st
        | some i => table[i]?.elim .none fun o => requiredFault argc o eq st
    else getoptFault argc argv optstring st

end Faults

/-- What a call runs into, as far as the first byte of the option string matters to it. -/
def ScanFunction.fault (argv : List CString) (optstring : CString) (st : Scanner) :
    ScanFunction → Fault
  | .getopt => getoptFault argv.length argv optstring st
  | .getoptLong longopts _ => getoptLongFault argv.length argv optstring longopts st
  | .getoptLongOnly longopts _ => getoptLongOnlyFault argv.length argv optstring longopts st

/-- No call lacks an argument, and none meets an invalid option while messages are on. -/
def FaultsHidden (argv : List CString) (optstring : CString) : List ScanFunction → Scanner → Prop
  | [], _ => True
  | f :: functions, st => (f.fault argv optstring st).Hidden st.opterr ∧
      ((f.call optstring).run argv st).elim True fun r => FaultsHidden argv optstring functions r.2

/-- The results of a call with `optstring` and with `+` before it: the same where the fault is
hidden, and told apart by the answer or by the message elsewhere. -/
structure Parts (fault : Fault) (st : Scanner) (r r' : Option (ℤ × Scanner)) : Prop where
  alike : fault.Hidden st.opterr → r' = r
  apart : ¬ fault.Hidden st.opterr → ∀ x x', r = some x → r' = some x' →
    x'.1 ≠ x.1 ∨ (x'.2.stderr ≠ st.stderr ∧ x.2.stderr = st.stderr)

section Hiding

variable {optstring : CString} {argc : ℕ} {argv : List CString} {arg : CString} {opt : UInt8}
  {st : Scanner}

theorem Parts.same (r : Option (ℤ × Scanner)) : Parts .none st r r :=
  ⟨fun _ => rfl, fun h => absurd trivial h⟩

theorem Parts.nothing (fault : Fault) : Parts fault st none none :=
  ⟨fun _ => rfl, fun _ _ _ hx => by cases hx⟩

theorem Parts.of_state {fault : Fault} {st₁ : Scanner} {r r' : Option (ℤ × Scanner)}
    (h : Parts fault st₁ r r') (hopterr : st₁.opterr = st.opterr)
    (hstderr : st₁.stderr = st.stderr) : Parts fault st r r' := by
  constructor
  · rw [← hopterr]
    exact h.alike
  · rw [← hopterr, ← hstderr]
    exact h.apart

theorem stepCluster_stderr {st' : Scanner} (h : stepCluster arg st = some st') :
    st'.stderr = st.stderr := by
  unfold stepCluster at h
  obtain ⟨next, -, h⟩ := Option.bind_eq_some_iff.mp h
  split_ifs at h
  · cases h
    rfl
  · cases h
    rfl

theorem read_zero_of_head {b : UInt8} (h : optstring.bytes.head? = some b) :
    optstring.read 0 = some b := by
  rcases hbytes : optstring.bytes with _ | ⟨c, rest⟩
  · simp [hbytes] at h
  · simpa [CString.read, hbytes] using h

theorem pastMode_colon (hcolon : optstring.bytes.head? = some (ch ':')) :
    pastMode optstring = optstring := by
  rw [pastMode, if_neg]
  rw [hcolon]
  decide

theorem invalidOption_parts (hcolon : optstring.bytes.head? = some (ch ':')) :
    Parts .invalid st (invalidOption argv optstring arg opt st)
      (invalidOption argv (plus optstring) arg opt st) := by
  have hread := read_zero_of_head hcolon
  have hplus : (plus optstring).read 0 = some (ch '+') := rfl
  unfold invalidOption
  rw [hread, hplus]
  simp only [Option.bind_eq_bind, Option.bind_some, ne_eq, not_true_eq_false, and_false, if_false,
    show ¬ ch '+' = ch ':' from by decide, not_false_eq_true, and_true]
  constructor
  · intro hopterr
    replace hopterr : st.opterr = 0 := hopterr
    simp only [hopterr, not_true_eq_false, if_false]
  · intro hopterr x x' hx hx'
    replace hopterr : ¬ st.opterr = 0 := hopterr
    simp only [hopterr, not_false_eq_true, if_true] at hx'
    obtain ⟨s, hs, hx⟩ := Option.bind_eq_some_iff.mp hx
    obtain ⟨s', hs', hx'⟩ := Option.bind_eq_some_iff.mp hx'
    have hstderr := stepCluster_stderr hs
    have hstderr' := stepCluster_stderr hs'
    rw [← Option.some.inj hx, ← Option.some.inj hx']
    refine .inr ⟨?_, hstderr⟩
    rw [hstderr']
    simp [complain]

theorem nextElementArgument_parts (hcolon : optstring.bytes.head? = some (ch ':')) :
    Parts (if argc ≤ st.optind + 1 then .missing else .none) st
      (nextElementArgument argc argv optstring opt st)
      (nextElementArgument argc argv (plus optstring) opt st) := by
  have hread := read_zero_of_head hcolon
  have hplus : (plus optstring).read 0 = some (ch '+') := rfl
  unfold nextElementArgument
  rw [hread, hplus]
  simp only [Option.bind_eq_bind, Option.bind_some]
  by_cases hnext : st.optind + 1 < argc
  · rw [if_neg (by omega)]
    simp only [hnext, if_true]
    exact Parts.same _
  · rw [if_pos (by omega)]
    simp only [hnext, if_false]
    refine ⟨fun h => absurd h id, fun _ x x' hx hx' => .inl ?_⟩
    rw [← Option.some.inj hx, ← Option.some.inj hx']
    change charInt (ch '?') ≠ charInt (ch ':')
    decide

theorem getoptOption_parts (hcolon : optstring.bytes.head? = some (ch ':')) :
    Parts (optionFault argc optstring arg opt st) st
      (getoptOption argc argv optstring arg opt st)
      (getoptOption argc argv (plus optstring) arg opt st) := by
  unfold getoptOption optionFault
  rw [pastMode_plus, pastMode_colon hcolon]
  cases optstring.strchr opt with
  | none => exact invalidOption_parts hcolon
  | some spec =>
    dsimp only
    by_cases hopt : opt = ch ':'
    · simp only [if_pos hopt]
      exact invalidOption_parts hcolon
    · simp only [if_neg hopt]
      cases hspec : spec.read 1 with
      | none => exact Parts.same _
      | some b =>
        simp only [Option.bind_eq_bind, Option.bind_some, Option.some.injEq]
        by_cases hb : b = ch ':'
        · cases hread : arg.read (st.shortNext + 1) with
          | none => simpa [hb] using Parts.nothing _
          | some next =>
            by_cases hnext : next = 0
            · cases hspec₂ : spec.read 2 with
              | none => simpa [hb, hnext] using Parts.nothing _
              | some b₂ =>
                by_cases hb₂ : b₂ = ch ':'
                · simpa [hb, hnext, hb₂] using Parts.same _
                · simpa [hb, hnext, hb₂] using nextElementArgument_parts hcolon
            · simpa [hb, hnext] using Parts.same _
        · simpa [hb] using Parts.same _

theorem getoptElement_parts (hcolon : optstring.bytes.head? = some (ch ':')) :
    Parts (elementFault argc argv optstring st) st (getoptElement argc argv optstring st)
      (getoptElement argc argv (plus optstring) st) := by
  have hread := read_zero_of_head hcolon
  have hplus : (plus optstring).read 0 = some (ch '+') := rfl
  unfold getoptElement elementFault
  rw [hread, hplus]
  cases currentElement argc argv st.optind with
  | none => exact Parts.same _
  | some arg =>
    simp only [Option.bind_eq_bind, Option.bind_some, show ¬ ch '+' = ch '-' from by decide,
      show ¬ ch ':' = ch '-' from by decide, if_false]
    cases hoption : isOption arg with
    | none => simpa using Parts.same _
    | some option =>
      cases option with
      | false => simpa using Parts.same _
      | true =>
        cases hmarker : isMarker arg with
        | none => simpa using Parts.same _
        | some marker =>
          cases marker with
          | true => simpa using Parts.same _
          | false =>
            cases hopt : arg.read 1 with
            | none => simpa using Parts.nothing _
            | some opt =>
              have hparts : Parts (optionFault argc optstring arg opt { st with shortNext := 1 }) st
                  (getoptOption argc argv optstring arg opt { st with shortNext := 1 })
                  (getoptOption argc argv (plus optstring) arg opt { st with shortNext := 1 }) :=
                (getoptOption_parts hcolon).of_state rfl rfl
              simpa using hparts

theorem getopt_parts (hcolon : optstring.bytes.head? = some (ch ':')) :
    Parts (getoptFault argc argv optstring st) st (getopt argc argv (some optstring) st)
      (getopt argc argv (some (plus optstring)) st) := by
  unfold getopt getoptFault
  simp only [Option.getD_some]
  by_cases hshort : 0 < st.shortNext
  · simp only [hshort, if_true]
    cases currentElement argc argv st.optind with
    | none => exact Parts.same _
    | some arg =>
      cases hopt : arg.read st.shortNext with
      | none => simpa [hopt] using Parts.nothing _
      | some opt =>
        by_cases hend : opt = 0
        · have hparts : Parts (elementFault argc argv optstring
                { st with shortNext := 0, optind := st.optind + 1 }) st
              (getoptElement argc argv optstring
                { st with shortNext := 0, optind := st.optind + 1 })
              (getoptElement argc argv (plus optstring)
                { st with shortNext := 0, optind := st.optind + 1 }) :=
            (getoptElement_parts hcolon).of_state rfl rfl
          simpa [hopt, hend] using hparts
        · simpa [hopt, hend] using getoptOption_parts hcolon
  · simp only [hshort, if_false]
    exact getoptElement_parts hcolon

theorem deliverRequired_parts (hcolon : optstring.bytes.head? = some (ch ':')) (dashes : String)
    (o : LongOption) (eq : Option CString) :
    Parts (if eq = none ∧ argc ≤ st.optind then .missing else .none) st
      (some (deliverRequired argc argv (some optstring) dashes o eq st))
      (some (deliverRequired argc argv (some (plus optstring)) dashes o eq st)) := by
  have hplus : (plus optstring).bytes.head? = some (ch '+') := rfl
  unfold deliverRequired
  cases eq with
  | some e => simpa using Parts.same _
  | none =>
    by_cases hnext : st.optind < argc
    · rw [if_neg (by omega)]
      simp only [hnext, if_true]
      exact Parts.same _
    · rw [if_pos ⟨rfl, by omega⟩]
      simp only [hnext, if_false, Option.bind_some, hcolon, hplus]
      refine ⟨fun h => absurd h id, fun _ x x' hx hx' => .inl ?_⟩
      rw [← Option.some.inj hx, ← Option.some.inj hx']
      change charInt (ch '?') ≠ charInt (ch ':')
      decide

theorem deliverMatched_parts (hcolon : optstring.bytes.head? = some (ch ':')) (dashes : String)
    (o : LongOption) (eq : Option CString) (longindex : Option ℕ) (i : ℕ) :
    Parts (if eq = none ∧ argc ≤ st.optind + 1 then .missing else .none) st
      (some (deliverRequired argc argv (some optstring) dashes o eq (recordMatch longindex i st)))
      (some (deliverRequired argc argv (some (plus optstring)) dashes o eq
        (recordMatch longindex i st))) := by
  have hparts : Parts (if eq = none ∧ argc ≤ (recordMatch longindex i st).optind then .missing
        else .none) (recordMatch longindex i st)
      (some (deliverRequired argc argv (some optstring) dashes o eq (recordMatch longindex i st)))
      (some (deliverRequired argc argv (some (plus optstring)) dashes o eq
        (recordMatch longindex i st))) := deliverRequired_parts hcolon dashes o eq
  exact hparts.of_state rfl rfl

theorem longOption_parts (hcolon : optstring.bytes.head? = some (ch ':'))
    (table : List LongOption) (longindex : Option ℕ) :
    Parts (longFault argc table arg st) st
      (longOption argc argv (some optstring) table longindex arg st)
      (longOption argc argv (some (plus optstring)) table longindex arg st) := by
  unfold longOption longFault
  dsimp only
  generalize matchLoop _ _ table 0 none false = found
  obtain ⟨_ | i, _ | _⟩ := found
  · exact Parts.same _
  · exact Parts.same _
  · dsimp only
    cases table[i]? with
    | none => exact Parts.nothing _
    | some o =>
      simp only [Option.elim_some, Option.bind_eq_bind, Option.bind_some]
      by_cases hno : o.hasArg = noArgument
      · have hother : noArgument ≠ requiredArgument := by decide
        simpa [requiredFault, hno, hother] using Parts.same _
      · by_cases hrequired : o.hasArg = requiredArgument
        · rw [if_neg hno, if_neg hno, if_pos hrequired, if_pos hrequired]
          simp only [requiredFault, hrequired, true_and]
          exact deliverMatched_parts hcolon "--" o _ longindex i
        · simpa [requiredFault, hno, hrequired] using Parts.same _
  · exact Parts.same _

theorem getoptLong_parts (hcolon : optstring.bytes.head? = some (ch ':'))
    (longopts : Option (List LongOption)) (longindex : Option ℕ) :
    Parts (getoptLongFault argc argv optstring longopts st) st
      (getoptLong argc argv (some optstring) longopts longindex st)
      (getoptLong argc argv (some (plus optstring)) longopts longindex st) := by
  have hgetopt : Parts (getoptFault argc argv optstring st) st
      (getopt argc argv (some optstring) st) (getopt argc argv (some (plus optstring)) st) :=
    getopt_parts hcolon
  unfold getoptLong getoptLongFault
  cases currentElement argc argv st.optind with
  | none => exact Parts.same _
  | some arg =>
    dsimp only
    by_cases hshort : 0 < st.shortNext
    · simp only [hshort, if_true]
      exact hgetopt
    · simp only [hshort, if_false]
      cases isMarker arg with
      | none => simpa using Parts.nothing _
      | some marker =>
        cases marker with
        | true => simpa using Parts.same _
        | false =>
          cases isLong arg with
          | none => simpa using Parts.nothing _
          | some long =>
            cases long with
            | false => simpa using hgetopt
            | true =>
              cases longopts with
              | none => simpa using hgetopt
              | some table => simpa using longOption_parts hcolon table longindex

theorem longOnlyOption_parts (hcolon : optstring.bytes.head? = some (ch ':'))
    (longindex : Option ℕ) (o : LongOption) (i : ℕ) (eq : Option CString) :
    Parts (requiredFault argc o eq st) st
      (some (longOnlyOption argc argv (some optstring) longindex o i eq st))
      (some (longOnlyOption argc argv (some (plus optstring)) longindex o i eq st)) := by
  unfold longOnlyOption requiredFault
  by_cases hrequired : o.hasArg = requiredArgument
  · simp only [hrequired, if_true, true_and]
    exact deliverMatched_parts hcolon "-" o eq longindex i
  · simp only [hrequired, if_false, false_and]
    exact Parts.same _

theorem getoptLongOnly_parts (hcolon : optstring.bytes.head? = some (ch ':'))
    (longopts : Option (List LongOption)) (longindex : Option ℕ) :
    Parts (getoptLongOnlyFault argc argv optstring longopts st) st
      (getoptLongOnly argc argv (some optstring) longopts longindex st)
      (getoptLongOnly argc argv (some (plus optstring)) longopts longindex st) := by
  have hgetopt : Parts (getoptFault argc argv optstring st) st
      (getopt argc argv (some optstring) st) (getopt argc argv (some (plus optstring)) st) :=
    getopt_parts hcolon
  unfold getoptLongOnly getoptLongOnlyFault
  cases currentElement argc argv st.optind with
  | none => exact Parts.same _
  | some arg =>
    dsimp only
    by_cases hshort : 0 < st.shortNext
    · simp only [hshort, if_true]
      exact hgetopt
    · simp only [hshort, if_false]
      cases isMarker arg with
      | none => simpa using Parts.nothing _
      | some marker =>
        cases marker with
        | true => simpa using Parts.same _
        | false =>
          cases andThen (byteIs arg 0 (ch '-')) (byteIs arg 1 (ch '-')) with
          | none => simpa using Parts.nothing _
          | some dashes =>
            cases dashes with
            | true => simpa using getoptLong_parts hcolon longopts longindex
            | false =>
              cases andThen (isOption arg) (byteIsNot arg 2 0) with
              | none => simpa using Parts.nothing _
              | some long =>
                cases long with
                | false => simpa using hgetopt
                | true =>
                  cases longopts with
                  | none => simpa using hgetopt
                  | some table =>
                    simp only [Option.bind_eq_bind, Option.bind_some, Bool.false_eq_true,
                      if_false, if_true, Option.some.injEq]
                    cases exactLoop (arg.drop 1)
                        (nameLength (arg.drop 1) ((arg.drop 1).strchr (ch '='))) table 0 with
                    | none => exact hgetopt
                    | some i =>
                      dsimp only
                      cases table[i]? with
                      | none => exact Parts.nothing _
                      | some o => exact longOnlyOption_parts hcolon longindex o i _

theorem ScanFunction.parts (hcolon : optstring.bytes.head? = some (ch ':')) (f : ScanFunction) :
    Parts (f.fault argv optstring st) st ((f.call optstring).run argv st)
      ((f.call (plus optstring)).run argv st) := by
  cases f with
  | getopt => exact getopt_parts hcolon
  | getoptLong longopts longindex => exact getoptLong_parts hcolon longopts longindex
  | getoptLongOnly longopts longindex => exact getoptLongOnly_parts hcolon longopts longindex

theorem outcome_ne_of_apart {x x' : ℤ × Scanner}
    (h : x'.1 ≠ x.1 ∨ (x'.2.stderr ≠ st.stderr ∧ x.2.stderr = st.stderr)) :
    outcome st x' ≠ outcome st x := by
  intro heq
  rcases h with hret | ⟨hprinted, hsilent⟩
  · exact hret (congrArg Outcome.ret heq)
  · have hsame : (x'.2.stderr != st.stderr) = (x.2.stderr != st.stderr) :=
      congrArg Outcome.printed heq
    rw [hsilent, bne_self_eq_false, bne_eq_false_iff_eq] at hsame
    exact hprinted hsame

/-- With `:` first, two scans agree until a fault shows, and then no more. -/
theorem outcomes_colon_iff (hcolon : optstring.bytes.head? = some (ch ':'))
    (functions : List ScanFunction) (hplaced : Placed argv st) :
    outcomes argv (plus optstring) functions st = outcomes argv optstring functions st ↔
      FaultsHidden argv optstring functions st := by
  induction functions generalizing st with
  | nil => exact iff_of_true rfl trivial
  | cons f functions ih =>
    have hparts : Parts (f.fault argv optstring st) st ((f.call optstring).run argv st)
        ((f.call (plus optstring)).run argv st) := f.parts hcolon
    obtain ⟨ret, st₁, hcall, hplaced₁, -⟩ := (f.call optstring).run_proceeds hplaced
    obtain ⟨ret', st₁', hcall', hplaced₁', -⟩ := (f.call (plus optstring)).run_proceeds hplaced
    obtain ⟨seen, hseen⟩ := exists_outcomes optstring functions hplaced₁
    obtain ⟨seen', hseen'⟩ := exists_outcomes (plus optstring) functions hplaced₁'
    rw [FaultsHidden]
    by_cases hhidden : (f.fault argv optstring st).Hidden st.opterr
    · have hsame : (f.call (plus optstring)).run argv st = (f.call optstring).run argv st :=
        hparts.alike hhidden
      have hrest := ih hplaced₁
      rw [outcomes, outcomes, hsame, hcall]
      simp only [Option.bind_eq_bind, Option.bind_some, hhidden, true_and, Option.elim_some]
      rw [← hrest, hseen]
      cases outcomes argv (plus optstring) functions st₁ with
      | none => simp
      | some other => simp
    · have hdiffer := outcome_ne_of_apart (hparts.apart hhidden _ _ hcall hcall')
      refine iff_of_false ?_ fun h => hhidden h.1
      rw [outcomes, outcomes, hcall, hcall']
      simp only [Option.bind_eq_bind, Option.bind_some, hseen, hseen', Option.some.injEq]
      exact fun heq => hdiffer (List.cons.inj heq).1

/-- A leading `+` changes nothing exactly when it hides no `:`, or when no call of the scan would
show the `:`. -/
theorem outcomes_plus_iff (optstring : CString)
    (hplus : optstring.bytes.head? ≠ some (ch '+'))
    (hdash : optstring.bytes.head? ≠ some (ch '-')) (functions : List ScanFunction)
    (argv : List CString) (st : Scanner) (hoptind : st.optind = 1) (hshort : st.shortNext = 0) :
    outcomes argv (plus optstring) functions st = outcomes argv optstring functions st ↔
      optstring.bytes.head? ≠ some (ch ':') ∨ FaultsHidden argv optstring functions st := by
  by_cases hcolon : optstring.bytes.head? = some (ch ':')
  · have hplaced : Placed argv st := ⟨hoptind.ge, by omega, .inl hshort⟩
    rw [outcomes_colon_iff hcolon functions hplaced]
    exact ⟨.inr, fun h => h.resolve_left (not_not.mpr hcolon)⟩
  · exact iff_of_true ((plus_alike hplus hdash hcolon).outcomes_eq functions st) (.inl hcolon)

end Hiding

/-- `:o:` meets no fault in `p -o x`. -/
theorem outcomes_plus_iff_argument :
    outcomes [CString.ofString "p", CString.ofString "-o", CString.ofString "x"]
        (plus (CString.ofString ":o:")) [.getopt] fresh =
      outcomes [CString.ofString "p", CString.ofString "-o", CString.ofString "x"]
        (CString.ofString ":o:") [.getopt] fresh := by
  refine (outcomes_plus_iff _ (by decide) (by decide) _ _ _ rfl rfl).mpr (.inr ⟨?_, ?_⟩)
  · have hfault : ScanFunction.getopt.fault
        [CString.ofString "p", CString.ofString "-o", CString.ofString "x"]
        (CString.ofString ":o:") fresh = .none := by decide
    rw [hfault]
    trivial
  · cases (ScanFunction.getopt.call (CString.ofString ":o:")).run
        [CString.ofString "p", CString.ofString "-o", CString.ofString "x"] fresh with
    | none => trivial
    | some r => trivial

/-- `+:o:` reports a missing argument with a message and `?`, `:o:` with `:` alone. -/
theorem outcomes_plus_differ :
    outcomes [CString.ofString "p", CString.ofString "-o"] (plus (CString.ofString ":o:"))
        [.getopt] fresh =
      some [⟨charInt (ch '?'), none, charInt (ch 'o'), 2, true⟩] ∧
    outcomes [CString.ofString "p", CString.ofString "-o"] (CString.ofString ":o:")
        [.getopt] fresh =
      some [⟨charInt (ch ':'), none, charInt (ch 'o'), 2, false⟩] ∧
    outcomes [CString.ofString "p", CString.ofString "-o"] (plus (CString.ofString ":o:"))
        [.getopt] fresh ≠
      outcomes [CString.ofString "p", CString.ofString "-o"] (CString.ofString ":o:")
        [.getopt] fresh :=
  ⟨by decide, by decide, by decide⟩

end Solcompat.Getopt
