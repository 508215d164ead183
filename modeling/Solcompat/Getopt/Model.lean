import Mathlib.Logic.Function.Basic
import Solcompat.Lib.CString

/-!
# The option scanner

The globals of `getopt_long.c` are one state: the public `optarg`, `optind`, `opterr`
and `optopt`, the hidden `short_next` cursor inside a clustered element, the `int`
cells of the client that `flag` and `longindex` point to, and what was printed on
`stderr`. `argv` is the list of elements before the null pointer, so that `argv[i]?`
is the pointer stored at `i`. Every function answers `none` exactly when the source
would read outside a string.
-/

namespace Solcompat.Getopt

open Solcompat.Lib

/-- `struct option`. The terminating all-zero record is the end of the list. -/
structure LongOption where
  name : CString
  hasArg : ℤ
  flag : Option ℕ
  val : ℤ

def noArgument : ℤ := 0
def requiredArgument : ℤ := 1
def optionalArgument : ℤ := 2

structure Scanner where
  optarg : Option CString
  optind : ℕ
  opterr : ℤ
  optopt : ℤ
  shortNext : ℕ
  cells : ℕ → ℤ
  stderr : List UInt8

/-- A `char` promoted to `int`; plain `char` is signed on SPARC. -/
def charInt (b : UInt8) : ℤ :=
  if b.toNat < 128 then (b.toNat : ℤ) else (b.toNat : ℤ) - 256

def text (s : String) : List UInt8 := (CString.ofString s).bytes

/-- `argv[0] ? argv[0] : ""` -/
def programName (argv : List CString) : List UInt8 :=
  (argv[0]?.getD default).bytes

def complain (st : Scanner) (message : List (List UInt8)) : Scanner :=
  { st with stderr := st.stderr ++ message.flatten }

def currentElement (argc : ℕ) (argv : List CString) (optind : ℕ) : Option CString :=
  if optind < argc then argv[optind]? else none

/-- The short-circuit `&&` between two conditions that read memory. -/
def andThen (a b : Option Bool) : Option Bool :=
  a.bind fun x => if x then b else some false

def byteIs (arg : CString) (i : ℕ) (b : UInt8) : Option Bool :=
  (arg.read i).map (· == b)

def byteIsNot (arg : CString) (i : ℕ) (b : UInt8) : Option Bool :=
  (arg.read i).map (· != b)

/-- `arg[0] == '-' && arg[1] == '-' && arg[2] == '\0'` -/
def isMarker (arg : CString) : Option Bool :=
  andThen (byteIs arg 0 (ch '-')) (andThen (byteIs arg 1 (ch '-')) (byteIs arg 2 0))

/-- `arg[0] == '-' && arg[1] == '-' && arg[2] != '\0'` -/
def isLong (arg : CString) : Option Bool :=
  andThen (byteIs arg 0 (ch '-')) (andThen (byteIs arg 1 (ch '-')) (byteIsNot arg 2 0))

/-- The negation of `arg[0] != '-' || arg[1] == '\0'` -/
def isOption (arg : CString) : Option Bool :=
  andThen (byteIs arg 0 (ch '-')) (byteIsNot arg 1 0)

/-- `lookup`: the option string past a mode character. -/
def pastMode (optstring : CString) : CString :=
  if optstring.bytes.head? = some (ch '+') ∨ optstring.bytes.head? = some (ch '-') then
    optstring.drop 1
  else optstring

/-- The end of a cluster moves to the next element. -/
def stepCluster (arg : CString) (st : Scanner) : Option Scanner := do
  let next ← arg.read (st.shortNext + 1)
  if next = 0 then some { st with shortNext := 0, optind := st.optind + 1 }
  else some { st with shortNext := st.shortNext + 1 }

def invalidOption (argv : List CString) (optstring arg : CString) (opt : UInt8)
    (st : Scanner) : Option (ℤ × Scanner) := do
  let first ← optstring.read 0
  let st :=
    if st.opterr ≠ 0 ∧ first ≠ ch ':' then
      complain st [programName argv, text ": invalid option -- '", [opt], text "'\n"]
    else st
  let st ← stepCluster arg { st with optopt := charInt opt }
  some (charInt (ch '?'), st)

/-- `-o ARG`: the argument is the next element. -/
def nextElementArgument (argc : ℕ) (argv : List CString) (optstring : CString)
    (opt : UInt8) (st : Scanner) : Option (ℤ × Scanner) := do
  let first ← optstring.read 0
  let st := { st with shortNext := 0, optind := st.optind + 1 }
  if st.optind < argc then
    some (charInt opt, { st with optarg := argv[st.optind]?, optind := st.optind + 1 })
  else
    let st :=
      if st.opterr ≠ 0 ∧ first ≠ ch ':' then
        complain st
          [programName argv, text ": option requires an argument -- '", [opt], text "'\n"]
      else st
    some (charInt (if first = ch ':' then ch ':' else ch '?'),
      { st with optopt := charInt opt })

/-- The half of `getopt` after `opt` was fetched from `arg`, the current element. -/
def getoptOption (argc : ℕ) (argv : List CString) (optstring arg : CString)
    (opt : UInt8) (st : Scanner) : Option (ℤ × Scanner) :=
  match (pastMode optstring).strchr opt with
  | none => invalidOption argv optstring arg opt st
  | some spec =>
    if opt = ch ':' then invalidOption argv optstring arg opt st
    else do
      if (← spec.read 1) = ch ':' then
        if (← arg.read (st.shortNext + 1)) ≠ 0 then
          some (charInt opt,
            { st with
              optarg := some (arg.drop (st.shortNext + 1))
              shortNext := 0
              optind := st.optind + 1 })
        else if (← spec.read 2) = ch ':' then
          some (charInt opt,
            { st with optarg := none, shortNext := 0, optind := st.optind + 1 })
        else nextElementArgument argc argv optstring opt st
      else
        let st ← stepCluster arg { st with optarg := none }
        some (charInt opt, st)

def getoptElement (argc : ℕ) (argv : List CString) (optstring : CString)
    (st : Scanner) : Option (ℤ × Scanner) :=
  match currentElement argc argv st.optind with
  | none => some (-1, st)
  | some arg => do
    if ← isOption arg then
      if ← isMarker arg then some (-1, { st with optind := st.optind + 1 })
      else
        let opt ← arg.read 1
        getoptOption argc argv optstring arg opt { st with shortNext := 1 }
    else if (← optstring.read 0) = ch '-' then
      some (1, { st with optarg := some arg, optind := st.optind + 1 })
    else some (-1, st)

/-- The recursive call of the source is made with `short_next == 0`, where it is
`getoptElement`. -/
def getopt (argc : ℕ) (argv : List CString) (optstring : Option CString)
    (st : Scanner) : Option (ℤ × Scanner) :=
  let optstring := optstring.getD default
  if 0 < st.shortNext then
    match currentElement argc argv st.optind with
    | none => some (-1, { st with shortNext := 0 })
    | some arg => do
      let opt ← arg.read st.shortNext
      if opt = 0 then
        getoptElement argc argv optstring
          { st with shortNext := 0, optind := st.optind + 1 }
      else getoptOption argc argv optstring arg opt st
  else getoptElement argc argv optstring st

/-- The search loop of `getopt_long`: the pair of `match` and `ambiguous`. -/
def matchLoop (name : CString) (namelen : ℕ) :
    List LongOption → ℕ → Option ℕ → Bool → Option ℕ × Bool
  | [], _, found, ambiguous => (found, ambiguous)
  | o :: rest, i, found, ambiguous =>
    if o.name.strncmp name namelen = 0 then
      if o.name.strlen = namelen then (some i, false)
      else
        match found with
        | some k => matchLoop name namelen rest (i + 1) (some k) true
        | none => matchLoop name namelen rest (i + 1) (some i) ambiguous
    else matchLoop name namelen rest (i + 1) found ambiguous

/-- The search loop of `getopt_long_only`, for exact names. -/
def exactLoop (name : CString) (namelen : ℕ) : List LongOption → ℕ → Option ℕ
  | [], _ => none
  | o :: rest, i =>
    if o.name.strncmp name namelen = 0 ∧ o.name.strlen = namelen then some i
    else exactLoop name namelen rest (i + 1)

/-- `namelen`: the bytes of `name` before `eq`, or all of them. -/
def nameLength (name : CString) (eq : Option CString) : ℕ :=
  match eq with
  | some e => name.strlen - e.strlen
  | none => name.strlen

/-- `if (longindex) *longindex = match; optind++;` -/
def recordMatch (longindex : Option ℕ) (i : ℕ) (st : Scanner) : Scanner :=
  { st with
    optind := st.optind + 1
    cells := match longindex with
      | some p => Function.update st.cells p i
      | none => st.cells }

/-- Set `optarg`, then store `val` through `flag` or return it. -/
def deliver (o : LongOption) (optarg : Option CString) (st : Scanner) : ℤ × Scanner :=
  match o.flag with
  | some p => (0, { st with optarg := optarg, cells := Function.update st.cells p o.val })
  | none => (o.val, { st with optarg := optarg })

/-- An argument on a `no_argument` option is an error. `dashes` is the spelling of
the message, `--` or `-`. -/
def deliverBare (argv : List CString) (dashes : String) (o : LongOption)
    (eq : Option CString) (st : Scanner) : ℤ × Scanner :=
  match eq with
  | some _ =>
    (charInt (ch '?'),
      if st.opterr ≠ 0 then
        complain st [programName argv, text ": option '", text dashes, o.name.bytes,
          text "' doesn't allow an argument\n"]
      else st)
  | none => deliver o none st

def deliverRequired (argc : ℕ) (argv : List CString) (optstring : Option CString)
    (dashes : String) (o : LongOption) (eq : Option CString) (st : Scanner) :
    ℤ × Scanner :=
  match eq with
  | some e => deliver o (some (e.drop 1)) st
  | none =>
    if st.optind < argc then
      deliver o argv[st.optind]? { st with optind := st.optind + 1 }
    else
      (charInt (if (optstring.bind (·.bytes.head?)) = some (ch ':') then ch ':' else ch '?'),
        if st.opterr ≠ 0 then
          complain st [programName argv, text ": option '", text dashes, o.name.bytes,
            text "' requires an argument\n"]
        else st)

def deliverOptional (o : LongOption) (eq : Option CString) (st : Scanner) : ℤ × Scanner :=
  deliver o (eq.map (·.drop 1)) st

/-- The `--name` branch of `getopt_long`. -/
def longOption (argc : ℕ) (argv : List CString) (optstring : Option CString)
    (longopts : List LongOption) (longindex : Option ℕ) (arg : CString)
    (st : Scanner) : Option (ℤ × Scanner) :=
  let name := arg.drop 2
  let eq := name.strchr (ch '=')
  let namelen := nameLength name eq
  match matchLoop name namelen longopts 0 none false with
  | (_, true) =>
    let st :=
      if st.opterr ≠ 0 then
        complain st [programName argv, text ": option '--", name.bytes.take namelen,
          text "' is ambiguous\n"]
      else st
    some (charInt (ch '?'), { st with optind := st.optind + 1 })
  | (none, false) =>
    let st :=
      if st.opterr ≠ 0 then
        complain st [programName argv, text ": unrecognized option '--",
          name.bytes.take namelen, text "'\n"]
      else st
    some (charInt (ch '?'), { st with optind := st.optind + 1 })
  | (some i, false) => do
    let o ← longopts[i]?
    let st := recordMatch longindex i st
    if o.hasArg = noArgument then some (deliverBare argv "--" o eq st)
    else if o.hasArg = requiredArgument then
      some (deliverRequired argc argv optstring "--" o eq st)
    else some (deliverOptional o eq st)

/-- `getopt_long`. A null `longopts` is `none`. -/
def getoptLong (argc : ℕ) (argv : List CString) (optstring : Option CString)
    (longopts : Option (List LongOption)) (longindex : Option ℕ) (st : Scanner) :
    Option (ℤ × Scanner) :=
  match currentElement argc argv st.optind with
  | none => some (-1, st)
  | some arg =>
    if 0 < st.shortNext then getopt argc argv optstring st
    else do
      if ← isMarker arg then some (-1, { st with optind := st.optind + 1 })
      else if ← isLong arg then
        match longopts with
        | some table => longOption argc argv optstring table longindex arg st
        | none => getopt argc argv optstring st
      else getopt argc argv optstring st

/-- The `-name` branch of `getopt_long_only`, once `name` is in the table. The
argument kinds are tested in another order than in `longOption`, which matters for a
`has_arg` that is none of the three. -/
def longOnlyOption (argc : ℕ) (argv : List CString) (optstring : Option CString)
    (longindex : Option ℕ) (o : LongOption) (i : ℕ) (eq : Option CString)
    (st : Scanner) : ℤ × Scanner :=
  let st := recordMatch longindex i st
  if o.hasArg = requiredArgument then deliverRequired argc argv optstring "-" o eq st
  else if o.hasArg = optionalArgument then deliverOptional o eq st
  else deliverBare argv "-" o eq st

def getoptLongOnly (argc : ℕ) (argv : List CString) (optstring : Option CString)
    (longopts : Option (List LongOption)) (longindex : Option ℕ) (st : Scanner) :
    Option (ℤ × Scanner) :=
  match currentElement argc argv st.optind with
  | none => some (-1, st)
  | some arg =>
    if 0 < st.shortNext then getopt argc argv optstring st
    else do
      if ← isMarker arg then some (-1, { st with optind := st.optind + 1 })
      else if ← andThen (byteIs arg 0 (ch '-')) (byteIs arg 1 (ch '-')) then
        getoptLong argc argv optstring longopts longindex st
      else if ← andThen (isOption arg) (byteIsNot arg 2 0) then
        match longopts with
        | none => getopt argc argv optstring st
        | some table =>
          let name := arg.drop 1
          let eq := name.strchr (ch '=')
          match exactLoop name (nameLength name eq) table 0 with
          | none => getopt argc argv optstring st
          | some i => do
            let o ← table[i]?
            some (longOnlyOption argc argv optstring longindex o i eq st)
      else getopt argc argv optstring st

end Solcompat.Getopt
