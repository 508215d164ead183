import Solcompat.Getopt.Model

/-!
# Rendering option occurrences as arguments

What a command line means, independently of the scanner: the option strings and the
long-option tables that are given a meaning, the occurrences of options in a command
line, and the ways in which a list of occurrences may be written as elements of
`argv`.
-/

namespace Solcompat.Getopt

open Solcompat.Lib

inductive ArgKind where
  | bare
  | required
  | optional
  deriving DecidableEq

/-- A leading character of the option string that changes no option. -/
inductive Lead where
  | plus
  | colon

/-- An option string: its options in order, where an earlier entry for a character
hides a later one. -/
structure OptString where
  lead : Option Lead
  options : List (UInt8 × ArgKind)
  ascii : ∀ o ∈ options, o.1 ≠ 0 ∧ o.1.toNat < 128
  noColon : ∀ o ∈ options, o.1 ≠ ch ':'
  noDash : ∀ o ∈ options, o.1 ≠ ch '-'
  noPlus : ∀ o ∈ options, o.1 ≠ ch '+'

def Lead.bytes : Lead → List UInt8
  | .plus => [ch '+']
  | .colon => [ch ':']

def ArgKind.colons : ArgKind → List UInt8
  | .bare => []
  | .required => [ch ':']
  | .optional => [ch ':', ch ':']

def optionBytes (options : List (UInt8 × ArgKind)) : List UInt8 :=
  options.flatMap fun o => o.1 :: o.2.colons

def leadBytes (lead : Option Lead) : List UInt8 :=
  lead.elim [] Lead.bytes

theorem ArgKind.eq_colon_of_mem_colons {k : ArgKind} {b : UInt8} (h : b ∈ k.colons) :
    b = ch ':' := by
  cases k <;> simp_all [ArgKind.colons]

theorem mem_optionBytes {options : List (UInt8 × ArgKind)} {b : UInt8}
    (h : b ∈ optionBytes options) : (∃ o ∈ options, b = o.1) ∨ b = ch ':' := by
  obtain ⟨o, ho, hb⟩ := List.mem_flatMap.mp h
  rcases List.mem_cons.mp hb with rfl | hb
  · exact .inl ⟨o, ho, rfl⟩
  · exact .inr (ArgKind.eq_colon_of_mem_colons hb)

theorem ne_zero_of_mem_leadBytes {lead : Option Lead} {b : UInt8}
    (h : b ∈ leadBytes lead) : b ≠ 0 := by
  rcases lead with _ | _ | _
  · simp [leadBytes] at h
  · rw [List.mem_singleton.mp h]
    decide
  · rw [List.mem_singleton.mp h]
    decide

namespace OptString

def text (opts : OptString) : CString where
  bytes := leadBytes opts.lead ++ optionBytes opts.options
  nulFree := by
    intro b hb
    rcases List.mem_append.mp hb with hb | hb
    · exact ne_zero_of_mem_leadBytes hb
    · rcases mem_optionBytes hb with ⟨o, ho, rfl⟩ | rfl
      · exact (opts.ascii o ho).1
      · decide

/-- The argument kind of an option character, if it is one. -/
def kind (opts : OptString) (c : UInt8) : Option ArgKind := opts.options.lookup c

end OptString

/-- A long-option table the scanner can be given. -/
structure LongTable where
  entries : List LongOption
  distinct : (entries.map LongOption.name).Nodup
  named : ∀ o ∈ entries, o.name.bytes ≠ []
  noEquals : ∀ o ∈ entries, ch '=' ∉ o.name.bytes
  kinds : ∀ o ∈ entries,
    o.hasArg = noArgument ∨ o.hasArg = requiredArgument ∨ o.hasArg = optionalArgument

/-- One option of a command line: a short option by its character, a long one by its
place in the table, and its argument. -/
inductive Occurrence where
  | short (c : UInt8) (arg : Option CString)
  | long (i : ℕ) (arg : Option CString)

/-- `name` may stand for entry `i`: it is the full name, or a non-empty beginning of
it that begins no other name of the table. -/
def Spells (table : LongTable) (i : ℕ) (o : LongOption) (name : List UInt8) : Prop :=
  table.entries[i]? = some o ∧
    (name = o.name.bytes ∨
      name ≠ [] ∧ name <+: o.name.bytes ∧
        ∀ j o', table.entries[j]? = some o' → j ≠ i → ¬ name <+: o'.name.bytes)

def bareOccurrences (cs : List UInt8) : List Occurrence := cs.map fun c => .short c none

section Rendering

variable (opts : OptString) (table : LongTable)

/-- The occurrences written as one option element, with the element of its argument
where that stands apart. Glued to its option an argument cannot be empty: the element
would be the one without it. -/
inductive RendersGroup : List Occurrence → List CString → Prop
  | cluster (cs : List UInt8) (e : CString)
      (nonempty : cs ≠ [])
      (bare : ∀ c ∈ cs, opts.kind c = some .bare)
      (spelling : e.bytes = ch '-' :: cs) :
      RendersGroup (bareOccurrences cs) [e]
  | glued (cs : List UInt8) (c : UInt8) (arg e : CString)
      (bare : ∀ b ∈ cs, opts.kind b = some .bare)
      (takes : opts.kind c = some .required ∨ opts.kind c = some .optional)
      (nonempty : arg.bytes ≠ [])
      (spelling : e.bytes = ch '-' :: (cs ++ c :: arg.bytes)) :
      RendersGroup (bareOccurrences cs ++ [.short c (some arg)]) [e]
  | separate (cs : List UInt8) (c : UInt8) (arg e : CString)
      (bare : ∀ b ∈ cs, opts.kind b = some .bare)
      (takes : opts.kind c = some .required)
      (spelling : e.bytes = ch '-' :: (cs ++ [c])) :
      RendersGroup (bareOccurrences cs ++ [.short c (some arg)]) [e, arg]
  | absent (cs : List UInt8) (c : UInt8) (e : CString)
      (bare : ∀ b ∈ cs, opts.kind b = some .bare)
      (takes : opts.kind c = some .optional)
      (spelling : e.bytes = ch '-' :: (cs ++ [c])) :
      RendersGroup (bareOccurrences cs ++ [.short c none]) [e]
  | longBare (i : ℕ) (o : LongOption) (name : List UInt8) (e : CString)
      (spells : Spells table i o name)
      (takes : o.hasArg = noArgument ∨ o.hasArg = optionalArgument)
      (spelling : e.bytes = ch '-' :: ch '-' :: name) :
      RendersGroup [.long i none] [e]
  | longEquals (i : ℕ) (o : LongOption) (name : List UInt8) (arg e : CString)
      (spells : Spells table i o name)
      (takes : o.hasArg = requiredArgument ∨ o.hasArg = optionalArgument)
      (spelling : e.bytes = ch '-' :: ch '-' :: (name ++ ch '=' :: arg.bytes)) :
      RendersGroup [.long i (some arg)] [e]
  | longSeparate (i : ℕ) (o : LongOption) (name : List UInt8) (arg e : CString)
      (spells : Spells table i o name)
      (takes : o.hasArg = requiredArgument)
      (spelling : e.bytes = ch '-' :: ch '-' :: name) :
      RendersGroup [.long i (some arg)] [e, arg]

inductive Renders : List Occurrence → List CString → Prop
  | nil : Renders [] []
  | cons (occs more : List Occurrence) (elems rest : List CString)
      (group : RendersGroup opts table occs elems) (others : Renders more rest) :
      Renders (occs ++ more) (elems ++ rest)

end Rendering

/-- What may follow the options, and how many of its elements the scanner consumes:
nothing, the marker `--` and any elements, or an operand and any elements. -/
inductive EndsOptions : List CString → ℕ → Prop
  | nothing : EndsOptions [] 0
  | marker (e : CString) (rest : List CString)
      (spelling : e.bytes = [ch '-', ch '-']) : EndsOptions (e :: rest) 1
  | operand (e : CString) (rest : List CString)
      (spelling : e.bytes = [ch '-'] ∨ e.bytes.head? ≠ some (ch '-')) :
      EndsOptions (e :: rest) 0

/-- What a caller sees after one call. -/
structure Observation where
  ret : ℤ
  optarg : Option CString
  cells : ℕ → ℤ

/-- The observation that reports an occurrence: the option character, or the entry's
value either returned or stored through `flag`, with the entry's place in
`*longindex`. -/
def report (table : LongTable) (longindex : Option ℕ) (cells : ℕ → ℤ) :
    Occurrence → Observation
  | .short c arg => ⟨c.toNat, arg, cells⟩
  | .long i arg =>
    let cells := longindex.elim cells fun p => Function.update cells p (i : ℤ)
    match table.entries[i]? with
    | some ⟨_, _, some p, val⟩ => ⟨0, arg, Function.update cells p val⟩
    | some ⟨_, _, none, val⟩ => ⟨val, arg, cells⟩
    | none => ⟨0, arg, cells⟩

/-- The reports of a list of occurrences, each on the cells the one before left. -/
def reports (table : LongTable) (longindex : Option ℕ) :
    (ℕ → ℤ) → List Occurrence → List Observation
  | _, [] => []
  | cells, occ :: occs =>
    let seen := report table longindex cells occ
    seen :: reports table longindex seen.cells occs

/-- The client's loop: `n` calls of `getopt_long`, looking at the globals after each. -/
def scan (argc : ℕ) (argv : List CString) (optstring : Option CString)
    (longopts : Option (List LongOption)) (longindex : Option ℕ) :
    ℕ → Scanner → Option (List Observation × Scanner)
  | 0, st => some ([], st)
  | n + 1, st => do
    let (ret, st₁) ← getoptLong argc argv optstring longopts longindex st
    let (seen, st₂) ← scan argc argv optstring longopts longindex n st₁
    some (⟨ret, st₁.optarg, st₁.cells⟩ :: seen, st₂)

end Solcompat.Getopt
