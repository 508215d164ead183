import Solcompat.Getopt.Resolve

/-!
# One dash or two

`getopt_long_only` looks a whole name up and handles its argument in code of its own. From
the same state, `-name` there and `--name` in `getopt_long` come to the same result; only
the texts of the diagnostics tell the two apart.
-/

namespace Solcompat.Getopt

open Solcompat.Lib

/-- The client sees no difference between two results. -/
def SameResult (r r' : ℤ × Scanner) : Prop :=
  r.1 = r'.1 ∧ r.2.optind = r'.2.optind ∧ r.2.optarg = r'.2.optarg ∧ r.2.cells = r'.2.cells

section Search

variable {name : CString} {namelen : ℕ}

theorem matchLoop_of_exactLoop {table : List LongOption} {i k : ℕ}
    (h : exactLoop name namelen table i = some k) (found : Option ℕ) (ambiguous : Bool) :
    matchLoop name namelen table i found ambiguous = (some k, false) := by
  induction table generalizing i found ambiguous with
  | nil => exact absurd h (by simp [exactLoop])
  | cons o rest ih =>
    unfold exactLoop at h
    by_cases hexact : o.name.strncmp name namelen = 0 ∧ o.name.strlen = namelen
    · rw [if_pos hexact] at h
      rw [matchLoop_cons_exact hexact.1 hexact.2, h]
    · rw [if_neg hexact] at h
      by_cases hmatch : o.name.strncmp name namelen = 0
      · rw [matchLoop_cons_proper hmatch fun hlength => hexact ⟨hmatch, hlength⟩]
        exact ih h _ _
      · rw [matchLoop_cons_other hmatch]
        exact ih h _ _

theorem exactLoop_of_mem {word rest : List UInt8} (hname : name.bytes = word ++ rest)
    {table : List LongOption} {o : LongOption} (ho : o ∈ table) (hword : o.name.bytes = word)
    (i : ℕ) :
    ∃ k o', exactLoop name word.length table i = some (i + k) ∧ table[k]? = some o' := by
  induction table generalizing i with
  | nil => exact absurd ho List.not_mem_nil
  | cons first table ih =>
    unfold exactLoop
    by_cases hexact : first.name.strncmp name word.length = 0 ∧ first.name.strlen = word.length
    · exact ⟨0, first, if_pos hexact, rfl⟩
    · have hmem : o ∈ table := by
        rcases List.mem_cons.mp ho with rfl | hmem
        · have hmatch : o.name.strncmp name word.length = 0 := by
            rw [CString.strncmp_eq_zero hname, hword]
          exact absurd ⟨hmatch, by rw [CString.strlen, hword]⟩ hexact
        · exact hmem
      obtain ⟨k, o', hloop, hentry⟩ := ih hmem (i + 1)
      refine ⟨k + 1, o', ?_, by simpa using hentry⟩
      rw [if_neg hexact, hloop]
      congr 1
      omega

end Search

section Handling

variable {argc : ℕ} {argv argv' : List CString} {optstring : Option CString}
variable {longindex : Option ℕ} {o : LongOption} {eq : Option CString} {st : Scanner}

theorem deliverBare_same (dashes dashes' : String) :
    SameResult (deliverBare argv dashes o eq st) (deliverBare argv' dashes' o eq st) := by
  cases eq with
  | none => exact ⟨rfl, rfl, rfl, rfl⟩
  | some e =>
    unfold deliverBare
    dsimp only
    split_ifs <;> exact ⟨rfl, rfl, rfl, rfl⟩

theorem deliverRequired_same (dashes dashes' : String)
    (hnext : argv[st.optind]? = argv'[st.optind]?) :
    SameResult (deliverRequired argc argv optstring dashes o eq st)
      (deliverRequired argc argv' optstring dashes' o eq st) := by
  cases eq with
  | some e => exact ⟨rfl, rfl, rfl, rfl⟩
  | none =>
    unfold deliverRequired
    dsimp only
    rw [hnext]
    split_ifs <;> exact ⟨rfl, rfl, rfl, rfl⟩

theorem longOnlyOption_same (i : ℕ)
    (hkind : o.hasArg = noArgument ∨ o.hasArg = requiredArgument ∨
      o.hasArg = optionalArgument)
    (hnext : argv[st.optind + 1]? = argv'[st.optind + 1]?) :
    SameResult (longOnlyOption argc argv optstring longindex o i eq st)
      (longEntry argc argv' optstring longindex o i eq st) := by
  unfold longOnlyOption longEntry
  rcases hkind with h | h | h
  · simp only [h, noArgument, requiredArgument, optionalArgument]
    exact deliverBare_same _ _
  · simp only [h, noArgument, requiredArgument]
    exact deliverRequired_same _ _ hnext
  · simp only [h, noArgument, requiredArgument, optionalArgument]
    exact ⟨rfl, rfl, rfl, rfl⟩

end Handling

section Elements

variable {argc : ℕ} {argv : List CString} {optstring : Option CString}
variable {longindex : Option ℕ} {st : Scanner} {e : CString} {b c : UInt8} {more : List UInt8}

/-- At an element of one dash and two or more bytes, the call looks the name up. -/
theorem getoptLongOnly_found {table : List LongOption} {o : LongOption} {i : ℕ}
    (hcur : currentElement argc argv st.optind = some e) (hshort : st.shortNext = 0)
    (he : e.bytes = ch '-' :: b :: c :: more) (hb : b ≠ ch '-')
    (hloop : exactLoop (e.drop 1)
      (nameLength (e.drop 1) ((e.drop 1).strchr (ch '='))) table 0 = some i)
    (hentry : table[i]? = some o) :
    getoptLongOnly argc argv optstring (some table) longindex st =
      some (longOnlyOption argc argv optstring longindex o i
        ((e.drop 1).strchr (ch '=')) st) := by
  have htwo : andThen (byteIs e 0 (ch '-')) (byteIs e 1 (ch '-')) = some false := by
    simp [andThen, byteIs, CString.read, he, hb]
  have hc : c ≠ 0 := e.nulFree c (by simp [he])
  have hmore : andThen (isOption e) (byteIsNot e 2 0) = some true := by
    rw [isOption_short he]
    simp [andThen, byteIsNot, CString.read, he, hc]
  simp only [getoptLongOnly, hcur, hshort, lt_irrefl, if_false, isMarker_short he hb, htwo,
    hmore, hloop, hentry, Option.bind_eq_bind, Option.bind_some, if_true, Bool.false_eq_true]

end Elements

/-- `-name` in `getopt_long_only` and `--name` in `getopt_long` do the same. -/
theorem getoptLongOnly_agrees (argc : ℕ) (argv : List CString) (optstring : Option CString)
    (table : List LongOption) (longindex : Option ℕ) (st : Scanner) (o : LongOption)
    (value : Option CString) (single double : CString)
    (hkinds : ∀ o' ∈ table, o'.hasArg = noArgument ∨ o'.hasArg = requiredArgument ∨
      o'.hasArg = optionalArgument)
    (ho : o ∈ table) (hlength : 2 ≤ o.name.strlen) (hdash : o.name.bytes.head? ≠ some (ch '-'))
    (hequals : ch '=' ∉ o.name.bytes) (hargc : st.optind < argc)
    (hargv : st.optind < argv.length) (hshort : st.shortNext = 0)
    (hsingle : single.bytes = ch '-' :: (o.name.bytes ++ equalsPart value))
    (hdouble : double.bytes = ch '-' :: ch '-' :: (o.name.bytes ++ equalsPart value)) :
    ∃ r r', getoptLongOnly argc (argv.set st.optind single) optstring (some table) longindex st =
        some r ∧
      getoptLong argc (argv.set st.optind double) optstring (some table) longindex st = some r' ∧
      SameResult r r' := by
  have hcur : ∀ e, currentElement argc (argv.set st.optind e) st.optind = some e := by
    intro e
    rw [currentElement, if_pos hargc, List.getElem?_set_self hargv]
  obtain ⟨b, c, more, hname⟩ : ∃ b c more, o.name.bytes = b :: c :: more := by
    rcases hbytes : o.name.bytes with _ | ⟨b, _ | ⟨c, more⟩⟩
    · simp [CString.strlen, hbytes] at hlength
    · simp [CString.strlen, hbytes] at hlength
    · exact ⟨b, c, more, rfl⟩
  have hb : b ≠ ch '-' := by simpa [hname] using hdash
  -- Behind its dashes the element is the same string.
  have hdrop : single.drop 1 = double.drop 2 := by
    apply CString.ext_bytes
    simp [hsingle, hdouble]
  have hbytes : (double.drop 2).bytes = o.name.bytes ++ equalsPart value := by simp [hdouble]
  obtain ⟨-, hnamelen⟩ := name_parts hbytes hequals
  obtain ⟨i, o', hexact, hentry⟩ := exactLoop_of_mem hbytes ho rfl 0
  rw [Nat.zero_add] at hexact
  have hloop := matchLoop_of_exactLoop hexact none false
  have hsingle' : single.bytes = ch '-' :: b :: c :: (more ++ equalsPart value) := by
    rw [hsingle, hname]
    rfl
  have hlong : o.name.bytes ≠ [] ∨ value ≠ none := .inl (by rw [hname]; exact List.cons_ne_nil _ _)
  have honly : exactLoop (single.drop 1)
      (nameLength (single.drop 1) ((single.drop 1).strchr (ch '='))) table 0 = some i := by
    rw [hdrop, hnamelen]
    exact hexact
  have hdoubleCall :
      getoptLong argc (argv.set st.optind double) optstring (some table) longindex st =
        some (longEntry argc (argv.set st.optind double) optstring longindex o' i
          ((double.drop 2).strchr (ch '=')) st) := by
    rw [getoptLong_eq_longOption (hcur double) hshort hdouble hlong]
    exact longOption_found hnamelen hloop hentry
  refine ⟨_, _, getoptLongOnly_found (hcur single) hshort hsingle' hb honly hentry,
    hdoubleCall, ?_⟩
  rw [hdrop]
  apply longOnlyOption_same i (hkinds o' (List.mem_of_getElem? hentry))
  rw [List.getElem?_set_ne (by omega), List.getElem?_set_ne (by omega)]

/-- A required argument that is missing, with a silent option string. -/
theorem getoptLongOnly_agrees_missing :
    ∃ r r', getoptLongOnly 2 [CString.ofString "p", CString.ofString "-out"]
        (some (CString.ofString ":")) (some [⟨CString.ofString "out", 1, none, 7⟩]) none
        initialScanner = some r ∧
      getoptLong 2 [CString.ofString "p", CString.ofString "--out"]
        (some (CString.ofString ":")) (some [⟨CString.ofString "out", 1, none, 7⟩]) none
        initialScanner = some r' ∧ SameResult r r' :=
  getoptLongOnly_agrees 2 [CString.ofString "p", CString.ofString "--out"] _ _ none
    initialScanner ⟨CString.ofString "out", 1, none, 7⟩ none (CString.ofString "-out")
    (CString.ofString "--out") (by simp [noArgument, requiredArgument])
    List.mem_cons_self (by decide) (by decide) (by decide) (by decide) (by decide) rfl
    (by decide) (by decide)

end Solcompat.Getopt
