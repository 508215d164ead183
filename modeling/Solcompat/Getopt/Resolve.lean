import Solcompat.Getopt.RoundTrip

/-!
# Which entry a long name selects

A name selects the entry that has exactly this name, and else the only entry it begins.
Nothing in that mentions the order of the table, and the search loop, which walks the
table once and leaves it early, decides the same. `getopt_long_only` has a search and an
argument handling of its own; on whole names the two functions do the same.
-/

namespace Solcompat.Getopt

open Solcompat.Lib

/-- The entry `o` is what `word` stands for in the table. -/
def Resolves (table : List LongOption) (word : List UInt8) (o : LongOption) : Prop :=
  o ∈ table ∧
    (o.name.bytes = word ∨
      (∀ o' ∈ table, o'.name.bytes ≠ word) ∧ word <+: o.name.bytes ∧
        ∀ o' ∈ table, word <+: o'.name.bytes → o' = o)

section Search

variable {name : CString} {word rest : List UInt8}

theorem matchLoop_append_other (hname : name.bytes = word ++ rest) (found : Option ℕ)
    (ambiguous : Bool) (after : List LongOption) :
    ∀ (before : List LongOption) (i : ℕ), (∀ o ∈ before, ¬ word <+: o.name.bytes) →
      matchLoop name word.length (before ++ after) i found ambiguous =
        matchLoop name word.length after (i + before.length) found ambiguous
  | [], i, _ => rfl
  | o :: before, i, h => by
    have ho : ¬ o.name.strncmp name word.length = 0 := by
      rw [CString.strncmp_eq_zero hname]
      exact h o (by simp)
    have hbefore : ∀ o' ∈ before, ¬ word <+: o'.name.bytes :=
      fun o' ho' => h o' (by simp [ho'])
    have ih := matchLoop_append_other hname found ambiguous after before (i + 1) hbefore
    have hindex : i + 1 + before.length = i + (o :: before).length := by
      simp only [List.length_cons]
      omega
    rw [List.cons_append, matchLoop_cons_other ho, ih, hindex]

/-- Without an exact name an entry that `name` begins is remembered as the first one, or
makes the search ambiguous. -/
theorem matchLoop_cons_begun (hname : name.bytes = word ++ rest) {o : LongOption}
    (ho : word <+: o.name.bytes) (hne : o.name.bytes ≠ word) (entries : List LongOption)
    (i : ℕ) (found : Option ℕ) (ambiguous : Bool) :
    matchLoop name word.length (o :: entries) i found ambiguous =
      matchLoop name word.length entries (i + 1) (some (found.getD i))
        (found.isSome || ambiguous) := by
  apply matchLoop_cons_proper ((CString.strncmp_eq_zero hname).mpr ho)
  intro hlength
  exact hne (ho.eq_of_length hlength.symm).symm

theorem matchLoop_ambiguous (hname : name.bytes = word ++ rest) (entries : List LongOption)
    (hne : ∀ o ∈ entries, o.name.bytes ≠ word) (i : ℕ) (found : Option ℕ) :
    (matchLoop name word.length entries i found true).2 = true := by
  induction entries generalizing i found with
  | nil => rfl
  | cons o entries ih =>
    have hrest : ∀ o' ∈ entries, o'.name.bytes ≠ word := fun o' ho' => hne o' (by simp [ho'])
    by_cases ho : word <+: o.name.bytes
    · rw [matchLoop_cons_begun hname ho (hne o (by simp)), Bool.or_true]
      exact ih hrest _ _
    · have hother : ¬ o.name.strncmp name word.length = 0 := by
        rwa [CString.strncmp_eq_zero hname]
      rw [matchLoop_cons_other hother]
      exact ih hrest _ _

theorem exists_first_begun {table : List LongOption} {o : LongOption} (ho : o ∈ table)
    (hbegun : word <+: o.name.bytes) :
    ∃ before first after, table = before ++ first :: after ∧ word <+: first.name.bytes ∧
      ∀ o' ∈ before, ¬ word <+: o'.name.bytes := by
  induction table with
  | nil => exact absurd ho List.not_mem_nil
  | cons first table ih =>
    by_cases hfirst : word <+: first.name.bytes
    · exact ⟨[], first, table, rfl, hfirst, by simp⟩
    · have hmem : o ∈ table := by
        rcases List.mem_cons.mp ho with rfl | hmem
        · exact absurd hbegun hfirst
        · exact hmem
      obtain ⟨before, first', after, rfl, hfirst', hbefore⟩ := ih hmem
      refine ⟨first :: before, first', after, rfl, hfirst', ?_⟩
      intro o' ho'
      rcases List.mem_cons.mp ho' with rfl | ho'
      · exact hfirst
      · exact hbefore o' ho'

/-- The search without an exact name, when a second entry has the same beginning. -/
theorem matchLoop_two (hname : name.bytes = word ++ rest) {before after : List LongOption}
    {first second : LongOption} (hbefore : ∀ o ∈ before, ¬ word <+: o.name.bytes)
    (hfirst : word <+: first.name.bytes) (hsecond : second ∈ after)
    (hbegun : word <+: second.name.bytes)
    (hne : ∀ o ∈ before ++ first :: after, o.name.bytes ≠ word) :
    (matchLoop name word.length (before ++ first :: after) 0 none false).2 = true := by
  obtain ⟨between, second', after', rfl, hsecond', hbetween⟩ :=
    exists_first_begun hsecond hbegun
  rw [matchLoop_append_other hname none false _ before 0 hbefore,
    matchLoop_cons_begun hname hfirst (hne first (by simp)),
    matchLoop_append_other hname _ _ _ between _ hbetween,
    matchLoop_cons_begun hname hsecond' (hne second' (by simp))]
  exact matchLoop_ambiguous hname after' (fun o ho => hne o (by simp [ho])) _ _

theorem matchLoop_named (hname : name.bytes = word ++ rest) {table : List LongOption}
    (hdistinct : (table.map LongOption.name).Nodup) {o : LongOption} (ho : o ∈ table)
    (hword : o.name.bytes = word) :
    ∃ i, matchLoop name word.length table 0 none false = (some i, false) ∧ table[i]? = some o := by
  obtain ⟨before, after, rfl⟩ := List.append_of_mem ho
  have hbefore : ∀ o' ∈ before, o'.name.bytes ≠ word := by
    intro o' ho' heq
    have hsame : o'.name = o.name := CString.ext_bytes (heq.trans hword.symm)
    rw [List.map_append] at hdistinct
    have hapart := (List.nodup_append.mp hdistinct).2.2
    exact hapart _ (List.mem_map_of_mem ho') _ (List.mem_map_of_mem List.mem_cons_self) hsame
  have hloop := matchLoop_exact hname o hword after before 0 none false hbefore
  rw [Nat.zero_add] at hloop
  exact ⟨before.length, hloop, by simp⟩

/-- Without an entry of the name itself the first entry that begins with the word is found, if
it is the only one; a second one makes the word ambiguous. -/
theorem matchLoop_begun (hname : name.bytes = word ++ rest) {table : List LongOption}
    (hnodup : table.Nodup) (hne : ∀ o ∈ table, o.name.bytes ≠ word) {o : LongOption}
    (ho : o ∈ table) (hstart : word <+: o.name.bytes) :
    (∃ i first, matchLoop name word.length table 0 none false = (some i, false) ∧
      table[i]? = some first ∧ Resolves table word first) ∨
    (∀ o, ¬ Resolves table word o) ∧ (matchLoop name word.length table 0 none false).2 = true := by
  obtain ⟨before, first, after, rfl, hfirst, hbefore⟩ := exists_first_begun ho hstart
  by_cases hafter : ∃ o' ∈ after, word <+: o'.name.bytes
  · obtain ⟨second, hsecond, hsecondStart⟩ := hafter
    refine .inr ⟨?_, matchLoop_two hname hbefore hfirst hsecond hsecondStart hne⟩
    rintro o ⟨ho, hword | ⟨-, -, honly⟩⟩
    · exact hne o ho hword
    · -- The first and the second one would be the same entry.
      have h₁ := honly first (by simp) hfirst
      have h₂ := honly second (by simp [hsecond]) hsecondStart
      have hapart := (List.nodup_cons.mp (List.nodup_append.mp hnodup).2.1).1
      rw [h₁, ← h₂] at hapart
      exact hapart hsecond
  · have hother : ∀ o' ∈ after, ¬ word <+: o'.name.bytes :=
      fun o' ho' hstart' => hafter ⟨o', ho', hstart'⟩
    have hloop := matchLoop_unique hname first hfirst (hne first (by simp)) after hother
      before 0 hbefore
    rw [Nat.zero_add] at hloop
    refine .inl ⟨before.length, first, hloop, by simp, by simp, .inr ⟨hne, hfirst, ?_⟩⟩
    intro o' ho' hstart'
    rcases List.mem_append.mp ho' with ho' | ho'
    · exact absurd hstart' (hbefore o' ho')
    · rcases List.mem_cons.mp ho' with rfl | ho'
      · rfl
      · exact absurd hstart' (hother o' ho')

theorem matchLoop_resolves (hname : name.bytes = word ++ rest) {table : List LongOption}
    (hdistinct : (table.map LongOption.name).Nodup) :
    (∃ i o, matchLoop name word.length table 0 none false = (some i, false) ∧
      table[i]? = some o ∧ Resolves table word o) ∨
    (∀ o, ¬ Resolves table word o) ∧
      ((matchLoop name word.length table 0 none false).2 = true ∨
        matchLoop name word.length table 0 none false = (none, false)) := by
  by_cases hexact : ∃ o ∈ table, o.name.bytes = word
  · obtain ⟨o, ho, hword⟩ := hexact
    obtain ⟨i, hloop, hentry⟩ := matchLoop_named hname hdistinct ho hword
    exact .inl ⟨i, o, hloop, hentry, ho, .inl hword⟩
  have hne : ∀ o ∈ table, o.name.bytes ≠ word := fun o ho heq => hexact ⟨o, ho, heq⟩
  by_cases hbegun : ∃ o ∈ table, word <+: o.name.bytes
  · obtain ⟨o, ho, hstart⟩ := hbegun
    obtain hfound | ⟨hnone, htwo⟩ := matchLoop_begun hname (hdistinct.of_map _) hne ho hstart
    · exact .inl hfound
    · exact .inr ⟨hnone, .inl htwo⟩
  · have hother : ∀ o ∈ table, ¬ word <+: o.name.bytes := fun o ho h => hbegun ⟨o, ho, h⟩
    refine .inr ⟨?_, .inr (matchLoop_skip hname none false table 0 hother)⟩
    rintro o ⟨ho, hword | ⟨-, hstart, -⟩⟩
    · exact hne o ho hword
    · exact hother o ho hstart

end Search

section Resolution

variable {table table' : List LongOption} {word : List UInt8} {o o' : LongOption}

theorem Resolves.unique (hdistinct : (table.map LongOption.name).Nodup)
    (h : Resolves table word o) (h' : Resolves table word o') : o = o' := by
  obtain ⟨ho, hword | ⟨hne, -, honly⟩⟩ := h
  · obtain ⟨ho', hword' | ⟨hne', -, -⟩⟩ := h'
    · have hsame : o.name = o'.name := CString.ext_bytes (hword.trans hword'.symm)
      exact List.inj_on_of_nodup_map hdistinct ho ho' hsame
    · exact absurd hword (hne' o ho)
  · obtain ⟨ho', hword' | ⟨-, hstart', -⟩⟩ := h'
    · exact absurd hword' (hne o' ho')
    · exact (honly o' ho' hstart').symm

theorem Resolves.perm (hperm : table.Perm table') (h : Resolves table word o) :
    Resolves table' word o := by
  obtain ⟨ho, hcases⟩ := h
  refine ⟨hperm.mem_iff.mp ho, ?_⟩
  rcases hcases with hword | ⟨hne, hstart, honly⟩
  · exact .inl hword
  · refine .inr ⟨?_, hstart, ?_⟩
    · exact fun o' ho' => hne o' (hperm.mem_iff.mpr ho')
    · exact fun o' ho' => honly o' (hperm.mem_iff.mpr ho')

def equalsPart : Option CString → List UInt8
  | none => []
  | some value => ch '=' :: value.bytes

/-- `eq` and `namelen` are read off the element as they were put together. -/
theorem name_parts {name : CString} {value : Option CString}
    (hname : name.bytes = word ++ equalsPart value) (hword : ch '=' ∉ word) :
    (name.strchr (ch '=')).map (·.drop 1) = value ∧
      nameLength name (name.strchr (ch '=')) = word.length := by
  cases value with
  | none =>
    have hbytes : name.bytes = word := by simpa [equalsPart] using hname
    have hnone : name.strchr (ch '=') = none :=
      CString.strchr_of_notMem (by decide) (by rwa [hbytes])
    rw [hnone]
    exact ⟨rfl, by rw [nameLength, CString.strlen, hbytes]⟩
  | some value =>
    obtain ⟨eq, heq, heqBytes⟩ := CString.strchr_append hname (by decide) hword
    rw [heq]
    refine ⟨?_, ?_⟩
    · rw [Option.map_some, Option.some_inj]
      apply CString.ext_bytes
      simp [heqBytes]
    · simp [nameLength, CString.strlen, hname, equalsPart, heqBytes]

/-- What `getopt_long` does with the entry it selected. -/
def longEntry (argc : ℕ) (argv : List CString) (optstring : Option CString)
    (longindex : Option ℕ) (o : LongOption) (i : ℕ) (eq : Option CString) (st : Scanner) :
    ℤ × Scanner :=
  if o.hasArg = noArgument then deliverBare argv "--" o eq (recordMatch longindex i st)
  else if o.hasArg = requiredArgument then
    deliverRequired argc argv optstring "--" o eq (recordMatch longindex i st)
  else deliverOptional o eq (recordMatch longindex i st)

section Calls

variable {argc : ℕ} {argv : List CString} {optstring : Option CString}
variable {longindex : Option ℕ} {st : Scanner} {e : CString} {value : Option CString}

theorem getoptLong_eq_longOption (hcur : currentElement argc argv st.optind = some e)
    (hshort : st.shortNext = 0) (he : e.bytes = ch '-' :: ch '-' :: (word ++ equalsPart value))
    (hlong : word ≠ [] ∨ value ≠ none) (table : List LongOption) :
    getoptLong argc argv optstring (some table) longindex st =
      longOption argc argv optstring table longindex e st := by
  obtain ⟨b, more, hmore⟩ : ∃ b more, word ++ equalsPart value = b :: more := by
    apply List.exists_cons_of_ne_nil
    cases value with
    | none => simpa [equalsPart] using hlong
    | some value => simp [equalsPart]
  rw [hmore] at he
  simp only [getoptLong, hcur, hshort, lt_irrefl, if_false, isMarker_long he, isLong_long he,
    Option.bind_eq_bind, Option.bind_some, if_true, Bool.false_eq_true]

theorem longOption_found {i : ℕ} {namelen : ℕ}
    (hlength : nameLength (e.drop 2) ((e.drop 2).strchr (ch '=')) = namelen)
    (hloop : matchLoop (e.drop 2) namelen table 0 none false = (some i, false))
    (hentry : table[i]? = some o) :
    longOption argc argv optstring table longindex e st =
      some (longEntry argc argv optstring longindex o i ((e.drop 2).strchr (ch '=')) st) := by
  simp only [longOption, hlength, hloop, hentry, Option.bind_eq_bind, Option.bind_some,
    longEntry]
  split
  · rfl
  · split <;> rfl

/-- A name that selects nothing costs one element and changes nothing else. -/
theorem longOption_refused {namelen : ℕ}
    (hlength : nameLength (e.drop 2) ((e.drop 2).strchr (ch '=')) = namelen)
    (hloop : (matchLoop (e.drop 2) namelen table 0 none false).2 = true ∨
      matchLoop (e.drop 2) namelen table 0 none false = (none, false)) :
    ∃ st', longOption argc argv optstring table longindex e st =
        some (charInt (ch '?'), st') ∧
      st'.optind = st.optind + 1 ∧ st'.optarg = st.optarg ∧ st'.cells = st.cells := by
  unfold longOption
  dsimp only
  rw [hlength]
  rcases hresult : matchLoop (e.drop 2) namelen table 0 none false with ⟨found, ambiguous⟩
  rw [hresult] at hloop
  cases ambiguous with
  | true =>
    refine ⟨_, rfl, ?_⟩
    split_ifs <;> exact ⟨rfl, rfl, rfl⟩
  | false =>
    have hfound : found = none := by simpa using hloop
    subst hfound
    refine ⟨_, rfl, ?_⟩
    split_ifs <;> exact ⟨rfl, rfl, rfl⟩

end Calls

/-- `getopt_long` selects what the name resolves to, in every order of the table, and
answers `?` when it resolves to nothing. -/
theorem getoptLong_resolution (argc : ℕ) (argv : List CString) (optstring : Option CString)
    (table : List LongOption) (longindex : Option ℕ) (st : Scanner) (e : CString)
    (word : List UInt8) (value : Option CString)
    (hdistinct : (table.map LongOption.name).Nodup)
    (hcur : currentElement argc argv st.optind = some e) (hshort : st.shortNext = 0)
    (he : e.bytes = ch '-' :: ch '-' :: (word ++ equalsPart value)) (hword : ch '=' ∉ word)
    (hlong : word ≠ [] ∨ value ≠ none) :
    (∀ o, Resolves table word o → ∀ table', table.Perm table' →
      ∃ i, table'[i]? = some o ∧
        getoptLong argc argv optstring (some table') longindex st =
          some (longEntry argc argv optstring longindex o i ((e.drop 2).strchr (ch '=')) st)) ∧
    ((∀ o, ¬ Resolves table word o) → ∀ table', table.Perm table' →
      ∃ st', getoptLong argc argv optstring (some table') longindex st =
          some (charInt (ch '?'), st') ∧
        st'.optind = st.optind + 1 ∧ st'.optarg = st.optarg ∧ st'.cells = st.cells) := by
  have hname : (e.drop 2).bytes = word ++ equalsPart value := by simp [he]
  obtain ⟨-, hlength⟩ := name_parts hname hword
  have hdistinct' : ∀ table', table.Perm table' → (table'.map LongOption.name).Nodup :=
    fun table' hperm => (hperm.map LongOption.name).nodup_iff.mp hdistinct
  constructor
  · intro o ho table' hperm
    rw [getoptLong_eq_longOption hcur hshort he hlong]
    rcases matchLoop_resolves hname (hdistinct' table' hperm) with
      ⟨i, o', hloop, hentry, ho'⟩ | ⟨hnone, -⟩
    · have hsame : o' = o := (ho'.perm hperm.symm).unique hdistinct ho
      subst hsame
      exact ⟨i, hentry, longOption_found hlength hloop hentry⟩
    · exact absurd (ho.perm hperm) (hnone o)
  · intro hnone table' hperm
    rw [getoptLong_eq_longOption hcur hshort he hlong]
    rcases matchLoop_resolves hname (hdistinct' table' hperm) with
      ⟨i, o', -, -, ho'⟩ | ⟨-, hloop⟩
    · exact absurd (ho'.perm hperm.symm) (hnone o')
    · exact longOption_refused hlength hloop

/-- `verbose`, `verb` and `version`: one name begins another. -/
def verbosityTable : List LongOption :=
  [⟨CString.ofString "verbose", noArgument, none, 1⟩,
    ⟨CString.ofString "verb", noArgument, none, 2⟩,
    ⟨CString.ofString "version", noArgument, none, 3⟩]

/-- `--verb` is the entry of that name, in the reversed table too. -/
theorem getoptLong_resolution_verb :
    ∃ i, verbosityTable.reverse[i]? = some ⟨CString.ofString "verb", noArgument, none, 2⟩ ∧
      getoptLong 2 [CString.ofString "p", CString.ofString "--verb"] none
          (some verbosityTable.reverse) none initialScanner =
        some (longEntry 2 [CString.ofString "p", CString.ofString "--verb"] none none
          ⟨CString.ofString "verb", noArgument, none, 2⟩ i
          (((CString.ofString "--verb").drop 2).strchr (ch '=')) initialScanner) := by
  have hresolves : Resolves verbosityTable (text "verb")
      ⟨CString.ofString "verb", noArgument, none, 2⟩ :=
    ⟨by simp [verbosityTable], .inl rfl⟩
  exact (getoptLong_resolution 2 _ none verbosityTable none initialScanner
    (CString.ofString "--verb") (text "verb") none (by decide) (by decide) rfl (by decide)
    (by decide) (.inl (by decide))).1 _ hresolves _ (List.reverse_perm _).symm

end Resolution

end Solcompat.Getopt
