import Solcompat.Getopt.Model

/-!
# Bounds and progress of the scanner

Whatever the arguments, the option string and the table of long options are, and however
calls of the three functions are mixed, the cursor stays inside an element that starts with
a dash, no read leaves a string, and a call that reports something moves the cursor on.
-/

namespace Solcompat.Getopt

open Solcompat.Lib

/-- `short_next` is inside the element `arg`, which is the current one. -/
structure Inside (argv : List CString) (arg : CString) (st : Scanner) : Prop where
  low : 1 ≤ st.optind
  current : argv[st.optind]? = some arg
  dash : arg.bytes.head? = some (ch '-')
  pos : 0 < st.shortNext
  bound : st.shortNext < arg.strlen

/-- Where the scanner stands between two calls. -/
structure Placed (argv : List CString) (st : Scanner) : Prop where
  low : 1 ≤ st.optind
  high : st.optind ≤ max 1 argv.length
  cursor : st.shortNext = 0 ∨ ∃ arg, Inside argv arg st

/-- `(optind, short_next)` grows lexicographically. -/
def Advances (st st' : Scanner) : Prop :=
  st.optind < st'.optind ∨ st.optind = st'.optind ∧ st.shortNext < st'.shortNext

/-- A call reads inside its strings and comes back with the cursor in place, not behind
where it was, and past it unless the answer is `-1`. -/
def Proceeds (argv : List CString) (st : Scanner) (result : Option (ℤ × Scanner)) : Prop :=
  ∃ ret st', result = some (ret, st') ∧ Placed argv st' ∧ st.optind ≤ st'.optind ∧
    (ret ≠ -1 → Advances st st')

section Tests

variable {arg : CString} {i : ℕ}

theorem dash_cases (hi : i ≤ arg.strlen) :
    byteIs arg i (ch '-') = some false ∨
      byteIs arg i (ch '-') = some true ∧ i < arg.strlen ∧ arg.read i = some (ch '-') := by
  obtain ⟨c, hread, hzero⟩ := CString.exists_read hi
  rw [byteIs, hread]
  by_cases hc : c = ch '-'
  · subst hc
    have hne : ch '-' ≠ 0 := by decide
    exact .inr ⟨by simp, lt_of_le_of_ne hi fun h => hne (hzero.mpr h), rfl⟩
  · exact .inl (by simp [hc])

theorem byteIsNot_cases (hi : i ≤ arg.strlen) :
    byteIsNot arg i 0 = some false ∨ byteIsNot arg i 0 = some true ∧ i < arg.strlen := by
  obtain ⟨c, hread, hzero⟩ := CString.exists_read hi
  rw [byteIsNot, hread]
  by_cases hc : c = 0
  · exact .inl (by simp [hc])
  · exact .inr ⟨by simp [hc], lt_of_le_of_ne hi fun h => hc (hzero.mpr h)⟩

theorem head_of_read {b : UInt8} (hlt : 0 < arg.strlen) (h : arg.read 0 = some b) :
    arg.bytes.head? = some b := by
  rw [CString.read, List.getElem?_append_left hlt] at h
  rw [List.head?_eq_getElem?, h]

theorem exists_andThen_dash {b : Option Bool} (hi : i ≤ arg.strlen)
    (hb : i < arg.strlen → ∃ x, b = some x) : ∃ x, andThen (byteIs arg i (ch '-')) b = some x := by
  rcases dash_cases hi with h | ⟨h, hlt, -⟩
  · exact ⟨false, by rw [h]; rfl⟩
  · obtain ⟨x, hx⟩ := hb hlt
    exact ⟨x, by rw [h, hx]; rfl⟩

theorem exists_isMarker (arg : CString) : ∃ x, isMarker arg = some x := by
  refine exists_andThen_dash (Nat.zero_le _) fun h₀ => exists_andThen_dash h₀ fun h₁ => ?_
  obtain ⟨c, hread, -⟩ := CString.exists_read h₁
  exact ⟨c == 0, by rw [byteIs, hread]; rfl⟩

theorem exists_isLong (arg : CString) : ∃ x, isLong arg = some x := by
  refine exists_andThen_dash (Nat.zero_le _) fun h₀ => exists_andThen_dash h₀ fun h₁ => ?_
  rcases byteIsNot_cases h₁ with h | ⟨h, -⟩
  · exact ⟨false, h⟩
  · exact ⟨true, h⟩

theorem exists_twoDashes (arg : CString) :
    ∃ x, andThen (byteIs arg 0 (ch '-')) (byteIs arg 1 (ch '-')) = some x := by
  refine exists_andThen_dash (Nat.zero_le _) fun h₀ => ?_
  rcases dash_cases h₀ with h | ⟨h, -⟩
  · exact ⟨false, h⟩
  · exact ⟨true, h⟩

theorem isOption_cases (arg : CString) :
    isOption arg = some false ∨
      isOption arg = some true ∧ arg.bytes.head? = some (ch '-') ∧ 1 < arg.strlen := by
  unfold isOption
  rcases dash_cases (Nat.zero_le arg.strlen) with h | ⟨h, hlt, hread⟩
  · exact .inl (by rw [h]; rfl)
  · rcases byteIsNot_cases hlt with h₁ | ⟨h₁, hlt₁⟩
    · exact .inl (by rw [h, h₁]; rfl)
    · exact .inr ⟨by rw [h, h₁]; rfl, head_of_read hlt hread, hlt₁⟩

theorem exists_isOption_more (arg : CString) :
    ∃ x, andThen (isOption arg) (byteIsNot arg 2 0) = some x := by
  rcases isOption_cases arg with h | ⟨h, -, hlt⟩
  · exact ⟨false, by rw [h]; rfl⟩
  · rcases byteIsNot_cases hlt with h₂ | ⟨h₂, -⟩
    · exact ⟨false, by rw [h, h₂]; rfl⟩
    · exact ⟨true, by rw [h, h₂]; rfl⟩

end Tests

section Short

variable {argv : List CString} {arg optstring : CString} {opt : UInt8} {st st' : Scanner}

theorem Advances.trans {st'' : Scanner} (h : Advances st st') (h' : Advances st' st'') :
    Advances st st'' := by
  unfold Advances at *
  omega

theorem Inside.lt_length (h : Inside argv arg st) : st.optind < argv.length :=
  (List.getElem?_eq_some_iff.mp h.current).1

theorem Inside.next (h : Inside argv arg st) (hind : st'.optind = st.optind + 1)
    (hshort : st'.shortNext = 0) : Placed argv st' ∧ Advances st st' := by
  have hlt := h.lt_length
  have hlow := h.low
  exact ⟨⟨by omega, by omega, .inl hshort⟩, .inl (by omega)⟩

theorem stepCluster_proceeds (h : Inside argv arg st) :
    ∃ st', stepCluster arg st = some st' ∧ Placed argv st' ∧ Advances st st' := by
  obtain ⟨b, hread, hzero⟩ := CString.exists_read (show st.shortNext + 1 ≤ arg.strlen from h.bound)
  unfold stepCluster
  rw [hread]
  by_cases hb : b = 0
  · exact ⟨_, if_pos hb, h.next rfl rfl⟩
  · have hlt := h.lt_length
    have hbound : st.shortNext + 1 < arg.strlen :=
      lt_of_le_of_ne h.bound fun heq => hb (hzero.mpr heq)
    refine ⟨_, if_neg hb, ⟨h.low, by simp only; omega, .inr ⟨arg, ?_⟩⟩,
      .inr ⟨rfl, Nat.lt_succ_self _⟩⟩
    exact ⟨h.low, h.current, h.dash, Nat.succ_pos _, hbound⟩

theorem Inside.congr (h : Inside argv arg st) (hind : st'.optind = st.optind)
    (hshort : st'.shortNext = st.shortNext) : Inside argv arg st' := by
  obtain ⟨hlow, hcurrent, hdash, hpos, hbound⟩ := h
  rw [← hind] at hlow hcurrent
  rw [← hshort] at hpos hbound
  exact ⟨hlow, hcurrent, hdash, hpos, hbound⟩

theorem Advances.congr {st₁ : Scanner} (h : Advances st₁ st') (hind : st₁.optind = st.optind)
    (hshort : st₁.shortNext = st.shortNext) : Advances st st' := by
  rwa [Advances, hind, hshort] at h

theorem Advances.le (h : Advances st st') : st.optind ≤ st'.optind := by
  unfold Advances at h
  omega

theorem proceeds_of_advances {ret : ℤ} (h : Placed argv st' ∧ Advances st st') :
    Proceeds argv st (some (ret, st')) :=
  ⟨ret, st', rfl, h.1, h.2.le, fun _ => h.2⟩

theorem invalidOption_proceeds (h : Inside argv arg st) :
    Proceeds argv st (invalidOption argv optstring arg opt st) := by
  obtain ⟨first, hfirst, -⟩ := CString.exists_read (Nat.zero_le optstring.strlen)
  unfold invalidOption
  rw [hfirst]
  dsimp only [Option.bind_eq_bind, Option.bind_some]
  split_ifs
  · have hinside : Inside argv arg
        { complain st [programName argv, text ": invalid option -- '", [opt], text "'\n"] with
          optopt := charInt opt } := h.congr rfl rfl
    obtain ⟨st', hstep, hplaced, hadvances⟩ := stepCluster_proceeds hinside
    rw [hstep]
    exact proceeds_of_advances ⟨hplaced, hadvances.congr rfl rfl⟩
  · have hinside : Inside argv arg { st with optopt := charInt opt } := h.congr rfl rfl
    obtain ⟨st', hstep, hplaced, hadvances⟩ := stepCluster_proceeds hinside
    rw [hstep]
    exact proceeds_of_advances ⟨hplaced, hadvances.congr rfl rfl⟩

theorem nextElementArgument_proceeds (h : Inside argv arg st) :
    Proceeds argv st (nextElementArgument argv.length argv optstring opt st) := by
  obtain ⟨first, hfirst, -⟩ := CString.exists_read (Nat.zero_le optstring.strlen)
  unfold nextElementArgument
  rw [hfirst]
  dsimp only [Option.bind_eq_bind, Option.bind_some]
  have hlow := h.low
  split_ifs with hlt
  · refine proceeds_of_advances ⟨⟨?_, ?_, .inl rfl⟩, .inl ?_⟩
    all_goals dsimp only
    all_goals omega
  all_goals exact proceeds_of_advances (h.next rfl rfl)

theorem getoptOption_proceeds (optstring : CString) (h : Inside argv arg st) (hopt : opt ≠ 0) :
    Proceeds argv st (getoptOption argv.length argv optstring arg opt st) := by
  unfold getoptOption
  cases hspec : (pastMode optstring).strchr opt with
  | none => exact invalidOption_proceeds h
  | some spec =>
    dsimp only
    split_ifs with hcolon
    · exact invalidOption_proceeds h
    -- The byte found is not the terminator, so that one more byte can be read.
    obtain ⟨b₁, hread₁, hzero₁⟩ := CString.exists_read (CString.strchr_pos hopt hspec)
    rw [hread₁]
    dsimp only [Option.bind_eq_bind, Option.bind_some]
    by_cases hb₁ : b₁ = ch ':'
    · obtain ⟨b₂, hread₂, -⟩ :=
        CString.exists_read (show st.shortNext + 1 ≤ arg.strlen from h.bound)
      have hmore : 1 < spec.strlen := by
        refine lt_of_le_of_ne (CString.strchr_pos hopt hspec) fun heq => ?_
        rw [hzero₁.mpr heq] at hb₁
        exact absurd hb₁ (by decide)
      obtain ⟨b₃, hread₃, -⟩ := CString.exists_read (show 2 ≤ spec.strlen from hmore)
      rw [if_pos hb₁, hread₂]
      dsimp only [Option.bind_some]
      split_ifs
      · exact proceeds_of_advances (h.next rfl rfl)
      · rw [hread₃]
        dsimp only [Option.bind_some]
        split_ifs
        · exact proceeds_of_advances (h.next rfl rfl)
        · exact nextElementArgument_proceeds h
    · have hinside : Inside argv arg { st with optarg := none } := h.congr rfl rfl
      obtain ⟨st', hstep, hplaced, hadvances⟩ := stepCluster_proceeds hinside
      rw [if_neg hb₁, hstep]
      exact proceeds_of_advances ⟨hplaced, hadvances.congr rfl rfl⟩

theorem getoptElement_proceeds (h : Placed argv st) (hshort : st.shortNext = 0) :
    Proceeds argv st (getoptElement argv.length argv optstring st) := by
  unfold getoptElement currentElement
  have hlow := h.low
  by_cases hlt : st.optind < argv.length
  · rw [if_pos hlt, List.getElem?_eq_getElem hlt]
    generalize harg : argv[st.optind] = arg
    have hcurrent : argv[st.optind]? = some arg := by rw [List.getElem?_eq_getElem hlt, harg]
    dsimp only
    rcases isOption_cases arg with hoption | ⟨hoption, hdash, hmore⟩
    · obtain ⟨first, hfirst, -⟩ := CString.exists_read (Nat.zero_le optstring.strlen)
      rw [hoption, hfirst]
      dsimp only [Option.bind_eq_bind, Option.bind_some]
      rw [if_neg (by decide)]
      split_ifs
      · refine proceeds_of_advances ⟨⟨?_, ?_, .inl hshort⟩, .inl ?_⟩
        all_goals dsimp only
        all_goals omega
      · exact ⟨-1, st, rfl, h, le_rfl, fun hne => absurd rfl hne⟩
    · obtain ⟨marker, hmarker⟩ := exists_isMarker arg
      obtain ⟨opt, hopt, hzero⟩ := CString.exists_read hmore.le
      rw [hoption, hmarker, hopt]
      dsimp only [Option.bind_eq_bind, Option.bind_some]
      rw [if_pos rfl]
      split_ifs
      · refine proceeds_of_advances ⟨⟨?_, ?_, .inl hshort⟩, .inl ?_⟩
        all_goals dsimp only
        all_goals omega
      · have hinside : Inside argv arg { st with shortNext := 1 } :=
          ⟨hlow, hcurrent, hdash, Nat.one_pos, hmore⟩
        have hne : opt ≠ 0 := fun hopt => hmore.ne (hzero.mp hopt)
        have hfirst : Advances st { st with shortNext := 1 } :=
          .inr ⟨rfl, by rw [hshort]; exact Nat.one_pos⟩
        obtain ⟨ret, st', heq, hplaced, hle, hadvances⟩ :=
          getoptOption_proceeds optstring hinside hne
        exact ⟨ret, st', heq, hplaced, hle, fun hret => hfirst.trans (hadvances hret)⟩
  · rw [if_neg hlt]
    exact ⟨-1, st, rfl, h, le_rfl, fun hne => absurd rfl hne⟩

theorem getopt_proceeds (optstring : Option CString) (h : Placed argv st) :
    Proceeds argv st (getopt argv.length argv optstring st) := by
  unfold getopt
  dsimp only
  split_ifs with hpos
  · obtain hzero | ⟨arg, hinside⟩ := h.cursor
    · omega
    obtain ⟨opt, hread, hzero⟩ := CString.exists_read hinside.bound.le
    rw [currentElement, if_pos hinside.lt_length, hinside.current]
    dsimp only
    rw [hread]
    dsimp only [Option.bind_eq_bind, Option.bind_some]
    have hopt : opt ≠ 0 := fun h => hinside.bound.ne (hzero.mp h)
    rw [if_neg hopt]
    exact getoptOption_proceeds _ hinside hopt
  · exact getoptElement_proceeds h (by omega)

end Short

section Long

variable {argv : List CString} {arg : CString} {st : Scanner}

theorem matchLoop_lt (name : CString) (namelen : ℕ) (table : List LongOption) (i : ℕ)
    (found : Option ℕ) (ambiguous : Bool) {k : ℕ}
    (h : (matchLoop name namelen table i found ambiguous).1 = some k) :
    found = some k ∨ k < i + table.length := by
  induction table generalizing i found ambiguous with
  | nil => exact .inl h
  | cons o rest ih =>
    rw [List.length_cons]
    unfold matchLoop at h
    split_ifs at h
    · have hk : i = k := by simpa using h
      omega
    · cases found with
      | some j =>
        rcases ih _ _ _ h with hfound | hlt
        · exact .inl hfound
        · omega
      | none =>
        rcases ih _ _ _ h with hfound | hlt
        · have hk : i = k := by simpa using hfound
          omega
        · omega
    · rcases ih _ _ _ h with hfound | hlt
      · exact .inl hfound
      · omega

theorem exactLoop_lt (name : CString) (namelen : ℕ) (table : List LongOption) (i : ℕ) {k : ℕ}
    (h : exactLoop name namelen table i = some k) : k < i + table.length := by
  induction table generalizing i with
  | nil => exact absurd h (by simp [exactLoop])
  | cons o rest ih =>
    rw [List.length_cons]
    unfold exactLoop at h
    split_ifs at h
    · have hk : i = k := by simpa using h
      omega
    · have := ih _ h
      omega

/-- What handling a long option can do to the scanner: it takes the element, and perhaps
the one behind it. -/
def Takes (argv : List CString) (st st' : Scanner) : Prop :=
  st.optind < st'.optind ∧ st'.optind ≤ argv.length ∧ st'.shortNext = st.shortNext

theorem Takes.proceeds {st' : Scanner} {ret : ℤ} (h : Takes argv st st') (hlow : 1 ≤ st.optind)
    (hshort : st.shortNext = 0) : Proceeds argv st (some (ret, st')) := by
  obtain ⟨hlt, hle, heq⟩ := h
  exact proceeds_of_advances ⟨⟨by omega, by omega, .inl (by omega)⟩, .inl hlt⟩

@[simp]
theorem complain_optind (message : List (List UInt8)) :
    (complain st message).optind = st.optind := rfl

@[simp]
theorem complain_shortNext (message : List (List UInt8)) :
    (complain st message).shortNext = st.shortNext := rfl

@[simp]
theorem deliver_optind (o : LongOption) (optarg : Option CString) :
    (deliver o optarg st).2.optind = st.optind := by
  unfold deliver
  split <;> rfl

@[simp]
theorem deliver_shortNext (o : LongOption) (optarg : Option CString) :
    (deliver o optarg st).2.shortNext = st.shortNext := by
  unfold deliver
  split <;> rfl

@[simp]
theorem recordMatch_optind (longindex : Option ℕ) (i : ℕ) :
    (recordMatch longindex i st).optind = st.optind + 1 := rfl

@[simp]
theorem recordMatch_shortNext (longindex : Option ℕ) (i : ℕ) :
    (recordMatch longindex i st).shortNext = st.shortNext := rfl

theorem deliverBare_takes (dashes : String) (o : LongOption) (eq : Option CString)
    (longindex : Option ℕ) (i : ℕ) (hlt : st.optind < argv.length) :
    Takes argv st (deliverBare argv dashes o eq (recordMatch longindex i st)).2 := by
  unfold deliverBare
  split
  · dsimp only
    split_ifs <;> exact ⟨by simp, by simpa using hlt, by simp⟩
  · exact ⟨by simp, by simpa using hlt, by simp⟩

theorem deliverRequired_takes (optstring : Option CString) (dashes : String) (o : LongOption)
    (eq : Option CString) (longindex : Option ℕ) (i : ℕ) (hlt : st.optind < argv.length) :
    Takes argv st
      (deliverRequired argv.length argv optstring dashes o eq (recordMatch longindex i st)).2 := by
  unfold deliverRequired
  split
  · exact ⟨by simp, by simpa using hlt, by simp⟩
  · split_ifs with hnext
    · rw [recordMatch_optind] at hnext
      refine ⟨?_, ?_, ?_⟩ <;> simp
      omega
    all_goals exact ⟨by simp, by simpa using hlt, by simp⟩

theorem deliverOptional_takes (o : LongOption) (eq : Option CString) (longindex : Option ℕ)
    (i : ℕ) (hlt : st.optind < argv.length) :
    Takes argv st (deliverOptional o eq (recordMatch longindex i st)).2 :=
  ⟨by simp [deliverOptional], by simpa [deliverOptional] using hlt, by simp [deliverOptional]⟩

theorem longOption_takes (optstring : Option CString) (table : List LongOption)
    (longindex : Option ℕ) (arg : CString) (hlt : st.optind < argv.length) :
    ∃ ret st', longOption argv.length argv optstring table longindex arg st = some (ret, st') ∧
      Takes argv st st' := by
  unfold longOption
  dsimp only
  split
  · refine ⟨_, _, rfl, ?_⟩
    split_ifs <;> exact ⟨by simp, by simpa using hlt, by simp⟩
  · refine ⟨_, _, rfl, ?_⟩
    split_ifs <;> exact ⟨by simp, by simpa using hlt, by simp⟩
  · rename_i i heq
    have hi : i < table.length := by
      have hfound := matchLoop_lt _ _ table 0 none false (k := i) (by rw [heq])
      simpa using hfound
    rw [List.getElem?_eq_getElem hi]
    dsimp only [Option.bind_eq_bind, Option.bind_some]
    split_ifs
    · exact ⟨_, _, rfl, deliverBare_takes _ _ _ _ _ hlt⟩
    · exact ⟨_, _, rfl, deliverRequired_takes _ _ _ _ _ _ hlt⟩
    · exact ⟨_, _, rfl, deliverOptional_takes _ _ _ _ hlt⟩

theorem longOnlyOption_takes (optstring : Option CString) (longindex : Option ℕ)
    (o : LongOption) (i : ℕ) (eq : Option CString) (hlt : st.optind < argv.length) :
    Takes argv st (longOnlyOption argv.length argv optstring longindex o i eq st).2 := by
  unfold longOnlyOption
  dsimp only
  split_ifs
  · exact deliverRequired_takes _ _ _ _ _ _ hlt
  · exact deliverOptional_takes _ _ _ _ hlt
  · exact deliverBare_takes _ _ _ _ _ hlt

theorem stay_proceeds (h : Placed argv st) : Proceeds argv st (some (-1, st)) :=
  ⟨-1, st, rfl, h, le_rfl, fun hne => absurd rfl hne⟩

theorem marker_proceeds (h : Placed argv st) (hlt : st.optind < argv.length)
    (hshort : st.shortNext = 0) :
    Proceeds argv st (some (-1, { st with optind := st.optind + 1 })) :=
  Takes.proceeds ⟨Nat.lt_succ_self _, hlt, rfl⟩ h.low hshort

theorem getoptLong_proceeds (optstring : Option CString) (longopts : Option (List LongOption))
    (longindex : Option ℕ) (h : Placed argv st) :
    Proceeds argv st (getoptLong argv.length argv optstring longopts longindex st) := by
  unfold getoptLong currentElement
  by_cases hlt : st.optind < argv.length
  · rw [if_pos hlt, List.getElem?_eq_getElem hlt]
    generalize argv[st.optind] = arg
    dsimp only
    obtain ⟨marker, hmarker⟩ := exists_isMarker arg
    obtain ⟨long, hlong⟩ := exists_isLong arg
    rw [hmarker, hlong]
    dsimp only [Option.bind_eq_bind, Option.bind_some]
    split_ifs with hcursor
    · exact getopt_proceeds optstring h
    · exact marker_proceeds h hlt (by omega)
    · cases longopts with
      | none => exact getopt_proceeds optstring h
      | some table =>
        obtain ⟨ret, st', heq, htakes⟩ := longOption_takes optstring table longindex arg hlt
        dsimp only
        rw [heq]
        exact htakes.proceeds h.low (by omega)
    · exact getopt_proceeds optstring h
  · rw [if_neg hlt]
    exact stay_proceeds h

theorem getoptLongOnly_proceeds (optstring : Option CString)
    (longopts : Option (List LongOption)) (longindex : Option ℕ) (h : Placed argv st) :
    Proceeds argv st (getoptLongOnly argv.length argv optstring longopts longindex st) := by
  unfold getoptLongOnly currentElement
  by_cases hlt : st.optind < argv.length
  · rw [if_pos hlt, List.getElem?_eq_getElem hlt]
    generalize argv[st.optind] = arg
    dsimp only
    obtain ⟨marker, hmarker⟩ := exists_isMarker arg
    obtain ⟨dashes, hdashes⟩ := exists_twoDashes arg
    obtain ⟨more, hmore⟩ := exists_isOption_more arg
    rw [hmarker, hdashes, hmore]
    dsimp only [Option.bind_eq_bind, Option.bind_some]
    split_ifs with hcursor
    · exact getopt_proceeds optstring h
    · exact marker_proceeds h hlt (by omega)
    · exact getoptLong_proceeds optstring longopts longindex h
    · cases longopts with
      | none => exact getopt_proceeds optstring h
      | some table =>
        dsimp only
        split
        · exact getopt_proceeds optstring h
        · rename_i i hfound
          have hi := exactLoop_lt _ _ table 0 hfound
          rw [zero_add] at hi
          rw [List.getElem?_eq_getElem hi]
          exact (longOnlyOption_takes _ _ _ _ _ hlt).proceeds h.low (by omega)
    · exact getopt_proceeds optstring h
  · rw [if_neg hlt]
    exact stay_proceeds h

end Long

/-- A call of one of the three functions. The option string, the table and the cell for
the index may be different at every call. -/
inductive ScanCall where
  | getopt (optstring : Option CString)
  | getoptLong (optstring : Option CString) (longopts : Option (List LongOption))
      (longindex : Option ℕ)
  | getoptLongOnly (optstring : Option CString) (longopts : Option (List LongOption))
      (longindex : Option ℕ)

def ScanCall.run (argv : List CString) (st : Scanner) : ScanCall → Option (ℤ × Scanner)
  | .getopt optstring => Getopt.getopt argv.length argv optstring st
  | .getoptLong optstring longopts longindex =>
    Getopt.getoptLong argv.length argv optstring longopts longindex st
  | .getoptLongOnly optstring longopts longindex =>
    Getopt.getoptLongOnly argv.length argv optstring longopts longindex st

/-- The results of the calls in order, and the scanner after them; none when a call would
read outside its strings. -/
def runCalls (argv : List CString) : List ScanCall → Scanner → Option (List ℤ × Scanner)
  | [], st => some ([], st)
  | call :: calls, st => do
    let (ret, st₁) ← call.run argv st
    let (rets, st₂) ← runCalls argv calls st₁
    some (ret :: rets, st₂)

/-- The storage of the elements: their bytes with the terminators. -/
def storage (argv : List CString) : ℕ :=
  (argv.map fun arg => arg.strlen + 1).sum

section Runs

variable {argv : List CString} {st st' : Scanner}

theorem ScanCall.run_proceeds (call : ScanCall) (h : Placed argv st) :
    Proceeds argv st (call.run argv st) := by
  cases call with
  | getopt optstring => exact getopt_proceeds optstring h
  | getoptLong optstring longopts longindex =>
    exact getoptLong_proceeds optstring longopts longindex h
  | getoptLongOnly optstring longopts longindex =>
    exact getoptLongOnly_proceeds optstring longopts longindex h

/-- The bytes the scanner has passed. -/
def passed (argv : List CString) (st : Scanner) : ℕ :=
  storage (argv.take st.optind) + st.shortNext

theorem storage_take_succ {i : ℕ} {arg : CString} (h : argv[i]? = some arg) :
    storage (argv.take (i + 1)) = storage (argv.take i) + (arg.strlen + 1) := by
  simp [storage, List.take_add_one, h]

theorem storage_take_mono (argv : List CString) {i j : ℕ} (h : i ≤ j) :
    storage (argv.take i) ≤ storage (argv.take j) := by
  obtain ⟨k, rfl⟩ := Nat.exists_eq_add_of_le h
  simp [storage, List.take_add]

theorem storage_take_le (argv : List CString) (i : ℕ) : storage (argv.take i) ≤ storage argv := by
  rcases Nat.le_total i argv.length with hle | hle
  · have hmono := storage_take_mono argv hle
    rwa [List.take_length] at hmono
  · rw [List.take_of_length_le hle]

theorem Placed.passed_le (h : Placed argv st) : passed argv st ≤ storage argv := by
  unfold passed
  obtain hzero | ⟨arg, hinside⟩ := h.cursor
  · rw [hzero]
    exact storage_take_le _ _
  · have hsucc := storage_take_succ hinside.current
    have hle := storage_take_le argv (st.optind + 1)
    have hbound := hinside.bound
    omega

/-- The cursor is inside the element, so that leaving the element passes more bytes than
moving within it. -/
theorem Advances.passed_lt (h : Advances st st') (hplaced : Placed argv st)
    (hplaced' : Placed argv st') : passed argv st < passed argv st' := by
  unfold passed
  obtain hlt | ⟨heq, hlt⟩ := h
  · have hlow := hplaced.low
    have hhigh := hplaced'.high
    have hget : argv[st.optind]? = some (argv[st.optind]) := List.getElem?_eq_getElem (by omega)
    have hsucc := storage_take_succ hget
    have hmono := storage_take_mono argv (show st.optind + 1 ≤ st'.optind from hlt)
    obtain hzero | ⟨arg, hinside⟩ := hplaced.cursor
    · omega
    · have hsame : argv[st.optind] = arg := by simpa [hget] using hinside.current
      have hbound := hinside.bound
      rw [hsame] at hsucc
      omega
  · rw [heq]
    omega

theorem runCalls_placed (calls : List ScanCall) (h : Placed argv st) :
    ∃ rets st', runCalls argv calls st = some (rets, st') ∧ Placed argv st' ∧
      ((∀ ret ∈ rets, ret ≠ -1) → passed argv st + rets.length ≤ passed argv st') := by
  induction calls generalizing st with
  | nil => exact ⟨[], st, rfl, h, fun _ => by simp⟩
  | cons call calls ih =>
    obtain ⟨ret, st₁, hcall, hplaced₁, -, hadvances⟩ := call.run_proceeds h
    obtain ⟨rets, st₂, hcalls, hplaced₂, hpassed⟩ := ih hplaced₁
    refine ⟨ret :: rets, st₂, ?_, hplaced₂, fun hne => ?_⟩
    · rw [runCalls, hcall]
      dsimp only [Option.bind_eq_bind, Option.bind_some]
      rw [hcalls]
      rfl
    · have hfirst := (hadvances (hne ret List.mem_cons_self)).passed_lt h hplaced₁
      have hrest := hpassed fun r hr => hne r (List.mem_cons_of_mem _ hr)
      rw [List.length_cons]
      omega

/-- Every sequence of calls on `argv` reads inside its strings, keeps the cursor in place
and passes at least one byte with each result other than `-1`. -/
theorem scan_safe (argv : List CString) (st : Scanner) (hind : st.optind = 1)
    (hshort : st.shortNext = 0) (calls : List ScanCall) (call : ScanCall) :
    ∃ rets st₁ ret st₂, runCalls argv calls st = some (rets, st₁) ∧
      call.run argv st₁ = some (ret, st₂) ∧ Placed argv st₁ ∧ Placed argv st₂ ∧
      st₁.optind ≤ st₂.optind ∧ (ret ≠ -1 → Advances st₁ st₂) ∧
      ((∀ ret ∈ rets, ret ≠ -1) → rets.length ≤ storage argv) := by
  have hinit : Placed argv st := ⟨hind.ge, by omega, .inl hshort⟩
  obtain ⟨rets, st₁, hcalls, hplaced₁, hpassed⟩ := runCalls_placed calls hinit
  obtain ⟨ret, st₂, hcall, hplaced₂, hmono, hadvances⟩ := call.run_proceeds hplaced₁
  refine ⟨rets, st₁, ret, st₂, hcalls, hcall, hplaced₁, hplaced₂, hmono, hadvances, fun hne => ?_⟩
  have hle := hpassed hne
  have hbound := hplaced₁.passed_le
  omega

def fresh : Scanner :=
  { optarg := none, optind := 1, opterr := 1, optopt := 0, shortNext := 0
    cells := fun _ => 0, stderr := [] }

theorem scan_safe_cluster :
    ∃ rets st₁ ret st₂,
      runCalls [CString.ofString "p", CString.ofString "-ab"]
        [.getopt (some (CString.ofString "ab"))] fresh = some (rets, st₁) ∧
      ScanCall.run [CString.ofString "p", CString.ofString "-ab"] st₁
        (.getoptLong (some (CString.ofString "ab")) none none) = some (ret, st₂) ∧
      Placed [CString.ofString "p", CString.ofString "-ab"] st₁ ∧
      Placed [CString.ofString "p", CString.ofString "-ab"] st₂ ∧
      st₁.optind ≤ st₂.optind ∧ (ret ≠ -1 → Advances st₁ st₂) ∧
      ((∀ ret ∈ rets, ret ≠ -1) →
        rets.length ≤ storage [CString.ofString "p", CString.ofString "-ab"]) :=
  scan_safe _ fresh rfl rfl _ _

end Runs

end Solcompat.Getopt
