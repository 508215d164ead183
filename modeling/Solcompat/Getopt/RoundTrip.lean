import Solcompat.Getopt.Lookup

/-!
# Scanning undoes rendering

One call of `getopt_long` reports one occurrence. The scanner stands inside an element
with a part of it done and a part to do; the run over the elements of a rendering is
assembled from the calls by appending.
-/

namespace Solcompat.Getopt

open Solcompat.Lib

/-- `optind` and `short_next` when `done` of the option bytes of element `k` are
scanned and `todo` remain. -/
def cursor (k : ℕ) (done todo : List UInt8) : ℕ × ℕ :=
  if todo = [] then (k + 1, 0)
  else if done = [] then (k, 0)
  else (k, done.length + 1)

/-- The scanner stands at a cursor. -/
def StandsAt (st : Scanner) (k : ℕ) (done todo : List UInt8) : Prop :=
  (st.optind, st.shortNext) = cursor k done todo

section Elements

variable {e : CString} {c : UInt8} {done todo : List UInt8}

theorem isMarker_short (he : e.bytes = ch '-' :: c :: todo) (hc : c ≠ ch '-') :
    isMarker e = some false := by
  simp [isMarker, andThen, byteIs, CString.read, he, hc]

theorem isLong_short (he : e.bytes = ch '-' :: c :: todo) (hc : c ≠ ch '-') :
    isLong e = some false := by
  simp [isLong, andThen, byteIs, CString.read, he, hc]

theorem isOption_short (he : e.bytes = ch '-' :: c :: todo) : isOption e = some true := by
  have hc : c ≠ 0 := e.nulFree c (by simp [he])
  simp [isOption, andThen, byteIs, byteIsNot, CString.read, he, hc]

theorem tests_operand (he : e.bytes = [ch '-'] ∨ e.bytes.head? ≠ some (ch '-')) :
    isOption e = some false ∧ isMarker e = some false ∧ isLong e = some false := by
  rcases he with he | he
  · simp [isOption, isMarker, isLong, andThen, byteIs, byteIsNot, CString.read, he, ch]
  · obtain ⟨x, hread, hx⟩ := read_ne_of_head_ne [] (List.nil_append e.bytes).symm he (by decide)
    simp only [List.length_nil] at hread
    simp [isOption, isMarker, isLong, andThen, byteIs, hread, hx]

theorem isMarker_long (he : e.bytes = ch '-' :: ch '-' :: c :: todo) :
    isMarker e = some false := by
  have hc : c ≠ 0 := e.nulFree c (by simp [he])
  simp [isMarker, andThen, byteIs, CString.read, he, hc]

theorem isLong_long (he : e.bytes = ch '-' :: ch '-' :: c :: todo) :
    isLong e = some true := by
  have hc : c ≠ 0 := e.nulFree c (by simp [he])
  simp [isLong, andThen, byteIs, byteIsNot, CString.read, he, hc]

end Elements

section Calls

variable {argv : List CString} {opts : OptString} {table : LongTable}
variable {longindex : Option ℕ} {st : Scanner} {k : ℕ} {e : CString}

theorem currentElement_of_get (h : argv[k]? = some e) :
    currentElement argv.length argv k = some e := by
  have hk := (List.getElem?_eq_some_iff.mp h).1
  rw [currentElement, if_pos hk, h]

theorem getoptLong_short {done todo : List UInt8} {c : UInt8} {longopts}
    (hget : argv[k]? = some e) (he : e.bytes = ch '-' :: (done ++ c :: todo))
    (hc : c ≠ ch '-') (hst : StandsAt st k done (c :: todo)) :
    getoptLong argv.length argv (some opts.text) longopts longindex st =
      getoptOption argv.length argv opts.text e c
        { st with optind := k, shortNext := done.length + 1 } := by
  have hcur := currentElement_of_get hget
  have hc0 : c ≠ 0 := e.nulFree c (by simp [he])
  cases done with
  | nil =>
    obtain ⟨hind, hnext⟩ : st.optind = k ∧ st.shortNext = 0 := by
      simpa [StandsAt, cursor] using hst
    have hread : e.read 1 = some c := by simp [CString.read, he]
    subst hind
    simp [getoptLong, getopt, getoptElement, hcur, hnext, isMarker_short he hc,
      isLong_short he hc, isOption_short he, hread]
  | cons b done =>
    obtain ⟨hind, hnext⟩ : st.optind = k ∧ st.shortNext = done.length + 2 := by
      simpa [StandsAt, cursor] using hst
    have hread : e.read (done.length + 2) = some c := by simp [CString.read, he]
    subst hind
    rw [getoptLong, hcur]
    simp only [hnext, getopt, hcur, hread, Option.getD_some, Nat.succ_pos, if_true,
      Option.bind_eq_bind, Option.bind_some, hc0, if_false, List.length_cons]
    rw [← hnext]

/-- A bare option moves on inside its cluster, or past the end of the element. -/
theorem getoptOption_bare {done todo : List UInt8} {c : UInt8}
    (he : e.bytes = ch '-' :: (done ++ c :: todo)) (hk : opts.kind c = some .bare)
    (hst : st.shortNext = done.length + 1) :
    ∃ st', getoptOption argv.length argv opts.text e c st = some ((c.toNat : ℤ), st') ∧
      StandsAt st' st.optind (done ++ [c]) todo ∧ st'.optarg = none ∧
      st'.cells = st.cells ∧ st'.stderr = st.stderr := by
  obtain ⟨spec, back, hspec, hbytes, hback⟩ := OptString.strchr_pastMode hk
  have hcolon : c ≠ ch ':' := opts.noColon _ (OptString.mem_options_of_kind hk)
  obtain ⟨x, hx, hxne⟩ := read_ne_of_head_ne [c] hbytes hback (by decide)
  cases todo with
  | nil =>
    have hnext : e.read (done.length + 2) = some 0 := CString.read_end (by simp [he])
    refine ⟨{ st with optarg := none, shortNext := 0, optind := st.optind + 1 },
      ?_, rfl, rfl, rfl, rfl⟩
    simp only [List.length_singleton] at hx
    simp [getoptOption, hspec, hcolon, hx, hxne, stepCluster, hst, hnext,
      OptString.charInt_of_kind hk]
  | cons b todo =>
    have hb : b ≠ 0 := e.nulFree b (by simp [he])
    have hnext : e.read (done.length + 2) = some b := by simp [CString.read, he]
    refine ⟨{ st with optarg := none, shortNext := done.length + 2 },
      ?_, by simp [StandsAt, cursor], rfl, rfl, rfl⟩
    simp only [List.length_singleton] at hx
    simp [getoptOption, hspec, hcolon, hx, hxne, stepCluster, hst, hnext, hb,
      OptString.charInt_of_kind hk]

theorem getoptOption_glued {done : List UInt8} {c : UInt8} {arg : CString}
    (he : e.bytes = ch '-' :: (done ++ c :: arg.bytes)) (harg : arg.bytes ≠ [])
    (hk : opts.kind c = some .required ∨ opts.kind c = some .optional)
    (hst : st.shortNext = done.length + 1) :
    getoptOption argv.length argv opts.text e c st =
      some ((c.toNat : ℤ),
        { st with optarg := some arg, shortNext := 0, optind := st.optind + 1 }) := by
  obtain ⟨kind, hkind, hcolons⟩ : ∃ kind, opts.kind c = some kind ∧
      ∃ more, kind.colons = ch ':' :: more := by
    rcases hk with hk | hk
    · exact ⟨_, hk, _, rfl⟩
    · exact ⟨_, hk, _, rfl⟩
  obtain ⟨more, hmore⟩ := hcolons
  obtain ⟨spec, back, hspec, hbytes, -⟩ := OptString.strchr_pastMode hkind
  have hcolon : c ≠ ch ':' := opts.noColon _ (OptString.mem_options_of_kind hkind)
  have hread : spec.read 1 = some (ch ':') := by simp [CString.read, hbytes, hmore]
  have hdrop : e.drop (done.length + 2) = arg := by
    apply CString.ext_bytes
    simp [he]
  obtain ⟨b, bs, hb⟩ := List.exists_cons_of_ne_nil harg
  have hb0 : b ≠ 0 := arg.nulFree b (by simp [hb])
  have hnext : e.read (done.length + 2) = some b := by simp [CString.read, he, hb]
  simp [getoptOption, hspec, hcolon, hread, hst, hnext, hb0, hdrop,
    OptString.charInt_of_kind hkind]

/-- An option that may have an argument ends its element without one. -/
theorem getoptOption_absent {done : List UInt8} {c : UInt8}
    (he : e.bytes = ch '-' :: (done ++ [c])) (hk : opts.kind c = some .optional)
    (hst : st.shortNext = done.length + 1) :
    getoptOption argv.length argv opts.text e c st =
      some ((c.toNat : ℤ),
        { st with optarg := none, shortNext := 0, optind := st.optind + 1 }) := by
  obtain ⟨spec, back, hspec, hbytes, -⟩ := OptString.strchr_pastMode hk
  have hcolon : c ≠ ch ':' := opts.noColon _ (OptString.mem_options_of_kind hk)
  have hread1 : spec.read 1 = some (ch ':') := by
    simp [CString.read, hbytes, ArgKind.colons]
  have hread2 : spec.read 2 = some (ch ':') := by
    simp [CString.read, hbytes, ArgKind.colons]
  have hnext : e.read (done.length + 2) = some 0 := CString.read_end (by simp [he])
  simp [getoptOption, hspec, hcolon, hread1, hread2, hst, hnext,
    OptString.charInt_of_kind hk]

/-- An option that must have an argument ends its element and takes the next one. -/
theorem getoptOption_separate {done : List UInt8} {c : UInt8} {arg : CString}
    (he : e.bytes = ch '-' :: (done ++ [c])) (hk : opts.kind c = some .required)
    (hst : st.shortNext = done.length + 1) (harg : argv[st.optind + 1]? = some arg) :
    getoptOption argv.length argv opts.text e c st =
      some ((c.toNat : ℤ),
        { st with optarg := some arg, shortNext := 0, optind := st.optind + 2 }) := by
  obtain ⟨spec, back, hspec, hbytes, hback⟩ := OptString.strchr_pastMode hk
  have hcolon : c ≠ ch ':' := opts.noColon _ (OptString.mem_options_of_kind hk)
  have hread1 : spec.read 1 = some (ch ':') := by
    simp [CString.read, hbytes, ArgKind.colons]
  obtain ⟨x, hx, hxne⟩ :=
    read_ne_of_head_ne [c, ch ':'] hbytes hback (by decide)
  have hread2 : spec.read 2 = some x := hx
  have hnext : e.read (done.length + 2) = some 0 := CString.read_end (by simp [he])
  obtain ⟨first, hfirst, -⟩ := opts.read_text_zero
  have hlt := (List.getElem?_eq_some_iff.mp harg).1
  simp only [getoptOption, hspec, hcolon, if_false, hread1, hst, hnext, hread2, hxne,
    nextElementArgument, hfirst, Option.bind_eq_bind, Option.bind_some, if_true,
    ne_eq, not_true_eq_false, hlt, harg, OptString.charInt_of_kind hk]

theorem name_of_bare {word : List UInt8} (he : e.bytes = ch '-' :: ch '-' :: word)
    (hword : ch '=' ∉ word) :
    (e.drop 2).strchr (ch '=') = none ∧ nameLength (e.drop 2) none = word.length := by
  constructor
  · exact CString.strchr_of_notMem (by decide) (by simpa [he] using hword)
  · simp [nameLength, CString.strlen, he]

theorem name_of_equals {word : List UInt8} {arg : CString}
    (he : e.bytes = ch '-' :: ch '-' :: (word ++ ch '=' :: arg.bytes))
    (hword : ch '=' ∉ word) :
    ∃ eq, (e.drop 2).strchr (ch '=') = some eq ∧ eq.drop 1 = arg ∧
      nameLength (e.drop 2) (some eq) = word.length := by
  have hbytes : (e.drop 2).bytes = word ++ ch '=' :: arg.bytes := by simp [he]
  obtain ⟨eq, heq, heqBytes⟩ := CString.strchr_append hbytes (by decide) hword
  refine ⟨eq, heq, ?_, ?_⟩
  · apply CString.ext_bytes
    simp [heqBytes]
  · simp [nameLength, CString.strlen, he, heqBytes]

/-- A call that stands before a long element delivers the entry its name spells. -/
theorem getoptLong_long {word rest : List UInt8} {i : ℕ} {o : LongOption}
    {eq : Option CString} (hget : argv[st.optind]? = some e) (hnext : st.shortNext = 0)
    (hspells : Spells table i o word)
    (he : e.bytes = ch '-' :: ch '-' :: (word ++ rest))
    (heq : (e.drop 2).strchr (ch '=') = eq)
    (hlength : nameLength (e.drop 2) eq = word.length) :
    getoptLong argv.length argv (some opts.text) (some table.entries) longindex st =
      some (if o.hasArg = noArgument then
          deliverBare argv "--" o eq (recordMatch longindex i st)
        else if o.hasArg = requiredArgument then
          deliverRequired argv.length argv (some opts.text) "--" o eq
            (recordMatch longindex i st)
        else deliverOptional o eq (recordMatch longindex i st)) := by
  have hcur := currentElement_of_get hget
  obtain ⟨b, word', hword⟩ := List.exists_cons_of_ne_nil hspells.ne_nil
  have helem : e.bytes = ch '-' :: ch '-' :: b :: (word' ++ rest) := by
    rw [he, hword, List.cons_append]
  have hname : (e.drop 2).bytes = word ++ rest := by simp [he]
  have hmatch := hspells.matchLoop_eq hname
  have hentry := hspells.1
  simp only [getoptLong, hcur, hnext, lt_irrefl, if_false, isMarker_long helem,
    isLong_long helem, longOption, heq, hlength, hmatch, hentry, Option.bind_eq_bind,
    Option.bind_some, if_true, Bool.false_eq_true]
  split
  · rfl
  · split <;> rfl

theorem deliver_report {i : ℕ} {o : LongOption} {cells : ℕ → ℤ} (arg : Option CString)
    (st' : Scanner) (hentry : table.entries[i]? = some o)
    (hcells : st'.cells = longindex.elim cells fun p => Function.update cells p (i : ℤ)) :
    deliver o arg st' =
      ((report table longindex cells (.long i arg)).ret,
        { st' with
          optarg := arg
          cells := (report table longindex cells (.long i arg)).cells }) := by
  obtain ⟨name, hasArg, flag, val⟩ := o
  cases flag with
  | none => simp [deliver, report, hentry, ← hcells]
  | some p => simp [deliver, report, hentry, ← hcells]

theorem recordMatch_cells (i : ℕ) (st : Scanner) :
    (recordMatch longindex i st).cells =
      longindex.elim st.cells fun p => Function.update st.cells p (i : ℤ) := by
  cases longindex <;> rfl

end Calls

section Runs

variable (argv : List CString) (opts : OptString) (table : LongTable)
variable (longindex : Option ℕ)

/-- One call reports an occurrence and prints nothing. -/
def Reported (occ : Occurrence) (st st' : Scanner) : Prop :=
  getoptLong argv.length argv (some opts.text) (some table.entries) longindex st =
      some ((report table longindex st.cells occ).ret, st') ∧
    st'.optarg = (report table longindex st.cells occ).optarg ∧
    st'.cells = (report table longindex st.cells occ).cells ∧
    st'.stderr = st.stderr

/-- Successive calls report a list of occurrences. -/
inductive Scans : List Occurrence → Scanner → Scanner → Prop
  | nil (st : Scanner) : Scans [] st st
  | cons {occ : Occurrence} {occs : List Occurrence} {st st₁ st₂ : Scanner}
      (first : Reported argv opts table longindex occ st st₁) (rest : Scans occs st₁ st₂) :
      Scans (occ :: occs) st st₂

variable {argv opts table longindex}

theorem Scans.one {occ : Occurrence} {st st' : Scanner}
    (h : Reported argv opts table longindex occ st st') :
    Scans argv opts table longindex [occ] st st' :=
  .cons h (.nil st')

theorem Scans.append {occs more : List Occurrence} {st st₁ st₂ : Scanner}
    (h : Scans argv opts table longindex occs st st₁)
    (h' : Scans argv opts table longindex more st₁ st₂) :
    Scans argv opts table longindex (occs ++ more) st st₂ := by
  induction h with
  | nil => exact h'
  | cons first rest ih => exact .cons first (ih h')

theorem Scans.scan_eq {occs : List Occurrence} {st st' : Scanner}
    (h : Scans argv opts table longindex occs st st') :
    scan argv.length argv (some opts.text) (some table.entries) longindex occs.length st =
      some (reports table longindex st.cells occs, st') := by
  induction h with
  | nil => rfl
  | cons first rest ih =>
    obtain ⟨hcall, hoptarg, hcells, -⟩ := first
    rw [List.length_cons, scan, hcall]
    simp only [Option.bind_eq_bind, Option.bind_some, ih, reports, hoptarg, hcells]

theorem Scans.stderr_eq {occs : List Occurrence} {st st' : Scanner}
    (h : Scans argv opts table longindex occs st st') : st'.stderr = st.stderr := by
  induction h with
  | nil => rfl
  | cons first rest ih => exact ih.trans first.2.2.2

theorem reported_short {done todo : List UInt8} {c : UInt8} {kind : ArgKind}
    {arg : Option CString} {e : CString} {k : ℕ} {st st' : Scanner}
    (hget : argv[k]? = some e) (he : e.bytes = ch '-' :: (done ++ c :: todo))
    (hkind : opts.kind c = some kind) (hst : StandsAt st k done (c :: todo))
    (hcall : getoptOption argv.length argv opts.text e c
        { st with optind := k, shortNext := done.length + 1 } = some ((c.toNat : ℤ), st'))
    (hoptarg : st'.optarg = arg) (hcells : st'.cells = st.cells)
    (hstderr : st'.stderr = st.stderr) :
    Reported argv opts table longindex (.short c arg) st st' := by
  have hdash : c ≠ ch '-' := opts.noDash _ (OptString.mem_options_of_kind hkind)
  exact ⟨(getoptLong_short hget he hdash hst).trans hcall, hoptarg, hcells, hstderr⟩

/-- The bare options of a cluster are reported one call after another. -/
theorem scans_bare {e : CString} {k : ℕ} (hget : argv[k]? = some e) :
    ∀ (cs done todo : List UInt8) (st : Scanner),
      e.bytes = ch '-' :: (done ++ (cs ++ todo)) →
      (∀ c ∈ cs, opts.kind c = some .bare) → StandsAt st k done (cs ++ todo) →
      ∃ st', Scans argv opts table longindex (bareOccurrences cs) st st' ∧
        StandsAt st' k (done ++ cs) todo
  | [], done, todo, st, _, _, hst => ⟨st, .nil st, by simpa using hst⟩
  | c :: cs, done, todo, st, he, hbare, hst => by
    have hkind : opts.kind c = some .bare := hbare c (by simp)
    let before := { st with optind := k, shortNext := done.length + 1 }
    have hbefore : before.shortNext = done.length + 1 := rfl
    obtain ⟨st₁, hcall, hst₁, hoptarg, hcells, hstderr⟩ :=
      getoptOption_bare he hkind hbefore
    have hfirst : Reported argv opts table longindex (.short c none) st st₁ :=
      reported_short hget he hkind hst hcall hoptarg hcells hstderr
    have he₁ : e.bytes = ch '-' :: ((done ++ [c]) ++ (cs ++ todo)) := by simp [he]
    obtain ⟨st', hrest, hst'⟩ := scans_bare hget cs (done ++ [c]) todo st₁ he₁
      (fun b hb => hbare b (by simp [hb])) hst₁
    exact ⟨st', .cons hfirst hrest, by simpa using hst'⟩

/-- The option that ends a cluster is reported after the bare ones, and the scanner
stands where that call left it. -/
theorem scans_cluster_end {e : CString} {k n : ℕ} {cs todo : List UInt8} {c : UInt8}
    {kind : ArgKind} {arg : Option CString} {st : Scanner} (hget : argv[k]? = some e)
    (he : e.bytes = ch '-' :: (cs ++ c :: todo))
    (hbare : ∀ b ∈ cs, opts.kind b = some .bare) (hkind : opts.kind c = some kind)
    (hst : StandsAt st k [] (cs ++ c :: todo))
    (hcall : ∀ st₁ : Scanner, st₁.optind = k → st₁.shortNext = cs.length + 1 →
      getoptOption argv.length argv opts.text e c st₁ =
        some ((c.toNat : ℤ), { st₁ with optarg := arg, shortNext := 0, optind := n })) :
    ∃ st', Scans argv opts table longindex (bareOccurrences cs ++ [.short c arg]) st st' ∧
      st'.optind = n ∧ st'.shortNext = 0 := by
  obtain ⟨st₁, hscans, hst₁⟩ := scans_bare hget cs [] (c :: todo) st he hbare hst
  have hlast : Reported argv opts table longindex (.short c arg) st₁ _ :=
    reported_short hget he hkind hst₁ (hcall _ rfl rfl) rfl rfl rfl
  exact ⟨_, hscans.append (.one hlast), rfl, rfl⟩

theorem scans_long {i n : ℕ} {o : LongOption} {arg : Option CString} {st : Scanner}
    (hentry : table.entries[i]? = some o) (hnext : st.shortNext = 0)
    (hcall : getoptLong argv.length argv (some opts.text) (some table.entries) longindex st =
      some (deliver o arg { recordMatch longindex i st with optind := n })) :
    ∃ st', Scans argv opts table longindex [.long i arg] st st' ∧
      st'.optind = n ∧ st'.shortNext = 0 := by
  rw [deliver_report arg { recordMatch longindex i st with optind := n } hentry
    (recordMatch_cells i st)] at hcall
  refine ⟨_, .one ⟨hcall, ?_, rfl, rfl⟩, rfl, hnext⟩
  cases o with
  | mk name hasArg flag val => cases flag <;> simp [report, hentry]

/-- The elements of a group are scanned, and the scanner stands after them. -/
theorem RendersGroup.scans {occs : List Occurrence} {elems rest : List CString} {k : ℕ}
    {st : Scanner} (h : RendersGroup opts table occs elems)
    (hargv : argv.drop k = elems ++ rest) (hind : st.optind = k)
    (hnext : st.shortNext = 0) :
    ∃ st', Scans argv opts table longindex occs st st' ∧
      st'.optind = k + elems.length ∧ st'.shortNext = 0 := by
  have helem : ∀ i, argv[k + i]? = (elems ++ rest)[i]? := by
    intro i
    rw [← hargv, List.getElem?_drop]
  have hfirst := helem 0
  have hsecond := helem 1
  have hstart : ∀ todo, todo ≠ [] → StandsAt st k [] todo := by
    intro todo htodo
    simp [StandsAt, cursor, htodo, hind, hnext]
  cases h with
  | cluster cs e nonempty bare spelling =>
    obtain ⟨st', hscans, hst'⟩ := scans_bare hfirst cs [] [] st (by simpa using spelling) bare
      (by simpa using hstart cs nonempty)
    obtain ⟨hind', hnext'⟩ : st'.optind = k + 1 ∧ st'.shortNext = 0 := by
      simpa [StandsAt, cursor] using hst'
    exact ⟨st', hscans, hind', hnext'⟩
  | glued cs c arg e bare takes nonempty spelling =>
    obtain ⟨kind, hkind⟩ : ∃ kind, opts.kind c = some kind := by
      rcases takes with h | h
      · exact ⟨_, h⟩
      · exact ⟨_, h⟩
    apply scans_cluster_end hfirst spelling bare hkind (hstart _ (by simp))
    intro st₁ hind₁ hnext₁
    rw [getoptOption_glued spelling nonempty takes hnext₁, hind₁]
    rfl
  | separate cs c arg e bare takes spelling =>
    apply scans_cluster_end hfirst spelling bare takes (hstart _ (by simp))
    intro st₁ hind₁ hnext₁
    rw [getoptOption_separate spelling takes hnext₁ (by rw [hind₁]; exact hsecond), hind₁]
    rfl
  | absent cs c e bare takes spelling =>
    apply scans_cluster_end hfirst spelling bare takes (hstart _ (by simp))
    intro st₁ hind₁ hnext₁
    rw [getoptOption_absent spelling takes hnext₁, hind₁]
    rfl
  | longBare i o name e spells takes spelling =>
    subst hind
    obtain ⟨heq, hlength⟩ := name_of_bare spelling spells.noEquals
    have hspelling : e.bytes = ch '-' :: ch '-' :: (name ++ []) := by simpa using spelling
    apply scans_long spells.1 hnext
    rw [getoptLong_long hfirst hnext spells hspelling heq hlength]
    rcases takes with h | h
    · simp [h, deliverBare, recordMatch]
    · simp [h, noArgument, requiredArgument, optionalArgument, deliverOptional, recordMatch]
  | longEquals i o name arg e spells takes spelling =>
    subst hind
    obtain ⟨eq, heq, hdrop, hlength⟩ := name_of_equals spelling spells.noEquals
    apply scans_long spells.1 hnext
    rw [getoptLong_long hfirst hnext spells spelling heq hlength]
    rcases takes with h | h
    · simp [h, noArgument, requiredArgument, deliverRequired, hdrop, recordMatch]
    · simp [h, noArgument, requiredArgument, optionalArgument, deliverOptional, hdrop,
        recordMatch]
  | longSeparate i o name arg e spells takes spelling =>
    subst hind
    obtain ⟨heq, hlength⟩ := name_of_bare spelling spells.noEquals
    have hspelling : e.bytes = ch '-' :: ch '-' :: (name ++ []) := by simpa using spelling
    have harg : argv[st.optind + 1]? = some arg := hsecond
    have hlt := (List.getElem?_eq_some_iff.mp harg).1
    apply scans_long spells.1 hnext
    rw [getoptLong_long hfirst hnext spells hspelling heq hlength]
    simp only [takes, noArgument, requiredArgument, one_ne_zero, if_false, if_true,
      deliverRequired, recordMatch, hlt, harg]
    rfl

/-- A rendering is scanned from its first element to the one after its last. -/
theorem Renders.scans {occs : List Occurrence} {elems : List CString}
    (h : Renders opts table occs elems) :
    ∀ {rest : List CString} {k : ℕ} {st : Scanner}, argv.drop k = elems ++ rest →
      st.optind = k → st.shortNext = 0 →
      ∃ st', Scans argv opts table longindex occs st st' ∧
        st'.optind = k + elems.length ∧ st'.shortNext = 0 := by
  induction h with
  | nil =>
    intro rest k st _ hind hnext
    exact ⟨st, .nil st, hind, hnext⟩
  | cons occs more elems others group _ ih =>
    intro rest k st hargv hind hnext
    have hargv₁ : argv.drop k = elems ++ (others ++ rest) := by
      rw [hargv, List.append_assoc]
    obtain ⟨st₁, hscans₁, hind₁, hnext₁⟩ := group.scans hargv₁ hind hnext
    have hargv₂ : argv.drop (k + elems.length) = others ++ rest := by
      rw [← List.drop_drop, hargv₁, List.drop_left]
    obtain ⟨st₂, hscans₂, hind₂, hnext₂⟩ := ih hargv₂ hind₁ hnext₁
    refine ⟨st₂, hscans₁.append hscans₂, ?_, hnext₂⟩
    rw [hind₂, List.length_append]
    omega

/-- The call after the last option ends the scan at the first operand. -/
theorem EndsOptions.getoptLong_eq {tail : List CString} {skip k : ℕ} {st : Scanner}
    (h : EndsOptions tail skip) (hargv : argv.drop k = tail) (hind : st.optind = k)
    (hnext : st.shortNext = 0) :
    getoptLong argv.length argv (some opts.text) (some table.entries) longindex st =
      some (-1, { st with optind := k + skip }) := by
  subst hind
  have hfirst : argv[st.optind]? = tail[0]? := by
    rw [← hargv, List.getElem?_drop, Nat.add_zero]
  cases h with
  | nothing =>
    have hcur : currentElement argv.length argv st.optind = none := by
      unfold currentElement
      split
      · exact hfirst
      · rfl
    simp [getoptLong, hcur]
  | marker e rest spelling =>
    have hmarker : isMarker e = some true := by
      simp [isMarker, andThen, byteIs, CString.read, spelling]
    simp [getoptLong, currentElement_of_get hfirst, hnext, hmarker]
  | operand e rest spelling =>
    obtain ⟨hoption, hmarker, hlong⟩ := tests_operand spelling
    obtain ⟨first, hread, hdash⟩ := opts.read_text_zero
    simp [getoptLong, getopt, getoptElement, currentElement_of_get hfirst, hnext, hoption,
      hmarker, hlong, hread, hdash]
    rw [← hnext]

/-- Scanning undoes rendering: from `optind == 1`, the calls of `getopt_long` report the
occurrences in order, the next call returns `-1` with `optind` at the first operand, and
no call prints a diagnostic. -/
theorem getoptLong_scans_rendering (prog : CString) (occs : List Occurrence)
    (elems tail : List CString) (skip : ℕ) (st : Scanner)
    (hargv : argv = prog :: (elems ++ tail)) (hrenders : Renders opts table occs elems)
    (htail : EndsOptions tail skip) (hind : st.optind = 1) (hnext : st.shortNext = 0) :
    ∃ st₁ st₂,
      scan argv.length argv (some opts.text) (some table.entries) longindex occs.length st =
        some (reports table longindex st.cells occs, st₁) ∧
      getoptLong argv.length argv (some opts.text) (some table.entries) longindex st₁ =
        some (-1, st₂) ∧
      st₂ = { st₁ with optind := 1 + elems.length + skip } ∧ st₂.stderr = st.stderr := by
  have hdrop : argv.drop 1 = elems ++ tail := by simp [hargv]
  obtain ⟨st₁, hscans, hind₁, hnext₁⟩ := hrenders.scans hdrop hind hnext
  have hdrop₁ : argv.drop (1 + elems.length) = tail := by
    rw [← List.drop_drop, hdrop, List.drop_left]
  refine ⟨st₁, { st₁ with optind := 1 + elems.length + skip }, hscans.scan_eq, ?_, rfl,
    hscans.stderr_eq⟩
  exact htail.getoptLong_eq hdrop₁ hind₁ hnext₁

/-- The option string `:vo:` -/
def sampleOptions : OptString where
  lead := some .colon
  options := [(ch 'v', .bare), (ch 'o', .required)]
  ascii := by decide
  noColon := by decide
  noDash := by decide
  noPlus := by decide

/-- One long option, `--help`, with its value. -/
def sampleTable : LongTable where
  entries := [⟨⟨[ch 'h', ch 'e', ch 'l', ch 'p'], by decide⟩, noArgument, none, 7⟩]
  distinct := by simp
  named := by simp
  noEquals := by simp [ch]
  kinds := by simp

/-- The command line `p -vo out --he -- -v`. -/
def sampleArgv : List CString :=
  [⟨[ch 'p'], by decide⟩, ⟨[ch '-', ch 'v', ch 'o'], by decide⟩,
    ⟨[ch 'o', ch 'u', ch 't'], by decide⟩, ⟨[ch '-', ch '-', ch 'h', ch 'e'], by decide⟩,
    ⟨[ch '-', ch '-'], by decide⟩, ⟨[ch '-', ch 'v'], by decide⟩]

/-- The globals as `getopt_long.c` initialises them. -/
def initialScanner : Scanner := ⟨none, 1, 1, 0, 0, fun _ => 0, []⟩

theorem getoptLong_scans_rendering_sample :
    ∃ st₁ st₂,
      scan 6 sampleArgv (some sampleOptions.text) (some sampleTable.entries) (some 0) 3
          initialScanner =
        some (reports sampleTable (some 0) (fun _ => 0)
          [.short (ch 'v') none, .short (ch 'o') (some ⟨[ch 'o', ch 'u', ch 't'], by decide⟩),
            .long 0 none], st₁) ∧
      getoptLong 6 sampleArgv (some sampleOptions.text) (some sampleTable.entries) (some 0)
          st₁ = some (-1, st₂) ∧
      st₂ = { st₁ with optind := 5 } ∧ st₂.stderr = [] := by
  have hshort : RendersGroup sampleOptions sampleTable _ _ :=
    .separate [ch 'v'] (ch 'o') ⟨[ch 'o', ch 'u', ch 't'], by decide⟩
      ⟨[ch '-', ch 'v', ch 'o'], by decide⟩ (List.forall_mem_singleton.mpr rfl) rfl rfl
  have hspells : Spells sampleTable 0
      ⟨⟨[ch 'h', ch 'e', ch 'l', ch 'p'], by decide⟩, noArgument, none, 7⟩ [ch 'h', ch 'e'] := by
    refine ⟨rfl, .inr ⟨by decide, by decide, ?_⟩⟩
    intro j o' hj hne
    have hlt := (List.getElem?_eq_some_iff.mp hj).1
    simp [sampleTable] at hlt
    omega
  have hlong : RendersGroup sampleOptions sampleTable _ _ :=
    .longBare 0 _ _ ⟨[ch '-', ch '-', ch 'h', ch 'e'], by decide⟩ hspells (.inl rfl) rfl
  have hrenders := Renders.cons _ _ _ _ hshort (.cons _ _ _ _ hlong .nil)
  have htail : EndsOptions (sampleArgv.drop 4) 1 := .marker _ _ rfl
  exact getoptLong_scans_rendering ⟨[ch 'p'], by decide⟩ _ _ _ 1 initialScanner rfl hrenders
    htail rfl rfl

end Runs

end Solcompat.Getopt
