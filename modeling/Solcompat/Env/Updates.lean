import Solcompat.Env.Model

/-!
# What the updates of the environment do

An entry has at most one name without `=`, so that an update of one name leaves alone what
is found under every other one, a prefix or an extension of it included.
-/

namespace Solcompat.Env

open Solcompat.Lib

/-- The names that `setenv` and `unsetenv` accept. -/
structure ValidName (name : CString) : Prop where
  nonempty : name.bytes ≠ []
  plain : ch '=' ∉ name.bytes

/-- The name is bound to the value and every other name to what it was bound to. -/
def Binds (environ : Environ) (name value : CString) (environ' : Environ) : Prop :=
  getenv environ' name = some value ∧
    ∀ other : CString, ch '=' ∉ other.bytes → other ≠ name →
      getenv environ' other = getenv environ other

section Names

variable {name other : CString} {entry : CString}

theorem named_iff : named name.bytes entry = true ↔ name.bytes ++ [ch '='] <+: entry.bytes := by
  rw [named, List.isPrefixOf_iff_prefix]

theorem named_unique (hname : ch '=' ∉ name.bytes) (hother : ch '=' ∉ other.bytes)
    (h : named name.bytes entry = true) (h' : named other.bytes entry = true) : name = other := by
  have key : ∀ {a b : List UInt8}, ch '=' ∉ b → a ++ [ch '='] <+: b ++ [ch '='] → a = b := by
    intro a b hb hab
    rcases List.prefix_concat_iff.mp hab with heq | hlt
    · exact List.append_cancel_right heq
    · exact absurd (hlt.subset (by simp)) hb
  rw [named_iff] at h h'
  apply CString.ext_bytes
  rcases List.prefix_or_prefix_of_prefix h h' with hab | hba
  · exact key hother hab
  · exact (key hname hba).symm

theorem named_other (hname : ch '=' ∉ name.bytes) (hother : ch '=' ∉ other.bytes)
    (hne : other ≠ name) (h : named name.bytes entry = true) : named other.bytes entry = false :=
  Bool.eq_false_iff.mpr fun h' => hne (named_unique hother hname h' h)

theorem rejects_eq_false : rejects (some name) = false ↔ ValidName name := by
  constructor
  · intro h
    simp only [rejects, Bool.or_eq_false_iff] at h
    refine ⟨fun hnil => ?_, fun hmem => ?_⟩
    · simp [CString.read, hnil] at h
    · have hsign : ch '=' ≠ 0 := by decide
      simp [CString.strchr, hsign, hmem] at h
  · rintro ⟨hnonempty, hplain⟩
    obtain ⟨b, rest, hbytes⟩ := List.exists_cons_of_ne_nil hnonempty
    have hb : b ≠ 0 := name.nulFree b (by simp [hbytes])
    rw [rejects, CString.strchr_of_notMem (by decide) hplain]
    simp [CString.read, hbytes, hb]

theorem named_append {rest : List UInt8} (h : entry.bytes = name.bytes ++ rest) :
    named name.bytes entry = true ↔ rest.head? = some (ch '=') := by
  rw [named_iff, h, List.prefix_append_right_inj]
  cases rest with
  | nil => simp
  | cons b rest => simp [List.cons_prefix_cons, eq_comm]

/-- The comparison of the source never reads behind the entry, and it asks for the name. -/
theorem skips_eq (name entry : CString) : skips name entry = some (named name.bytes entry) := by
  have hcompare : entry.strncmp name name.strlen = 0 ↔ name.bytes <+: entry.bytes :=
    CString.strncmp_eq_zero (List.append_nil _).symm
  unfold skips
  split_ifs with h
  · obtain ⟨rest, hrest⟩ := hcompare.mp h
    have hnamed := named_append hrest.symm
    cases rest with
    | nil =>
      have hread : entry.read name.strlen = some 0 :=
        CString.read_end (by rw [← hrest, List.append_nil]; rfl)
      rw [hread, Option.map_some, Option.some.injEq, Bool.eq_iff_iff, hnamed]
      decide
    | cons b rest =>
      have hread : entry.read name.strlen = some b := CString.read_append hrest.symm
      rw [hread, Option.map_some, Option.some.injEq, Bool.eq_iff_iff, hnamed]
      simp
  · symm
    rw [Option.some.injEq, Bool.eq_false_iff]
    intro hnamed
    exact h (hcompare.mpr ((List.prefix_append _ _).trans (named_iff.mp hnamed)))

end Names

section Bindings

variable {name other value string : CString} {environ : Environ}

theorem entries_ofEntries (es : List CString) : (Environ.ofEntries es).entries = es :=
  entries_append es []

theorem getenv_congr {environ' : Environ}
    (h : environ'.entries.find? (named name.bytes) = environ.entries.find? (named name.bytes)) :
    getenv environ' name = getenv environ name := by
  rw [getenv, getenv, h]

theorem find?_filter_self (p : CString → Bool) (es : List CString) :
    (es.filter fun e => !p e).find? p = none := by
  simp [List.find?_eq_none]

theorem find?_filter_of_disjoint {p q : CString → Bool} (es : List CString)
    (h : ∀ e ∈ es, p e = true → q e = false) :
    (es.filter fun e => !p e).find? q = es.find? q := by
  induction es with
  | nil => rfl
  | cons e es ih =>
    have hrest := ih fun e he => h e (List.mem_cons_of_mem _ he)
    cases hp : p e with
    | true => simp [hp, h e List.mem_cons_self hp, hrest]
    | false => simp [hp, List.find?_cons, hrest]

theorem find?_replaceFirst_self {p : CString → Bool} (hstring : p string = true)
    (es : List CString) : (replaceFirst p string es).find? p = some string := by
  induction es with
  | nil => simp [replaceFirst, hstring]
  | cons e es ih =>
    unfold replaceFirst
    split_ifs with hp
    · simp [hstring]
    · simp [hp, ih]

theorem find?_replaceFirst_of_disjoint {p q : CString → Bool} (hstring : q string = false)
    (es : List CString) (h : ∀ e ∈ es, p e = true → q e = false) :
    (replaceFirst p string es).find? q = es.find? q := by
  induction es with
  | nil => simp [replaceFirst, hstring]
  | cons e es ih =>
    have hrest := ih fun e he => h e (List.mem_cons_of_mem _ he)
    unfold replaceFirst
    split_ifs with hp
    · simp [hstring, h e List.mem_cons_self hp]
    · simp [List.find?_cons, hrest]

theorem takeWhile_assignment (hname : ch '=' ∉ name.bytes) :
    (assignment name value).bytes.takeWhile (· ≠ ch '=') = name.bytes := by
  have hall : ∀ b ∈ name.bytes, decide (b ≠ ch '=') = true :=
    fun b hb => decide_eq_true fun h => hname (h ▸ hb)
  rw [assignment, List.takeWhile_append_of_pos hall]
  simp

theorem named_assignment : named name.bytes (assignment name value) = true := by
  have hbytes : (assignment name value).bytes = name.bytes ++ ch '=' :: value.bytes := rfl
  exact (named_append hbytes).mpr rfl

theorem putenv_binds (hname : ch '=' ∉ name.bytes) :
    Binds environ name value (putenv environ (assignment name value)) := by
  have hentries : (putenv environ (assignment name value)).entries =
      replaceFirst (named name.bytes) (assignment name value) environ.entries := by
    rw [putenv, entries_ofEntries, takeWhile_assignment hname]
  refine ⟨?_, fun other hother hne => getenv_congr ?_⟩
  · rw [getenv, hentries, find?_replaceFirst_self named_assignment, Option.map_some,
      Option.some.injEq]
    apply CString.ext_bytes
    simp [assignment, CString.strlen]
  · rw [hentries]
    exact find?_replaceFirst_of_disjoint (named_other hname hother hne named_assignment) _
      fun e _ he => named_other hname hother hne he

theorem setenv_eq (supply : Supply) (hname : ValidName name) (value : CString) (overwrite : ℤ) :
    setenv supply (some name) value overwrite environ =
      if overwrite = 0 ∧ (getenv environ name).isSome then ⟨0, none, environ⟩
      else if supply.malloc && supply.putenv then
        ⟨0, none, putenv environ (assignment name value)⟩
      else ⟨-1, some .ENOMEM, environ⟩ := by
  rw [setenv, if_neg (by simp [rejects_eq_false.mpr hname])]
  dsimp only [Option.getD_some]
  cases supply.malloc <;> cases supply.putenv <;> rfl

theorem unsetenv_entries (environ : Environ) (hname : ValidName name) :
    ∃ environ', unsetenv (some name) environ = some ⟨0, none, environ'⟩ ∧
      environ'.entries = environ.entries.filter fun e => !named name.bytes e := by
  obtain ⟨cells, hcompact, hcells⟩ :=
    compact_entries environ.terminated fun e _ => skips_eq name e
  refine ⟨⟨cells, compact_terminated hcompact⟩, ?_, hcells⟩
  unfold unsetenv
  rw [if_neg (by simp [rejects_eq_false.mpr hname])]
  dsimp only [Option.getD_some]
  split
  · rename_i h
    rw [hcompact] at h
    exact absurd h (by simp)
  · rename_i h
    rw [hcompact] at h
    cases Option.some.inj h
    rfl

end Bindings

/-- The effect of the two functions on any environment: what is looked up afterwards under
the name, under every other name, and which entries remain. -/
theorem environ_updates (environ : Environ) (supply : Supply) :
    (∀ name : CString, ValidName name →
      ∃ environ', unsetenv (some name) environ = some ⟨0, none, environ'⟩ ∧
        getenv environ' name = none ∧
        environ'.entries = (environ.entries.filter fun e => !named name.bytes e) ∧
        ∀ other : CString, ch '=' ∉ other.bytes → other ≠ name →
          getenv environ' other = getenv environ other) ∧
    (∀ (name value : CString) (overwrite : ℤ), ValidName name →
      let reply := setenv supply (some name) value overwrite environ
      (overwrite = 0 ∧ getenv environ name ≠ none → reply = ⟨0, none, environ⟩) ∧
      (overwrite ≠ 0 ∨ getenv environ name = none →
        if supply.malloc && supply.putenv then
          reply.ret = 0 ∧ Binds environ name value reply.environ
        else reply = ⟨-1, some .ENOMEM, environ⟩)) ∧
    (∀ name : Option CString, (∀ text, name = some text → ¬ ValidName text) →
      unsetenv name environ = some ⟨-1, some .EINVAL, environ⟩ ∧
      ∀ value overwrite,
        setenv supply name value overwrite environ = ⟨-1, some .EINVAL, environ⟩) := by
  refine ⟨fun name hname => ?_, fun name value overwrite hname => ?_, fun name hname => ?_⟩
  · obtain ⟨environ', hcall, hentries⟩ := unsetenv_entries environ hname
    refine ⟨environ', hcall, ?_, hentries, fun other hother hne => getenv_congr ?_⟩
    · rw [getenv, hentries, find?_filter_self, Option.map_none]
    · rw [hentries]
      exact find?_filter_of_disjoint _ fun e _ he => named_other hname.plain hother hne he
  · dsimp only
    rw [setenv_eq supply hname]
    refine ⟨fun hkeep => if_pos ?_, fun hset => ?_⟩
    · simpa [Option.isSome_iff_ne_none] using hkeep
    · have hgo : ¬ (overwrite = 0 ∧ (getenv environ name).isSome) := by
        rintro ⟨hzero, hsome⟩
        rcases hset with h | h
        · exact h hzero
        · simp [h] at hsome
      rw [if_neg hgo]
      split_ifs
      · exact ⟨rfl, putenv_binds hname.plain⟩
      · rfl
  · have hrejects : rejects name = true := by
      cases name with
      | none => rfl
      | some text =>
        by_contra h
        exact hname text rfl (rejects_eq_false.mp (by simpa using h))
    refine ⟨?_, fun value overwrite => ?_⟩
    · rw [unsetenv, if_pos hrejects]
    · rw [setenv, if_pos hrejects]

/-- Two entries of the name, one of an extension of it and one without a sign. -/
def sampleEnviron : Environ :=
  .ofEntries (["A=1", "AB=2", "A", "A=3"].map CString.ofString)

example : (unsetenv (some (CString.ofString "A")) sampleEnviron).map (·.environ.entries) =
    some (["AB=2", "A"].map CString.ofString) := by decide

end Solcompat.Env
