import Solcompat.Memstream.Growing

/-!
# What a failed `fmemopen` leaves behind

A stream that cannot be registered is closed again. That gives the descriptor back, but for a
stream for reading it does not take back the slot of `_bufendtab`: only the interposed
`fclose` does that, and the C library's own is called here.
-/

namespace Solcompat.Memstream

open Solcompat.Lib

/-- What a call works on is as before. -/
structure NoTrace (s s' : State) : Prop where
  registry_eq : s'.registry = s.registry
  memory_eq : s'.memory = s.memory
  bufendtab_eq : s'.bufendtab = s.bufendtab
  descriptors_eq : s'.descriptors = s.descriptors
  streams_eq : s'.streams = s.streams

/-- `open`, `fdopen` and `tmpfile` answer with what is not open. -/
structure Answers.Fresh (a : Answers) (s : State) : Prop where
  devnull : ∀ fd, a.devnull = some fd → s.descriptors fd = false
  fdopen : ∀ fp, a.fdopen = some fp → s.streams fp = none
  tmpfile : ∀ fp, a.tmpfile = some fp → s.streams fp = none

/-- There is a stream for reading, but no memory for its entry, and the slot of its descriptor
has changed. -/
def LeavesSlot (a : Answers) (buf size : ℕ) (s : State) : Prop :=
  ∃ fd, a.devnull = some fd ∧ a.fdopen ≠ none ∧ a.entry = false ∧ fd < nFile ∧
    s.bufendtab fd ≠ some (buf + size)

section Undoing

variable {a : Answers} {s : State} {fd fp : ℕ}

theorem noTrace_refl (s : State) : NoTrace s s := ⟨rfl, rfl, rfl, rfl, rfl⟩

theorem update_back {α : Type} {f : ℕ → α} {k : ℕ} {x y : α} (h : f k = y) :
    Function.update (Function.update f k x) k y = f := by
  rw [Function.update_idem, ← h, Function.update_eq_self]

theorem fmemopenRead_unregistered (hfresh : a.Fresh s) {buf size : ℕ}
    (hfd : a.devnull = some fd) (hfp : a.fdopen = some fp) (hentry : a.entry = false) :
    (fmemopenRead a buf size s).2 =
      { s with
        bufendtab :=
          if fd < nFile then Function.update s.bufendtab fd (some (buf + size))
          else s.bufendtab } := by
  have hstreams : Function.update (Function.update s.streams fp (some (.preloaded fd))) fp none =
      s.streams := update_back (hfresh.fdopen fp hfp)
  have hdescriptors : Function.update (Function.update s.descriptors fd true) fd false =
      s.descriptors := update_back (hfresh.devnull fd hfd)
  simp only [fmemopenRead, makeEntry, hfd, hfp, hentry]
  by_cases hlt : fd < nFile
  · simp [hlt, realFclose, State.setStream, State.setDescriptor, hstreams, hdescriptors]
  · simp [hlt, realFclose, State.setStream, State.setDescriptor, hstreams, hdescriptors]

end Undoing

section Reading

variable {a : Answers} {s : State} {buf size : ℕ}

theorem fmemopenRead_noTrace_iff (hfresh : a.Fresh s)
    (hnull : (fmemopenRead a buf size s).1 = none) :
    NoTrace s (fmemopenRead a buf size s).2 ↔ ¬ LeavesSlot a buf size s := by
  cases hfd : a.devnull with
  | none =>
    have hsame : (fmemopenRead a buf size s).2 = s := by simp [fmemopenRead, hfd]
    rw [hsame]
    exact ⟨fun _ ⟨_, hsome, _⟩ => absurd (hfd.symm.trans hsome) (by simp), fun _ => noTrace_refl s⟩
  | some fd =>
    cases hfp : a.fdopen with
    | none =>
      have hclose : (fmemopenRead a buf size s).2 =
          (s.setDescriptor fd true).setDescriptor fd false := by
        simp [fmemopenRead, hfd, hfp]
      rw [hclose]
      exact ⟨fun _ ⟨_, _, hsome, _⟩ => hsome hfp,
        fun _ => ⟨rfl, rfl, rfl, update_back (hfresh.devnull fd hfd), rfl⟩⟩
    | some fp =>
      cases hentry : a.entry with
      | true => exact absurd hnull (by simp [fmemopenRead, makeEntry, hfd, hfp, hentry])
      | false =>
        rw [fmemopenRead_unregistered hfresh hfd hfp hentry]
        constructor
        · rintro htrace ⟨fd', hfd', -, -, hlt, hne⟩
          obtain rfl := Option.some.inj (hfd.symm.trans hfd')
          have hslot := congrFun htrace.bufendtab_eq fd
          simp only [if_pos hlt, Function.update_self] at hslot
          exact hne hslot.symm
        · intro hnot
          refine ⟨rfl, rfl, ?_, rfl, rfl⟩
          dsimp only
          split_ifs with hlt
          · have hslot : s.bufendtab fd = some (buf + size) := by
              by_contra hne
              exact hnot ⟨fd, hfd, by simp [hfp], hentry, hlt, hne⟩
            rw [← hslot, Function.update_eq_self]
          · rfl

end Reading

theorem fmemopenWrite_noTrace {a : Answers} {s : State} (hfresh : a.Fresh s) {clears : Bool}
    {buf size : ℕ} (hnull : (fmemopenWrite a clears buf size s).1 = none) :
    NoTrace s (fmemopenWrite a clears buf size s).2 := by
  unfold fmemopenWrite makeEntry at hnull ⊢
  cases hfp : a.tmpfile with
  | none => exact noTrace_refl s
  | some fp =>
    simp only [hfp] at hnull ⊢
    cases hentry : a.entry with
    | true =>
      rw [hentry] at hnull
      cases clears <;> exact absurd hnull (by simp)
    | false =>
      have hclose : realFclose fp (s.setStream fp (some (.tmp .empty))) =
          (s.setStream fp (some (.tmp .empty))).setStream fp none := by
        simp [realFclose, State.setStream]
      simp only [Bool.false_eq_true, if_false, hclose]
      exact ⟨rfl, rfl, rfl, rfl, update_back (hfresh.tmpfile fp hfp)⟩

/-- A failed `fmemopen` leaves no trace, unless it was for reading and leaves its slot of
`_bufendtab` behind. -/
theorem fmemopen_noTrace_iff (a : Answers) (buf : Option ℕ) (size : ℕ) (mode : Option CString)
    (s : State) (hfresh : a.Fresh s) (hnull : (fmemopen a buf size mode s).1 = none) :
    NoTrace s (fmemopen a buf size mode s).2.2 ↔
      ¬ ∃ start m, buf = some start ∧ size ≠ 0 ∧ mode = some m ∧
        m.bytes.head? = some (ch 'r') ∧ LeavesSlot a start size s := by
  have hkeeps : (fmemopen a buf size mode s).2.2 = s →
      NoTrace s (fmemopen a buf size mode s).2.2 := by
    intro hsame
    rw [hsame]
    exact noTrace_refl s
  unfold fmemopen at hnull hkeeps ⊢
  cases buf with
  | none => exact iff_of_true (hkeeps rfl) (by simp)
  | some start =>
    cases mode with
    | none => exact iff_of_true (hkeeps rfl) (by simp)
    | some m =>
      dsimp only at hnull hkeeps ⊢
      split_ifs at hnull hkeeps ⊢ with hsize hread hwrite
      · exact iff_of_true (hkeeps rfl) (by simp [hsize])
      · rw [fmemopenRead_noTrace_iff hfresh hnull]
        simp [hsize, hread]
      · exact iff_of_true (fmemopenWrite_noTrace hfresh hnull) (by simp [hread])
      · exact iff_of_true (hkeeps rfl) (by simp [hread])

/-- There is a descriptor and a stream, but no memory for an entry. -/
def starvedAnswers : Answers where
  devnull := some 3
  fdopen := some 0
  tmpfile := some 0
  entry := false
  tells := true
  told := 0
  buffer := true
  fresh _ := 0

theorem starvedAnswers_fresh : starvedAnswers.Fresh blank :=
  ⟨fun _ _ => rfl, fun _ _ => rfl, fun _ _ => rfl⟩

theorem fmemopen_noTrace_iff_sample :
    (fmemopen starvedAnswers (some 100) 8 (some (.ofString "w")) blank).1 = none ∧
      (NoTrace blank
          (fmemopen starvedAnswers (some 100) 8 (some (.ofString "w")) blank).2.2 ↔
        ¬ ∃ start m, some 100 = some start ∧ 8 ≠ 0 ∧ some (CString.ofString "w") = some m ∧
          m.bytes.head? = some (ch 'r') ∧ LeavesSlot starvedAnswers start 8 blank) :=
  ⟨rfl, fmemopen_noTrace_iff _ _ _ _ _ starvedAnswers_fresh rfl⟩

theorem fmemopen_leaves_slot :
    starvedAnswers.Fresh blank ∧
      (fmemopen starvedAnswers (some 100) 8 (some (.ofString "r")) blank).1 = none ∧
      ¬ NoTrace blank
        (fmemopen starvedAnswers (some 100) 8 (some (.ofString "r")) blank).2.2 := by
  refine ⟨starvedAnswers_fresh, rfl, fun h => ?_⟩
  have hslot : some 108 = (none : Option ℕ) := congrFun h.bufendtab_eq 3
  exact absurd hslot (by simp)

end Solcompat.Memstream
