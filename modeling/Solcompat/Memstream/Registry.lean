import Solcompat.Memstream.Growing

/-!
# The three kinds of registered streams

One record serves the streams of `open_memstream`, those of `fmemopen` for writing and those
of `fmemopen` for reading; which kind an entry is shows only in the fields that are null. The
branch of `memstream_sync` that replaces the buffer of the client follows `ptr` and `sizeloc`,
which only the first kind has. `fclose` does not come there with a stream for reading, but
`fflush` does.
-/

namespace Solcompat.Memstream

open Solcompat.Lib

/-- A call of the library or of stdio on a memory stream. -/
inductive Call
  | fmemopen (a : Answers) (buf : Option ℕ) (size : ℕ) (mode : Option CString)
  | openMemstream (a : Answers) (ptr sizeloc : ℕ)
  | fclose (a : Answers) (fp : ℕ)
  | fflush (a : Answers) (fp : Option ℕ)
  | fwrite (fp : ℕ) (data : List UInt8)
  | fseek (fp pos : ℕ)

/-- The state after a call; none when the call would follow a null pointer. -/
def Call.run (s : State) : Call → Option State
  | .fmemopen a buf size mode => some (Memstream.fmemopen a buf size mode s).2.2
  | .openMemstream a ptr sizeloc => some (Memstream.openMemstream a ptr sizeloc s).2
  | .fclose a fp => Memstream.fclose a fp s
  | .fflush a fp => Memstream.fflush a fp s
  | .fwrite fp data => some (Memstream.fwrite fp data s)
  | .fseek fp pos => some (Memstream.fseek fp pos s)

/-- `fdopen` and `tmpfile` answer with a stream that is not open. -/
def Call.Fresh (s : State) : Call → Prop
  | .fmemopen a _ _ _ =>
    (∀ fp, a.fdopen = some fp → s.streams fp = none) ∧
      ∀ fp, a.tmpfile = some fp → s.streams fp = none
  | .openMemstream a _ _ => ∀ fp, a.tmpfile = some fp → s.streams fp = none
  | _ => True

/-- The states of a process, from any state without memory streams on. -/
inductive Reached : State → Prop
  | start (s : State) (empty : s.registry = []) : Reached s
  | step {s s' : State} (call : Call) (before : Reached s) (fresh : call.Fresh s)
      (runs : call.run s = some s') : Reached s'

/-- `memstream_sync` comes to the statements that free `*entry->ptr` and store through
`entry->ptr` and `entry->sizeloc`. -/
def Replaces (a : Answers) (fp : ℕ) (entry : Entry) (s : State) : Prop :=
  ∃ stream byteCount, s.streams fp = some stream ∧ stream.tell a = some byteCount ∧
    entry.fixedBuf = none ∧ a.buffer = true

def ForReading (s : State) (fp : ℕ) : Prop := ∃ fd, s.streams fp = some (.preloaded fd)

section Kinds

def Stream.isTmp : Stream → Bool
  | .tmp _ => true
  | .preloaded _ => false

def State.kind (s : State) (fp : ℕ) : Option Bool := (s.streams fp).map Stream.isTmp

/-- The null fields of an entry suit its stream. -/
def Entry.Suits (e : Entry) : Bool → Prop
  | true => e.fixedBuf = none → e.ptr ≠ none ∧ e.sizeloc ≠ none
  | false => e.ptr = none ∧ e.fixedBuf = none

structure Kept (s : State) : Prop where
  suits : ∀ e ∈ s.registry, ∃ kind, s.kind e.fp = some kind ∧ e.Suits kind
  distinct : (s.registry.map Entry.fp).Nodup

variable {a : Answers} {fp : ℕ} {e entry : Entry} {s s' : State}

@[simp]
theorem isTmp_seek (stream : Stream) (pos : ℕ) : (stream.seek pos).isTmp = stream.isTmp := by
  cases stream <;> rfl

@[simp]
theorem isTmp_read (stream : Stream) (n : ℕ) : (stream.read n).2.isTmp = stream.isTmp := by
  cases stream <;> rfl

@[simp]
theorem setStream_registry (s : State) (fp : ℕ) (stream : Option Stream) :
    (s.setStream fp stream).registry = s.registry := rfl

theorem setStream_kind (s : State) (fp : ℕ) (stream : Option Stream) :
    (s.setStream fp stream).kind = Function.update s.kind fp (stream.map Stream.isTmp) := by
  funext fp'
  by_cases h : fp' = fp
  · subst h
    simp [State.kind, State.setStream]
  · simp [State.kind, State.setStream, h]

theorem setStream_kind_eq {stream stream' : Stream} (hstream : s.streams fp = some stream)
    (hkind : stream'.isTmp = stream.isTmp) : (s.setStream fp (some stream')).kind = s.kind := by
  have hsame : s.kind fp = some stream'.isTmp := by rw [State.kind, hstream, hkind]; rfl
  rw [setStream_kind, Option.map_some, ← hsame, Function.update_eq_self]

theorem free_frame (s : State) (p : Option ℕ) :
    (s.free p).registry = s.registry ∧ (s.free p).streams = s.streams := by
  cases p <;> exact ⟨rfl, rfl⟩

theorem syncFixed_frame {stream : Stream} (hstream : s.streams fp = some stream)
    (buf size byteCount : ℕ) :
    (syncFixed buf size byteCount fp stream s).registry = s.registry ∧
      (syncFixed buf size byteCount fp stream s).kind = s.kind := by
  have hkind : (((stream.seek 0).read (min byteCount size)).2.seek byteCount).isTmp =
      stream.isTmp := by
    rw [isTmp_seek, isTmp_read, isTmp_seek]
  exact ⟨rfl, setStream_kind_eq hstream hkind⟩

theorem syncGrowing_frame {stream : Stream} (hstream : s.streams fp = some stream)
    (fresh : ℕ → UInt8) (ptr sizeloc byteCount : ℕ) :
    (syncGrowing fresh ptr sizeloc byteCount fp stream s).registry = s.registry ∧
      (syncGrowing fresh ptr sizeloc byteCount fp stream s).kind = s.kind := by
  obtain ⟨hregistry, hstreams⟩ := free_frame s (s.pointers ptr)
  have hkind : (((stream.seek 0).read byteCount).2.seek byteCount).isTmp = stream.isTmp := by
    rw [isTmp_seek, isTmp_read, isTmp_seek]
  have hfree : (s.free (s.pointers ptr)).kind = s.kind := by
    funext fp'
    rw [State.kind, hstreams, State.kind]
  have hstream' : (s.free (s.pointers ptr)).streams fp = some stream := by rw [hstreams, hstream]
  exact ⟨hregistry, (setStream_kind_eq hstream' hkind).trans hfree⟩

theorem memstreamSync_frame (h : memstreamSync a fp entry s = some s') :
    s'.registry = s.registry ∧ s'.kind = s.kind := by
  unfold memstreamSync at h
  cases hstream : s.streams fp with
  | none => simp [hstream] at h
  | some stream =>
    simp only [hstream] at h
    cases htell : stream.tell a with
    | none =>
      simp only [htell, Option.some.injEq] at h
      rw [← h]
      exact ⟨rfl, rfl⟩
    | some byteCount =>
      simp only [htell] at h
      cases hfixed : entry.fixedBuf with
      | some buf =>
        simp only [hfixed, Option.some.injEq] at h
        rw [← h]
        exact syncFixed_frame hstream _ _ _
      | none =>
        simp only [hfixed] at h
        split_ifs at h
        · rw [← Option.some.inj h]
          exact ⟨rfl, setStream_kind_eq hstream (by rw [isTmp_seek, isTmp_seek])⟩
        · split at h
          · rw [← Option.some.inj h]
            exact syncGrowing_frame hstream _ _ _ _
          · cases h

theorem realFclose_frame (fp : ℕ) (s : State) :
    (realFclose fp s).registry = s.registry ∧
      (realFclose fp s).kind = Function.update s.kind fp none := by
  have hkind := setStream_kind s fp none
  unfold realFclose
  dsimp only
  split
  · exact ⟨rfl, hkind⟩
  · exact ⟨rfl, hkind⟩

theorem clearBufend_frame (fp : ℕ) (s : State) :
    (clearBufend fp s).registry = s.registry ∧ (clearBufend fp s).kind = s.kind := by
  unfold clearBufend
  split
  · split_ifs <;> exact ⟨rfl, rfl⟩
  · exact ⟨rfl, rfl⟩

theorem Kept.same (h : Kept s) (hregistry : s'.registry = s.registry) (hkind : s'.kind = s.kind) :
    Kept s' := by
  constructor
  · rw [hregistry, hkind]
    exact h.suits
  · rw [hregistry]
    exact h.distinct

theorem Kept.ne_of_closed (h : Kept s) (hfp : s.kind fp = none) : ∀ e ∈ s.registry, e.fp ≠ fp := by
  intro e he heq
  obtain ⟨kind, hkind, -⟩ := h.suits e he
  rw [heq, hfp] at hkind
  cases hkind

theorem Kept.add (h : Kept s) {kind : Bool} (hfp : s.kind e.fp = none) (he : e.Suits kind)
    (hregistry : s'.registry = e :: s.registry)
    (hkind : s'.kind = Function.update s.kind e.fp (some kind)) : Kept s' := by
  have hne := h.ne_of_closed hfp
  constructor
  · intro e' he'
    rw [hregistry] at he'
    rw [hkind]
    rcases List.mem_cons.mp he' with rfl | he'
    · exact ⟨kind, by simp, he⟩
    · rw [Function.update_of_ne (hne e' he')]
      exact h.suits e' he'
  · rw [hregistry, List.map_cons, List.nodup_cons]
    refine ⟨?_, h.distinct⟩
    intro hmem
    obtain ⟨e', he', heq⟩ := List.mem_map.mp hmem
    exact hne e' he' heq

theorem Kept.remove (h : Kept s) (hregistry : s'.registry = s.registry.eraseP (·.fp = fp))
    (hkind : s'.kind = Function.update s.kind fp none) : Kept s' := by
  rw [eraseP_eq_filter s.registry h.distinct] at hregistry
  constructor
  · intro e he
    rw [hregistry, List.mem_filter] at he
    have hne : e.fp ≠ fp := by simpa using he.2
    rw [hkind, Function.update_of_ne hne]
    exact h.suits e he.1
  · rw [hregistry]
    exact h.distinct.sublist (List.filter_sublist.map _)

theorem Kept.opens (h : Kept s) {stream : Stream} (hfp : s.streams e.fp = none)
    (he : e.Suits stream.isTmp) (hregistry : s'.registry = s.registry)
    (hkind : s'.kind = Function.update s.kind e.fp (some stream.isTmp)) :
    (∀ s'', makeEntry a e s' = some s'' → Kept s'') ∧ Kept (realFclose e.fp s') := by
  have hclosed : s.kind e.fp = none := by rw [State.kind, hfp]; rfl
  constructor
  · intro s'' hentry
    unfold makeEntry at hentry
    split_ifs at hentry
    rw [← Option.some.inj hentry]
    refine h.add hclosed he ?_ hkind
    rw [← hregistry]
  · obtain ⟨hregistry', hkind'⟩ := realFclose_frame e.fp s'
    refine h.same (hregistry'.trans hregistry) ?_
    rw [hkind', hkind, Function.update_idem, ← hclosed, Function.update_eq_self]

theorem Kept.fmemopenRead (h : Kept s) (hfresh : ∀ fp, a.fdopen = some fp → s.streams fp = none)
    (buf size : ℕ) : Kept (fmemopenRead a buf size s).2 := by
  unfold Memstream.fmemopenRead
  cases a.devnull with
  | none => exact h
  | some fd =>
    cases hfp : a.fdopen with
    | none => exact h.same rfl rfl
    | some fp =>
      dsimp only
      generalize hopened : (if fd < nFile then _ else _ : State) = opened
      have hframe : opened.registry = s.registry ∧
          opened.kind = Function.update s.kind fp (some false) := by
        rw [← hopened]
        split_ifs <;> exact ⟨rfl, setStream_kind _ fp (some (.preloaded fd))⟩
      obtain ⟨hentry, hclosed⟩ := @Kept.opens a ⟨fp, none, none, none, 0⟩ s opened h
        (.preloaded fd) (hfresh fp hfp) ⟨rfl, rfl⟩ hframe.1 hframe.2
      split
      · exact hclosed
      · exact hentry _ ‹_›

theorem Kept.fmemopenWrite (h : Kept s)
    (hfresh : ∀ fp, a.tmpfile = some fp → s.streams fp = none) (clears : Bool) (buf size : ℕ) :
    Kept (fmemopenWrite a clears buf size s).2 := by
  unfold Memstream.fmemopenWrite
  cases hfp : a.tmpfile with
  | none => exact h
  | some fp =>
    obtain ⟨hentry, hclosed⟩ := @Kept.opens a ⟨fp, none, none, some buf, size⟩ s
      (s.setStream fp (some (.tmp .empty))) h (.tmp .empty) (hfresh fp hfp)
      (by simp [Stream.isTmp, Entry.Suits]) rfl (setStream_kind s fp (some (.tmp .empty)))
    dsimp only
    split
    · exact hclosed
    · have hkept := hentry _ ‹_›
      split_ifs
      · exact hkept.same rfl rfl
      · exact hkept

theorem Kept.fmemopen (h : Kept s) (hread : ∀ fp, a.fdopen = some fp → s.streams fp = none)
    (hwrite : ∀ fp, a.tmpfile = some fp → s.streams fp = none) (buf : Option ℕ) (size : ℕ)
    (mode : Option CString) : Kept (fmemopen a buf size mode s).2.2 := by
  unfold Memstream.fmemopen
  split
  · split_ifs
    · exact h
    · exact h.fmemopenRead hread _ _
    · exact h.fmemopenWrite hwrite _ _ _
    · exact h
  · exact h

theorem Kept.openMemstream (h : Kept s)
    (hfresh : ∀ fp, a.tmpfile = some fp → s.streams fp = none) (ptr sizeloc : ℕ) :
    Kept (openMemstream a ptr sizeloc s).2 := by
  unfold Memstream.openMemstream
  cases hfp : a.tmpfile with
  | none => exact h
  | some fp =>
    dsimp only
    generalize hopened : State.mk _ _ _ _ _ _ _ _ _ = opened
    have hframe : opened.registry = s.registry ∧
        opened.kind = Function.update s.kind fp (some true) := by
      rw [← hopened]
      exact ⟨rfl, setStream_kind s fp (some (.tmp .empty))⟩
    obtain ⟨hentry, hclosed⟩ := @Kept.opens a ⟨fp, some ptr, some sizeloc, none, 0⟩ s opened h
      (.tmp .empty) (hfresh fp hfp) (by simp [Stream.isTmp, Entry.Suits]) hframe.1 hframe.2
    split
    · exact hclosed
    · exact hentry _ ‹_›

theorem Kept.fclose (h : Kept s) (hclose : fclose a fp s = some s') : Kept s' := by
  unfold Memstream.fclose memstreamRemove at hclose
  set erased : State := { s with registry := s.registry.eraseP (·.fp = fp) } with herased
  -- Whatever was done before, the stream is closed last.
  have hlast : ∀ s₁ : State, s₁.registry = erased.registry → s₁.kind = erased.kind →
      Kept (realFclose fp s₁) := by
    intro s₁ hregistry hkind
    obtain ⟨hregistry', hkind'⟩ := realFclose_frame fp s₁
    refine h.remove (hregistry'.trans hregistry) ?_
    rw [hkind', hkind]
    rfl
  split at hclose
  · rename_i s₁ heq
    obtain ⟨-, rfl⟩ := Prod.mk.inj heq
    rw [← Option.some.inj hclose]
    exact hlast _ rfl rfl
  · rename_i entry s₁ heq
    obtain ⟨-, rfl⟩ := Prod.mk.inj heq
    split_ifs at hclose
    · rw [← Option.some.inj hclose]
      obtain ⟨hregistry, hkind⟩ := clearBufend_frame fp erased
      exact hlast _ hregistry hkind
    · obtain ⟨s₂, hsync, rfl⟩ := Option.map_eq_some_iff.mp hclose
      obtain ⟨hregistry, hkind⟩ := memstreamSync_frame hsync
      exact hlast _ hregistry hkind

theorem Kept.fflush (h : Kept s) {fp : Option ℕ} (hflush : fflush a fp s = some s') : Kept s' := by
  unfold Memstream.fflush at hflush
  cases fp with
  | none =>
    rw [← Option.some.inj hflush]
    exact h
  | some fp =>
    dsimp only at hflush
    split at hflush
    · rw [← Option.some.inj hflush]
      exact h
    · obtain ⟨hregistry, hkind⟩ := memstreamSync_frame hflush
      exact h.same hregistry hkind

theorem Kept.fwrite (h : Kept s) (fp : ℕ) (data : List UInt8) : Kept (fwrite fp data s) := by
  unfold Memstream.fwrite
  split
  · rename_i f hstream
    exact h.same rfl (setStream_kind_eq hstream rfl)
  · exact h

theorem Kept.fseek (h : Kept s) (fp pos : ℕ) : Kept (fseek fp pos s) := by
  refine h.same rfl ?_
  unfold Memstream.fseek
  rw [setStream_kind]
  have hsame : ((s.streams fp).map (·.seek pos)).map Stream.isTmp = s.kind fp := by
    rw [State.kind]
    cases s.streams fp with
    | none => rfl
    | some stream => simp
  rw [hsame, Function.update_eq_self]

theorem Kept.call (h : Kept s) {call : Call} (hfresh : call.Fresh s)
    (hrun : call.run s = some s') : Kept s' := by
  cases call with
  | fmemopen a buf size mode =>
    rw [← Option.some.inj hrun]
    exact h.fmemopen hfresh.1 hfresh.2 buf size mode
  | openMemstream a ptr sizeloc =>
    rw [← Option.some.inj hrun]
    exact h.openMemstream hfresh ptr sizeloc
  | fclose a fp => exact h.fclose hrun
  | fflush a fp => exact h.fflush hrun
  | fwrite fp data =>
    rw [← Option.some.inj hrun]
    exact h.fwrite fp data
  | fseek fp pos =>
    rw [← Option.some.inj hrun]
    exact h.fseek fp pos

theorem Reached.kept (h : Reached s) : Kept s := by
  induction h with
  | start s empty => exact ⟨by simp [empty], by simp [empty]⟩
  | step call before fresh runs ih => exact ih.call fresh runs

end Kinds

section Null

variable {a : Answers} {fp : ℕ} {entry : Entry} {s : State}

theorem forReading_iff : ForReading s fp ↔ s.kind fp = some false := by
  unfold ForReading State.kind
  rcases s.streams fp with _ | ⟨f⟩ | ⟨fd⟩ <;> simp [Stream.isTmp]

theorem Kept.find (h : Kept s) (hfind : s.registry.find? (·.fp = fp) = some entry) :
    ∃ kind, s.kind fp = some kind ∧ entry.Suits kind := by
  have hfp : entry.fp = fp := by simpa using List.find?_some hfind
  obtain ⟨kind, hkind, hsuits⟩ := h.suits entry (List.mem_of_find?_eq_some hfind)
  exact ⟨kind, hfp ▸ hkind, hsuits⟩

/-- The replacing branch is taken for every open stream without a fixed buffer. -/
theorem replaces_iff {kind : Bool} (hkind : s.kind fp = some kind) :
    Replaces a fp entry s ↔ a.tells = true ∧ a.buffer = true ∧ entry.fixedBuf = none := by
  unfold Replaces
  unfold State.kind at hkind
  obtain ⟨stream, hstream, -⟩ := Option.map_eq_some_iff.mp hkind
  have htell : (∃ byteCount, stream.tell a = some byteCount) ↔ a.tells = true := by
    cases stream <;> simp [Stream.tell]
  constructor
  · rintro ⟨stream', byteCount, hstream', hcount, hfixed, hbuffer⟩
    obtain rfl := Option.some.inj (hstream.symm.trans hstream')
    exact ⟨htell.mp ⟨byteCount, hcount⟩, hbuffer, hfixed⟩
  · rintro ⟨htells, hbuffer, hfixed⟩
    obtain ⟨byteCount, hcount⟩ := htell.mpr htells
    exact ⟨stream, byteCount, hstream, hcount, hfixed, hbuffer⟩

/-- `fflush(fp)` comes to the replacing branch with an entry. -/
def FlushReplaces (a : Answers) (fp : ℕ) (entry : Entry) (s : State) : Prop :=
  s.registry.find? (·.fp = fp) = some entry ∧ Replaces a fp entry s

/-- `fclose(fp)` does, which takes the entry out first and sorts streams for reading out. -/
def CloseReplaces (a : Answers) (fp : ℕ) (entry : Entry) (s : State) : Prop :=
  (memstreamRemove fp s).1 = some entry ∧ ¬ (entry.fixedBuf = none ∧ entry.ptr = none) ∧
    Replaces a fp entry (memstreamRemove fp s).2

/-- `fclose` replaces a buffer only through slots that are there; `fflush` does unless the
stream is one for reading whose position `ftell` tells while there is memory for a buffer. -/
theorem replacing_slots_iff (s : State) (hs : Reached s) (a : Answers) (fp : ℕ)
    (hregistered : ∃ e ∈ s.registry, e.fp = fp) :
    (∀ entry, CloseReplaces a fp entry s → entry.ptr ≠ none ∧ entry.sizeloc ≠ none) ∧
    ((∀ entry, FlushReplaces a fp entry s → entry.ptr ≠ none ∧ entry.sizeloc ≠ none) ↔
      ¬ (ForReading s fp ∧ a.tells = true ∧ a.buffer = true)) := by
  obtain ⟨entry, hfind⟩ : ∃ entry, s.registry.find? (·.fp = fp) = some entry := by
    apply Option.isSome_iff_exists.mp
    simpa using hregistered
  obtain ⟨kind, hkind, hsuits⟩ := hs.kept.find hfind
  have hreplaces := @replaces_iff a fp entry s kind hkind
  have hslots : ∀ entry', s.registry.find? (·.fp = fp) = some entry' → entry' = entry :=
    fun entry' hfind' => Option.some.inj (hfind'.symm.trans hfind)
  refine ⟨?_, ?_⟩
  · rintro entry' ⟨hfind', hkindly, hrepl⟩
    obtain rfl := hslots entry' hfind'
    have hfixed : entry'.fixedBuf = none := by
      obtain ⟨-, -, -, -, hfixed, -⟩ := hrepl
      exact hfixed
    cases kind with
    | true => exact hsuits hfixed
    | false => exact absurd ⟨hfixed, hsuits.1⟩ hkindly
  · rw [forReading_iff, hkind]
    cases kind with
    | true =>
      refine iff_of_true ?_ (by simp)
      rintro entry' ⟨hfind', hrepl⟩
      obtain rfl := hslots entry' hfind'
      exact hsuits (hreplaces.mp hrepl).2.2
    | false =>
      obtain ⟨hptr, hfixed⟩ := hsuits
      constructor
      · rintro hall ⟨-, htells, hbuffer⟩
        exact (hall entry ⟨hfind, hreplaces.mpr ⟨htells, hbuffer, hfixed⟩⟩).1 hptr
      · rintro hnot entry' ⟨hfind', hrepl⟩
        obtain rfl := hslots entry' hfind'
        obtain ⟨htells, hbuffer, -⟩ := hreplaces.mp hrepl
        exact absurd ⟨rfl, htells, hbuffer⟩ hnot

/-- Descriptor 3 and stream 7 for a stream over memory; all of it was read, so that `ftell`
says 0. -/
def readAnswers : Answers where
  devnull := some 3
  fdopen := some 7
  tmpfile := none
  entry := true
  tells := true
  told := 0
  buffer := true
  fresh _ := 0

def readCall : Call := .fmemopen readAnswers (some 100) 1 (some (CString.ofString "r"))

/-- The state after `fmemopen(buf, 1, "r")`. -/
def readState : State := (fmemopen readAnswers (some 100) 1 (some (CString.ofString "r")) blank).2.2

theorem reached_readState : Reached readState :=
  .step readCall (.start blank rfl) ⟨fun _ _ => rfl, fun _ _ => rfl⟩ rfl

theorem replacing_slots_iff_reading :
    (∀ entry, CloseReplaces readAnswers 7 entry readState →
      entry.ptr ≠ none ∧ entry.sizeloc ≠ none) ∧
    ((∀ entry, FlushReplaces readAnswers 7 entry readState →
        entry.ptr ≠ none ∧ entry.sizeloc ≠ none) ↔
      ¬ (ForReading readState 7 ∧ readAnswers.tells = true ∧ readAnswers.buffer = true)) :=
  replacing_slots_iff readState reached_readState readAnswers 7
    ⟨⟨7, none, none, none, 0⟩, List.mem_cons_self, rfl⟩

/-- `fflush` of a stream for reading frees and stores through null pointers. -/
theorem fflush_follows_null :
    Reached readState ∧ FlushReplaces readAnswers 7 ⟨7, none, none, none, 0⟩ readState ∧
      Memstream.fflush readAnswers (some 7) readState = none :=
  ⟨reached_readState, ⟨rfl, .preloaded 3, 0, rfl, rfl, rfl, rfl⟩, rfl⟩

end Null

end Solcompat.Memstream
