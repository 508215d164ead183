import Solcompat.Lib.Ledger
import Solcompat.Memstream.Model

/-!
# `open_memstream` over whole runs

Any number of streams are opened, written, flushed and closed in any order, and no call of
the C library fails. What a client may rely on is kept beside the state: for each open
stream its two cells and the bytes written to it, and the buffers that were left to the
client by `fclose`.
-/

namespace Solcompat.Memstream

open Solcompat.Lib

structure Writer where
  ptr : ℕ
  sizeloc : ℕ
  written : List UInt8

structure Run where
  state : State
  writers : ℕ → Option Writer
  left : List ℕ

/-- A call. `tmpfile` chooses `fp`, and `fresh` is what an allocated buffer holds at first. -/
inductive Event
  | opened (fp ptr sizeloc : ℕ)
  | write (fp : ℕ) (data : List UInt8)
  | flush (fp : ℕ) (fresh : ℕ → UInt8)
  | flushAll
  | close (fp : ℕ) (fresh : ℕ → UInt8)

def Answers.good (fp : ℕ) (fresh : ℕ → UInt8) : Answers where
  devnull := none
  fdopen := none
  tmpfile := some fp
  entry := true
  tells := true
  told := 0
  buffer := true
  fresh := fresh

def step (r : Run) : Event → Option Run
  | .opened fp ptr sizeloc =>
    some { r with
      state := (openMemstream (.good fp fun _ => 0) ptr sizeloc r.state).2
      writers := Function.update r.writers fp (some ⟨ptr, sizeloc, []⟩) }
  | .write fp data =>
    some { r with
      state := fwrite fp data r.state
      writers := Function.update r.writers fp
        ((r.writers fp).map fun w => { w with written := w.written ++ data }) }
  | .flush fp fresh =>
    (fflush (.good fp fresh) (some fp) r.state).map fun state => { r with state }
  | .flushAll => (fflush (.good 0 fun _ => 0) none r.state).map fun state => { r with state }
  | .close fp fresh =>
    (fclose (.good fp fresh) fp r.state).map fun state =>
      { state
        writers := Function.update r.writers fp none
        left := ((r.writers fp).bind fun w => state.pointers w.ptr).toList ++ r.left }

/-- `tmpfile` gives a `FILE` that is not in use, each open stream has cells of its own, and the
other calls are for open streams. -/
def Allowed (r : Run) : Event → Prop
  | .opened fp ptr sizeloc =>
    r.state.streams fp = none ∧
      ∀ fp' w, r.writers fp' = some w → w.ptr ≠ ptr ∧ w.sizeloc ≠ sizeloc
  | .write fp _ | .flush fp _ | .close fp _ => (r.writers fp).isSome
  | .flushAll => True

/-- The entry that `open_memstream` makes. -/
def Writer.entry (w : Writer) (fp : ℕ) : Entry := ⟨fp, some w.ptr, some w.sizeloc, none, 0⟩

def Run.ledger (r : Run) : Ledger ℕ where
  held fp := (r.writers fp).bind fun w => r.state.pointers w.ptr
  left := r.left
  issued := r.state.blocks.length
  frees := r.state.frees

structure Run.Inv (r : Run) : Prop where
  stream : ∀ fp w, r.writers fp = some w →
    r.state.streams fp = some (.tmp ⟨w.written, w.written.length⟩)
  closed : ∀ fp, r.writers fp = none → r.state.streams fp = none
  registered : ∀ e, e ∈ r.state.registry ↔ ∃ w, r.writers e.fp = some w ∧ e = w.entry e.fp
  nodup : (r.state.registry.map Entry.fp).Nodup
  apart : ∀ fp fp' w w', r.writers fp = some w → r.writers fp' = some w' → fp ≠ fp' →
    w.ptr ≠ w'.ptr ∧ w.sizeloc ≠ w'.sizeloc
  balanced : r.ledger.Balanced

section Sync

variable {s : State} {fp : ℕ} {content : List UInt8}

theorem newBuf_eq (content : List UInt8) (fresh : ℕ → UInt8) :
    ((List.range (content.length + 1)).map fun i =>
      if i = content.length then 0 else content.getD i (fresh i)) = content ++ [0] := by
  apply List.ext_getElem
  · simp
  · intro i hi hi'
    rw [List.length_append, List.length_singleton] at hi'
    by_cases hlast : i = content.length
    · simp [hlast]
    · have hlt : i < content.length := by omega
      simp [hlast, hlt]

/-- The state once all that was written to a stream is copied. -/
def State.synced (s : State) (w : Writer) : State :=
  { s with
    frees := Ledger.release s.frees (s.pointers w.ptr)
    pointers := Function.update s.pointers w.ptr (some s.blocks.length)
    sizes := Function.update s.sizes w.sizeloc w.written.length
    blocks := s.blocks ++ [w.written ++ [0]] }

/-- Copying a stream that stands at its end: a new buffer with all that was written, the old one
freed, and the stream as it was. -/
theorem memstreamSync_eq (fresh : ℕ → UInt8) {w : Writer}
    (h : s.streams fp = some (.tmp ⟨w.written, w.written.length⟩)) :
    memstreamSync (.good fp fresh) fp (w.entry fp) s = some (s.synced w) := by
  have hsame : Function.update s.streams fp (some (.tmp ⟨w.written, w.written.length⟩)) =
      s.streams := by
    rw [← h, Function.update_eq_self]
  simp only [memstreamSync, h, Stream.tell, Answers.good, if_true, Writer.entry, Bool.not_true,
    Bool.false_eq_true, if_false, Option.some.injEq]
  simp only [syncGrowing, Stream.seek, ByteFile.seek, Stream.read, ByteFile.read, List.drop_zero,
    List.take_length, newBuf_eq, State.setStream]
  cases hptr : s.pointers w.ptr with
  | none => simp only [State.free, State.synced, Ledger.release, hsame, hptr]
  | some b => simp only [State.free, State.synced, Ledger.release, hsame, hptr]

end Sync

section Registry

variable {r : Run} {fp : ℕ} {w : Writer}

theorem Run.Inv.find_entry (h : r.Inv) (hw : r.writers fp = some w) :
    r.state.registry.find? (·.fp = fp) = some (w.entry fp) := by
  have hmem : w.entry fp ∈ r.state.registry := (h.registered _).mpr ⟨w, hw, rfl⟩
  cases hfind : r.state.registry.find? (·.fp = fp) with
  | none =>
    have hne : (w.entry fp).fp ≠ fp := by simpa using List.find?_eq_none.mp hfind _ hmem
    exact absurd rfl hne
  | some e =>
    have hfp : e.fp = fp := by simpa using List.find?_some hfind
    obtain ⟨w', hw', he⟩ := (h.registered e).mp (List.mem_of_find?_eq_some hfind)
    rw [hfp] at hw' he
    rw [he, Option.some.inj (hw'.symm.trans hw)]

/-- With distinct streams the registry loses exactly the entry of the stream. -/
theorem eraseP_eq_filter (entries : List Entry) (h : (entries.map Entry.fp).Nodup) (fp : ℕ) :
    entries.eraseP (·.fp = fp) = entries.filter (·.fp ≠ fp) := by
  induction entries with
  | nil => rfl
  | cons e entries ih =>
    rw [List.map_cons, List.nodup_cons] at h
    by_cases he : e.fp = fp
    · rw [List.eraseP_cons_of_pos (by simpa using he), List.filter_cons_of_neg (by simpa using he)]
      refine (List.filter_eq_self.mpr fun e' he' => ?_).symm
      simp only [decide_eq_true_eq, ne_eq]
      exact fun hfp => h.1 (List.mem_map.mpr ⟨e', he', hfp.trans he.symm⟩)
    · rw [List.eraseP_cons_of_neg (by simpa using he), List.filter_cons_of_pos (by simpa using he),
        ih h.2]

def State.closed (s : State) (fp : ℕ) (w : Writer) : State :=
  { s.synced w with
    registry := s.registry.filter (·.fp ≠ fp)
    streams := Function.update s.streams fp none }

theorem Run.Inv.fflush_eq (h : r.Inv) (hw : r.writers fp = some w) (fresh : ℕ → UInt8) :
    fflush (.good fp fresh) (some fp) r.state = some (r.state.synced w) := by
  rw [fflush, h.find_entry hw]
  exact memstreamSync_eq fresh (h.stream fp w hw)

theorem Run.Inv.fclose_eq (h : r.Inv) (hw : r.writers fp = some w) (fresh : ℕ → UInt8) :
    fclose (.good fp fresh) fp r.state = some (r.state.closed fp w) := by
  have hstream := h.stream fp w hw
  have hsync : memstreamSync (.good fp fresh) fp (w.entry fp)
      { r.state with registry := r.state.registry.eraseP (·.fp = fp) } = _ :=
    memstreamSync_eq fresh hstream
  simp only [fclose, memstreamRemove, h.find_entry hw]
  rw [if_neg (by simp [Writer.entry]), hsync, Option.map_some, Option.some.injEq]
  simp only [realFclose, State.synced, hstream, State.setStream, State.closed,
    eraseP_eq_filter _ h.nodup]

end Registry

section Steps

variable {r : Run} {fp : ℕ} {w : Writer}

theorem ledger_eq {r : Run} {l : Ledger ℕ} (hheld : ∀ fp, r.ledger.held fp = l.held fp)
    (hleft : r.left = l.left) (hissued : r.state.blocks.length = l.issued)
    (hfrees : r.state.frees = l.frees) : r.ledger = l := by
  cases l
  simp only [Run.ledger] at *
  rw [Ledger.mk.injEq]
  exact ⟨funext hheld, hleft, hissued, hfrees⟩

theorem Run.Inv.ledger_synced (h : r.Inv) (hw : r.writers fp = some w) :
    Run.ledger { r with state := r.state.synced w } = r.ledger.replace fp := by
  apply ledger_eq
  · intro fp'
    by_cases hfp : fp' = fp
    · simp [hfp, hw, Run.ledger, Ledger.replace, State.synced]
    · simp only [Ledger.replace, Function.update_of_ne hfp, Run.ledger, State.synced]
      cases hw' : r.writers fp' with
      | none => rfl
      | some w' =>
        have hne := (h.apart fp' fp w' w hw' hw hfp).1
        simp only [Option.bind_some, Function.update_of_ne hne]
  · rfl
  · simp [Run.ledger, State.synced, Ledger.replace]
  · simp [Run.ledger, State.synced, Ledger.replace, hw]

theorem Run.Inv.flush (h : r.Inv) (hw : r.writers fp = some w) :
    Run.Inv { r with state := r.state.synced w } where
  stream := h.stream
  closed := h.closed
  registered := h.registered
  nodup := h.nodup
  apart := h.apart
  balanced := by
    rw [h.ledger_synced hw]
    exact h.balanced.replace fp

def Run.closed (r : Run) (fp : ℕ) (w : Writer) : Run where
  state := r.state.closed fp w
  writers := Function.update r.writers fp none
  left := [r.state.blocks.length] ++ r.left

theorem Run.Inv.ledger_closed (h : r.Inv) (hw : r.writers fp = some w) :
    (r.closed fp w).ledger = (r.ledger.replace fp).handOver fp := by
  rw [← h.ledger_synced hw]
  apply ledger_eq
  · intro fp'
    by_cases hfp : fp' = fp
    · simp [hfp, Run.ledger, Run.closed, Ledger.handOver]
    · simp [hfp, Run.ledger, Run.closed, Ledger.handOver, State.closed]
  · simp [Run.closed, Ledger.handOver, Run.ledger, hw, State.synced]
  · rfl
  · rfl

theorem writers_closed {fp' : ℕ} {w' : Writer} (hw' : (r.closed fp w).writers fp' = some w') :
    fp' ≠ fp ∧ r.writers fp' = some w' := by
  have hfp : fp' ≠ fp := by
    rintro rfl
    simp [Run.closed] at hw'
  simp only [Run.closed, Function.update_of_ne hfp] at hw'
  exact ⟨hfp, hw'⟩

theorem Run.Inv.close (h : r.Inv) (hw : r.writers fp = some w) : (r.closed fp w).Inv where
  stream fp' w' hw' := by
    obtain ⟨hfp, hold⟩ := writers_closed hw'
    simp only [Run.closed, State.closed, Function.update_of_ne hfp]
    exact h.stream fp' w' hold
  closed fp' hw' := by
    by_cases hfp : fp' = fp
    · simp [hfp, Run.closed, State.closed]
    · simp only [Run.closed, Function.update_of_ne hfp] at hw'
      simp only [Run.closed, State.closed, Function.update_of_ne hfp]
      exact h.closed fp' hw'
  registered e := by
    by_cases hfp : e.fp = fp
    · simp [Run.closed, State.closed, hfp]
    · simp only [Run.closed, State.closed, List.mem_filter, h.registered e, ne_eq, hfp,
        not_false_eq_true, decide_true, and_true, Function.update_of_ne hfp]
  nodup := h.nodup.sublist (List.filter_sublist.map _)
  apart fp₁ fp₂ w₁ w₂ hw₁ hw₂ hne :=
    h.apart fp₁ fp₂ w₁ w₂ (writers_closed hw₁).2 (writers_closed hw₂).2 hne
  balanced := by
    rw [h.ledger_closed hw]
    exact (h.balanced.replace fp).handOver fp

def Run.wrote (r : Run) (fp : ℕ) (w : Writer) (data : List UInt8) : Run :=
  { r with
    state := r.state.setStream fp
      (some (.tmp ⟨w.written ++ data, (w.written ++ data).length⟩))
    writers := Function.update r.writers fp (some { w with written := w.written ++ data }) }

theorem Run.Inv.fwrite_eq (h : r.Inv) (hw : r.writers fp = some w) (data : List UInt8) :
    fwrite fp data r.state = (r.wrote fp w data).state := by
  simp only [fwrite, h.stream fp w hw, Run.wrote, ByteFile.write, overwrite_end,
    List.length_append]

theorem wrote_cells (hw : r.writers fp = some w) {data : List UInt8} {fp' : ℕ} {w' : Writer}
    (hw' : (r.wrote fp w data).writers fp' = some w') :
    ∃ w₀, r.writers fp' = some w₀ ∧ w₀.ptr = w'.ptr ∧ w₀.sizeloc = w'.sizeloc := by
  by_cases hfp : fp' = fp
  · simp only [Run.wrote, hfp, Function.update_self, Option.some.injEq] at hw'
    exact ⟨w, by rw [hfp, hw], by rw [← hw'], by rw [← hw']⟩
  · simp only [Run.wrote, Function.update_of_ne hfp] at hw'
    exact ⟨w', hw', rfl, rfl⟩

theorem Run.Inv.write (h : r.Inv) (hw : r.writers fp = some w) (data : List UInt8) :
    (r.wrote fp w data).Inv where
  stream fp' w' hw' := by
    by_cases hfp : fp' = fp
    · simp only [Run.wrote, hfp, Function.update_self, Option.some.injEq] at hw'
      simp [Run.wrote, State.setStream, hfp, ← hw']
    · simp only [Run.wrote, Function.update_of_ne hfp] at hw'
      simp only [Run.wrote, State.setStream, Function.update_of_ne hfp]
      exact h.stream fp' w' hw'
  closed fp' hw' := by
    have hfp : fp' ≠ fp := by
      rintro rfl
      simp [Run.wrote] at hw'
    simp only [Run.wrote, Function.update_of_ne hfp] at hw'
    simp only [Run.wrote, State.setStream, Function.update_of_ne hfp]
    exact h.closed fp' hw'
  registered e := by
    by_cases hfp : e.fp = fp
    · simp [Run.wrote, State.setStream, h.registered e, hfp, hw, Writer.entry]
    · simp [Run.wrote, State.setStream, h.registered e, Function.update_of_ne hfp]
  nodup := h.nodup
  apart fp₁ fp₂ w₁ w₂ hw₁ hw₂ hne := by
    obtain ⟨v₁, hv₁, hptr₁, hsize₁⟩ := wrote_cells hw hw₁
    obtain ⟨v₂, hv₂, hptr₂, hsize₂⟩ := wrote_cells hw hw₂
    rw [← hptr₁, ← hptr₂, ← hsize₁, ← hsize₂]
    exact h.apart fp₁ fp₂ v₁ v₂ hv₁ hv₂ hne
  balanced := by
    have hledger : (r.wrote fp w data).ledger = r.ledger := by
      apply ledger_eq
      · intro fp'
        by_cases hfp : fp' = fp
        · simp [hfp, Run.ledger, Run.wrote, hw, State.setStream]
        · simp [hfp, Run.ledger, Run.wrote, State.setStream]
      all_goals rfl
    rw [hledger]
    exact h.balanced

def Run.opened (r : Run) (fp ptr sizeloc : ℕ) : Run :=
  { r with
    state := { r.state with
      streams := Function.update r.state.streams fp (some (.tmp .empty))
      pointers := Function.update r.state.pointers ptr none
      sizes := Function.update r.state.sizes sizeloc 0
      registry := Writer.entry ⟨ptr, sizeloc, []⟩ fp :: r.state.registry }
    writers := Function.update r.writers fp (some ⟨ptr, sizeloc, []⟩) }

theorem Run.Inv.opened (h : r.Inv) {ptr sizeloc : ℕ} (hfp : r.state.streams fp = none)
    (hcells : ∀ fp' w, r.writers fp' = some w → w.ptr ≠ ptr ∧ w.sizeloc ≠ sizeloc) :
    (r.opened fp ptr sizeloc).Inv := by
  have hnone : r.writers fp = none := by
    cases hw : r.writers fp with
    | none => rfl
    | some w => exact absurd (h.stream fp w hw) (by simp [hfp])
  refine ⟨fun fp' w' hw' => ?_, fun fp' hw' => ?_, fun e => ?_, ?_, ?_, ?_⟩
  · by_cases hfp' : fp' = fp
    · simp only [Run.opened, hfp', Function.update_self, Option.some.injEq] at hw'
      simp [Run.opened, hfp', ← hw', ByteFile.empty]
    · simp only [Run.opened, Function.update_of_ne hfp'] at hw'
      simp only [Run.opened, Function.update_of_ne hfp']
      exact h.stream fp' w' hw'
  · have hfp' : fp' ≠ fp := by
      rintro rfl
      simp [Run.opened] at hw'
    simp only [Run.opened, Function.update_of_ne hfp'] at hw'
    simp only [Run.opened, Function.update_of_ne hfp']
    exact h.closed fp' hw'
  · by_cases hfp' : e.fp = fp
    · have hnot : e ∉ r.state.registry := fun he => by
        obtain ⟨w, hw, -⟩ := (h.registered e).mp he
        rw [hfp', hnone] at hw
        exact absurd hw (by simp)
      simp [Run.opened, hfp', hnot]
    · have hne : e ≠ Writer.entry ⟨ptr, sizeloc, []⟩ fp := fun he => hfp' (by rw [he]; rfl)
      simp [Run.opened, Function.update_of_ne hfp', h.registered e, hne]
  · refine List.nodup_cons.mpr ⟨fun hmem => ?_, h.nodup⟩
    obtain ⟨e, he, hefp⟩ := List.mem_map.mp hmem
    obtain ⟨w, hw, -⟩ := (h.registered e).mp he
    rw [hefp] at hw
    exact absurd (hnone.symm.trans hw) (by simp)
  · intro fp₁ fp₂ w₁ w₂ hw₁ hw₂ hne
    simp only [Run.opened] at hw₁ hw₂
    by_cases hfp₁ : fp₁ = fp
    · have hfp₂ : fp₂ ≠ fp := fun hfp₂ => hne (hfp₁.trans hfp₂.symm)
      simp only [hfp₁, Function.update_self, Option.some.injEq] at hw₁
      rw [Function.update_of_ne hfp₂] at hw₂
      obtain ⟨hptr, hsize⟩ := hcells fp₂ w₂ hw₂
      exact hw₁ ▸ ⟨hptr.symm, hsize.symm⟩
    · rw [Function.update_of_ne hfp₁] at hw₁
      by_cases hfp₂ : fp₂ = fp
      · simp only [hfp₂, Function.update_self, Option.some.injEq] at hw₂
        exact hw₂ ▸ hcells fp₁ w₁ hw₁
      · rw [Function.update_of_ne hfp₂] at hw₂
        exact h.apart fp₁ fp₂ w₁ w₂ hw₁ hw₂ hne
  · have hledger : (r.opened fp ptr sizeloc).ledger = r.ledger := by
      apply ledger_eq
      · intro fp'
        by_cases hfp' : fp' = fp
        · simp [hfp', Run.ledger, Run.opened, hnone]
        · simp only [Run.ledger, Run.opened, Function.update_of_ne hfp']
          cases hw : r.writers fp' with
          | none => rfl
          | some w => simp [Function.update_of_ne (hcells fp' w hw).1]
      all_goals rfl
    rw [hledger]
    exact h.balanced

end Steps

/-- The cells that a call may store to. -/
def Event.cells (r : Run) : Event → Option (ℕ × ℕ)
  | .opened _ ptr sizeloc => some (ptr, sizeloc)
  | .flush fp _ | .close fp _ => (r.writers fp).map fun w => (w.ptr, w.sizeloc)
  | .write _ _ | .flushAll => none

def Event.copied : Event → Option ℕ
  | .flush fp _ | .close fp _ => some fp
  | _ => none

/-- What one call does to cells and buffers: it copies all that was written to the stream flushed
or closed, and leaves the cells and the buffers of the others. -/
structure Effect (r : Run) (event : Event) (s : State) : Prop where
  copied : ∀ fp w, event.copied = some fp → r.writers fp = some w →
    ∃ b, s.pointers w.ptr = some b ∧ s.blocks[b]? = some (w.written ++ [0]) ∧
      s.frees b = 0 ∧ s.sizes w.sizeloc = w.written.length
  pointers : ∀ p, (∀ c, event.cells r = some c → p ≠ c.1) → s.pointers p = r.state.pointers p
  sizes : ∀ z, (∀ c, event.cells r = some c → z ≠ c.2) → s.sizes z = r.state.sizes z
  blocks : r.state.blocks <+: s.blocks

/-- What holds between two calls: there is one entry for each open stream, a buffer that is held
or left to a client is live, and every other one was freed once. -/
structure Ordered (r : Run) : Prop where
  nodup : (r.state.registry.map Entry.fp).Nodup
  registered : ∀ fp, fp ∈ r.state.registry.map Entry.fp ↔ (r.writers fp).isSome
  live : ∀ b, r.ledger.Live b → r.state.frees b = 0
  superseded : ∀ b < r.state.blocks.length, ¬ r.ledger.Live b → r.state.frees b = 1

section Runs

variable {r r' : Run} {event : Event}

theorem Run.Inv.mem_registry (h : r.Inv) (fp : ℕ) :
    fp ∈ r.state.registry.map Entry.fp ↔ (r.writers fp).isSome := by
  constructor
  · intro hmem
    obtain ⟨e, he, rfl⟩ := List.mem_map.mp hmem
    obtain ⟨w, hw, -⟩ := (h.registered e).mp he
    rw [hw, Option.isSome_some]
  · intro hsome
    obtain ⟨w, hw⟩ := Option.isSome_iff_exists.mp hsome
    exact List.mem_map.mpr ⟨w.entry fp, (h.registered _).mpr ⟨w, hw, rfl⟩, rfl⟩

theorem step_cases (h : r.Inv) (hallowed : Allowed r event) :
    (∃ fp ptr sizeloc, event = .opened fp ptr sizeloc ∧
      step r event = some (r.opened fp ptr sizeloc)) ∨
    (∃ fp w data, event = .write fp data ∧ r.writers fp = some w ∧
      step r event = some (r.wrote fp w data)) ∨
    (event = .flushAll ∧ step r event = some r) ∨
    (∃ fp w fresh, event = .flush fp fresh ∧ r.writers fp = some w ∧
      step r event = some { r with state := r.state.synced w }) ∨
    (∃ fp w fresh, event = .close fp fresh ∧ r.writers fp = some w ∧
      step r event = some (r.closed fp w)) := by
  cases event with
  | opened fp ptr sizeloc => exact .inl ⟨fp, ptr, sizeloc, rfl, rfl⟩
  | write fp data =>
    obtain ⟨w, hw⟩ := Option.isSome_iff_exists.mp hallowed
    refine .inr (.inl ⟨fp, w, data, rfl, hw, ?_⟩)
    rw [step, h.fwrite_eq hw, hw]
    rfl
  | flushAll => exact .inr (.inr (.inl ⟨rfl, rfl⟩))
  | flush fp fresh =>
    obtain ⟨w, hw⟩ := Option.isSome_iff_exists.mp hallowed
    refine .inr (.inr (.inr (.inl ⟨fp, w, fresh, rfl, hw, ?_⟩)))
    rw [step, h.fflush_eq hw]
    rfl
  | close fp fresh =>
    obtain ⟨w, hw⟩ := Option.isSome_iff_exists.mp hallowed
    refine .inr (.inr (.inr (.inr ⟨fp, w, fresh, rfl, hw, ?_⟩)))
    rw [step, h.fclose_eq hw]
    simp [Run.closed, State.closed, State.synced, hw]

theorem step_inv (h : r.Inv) (hallowed : Allowed r event) :
    ∃ r', step r event = some r' ∧ r'.Inv := by
  obtain ⟨fp, ptr, sizeloc, rfl, hstep⟩ | ⟨fp, w, data, -, hw, hstep⟩ | ⟨-, hstep⟩ |
    ⟨fp, w, fresh, -, hw, hstep⟩ | ⟨fp, w, fresh, -, hw, hstep⟩ := step_cases h hallowed
  · exact ⟨_, hstep, h.opened hallowed.1 hallowed.2⟩
  · exact ⟨_, hstep, h.write hw data⟩
  · exact ⟨_, hstep, h⟩
  · exact ⟨_, hstep, h.flush hw⟩
  · exact ⟨_, hstep, h.close hw⟩

theorem Run.Inv.ordered (h : r.Inv) : Ordered r :=
  ⟨h.nodup, h.mem_registry, h.balanced.live, h.balanced.superseded⟩

theorem effect_synced (h : r.Inv) {fp : ℕ} {w : Writer} (hw : r.writers fp = some w)
    (hcopied : event.copied = some fp) (hcells : event.cells r = some (w.ptr, w.sizeloc)) :
    Effect r event (r.state.synced w) where
  copied fp' w' hfp' hw' := by
    obtain rfl : fp = fp' := Option.some.inj (hcopied.symm.trans hfp')
    obtain rfl : w = w' := Option.some.inj (hw.symm.trans hw')
    refine ⟨r.state.blocks.length, ?_, ?_, ?_, ?_⟩
    · simp [State.synced]
    · simp [State.synced]
    · refine (h.flush hw).balanced.live _ (.inr ⟨fp, ?_⟩)
      simp [Run.ledger, hw, State.synced]
    · simp [State.synced]
  pointers p hp := Function.update_of_ne (hp _ hcells) _ _
  sizes z hz := Function.update_of_ne (hz _ hcells) _ _
  blocks := List.prefix_append _ _

theorem step_effect (h : r.Inv) (hallowed : Allowed r event) (hstep : step r event = some r') :
    Effect r event r'.state := by
  obtain ⟨fp, ptr, sizeloc, rfl, hstep'⟩ | ⟨fp, w, data, rfl, hw, hstep'⟩ | ⟨rfl, hstep'⟩ |
    ⟨fp, w, fresh, rfl, hw, hstep'⟩ | ⟨fp, w, fresh, rfl, hw, hstep'⟩ := step_cases h hallowed
  all_goals obtain rfl := Option.some.inj (hstep.symm.trans hstep')
  · refine ⟨fun _ _ hfp => absurd hfp (by simp [Event.copied]), ?_, ?_, List.prefix_refl _⟩
    · exact fun p hp => Function.update_of_ne (hp _ rfl) _ _
    · exact fun z hz => Function.update_of_ne (hz _ rfl) _ _
  · exact ⟨fun _ _ hfp => absurd hfp (by simp [Event.copied]), fun _ _ => rfl, fun _ _ => rfl,
      List.prefix_refl _⟩
  · exact ⟨fun _ _ hfp => absurd hfp (by simp [Event.copied]), fun _ _ => rfl, fun _ _ => rfl,
      List.prefix_refl _⟩
  · exact effect_synced h hw rfl (by simp [Event.cells, hw])
  · -- Closing the file and dropping the entry touch neither cells nor buffers.
    have heffect : Effect r (.close fp fresh) (r.state.synced w) :=
      effect_synced h hw rfl (by simp [Event.cells, hw])
    exact ⟨heffect.copied, heffect.pointers, heffect.sizes, heffect.blocks⟩

/-- The calls in order; none if one of them would follow a null pointer. -/
def runEvents : List Event → Run → Option Run
  | [], r => some r
  | event :: events, r => (step r event).bind (runEvents events)

/-- Every call of the run is allowed when it is made. -/
def AllAllowed : List Event → Run → Prop
  | [], _ => True
  | event :: events, r => Allowed r event ∧ ∀ r', step r event = some r' → AllAllowed events r'

theorem runEvents_inv (events : List Event) (h : r.Inv) {event : Event}
    (hallowed : AllAllowed (events ++ [event]) r) :
    ∃ r', runEvents events r = some r' ∧ r'.Inv ∧ Allowed r' event := by
  induction events generalizing r with
  | nil => exact ⟨r, rfl, h, hallowed.1⟩
  | cons first events ih =>
    obtain ⟨r₁, hstep, hinv⟩ := step_inv h hallowed.1
    obtain ⟨r', hrun, hinv'⟩ := ih hinv (hallowed.2 r₁ hstep)
    exact ⟨r', by rw [runEvents, hstep]; exact hrun, hinv'⟩

def Run.start (s : State) : Run where
  state := { s with streams := fun _ => none, registry := [], blocks := [], frees := fun _ => 0 }
  writers := fun _ => none
  left := []

theorem inv_start (s : State) : (Run.start s).Inv where
  stream fp w hw := by simp [Run.start] at hw
  closed _ _ := rfl
  registered e := by simp [Run.start]
  nodup := List.nodup_nil
  apart fp fp' w w' hw := by simp [Run.start] at hw
  balanced := Ledger.balanced_empty

end Runs

/-- In every run, after every call: the stream that was flushed or closed is copied in full, the
cells and buffers of the others are as before, there is one entry for each open stream, and
every superseded buffer was freed exactly once. -/
theorem memstream_runs (s : State) (events : List Event) (event : Event)
    (hallowed : AllAllowed (events ++ [event]) (.start s)) :
    ∃ r r', runEvents events (.start s) = some r ∧ step r event = some r' ∧ Ordered r ∧
      Ordered r' ∧ Effect r event r'.state := by
  obtain ⟨r, hrun, hinv, hlast⟩ := runEvents_inv events (inv_start s) hallowed
  obtain ⟨r', hstep, hinv'⟩ := step_inv hinv hlast
  exact ⟨r, r', hrun, hstep, hinv.ordered, hinv'.ordered, step_effect hinv hlast hstep⟩

/-- A stream that is flushed between two writes. -/
def sampleEvents : List Event :=
  [.opened 3 0 0, .write 3 [1, 2], .flush 3 fun _ => 7, .write 3 [4]]

def blank : State where
  streams _ := none
  registry := []
  pointers _ := none
  sizes _ := 0
  blocks := []
  frees _ := 0
  memory _ := 0
  descriptors _ := false
  bufendtab _ := none

theorem memstream_runs_sample :
    ∃ r r', runEvents sampleEvents (.start blank) = some r ∧
      step r (.close 3 fun _ => 7) = some r' ∧ Ordered r ∧ Ordered r' ∧
      Effect r (.close 3 fun _ => 7) r'.state := by
  apply memstream_runs blank sampleEvents
  refine ⟨⟨rfl, fun _ _ h => absurd h (by simp [Run.start])⟩, fun r₁ h₁ => ?_⟩
  obtain rfl := Option.some.inj h₁
  refine ⟨rfl, fun r₂ h₂ => ?_⟩
  obtain rfl := Option.some.inj h₂
  refine ⟨rfl, fun r₃ h₃ => ?_⟩
  rw [step] at h₃
  obtain ⟨s₃, -, rfl⟩ := Option.map_eq_some_iff.mp h₃
  refine ⟨rfl, fun r₄ h₄ => ?_⟩
  obtain rfl := Option.some.inj h₄
  exact ⟨rfl, fun _ _ => trivial⟩

end Solcompat.Memstream
