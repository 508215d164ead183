import Solcompat.Memstream.Growing

/-!
# `fmemopen` for writing and for appending

What a caller expects is an array of fixed size: for writing it is empty at first and a write
stores at the position, for appending the text in the buffer is kept and a write goes behind
it. The library collects the bytes in a temporary file, from its start in both modes, and
copies back as many as the position says. The two agree as long as nothing is to be kept or
nothing is written, appending writes are made at the end of the file, and the stream is closed
at the end of its data.
-/

namespace Solcompat.Memstream

open Solcompat.Lib

inductive Op
  | write (data : List UInt8)
  | seek (pos : ℕ)
  | flush

/-- Open, operate and close, with no failure of the C library. -/
def runOps (fp : ℕ) : List Op → State → Option State
  | [], s => some s
  | .write data :: ops, s => runOps fp ops (fwrite fp data s)
  | .seek pos :: ops, s => runOps fp ops (fseek fp pos s)
  | .flush :: ops, s => (fflush (.good fp fun _ => 0) (some fp) s).bind (runOps fp ops)

def session (fp : ℕ) (mode : CString) (buf size : ℕ) (ops : List Op) (s : State) :
    Option State :=
  match fmemopen (.good fp fun _ => 0) (some buf) size (some mode) s with
  | (some fp, _, s) => (runOps fp ops s).bind (fclose (.good fp fun _ => 0) fp)
  | (none, _, _) => none

section Abstract

/-- An array of fixed size: its bytes, the end of those stored, and the position. -/
structure FixedArray where
  bytes : Memory
  len : ℕ
  pos : ℕ

def textLength (m : Memory) (buf size : ℕ) : ℕ := ((m.bytes buf size).takeWhile (· ≠ 0)).length

def FixedArray.start (append : Bool) (m : Memory) (buf size : ℕ) : FixedArray :=
  if append then ⟨fun i => m (buf + i), textLength m buf size, textLength m buf size⟩
  else ⟨fun _ => 0, 0, 0⟩

def FixedArray.target (append : Bool) (a : FixedArray) : ℕ := if append then a.len else a.pos

/-- Store the bytes for which there is room from `target` on. -/
def FixedArray.store (size target : ℕ) (data : List UInt8) (a : FixedArray) : FixedArray :=
  let stored := data.take (size - target)
  ⟨a.bytes.putBytes target stored,
    if stored = [] then a.len else max a.len (target + stored.length),
    target + stored.length⟩

def Op.onArray (append : Bool) (size : ℕ) (a : FixedArray) : Op → FixedArray
  | .write data => a.store size (a.target append) data
  | .seek pos => { a with pos }
  | .flush => a

/-- The buffer holds what the array holds, and a null byte behind it if there is room. -/
def Agrees (buf size : ℕ) (a : FixedArray) (m : Memory) : Prop :=
  (∀ i < a.len, m (buf + i) = a.bytes i) ∧ (a.len < size → m (buf + a.len) = 0)

instance (buf size : ℕ) (a : FixedArray) (m : Memory) : Decidable (Agrees buf size a m) :=
  inferInstanceAs (Decidable (_ ∧ _))

end Abstract

/-- The temporary file, the memory of the process, and the array beside them. -/
structure Session where
  file : ByteFile
  memory : Memory
  array : FixedArray

/-- What `memstream_sync` does to the caller's buffer. -/
def copyBack (buf size : ℕ) (f : ByteFile) (m : Memory) : Memory :=
  let copyBytes := min f.pos size
  let m := m.putBytes buf (f.content.take copyBytes)
  if copyBytes < size then m.putBytes (buf + copyBytes) [0] else m

namespace Session

def start (append : Bool) (buf size : ℕ) (m : Memory) : Session where
  file := .empty
  memory := if append then m else m.putBytes buf (.replicate size 0)
  array := .start append m buf size

def step (append : Bool) (buf size : ℕ) (x : Session) (op : Op) : Session where
  file := match op with
    | .write data => x.file.write data
    | .seek pos => x.file.seek pos
    | .flush => x.file
  memory := match op with
    | .flush => copyBack buf size x.file x.memory
    | _ => x.memory
  array := op.onArray append size x.array

/-- An operation that the library handles as the array does: nothing is written over text that
is to be kept, or by appending at another place than the end, and text that is to be kept is
not cut by a copy from before its end. -/
def Calm (append : Bool) (size kept : ℕ) (x : Session) : Op → Prop
  | .write data => append = true → data ≠ [] → kept = 0 ∧ min x.file.pos size = x.array.len
  | .seek _ => True
  | .flush => kept ≤ x.file.pos

/-- The position at the end covers the data, and, for appending, it is the end of the data or the
null byte is in place already. -/
def CalmClose (append : Bool) (buf size : ℕ) (x : Session) : Prop :=
  x.array.len ≤ x.file.pos ∧
    (append = true → min x.file.pos size = x.array.len ∨ x.memory (buf + x.array.len) = 0)

def CalmRun (append : Bool) (buf size kept : ℕ) : List Op → Session → Prop
  | [], x => x.CalmClose append buf size
  | op :: ops, x => x.Calm append size kept op ∧
      CalmRun append buf size kept ops (x.step append buf size op)

end Session

section Code

variable {fp buf size : ℕ} {append : Bool} {s : State} {x : Session}

/-- The state of the library for an open stream: the file, the entry, which is the latest one, and
the memory. -/
structure Shows (fp buf size : ℕ) (x : Session) (s : State) : Prop where
  stream : s.streams fp = some (.tmp x.file)
  entry : s.registry.head? = some ⟨fp, none, none, some buf, size⟩
  memory : s.memory = x.memory

theorem memstreamSync_fixed {f : ByteFile} (h : s.streams fp = some (.tmp f)) :
    memstreamSync (.good fp fun _ => 0) fp ⟨fp, none, none, some buf, size⟩ s =
      some { s with memory := copyBack buf size f s.memory } := by
  have hsame : Function.update s.streams fp (some (.tmp ⟨f.content, f.pos⟩)) = s.streams := by
    rw [← h, Function.update_eq_self]
  simp only [memstreamSync, h, Stream.tell, Answers.good, if_true, syncFixed, Stream.seek,
    ByteFile.seek, Stream.read, ByteFile.read, List.drop_zero, State.setStream, hsame, copyBack]

theorem Shows.find_entry (h : Shows fp buf size x s) :
    s.registry.find? (·.fp = fp) = some ⟨fp, none, none, some buf, size⟩ := by
  obtain ⟨rest, hrest⟩ := List.head?_eq_some_iff.mp h.entry
  rw [hrest, List.find?_cons_of_pos (by simp)]

theorem Shows.step (h : Shows fp buf size x s) (append : Bool) (op : Op) :
    ∃ s', runOps fp [op] s = some s' ∧ Shows fp buf size (x.step append buf size op) s' := by
  cases op with
  | write data =>
    refine ⟨_, rfl, ?_, ?_, ?_⟩
    · simp [fwrite, h.stream, State.setStream, Session.step]
    · simpa [fwrite, h.stream, State.setStream] using h.entry
    · simpa [fwrite, h.stream, State.setStream, Session.step] using h.memory
  | seek pos =>
    refine ⟨_, rfl, ?_, ?_, ?_⟩
    · simp [fseek, h.stream, State.setStream, Session.step, Stream.seek]
    · simpa [fseek, State.setStream] using h.entry
    · simpa [fseek, State.setStream, Session.step] using h.memory
  | flush =>
    have hsync : fflush (.good fp fun _ => 0) (some fp) s =
        some { s with memory := copyBack buf size x.file s.memory } := by
      simp only [fflush, h.find_entry]
      exact memstreamSync_fixed h.stream
    refine ⟨{ s with memory := copyBack buf size x.file s.memory }, ?_, h.stream, h.entry, ?_⟩
    · simp only [runOps, hsync, Option.bind_some]
    · simp only [Session.step, h.memory]

theorem runOps_cons (op : Op) (ops : List Op) (s : State) :
    runOps fp (op :: ops) s = (runOps fp [op] s).bind (runOps fp ops) := by
  cases op with
  | write data => rfl
  | seek pos => rfl
  | flush => simp [runOps]

theorem Shows.run (h : Shows fp buf size x s) (append : Bool) (ops : List Op) :
    ∃ s', runOps fp ops s = some s' ∧
      Shows fp buf size (ops.foldl (Session.step append buf size) x) s' := by
  induction ops generalizing x s with
  | nil => exact ⟨s, rfl, h⟩
  | cons op ops ih =>
    obtain ⟨s₁, hs₁, h₁⟩ := h.step append op
    obtain ⟨s₂, hs₂, h₂⟩ := ih h₁
    exact ⟨s₂, by rw [runOps_cons, hs₁, Option.bind_some, hs₂], h₂⟩

theorem Shows.close (h : Shows fp buf size x s) :
    ∃ s', fclose (.good fp fun _ => 0) fp s = some s' ∧
      s'.memory = copyBack buf size x.file x.memory := by
  have hsync : memstreamSync (.good fp fun _ => 0) fp ⟨fp, none, none, some buf, size⟩
      { s with registry := s.registry.eraseP (·.fp = fp) } = _ :=
    memstreamSync_fixed h.stream
  simp only [fclose, memstreamRemove, h.find_entry, hsync, reduceCtorEq, false_and, if_false,
    Option.map_some, Option.some.injEq, exists_eq_left']
  simp only [realFclose, h.stream, State.setStream, h.memory]

theorem fmemopen_shows (s : State) (fp buf : ℕ) (hsize : 0 < size) {mode : CString}
    (hmode : mode.bytes.head? = some (if append then ch 'a' else ch 'w')) :
    ∃ s', fmemopen (.good fp fun _ => 0) (some buf) size (some mode) s = (some fp, none, s') ∧
      Shows fp buf size (.start append buf size s.memory) s' := by
  let s₁ : State := { s.setStream fp (some (.tmp .empty)) with
    registry := ⟨fp, none, none, some buf, size⟩ :: s.registry
    memory := (Session.start append buf size s.memory).memory }
  refine ⟨s₁, ?_, ?_, rfl, rfl⟩
  · simp only [fmemopen, hsize.ne', if_false, hmode]
    cases append with
    | true => simp [ch, fmemopenWrite, Answers.good, makeEntry, State.setStream, s₁, Session.start]
    | false => simp [ch, fmemopenWrite, Answers.good, makeEntry, State.setStream, s₁, Session.start]
  · simp [s₁, State.setStream, Session.start]

/-- A whole session: it succeeds, and the memory is what the last copy makes of it. -/
theorem session_eq (s : State) (fp buf : ℕ) (hsize : 0 < size) {mode : CString}
    (hmode : mode.bytes.head? = some (if append then ch 'a' else ch 'w')) (ops : List Op) :
    ∃ s', session fp mode buf size ops s = some s' ∧
      s'.memory =
        let x := ops.foldl (Session.step append buf size) (.start append buf size s.memory)
        copyBack buf size x.file x.memory := by
  obtain ⟨s₁, hopen, h₁⟩ := fmemopen_shows s fp buf hsize hmode
  obtain ⟨s₂, hrun, h₂⟩ := h₁.run append ops
  obtain ⟨s₃, hclose, hmemory⟩ := h₂.close
  refine ⟨s₃, ?_, hmemory⟩
  simp only [session, hopen, hrun, Option.bind_some, hclose]

end Code

section Copy

variable {buf size : ℕ} {f : ByteFile} {m : Memory}

theorem copyBack_apply (i : ℕ) :
    copyBack buf size f m (buf + i) =
      if i = min f.pos size ∧ i < size then 0
      else if i < min f.pos size ∧ i < f.content.length then f.content.getD i 0
      else m (buf + i) := by
  have hcopied : m.putBytes buf (f.content.take (min f.pos size)) (buf + i) =
      if i < min f.pos size ∧ i < f.content.length then f.content.getD i 0 else m (buf + i) := by
    simp only [Memory.putBytes, List.length_take, Nat.add_sub_cancel_left]
    split_ifs with hin hin' hin'
    · rw [List.getD_eq_getElem?_getD, List.getD_eq_getElem?_getD, List.getElem?_take_of_lt hin'.1]
    · omega
    · omega
    · rfl
  unfold copyBack
  by_cases hroom : min f.pos size < size
  · simp only [if_pos hroom]
    by_cases hlast : i = min f.pos size
    · rw [if_pos ⟨hlast, by omega⟩, hlast]
      simp [Memory.putBytes]
    · rw [Memory.putBytes_outside _ (by simp only [List.length_singleton]; omega), hcopied,
        if_neg fun h : i = min f.pos size ∧ i < size => hlast h.1]
  · simp only [if_neg hroom]
    rw [hcopied, if_neg (by omega : ¬ (i = min f.pos size ∧ i < size))]

theorem copyBack_outside {a : ℕ} (h : a < buf ∨ buf + size ≤ a) :
    copyBack buf size f m a = m a := by
  have hcopied : m.putBytes buf (f.content.take (min f.pos size)) a = m a := by
    apply Memory.putBytes_outside
    simp only [List.length_take]
    omega
  simp only [copyBack]
  split_ifs with hroom
  · rw [Memory.putBytes_outside _ (by simp only [List.length_singleton]; omega), hcopied]
  · exact hcopied

theorem foldl_step_outside (append : Bool) {a : ℕ} (h : a < buf ∨ buf + size ≤ a) (ops : List Op)
    (x : Session) : (ops.foldl (Session.step append buf size) x).memory a = x.memory a := by
  induction ops generalizing x with
  | nil => rfl
  | cons op ops ih =>
    rw [List.foldl_cons, ih]
    cases op with
    | write data => rfl
    | seek pos => rfl
    | flush => exact copyBack_outside h

theorem start_outside (append : Bool) {a : ℕ} (h : a < buf ∨ buf + size ≤ a) :
    (Session.start append buf size m).memory a = m a := by
  cases append with
  | true => rfl
  | false => exact m.putBytes_outside (by simp only [List.length_replicate]; omega)

end Copy

section Store

variable {size p q i : ℕ} {data content : List UInt8} {a : FixedArray}

theorem store_len :
    (a.store size q data).len =
      if min (size - q) data.length = 0 then a.len
      else max a.len (q + min (size - q) data.length) := by
  simp only [FixedArray.store, ← List.length_eq_zero_iff, List.length_take]

theorem store_bytes :
    (a.store size q data).bytes i =
      if q ≤ i ∧ i < q + min (size - q) data.length then data.getD (i - q) 0 else a.bytes i := by
  simp only [FixedArray.store, Memory.putBytes, List.length_take]
  split_ifs with hin
  · rw [List.getD_eq_getElem?_getD, List.getD_eq_getElem?_getD,
      List.getElem?_take_of_lt (by omega)]
  · rfl

/-- Within the buffer, the file and the array are written at the same places. -/
theorem getD_overwrite_of_lt (hpos : data.length = 0 ∨ min p size = min q size) (hi : i < size) :
    (overwrite content p data).getD i 0 =
      if q ≤ i ∧ i < q + min (size - q) data.length then data.getD (i - q) 0
      else content.getD i 0 := by
  rw [getD_overwrite]
  split_ifs with hin hin' hin'
  · have hpq : p = q := by omega
    rw [hpq]
  · omega
  · omega
  · rfl

theorem len_le_store_len : a.len ≤ (a.store size q data).len := by
  rw [store_len]
  split_ifs <;> omega

theorem store_len_le (h : a.len ≤ size) : (a.store size q data).len ≤ size := by
  rw [store_len]
  split_ifs <;> omega

theorem length_le_overwrite : content.length ≤ (overwrite content p data).length := by
  rw [length_overwrite]
  split_ifs <;> omega

theorem store_len_le_length (hpos : data.length = 0 ∨ min p size = min q size)
    (h : a.len ≤ content.length) :
    (a.store size q data).len ≤ (overwrite content p data).length := by
  rw [store_len, length_overwrite]
  simp only [← List.length_eq_zero_iff]
  split_ifs <;> omega

/-- Up to the new end the file and the array agree if they did up to the old one and in the gap
before the new bytes. -/
theorem store_agrees (hpos : data.length = 0 ∨ min p size = min q size) (hsize : a.len ≤ size)
    (hold : ∀ j < a.len, content.getD j 0 = a.bytes j)
    (hgap : ∀ j, a.len ≤ j → j < q → j < size → content.getD j 0 = a.bytes j)
    (hi : i < (a.store size q data).len) :
    (overwrite content p data).getD i 0 = (a.store size q data).bytes i := by
  have hlt : i < size := hi.trans_le (store_len_le hsize)
  rw [getD_overwrite_of_lt hpos hlt, store_bytes]
  split_ifs with hin
  · rfl
  · by_cases hlen : i < a.len
    · exact hold i hlen
    · rw [store_len] at hi
      refine hgap i (by omega) ?_ hlt
      split_ifs at hi <;> omega

theorem store_behind (hi : i < size) (hlen : (a.store size q data).len ≤ i) :
    ¬ (q ≤ i ∧ i < q + min (size - q) data.length) := by
  rw [store_len] at hlen
  split_ifs at hlen <;> omega

end Store

section Follow

variable {append : Bool} {buf size kept : ℕ} {x : Session}

/-- The file against the array when no text is to be kept. For appending the bytes of the array
behind its end are those of the caller; for writing they are zeros, as a gap in the file. -/
structure Follows (append : Bool) (buf size : ℕ) (x : Session) : Prop where
  len_le : x.array.len ≤ size
  len_le_length : x.array.len ≤ x.file.content.length
  bytes : ∀ i < x.array.len, x.file.content.getD i 0 = x.array.bytes i
  zeros : ∀ i, x.array.len ≤ i → i < size → x.file.content.getD i 0 = 0
  pos : append = false → min x.file.pos size = min x.array.pos size
  blank : append = false → ∀ i, x.array.len ≤ i → i < size → x.array.bytes i = 0
  clear : append = false → ∀ i, x.file.content.length ≤ i → i < size → x.memory (buf + i) = 0

theorem Follows.target (h : Follows append buf size x) {data : List UInt8}
    (hend : append = true → data ≠ [] → min x.file.pos size = x.array.len) :
    data.length = 0 ∨ min x.file.pos size = min (x.array.target append) size := by
  cases append with
  | false => exact .inr (h.pos rfl)
  | true =>
    by_cases hdata : data = []
    · exact .inl (by rw [hdata, List.length_nil])
    · right
      rw [hend rfl hdata, FixedArray.target, if_pos rfl, min_eq_left h.len_le]

/-- A gap is left only in writing, where both sides have zeros in it. -/
theorem Follows.gap (h : Follows append buf size x) (i : ℕ) (hlen : x.array.len ≤ i)
    (hi : i < x.array.target append) (hsize : i < size) :
    x.file.content.getD i 0 = x.array.bytes i := by
  cases append with
  | false => rw [h.zeros i hlen hsize, h.blank rfl i hlen hsize]
  | true =>
    rw [FixedArray.target, if_pos rfl] at hi
    omega

theorem Follows.write (h : Follows append buf size x) {data : List UInt8}
    (hend : append = true → data ≠ [] → min x.file.pos size = x.array.len) :
    Follows append buf size (x.step append buf size (.write data)) where
  len_le := store_len_le h.len_le
  len_le_length := store_len_le_length (h.target hend) h.len_le_length
  bytes i hi := store_agrees (h.target hend) h.len_le h.bytes h.gap hi
  zeros i hi hsize := by
    refine (getD_overwrite_of_lt (h.target hend) hsize).trans ?_
    rw [if_neg (store_behind hsize hi)]
    exact h.zeros i (len_le_store_len.trans hi) hsize
  pos hwrite := by
    have hp := h.pos hwrite
    simp only [Session.step, Op.onArray, ByteFile.write, FixedArray.store, FixedArray.target,
      hwrite, Bool.false_eq_true, if_false, List.length_take]
    omega
  blank hwrite i hi hsize := by
    refine store_bytes.trans ?_
    rw [if_neg (store_behind hsize hi)]
    exact h.blank hwrite i (len_le_store_len.trans hi) hsize
  clear hwrite i hi hsize := h.clear hwrite i (length_le_overwrite.trans hi) hsize

theorem Follows.step (h : Follows append buf size x) {op : Op}
    (hcalm : x.Calm append size kept op) : Follows append buf size (x.step append buf size op) := by
  cases op with
  | write data => exact h.write fun hmode hdata => (hcalm hmode hdata).2
  | seek pos => exact ⟨h.len_le, h.len_le_length, h.bytes, h.zeros, fun _ => rfl, h.blank, h.clear⟩
  | flush =>
    refine ⟨h.len_le, h.len_le_length, h.bytes, h.zeros, h.pos, h.blank, ?_⟩
    intro hwrite i hi hsize
    have hi : x.file.content.length ≤ i := hi
    simp only [Session.step, copyBack_apply]
    split_ifs with hlast hin
    · rfl
    · omega
    · exact h.clear hwrite i hi hsize

theorem Follows.close (h : Follows append buf size x) (hcalm : x.CalmClose append buf size) :
    Agrees buf size x.array (copyBack buf size x.file x.memory) := by
  have hlen := h.len_le
  have hlength := h.len_le_length
  obtain ⟨hcover, hnul⟩ := hcalm
  constructor
  · intro i hi
    rw [copyBack_apply, if_neg (by omega), if_pos (by omega), h.bytes i hi]
  · intro hroom
    rw [copyBack_apply]
    split_ifs with hlast hin
    · rfl
    · exact h.zeros _ le_rfl hroom
    · cases append with
      | false => exact h.clear rfl _ (by omega) hroom
      | true => exact (hnul rfl).resolve_left (by omega)

/-- Text that is to be kept, with nothing written: the buffer itself holds what the array does. -/
structure Keeps (buf size kept : ℕ) (x : Session) : Prop where
  len_eq : x.array.len = kept
  len_le : kept ≤ size
  content : x.file.content = []
  agrees : Agrees buf size x.array x.memory

theorem Keeps.copy (h : Keeps buf size kept x) (hpos : kept ≤ x.file.pos) :
    Agrees buf size x.array (copyBack buf size x.file x.memory) := by
  have hlen := h.len_le
  obtain ⟨hbytes, hnul⟩ := h.agrees
  rw [h.len_eq] at hbytes hnul
  rw [Agrees, h.len_eq]
  have hempty : ∀ i, ¬ i < x.file.content.length := by simp [h.content]
  constructor
  · intro i hi
    rw [copyBack_apply, if_neg (by omega), if_neg fun hin => hempty i hin.2, hbytes i hi]
  · intro hroom
    rw [copyBack_apply]
    split_ifs with hlast hin
    · rfl
    · exact absurd hin.2 (hempty _)
    · exact hnul hroom

theorem Keeps.step (h : Keeps buf size kept x) (hkept : 0 < kept) {op : Op}
    (hcalm : x.Calm true size kept op) : Keeps buf size kept (x.step true buf size op) := by
  cases op with
  | write data =>
    have hdata : data = [] := by
      by_contra hne
      exact hkept.ne' (hcalm rfl hne).1
    have hsame : (x.array.store size (x.array.target true) data).bytes = x.array.bytes := by
      rw [hdata, FixedArray.store, List.take_nil, Memory.putBytes_nil]
    have hlen : (x.array.store size (x.array.target true) data).len = x.array.len := by
      rw [hdata, FixedArray.store, List.take_nil, if_pos rfl]
    refine ⟨hlen.trans h.len_eq, h.len_le, ?_, ?_⟩
    · rw [hdata]
      exact h.content
    · simp only [Agrees, Session.step, Op.onArray, hsame, hlen]
      exact h.agrees
  | seek pos => exact ⟨h.len_eq, h.len_le, h.content, h.agrees⟩
  | flush => exact ⟨h.len_eq, h.len_le, h.content, h.copy hcalm⟩

/-- A run of calm operations, from a session that follows the array or keeps its text. -/
theorem agrees_of_follows (ops : List Op) (h : Follows append buf size x)
    (hcalm : x.CalmRun append buf size kept ops) :
    let y := ops.foldl (Session.step append buf size) x
    Agrees buf size y.array (copyBack buf size y.file y.memory) := by
  induction ops generalizing x with
  | nil => exact h.close hcalm
  | cons op ops ih => exact ih (h.step hcalm.1) hcalm.2

theorem agrees_of_keeps (ops : List Op) (h : Keeps buf size kept x) (hkept : 0 < kept)
    (hcalm : x.CalmRun true buf size kept ops) :
    let y := ops.foldl (Session.step true buf size) x
    Agrees buf size y.array (copyBack buf size y.file y.memory) := by
  induction ops generalizing x with
  | nil => exact h.copy (h.len_eq ▸ hcalm.1)
  | cons op ops ih => exact ih (h.step hkept hcalm.1) hcalm.2

end Follow

section Start

theorem getD_length_takeWhile (p : UInt8 → Bool) (bs : List UInt8)
    (h : (bs.takeWhile p).length < bs.length) : p (bs.getD (bs.takeWhile p).length 0) = false := by
  induction bs with
  | nil => simp at h
  | cons b bs ih =>
    by_cases hb : p b = true
    · rw [List.takeWhile_cons_of_pos hb, List.length_cons, List.length_cons] at h
      rw [List.takeWhile_cons_of_pos hb, List.length_cons, List.getD_cons_succ]
      exact ih (by omega)
    · rw [List.takeWhile_cons_of_neg hb]
      simpa using hb

variable (m : Memory) (buf size : ℕ)

theorem textLength_le : textLength m buf size ≤ size := by
  have h := (List.takeWhile_sublist (l := m.bytes buf size) (· ≠ 0)).length_le
  simpa [textLength, Memory.bytes] using h

theorem nul_at_textLength (h : textLength m buf size < size) :
    m (buf + textLength m buf size) = 0 := by
  have hlength : (m.bytes buf size).length = size := by simp [Memory.bytes]
  have hnul := getD_length_takeWhile (· ≠ 0) (m.bytes buf size) (by rw [hlength]; exact h)
  have hbyte : (m.bytes buf size).getD (textLength m buf size) 0 =
      m (buf + textLength m buf size) := by
    simp [Memory.bytes, h]
  rw [← hbyte]
  simpa [textLength] using hnul

/-- At first nothing is written; for appending the text is where it was. -/
theorem follows_start (append : Bool) (h : (FixedArray.start append m buf size).len = 0) :
    Follows append buf size (.start append buf size m) where
  len_le := by
    rw [Session.start, h]
    exact Nat.zero_le _
  len_le_length := by
    rw [Session.start, h]
    exact Nat.zero_le _
  bytes i hi := by
    rw [Session.start, h] at hi
    exact absurd hi (Nat.not_lt_zero i)
  zeros _ _ _ := rfl
  pos hwrite := by
    subst hwrite
    rfl
  blank hwrite _ _ _ := by
    subst hwrite
    rfl
  clear hwrite i _ hi := by
    subst hwrite
    simp [Session.start, Memory.putBytes, hi]

theorem keeps_start : Keeps buf size (textLength m buf size) (.start true buf size m) where
  len_eq := rfl
  len_le := textLength_le m buf size
  content := rfl
  agrees := ⟨fun _ _ => rfl, nul_at_textLength m buf size⟩

end Start

theorem foldl_step_array (append : Bool) (buf size : ℕ) (ops : List Op) (x : Session) :
    (ops.foldl (Session.step append buf size) x).array =
      ops.foldl (Op.onArray append size) x.array := by
  induction ops generalizing x with
  | nil => rfl
  | cons op ops ih => exact ih _

theorem agrees_of_calm (append : Bool) (buf size : ℕ) (m : Memory) (ops : List Op)
    (hcalm : (Session.start append buf size m).CalmRun append buf size
      (FixedArray.start append m buf size).len ops) :
    let y := ops.foldl (Session.step append buf size) (.start append buf size m)
    Agrees buf size y.array (copyBack buf size y.file y.memory) := by
  by_cases hkept : (FixedArray.start append m buf size).len = 0
  · exact agrees_of_follows ops (follows_start m buf size append hkept) hcalm
  · cases append with
    | false => exact absurd rfl hkept
    | true => exact agrees_of_keeps ops (keeps_start m buf size) (Nat.pos_of_ne_zero hkept) hcalm

/-- Every session succeeds and changes nothing outside the buffer, and after a calm one the buffer
holds what the array holds. -/
theorem fmemopen_refines (s : State) (fp buf size : ℕ) (hsize : 0 < size) (append : Bool)
    (mode : CString) (hmode : mode.bytes.head? = some (if append then ch 'a' else ch 'w'))
    (ops : List Op) :
    ∃ s', session fp mode buf size ops s = some s' ∧
      (∀ a, a < buf ∨ buf + size ≤ a → s'.memory a = s.memory a) ∧
      ((Session.start append buf size s.memory).CalmRun append buf size
          (FixedArray.start append s.memory buf size).len ops →
        Agrees buf size
          (ops.foldl (Op.onArray append size) (.start append s.memory buf size)) s'.memory) := by
  obtain ⟨s', hs', hmemory⟩ := session_eq s fp buf hsize hmode ops
  refine ⟨s', hs', ?_, ?_⟩
  · intro a ha
    rw [hmemory]
    exact (copyBack_outside ha).trans
      ((foldl_step_outside append ha ops _).trans (start_outside append ha))
  · intro hcalm
    have h := agrees_of_calm append buf size s.memory ops hcalm
    simp only [foldl_step_array] at h
    rw [hmemory]
    exact h

/-- Two overlapping writes with a copy in between, closed at the end of the data. -/
def sampleOps : List Op := [.write [1, 2, 3], .seek 1, .flush, .write [4, 5, 6]]

theorem fmemopen_refines_sample :
    ∃ s', session 3 (.ofString "w") 100 8 sampleOps blank = some s' ∧
      Agrees 100 8 (sampleOps.foldl (Op.onArray false 8) (.start false blank.memory 100 8))
        s'.memory := by
  obtain ⟨s', hs', -, h⟩ := fmemopen_refines blank 3 100 8 (by decide) false (.ofString "w")
    (by decide) sampleOps
  refine ⟨s', hs', h ⟨?_, trivial, Nat.zero_le _, ?_, ?_, ?_⟩⟩
  · exact fun hmode => absurd hmode (by decide)
  · exact fun hmode => absurd hmode (by decide)
  · decide +kernel
  · exact fun hmode => absurd hmode (by decide)

/-- Appending writes over the text, and closing after a seek cuts the data. -/
theorem fmemopen_loses_text :
    (∃ s', session 3 (.ofString "a") 100 8 [.write [ch 'x']]
        { blank with memory := blank.memory.putBytes 100 [ch 'a', ch 'b', ch 'c', 0] } = some s' ∧
      ¬ Agrees 100 8 ([Op.write [ch 'x']].foldl (Op.onArray true 8)
        (.start true (blank.memory.putBytes 100 [ch 'a', ch 'b', ch 'c', 0]) 100 8)) s'.memory) ∧
    ∃ s', session 3 (.ofString "w") 100 8 [.write [1, 2, 3], .seek 1] blank = some s' ∧
      ¬ Agrees 100 8 ([Op.write [1, 2, 3], .seek 1].foldl (Op.onArray false 8)
        (.start false blank.memory 100 8)) s'.memory :=
  ⟨⟨_, rfl, by decide +kernel⟩, ⟨_, rfl, by decide +kernel⟩⟩

end Solcompat.Memstream
