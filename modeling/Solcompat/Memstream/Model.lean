import Mathlib.Logic.Function.Basic
import Solcompat.Lib.ByteFile
import Solcompat.Lib.CString
import Solcompat.Lib.Memory

/-!
# Memory streams

`fmemopen` for writing and `open_memstream` hand out a temporary file and keep an entry for
it; the interposed `fflush` and `fclose` copy the file to where the entry says. `FILE`
pointers, buffers of the heap and the cells of the client are numbers; buffers are numbered
as they are allocated, and how often each was freed is counted. The mutex of the registry
is not modelled: one call runs after the other.
-/

namespace Solcompat.Memstream

open Solcompat.Lib

structure Answers where
  /-- The descriptor of `/dev/null`. -/
  devnull : Option ℕ
  fdopen : Option ℕ
  tmpfile : Option ℕ
  /-- Whether there is memory for an entry. -/
  entry : Bool
  /-- Whether `ftell` succeeds. -/
  tells : Bool
  /-- What a successful `ftell` says of a stream that is no temporary file. -/
  told : ℕ
  /-- Whether there is memory for a buffer. -/
  buffer : Bool
  /-- What an allocated buffer holds at first. -/
  fresh : ℕ → UInt8

/-- A `FILE`: a temporary file, or a stream on `/dev/null` over the memory of the caller. -/
inductive Stream
  | tmp (file : ByteFile)
  | preloaded (fd : ℕ)

structure Entry where
  fp : ℕ
  ptr : Option ℕ
  sizeloc : Option ℕ
  fixedBuf : Option ℕ
  fixedSize : ℕ
  deriving DecidableEq

structure State where
  streams : ℕ → Option Stream
  /-- `memstream_list` -/
  registry : List Entry
  /-- The client's `char *` variables; none is the null pointer. -/
  pointers : ℕ → Option ℕ
  /-- The client's `size_t` variables. -/
  sizes : ℕ → ℕ
  /-- The buffers allocated so far. -/
  blocks : List (List UInt8)
  frees : ℕ → ℕ
  memory : Memory
  /-- The open descriptors on `/dev/null`. -/
  descriptors : ℕ → Bool
  /-- `_bufendtab` -/
  bufendtab : ℕ → Option ℕ

def Stream.tell (a : Answers) : Stream → Option ℕ
  | .tmp f => if a.tells then some f.pos else none
  | .preloaded _ => if a.tells then some a.told else none

/-- `fread`; there is nothing to read from `/dev/null`. -/
def Stream.read (n : ℕ) : Stream → List UInt8 × Stream
  | .tmp f => ((f.read n).1, .tmp (f.read n).2)
  | .preloaded fd => ([], .preloaded fd)

def Stream.seek (pos : ℕ) : Stream → Stream
  | .tmp f => .tmp (f.seek pos)
  | .preloaded fd => .preloaded fd

namespace State

def setStream (s : State) (fp : ℕ) (stream : Option Stream) : State :=
  { s with streams := Function.update s.streams fp stream }

/-- `open` and `close` on `/dev/null`. -/
def setDescriptor (s : State) (fd : ℕ) (isOpen : Bool) : State :=
  { s with descriptors := Function.update s.descriptors fd isOpen }

def free (s : State) : Option ℕ → State
  | some b => { s with frees := Function.update s.frees b (s.frees b + 1) }
  | none => s

end State

def memstreamRemove (fp : ℕ) (s : State) : Option Entry × State :=
  (s.registry.find? (·.fp = fp), { s with registry := s.registry.eraseP (·.fp = fp) })

/-- The branch of `memstream_sync` for a fixed buffer. -/
def syncFixed (buf size byteCount fp : ℕ) (stream : Stream) (s : State) : State :=
  let copyBytes := min byteCount size
  let (bs, stream) := (stream.seek 0).read copyBytes
  let memory := s.memory.putBytes buf bs
  let memory := if copyBytes < size then memory.putBytes (buf + copyBytes) [0] else memory
  { s with memory }.setStream fp (stream.seek byteCount)

/-- The branch of `memstream_sync` for a growing buffer, once there is memory. -/
def syncGrowing (fresh : ℕ → UInt8) (ptr sizeloc byteCount fp : ℕ) (stream : Stream) (s : State) :
    State :=
  let (bs, stream) := (stream.seek 0).read byteCount
  let newBuf := (List.range (byteCount + 1)).map fun i =>
    if i = byteCount then 0 else bs.getD i (fresh i)
  let s := s.free (s.pointers ptr)
  { s with
    pointers := Function.update s.pointers ptr (some s.blocks.length)
    sizes := Function.update s.sizes sizeloc byteCount
    blocks := s.blocks ++ [newBuf] }.setStream fp (stream.seek byteCount)

/-- `memstream_sync`. The answer is `none` when a null pointer would be followed, or `fp` is not
open. -/
def memstreamSync (a : Answers) (fp : ℕ) (entry : Entry) (s : State) : Option State :=
  match s.streams fp with
  | none => none
  | some stream =>
    match stream.tell a with
    | none => some s
    | some byteCount =>
      match entry.fixedBuf with
      | some buf => some (syncFixed buf entry.fixedSize byteCount fp stream s)
      | none =>
        if !a.buffer then some (s.setStream fp ((stream.seek 0).seek byteCount))
        else
          match entry.ptr, entry.sizeloc with
          | some ptr, some sizeloc =>
            some (syncGrowing a.fresh ptr sizeloc byteCount fp stream s)
          | _, _ => none

/-- `make_entry`: the new entry is the first one. -/
def makeEntry (a : Answers) (entry : Entry) (s : State) : Option State :=
  if a.entry then some { s with registry := entry :: s.registry } else none

def realFclose (fp : ℕ) (s : State) : State :=
  let s' := s.setStream fp none
  match s.streams fp with
  | some (.preloaded fd) =>
    { s' with descriptors := Function.update s'.descriptors fd false }
  | _ => s'

def nFile : ℕ := 20

def fmemopenRead (a : Answers) (buf size : ℕ) (s : State) : Option ℕ × State :=
  match a.devnull with
  | none => (none, s)
  | some fd =>
    let s := s.setDescriptor fd true
    match a.fdopen with
    | none => (none, s.setDescriptor fd false)
    | some fp =>
      let s := s.setStream fp (some (.preloaded fd))
      let s :=
        if fd < nFile then
          { s with bufendtab := Function.update s.bufendtab fd (some (buf + size)) }
        else s
      match makeEntry a ⟨fp, none, none, none, 0⟩ s with
      | none => (none, realFclose fp s)
      | some s => (some fp, s)

/-- `fmemopen` for writing and for appending. -/
def fmemopenWrite (a : Answers) (clears : Bool) (buf size : ℕ) (s : State) : Option ℕ × State :=
  match a.tmpfile with
  | none => (none, s)
  | some fp =>
    let s := s.setStream fp (some (.tmp .empty))
    match makeEntry a ⟨fp, none, none, some buf, size⟩ s with
    | none => (none, realFclose fp s)
    | some s =>
      if clears then (some fp, { s with memory := s.memory.putBytes buf (.replicate size 0) })
      else (some fp, s)

/-- `fmemopen`: the stream, the error number, and the state. -/
def fmemopen (a : Answers) (buf : Option ℕ) (size : ℕ) (mode : Option CString) (s : State) :
    Option ℕ × Option Errno × State :=
  match buf, mode with
  | some buf, some mode =>
    if size = 0 then (none, some .EINVAL, s)
    else if mode.bytes.head? = some (ch 'r') then
      let (fp, s) := fmemopenRead a buf size s
      (fp, none, s)
    else if mode.bytes.head? = some (ch 'w') ∨ mode.bytes.head? = some (ch 'a') then
      let (fp, s) := fmemopenWrite a (mode.bytes.head? = some (ch 'w')) buf size s
      (fp, none, s)
    else (none, some .EINVAL, s)
  | _, _ => (none, some .EINVAL, s)

/-- `open_memstream`; both cells are given. -/
def openMemstream (a : Answers) (ptr sizeloc : ℕ) (s : State) : Option ℕ × State :=
  match a.tmpfile with
  | none => (none, s)
  | some fp =>
    let s := s.setStream fp (some (.tmp .empty))
    let s := { s with
      pointers := Function.update s.pointers ptr none
      sizes := Function.update s.sizes sizeloc 0 }
    match makeEntry a ⟨fp, some ptr, some sizeloc, none, 0⟩ s with
    | none => (none, realFclose fp s)
    | some s => (some fp, s)

/-- `_bufendtab[fileno(fp)] = NULL`, if the descriptor has a slot. -/
def clearBufend (fp : ℕ) (s : State) : State :=
  match s.streams fp with
  | some (.preloaded fd) =>
    if fd < nFile then { s with bufendtab := Function.update s.bufendtab fd none } else s
  | _ => s

def fclose (a : Answers) (fp : ℕ) (s : State) : Option State :=
  match memstreamRemove fp s with
  | (none, s) => some (realFclose fp s)
  | (some entry, s) =>
    if entry.fixedBuf = none ∧ entry.ptr = none then some (realFclose fp (clearBufend fp s))
    else (memstreamSync a fp entry s).map (realFclose fp)

/-- `fflush`. For a null pointer nothing is copied. What the C library's own `fflush` moves from
its buffer to the file does not show. -/
def fflush (a : Answers) (fp : Option ℕ) (s : State) : Option State :=
  match fp with
  | none => some s
  | some fp =>
    match s.registry.find? (·.fp = fp) with
    | none => some s
    | some entry => memstreamSync a fp entry s

/-- `fwrite` to an open temporary file. -/
def fwrite (fp : ℕ) (data : List UInt8) (s : State) : State :=
  match s.streams fp with
  | some (.tmp f) => s.setStream fp (some (.tmp (f.write data)))
  | _ => s

def fseek (fp pos : ℕ) (s : State) : State :=
  s.setStream fp ((s.streams fp).map (·.seek pos))

end Solcompat.Memstream
