import Solcompat.Lib.Memory

/-!
# Random bytes from the system

The environment of a call is the list of its answers: what `open` and `connect` give, how
every `read` and `write` ends, and whether the weak generator is allowed. A call whose
answers run out is blocked, and does not return. Each `read` that delivers bytes is recorded
with the source that it read from.
-/

namespace Solcompat.Random

open Solcompat.Lib

/-- `random_source` with `random_fd`: 0, 1 with a descriptor, 2 and -1 in the source. -/
inductive RandomSource
  | notProbed
  | device (fd : ℕ)
  | egd
  | unavailable
  deriving DecidableEq

/-- How a `read` ends. Of the bytes that are ready, it delivers as many as were asked for. -/
inductive ReadAnswer
  | data (ready : List UInt8)
  | eof
  | interrupted
  | failed

/-- The answers of the EGD server on one connection: how each request is written, and what the
reads give. `connected` is what `egd_connect` makes of the socket and its path. -/
structure EgdAnswers where
  connected : Bool
  writes : List Bool
  reads : List ReadAnswer

structure Answers where
  urandom : Option ℕ
  random : Option ℕ
  probe : EgdAnswers
  reads : List ReadAnswer
  egd : EgdAnswers
  /-- `SOLCOMPAT_ALLOW_WEAK_RANDOM` is set. -/
  allowWeak : Bool
  /-- What the weak generator is seeded with. -/
  seed : UInt32

/-- A source and what one `read` from it delivered. -/
abbrev Delivery := RandomSource × List UInt8

/-- Where a transfer into the buffer stands: whether it went well, the buffer, the deliveries in
order, and the answers left. -/
structure Transfer where
  ok : Bool
  buffer : Memory
  deliveries : List Delivery
  reads : List ReadAnswer

/-- The loop of `read_all`, and the inner one of `egd_get_bytes`: read `len` bytes to
`buffer + offset`. -/
def readLoop (source : RandomSource) :
    List ReadAnswer → Memory → ℕ → ℕ → List Delivery → Option Transfer
  | reads, buffer, _, 0, log => some ⟨true, buffer, log, reads⟩
  | [], _, _, _ + 1, _ => none
  | .interrupted :: reads, buffer, offset, len + 1, log =>
    readLoop source reads buffer offset (len + 1) log
  | .failed :: reads, buffer, _, _ + 1, log => some ⟨false, buffer, log, reads⟩
  | .eof :: reads, buffer, _, _ + 1, log => some ⟨false, buffer, log, reads⟩
  | .data ready :: reads, buffer, offset, len + 1, log =>
    let bs := ready.take (len + 1)
    if bs.length = 0 then some ⟨false, buffer, log, reads⟩
    else
      readLoop source reads (buffer.putBytes offset bs) (offset + bs.length)
        (len + 1 - bs.length) (log ++ [(source, bs)])

def readAll (fd : ℕ) (reads : List ReadAnswer) (buffer : Memory) (len : ℕ) : Option Transfer :=
  readLoop (.device fd) reads buffer 0 len []

def egdMaxRequest : ℕ := 255

/-- The loop of `egd_get_bytes`, one request after the other. -/
def egdLoop : List Bool → List ReadAnswer → Memory → ℕ → ℕ → List Delivery → Option Transfer
  | _, reads, buffer, _, 0, log => some ⟨true, buffer, log, reads⟩
  | [], _, _, _, _ + 1, _ => none
  | written :: writes, reads, buffer, offset, len + 1, log =>
    let chunk := min (len + 1) egdMaxRequest
    if !written then some ⟨false, buffer, log, reads⟩
    else
      match readLoop .egd reads buffer offset chunk log with
      | none => none
      | some t =>
        if t.ok then
          egdLoop writes t.reads t.buffer (offset + chunk) (len + 1 - chunk) t.deliveries
        else some t

def egdGetBytes (answers : EgdAnswers) (buffer : Memory) (len : ℕ) : Option Transfer :=
  if answers.connected then egdLoop answers.writes answers.reads buffer 0 len []
  else some ⟨false, buffer, [], answers.reads⟩

/-- The first probe. The byte that the EGD server is asked for goes to a variable of its own. -/
def probe (answers : Answers) : Option RandomSource :=
  match answers.urandom.or answers.random with
  | some fd => some (.device fd)
  | none =>
    (egdGetBytes answers.probe (fun _ => 0) 1).map fun t => if t.ok then .egd else .unavailable

/-- The first half of `get_random_bytes`: the source is probed for once. -/
def selectSource (source : RandomSource) (answers : Answers) : Option RandomSource :=
  if source = .notProbed then probe answers else some source

/-- The second half: the bytes of the selected source. -/
def readSource (source : RandomSource) (answers : Answers) (buffer : Memory) (len : ℕ) :
    Option Transfer :=
  match source with
  | .device fd => readAll fd answers.reads buffer len
  | .egd => egdGetBytes answers.egd buffer len
  | _ => some ⟨false, buffer, [], answers.reads⟩

def getRandomBytes (source : RandomSource) (answers : Answers) (buffer : Memory) (len : ℕ) :
    Option (RandomSource × Transfer) :=
  (selectSource source answers).bind fun source =>
    (readSource source answers buffer len).map (source, ·)

structure Statics where
  source : RandomSource
  /-- The state of the weak generator, once it is seeded. -/
  lcg : Option UInt32

def fallbackLoop : ℕ → UInt32 → List UInt8 × UInt32
  | 0, state => ([], state)
  | len + 1, state =>
    let state := state * 1103515245 + 12345
    let (bs, last) := fallbackLoop len state
    ((state >>> 16).toUInt8 :: bs, last)

def fallbackRandomBytes (seed : UInt32) (lcg : Option UInt32) (buffer : Memory) (len : ℕ) :
    Memory × UInt32 :=
  let (bs, last) := fallbackLoop len (lcg.getD seed)
  (buffer.putBytes 0 bs, last)

structure Outcome where
  ret : ℤ
  errno : Option Errno
  buffer : Memory
  deliveries : List Delivery
  statics : Statics

/-- What `getentropy` and `getrandom` share: the bytes of the source, or those of the weak
generator if it is allowed, or an error. -/
def fetch (success : ℤ) (answers : Answers) (buffer : Memory) (len : ℕ) (statics : Statics) :
    Option Outcome :=
  (getRandomBytes statics.source answers buffer len).map fun (source, t) =>
    let statics := { statics with source }
    if t.ok then ⟨success, none, t.buffer, t.deliveries, statics⟩
    else if answers.allowWeak then
      let (buffer, lcg) := fallbackRandomBytes answers.seed statics.lcg t.buffer len
      ⟨success, none, buffer, t.deliveries, { statics with lcg := some lcg }⟩
    else ⟨-1, some .ioError, t.buffer, t.deliveries, statics⟩

def getentropy (answers : Answers) (buffer : Memory) (length : ℕ) (statics : Statics) :
    Option Outcome :=
  if 256 < length then some ⟨-1, some .ioError, buffer, [], statics⟩
  else fetch 0 answers buffer length statics

/-- The `ssize_t` of a `size_t`. -/
def ssize (n : ℕ) : ℤ := (BitVec.ofNat 32 n).toInt

/-- `getrandom`; the flags are not used. -/
def getrandom (answers : Answers) (buffer : Memory) (buflen : ℕ) (statics : Statics) :
    Option Outcome :=
  fetch (ssize buflen) answers buffer buflen statics

end Solcompat.Random
