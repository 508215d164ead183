import Solcompat.Lib.CString
import Solcompat.Lib.Trace
import Solcompat.Random.Model

/-!
# The client of the entropy daemon

`egd_get_bytes` with all that it does to its socket in a trace. A session whose answers run
out is blocked: it does not return, and its trace is one as far as it went.
-/

namespace Solcompat.Random

open Solcompat.Lib

/-- What a session does to its socket. -/
inductive EgdEvent
  | opened
  | connect (path : CString)
  | request (bytes : List UInt8)
  /-- At most `asked` bytes are asked for; none are delivered by a `read` that does not succeed. -/
  | read (asked : ℕ) (delivered : List UInt8)
  | closed
  deriving DecidableEq

/-- What a session meets. -/
structure EgdPeer where
  /-- `SOLCOMPAT_EGD_SOCKET` -/
  getenv : Option CString
  /-- Whether there is a socket to be had, and whether it can be connected. -/
  socket : Bool
  connects : Bool
  /-- Whether each request is written as a whole. -/
  writes : List Bool
  reads : List ReadAnswer

inductive Progress
  | done
  | broken
  | blocked
  deriving DecidableEq

structure Session where
  progress : Progress
  buffer : Memory
  events : List EgdEvent
  reads : List ReadAnswer

def egdDefaultSocket : CString := .ofString "/var/run/egd-pool"

def sunPathSize : ℕ := 108

/-- The path that `egd_connect` takes. -/
def EgdPeer.path (peer : EgdPeer) : CString :=
  match peer.getenv with
  | some path => if path.bytes = [] then egdDefaultSocket else path
  | none => egdDefaultSocket

/-- `egd_connect`: whether there is a connection, and the trace. -/
def egdConnect (peer : EgdPeer) : Bool × List EgdEvent :=
  if !peer.socket then (false, [])
  else if sunPathSize ≤ peer.path.strlen then (false, [.opened, .closed])
  else if !peer.connects then (false, [.opened, .connect peer.path, .closed])
  else (true, [.opened, .connect peer.path])

/-- What a `read` of at most `n` bytes delivers. -/
def ReadAnswer.deliver (n : ℕ) : ReadAnswer → List UInt8
  | .data ready => ready.take n
  | _ => []

def replyLoop (output chunk : ℕ) : List ReadAnswer → ℕ → Memory → List EgdEvent → Session
  | [], got, buffer, events => ⟨if got < chunk then .blocked else .done, buffer, events, []⟩
  | answer :: reads, got, buffer, events =>
    if got < chunk then
      let bs := answer.deliver (chunk - got)
      let events := events ++ [.read (chunk - got) bs]
      match answer with
      | .interrupted => replyLoop output chunk reads got buffer events
      | .failed => ⟨.broken, buffer, events, reads⟩
      | .eof => ⟨.broken, buffer, events, reads⟩
      | .data _ =>
        if bs.length = 0 then ⟨.broken, buffer, events, reads⟩
        else
          replyLoop output chunk reads (got + bs.length) (buffer.putBytes (output + got) bs) events
    else ⟨.done, buffer, events, answer :: reads⟩

def requestLoop : List Bool → List ReadAnswer → ℕ → ℕ → Memory → List EgdEvent → Session
  | _, reads, _, 0, buffer, events => ⟨.done, buffer, events, reads⟩
  | [], reads, _, _ + 1, buffer, events => ⟨.blocked, buffer, events, reads⟩
  | written :: writes, reads, output, len + 1, buffer, events =>
    let chunk := if egdMaxRequest < len + 1 then egdMaxRequest else len + 1
    let events := events ++ [.request [0x02, UInt8.ofNat chunk]]
    if !written then ⟨.broken, buffer, events, reads⟩
    else
      let s := replyLoop output chunk reads 0 buffer events
      if s.progress = .done then
        requestLoop writes s.reads (output + chunk) (len + 1 - chunk) s.buffer s.events
      else s

/-- What `egd_get_bytes` returns, none if it is blocked, with the buffer and the trace. -/
structure EgdReturn where
  ret : Option ℤ
  buffer : Memory
  events : List EgdEvent

/-- Every way out of the loops closes the socket. -/
def Session.finish (s : Session) : EgdReturn :=
  match s.progress with
  | .done => ⟨some 0, s.buffer, s.events ++ [.closed]⟩
  | .broken => ⟨some (-1), s.buffer, s.events ++ [.closed]⟩
  | .blocked => ⟨none, s.buffer, s.events⟩

def egdSession (peer : EgdPeer) (buffer : Memory) (len : ℕ) : EgdReturn :=
  let (connected, events) := egdConnect peer
  if connected then (requestLoop peer.writes peer.reads 0 len buffer events).finish
  else ⟨some (-1), buffer, events⟩

/-- The number of bytes that a trace asks the daemon for. -/
def requested (events : List EgdEvent) : ℕ :=
  (events.map fun
    | .request bytes => (bytes.getD 1 0).toNat
    | _ => 0).sum

/-- The bytes that came back, in order. -/
def received (events : List EgdEvent) : List UInt8 :=
  events.flatMap fun
    | .read _ delivered => delivered
    | _ => []

/-- The protocol. A request comes when all that was asked for has come back, and no `read` asks
for more than is still to come; nothing comes after the socket is closed. -/
def EgdAllowed (past : List EgdEvent) : EgdEvent → Prop
  | .opened => past = []
  | .connect path => past = [.opened] ∧ path.strlen < sunPathSize
  | .request bytes => .opened ∈ past ∧ .closed ∉ past ∧
      (∃ count, 1 ≤ count ∧ count ≤ 255 ∧ bytes = [0x02, UInt8.ofNat count]) ∧
      (received past).length = requested past
  | .read asked delivered => .opened ∈ past ∧ .closed ∉ past ∧
      (received past).length + asked ≤ requested past ∧ delivered.length ≤ asked
  | .closed => .opened ∈ past ∧ .closed ∉ past

/-- A session with an open socket that has asked for `count` bytes. -/
structure Talking (buffer₀ : Memory) (count : ℕ) (buffer : Memory) (events : List EgdEvent) :
    Prop where
  lawful : Lawful EgdAllowed events
  opened : .opened ∈ events
  not_closed : .closed ∉ events
  requested_eq : requested events = count
  received_le : (received events).length ≤ count
  buffer_eq : buffer = buffer₀.putBytes 0 (received events)

section Loops

variable {buffer₀ buffer : Memory} {events : List EgdEvent} {count output chunk : ℕ}

@[simp] theorem requested_concat_request (events : List EgdEvent) (bytes : List UInt8) :
    requested (events ++ [.request bytes]) = requested events + (bytes.getD 1 0).toNat := by
  simp [requested]

@[simp] theorem requested_concat_read (events : List EgdEvent) (asked : ℕ) (bs : List UInt8) :
    requested (events ++ [.read asked bs]) = requested events := by
  simp [requested]

@[simp] theorem received_concat_request (events : List EgdEvent) (bytes : List UInt8) :
    received (events ++ [.request bytes]) = received events := by
  simp [received]

@[simp] theorem received_concat_read (events : List EgdEvent) (asked : ℕ) (bs : List UInt8) :
    received (events ++ [.read asked bs]) = received events ++ bs := by
  simp [received]

theorem Talking.request (h : Talking buffer₀ count buffer events)
    (hall : (received events).length = count) (hpos : 1 ≤ chunk) (hle : chunk ≤ 255) :
    Talking buffer₀ (count + chunk) buffer
      (events ++ [.request [0x02, UInt8.ofNat chunk]]) := by
  have hbyte : (UInt8.ofNat chunk).toNat = chunk :=
    UInt8.toNat_ofNat_of_lt' (show chunk < 256 by omega)
  refine ⟨h.lawful.concat ?_, by simp [h.opened], by simp [h.not_closed], ?_, ?_, ?_⟩
  · exact ⟨h.opened, h.not_closed, ⟨chunk, hpos, hle, rfl⟩, hall.trans h.requested_eq.symm⟩
  · simpa [h.requested_eq] using hbyte
  · rw [received_concat_request]
    omega
  · rw [received_concat_request]
    exact h.buffer_eq

theorem Talking.read (h : Talking buffer₀ count buffer events) {asked : ℕ} {bs : List UInt8}
    (hasked : (received events).length + asked ≤ count) (hbs : bs.length ≤ asked) :
    Talking buffer₀ count (buffer.putBytes (received events).length bs)
      (events ++ [.read asked bs]) := by
  refine ⟨h.lawful.concat ?_, by simp [h.opened], by simp [h.not_closed], ?_, ?_, ?_⟩
  · exact ⟨h.opened, h.not_closed, by rw [h.requested_eq]; exact hasked, hbs⟩
  · rw [requested_concat_read]
    exact h.requested_eq
  · rw [received_concat_read, List.length_append]
    omega
  · have hjoin := Memory.putBytes_append buffer₀ 0 (received events) bs
    rw [Nat.zero_add] at hjoin
    rw [received_concat_read, ← hjoin, ← h.buffer_eq]

theorem length_deliver_le (n : ℕ) (answer : ReadAnswer) : (answer.deliver n).length ≤ n := by
  cases answer with
  | data ready => exact List.length_take_le _ _
  | _ => exact Nat.zero_le n

theorem Talking.read_nothing (h : Talking buffer₀ count buffer events) {asked : ℕ}
    (hasked : (received events).length + asked ≤ count) :
    Talking buffer₀ count buffer (events ++ [.read asked []]) := by
  have hread : Talking buffer₀ count (buffer.putBytes (received events).length [])
      (events ++ [.read asked []]) := h.read hasked (Nat.zero_le asked)
  rwa [Memory.putBytes_nil] at hread

/-- The session has asked for `count` bytes, and it is done when there are `total`. -/
structure Session.Reaches (s : Session) (buffer₀ : Memory) (count total : ℕ) : Prop where
  talking : Talking buffer₀ count s.buffer s.events
  done_iff : s.progress = .done ↔ (received s.events).length = total

theorem reaches_broken (reads : List ReadAnswer) {total : ℕ}
    (h : Talking buffer₀ count buffer events) (hlt : (received events).length < total) :
    (⟨.broken, buffer, events, reads⟩ : Session).Reaches buffer₀ count total := by
  refine ⟨h, ?_⟩
  simp
  omega

theorem replyLoop_reaches (reads : List ReadAnswer) (got : ℕ)
    (h : Talking buffer₀ (output + chunk) buffer events)
    (hgot : (received events).length = output + got) :
    (replyLoop output chunk reads got buffer events).Reaches buffer₀ (output + chunk)
      (output + chunk) := by
  have hle := h.received_le
  induction reads generalizing got buffer events with
  | nil =>
    rw [replyLoop]
    refine ⟨h, ?_⟩
    dsimp only
    split_ifs with hlt
    · simp
      omega
    · simp
      omega
  | cons answer reads ih =>
    rw [replyLoop]
    split_ifs with hlt
    · have hasked : (received events).length + (chunk - got) ≤ output + chunk := by omega
      have hnothing := h.read_nothing hasked
      have hsame : (received (events ++ [.read (chunk - got) []])).length = output + got := by
        simpa using hgot
      have hshort : output + got < output + chunk := by omega
      have hbroken := reaches_broken reads hnothing (hsame.trans_lt hshort)
      cases answer with
      | interrupted => exact ih got hnothing hsame hnothing.received_le
      | failed => exact hbroken
      | eof => exact hbroken
      | data ready =>
        have hbs := length_deliver_le (chunk - got) (.data ready)
        have hread := h.read hasked hbs
        dsimp only
        split_ifs with hempty
        · rw [List.length_eq_zero_iff.mp hempty]
          exact hbroken
        · rw [← hgot]
          apply ih _ hread _ hread.received_le
          rw [received_concat_read, List.length_append]
          omega
    · refine ⟨h, ?_⟩
      simp
      omega

/-- The loop goes from reply to reply; it is done when the whole length is there. -/
theorem requestLoop_reaches (writes : List Bool) (reads : List ReadAnswer) (len : ℕ)
    (h : Talking buffer₀ output buffer events) (hall : (received events).length = output) :
    ∃ count, count ≤ output + len ∧
      (requestLoop writes reads output len buffer events).Reaches buffer₀ count (output + len) := by
  induction writes generalizing reads output len buffer events with
  | nil =>
    cases len with
    | zero =>
      rw [requestLoop]
      exact ⟨output, le_rfl, h, by simpa using hall⟩
    | succ len =>
      rw [requestLoop]
      refine ⟨output, by omega, h, ?_⟩
      simp
      omega
  | cons written writes ih =>
    cases len with
    | zero =>
      rw [requestLoop]
      exact ⟨output, le_rfl, h, by simpa using hall⟩
    | succ len =>
      rw [requestLoop]
      dsimp only
      obtain ⟨chunk, hchunk, hpos, hmax, hle⟩ : ∃ chunk,
          (if egdMaxRequest < len + 1 then egdMaxRequest else len + 1) = chunk ∧
            1 ≤ chunk ∧ chunk ≤ 255 ∧ chunk ≤ len + 1 := by
        refine ⟨_, rfl, ?_⟩
        unfold egdMaxRequest
        split_ifs <;> omega
      rw [hchunk]
      have hrequest := h.request hall hpos hmax
      have hsame := received_concat_request events [0x02, UInt8.ofNat chunk]
      have hreply := replyLoop_reaches reads 0 hrequest (by rw [hsame]; exact hall)
      split_ifs with hwritten hdone
      · refine ⟨output + chunk, by omega, reaches_broken reads hrequest ?_⟩
        rw [hsame]
        omega
      · obtain ⟨count, hcount, hrest⟩ := ih _ (len + 1 - chunk) hreply.talking
          (hreply.done_iff.mp hdone)
        rw [show output + chunk + (len + 1 - chunk) = output + (len + 1) by omega] at hcount hrest
        exact ⟨count, hcount, hrest⟩
      · have hshort := mt hreply.done_iff.mpr hdone
        have hreceived := hreply.talking.received_le
        refine ⟨output + chunk, by omega, hreply.talking, ?_⟩
        simp only [hdone, false_iff]
        omega

end Loops

section Transfers

/-- The deliveries that a trace shows. -/
def deliveries (events : List EgdEvent) : List Delivery :=
  events.flatMap fun
    | .read _ delivered => if delivered = [] then [] else [(.egd, delivered)]
    | _ => []

/-- A session without its trace. -/
def Session.transfer (s : Session) : Option Transfer :=
  match s.progress with
  | .blocked => none
  | .done => some ⟨true, s.buffer, deliveries s.events, s.reads⟩
  | .broken => some ⟨false, s.buffer, deliveries s.events, s.reads⟩

theorem replyLoop_transfer (output chunk : ℕ) (reads : List ReadAnswer) (got : ℕ) (buffer : Memory)
    (events : List EgdEvent) :
    (replyLoop output chunk reads got buffer events).transfer =
      readLoop .egd reads buffer (output + got) (chunk - got) (deliveries events) := by
  induction reads generalizing got buffer events with
  | nil =>
    rw [replyLoop]
    by_cases hlt : got < chunk
    · obtain ⟨n, hn⟩ := Nat.exists_eq_add_of_lt hlt
      rw [if_pos hlt, show chunk - got = n + 1 by omega, readLoop]
      rfl
    · rw [if_neg hlt, Nat.sub_eq_zero_of_le (Nat.le_of_not_lt hlt), readLoop]
      rfl
  | cons answer reads ih =>
    rw [replyLoop]
    by_cases hlt : got < chunk
    · obtain ⟨n, hn⟩ := Nat.exists_eq_add_of_lt hlt
      have hleft : chunk - got = n + 1 := by omega
      rw [if_pos hlt, hleft]
      cases answer with
      | interrupted =>
        dsimp only
        rw [ih, readLoop, hleft]
        simp [deliveries, ReadAnswer.deliver]
      | failed => simp [readLoop, Session.transfer, deliveries, ReadAnswer.deliver]
      | eof => simp [readLoop, Session.transfer, deliveries, ReadAnswer.deliver]
      | data ready =>
        rw [readLoop]
        dsimp only [ReadAnswer.deliver]
        by_cases hempty : (ready.take (n + 1)).length = 0
        · rw [if_pos hempty, if_pos hempty, List.length_eq_zero_iff.mp hempty]
          simp [Session.transfer, deliveries]
        · have hne : ready.take (n + 1) ≠ [] := fun h => hempty (by rw [h]; rfl)
          rw [if_neg hempty, if_neg hempty, ih, ← Nat.add_assoc, ← Nat.sub_sub, hleft]
          simp [deliveries, hne]
    · rw [if_neg hlt, Nat.sub_eq_zero_of_le (Nat.le_of_not_lt hlt), readLoop]
      rfl

theorem requestLoop_transfer (writes : List Bool) (reads : List ReadAnswer) (output len : ℕ)
    (buffer : Memory) (events : List EgdEvent) :
    (requestLoop writes reads output len buffer events).transfer =
      egdLoop writes reads buffer output len (deliveries events) := by
  induction writes generalizing reads output len buffer events with
  | nil =>
    cases len with
    | zero =>
      rw [requestLoop, egdLoop]
      rfl
    | succ len =>
      rw [requestLoop, egdLoop]
      rfl
  | cons written writes ih =>
    cases len with
    | zero =>
      rw [requestLoop, egdLoop]
      rfl
    | succ len =>
      rw [requestLoop, egdLoop]
      dsimp only
      have hchunk : (if egdMaxRequest < len + 1 then egdMaxRequest else len + 1) =
          min (len + 1) egdMaxRequest := by
        rw [min_def]
        split_ifs <;> omega
      rw [hchunk]
      have hsame : deliveries
          (events ++ [.request [0x02, UInt8.ofNat (min (len + 1) egdMaxRequest)]]) =
            deliveries events := by
        simp [deliveries]
      by_cases hwritten : written = true
      · have hreply := replyLoop_transfer output (min (len + 1) egdMaxRequest) reads 0 buffer
          (events ++ [.request [0x02, UInt8.ofNat (min (len + 1) egdMaxRequest)]])
        simp only [Nat.add_zero, Nat.sub_zero, hsame] at hreply
        rw [hwritten, ← hreply]
        generalize replyLoop output (min (len + 1) egdMaxRequest) reads 0 buffer _ = s
        cases hprogress : s.progress with
        | done => simp [Session.transfer, hprogress, ← ih]
        | broken => simp [Session.transfer, hprogress]
        | blocked => simp [Session.transfer, hprogress]
      · rw [if_pos (by simpa using hwritten), if_pos (by simpa using hwritten)]
        simp [Session.transfer, hsame]

theorem deliveries_egdConnect (peer : EgdPeer) : deliveries (egdConnect peer).2 = [] := by
  unfold egdConnect
  split_ifs <;> rfl

/-- Without its trace a session is the `egd_get_bytes` that the other sources are read beside. -/
theorem egdGetBytes_eq (peer : EgdPeer) (buffer : Memory) (len : ℕ) :
    (egdGetBytes ⟨(egdConnect peer).1, peer.writes, peer.reads⟩ buffer len).map
        (fun t => (t.ok, t.buffer, t.deliveries)) =
      (egdSession peer buffer len).ret.map fun ret =>
        (decide (ret = 0), (egdSession peer buffer len).buffer,
          deliveries (egdSession peer buffer len).events) := by
  have hnone := deliveries_egdConnect peer
  unfold egdGetBytes egdSession
  by_cases hconnected : (egdConnect peer).1 = true
  · have hloop := requestLoop_transfer peer.writes peer.reads 0 len buffer (egdConnect peer).2
    rw [hnone] at hloop
    simp only [if_pos hconnected]
    rw [← hloop]
    generalize requestLoop peer.writes peer.reads 0 len buffer (egdConnect peer).2 = s
    cases hprogress : s.progress with
    | done => simp [Session.transfer, Session.finish, hprogress, deliveries]
    | broken => simp [Session.transfer, Session.finish, hprogress, deliveries]
    | blocked => simp [Session.transfer, Session.finish, hprogress]
  · simp only [if_neg hconnected]
    simp [hnone]

end Transfers

/-- What holds of a session that returns, fails or is blocked. -/
structure EgdReturn.Conforms (out : EgdReturn) (peer : EgdPeer) (buffer : Memory) (len : ℕ) :
    Prop where
  lawful : Lawful EgdAllowed out.events
  success_iff : (egdConnect peer).1 = true →
    (out.ret = some 0 ↔ (received out.events).length = len)
  unconnected : (egdConnect peer).1 = false → out.ret = some (-1) ∧ received out.events = []
  requested_eq : out.ret = some 0 → requested out.events = len
  buffer_eq : out.buffer = buffer.putBytes 0 (received out.events)
  closed_once : out.ret ≠ none → .opened ∈ out.events →
    ∃ front, out.events = front ++ [.closed] ∧ .closed ∉ front

section Sessions

variable {peer : EgdPeer} {buffer : Memory} {len : ℕ}

theorem lawful_opened : Lawful EgdAllowed [.opened] :=
  lawful_nil.concat rfl

theorem unconnected_conforms {events : List EgdEvent} (h : egdConnect peer = (false, events))
    (hlawful : Lawful EgdAllowed events) (hreceived : received events = [])
    (hclosed : .opened ∈ events → ∃ front, events = front ++ [.closed] ∧ .closed ∉ front) :
    (⟨some (-1), buffer, events⟩ : EgdReturn).Conforms peer buffer len where
  lawful := hlawful
  success_iff hconnected := absurd hconnected (by simp [h])
  unconnected _ := ⟨rfl, hreceived⟩
  requested_eq hret := absurd hret (by simp)
  buffer_eq := by
    dsimp only
    rw [hreceived, Memory.putBytes_nil]
  closed_once _ := hclosed

theorem finish_conforms {s : Session} {count : ℕ} (h : s.Reaches buffer count len)
    (hcount : count ≤ len) (hconnected : (egdConnect peer).1 = true) :
    s.finish.Conforms peer buffer len := by
  have hlawful : Lawful EgdAllowed (s.events ++ [.closed]) :=
    h.talking.lawful.concat ⟨h.talking.opened, h.talking.not_closed⟩
  have hreceived : received (s.events ++ [.closed]) = received s.events := by simp [received]
  have hrequested : requested (s.events ++ [.closed]) = requested s.events := by simp [requested]
  have hnot : ¬ (egdConnect peer).1 = false := by simp [hconnected]
  have hiff := h.done_iff
  have hle := h.talking.received_le
  unfold Session.finish
  cases hprogress : s.progress with
  | done =>
    have hall := hiff.mp hprogress
    refine ⟨hlawful, fun _ => ?_, fun hfalse => absurd hfalse hnot, fun _ => ?_, ?_, ?_⟩
    · simpa [hreceived] using hall
    · rw [hrequested, h.talking.requested_eq]
      omega
    · rw [hreceived]
      exact h.talking.buffer_eq
    · exact fun _ _ => ⟨s.events, rfl, h.talking.not_closed⟩
  | broken =>
    have hshort : (received s.events).length ≠ len := fun hall => by
      simpa [hprogress] using hiff.mpr hall
    refine ⟨hlawful, fun _ => ?_, fun hfalse => absurd hfalse hnot, fun hret => ?_, ?_, ?_⟩
    · simpa [hreceived] using hshort
    · exact absurd hret (by simp)
    · rw [hreceived]
      exact h.talking.buffer_eq
    · exact fun _ _ => ⟨s.events, rfl, h.talking.not_closed⟩
  | blocked =>
    have hshort : (received s.events).length ≠ len := fun hall => by
      simpa [hprogress] using hiff.mpr hall
    refine ⟨h.talking.lawful, fun _ => ?_, fun hfalse => absurd hfalse hnot, fun hret => ?_,
      h.talking.buffer_eq, ?_⟩
    · simpa using hshort
    · exact absurd hret (by simp)
    · exact fun hret => absurd rfl hret

end Sessions

section Returning

/-- The reads go on: each one delivers something or is interrupted. -/
def Delivering (reads : List ReadAnswer) : Prop :=
  ∀ answer ∈ reads, answer = .interrupted ∨ ∃ b ready, answer = .data (b :: ready)

/-- How many of the reads deliver something. -/
def fruitful (reads : List ReadAnswer) : ℕ :=
  reads.countP fun
    | .data _ => true
    | _ => false

variable {buffer : Memory} {events : List EgdEvent} {output chunk : ℕ}

/-- One read after the other brings at least a byte, until the reply is there. -/
theorem replyLoop_done (reads : List ReadAnswer) (got : ℕ) (hle : got ≤ chunk)
    (hreads : Delivering reads) (hmany : chunk - got ≤ fruitful reads) :
    (replyLoop output chunk reads got buffer events).progress = .done ∧
      Delivering (replyLoop output chunk reads got buffer events).reads ∧
      fruitful reads ≤
        fruitful (replyLoop output chunk reads got buffer events).reads + (chunk - got) := by
  induction reads generalizing got buffer events with
  | nil =>
    have hdone : ¬ got < chunk := fun hlt => by
      have hzero : fruitful [] = 0 := rfl
      omega
    rw [replyLoop, if_neg hdone]
    exact ⟨rfl, hreads, Nat.le_add_right _ _⟩
  | cons answer reads ih =>
    obtain ⟨hanswer, hrest⟩ := List.forall_mem_cons.mp hreads
    rw [replyLoop]
    split_ifs with hlt
    · rcases hanswer with rfl | ⟨b, ready, rfl⟩
      · have hsame : fruitful (.interrupted :: reads) = fruitful reads := rfl
        rw [hsame] at hmany ⊢
        exact ih got hle hrest hmany
      · have hone : fruitful (.data (b :: ready) :: reads) = fruitful reads + 1 :=
          List.countP_cons_of_pos rfl
        obtain ⟨n, hn⟩ := Nat.exists_eq_add_of_lt hlt
        have hlen := length_deliver_le (chunk - got) (.data (b :: ready))
        have hpos : 0 < (ReadAnswer.deliver (chunk - got) (.data (b :: ready))).length := by
          rw [ReadAnswer.deliver, show chunk - got = n + 1 by omega]
          exact Nat.succ_pos _
        rw [hone] at hmany ⊢
        dsimp only
        rw [if_neg hpos.ne']
        generalize (ReadAnswer.deliver (chunk - got) (.data (b :: ready))) = bs at hlen hpos
        obtain ⟨hdone, hdelivering, hleft⟩ := @ih (buffer.putBytes (output + got) bs)
          (events ++ [.read (chunk - got) bs]) (got + bs.length) (by omega) hrest (by omega)
        exact ⟨hdone, hdelivering, by omega⟩
    · exact ⟨rfl, hreads, Nat.le_add_right _ _⟩

theorem requestLoop_done (writes : List Bool) (reads : List ReadAnswer) (len : ℕ)
    (hwrites : ∀ written ∈ writes, written = true) (henough : len ≤ writes.length)
    (hreads : Delivering reads) (hmany : len ≤ fruitful reads) :
    (requestLoop writes reads output len buffer events).progress = .done := by
  induction writes generalizing reads output len buffer events with
  | nil =>
    obtain rfl : len = 0 := Nat.le_zero.mp henough
    rw [requestLoop]
  | cons written writes ih =>
    obtain ⟨rfl, hrest⟩ := List.forall_mem_cons.mp hwrites
    cases len with
    | zero => rw [requestLoop]
    | succ len =>
      rw [List.length_cons] at henough
      obtain ⟨chunk, hchunk, hpos, hle⟩ : ∃ chunk,
          (if egdMaxRequest < len + 1 then egdMaxRequest else len + 1) = chunk ∧
            1 ≤ chunk ∧ chunk ≤ len + 1 := by
        refine ⟨_, rfl, ?_⟩
        unfold egdMaxRequest
        split_ifs <;> omega
      obtain ⟨hdone, hdelivering, hleft⟩ := @replyLoop_done buffer
        (events ++ [.request [0x02, UInt8.ofNat chunk]]) output chunk reads 0 (Nat.zero_le _) hreads
        (by omega)
      rw [requestLoop]
      simp only [hchunk, Bool.not_true, Bool.false_eq_true, if_false, hdone, if_true]
      exact ih _ _ hrest (by omega) hdelivering (by omega)

/-- The daemon takes the connection and every request, and sends as many pieces as there are bytes
to get. -/
structure EgdPeer.Serves (peer : EgdPeer) (len : ℕ) : Prop where
  connected : (egdConnect peer).1 = true
  written : ∀ written ∈ peer.writes, written = true
  requests : len ≤ peer.writes.length
  delivering : Delivering peer.reads
  pieces : len ≤ fruitful peer.reads

theorem egdSession_returns {peer : EgdPeer} {len : ℕ} (h : peer.Serves len) :
    (egdSession peer buffer len).ret = some 0 := by
  have hdone := @requestLoop_done buffer (egdConnect peer).2 0 peer.writes peer.reads len h.written
    h.requests h.delivering h.pieces
  rw [egdSession]
  simp only [if_pos h.connected, Session.finish, hdone]

/-- A daemon that is interrupted once and sends two bytes in two pieces. -/
def samplePeer : EgdPeer := ⟨none, true, true, [true, true], [.data [5], .interrupted, .data [7]]⟩

theorem samplePeer_serves : samplePeer.Serves 2 where
  connected := by decide +kernel
  written := by decide
  requests := by decide
  delivering := by
    intro answer hanswer
    simp only [samplePeer, List.mem_cons, List.not_mem_nil, or_false] at hanswer
    rcases hanswer with rfl | rfl | rfl
    · exact .inr ⟨5, [], rfl⟩
    · exact .inl rfl
    · exact .inr ⟨7, [], rfl⟩
  pieces := by decide

end Returning

end Solcompat.Random
