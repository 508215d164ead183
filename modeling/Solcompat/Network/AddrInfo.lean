import Solcompat.Inet.Model
import Solcompat.Lib.LinkedList

/-!
# Resolving names to lists of addresses

`getaddrinfo` and `freeaddrinfo` of `network.c`. The results are nodes of a heap, linked
through `ai_next`; the block of a node also holds the socket address behind the record. The
list is built through a pointer to its last link, and the copies for UDP are made from the
nodes byte by byte before some fields are set anew. Blocks are numbered by the allocation
request that made them. Every function answers `none` when the source would use a block that
is not there, or would never come to an end.
-/

namespace Solcompat.Network

open Lib Inet

structure SockaddrIn where
  sinFamily : ℤ
  sinPort : ℕ
  sinAddr : UInt32
  deriving DecidableEq, Repr

/-- `struct addrinfo`. The pointer `ai_addr` is the number of the block whose socket address
it points to. -/
structure AddrInfo where
  aiFlags : UInt32
  aiFamily : ℤ
  aiSocktype : ℤ
  aiProtocol : ℤ
  aiAddrlen : ℕ
  aiCanonname : Option ℕ
  aiAddr : Option ℕ
  aiNext : Option ℕ
  deriving DecidableEq, Repr

/-- A record with the address behind it, or a string. -/
inductive Block
  | node (ai : AddrInfo) (sin : SockaddrIn)
  | text (s : CString)
  deriving DecidableEq

structure Heap where
  blocks : ℕ → Option Block
  requests : ℕ
  /-- The blocks that were freed, in order. -/
  freed : List ℕ

namespace Heap

def node (h : Heap) (k : ℕ) : Option (AddrInfo × SockaddrIn) :=
  match h.blocks k with
  | some (.node ai sin) => some (ai, sin)
  | _ => none

def put (h : Heap) (k : ℕ) (b : Block) : Heap :=
  { h with blocks := Function.update h.blocks k (some b) }

def setNext (h : Heap) (k : ℕ) (q : Option ℕ) : Option Heap := do
  let (ai, sin) ← h.node k
  some (h.put k (.node { ai with aiNext := q } sin))

/-- `free`; a block that is not there cannot be freed. -/
def free (h : Heap) (k : ℕ) : Option Heap := do
  let _ ← h.blocks k
  some { h with blocks := Function.update h.blocks k none, freed := h.freed ++ [k] }

end Heap

/-- `h_errno` -/
inductive HostError
  | hostNotFound
  | tryAgain
  | noRecovery
  | other
  deriving DecidableEq, Repr

/-- `struct hostent`, for addresses of four bytes. -/
structure Hostent where
  hName : Option CString
  hAddrList : List UInt32

structure Resolver where
  gethostbyname : CString → Except HostError Hostent
  /-- The port of a service for a protocol, or for any. -/
  getservbyname : CString → Option CString → Option ℕ
  inetAton : CString → Option UInt32
  /-- Whether an allocation request is granted. -/
  grants : ℕ → Bool

def afUnspec : ℤ := 0
def sockDgram : ℤ := 1
def sockStream : ℤ := 2
def ipprotoUdp : ℤ := 17
def inaddrAny : UInt32 := 0
def inaddrLoopback : UInt32 := 0x7f000001

def aiPassive : UInt32 := 0x0001
def aiCanonnameFlag : UInt32 := 0x0002
def aiNumerichost : UInt32 := 0x0004
def aiNumericserv : UInt32 := 0x0008

def eaiAgain : ℤ := 2
def eaiFail : ℤ := 4
def eaiFamily : ℤ := 5
def eaiMemory : ℤ := 6
def eaiNoname : ℤ := 8
def eaiService : ℤ := 9
def eaiOverflow : ℤ := 14

def hasFlag (flags bit : UInt32) : Bool := flags &&& bit != 0

structure Hints where
  aiFlags : UInt32
  aiFamily : ℤ
  aiSocktype : ℤ
  aiProtocol : ℤ
  deriving DecidableEq, Repr

/-- An all-zero structure; it stands for the values without hints, too. -/
def Hints.zero : Hints := ⟨0, afUnspec, 0, 0⟩

def isdigit (b : UInt8) : Bool := ch '0' ≤ b && b ≤ ch '9'

/-- `strtol(s, &end, 10)` with a `long` of 32 bits: the value and the string at `end`. -/
def strtol10 (s : List UInt8) : ℤ × List UInt8 :=
  let signed := takeSign (s.dropWhile isspace)
  let digits := signed.2.takeWhile isdigit
  if digits = [] then (0, s)
  else
    let magnitude : ℤ := digits.foldl (fun (v : ℤ) b => 10 * v + (b.toNat - 48)) 0
    let value := if signed.1 then -magnitude else magnitude
    (max (-2147483648) (min 2147483647 value), signed.2.dropWhile isdigit)

/-- The protocol to ask `getservbyname` for. -/
def servProto (socktype : ℤ) : Option CString :=
  if socktype = sockStream then some (.ofString "tcp")
  else if socktype = sockDgram then some (.ofString "udp")
  else none

/-- The port, in the byte order of the network, which is that of SPARC. -/
def resolveService (r : Resolver) (service : Option CString) (q : Hints) : Except ℤ ℕ :=
  match service with
  | none => .ok 0
  | some service =>
    let parsed := strtol10 service.bytes
    if parsed.2 = [] ∧ 0 ≤ parsed.1 ∧ parsed.1 ≤ 65535 then .ok parsed.1.toNat
    else if hasFlag q.aiFlags aiNumericserv then .error eaiNoname
    else
      match r.getservbyname service (servProto q.aiSocktype) with
      | none => .error eaiService
      | some port => .ok port

/-- `calloc(1, sizeof(*ai) + sizeof(struct sockaddr_in))` and the fields of an entry. -/
def newEntry (r : Resolver) (port : ℕ) (q : Hints) (addr : UInt32) (h : Heap) :
    Option ℕ × Heap :=
  let k := h.requests
  if r.grants k then
    let ai : AddrInfo :=
      { aiFlags := 0
        aiFamily := afInet
        aiSocktype := if q.aiSocktype ≠ 0 then q.aiSocktype else sockStream
        aiProtocol := q.aiProtocol
        aiAddrlen := 16
        aiCanonname := none
        aiAddr := some k
        aiNext := none }
    (some k, { h with requests := k + 1 }.put k (.node ai ⟨afInet, port, addr⟩))
  else (none, { h with requests := k + 1 })

def setCanonname (r : Resolver) (k : ℕ) (name : CString) (h : Heap) : Option Heap := do
  let (ai, sin) ← h.node k
  let c := h.requests
  let h := { h with requests := c + 1 }
  if r.grants c then
    some ((h.put c (.text name)).put k (.node { ai with aiCanonname := some c } sin))
  else some (h.put k (.node { ai with aiCanonname := none } sin))

/-- Where `tail` points: to `head`, or to the link of a node. -/
inductive Slot
  | head
  | next (k : ℕ)

/-- `*tail = ai` -/
def storeAt (tail : Slot) (head : Option ℕ) (k : ℕ) (h : Heap) : Option (Option ℕ × Heap) :=
  match tail with
  | .head => some (some k, h)
  | .next j => (h.setNext j (some k)).map fun h => (head, h)

/-- The loop of `freeaddrinfo`; `rounds` bounds the number of rounds. -/
def freeLoop : ℕ → Option ℕ → Heap → Option Heap
  | _, none, h => some h
  | 0, some _, _ => none
  | rounds + 1, some k, h => do
    let (ai, _) ← h.node k
    let h ← match ai.aiCanonname with
      | some c => h.free c
      | none => some h
    let h ← h.free k
    freeLoop rounds ai.aiNext h

def freeaddrinfo (res : Option ℕ) (h : Heap) : Option Heap := freeLoop h.requests res h

/-- The loop over `h_addr_list`, from index `i` on. -/
def hostLoop (r : Resolver) (port : ℕ) (q : Hints) (hName : Option CString) :
    ℕ → List UInt32 → Option ℕ → Slot → Heap → Option (Except ℤ (Option ℕ) × Heap)
  | _, [], head, _, h => some (.ok head, h)
  | i, addr :: rest, head, tail, h =>
    match newEntry r port q addr h with
    | (none, h) => do
      let h ← freeaddrinfo head h
      some (.error eaiMemory, h)
    | (some k, h) => do
      let h ←
        if hasFlag q.aiFlags aiCanonnameFlag ∧ i = 0 then
          match hName with
          | some name => setCanonname r k name h
          | none => some h
        else some h
      let (head, h) ← storeAt tail head k h
      hostLoop r port q hName (i + 1) rest head (.next k) h

/-- The copying loop, from `p` on. A copy that cannot be allocated ends it. -/
def dupLoop (r : Resolver) : ℕ → Option ℕ → Option ℕ → Slot → Heap → Option (Option ℕ × Heap)
  | _, none, udpHead, _, h => some (udpHead, h)
  | 0, some _, _, _, _ => none
  | rounds + 1, some p, udpHead, udpTail, h =>
    let k := h.requests
    let h := { h with requests := k + 1 }
    if r.grants k then do
      let (ai, _) ← h.node p
      let (_, sin) ← h.node (← ai.aiAddr)
      let dup :=
        { ai with
          aiAddr := some k
          aiSocktype := sockDgram
          aiProtocol := ipprotoUdp
          aiCanonname := none
          aiNext := none }
      let (udpHead, h) ← storeAt udpTail udpHead k (h.put k (.node dup sin))
      let (ai, _) ← h.node p
      dupLoop r rounds ai.aiNext udpHead (.next k) h
    else some (udpHead, h)

/-- `for (p = head; p->ai_next; p = p->ai_next) ;` -/
def lastEntry : ℕ → ℕ → Heap → Option ℕ
  | 0, _, _ => none
  | rounds + 1, p, h => do
    let (ai, _) ← h.node p
    match ai.aiNext with
    | none => some p
    | some p => lastEntry rounds p h

/-- The return value, what is stored in `*res`, if anything, and the heap. -/
structure Answer where
  ret : ℤ
  res : Option ℕ
  heap : Heap

/-- The end of `getaddrinfo`: the copies for UDP are put behind the list. -/
def finish (r : Resolver) (hints : Option Hints) (head : Option ℕ) (h : Heap) : Option Answer :=
  match head with
  | none => some ⟨eaiNoname, none, h⟩
  | some first =>
    if hints.map (·.aiSocktype) = some 0 then do
      let (udpHead, h) ← dupLoop r h.requests (some first) none .head h
      let p ← lastEntry h.requests first h
      let h ← h.setNext p udpHead
      some ⟨0, some first, h⟩
    else some ⟨0, some first, h⟩

def hostErrorCode : HostError → ℤ
  | .hostNotFound => eaiNoname
  | .tryAgain => eaiAgain
  | .noRecovery => eaiFail
  | .other => eaiNoname

/-- `getaddrinfo` once the port is known. -/
def resolveNode (r : Resolver) (node : Option CString) (hints : Option Hints) (q : Hints)
    (port : ℕ) (h : Heap) : Option Answer :=
  match node with
  | some node =>
    if hasFlag q.aiFlags aiNumerichost then
      match r.inetAton node with
      | none => some ⟨eaiNoname, none, h⟩
      | some addr =>
        match newEntry r port q addr h with
        | (none, h) => some ⟨eaiMemory, none, h⟩
        | (some k, h) => some ⟨0, some k, h⟩
    else
      match r.gethostbyname node with
      | .error e => some ⟨hostErrorCode e, none, h⟩
      | .ok he => do
        match ← hostLoop r port q he.hName 0 he.hAddrList none .head h with
        | (.error e, h) => some ⟨e, none, h⟩
        | (.ok head, h) => finish r hints head h
  | none =>
    let addr := if hasFlag q.aiFlags aiPassive then inaddrAny else inaddrLoopback
    match newEntry r port q addr h with
    | (none, h) => some ⟨eaiMemory, none, h⟩
    | (some k, h) => finish r hints (some k) h

def getaddrinfo (r : Resolver) (node service : Option CString) (hints : Option Hints)
    (h : Heap) : Option Answer :=
  if node = none ∧ service = none then some ⟨eaiNoname, none, h⟩
  else
    let q := hints.getD .zero
    if q.aiFamily ≠ afUnspec ∧ q.aiFamily ≠ afInet ∧ q.aiFamily ≠ afInet6 then
      some ⟨eaiFamily, none, h⟩
    else if q.aiFamily = afInet6 then some ⟨eaiNoname, none, h⟩
    else
      match resolveService r service q with
      | .error e => some ⟨e, none, h⟩
      | .ok port => resolveNode r node hints q port h

end Solcompat.Network
