import Solcompat.Lib.Hex
import Solcompat.Printf.Vsnprintf

/-!
# Internet addresses as text

`inet_ntop` and `inet_pton` of `network.c`. The formatter finds the run of zero
groups to compress in one pass and writes into a 46-byte work buffer in a second,
through `solcompat_snprintf`; the parser collects up to eight groups and expands
`::` by moving groups inside the array. Accesses to that array are checked: an
index outside it is a fault, not a value.
-/

namespace Solcompat.Inet

open Lib Printf

def afInet : ℤ := 2
def afInet6 : ℤ := 26
def inet6AddrStrLen : ℕ := 46

/-- `words[i]`, the two bytes of group `i` as one number. -/
def word (src : Memory) (i : ℕ) : ℕ := (src (i * 2)).toNat <<< 8 ||| (src (i * 2 + 1)).toNat

def words (src : Memory) : List ℕ := (List.range 8).map (word src)

/-- The best closed run of zero groups so far and the run being read; a start of
`-1` means none. -/
structure Runs where
  bestStart : ℤ
  bestLen : ℕ
  curStart : ℤ
  curLen : ℕ
  deriving DecidableEq, Repr

namespace Runs

def initial : Runs := ⟨-1, 0, -1, 0⟩

def close (r : Runs) : Runs :=
  if r.curLen > r.bestLen ∧ r.curLen ≥ 2 then
    { r with bestStart := r.curStart, bestLen := r.curLen }
  else r

def scan (r : Runs) (i w : ℕ) : Runs :=
  if w = 0 then
    { r with curStart := if r.curStart < 0 then i else r.curStart, curLen := r.curLen + 1 }
  else { r.close with curStart := -1, curLen := 0 }

/-- The detection loop from group `i` on. -/
def scanFrom (r : Runs) (i : ℕ) : List ℕ → Runs
  | [] => r.close
  | w :: ws => (r.scan i w).scanFrom (i + 1) ws

end Runs

/-- The work buffer, the write pointer `tp`, and the number of allocation requests so far. -/
structure Writer where
  tmp : Memory
  tp : ℤ
  requests : ℕ

namespace Writer

/-- Whether `tp` is in the work buffer. A refused allocation moves it back, at the start of the
buffer out of it; a store there is a fault. -/
def Inside (t : Writer) : Prop := 0 ≤ t.tp ∧ t.tp < inet6AddrStrLen

instance (t : Writer) : Decidable t.Inside := inferInstanceAs (Decidable (_ ∧ _))

/-- `*tp++ = b`. -/
def put (t : Writer) (b : UInt8) : Option Writer :=
  if t.Inside then some ⟨Function.update t.tmp t.tp.toNat b, t.tp + 1, t.requests⟩ else none

/-- `tp += solcompat_snprintf(tp, sizeof(tmp) - (tp - tmp), "%x", w)`. -/
def print (sys : System (List ℕ)) (t : Writer) (w : ℕ) : Option Writer :=
  if t.Inside then
    let r := solcompatVsnprintf sys t.requests (some fun i => t.tmp (t.tp.toNat + i))
      (inet6AddrStrLen - t.tp.toNat) (.ofString "%x") [w]
    r.str.map fun after =>
      ⟨fun i => if i < t.tp.toNat then t.tmp i else after (i - t.tp.toNat), t.tp + r.ret,
        r.requests⟩
  else none

end Writer

/-- A colon goes before every group but the first and the one after the run. -/
def colonBefore (best : Runs) (i : ℕ) : Prop :=
  0 < i ∧ ¬ ((i : ℤ) = best.bestStart + best.bestLen ∧ 0 ≤ best.bestStart)

instance (best : Runs) (i : ℕ) : Decidable (colonBefore best i) :=
  inferInstanceAs (Decidable (_ ∧ ¬ (_ ∧ _)))

/-- The formatting loop from group `i` on. At the run, `i += best_len - 1` and the
loop's own `i++` jump over it; `rounds` bounds the number of rounds. -/
def formatLoop (sys : System (List ℕ)) (ws : List ℕ) (best : Runs) :
    ℕ → ℕ → Writer → Option Writer
  | 0, _, t => some t
  | rounds + 1, i, t =>
    if i < 8 then
      if (i : ℤ) = best.bestStart then do
        let t ← t.put (ch ':')
        let t ← t.put (ch ':')
        formatLoop sys ws best rounds (i + best.bestLen) t
      else do
        let t ← if colonBefore best i then t.put (ch ':') else some t
        let t ← t.print sys (ws.getD i 0)
        formatLoop sys ws best rounds (i + 1) t
    else some t

/-- `strlen` of a string that ends within the first `n` bytes. -/
def strlenWithin (n : ℕ) (m : Memory) : ℕ := ((List.range n).map m).findIdx (· == 0)

/-- Whether the destination pointer is returned, the destination, `errno`, and the number of
allocation requests. -/
structure Ntop where
  returned : Bool
  dst : Memory
  errno : Option Errno
  requests : ℕ

/-- `tmp` is the uninitialised work buffer as the call finds it. None is a store outside of it. -/
def inetNtop (sys : System (List ℕ)) (af : ℤ) (src dst tmp : Memory) (size : ℕ) : Option Ntop :=
  if af = afInet then
    let r := solcompatVsnprintf sys 0 (some dst) size (.ofString "%u.%u.%u.%u")
      [(src 0).toNat, (src 1).toNat, (src 2).toNat, (src 3).toNat]
    if r.ret < 0 ∨ (size : ℤ) ≤ r.ret then
      some ⟨false, r.str.getD dst, some .ENOSPC, r.requests⟩
    else some ⟨true, r.str.getD dst, none, r.requests⟩
  else if af = afInet6 then do
    let ws := words src
    let best := Runs.initial.scanFrom 0 ws
    let written ← formatLoop sys ws best 8 0 ⟨tmp, 0, 0⟩
    let ended ← written.put 0
    let n := strlenWithin inet6AddrStrLen ended.tmp
    if size < n + 1 then some ⟨false, dst, some .ENOSPC, ended.requests⟩
    else
      some ⟨true, dst.memcpy ((List.range (n + 1)).map ended.tmp) (n + 1), none, ended.requests⟩
  else some ⟨false, dst, some .EAFNOSUPPORT, 0⟩

/-- Why the parser stops early: the text is not an address, or the code would use
an index outside the group array. -/
inductive Fault
  | reject
  | outOfBounds
  deriving DecidableEq, Repr

abbrev Groups := Fin 8 → ℕ

def index (i : ℤ) : Except Fault (Fin 8) :=
  if h : 0 ≤ i ∧ i < 8 then .ok ⟨i.toNat, by omega⟩ else .error .outOfBounds

def Groups.read (g : Groups) (i : ℤ) : Except Fault ℕ := do
  let i ← index i
  return g i

def Groups.write (g : Groups) (i : ℤ) (v : ℕ) : Except Fault Groups := do
  let i ← index i
  return Function.update g i v

/-- The variables of the parsing loop; `p` is the text still unread. -/
structure Parse where
  groups : Groups
  ngroups : ℕ
  dcolon : ℤ
  p : List UInt8

/-- `while (*p && ngroups < 8)`. Each round stores one group, so `rounds` starts at
eight and the loop ends with it at the latest. -/
def parseLoop : ℕ → Parse → Except Fault Parse
  | 0, s => .ok s
  | rounds + 1, s =>
    if s.p ≠ [] ∧ s.ngroups < 8 then
      if isxdigit (s.p.headD 0) then
        let number := strtoul16 s.p
        if 0xFFFF < number.1 then .error .reject
        else do
          let groups ← s.groups.write s.ngroups number.1
          let ngroups := s.ngroups + 1
          match number.2 with
          | [] => parseLoop rounds ⟨groups, ngroups, s.dcolon, []⟩
          | c :: p =>
            if c = ch ':' then
              match p with
              | [] => parseLoop rounds ⟨groups, ngroups, s.dcolon, []⟩
              | d :: p' =>
                if d = ch ':' then
                  if 0 ≤ s.dcolon then .error .reject
                  else if p' = [] then .ok ⟨groups, ngroups, ngroups, []⟩
                  else parseLoop rounds ⟨groups, ngroups, ngroups, p'⟩
                else parseLoop rounds ⟨groups, ngroups, s.dcolon, d :: p'⟩
            else .error .reject
      else .error .reject
    else .ok s

/-- `for (i = tail - 1; i >= 0; i--) groups[dcolon + fill + i] = groups[dcolon + i]`. -/
def shiftGroups (dcolon fill : ℤ) : ℕ → Groups → Except Fault Groups
  | 0, g => .ok g
  | i + 1, g => do
    let v ← g.read (dcolon + i)
    let g ← g.write (dcolon + fill + i) v
    shiftGroups dcolon fill i g

/-- The first `n` rounds of `for (i = 0; i < fill; i++) groups[dcolon + i] = 0`. -/
def clearGroups (dcolon : ℤ) : ℕ → Groups → Except Fault Groups
  | 0, g => .ok g
  | i + 1, g => do
    let g ← clearGroups dcolon i g
    g.write (dcolon + i) 0

def expand (s : Parse) : Except Fault Parse :=
  if 0 ≤ s.dcolon then do
    let tail := (s.ngroups : ℤ) - s.dcolon
    let fill := (8 : ℤ) - s.ngroups
    if fill < 0 then .error .reject
    else do
      let g ← shiftGroups s.dcolon fill tail.toNat s.groups
      let g ← clearGroups s.dcolon fill.toNat g
      return { s with groups := g, ngroups := 8 }
  else .ok s

/-- `buf`, the sixteen bytes of eight groups. -/
def groupBytes (g : Groups) : List UInt8 :=
  (List.finRange 8).flatMap fun i => [UInt8.ofNat (g i >>> 8), UInt8.ofNat (g i &&& 0xFF)]

/-- The parser after a leading `::` has been dealt with. -/
def parseFrom (s : Parse) : Except Fault (List UInt8) := do
  let s ← parseLoop 8 s
  if s.p ≠ [] then .error .reject
  else do
    let s ← expand s
    if s.ngroups ≠ 8 then .error .reject else return groupBytes s.groups

/-- The text of an IPv6 address to its sixteen bytes. -/
def parseAddress (src : CString) : Except Fault (List UInt8) :=
  match src.bytes with
  | a :: b :: rest =>
    if a = ch ':' ∧ b = ch ':' then
      if rest = [] then .ok (groupBytes fun _ => 0) else parseFrom ⟨fun _ => 0, 0, 0, rest⟩
    else parseFrom ⟨fun _ => 0, 0, -1, src.bytes⟩
  | _ => parseFrom ⟨fun _ => 0, 0, -1, src.bytes⟩

/-- Return value, destination and `errno`. -/
structure Pton where
  ret : ℤ
  dst : Memory
  errno : Option Errno

/-- `inetAton` is the system's dotted-quad parser. Nothing is returned when the code
would leave the group array. -/
def inetPton (inetAton : CString → Option (List UInt8)) (af : ℤ) (src : CString) (dst : Memory) :
    Option Pton :=
  if af = afInet then
    match inetAton src with
    | none => some ⟨0, dst, none⟩
    | some bytes => some ⟨1, dst.memcpy bytes 4, none⟩
  else if af = afInet6 then
    match parseAddress src with
    | .error .outOfBounds => none
    | .error .reject => some ⟨0, dst, none⟩
    | .ok bytes => some ⟨1, dst.memcpy bytes 16, none⟩
  else some ⟨-1, dst, some .EAFNOSUPPORT⟩

end Solcompat.Inet
