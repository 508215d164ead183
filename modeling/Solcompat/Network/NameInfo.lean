import Solcompat.Inet.RoundTrip
import Solcompat.Network.AddrInfo

/-!
# Names of socket addresses

`getnameinfo` fills two buffers. The host is a name from `gethostbyaddr`, the text of
`inet_ntoa` or that of `inet_ntop`; the service is a name from `getservbyport` or the port
in decimal. Every text is measured against its buffer first, but for the decimal port, which
`solcompat_snprintf` cuts to the size of the buffer. It stores nothing when its allocation is
refused, and the result is not looked at.
-/

namespace Solcompat.Network

open Lib Printf Inet

def niNumerichost : UInt32 := 0x0001
def niNumericserv : UInt32 := 0x0002
def niNamereqd : UInt32 := 0x0008
def niDgram : UInt32 := 0x0010

/-- `struct sockaddr_in` or `struct sockaddr_in6`; the port is in network order. -/
structure Sockaddr where
  family : ℤ
  port : UInt16
  addr : Memory

/-- The code outside of this file that the names come from. -/
structure NameServices where
  inetNtoa : Memory → CString
  gethostbyaddr : Memory → Option CString
  getservbyport : UInt16 → CString → Option CString
  format : System (List ℕ)

/-- The network order is that of SPARC. -/
def ntohs (port : UInt16) : ℕ := port.toNat

structure NameInfo where
  ret : ℤ
  host : Option Memory
  serv : Option Memory

/-- How a call ends early: with a return code, or with a store outside of a buffer. -/
inductive Stop
  | code (ret : ℤ)
  | fault

/-- `if (strlen(text) >= len) return EAI_OVERFLOW; strcpy(buf, text);`, after so many requests for
memory. -/
def storeText (requests : ℕ) (buf : Memory) (len : ℕ) (text : CString) :
    Except Stop (Memory × ℕ) :=
  if len ≤ text.strlen then .error (.code eaiOverflow)
  else .ok (buf.memcpy (text.bytes ++ [0]) (text.strlen + 1), requests)

section Filling

variable (r : NameServices)

def fillHostInet (sa : Sockaddr) (host : Memory) (hostlen : ℕ) (flags : UInt32) :
    Except Stop (Memory × ℕ) :=
  if hasFlag flags niNumerichost then storeText 0 host hostlen (r.inetNtoa sa.addr)
  else
    match r.gethostbyaddr sa.addr with
    | some name => storeText 0 host hostlen name
    | none =>
      if hasFlag flags niNamereqd then .error (.code eaiNoname)
      else storeText 0 host hostlen (r.inetNtoa sa.addr)

/-- `tmp` is the work buffer of `inet_ntop`. -/
def fillHostInet6 (tmp : Memory) (sa : Sockaddr) (host : Memory) (hostlen : ℕ) :
    Except Stop (Memory × ℕ) :=
  match inetNtop r.format afInet6 sa.addr host tmp hostlen with
  | none => .error .fault
  | some ntop => if ntop.returned then .ok (ntop.dst, ntop.requests) else .error (.code eaiOverflow)

/-- `solcompat_snprintf(serv, servlen, "%d", ntohs(port))` -/
def printPort (sa : Sockaddr) (requests : ℕ) (serv : Memory) (servlen : ℕ) : Memory × ℕ :=
  let printed := solcompatVsnprintf r.format requests (some serv) servlen (.ofString "%d")
    [ntohs sa.port]
  (printed.str.getD serv, printed.requests)

/-- `(flags & NI_DGRAM) ? "udp" : "tcp"` -/
def proto (flags : UInt32) : CString := .ofString (if hasFlag flags niDgram then "udp" else "tcp")

def fillServ (sa : Sockaddr) (requests : ℕ) (serv : Memory) (servlen : ℕ) (flags : UInt32) :
    Except Stop (Memory × ℕ) :=
  if hasFlag flags niNumericserv then .ok (printPort r sa requests serv servlen)
  else
    match r.getservbyport sa.port (proto flags) with
    | some name => storeText requests serv servlen name
    | none => .ok (printPort r sa requests serv servlen)

/-- A buffer that is not there, or has no room at all, is left alone. -/
def fillWith (fill : Memory → Except Stop (Memory × ℕ)) (requests : ℕ) (buf : Option Memory)
    (len : ℕ) : Except Stop (Option Memory × ℕ) :=
  match buf with
  | none => .ok (none, requests)
  | some m => if 0 < len then (fill m).map (Prod.map some id) else .ok (some m, requests)

def fillHost (tmp : Memory) (sa : Sockaddr) (host : Option Memory) (hostlen : ℕ)
    (flags : UInt32) : Except Stop (Option Memory × ℕ) :=
  if sa.family = afInet then fillWith (fillHostInet r sa · hostlen flags) 0 host hostlen
  else if sa.family = afInet6 then fillWith (fillHostInet6 r tmp sa · hostlen) 0 host hostlen
  else .error (.code eaiFamily)

/-- None when `inet_ntop` stores outside of its work buffer. -/
def getnameinfo (tmp : Memory) (sa : Sockaddr) (host : Option Memory) (hostlen : ℕ)
    (serv : Option Memory) (servlen : ℕ) (flags : UInt32) : Option NameInfo :=
  match fillHost r tmp sa host hostlen flags with
  | .error .fault => none
  | .error (.code ret) => some ⟨ret, host, serv⟩
  | .ok (host, requests) =>
    match fillWith (fillServ r sa requests · servlen flags) requests serv servlen with
    | .error .fault => none
    | .error (.code ret) => some ⟨ret, host, serv⟩
    | .ok (serv, _) => some ⟨0, host, serv⟩

end Filling

/-- The digits of C's `%d` for a number that is not negative. -/
def decimalDigits (n : ℕ) : List ℕ := if n = 0 then [0] else (Nat.digits 10 n).reverse

theorem decimalDigits_lt {n d : ℕ} (h : d ∈ decimalDigits n) : d < 10 := by
  unfold decimalDigits at h
  split_ifs at h
  · rw [List.mem_singleton.mp h]
    norm_num
  · exact Nat.digits_lt_base (by norm_num) (List.mem_reverse.mp h)

theorem decimalText_nulFree (n : ℕ) :
    ∀ b ∈ (decimalDigits n).map fun d => UInt8.ofNat (48 + d), b ≠ 0 := by
  intro b hb hzero
  obtain ⟨d, hd, rfl⟩ := List.mem_map.mp hb
  have hlt := decimalDigits_lt hd
  have hnat := congrArg UInt8.toNat hzero
  rw [UInt8.toNat_ofNat'] at hnat
  simp at hnat
  omega

def decimalText (n : ℕ) : CString :=
  ⟨(decimalDigits n).map fun d => UInt8.ofNat (48 + d), decimalText_nulFree n⟩

theorem decimalText_strlen_le {n : ℕ} (h : n < 65536) : (decimalText n).strlen ≤ 5 := by
  unfold decimalText CString.strlen decimalDigits
  rw [List.length_map]
  split_ifs with hzero
  · simp
  · rw [List.length_reverse]
    exact (Nat.digits_length_le_iff (by norm_num) n).mpr (by omega)

/-- The system formats `%x` and `%d` as documented. -/
structure FormatsPorts (sys : System (List ℕ)) : Prop extends FormatsHex sys where
  decimal : ∀ p, p < 65536 →
    sys.vsprintf (CString.ofString "%d").bytes [p] = some (decimalText p).bytes

/-- The text of the host; there is none when a name is required and not found. -/
def HostText (r : NameServices) (sa : Sockaddr) (flags : UInt32) (text : CString) : Prop :=
  if sa.family = afInet6 then Canonical (words sa.addr) text.bytes
  else if hasFlag flags niNumerichost then text = r.inetNtoa sa.addr
  else
    r.gethostbyaddr sa.addr = some text ∨
      r.gethostbyaddr sa.addr = none ∧ hasFlag flags niNamereqd = false ∧ text = r.inetNtoa sa.addr

/-- The port is asked for as a number, or has no name. -/
def PlainPort (r : NameServices) (sa : Sockaddr) (flags : UInt32) : Prop :=
  hasFlag flags niNumericserv = true ∨
    r.getservbyport sa.port (proto flags) = none

def servText (r : NameServices) (sa : Sockaddr) (flags : UInt32) : CString :=
  if hasFlag flags niNumericserv then decimalText (ntohs sa.port)
  else
    (r.getservbyport sa.port (proto flags)).getD (decimalText (ntohs sa.port))

/-- The buffer starts with the text and its terminator. -/
def HoldsText (m : Memory) (text : CString) : Prop :=
  ∀ i, i < text.strlen + 1 → m i = (text.bytes ++ [0]).getD i 0

def Requested (buf : Option Memory) (len : ℕ) : Prop := buf.isSome = true ∧ 0 < len

instance (buf : Option Memory) (len : ℕ) : Decidable (Requested buf len) :=
  inferInstanceAs (Decidable (_ ∧ _))

/-- Nothing is cut off without a word: what the two buffers hold after a call that
succeeds, and what the call returns when a text is too long. -/
structure Complete (r : NameServices) (sa : Sockaddr) (flags : UInt32) (host : Option Memory)
    (hostlen : ℕ) (serv : Option Memory) (servlen : ℕ) (result : NameInfo) : Prop where
  hostWhole : result.ret = 0 → Requested host hostlen →
    ∃ m text, result.host = some m ∧ HostText r sa flags text ∧ HoldsText m text
  servWhole : result.ret = 0 → Requested serv servlen →
    ∃ m, result.serv = some m ∧ HoldsText m (servText r sa flags)
  overflow : (Requested host hostlen → ∃ text, HostText r sa flags text) →
    (Requested host hostlen ∧ ∃ text, HostText r sa flags text ∧ hostlen ≤ text.strlen) ∨
      (Requested serv servlen ∧ servlen ≤ (servText r sa flags).strlen) →
    result.ret = eaiOverflow

section Texts

variable {r : NameServices} {sa : Sockaddr} {flags : UInt32} {m m' : Memory} {len : ℕ}
variable {text text' : CString}

theorem holdsText_memcpy (m : Memory) (text : CString) :
    HoldsText (m.memcpy (text.bytes ++ [0]) (text.strlen + 1)) text := by
  intro i hi
  rw [Memory.memcpy, if_pos hi]

theorem storeText_ok (requests : ℕ) (m : Memory) (h : text.strlen < len) :
    ∃ m', storeText requests m len text = .ok (m', requests) ∧ HoldsText m' text := by
  refine ⟨m.memcpy (text.bytes ++ [0]) (text.strlen + 1), ?_, holdsText_memcpy m text⟩
  rw [storeText, if_neg (by omega)]

theorem storeText_overflow (requests : ℕ) (m : Memory) (h : len ≤ text.strlen) :
    storeText requests m len text = .error (.code eaiOverflow) :=
  if_pos h

theorem HostText.unique (h : HostText r sa flags text) (h' : HostText r sa flags text') :
    text = text' := by
  unfold HostText at h h'
  split_ifs at h h'
  · exact CString.ext_bytes (h.unique h')
  · exact h.trans h'.symm
  · rcases h with h | ⟨hnone, -, rfl⟩
    · rcases h' with h' | ⟨hnone, -, -⟩
      · exact Option.some.inj (h.symm.trans h')
      · rw [hnone] at h
        cases h
    · rcases h' with h' | ⟨-, -, rfl⟩
      · rw [hnone] at h'
        cases h'
      · rfl

/-- The host is stored whole, or reported as too long, or there is none. -/
def HostFilled (r : NameServices) (sa : Sockaddr) (flags : UInt32) (len requests : ℕ)
    (filled : Except Stop (Memory × ℕ)) : Prop :=
  (∃ text m', HostText r sa flags text ∧ text.strlen < len ∧ filled = .ok (m', requests) ∧
      HoldsText m' text) ∨
    (∃ text, HostText r sa flags text ∧ len ≤ text.strlen ∧
      filled = .error (.code eaiOverflow)) ∨
    (∀ text, ¬ HostText r sa flags text) ∧ filled = .error (.code eaiNoname)

theorem hostFilled_storeText (m : Memory) (h : HostText r sa flags text) :
    HostFilled r sa flags len 0 (storeText 0 m len text) := by
  by_cases hlen : text.strlen < len
  · obtain ⟨m', hstore, hholds⟩ := storeText_ok 0 m hlen
    exact .inl ⟨text, m', h, hlen, hstore, hholds⟩
  · exact .inr (.inl ⟨text, h, by omega, storeText_overflow 0 m (by omega)⟩)

theorem fillHostInet_filled (hfamily : sa.family = afInet) (m : Memory) (len : ℕ) :
    HostFilled r sa flags len 0 (fillHostInet r sa m len flags) := by
  have hne : ¬ sa.family = afInet6 := by rw [hfamily]; decide
  unfold fillHostInet
  by_cases hnumeric : hasFlag flags niNumerichost = true
  · rw [if_pos hnumeric]
    apply hostFilled_storeText
    rw [HostText, if_neg hne, if_pos hnumeric]
  · rw [if_neg hnumeric]
    cases hname : r.gethostbyaddr sa.addr with
    | some name =>
      apply hostFilled_storeText
      rw [HostText, if_neg hne, if_neg hnumeric]
      exact .inl hname
    | none =>
      dsimp only
      by_cases hreqd : hasFlag flags niNamereqd = true
      · rw [if_pos hreqd]
        refine .inr (.inr ⟨fun text h => ?_, rfl⟩)
        rw [HostText, if_neg hne, if_neg hnumeric, hname, hreqd] at h
        simp at h
      · rw [if_neg hreqd]
        apply hostFilled_storeText
        rw [HostText, if_neg hne, if_neg hnumeric]
        exact .inr ⟨hname, by simpa using hreqd, rfl⟩

theorem hostText_iff_ntopText (hfamily : sa.family = afInet6) :
    HostText r sa flags text ↔ text.bytes = ntopText sa.addr := by
  rw [HostText, if_pos hfamily]
  constructor
  · exact fun h => h.unique (ntopText_canonical sa.addr)
  · intro h
    rw [h]
    exact ntopText_canonical sa.addr

theorem fillHostInet6_filled (hsys : FormatsHex r.format) (hfamily : sa.family = afInet6)
    (hsound : NtopSound r.format sa.addr len) (tmp m : Memory) :
    HostFilled r sa flags len (shownGroups sa.addr).length (fillHostInet6 r tmp sa m len) := by
  have htext : HostText r sa flags ⟨ntopText sa.addr, (ntopText_canonical sa.addr).nulFree⟩ :=
    (hostText_iff_ntopText hfamily).mpr rfl
  unfold fillHostInet6
  rw [hsound.inetNtop_eq hsys]
  by_cases hlen : (ntopText sa.addr).length < len
  · rw [if_neg (by omega)]
    exact .inl ⟨_, _, htext, hlen, rfl, holdsText_memcpy m _⟩
  · rw [if_pos (by omega)]
    exact .inr (.inl ⟨_, htext, Nat.not_lt.mp hlen, rfl⟩)

/-- With an allocation refused that matters, the host is not the text of the address, or the call
leaves its buffer. -/
theorem fillHostInet6_cut (hsys : FormatsHex r.format) (hfamily : sa.family = afInet6)
    (hunsound : ¬ NtopSound r.format sa.addr len) (tmp m : Memory) :
    (¬ KeepsStart r.format (bestRun sa.addr) ∧ fillHostInet6 r tmp sa m len = .error .fault) ∨
      (KeepsStart r.format (bestRun sa.addr) ∧ ∃ m',
        fillHostInet6 r tmp sa m len = .ok (m', (shownGroups sa.addr).length) ∧
          ∀ text, HostText r sa flags text → ¬ HoldsText m' text) := by
  unfold fillHostInet6
  by_cases hstart : KeepsStart r.format (bestRun sa.addr)
  · obtain ⟨left, hnul, hlength, -, hntop⟩ := inetNtop_eq hsys hstart tmp
    rw [NtopSound, not_or, ← lost_eq_zero] at hunsound
    obtain ⟨hlost, hshort⟩ := hunsound
    have hlong : ¬ len + lost r.format.malloc 0 (shownGroups sa.addr) ≤ (ntopText sa.addr).length :=
      fun h => hshort ⟨hstart, h⟩
    rw [hntop, if_neg (by omega)]
    refine .inr ⟨hstart, _, rfl, fun text htext hholds => ?_⟩
    have hbytes := (hostText_iff_ntopText hfamily).mp htext
    have hlt : left.length < text.bytes.length := by rw [hbytes]; omega
    have hbyte := hholds left.length (by unfold CString.strlen; omega)
    dsimp only at hbyte
    rw [Memory.memcpy, if_pos (Nat.lt_succ_self _), List.getD_append_right _ _ _ _ le_rfl,
      Nat.sub_self, List.getD_append _ _ _ _ hlt, List.getD_eq_getElem _ _ hlt] at hbyte
    exact text.nulFree _ (List.getElem_mem hlt) hbyte.symm
  · rw [inetNtop_eq_none hstart]
    exact .inl ⟨hstart, rfl⟩

theorem printPort_refused {requests : ℕ} (hm : r.format.malloc requests = false) (m : Memory)
    (len : ℕ) : printPort r sa requests m len = (m, requests + 1) := by
  rw [printPort, solcompatVsnprintf_of_refused hm]
  rfl

theorem printPort_granted (hsys : FormatsPorts r.format) {requests : ℕ}
    (hm : r.format.malloc requests = true) (m : Memory) {len : ℕ} (hlen : 0 < len) :
    printPort r sa requests m len =
      (copyOut m len (decimalText (ntohs sa.port)).bytes, requests + 1) := by
  have hport : ntohs sa.port < 65536 := sa.port.toNat_lt
  have hfmt : (preprocessFmt (.ofString "%d") 2048).result (.ofString "%d") =
      (CString.ofString "%d").bytes := by decide +kernel
  have hshort := decimalText_strlen_le hport
  rw [printPort, solcompatVsnprintf_of_short hm (.ofString "%d") [ntohs sa.port]
    (hfmt ▸ hsys.decimal _ hport) (by unfold CString.strlen at hshort; omega), if_pos hlen]
  rfl

theorem printPort_holds (hsys : FormatsPorts r.format) {requests : ℕ}
    (hm : r.format.malloc requests = true) (m : Memory) {len : ℕ} (hlen : 0 < len) :
    HoldsText (printPort r sa requests m len).1 (decimalText (ntohs sa.port)) ↔
      (decimalText (ntohs sa.port)).strlen < len := by
  rw [printPort_granted hsys hm m hlen]
  generalize ntohs sa.port = p
  constructor
  · -- Where the text is cut a terminator stands, and the text has none.
    intro hholds
    by_contra hcut
    have hlast : len - 1 < (decimalText p).bytes.length := by
      unfold CString.strlen at hcut
      omega
    have hbyte := hholds (len - 1) (by unfold CString.strlen; omega)
    have hend := (copyOut_formatted m hlen (decimalText p).bytes).terminator
    rw [min_eq_right (by omega)] at hend
    dsimp only at hbyte
    rw [hend, List.getD_append _ _ _ _ hlast, List.getD_eq_getElem _ _ hlast] at hbyte
    exact (decimalText p).nulFree _ (List.getElem_mem hlast) hbyte.symm
  · intro hfits i hi
    unfold CString.strlen at hfits hi
    dsimp only
    rw [copyOut, if_pos hfits, Memory.memcpy, if_pos hi]

end Texts

section Calls

variable {r : NameServices} {sa : Sockaddr} {flags : UInt32} {tmp : Memory}
variable {host serv : Option Memory} {hostlen servlen : ℕ}

theorem fillWith_requested {fill : Memory → Except Stop (Memory × ℕ)} {buf : Option Memory}
    {len : ℕ} (requests : ℕ) (h : Requested buf len) :
    ∃ m, buf = some m ∧ fillWith fill requests buf len = (fill m).map (Prod.map some id) := by
  obtain ⟨hsome, hlen⟩ := h
  obtain ⟨m, rfl⟩ := Option.isSome_iff_exists.mp hsome
  exact ⟨m, rfl, if_pos hlen⟩

theorem fillWith_notRequested {fill : Memory → Except Stop (Memory × ℕ)} {buf : Option Memory}
    {len : ℕ} (requests : ℕ) (h : ¬ Requested buf len) :
    fillWith fill requests buf len = .ok (buf, requests) := by
  cases buf with
  | none => rfl
  | some m =>
    have hlen : ¬ 0 < len := fun hlen => h ⟨rfl, hlen⟩
    exact if_neg hlen

def HostFits (r : NameServices) (sa : Sockaddr) (flags : UInt32) (host : Option Memory)
    (hostlen : ℕ) : Prop :=
  Requested host hostlen → ∃ text, HostText r sa flags text ∧ text.strlen < hostlen

/-- `inet_ntop`, if the host needs it, is refused no memory that matters. -/
def HostSound (r : NameServices) (sa : Sockaddr) (host : Option Memory) (hostlen : ℕ) : Prop :=
  sa.family = afInet6 → Requested host hostlen → NtopSound r.format sa.addr hostlen

/-- The number of the allocation that the port needs: those of `inet_ntop` come first. -/
def portRequest (sa : Sockaddr) (host : Option Memory) (hostlen : ℕ) : ℕ :=
  if sa.family = afInet6 ∧ Requested host hostlen then (shownGroups sa.addr).length else 0

theorem portRequest_inet (hfamily : sa.family = afInet) : portRequest sa host hostlen = 0 := by
  have hne : ¬ sa.family = afInet6 := by rw [hfamily]; decide
  exact if_neg fun h => hne h.1

/-- The decimal port fits, and it is granted its memory or is in the buffer already. -/
def PortSound (r : NameServices) (sa : Sockaddr) (host : Option Memory) (hostlen : ℕ)
    (serv : Option Memory) (servlen : ℕ) : Prop :=
  (decimalText (ntohs sa.port)).strlen < servlen ∧
    (r.format.malloc (portRequest sa host hostlen) = true ∨
      ∃ m, serv = some m ∧ HoldsText m (decimalText (ntohs sa.port)))

/-- A name of the service is asked for that is too long for its buffer. -/
def NamedOverflow (r : NameServices) (sa : Sockaddr) (flags : UInt32) (serv : Option Memory)
    (servlen : ℕ) : Prop :=
  Requested serv servlen ∧ ¬ PlainPort r sa flags ∧ servlen ≤ (servText r sa flags).strlen

theorem fillHost_cases (hsys : FormatsHex r.format)
    (hfamily : sa.family = afInet ∨ sa.family = afInet6)
    (hsound : HostSound r sa host hostlen) :
    (HostFits r sa flags host hostlen ∧ ∃ host',
        fillHost r tmp sa host hostlen flags = .ok (host', portRequest sa host hostlen) ∧
        (Requested host hostlen →
          ∃ m text, host' = some m ∧ HostText r sa flags text ∧ HoldsText m text)) ∨
      Requested host hostlen ∧
        ((∃ text, HostText r sa flags text ∧ hostlen ≤ text.strlen ∧
            fillHost r tmp sa host hostlen flags = .error (.code eaiOverflow)) ∨
          (∀ text, ¬ HostText r sa flags text) ∧
            fillHost r tmp sa host hostlen flags = .error (.code eaiNoname)) := by
  by_cases hrequested : Requested host hostlen
  · obtain ⟨filled, hfill, hfilled⟩ : ∃ filled,
        fillHost r tmp sa host hostlen flags = filled.map (Prod.map some id) ∧
          HostFilled r sa flags hostlen (portRequest sa host hostlen) filled := by
      unfold fillHost
      rcases hfamily with hfamily | hfamily
      · obtain ⟨m, -, hm⟩ :=
          @fillWith_requested (fillHostInet r sa · hostlen flags) _ _ 0 hrequested
        rw [portRequest_inet hfamily]
        exact ⟨_, by rw [if_pos hfamily, hm], fillHostInet_filled hfamily m hostlen⟩
      · obtain ⟨m, -, hm⟩ :=
          @fillWith_requested (fillHostInet6 r tmp sa · hostlen) _ _ 0 hrequested
        have hne : ¬ sa.family = afInet := by rw [hfamily]; decide
        have hrequest : portRequest sa host hostlen = (shownGroups sa.addr).length :=
          if_pos ⟨hfamily, hrequested⟩
        rw [hrequest]
        exact ⟨_, by rw [if_neg hne, if_pos hfamily, hm],
          fillHostInet6_filled hsys hfamily (hsound hfamily hrequested) tmp m⟩
    rcases hfilled with ⟨text, m', htext, hlen, rfl, hholds⟩ | ⟨text, htext, hlen, rfl⟩ |
      ⟨hnone, rfl⟩
    · exact .inl ⟨fun _ => ⟨text, htext, hlen⟩, some m', hfill,
        fun _ => ⟨m', text, rfl, htext, hholds⟩⟩
    · exact .inr ⟨hrequested, .inl ⟨text, htext, hlen, hfill⟩⟩
    · exact .inr ⟨hrequested, .inr ⟨hnone, hfill⟩⟩
  · refine .inl ⟨fun h => absurd h hrequested, host, ?_, fun h => absurd h hrequested⟩
    rw [fillHost, portRequest, if_neg fun h : sa.family = afInet6 ∧ _ => hrequested h.2]
    rcases hfamily with hfamily | hfamily
    · rw [if_pos hfamily, fillWith_notRequested 0 hrequested]
    · have hne : ¬ sa.family = afInet := by rw [hfamily]; decide
      rw [if_neg hne, if_pos hfamily, fillWith_notRequested 0 hrequested]

theorem fillHost_cut (hsys : FormatsHex r.format) (hunsound : ¬ HostSound r sa host hostlen) :
    Requested host hostlen ∧
      ((¬ KeepsStart r.format (bestRun sa.addr) ∧
          fillHost r tmp sa host hostlen flags = .error .fault) ∨
        (KeepsStart r.format (bestRun sa.addr) ∧ ∃ m' requests,
          fillHost r tmp sa host hostlen flags = .ok (some m', requests) ∧
            ∀ text, HostText r sa flags text → ¬ HoldsText m' text)) := by
  simp only [HostSound, not_forall] at hunsound
  obtain ⟨hfamily, hrequested, hunsound⟩ := hunsound
  obtain ⟨m, -, hm⟩ := @fillWith_requested (fillHostInet6 r tmp sa · hostlen) _ _ 0 hrequested
  have hne : ¬ sa.family = afInet := by rw [hfamily]; decide
  refine ⟨hrequested, ?_⟩
  rw [fillHost, if_neg hne, if_pos hfamily, hm]
  rcases @fillHostInet6_cut r sa flags hostlen hsys hfamily hunsound tmp m with
    ⟨hstart, hfault⟩ | ⟨hstart, m', hok, hcut⟩
  · rw [hfault]
    exact .inl ⟨hstart, rfl⟩
  · rw [hok]
    exact .inr ⟨hstart, m', _, rfl, hcut⟩

theorem servText_of_plainPort (h : PlainPort r sa flags) :
    servText r sa flags = decimalText (ntohs sa.port) := by
  unfold servText
  split_ifs with hnumeric
  · rfl
  · rw [h.resolve_left hnumeric]
    rfl

theorem fillServ_plain (h : PlainPort r sa flags) (requests : ℕ) (m : Memory) :
    fillServ r sa requests m servlen flags = .ok (printPort r sa requests m servlen) := by
  unfold fillServ
  split_ifs with hnumeric
  · rfl
  · rw [h.resolve_left hnumeric]

theorem fillServ_named (h : ¬ PlainPort r sa flags) (requests : ℕ) (m : Memory) :
    fillServ r sa requests m servlen flags =
      storeText requests m servlen (servText r sa flags) := by
  obtain ⟨hnumeric, hnamed⟩ := not_or.mp h
  obtain ⟨name, hname⟩ := Option.ne_none_iff_exists'.mp hnamed
  rw [fillServ, servText, if_neg hnumeric, if_neg hnumeric, hname]
  rfl

theorem complete_of_overflow {result : NameInfo} (h : result.ret = eaiOverflow) :
    Complete r sa flags host hostlen serv servlen result where
  hostWhole hzero := by
    rw [h] at hzero
    exact absurd hzero (by decide)
  servWhole hzero := by
    rw [h] at hzero
    exact absurd hzero (by decide)
  overflow _ _ := h

/-- A required name that does not exist is neither cut off nor too long. -/
theorem complete_of_noname {result : NameInfo} (h : result.ret = eaiNoname)
    (hrequested : Requested host hostlen) (hnone : ∀ text, ¬ HostText r sa flags text) :
    Complete r sa flags host hostlen serv servlen result where
  hostWhole hzero := by
    rw [h] at hzero
    exact absurd hzero (by decide)
  servWhole hzero := by
    rw [h] at hzero
    exact absurd hzero (by decide)
  overflow hexists := by
    obtain ⟨text, htext⟩ := hexists hrequested
    exact absurd htext (hnone text)

theorem complete_iff_of_success {host' serv' : Option Memory}
    (hfits : HostFits r sa flags host hostlen)
    (hhost : Requested host hostlen →
      ∃ m text, host' = some m ∧ HostText r sa flags text ∧ HoldsText m text) :
    Complete r sa flags host hostlen serv servlen ⟨0, host', serv'⟩ ↔
      (Requested serv servlen → (servText r sa flags).strlen < servlen ∧
        ∃ m, serv' = some m ∧ HoldsText m (servText r sa flags)) := by
  constructor
  · intro hcomplete hrequested
    refine ⟨?_, hcomplete.servWhole rfl hrequested⟩
    by_contra hlong
    have hret := hcomplete.overflow (fun hasked => (hfits hasked).imp fun _ h => h.1)
      (.inr ⟨hrequested, not_lt.mp hlong⟩)
    exact absurd (show (0 : ℤ) = eaiOverflow from hret) (by decide)
  · intro hserv
    refine ⟨fun _ => hhost, fun _ hrequested => (hserv hrequested).2, ?_⟩
    rintro - (⟨hrequested, text, htext, hlong⟩ | ⟨hrequested, hlong⟩)
    · obtain ⟨text', htext', hlen⟩ := hfits hrequested
      rw [htext.unique htext'] at hlong
      omega
    · have := (hserv hrequested).1
      omega

/-- The service behind a host that is whole: a name, a port, or nothing. -/
theorem complete_iff_serv (hsys : FormatsPorts r.format)
    (hfits : HostFits r sa flags host hostlen) {host' : Option Memory}
    (hfill : fillHost r tmp sa host hostlen flags = .ok (host', portRequest sa host hostlen))
    (hhost : Requested host hostlen →
      ∃ m text, host' = some m ∧ HostText r sa flags text ∧ HoldsText m text) :
    (∃ result, getnameinfo r tmp sa host hostlen serv servlen flags = some result ∧
        Complete r sa flags host hostlen serv servlen result) ↔
      (Requested serv servlen → PlainPort r sa flags →
        PortSound r sa host hostlen serv servlen) := by
  unfold getnameinfo
  rw [hfill]
  dsimp only
  by_cases hrequested : Requested serv servlen
  · obtain ⟨m, rfl, hm⟩ := @fillWith_requested
      (fillServ r sa (portRequest sa host hostlen) · servlen flags) _ _
      (portRequest sa host hostlen) hrequested
    rw [hm]
    by_cases hplain : PlainPort r sa flags
    · rw [fillServ_plain hplain]
      simp only [Except.map, Prod.map, Option.some.injEq, exists_eq_left',
        complete_iff_of_success hfits hhost, servText_of_plainPort hplain, hrequested, hplain,
        forall_true_left, PortSound]
      refine and_congr_right fun hshort => ?_
      cases hm : r.format.malloc (portRequest sa host hostlen) with
      | true => exact iff_of_true ((printPort_holds hsys hm m hrequested.2).mpr hshort) (.inl rfl)
      | false =>
        rw [printPort_refused hm]
        simp
    · rw [fillServ_named hplain]
      refine iff_of_true ?_ fun _ h => absurd h hplain
      rcases Nat.lt_or_ge (servText r sa flags).strlen servlen with hshort | hlong
      · obtain ⟨m', hstore, hholds⟩ := storeText_ok (portRequest sa host hostlen) m hshort
        rw [hstore]
        exact ⟨_, rfl, (complete_iff_of_success hfits hhost).mpr
          fun _ => ⟨hshort, m', rfl, hholds⟩⟩
      · rw [storeText_overflow _ m hlong]
        exact ⟨_, rfl, complete_of_overflow rfl⟩
  · rw [fillWith_notRequested _ hrequested]
    exact iff_of_true ⟨_, rfl, (complete_iff_of_success hfits hhost).mpr
      fun h => absurd h hrequested⟩ fun h => absurd h hrequested

/-- Behind a host that is wrong the call is right only if it fails, with the name of the service. -/
theorem complete_iff_cut (hsys : FormatsHex r.format)
    (hunsound : ¬ HostSound r sa host hostlen) :
    (∃ result, getnameinfo r tmp sa host hostlen serv servlen flags = some result ∧
        Complete r sa flags host hostlen serv servlen result) ↔
      KeepsStart r.format (bestRun sa.addr) ∧ NamedOverflow r sa flags serv servlen := by
  obtain ⟨hasked, ⟨hstart, hfill⟩ | ⟨hstart, m', requests, hfill, hcut⟩⟩ :=
    @fillHost_cut r sa flags tmp host hostlen hsys hunsound
  · unfold getnameinfo
    rw [hfill]
    refine iff_of_false ?_ fun h => hstart h.1
    rintro ⟨result, hresult, -⟩
    cases hresult
  · have hwrong : ∀ serv', ¬ Complete r sa flags host hostlen serv servlen
        ⟨0, some m', serv'⟩ := by
      intro serv' hcomplete
      obtain ⟨m, text, hm, htext, hholds⟩ := hcomplete.hostWhole rfl hasked
      obtain rfl := Option.some.inj hm
      exact hcut text htext hholds
    unfold getnameinfo
    rw [hfill]
    dsimp only
    by_cases hrequested : Requested serv servlen
    · obtain ⟨m, rfl, hm⟩ :=
        @fillWith_requested (fillServ r sa requests · servlen flags) _ _ requests hrequested
      rw [hm]
      by_cases hplain : PlainPort r sa flags
      · rw [fillServ_plain hplain]
        refine iff_of_false ?_ fun h => h.2.2.1 hplain
        rintro ⟨result, hresult, hcomplete⟩
        obtain rfl := Option.some.inj hresult
        exact hwrong _ hcomplete
      · rw [fillServ_named hplain]
        rcases Nat.lt_or_ge (servText r sa flags).strlen servlen with hshort | hlong
        · obtain ⟨stored, hstore, -⟩ := storeText_ok requests m hshort
          rw [hstore]
          refine iff_of_false ?_ fun h => by have := h.2.2.2; omega
          rintro ⟨result, hresult, hcomplete⟩
          obtain rfl := Option.some.inj hresult
          exact hwrong _ hcomplete
        · rw [storeText_overflow requests m hlong]
          exact iff_of_true ⟨_, rfl, complete_of_overflow rfl⟩ ⟨hstart, hrequested, hplain, hlong⟩
    · rw [fillWith_notRequested requests hrequested]
      refine iff_of_false ?_ fun h => hrequested h.2.1
      rintro ⟨result, hresult, hcomplete⟩
      obtain rfl := Option.some.inj hresult
      exact hwrong _ hcomplete

/-- `getnameinfo` cuts nothing off silently, but for a decimal port, and where its formatter is
refused memory. -/
theorem getnameinfo_complete_iff (r : NameServices) (hsys : FormatsPorts r.format)
    (tmp : Memory) (sa : Sockaddr) (hfamily : sa.family = afInet ∨ sa.family = afInet6)
    (host : Option Memory) (hostlen : ℕ) (serv : Option Memory) (servlen : ℕ) (flags : UInt32) :
    (∃ result, getnameinfo r tmp sa host hostlen serv servlen flags = some result ∧
        Complete r sa flags host hostlen serv servlen result) ↔
      (HostSound r sa host hostlen ∨
          KeepsStart r.format (bestRun sa.addr) ∧ NamedOverflow r sa flags serv servlen) ∧
        (HostFits r sa flags host hostlen → Requested serv servlen → PlainPort r sa flags →
          PortSound r sa host hostlen serv servlen) := by
  by_cases hsound : HostSound r sa host hostlen
  · rcases @fillHost_cases r sa flags tmp host hostlen hsys.toFormatsHex hfamily hsound with
      ⟨hfits, host', hfill, hhost⟩ | ⟨hrequested, ⟨text, htext, hlong, hfill⟩ | ⟨hnone, hfill⟩⟩
    · rw [complete_iff_serv hsys hfits hfill hhost]
      exact ⟨fun h => ⟨.inl hsound, fun _ => h⟩, fun h => h.2 hfits⟩
    · refine iff_of_true ⟨⟨eaiOverflow, host, serv⟩, ?_, complete_of_overflow rfl⟩
        ⟨.inl hsound, fun hfits => ?_⟩
      · rw [getnameinfo, hfill]
      · obtain ⟨text', htext', hlen⟩ := hfits hrequested
        rw [htext.unique htext'] at hlong
        omega
    · refine iff_of_true ⟨⟨eaiNoname, host, serv⟩, ?_, complete_of_noname rfl hrequested hnone⟩
        ⟨.inl hsound, fun hfits => ?_⟩
      · rw [getnameinfo, hfill]
      · obtain ⟨text, htext, -⟩ := hfits hrequested
        exact absurd htext (hnone text)
  · rw [complete_iff_cut hsys.toFormatsHex hsound]
    constructor
    · exact fun h => ⟨.inr h, fun _ _ hplain => absurd hplain h.2.2.1⟩
    · exact fun h => h.1.resolve_left hsound

/-- A system that knows `%x` and `%d`. -/
def portSystem : System (List ℕ) where
  vsprintf fmt args :=
    if fmt = (CString.ofString "%x").bytes then args.head?.map hexText
    else if fmt = (CString.ofString "%d").bytes then args.head?.map (decimalText · |>.bytes)
    else none
  storedOnError _ _ := 0
  malloc _ := true

theorem portSystem_formats : FormatsPorts portSystem where
  hex w _ := by simp [portSystem]
  decimal p _ := by
    have hne : (CString.ofString "%d").bytes ≠ (CString.ofString "%x").bytes := by decide
    simp [portSystem, hne]

/-- Nothing but the loopback address is known, by the name `localhost`. -/
def localServices : NameServices where
  inetNtoa _ := .ofString "127.0.0.1"
  gethostbyaddr _ := some (.ofString "localhost")
  getservbyport _ _ := none
  format := portSystem

theorem decimalText_8080 : (decimalText 8080).strlen = 4 := by
  simp [decimalText, CString.strlen, decimalDigits]

/-- `localhost` and port 8080 into buffers that hold both. -/
theorem getnameinfo_complete_iff_localhost :
    ∃ result, getnameinfo localServices (fun _ => 0) ⟨afInet, 8080, fun _ => 0⟩ (some fun _ => 0)
        10 (some fun _ => 0) 5 0 = some result ∧
      Complete localServices ⟨afInet, 8080, fun _ => 0⟩ 0 (some fun _ => 0) 10
        (some fun _ => 0) 5 result := by
  refine (getnameinfo_complete_iff localServices portSystem_formats (fun _ => 0)
    ⟨afInet, 8080, fun _ => 0⟩ (.inl rfl) (some fun _ => 0) 10 (some fun _ => 0) 5 0).mpr ?_
  refine ⟨.inl fun hfamily => absurd hfamily (by decide), fun _ _ _ => ⟨?_, .inl rfl⟩⟩
  change (decimalText 8080).strlen < 5
  rw [decimalText_8080]
  norm_num

/-- Port 8080 into three bytes: the call succeeds and the buffer does not hold the port. -/
theorem getnameinfo_cuts_port :
    ¬ ∃ result, getnameinfo localServices (fun _ => 0) ⟨afInet, 8080, fun _ => 0⟩ none 0
        (some fun _ => 0) 3 niNumericserv = some result ∧
      Complete localServices ⟨afInet, 8080, fun _ => 0⟩ niNumericserv none 0
        (some fun _ => 0) 3 result := by
  have hfits : HostFits localServices ⟨afInet, 8080, fun _ => 0⟩ niNumericserv none 0 :=
    fun h => absurd h.2 (lt_irrefl 0)
  rw [complete_iff_serv portSystem_formats hfits rfl fun h => absurd h.2 (lt_irrefl 0)]
  intro h
  have hshort : (decimalText 8080).strlen < 3 := (h ⟨rfl, by norm_num⟩ (.inl (by decide))).1
  rw [decimalText_8080] at hshort
  omega

end Calls

end Solcompat.Network
