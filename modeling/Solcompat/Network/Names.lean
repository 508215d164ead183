import Solcompat.Network.NameInfo
import Solcompat.Network.Requests

/-!
# From names back to addresses

With numeric flags the texts that `getnameinfo` stores are those that `getaddrinfo` reads without
a resolver. The address comes back whenever the first call succeeds. The port comes back without
the digits that the buffer had no room for.
-/

namespace Solcompat.Network

open Lib Printf Inet

section Digits

theorem foldl_digits (ds : List ℕ) :
    ds.foldl (fun (v : ℤ) (d : ℕ) => 10 * v + d) 0 = (Nat.ofDigits 10 ds.reverse : ℕ) := by
  induction ds using List.reverseRecOn with
  | nil => rfl
  | append_singleton ds d ih =>
    rw [List.foldl_append, ih, List.reverse_append, List.reverse_singleton, List.singleton_append,
      Nat.ofDigits_cons]
    push_cast
    simp only [List.foldl_cons, List.foldl_nil]
    ring

theorem ofDigits_take (p n : ℕ) :
    Nat.ofDigits 10 ((decimalDigits p).take n).reverse =
      p / 10 ^ ((decimalDigits p).length - n) := by
  unfold decimalDigits
  by_cases hp : p = 0
  · cases n <;> simp [hp]
  · rw [if_neg hp, List.take_reverse, List.reverse_reverse, List.length_reverse,
      Nat.self_div_pow_eq_ofDigits_drop _ _ (by norm_num)]

theorem isdigit_byte {d : ℕ} (hd : d < 10) : isdigit (UInt8.ofNat (48 + d)) = true := by
  interval_cases d <;> decide

theorem byte_toNat {d : ℕ} (hd : d < 10) : (UInt8.ofNat (48 + d)).toNat = 48 + d := by
  rw [UInt8.toNat_ofNat']
  omega

/-- Digits have neither blanks nor a sign before them, and nothing behind. -/
theorem strtol10_digits {bs : List UInt8} (hbs : ∀ b ∈ bs, isdigit b = true) :
    strtol10 bs = (max (-2147483648) (min 2147483647
      (bs.foldl (fun (v : ℤ) b => 10 * v + (b.toNat - 48)) 0)), []) := by
  have htake : bs.takeWhile isdigit = bs := List.takeWhile_eq_self_iff.mpr hbs
  have hdrop : bs.dropWhile isdigit = [] := List.dropWhile_eq_nil_iff.mpr hbs
  cases bs with
  | nil => rfl
  | cons b rest =>
    have hb : isdigit b = true := hbs b List.mem_cons_self
    have hplain : isspace b = false ∧ b ≠ ch '-' ∧ b ≠ ch '+' := by
      have hbounds : 48 ≤ b.toNat ∧ b.toNat ≤ 57 := by
        simpa [isdigit, ch, UInt8.le_iff_toNat_le] using hb
      refine ⟨?_, ?_, ?_⟩
      · simp only [isspace, Bool.or_eq_false_iff, beq_eq_false_iff_ne, Bool.and_eq_false_iff,
          decide_eq_false_iff_not, UInt8.le_iff_toNat_le, ne_eq, ← UInt8.toNat_inj]
        exact ⟨by simp; omega, .inr (by simp; omega)⟩
      · rintro rfl
        exact absurd hbounds.1 (by decide)
      · rintro rfl
        exact absurd hbounds.1 (by decide)
    have hspace : (b :: rest).dropWhile isspace = b :: rest := by
      rw [List.dropWhile_cons, hplain.1]
      rfl
    have hsign : takeSign (b :: rest) = (false, b :: rest) := by
      rw [takeSign, if_neg hplain.2.1, if_neg hplain.2.2]
    simp only [strtol10, hspace, hsign, htake, hdrop, List.cons_ne_nil, if_false,
      Bool.false_eq_true]

end Digits

section Service

variable {r : Resolver} {q : Hints} {p : ℕ}

/-- The first `n` bytes of a port in decimal. -/
def decimalFront (p n : ℕ) : CString :=
  ⟨(decimalText p).bytes.take n, fun b hb => (decimalText p).nulFree b (List.mem_of_mem_take hb)⟩

/-- The digits of a port that are not among its first `n`. -/
def missing (p n : ℕ) : ℕ := (decimalText p).strlen - n

theorem strtol10_front (hp : p < 65536) (n : ℕ) :
    strtol10 (decimalFront p n).bytes = (((p / 10 ^ missing p n : ℕ) : ℤ), []) := by
  have hdigits : ∀ d ∈ (decimalDigits p).take n, d < 10 := fun d hd =>
    decimalDigits_lt (List.mem_of_mem_take hd)
  have hbytes : (decimalFront p n).bytes =
      ((decimalDigits p).take n).map fun d => UInt8.ofNat (48 + d) := List.map_take.symm
  have hall : ∀ b ∈ (decimalFront p n).bytes, isdigit b = true := by
    intro b hb
    rw [hbytes] at hb
    obtain ⟨d, hd, rfl⟩ := List.mem_map.mp hb
    exact isdigit_byte (hdigits d hd)
  have hvalue : (decimalFront p n).bytes.foldl (fun (v : ℤ) b => 10 * v + (b.toNat - 48)) 0 =
      ((p / 10 ^ missing p n : ℕ) : ℤ) := by
    have hlength : (decimalText p).strlen = (decimalDigits p).length := List.length_map _
    rw [missing, hlength, ← ofDigits_take p n, ← foldl_digits, hbytes,
      List.foldl_map]
    refine List.foldl_ext _ _ _ fun v d hd => ?_
    rw [byte_toNat (hdigits d hd)]
    push_cast
    ring
  have hle : p / 10 ^ missing p n ≤ p := Nat.div_le_self _ _
  rw [strtol10_digits hall, hvalue]
  generalize p / 10 ^ missing p n = v at hle
  congr 1
  omega

theorem resolveService_front (hp : p < 65536) (n : ℕ) :
    resolveService r (some (decimalFront p n)) q = .ok (p / 10 ^ missing p n) := by
  have hle : p / 10 ^ missing p n ≤ p := Nat.div_le_self _ _
  rw [resolveService, strtol10_front hp n]
  generalize p / 10 ^ missing p n = v at hle
  dsimp only
  rw [if_pos ⟨rfl, by omega, by omega⟩, Int.toNat_natCast]

theorem front_eq_iff (p n : ℕ) :
    p / 10 ^ missing p n = p ↔ p = 0 ∨ (decimalText p).strlen ≤ n := by
  rcases Nat.eq_zero_or_pos p with rfl | hp
  · simp
  · rw [Nat.div_eq_self]
    have hpow : 10 ^ missing p n = 1 ↔ missing p n = 0 := by
      rw [Nat.pow_eq_one]
      simp
    rw [hpow, missing, Nat.sub_eq_zero_iff_le]

end Service

section Calls

variable {ns : NameServices} {r : Resolver} {tmp host serv : Memory} {sa : Sockaddr}
variable {hostlen servlen : ℕ} {flags : UInt32}

theorem printPort_front (hformat : FormatsPorts ns.format) (hm : ns.format.malloc 0 = true)
    (hlen : 0 < servlen) :
    HoldsText (printPort ns sa 0 serv servlen).1
      (decimalFront (ntohs sa.port) (servlen - 1)) := by
  rw [printPort_granted hformat hm serv hlen]
  generalize ntohs sa.port = p
  have hformatted := copyOut_formatted serv hlen (decimalText p).bytes
  have hlength : (decimalFront p (servlen - 1)).bytes.length =
      min (decimalText p).bytes.length (servlen - 1) := by
    rw [decimalFront, List.length_take, min_comm]
  dsimp only
  intro i hi
  rw [CString.strlen, hlength] at hi
  rcases Nat.lt_succ_iff_lt_or_eq.mp hi with hi | rfl
  · rw [hformatted.contents i hi, List.getD_append _ _ _ _ (by omega), decimalFront,
      List.getD_eq_getElem _ _ (by omega),
      List.getD_eq_getElem _ _ (by rw [List.length_take]; omega), List.getElem_take]
  · rw [hformatted.terminator, List.getD_append_right _ _ _ _ hlength.le, hlength]
    simp

/-- The address in network order, which is that of SPARC. -/
def addrWord (m : Memory) : UInt32 := .ofNat (m.number 0 4)

/-- A numeric `getnameinfo` succeeds exactly when the text of the address fits. -/
theorem getnameinfo_numeric (hformat : FormatsPorts ns.format) (hm : ns.format.malloc 0 = true)
    (hfamily : sa.family = afInet) (hhost : hasFlag flags niNumerichost = true)
    (hserv : PlainPort ns sa flags) (hservlen : 0 < servlen)
    (hfits : (ns.inetNtoa sa.addr).strlen < hostlen) :
    ∃ host' serv', getnameinfo ns tmp sa (some host) hostlen (some serv) servlen flags =
        some ⟨0, some host', some serv'⟩ ∧ HoldsText host' (ns.inetNtoa sa.addr) ∧
      HoldsText serv' (decimalFront (ntohs sa.port) (servlen - 1)) := by
  have hhostlen : 0 < hostlen := Nat.lt_of_le_of_lt (Nat.zero_le _) hfits
  obtain ⟨host', hstore, hholds⟩ := storeText_ok 0 host hfits
  have hfillHost : fillHost ns tmp sa (some host) hostlen flags = .ok (some host', 0) := by
    rw [fillHost, if_pos hfamily, fillWith]
    rw [if_pos hhostlen, fillHostInet, if_pos hhost, hstore]
    rfl
  have hfillServ : fillWith (fillServ ns sa 0 · servlen flags) 0 (some serv) servlen =
      .ok (some (printPort ns sa 0 serv servlen).1, (printPort ns sa 0 serv servlen).2) := by
    rw [fillWith]
    rw [if_pos hservlen, fillServ_plain hserv]
    rfl
  refine ⟨host', (printPort ns sa 0 serv servlen).1, ?_, hholds,
    printPort_front hformat hm hservlen⟩
  rw [getnameinfo, hfillHost]
  dsimp only
  rw [hfillServ]

theorem getnameinfo_numeric_overflow (hfamily : sa.family = afInet)
    (hhost : hasFlag flags niNumerichost = true) (hhostlen : 0 < hostlen)
    (hlong : hostlen ≤ (ns.inetNtoa sa.addr).strlen) :
    getnameinfo ns tmp sa (some host) hostlen (some serv) servlen flags =
      some ⟨eaiOverflow, some host, some serv⟩ := by
  have hfillHost : fillHost ns tmp sa (some host) hostlen flags =
      .error (.code eaiOverflow) := by
    rw [fillHost, if_pos hfamily, fillWith]
    rw [if_pos hhostlen, fillHostInet, if_pos hhost, storeText_overflow 0 host hlong]
    rfl
  rw [getnameinfo, hfillHost]

theorem outcome_numeric {q : Hints} {port : ℕ} {node service : CString} {addr : UInt32} {h : Heap}
    (hflag : hasFlag q.aiFlags aiNumerichost = true)
    (hfamily : q.aiFamily = afUnspec ∨ q.aiFamily = afInet) (hnode : r.inetAton node = some addr)
    (hservice : resolveService r (some service) q = .ok port)
    (hgrant : r.grants h.requests = true) :
    outcome (getaddrinfo r (some node) (some service) (some q) h) =
      some (.ok (entriesFor (typeOf q) q.aiProtocol port [addr])) := by
  obtain ⟨h', hnew, hentry, -, hrequests⟩ := @newEntry_spec r port q h hgrant addr
  rw [getaddrinfo_ok (some q) (by simp) hfamily hservice, Option.getD_some]
  simp only [resolveNode, hflag, if_true, hnode, hnew]
  exact outcome_listed (listed_singleton hentry rfl (by omega)) rfl

end Calls

/-- The texts that a numeric `getnameinfo` stores, granted the memory for the port, are resolved to
the same address. The port is the one without the digits for which the buffer has no room, so that
it comes back exactly when all of them fit or it is zero. -/
theorem getnameinfo_getaddrinfo (ns : NameServices) (r : Resolver)
    (hformat : FormatsPorts ns.format) (hm : ns.format.malloc 0 = true) (tmp : Memory)
    (sa : Sockaddr) (hfamily : sa.family = afInet)
    (haton : r.inetAton (ns.inetNtoa sa.addr) = some (addrWord sa.addr)) (flags : UInt32)
    (hhost : hasFlag flags niNumerichost = true) (hserv : PlainPort ns sa flags)
    (host serv : Memory) (hostlen servlen : ℕ) (hhostlen : 0 < hostlen) (hservlen : 0 < servlen)
    (hret : (getnameinfo ns tmp sa (some host) hostlen (some serv) servlen flags).map
      NameInfo.ret = some 0) (q : Hints) (hflag : hasFlag q.aiFlags aiNumerichost = true)
    (hinet : q.aiFamily = afUnspec ∨ q.aiFamily = afInet) (h : Heap)
    (hgrant : r.grants h.requests = true) :
    ∃ host' serv' node service port,
      getnameinfo ns tmp sa (some host) hostlen (some serv) servlen flags =
          some ⟨0, some host', some serv'⟩ ∧
        HoldsText host' node ∧ HoldsText serv' service ∧
        outcome (getaddrinfo r (some node) (some service) (some q) h) =
          some (.ok (entriesFor (typeOf q) q.aiProtocol port [addrWord sa.addr])) ∧
        port = ntohs sa.port / 10 ^ ((decimalText (ntohs sa.port)).strlen - (servlen - 1)) ∧
        (port = ntohs sa.port ↔
          ntohs sa.port = 0 ∨ (decimalText (ntohs sa.port)).strlen < servlen) := by
  have hfits : (ns.inetNtoa sa.addr).strlen < hostlen := by
    by_contra hlong
    rw [getnameinfo_numeric_overflow hfamily hhost hhostlen (not_lt.mp hlong)] at hret
    exact absurd (show eaiOverflow = 0 from Option.some.inj hret) (by decide)
  obtain ⟨host', serv', hcall, hnode, hservice⟩ :=
    getnameinfo_numeric hformat hm hfamily hhost hserv hservlen hfits
  have hport : ntohs sa.port < 65536 := sa.port.toNat_lt
  refine ⟨host', serv', _, _, _, hcall, hnode, hservice,
    outcome_numeric hflag hinet haton (resolveService_front hport (servlen - 1)) hgrant, rfl, ?_⟩
  rw [front_eq_iff]
  omega

/-- The loopback address and port 8080. -/
def loopbackSockaddr : Sockaddr := ⟨afInet, 8080, fun k => [127, 0, 0, 1].getD k 0⟩

/-- The buffer for the port has room for two digits. -/
theorem getnameinfo_getaddrinfo_loopback :
    ∃ host' serv' node service port,
      getnameinfo localServices (fun _ => 0) loopbackSockaddr (some fun _ => 0) 16
          (some fun _ => 0) 3 (niNumerichost ||| niNumericserv) =
        some ⟨0, some host', some serv'⟩ ∧
        HoldsText host' node ∧ HoldsText serv' service ∧
        outcome (getaddrinfo loopbackResolver (some node) (some service)
            (some Hints.zero.addNumerichost) .empty) =
          some (.ok (entriesFor sockStream 0 port [inaddrLoopback])) ∧
        port = 8080 / 10 ^ ((decimalText 8080).strlen - 2) ∧
        (port = 8080 ↔ 8080 = 0 ∨ (decimalText 8080).strlen < 3) :=
  getnameinfo_getaddrinfo localServices loopbackResolver portSystem_formats rfl (fun _ => 0)
    loopbackSockaddr rfl (by decide) (niNumerichost ||| niNumericserv) (by decide)
    (.inl (by decide)) (fun _ => 0) (fun _ => 0) 16 3 (by decide) (by decide) rfl
    Hints.zero.addNumerichost (by decide) (.inl rfl) .empty rfl

end Solcompat.Network
