import Solcompat.Network.Results

/-!
# Requests that mean the same

No hints stand for hints that are zero, and a numeric node is resolved without a resolver, so
two requests that differ only in this should be answered alike. They are not: the copies for
UDP are made when the hints are there and leave the type open, and the way for numeric nodes
returns before. The answers agree exactly when no copy would be made.
-/

namespace Solcompat.Network

open Lib Inet

/-- The results, read from the heap through the links and the pointers to the addresses. -/
def readList : ℕ → Option ℕ → Heap → Option (List Result)
  | _, none, _ => some []
  | 0, some _, _ => none
  | rounds + 1, some k, h => do
    let (ai, _) ← h.node k
    let (_, sin) ← h.node (← ai.aiAddr)
    let rest ← readList rounds ai.aiNext h
    some (⟨ai.aiFamily, ai.aiSocktype, ai.aiProtocol, sin⟩ :: rest)

def outcome (answer : Option Answer) : Option (Except ℤ (List Result)) := do
  let ans ← answer
  if ans.ret ≠ 0 then some (.error ans.ret)
  else (readList ans.heap.requests ans.res ans.heap).map .ok

/-- The hints with the flag for numeric nodes. -/
def Hints.addNumerichost (q : Hints) : Hints := { q with aiFlags := q.aiFlags ||| aiNumerichost }

def Hints.dropNumerichost (q : Hints) : Hints :=
  { q with aiFlags := q.aiFlags &&& ~~~aiNumerichost }

/-- The service is a number of sixteen bits, or it has a name that is known. -/
def ServiceKnown (r : Resolver) (service : Option CString) (q : Hints) : Prop :=
  ∀ s ∈ service,
    ((strtol10 s.bytes).2 = [] ∧ 0 ≤ (strtol10 s.bytes).1 ∧ (strtol10 s.bytes).1 ≤ 65535) ∨
      hasFlag q.aiFlags aiNumericserv = false ∧
        ∃ port, r.getservbyname s (servProto q.aiSocktype) = some port

/-- The number of addresses of a node; without a node there is one address. -/
def addressCount (r : Resolver) (node : Option CString) : ℕ :=
  match node with
  | none => 1
  | some node =>
    match r.gethostbyname node with
    | .error _ => 0
    | .ok he => he.hAddrList.length

section Flags

variable {flags b c : UInt32} {q : Hints}

theorem hasFlag_or (flags b c : UInt32) :
    hasFlag (flags ||| b) c = (hasFlag flags c || hasFlag b c) := by
  have hdistrib : (flags ||| b) &&& c = (flags &&& c) ||| (b &&& c) :=
    UInt32.toBitVec_inj.mp BitVec.and_or_distrib_right
  have hzero (x y : UInt32) : x ||| y = 0 ↔ x = 0 ∧ y = 0 := by
    rw [← UInt32.toBitVec_inj, ← UInt32.toBitVec_inj, ← UInt32.toBitVec_inj]
    exact BitVec.or_eq_zero_iff
  rw [hasFlag, hasFlag, hasFlag, hdistrib, Bool.eq_iff_iff]
  simp only [bne_iff_ne, ne_eq, Bool.or_eq_true, hzero, not_and_or]

theorem hasFlag_and_not (hdisj : ~~~b &&& c = c) :
    hasFlag (flags &&& ~~~b) c = hasFlag flags c := by
  rw [hasFlag, hasFlag, UInt32.and_assoc, hdisj]

@[simp]
theorem hasFlag_addNumerichost : hasFlag q.addNumerichost.aiFlags aiNumerichost = true := by
  rw [Hints.addNumerichost, hasFlag_or]
  exact Bool.or_true _

@[simp]
theorem hasFlag_dropNumerichost : hasFlag q.dropNumerichost.aiFlags aiNumerichost = false := by
  rw [Hints.dropNumerichost, hasFlag, UInt32.and_assoc]
  simp [aiNumerichost]

theorem hasFlag_add_of_ne (hb : hasFlag aiNumerichost b = false) :
    hasFlag q.addNumerichost.aiFlags b = hasFlag q.aiFlags b := by
  rw [Hints.addNumerichost, hasFlag_or, hb, Bool.or_false]

theorem resolveService_congr (r : Resolver) (service : Option CString) {q' : Hints}
    (htype : q'.aiSocktype = q.aiSocktype)
    (hflag : hasFlag q'.aiFlags aiNumericserv = hasFlag q.aiFlags aiNumericserv) :
    resolveService r service q' = resolveService r service q := by
  cases service with
  | none => rfl
  | some s => simp only [resolveService, htype, hflag]

theorem resolveService_ok_iff {r : Resolver} {service : Option CString} :
    (∃ port, resolveService r service q = .ok port) ↔ ServiceKnown r service q := by
  cases service with
  | none => simp [resolveService, ServiceKnown]
  | some s =>
    simp only [ServiceKnown, Option.mem_some_iff, forall_eq']
    by_cases hnumber : (strtol10 s.bytes).2 = [] ∧ 0 ≤ (strtol10 s.bytes).1 ∧
        (strtol10 s.bytes).1 ≤ 65535
    · simp [resolveService, hnumber]
    · by_cases hflag : hasFlag q.aiFlags aiNumericserv = true
      · simp [resolveService, hnumber, hflag]
      · cases hserv : r.getservbyname s (servProto q.aiSocktype) <;>
          simp [resolveService, hnumber, hflag, hserv]

end Flags

section Reading

variable {r : Resolver} {h : Heap} {p : Option ℕ} {ks : List ℕ}
variable {es : List (AddrInfo × SockaddrIn)} {hints : Option Hints}

theorem readList_spec (hl : Listed h p ks es) (hown : es.map (·.1.aiAddr) = ks.map some)
    {rounds : ℕ} (hrounds : ks.length ≤ rounds) :
    readList rounds p h = some (es.map resultOf) := by
  induction ks generalizing p es rounds with
  | nil =>
    obtain rfl : p = none := hl.linked
    obtain rfl : es = [] := List.eq_nil_of_length_eq_zero hl.length_eq
    simp [readList]
  | cons k ks ih =>
    obtain _ | rounds := rounds
    · simp at hrounds
    obtain ⟨e, es, rfl⟩ := List.exists_cons_of_length_eq_add_one hl.length_eq
    obtain ⟨rfl, p', hnode, hrest, -⟩ := hl.uncons
    obtain ⟨haddr, hown⟩ := List.cons.inj hown
    have hread := ih hrest hown (Nat.le_of_succ_le_succ hrounds)
    simp only [readList, hnode, haddr, hread, Option.bind_eq_bind, Option.bind_some]
    rfl

theorem outcome_listed (hl : Listed h p ks es) (hown : es.map (·.1.aiAddr) = ks.map some) :
    outcome (some ⟨0, p, h⟩) = some (.ok (es.map resultOf)) := by
  simp [outcome, readList_spec hl hown hl.length_le]

theorem copies_eq_zero {k n : ℕ} (hn : 0 < n) : copies r k n = 0 ↔ r.grants k = false := by
  obtain ⟨n, rfl⟩ := Nat.exists_eq_add_one_of_ne_zero hn.ne'
  unfold copies
  split_ifs with hgrant <;> simp [hgrant]

/-- Nothing is added to a list when the hints are missing or name a type, or when the first
copy cannot be allocated. -/
theorem outcome_finish_iff {k : ℕ} (hl : Listed h (some k) ks es)
    (hown : es.map (·.1.aiAddr) = ks.map some) :
    outcome (finish r hints (some k) h) = some (.ok (es.map resultOf)) ↔
      (hints.map (·.aiSocktype) ≠ some 0 ∨ r.grants h.requests = false) := by
  by_cases htype : hints.map (·.aiSocktype) = some 0
  · obtain ⟨ns, h', hfinish, hlength, hl', -⟩ := @finish_spec r h ks es hints k htype hl hown
    have hpos : 0 < ks.length := by
      obtain _ | ⟨j, ks⟩ := ks
      · cases hl.linked
      · exact Nat.succ_pos _
    have hle : ns.length ≤ es.length := by
      rw [hlength, hl.length_eq]
      exact copies_le r _ _
    have hown' : (es ++ List.zipWith dupOf ns es).map (·.1.aiAddr) = (ks ++ ns).map some := by
      rw [List.map_append, hown, map_addr_zipWith (fun _ _ => rfl) hle, List.map_append]
    have hnone : List.zipWith dupOf ns es = [] ↔ ns.length = 0 := by
      rw [← List.length_eq_zero_iff, List.length_zipWith]
      omega
    rw [hfinish, outcome_listed hl' hown', Option.some_inj, Except.ok.injEq, List.map_append,
      List.append_right_eq_self, List.map_eq_nil_iff, hnone, hlength, copies_eq_zero hpos]
    simp [htype]
  · rw [finish, if_neg htype, outcome_listed hl hown]
    simp [htype]

end Reading

section Decoding

variable {r : Resolver} {node service : Option CString}

theorem getaddrinfo_error (hints : Option Hints) {e : ℤ}
    (hrequest : ¬(node = none ∧ service = none))
    (hfamily : (hints.getD .zero).aiFamily = afUnspec ∨ (hints.getD .zero).aiFamily = afInet)
    (hservice : resolveService r service (hints.getD .zero) = .error e) (h : Heap) :
    getaddrinfo r node service hints h = some ⟨e, none, h⟩ := by
  rcases hfamily with hfamily | hfamily <;>
    simp [getaddrinfo, hrequest, hservice, hfamily, afUnspec, afInet, afInet6]

theorem getaddrinfo_ok (hints : Option Hints) {port : ℕ}
    (hrequest : ¬(node = none ∧ service = none))
    (hfamily : (hints.getD .zero).aiFamily = afUnspec ∨ (hints.getD .zero).aiFamily = afInet)
    (hservice : resolveService r service (hints.getD .zero) = .ok port) (h : Heap) :
    getaddrinfo r node service hints h = resolveNode r node hints (hints.getD .zero) port h := by
  rcases hfamily with hfamily | hfamily <;>
    simp [getaddrinfo, hrequest, hservice, hfamily, afUnspec, afInet, afInet6]

end Decoding

section Missing

variable {r : Resolver} {port : ℕ} {h : Heap} {ks : List ℕ} {es : List (AddrInfo × SockaddrIn)}

theorem finish_null_iff {k : ℕ} (hl : Listed h (some k) ks es)
    (hown : es.map (·.1.aiAddr) = ks.map some) :
    outcome (finish r none (some k) h) = outcome (finish r (some .zero) (some k) h) ↔
      r.grants h.requests = false := by
  have hnull : outcome (finish r none (some k) h) = some (.ok (es.map resultOf)) :=
    (outcome_finish_iff hl hown).mpr (.inl (by simp))
  rw [hnull, eq_comm, outcome_finish_iff hl hown]
  simp [Hints.zero]

theorem askedName_zero (hName : Option CString) : askedName .zero hName = none :=
  if_neg (by decide)

theorem hostLoop_first_refused (hName : Option CString) {addrs : List UInt32} {i : ℕ}
    (hi : i < addrs.length) (hrefused : r.grants (h.requests + i) = false) (p' : Option ℕ)
    (h' : Heap) :
    hostLoop r port .zero hName 0 addrs none .head h ≠ some (.ok p', h') := by
  obtain ⟨addr, addrs, rfl⟩ := List.exists_cons_of_length_pos (Nat.zero_lt_of_lt hi)
  by_cases hgrant : r.grants h.requests = true
  · obtain _ | i := i
    · rw [Nat.add_zero, hgrant] at hrefused
      cases hrefused
    obtain ⟨canon, h₁, hfirst, hnode, -, hrequests₁⟩ :=
      @hostLoop_first r port .zero h hgrant hName addr addrs
    rw [nameRequests, askedName_zero] at hrequests₁
    have hone := listed_singleton hnode rfl (by omega)
    rw [hfirst]
    refine hostLoop_refused hName one_ne_zero (Nat.lt_of_succ_lt_succ hi) ?_ hone p' h'
    rwa [hrequests₁, Option.toList_none, List.length_nil, Nat.add_zero, Nat.add_assoc,
      Nat.add_comm 1 i]
  · rw [hostLoop, newEntry, if_neg hgrant]
    simp [freeaddrinfo, freeLoop]

theorem hostLoop_first_granted (hName : Option CString) {addrs : List UInt32} (haddrs : addrs ≠ [])
    (hgrants : ∀ i < addrs.length, r.grants (h.requests + i) = true) :
    ∃ k ks es h', hostLoop r port .zero hName 0 addrs none .head h = some (.ok (some k), h') ∧
      Listed h' (some k) ks es ∧ es.map (·.1.aiAddr) = ks.map some ∧
      h'.requests = h.requests + addrs.length := by
  obtain ⟨addr, addrs, rfl⟩ := List.exists_cons_of_ne_nil haddrs
  have hplain : nameRequests .zero hName = 0 := by
    rw [nameRequests, askedName_zero]
    rfl
  have hrest : ∀ j < addrs.length,
      r.grants (h.requests + 1 + nameRequests .zero hName + j) = true := by
    intro j hj
    rw [hplain, Nat.add_zero, Nat.add_assoc, Nat.add_comm 1 j]
    exact hgrants (j + 1) (Nat.succ_lt_succ hj)
  obtain ⟨k, ms, canon, h', hloop, hlength, hl, -, hrequests⟩ :=
    @hostLoop_cons_spec r port .zero h (hgrants 0 (Nat.succ_pos _)) hName addr addrs hrest
  refine ⟨k, k :: ms, _, h', hloop, hl, ?_, ?_⟩
  · rw [List.map_cons, map_addr_zipWith (fun _ _ => rfl) hlength.le]
    rfl
  · rw [hrequests, hplain, List.length_cons]
    omega

/-- Without a node there is one block for the address, and one for the copy. -/
theorem resolveNode_none_iff (r : Resolver) (port : ℕ) (h : Heap) :
    outcome (resolveNode r none none .zero port h) =
        outcome (resolveNode r none (some .zero) .zero port h) ↔
      ∃ i ≤ 1, r.grants (h.requests + i) = false := by
  have hsplit : (∃ i ≤ 1, r.grants (h.requests + i) = false) ↔
      r.grants h.requests = false ∨ r.grants (h.requests + 1) = false := by
    simp only [Nat.le_one_iff_eq_zero_or_eq_one, exists_eq_or_imp, exists_eq_left, Nat.add_zero]
  rw [hsplit]
  by_cases hgrant : r.grants h.requests = true
  · obtain ⟨h₁, hnew, hnode, -, hrequests⟩ := @newEntry_spec r port .zero h hgrant inaddrLoopback
    have hone := listed_singleton hnode rfl (by omega)
    have hnopassive : hasFlag Hints.zero.aiFlags aiPassive = false := by decide
    simp only [resolveNode, hnopassive, Bool.false_eq_true, if_false, hnew]
    rw [finish_null_iff hone rfl, hrequests, hgrant]
    simp
  · have hrefused : r.grants h.requests = false := by simpa using hgrant
    simp [resolveNode, newEntry, hrefused]

theorem resolveNode_of_refused {node : CString} {he : Hostent} {q : Hints}
    (hnumeric : hasFlag q.aiFlags aiNumerichost = false) (hhost : r.gethostbyname node = .ok he)
    (hloop : ∀ p' h', hostLoop r port q he.hName 0 he.hAddrList none .head h ≠ some (.ok p', h'))
    (hints hints' : Option Hints) :
    resolveNode r (some node) hints q port h = resolveNode r (some node) hints' q port h := by
  simp only [resolveNode, hnumeric, Bool.false_eq_true, if_false, hhost]
  cases hx : hostLoop r port q he.hName 0 he.hAddrList none .head h with
  | none => rfl
  | some x =>
    obtain ⟨_ | p', h'⟩ := x
    · rfl
    · exact absurd hx (hloop p' h')

/-- With a host there is a block for each address, and then one for the first copy. -/
theorem resolveNode_host_iff {node : CString} {he : Hostent} (hhost : r.gethostbyname node = .ok he)
    (port : ℕ) (h : Heap) :
    outcome (resolveNode r (some node) none .zero port h) =
        outcome (resolveNode r (some node) (some .zero) .zero port h) ↔
      he.hAddrList = [] ∨ ∃ i ≤ he.hAddrList.length, r.grants (h.requests + i) = false := by
  have hflag : hasFlag Hints.zero.aiFlags aiNumerichost = false := by decide
  by_cases haddrs : he.hAddrList = []
  · have hloop : hostLoop r port .zero he.hName 0 he.hAddrList none .head h =
        some (.ok none, h) := by rw [haddrs, hostLoop]
    rw [resolveNode_of_loop hflag hhost hloop, resolveNode_of_loop hflag hhost hloop]
    exact iff_of_true rfl (.inl haddrs)
  by_cases hgrants : ∀ i < he.hAddrList.length, r.grants (h.requests + i) = true
  · obtain ⟨k, ks, es, h', hloop, hl, hown, hrequests⟩ :=
      @hostLoop_first_granted r port h he.hName _ haddrs hgrants
    rw [resolveNode_of_loop hflag hhost hloop, resolveNode_of_loop hflag hhost hloop,
      finish_null_iff hl hown, hrequests]
    constructor
    · exact fun hrefused => .inr ⟨_, le_rfl, hrefused⟩
    · rintro (hnil | ⟨i, hi, hrefused⟩)
      · exact absurd hnil haddrs
      · obtain rfl | hlt := hi.eq_or_lt
        · exact hrefused
        · rw [hgrants i hlt] at hrefused
          cases hrefused
  · push Not at hgrants
    obtain ⟨i, hi, hgrant⟩ := hgrants
    have hrefused : r.grants (h.requests + i) = false := by simpa using hgrant
    have hright : he.hAddrList = [] ∨
        ∃ i ≤ he.hAddrList.length, r.grants (h.requests + i) = false :=
      .inr ⟨i, hi.le, hrefused⟩
    refine iff_of_true (congrArg outcome ?_) hright
    exact resolveNode_of_refused hflag hhost (hostLoop_first_refused he.hName hi hrefused) _ _

theorem resolveNode_null_iff (r : Resolver) (node : Option CString) (port : ℕ) (h : Heap) :
    outcome (resolveNode r node none .zero port h) =
        outcome (resolveNode r node (some .zero) .zero port h) ↔
      addressCount r node = 0 ∨
        ∃ i ≤ addressCount r node, r.grants (h.requests + i) = false := by
  cases node with
  | none =>
    rw [resolveNode_none_iff]
    simp [addressCount]
  | some node =>
    cases hhost : r.gethostbyname node with
    | error e =>
      have hflag : hasFlag Hints.zero.aiFlags aiNumerichost = false := by decide
      simp [resolveNode, addressCount, hhost, hflag]
    | ok he =>
      rw [resolveNode_host_iff hhost]
      simp [addressCount, hhost]

theorem getaddrinfo_null_iff (r : Resolver) (node service : Option CString) (h : Heap) :
    outcome (getaddrinfo r node service none h) =
        outcome (getaddrinfo r node service (some .zero) h) ↔
      (node = none ∧ service = none) ∨ ¬ServiceKnown r service .zero ∨ addressCount r node = 0 ∨
        ∃ i ≤ addressCount r node, r.grants (h.requests + i) = false := by
  by_cases hnone : node = none ∧ service = none
  · simp [getaddrinfo, hnone]
  have hfamily : Hints.zero.aiFamily = afUnspec ∨ Hints.zero.aiFamily = afInet := .inl rfl
  cases hservice : resolveService r service .zero with
  | error e =>
    have hunknown : ¬ServiceKnown r service .zero := by
      rw [← resolveService_ok_iff, hservice]
      rintro ⟨port, hport⟩
      cases hport
    refine iff_of_true ?_ (.inr (.inl hunknown))
    rw [getaddrinfo_error none hnone hfamily hservice,
      getaddrinfo_error (some .zero) hnone hfamily hservice]
  | ok port =>
    have hknown : ServiceKnown r service .zero := resolveService_ok_iff.mp ⟨port, hservice⟩
    rw [getaddrinfo_ok none hnone hfamily hservice,
      getaddrinfo_ok (some .zero) hnone hfamily hservice, Option.getD_none, Option.getD_some,
      resolveNode_null_iff]
    simp [hnone, hknown]

end Missing

section Numeric

variable {r : Resolver} {node : CString} {q : Hints} {port : ℕ} {h : Heap} {he : Hostent}
variable {addr : UInt32}

theorem nameRequests_dropNumerichost (q : Hints) (hName : Option CString) :
    nameRequests q.dropNumerichost hName = nameRequests q hName := by
  have hflag : hasFlag q.dropNumerichost.aiFlags aiCanonnameFlag =
      hasFlag q.aiFlags aiCanonnameFlag := hasFlag_and_not (by decide)
  rw [nameRequests, nameRequests, askedName, askedName, hflag]

theorem resolveNode_add (hnumeric : r.inetAton node = some addr)
    (hgrant : r.grants h.requests = true) :
    outcome (resolveNode r (some node) (some q.addNumerichost) q.addNumerichost port h) =
      some (.ok [resultOf (entryOf port q h.requests addr)]) := by
  obtain ⟨h₁, hnew, hnode, -, hrequests⟩ :=
    @newEntry_spec r port q.addNumerichost h hgrant addr
  have hone := listed_singleton hnode rfl (by omega)
  simp only [resolveNode, hasFlag_addNumerichost, if_true, hnumeric, hnew]
  exact outcome_listed hone rfl

theorem resolveNode_numeric_iff (hnumeric : r.inetAton node = some addr)
    (hhost : r.gethostbyname node = .ok he) (haddr : he.hAddrList = [addr]) :
    outcome (resolveNode r (some node) (some q.addNumerichost) q.addNumerichost port h) =
        outcome (resolveNode r (some node) (some q.dropNumerichost) q.dropNumerichost port h) ↔
      q.aiSocktype ≠ 0 ∨ r.grants h.requests = false ∨
        r.grants (h.requests + 1 + nameRequests q he.hName) = false := by
  by_cases hgrant : r.grants h.requests = true
  · obtain ⟨k, ms, canon, h', hloop, hlength, hl, -, hrequests⟩ :=
      @hostLoop_cons_spec r port q.dropNumerichost h hgrant he.hName addr [] (by simp)
    obtain rfl := List.eq_nil_of_length_eq_zero hlength
    rw [← haddr] at hloop
    rw [resolveNode_add hnumeric hgrant,
      resolveNode_of_loop hasFlag_dropNumerichost hhost hloop, eq_comm]
    refine (outcome_finish_iff hl rfl).trans ?_
    rw [hrequests, nameRequests_dropNumerichost, hgrant]
    simp [Hints.dropNumerichost]
  · have hrefused : r.grants h.requests = false := by simpa using hgrant
    refine iff_of_true ?_ (.inr (.inl hrefused))
    simp [resolveNode, hnumeric, newEntry, hrefused, hhost, haddr, hostLoop, freeaddrinfo, freeLoop]

theorem getaddrinfo_numeric_iff (service : Option CString) (q : Hints) (h : Heap)
    (hnumeric : r.inetAton node = some addr) (hhost : r.gethostbyname node = .ok he)
    (haddr : he.hAddrList = [addr]) :
    outcome (getaddrinfo r (some node) service (some q.addNumerichost) h) =
        outcome (getaddrinfo r (some node) service (some q.dropNumerichost) h) ↔
      q.aiSocktype ≠ 0 ∨ (q.aiFamily ≠ afUnspec ∧ q.aiFamily ≠ afInet) ∨
        ¬ServiceKnown r service q ∨ r.grants h.requests = false ∨
        r.grants (h.requests + 1 + nameRequests q he.hName) = false := by
  have hserviceAdd : resolveService r service q.addNumerichost = resolveService r service q :=
    resolveService_congr r service rfl (hasFlag_add_of_ne (by decide))
  have hserviceDrop : resolveService r service q.dropNumerichost = resolveService r service q :=
    resolveService_congr r service rfl (hasFlag_and_not (by decide))
  by_cases hfamily : q.aiFamily ≠ afUnspec ∧ q.aiFamily ≠ afInet
  · refine iff_of_true ?_ (.inr (.inl hfamily))
    by_cases hinet6 : q.aiFamily = afInet6
    · simp [getaddrinfo, Hints.addNumerichost, Hints.dropNumerichost, hinet6]
    · simp [getaddrinfo, Hints.addNumerichost, Hints.dropNumerichost, hfamily, hinet6]
  have hsupported : q.aiFamily = afUnspec ∨ q.aiFamily = afInet := by
    by_contra hnot
    exact hfamily (not_or.mp hnot)
  have hrequest : ¬(some node = none ∧ service = none) := by simp
  cases hservice : resolveService r service q with
  | error e =>
    have hunknown : ¬ServiceKnown r service q := by
      rw [← resolveService_ok_iff, hservice]
      rintro ⟨port, hport⟩
      cases hport
    refine iff_of_true ?_ (.inr (.inr (.inl hunknown)))
    rw [getaddrinfo_error (some q.addNumerichost) hrequest hsupported
        (hserviceAdd.trans hservice),
      getaddrinfo_error (some q.dropNumerichost) hrequest hsupported
        (hserviceDrop.trans hservice)]
  | ok port =>
    have hknown : ServiceKnown r service q := resolveService_ok_iff.mp ⟨port, hservice⟩
    rw [getaddrinfo_ok (some q.addNumerichost) hrequest hsupported
        (hserviceAdd.trans hservice),
      getaddrinfo_ok (some q.dropNumerichost) hrequest hsupported (hserviceDrop.trans hservice),
      Option.getD_some, Option.getD_some, resolveNode_numeric_iff hnumeric hhost haddr]
    simp [hfamily, hknown]

end Numeric

/-- When requests that mean the same are answered alike. -/
theorem equal_answers_iff (r : Resolver) :
    (∀ node service h, outcome (getaddrinfo r node service none h) =
        outcome (getaddrinfo r node service (some .zero) h) ↔
      (node = none ∧ service = none) ∨ ¬ServiceKnown r service .zero ∨ addressCount r node = 0 ∨
        ∃ i ≤ addressCount r node, r.grants (h.requests + i) = false) ∧
      ∀ node addr he service q h, r.inetAton node = some addr → r.gethostbyname node = .ok he →
        he.hAddrList = [addr] →
        (outcome (getaddrinfo r (some node) service (some (Hints.addNumerichost q)) h) =
            outcome (getaddrinfo r (some node) service (some q.dropNumerichost) h) ↔
          q.aiSocktype ≠ 0 ∨ (q.aiFamily ≠ afUnspec ∧ q.aiFamily ≠ afInet) ∨
            ¬ServiceKnown r service q ∨ r.grants h.requests = false ∨
            r.grants (h.requests + 1 + nameRequests q he.hName) = false) := by
  constructor
  · intro node service h
    exact getaddrinfo_null_iff r node service h
  · intro node addr he service q h hnumeric hhost haddr
    exact getaddrinfo_numeric_iff service q h hnumeric hhost haddr

def loopbackResolver : Resolver where
  gethostbyname _ := .ok ⟨some (.ofString "127.0.0.1"), [inaddrLoopback]⟩
  getservbyname _ _ := none
  inetAton _ := some inaddrLoopback
  grants _ := true

theorem equal_answers_iff_loopback :
    outcome (getaddrinfo loopbackResolver (some (.ofString "127.0.0.1")) none
        (some { Hints.zero with aiSocktype := sockStream }.addNumerichost) .empty) =
      outcome (getaddrinfo loopbackResolver (some (.ofString "127.0.0.1")) none
        (some { Hints.zero with aiSocktype := sockStream }.dropNumerichost) .empty) :=
  ((equal_answers_iff loopbackResolver).2 _ _ _ none _ .empty rfl rfl rfl).mpr (.inl (by decide))

/-- Zero hints add an entry for UDP, to the answer for no hints and to that for a numeric node. -/
theorem zero_hints_differ :
    outcome (getaddrinfo loopbackResolver (some (.ofString "127.0.0.1")) (some (.ofString "80"))
        none .empty) ≠
      outcome (getaddrinfo loopbackResolver (some (.ofString "127.0.0.1")) (some (.ofString "80"))
        (some .zero) .empty) ∧
    outcome (getaddrinfo loopbackResolver (some (.ofString "127.0.0.1")) (some (.ofString "80"))
        (some Hints.zero.addNumerichost) .empty) ≠
      outcome (getaddrinfo loopbackResolver (some (.ofString "127.0.0.1")) (some (.ofString "80"))
        (some Hints.zero.dropNumerichost) .empty) := by
  decide

end Solcompat.Network
