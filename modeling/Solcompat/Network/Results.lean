import Solcompat.Network.AddrList

/-!
# What a caller of `getaddrinfo` gets

For a name with any number of addresses the list holds an entry for each of them, in the order
of the resolver, and behind these the copies for UDP if the hints leave the type open. Every
entry has its own address, only the first one may have a name, and `freeaddrinfo` gives all
blocks of the list back.
-/

namespace Solcompat.Network

open Lib Inet

structure Result where
  family : ℤ
  socktype : ℤ
  protocol : ℤ
  sin : SockaddrIn
  deriving DecidableEq, Repr

def resultOf (e : AddrInfo × SockaddrIn) : Result :=
  ⟨e.1.aiFamily, e.1.aiSocktype, e.1.aiProtocol, e.2⟩

def entriesFor (socktype protocol : ℤ) (port : ℕ) (addrs : List UInt32) : List Result :=
  addrs.map fun addr => ⟨afInet, socktype, protocol, afInet, port, addr⟩

/-- The type that is asked for, or streams. -/
def typeOf (q : Hints) : ℤ := if q.aiSocktype ≠ 0 then q.aiSocktype else sockStream

/-- What a request is answered with: both types, if the hints are there and name none. -/
def wanted (hints : Option Hints) (port : ℕ) (addrs : List UInt32) : List Result :=
  let q := hints.getD .zero
  if hints.map (·.aiSocktype) = some 0 then
    entriesFor sockStream q.aiProtocol port addrs ++ entriesFor sockDgram ipprotoUdp port addrs
  else entriesFor (typeOf q) q.aiProtocol port addrs

/-- A list for a caller, with the block of the canonical name. -/
structure Delivers (h : Heap) (p : Option ℕ) (ks : List ℕ) (es : List (AddrInfo × SockaddrIn))
    (canon : Option ℕ) (results : List Result) : Prop where
  listed : Listed h p ks es
  results : es.map resultOf = results
  /-- Every node points to the address in its own block. -/
  own : es.map (·.1.aiAddr) = ks.map some
  first : es.head?.map (·.1.aiCanonname) = some canon
  others : ∀ e ∈ es.tail, e.1.aiCanonname = none

section Delivery

variable {r : Resolver} {port : ℕ} {q : Hints} {h : Heap} {p canon : Option ℕ}
variable {ks ns : List ℕ} {es : List (AddrInfo × SockaddrIn)} {results : List Result}

theorem map_addr_zipWith {α : Type*} {f : ℕ → α → AddrInfo × SockaddrIn}
    (hf : ∀ k a, (f k a).1.aiAddr = some k) {ks : List ℕ} {as : List α}
    (hlen : ks.length ≤ as.length) : (List.zipWith f ks as).map (·.1.aiAddr) = ks.map some := by
  have hmap : (List.zipWith f ks as).map (·.1.aiAddr) = ((ks.zip as).map Prod.fst).map some := by
    rw [← List.map_uncurry_zip_eq_zipWith, List.map_map, List.map_map]
    exact List.map_congr_left fun x _ => hf x.1 x.2
  rw [hmap, List.map_fst_zip hlen]

theorem map_resultOf_zipWith {α : Type*} {f : ℕ → α → AddrInfo × SockaddrIn} {g : α → Result}
    (hf : ∀ k a, resultOf (f k a) = g a) {ks : List ℕ} {as : List α}
    (hlen : ks.length = as.length) : (List.zipWith f ks as).map resultOf = as.map g := by
  have hmap : (List.zipWith f ks as).map resultOf = ((ks.zip as).map Prod.snd).map g := by
    rw [← List.map_uncurry_zip_eq_zipWith, List.map_map, List.map_map]
    exact List.map_congr_left fun x _ => hf x.1 x.2
  rw [hmap, List.map_snd_zip hlen.ge]

theorem canonname_zipWith {α : Type*} {f : ℕ → α → AddrInfo × SockaddrIn}
    (hf : ∀ k a, (f k a).1.aiCanonname = none) {ks : List ℕ} {as : List α} :
    ∀ e ∈ List.zipWith f ks as, e.1.aiCanonname = none := by
  intro e he
  rw [← List.map_uncurry_zip_eq_zipWith] at he
  obtain ⟨x, -, rfl⟩ := List.mem_map.mp he
  exact hf x.1 x.2

theorem hostLoop_delivers (hgrants : ∀ i, r.grants i = true) (hName : Option CString)
    {addrs : List UInt32} (haddrs : addrs ≠ []) (h : Heap) :
    ∃ k ks es canon h', hostLoop r port q hName 0 addrs none .head h = some (.ok (some k), h') ∧
      Delivers h' (some k) ks es canon (entriesFor (typeOf q) q.aiProtocol port addrs) ∧
      Named h' canon (askedName q hName) := by
  obtain ⟨addr, addrs, rfl⟩ := List.exists_cons_of_ne_nil haddrs
  obtain ⟨k, ms, canon, h', hloop, hlength, hl, hnamed, -⟩ :=
    @hostLoop_cons_spec r port q h (hgrants _) hName addr addrs fun _ _ => hgrants _
  rw [if_pos (hgrants _)] at hnamed
  refine ⟨k, k :: ms, _, canon, h', hloop, ⟨hl, ?_, ?_, rfl, ?_⟩, hnamed⟩
  · have hrest : (List.zipWith (entryOf port q) ms addrs).map resultOf =
        entriesFor (typeOf q) q.aiProtocol port addrs := by
      apply map_resultOf_zipWith _ hlength
      exact fun _ _ => rfl
    rw [List.map_cons, hrest]
    rfl
  · rw [List.map_cons, map_addr_zipWith (fun _ _ => rfl) hlength.le]
    rfl
  · exact canonname_zipWith fun _ _ => rfl

theorem map_resultOf_dup {socktype protocol : ℤ} {addrs : List UInt32}
    (hresults : es.map resultOf = entriesFor socktype protocol port addrs)
    (hlen : ns.length = es.length) :
    (List.zipWith dupOf ns es).map resultOf = entriesFor sockDgram ipprotoUdp port addrs := by
  let udp (x : Result) : Result := { x with socktype := sockDgram, protocol := ipprotoUdp }
  calc (List.zipWith dupOf ns es).map resultOf = (es.map resultOf).map udp := by
        rw [List.map_map]
        apply map_resultOf_zipWith _ hlen
        exact fun _ _ => rfl
    _ = entriesFor sockDgram ipprotoUdp port addrs := by
        rw [hresults, entriesFor, entriesFor, List.map_map]
        rfl

theorem Delivers.exists_first (hd : Delivers h p ks es canon results) :
    ∃ e rest, es = e :: rest ∧ e.1.aiCanonname = canon := by
  cases es with
  | nil => cases hd.first
  | cons e es => exact ⟨e, es, rfl, Option.some.inj hd.first⟩

theorem Delivers.finish (hgrants : ∀ i, r.grants i = true) {hints : Option Hints} {k : ℕ}
    {addrs : List UInt32} {text : Option CString}
    (hd : Delivers h (some k) ks es canon
      (entriesFor (typeOf (hints.getD .zero)) (hints.getD .zero).aiProtocol port addrs))
    (hnamed : Named h canon text) :
    ∃ ks' es' h', Network.finish r hints (some k) h = some ⟨0, some k, h'⟩ ∧
      Delivers h' (some k) ks' es' canon (wanted hints port addrs) ∧ Named h' canon text := by
  by_cases htype : hints.map (·.aiSocktype) = some 0
  · obtain ⟨ns, h', hfinish, hlength, hl, hext⟩ :=
      @finish_spec r h ks es hints k htype hd.listed hd.own
    have hlen : ns.length = es.length := by
      rw [hlength, copies_of_grants hgrants, hd.listed.length_eq]
    have hdup : ∀ e ∈ List.zipWith dupOf ns es, e.1.aiCanonname = none :=
      canonname_zipWith fun _ _ => rfl
    obtain ⟨e, rest, hes, -⟩ := hd.exists_first
    have hne : es ≠ [] := hes ▸ List.cons_ne_nil e rest
    refine ⟨ks ++ ns, _, h', hfinish, ⟨hl, ?_, ?_, ?_, ?_⟩, ?_⟩
    · have hstream : typeOf (hints.getD .zero) = sockStream := by
        obtain ⟨q, rfl, hq⟩ := Option.map_eq_some_iff.mp htype
        exact if_neg (not_not_intro hq)
      rw [List.map_append, hd.results, map_resultOf_dup hd.results hlen, wanted, if_pos htype,
        hstream]
    · rw [List.map_append, hd.own, map_addr_zipWith (fun _ _ => rfl) hlen.le, List.map_append]
    · rw [List.head?_append_of_ne_nil _ hne]
      exact hd.first
    · rw [List.tail_append_of_ne_nil hne]
      intro e he
      rcases List.mem_append.mp he with he | he
      · exact hd.others e he
      · exact hdup e he
    · exact hnamed.extends hext fun c hc => hnamed.not_mem hd.listed hc
  · refine ⟨ks, es, h, ?_, ?_, hnamed⟩
    · rw [Network.finish, if_neg htype]
    · rwa [wanted, if_neg htype]

theorem flatten_owned {ks : List ℕ} {es : List (AddrInfo × SockaddrIn)}
    (hlen : es.length = ks.length) (hnone : ∀ e ∈ es, e.1.aiCanonname = none) :
    (List.zipWith owned ks es).flatten = ks := by
  induction ks generalizing es with
  | nil => simp
  | cons k ks ih =>
    obtain ⟨e, es, rfl⟩ := List.exists_cons_of_length_eq_add_one hlen
    have hrest := ih (Nat.succ.inj hlen) fun e he => hnone e (.tail _ he)
    simp [owned, hnone e List.mem_cons_self, hrest]

theorem Delivers.flatten_owned (hd : Delivers h p ks es canon results) :
    (List.zipWith owned ks es).flatten = canon.toList ++ ks := by
  obtain ⟨e, es, rfl, hcanon⟩ := hd.exists_first
  obtain ⟨k, ks, rfl⟩ := List.exists_cons_of_length_eq_add_one hd.listed.length_eq.symm
  have hlen : es.length = ks.length := Nat.succ.inj hd.listed.length_eq
  rw [List.zipWith_cons_cons, List.flatten_cons, Network.flatten_owned hlen hd.others, owned,
    hcanon, List.append_assoc]
  rfl

theorem Delivers.nodup {text : Option CString} (hd : Delivers h p ks es canon results)
    (hnamed : Named h canon text) : (canon.toList ++ ks).Nodup := by
  cases canon with
  | none => exact hd.listed.nodup
  | some c => exact List.nodup_cons.mpr ⟨hnamed.not_mem hd.listed rfl, hd.listed.nodup⟩

theorem Delivers.freeaddrinfo {text : Option CString} (hd : Delivers h p ks es canon results)
    (hnamed : Named h canon text) :
    ∃ h', Network.freeaddrinfo p h = some h' ∧ Frees h h' (canon.toList ++ ks) := by
  rw [← hd.flatten_owned]
  refine freeLoop_spec hd.listed ?_ ?_ hd.listed.length_le
  · rw [hd.flatten_owned]
    exact hd.nodup hnamed
  · obtain ⟨e, es, rfl, hcanon⟩ := hd.exists_first
    refine List.forall_mem_cons.mpr ⟨fun c hc => ?_, fun e he c hc => ?_⟩
    · rw [hcanon] at hc
      obtain ⟨s, htext⟩ := hnamed.exists_text hc
      exact ⟨_, htext⟩
    · rw [hd.others e he] at hc
      cases hc

end Delivery

section Request

variable {r : Resolver} {node : CString} {service : Option CString} {hints : Option Hints}
variable {h : Heap} {he : Hostent} {name : CString}

theorem resolveService_error {q : Hints} {e : ℤ} (herror : resolveService r service q = .error e) :
    e ≠ 0 := by
  unfold resolveService at herror
  split at herror
  · cases herror
  · dsimp only at herror
    split_ifs at herror
    · cases herror
      decide
    · split at herror
      · cases herror
        decide
      · cases herror

/-- What is left of a request when the family and the service are all right. -/
theorem getaddrinfo_eq (node service : Option CString) (hints : Option Hints) (h : Heap) :
    (∃ ans, getaddrinfo r node service hints h = some ans ∧ ans.ret ≠ 0) ∨
      ∃ port, resolveService r service (hints.getD .zero) = .ok port ∧
        getaddrinfo r node service hints h =
          resolveNode r node hints (hints.getD .zero) port h := by
  have hfails (e : ℤ) (he : e ≠ 0) : ∃ ans, some (⟨e, none, h⟩ : Answer) = some ans ∧ ans.ret ≠ 0 :=
    ⟨_, rfl, he⟩
  unfold getaddrinfo
  dsimp only
  split_ifs
  · exact .inl (hfails eaiNoname (by decide))
  · exact .inl (hfails eaiFamily (by decide))
  · exact .inl (hfails eaiNoname (by decide))
  · cases hservice : resolveService r service (hints.getD .zero) with
    | error e => exact .inl (hfails e (resolveService_error hservice))
    | ok port => exact .inr ⟨port, rfl, rfl⟩

/-- A node that is left to the resolver: the list that the loop has built is finished. -/
theorem resolveNode_of_loop {q : Hints} {port : ℕ} {head : Option ℕ} {h' : Heap}
    (hnumeric : hasFlag q.aiFlags aiNumerichost = false) (hhost : r.gethostbyname node = .ok he)
    (hloop : hostLoop r port q he.hName 0 he.hAddrList none .head h = some (.ok head, h'))
    (hints : Option Hints) :
    resolveNode r (some node) hints q port h = finish r hints head h' := by
  simp only [resolveNode, hnumeric, Bool.false_eq_true, if_false, hhost, hloop,
    Option.bind_eq_bind, Option.bind_some]

theorem resolveNode_delivers (hgrants : ∀ i, r.grants i = true)
    (hnumeric : hasFlag (hints.getD .zero).aiFlags aiNumerichost = false)
    (hhost : r.gethostbyname node = .ok he) (haddrs : he.hAddrList ≠ []) (port : ℕ) :
    ∃ k ks es canon h',
      resolveNode r (some node) hints (hints.getD .zero) port h = some ⟨0, some k, h'⟩ ∧
      Delivers h' (some k) ks es canon (wanted hints port he.hAddrList) ∧
      Named h' canon (askedName (hints.getD .zero) he.hName) := by
  obtain ⟨k, ks, es, canon, h₁, hloop, hd, hnamed⟩ := hostLoop_delivers hgrants he.hName haddrs h
  obtain ⟨ks', es', h', hfinish, hd', hnamed'⟩ := hd.finish hgrants hnamed
  refine ⟨k, ks', es', canon, h', ?_, hd', hnamed'⟩
  rw [resolveNode_of_loop hnumeric hhost hloop, hfinish]

theorem getaddrinfo_delivers (hgrants : ∀ i, r.grants i = true)
    (hnumeric : hasFlag (hints.getD .zero).aiFlags aiNumerichost = false)
    (hhost : r.gethostbyname node = .ok he) (hname : he.hName = some name)
    (haddrs : he.hAddrList ≠ []) :
    ∃ ans, getaddrinfo r (some node) service hints h = some ans ∧
      (ans.ret = 0 → ∃ port ks es canon,
        resolveService r service (hints.getD .zero) = .ok port ∧
        Delivers ans.heap ans.res ks es canon (wanted hints port he.hAddrList) ∧
        canon.map ans.heap.blocks =
          (if hasFlag (hints.getD .zero).aiFlags aiCanonnameFlag then some (some (.text name))
            else none) ∧
        (canon.toList ++ ks).Nodup ∧
        ∃ h', freeaddrinfo ans.res ans.heap = some h' ∧
          Frees ans.heap h' (canon.toList ++ ks)) := by
  rcases @getaddrinfo_eq r (some node) service hints h with ⟨ans, hans, hret⟩ | ⟨port, hport, hans⟩
  · exact ⟨ans, hans, fun hzero => absurd hzero hret⟩
  · obtain ⟨k, ks, es, canon, h', hnode, hd, hnamed⟩ :=
      @resolveNode_delivers r node hints h he hgrants hnumeric hhost haddrs port
    refine ⟨_, hans.trans hnode, fun _ => ⟨port, ks, es, canon, hport, hd, ?_,
      hd.nodup hnamed, hd.freeaddrinfo hnamed⟩⟩
    rw [hnamed.blocks, askedName, hname]
    split_ifs <;> rfl

end Request

def Heap.empty : Heap := ⟨fun _ => none, 0, []⟩

def wwwResolver : Resolver where
  gethostbyname _ := .ok ⟨some (.ofString "www"), [0x0a000001, 0x0a000002]⟩
  getservbyname _ _ := none
  inetAton _ := none
  grants _ := true

def wwwHints : Hints := { Hints.zero with aiFlags := aiCanonnameFlag }

theorem getaddrinfo_delivers_www :
    ∃ ans, getaddrinfo wwwResolver (some (.ofString "www")) (some (.ofString "80"))
        (some wwwHints) .empty = some ans ∧ ans.ret = 0 ∧
      ∃ ks es canon, Delivers ans.heap ans.res ks es canon
          (wanted (some wwwHints) 80 [0x0a000001, 0x0a000002]) ∧
        ∃ h', freeaddrinfo ans.res ans.heap = some h' ∧
          Frees ans.heap h' (canon.toList ++ ks) := by
  obtain ⟨ans, hans, hdelivers⟩ := @getaddrinfo_delivers wwwResolver (.ofString "www")
    (some (.ofString "80")) (some wwwHints) .empty _ _ (fun _ => rfl) (by decide) rfl rfl
    (by decide)
  have hret : ans.ret = 0 := by
    have hrun : (getaddrinfo wwwResolver (some (.ofString "www")) (some (.ofString "80"))
        (some wwwHints) .empty).map (·.ret) = some 0 := by decide
    rw [hans] at hrun
    exact Option.some.inj hrun
  obtain ⟨port, ks, es, canon, hport, hd, -, -, hfree⟩ := hdelivers hret
  obtain rfl : 80 = port := by
    have hport' : resolveService wwwResolver (some (.ofString "80")) wwwHints = .ok 80 := by
      decide
    exact Except.ok.inj (hport'.symm.trans hport)
  exact ⟨ans, hans, hret, ks, es, canon, hd, hfree⟩

end Solcompat.Network
