import Solcompat.Network.AddrInfo

/-!
# The list of results

What `getaddrinfo` leaves on the heap, when its allocations are granted: the nodes, in order,
with their contents. A list under construction is described by its nodes and by their
contents without the links; storing through the tail pointer adds a node to it, and changes
no block but the last node.
-/

namespace Solcompat.Network

open Lib Inet

namespace Heap

variable {h : Heap} {j k : ℕ} {b : Block} {ai : AddrInfo} {sin : SockaddrIn}

def next (h : Heap) (k : ℕ) : Option (Option ℕ) := (h.node k).map (·.1.aiNext)

def shape (h : Heap) (k : ℕ) : Option (AddrInfo × SockaddrIn) :=
  (h.node k).map fun (ai, sin) => ({ ai with aiNext := none }, sin)

@[simp]
theorem put_requests : (h.put k b).requests = h.requests := rfl

@[simp]
theorem blocks_put_self : (h.put k b).blocks k = some b := Function.update_self ..

theorem blocks_put_ne (hne : j ≠ k) : (h.put k b).blocks j = h.blocks j :=
  Function.update_of_ne hne ..

theorem node_congr {h' : Heap} (hsame : h'.blocks k = h.blocks k) : h'.node k = h.node k := by
  rw [node, node, hsame]

@[simp]
theorem node_put_self : (h.put k (.node ai sin)).node k = some (ai, sin) := by
  rw [node, blocks_put_self]

theorem blocks_of_node (hnode : h.node k = some (ai, sin)) :
    h.blocks k = some (.node ai sin) := by
  unfold node at hnode
  split at hnode
  · obtain ⟨rfl, rfl⟩ := Prod.mk.inj (Option.some.inj hnode)
    assumption
  · cases hnode

theorem setNext_eq (hnode : h.node k = some (ai, sin)) (q : Option ℕ) :
    h.setNext k q = some (h.put k (.node { ai with aiNext := q } sin)) := by
  rw [setNext, hnode]
  rfl

theorem setNext_spec {p : Option ℕ} (hnext : h.next k = some p) (q : Option ℕ) :
    ∃ h', h.setNext k q = some h' ∧ h'.next k = some q ∧
      (∀ j, j ≠ k → h'.blocks j = h.blocks j) ∧ (∀ j, h'.shape j = h.shape j) ∧
      h'.requests = h.requests ∧ h'.freed = h.freed := by
  obtain ⟨⟨ai, sin⟩, hnode, -⟩ := Option.map_eq_some_iff.mp hnext
  refine ⟨_, setNext_eq hnode q, ?_, fun j hj => blocks_put_ne hj, ?_, rfl, rfl⟩
  · rw [next, node_put_self]
    rfl
  · intro j
    by_cases hj : j = k
    · subst hj
      rw [shape, shape, node_put_self, hnode]
      rfl
    · rw [shape, shape, node_congr (blocks_put_ne hj)]

end Heap

/-- A list on the heap: its nodes, and what they hold beside the links. -/
structure Listed (h : Heap) (p : Option ℕ) (ks : List ℕ) (es : List (AddrInfo × SockaddrIn)) :
    Prop where
  linked : Linked h.next p ks none
  shapes : ks.map h.shape = es.map some
  nodup : ks.Nodup
  below : ∀ k ∈ ks, k < h.requests

def slotAfter (ks : List ℕ) : Slot :=
  match ks.getLast? with
  | none => .head
  | some j => .next j

@[simp]
theorem slotAfter_append (ks : List ℕ) (k : ℕ) : slotAfter (ks ++ [k]) = .next k := by
  simp [slotAfter]

/-- The blocks of `h` that are not nodes of `ks` are as before. -/
structure Extends (h h' : Heap) (ks : List ℕ) : Prop where
  blocks : ∀ j, j < h.requests → j ∉ ks → h'.blocks j = h.blocks j
  requests : h.requests ≤ h'.requests
  freed : h'.freed = h.freed

section Lists

variable {h h' h'' : Heap} {p : Option ℕ} {ks ms : List ℕ} {es : List (AddrInfo × SockaddrIn)}
variable {k : ℕ} {ai : AddrInfo} {sin : SockaddrIn}

theorem Extends.refl (h : Heap) (ks : List ℕ) : Extends h h ks := ⟨fun _ _ _ => rfl, le_rfl, rfl⟩

theorem Extends.trans (h₁ : Extends h h' ks) (h₂ : Extends h' h'' ms)
    (hsub : ∀ j ∈ ms, j < h.requests → j ∈ ks) : Extends h h'' ks where
  blocks j hlt hj := by
    rw [h₂.blocks j (hlt.trans_le h₁.requests) fun hmem => hj (hsub j hmem hlt),
      h₁.blocks j hlt hj]
  requests := h₁.requests.trans h₂.requests
  freed := h₂.freed.trans h₁.freed

theorem Extends.mono (h₁ : Extends h h' ks) (hsub : ks ⊆ ms) : Extends h h' ms :=
  ⟨fun j hlt hj => h₁.blocks j hlt fun hmem => hj (hsub hmem), h₁.requests, h₁.freed⟩

theorem Extends.trans_new (h₁ : Extends h h' ks) (h₂ : Extends h' h'' (ks ++ [h.requests])) :
    Extends h h'' ks := by
  refine h₁.trans h₂ ?_
  intro j hj hlt
  rcases List.mem_append.mp hj with hj | hj
  · exact hj
  · rw [List.mem_singleton.mp hj] at hlt
    exact absurd hlt (lt_irrefl _)

theorem listed_nil (h : Heap) : Listed h none [] [] :=
  ⟨rfl, rfl, List.nodup_nil, by simp⟩

theorem Listed.congr (hl : Listed h p ks es) (hsame : ∀ k ∈ ks, h'.blocks k = h.blocks k)
    (hrequests : h.requests ≤ h'.requests) : Listed h' p ks es where
  linked := by
    apply hl.linked.congr
    intro k hk
    rw [Heap.next, Heap.next, Heap.node_congr (hsame k hk)]
  shapes := by
    rw [← hl.shapes]
    apply List.map_congr_left
    intro k hk
    rw [Heap.shape, Heap.shape, Heap.node_congr (hsame k hk)]
  nodup := hl.nodup
  below k hk := (hl.below k hk).trans_le hrequests

theorem Listed.extends (hl : Listed h p ks es) (hext : Extends h h' ms) (hdisj : ks.Disjoint ms) :
    Listed h' p ks es :=
  hl.congr (fun k hk => hext.blocks k (hl.below k hk) fun hmem => hdisj hk hmem) hext.requests

theorem Listed.length_le (hl : Listed h p ks es) : ks.length ≤ h.requests := by
  have hsub : ks ⊆ List.range h.requests := fun k hk => List.mem_range.mpr (hl.below k hk)
  have hle := (hl.nodup.subperm hsub).length_le
  rwa [List.length_range] at hle

theorem Listed.length_eq (hl : Listed h p ks es) : es.length = ks.length := by
  have hlen := congrArg List.length hl.shapes
  simpa using hlen.symm

theorem Listed.append_cons {e : AddrInfo × SockaddrIn} {fs : List (AddrInfo × SockaddrIn)}
    (hl : Listed h p (ks ++ [k] ++ ms) (es ++ [e] ++ fs)) :
    Listed h p (ks ++ k :: ms) (es ++ e :: fs) := by
  rwa [List.append_assoc, List.append_assoc] at hl

theorem listed_singleton (hnode : h.node k = some (ai, sin)) (hnext : ai.aiNext = none)
    (hlt : k < h.requests) : Listed h (some k) [k] [(ai, sin)] where
  linked := by
    refine ⟨rfl, none, ?_, rfl⟩
    rw [Heap.next, hnode, Option.map_some, hnext]
  shapes := by
    rw [List.map_singleton, List.map_singleton, Heap.shape, hnode, Option.map_some, ← hnext]
  nodup := List.nodup_singleton k
  below := by simpa using hlt

theorem Listed.splice {q : Option ℕ} {e : ℕ} {fs : List (AddrInfo × SockaddrIn)}
    (hl : Listed h p (ks ++ [e]) es) (hm : Listed h q ms fs) (hdisj : (ks ++ [e]).Disjoint ms) :
    ∃ h', h.setNext e q = some h' ∧ Listed h' p (ks ++ [e] ++ ms) (es ++ fs) ∧
      Extends h h' (ks ++ [e]) ∧ h'.requests = h.requests := by
  have hlast : e ∈ ks ++ [e] := by simp
  obtain ⟨p', hnext⟩ := hl.linked.exists_next hlast
  obtain ⟨h', hset, hnext', hblocks, hshape, hrequests, hfreed⟩ := Heap.setNext_spec hnext q
  have hnode : ∀ j, j ≠ e → h'.next j = h.next j := fun j hj => by
    rw [Heap.next, Heap.next, Heap.node_congr (hblocks j hj)]
  have hfront : ∀ j ∈ ks, j ≠ e := by
    rintro j hj rfl
    exact (List.nodup_append.mp hl.nodup).2.2 j hj j (by simp) rfl
  have hback : ∀ j ∈ ms, j ≠ e := by
    rintro j hj rfl
    exact hdisj hlast hj
  refine ⟨h', hset, ⟨?_, ?_, ?_, ?_⟩, ⟨?_, hrequests.ge, hfreed⟩, hrequests⟩
  · exact hl.linked.splice (hm.linked.congr fun j hj => hnode j (hback j hj))
      (fun j hj => hnode j (hfront j hj)) hnext'
  · have happend : (ks ++ [e] ++ ms).map h.shape = (ks ++ [e]).map h.shape ++ ms.map h.shape :=
      List.map_append
    rw [funext hshape, happend, hl.shapes, hm.shapes, List.map_append]
  · exact hl.nodup.append hm.nodup hdisj
  · intro j hj
    rw [hrequests]
    rcases List.mem_append.mp hj with hj | hj
    · exact hl.below j hj
    · exact hm.below j hj
  · intro j _ hj
    exact hblocks j fun heq => hj (heq ▸ hlast)

theorem Listed.storeAt (hl : Listed h p ks es) (hnode : h.node k = some (ai, sin))
    (hnext : ai.aiNext = none) (hk : k ∉ ks) (hlt : k < h.requests) :
    ∃ p' h', storeAt (slotAfter ks) p k h = some (p', h') ∧
      Listed h' p' (ks ++ [k]) (es ++ [(ai, sin)]) ∧ Extends h h' ks ∧
      h'.requests = h.requests := by
  have hone := listed_singleton hnode hnext hlt
  rcases List.eq_nil_or_concat' ks with rfl | ⟨front, e, rfl⟩
  · obtain rfl : es = [] := List.eq_nil_of_length_eq_zero hl.length_eq
    exact ⟨some k, h, rfl, hone, Extends.refl h _, rfl⟩
  · obtain ⟨h', hset, hlisted, hext, hrequests⟩ := hl.splice hone (by simpa using hk)
    refine ⟨p, h', ?_, hlisted, hext, hrequests⟩
    rw [slotAfter_append, Network.storeAt, hset]
    rfl

end Lists

section Construction

variable {r : Resolver} {port : ℕ} {q : Hints} {h : Heap} {p : Option ℕ}
variable {ks ms : List ℕ} {es fs : List (AddrInfo × SockaddrIn)}

/-- The contents of the node `k` for an address. -/
def entryOf (port : ℕ) (q : Hints) (k : ℕ) (addr : UInt32) : AddrInfo × SockaddrIn :=
  ({ aiFlags := 0
     aiFamily := afInet
     aiSocktype := if q.aiSocktype ≠ 0 then q.aiSocktype else sockStream
     aiProtocol := q.aiProtocol
     aiAddrlen := 16
     aiCanonname := none
     aiAddr := some k
     aiNext := none }, ⟨afInet, port, addr⟩)

theorem newEntry_spec (hgrant : r.grants h.requests = true) (addr : UInt32) :
    ∃ h', newEntry r port q addr h = (some h.requests, h') ∧
      h'.node h.requests = some (entryOf port q h.requests addr) ∧ Extends h h' [] ∧
      h'.requests = h.requests + 1 := by
  refine ⟨_, if_pos hgrant, Heap.node_put_self, ⟨?_, Nat.le_succ _, rfl⟩, rfl⟩
  intro j hj _
  exact Heap.blocks_put_ne hj.ne

/-- A round of the loop behind the first one, which alone may set the canonical name. -/
theorem hostLoop_step (hName : Option CString) (addr : UInt32) (addrs : List UInt32) {i : ℕ}
    (hi : i ≠ 0) (hgrant : r.grants h.requests = true) (hl : Listed h p ks es) :
    ∃ p' h', hostLoop r port q hName i (addr :: addrs) p (slotAfter ks) h =
        hostLoop r port q hName (i + 1) addrs p' (slotAfter (ks ++ [h.requests])) h' ∧
      Listed h' p' (ks ++ [h.requests]) (es ++ [entryOf port q h.requests addr]) ∧
      Extends h h' ks ∧ h'.requests = h.requests + 1 := by
  obtain ⟨h₁, hnew, hnode, hext₁, hrequests₁⟩ := @newEntry_spec r port q h hgrant addr
  have hfresh : h.requests ∉ ks := fun hmem => (hl.below _ hmem).false
  have hl₁ := hl.extends hext₁ (List.disjoint_nil_right ks)
  obtain ⟨p', h', hstore, hl', hext₂, hrequests₂⟩ := hl₁.storeAt hnode rfl hfresh (by omega)
  have hext : Extends h h' ks := (hext₁.mono (List.nil_subset ks)).trans hext₂ fun j hj _ => hj
  refine ⟨p', h', ?_, hl', hext, hrequests₂.trans hrequests₁⟩
  simp only [hostLoop, hnew, hi, and_false, if_false, Option.bind_eq_bind, Option.bind_some,
    hstore, slotAfter_append]

theorem hostLoop_spec (hName : Option CString) (addrs : List UInt32) {i : ℕ} (hi : i ≠ 0)
    (hgrants : ∀ j < addrs.length, r.grants (h.requests + j) = true) (hl : Listed h p ks es) :
    ∃ p' ms h', hostLoop r port q hName i addrs p (slotAfter ks) h = some (.ok p', h') ∧
      ms.length = addrs.length ∧
      Listed h' p' (ks ++ ms) (es ++ List.zipWith (entryOf port q) ms addrs) ∧
      Extends h h' ks ∧ h'.requests = h.requests + addrs.length := by
  induction addrs generalizing h p ks es i with
  | nil => exact ⟨p, [], h, rfl, rfl, by simpa using hl, Extends.refl h ks, rfl⟩
  | cons addr addrs ih =>
    obtain ⟨p₁, h₁, hstep, hl₁, hext, hrequests₁⟩ :=
      @hostLoop_step r port q h p ks es hName addr addrs i hi (hgrants 0 (Nat.succ_pos _)) hl
    have hgrants₁ : ∀ j < addrs.length, r.grants (h₁.requests + j) = true := by
      intro j hj
      rw [hrequests₁, Nat.add_assoc, Nat.add_comm 1 j]
      exact hgrants (j + 1) (Nat.succ_lt_succ hj)
    obtain ⟨p', ms, h', hloop, hlength, hl', hext', hrequests'⟩ :=
      ih (Nat.succ_ne_zero i) hgrants₁ hl₁
    refine ⟨p', h.requests :: ms, h', hstep.trans hloop, by simp [hlength],
      hl'.append_cons, hext.trans_new hext', ?_⟩
    rw [hrequests', hrequests₁, List.length_cons]
    omega

theorem hostLoop_refused (hName : Option CString) {addrs : List UInt32} {i j : ℕ} (hi : i ≠ 0)
    (hj : j < addrs.length) (hrefused : r.grants (h.requests + j) = false)
    (hl : Listed h p ks es) (p' : Option ℕ) (h' : Heap) :
    hostLoop r port q hName i addrs p (slotAfter ks) h ≠ some (.ok p', h') := by
  induction addrs generalizing h p ks es i j with
  | nil => simp at hj
  | cons addr addrs ih =>
    by_cases hgrant : r.grants h.requests = true
    · obtain _ | j := j
      · rw [Nat.add_zero, hgrant] at hrefused
        cases hrefused
      obtain ⟨p₁, h₁, hstep, hl₁, -, hrequests₁⟩ :=
        @hostLoop_step r port q h p ks es hName addr addrs i hi hgrant hl
      rw [hstep]
      refine ih (Nat.succ_ne_zero i) (Nat.lt_of_succ_lt_succ hj) ?_ hl₁
      rwa [hrequests₁, Nat.add_assoc, Nat.add_comm 1 j]
    · rw [hostLoop, newEntry, if_neg hgrant]
      cases hfree : freeaddrinfo p { h with requests := h.requests + 1 } <;> simp [hfree]

/-- The canonical name is a string on the heap, or there is none. -/
structure Named (h : Heap) (canon : Option ℕ) (text : Option CString) : Prop where
  blocks : canon.map h.blocks = text.map fun s => some (.text s)
  below : ∀ c ∈ canon, c < h.requests

theorem named_none (h : Heap) : Named h none none := ⟨rfl, by simp⟩

theorem Named.exists_text {canon : Option ℕ} {text : Option CString} (hn : Named h canon text)
    {c : ℕ} (hc : c ∈ canon) : ∃ s, h.blocks c = some (.text s) := by
  obtain rfl := Option.mem_def.mp hc
  obtain ⟨s, -, hs⟩ := Option.map_eq_some_iff.mp hn.blocks.symm
  exact ⟨s, hs.symm⟩

theorem Named.not_mem {canon : Option ℕ} {text : Option CString} (hn : Named h canon text)
    (hl : Listed h p ks es) {c : ℕ} (hc : c ∈ canon) : c ∉ ks := by
  intro hmem
  obtain ⟨s, htext⟩ := hn.exists_text hc
  obtain ⟨p', hnext⟩ := hl.linked.exists_next hmem
  obtain ⟨⟨ai, sin⟩, hnode, -⟩ := Option.map_eq_some_iff.mp hnext
  rw [Heap.blocks_of_node hnode] at htext
  cases htext

theorem Named.extends {canon : Option ℕ} {text : Option CString} {h' : Heap}
    (hn : Named h canon text) (hext : Extends h h' ks) (hks : ∀ c ∈ canon, c ∉ ks) :
    Named h' canon text := by
  refine ⟨?_, fun c hc => (hn.below c hc).trans_le hext.requests⟩
  rw [← hn.blocks]
  cases canon with
  | none => rfl
  | some c =>
    rw [Option.map_some, Option.map_some, hext.blocks c (hn.below c rfl) (hks c rfl)]

def firstEntry (port : ℕ) (q : Hints) (k : ℕ) (canon : Option ℕ) (addr : UInt32) :
    AddrInfo × SockaddrIn :=
  ({ (entryOf port q k addr).1 with aiCanonname := canon }, (entryOf port q k addr).2)

def askedName (q : Hints) (hName : Option CString) : Option CString :=
  if hasFlag q.aiFlags aiCanonnameFlag then hName else none

/-- The number of blocks that are asked for it. -/
def nameRequests (q : Hints) (hName : Option CString) : ℕ := (askedName q hName).toList.length

theorem setCanonname_spec {k : ℕ} (name : CString) {addr : UInt32}
    (hnode : h.node k = some (entryOf port q k addr)) (hlt : k < h.requests) :
    ∃ canon h', setCanonname r k name h = some h' ∧
      h'.node k = some (firstEntry port q k canon addr) ∧
      Named h' canon (if r.grants h.requests then some name else none) ∧
      h'.requests = h.requests + 1 := by
  have hnot : h.requests ≠ k := hlt.ne'
  by_cases hgrant : r.grants h.requests = true
  · refine ⟨some h.requests,
      ({ h with requests := h.requests + 1 }.put h.requests (.text name)).put k _, ?_,
      Heap.node_put_self, ⟨?_, ?_⟩, rfl⟩
    · rw [setCanonname, hnode]
      exact if_pos hgrant
    · rw [Option.map_some, Heap.blocks_put_ne hnot, Heap.blocks_put_self, if_pos hgrant]
      rfl
    · simp
  · refine ⟨none, { h with requests := h.requests + 1 }.put k _, ?_, Heap.node_put_self, ?_, rfl⟩
    · rw [setCanonname, hnode]
      exact if_neg hgrant
    · rw [if_neg hgrant]
      exact named_none _

/-- The first round, which stores a name if one is asked for and known. -/
theorem hostLoop_first (hgrant : r.grants h.requests = true) (hName : Option CString)
    (addr : UInt32) (addrs : List UInt32) :
    ∃ canon h', hostLoop r port q hName 0 (addr :: addrs) none .head h =
        hostLoop r port q hName 1 addrs (some h.requests) (.next h.requests) h' ∧
      h'.node h.requests = some (firstEntry port q h.requests canon addr) ∧
      Named h' canon (if r.grants (h.requests + 1) then askedName q hName else none) ∧
      h'.requests = h.requests + 1 + nameRequests q hName := by
  obtain ⟨h₁, hnew, hnode, -, hrequests₁⟩ := @newEntry_spec r port q h hgrant addr
  have hplain : askedName q hName = none → Named h₁ none
      (if r.grants (h.requests + 1) then askedName q hName else none) := by
    intro hnone
    rw [hnone, ite_self]
    exact named_none h₁
  by_cases hflag : hasFlag q.aiFlags aiCanonnameFlag = true
  · cases hName with
    | none =>
      have hnone : askedName q none = none := by simp [askedName]
      refine ⟨none, h₁, by simp [hostLoop, hnew, storeAt], hnode, hplain hnone, ?_⟩
      rw [hrequests₁, nameRequests, hnone]
      rfl
    | some name =>
      obtain ⟨canon, h₂, hset, hnode₂, hnamed, hrequests₂⟩ :=
        @setCanonname_spec r port q h₁ h.requests name addr hnode (by omega)
      have hsome : askedName q (some name) = some name := if_pos hflag
      refine ⟨canon, h₂, by simp [hostLoop, hnew, hflag, hset, storeAt], hnode₂, ?_, ?_⟩
      · rwa [hsome, ← hrequests₁]
      · rw [hrequests₂, hrequests₁, nameRequests, hsome]
        rfl
  · have hnone : askedName q hName = none := if_neg hflag
    refine ⟨none, h₁, by simp [hostLoop, hnew, hflag, storeAt], hnode, hplain hnone, ?_⟩
    rw [hrequests₁, nameRequests, hnone]
    rfl

theorem hostLoop_cons_spec (hgrant : r.grants h.requests = true) (hName : Option CString)
    (addr : UInt32) (addrs : List UInt32) (hgrants : ∀ j < addrs.length,
      r.grants (h.requests + 1 + nameRequests q hName + j) = true) :
    ∃ k ms canon h',
      hostLoop r port q hName 0 (addr :: addrs) none .head h = some (.ok (some k), h') ∧
      ms.length = addrs.length ∧
      Listed h' (some k) (k :: ms)
        (firstEntry port q k canon addr :: List.zipWith (entryOf port q) ms addrs) ∧
      Named h' canon (if r.grants (h.requests + 1) then askedName q hName else none) ∧
      h'.requests = h.requests + 1 + nameRequests q hName + addrs.length := by
  obtain ⟨canon, h₁, hfirst, hnode, hnamed, hrequests₁⟩ :=
    @hostLoop_first r port q h hgrant hName addr addrs
  have hone := listed_singleton hnode rfl (by omega)
  rw [← hrequests₁] at hgrants ⊢
  obtain ⟨p', ms, h', hloop, hlength, hl', hext, hrequests'⟩ :=
    hostLoop_spec hName addrs one_ne_zero hgrants hone
  obtain ⟨rfl, -⟩ : p' = some h.requests ∧ _ := hl'.linked
  refine ⟨h.requests, ms, canon, h', ?_, hlength, hl', ?_, hrequests'⟩
  · rw [hfirst]
    exact hloop
  · exact hnamed.extends hext fun c hc => hnamed.not_mem hone hc

def dupOf (k : ℕ) (e : AddrInfo × SockaddrIn) : AddrInfo × SockaddrIn :=
  ({ e.1 with
     aiAddr := some k
     aiSocktype := sockDgram
     aiProtocol := ipprotoUdp
     aiCanonname := none
     aiNext := none }, e.2)

theorem Listed.uncons {k : ℕ} {e : AddrInfo × SockaddrIn} (hl : Listed h p (k :: ks) (e :: es)) :
    p = some k ∧ ∃ p', h.node k = some ({ e.1 with aiNext := p' }, e.2) ∧ Listed h p' ks es ∧
      k ∉ ks := by
  obtain ⟨hp, p', hnext, hrest⟩ := hl.linked
  obtain ⟨hshape, hshapes⟩ := List.cons.inj hl.shapes
  obtain ⟨⟨ai, sin⟩, hnode, hlink⟩ := Option.map_eq_some_iff.mp hnext
  obtain ⟨hk, hnodup⟩ := List.nodup_cons.mp hl.nodup
  refine ⟨hp, p', ?_, ⟨hrest, hshapes, hnodup, fun j hj => hl.below j (.tail k hj)⟩, hk⟩
  rw [Heap.shape, hnode, Option.map_some] at hshape
  obtain rfl := Option.some.inj hshape
  rw [hnode, ← hlink]

/-- One round of the copying loop: the copy of a node is put behind those that are there. -/
theorem dupLoop_step (hgrant : r.grants h.requests = true) (rounds : ℕ) {k : ℕ}
    {p' u : Option ℕ} {e : AddrInfo × SockaddrIn}
    (hnode : h.node k = some ({ e.1 with aiNext := p' }, e.2))
    (haddr : e.1.aiAddr = some k) (hlt : k < h.requests) (hm : Listed h u ms fs) (hk : k ∉ ms) :
    ∃ u' h', dupLoop r (rounds + 1) (some k) u (slotAfter ms) h =
        dupLoop r rounds p' u' (.next h.requests) h' ∧
      Listed h' u' (ms ++ [h.requests]) (fs ++ [dupOf h.requests e]) ∧ Extends h h' ms ∧
      h'.requests = h.requests + 1 := by
  have hext₁ : Extends h ({ h with requests := h.requests + 1 }.put h.requests
      (.node (dupOf h.requests e).1 e.2)) [] :=
    ⟨fun j hj _ => Heap.blocks_put_ne hj.ne, Nat.le_succ _, rfl⟩
  have hfresh : h.requests ∉ ms := fun hmem => (hm.below _ hmem).false
  obtain ⟨u', h', hstore, hm', hext₂, hrequests⟩ :=
    (hm.extends hext₁ (List.disjoint_nil_right ms)).storeAt Heap.node_put_self rfl hfresh
      (Nat.lt_succ_self _)
  have hext : Extends h h' ms := (hext₁.mono (List.nil_subset ms)).trans hext₂ fun j hj _ => hj
  refine ⟨u', h', ?_, hm', hext, hrequests⟩
  -- The node is read again for its link, behind the new block and the store.
  have hnode₁ : Heap.node { h with requests := h.requests + 1 } k =
      some ({ e.1 with aiNext := p' }, e.2) := hnode
  have hnode' : h'.node k = some ({ e.1 with aiNext := p' }, e.2) := by
    rw [Heap.node_congr (hext.blocks k hlt hk), hnode]
  simp only [dupOf] at hstore
  simp only [dupLoop, hgrant, if_true, hnode₁, haddr, Option.bind_eq_bind, Option.bind_some,
    hstore, hnode']

/-- The number of copies that are made of `n` nodes: a refused allocation ends the loop. -/
def copies (r : Resolver) : ℕ → ℕ → ℕ
  | _, 0 => 0
  | k, n + 1 => if r.grants k then copies r (k + 1) n + 1 else 0

theorem copies_of_grants (hgrants : ∀ i, r.grants i = true) (k n : ℕ) : copies r k n = n := by
  induction n generalizing k with
  | zero => rfl
  | succ n ih => rw [copies, if_pos (hgrants k), ih]

theorem copies_le (r : Resolver) (k n : ℕ) : copies r k n ≤ n := by
  induction n generalizing k with
  | zero => exact le_rfl
  | succ n ih =>
    unfold copies
    split_ifs
    · exact Nat.succ_le_succ (ih _)
    · exact Nat.zero_le _

/-- The copying loop reads a list and leaves copies of its nodes, in order. -/
theorem dupLoop_spec (rounds : ℕ) (hrounds : ks.length ≤ rounds) (hl : Listed h p ks es)
    (hown : es.map (·.1.aiAddr) = ks.map some) {u : Option ℕ} (hm : Listed h u ms fs)
    (hdisj : ks.Disjoint ms) :
    ∃ u' ns h', dupLoop r rounds p u (slotAfter ms) h = some (u', h') ∧
      ns.length = copies r h.requests ks.length ∧ (∀ n ∈ ns, h.requests ≤ n) ∧
      Listed h' u' (ms ++ ns) (fs ++ List.zipWith dupOf ns es) ∧ Extends h h' ms := by
  induction ks generalizing h p es u ms fs rounds with
  | nil =>
    obtain rfl : p = none := hl.linked
    exact ⟨u, [], h, by simp [dupLoop], rfl, by simp, by simpa using hm, Extends.refl h ms⟩
  | cons k ks ih =>
    obtain _ | rounds := rounds
    · simp at hrounds
    obtain _ | ⟨e, es⟩ := es
    · simp at hown
    obtain ⟨rfl, p', hnode, hrest, -⟩ := hl.uncons
    by_cases hgrant : r.grants h.requests = true
    · obtain ⟨haddr, hown⟩ := List.cons.inj hown
      have hdisj' : ks.Disjoint ms := fun j hj => hdisj (.tail k hj)
      obtain ⟨u₂, h₂, hstep, hm₂, hext, hrequests₂⟩ := dupLoop_step hgrant rounds hnode haddr
        (hl.below k List.mem_cons_self) hm fun hmem => hdisj List.mem_cons_self hmem
      -- The nodes still to be copied are old ones, so the new copy is none of them.
      have hdisj₂ : ks.Disjoint (ms ++ [h.requests]) := by
        refine List.disjoint_append_right.mpr ⟨hdisj', ?_⟩
        intro j hj hmem
        rw [List.mem_singleton.mp hmem] at hj
        exact (hrest.below _ hj).false
      obtain ⟨u', ns, h', hloop, hlength, hnew, hl', hext'⟩ :=
        ih rounds (by simpa using hrounds) (hrest.extends hext hdisj') hown hm₂ hdisj₂
      refine ⟨u', h.requests :: ns, h', ?_, ?_, ?_, hl'.append_cons, hext.trans_new hext'⟩
      · rw [hstep, ← slotAfter_append ms, hloop]
      · rw [List.length_cons, List.length_cons, copies, if_pos hgrant, hlength, hrequests₂]
      · intro n hn
        rcases List.mem_cons.mp hn with rfl | hn
        · exact le_rfl
        · exact hext.requests.trans (hnew n hn)
    · have hext : Extends h { h with requests := h.requests + 1 } ms :=
        ⟨fun _ _ _ => rfl, Nat.le_succ _, rfl⟩
      refine ⟨u, [], _, ?_, ?_, by simp, ?_, hext⟩
      · rw [dupLoop]
        exact if_neg hgrant
      · rw [List.length_cons, copies, if_neg hgrant, List.length_nil]
      · have hm' : Listed { h with requests := h.requests + 1 } u ms fs :=
          hm.congr (fun _ _ => rfl) (Nat.le_succ _)
        simpa using hm'

theorem lastEntry_succ {k : ℕ} {p' : Option ℕ} (hnext : h.next k = some p') (rounds : ℕ) :
    lastEntry (rounds + 1) k h = p'.elim (some k) fun j => lastEntry rounds j h := by
  obtain ⟨⟨ai, sin⟩, hnode, rfl⟩ := Option.map_eq_some_iff.mp hnext
  simp only [lastEntry, hnode, Option.bind_eq_bind, Option.bind_some]
  cases ai.aiNext <;> rfl

theorem lastEntry_spec {e k rounds : ℕ} (hl : Linked h.next (some k) (ks ++ [e]) none)
    (hrounds : ks.length < rounds) : lastEntry rounds k h = some e := by
  obtain ⟨rounds, rfl⟩ := Nat.exists_eq_add_one_of_ne_zero (Nat.ne_zero_of_lt hrounds)
  induction ks generalizing k rounds with
  | nil =>
    obtain ⟨hk, p', hnext, rfl⟩ := hl
    obtain rfl := Option.some.inj hk
    rw [lastEntry_succ hnext]
    rfl
  | cons j ks ih =>
    obtain ⟨hk, p', hnext, hrest⟩ := hl
    obtain rfl := Option.some.inj hk
    obtain ⟨j, rfl⟩ := hrest.exists_first (by simp)
    have hlt : ks.length < rounds := by simpa using hrounds
    obtain ⟨rounds, rfl⟩ := Nat.exists_eq_add_one_of_ne_zero (Nat.ne_zero_of_lt hlt)
    rw [lastEntry_succ hnext]
    exact ih hrest rounds hlt

theorem finish_spec {hints : Option Hints} {k : ℕ}
    (htype : hints.map (·.aiSocktype) = some 0) (hl : Listed h (some k) ks es)
    (hown : es.map (·.1.aiAddr) = ks.map some) :
    ∃ ns h', finish r hints (some k) h = some ⟨0, some k, h'⟩ ∧
      ns.length = copies r h.requests ks.length ∧
      Listed h' (some k) (ks ++ ns) (es ++ List.zipWith dupOf ns es) ∧ Extends h h' ks := by
  obtain ⟨u, ns, h₁, hloop, hlength, hnew, hm, hext₁⟩ :=
    @dupLoop_spec r h _ ks [] es [] h.requests hl.length_le hl hown none (listed_nil h)
      (List.disjoint_nil_right ks)
  have hl₁ := hl.extends hext₁ (List.disjoint_nil_right ks)
  rcases List.eq_nil_or_concat' ks with rfl | ⟨front, e, rfl⟩
  · cases hl.linked
  have hdisj : (front ++ [e]).Disjoint ns := fun j hj hmem =>
    ((hl.below j hj).trans_le (hnew j hmem)).false
  have hlen := hl₁.length_le
  rw [List.length_append, List.length_singleton] at hlen
  have hlast := lastEntry_spec hl₁.linked (Nat.lt_of_succ_le hlen)
  obtain ⟨h', hset, hl', hext₂, -⟩ := hl₁.splice hm hdisj
  refine ⟨ns, h', ?_, hlength, hl', ?_⟩
  · have hslot : slotAfter [] = .head := rfl
    rw [hslot] at hloop
    rw [finish, if_pos htype]
    simp only [hloop, hlast, hset, Option.bind_eq_bind, Option.bind_some]
  · exact (hext₁.mono (List.nil_subset _)).trans hext₂ fun j hj _ => hj

end Construction

section Freeing

variable {h h' : Heap} {p : Option ℕ} {ks : List ℕ} {es : List (AddrInfo × SockaddrIn)}

def owned (k : ℕ) (e : AddrInfo × SockaddrIn) : List ℕ := e.1.aiCanonname.toList ++ [k]

/-- The blocks of `ks` were freed, in order, and no others. -/
structure Frees (h h' : Heap) (ks : List ℕ) : Prop where
  blocks : ∀ j, j ∉ ks → h'.blocks j = h.blocks j
  requests : h'.requests = h.requests
  freed : h'.freed = h.freed ++ ks

theorem Frees.refl (h : Heap) : Frees h h [] := ⟨fun _ _ => rfl, rfl, by simp⟩

theorem Frees.trans {h'' : Heap} {ms : List ℕ} (h₁ : Frees h h' ks) (h₂ : Frees h' h'' ms) :
    Frees h h'' (ks ++ ms) where
  blocks j hj := by
    rw [List.mem_append, not_or] at hj
    rw [h₂.blocks j hj.2, h₁.blocks j hj.1]
  requests := h₂.requests.trans h₁.requests
  freed := by rw [h₂.freed, h₁.freed, List.append_assoc]

theorem Heap.free_spec {k : ℕ} {b : Block} (hblock : h.blocks k = some b) :
    ∃ h', h.free k = some h' ∧ Frees h h' [k] := by
  have hfree : h.free k =
      some { h with blocks := Function.update h.blocks k none, freed := h.freed ++ [k] } := by
    rw [Heap.free, hblock]
    rfl
  refine ⟨_, hfree, fun j hj => ?_, rfl, rfl⟩
  exact Function.update_of_ne (by simpa using hj) _ _

theorem Listed.frees {ms : List ℕ} (hl : Listed h p ks es) (hf : Frees h h' ms)
    (hdisj : ks.Disjoint ms) : Listed h' p ks es :=
  hl.congr (fun k hk => hf.blocks k fun hmem => hdisj hk hmem) hf.requests.ge

theorem freeLoop_step {k : ℕ} {p' : Option ℕ} {e : AddrInfo × SockaddrIn}
    (hnode : h.node k = some ({ e.1 with aiNext := p' }, e.2)) (hnodup : (owned k e).Nodup)
    (hname : ∀ c ∈ e.1.aiCanonname, ∃ b, h.blocks c = some b) (rounds : ℕ) :
    ∃ h', freeLoop (rounds + 1) (some k) h = freeLoop rounds p' h' ∧ Frees h h' (owned k e) := by
  have hblock := Heap.blocks_of_node hnode
  cases hcanon : e.1.aiCanonname with
  | none =>
    obtain ⟨h', hfree, hf⟩ := Heap.free_spec hblock
    refine ⟨h', ?_, by simpa [owned, hcanon] using hf⟩
    simp only [freeLoop, hnode, hcanon, hfree, Option.bind_eq_bind, Option.bind_some]
  | some c =>
    have hne : k ≠ c := by
      simp only [owned, hcanon] at hnodup
      simpa [eq_comm] using hnodup
    obtain ⟨b, hb⟩ := hname c hcanon
    obtain ⟨h₁, hfree₁, hf₁⟩ := Heap.free_spec hb
    obtain ⟨h', hfree, hf⟩ := Heap.free_spec ((hf₁.blocks k (by simpa using hne)).trans hblock)
    refine ⟨h', ?_, by simpa [owned, hcanon] using hf₁.trans hf⟩
    simp only [freeLoop, hnode, hcanon, hfree₁, hfree, Option.bind_eq_bind, Option.bind_some]

theorem mem_flatten_owned (hlen : es.length = ks.length) :
    (∀ k ∈ ks, k ∈ (List.zipWith owned ks es).flatten) ∧
      ∀ e ∈ es, ∀ c ∈ e.1.aiCanonname, c ∈ (List.zipWith owned ks es).flatten := by
  induction ks generalizing es with
  | nil =>
    obtain rfl := List.eq_nil_of_length_eq_zero hlen
    simp
  | cons k ks ih =>
    obtain ⟨e, es, rfl⟩ := List.exists_cons_of_length_eq_add_one hlen
    obtain ⟨hnodes, hnames⟩ := ih (by simpa using hlen)
    simp only [List.zipWith_cons_cons, List.flatten_cons, List.mem_append, List.forall_mem_cons]
    refine ⟨⟨.inl (by simp [owned]), fun j hj => .inr (hnodes j hj)⟩, ?_,
      fun e he c hc => .inr (hnames e he c hc)⟩
    intro c hc
    exact .inl (List.mem_append_left _ (Option.mem_toList.mpr hc))

theorem freeLoop_spec (hl : Listed h p ks es) (hnodup : (List.zipWith owned ks es).flatten.Nodup)
    (hname : ∀ e ∈ es, ∀ c ∈ e.1.aiCanonname, ∃ b, h.blocks c = some b) {rounds : ℕ}
    (hrounds : ks.length ≤ rounds) :
    ∃ h', freeLoop rounds p h = some h' ∧ Frees h h' (List.zipWith owned ks es).flatten := by
  induction ks generalizing h p es rounds with
  | nil =>
    obtain rfl : p = none := hl.linked
    exact ⟨h, by simp [freeLoop], Frees.refl h⟩
  | cons k ks ih =>
    obtain _ | rounds := rounds
    · simp at hrounds
    obtain ⟨e, es, rfl⟩ := List.exists_cons_of_length_eq_add_one hl.length_eq
    obtain ⟨rfl, p', hnode, hrest, -⟩ := hl.uncons
    have hlist : (List.zipWith owned (k :: ks) (e :: es)).flatten =
        owned k e ++ (List.zipWith owned ks es).flatten := rfl
    rw [hlist] at hnodup ⊢
    obtain ⟨hfirst, hothers, hdisj⟩ := List.nodup_append.mp hnodup
    obtain ⟨h₁, hstep, hf₁⟩ := freeLoop_step hnode hfirst (hname e List.mem_cons_self) rounds
    -- What the other nodes own is not touched.
    obtain ⟨hnodes, hnames⟩ := mem_flatten_owned hrest.length_eq
    have hname₁ : ∀ e ∈ es, ∀ c ∈ e.1.aiCanonname, ∃ b, h₁.blocks c = some b := by
      intro e' he' c hc
      rw [hf₁.blocks c fun hmem => hdisj c hmem c (hnames e' he' c hc) rfl]
      exact hname e' (.tail e he') c hc
    have hrest₁ := hrest.frees hf₁ fun j hj hmem => hdisj j hmem j (hnodes j hj) rfl
    obtain ⟨h', hloop, hf⟩ := ih hrest₁ hothers hname₁ (by simpa using hrounds)
    exact ⟨h', hstep.trans hloop, hf₁.trans hf⟩

end Freeing

end Solcompat.Network
