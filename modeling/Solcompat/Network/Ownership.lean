import Solcompat.Network.Results

/-!
# Who owns the blocks of a result

Every allocation of `getaddrinfo` may be refused. What it has allocated is at each time the blocks
of the list under construction, with the name of the first node, and of the copies for UDP. A call
that fails has freed them, and `freeaddrinfo` frees those of a call that succeeds, so that the heap
is what it was before the call.
-/

namespace Solcompat.Network

open Lib Inet

def Heap.Bounded (h : Heap) : Prop := ∀ k, h.requests ≤ k → h.blocks k = none

section Bounds

variable {h h' : Heap} {k : ℕ} {b : Block}

theorem Heap.Bounded.lt (hb : h.Bounded) (hblock : h.blocks k = some b) : k < h.requests := by
  by_contra hle
  rw [hb k (Nat.not_lt.mp hle)] at hblock
  cases hblock

theorem Heap.Bounded.put (hb : h.Bounded) (hk : k < h.requests) (b : Block) :
    (h.put k b).Bounded := by
  intro j hj
  have hjk : j ≠ k := by
    rintro rfl
    exact absurd hk (Nat.not_lt.mpr hj)
  rw [Heap.blocks_put_ne hjk]
  exact hb j hj

theorem Heap.Bounded.request (hb : h.Bounded) :
    Heap.Bounded { h with requests := h.requests + 1 } :=
  fun k hk => hb k (Nat.le_of_succ_le hk)

theorem setNext_frame {q : Option ℕ} (hset : h.setNext k q = some h') :
    (∀ j, j ≠ k → h'.blocks j = h.blocks j) ∧ h'.requests = h.requests ∧
      (h.Bounded → h'.Bounded) := by
  obtain ⟨⟨ai, sin⟩, hnode, hput⟩ := Option.bind_eq_some_iff.mp hset
  obtain rfl := Option.some.inj hput
  exact ⟨fun j hj => Heap.blocks_put_ne hj, rfl,
    fun hb => hb.put (hb.lt (Heap.blocks_of_node hnode)) _⟩

theorem storeAt_bounded {tail : Slot} {head head' : Option ℕ}
    (hstore : storeAt tail head k h = some (head', h')) (hb : h.Bounded) : h'.Bounded := by
  cases tail with
  | head =>
    obtain ⟨-, rfl⟩ := Prod.mk.inj (Option.some.inj hstore)
    exact hb
  | next j =>
    obtain ⟨h₁, hset, heq⟩ := Option.map_eq_some_iff.mp hstore
    obtain ⟨-, rfl⟩ := Prod.mk.inj heq
    exact (setNext_frame hset).2.2 hb

end Bounds

def names (es : List (AddrInfo × SockaddrIn)) : List ℕ := es.flatMap fun e => e.1.aiCanonname.toList

/-- On top of the blocks of `h₀` there are those of the list, and no others. -/
structure Holding (h₀ h : Heap) (p : Option ℕ) (ks : List ℕ) (es : List (AddrInfo × SockaddrIn)) :
    Prop where
  listed : Listed h p ks es
  own : es.map (·.1.aiAddr) = ks.map some
  texts : ∀ c ∈ names es, ∃ s, h.blocks c = some (.text s)
  nodup : (names es).Nodup
  blocks : ∀ j, j ∉ names es → j ∉ ks → h.blocks j = h₀.blocks j
  fresh : ∀ j, j ∈ names es ∨ j ∈ ks → h₀.blocks j = none
  requests : h₀.requests ≤ h.requests
  bounded : h.Bounded

/-- A new node with its name is on the heap, and everything else is as it was. -/
structure Made (h h' : Heap) (k : ℕ) (e : AddrInfo × SockaddrIn) : Prop where
  node : h'.node k = some e
  next : e.1.aiNext = none
  addr : e.1.aiAddr = some k
  new : h.requests ≤ k
  text : ∀ c ∈ e.1.aiCanonname, h.requests ≤ c ∧ ∃ s, h'.blocks c = some (.text s)
  rest : ∀ j, j ≠ k → j ∉ e.1.aiCanonname → h'.blocks j = h.blocks j
  requests : h.requests ≤ h'.requests
  bounded : h'.Bounded

section Lists

variable {h₀ h h₁ h' : Heap} {p u : Option ℕ} {ks ms : List ℕ} {k : ℕ}
variable {es fs : List (AddrInfo × SockaddrIn)} {e : AddrInfo × SockaddrIn}

theorem names_append (es fs : List (AddrInfo × SockaddrIn)) :
    names (es ++ fs) = names es ++ names fs :=
  List.flatMap_append

theorem names_singleton (e : AddrInfo × SockaddrIn) : names [e] = e.1.aiCanonname.toList :=
  List.flatMap_singleton _ _

theorem holding_nil (hb : h.Bounded) : Holding h h none [] [] where
  listed := listed_nil h
  own := rfl
  texts := by simp [names]
  nodup := List.nodup_nil
  blocks _ _ _ := rfl
  fresh := by simp [names]
  requests := le_rfl
  bounded := hb

theorem Listed.exists_block (hl : Listed h p ks es) (hk : k ∈ ks) :
    ∃ ai sin, h.blocks k = some (.node ai sin) := by
  obtain ⟨p', hnext⟩ := hl.linked.exists_next hk
  obtain ⟨⟨ai, sin⟩, hnode, -⟩ := Option.map_eq_some_iff.mp hnext
  exact ⟨ai, sin, Heap.blocks_of_node hnode⟩

namespace Holding

theorem name_notMem (hold : Holding h₀ h p ks es) {c : ℕ} (hc : c ∈ names es) : c ∉ ks := by
  intro hk
  obtain ⟨s, htext⟩ := hold.texts c hc
  obtain ⟨ai, sin, hnode⟩ := hold.listed.exists_block hk
  rw [htext] at hnode
  cases hnode

theorem name_lt (hold : Holding h₀ h p ks es) {c : ℕ} (hc : c ∈ names es) : c < h.requests := by
  obtain ⟨s, htext⟩ := hold.texts c hc
  exact hold.bounded.lt htext

theorem old (hold : Holding h₀ h p ks es) {j : ℕ} (hj : h.blocks j = none) :
    j ∉ names es ∧ j ∉ ks := by
  constructor
  · intro hc
    obtain ⟨s, htext⟩ := hold.texts j hc
    rw [hj] at htext
    cases htext
  · intro hk
    obtain ⟨ai, sin, hnode⟩ := hold.listed.exists_block hk
    rw [hj] at hnode
    cases hnode

theorem none_before (hold : Holding h₀ h p ks es) {j : ℕ} (hj : h.blocks j = none) :
    h₀.blocks j = none := by
  obtain ⟨hname, hnode⟩ := hold.old hj
  rw [← hold.blocks j hname hnode]
  exact hj

theorem push (hold : Holding h₀ h p ks es) (hmade : Made h h₁ k e) :
    ∃ p' h', storeAt (slotAfter ks) p k h₁ = some (p', h') ∧
      Holding h₀ h' p' (ks ++ [k]) (es ++ [e]) := by
  have hlist : ∀ j, j < h.requests → h₁.blocks j = h.blocks j := by
    intro j hj
    refine hmade.rest j (hj.trans_le hmade.new).ne fun hc => ?_
    exact absurd hj (Nat.not_lt.mpr (hmade.text j hc).1)
  have hk : k ∉ ks := fun hmem => absurd (hold.listed.below k hmem) (Nat.not_lt.mpr hmade.new)
  have hlt : k < h₁.requests := hmade.bounded.lt (Heap.blocks_of_node hmade.node)
  have hlisted := hold.listed.congr (fun j hj => hlist j (hold.listed.below j hj)) hmade.requests
  obtain ⟨p', h', hstore, hl', hext, hrequests⟩ := hlisted.storeAt hmade.node hmade.next hk hlt
  have hbounded := storeAt_bounded hstore hmade.bounded
  have hnone : ∀ j, h.requests ≤ j → h₀.blocks j = none := fun j hj =>
    hold.none_before (hold.bounded j hj)
  -- The new name is not touched by the store, and neither are the old ones.
  have hsame : ∀ j, j ∉ ks → h'.blocks j = h₁.blocks j := by
    intro j hj
    by_cases hjlt : j < h₁.requests
    · exact hext.blocks j hjlt hj
    · rw [hbounded j (hrequests.trans_le (Nat.not_lt.mp hjlt)),
        hmade.bounded j (Nat.not_lt.mp hjlt)]
  have hle : h₀.requests ≤ h'.requests :=
    (hold.requests.trans hmade.requests).trans hrequests.ge
  refine ⟨p', h', hstore, hl', ?_, ?_, ?_, ?_, ?_, hle, hbounded⟩
  · rw [List.map_append, List.map_append, hold.own, List.map_singleton, List.map_singleton,
      hmade.addr]
  · intro c hc
    rw [names_append, names_singleton, List.mem_append, Option.mem_toList] at hc
    rcases hc with hc | hc
    · rw [hsame c (hold.name_notMem hc), hlist c (hold.name_lt hc)]
      exact hold.texts c hc
    · obtain ⟨hle, htext⟩ := hmade.text c hc
      rw [hsame c fun hmem => absurd (hold.listed.below c hmem) (Nat.not_lt.mpr hle)]
      exact htext
  · rw [names_append, names_singleton]
    have hone : e.1.aiCanonname.toList.Nodup := by cases e.1.aiCanonname <;> simp
    refine hold.nodup.append hone fun c hc hnew => ?_
    exact absurd (hold.name_lt hc) (Nat.not_lt.mpr (hmade.text c (Option.mem_toList.mp hnew)).1)
  · intro j hname hnode
    rw [names_append, names_singleton, List.mem_append, not_or, Option.mem_toList] at hname
    rw [List.mem_append, not_or, List.mem_singleton] at hnode
    rw [hsame j hnode.1, hmade.rest j hnode.2 hname.2]
    exact hold.blocks j hname.1 hnode.1
  · intro j hj
    rw [names_append, names_singleton, List.mem_append, List.mem_append, Option.mem_toList,
      List.mem_singleton] at hj
    rcases hj with (hj | hj) | (hj | rfl)
    · exact hold.fresh j (.inl hj)
    · exact hnone j (hmade.text j hj).1
    · exact hold.fresh j (.inr hj)
    · exact hnone j hmade.new

theorem append (hold : Holding h₀ h p ks es) (hnew : Holding h h₁ u ms fs)
    (hlisted : Listed h' p (ks ++ ms) (es ++ fs)) (hsame : ∀ j, j ∉ ks → h'.blocks j = h₁.blocks j)
    (hle : h₁.requests ≤ h'.requests) (hbounded : h'.Bounded) :
    Holding h₀ h' p (ks ++ ms) (es ++ fs) where
  listed := hlisted
  own := by rw [List.map_append, List.map_append, hold.own, hnew.own]
  texts := by
    intro c hc
    rw [names_append, List.mem_append] at hc
    rcases hc with hc | hc
    · obtain ⟨s, htext⟩ := hold.texts c hc
      have hold' : c ∉ names fs ∧ c ∉ ms := by
        constructor
        · exact fun hmem => by simp [hnew.fresh c (.inl hmem)] at htext
        · exact fun hmem => by simp [hnew.fresh c (.inr hmem)] at htext
      rw [hsame c (hold.name_notMem hc), hnew.blocks c hold'.1 hold'.2]
      exact ⟨s, htext⟩
    · have hks : c ∉ ks := (hold.old (hnew.fresh c (.inl hc))).2
      rw [hsame c hks]
      exact hnew.texts c hc
  nodup := by
    rw [names_append]
    exact hold.nodup.append hnew.nodup fun c hc hmem =>
      (hold.old (hnew.fresh c (.inl hmem))).1 hc
  blocks := by
    intro j hname hnode
    rw [names_append, List.mem_append, not_or] at hname
    rw [List.mem_append, not_or] at hnode
    rw [hsame j hnode.1, hnew.blocks j hname.2 hnode.2, hold.blocks j hname.1 hnode.1]
  fresh := by
    intro j hj
    rw [names_append, List.mem_append, List.mem_append] at hj
    rcases hj with (hj | hj) | (hj | hj)
    · exact hold.fresh j (.inl hj)
    · exact hold.none_before (hnew.fresh j (.inl hj))
    · exact hold.fresh j (.inr hj)
    · exact hold.none_before (hnew.fresh j (.inr hj))
  requests := (hold.requests.trans hnew.requests).trans hle
  bounded := hbounded

theorem request (hold : Holding h₀ h p ks es) :
    Holding h₀ { h with requests := h.requests + 1 } p ks es where
  listed := hold.listed.congr (fun _ _ => rfl) (Nat.le_succ _)
  own := hold.own
  texts := hold.texts
  nodup := hold.nodup
  blocks := hold.blocks
  fresh := hold.fresh
  requests := hold.requests.trans (Nat.le_succ _)
  bounded := hold.bounded.request

end Holding

end Lists

section Freeing

variable {h₀ h h' h'' : Heap} {p : Option ℕ} {ks ms : List ℕ} {k : ℕ}
variable {es : List (AddrInfo × SockaddrIn)}

/-- The blocks of `ms` were freed, and are not there. -/
structure Clears (h h' : Heap) (ms : List ℕ) : Prop where
  freed : h'.freed = h.freed ++ ms
  cleared : ∀ j, j ∈ ms ∨ h.blocks j = none → h'.blocks j = none

theorem Clears.trans (h₁ : Clears h h' ks) (h₂ : Clears h' h'' ms) : Clears h h'' (ks ++ ms) where
  freed := by rw [h₂.freed, h₁.freed, List.append_assoc]
  cleared j hj := by
    rw [List.mem_append] at hj
    rcases hj with (hj | hj) | hj
    · exact h₂.cleared j (.inr (h₁.cleared j (.inl hj)))
    · exact h₂.cleared j (.inl hj)
    · exact h₂.cleared j (.inr (h₁.cleared j (.inr hj)))

theorem Heap.free_clears (hfree : h.free k = some h') : Clears h h' [k] := by
  obtain ⟨b, -, hput⟩ := Option.bind_eq_some_iff.mp hfree
  obtain rfl := Option.some.inj hput
  refine ⟨rfl, fun j hj => ?_⟩
  by_cases hjk : j = k
  · rw [hjk]
    exact Function.update_self ..
  · rw [List.mem_singleton] at hj
    exact (Function.update_of_ne hjk ..).trans (hj.resolve_left hjk)

theorem freeLoop_clears {rounds : ℕ} (hloop : freeLoop rounds p h = some h') :
    ∃ ms, Clears h h' ms := by
  induction rounds generalizing p h with
  | zero =>
    cases p with
    | none =>
      obtain rfl := Option.some.inj hloop
      exact ⟨[], by simp, by simp⟩
    | some k => cases hloop
  | succ rounds ih =>
    cases p with
    | none =>
      obtain rfl := Option.some.inj hloop
      exact ⟨[], by simp, by simp⟩
    | some k =>
      obtain ⟨⟨ai, sin⟩, -, hnode⟩ := Option.bind_eq_some_iff.mp hloop
      dsimp only at hnode
      cases hcanon : ai.aiCanonname with
      | none =>
        rw [hcanon] at hnode
        obtain ⟨h₁, hsame, hnode⟩ := Option.bind_eq_some_iff.mp hnode
        obtain rfl := Option.some.inj hsame
        obtain ⟨h₂, hfree, hrest⟩ := Option.bind_eq_some_iff.mp hnode
        obtain ⟨ms, hms⟩ := ih hrest
        exact ⟨_, (Heap.free_clears hfree).trans hms⟩
      | some c =>
        rw [hcanon] at hnode
        obtain ⟨h₁, hname, hrest⟩ := Option.bind_eq_some_iff.mp hnode
        obtain ⟨h₂, hfree, hrest⟩ := Option.bind_eq_some_iff.mp hrest
        obtain ⟨ms, hms⟩ := ih hrest
        exact ⟨_, (Heap.free_clears hname).trans ((Heap.free_clears hfree).trans hms)⟩

theorem perm_owned (hlen : es.length = ks.length) :
    (List.zipWith owned ks es).flatten.Perm (names es ++ ks) := by
  induction ks generalizing es with
  | nil =>
    obtain rfl := List.eq_nil_of_length_eq_zero hlen
    exact .refl _
  | cons k ks ih =>
    obtain ⟨e, es, rfl⟩ := List.exists_cons_of_length_eq_add_one hlen
    have hrest := ih (Nat.succ.inj hlen)
    have hnames : names (e :: es) = e.1.aiCanonname.toList ++ names es := List.flatMap_cons
    rw [List.zipWith_cons_cons, List.flatten_cons, owned, hnames, List.append_assoc,
      List.append_assoc]
    refine List.Perm.append_left _ ?_
    have hmiddle : (k :: (names es ++ ks)).Perm (names es ++ k :: ks) := List.perm_middle.symm
    exact (hrest.cons k).trans hmiddle

theorem Holding.free (hold : Holding h₀ h p ks es) :
    ∃ h', freeaddrinfo p h = some h' ∧ h'.blocks = h₀.blocks := by
  have hperm := perm_owned hold.listed.length_eq
  have hnodup : (names es ++ ks).Nodup :=
    hold.nodup.append hold.listed.nodup fun c hc => hold.name_notMem hc
  have hname : ∀ e ∈ es, ∀ c ∈ e.1.aiCanonname, ∃ b, h.blocks c = some b := by
    intro e he c hc
    have hmem : c ∈ names es := List.mem_flatMap.mpr ⟨e, he, Option.mem_toList.mpr hc⟩
    obtain ⟨s, htext⟩ := hold.texts c hmem
    exact ⟨_, htext⟩
  obtain ⟨h', hloop, hfrees⟩ :=
    freeLoop_spec hold.listed (hperm.nodup_iff.mpr hnodup) hname hold.listed.length_le
  obtain ⟨ms, hms⟩ := freeLoop_clears hloop
  obtain rfl := List.append_cancel_left (hms.freed.symm.trans hfrees.freed)
  refine ⟨h', hloop, funext fun j => ?_⟩
  by_cases hj : j ∈ (List.zipWith owned ks es).flatten
  · have hmem := List.mem_append.mp (hperm.mem_iff.mp hj)
    rw [hms.cleared j (.inl hj), hold.fresh j hmem]
  · have hnone := fun hmem => hj (hperm.mem_iff.mpr (List.mem_append.mpr hmem))
    rw [hfrees.blocks j hj]
    exact hold.blocks j (fun hname => hnone (.inl hname)) fun hnode => hnone (.inr hnode)

end Freeing

section Building

variable {r : Resolver} {port : ℕ} {q : Hints} {h₀ h h₁ : Heap} {p u : Option ℕ} {k : ℕ}
variable {ks ms : List ℕ} {es fs : List (AddrInfo × SockaddrIn)}

theorem made_put {e : AddrInfo × SockaddrIn} (hb : h.Bounded) (hnext : e.1.aiNext = none)
    (haddr : e.1.aiAddr = some h.requests) (hname : e.1.aiCanonname = none) :
    Made h (Heap.put { h with requests := h.requests + 1 } h.requests (.node e.1 e.2))
      h.requests e where
  node := Heap.node_put_self
  next := hnext
  addr := haddr
  new := le_rfl
  text := by simp [hname]
  rest j hj _ := Heap.blocks_put_ne hj
  requests := Nat.le_succ _
  bounded := hb.request.put (Nat.lt_succ_self h.requests) _

theorem newEntry_made (hb : h.Bounded) (addr : UInt32) :
    newEntry r port q addr h = (none, { h with requests := h.requests + 1 }) ∨
      ∃ h', newEntry r port q addr h = (some h.requests, h') ∧
        Made h h' h.requests (entryOf port q h.requests addr) := by
  by_cases hgrant : r.grants h.requests = true
  · exact .inr ⟨_, if_pos hgrant, made_put (e := entryOf port q h.requests addr) hb rfl rfl rfl⟩
  · exact .inl (if_neg hgrant)

theorem setCanonname_made (name : CString) {addr : UInt32}
    (hmade : Made h h₁ k (entryOf port q k addr)) :
    ∃ canon h', setCanonname r k name h₁ = some h' ∧
      Made h h' k (firstEntry port q k canon addr) := by
  have hlt : k < h₁.requests := hmade.bounded.lt (Heap.blocks_of_node hmade.node)
  by_cases hgrant : r.grants h₁.requests = true
  · have hbounded : Heap.Bounded
        (Heap.put { h₁ with requests := h₁.requests + 1 } h₁.requests (.text name)) :=
      hmade.bounded.request.put (Nat.lt_succ_self h₁.requests) _
    refine ⟨some h₁.requests, Heap.put (Heap.put { h₁ with requests := h₁.requests + 1 }
      h₁.requests (.text name)) k (.node (firstEntry port q k (some h₁.requests) addr).1
        (firstEntry port q k (some h₁.requests) addr).2), ?_, Heap.node_put_self, rfl, rfl,
      hmade.new, ?_, ?_, hmade.requests.trans (Nat.le_succ _),
      hbounded.put (hlt.trans (Nat.lt_succ_self _)) _⟩
    · rw [setCanonname, hmade.node]
      exact if_pos hgrant
    · intro c hc
      obtain rfl := Option.some.inj hc
      refine ⟨hmade.requests, name, ?_⟩
      rw [Heap.blocks_put_ne hlt.ne', Heap.blocks_put_self]
    · intro j hj hc
      have hjc : j ≠ h₁.requests := fun heq => hc (congrArg some heq.symm)
      rw [Heap.blocks_put_ne hj, Heap.blocks_put_ne hjc]
      exact hmade.rest j hj (by simp [entryOf])
  · refine ⟨none, Heap.put { h₁ with requests := h₁.requests + 1 } k
      (.node (firstEntry port q k none addr).1 (firstEntry port q k none addr).2), ?_,
      Heap.node_put_self, rfl, rfl, hmade.new, by simp [firstEntry], ?_,
      hmade.requests.trans (Nat.le_succ _),
      hmade.bounded.request.put (hlt.trans (Nat.lt_succ_self _)) _⟩
    · rw [setCanonname, hmade.node]
      exact if_neg hgrant
    · intro j hj _
      rw [Heap.blocks_put_ne hj]
      exact hmade.rest j hj (by simp [entryOf])

theorem hostLoop_holding (hName : Option CString) (addrs : List UInt32) (i : ℕ)
    (hold : Holding h₀ h p ks es) :
    (∃ p' ks' es' h', hostLoop r port q hName i addrs p (slotAfter ks) h = some (.ok p', h') ∧
        Holding h₀ h' p' ks' es') ∨
      ∃ h', hostLoop r port q hName i addrs p (slotAfter ks) h = some (.error eaiMemory, h') ∧
        h'.blocks = h₀.blocks := by
  induction addrs generalizing i h p ks es with
  | nil => exact .inl ⟨p, ks, es, h, rfl, hold⟩
  | cons addr addrs ih =>
    rcases @newEntry_made r port q h hold.bounded addr with hnew | ⟨h₁, hnew, hmade⟩
    · obtain ⟨h', hfree, hblocks⟩ := hold.request.free
      refine .inr ⟨h', ?_, hblocks⟩
      simp only [hostLoop, hnew, hfree, Option.bind_eq_bind, Option.bind_some]
    · have hround : ∃ e h₂, Made h h₂ h.requests e ∧
          hostLoop r port q hName i (addr :: addrs) p (slotAfter ks) h =
            (storeAt (slotAfter ks) p h.requests h₂).bind fun stored =>
              hostLoop r port q hName (i + 1) addrs stored.1 (.next h.requests) stored.2 := by
        simp only [hostLoop, hnew, Option.bind_eq_bind]
        split_ifs
        · cases hName with
          | none => exact ⟨_, h₁, hmade, rfl⟩
          | some name =>
            obtain ⟨canon, h₂, hset, hmade₂⟩ := @setCanonname_made r port q h h₁ _ name addr hmade
            exact ⟨_, h₂, hmade₂, by simp only [hset, Option.bind_some]⟩
        · exact ⟨_, h₁, hmade, rfl⟩
      obtain ⟨e, h₂, hmade₂, hround⟩ := hround
      obtain ⟨p', h', hstore, hold'⟩ := hold.push hmade₂
      rw [hround, hstore, Option.bind_some, ← slotAfter_append ks]
      exact ih (i + 1) hold'

/-- The copying loop, on top of the heap with the list that it reads. -/
theorem dupLoop_holding (rounds : ℕ) (hrounds : ks.length ≤ rounds) (hl : Listed h₀ p ks es)
    (hown : es.map (·.1.aiAddr) = ks.map some) (hold : Holding h₀ h u ms fs) :
    ∃ u' ms' fs' h', dupLoop r rounds p u (slotAfter ms) h = some (u', h') ∧
      Holding h₀ h' u' ms' fs' := by
  induction ks generalizing p es u ms fs h rounds with
  | nil =>
    obtain rfl : p = none := hl.linked
    exact ⟨u, ms, fs, h, by simp [dupLoop], hold⟩
  | cons k ks ih =>
    obtain _ | rounds := rounds
    · simp at hrounds
    obtain ⟨e, es, rfl⟩ := List.exists_cons_of_length_eq_add_one hl.length_eq
    obtain ⟨rfl, p', hnode, hrest, -⟩ := hl.uncons
    obtain ⟨haddr, hown⟩ := List.cons.inj hown
    by_cases hgrant : r.grants h.requests = true
    · have hmade := made_put (e := dupOf h.requests e) hold.bounded rfl rfl rfl
      obtain ⟨u', h', hstore, hold'⟩ := hold.push hmade
      -- The node is one of `h₀`, and is not touched.
      have hold₀ : ∀ {g : Heap} {v : Option ℕ} {ns : List ℕ} {gs : List (AddrInfo × SockaddrIn)},
          Holding h₀ g v ns gs → g.node k = some ({ e.1 with aiNext := p' }, e.2) := by
        intro g v ns gs hg
        have hblock := Heap.blocks_of_node hnode
        have hname : k ∉ names gs := fun hmem => by simp [hg.fresh k (.inl hmem)] at hblock
        have hmem : k ∉ ns := fun hmem => by simp [hg.fresh k (.inr hmem)] at hblock
        rw [Heap.node_congr (hg.blocks k hname hmem), hnode]
      have hread : Heap.node { h with requests := h.requests + 1 } k =
          some ({ e.1 with aiNext := p' }, e.2) := hold₀ hold.request
      have hstep : dupLoop r (rounds + 1) (some k) u (slotAfter ms) h =
          dupLoop r rounds p' u' (slotAfter (ms ++ [h.requests])) h' := by
        have hread' := hold₀ hold'
        simp only [dupOf] at hstore
        simp only [dupLoop, hgrant, if_true, hread, haddr, Option.bind_eq_bind, Option.bind_some,
          hstore, hread', slotAfter_append]
      rw [hstep]
      exact ih rounds (Nat.le_of_succ_le_succ hrounds) hrest hown hold'
    · refine ⟨u, ms, fs, _, ?_, hold.request⟩
      rw [dupLoop]
      exact if_neg hgrant

/-- The end of `getaddrinfo` keeps what there is, and has no more than the copies added to it. -/
theorem finish_holding (hints : Option Hints) (hold : Holding h₀ h p ks es) :
    (p = none ∧ finish r hints p h = some ⟨eaiNoname, none, h⟩) ∨
      ∃ ks' es' h', finish r hints p h = some ⟨0, p, h'⟩ ∧ Holding h₀ h' p ks' es' := by
  cases p with
  | none => exact .inl ⟨rfl, rfl⟩
  | some k =>
    by_cases htype : hints.map (·.aiSocktype) = some 0
    · obtain ⟨u, ms, fs, h₁, hloop, hnew⟩ := @dupLoop_holding r h h (some k) none ks [] es []
        h.requests hold.listed.length_le hold.listed hold.own (holding_nil hold.bounded)
      have hslot : slotAfter [] = .head := rfl
      rw [hslot] at hloop
      rcases List.eq_nil_or_concat' ks with rfl | ⟨front, e, rfl⟩
      · cases hold.listed.linked
      have hkeeps : ∀ j ∈ front ++ [e], h₁.blocks j = h.blocks j := by
        intro j hj
        obtain ⟨ai, sin, hblock⟩ := hold.listed.exists_block hj
        refine hnew.blocks j (fun hmem => ?_) fun hmem => ?_
        · simp [hnew.fresh j (.inl hmem)] at hblock
        · simp [hnew.fresh j (.inr hmem)] at hblock
      have hdisj : (front ++ [e]).Disjoint ms := by
        intro j hj hmem
        obtain ⟨ai, sin, hblock⟩ := hold.listed.exists_block hj
        simp [hnew.fresh j (.inr hmem)] at hblock
      have hl₁ := hold.listed.congr hkeeps hnew.requests
      have hlen := hl₁.length_le
      rw [List.length_append, List.length_singleton] at hlen
      have hlast := lastEntry_spec hl₁.linked (Nat.lt_of_succ_le hlen)
      obtain ⟨h', hset, hl', -, -⟩ := hl₁.splice hnew.listed hdisj
      obtain ⟨hsame, hrequests, hbounded⟩ := setNext_frame hset
      refine .inr ⟨_, _, h', ?_, hold.append hnew hl' (fun j hj => hsame j ?_) hrequests.ge
        (hbounded hnew.bounded)⟩
      · rw [finish, if_pos htype]
        simp only [hloop, hlast, hset, Option.bind_eq_bind, Option.bind_some]
      · rintro rfl
        exact hj (by simp)
    · exact .inr ⟨ks, es, h, by rw [finish, if_neg htype], hold⟩

end Building

/-- A failed call has left no block behind, and the list of another is freed whole. -/
def Balanced (h : Heap) (ans : Answer) : Prop :=
  ans.ret ≠ 0 ∧ ans.res = none ∧ ans.heap.blocks = h.blocks ∨
    ans.ret = 0 ∧ ∃ h', freeaddrinfo ans.res ans.heap = some h' ∧ h'.blocks = h.blocks

section Calls

variable {r : Resolver} {h : Heap} {q : Hints} {port : ℕ}

theorem balanced_failed {e : ℤ} (he : e ≠ 0) {h' : Heap} (hblocks : h'.blocks = h.blocks) :
    Balanced h ⟨e, none, h'⟩ :=
  .inl ⟨he, rfl, hblocks⟩

theorem finish_balanced (hints : Option Hints) {h' : Heap} {p : Option ℕ} {ks : List ℕ}
    {es : List (AddrInfo × SockaddrIn)} (hold : Holding h h' p ks es) :
    ∃ ans, finish r hints p h' = some ans ∧ Balanced h ans := by
  rcases @finish_holding r h h' p ks es hints hold with
    ⟨rfl, hfinish⟩ | ⟨ks', es', h₂, hfinish, hold'⟩
  · refine ⟨_, hfinish, balanced_failed (by decide) (funext fun j => ?_)⟩
    have hnone : ks = [] := by
      cases ks with
      | nil => rfl
      | cons k ks => cases hold.listed.linked.1
    subst hnone
    obtain rfl := List.eq_nil_of_length_eq_zero hold.listed.length_eq
    exact hold.blocks j List.not_mem_nil List.not_mem_nil
  · exact ⟨_, hfinish, .inr ⟨rfl, hold'.free⟩⟩

theorem resolveNode_balanced (hb : h.Bounded) (node : Option CString) (hints : Option Hints) :
    ∃ ans, resolveNode r node hints q port h = some ans ∧ Balanced h ans := by
  have hone : ∀ addr, (newEntry r port q addr h = (none, { h with requests := h.requests + 1 }) ∨
      ∃ h', newEntry r port q addr h = (some h.requests, h') ∧
        Holding h h' (some h.requests) [h.requests] [entryOf port q h.requests addr]) := by
    intro addr
    refine (@newEntry_made r port q h hb addr).imp id ?_
    rintro ⟨h', hnew, hmade⟩
    obtain ⟨p', h₂, hstore, hold⟩ := (holding_nil hb).push hmade
    obtain ⟨rfl, rfl⟩ := Prod.mk.inj (Option.some.inj hstore)
    exact ⟨h', hnew, hold⟩
  cases node with
  | none =>
    rcases hone (if hasFlag q.aiFlags aiPassive then inaddrAny else inaddrLoopback) with
      hnew | ⟨h', hnew, hold⟩
    · exact ⟨⟨eaiMemory, none, { h with requests := h.requests + 1 }⟩,
        by simp only [resolveNode, hnew], balanced_failed (by decide) rfl⟩
    · obtain ⟨ans, hfinish, hbalanced⟩ := @finish_balanced r h hints h' _ _ _ hold
      exact ⟨ans, by simpa only [resolveNode, hnew] using hfinish, hbalanced⟩
  | some node =>
    by_cases hnumeric : hasFlag q.aiFlags aiNumerichost = true
    · cases haddr : r.inetAton node with
      | none =>
        exact ⟨⟨eaiNoname, none, h⟩, by simp only [resolveNode, if_pos hnumeric, haddr],
          balanced_failed (by decide) rfl⟩
      | some addr =>
        rcases hone addr with hnew | ⟨h', hnew, hold⟩
        · exact ⟨⟨eaiMemory, none, { h with requests := h.requests + 1 }⟩,
            by simp only [resolveNode, if_pos hnumeric, haddr, hnew],
            balanced_failed (by decide) rfl⟩
        · exact ⟨⟨0, some h.requests, h'⟩,
            by simp only [resolveNode, if_pos hnumeric, haddr, hnew], .inr ⟨rfl, hold.free⟩⟩
    · cases hhost : r.gethostbyname node with
      | error e =>
        refine ⟨⟨hostErrorCode e, none, h⟩, by simp only [resolveNode, if_neg hnumeric, hhost],
          balanced_failed ?_ rfl⟩
        cases e <;> decide
      | ok he =>
        have hslot : slotAfter [] = .head := rfl
        rcases @hostLoop_holding r port q h h none [] [] he.hName he.hAddrList 0 (holding_nil hb)
          with ⟨p', ks, es, h', hloop, hold⟩ | ⟨h', hloop, hblocks⟩
        · rw [hslot] at hloop
          obtain ⟨ans, hfinish, hbalanced⟩ := @finish_balanced r h hints h' _ _ _ hold
          refine ⟨ans, ?_, hbalanced⟩
          simpa only [resolveNode, if_neg hnumeric, hhost, hloop, Option.bind_eq_bind,
            Option.bind_some] using hfinish
        · rw [hslot] at hloop
          refine ⟨⟨eaiMemory, none, h'⟩, ?_, balanced_failed (by decide) hblocks⟩
          simp only [resolveNode, if_neg hnumeric, hhost, hloop, Option.bind_eq_bind,
            Option.bind_some]

end Calls

/-- Whatever the request, and whichever allocations are refused, `getaddrinfo` uses no block that
is not there and comes to an end. A failed call leaves no block behind; after a call that succeeds
`freeaddrinfo` frees every block of the call once, and no others. -/
theorem getaddrinfo_freeaddrinfo (r : Resolver) (node service : Option CString)
    (hints : Option Hints) (h : Heap) (hbounded : h.Bounded) :
    ∃ ans, getaddrinfo r node service hints h = some ans ∧ Balanced h ans := by
  unfold getaddrinfo
  dsimp only
  split_ifs
  · exact ⟨_, rfl, balanced_failed (by decide) rfl⟩
  · exact ⟨_, rfl, balanced_failed (by decide) rfl⟩
  · exact ⟨_, rfl, balanced_failed (by decide) rfl⟩
  · cases hservice : resolveService r service (hints.getD .zero) with
    | error e => exact ⟨_, rfl, balanced_failed (resolveService_error hservice) rfl⟩
    | ok port => exact resolveNode_balanced hbounded node hints

/-- The first address of two is granted, and its name, but not the second. -/
def scarceResolver : Resolver := { wwwResolver with grants := fun k => decide (k < 2) }

theorem getaddrinfo_freeaddrinfo_scarce :
    ∃ ans, getaddrinfo scarceResolver (some (.ofString "www")) none (some wwwHints) .empty =
      some ans ∧ Balanced .empty ans :=
  getaddrinfo_freeaddrinfo scarceResolver (some (.ofString "www")) none (some wwwHints) .empty
    fun _ _ => rfl

end Solcompat.Network
