import Solcompat.Cxa.Finalize

/-!
# Registrations made while everything is finalized

`__cxa_finalize(NULL)` reads the number of slots once, before its walk. A destructor that
registers another one fills a slot above the cursor, which the walk does not reach: it is
executed only if another call of `__cxa_finalize` that matches it starts after it was
registered. The frames of the running calls are followed together: a slot in use that some
walk was started for is still ahead of one of them.
-/

namespace Solcompat.Cxa

section Restarts

variable {Tid : Type}

/-- A walk that matches slot `k` was started after the slot was registered. -/
def Restarted (history : List (Event Tid)) (k : ℕ) : Prop :=
  ∃ before u dso after func arg entryDso, history = before ++ .started u dso :: after ∧
    (registrations before)[k]? = some (func, arg, entryDso) ∧ matchesDso dso entryDso = true

variable {history extra : List (Event Tid)} {k : ℕ}

theorem Restarted.append (h : Restarted history k) (extra : List (Event Tid)) :
    Restarted (history ++ extra) k := by
  obtain ⟨before, u, dso, after, func, arg, entryDso, rfl, hk, hmatch⟩ := h
  exact ⟨before, u, dso, after ++ extra, func, arg, entryDso, by simp, hk, hmatch⟩

theorem registrations_append (front back : List (Event Tid)) :
    registrations (front ++ back) = registrations front ++ registrations back :=
  List.filterMap_append

theorem Restarted.lt (h : Restarted history k) : k < (registrations history).length := by
  obtain ⟨before, u, dso, after, func, arg, entryDso, rfl, hk, -⟩ := h
  have hlt := (List.getElem?_eq_some_iff.mp hk).1
  rw [registrations_append, List.length_append]
  omega

theorem Restarted.of_append (h : Restarted (history ++ extra) k)
    (hextra : ∀ e ∈ extra, e.ofAtexit = true ∨ ∃ t d j f a, e = .executed t d j f a) :
    Restarted history k := by
  obtain ⟨before, u, dso, after, func, arg, entryDso, hsplit, hk, hmatch⟩ := h
  rcases List.append_eq_append_iff.mp hsplit with ⟨mid, hbefore, hextra'⟩ | ⟨mid, hhistory, hrest⟩
  · have hmem : .started u dso ∈ extra := by simp [hextra']
    rcases hextra _ hmem with h | ⟨t, d, j, f, a, h⟩
    · simp [Event.ofAtexit] at h
    · cases h
  · cases mid with
    | nil =>
      have hmem : .started u dso ∈ extra := by
        rw [List.nil_append] at hrest
        simp [← hrest]
      rcases hextra _ hmem with h | ⟨t, d, j, f, a, h⟩
      · simp [Event.ofAtexit] at h
      · cases h
    | cons first mid =>
      simp only [List.cons_append, List.cons.injEq] at hrest
      rw [← hrest.1] at hhistory
      exact ⟨before, u, dso, mid, func, arg, entryDso, hhistory, hk, hmatch⟩

theorem Restarted.of_started {u : Tid} {dso : ℕ}
    (h : Restarted (history ++ [.started u dso]) k) :
    Restarted history k ∨ ∃ func arg entryDso,
      (registrations history)[k]? = some (func, arg, entryDso) ∧
        matchesDso dso entryDso = true := by
  obtain ⟨before, v, d, after, func, arg, entryDso, hsplit, hk, hmatch⟩ := h
  cases after using List.reverseRecOn with
  | nil =>
    have hlast := List.append_inj' hsplit rfl
    obtain ⟨rfl, hstart⟩ := hlast
    cases hstart
    exact .inr ⟨func, arg, entryDso, hk, hmatch⟩
  | append_singleton after last =>
    have hlast : history ++ [Event.started u dso] =
        (before ++ .started v d :: after) ++ [last] := by
      rw [hsplit]
      simp
    obtain ⟨rfl, -⟩ := List.append_inj' hlast rfl
    exact .inl ⟨before, v, d, after, func, arg, entryDso, rfl, hk, hmatch⟩

end Restarts

namespace Frame

/-- The slot lies ahead of the cursor of a walk that matches it. -/
def covers (k entryDso : ℕ) : Frame → Prop
  | walking dso i => k < i ∧ matchesDso dso entryDso = true
  | claimed dso i => k < i ∧ matchesDso dso entryDso = true
  | calling dso i => k < i ∧ matchesDso dso entryDso = true
  | inCallback dso i => k < i ∧ matchesDso dso entryDso = true
  | _ => False

/-- The slot existed when the walk started, and the walk matches it. -/
def knows (k entryDso : ℕ) : Frame → Prop
  | walking dso i => k < i ∧ matchesDso dso entryDso = true
  | claimed dso i => k < i + 1 ∧ matchesDso dso entryDso = true
  | calling dso i => k < i + 1 ∧ matchesDso dso entryDso = true
  | inCallback dso i => k < i + 1 ∧ matchesDso dso entryDso = true
  | _ => False

theorem not_knows_of_reach {frame : Frame} {k entryDso : ℕ} (h : frame.reach = 0) :
    ¬ frame.knows k entryDso := by
  cases frame <;> simp_all [reach, knows]

theorem not_covers_of_client {frame : Frame} {k entryDso : ℕ} (h : frame.isFinalize = false) :
    ¬ frame.covers k entryDso := by
  cases frame <;> simp_all [isFinalize, covers]

theorem knows.lt_reach {frame : Frame} {k entryDso : ℕ} (h : frame.knows k entryDso) :
    k < frame.reach := by
  cases frame <;> simp_all [reach, knows]

end Frame

section Covering

variable {Tid : Type}

/-- What holds of the slots while the frames `active` run, where the first call started
with `count` slots. -/
structure Covering (count : ℕ) (active : List Frame) (s : State Tid) : Prop where
  size : count ≤ s.table.length
  ahead : ∀ k e, s.table[k]? = some e → e.inUse = true →
    k < count ∨ Restarted s.history k → ∃ frame ∈ active, frame.covers k e.dsoHandle
  known : ∀ frame ∈ active, ∀ k e, s.table[k]? = some e → count ≤ k →
    frame.knows k e.dsoHandle → Restarted s.history k
  consumed : ∀ k e, s.table[k]? = some e → count ≤ k → e.inUse = false →
    Restarted s.history k

variable {count : ℕ} {active : List Frame} {s s' : State Tid} {t : Tid}

theorem Covering.client (old new : List Frame) {rest : List Frame} {more : List Entry}
    {extra : List (Event Tid)} (h : Covering count (old ++ rest) s) (hs : Invariant s)
    (htable : s'.table = s.table ++ more) (hmore : ∀ e ∈ more, e.inUse = true)
    (hhistory : s'.history = s.history ++ extra) (hextra : ∀ e ∈ extra, e.ofAtexit = true)
    (hrest : ∀ frame ∈ rest, frame.reach ≤ s.table.length)
    (hold : ∀ frame ∈ old, frame.isFinalize = false)
    (hnew : ∀ frame ∈ new, frame.reach = 0) : Covering count (new ++ rest) s' := by
  have hrestart : ∀ k, Restarted s'.history k → Restarted s.history k := by
    intro k hk
    rw [hhistory] at hk
    exact hk.of_append fun e he => .inl (hextra e he)
  have hget : ∀ k e, s'.table[k]? = some e → k < s.table.length → s.table[k]? = some e := by
    intro k e hk hlt
    rwa [htable, List.getElem?_append_left hlt] at hk
  constructor
  · rw [htable, List.length_append]
    exact h.size.trans (Nat.le_add_right _ _)
  · intro k e hk hused hstarted
    have hlt : k < s.table.length := by
      rcases hstarted with hlt | hstarted
      · exact hlt.trans_le h.size
      · rw [← hs.registrations_length]
        exact (hrestart k hstarted).lt
    obtain ⟨frame, hframe, hcovers⟩ :=
      h.ahead k e (hget k e hk hlt) hused (hstarted.imp_right (hrestart k))
    rcases List.mem_append.mp hframe with hframe | hframe
    · exact absurd hcovers (Frame.not_covers_of_client (hold frame hframe))
    · exact ⟨frame, by simp [hframe], hcovers⟩
  · intro frame hframe k e hk hle hknows
    rw [hhistory]
    rcases List.mem_append.mp hframe with hframe | hframe
    · exact absurd hknows (Frame.not_knows_of_reach (hnew frame hframe))
    · have hlt := hknows.lt_reach.trans_le (hrest frame hframe)
      exact (h.known frame (by simp [hframe]) k e (hget k e hk hlt) hle hknows).append extra
  · intro k e hk hle hoff
    rw [hhistory]
    by_cases hlt : k < s.table.length
    · exact (h.consumed k e (hget k e hk hlt) hle hoff).append extra
    · rw [htable, List.getElem?_append_right (by omega)] at hk
      rw [hmore e (List.mem_of_getElem? hk)] at hoff
      cases hoff

/-- The top frame moves its cursor: what it no longer covers is not in use. -/
theorem Covering.replace {frame : Frame} {new rest : List Frame}
    (h : Covering count (frame :: rest) s) (extra : List (Event Tid))
    (hsize : s'.table.length = s.table.length) (hhistory : s'.history = s.history ++ extra)
    (hextra : ∀ e ∈ extra, e.ofAtexit = true ∨ ∃ t d j f a, e = .executed t d j f a)
    (hslots : ∀ (k : ℕ) e', s'.table[k]? = some e' → ∃ e, s.table[k]? = some e ∧
      e.dsoHandle = e'.dsoHandle ∧ (e'.inUse = true → e.inUse = true) ∧
      (e'.inUse = false → e.inUse = false ∨ frame.knows k e.dsoHandle))
    (hcovers : ∀ (k : ℕ) e, s'.table[k]? = some e → e.inUse = true →
      frame.covers k e.dsoHandle → ∃ f ∈ new, f.covers k e.dsoHandle)
    (hknows : ∀ f ∈ new, ∀ k d, f.knows k d → frame.knows k d) :
    Covering count (new ++ rest) s' := by
  have hrestart : ∀ k, Restarted s'.history k → Restarted s.history k := by
    intro k hk
    rw [hhistory] at hk
    exact hk.of_append hextra
  constructor
  · rw [hsize]
    exact h.size
  · intro k e' hk hused hstarted
    obtain ⟨e, he, hdso, hon, -⟩ := hslots k e' hk
    obtain ⟨f, hf, hcover⟩ := h.ahead k e he (hon hused) (hstarted.imp_right (hrestart k))
    rw [hdso] at hcover
    rcases List.mem_cons.mp hf with rfl | hf
    · obtain ⟨f', hf', hcover'⟩ := hcovers k e' hk hused hcover
      exact ⟨f', by simp [hf'], hcover'⟩
    · exact ⟨f, by simp [hf], hcover⟩
  · intro f hf k e' hk hle hknow
    obtain ⟨e, he, hdso, -, -⟩ := hslots k e' hk
    rw [← hdso] at hknow
    rw [hhistory]
    rcases List.mem_append.mp hf with hf | hf
    · exact (h.known frame (by simp) k e he hle (hknows f hf k _ hknow)).append extra
    · exact (h.known f (by simp [hf]) k e he hle hknow).append extra
  · intro k e' hk hle hoff
    obtain ⟨e, he, -, -, hconsumed⟩ := hslots k e' hk
    rw [hhistory]
    rcases hconsumed hoff with hoff' | hknow
    · exact (h.consumed k e he hle hoff').append extra
    · exact (h.known frame (by simp) k e he hle hknow).append extra

theorem Covering.start {dso : ℕ} {rest : List Frame} {u : Tid}
    (h : Covering count (.finalizing dso :: rest) s) (hs : Invariant s)
    (htable : s'.table = s.table) (hhistory : s'.history = s.history ++ [.started u dso]) :
    Covering count (.walking dso s.table.length :: rest) s' := by
  constructor
  · rw [htable]
    exact h.size
  · intro k e hk hused hstarted
    rw [htable] at hk
    have hlt := (List.getElem?_eq_some_iff.mp hk).1
    have hold : ∀ hstarted' : k < count ∨ Restarted s.history k,
        ∃ frame ∈ Frame.walking dso s.table.length :: rest, frame.covers k e.dsoHandle := by
      intro hstarted'
      obtain ⟨f, hf, hcover⟩ := h.ahead k e hk hused hstarted'
      rcases List.mem_cons.mp hf with rfl | hf
      · cases hcover
      · exact ⟨f, by simp [hf], hcover⟩
    rcases hstarted with hcount | hstarted
    · exact hold (.inl hcount)
    · rw [hhistory] at hstarted
      rcases hstarted.of_started with hstarted | ⟨func, arg, entryDso, hreg, hmatch⟩
      · exact hold (.inr hstarted)
      · rw [hs.registrations_get hk] at hreg
        cases hreg
        exact ⟨.walking dso s.table.length, by simp, hlt, hmatch⟩
  · intro f hf k e hk hle hknow
    rw [htable] at hk
    rw [hhistory]
    rcases List.mem_cons.mp hf with rfl | hf
    · exact ⟨s.history, u, dso, [], e.destructorFunc, e.objectArg, e.dsoHandle, rfl,
        hs.registrations_get hk, hknow.2⟩
    · exact (h.known f (by simp [hf]) k e hk hle hknow).append _
  · intro k e hk hle hoff
    rw [htable] at hk
    rw [hhistory]
    exact (h.consumed k e hk hle hoff).append _

theorem Covering.keep {frame : Frame} {new rest : List Frame}
    (h : Covering count (frame :: rest) s) (extra : List (Event Tid))
    (htable : s'.table = s.table) (hhistory : s'.history = s.history ++ extra)
    (hextra : ∀ e ∈ extra, e.ofAtexit = true ∨ ∃ t d j f a, e = .executed t d j f a)
    (hcovers : ∀ (k : ℕ) e, s.table[k]? = some e → e.inUse = true →
      frame.covers k e.dsoHandle → ∃ f ∈ new, f.covers k e.dsoHandle)
    (hknows : ∀ f ∈ new, ∀ k d, f.knows k d → frame.knows k d) :
    Covering count (new ++ rest) s' := by
  apply h.replace extra (by rw [htable]) hhistory hextra
  · intro k e hk
    rw [htable] at hk
    exact ⟨e, hk, rfl, id, .inl⟩
  · intro k e hk
    rw [htable] at hk
    exact hcovers k e hk
  · exact hknows

theorem Covering.skip {dso k : ℕ} {e : Entry} {rest : List Frame}
    (h : Covering count (.walking dso (k + 1) :: rest) s) (htable : s'.table = s.table)
    (hhistory : s'.history = s.history) (entry : s.table[k]? = some e)
    (skipped : (e.inUse && matchesDso dso e.dsoHandle) = false) :
    Covering count (.walking dso k :: rest) s' := by
  change Covering count ([.walking dso k] ++ rest) s'
  refine h.keep [] htable (by simpa using hhistory) (by simp) ?_ ?_
  · intro j e' hj hused hcovers
    have hlt : j < k + 1 := hcovers.1
    have hjk : j ≠ k := by
      rintro rfl
      rw [entry, Option.some.injEq] at hj
      subst hj
      rw [hused, hcovers.2] at skipped
      cases skipped
    exact ⟨.walking dso k, by simp, by omega, hcovers.2⟩
  · intro f hf j d hknows
    rw [List.mem_singleton.mp hf] at hknows
    exact ⟨hknows.1.trans (Nat.lt_succ_self k), hknows.2⟩

theorem Covering.claim {dso k : ℕ} {e : Entry} {rest : List Frame}
    (h : Covering count (.walking dso (k + 1) :: rest) s)
    (htable : s'.table = (s.consume k e).table) (hhistory : s'.history = s.history)
    (entry : s.table[k]? = some e) (used : e.inUse = true)
    (dsoMatches : matchesDso dso e.dsoHandle = true) :
    Covering count (.claimed dso k :: rest) s' := by
  have hget := State.consume_getElem? entry
  change Covering count ([.claimed dso k] ++ rest) s'
  refine h.replace [] (by simp [htable]) (by simpa using hhistory) (by simp) ?_ ?_ ?_
  · intro j e' hj
    rw [htable, hget] at hj
    split_ifs at hj with hjk
    · subst hjk
      cases hj
      exact ⟨e, entry, rfl, fun _ => used, fun _ => .inr ⟨Nat.lt_succ_self j, dsoMatches⟩⟩
    · exact ⟨e', hj, rfl, id, .inl⟩
  · intro j e' hj hused hcovers
    have hlt : j < k + 1 := hcovers.1
    have hjk : j ≠ k := by
      rintro rfl
      rw [htable, hget, if_pos rfl, Option.some.injEq] at hj
      rw [← hj] at hused
      cases hused
    exact ⟨.claimed dso k, by simp, by omega, hcovers.2⟩
  · intro f hf j d hknows
    rwa [List.mem_singleton.mp hf] at hknows

variable [DecidableEq Tid]

theorem Covering.own {frame : Frame} {rest : List Frame} (h : Covering count (frame :: active) s)
    (hs : Invariant s) (hstep : Transition s t s') (hstack : s.stack t = frame :: rest)
    (hframe : frame.isFinalize = true) :
    ∃ new, s'.stack t = new ++ rest ∧ Covering count (new ++ active) s' := by
  have htop : ∀ {top rest'}, s.stack t = top :: rest' → top = frame ∧ rest' = rest := by
    intro top rest' h
    rw [hstack] at h
    cases h
    exact ⟨rfl, rfl⟩
  cases hstep with
  | callAtexit func arg dso client =>
    rw [hstack, inClient_of_isFinalize hframe] at client
    cases client
  | callFinalize dso client =>
    rw [hstack, inClient_of_isFinalize hframe] at client
    cases client
  | ret func arg rest' top =>
    obtain ⟨rfl, -⟩ := htop top
    cases hframe
  | register func arg dso rest' top free room =>
    obtain ⟨rfl, -⟩ := htop top
    cases hframe
  | full func arg dso rest' top free full =>
    obtain ⟨rfl, -⟩ := htop top
    cases hframe
  | leaveAtexit result rest' top =>
    obtain ⟨rfl, -⟩ := htop top
    cases hframe
  | start dso rest' top free =>
    obtain ⟨rfl, rfl⟩ := htop top
    exact ⟨[.walking dso s.table.length], by simp, h.start hs rfl rfl⟩
  | leaveFinalize dso rest' top =>
    obtain ⟨rfl, rfl⟩ := htop top
    refine ⟨[], by simp, h.keep [] rfl (by simp) (by simp) ?_ (by simp)⟩
    intro k e _ _ hcovers
    exact absurd hcovers.1 (Nat.not_lt_zero k)
  | skip dso k rest' e top entry skipped =>
    obtain ⟨rfl, rfl⟩ := htop top
    exact ⟨[.walking dso k], by simp, h.skip rfl rfl entry skipped⟩
  | claim dso k rest' e top entry used dsoMatches =>
    obtain ⟨rfl, rfl⟩ := htop top
    exact ⟨[.claimed dso k], by simp, h.claim rfl rfl entry used dsoMatches⟩
  | unlock dso k rest' top =>
    obtain ⟨rfl, rfl⟩ := htop top
    refine ⟨[.calling dso k], by simp, h.keep [] rfl (by simp) (by simp) ?_ ?_⟩
    · exact fun j e' _ _ hcovers => ⟨.calling dso k, by simp, hcovers⟩
    · intro f hf j d hknows
      rwa [List.mem_singleton.mp hf] at hknows
  | execute dso k rest' e top entry =>
    obtain ⟨rfl, rfl⟩ := htop top
    refine ⟨[.running e.destructorFunc e.objectArg, .inCallback dso k], by simp,
      h.keep _ rfl (State.record_history _ _) ?_ ?_ ?_⟩
    · intro event hevent
      exact .inr ⟨_, _, _, _, _, List.mem_singleton.mp hevent⟩
    · exact fun j e' _ _ hcovers => ⟨.inCallback dso k, by simp, hcovers⟩
    · intro f hf j d hknows
      rcases List.mem_cons.mp hf with rfl | hf
      · cases hknows
      · rwa [List.mem_singleton.mp hf] at hknows
  | relock dso k rest' top free =>
    obtain ⟨rfl, rfl⟩ := htop top
    refine ⟨[.walking dso k], by simp, h.keep [] rfl (by simp) (by simp) ?_ ?_⟩
    · exact fun j e' _ _ hcovers => ⟨.walking dso k, by simp, hcovers⟩
    · intro f hf j d hknows
      rw [List.mem_singleton.mp hf] at hknows
      exact ⟨hknows.1.trans (Nat.lt_succ_self k), hknows.2⟩

/-- No call of `__cxa_finalize` runs in another thread. -/
def OnlyFinalizer (t : Tid) (s : State Tid) : Prop :=
  ∀ u, u ≠ t → ∀ frame ∈ s.stack u, frame.isFinalize = false

/-- The frames of `t` above `below` cover what they should. -/
def Covered (t : Tid) (below : List Frame) (count : ℕ) (s : State Tid) : Prop :=
  ∃ active, s.stack t = active ++ below ∧ Covering count active s

theorem Covered.step {below : List Frame} {u : Tid} (h : Covered t below count s)
    (hs : Invariant s) (hcall : InCall t below s) (honly : OnlyFinalizer t s)
    (hstep : Transition s u s') : Covered t below count s' := by
  obtain ⟨active, hstack, hcover⟩ := h
  have hreach : ∀ frame ∈ active, frame.reach ≤ s.table.length :=
    fun frame hframe => hs.reach t frame (by simp [hstack, hframe])
  by_cases hut : u = t
  · subst hut
    cases active with
    | nil =>
      rw [InCall, hstack] at hcall
      exact absurd hcall (lt_irrefl _)
    | cons top active =>
      cases htop : top.isFinalize with
      | true =>
        obtain ⟨new, hnew, hcover'⟩ := hcover.own hs hstep hstack htop
        exact ⟨new ++ active, by simpa using hnew, hcover'⟩
      | false =>
        have hclient : ClientStep s s' u := by
          apply hstep.clientStep
          intro top' rest htop'
          rw [hstack, List.cons_append, List.cons.injEq] at htop'
          rw [← htop'.1]
          exact htop
        obtain ⟨more, hmore, hused⟩ := hclient.table
        obtain ⟨extra, hextra, hatexit⟩ := hclient.history
        obtain ⟨old, new, rest, hold, hnew, hlength, hnot, hzero⟩ := hclient.stack
        obtain ⟨rest', hactive, hrest⟩ : ∃ rest', top :: active = old ++ rest' ∧
            rest = rest' ++ below := by
          rw [hstack] at hold
          cases old with
          | nil => exact ⟨top :: active, rfl, hold.symm⟩
          | cons x more =>
            have hmore : more = [] := by
              simpa using hlength
            rw [hmore, List.singleton_append, List.cons_append, List.cons.injEq] at hold
            exact ⟨active, by rw [hmore, hold.1, List.singleton_append], hold.2.symm⟩
        rw [hactive] at hcover hreach
        refine ⟨new ++ rest', by rw [hnew, hrest, List.append_assoc], ?_⟩
        exact hcover.client old new hs hmore hused hextra hatexit
          (fun frame hframe => hreach frame (by simp [hframe])) hnot hzero
  · have hclient : ClientStep s s' u := by
      apply hstep.clientStep
      intro top rest htop
      exact honly u hut top (by simp [htop])
    obtain ⟨more, hmore, hused⟩ := hclient.table
    obtain ⟨extra, hextra, hatexit⟩ := hclient.history
    refine ⟨active, by rw [hstep.stack_of_ne (Ne.symm hut), hstack], ?_⟩
    exact Covering.client [] [] hcover hs hmore hused hextra hatexit hreach (by simp) (by simp)

theorem Covered.run {below : List Frame} (h : Covered t below count s) (hs : Invariant s)
    (hrun : RunWhile (fun s => InCall t below s ∧ OnlyFinalizer t s) s s') :
    Covered t below count s' := by
  induction hrun with
  | refl => exact h
  | tail hrun hstep ih =>
    obtain ⟨⟨hcall, honly⟩, u, action, haction⟩ := hstep
    exact ih.step (hs.runWhile hrun) hcall honly (transition_of_step haction)

end Covering

section Everything

variable {Tid : Type} [DecidableEq Tid] {t : Tid} {below : List Frame}
  {s₀ s₁ s₂ : State Tid}

theorem pendingSlot_of_return (hs : Invariant s₀)
    (htop : s₀.stack t = .finalizing 0 :: below) (hstart : s₀.step t .advance = some s₁)
    (hrun : RunWhile (fun s => InCall t below s ∧ OnlyFinalizer t s) s₁ s₂)
    (hend : s₂.stack t = below) (u : Tid) : pendingSlot (s₂.stack u) = none := by
  by_cases hut : u = t
  · rw [hut, hend]
    exact hs.pendingSlot_below htop
  · rcases hrun.cases_tail with heq | ⟨s, -, ⟨hcall, honly⟩, v, action, haction⟩
    · rw [heq, start_eq htop hstart] at hend
      simp at hend
    · have hstep := transition_of_step haction
      -- The last step is the return, made by the thread of the call.
      have hvt : v = t := by
        by_contra hne
        rw [InCall, ← hstep.stack_of_ne (Ne.symm hne), hend] at hcall
        exact absurd hcall (lt_irrefl _)
      subst hvt
      rw [hstep.stack_of_ne hut]
      cases hstack : s.stack u with
      | nil => rfl
      | cons top rest => exact pendingSlot_of_client (honly u hut top (by simp [hstack])) rest

/-- When `__cxa_finalize(NULL)` returns, beside which no other thread finalizes, everything
that was ever registered has been executed exactly when each registration that took effect
while it ran was followed by the start of another finalize call that matches it. -/
theorem finalizeAll_executes_iff (hs : s₀.Reachable)
    (htop : s₀.stack t = .finalizing 0 :: below)
    (hstart : s₀.step t .advance = some s₁)
    (hrun : RunWhile (fun s => InCall t below s ∧ OnlyFinalizer t s) s₁ s₂)
    (hend : s₂.stack t = below) :
    (∀ k, k < (registrations s₂.history).length → k ∈ executedSlots s₂.history) ↔
      ∀ k, (registrations s₁.history).length ≤ k → k < (registrations s₂.history).length →
        Restarted s₂.history k := by
  have hs₀ := invariant_of_reachable hs
  have hs₁ := hs₀.transition (transition_of_step hstart)
  have hs₂ := hs₁.runWhile hrun
  have hcovered : Covered t below (registrations s₁.history).length s₁ := by
    obtain rfl := start_eq htop hstart
    rw [hs₁.registrations_length]
    refine ⟨[.walking 0 s₀.table.length], by simp, le_rfl, ?_, ?_, ?_⟩
    · intro k e hk _ _
      exact ⟨_, List.mem_singleton_self _, (List.getElem?_eq_some_iff.mp hk).1, rfl⟩
    · intro frame hframe k e hk hle _
      exact absurd (List.getElem?_eq_some_iff.mp hk).1 (Nat.not_lt.mpr hle)
    · intro k e hk hle _
      exact absurd (List.getElem?_eq_some_iff.mp hk).1 (Nat.not_lt.mpr hle)
  obtain ⟨active, hactive, hcover⟩ := hcovered.run hs₁ hrun
  obtain rfl : active = [] := by
    rw [hend] at hactive
    simpa using hactive
  constructor
  · intro hall k hle hlt
    obtain ⟨e, he⟩ := hs₂.entry_of_lt hlt
    apply hcover.consumed k e he hle
    by_contra hused
    exact hs₂.used k e he (by simpa using hused) (hall k hlt)
  · intro hrestarted k hlt
    obtain ⟨e, he⟩ := hs₂.entry_of_lt hlt
    have hoff : e.inUse = false := by
      by_contra hused
      have hstarted : k < (registrations s₁.history).length ∨ Restarted s₂.history k := by
        by_cases hle : (registrations s₁.history).length ≤ k
        · exact .inr (hrestarted k hle hlt)
        · exact .inl (by omega)
      obtain ⟨frame, hframe, -⟩ := hcover.ahead k e he (by simpa using hused) hstarted
      simp at hframe
    rcases hs₂.unused k e he hoff with hexec | ⟨u, dso, hu⟩
    · exact hexec
    · rw [pendingSlot_of_return hs₀ htop hstart hrun hend u] at hu
      cases hu

end Everything

section Samples

/-- A thread registers one destructor and calls `__cxa_finalize(NULL)`. -/
def beforeWalk : List (Unit × Action) :=
  [((), .cxaAtexit 10 20 30), ((), .advance), ((), .advance), ((), cxaAtexitCleanup)]

theorem onlyFinalizer_unit (s : State Unit) : OnlyFinalizer () s :=
  fun u hu => absurd (Subsingleton.elim u ()) hu

/-- With a destructor that registers nothing, everything is executed. -/
theorem finalizeAll_executes_iff_sample :
    ∃ s₂ : State Unit,
      State.initial.run (beforeWalk ++ [((), .advance), ((), .advance), ((), .advance),
        ((), .advance), ((), .ret), ((), .advance), ((), .advance)]) = some s₂ ∧
      ∀ k, k < (registrations s₂.history).length → k ∈ executedSlots s₂.history := by
  refine ⟨_, rfl, ?_⟩
  refine (@finalizeAll_executes_iff Unit _ () [] _ _ _ ⟨beforeWalk, rfl⟩ rfl rfl ?_ rfl).mpr ?_
  · refine .head ⟨⟨by decide, onlyFinalizer_unit _⟩, (), .advance, rfl⟩ ?_
    refine .head ⟨⟨by decide, onlyFinalizer_unit _⟩, (), .advance, rfl⟩ ?_
    refine .head ⟨⟨by decide, onlyFinalizer_unit _⟩, (), .advance, rfl⟩ ?_
    refine .head ⟨⟨by decide, onlyFinalizer_unit _⟩, (), .ret, rfl⟩ ?_
    refine .head ⟨⟨by decide, onlyFinalizer_unit _⟩, (), .advance, rfl⟩ ?_
    exact .head ⟨⟨by decide, onlyFinalizer_unit _⟩, (), .advance, rfl⟩ .refl
  · intro k hle hlt
    exact absurd hlt (Nat.not_lt.mpr hle)

/-- The destructor registers another one while it runs. -/
def lateActions : List (Unit × Action) :=
  beforeWalk ++ [((), .advance), ((), .advance), ((), .advance), ((), .advance),
    ((), .cxaAtexit 11 21 31), ((), .advance), ((), .advance), ((), .ret), ((), .advance),
    ((), .advance)]

/-- `__cxa_finalize(NULL)` has returned, and the destructor that was registered while it
ran has not been executed. -/
theorem finalizeAll_misses_late :
    ∃ s : State Unit, State.initial.run lateActions = some s ∧ s.stack () = [] ∧
      registrations s.history = [(10, 20, 30), (11, 21, 31)] ∧
      ¬ ∀ k, k < (registrations s.history).length → k ∈ executedSlots s.history := by
  refine ⟨_, rfl, rfl, rfl, ?_⟩
  intro hall
  exact absurd (hall 1 (by decide)) (by decide)

end Samples

end Solcompat.Cxa
