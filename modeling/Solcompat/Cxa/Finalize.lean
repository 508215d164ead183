import Solcompat.Cxa.Invariant
import Mathlib.Logic.Relation

/-!
# A finalize call with no other beside it

While no other call of `__cxa_finalize` runs, the slots below the cursor of a walk change
only through the walk itself. What it still has to execute can be read off the table, and
with what it has executed this stays the list of slots that were waiting when it started.
-/

namespace Solcompat.Cxa

namespace Frame

def isFinalize : Frame → Bool
  | finalizing _ => true
  | walking _ _ => true
  | claimed _ _ => true
  | calling _ _ => true
  | inCallback _ _ => true
  | _ => false

end Frame

theorem pendingSlot_of_client {frame : Frame} (h : frame.isFinalize = false)
    (rest : List Frame) : pendingSlot (frame :: rest) = none := by
  cases frame <;> simp_all [Frame.isFinalize, pendingSlot]

theorem inClient_of_isFinalize {frame : Frame} (h : frame.isFinalize = true) (rest : List Frame) :
    State.inClient (frame :: rest) = false := by
  cases frame <;> simp_all [Frame.isFinalize, State.inClient]

section ClientSteps

variable {Tid : Type} {s s' : State Tid} {t : Tid}

def Event.ofAtexit : Event Tid → Bool
  | .hooked _ => true
  | .registered _ _ _ _ => true
  | _ => false

/-- A step of client code or of `__cxa_atexit`: slots may be added, and the calls of
`__cxa_finalize` on the stack stay where they are. -/
structure ClientStep (s s' : State Tid) (t : Tid) : Prop where
  table : ∃ more, s'.table = s.table ++ more ∧ ∀ e ∈ more, e.inUse = true
  history : ∃ extra, s'.history = s.history ++ extra ∧ ∀ e ∈ extra, e.ofAtexit = true
  stack : ∃ old new rest, s.stack t = old ++ rest ∧ s'.stack t = new ++ rest ∧
    old.length ≤ 1 ∧ (∀ frame ∈ old, frame.isFinalize = false) ∧
    ∀ frame ∈ new, frame.reach = 0

theorem ClientStep.executions_eq (h : ClientStep s s' t) :
    executions s'.history = executions s.history := by
  obtain ⟨extra, hextra, hatexit⟩ := h.history
  rw [hextra]
  apply executions_append_of_ne
  rintro e he u dso k func arg rfl
  exact absurd (hatexit _ he) (by simp [Event.ofAtexit])

/-- The calls of `__cxa_finalize` on the stack of the moving thread stay. -/
theorem ClientStep.keeps (h : ClientStep s s' t) {above below : List Frame} {own : Frame}
    (hstack : s.stack t = above ++ own :: below) (hown : own.isFinalize = true) :
    ∃ above', s'.stack t = above' ++ own :: below := by
  obtain ⟨old, new, rest, hold, hnew, hlength, hclient, -⟩ := h.stack
  rw [hold] at hstack
  rcases List.append_eq_append_iff.mp hstack with ⟨mid, habove, hrest⟩ | ⟨mid, hmid, hrest⟩
  · exact ⟨new ++ mid, by rw [hnew, hrest, List.append_assoc]⟩
  · cases mid with
    | nil => exact ⟨new, by rw [hnew, hrest, List.nil_append]⟩
    | cons first mid =>
      simp only [List.cons_append, List.cons.injEq] at hrest
      have hfirst := hclient first (by simp [hmid])
      rw [← hrest.1, hown] at hfirst
      cases hfirst

variable [DecidableEq Tid]

theorem Transition.clientStep (h : Transition s t s')
    (htop : ∀ top rest, s.stack t = top :: rest → top.isFinalize = false) :
    ClientStep s s' t := by
  cases h with
  | callAtexit func arg dso client =>
    exact ⟨⟨[], by simp⟩, ⟨[], by simp⟩,
      ⟨[], [.registering func arg dso], s.stack t, by simp [Frame.reach]⟩⟩
  | callFinalize dso client =>
    exact ⟨⟨[], by simp⟩, ⟨[], by simp⟩,
      ⟨[], [.finalizing dso], s.stack t, by simp [Frame.reach]⟩⟩
  | ret func arg rest top =>
    exact ⟨⟨[], by simp⟩, ⟨[], by simp⟩,
      ⟨[.running func arg], [], rest, by simp [top, Frame.isFinalize]⟩⟩
  | register func arg dso rest top free room =>
    obtain ⟨extra, hextra, hhooked⟩ := hookCleanup_history (s.setLock (some t)) t
    refine ⟨⟨[⟨func, arg, dso, true⟩], by simp⟩,
      ⟨extra ++ [.registered t func arg dso], by simp [hextra], ?_⟩,
      ⟨[.registering func arg dso], [.registered 0], rest,
        by simp [top, Frame.isFinalize, Frame.reach]⟩⟩
    intro e he
    rcases List.mem_append.mp he with he | he
    · rw [hhooked e he, Event.ofAtexit]
    · rw [List.mem_singleton.mp he, Event.ofAtexit]
  | full func arg dso rest top free full =>
    obtain ⟨extra, hextra, hhooked⟩ := hookCleanup_history (s.setLock (some t)) t
    refine ⟨⟨[], by simp⟩, ⟨extra, by simp [hextra], ?_⟩,
      ⟨[.registering func arg dso], [.registered (-1)], rest,
        by simp [top, Frame.isFinalize, Frame.reach]⟩⟩
    intro e he
    rw [hhooked e he, Event.ofAtexit]
  | leaveAtexit result rest top =>
    exact ⟨⟨[], by simp⟩, ⟨[], by simp⟩,
      ⟨[.registered result], [], rest, by simp [top, Frame.isFinalize]⟩⟩
  | start dso rest top free => exact absurd (htop _ _ top) (by simp [Frame.isFinalize])
  | leaveFinalize dso rest top => exact absurd (htop _ _ top) (by simp [Frame.isFinalize])
  | skip dso k rest e top entry skipped =>
    exact absurd (htop _ _ top) (by simp [Frame.isFinalize])
  | claim dso k rest e top entry used dsoMatches =>
    exact absurd (htop _ _ top) (by simp [Frame.isFinalize])
  | unlock dso k rest top => exact absurd (htop _ _ top) (by simp [Frame.isFinalize])
  | execute dso k rest e top entry => exact absurd (htop _ _ top) (by simp [Frame.isFinalize])
  | relock dso k rest top free => exact absurd (htop _ _ top) (by simp [Frame.isFinalize])

end ClientSteps

section Plans

def slotCall (table : List Entry) (k : ℕ) : List (ℕ × ℕ × ℕ) :=
  match table[k]? with
  | some e => [(k, e.destructorFunc, e.objectArg)]
  | none => []

/-- The slots below `i` that a walk for `dso` would execute, in its order. -/
def waiting (table : List Entry) (dso : ℕ) : ℕ → List (ℕ × ℕ × ℕ)
  | 0 => []
  | k + 1 =>
    match table[k]? with
    | some e =>
      if e.inUse && matchesDso dso e.dsoHandle then
        (k, e.destructorFunc, e.objectArg) :: waiting table dso k
      else waiting table dso k
    | none => waiting table dso k

/-- What a call of `__cxa_finalize` still has to execute. -/
def Frame.plan (table : List Entry) : Frame → List (ℕ × ℕ × ℕ)
  | .walking dso i => waiting table dso i
  | .claimed dso k => slotCall table k ++ waiting table dso k
  | .calling dso k => slotCall table k ++ waiting table dso k
  | .inCallback dso k => waiting table dso k
  | _ => []

/-- The frame is a call of `__cxa_finalize` for `dso` that has started. -/
def Frame.walksFor (dso : ℕ) : Frame → Prop
  | .walking d _ => d = dso
  | .claimed d _ => d = dso
  | .calling d _ => d = dso
  | .inCallback d _ => d = dso
  | _ => False

theorem Frame.walksFor.isFinalize {dso : ℕ} {own : Frame} (h : own.walksFor dso) :
    own.isFinalize = true := by
  cases own <;> simp_all [Frame.walksFor, Frame.isFinalize]

/-- Two tables that agree below `i` have the same slots waiting there. -/
theorem waiting_congr {table table' : List Entry} {dso i : ℕ}
    (h : ∀ k, k < i → table'[k]? = table[k]?) :
    waiting table' dso i = waiting table dso i := by
  induction i with
  | zero => rfl
  | succ k ih =>
    rw [waiting, waiting, h k (by omega), ih fun j hj => h j (by omega)]

theorem plan_append {table more : List Entry} {own : Frame} (h : own.reach ≤ table.length) :
    own.plan (table ++ more) = own.plan table := by
  have hget : ∀ k, k < table.length → (table ++ more)[k]? = table[k]? :=
    fun k hk => List.getElem?_append_left hk
  cases own with
  | walking dso i => exact waiting_congr fun k hk => hget k (by simp [Frame.reach] at h; omega)
  | claimed dso k =>
    simp only [Frame.reach] at h
    simp only [Frame.plan, slotCall, hget k (by omega)]
    rw [waiting_congr fun j hj => hget j (by omega)]
  | calling dso k =>
    simp only [Frame.reach] at h
    simp only [Frame.plan, slotCall, hget k (by omega)]
    rw [waiting_congr fun j hj => hget j (by omega)]
  | inCallback dso k =>
    simp only [Frame.reach] at h
    exact waiting_congr fun j hj => hget j (by omega)
  | _ => rfl

end Plans

section Calls

variable {Tid : Type}

/-- The call that stands on `below` has not returned. -/
def InCall (t : Tid) (below : List Frame) (s : State Tid) : Prop :=
  below.length < (s.stack t).length

instance (t : Tid) (below : List Frame) (s : State Tid) : Decidable (InCall t below s) :=
  inferInstanceAs (Decidable (_ < _))

/-- No other call of `__cxa_finalize` runs: neither in another thread, nor above the call
of thread `t` that stands on `below`. -/
def Alone (t : Tid) (below : List Frame) (s : State Tid) : Prop :=
  (∀ u, u ≠ t → ∀ frame ∈ s.stack u, frame.isFinalize = false) ∧
    ∀ frame ∈ (s.stack t).take ((s.stack t).length - below.length - 1),
      frame.isFinalize = false

/-- The state of a call for `dso` on `below` that has `goal` to execute in all. -/
def Walking (t : Tid) (dso : ℕ) (below : List Frame) (goal : List (ℕ × ℕ × ℕ))
    (s : State Tid) : Prop :=
  ∃ above own, s.stack t = above ++ own :: below ∧ own.walksFor dso ∧
    executions s.history ++ own.plan s.table = goal

variable {s s' : State Tid} {t u : Tid} {dso : ℕ} {below : List Frame}
  {goal : List (ℕ × ℕ × ℕ)}

theorem Alone.above {above : List Frame} {own : Frame} (h : Alone t below s)
    (hstack : s.stack t = above ++ own :: below) :
    ∀ frame ∈ above, frame.isFinalize = false := by
  intro frame hframe
  apply h.2
  rw [hstack, List.length_append, List.length_cons,
    show above.length + (below.length + 1) - below.length - 1 = above.length by omega,
    List.take_left]
  exact hframe

/-- The registrations not executed yet whose handle matches, from slot `n - 1` down. -/
def unrunBelow (history : List (Event Tid)) (dso : ℕ) : ℕ → List (ℕ × ℕ × ℕ)
  | 0 => []
  | k + 1 =>
    match (registrations history)[k]? with
    | some (func, arg, entryDso) =>
      if k ∉ executedSlots history ∧ matchesDso dso entryDso then
        (k, func, arg) :: unrunBelow history dso k
      else unrunBelow history dso k
    | none => unrunBelow history dso k

/-- The registered and not yet executed destructors for `dso`, latest first. -/
def unrun (history : List (Event Tid)) (dso : ℕ) : List (ℕ × ℕ × ℕ) :=
  unrunBelow history dso (registrations history).length

/-- With no slot pending, the slots in use are those that were not executed. -/
theorem waiting_eq_unrunBelow (hs : Invariant s)
    (hpending : ∀ u, pendingSlot (s.stack u) = none) (dso i : ℕ) :
    waiting s.table dso i = unrunBelow s.history dso i := by
  induction i with
  | zero => rfl
  | succ k ih =>
    rw [waiting, unrunBelow, ← hs.registered, List.getElem?_map, ih]
    cases hentry : s.table[k]? with
    | none => rfl
    | some e =>
      have hused : e.inUse = true ↔ k ∉ executedSlots s.history := by
        constructor
        · exact hs.used k e hentry
        · intro hnot
          by_contra hoff
          rcases hs.unused k e hentry (by simpa using hoff) with hexec | ⟨u, d, hu⟩
          · exact hnot hexec
          · rw [hpending u] at hu
            cases hu
      simp only [Option.map_some, Entry.triple, Bool.and_eq_true, hused]

variable [DecidableEq Tid]

/-- A run whose states before the last one satisfy `P`. -/
def RunWhile (P : State Tid → Prop) : State Tid → State Tid → Prop :=
  Relation.ReflTransGen fun s s' => P s ∧ ∃ u action, s.step u action = some s'

theorem Walking.client (h : Walking t dso below goal s) (hs : Invariant s)
    (hstep : ClientStep s s' u) (hother : t ≠ u → s'.stack t = s.stack t) :
    Walking t dso below goal s' := by
  obtain ⟨above, own, hstack, hwalks, hgoal⟩ := h
  have hreach : own.reach ≤ s.table.length := hs.reach t own (by simp [hstack])
  obtain ⟨more, hmore, -⟩ := hstep.table
  have hplan : executions s'.history ++ own.plan s'.table = goal := by
    rw [hstep.executions_eq, hmore, plan_append hreach, hgoal]
  by_cases htu : t = u
  · subst htu
    obtain ⟨above', habove⟩ := hstep.keeps hstack hwalks.isFinalize
    exact ⟨above', own, habove, hwalks, hplan⟩
  · exact ⟨above, own, by rw [hother htu, hstack], hwalks, hplan⟩

/-- The walk itself takes a step, or returns with everything executed. -/
theorem Walking.own (hstep : Transition s t s') {frame : Frame}
    (hstack : s.stack t = frame :: below) (hwalks : frame.walksFor dso)
    (hgoal : executions s.history ++ frame.plan s.table = goal) :
    Walking t dso below goal s' ∨ s'.stack t = below ∧ executions s'.history = goal := by
  have htop : ∀ {top rest}, s.stack t = top :: rest → top = frame ∧ rest = below := by
    intro top rest h
    rw [hstack] at h
    cases h
    exact ⟨rfl, rfl⟩
  cases hstep with
  | callAtexit func arg d client =>
    rw [hstack, inClient_of_isFinalize hwalks.isFinalize] at client
    cases client
  | callFinalize d client =>
    rw [hstack, inClient_of_isFinalize hwalks.isFinalize] at client
    cases client
  | ret func arg rest top =>
    obtain ⟨rfl, rfl⟩ := htop top
    cases hwalks
  | register func arg d rest top free room =>
    obtain ⟨rfl, rfl⟩ := htop top
    cases hwalks
  | full func arg d rest top free full =>
    obtain ⟨rfl, rfl⟩ := htop top
    cases hwalks
  | leaveAtexit result rest top =>
    obtain ⟨rfl, rfl⟩ := htop top
    cases hwalks
  | start d rest top free =>
    obtain ⟨rfl, rfl⟩ := htop top
    cases hwalks
  | leaveFinalize d rest top =>
    obtain ⟨rfl, rfl⟩ := htop top
    refine .inr ⟨by simp, ?_⟩
    simpa [Frame.plan, waiting] using hgoal
  | skip d k rest e top entry skipped =>
    obtain ⟨rfl, rfl⟩ := htop top
    cases hwalks
    refine .inl ⟨[], .walking dso k, by simp, rfl, ?_⟩
    simpa [Frame.plan, waiting, entry, skipped] using hgoal
  | claim d k rest e top entry used dsoMatches =>
    obtain ⟨rfl, rfl⟩ := htop top
    cases hwalks
    have hk := (List.getElem?_eq_some_iff.mp entry).1
    have hbelow : waiting (s.table.set k e.consume) dso k = waiting s.table dso k :=
      waiting_congr fun j hj => List.getElem?_set_ne (by omega)
    have hslot : slotCall (s.table.set k e.consume) k =
        [(k, e.destructorFunc, e.objectArg)] := by
      simp [slotCall, hk, Entry.consume]
    have hplan : waiting s.table dso (k + 1) =
        (k, e.destructorFunc, e.objectArg) :: waiting s.table dso k := by
      rw [waiting, entry]
      simp [used, dsoMatches]
    rw [Frame.plan, hplan] at hgoal
    refine .inl ⟨[], .claimed dso k, by simp, rfl, ?_⟩
    rw [Frame.plan, State.setStack_table, State.consume_table, hslot, hbelow]
    exact hgoal
  | unlock d k rest top =>
    obtain ⟨rfl, rfl⟩ := htop top
    cases hwalks
    exact .inl ⟨[], .calling dso k, by simp, rfl, hgoal⟩
  | execute d k rest e top entry =>
    obtain ⟨rfl, rfl⟩ := htop top
    cases hwalks
    refine .inl ⟨[.running e.destructorFunc e.objectArg], .inCallback dso k, by simp, rfl, ?_⟩
    simpa [Frame.plan, slotCall, entry] using hgoal
  | relock d k rest top free =>
    obtain ⟨rfl, rfl⟩ := htop top
    cases hwalks
    exact .inl ⟨[], .walking dso k, by simp, rfl, hgoal⟩

theorem Walking.step (h : Walking t dso below goal s) (hs : Invariant s)
    (halone : Alone t below s) (hstep : Transition s u s') :
    Walking t dso below goal s' ∨ s'.stack t = below ∧ executions s'.history = goal := by
  by_cases hut : u = t
  · subst hut
    obtain ⟨above, own, hstack, hwalks, hgoal⟩ := h
    cases above with
    | nil => exact Walking.own hstep hstack hwalks hgoal
    | cons top above =>
      have hclient : ClientStep s s' u := by
        apply hstep.clientStep
        intro top' rest htop
        rw [hstack, List.cons_append, List.cons.injEq] at htop
        rw [← htop.1]
        exact halone.above hstack top (by simp)
      exact .inl (Walking.client ⟨_, own, hstack, hwalks, hgoal⟩ hs hclient fun h => absurd rfl h)
  · have hclient : ClientStep s s' u := by
      apply hstep.clientStep
      intro top rest htop
      exact halone.1 u hut top (by simp [htop])
    exact .inl (h.client hs hclient fun h => hstep.stack_of_ne (Ne.symm hut))

theorem Invariant.runWhile {P : State Tid → Prop} (h : Invariant s) (hrun : RunWhile P s s') :
    Invariant s' := by
  induction hrun with
  | refl => exact h
  | tail _ hstep ih =>
    obtain ⟨-, u, action, haction⟩ := hstep
    exact ih.transition (transition_of_step haction)

theorem Walking.run (h : Walking t dso below goal s) (hs : Invariant s)
    (hrun : RunWhile (fun s => InCall t below s ∧ Alone t below s) s s') :
    Walking t dso below goal s' ∨ s'.stack t = below ∧ executions s'.history = goal := by
  induction hrun with
  | refl => exact .inl h
  | tail hrun hstep ih =>
    obtain ⟨⟨hcall, halone⟩, u, action, haction⟩ := hstep
    rcases ih with hwalk | ⟨hend, -⟩
    · exact hwalk.step (hs.runWhile hrun) halone (transition_of_step haction)
    · rw [InCall, hend] at hcall
      exact absurd hcall (lt_irrefl _)

theorem start_eq (htop : s.stack t = .finalizing dso :: below)
    (hstart : s.step t .advance = some s') :
    s' = ((s.setLock (some t)).record (.started t dso)).setStack t
      (.walking dso s.table.length :: below) := by
  rw [State.step, htop] at hstart
  simp only [State.advance, Option.ite_none_right_eq_some, Option.some.injEq] at hstart
  exact hstart.2.symm

/-- A call of `__cxa_finalize` for `dso`, from the step that takes the lock to its return,
beside which no other one runs: it executes what was registered for `dso` and not yet
executed when it started, latest first, and nothing else is executed meanwhile. -/
theorem executions_of_finalize {s₀ s₁ s₂ : State Tid} (hs : Invariant s₀)
    (htop : s₀.stack t = .finalizing dso :: below)
    (hstart : s₀.step t .advance = some s₁)
    (hrun : RunWhile (fun s => InCall t below s ∧ Alone t below s) s₁ s₂)
    (hend : s₂.stack t = below) :
    executions s₂.history = executions s₀.history ++ unrun s₀.history dso := by
  have hs₁ : Invariant s₁ := hs.transition (transition_of_step hstart)
  obtain rfl := start_eq htop hstart
  have halone : ∀ u, u ≠ t → ∀ frame ∈ s₀.stack u, frame.isFinalize = false := by
    rcases hrun.cases_head with heq | ⟨_, ⟨⟨-, halone⟩, -⟩, -⟩
    · rw [← heq] at hend
      simp at hend
    · intro u hut frame hframe
      exact halone.1 u hut frame (by simpa [hut] using hframe)
  have hpending : ∀ u, pendingSlot (s₀.stack u) = none := by
    intro u
    by_cases hut : u = t
    · rw [hut, htop, pendingSlot]
      all_goals simp
    · cases hstack : s₀.stack u with
      | nil => rfl
      | cons top rest =>
        exact pendingSlot_of_client (halone u hut top (by simp [hstack])) rest
  have hexecutions : executions (s₀.history ++ [.started t dso]) = executions s₀.history :=
    executions_append_silent (by simp [Event.silent])
  have hwalk : Walking t dso below (executions s₀.history ++ unrun s₀.history dso)
      (((s₀.setLock (some t)).record (.started t dso)).setStack t
        (.walking dso s₀.table.length :: below)) := by
    refine ⟨[], .walking dso s₀.table.length, by simp, rfl, ?_⟩
    simp only [State.setStack_history, State.record_history, State.setLock_history,
      State.setStack_table, State.record_table, State.setLock_table, hexecutions, Frame.plan,
      waiting_eq_unrunBelow hs hpending, unrun, hs.registrations_length]
  rcases hwalk.run hs₁ hrun with ⟨above, own, hstack, -⟩ | ⟨-, hgoal⟩
  · have hlength := congrArg List.length hstack
    rw [hend] at hlength
    simp at hlength
    omega
  · exact hgoal

/-- A slot changes only when a walk for its handle, or for all, marks it as consumed. -/
theorem Transition.slot (h : Transition s t s') {k : ℕ} {e : Entry}
    (hk : s.table[k]? = some e) :
    s'.table[k]? = some e ∨ ∃ dso i rest, s.stack t = .walking dso i :: rest ∧
      matchesDso dso e.dsoHandle = true ∧ s'.table[k]? = some e.consume := by
  have hlt := (List.getElem?_eq_some_iff.mp hk).1
  cases h with
  | register func arg dso rest top free room =>
    left
    simpa [List.getElem?_append_left hlt] using hk
  | claim dso j rest e' top entry used dsoMatches =>
    by_cases hjk : j = k
    · subst hjk
      rw [hk] at entry
      cases entry
      exact .inr ⟨dso, j + 1, rest, top, dsoMatches, by simp [hlt]⟩
    · left
      simpa [List.getElem?_set_ne hjk] using hk
  | _ => exact .inl (by simpa using hk)

/-- One registration, and the finalize call of its handle that executes it. -/
def sampleActions : List (Unit × Action) :=
  [((), .cxaAtexit 10 20 30), ((), .advance), ((), .advance), ((), .cxaFinalize 30),
    ((), .advance), ((), .advance), ((), .advance), ((), .advance), ((), .ret),
    ((), .advance), ((), .advance)]

end Calls

end Solcompat.Cxa
