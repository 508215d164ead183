import Solcompat.Cxa.Model

/-!
# The transitions of the registry

Every step of a thread is one of thirteen transitions, read off the step function once.
-/

namespace Solcompat.Cxa

/-- The transitions of a thread, one for each way a step can go. -/
inductive Transition {Tid : Type} [DecidableEq Tid] (s : State Tid) (t : Tid) :
    State Tid → Prop
  | callAtexit (func arg dso : ℕ) (client : State.inClient (s.stack t) = true) :
      Transition s t (s.setStack t (.registering func arg dso :: s.stack t))
  | callFinalize (dso : ℕ) (client : State.inClient (s.stack t) = true) :
      Transition s t (s.setStack t (.finalizing dso :: s.stack t))
  | ret (func arg : ℕ) (rest : List Frame) (top : s.stack t = .running func arg :: rest) :
      Transition s t (s.setStack t rest)
  | register (func arg dso : ℕ) (rest : List Frame)
      (top : s.stack t = .registering func arg dso :: rest)
      (free : s.cxaAtexitLock = none) (room : s.table.length < cxaAtexitMax) :
      Transition s t (((((s.setLock (some t)).hookCleanup t).append
        ⟨func, arg, dso, true⟩).record (.registered t func arg dso)).setStack t
          (.registered 0 :: rest))
  | full (func arg dso : ℕ) (rest : List Frame)
      (top : s.stack t = .registering func arg dso :: rest)
      (free : s.cxaAtexitLock = none) (full : ¬ s.table.length < cxaAtexitMax) :
      Transition s t (((s.setLock (some t)).hookCleanup t).setStack t (.registered (-1) :: rest))
  | leaveAtexit (result : ℤ) (rest : List Frame) (top : s.stack t = .registered result :: rest) :
      Transition s t ((s.setLock none).setStack t rest)
  | start (dso : ℕ) (rest : List Frame) (top : s.stack t = .finalizing dso :: rest)
      (free : s.cxaAtexitLock = none) :
      Transition s t (((s.setLock (some t)).record (.started t dso)).setStack t
        (.walking dso s.table.length :: rest))
  | leaveFinalize (dso : ℕ) (rest : List Frame) (top : s.stack t = .walking dso 0 :: rest) :
      Transition s t ((s.setLock none).setStack t rest)
  | skip (dso k : ℕ) (rest : List Frame) (e : Entry)
      (top : s.stack t = .walking dso (k + 1) :: rest) (entry : s.table[k]? = some e)
      (skipped : (e.inUse && matchesDso dso e.dsoHandle) = false) :
      Transition s t (s.setStack t (.walking dso k :: rest))
  | claim (dso k : ℕ) (rest : List Frame) (e : Entry)
      (top : s.stack t = .walking dso (k + 1) :: rest) (entry : s.table[k]? = some e)
      (used : e.inUse = true) (dsoMatches : matchesDso dso e.dsoHandle = true) :
      Transition s t ((s.consume k e).setStack t (.claimed dso k :: rest))
  | unlock (dso k : ℕ) (rest : List Frame) (top : s.stack t = .claimed dso k :: rest) :
      Transition s t ((s.setLock none).setStack t (.calling dso k :: rest))
  | execute (dso k : ℕ) (rest : List Frame) (e : Entry)
      (top : s.stack t = .calling dso k :: rest) (entry : s.table[k]? = some e) :
      Transition s t ((s.record (.executed t dso k e.destructorFunc e.objectArg)).setStack t
        (.running e.destructorFunc e.objectArg :: .inCallback dso k :: rest))
  | relock (dso k : ℕ) (rest : List Frame) (top : s.stack t = .inCallback dso k :: rest)
      (free : s.cxaAtexitLock = none) :
      Transition s t ((s.setLock (some t)).setStack t (.walking dso k :: rest))

section Transitions

variable {Tid : Type} [DecidableEq Tid] {s s' : State Tid} {t : Tid}

theorem transition_of_advance (h : s.advance t (s.stack t) = some s') : Transition s t s' := by
  cases hstack : s.stack t with
  | nil =>
    rw [hstack] at h
    exact absurd h (by simp [State.advance])
  | cons frame rest =>
    rw [hstack] at h
    cases frame with
    | registering func arg dso =>
      simp only [State.advance, Option.isNone_iff_eq_none, Option.ite_none_right_eq_some,
        Option.some.injEq] at h
      obtain ⟨hfree, rfl⟩ := h
      by_cases hroom : s.table.length < cxaAtexitMax
      · have hroom' : ((s.setLock (some t)).hookCleanup t).table.length < cxaAtexitMax := by
          simpa using hroom
        rw [State.register, if_pos hroom']
        exact .register func arg dso rest hstack hfree hroom
      · have hroom' : ¬ ((s.setLock (some t)).hookCleanup t).table.length < cxaAtexitMax := by
          simpa using hroom
        rw [State.register, if_neg hroom']
        exact .full func arg dso rest hstack hfree hroom
    | registered result =>
      cases h
      exact .leaveAtexit result rest hstack
    | finalizing dso =>
      simp only [State.advance, Option.isNone_iff_eq_none, Option.ite_none_right_eq_some,
        Option.some.injEq] at h
      obtain ⟨hfree, rfl⟩ := h
      exact .start dso rest hstack hfree
    | walking dso i =>
      cases i with
      | zero =>
        cases h
        exact .leaveFinalize dso rest hstack
      | succ k =>
        simp only [State.advance, Option.bind_eq_bind, Option.bind_eq_some_iff,
          Option.some.injEq] at h
        obtain ⟨e, hentry, rfl⟩ := h
        cases hvisit : e.inUse && matchesDso dso e.dsoHandle with
        | true =>
          rw [State.visit, if_pos hvisit]
          rw [Bool.and_eq_true] at hvisit
          exact .claim dso k rest e hstack hentry hvisit.1 hvisit.2
        | false =>
          rw [State.visit, if_neg (by simp [hvisit])]
          exact .skip dso k rest e hstack hentry hvisit
    | claimed dso k =>
      cases h
      exact .unlock dso k rest hstack
    | calling dso k =>
      simp only [State.advance, Option.bind_eq_bind, Option.bind_eq_some_iff,
        Option.some.injEq] at h
      obtain ⟨e, hentry, rfl⟩ := h
      exact .execute dso k rest e hstack hentry
    | inCallback dso k =>
      simp only [State.advance, Option.isNone_iff_eq_none, Option.ite_none_right_eq_some,
        Option.some.injEq] at h
      obtain ⟨hfree, rfl⟩ := h
      exact .relock dso k rest hstack hfree
    | running func arg => exact absurd h (by simp [State.advance])

theorem transition_of_step {action : Action} (h : s.step t action = some s') :
    Transition s t s' := by
  cases action with
  | cxaAtexit func arg dso =>
    simp only [State.step, Option.ite_none_right_eq_some, Option.some.injEq] at h
    obtain ⟨hclient, rfl⟩ := h
    exact .callAtexit func arg dso hclient
  | cxaFinalize dso =>
    simp only [State.step, Option.ite_none_right_eq_some, Option.some.injEq] at h
    obtain ⟨hclient, rfl⟩ := h
    exact .callFinalize dso hclient
  | ret =>
    simp only [State.step] at h
    split at h
    · next func arg rest hstack =>
      cases h
      exact .ret func arg rest hstack
    · cases h
  | advance => exact transition_of_advance h

theorem Transition.stack_of_ne (h : Transition s t s') {u : Tid} (hut : u ≠ t) :
    s'.stack u = s.stack u := by
  cases h <;> simp [hut]

theorem preserved_of_run {P : State Tid → Prop}
    (hP : ∀ s t s', Transition s t s' → P s → P s') {actions : List (Tid × Action)} (h : P s)
    (hrun : s.run actions = some s') : P s' := by
  induction actions generalizing s with
  | nil =>
    cases hrun
    exact h
  | cons a actions ih =>
    rw [State.run, List.foldlM_cons, Option.bind_eq_bind, Option.bind_eq_some_iff] at hrun
    obtain ⟨s₁, hstep, hrest⟩ := hrun
    exact ih (hP _ _ _ (transition_of_step hstep) h) hrest

end Transitions

/-- The slot that a walk has consumed and whose destructor it calls next. -/
def pendingSlot : List Frame → Option (ℕ × ℕ)
  | .claimed dso k :: _ => some (dso, k)
  | .calling dso k :: _ => some (dso, k)
  | _ => none

namespace Frame

/-- The frames that other frames can stand on. -/
def suspended : Frame → Bool
  | running _ _ => true
  | inCallback _ _ => true
  | _ => false

/-- The number of slots a frame of `__cxa_finalize` knows of. -/
def reach : Frame → ℕ
  | walking _ i => i
  | claimed _ k => k + 1
  | calling _ k => k + 1
  | inCallback _ k => k + 1
  | _ => 0

end Frame

/-- The events that neither register nor execute. -/
def Event.silent {Tid : Type} : Event Tid → Bool
  | .hooked _ => true
  | .started _ _ => true
  | _ => false

section Histories

variable {Tid : Type} {history : List (Event Tid)}

theorem registrations_append_of_ne {extra : List (Event Tid)}
    (h : ∀ e ∈ extra, ∀ t func arg dso, e ≠ .registered t func arg dso) :
    registrations (history ++ extra) = registrations history := by
  have hnone : registrations extra = [] := by
    apply List.filterMap_eq_nil_iff.mpr
    intro e he
    have hne := h e he
    cases e with
    | registered t func arg dso => exact absurd rfl (hne t func arg dso)
    | _ => rfl
  rw [registrations, List.filterMap_append, ← registrations, ← registrations, hnone,
    List.append_nil]

theorem executions_append_of_ne {extra : List (Event Tid)}
    (h : ∀ e ∈ extra, ∀ t dso k func arg, e ≠ .executed t dso k func arg) :
    executions (history ++ extra) = executions history := by
  have hnone : executions extra = [] := by
    apply List.filterMap_eq_nil_iff.mpr
    intro e he
    have hne := h e he
    cases e with
    | executed t dso k func arg => exact absurd rfl (hne t dso k func arg)
    | _ => rfl
  rw [executions, List.filterMap_append, ← executions, ← executions, hnone, List.append_nil]

theorem registrations_append_silent {extra : List (Event Tid)}
    (h : ∀ e ∈ extra, e.silent = true) :
    registrations (history ++ extra) = registrations history := by
  apply registrations_append_of_ne
  rintro e he t func arg dso rfl
  exact absurd (h _ he) (by simp [Event.silent])

theorem executions_append_silent {extra : List (Event Tid)}
    (h : ∀ e ∈ extra, e.silent = true) :
    executions (history ++ extra) = executions history := by
  apply executions_append_of_ne
  rintro e he t dso k func arg rfl
  exact absurd (h _ he) (by simp [Event.silent])

@[simp]
theorem registrations_registered (t : Tid) (func arg dso : ℕ) :
    registrations (history ++ [.registered t func arg dso]) =
      registrations history ++ [(func, arg, dso)] := by
  simp [registrations]

@[simp]
theorem executions_registered (t : Tid) (func arg dso : ℕ) :
    executions (history ++ [.registered t func arg dso]) = executions history := by
  simp [executions]

@[simp]
theorem registrations_executed (t : Tid) (dso k func arg : ℕ) :
    registrations (history ++ [.executed t dso k func arg]) = registrations history := by
  simp [registrations]

@[simp]
theorem executions_executed (t : Tid) (dso k func arg : ℕ) :
    executions (history ++ [.executed t dso k func arg]) =
      executions history ++ [(k, func, arg)] := by
  simp [executions]

theorem exists_of_mem_executedSlots {k : ℕ} (h : k ∈ executedSlots history) :
    ∃ t dso func arg, .executed t dso k func arg ∈ history := by
  obtain ⟨x, hx, rfl⟩ := List.mem_map.mp h
  obtain ⟨event, hevent, heq⟩ := List.mem_filterMap.mp hx
  cases event with
  | executed t dso k func arg =>
    cases heq
    exact ⟨t, dso, func, arg, hevent⟩
  | hooked t => cases heq
  | registered t func arg dso => cases heq
  | started t dso => cases heq

theorem hookCleanup_history (s : State Tid) (t : Tid) :
    ∃ extra, (s.hookCleanup t).history = s.history ++ extra ∧
      ∀ e ∈ extra, e = .hooked t := by
  unfold State.hookCleanup
  split
  · exact ⟨[], by simp, by simp⟩
  · exact ⟨[.hooked t], rfl, by simp⟩

end Histories

end Solcompat.Cxa
