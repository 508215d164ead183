import Solcompat.Cxa.Transition

/-!
# What holds in every state of the registry

A slot keeps what was registered in it and is consumed once. Between the moment a walk
consumes a slot and the call of its destructor the slot is pending in exactly one thread,
on the top of its stack.
-/

namespace Solcompat.Cxa

section Invariants

variable {Tid : Type}

def Entry.triple (e : Entry) : ℕ × ℕ × ℕ := (e.destructorFunc, e.objectArg, e.dsoHandle)

structure Invariant (s : State Tid) : Prop where
  registered : s.table.map Entry.triple = registrations s.history
  suspended : ∀ t, ∀ frame ∈ (s.stack t).tail, frame.suspended = true
  reach : ∀ t, ∀ frame ∈ s.stack t, frame.reach ≤ s.table.length
  pending : ∀ t dso k, pendingSlot (s.stack t) = some (dso, k) →
    k ∉ executedSlots s.history ∧
      ∃ e, s.table[k]? = some e ∧ e.inUse = false ∧ matchesDso dso e.dsoHandle = true
  pendingOnce : ∀ t t' dso dso' k, pendingSlot (s.stack t) = some (dso, k) →
    pendingSlot (s.stack t') = some (dso', k) → t = t'
  unused : ∀ k e, s.table[k]? = some e → e.inUse = false →
    k ∈ executedSlots s.history ∨ ∃ t dso, pendingSlot (s.stack t) = some (dso, k)
  used : ∀ k e, s.table[k]? = some e → e.inUse = true → k ∉ executedSlots s.history
  once : (executedSlots s.history).Nodup
  own : ∀ t dso k func arg, .executed t dso k func arg ∈ s.history →
    ∃ e, s.table[k]? = some e ∧ e.destructorFunc = func ∧ e.objectArg = arg ∧
      matchesDso dso e.dsoHandle = true

theorem invariant_initial : Invariant (State.initial : State Tid) where
  registered := rfl
  suspended := by simp [State.initial]
  reach := by simp [State.initial]
  pending := by simp [State.initial, pendingSlot]
  pendingOnce := by simp [State.initial, pendingSlot]
  unused := by simp [State.initial]
  used := by simp [State.initial]
  once := by simp [State.initial, executedSlots, executions]
  own := by simp [State.initial]

variable {s s' : State Tid} {t : Tid}

theorem Invariant.registrations_get (h : Invariant s) {k : ℕ} {e : Entry}
    (he : s.table[k]? = some e) : (registrations s.history)[k]? = some e.triple := by
  rw [← h.registered, List.getElem?_map, he]
  rfl

theorem Invariant.registrations_length (h : Invariant s) :
    (registrations s.history).length = s.table.length := by
  rw [← h.registered, List.length_map]

theorem Invariant.entry_of_lt (h : Invariant s) {k : ℕ}
    (hk : k < (registrations s.history).length) : ∃ e, s.table[k]? = some e := by
  rw [h.registrations_length] at hk
  exact ⟨s.table[k], List.getElem?_eq_getElem hk⟩

/-- What the stacks must satisfy after a step that leaves the pending slots alone. -/
structure StackStep (s s' : State Tid) (t : Tid) : Prop where
  others : ∀ u, u ≠ t → s'.stack u = s.stack u
  suspended : ∀ frame ∈ (s'.stack t).tail, frame.suspended = true
  reach : ∀ frame ∈ s'.stack t, frame.reach ≤ s'.table.length
  pending : pendingSlot (s'.stack t) = pendingSlot (s.stack t)

theorem StackStep.pendingSlot_eq (h : StackStep s s' t) (u : Tid) :
    pendingSlot (s'.stack u) = pendingSlot (s.stack u) := by
  by_cases hut : u = t
  · rw [hut, h.pending]
  · rw [h.others u hut]

theorem StackStep.suspended_all (h : StackStep s s' t) (hs : Invariant s) (u : Tid) :
    ∀ frame ∈ (s'.stack u).tail, frame.suspended = true := by
  by_cases hut : u = t
  · rw [hut]
    exact h.suspended
  · rw [h.others u hut]
    exact hs.suspended u

theorem StackStep.reach_all (h : StackStep s s' t) (hs : Invariant s)
    (hlength : s.table.length ≤ s'.table.length) (u : Tid) :
    ∀ frame ∈ s'.stack u, frame.reach ≤ s'.table.length := by
  by_cases hut : u = t
  · rw [hut]
    exact h.reach
  · rw [h.others u hut]
    exact fun frame hframe => (hs.reach u frame hframe).trans hlength

theorem Invariant.lt_of_executed (h : Invariant s) {k : ℕ}
    (hk : k ∈ executedSlots s.history) : k < s.table.length := by
  obtain ⟨u, dso, func, arg, hmem⟩ := exists_of_mem_executedSlots hk
  obtain ⟨e, he, -⟩ := h.own u dso k func arg hmem
  exact (List.getElem?_eq_some_iff.mp he).1

theorem Invariant.move (h : Invariant s) (hstack : StackStep s s' t)
    (htable : s'.table = s.table) (extra : List (Event Tid))
    (hhistory : s'.history = s.history ++ extra) (hsilent : ∀ e ∈ extra, e.silent = true) :
    Invariant s' := by
  have hexecuted : executedSlots s'.history = executedSlots s.history := by
    rw [executedSlots, hhistory, executions_append_silent hsilent, executedSlots]
  constructor
  · rw [htable, hhistory, registrations_append_silent hsilent]
    exact h.registered
  · exact hstack.suspended_all h
  · exact hstack.reach_all h (by rw [htable])
  · intro u dso k hu
    rw [hstack.pendingSlot_eq] at hu
    rw [htable, hexecuted]
    exact h.pending u dso k hu
  · intro u u' dso dso' k hu hu'
    rw [hstack.pendingSlot_eq] at hu hu'
    exact h.pendingOnce u u' dso dso' k hu hu'
  · intro k e hk he
    rw [htable] at hk
    simp only [hexecuted, hstack.pendingSlot_eq]
    exact h.unused k e hk he
  · intro k e hk he
    rw [htable] at hk
    rw [hexecuted]
    exact h.used k e hk he
  · rw [hexecuted]
    exact h.once
  · intro u dso k func arg hmem
    rw [hhistory, List.mem_append] at hmem
    rw [htable]
    rcases hmem with hmem | hmem
    · exact h.own u dso k func arg hmem
    · exact absurd (hsilent _ hmem) (by simp [Event.silent])

theorem Invariant.append (h : Invariant s) (hstack : StackStep s s' t) {e : Entry}
    (htable : s'.table = s.table ++ [e]) (hused : e.inUse = true)
    {extra : List (Event Tid)} (hsilent : ∀ e ∈ extra, e.silent = true)
    (hhistory : s'.history =
      (s.history ++ extra) ++ [.registered t e.destructorFunc e.objectArg e.dsoHandle]) :
    Invariant s' := by
  have hexecuted : executedSlots s'.history = executedSlots s.history := by
    rw [executedSlots, hhistory, executions_registered, executions_append_silent hsilent,
      executedSlots]
  have hold : ∀ (k : ℕ) (e' : Entry), s.table[k]? = some e' → s'.table[k]? = some e' := by
    intro k e' hk
    rw [htable, List.getElem?_append_left (List.getElem?_eq_some_iff.mp hk).1, hk]
  have hnew : ∀ (k : ℕ) (e' : Entry), s'.table[k]? = some e' →
      s.table[k]? = some e' ∨ k = s.table.length ∧ e' = e := by
    intro k e' hk
    rw [htable, List.getElem?_append] at hk
    split at hk
    · exact .inl hk
    · have hzero : k - s.table.length = 0 := by
        by_contra hne
        rw [List.getElem?_eq_none (by simp; omega)] at hk
        cases hk
      rw [hzero] at hk
      simp only [List.getElem?_cons_zero, Option.some.injEq] at hk
      exact .inr ⟨by omega, hk.symm⟩
  constructor
  · rw [htable, hhistory, registrations_registered, registrations_append_silent hsilent,
      List.map_append, h.registered]
    rfl
  · exact hstack.suspended_all h
  · exact hstack.reach_all h (by simp [htable])
  · intro u dso k hu
    rw [hstack.pendingSlot_eq] at hu
    obtain ⟨hnot, e', he', hrest⟩ := h.pending u dso k hu
    rw [hexecuted]
    exact ⟨hnot, e', hold k e' he', hrest⟩
  · intro u u' dso dso' k hu hu'
    rw [hstack.pendingSlot_eq] at hu hu'
    exact h.pendingOnce u u' dso dso' k hu hu'
  · intro k e' hk he'
    simp only [hexecuted, hstack.pendingSlot_eq]
    rcases hnew k e' hk with hk | ⟨-, rfl⟩
    · exact h.unused k e' hk he'
    · rw [hused] at he'
      cases he'
  · intro k e' hk he' hmem
    rw [hexecuted] at hmem
    rcases hnew k e' hk with hk | ⟨rfl, -⟩
    · exact h.used k e' hk he' hmem
    · exact absurd (h.lt_of_executed hmem) (lt_irrefl _)
  · rw [hexecuted]
    exact h.once
  · intro u dso k func arg hmem
    rw [hhistory, List.append_assoc, List.mem_append] at hmem
    rcases hmem with hmem | hmem
    · obtain ⟨e', he', hrest⟩ := h.own u dso k func arg hmem
      exact ⟨e', hold k e' he', hrest⟩
    · rcases List.mem_append.mp hmem with hmem | hmem
      · exact absurd (hsilent _ hmem) (by simp [Event.silent])
      · simp at hmem

theorem pendingSlot_of_suspended {frame : Frame} (h : frame.suspended = true)
    (rest : List Frame) : pendingSlot (frame :: rest) = none := by
  cases frame <;> simp_all [Frame.suspended, pendingSlot]

theorem Invariant.pendingSlot_below (h : Invariant s) {frame : Frame} {rest : List Frame}
    (htop : s.stack t = frame :: rest) : pendingSlot rest = none := by
  cases rest with
  | nil => rfl
  | cons next rest =>
    apply pendingSlot_of_suspended
    apply h.suspended t
    simp [htop]

theorem pendingSlot_of_inClient {frames : List Frame} (h : State.inClient frames = true) :
    pendingSlot frames = none := by
  cases frames with
  | nil => rfl
  | cons frame rest => cases frame <;> simp_all [State.inClient, pendingSlot]

theorem Invariant.suspended_of_inClient (h : Invariant s)
    (hclient : State.inClient (s.stack t) = true) :
    ∀ frame ∈ s.stack t, frame.suspended = true := by
  intro frame hframe
  cases hstack : s.stack t with
  | nil => simp [hstack] at hframe
  | cons top rest =>
    rw [hstack] at hframe hclient
    rcases List.mem_cons.mp hframe with rfl | hmem
    · cases frame <;> simp_all [State.inClient, Frame.suspended]
    · exact h.suspended t frame (by simp [hstack, hmem])

theorem Invariant.below (h : Invariant s) {top : Frame} {rest : List Frame}
    (htop : s.stack t = top :: rest) :
    ∀ frame ∈ rest, frame ∈ s.stack t ∧ frame.suspended = true := by
  intro frame hframe
  exact ⟨by simp [htop, hframe], h.suspended t frame (by simp [htop, hframe])⟩

theorem Invariant.reach_top (h : Invariant s) {top : Frame} {rest : List Frame}
    (htop : s.stack t = top :: rest) : top.reach ≤ s.table.length :=
  h.reach t top (by simp [htop])

theorem State.consume_getElem? {k : ℕ} {e : Entry} (hentry : s.table[k]? = some e) (j : ℕ) :
    (s.consume k e).table[j]? = if j = k then some e.consume else s.table[j]? := by
  have hk := (List.getElem?_eq_some_iff.mp hentry).1
  rw [State.consume_table]
  by_cases hj : j = k
  · subst hj
    simp [hk]
  · simp [hj, List.getElem?_set_ne (Ne.symm hj)]

theorem State.consume_triples {k : ℕ} {e : Entry} (hentry : s.table[k]? = some e) :
    (s.consume k e).table.map Entry.triple = s.table.map Entry.triple := by
  apply List.ext_getElem?
  intro j
  rw [List.getElem?_map, List.getElem?_map, State.consume_getElem? hentry]
  split_ifs with hj
  · rw [hj, hentry]
    rfl
  · rfl

theorem Invariant.pendingSlot_ne_of_used (h : Invariant s) {k : ℕ} {e : Entry}
    (hentry : s.table[k]? = some e) (hused : e.inUse = true) (u : Tid) (dso : ℕ) :
    pendingSlot (s.stack u) ≠ some (dso, k) := by
  intro hu
  obtain ⟨-, e', he', hoff, -⟩ := h.pending u dso k hu
  rw [hentry] at he'
  cases he'
  rw [hused] at hoff
  cases hoff

variable [DecidableEq Tid]

/-- What holds of every stack holds with a new stack for one thread, if it holds of that. -/
theorem State.forall_setStack (P : List Frame → Prop) {frames : List Frame}
    (h : ∀ u, P (s.stack u)) (hnew : P frames) : ∀ u, P ((s.setStack t frames).stack u) := by
  intro u
  by_cases hut : u = t
  · subst hut
    rwa [State.setStack_stack, Function.update_self]
  · rw [State.setStack_stack, Function.update_of_ne hut]
    exact h u

theorem Invariant.claim (h : Invariant s) {dso k : ℕ} {rest : List Frame} {e : Entry}
    (htop : s.stack t = .walking dso (k + 1) :: rest) (hentry : s.table[k]? = some e)
    (hused : e.inUse = true) (hmatch : matchesDso dso e.dsoHandle = true) :
    Invariant ((s.consume k e).setStack t (.claimed dso k :: rest)) := by
  have hget := State.consume_getElem? hentry
  have hpend : ∀ u dso' j, pendingSlot ((s.setStack t (.claimed dso k :: rest)).stack u) =
      some (dso', j) → u = t ∧ dso' = dso ∧ j = k ∨
        u ≠ t ∧ pendingSlot (s.stack u) = some (dso', j) := by
    intro u dso' j hu
    by_cases hut : u = t
    · subst hut
      simp only [State.setStack_stack, Function.update_self, pendingSlot, Option.some.injEq,
        Prod.mk.injEq] at hu
      exact .inl ⟨rfl, hu.1.symm, hu.2.symm⟩
    · rw [State.setStack_stack, Function.update_of_ne hut] at hu
      exact .inr ⟨hut, hu⟩
  have hfree := h.pendingSlot_ne_of_used hentry hused
  have hsuspended := h.suspended t
  have hreach := h.reach t
  rw [htop] at hsuspended hreach
  constructor
  · rw [State.setStack_table, State.consume_triples hentry]
    exact h.registered
  · apply State.forall_setStack fun frames => ∀ frame ∈ frames.tail, frame.suspended = true
    · exact h.suspended
    · simpa using hsuspended
  · rw [State.setStack_table, State.consume_table, List.length_set]
    apply State.forall_setStack fun frames => ∀ frame ∈ frames, frame.reach ≤ s.table.length
    · exact h.reach
    · simpa [Frame.reach] using hreach
  · intro u dso' j hu
    simp only [State.setStack_table, State.setStack_history, State.consume_history, hget]
    rcases hpend u dso' j hu with ⟨rfl, rfl, rfl⟩ | ⟨-, hu'⟩
    · exact ⟨h.used j e hentry hused, e.consume, if_pos rfl, rfl, hmatch⟩
    · obtain ⟨hnot, e', he', hrest⟩ := h.pending u dso' j hu'
      have hj : j ≠ k := by
        rintro rfl
        exact hfree u dso' hu'
      exact ⟨hnot, e', by rw [if_neg hj, he'], hrest⟩
  · intro u u' dso₁ dso₂ j hu hu'
    rcases hpend u dso₁ j hu with ⟨rfl, -, hj⟩ | ⟨-, hold⟩ <;>
      rcases hpend u' dso₂ j hu' with ⟨rfl, -, hj'⟩ | ⟨-, hold'⟩
    · rfl
    · exact absurd (hj ▸ hold') (hfree u' dso₂)
    · exact absurd (hj' ▸ hold) (hfree u dso₁)
    · exact h.pendingOnce u u' dso₁ dso₂ j hold hold'
  · intro j e' hj hoff
    simp only [State.setStack_table, hget] at hj
    by_cases hjk : j = k
    · exact .inr ⟨t, dso, by simp [pendingSlot, hjk]⟩
    · rw [if_neg hjk] at hj
      rcases h.unused j e' hj hoff with hexec | ⟨u, dso', hu⟩
      · exact .inl hexec
      · refine .inr ⟨u, dso', ?_⟩
        have hut : u ≠ t := by
          rintro rfl
          rw [htop] at hu
          cases hu
        simpa [hut] using hu
  · intro j e' hj hon
    simp only [State.setStack_table, hget] at hj
    by_cases hjk : j = k
    · rw [if_pos hjk, Option.some.injEq] at hj
      rw [← hj] at hon
      cases hon
    · rw [if_neg hjk] at hj
      exact h.used j e' hj hon
  · exact h.once
  · intro u dso' j func arg hmem
    obtain ⟨e', he', hfunc, harg, hdso⟩ := h.own u dso' j func arg hmem
    simp only [State.setStack_table, hget]
    by_cases hjk : j = k
    · subst hjk
      rw [hentry] at he'
      cases he'
      exact ⟨e.consume, if_pos rfl, hfunc, harg, hdso⟩
    · exact ⟨e', by rw [if_neg hjk, he'], hfunc, harg, hdso⟩

/-- The pending destructor is called: its slot was never executed before. -/
theorem Invariant.execute (h : Invariant s) {dso k : ℕ} {rest : List Frame} {e : Entry}
    (htop : s.stack t = .calling dso k :: rest) (hentry : s.table[k]? = some e) :
    Invariant ((s.record (.executed t dso k e.destructorFunc e.objectArg)).setStack t
      (.running e.destructorFunc e.objectArg :: .inCallback dso k :: rest)) := by
  have hpending : pendingSlot (s.stack t) = some (dso, k) := by rw [htop, pendingSlot]
  obtain ⟨hnot, e', he', hoff, hmatch⟩ := h.pending t dso k hpending
  rw [hentry] at he'
  cases he'
  have hslots : executedSlots (s.history ++ [.executed t dso k e.destructorFunc e.objectArg]) =
      executedSlots s.history ++ [k] := by
    rw [executedSlots, executions_executed, List.map_append, executedSlots]
    rfl
  have hpend : ∀ u dso' j, pendingSlot ((s.setStack t (.running e.destructorFunc e.objectArg ::
      .inCallback dso k :: rest)).stack u) = some (dso', j) →
        u ≠ t ∧ pendingSlot (s.stack u) = some (dso', j) := by
    intro u dso' j hu
    by_cases hut : u = t
    · subst hut
      simp [pendingSlot] at hu
    · rw [State.setStack_stack, Function.update_of_ne hut] at hu
      exact ⟨hut, hu⟩
  have hsuspended := h.suspended t
  have hreach := h.reach t
  rw [htop] at hsuspended hreach
  constructor
  · simpa using h.registered
  · apply State.forall_setStack fun frames => ∀ frame ∈ frames.tail, frame.suspended = true
    · exact h.suspended
    · simpa [Frame.suspended] using hsuspended
  · apply State.forall_setStack fun frames => ∀ frame ∈ frames, frame.reach ≤ s.table.length
    · exact h.reach
    · simpa [Frame.reach] using hreach
  · intro u dso' j hu
    obtain ⟨hut, hu'⟩ := hpend u dso' j hu
    obtain ⟨hnot', hrest⟩ := h.pending u dso' j hu'
    have hj : j ≠ k := by
      rintro rfl
      exact hut (h.pendingOnce u t dso' dso j hu' hpending)
    refine ⟨?_, hrest⟩
    simpa [hslots, hj] using hnot'
  · intro u u' dso₁ dso₂ j hu hu'
    exact h.pendingOnce u u' dso₁ dso₂ j (hpend u dso₁ j hu).2 (hpend u' dso₂ j hu').2
  · intro j e' hj hoff'
    simp only [State.setStack_history, State.record_history, hslots, List.mem_append,
      List.mem_singleton]
    rcases h.unused j e' hj hoff' with hexec | ⟨u, dso', hu⟩
    · exact .inl (.inl hexec)
    · by_cases hut : u = t
      · subst hut
        rw [hpending, Option.some.injEq, Prod.mk.injEq] at hu
        exact .inl (.inr hu.2.symm)
      · exact .inr ⟨u, dso', by simpa [hut] using hu⟩
  · intro j e' hj hon
    have hjk : j ≠ k := by
      rintro rfl
      simp only [State.setStack_table, State.record_table, hentry, Option.some.injEq] at hj
      rw [← hj, hoff] at hon
      cases hon
    simpa [hslots, hjk] using h.used j e' hj hon
  · have hnodup : (executedSlots s.history ++ [k]).Nodup := by
      rw [← List.concat_eq_append]
      exact h.once.concat hnot
    simpa [hslots] using hnodup
  · intro u dso' j func arg hmem
    rw [State.setStack_history, State.record_history, List.mem_append,
      List.mem_singleton] at hmem
    rcases hmem with hmem | hmem
    · exact h.own u dso' j func arg hmem
    · cases hmem
      exact ⟨e, hentry, rfl, rfl, hmatch⟩

/-- The new stack of the moving thread, when no slot is pending in it before or after. -/
theorem Invariant.stackStep (h : Invariant s) {locked : State Tid} {frames : List Frame}
    (hlocked : locked.stack = s.stack) (hlength : s.table.length ≤ locked.table.length)
    (hold : pendingSlot (s.stack t) = pendingSlot frames)
    (htail : ∀ frame ∈ frames.tail, frame ∈ s.stack t ∧ frame.suspended = true)
    (hhead : ∀ frame ∈ frames.head?, frame.reach ≤ locked.table.length) :
    StackStep s (locked.setStack t frames) t where
  others := fun u hut => by simp [hlocked, hut]
  suspended := by
    intro frame hframe
    simp only [State.setStack_stack, Function.update_self] at hframe
    exact (htail frame hframe).2
  reach := by
    intro frame hframe
    simp only [State.setStack_stack, Function.update_self] at hframe
    cases frames with
    | nil => simp at hframe
    | cons first others =>
      rcases List.mem_cons.mp hframe with rfl | hmem
      · exact hhead frame (by simp)
      · exact (h.reach t frame (htail frame hmem).1).trans hlength
  pending := by simp [hold]

theorem Invariant.leave (h : Invariant s) {locked : State Tid} {top : Frame}
    {rest : List Frame} (htop : s.stack t = top :: rest) (hnone : pendingSlot [top] = none)
    (hlocked : locked.stack = s.stack) (htable : locked.table = s.table)
    (hhistory : locked.history = s.history) : Invariant (locked.setStack t rest) := by
  have hpend : pendingSlot (s.stack t) = pendingSlot rest := by
    rw [h.pendingSlot_below htop, htop]
    cases top <;> simp_all [pendingSlot]
  refine h.move (h.stackStep hlocked (by rw [htable]) hpend ?_ ?_) (by simp [htable]) []
    (by simp [hhistory]) (by simp)
  · intro frame hframe
    exact h.below htop frame (List.mem_of_mem_tail hframe)
  · intro frame hframe
    rw [htable]
    exact h.reach t frame (by simp [htop, List.mem_of_mem_head? hframe])

theorem Invariant.proceed (h : Invariant s) {locked : State Tid} {top next : Frame}
    {rest : List Frame} (htop : s.stack t = top :: rest) (hlocked : locked.stack = s.stack)
    (htable : locked.table = s.table) (extra : List (Event Tid))
    (hhistory : locked.history = s.history ++ extra) (hsilent : ∀ e ∈ extra, e.silent = true)
    (hpend : pendingSlot (top :: rest) = pendingSlot (next :: rest))
    (hreach : next.reach ≤ s.table.length) :
    Invariant (locked.setStack t (next :: rest)) := by
  refine h.move (h.stackStep hlocked (by rw [htable]) ?_ (h.below htop) ?_) (by simp [htable])
    extra (by simp [hhistory]) hsilent
  · rw [htop, hpend]
  · intro frame hframe
    cases hframe
    rwa [htable]

theorem Invariant.call (h : Invariant s) {frame : Frame}
    (hclient : State.inClient (s.stack t) = true)
    (hnone : pendingSlot (frame :: s.stack t) = none) (hreach : frame.reach = 0) :
    Invariant (s.setStack t (frame :: s.stack t)) := by
  refine h.move (h.stackStep rfl le_rfl ?_ ?_ ?_) rfl [] (by simp) (by simp)
  · rw [hnone, pendingSlot_of_inClient hclient]
  · exact fun frame hframe => ⟨hframe, h.suspended_of_inClient hclient frame hframe⟩
  · intro frame hframe
    cases hframe
    omega

theorem Invariant.transition (h : Invariant s) (hstep : Transition s t s') :
    Invariant s' := by
  cases hstep with
  | callAtexit func arg dso client => exact h.call client rfl rfl
  | callFinalize dso client => exact h.call client rfl rfl
  | ret func arg rest top => exact h.leave top rfl rfl rfl rfl
  | register func arg dso rest top free room =>
    obtain ⟨extra, hextra, hhooked⟩ := hookCleanup_history (s.setLock (some t)) t
    have hsilent : ∀ e ∈ extra, e.silent = true := by
      intro e he
      rw [hhooked e he, Event.silent]
    refine h.append (e := ⟨func, arg, dso, true⟩)
      (h.stackStep (by simp) (by simp) ?_ (h.below top) ?_) (by simp) rfl hsilent ?_
    · rw [top]
      rfl
    · intro frame hframe
      cases hframe
      simp [Frame.reach]
    · simp [hextra]
  | full func arg dso rest top free full =>
    obtain ⟨extra, hextra, hhooked⟩ := hookCleanup_history (s.setLock (some t)) t
    have hsilent : ∀ e ∈ extra, e.silent = true := by
      intro e he
      rw [hhooked e he, Event.silent]
    exact h.proceed top (by simp) (by simp) extra (by simp [hextra]) hsilent rfl
      (by simp [Frame.reach])
  | leaveAtexit result rest top => exact h.leave top rfl rfl rfl rfl
  | start dso rest top free =>
    exact h.proceed top rfl rfl [.started t dso] rfl (by simp [Event.silent]) rfl le_rfl
  | leaveFinalize dso rest top => exact h.leave top rfl rfl rfl rfl
  | skip dso k rest e top entry skipped =>
    have hreach := h.reach_top top
    exact h.proceed top rfl rfl [] (by simp) (by simp) rfl (by simp [Frame.reach] at *; omega)
  | claim dso k rest e top entry used dsoMatches => exact h.claim top entry used dsoMatches
  | unlock dso k rest top =>
    have hreach := h.reach_top top
    exact h.proceed top rfl rfl [] (by simp) (by simp) rfl hreach
  | execute dso k rest e top entry => exact h.execute top entry
  | relock dso k rest top free =>
    have hreach := h.reach_top top
    exact h.proceed top rfl rfl [] (by simp) (by simp) rfl (by simp [Frame.reach] at *; omega)

theorem Invariant.run (h : Invariant s) {actions : List (Tid × Action)}
    (hrun : s.run actions = some s') : Invariant s' :=
  preserved_of_run (fun _ _ _ htransition hs => hs.transition htransition) h hrun

theorem invariant_of_reachable (h : s.Reachable) : Invariant s := by
  obtain ⟨actions, hrun⟩ := h
  exact invariant_initial.run hrun

end Invariants

end Solcompat.Cxa
