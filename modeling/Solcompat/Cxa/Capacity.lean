import Solcompat.Cxa.Finalize

/-!
# How many destructors the registry can take

A slot is consumed once and not used again, and `cxa_atexit_count` never falls. What counts
against `CXA_ATEXIT_MAX` is therefore every registration the process ever made, also those
whose destructors were run long ago.
-/

namespace Solcompat.Cxa

section Waiting

variable {Tid : Type} {history : List (Event Tid)}

theorem unrunBelow_length_le (history : List (Event Tid)) (dso n : ℕ) :
    (unrunBelow history dso n).length ≤ n := by
  induction n with
  | zero => exact le_rfl
  | succ k ih =>
    rw [unrunBelow]
    split
    · split_ifs
      · simpa using ih
      · exact ih.trans (Nat.le_succ k)
    · exact ih.trans (Nat.le_succ k)

theorem unrunBelow_length_lt {dso k n : ℕ} (hexecuted : k ∈ executedSlots history)
    (hk : k < n) : (unrunBelow history dso n).length < n := by
  induction n with
  | zero => omega
  | succ i ih =>
    rw [unrunBelow]
    rcases Nat.lt_succ_iff_lt_or_eq.mp hk with hlt | rfl
    · have hbelow := ih hlt
      split
      · split_ifs
        · rw [List.length_cons]
          omega
        · omega
      · omega
    · have hle := unrunBelow_length_le history dso k
      split
      · rw [if_neg (by simp [hexecuted])]
        omega
      · omega

theorem unrunBelow_length_eq (hexecuted : executedSlots history = []) {n : ℕ}
    (hn : n ≤ (registrations history).length) : (unrunBelow history 0 n).length = n := by
  induction n with
  | zero => rfl
  | succ k ih =>
    obtain ⟨⟨func, arg, dso⟩, hget⟩ : ∃ entry, (registrations history)[k]? = some entry :=
      ⟨_, List.getElem?_eq_getElem hn⟩
    rw [unrunBelow, hget]
    simp [hexecuted, matchesDso, ih (by omega)]

end Waiting

section Bound

variable {Tid : Type} [DecidableEq Tid] {s s' : State Tid} {t : Tid}

theorem Transition.table_le (h : Transition s t s') (hs : s.table.length ≤ cxaAtexitMax) :
    s'.table.length ≤ cxaAtexitMax := by
  cases h with
  | register func arg dso rest top free room => simpa using room
  | claim dso k rest e top entry used dsoMatches => simpa using hs
  | _ => simpa using hs

theorem table_le_of_run {actions : List (Tid × Action)} (hs : s.table.length ≤ cxaAtexitMax)
    (hrun : s.run actions = some s') : s'.table.length ≤ cxaAtexitMax :=
  preserved_of_run (fun _ _ _ htransition hs => htransition.table_le hs) hs hrun

end Bound

section Calls

variable {Tid : Type} [DecidableEq Tid]

/-- The result `__cxa_atexit` is about to return. -/
def answer : List Frame → Option ℤ
  | .registered result :: _ => some result
  | _ => none

/-- In the run a call of `__cxa_atexit` by `t` passes its critical section, from `s` to
`s'`. -/
def Registers (actions : List (Tid × Action)) (t : Tid) (s s' : State Tid) : Prop :=
  ∃ before after func arg dso rest, actions = before ++ (t, .advance) :: after ∧
    State.initial.run before = some s ∧ s.stack t = .registering func arg dso :: rest ∧
    s.step t .advance = some s'

variable {actions : List (Tid × Action)} {t : Tid} {s s' : State Tid}

theorem Registers.invariant (h : Registers actions t s s') : Invariant s := by
  obtain ⟨before, after, func, arg, dso, rest, -, hrun, -⟩ := h
  exact invariant_of_reachable ⟨before, hrun⟩

theorem Registers.table_le (h : Registers actions t s s') : s.table.length ≤ cxaAtexitMax := by
  obtain ⟨before, after, func, arg, dso, rest, -, hrun, -⟩ := h
  exact table_le_of_run (Nat.zero_le _) hrun

theorem Registers.answer_eq_zero (h : Registers actions t s s') :
    answer (s'.stack t) = some 0 ↔ s.table.length < cxaAtexitMax := by
  obtain ⟨before, after, func, arg, dso, rest, -, -, htop, hstep⟩ := h
  simp only [State.step, htop, State.advance, Option.ite_none_right_eq_some,
    Option.some.injEq] at hstep
  obtain ⟨-, rfl⟩ := hstep
  unfold State.register
  dsimp only
  rw [State.hookCleanup_table, State.setLock_table]
  split_ifs with hroom
  · simp [answer, hroom]
  · simp [answer, hroom]

/-- A call with room for its destructor succeeds, in the sense of the destructors that
wait, exactly when slots are left or none was ever consumed. -/
theorem Registers.succeeds_iff (h : Registers actions t s s') :
    ((unrun s.history 0).length < cxaAtexitMax → answer (s'.stack t) = some 0) ↔
      (registrations s.history).length < cxaAtexitMax ∨ executedSlots s.history = [] := by
  have hlength := h.invariant.registrations_length
  have hle := h.table_le
  rw [h.answer_eq_zero, hlength, unrun, hlength]
  constructor
  · intro hroom
    by_cases hexecuted : executedSlots s.history = []
    · exact .inr hexecuted
    · obtain ⟨k, hk⟩ := List.exists_mem_of_ne_nil _ hexecuted
      have hlt : (unrunBelow s.history 0 s.table.length).length < s.table.length :=
        unrunBelow_length_lt hk (h.invariant.lt_of_executed hk)
      exact .inl (hroom (hlt.trans_le hle))
  · rintro (hroom | hexecuted) hwaiting
    · exact hroom
    · rwa [unrunBelow_length_eq hexecuted hlength.ge] at hwaiting

/-- In a run every call made while fewer than `CXA_ATEXIT_MAX` destructors wait returns
`0`, exactly when no call finds all slots filled and one of them consumed. -/
theorem registrations_succeed_iff (actions : List (Tid × Action)) :
    (∀ t s s', Registers actions t s s' → (unrun s.history 0).length < cxaAtexitMax →
      answer (s'.stack t) = some 0) ↔
    ∀ t s s', Registers actions t s s' →
      (registrations s.history).length < cxaAtexitMax ∨ executedSlots s.history = [] := by
  constructor
  · intro hall t s s' h
    exact h.succeeds_iff.mp (hall t s s' h)
  · intro hall t s s' h
    exact h.succeeds_iff.mpr (hall t s s' h)

end Calls

section Cycles

/-- A shared object is loaded, registers one destructor and is unloaded, when `n` consumed
slots are in the table. -/
def cycle (n : ℕ) : List (Unit × Action) :=
  ([((), .cxaAtexit 10 20 30), ((), .advance), ((), .advance), ((), .cxaFinalize 30),
    ((), .advance), ((), .advance), ((), .advance), ((), .advance), ((), .ret),
    ((), .advance)] : List (Unit × Action)) ++ List.replicate n ((), .advance) ++ [((), .advance)]

def cycles : ℕ → List (Unit × Action)
  | 0 => []
  | n + 1 => cycles n ++ cycle n

/-- Where the only thread and the variables of the registry stand. -/
structure StandsWith (table : List Entry) (lock : Option Unit) (frames : List Frame)
    (s : State Unit) : Prop where
  table : s.table = table
  lock : s.cxaAtexitLock = lock
  stack : s.stack () = frames

variable {s : State Unit} {table : List Entry} {lock : Option Unit} {rest : List Frame}

theorem run_append (front back : List (Unit × Action)) :
    s.run (front ++ back) = (s.run front).bind (·.run back) :=
  List.foldlM_append

theorem run_cons {P Q : State Unit → Prop} {action : Action} {actions : List (Unit × Action)}
    (hfirst : ∃ s₁, s.step () action = some s₁ ∧ P s₁)
    (hrest : ∀ s₁, P s₁ → ∃ s', s₁.run actions = some s' ∧ Q s') :
    ∃ s', s.run (((), action) :: actions) = some s' ∧ Q s' := by
  obtain ⟨s₁, hstep, hs₁⟩ := hfirst
  obtain ⟨s', hrun, hs'⟩ := hrest s₁ hs₁
  refine ⟨s', ?_, hs'⟩
  rw [State.run, List.foldlM_cons, hstep]
  exact hrun

theorem run_nil {P : State Unit → Prop} (h : P s) : ∃ s', s.run [] = some s' ∧ P s' :=
  ⟨s, rfl, h⟩

namespace StandsWith

theorem callAtexit (h : StandsWith table lock [] s) (func arg dso : ℕ) :
    ∃ s', s.step () (.cxaAtexit func arg dso) = some s' ∧
      StandsWith table lock [.registering func arg dso] s' := by
  obtain ⟨htable, hlock, hstack⟩ := h
  refine ⟨s.setStack () [.registering func arg dso], ?_, htable, hlock, by simp⟩
  rw [State.step, hstack]
  rfl

theorem callFinalize (h : StandsWith table lock [] s) (dso : ℕ) :
    ∃ s', s.step () (.cxaFinalize dso) = some s' ∧
      StandsWith table lock [.finalizing dso] s' := by
  obtain ⟨htable, hlock, hstack⟩ := h
  refine ⟨s.setStack () [.finalizing dso], ?_, htable, hlock, by simp⟩
  rw [State.step, hstack]
  rfl

theorem returns {func arg : ℕ} (h : StandsWith table lock (.running func arg :: rest) s) :
    ∃ s', s.step () .ret = some s' ∧ StandsWith table lock rest s' := by
  obtain ⟨htable, hlock, hstack⟩ := h
  refine ⟨s.setStack () rest, ?_, htable, hlock, by simp⟩
  rw [State.step, hstack]

theorem register {func arg dso : ℕ}
    (h : StandsWith table none (.registering func arg dso :: rest) s)
    (hroom : table.length < cxaAtexitMax) :
    ∃ s', s.step () .advance = some s' ∧
      StandsWith (table ++ [⟨func, arg, dso, true⟩]) (some ()) (.registered 0 :: rest) s' := by
  obtain ⟨rfl, hlock, hstack⟩ := h
  have hroom' : ((s.setLock (some ())).hookCleanup ()).table.length < cxaAtexitMax := by
    simpa using hroom
  refine ⟨s.register () func arg dso rest, ?_, ?_⟩
  · rw [State.step, hstack, State.advance, hlock]
    rfl
  · rw [State.register, if_pos hroom']
    refine ⟨by simp, ?_, by simp⟩
    unfold State.hookCleanup
    split <;> rfl

theorem refuse {func arg dso : ℕ}
    (h : StandsWith table none (.registering func arg dso :: rest) s)
    (hfull : ¬ table.length < cxaAtexitMax) :
    ∃ s', s.step () .advance = some s' ∧
      StandsWith table (some ()) (.registered (-1) :: rest) s' := by
  obtain ⟨rfl, hlock, hstack⟩ := h
  have hfull' : ¬ ((s.setLock (some ())).hookCleanup ()).table.length < cxaAtexitMax := by
    simpa using hfull
  refine ⟨s.register () func arg dso rest, ?_, ?_⟩
  · rw [State.step, hstack, State.advance, hlock]
    rfl
  · rw [State.register, if_neg hfull']
    refine ⟨by simp, ?_, by simp⟩
    unfold State.hookCleanup
    split <;> rfl

theorem leaveAtexit {result : ℤ} (h : StandsWith table lock (.registered result :: rest) s) :
    ∃ s', s.step () .advance = some s' ∧ StandsWith table none rest s' := by
  obtain ⟨htable, hlock, hstack⟩ := h
  refine ⟨(s.setLock none).setStack () rest, ?_, htable, rfl, by simp⟩
  rw [State.step, hstack, State.advance]

theorem start {dso : ℕ} (h : StandsWith table none (.finalizing dso :: rest) s) :
    ∃ s', s.step () .advance = some s' ∧
      StandsWith table (some ()) (.walking dso table.length :: rest) s' := by
  obtain ⟨rfl, hlock, hstack⟩ := h
  refine ⟨((s.setLock (some ())).record (.started () dso)).setStack ()
    (.walking dso s.table.length :: rest), ?_, rfl, rfl, by simp⟩
  rw [State.step, hstack, State.advance, hlock]
  rfl

theorem claim {dso k : ℕ} {e : Entry} (h : StandsWith table lock (.walking dso (k + 1) :: rest) s)
    (hentry : table[k]? = some e) (hmatch : (e.inUse && matchesDso dso e.dsoHandle) = true) :
    ∃ s', s.step () .advance = some s' ∧
      StandsWith (table.set k e.consume) lock (.claimed dso k :: rest) s' := by
  obtain ⟨rfl, hlock, hstack⟩ := h
  refine ⟨(s.consume k e).setStack () (.claimed dso k :: rest), ?_, rfl, hlock, by simp⟩
  rw [State.step, hstack, State.advance, hentry, Option.bind_eq_bind, Option.bind_some,
    State.visit, if_pos hmatch]

theorem skip {dso k : ℕ} {e : Entry} (h : StandsWith table lock (.walking dso (k + 1) :: rest) s)
    (hentry : table[k]? = some e) (hused : e.inUse = false) :
    ∃ s', s.step () .advance = some s' ∧ StandsWith table lock (.walking dso k :: rest) s' := by
  obtain ⟨rfl, hlock, hstack⟩ := h
  refine ⟨s.setStack () (.walking dso k :: rest), ?_, rfl, hlock, by simp⟩
  rw [State.step, hstack, State.advance, hentry, Option.bind_eq_bind, Option.bind_some,
    State.visit, if_neg (by simp [hused])]

theorem unlock {dso k : ℕ} (h : StandsWith table lock (.claimed dso k :: rest) s) :
    ∃ s', s.step () .advance = some s' ∧ StandsWith table none (.calling dso k :: rest) s' := by
  obtain ⟨htable, hlock, hstack⟩ := h
  refine ⟨(s.setLock none).setStack () (.calling dso k :: rest), ?_, htable, rfl, by simp⟩
  rw [State.step, hstack, State.advance]

theorem execute {dso k : ℕ} {e : Entry} (h : StandsWith table lock (.calling dso k :: rest) s)
    (hentry : table[k]? = some e) :
    ∃ s', s.step () .advance = some s' ∧
      StandsWith table lock
        (.running e.destructorFunc e.objectArg :: .inCallback dso k :: rest) s' := by
  obtain ⟨rfl, hlock, hstack⟩ := h
  refine ⟨(s.record (.executed () dso k e.destructorFunc e.objectArg)).setStack ()
    (.running e.destructorFunc e.objectArg :: .inCallback dso k :: rest), ?_, rfl, hlock, by simp⟩
  rw [State.step, hstack, State.advance, hentry, Option.bind_eq_bind, Option.bind_some]

theorem relock {dso k : ℕ} (h : StandsWith table none (.inCallback dso k :: rest) s) :
    ∃ s', s.step () .advance = some s' ∧
      StandsWith table (some ()) (.walking dso k :: rest) s' := by
  obtain ⟨htable, hlock, hstack⟩ := h
  refine ⟨(s.setLock (some ())).setStack () (.walking dso k :: rest), ?_, htable, rfl, by simp⟩
  rw [State.step, hstack, State.advance, hlock]
  rfl

theorem leaveFinalize {dso : ℕ} (h : StandsWith table lock (.walking dso 0 :: rest) s) :
    ∃ s', s.step () .advance = some s' ∧ StandsWith table none rest s' := by
  obtain ⟨htable, hlock, hstack⟩ := h
  refine ⟨(s.setLock none).setStack () rest, ?_, htable, rfl, by simp⟩
  rw [State.step, hstack, State.advance]

theorem skips {dso k : ℕ} (h : StandsWith table lock (.walking dso k :: rest) s)
    (hk : k ≤ table.length) (hused : ∀ e ∈ table, e.inUse = false) :
    ∃ s', s.run (List.replicate k ((), .advance)) = some s' ∧
      StandsWith table lock (.walking dso 0 :: rest) s' := by
  induction k generalizing s with
  | zero => exact run_nil h
  | succ k ih =>
    have hentry : table[k]? = some (table[k]) := List.getElem?_eq_getElem hk
    rw [List.replicate_succ]
    refine run_cons (h.skip hentry (hused _ (List.getElem_mem hk))) ?_
    intro s₁ hs₁
    exact ih hs₁ (by omega)

end StandsWith

/-- The entry of the shared object, before and after its destructor runs. -/
def freshEntry : Entry := ⟨10, 20, 30, true⟩
def spentEntry : Entry := freshEntry.consume

theorem replicate_slot (n : ℕ) :
    (List.replicate n spentEntry ++ [freshEntry])[n]? = some freshEntry ∧
      (List.replicate n spentEntry ++ [freshEntry]).set n freshEntry.consume =
        List.replicate (n + 1) spentEntry := by
  constructor
  · simp
  · rw [List.set_append_right _ _ (by simp), List.replicate_succ']
    simp [spentEntry]

theorem run_cycle {n : ℕ} (h : StandsWith (List.replicate n spentEntry) none [] s)
    (hn : n < cxaAtexitMax) :
    ∃ s', s.run (cycle n) = some s' ∧
      StandsWith (List.replicate (n + 1) spentEntry) none [] s' := by
  obtain ⟨hentry, hset⟩ := replicate_slot n
  have hspent : (List.replicate (n + 1) spentEntry)[n]? = some spentEntry := by
    rw [List.getElem?_replicate, if_pos (Nat.lt_succ_self n)]
  simp only [cycle, List.cons_append, List.nil_append]
  refine run_cons (h.callAtexit 10 20 30) fun s₁ h₁ => ?_
  refine run_cons (h₁.register (by simpa using hn)) fun s₂ h₂ => ?_
  refine run_cons h₂.leaveAtexit fun s₃ h₃ => ?_
  refine run_cons (h₃.callFinalize 30) fun s₄ h₄ => ?_
  refine run_cons h₄.start fun s₅ h₅ => ?_
  rw [List.length_append, List.length_replicate, List.length_singleton] at h₅
  refine run_cons (h₅.claim hentry rfl) fun s₆ h₆ => ?_
  replace h₆ := hset ▸ h₆
  refine run_cons h₆.unlock fun s₇ h₇ => ?_
  refine run_cons (h₇.execute hspent) fun s₈ h₈ => ?_
  refine run_cons h₈.returns fun s₉ h₉ => ?_
  refine run_cons h₉.relock fun s₁₀ h₁₀ => ?_
  -- The slots of the cycles before this one are walked over.
  obtain ⟨s₁₁, hskips, h₁₁⟩ := h₁₀.skips (by simp) (by simp [spentEntry, Entry.consume])
  obtain ⟨s₁₂, hleave, h₁₂⟩ := run_cons h₁₁.leaveFinalize fun _ => run_nil
  refine ⟨s₁₂, ?_, h₁₂⟩
  rw [run_append, hskips]
  exact hleave

theorem run_cycles {n : ℕ} (hn : n ≤ cxaAtexitMax) :
    ∃ s, State.initial.run (cycles n) = some s ∧
      StandsWith (List.replicate n spentEntry) none [] s := by
  induction n with
  | zero => exact ⟨State.initial, rfl, rfl, rfl, rfl⟩
  | succ n ih =>
    obtain ⟨s, hrun, hs⟩ := ih (by omega)
    obtain ⟨s', hcycle, hs'⟩ := run_cycle hs hn
    refine ⟨s', ?_, hs'⟩
    rw [cycles, run_append, hrun]
    exact hcycle

theorem waiting_of_consumed (hused : ∀ e ∈ table, e.inUse = false) (dso i : ℕ) :
    waiting table dso i = [] := by
  induction i with
  | zero => rfl
  | succ k ih =>
    rw [waiting, ih]
    cases hentry : table[k]? with
    | none => rfl
    | some e => simp [hused e (List.mem_of_getElem? hentry)]

/-- With every slot used up no destructor waits, and no registration is taken any more. -/
theorem refuses_of_spent {before : List (Unit × Action)} {s₀ : State Unit}
    (hbefore : State.initial.run before = some s₀)
    (h₀ : StandsWith (List.replicate cxaAtexitMax spentEntry) none [] s₀) :
    ∃ s s' : State Unit,
      Registers (before ++ [((), .cxaAtexit 11 21 31), ((), .advance)]) () s s' ∧
      (unrun s.history 0).length < cxaAtexitMax ∧ answer (s'.stack ()) = some (-1) := by
  obtain ⟨s₁, hcall, h₁⟩ := h₀.callAtexit 11 21 31
  obtain ⟨s₂, hrefuse, h₂⟩ := h₁.refuse (by simp)
  have hrun : State.initial.run (before ++ [((), .cxaAtexit 11 21 31)]) = some s₁ := by
    rw [run_append, hbefore, Option.bind_some, State.run, List.foldlM_cons, hcall]
    rfl
  have hinvariant := invariant_of_reachable ⟨_, hrun⟩
  have hpending : ∀ u, pendingSlot (s₁.stack u) = none := by
    intro u
    rw [Subsingleton.elim u (), h₁.stack]
    rfl
  have hwaiting : unrun s₁.history 0 = [] := by
    rw [unrun, ← waiting_eq_unrunBelow hinvariant hpending, h₁.table]
    exact waiting_of_consumed (by simp [spentEntry, Entry.consume]) _ _
  refine ⟨s₁, s₂, ⟨_, [], 11, 21, 31, [], by simp, hrun, h₁.stack, hrefuse⟩, ?_, ?_⟩
  · rw [hwaiting]
    decide
  · rw [h₂.stack]
    rfl

/-- After 1024 cycles every slot is used up. -/
theorem cycles_exhaust :
    ∃ s s' : State Unit,
      Registers (cycles cxaAtexitMax ++ [((), .cxaAtexit 11 21 31), ((), .advance)]) () s s' ∧
      (unrun s.history 0).length < cxaAtexitMax ∧ answer (s'.stack ()) = some (-1) := by
  obtain ⟨s₀, hcycles, h₀⟩ := run_cycles le_rfl
  exact refuses_of_spent hcycles h₀

end Cycles

end Solcompat.Cxa
