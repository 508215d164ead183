import Solcompat.Atomic.Model
import Solcompat.Lib.Linearize

/-!
# Plain loads and stores of a locked word

`__atomic_load_4` and `__atomic_store_4` access a word without its stripe lock, where
`__atomic_load_8` and `__atomic_store_8` take it. A plain load always finds the word
before or after an update. A plain store between the read and the write of an update is
overwritten, and the calls then have no sequential order; without such a store they
have one.
-/

namespace Solcompat.Atomic

open Solcompat.Lib

/-- A call on one word: a plain access, or an operation under the stripe lock. -/
inductive WordOp where
  | atomicLoad4
  | atomicStore4 (val : Value .word)
  | cas32 (cmp newval : Value .word)
  | atomicFetchAdd4 (val : Value .word)
  | atomicFetchSub4 (val : Value .word)
  | atomicFetchAnd4 (val : Value .word)
  | atomicFetchOr4 (val : Value .word)
  | atomicFetchXor4 (val : Value .word)
  | atomicFetchNand4 (val : Value .word)
  | atomicExchange4 (val : Value .word)
  | atomicCompareExchange4 (expected desired : Value .word)
  | syncValCompareAndSwap4 (oldval newval : Value .word)
  | syncBoolCompareAndSwap4 (oldval newval : Value .word)
  | syncFetchAndAdd4 (val : Value .word)
  | syncFetchAndSub4 (val : Value .word)
  | syncFetchAndAnd4 (val : Value .word)
  | syncFetchAndOr4 (val : Value .word)
  | syncFetchAndXor4 (val : Value .word)
  | syncFetchAndNand4 (val : Value .word)
  | syncAddAndFetch4 (val : Value .word)
  | syncSubAndFetch4 (val : Value .word)
  | syncAndAndFetch4 (val : Value .word)
  | syncOrAndFetch4 (val : Value .word)
  | syncXorAndFetch4 (val : Value .word)
  | syncLockTestAndSet4 (val : Value .word)
  | syncLockRelease4

namespace WordOp

def call (ptr : Pointer .word) : WordOp → Call layout Outcome
  | atomicLoad4 => Atomic.atomicLoad4 ptr
  | atomicStore4 val => Atomic.atomicStore4 ptr val
  | cas32 cmp newval => Atomic.cas32 ptr cmp newval
  | atomicFetchAdd4 val => atomicFetchAdd ptr val
  | atomicFetchSub4 val => atomicFetchSub ptr val
  | atomicFetchAnd4 val => atomicFetchAnd ptr val
  | atomicFetchOr4 val => atomicFetchOr ptr val
  | atomicFetchXor4 val => atomicFetchXor ptr val
  | atomicFetchNand4 val => atomicFetchNand ptr val
  | atomicExchange4 val => atomicExchange ptr val
  | atomicCompareExchange4 expected desired => atomicCompareExchange ptr expected desired
  | syncValCompareAndSwap4 oldval newval => Atomic.syncValCompareAndSwap4 ptr oldval newval
  | syncBoolCompareAndSwap4 oldval newval => Atomic.syncBoolCompareAndSwap4 ptr oldval newval
  | syncFetchAndAdd4 val => Atomic.syncFetchAndAdd4 ptr val
  | syncFetchAndSub4 val => Atomic.syncFetchAndSub4 ptr val
  | syncFetchAndAnd4 val => Atomic.syncFetchAndAnd4 ptr val
  | syncFetchAndOr4 val => Atomic.syncFetchAndOr4 ptr val
  | syncFetchAndXor4 val => Atomic.syncFetchAndXor4 ptr val
  | syncFetchAndNand4 val => Atomic.syncFetchAndNand4 ptr val
  | syncAddAndFetch4 val => Atomic.syncAddAndFetch4 ptr val
  | syncSubAndFetch4 val => Atomic.syncSubAndFetch4 ptr val
  | syncAndAndFetch4 val => Atomic.syncAndAndFetch4 ptr val
  | syncOrAndFetch4 val => Atomic.syncOrAndFetch4 ptr val
  | syncXorAndFetch4 val => Atomic.syncXorAndFetch4 ptr val
  | syncLockTestAndSet4 val => Atomic.syncLockTestAndSet4 ptr val
  | syncLockRelease4 => Atomic.syncLockRelease4 ptr

theorem endsAtWrite {ptr : Pointer .word} {op : WordOp} {o : Target}
    {body : Body (layout.View o) Outcome} (h : op.call ptr = .locked o body) :
    body.EndsAtWrite := by
  have hif : ∀ (c : Prop) (d : Decidable c) (v : Value .word) (r r' : Outcome),
      (@ite _ c d (Body.write v (.done r)) (.done r')).EndsAtWrite := by
    intro c d v r r'
    split
    · rfl
    · trivial
  cases op with
  | atomicLoad4 => cases h
  | atomicStore4 val => cases h
  | cas32 cmp newval => cases h; exact fun v => hif _ _ _ _ _
  | atomicCompareExchange4 expected desired => cases h; exact fun v => hif _ _ _ _ _
  | syncValCompareAndSwap4 oldval newval => cases h; exact fun v => hif _ _ _ _ _
  | syncBoolCompareAndSwap4 oldval newval => cases h; exact fun v => hif _ _ _ _ _
  | syncLockRelease4 => cases h; rfl
  | _ => cases h; exact fun v => rfl

end WordOp

section Runs

variable {Tid : Type}

def wordPrograms (ptr : Pointer .word) (progs : Tid → List Outcome → Option WordOp) :
    Programs layout Outcome Tid :=
  fun t rs => (progs t rs).map (WordOp.call ptr)

/-- The thread's next step is a plain store, while some operation has read the word and
still has to write it. -/
def StoreIntoUpdate (progs : Tid → List Outcome → Option WordOp)
    (s : Shared layout Outcome Tid) (t : Tid) : Prop :=
  s.phase t = .idle ∧ (∃ val, progs t (s.results t) = some (.atomicStore4 val)) ∧
    ∃ t' o rest, s.phase t' = .inside o .hasRead rest ∧ rest.isDone = false

theorem harmless_wordPrograms {ptr : Pointer .word}
    {progs : Tid → List Outcome → Option WordOp} {s : Shared layout Outcome Tid} {t : Tid}
    (hsingle : ∀ u, (s.phase u).SingleWrite)
    (h : ¬ StoreIntoUpdate progs s t) : s.Harmless (wordPrograms ptr progs) t := by
  have hwritten : ∀ u o (rest : Body (layout.View o) Outcome),
      s.phase u = .inside o .hasWritten rest → rest.isDone = true := by
    intro u o rest hu
    have hsu := hsingle u
    rw [hu] at hsu
    exact hsu.2 rfl
  intro hidle
  unfold wordPrograms
  cases hop : progs t (s.results t) with
  | none => trivial
  | some op =>
    cases op with
    | atomicLoad4 =>
      intro u o rest hu hrest
      rw [hwritten u o rest hu] at hrest
      exact absurd hrest (by simp)
    | atomicStore4 val =>
      intro u o p rest hu hrest hp
      cases p with
      | entered => exact absurd rfl hp
      | hasRead => exact absurd ⟨hidle, ⟨val, hop⟩, u, o, rest, hu, hrest⟩ h
      | hasWritten =>
        rw [hwritten u o rest hu] at hrest
        exact absurd hrest (by simp)
    | _ => trivial

variable [DecidableEq Tid]

/-- The final word and all results of a run are those of the calls in some sequential
order, which keeps the program of every thread. -/
def Explained (ptr : Pointer .word) (progs : Tid → List Outcome → Option WordOp)
    (mem : Memory) (schedule : List Tid) : Prop :=
  ∃ order,
    loadTarget ((Sequential.start mem).run (wordPrograms ptr progs) order).mem ⟨.word, ptr⟩ =
      loadTarget ((Shared.start mem).run (wordPrograms ptr progs) schedule).mem ⟨.word, ptr⟩ ∧
    ((Sequential.start mem).run (wordPrograms ptr progs) order).results =
      ((Shared.start mem).run (wordPrograms ptr progs) schedule).results

/-- In every run in which no plain store falls between the read and the write of an
update, the calls have a sequential order. -/
theorem wordOps_sequential (ptr : Pointer .word) (progs : Tid → List Outcome → Option WordOp)
    (mem : Memory) (schedule : List Tid)
    (hstores : ∀ p t, p ++ [t] <+: schedule →
      ¬ StoreIntoUpdate progs ((Shared.start mem).run (wordPrograms ptr progs) p) t)
    (hquiet : ((Shared.start mem).run (wordPrograms ptr progs) schedule).Quiet) :
    Explained ptr progs mem schedule := by
  have hends : ∀ t rs o body, wordPrograms ptr progs t rs = some (.locked o body) →
      body.EndsAtWrite := by
    intro t rs o body hcall
    obtain ⟨op, -, hop⟩ := Option.map_eq_some_iff.mp hcall
    exact WordOp.endsAtWrite hop
  have hstart : ∀ u, ((Shared.start mem : Shared layout Outcome Tid).phase u).SingleWrite :=
    fun _ => trivial
  have hharmless : ∀ runs, runs = schedule → ∀ p t, p ++ [t] <+: runs →
      ((Shared.start mem).run (wordPrograms ptr progs) p).Harmless (wordPrograms ptr progs) t := by
    rintro _ rfl p t hp
    exact harmless_wordPrograms (Shared.singleWrite_run hends hstart p) (hstores p t hp)
  have hlin := Shared.linearizes_effects _ mem (· = schedule) hharmless
  have heffect := hlin.effect schedule rfl hquiet
  exact ⟨_, by rw [heffect], by rw [heffect]⟩

end Runs

section LostStore

def firstWord : Pointer .word := ⟨0, rfl⟩

/-- One thread adds one with `__atomic_fetch_add_4`, the other stores five with
`__atomic_store_4`. -/
def addAndStore : Bool → List Outcome → Option WordOp
  | false, [] => some (.atomicFetchAdd4 1)
  | true, [] => some (.atomicStore4 5)
  | _, _ => none

/-- The store after the lock is taken and before the word is read is kept. -/
theorem wordOps_sequential_addAndStore :
    Explained firstWord addAndStore (fun _ => 0) [false, false, true, false, false, false] := by
  apply wordOps_sequential
  · rintro p t ⟨q, hq⟩ ⟨hidle, ⟨val, hval⟩, t', o, rest, hphase, hrest⟩
    cases t with
    | false =>
      generalize ((Shared.start fun _ => 0).run (wordPrograms firstWord addAndStore) p).results
        false = rs at hval
      cases rs <;> simp [addAndStore] at hval
    | true =>
      have hget : [false, false, true, false, false, false][p.length]? = some true := by
        rw [← hq]
        simp
      have hlength : p.length = 2 := by
        have hlt := (List.getElem?_eq_some_iff.mp hget).1
        simp only [List.length_cons, List.length_nil] at hlt
        interval_cases p.length <;> simp at hget ⊢
      have hp : p = [false, false] := by
        have htake := congrArg (List.take 2) hq
        rwa [List.append_assoc, ← hlength, List.take_left', hlength] at htake
        rfl
      subst hp
      cases t' with
      | false => injection hphase with _ hprogress; exact absurd hprogress (by decide)
      | true => cases hphase
  · intro t
    cases t <;> rfl

/-- What a sequential order can show of the word and of the two results. -/
def SequentialOutcome (a : Sequential ℕ UInt8 Outcome Bool) : Prop :=
  let word := loadTarget a.mem ⟨.word, firstWord⟩
  (word = 0 ∧ a.results false = [] ∧ a.results true = []) ∨
  (word = 1 ∧ a.results false = [.value 0] ∧ a.results true = []) ∨
  (word = 5 ∧ a.results false = [] ∧ a.results true = [.nothing]) ∨
  (word = 5 ∧ a.results false = [.value 0] ∧ a.results true = [.nothing]) ∨
  (word = 6 ∧ a.results false = [.value 5] ∧ a.results true = [.nothing])

theorem step_add {a : Sequential ℕ UInt8 Outcome Bool} (h : a.results false = []) :
    a.step (wordPrograms firstWord addAndStore) false =
      ⟨storeTarget a.mem ⟨.word, firstWord⟩ (loadTarget a.mem ⟨.word, firstWord⟩ + 1),
        Function.update a.results false
          [.value (loadTarget a.mem ⟨.word, firstWord⟩).toNat]⟩ := by
  simp only [Sequential.step, wordPrograms, h, addAndStore, Option.map_some]
  rfl

theorem step_store {a : Sequential ℕ UInt8 Outcome Bool} (h : a.results true = []) :
    a.step (wordPrograms firstWord addAndStore) true =
      ⟨storeTarget a.mem ⟨.word, firstWord⟩ 5,
        Function.update a.results true [.nothing]⟩ := by
  simp only [Sequential.step, wordPrograms, h, addAndStore, Option.map_some]
  rfl

theorem step_finished {a : Sequential ℕ UInt8 Outcome Bool} {t : Bool} {r : Outcome}
    (h : a.results t = [r]) : a.step (wordPrograms firstWord addAndStore) t = a := by
  cases t <;> simp [Sequential.step, wordPrograms, h, addAndStore]

theorem sequentialOutcome_step {a : Sequential ℕ UInt8 Outcome Bool}
    (h : SequentialOutcome a) (t : Bool) :
    SequentialOutcome (a.step (wordPrograms firstWord addAndStore) t) := by
  have hload : ∀ v : Value .word, loadTarget (storeTarget a.mem ⟨.word, firstWord⟩ v)
      ⟨.word, firstWord⟩ = v := layout.load_store a.mem ⟨.word, firstWord⟩
  have hcases := h
  rcases hcases with ⟨hw, h0, h1⟩ | ⟨hw, h0, h1⟩ | ⟨hw, h0, h1⟩ | ⟨hw, h0, h1⟩ | ⟨hw, h0, h1⟩ <;>
    cases t
  · rw [step_add h0]
    simp [SequentialOutcome, hload, hw, h1]
  · rw [step_store h1]
    simp [SequentialOutcome, hload, h0]
  · rwa [step_finished h0]
  · rw [step_store h1]
    simp [SequentialOutcome, hload, h0]
  · rw [step_add h0]
    simp [SequentialOutcome, hload, hw, h1]
    decide
  all_goals
    first
      | rwa [step_finished h0]
      | rwa [step_finished h1]

theorem sequentialOutcome_run (order : List Bool) {a : Sequential ℕ UInt8 Outcome Bool}
    (h : SequentialOutcome a) :
    SequentialOutcome (a.run (wordPrograms firstWord addAndStore) order) := by
  induction order generalizing a with
  | nil => exact h
  | cons t order ih => exact ih (sequentialOutcome_step h t)

/-- The store between the read and the write of the addition is lost: both calls return,
the word is one and the addition has seen zero, which no sequential order gives. -/
theorem plainStore_lost :
    ((Shared.start fun _ => 0).run (wordPrograms firstWord addAndStore)
      [false, false, false, true, false, false]).Quiet ∧
    ¬ Explained firstWord addAndStore (fun _ => 0)
      [false, false, false, true, false, false] := by
  constructor
  · intro t
    cases t <;> rfl
  · rintro ⟨order, hword, hresults⟩
    have hstart : SequentialOutcome (Sequential.start fun _ => 0) :=
      .inl ⟨by decide +kernel, rfl, rfl⟩
    have h := sequentialOutcome_run order hstart
    rw [SequentialOutcome, hword, hresults] at h
    revert h
    decide +kernel

end LostStore

end Solcompat.Atomic
