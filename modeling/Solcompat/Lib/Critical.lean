import Mathlib.Data.Set.Basic
import Mathlib.Data.UInt
import Mathlib.Logic.Function.Basic

/-!
# Critical sections under striped locks

Threads run calls on objects of a shared memory. A locked call spins on the lock byte
of its object, accesses the object one read or write at a time, and clears the byte; a
plain call is a single access. One step of a thread is one test-and-set, one access or
one store to a lock byte, so a run of the machine is a list of thread names. Beside it
stands the atomic machine, where a step is a whole call. No two threads are ever inside
sections under one lock.
-/

namespace Solcompat.Lib

/-- The accesses of a critical section to its object, up to the result. -/
inductive Body (V R : Type) where
  | done (result : R)
  | read (next : V → Body V R)
  | write (value : V) (next : Body V R)

namespace Body

variable {V R : Type}

/-- The result and the final value when nothing else touches the object. -/
def run : Body V R → V → R × V
  | done result, v => (result, v)
  | read next, v => (next v).run v
  | write value next, _ => next.run value

def isDone : Body V R → Bool
  | done _ => true
  | _ => false

/-- Nothing is accessed after a write. -/
def EndsAtWrite : Body V R → Prop
  | done _ => True
  | read next => ∀ v, (next v).EndsAtWrite
  | write _ next => next.isDone = true

@[simp] theorem isDone_done (r : R) : (done r : Body V R).isDone = true := rfl
@[simp] theorem isDone_read (next : V → Body V R) : (read next).isDone = false := rfl

@[simp]
theorem isDone_write (v : V) (next : Body V R) : (write v next).isDone = false := rfl

theorem isDone_iff {b : Body V R} : b.isDone = true ↔ ∃ r, b = done r := by
  cases b <;> simp

end Body

/-- Objects in a byte memory, each with the lock that guards it. Objects that share a
byte share a lock. -/
structure Layout (Loc Byte Obj Stripe : Type) where
  View : Obj → Type
  cells : Obj → Set Loc
  load : (Loc → Byte) → (o : Obj) → View o
  store : (Loc → Byte) → (o : Obj) → View o → Loc → Byte
  stripe : Obj → Stripe
  load_congr : ∀ m m' o, (∀ x ∈ cells o, m x = m' x) → load m o = load m' o
  load_store : ∀ m o v, load (store m o v) o = v
  store_load : ∀ m m' o x, x ∈ cells o → store m o (load m' o) x = m' x
  store_outside : ∀ m o v x, x ∉ cells o → store m o v x = m x
  shared_stripe : ∀ o o' x, x ∈ cells o → x ∈ cells o' → stripe o = stripe o'

namespace Layout

variable {Loc Byte Obj Stripe : Type} (L : Layout Loc Byte Obj Stripe)

theorem store_inside (m m' : Loc → Byte) (o : Obj) (v : L.View o) {x : Loc}
    (hx : x ∈ L.cells o) : L.store m o v x = L.store m' o v x := by
  have h := L.store_load m (L.store m' o v) o x hx
  rwa [L.load_store] at h

/-- The two objects have no byte in common. -/
def Apart (o o' : Obj) : Prop := ∀ x ∈ L.cells o, x ∉ L.cells o'

variable {L}

theorem apart_of_stripe_ne {o o' : Obj} (h : L.stripe o ≠ L.stripe o') : L.Apart o o' :=
  fun x hx hx' => h (L.shared_stripe o o' x hx hx')

theorem Apart.symm {o o' : Obj} (h : L.Apart o o') : L.Apart o' o :=
  fun x hx hx' => h x hx' hx

theorem Apart.load_store {o o' : Obj} (h : L.Apart o o') (m : Loc → Byte) (v : L.View o) :
    L.load (L.store m o v) o' = L.load m o' :=
  L.load_congr _ _ _ fun x hx => L.store_outside m o v x fun hx' => h x hx' hx

end Layout

inductive Call {Loc Byte Obj Stripe : Type} (L : Layout Loc Byte Obj Stripe) (R : Type) where
  | locked (o : Obj) (body : Body (L.View o) R)
  | load (o : Obj) (result : L.View o → R)
  | store (o : Obj) (value : L.View o) (result : R)

/-- How far a section has come with its object. -/
inductive Progress where
  | entered
  | hasRead
  | hasWritten
  deriving DecidableEq

def Progress.afterRead : Progress → Progress
  | .hasWritten => .hasWritten
  | _ => .hasRead

/-- Where a thread stands: between calls, before the test-and-set of the lock, in the
loop that watches the lock byte, or inside the section with the rest of its body. -/
inductive Phase {Loc Byte Obj Stripe : Type} (L : Layout Loc Byte Obj Stripe) (R : Type) where
  | idle
  | trying (o : Obj) (body : Body (L.View o) R)
  | watching (o : Obj) (body : Body (L.View o) R)
  | inside (o : Obj) (progress : Progress) (rest : Body (L.View o) R)

section Machines

structure Shared {Loc Byte Obj Stripe : Type} (L : Layout Loc Byte Obj Stripe)
    (R Tid : Type) where
  mem : Loc → Byte
  locks : Stripe → UInt8
  phase : Tid → Phase L R
  results : Tid → List R

variable {Loc Byte Obj Stripe R Tid : Type} {L : Layout Loc Byte Obj Stripe}

/-- The program of a thread: its next call, given the results so far. -/
abbrev Programs (L : Layout Loc Byte Obj Stripe) (R Tid : Type) :=
  Tid → List R → Option (Call L R)

namespace Shared

def start (mem : Loc → Byte) : Shared L R Tid where
  mem := mem
  locks := fun _ => 0
  phase := fun _ => .idle
  results := fun _ => []

section Locks

variable [DecidableEq Stripe] (s : Shared L R Tid) (i : Stripe) (byte : UInt8)

def setLock : Shared L R Tid :=
  { s with locks := Function.update s.locks i byte }

@[simp] theorem setLock_mem : (s.setLock i byte).mem = s.mem := rfl
@[simp] theorem setLock_phase : (s.setLock i byte).phase = s.phase := rfl
@[simp] theorem setLock_results : (s.setLock i byte).results = s.results := rfl

@[simp]
theorem setLock_locks : (s.setLock i byte).locks = Function.update s.locks i byte := rfl

end Locks

section Threads

variable [DecidableEq Tid] (s : Shared L R Tid) (t : Tid) (phase : Phase L R) (result : R)

def goto : Shared L R Tid :=
  { s with phase := Function.update s.phase t phase }

def finish : Shared L R Tid :=
  { s with results := Function.update s.results t (s.results t ++ [result]) }

@[simp] theorem goto_mem : (s.goto t phase).mem = s.mem := rfl
@[simp] theorem goto_locks : (s.goto t phase).locks = s.locks := rfl
@[simp] theorem goto_results : (s.goto t phase).results = s.results := rfl

@[simp]
theorem goto_phase : (s.goto t phase).phase = Function.update s.phase t phase := rfl

@[simp] theorem finish_mem : (s.finish t result).mem = s.mem := rfl
@[simp] theorem finish_locks : (s.finish t result).locks = s.locks := rfl
@[simp] theorem finish_phase : (s.finish t result).phase = s.phase := rfl

@[simp]
theorem finish_results : (s.finish t result).results =
    Function.update s.results t (s.results t ++ [result]) := rfl

end Threads

variable [DecidableEq Tid] [DecidableEq Stripe]

/-- A step between calls begins a locked call, or makes a plain one. -/
def begin (s : Shared L R Tid) (t : Tid) : Option (Call L R) → Shared L R Tid
  | none => s
  | some (.locked o body) => s.goto t (.trying o body)
  | some (.load o result) => s.finish t (result (L.load s.mem o))
  | some (.store o value result) =>
    { s with mem := L.store s.mem o value }.finish t result

/-- A step inside a section is its next access; when none is left, the lock byte is
cleared and the call returns. -/
def access (s : Shared L R Tid) (t : Tid) (o : Obj) (progress : Progress) :
    Body (L.View o) R → Shared L R Tid
  | .done result => ((s.setLock (L.stripe o) 0).goto t .idle).finish t result
  | .read next => s.goto t (.inside o progress.afterRead (next (L.load s.mem o)))
  | .write value next =>
    { s with mem := L.store s.mem o value }.goto t (.inside o .hasWritten next)

def step (progs : Programs L R Tid) (s : Shared L R Tid) (t : Tid) : Shared L R Tid :=
  match s.phase t with
  | .idle => s.begin t (progs t (s.results t))
  | .trying o body =>
    (s.setLock (L.stripe o) 0xFF).goto t
      (if s.locks (L.stripe o) = 0 then .inside o .entered body else .watching o body)
  | .watching o body =>
    if s.locks (L.stripe o) = 0 then s.goto t (.trying o body) else s
  | .inside o progress rest => s.access t o progress rest

def run (progs : Programs L R Tid) (s : Shared L R Tid) (schedule : List Tid) :
    Shared L R Tid :=
  schedule.foldl (step progs) s

def Quiet (s : Shared L R Tid) : Prop := ∀ t, s.phase t = .idle

end Shared

/-- The result of a call and the memory it leaves, when it runs alone. -/
def Call.apply (m : Loc → Byte) : Call L R → R × (Loc → Byte)
  | .locked o body =>
    ((body.run (L.load m o)).1, L.store m o (body.run (L.load m o)).2)
  | .load o result => (result (L.load m o), m)
  | .store o value result => (result, L.store m o value)

structure Sequential (Loc Byte R Tid : Type) where
  mem : Loc → Byte
  results : Tid → List R

namespace Sequential

variable [DecidableEq Tid]

def start (mem : Loc → Byte) : Sequential Loc Byte R Tid := ⟨mem, fun _ => []⟩

/-- The thread makes its next call, if it has one. -/
def step (progs : Programs L R Tid) (a : Sequential Loc Byte R Tid) (t : Tid) :
    Sequential Loc Byte R Tid :=
  match progs t (a.results t) with
  | none => a
  | some c =>
    { mem := (c.apply a.mem).2
      results := Function.update a.results t (a.results t ++ [(c.apply a.mem).1]) }

def run (progs : Programs L R Tid) (a : Sequential Loc Byte R Tid) (order : List Tid) :
    Sequential Loc Byte R Tid :=
  order.foldl (step progs) a

end Sequential

def Phase.holds : Phase L R → Option Stripe
  | .inside o _ _ => some (L.stripe o)
  | _ => none

namespace Shared

/-- A lock byte is set while a thread holds the lock, and only one does. -/
structure Exclusive (s : Shared L R Tid) : Prop where
  held : ∀ t i, (s.phase t).holds = some i → s.locks i ≠ 0
  alone : ∀ t t' i, (s.phase t).holds = some i → (s.phase t').holds = some i → t = t'

theorem exclusive_start (mem : Loc → Byte) : (start mem : Shared L R Tid).Exclusive where
  held := by simp [start, Phase.holds]
  alone := by simp [start, Phase.holds]

theorem Exclusive.of_holds {s s' : Shared L R Tid} (h : s.Exclusive)
    (hlocks : ∀ i, s.locks i ≠ 0 → s'.locks i ≠ 0)
    (hholds : ∀ t i, (s'.phase t).holds = some i → (s.phase t).holds = some i) :
    s'.Exclusive where
  held := fun t i ht => hlocks i (h.held t i (hholds t i ht))
  alone := fun t t' i ht ht' => h.alone t t' i (hholds t i ht) (hholds t' i ht')

theorem holds_update [DecidableEq Tid] {t : Tid} {f : Tid → Phase L R} {phase : Phase L R}
    (h : phase.holds = none ∨ phase.holds = (f t).holds) (u : Tid) (i : Stripe)
    (hu : (Function.update f t phase u).holds = some i) : (f u).holds = some i := by
  by_cases hut : u = t
  · subst hut
    rw [Function.update_self] at hu
    rcases h with h | h
    · rw [h] at hu
      exact absurd hu (by simp)
    · rwa [h] at hu
  · rwa [Function.update_of_ne hut] at hu

section Locking

variable [DecidableEq Tid] [DecidableEq Stripe]
variable {progs : Programs L R Tid} {s : Shared L R Tid} {t : Tid}

theorem step_phase_of_ne {t' : Tid} (h : t' ≠ t) :
    (s.step progs t).phase t' = s.phase t' := by
  unfold step
  split
  · rcases progs t (s.results t) with _ | _ | _ | _ <;> simp [begin, h]
  · simp [h]
  · split <;> simp [h]
  · next rest _ => cases rest <;> simp [access, h]

theorem step_results_of_ne {t' : Tid} (h : t' ≠ t) :
    (s.step progs t).results t' = s.results t' := by
  unfold step
  split
  · rcases progs t (s.results t) with _ | _ | _ | _ <;> simp [begin, h]
  · simp
  · split <;> simp
  · next rest _ => cases rest <;> simp [access, h]

theorem Exclusive.acquire {o : Obj} {phase : Phase L R} (h : s.Exclusive)
    (hfree : s.locks (L.stripe o) = 0) (hphase : phase.holds = some (L.stripe o)) :
    ((s.setLock (L.stripe o) 0xFF).goto t phase).Exclusive := by
  have hnone : ∀ u, (s.phase u).holds ≠ some (L.stripe o) :=
    fun u hu => h.held u _ hu hfree
  have hold : ∀ u i, (Function.update s.phase t phase u).holds = some i →
      u = t ∧ i = L.stripe o ∨ (s.phase u).holds = some i := by
    intro u i hu
    by_cases hut : u = t
    · subst hut
      rw [Function.update_self, hphase, Option.some.injEq] at hu
      exact .inl ⟨rfl, hu.symm⟩
    · rw [Function.update_of_ne hut] at hu
      exact .inr hu
  constructor
  · intro u i hu
    by_cases hi : i = L.stripe o
    · simp [hi]
    · rcases hold u i hu with ⟨-, hi'⟩ | hu'
      · exact absurd hi' hi
      · simpa [hi] using h.held u i hu'
  · intro u u' i hu hu'
    rcases hold u i hu with ⟨rfl, hi⟩ | h₁ <;> rcases hold u' i hu' with ⟨rfl, hi'⟩ | h₂
    · rfl
    · exact absurd (hi ▸ h₂) (hnone u')
    · exact absurd (hi' ▸ h₁) (hnone u)
    · exact h.alone u u' i h₁ h₂

theorem Exclusive.release {i : Stripe} {result : R} (h : s.Exclusive)
    (ht : (s.phase t).holds = some i) :
    (((s.setLock i 0).goto t .idle).finish t result).Exclusive := by
  have hold : ∀ u j, (Function.update s.phase t .idle u).holds = some j →
      u ≠ t ∧ (s.phase u).holds = some j := by
    intro u j hu
    by_cases hut : u = t
    · subst hut
      simp [Phase.holds] at hu
    · rw [Function.update_of_ne hut] at hu
      exact ⟨hut, hu⟩
  constructor
  · intro u j hu
    obtain ⟨hut, hu'⟩ := hold u j hu
    have hj : j ≠ i := by
      rintro rfl
      exact hut (h.alone u t j hu' ht)
    simpa [hj] using h.held u j hu'
  · intro u u' j hu hu'
    exact h.alone u u' j (hold u j hu).2 (hold u' j hu').2

theorem Exclusive.step (h : s.Exclusive) : (s.step progs t).Exclusive := by
  unfold Shared.step
  split
  · rcases progs t (s.results t) with _ | _ | _ | _
    · exact h
    · exact h.of_holds (fun i hi => hi) (holds_update (.inl rfl))
    · exact h.of_holds (fun i hi => hi) (fun u i hu => hu)
    · exact h.of_holds (fun i hi => hi) (fun u i hu => hu)
  · next o body hphase =>
    by_cases hfree : s.locks (L.stripe o) = 0
    · rw [if_pos hfree]
      exact h.acquire hfree rfl
    · -- The failed test-and-set stores to a byte that is set already.
      rw [if_neg hfree]
      refine h.of_holds (fun i hi => ?_) (holds_update (.inl rfl))
      by_cases hio : i = L.stripe o
      · simp [hio]
      · simpa [hio] using hi
  · split
    · exact h.of_holds (fun i hi => hi) (holds_update (.inl rfl))
    · exact h
  · next o p rest hphase =>
    have hholds : (s.phase t).holds = some (L.stripe o) := by rw [hphase]; rfl
    cases rest with
    | done r => exact h.release hholds
    | read next => exact h.of_holds (fun i hi => hi) (holds_update (.inr hholds.symm))
    | write v next => exact h.of_holds (fun i hi => hi) (holds_update (.inr hholds.symm))

theorem Exclusive.run (h : s.Exclusive) (schedule : List Tid) :
    (s.run progs schedule).Exclusive := by
  induction schedule generalizing s with
  | nil => exact h
  | cons t rest ih => exact ih h.step

end Locking

end Shared

end Machines

end Solcompat.Lib
