import Solcompat.Atomic.Model
import Solcompat.Lib.Linearize

/-!
# The stripe-locked operations are linearizable

The threads of this module call the operations that hold a stripe lock, on any aligned
objects, each choosing its next call from the results it has seen.
-/

namespace Solcompat.Atomic

open Solcompat.Lib

/-- A call of an operation that holds a stripe lock. -/
inductive LockedOp where
  | cas32 (target : Pointer .word) (cmp newval : Value .word)
  | cas64 (target : Pointer .double) (cmp newval : Value .double)
  | caslong (target : Pointer .word) (cmp newval : Value .word)
  | casptr (target : Pointer .word) (cmp newval : Value .word)
  | atomicAdd16 (target : Pointer .half) (delta : Value .half)
  | atomicAdd32 (target : Pointer .word) (delta : Value .word)
  | atomicAddLong (target : Pointer .word) (delta : Value .word)
  | atomicAdd64 (target : Pointer .double) (delta : Value .double)
  | atomicAdd16Nv (target : Pointer .half) (delta : Value .half)
  | atomicAdd32Nv (target : Pointer .word) (delta : Value .word)
  | atomicAddLongNv (target : Pointer .word) (delta : Value .word)
  | atomicAdd64Nv (target : Pointer .double) (delta : Value .double)
  | atomicCasUint (target : Pointer .word) (cmp newval : Value .word)
  | atomicCasPtr (target : Pointer .word) (cmp newval : Value .word)
  | atomicSwapUint (target : Pointer .word) (newval : Value .word)
  | atomicSwapPtr (target : Pointer .word) (newval : Value .word)
  | atomicAddInt (target : Pointer .word) (delta : Value .word)
  | atomicOrUint (target : Pointer .word) (bits : Value .word)
  | atomicFetchAdd (w : Width) (ptr : Pointer w) (val : Value w)
  | atomicFetchSub (w : Width) (ptr : Pointer w) (val : Value w)
  | atomicFetchAnd (w : Width) (ptr : Pointer w) (val : Value w)
  | atomicFetchOr (w : Width) (ptr : Pointer w) (val : Value w)
  | atomicFetchXor (w : Width) (ptr : Pointer w) (val : Value w)
  | atomicFetchNand (w : Width) (ptr : Pointer w) (val : Value w)
  | atomicExchange (w : Width) (ptr : Pointer w) (val : Value w)
  | atomicCompareExchange (w : Width) (ptr : Pointer w) (expected desired : Value w)
  | atomicLoad8 (ptr : Pointer .double)
  | atomicStore8 (ptr : Pointer .double) (val : Value .double)
  | syncValCompareAndSwap4 (ptr : Pointer .word) (oldval newval : Value .word)
  | syncBoolCompareAndSwap4 (ptr : Pointer .word) (oldval newval : Value .word)
  | syncFetchAndAdd4 (ptr : Pointer .word) (val : Value .word)
  | syncFetchAndSub4 (ptr : Pointer .word) (val : Value .word)
  | syncFetchAndAnd4 (ptr : Pointer .word) (val : Value .word)
  | syncFetchAndOr4 (ptr : Pointer .word) (val : Value .word)
  | syncFetchAndXor4 (ptr : Pointer .word) (val : Value .word)
  | syncFetchAndNand4 (ptr : Pointer .word) (val : Value .word)
  | syncAddAndFetch4 (ptr : Pointer .word) (val : Value .word)
  | syncSubAndFetch4 (ptr : Pointer .word) (val : Value .word)
  | syncAndAndFetch4 (ptr : Pointer .word) (val : Value .word)
  | syncOrAndFetch4 (ptr : Pointer .word) (val : Value .word)
  | syncXorAndFetch4 (ptr : Pointer .word) (val : Value .word)
  | syncLockTestAndSet4 (ptr : Pointer .word) (val : Value .word)
  | syncLockRelease4 (ptr : Pointer .word)

namespace LockedOp

def call : LockedOp → Call layout Outcome
  | cas32 target cmp newval => Atomic.cas32 target cmp newval
  | cas64 target cmp newval => Atomic.cas64 target cmp newval
  | caslong target cmp newval => Atomic.caslong target cmp newval
  | casptr target cmp newval => Atomic.casptr target cmp newval
  | atomicAdd16 target delta => Atomic.atomicAdd16 target delta
  | atomicAdd32 target delta => Atomic.atomicAdd32 target delta
  | atomicAddLong target delta => Atomic.atomicAddLong target delta
  | atomicAdd64 target delta => Atomic.atomicAdd64 target delta
  | atomicAdd16Nv target delta => Atomic.atomicAdd16Nv target delta
  | atomicAdd32Nv target delta => Atomic.atomicAdd32Nv target delta
  | atomicAddLongNv target delta => Atomic.atomicAddLongNv target delta
  | atomicAdd64Nv target delta => Atomic.atomicAdd64Nv target delta
  | atomicCasUint target cmp newval => Atomic.atomicCasUint target cmp newval
  | atomicCasPtr target cmp newval => Atomic.atomicCasPtr target cmp newval
  | atomicSwapUint target newval => Atomic.atomicSwapUint target newval
  | atomicSwapPtr target newval => Atomic.atomicSwapPtr target newval
  | atomicAddInt target delta => Atomic.atomicAddInt target delta
  | atomicOrUint target bits => Atomic.atomicOrUint target bits
  | atomicFetchAdd _ ptr val => Atomic.atomicFetchAdd ptr val
  | atomicFetchSub _ ptr val => Atomic.atomicFetchSub ptr val
  | atomicFetchAnd _ ptr val => Atomic.atomicFetchAnd ptr val
  | atomicFetchOr _ ptr val => Atomic.atomicFetchOr ptr val
  | atomicFetchXor _ ptr val => Atomic.atomicFetchXor ptr val
  | atomicFetchNand _ ptr val => Atomic.atomicFetchNand ptr val
  | atomicExchange _ ptr val => Atomic.atomicExchange ptr val
  | atomicCompareExchange _ ptr expected desired =>
    Atomic.atomicCompareExchange ptr expected desired
  | atomicLoad8 ptr => Atomic.atomicLoad8 ptr
  | atomicStore8 ptr val => Atomic.atomicStore8 ptr val
  | syncValCompareAndSwap4 ptr oldval newval => Atomic.syncValCompareAndSwap4 ptr oldval newval
  | syncBoolCompareAndSwap4 ptr oldval newval =>
    Atomic.syncBoolCompareAndSwap4 ptr oldval newval
  | syncFetchAndAdd4 ptr val => Atomic.syncFetchAndAdd4 ptr val
  | syncFetchAndSub4 ptr val => Atomic.syncFetchAndSub4 ptr val
  | syncFetchAndAnd4 ptr val => Atomic.syncFetchAndAnd4 ptr val
  | syncFetchAndOr4 ptr val => Atomic.syncFetchAndOr4 ptr val
  | syncFetchAndXor4 ptr val => Atomic.syncFetchAndXor4 ptr val
  | syncFetchAndNand4 ptr val => Atomic.syncFetchAndNand4 ptr val
  | syncAddAndFetch4 ptr val => Atomic.syncAddAndFetch4 ptr val
  | syncSubAndFetch4 ptr val => Atomic.syncSubAndFetch4 ptr val
  | syncAndAndFetch4 ptr val => Atomic.syncAndAndFetch4 ptr val
  | syncOrAndFetch4 ptr val => Atomic.syncOrAndFetch4 ptr val
  | syncXorAndFetch4 ptr val => Atomic.syncXorAndFetch4 ptr val
  | syncLockTestAndSet4 ptr val => Atomic.syncLockTestAndSet4 ptr val
  | syncLockRelease4 ptr => Atomic.syncLockRelease4 ptr

theorem call_locked (op : LockedOp) : ∃ o body, op.call = .locked o body := by
  cases op <;> exact ⟨_, _, rfl⟩

end LockedOp

section Runs

variable {Tid : Type}

/-- The threads' programs as programs of the machine. -/
def lockedPrograms (progs : Tid → List Outcome → Option LockedOp) :
    Programs layout Outcome Tid :=
  fun t rs => (progs t rs).map LockedOp.call

theorem harmless_lockedPrograms (progs : Tid → List Outcome → Option LockedOp)
    (s : Shared layout Outcome Tid) (t : Tid) : s.Harmless (lockedPrograms progs) t := by
  intro _
  unfold lockedPrograms
  cases progs t (s.results t) with
  | none => trivial
  | some op =>
    obtain ⟨o, body, hcall⟩ := op.call_locked
    rw [Option.map_some, hcall]
    trivial

variable [DecidableEq Tid]

/-- For any threads, any programs of stripe-locked calls and any schedule: no two threads
are between lock and unlock of one stripe, calls whose objects overlap use one stripe, and
the calls take effect in an order that agrees with real time and with the program of every
thread, such that the memory and all results are those of the calls made one after another
in this order. -/
theorem lockedOps_linearizable (progs : Tid → List Outcome → Option LockedOp)
    (mem : Memory) :
    (∀ schedule t t' i,
      (((Shared.start mem).run (lockedPrograms progs) schedule).phase t).holds = some i →
      (((Shared.start mem).run (lockedPrograms progs) schedule).phase t').holds = some i →
      t = t') ∧
    (∀ (o o' : Target) (x : ℕ), o.Covers x → o'.Covers x →
      sstStripeFor o.pointer.addr = sstStripeFor o'.pointer.addr) ∧
    ∃ order, Shared.Linearizes (lockedPrograms progs) mem (fun _ => True) order := by
  refine ⟨?_, fun o o' x h h' => stripe_eq_of_overlap h h', ?_⟩
  · intro schedule t t' i ht ht'
    exact ((Shared.exclusive_start mem).run schedule).alone t t' i ht ht'
  · refine ⟨_, Shared.linearizes_effects _ mem _ ?_⟩
    intro schedule _ p t _
    exact harmless_lockedPrograms progs _ t

end Runs

end Solcompat.Atomic
