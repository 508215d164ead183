import Solcompat.Lib.Critical
import Solcompat.Lib.Memory

/-!
# The atomic operations

`atomic_ops.c` guards every object of one, two, four or eight bytes by one of sixteen
lock bytes, chosen by bits four to seven of its address. Each operation is the body of
its critical section: the reads and writes of the target between the test-and-set of
the lock byte and the store that clears it. `__atomic_load_4` and `__atomic_store_4`
take no lock. Addresses are those of a big-endian memory; `unsigned long` and pointers
take four bytes.
-/

namespace Solcompat.Atomic

open Solcompat.Lib

inductive Width where
  | byte
  | half
  | word
  | double
  deriving DecidableEq

def Width.size : Width → ℕ
  | .byte => 1
  | .half => 2
  | .word => 4
  | .double => 8

abbrev Value (w : Width) := BitVec (8 * w.size)

structure Pointer (w : Width) where
  addr : ℕ
  aligned : addr % w.size = 0

structure Target where
  width : Width
  pointer : Pointer width

section Stripes

def sstStripeBits : ℕ := 4
def sstStripeCount : ℕ := 1 <<< sstStripeBits
def sstStripeMask : ℕ := sstStripeCount - 1

/-- `sst_stripe_for`: the index of the lock byte of an address. -/
def sstStripeFor (p : ℕ) : Fin sstStripeCount :=
  ⟨(p >>> 4) &&& sstStripeMask, Nat.lt_of_le_of_lt Nat.and_le_right (by decide)⟩

def Target.Covers (o : Target) (x : ℕ) : Prop :=
  o.pointer.addr ≤ x ∧ x < o.pointer.addr + o.width.size

theorem Target.Covers.block {o : Target} {x : ℕ} (h : o.Covers x) :
    x / 16 = o.pointer.addr / 16 := by
  obtain ⟨width, addr, aligned⟩ := o
  obtain ⟨hle, hlt⟩ := h
  simp only at hle hlt ⊢
  cases width <;> simp only [Width.size] at aligned hlt <;> omega

theorem stripe_eq_of_overlap {o o' : Target} {x : ℕ} (h : o.Covers x) (h' : o'.Covers x) :
    sstStripeFor o.pointer.addr = sstStripeFor o'.pointer.addr := by
  have hblock : o.pointer.addr >>> 4 = o'.pointer.addr >>> 4 := by
    rw [Nat.shiftRight_eq_div_pow, Nat.shiftRight_eq_div_pow]
    exact h.block.symm.trans h'.block
  unfold sstStripeFor
  simp only [hblock]

end Stripes

section Accesses

def loadTarget (m : Memory) (o : Target) : Value o.width :=
  BitVec.ofNat _ (m.number o.pointer.addr o.width.size)

def storeTarget (m : Memory) (o : Target) (v : Value o.width) : Memory :=
  m.putNumber o.pointer.addr o.width.size v.toNat

theorem two_pow_width (w : Width) : 2 ^ (8 * w.size) = 256 ^ w.size := by
  rw [pow_mul]
  rfl

/-- The bytes of the library and the locks over them. -/
def layout : Layout ℕ UInt8 Target (Fin sstStripeCount) where
  View := fun o => Value o.width
  cells := fun o => {x | o.Covers x}
  load := loadTarget
  store := storeTarget
  stripe := fun o => sstStripeFor o.pointer.addr
  load_congr := by
    intro m m' o h
    rw [loadTarget, loadTarget, Memory.number_congr fun x hx hx' => h x ⟨hx, hx'⟩]
  load_store := by
    intro m o v
    apply BitVec.eq_of_toNat_eq
    have hv : v.toNat < 256 ^ o.width.size := by
      rw [← two_pow_width]
      exact v.isLt
    rw [loadTarget, storeTarget, Memory.number_putNumber m hv, BitVec.toNat_ofNat,
      Nat.mod_eq_of_lt v.isLt]
  store_load := by
    intro m m' o x hx
    have hlt := Memory.number_lt m' o.pointer.addr o.width.size
    rw [← two_pow_width] at hlt
    rw [loadTarget, storeTarget, BitVec.toNat_ofNat, Nat.mod_eq_of_lt hlt]
    exact Memory.putNumber_number m m' hx
  store_outside := fun m o v x hx => Memory.putNumber_outside m hx
  shared_stripe := fun o o' x hx hx' => stripe_eq_of_overlap hx hx'

end Accesses

/-- What a call gives back: nothing, a value, a truth value, or the success of a
compare-exchange with the value `*expected` then has. -/
inductive Outcome where
  | nothing
  | value (v : ℕ)
  | flag (b : Bool)
  | exchanged (success : Bool) (expected : ℕ)
  deriving DecidableEq

section Bodies

variable {w : Width}

def casBody (cmp newval : Value w) : Body (Value w) Outcome :=
  .read fun old =>
    if old = cmp then .write newval (.done (.value old.toNat)) else .done (.value old.toNat)

/-- `*target += (TYPE)delta` -/
def addBody (delta : Value w) : Body (Value w) Outcome :=
  .read fun old => .write (old + delta) (.done .nothing)

/-- `*target += (TYPE)delta; new_value = *target` -/
def addNvBody (delta : Value w) : Body (Value w) Outcome :=
  .read fun old => .write (old + delta) (.read fun new => .done (.value new.toNat))

/-- `old = *ptr; *ptr = EXPR` -/
def fetchBody (expr : Value w → Value w → Value w) (val : Value w) :
    Body (Value w) Outcome :=
  .read fun old => .write (expr old val) (.done (.value old.toNat))

/-- `new_value = EXPR; *ptr = new_value` -/
def opAndFetchBody (expr : Value w → Value w → Value w) (val : Value w) :
    Body (Value w) Outcome :=
  .read fun old => .write (expr old val) (.done (.value (expr old val).toNat))

def exchangeBody (val : Value w) : Body (Value w) Outcome :=
  .read fun old => .write val (.done (.value old.toNat))

/-- `expected` is the value read from `*expected` before the lock is taken. -/
def compareExchangeBody (expected desired : Value w) : Body (Value w) Outcome :=
  .read fun cur =>
    if cur = expected then .write desired (.done (.exchanged true expected.toNat))
    else .done (.exchanged false cur.toNat)

def loadBody : Body (Value w) Outcome := .read fun v => .done (.value v.toNat)

def storeBody (val : Value w) : Body (Value w) Outcome := .write val (.done .nothing)

def nand (old val : Value w) : Value w := ~~~(old &&& val)

section Effects

variable (expr : Value w → Value w → Value w) (old val expected desired : Value w)

@[simp]
theorem fetchBody_run : (fetchBody expr val).run old = (.value old.toNat, expr old val) := rfl

@[simp]
theorem opAndFetchBody_run :
    (opAndFetchBody expr val).run old = (.value (expr old val).toNat, expr old val) := rfl

@[simp]
theorem exchangeBody_run : (exchangeBody val).run old = (.value old.toNat, val) := rfl

/-- An exchange that fails leaves the object alone, and says what it found there. -/
theorem compareExchangeBody_run :
    (compareExchangeBody expected desired).run old =
      if old = expected then (.exchanged true expected.toNat, desired)
      else (.exchanged false old.toNat, old) := by
  simp only [compareExchangeBody, Body.run]
  split_ifs <;> rfl

theorem casBody_run : (casBody expected desired).run old =
    (.value old.toNat, if old = expected then desired else old) := by
  simp only [casBody, Body.run]
  split_ifs <;> rfl

end Effects

/-- A call that holds the stripe lock of its target around its body. -/
def underLock (target : Pointer w) (body : Body (Value w) Outcome) : Call layout Outcome :=
  .locked ⟨w, target⟩ body

end Bodies

section Solaris

def cas32 (target : Pointer .word) (cmp newval : Value .word) : Call layout Outcome :=
  underLock target (casBody cmp newval)

def cas64 (target : Pointer .double) (cmp newval : Value .double) : Call layout Outcome :=
  underLock target (casBody cmp newval)

def caslong (target : Pointer .word) (cmp newval : Value .word) : Call layout Outcome :=
  underLock target (casBody cmp newval)

def casptr (target : Pointer .word) (cmp newval : Value .word) : Call layout Outcome :=
  underLock target (casBody cmp newval)

def atomicAdd16 (target : Pointer .half) (delta : Value .half) : Call layout Outcome :=
  underLock target (addBody delta)

def atomicAdd32 (target : Pointer .word) (delta : Value .word) : Call layout Outcome :=
  underLock target (addBody delta)

def atomicAddLong (target : Pointer .word) (delta : Value .word) : Call layout Outcome :=
  underLock target (addBody delta)

def atomicAdd64 (target : Pointer .double) (delta : Value .double) : Call layout Outcome :=
  underLock target (addBody delta)

def atomicAdd16Nv (target : Pointer .half) (delta : Value .half) : Call layout Outcome :=
  underLock target (addNvBody delta)

def atomicAdd32Nv (target : Pointer .word) (delta : Value .word) : Call layout Outcome :=
  underLock target (addNvBody delta)

def atomicAddLongNv (target : Pointer .word) (delta : Value .word) : Call layout Outcome :=
  underLock target (addNvBody delta)

def atomicAdd64Nv (target : Pointer .double) (delta : Value .double) : Call layout Outcome :=
  underLock target (addNvBody delta)

def atomicCasUint (target : Pointer .word) (cmp newval : Value .word) : Call layout Outcome :=
  cas32 target cmp newval

def atomicCasPtr (target : Pointer .word) (cmp newval : Value .word) : Call layout Outcome :=
  casptr target cmp newval

def atomicSwapUint (target : Pointer .word) (newval : Value .word) : Call layout Outcome :=
  underLock target (exchangeBody newval)

def atomicSwapPtr (target : Pointer .word) (newval : Value .word) : Call layout Outcome :=
  underLock target (exchangeBody newval)

def atomicAddInt (target : Pointer .word) (delta : Value .word) : Call layout Outcome :=
  atomicAdd32 target delta

def atomicOrUint (target : Pointer .word) (bits : Value .word) : Call layout Outcome :=
  underLock target (fetchBody (· ||| ·) bits)

end Solaris

section Intrinsics

variable {w : Width}

def atomicFetchAdd (ptr : Pointer w) (val : Value w) : Call layout Outcome :=
  underLock ptr (fetchBody (· + ·) val)

def atomicFetchSub (ptr : Pointer w) (val : Value w) : Call layout Outcome :=
  underLock ptr (fetchBody (· - ·) val)

def atomicFetchAnd (ptr : Pointer w) (val : Value w) : Call layout Outcome :=
  underLock ptr (fetchBody (· &&& ·) val)

def atomicFetchOr (ptr : Pointer w) (val : Value w) : Call layout Outcome :=
  underLock ptr (fetchBody (· ||| ·) val)

def atomicFetchXor (ptr : Pointer w) (val : Value w) : Call layout Outcome :=
  underLock ptr (fetchBody (· ^^^ ·) val)

def atomicFetchNand (ptr : Pointer w) (val : Value w) : Call layout Outcome :=
  underLock ptr (fetchBody nand val)

def atomicExchange (ptr : Pointer w) (val : Value w) : Call layout Outcome :=
  underLock ptr (exchangeBody val)

def atomicCompareExchange (ptr : Pointer w) (expected desired : Value w) :
    Call layout Outcome :=
  underLock ptr (compareExchangeBody expected desired)

def atomicLoad4 (ptr : Pointer .word) : Call layout Outcome :=
  .load ⟨.word, ptr⟩ fun v => .value v.toNat

def atomicStore4 (ptr : Pointer .word) (val : Value .word) : Call layout Outcome :=
  .store ⟨.word, ptr⟩ val .nothing

def atomicLoad8 (ptr : Pointer .double) : Call layout Outcome :=
  underLock ptr loadBody

def atomicStore8 (ptr : Pointer .double) (val : Value .double) : Call layout Outcome :=
  underLock ptr (storeBody val)

end Intrinsics

section Sync

def syncValCompareAndSwap4 (ptr : Pointer .word) (oldval newval : Value .word) :
    Call layout Outcome :=
  cas32 ptr oldval newval

/-- The comparison with `oldval` is made on what `cas32` returns. -/
def syncBoolCompareAndSwap4 (ptr : Pointer .word) (oldval newval : Value .word) :
    Call layout Outcome :=
  underLock ptr (.read fun old =>
    if old = oldval then .write newval (.done (.flag (old = oldval)))
    else .done (.flag (old = oldval)))

def syncFetchAndAdd4 (ptr : Pointer .word) (val : Value .word) : Call layout Outcome :=
  underLock ptr (fetchBody (· + ·) val)

def syncFetchAndSub4 (ptr : Pointer .word) (val : Value .word) : Call layout Outcome :=
  underLock ptr (fetchBody (· - ·) val)

def syncFetchAndAnd4 (ptr : Pointer .word) (val : Value .word) : Call layout Outcome :=
  underLock ptr (fetchBody (· &&& ·) val)

def syncFetchAndOr4 (ptr : Pointer .word) (val : Value .word) : Call layout Outcome :=
  underLock ptr (fetchBody (· ||| ·) val)

def syncFetchAndXor4 (ptr : Pointer .word) (val : Value .word) : Call layout Outcome :=
  underLock ptr (fetchBody (· ^^^ ·) val)

def syncFetchAndNand4 (ptr : Pointer .word) (val : Value .word) : Call layout Outcome :=
  underLock ptr (fetchBody nand val)

def syncAddAndFetch4 (ptr : Pointer .word) (val : Value .word) : Call layout Outcome :=
  underLock ptr (opAndFetchBody (· + ·) val)

def syncSubAndFetch4 (ptr : Pointer .word) (val : Value .word) : Call layout Outcome :=
  underLock ptr (opAndFetchBody (· - ·) val)

def syncAndAndFetch4 (ptr : Pointer .word) (val : Value .word) : Call layout Outcome :=
  underLock ptr (opAndFetchBody (· &&& ·) val)

def syncOrAndFetch4 (ptr : Pointer .word) (val : Value .word) : Call layout Outcome :=
  underLock ptr (opAndFetchBody (· ||| ·) val)

def syncXorAndFetch4 (ptr : Pointer .word) (val : Value .word) : Call layout Outcome :=
  underLock ptr (opAndFetchBody (· ^^^ ·) val)

def syncLockTestAndSet4 (ptr : Pointer .word) (val : Value .word) : Call layout Outcome :=
  underLock ptr (exchangeBody val)

def syncLockRelease4 (ptr : Pointer .word) : Call layout Outcome :=
  underLock ptr (storeBody 0)

end Sync

end Solcompat.Atomic
