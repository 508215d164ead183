import Solcompat.Lib.Bits

/-!
# The floating-point environment

The model of `fenv.c`: the functions of C99 on the floating-point status register of SPARC. The
register reads back what is written to it. An `int` that is a set of exceptions has the bits of the
unsigned word it is converted to, and is one here where only its bits matter.
-/

namespace Solcompat.Fenv

open Lib

def FE_INVALID : UInt32 := 0x10
def FE_OVERFLOW : UInt32 := 0x08
def FE_UNDERFLOW : UInt32 := 0x04
def FE_DIVBYZERO : UInt32 := 0x02
def FE_INEXACT : UInt32 := 0x01

def FE_ALL_EXCEPT : UInt32 :=
  FE_INVALID ||| FE_DIVBYZERO ||| FE_OVERFLOW ||| FE_UNDERFLOW ||| FE_INEXACT

/-- The accrued exceptions, `FSR[9:5]`. -/
def FSR_AEXC (fsr_value : UInt32) : UInt32 := (fsr_value >>> 5) &&& 0x1F

def FSR_CLEAR_AEXC (fsr_value exception_mask : UInt32) : UInt32 :=
  fsr_value &&& ~~~((exception_mask &&& 0x1F) <<< 5)

def FSR_SET_AEXC (fsr_value exception_mask : UInt32) : UInt32 :=
  fsr_value ||| ((exception_mask &&& 0x1F) <<< 5)

/-- The rounding direction, `FSR[31:30]`. -/
def FSR_RD (fsr_value : UInt32) : UInt32 := (fsr_value >>> 30) &&& 0x3

def FSR_SET_RD (fsr_value rounding_direction : UInt32) : UInt32 :=
  (fsr_value &&& ~~~((0x3 : UInt32) <<< 30)) ||| ((rounding_direction &&& 0x3) <<< 30)

/-- The register, and the objects of types `fenv_t` and `fexcept_t` by their addresses. -/
structure FenvState where
  fsr : UInt32
  envs : ℕ → UInt32
  flags : ℕ → UInt32

/-- `FE_DFL_ENV`, or the address of an object. -/
inductive EnvPtr
  | default
  | object (env_ptr : ℕ)
  deriving DecidableEq

def fe_dfl_env : UInt32 := 0

namespace FenvState

def write_fsr (s : FenvState) (fsr_value : UInt32) : FenvState := { s with fsr := fsr_value }

def storeEnv (s : FenvState) (env_ptr : ℕ) (value : UInt32) : FenvState :=
  { s with envs := Function.update s.envs env_ptr value }

def storeFlags (s : FenvState) (flag_ptr : ℕ) (value : UInt32) : FenvState :=
  { s with flags := Function.update s.flags flag_ptr value }

end FenvState

def feclearexcept (exception_flags : UInt32) (s : FenvState) : Int32 × FenvState :=
  if exception_flags &&& ~~~FE_ALL_EXCEPT ≠ 0 then (-1, s)
  else
    let fsr_value := FSR_CLEAR_AEXC s.fsr exception_flags
    let fsr_value := fsr_value &&& ~~~(exception_flags &&& 0x1F)
    (0, s.write_fsr fsr_value)

def feraiseexcept (exception_flags : UInt32) (s : FenvState) : Int32 × FenvState :=
  if exception_flags &&& ~~~FE_ALL_EXCEPT ≠ 0 then (-1, s)
  else (0, s.write_fsr (FSR_SET_AEXC s.fsr exception_flags))

def fetestexcept (exception_flags : UInt32) (s : FenvState) : Int32 × FenvState :=
  ((FSR_AEXC s.fsr &&& exception_flags).toInt32, s)

def fegetexceptflag (flag_ptr : ℕ) (exception_flags : UInt32) (s : FenvState) :
    Int32 × FenvState :=
  (0, s.storeFlags flag_ptr (FSR_AEXC s.fsr &&& exception_flags))

def fesetexceptflag (flag_ptr : ℕ) (exception_flags : UInt32) (s : FenvState) :
    Int32 × FenvState :=
  let fsr_value := FSR_CLEAR_AEXC s.fsr exception_flags
  let fsr_value := FSR_SET_AEXC fsr_value (s.flags flag_ptr &&& exception_flags)
  (0, s.write_fsr fsr_value)

def fegetround (s : FenvState) : Int32 × FenvState := ((FSR_RD s.fsr).toInt32, s)

def fesetround (rounding_direction : Int32) (s : FenvState) : Int32 × FenvState :=
  if rounding_direction < 0 ∨ rounding_direction > 3 then (-1, s)
  else (0, s.write_fsr (FSR_SET_RD s.fsr rounding_direction.toUInt32))

def fegetenv (env_ptr : ℕ) (s : FenvState) : Int32 × FenvState := (0, s.storeEnv env_ptr s.fsr)

def fesetenv (env_ptr : EnvPtr) (s : FenvState) : Int32 × FenvState :=
  match env_ptr with
  | .default => (0, s.write_fsr fe_dfl_env)
  | .object p => (0, s.write_fsr (s.envs p))

def feholdexcept (env_ptr : ℕ) (s : FenvState) : Int32 × FenvState :=
  let s := s.storeEnv env_ptr s.fsr
  let clean_fsr := FSR_CLEAR_AEXC s.fsr FE_ALL_EXCEPT
  let clean_fsr := clean_fsr &&& ~~~0x1F
  let clean_fsr := clean_fsr &&& ~~~((0x1F : UInt32) <<< 23)
  (0, s.write_fsr clean_fsr)

def feupdateenv (env_ptr : EnvPtr) (s : FenvState) : Int32 × FenvState :=
  let raised_exceptions := FSR_AEXC s.fsr
  let s := (fesetenv env_ptr s).2
  let s := if raised_exceptions ≠ 0 then (feraiseexcept raised_exceptions s).2 else s
  (0, s)

/-- A call of one of the functions, with its arguments. -/
inductive Call
  | feclearexcept (exception_flags : UInt32)
  | feraiseexcept (exception_flags : UInt32)
  | fetestexcept (exception_flags : UInt32)
  | fegetexceptflag (flag_ptr : ℕ) (exception_flags : UInt32)
  | fesetexceptflag (flag_ptr : ℕ) (exception_flags : UInt32)
  | fegetround
  | fesetround (rounding_direction : Int32)
  | fegetenv (env_ptr : ℕ)
  | fesetenv (env_ptr : EnvPtr)
  | feholdexcept (env_ptr : ℕ)
  | feupdateenv (env_ptr : EnvPtr)

def Call.run : Call → FenvState → Int32 × FenvState
  | .feclearexcept f => Fenv.feclearexcept f
  | .feraiseexcept f => Fenv.feraiseexcept f
  | .fetestexcept f => Fenv.fetestexcept f
  | .fegetexceptflag p f => Fenv.fegetexceptflag p f
  | .fesetexceptflag p f => Fenv.fesetexceptflag p f
  | .fegetround => Fenv.fegetround
  | .fesetround d => Fenv.fesetround d
  | .fegetenv p => Fenv.fegetenv p
  | .fesetenv p => Fenv.fesetenv p
  | .feholdexcept p => Fenv.feholdexcept p
  | .feupdateenv p => Fenv.feupdateenv p

section Macros

variable {w v : UInt32} {i : ℕ}

theorem bit_five_ones (h : i < 32) : bit 0x1F i = decide (i < 5) := bit_low (k := 5) h

theorem bit_two_ones (h : i < 32) : bit 0x3 i = decide (i < 2) := bit_low (k := 2) h

theorem FE_ALL_EXCEPT_eq : FE_ALL_EXCEPT = 0x1F := by
  decide

theorem bit_FSR_AEXC (h : i < 32) : bit (FSR_AEXC w) i = (decide (i < 5) && bit w (5 + i)) := by
  have hfive : (5 : UInt32).toNat = 5 := rfl
  rw [FSR_AEXC, bit_and, bit_shiftRight w (by decide), bit_five_ones h, hfive, Bool.and_comm]

theorem bit_aexc_mask (h : i < 32) :
    bit ((v &&& 0x1F) <<< 5) i = (decide (5 ≤ i ∧ i < 10) && bit v (i - 5)) := by
  have hfive : (5 : UInt32).toNat = 5 := rfl
  rw [bit_shiftLeft _ (by decide) h, hfive, bit_and, bit_five_ones (by omega)]
  by_cases hlow : 5 ≤ i
  · have hiff : i - 5 < 5 ↔ i < 10 := by omega
    simp [hlow, hiff, Bool.and_comm]
  · simp [hlow]

theorem bit_FSR_CLEAR_AEXC (h : i < 32) :
    bit (FSR_CLEAR_AEXC w v) i = (bit w i && !(decide (5 ≤ i ∧ i < 10) && bit v (i - 5))) := by
  rw [FSR_CLEAR_AEXC, bit_and, bit_not _ h, bit_aexc_mask h]

theorem bit_FSR_SET_AEXC (h : i < 32) :
    bit (FSR_SET_AEXC w v) i = (bit w i || decide (5 ≤ i ∧ i < 10) && bit v (i - 5)) := by
  rw [FSR_SET_AEXC, bit_or, bit_aexc_mask h]

theorem bit_FSR_RD (h : i < 32) : bit (FSR_RD w) i = (decide (i < 2) && bit w (30 + i)) := by
  have hthirty : (30 : UInt32).toNat = 30 := rfl
  rw [FSR_RD, bit_and, bit_shiftRight w (by decide), bit_two_ones h, hthirty, Bool.and_comm]

theorem bit_FSR_SET_RD (h : i < 32) :
    bit (FSR_SET_RD w v) i = if i < 30 then bit w i else bit v (i - 30) := by
  have hthirty : (30 : UInt32).toNat = 30 := rfl
  rw [FSR_SET_RD, bit_or, bit_and, bit_not _ h, bit_shiftLeft _ (by decide) h,
    bit_shiftLeft _ (by decide) h, hthirty, bit_and, bit_two_ones (by omega)]
  have hsmall : i - 30 < 2 := by omega
  by_cases hlow : i < 30
  · simp [hlow, not_le.mpr hlow]
  · simp [hlow, hsmall, not_lt.mp hlow]

end Macros

end Solcompat.Fenv
