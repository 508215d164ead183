import Solcompat.Fenv.Model
import Solcompat.Lib.Machine

/-!
# The environment of C99

What the functions are for: a rounding direction, a set of raised exceptions, and the trap enables
with all other bits, which only `fesetenv`, `feholdexcept` and `feupdateenv` touch. The register
refines this: each call returns what the specification says and leaves a state that it describes.
The current exceptions, `FSR[4:0]`, are no part of the environment.
-/

namespace Solcompat.Fenv

open Lib

inductive Exception
  | inexact
  | divByZero
  | underflow
  | overflow
  | invalid
  deriving DecidableEq

namespace Exception

def all : Finset Exception := {inexact, divByZero, underflow, overflow, invalid}

theorem mem_all (e : Exception) : e ∈ all := by
  cases e <;> decide

instance : Fintype Exception := ⟨all, mem_all⟩

def index : Exception → ℕ
  | inexact => 0
  | divByZero => 1
  | underflow => 2
  | overflow => 3
  | invalid => 4

theorem index_lt (e : Exception) : e.index < 5 := by
  cases e <;> decide

end Exception

inductive Rounding
  | toNearest
  | towardZero
  | upward
  | downward
  deriving DecidableEq

namespace Rounding

def code : Rounding → Int32
  | toNearest => 0
  | towardZero => 1
  | upward => 2
  | downward => 3

def ofBits : Bool → Bool → Rounding
  | false, false => toNearest
  | false, true => towardZero
  | true, false => upward
  | true, true => downward

/-- The direction of a number from 0 to 3. -/
def ofCode (d : Int32) : Rounding :=
  if d = 0 then toNearest else if d = 1 then towardZero else if d = 2 then upward else downward

end Rounding

/-- The exceptions that an argument names; other bits name none. -/
def named (exception_flags : UInt32) : Finset Exception := members Exception.index exception_flags

/-- A set of exceptions as a value. -/
def encode (raised : Finset Exception) : UInt32 :=
  (if .inexact ∈ raised then FE_INEXACT else 0) |||
    (if .divByZero ∈ raised then FE_DIVBYZERO else 0) |||
    (if .underflow ∈ raised then FE_UNDERFLOW else 0) |||
    (if .overflow ∈ raised then FE_OVERFLOW else 0) |||
    (if .invalid ∈ raised then FE_INVALID else 0)

/-- A floating-point environment. The bits of `rest` are `FSR[29:10]`. -/
@[ext]
structure Environment where
  mode : Rounding
  raised : Finset Exception
  rest : Finset (Fin 20)

/-- The enables of the traps among the other bits, `FSR[27:23]`. -/
def trapEnables : Finset (Fin 20) := Finset.univ.filter fun i => 13 ≤ i.val ∧ i.val < 18

/-- Round to nearest, nothing raised, no traps. -/
def Environment.initial : Environment := ⟨.toNearest, ∅, ∅⟩

def environment (fsr_value : UInt32) : Environment where
  mode := .ofBits (bit fsr_value 31) (bit fsr_value 30)
  raised := members (fun e : Exception => 5 + e.index) fsr_value
  rest := members (fun i : Fin 20 => 10 + i.val) fsr_value

/-- The environment in effect, the saved ones and the saved sets of exceptions. -/
structure SpecState where
  current : Environment
  saved : ℕ → Environment
  flags : ℕ → Finset Exception

def abstraction (s : FenvState) : SpecState where
  current := environment s.fsr
  saved p := environment (s.envs p)
  flags p := named (s.flags p)

namespace SpecState

def setCurrent (a : SpecState) (env : Environment) : SpecState := { a with current := env }

def save (a : SpecState) (p : ℕ) (env : Environment) : SpecState :=
  { a with saved := Function.update a.saved p env }

def saveFlags (a : SpecState) (p : ℕ) (raised : Finset Exception) : SpecState :=
  { a with flags := Function.update a.flags p raised }

def load (a : SpecState) : EnvPtr → Environment
  | .default => .initial
  | .object p => a.saved p

end SpecState

/-- An argument that names exceptions and nothing else. -/
def ValidFlags (exception_flags : UInt32) : Prop := exception_flags.toNat < 32

instance (f : UInt32) : Decidable (ValidFlags f) := inferInstanceAs (Decidable (_ < _))

/-- What C99 says of the calls. -/
def Call.spec : Call → SpecState → Int32 × SpecState
  | .feclearexcept f, a =>
    if ValidFlags f then
      (0, a.setCurrent { a.current with raised := a.current.raised \ named f })
    else (-1, a)
  | .feraiseexcept f, a =>
    if ValidFlags f then
      (0, a.setCurrent { a.current with raised := a.current.raised ∪ named f })
    else (-1, a)
  | .fetestexcept f, a => ((encode (a.current.raised ∩ named f)).toInt32, a)
  | .fegetexceptflag p f, a => (0, a.saveFlags p (a.current.raised ∩ named f))
  | .fesetexceptflag p f, a =>
    (0, a.setCurrent
      { a.current with raised := a.current.raised \ named f ∪ (a.flags p ∩ named f) })
  | .fegetround, a => (a.current.mode.code, a)
  | .fesetround d, a =>
    if 0 ≤ d ∧ d ≤ 3 then (0, a.setCurrent { a.current with mode := .ofCode d }) else (-1, a)
  | .fegetenv p, a => (0, a.save p a.current)
  | .fesetenv p, a => (0, a.setCurrent (a.load p))
  | .feholdexcept p, a =>
    (0, (a.save p a.current).setCurrent
      { a.current with raised := ∅, rest := a.current.rest \ trapEnables })
  | .feupdateenv p, a =>
    (0, a.setCurrent { a.load p with raised := (a.load p).raised ∪ a.current.raised })

section Words

variable {w v : UInt32}

theorem ValidFlags_iff : ValidFlags v ↔ v &&& ~~~FE_ALL_EXCEPT = 0 := by
  have hpow : (32 : ℕ) = 2 ^ 5 := rfl
  rw [ValidFlags, hpow, lt_two_pow_iff_bit, FE_ALL_EXCEPT_eq]
  constructor
  · intro h
    apply eq_of_bit
    intro i hi
    rw [bit_and, bit_not _ hi, bit_five_ones hi, bit_zero]
    by_cases hfive : i < 5
    · simp [hfive]
    · simp [h i (by omega)]
  · intro h i hi
    by_cases hword : i < 32
    · have hbit : bit (v &&& ~~~0x1F) i = false := by rw [h, bit_zero]
      rw [bit_and, bit_not _ hword, bit_five_ones hword, decide_eq_false (by omega)] at hbit
      simpa using hbit
    · exact bit_of_le (by omega)

theorem environment_eq {env : Environment}
    (hmode : Rounding.ofBits (bit w 31) (bit w 30) = env.mode)
    (hraised : ∀ e : Exception, bit w (5 + e.index) = true ↔ e ∈ env.raised)
    (hrest : ∀ i : Fin 20, bit w (10 + i.val) = true ↔ i ∈ env.rest) : environment w = env := by
  apply Environment.ext
  · exact hmode
  · ext e
    rw [environment, mem_members, hraised]
  · ext i
    rw [environment, mem_members, hrest]

theorem mem_raised {e : Exception} :
    e ∈ (environment w).raised ↔ bit w (5 + e.index) = true :=
  mem_members

theorem mem_rest {i : Fin 20} : i ∈ (environment w).rest ↔ bit w (10 + i.val) = true := mem_members

theorem mem_named {e : Exception} : e ∈ named v ↔ bit v e.index = true := mem_members

/-- A word that differs below the tenth bit only differs in the raised exceptions only. -/
theorem environment_with_raised {raised : Finset Exception}
    (hkept : ∀ i, 10 ≤ i → i < 32 → bit v i = bit w i)
    (hraised : ∀ e : Exception, bit v (5 + e.index) = true ↔ e ∈ raised) :
    environment v = { environment w with raised := raised } := by
  apply environment_eq
  · rw [hkept 31 (by omega) (by omega), hkept 30 (by omega) (by omega)]
    rfl
  · exact hraised
  · intro i
    rw [hkept _ (by omega) (by omega), mem_rest]

theorem environment_clear (w v : UInt32) :
    environment (FSR_CLEAR_AEXC w v) =
      { environment w with raised := (environment w).raised \ named v } := by
  apply environment_with_raised
  · intro i hlow hhigh
    have hfield : ¬ i < 10 := by omega
    simp [bit_FSR_CLEAR_AEXC hhigh, hfield]
  · intro e
    have he := e.index_lt
    have hword : 5 + e.index < 32 := by omega
    have hfield : 5 + e.index < 10 := by omega
    simp [bit_FSR_CLEAR_AEXC hword, hfield, mem_raised, mem_named]

theorem environment_set (w v : UInt32) :
    environment (FSR_SET_AEXC w v) =
      { environment w with raised := (environment w).raised ∪ named v } := by
  apply environment_with_raised
  · intro i hlow hhigh
    have hfield : ¬ i < 10 := by omega
    simp [bit_FSR_SET_AEXC hhigh, hfield]
  · intro e
    have he := e.index_lt
    have hword : 5 + e.index < 32 := by omega
    have hfield : 5 + e.index < 10 := by omega
    simp [bit_FSR_SET_AEXC hword, hfield, mem_raised, mem_named]

theorem environment_current (w v : UInt32) :
    environment (w &&& ~~~(v &&& 0x1F)) = environment w := by
  have hbit : ∀ i, 5 ≤ i → i < 32 → bit (w &&& ~~~(v &&& 0x1F)) i = bit w i := by
    intro i hlow hhigh
    rw [bit_and, bit_not _ hhigh, bit_and, bit_five_ones hhigh, decide_eq_false (by omega)]
    simp
  apply environment_with_raised
  · intro i hlow hhigh
    exact hbit i (by omega) hhigh
  · intro e
    have he := e.index_lt
    rw [hbit _ (by omega) (by omega), ← mem_raised]
    rfl

theorem environment_noTraps (w : UInt32) :
    environment (w &&& ~~~((0x1F : UInt32) <<< 23)) =
      { environment w with rest := (environment w).rest \ trapEnables } := by
  have htwentyThree : (23 : UInt32).toNat = 23 := rfl
  have hbit : ∀ i, i < 32 → bit (w &&& ~~~((0x1F : UInt32) <<< 23)) i =
      (bit w i && !decide (23 ≤ i ∧ i < 28)) := by
    intro i hi
    rw [bit_and, bit_not _ hi, bit_shiftLeft _ (by decide) hi, htwentyThree,
      bit_five_ones (by omega), ← Bool.decide_and]
    congr 3
    apply propext
    omega
  apply environment_eq
  · rw [hbit 31 (by omega), hbit 30 (by omega)]
    simp [environment]
  · intro e
    have he := e.index_lt
    rw [hbit _ (by omega), decide_eq_false (by omega)]
    simp [mem_raised]
  · intro i
    have hiff : 23 ≤ 10 + i.val ∧ 10 + i.val < 28 ↔ 13 ≤ i.val ∧ i.val < 18 := by omega
    rw [hbit _ (by omega), Finset.mem_sdiff, mem_rest, trapEnables, Finset.mem_filter]
    simp only [hiff, Finset.mem_univ, true_and, Bool.and_eq_true, Bool.not_eq_true',
      decide_eq_false_iff_not]

theorem rounding_cases {d : Int32} (h : 0 ≤ d ∧ d ≤ 3) : d = 0 ∨ d = 1 ∨ d = 2 ∨ d = 3 := by
  have hlow : 0 ≤ d.toInt := Int32.le_iff_toInt_le.mp h.1
  have hhigh : d.toInt ≤ 3 := Int32.le_iff_toInt_le.mp h.2
  have hzero : (0 : Int32).toInt = 0 := rfl
  have hone : (1 : Int32).toInt = 1 := rfl
  have htwo : (2 : Int32).toInt = 2 := rfl
  have hthree : (3 : Int32).toInt = 3 := rfl
  simp only [← Int32.toInt_inj]
  omega

theorem environment_setRound (w : UInt32) {d : Int32} (h : 0 ≤ d ∧ d ≤ 3) :
    environment (FSR_SET_RD w d.toUInt32) = { environment w with mode := .ofCode d } := by
  apply environment_eq
  · rw [bit_FSR_SET_RD (by omega), bit_FSR_SET_RD (by omega), if_neg (by omega),
      if_neg (by omega)]
    rcases rounding_cases h with rfl | rfl | rfl | rfl <;> rfl
  · intro e
    have he := e.index_lt
    rw [bit_FSR_SET_RD (by omega), if_pos (by omega), mem_raised]
  · intro i
    rw [bit_FSR_SET_RD (by omega), if_pos (by omega), mem_rest]

end Words

theorem encode_members {w : UInt32} (h : w.toNat < 32) :
    encode (members Exception.index w) = w := by
  have hall : ∀ k : Fin 32, encode (members Exception.index (UInt32.ofNat k.val)) =
      UInt32.ofNat k.val := by
    decide
  have hword : UInt32.ofNat w.toNat = w := UInt32.ofNat_toNat
  rw [← hword]
  exact hall ⟨w.toNat, h⟩

theorem aexc_lt (w : UInt32) : (FSR_AEXC w).toNat < 32 := by
  have hpow : (32 : ℕ) = 2 ^ 5 := rfl
  rw [hpow, lt_two_pow_iff_bit]
  intro i hi
  by_cases hword : i < 32
  · rw [bit_FSR_AEXC hword, decide_eq_false (by omega), Bool.false_and]
  · exact bit_of_le (by omega)

theorem named_aexc (w : UInt32) : named (FSR_AEXC w) = (environment w).raised := by
  ext e
  have he := e.index_lt
  rw [mem_named, mem_raised, bit_FSR_AEXC (by omega), decide_eq_true he, Bool.true_and]

theorem named_and (v w : UInt32) : named (v &&& w) = named v ∩ named w := members_and v w

theorem encode_raised (w f : UInt32) :
    encode ((environment w).raised ∩ named f) = FSR_AEXC w &&& f := by
  have hlt : (FSR_AEXC w &&& f).toNat < 32 := by
    rw [UInt32.toNat_and]
    exact Nat.and_le_left.trans_lt (aexc_lt w)
  rw [← named_aexc, ← named_and]
  exact encode_members hlt

theorem code_ofBits {v : UInt32} (h : v.toNat < 4) :
    (Rounding.ofBits (bit v 1) (bit v 0)).code = v.toInt32 := by
  have hall : ∀ k : Fin 4, (Rounding.ofBits (bit (UInt32.ofNat k.val) 1)
      (bit (UInt32.ofNat k.val) 0)).code = (UInt32.ofNat k.val).toInt32 := by
    decide
  have hword : UInt32.ofNat v.toNat = v := UInt32.ofNat_toNat
  rw [← hword]
  exact hall ⟨v.toNat, h⟩

theorem code_mode (w : UInt32) : (environment w).mode.code = (FSR_RD w).toInt32 := by
  have hpow : (4 : ℕ) = 2 ^ 2 := rfl
  have hlt : (FSR_RD w).toNat < 4 := by
    rw [hpow, lt_two_pow_iff_bit]
    intro i hi
    by_cases hword : i < 32
    · rw [bit_FSR_RD hword, decide_eq_false (by omega), Bool.false_and]
    · exact bit_of_le (by omega)
  rw [← code_ofBits hlt, bit_FSR_RD (by omega), bit_FSR_RD (by omega)]
  rfl

theorem environment_default : environment fe_dfl_env = .initial := by
  apply environment_eq
  · rfl
  · simp [fe_dfl_env, Environment.initial]
  · simp [fe_dfl_env, Environment.initial]

section Memory

variable (s : FenvState) (p : ℕ) (w : UInt32)

theorem abstraction_write :
    abstraction (s.write_fsr w) = (abstraction s).setCurrent (environment w) :=
  rfl

theorem abstraction_storeEnv :
    abstraction (s.storeEnv p w) = (abstraction s).save p (environment w) := by
  have hsaved : (fun q => environment (Function.update s.envs p w q)) =
      Function.update (fun q => environment (s.envs q)) p (environment w) :=
    Function.comp_update environment s.envs p w
  simp only [abstraction, FenvState.storeEnv, SpecState.save, hsaved]

theorem abstraction_storeFlags :
    abstraction (s.storeFlags p w) = (abstraction s).saveFlags p (named w) := by
  have hflags : (fun q => named (Function.update s.flags p w q)) =
      Function.update (fun q => named (s.flags q)) p (named w) :=
    Function.comp_update named s.flags p w
  simp only [abstraction, FenvState.storeFlags, SpecState.saveFlags, hflags]

theorem fesetenv_abstraction (ptr : EnvPtr) :
    abstraction (fesetenv ptr s).2 = (abstraction s).setCurrent ((abstraction s).load ptr) := by
  cases ptr with
  | default => rw [fesetenv, abstraction_write, environment_default, SpecState.load]
  | object q => rw [fesetenv, abstraction_write, SpecState.load, abstraction]

end Memory

theorem feclearexcept_spec (f : UInt32) (s : FenvState) :
    (Call.feclearexcept f).spec (abstraction s) =
      ((feclearexcept f s).1, abstraction (feclearexcept f s).2) := by
  rw [feclearexcept, Call.spec]
  simp only [ValidFlags_iff]
  by_cases hvalid : f &&& ~~~FE_ALL_EXCEPT = 0
  · rw [if_pos hvalid, if_neg (not_not.mpr hvalid)]
    dsimp only
    rw [abstraction_write, environment_current, environment_clear]
    rfl
  · rw [if_neg hvalid, if_pos hvalid]

theorem feraiseexcept_spec (f : UInt32) (s : FenvState) :
    (Call.feraiseexcept f).spec (abstraction s) =
      ((feraiseexcept f s).1, abstraction (feraiseexcept f s).2) := by
  rw [feraiseexcept, Call.spec]
  simp only [ValidFlags_iff]
  by_cases hvalid : f &&& ~~~FE_ALL_EXCEPT = 0
  · rw [if_pos hvalid, if_neg (not_not.mpr hvalid)]
    dsimp only
    rw [abstraction_write, environment_set]
    rfl
  · rw [if_neg hvalid, if_pos hvalid]

theorem fesetexceptflag_spec (p : ℕ) (f : UInt32) (s : FenvState) :
    (Call.fesetexceptflag p f).spec (abstraction s) =
      ((fesetexceptflag p f s).1, abstraction (fesetexceptflag p f s).2) := by
  rw [fesetexceptflag, Call.spec]
  dsimp only
  rw [abstraction_write, environment_set, environment_clear, named_and]
  rfl

theorem fesetround_spec (d : Int32) (s : FenvState) :
    (Call.fesetround d).spec (abstraction s) =
      ((fesetround d s).1, abstraction (fesetround d s).2) := by
  have hiff : 0 ≤ d ∧ d ≤ 3 ↔ ¬ (d < 0 ∨ d > 3) := by
    rw [not_or, Int32.not_lt, gt_iff_lt, Int32.not_lt]
  rw [fesetround, Call.spec]
  by_cases hvalid : 0 ≤ d ∧ d ≤ 3
  · rw [if_pos hvalid, if_neg (hiff.mp hvalid)]
    dsimp only
    rw [abstraction_write, environment_setRound _ hvalid]
    rfl
  · rw [if_neg hvalid, if_pos (not_not.mp (mt hiff.mpr hvalid))]

theorem named_all : named FE_ALL_EXCEPT = Finset.univ := by
  decide

theorem feholdexcept_spec (p : ℕ) (s : FenvState) :
    (Call.feholdexcept p).spec (abstraction s) =
      ((feholdexcept p s).1, abstraction (feholdexcept p s).2) := by
  have hmask : (0x1F : UInt32) = FE_ALL_EXCEPT &&& 0x1F := by decide
  have hcurrent : ∀ w : UInt32, environment (w &&& ~~~0x1F) = environment w := by
    intro w
    rw [hmask, environment_current]
  rw [feholdexcept, Call.spec]
  dsimp only
  rw [abstraction_write, abstraction_storeEnv, environment_noTraps, hcurrent, environment_clear,
    named_all, Finset.sdiff_eq_empty_iff_subset.mpr (Finset.subset_univ _)]
  rfl

/-- The exceptions that were raised in between are raised again, in the restored environment. -/
theorem feupdateenv_spec (p : EnvPtr) (s : FenvState) :
    (Call.feupdateenv p).spec (abstraction s) =
      ((feupdateenv p s).1, abstraction (feupdateenv p s).2) := by
  have hraised : (abstraction s).current.raised = named (FSR_AEXC s.fsr) := (named_aexc s.fsr).symm
  rw [feupdateenv, Call.spec, hraised]
  dsimp only
  by_cases hnone : FSR_AEXC s.fsr = 0
  · have hempty : named 0 = ∅ := by decide
    rw [if_neg (not_not.mpr hnone), fesetenv_abstraction, hnone, hempty, Finset.union_empty]
  · have hspec := feraiseexcept_spec (FSR_AEXC s.fsr) (fesetenv p s).2
    have hvalid : ValidFlags (FSR_AEXC s.fsr) := aexc_lt s.fsr
    rw [Call.spec, if_pos hvalid, Prod.mk.injEq] at hspec
    rw [if_pos hnone, ← hspec.2, fesetenv_abstraction]
    rfl

/-- Every call answers what the specification says, and does what it says. -/
theorem call_refines : Machine.Refines Call.run Call.spec abstraction := by
  intro c s
  cases c with
  | feclearexcept f => exact feclearexcept_spec f s
  | feraiseexcept f => exact feraiseexcept_spec f s
  | fetestexcept f =>
    rw [Call.spec, Call.run, fetestexcept, ← encode_raised]
    rfl
  | fegetexceptflag p f =>
    rw [Call.spec, Call.run, fegetexceptflag, abstraction_storeFlags, named_and, named_aexc]
    rfl
  | fesetexceptflag p f => exact fesetexceptflag_spec p f s
  | fegetround =>
    rw [Call.spec, Call.run, fegetround, ← code_mode]
    rfl
  | fesetround d => exact fesetround_spec d s
  | fegetenv p =>
    rw [Call.spec, Call.run, fegetenv, abstraction_storeEnv]
    rfl
  | fesetenv p =>
    have hret : (fesetenv p s).1 = 0 := by cases p <;> rfl
    rw [Call.spec, Call.run, hret, fesetenv_abstraction]
  | feholdexcept p => exact feholdexcept_spec p s
  | feupdateenv p => exact feupdateenv_spec p s

def Call.Refused : Call → Prop
  | .feclearexcept f => ¬ ValidFlags f
  | .feraiseexcept f => ¬ ValidFlags f
  | .fesetround d => d < 0 ∨ 3 < d
  | _ => False

theorem run_of_refused {c : Call} (h : c.Refused) (s : FenvState) : c.run s = (-1, s) := by
  cases c with
  | feclearexcept f => exact if_pos fun hzero => h (ValidFlags_iff.mpr hzero)
  | feraiseexcept f => exact if_pos fun hzero => h (ValidFlags_iff.mpr hzero)
  | fesetround d => exact if_pos h
  | _ => exact absurd h id

/-- From every word in the register, every sequence of calls gives the answers of the
specification and ends in a state that it describes; refused calls change no bit. -/
theorem fenv_refines_C99 :
    (∀ (calls : List Call) (s : FenvState),
      Machine.run Call.spec calls (abstraction s) =
        ((Machine.run Call.run calls s).1, abstraction (Machine.run Call.run calls s).2)) ∧
      ∀ (c : Call) (s : FenvState), c.Refused → c.run s = (-1, s) := by
  constructor
  · intro calls s
    exact call_refines.run_eq calls s
  · intro c s h
    exact run_of_refused h s

end Solcompat.Fenv
