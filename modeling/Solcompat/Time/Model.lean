import Solcompat.Lib.Checked
import Solcompat.Lib.Memory

/-!
# Times and clocks

`time_t` and `long` have 32 bits, `long long` and `hrtime_t` have 64. What the system reports is
normalised; what callers pass need not be. The clocks of `clock.c` are computed with `Checked`, so
that a result and the absence of overflow on the way to it can both be stated.
-/

namespace Solcompat.Time

open Lib

structure Timespec where
  tv_sec : Int32
  tv_nsec : Int32
  deriving DecidableEq

structure Timeval where
  tv_sec : Int32
  tv_usec : Int32
  deriving DecidableEq

namespace Timespec

def ns (t : Timespec) : ℤ := t.tv_sec.toInt * 1000000000 + t.tv_nsec.toInt

def Normalised (t : Timespec) : Prop := 0 ≤ t.tv_nsec.toInt ∧ t.tv_nsec.toInt < 1000000000

instance (t : Timespec) : Decidable t.Normalised := inferInstanceAs (Decidable (_ ∧ _))

end Timespec

namespace Timeval

def us (t : Timeval) : ℤ := t.tv_sec.toInt * 1000000 + t.tv_usec.toInt

def Normalised (t : Timeval) : Prop := 0 ≤ t.tv_usec.toInt ∧ t.tv_usec.toInt < 1000000

instance (t : Timeval) : Decidable t.Normalised := inferInstanceAs (Decidable (_ ∧ _))

end Timeval

/-- A time of day, or a processor time, as the system reports it. -/
structure SystemTime extends Timeval where
  normalised : toTimeval.Normalised

structure Rusage where
  ru_utime : SystemTime
  ru_stime : SystemTime

/-- What the calls of the system answer when a clock is read. -/
structure System where
  gettimeofday : Except Errno SystemTime
  gethrtime : Int64
  hrtime_nonneg : 0 ≤ gethrtime.toInt
  getrusage : Except Errno Rusage

/-- `if (tv_nsec >= 1000000000L) { tv_sec++; tv_nsec -= 1000000000L; }` -/
def carry (tv_sec tv_nsec : Int32) : Checked Timespec :=
  if tv_nsec ≥ 1000000000 then do
    let tv_sec ← .add32 tv_sec 1
    let tv_nsec ← .sub32 tv_nsec 1000000000
    return ⟨tv_sec, tv_nsec⟩
  else return ⟨tv_sec, tv_nsec⟩

def cpuTime (ru : Rusage) : Checked Timespec := do
  let tv_sec ← .add32 ru.ru_utime.tv_sec ru.ru_stime.tv_sec
  let tv_usec ← .add32 ru.ru_utime.tv_usec ru.ru_stime.tv_usec
  let tv_nsec ← .mul32 tv_usec 1000
  carry tv_sec tv_nsec

/-- `CLOCK_REALTIME`, the microseconds of the day. -/
def timeOfDay (tv : SystemTime) : Checked Timespec := do
  let tv_nsec ← .mul32 tv.tv_usec 1000
  return ⟨tv.tv_sec, tv_nsec⟩

/-- `CLOCK_MONOTONIC`, nanoseconds since an arbitrary time. -/
def highResolution (ns : Int64) : Timespec :=
  ⟨(ns / 1000000000).toInt32, (ns % 1000000000).toInt32⟩

def solcompat_clock_gettime (clk_id : Int32) (system : System) :
    Checked (Except Errno Timespec) := do
  if clk_id = 0 then
    match system.gettimeofday with
    | .error e => return .error e
    | .ok tv => return .ok (← timeOfDay tv)
  else if clk_id = 4 then return .ok (highResolution system.gethrtime)
  else if clk_id = 5 ∨ clk_id = 2 then
    match system.getrusage with
    | .error e => return .error e
    | .ok ru => return .ok (← cpuTime ru)
  else return .error .EINVAL

theorem toInt_billion : (1000000000 : Int32).toInt = 1000000000 := rfl

theorem toInt_thousand : (1000 : Int32).toInt = 1000 := rfl

/-- One second moves, or none; only the seconds can leave their type. -/
theorem carry_spec (tv_sec : Int32) {tv_nsec : Int32} (hlow : 0 ≤ tv_nsec.toInt)
    (hhigh : tv_nsec.toInt < 2000000000) :
    ∃ c : ℤ, (c = 0 ∨ c = 1) ∧ (carry tv_sec tv_nsec).value.Normalised ∧
      (carry tv_sec tv_nsec).value.tv_nsec.toInt = tv_nsec.toInt - 1000000000 * c ∧
      (∃ k : ℤ, (carry tv_sec tv_nsec).value.tv_sec.toInt = tv_sec.toInt + c + 4294967296 * k) ∧
      ((carry tv_sec tv_nsec).exact = true ↔ Fits32 (tv_sec.toInt + c)) := by
  by_cases h : tv_nsec ≥ 1000000000
  · have hfits : Fits32 (tv_nsec.toInt - (1000000000 : Int32).toInt) := by
      rw [toInt_billion, Fits32]
      omega
    have hsub := sub32_of_fits hfits
    have hge := Int32.le_iff_toInt_le.mp h
    rw [toInt_billion] at hsub hge
    refine ⟨1, Or.inr rfl, ?_⟩
    simp only [carry, if_pos h, Checked.value_bind, Checked.value_add32, Checked.value_sub32,
      Checked.value_pure, Checked.exact_bind, Checked.exact_pure, Bool.and_true, Bool.and_eq_true,
      Checked.exact_add32, Checked.exact_sub32, Timespec.Normalised]
    refine ⟨by omega, by omega, add32_spec tv_sec 1, ?_⟩
    exact and_iff_left hfits
  · have hlt := mt Int32.le_iff_toInt_le.mpr h
    rw [toInt_billion] at hlt
    refine ⟨0, Or.inl rfl, ?_⟩
    simp only [carry, if_neg h, Checked.value_pure, Checked.exact_pure, Timespec.Normalised,
      true_iff]
    refine ⟨by omega, by omega, ⟨0, by omega⟩, ?_⟩
    rw [add_zero]
    exact fits32_toInt tv_sec

/-- Neither the sum of the microseconds nor its nanoseconds overflow. -/
theorem cpuTime_usec (ru : Rusage) :
    Fits32 (ru.ru_utime.tv_usec.toInt + ru.ru_stime.tv_usec.toInt) ∧
      Fits32 ((ru.ru_utime.tv_usec + ru.ru_stime.tv_usec).toInt * (1000 : Int32).toInt) ∧
      ((ru.ru_utime.tv_usec + ru.ru_stime.tv_usec) * 1000).toInt =
        1000 * (ru.ru_utime.tv_usec.toInt + ru.ru_stime.tv_usec.toInt) := by
  have hu := ru.ru_utime.normalised
  have hs := ru.ru_stime.normalised
  rw [Timeval.Normalised] at hu hs
  have hsum : Fits32 (ru.ru_utime.tv_usec.toInt + ru.ru_stime.tv_usec.toInt) := by
    rw [Fits32]
    omega
  have hproduct : Fits32
      ((ru.ru_utime.tv_usec + ru.ru_stime.tv_usec).toInt * (1000 : Int32).toInt) := by
    rw [add32_of_fits hsum, toInt_thousand, Fits32]
    omega
  refine ⟨hsum, hproduct, ?_⟩
  rw [mul32_of_fits hproduct, add32_of_fits hsum, toInt_thousand, mul_comm]

/-- The sum of both times, in nanoseconds. -/
def Rusage.ns (ru : Rusage) : ℤ := 1000 * (ru.ru_utime.us + ru.ru_stime.us)

theorem cpuTime_value (ru : Rusage) :
    (cpuTime ru).value = (carry (ru.ru_utime.tv_sec + ru.ru_stime.tv_sec)
      ((ru.ru_utime.tv_usec + ru.ru_stime.tv_usec) * 1000)).value :=
  rfl

theorem cpuTime_exact (ru : Rusage) :
    (cpuTime ru).exact = true ↔
      Fits32 (ru.ru_utime.tv_sec.toInt + ru.ru_stime.tv_sec.toInt) ∧
        (carry (ru.ru_utime.tv_sec + ru.ru_stime.tv_sec)
          ((ru.ru_utime.tv_usec + ru.ru_stime.tv_usec) * 1000)).exact = true := by
  obtain ⟨hsum, hproduct, -⟩ := cpuTime_usec ru
  simp only [cpuTime, Checked.exact_bind, Checked.value_add32, Checked.value_mul32,
    Bool.and_eq_true, Checked.exact_add32, Checked.exact_mul32, hsum, hproduct, true_and]

/-- If the sum fits then the clock is exact, and the seconds overflow only where the carry brings
their sum back into the type. -/
theorem cpuTime_spec (ru : Rusage) :
    (cpuTime ru).value.Normalised ∧
      (Fits32 (ru.ns / 1000000000) → (cpuTime ru).value.ns = ru.ns ∧
        ((cpuTime ru).exact = true ↔
          -2147483648 ≤ ru.ru_utime.tv_sec.toInt + ru.ru_stime.tv_sec.toInt)) := by
  obtain ⟨-, -, husec⟩ := cpuTime_usec ru
  have hu := ru.ru_utime.normalised
  have hs := ru.ru_stime.normalised
  rw [Timeval.Normalised] at hu hs
  obtain ⟨c, hc, hnormal, hnsec, ⟨k, hsec⟩, hexact⟩ :=
    carry_spec (ru.ru_utime.tv_sec + ru.ru_stime.tv_sec)
      (by omega : 0 ≤ ((ru.ru_utime.tv_usec + ru.ru_stime.tv_usec) * 1000).toInt) (by omega)
  rw [cpuTime_exact, hexact, cpuTime_value]
  constructor
  · exact hnormal
  · intro hfits
    obtain ⟨l, hl⟩ := add32_spec ru.ru_utime.tv_sec ru.ru_stime.tv_sec
    have hbounds := fits32_toInt (ru.ru_utime.tv_sec + ru.ru_stime.tv_sec)
    generalize carry (ru.ru_utime.tv_sec + ru.ru_stime.tv_sec)
      ((ru.ru_utime.tv_usec + ru.ru_stime.tv_usec) * 1000) = clock at *
    generalize ru.ru_utime.tv_sec + ru.ru_stime.tv_sec = sum at *
    have hfloor : ru.ns / 1000000000 =
        ru.ru_utime.tv_sec.toInt + ru.ru_stime.tv_sec.toInt + c := by
      simp only [Rusage.ns, Timeval.us, Timespec.Normalised] at *
      omega
    rw [hfloor] at hfits
    have hvalue : clock.value.tv_sec.toInt =
        ru.ru_utime.tv_sec.toInt + ru.ru_stime.tv_sec.toInt + c :=
      @eq_of_fits32 _ _ (l + k) (fits32_toInt _) hfits (by omega)
    constructor
    · simp only [Timespec.ns, Rusage.ns, Timeval.us] at *
      omega
    · simp only [Fits32] at *
      omega

theorem timeOfDay_normalised (tv : SystemTime) : (timeOfDay tv).value.Normalised := by
  have htv := tv.normalised
  rw [Timeval.Normalised] at htv
  have hfits : Fits32 (tv.tv_usec.toInt * (1000 : Int32).toInt) := by
    rw [toInt_thousand, Fits32]
    omega
  have hnsec : (timeOfDay tv).value.tv_nsec = tv.tv_usec * 1000 := rfl
  rw [Timespec.Normalised, hnsec, mul32_of_fits hfits, toInt_thousand]
  omega

theorem highResolution_normalised {ns : Int64} (h : 0 ≤ ns.toInt) :
    (highResolution ns).Normalised := by
  have hbillion : (1000000000 : Int64).toInt = 1000000000 := rfl
  have hrest : (ns % 1000000000).toInt = ns.toInt % 1000000000 := by
    rw [Int64.toInt_mod, hbillion, Int.tmod_eq_emod_of_nonneg h]
  have hfits : Fits32 (ns % 1000000000).toInt := by
    rw [hrest, Fits32]
    omega
  have hnsec : (highResolution ns).tv_nsec = (ns % 1000000000).toInt32 := rfl
  rw [Timespec.Normalised, hnsec, Int64.toInt_toInt32, bmod_of_fits32 hfits, hrest]
  omega

theorem clock_gettime_normalised {clk_id : Int32} {system : System} {now : Timespec}
    (h : (solcompat_clock_gettime clk_id system).value = .ok now) : now.Normalised := by
  unfold solcompat_clock_gettime at h
  split_ifs at h
  · cases hday : system.gettimeofday with
    | error e => simp [hday] at h
    | ok tv =>
      simp only [hday, Checked.value_bind, Checked.value_pure, Except.ok.injEq] at h
      rw [← h]
      exact timeOfDay_normalised tv
  · simp only [Checked.value_pure, Except.ok.injEq] at h
    rw [← h]
    exact highResolution_normalised system.hrtime_nonneg
  · cases husage : system.getrusage with
    | error e => simp [husage] at h
    | ok ru =>
      simp only [husage, Checked.value_bind, Checked.value_pure, Except.ok.injEq] at h
      rw [← h]
      exact (cpuTime_spec ru).1

end Solcompat.Time
