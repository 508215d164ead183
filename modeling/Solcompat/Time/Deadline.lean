import Solcompat.Time.Model

/-!
# Monotonic deadlines

The model of `solcompat_pthread_cond_timedwait_monotonic` of `stubs.c`: the distance of the
deadline from the monotonic clock is added to the real-time clock. The distance is computed in
`long long` and narrowed before the addition, so its seconds may leave 32 bits where the sum would
not; the addition then overflows, and comes out right all the same because it wraps.
-/

namespace Solcompat.Time

open Lib

/-- A normalised time. -/
structure Instant extends Timespec where
  normalised : toTimespec.Normalised

/-- How the call ends: without a deadline, without a clock, or in `pthread_cond_timedwait`. -/
inductive Timedwait
  | invalid
  | noClock (e : Errno)
  | waits (abs_realtime : Timespec)

/-- `if (delta_nsec < 0) { delta_nsec += 1000000000L; delta_sec -= 1; }` -/
def borrow (delta_sec : Int64) (delta_nsec : Int32) : Checked (Int64 × Int32) :=
  if delta_nsec < 0 then do
    let delta_nsec ← .add32 delta_nsec 1000000000
    let delta_sec ← .sub64 delta_sec 1
    return (delta_sec, delta_nsec)
  else return (delta_sec, delta_nsec)

def monotonicDelta (deadline now : Timespec) : Checked (Int64 × Int32) := do
  let delta_sec ← .sub64 deadline.tv_sec.toInt64 now.tv_sec.toInt64
  let delta_nsec ← .sub32 deadline.tv_nsec now.tv_nsec
  borrow delta_sec delta_nsec

def advance (now : Timespec) (delta : Int64 × Int32) : Checked Timespec := do
  let tv_sec ← .add32 now.tv_sec delta.1.toInt32
  let tv_nsec ← .add32 now.tv_nsec delta.2
  carry tv_sec tv_nsec

/-- The clocks are those of `clock_gettime`, which another library may replace. -/
def solcompat_pthread_cond_timedwait_monotonic (abs_monotonic_timeout : Option Timespec)
    (realtime monotonic : Except Errno Instant) : Checked Timedwait := do
  match abs_monotonic_timeout, realtime, monotonic with
  | none, _, _ => return .invalid
  | some _, .error e, _ => return .noClock e
  | some _, .ok _, .error e => return .noClock e
  | some deadline, .ok now_realtime, .ok now_monotonic =>
    let delta ← monotonicDelta deadline now_monotonic.toTimespec
    let abs_realtime ← advance now_realtime.toTimespec delta
    return .waits abs_realtime

/-- The seconds of the distance, after the borrow. -/
def deltaSec (deadline monotonic : Instant) : ℤ :=
  deadline.tv_sec.toInt - monotonic.tv_sec.toInt -
    if deadline.tv_nsec.toInt < monotonic.tv_nsec.toInt then 1 else 0

/-- Where the deadline lies on the real-time clock, in nanoseconds. -/
def target (deadline monotonic realtime : Instant) : ℤ :=
  realtime.ns + (deadline.ns - monotonic.ns)

theorem borrow_spec {delta_sec : Int64} {delta_nsec : Int32}
    (hsec : -9223372036854775808 < delta_sec.toInt) (hnsec : delta_nsec.toInt < 1000000000) :
    (borrow delta_sec delta_nsec).exact = true ∧
      (borrow delta_sec delta_nsec).value.1.toInt =
        delta_sec.toInt - (if delta_nsec.toInt < 0 then 1 else 0) ∧
      (borrow delta_sec delta_nsec).value.2.toInt =
        delta_nsec.toInt + 1000000000 * (if delta_nsec.toInt < 0 then 1 else 0) := by
  have hone : (1 : Int64).toInt = 1 := rfl
  have hlow := fits32_toInt delta_nsec
  have hhigh := fits64_toInt delta_sec
  rw [Fits32] at hlow
  rw [Fits64] at hhigh
  by_cases h : delta_nsec < 0
  · have hneg : delta_nsec.toInt < 0 := Int32.lt_iff_toInt_lt.mp h
    have hadd : Fits32 (delta_nsec.toInt + (1000000000 : Int32).toInt) := by
      rw [toInt_billion, Fits32]
      omega
    have hsub : Fits64 (delta_sec.toInt - (1 : Int64).toInt) := by
      rw [hone, Fits64]
      omega
    simp only [borrow, if_pos h, if_pos hneg, Checked.exact_bind, Checked.value_bind,
      Checked.value_add32, Checked.value_sub64, Checked.value_pure, Checked.exact_pure,
      Bool.and_eq_true, Checked.exact_add32, Checked.exact_sub64, Bool.and_true]
    refine ⟨⟨hadd, hsub⟩, ?_, ?_⟩
    · rw [sub64_of_fits hsub, hone]
    · rw [add32_of_fits hadd, toInt_billion, mul_one]
  · have hpos : ¬ delta_nsec.toInt < 0 := by rwa [Int32.lt_iff_toInt_lt, Int32.toInt_zero] at h
    simp only [borrow, if_neg h, if_neg hpos, Checked.value_pure, Checked.exact_pure, sub_zero,
      mul_zero, add_zero, and_self]

/-- The difference of two normalised times does not overflow `long long`. -/
theorem monotonicDelta_spec (deadline monotonic : Instant) :
    (monotonicDelta deadline.toTimespec monotonic.toTimespec).exact = true ∧
      (monotonicDelta deadline.toTimespec monotonic.toTimespec).value.1.toInt =
        deltaSec deadline monotonic ∧
      (monotonicDelta deadline.toTimespec monotonic.toTimespec).value.2.toInt =
        deadline.ns - monotonic.ns - 1000000000 * deltaSec deadline monotonic := by
  have hd := deadline.normalised
  have hm := monotonic.normalised
  have hdsec := fits32_toInt deadline.tv_sec
  have hmsec := fits32_toInt monotonic.tv_sec
  rw [Timespec.Normalised] at hd hm
  rw [Fits32] at hdsec hmsec
  have hsec : Fits64 (deadline.tv_sec.toInt64.toInt - monotonic.tv_sec.toInt64.toInt) := by
    rw [Int32.toInt_toInt64, Int32.toInt_toInt64, Fits64]
    omega
  have hnsec : Fits32 (deadline.tv_nsec.toInt - monotonic.tv_nsec.toInt) := by
    rw [Fits32]
    omega
  have hsecValue := sub64_of_fits hsec
  have hnsecValue := sub32_of_fits hnsec
  rw [Int32.toInt_toInt64, Int32.toInt_toInt64] at hsecValue
  have hexact : (monotonicDelta deadline.toTimespec monotonic.toTimespec).exact =
      (borrow (deadline.tv_sec.toInt64 - monotonic.tv_sec.toInt64)
        (deadline.tv_nsec - monotonic.tv_nsec)).exact := by
    simp only [monotonicDelta, Checked.exact_bind, Checked.value_sub64, Checked.value_sub32,
      (Checked.exact_sub64 _ _).mpr hsec, (Checked.exact_sub32 _ _).mpr hnsec, Bool.true_and]
  have hvalue : (monotonicDelta deadline.toTimespec monotonic.toTimespec).value =
      (borrow (deadline.tv_sec.toInt64 - monotonic.tv_sec.toInt64)
        (deadline.tv_nsec - monotonic.tv_nsec)).value :=
    rfl
  obtain ⟨hok, hfst, hsnd⟩ := borrow_spec
    (by omega : -9223372036854775808 < (deadline.tv_sec.toInt64 - monotonic.tv_sec.toInt64).toInt)
    (by omega : (deadline.tv_nsec - monotonic.tv_nsec).toInt < 1000000000)
  have hsign : deadline.tv_nsec.toInt - monotonic.tv_nsec.toInt < 0 ↔
      deadline.tv_nsec.toInt < monotonic.tv_nsec.toInt := by
    omega
  rw [hsecValue, hnsecValue] at hfst
  rw [hnsecValue] at hsnd
  simp only [hsign] at hfst hsnd
  rw [hexact, hvalue, hfst, hsnd, deltaSec, Timespec.ns, Timespec.ns]
  exact ⟨hok, rfl, by ring⟩

theorem delta_nsec_bounds (deadline monotonic : Instant) :
    0 ≤ deadline.ns - monotonic.ns - 1000000000 * deltaSec deadline monotonic ∧
      deadline.ns - monotonic.ns - 1000000000 * deltaSec deadline monotonic < 1000000000 := by
  have hd := deadline.normalised
  have hm := monotonic.normalised
  rw [Timespec.Normalised] at hd hm
  rw [deltaSec, Timespec.ns, Timespec.ns]
  split_ifs <;> omega

/-- Seconds that add up to a number of the type. Narrowing them first is harmless to the value, but
the sum then overflows where they did not fit. -/
theorem narrowed_sum_exact {a : Int32} {d : Int64} {c : ℤ} (hc : c = 0 ∨ c = 1)
    (hfits : Fits32 (a.toInt + d.toInt + c)) :
    Fits32 (a.toInt + d.toInt32.toInt) ∧ Fits32 ((a + d.toInt32).toInt + c) ↔
      Fits32 d.toInt ∧ -2147483648 ≤ a.toInt + d.toInt := by
  obtain ⟨j, hj⟩ := toInt32_spec d
  have hnarrow := fits32_toInt d.toInt32
  constructor
  · rintro ⟨hfirst, hsecond⟩
    rw [add32_of_fits hfirst] at hsecond
    have hsum : a.toInt + d.toInt32.toInt + c = a.toInt + d.toInt + c :=
      @eq_of_fits32 _ _ j hsecond hfits (by omega)
    have hsame : d.toInt32.toInt = d.toInt := by omega
    rw [hsame] at hfirst hnarrow
    exact ⟨hnarrow, hfirst.1⟩
  · rintro ⟨hdelta, hlow⟩
    have hsame : d.toInt32.toInt = d.toInt := by
      rw [Int64.toInt_toInt32, bmod_of_fits32 hdelta]
    have hfirst : Fits32 (a.toInt + d.toInt32.toInt) := by
      simp only [Fits32] at *
      omega
    rw [add32_of_fits hfirst, hsame]
    rw [hsame] at hfirst
    exact ⟨hfirst, hfits⟩

/-- The sum wraps to the right instant. It overflows where the narrowed seconds of the distance
are not its seconds, and where only the carry brings the seconds back. -/
theorem advance_spec (realtime : Instant) {delta : Int64 × Int32} (hlow : 0 ≤ delta.2.toInt)
    (hhigh : delta.2.toInt < 1000000000)
    (hfits : Fits32 ((realtime.ns + (1000000000 * delta.1.toInt + delta.2.toInt)) / 1000000000)) :
    (advance realtime.toTimespec delta).value.Normalised ∧
      (advance realtime.toTimespec delta).value.ns =
        realtime.ns + (1000000000 * delta.1.toInt + delta.2.toInt) ∧
      ((advance realtime.toTimespec delta).exact = true ↔
        Fits32 delta.1.toInt ∧ -2147483648 ≤ realtime.tv_sec.toInt + delta.1.toInt) := by
  have hr := realtime.normalised
  rw [Timespec.Normalised] at hr
  have hnsec : Fits32 (realtime.tv_nsec.toInt + delta.2.toInt) := by
    rw [Fits32]
    omega
  have hnsecValue := add32_of_fits hnsec
  obtain ⟨c, hc, hnormal, hrest, ⟨k, hk⟩, hcarry⟩ :=
    carry_spec (realtime.tv_sec + delta.1.toInt32)
      (by omega : 0 ≤ (realtime.tv_nsec + delta.2).toInt) (by omega)
  have hexact : (advance realtime.toTimespec delta).exact = true ↔
      Fits32 (realtime.tv_sec.toInt + delta.1.toInt32.toInt) ∧
        Fits32 ((realtime.tv_sec + delta.1.toInt32).toInt + c) := by
    simp only [advance, Checked.exact_bind, Checked.value_add32, Bool.and_eq_true,
      Checked.exact_add32, hnsec, true_and, hcarry]
  have hvalue : (advance realtime.toTimespec delta).value =
      (carry (realtime.tv_sec + delta.1.toInt32) (realtime.tv_nsec + delta.2)).value :=
    rfl
  rw [hexact, hvalue]
  generalize (carry (realtime.tv_sec + delta.1.toInt32) (realtime.tv_nsec + delta.2)).value = t at *
  have hfloor : (realtime.ns + (1000000000 * delta.1.toInt + delta.2.toInt)) / 1000000000 =
      realtime.tv_sec.toInt + delta.1.toInt + c := by
    simp only [Timespec.Normalised, Timespec.ns] at *
    omega
  rw [hfloor] at hfits
  obtain ⟨j, hj⟩ := toInt32_spec delta.1
  obtain ⟨l, hl⟩ := add32_spec realtime.tv_sec delta.1.toInt32
  have hsec : t.tv_sec.toInt = realtime.tv_sec.toInt + delta.1.toInt + c :=
    @eq_of_fits32 _ _ (j + l + k) (fits32_toInt _) hfits (by omega)
  refine ⟨hnormal, ?_, narrowed_sum_exact hc hfits⟩
  simp only [Timespec.ns]
  omega

/-- The call waits for the deadline, as an instant of the real-time clock, and gets there without
overflow. -/
structure Translated (deadline monotonic realtime : Instant) (call : Checked Timedwait) : Prop where
  waits : ∃ t, call.value = .waits t ∧ t.Normalised ∧
    t.ns - realtime.ns = deadline.ns - monotonic.ns
  exact : call.exact = true

/-- The distance has 32-bit seconds, and their sum does without the carry. -/
def NoDetour (deadline monotonic realtime : Instant) : Prop :=
  Fits32 (deltaSec deadline monotonic) ∧
    -2147483648 ≤ realtime.tv_sec.toInt + deltaSec deadline monotonic

instance (deadline monotonic realtime : Instant) :
    Decidable (NoDetour deadline monotonic realtime) :=
  inferInstanceAs (Decidable (_ ∧ _))

theorem timedwait_spec (deadline monotonic realtime : Instant)
    (hfits : Fits32 (target deadline monotonic realtime / 1000000000)) :
    ∃ t, (solcompat_pthread_cond_timedwait_monotonic (some deadline.toTimespec) (.ok realtime)
        (.ok monotonic)).value = .waits t ∧ t.Normalised ∧
      t.ns - realtime.ns = deadline.ns - monotonic.ns ∧
      ((solcompat_pthread_cond_timedwait_monotonic (some deadline.toTimespec) (.ok realtime)
        (.ok monotonic)).exact = true ↔ NoDetour deadline monotonic realtime) := by
  obtain ⟨hexact, hsec, hnsec⟩ := monotonicDelta_spec deadline monotonic
  obtain ⟨hlow, hhigh⟩ := delta_nsec_bounds deadline monotonic
  rw [← hnsec] at hlow hhigh
  have hdelta : 1000000000 * (monotonicDelta deadline.toTimespec monotonic.toTimespec).value.1.toInt
      + (monotonicDelta deadline.toTimespec monotonic.toTimespec).value.2.toInt =
      deadline.ns - monotonic.ns := by
    rw [hnsec, hsec]
    ring
  have hsum := advance_spec realtime hlow hhigh (by rwa [hdelta])
  rw [hdelta, hsec] at hsum
  obtain ⟨hnormal, hns, hiff⟩ := hsum
  refine ⟨_, rfl, hnormal, by omega, ?_⟩
  rw [NoDetour, ← hiff]
  simp only [solcompat_pthread_cond_timedwait_monotonic, Checked.exact_bind, hexact,
    Checked.exact_pure, Bool.and_true, Bool.true_and]

/-- A processor clock that is the exact sum, without overflow. -/
structure ExactSum (ru : Rusage) (clock : Checked (Except Errno Timespec)) : Prop where
  sum : ∃ t, clock.value = .ok t ∧ t.Normalised ∧ t.ns = ru.ns
  exact : clock.exact = true

theorem clock_gettime_cpu {clk_id : Int32} {system : System} {ru : Rusage}
    (hclk : clk_id = 5 ∨ clk_id = 2) (hru : system.getrusage = .ok ru) :
    (solcompat_clock_gettime clk_id system).value = .ok (cpuTime ru).value ∧
      (solcompat_clock_gettime clk_id system).exact = (cpuTime ru).exact := by
  have hzero : clk_id ≠ 0 := by rcases hclk with rfl | rfl <;> decide
  have hfour : clk_id ≠ 4 := by rcases hclk with rfl | rfl <;> decide
  rw [solcompat_clock_gettime, if_neg hzero, if_neg hfour, if_pos hclk, hru]
  simp only [Checked.value_bind, Checked.value_pure, Checked.exact_bind, Checked.exact_pure,
    Bool.and_true, and_self]

theorem exactSum_iff {clk_id : Int32} {system : System} {ru : Rusage}
    (hclk : clk_id = 5 ∨ clk_id = 2) (hru : system.getrusage = .ok ru)
    (hfits : Fits32 (ru.ns / 1000000000)) :
    ExactSum ru (solcompat_clock_gettime clk_id system) ↔
      -2147483648 ≤ ru.ru_utime.tv_sec.toInt + ru.ru_stime.tv_sec.toInt := by
  obtain ⟨hvalue, hexact⟩ := clock_gettime_cpu hclk hru
  obtain ⟨hnormal, hspec⟩ := cpuTime_spec ru
  obtain ⟨hns, hiff⟩ := hspec hfits
  rw [← hiff, ← hexact]
  constructor
  · intro h
    exact h.exact
  · intro h
    exact ⟨⟨_, hvalue, hnormal, hns⟩, h⟩

/-- Both computations are exact where they do not overflow on the way, and the inputs on which
they do are those whose seconds leave their type before the carry, or before the real-time clock
is added. -/
theorem translation_exact_iff (deadline monotonic realtime : Instant) (clk_id : Int32)
    (system : System) (ru : Rusage) :
    (Fits32 (target deadline monotonic realtime / 1000000000) →
      (Translated deadline monotonic realtime
        (solcompat_pthread_cond_timedwait_monotonic (some deadline.toTimespec) (.ok realtime)
          (.ok monotonic)) ↔ NoDetour deadline monotonic realtime)) ∧
      (clk_id = 5 ∨ clk_id = 2 → system.getrusage = .ok ru → Fits32 (ru.ns / 1000000000) →
        (ExactSum ru (solcompat_clock_gettime clk_id system) ↔
          -2147483648 ≤ ru.ru_utime.tv_sec.toInt + ru.ru_stime.tv_sec.toInt)) := by
  constructor
  · intro hfits
    obtain ⟨t, hwaits, hnormal, hns, hiff⟩ := timedwait_spec deadline monotonic realtime hfits
    rw [← hiff]
    constructor
    · intro h
      exact h.exact
    · intro h
      exact ⟨⟨t, hwaits, hnormal, hns⟩, h⟩
  · intro hclk hru hfits
    exact exactSum_iff hclk hru hfits

theorem normalised_seconds (sec : Int32) : Timespec.Normalised ⟨sec, 0⟩ := by
  rw [Timespec.Normalised, Int32.toInt_zero]
  omega

theorem normalised_time (sec : Int32) : Timeval.Normalised ⟨sec, 0⟩ := by
  rw [Timeval.Normalised, Int32.toInt_zero]
  omega

theorem hrtime_zero : 0 ≤ (0 : Int64).toInt := by
  decide

/-- An instant with no nanoseconds. -/
def wholeSeconds (sec : Int32) : Instant := ⟨⟨sec, 0⟩, normalised_seconds sec⟩

/-- A system that knows processor times only, of whole seconds. -/
def cpuSystem (utime stime : Int32) : System where
  gettimeofday := .error .EINVAL
  gethrtime := 0
  hrtime_nonneg := hrtime_zero
  getrusage := .ok ⟨⟨⟨utime, 0⟩, normalised_time utime⟩, ⟨⟨stime, 0⟩, normalised_time stime⟩⟩

/-- The earliest deadline, a second after the monotonic clock started: the distance has one second
more than 32 bits hold, and the sum with the real-time clock overflows. -/
theorem translation_overflows :
    Fits32 (target (wholeSeconds (-2147483648)) (wholeSeconds 1) (wholeSeconds 1000000000) /
        1000000000) ∧
      ¬ Translated (wholeSeconds (-2147483648)) (wholeSeconds 1) (wholeSeconds 1000000000)
        (solcompat_pthread_cond_timedwait_monotonic
          (some (wholeSeconds (-2147483648)).toTimespec) (.ok (wholeSeconds 1000000000))
          (.ok (wholeSeconds 1))) := by
  constructor
  · decide
  · intro h
    exact absurd h.exact (by decide)

/-- A deadline that is past, and three seconds of processor time. -/
theorem translation_exact_past :
    Translated (wholeSeconds 5) (wholeSeconds 60) (wholeSeconds 1000000000)
        (solcompat_pthread_cond_timedwait_monotonic (some (wholeSeconds 5).toTimespec)
          (.ok (wholeSeconds 1000000000)) (.ok (wholeSeconds 60))) ∧
      ExactSum ⟨⟨⟨1, 0⟩, normalised_time 1⟩, ⟨⟨2, 0⟩, normalised_time 2⟩⟩
        (solcompat_clock_gettime 5 (cpuSystem 1 2)) := by
  have h := translation_exact_iff (wholeSeconds 5) (wholeSeconds 60) (wholeSeconds 1000000000) 5
    (cpuSystem 1 2) ⟨⟨⟨1, 0⟩, normalised_time 1⟩, ⟨⟨2, 0⟩, normalised_time 2⟩⟩
  constructor
  · exact (h.1 (by decide)).mpr (by decide)
  · exact (h.2 (Or.inl rfl) rfl (by decide)).mpr (by decide)

end Solcompat.Time
