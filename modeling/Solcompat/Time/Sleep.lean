import Solcompat.Time.Model

/-!
# `clock_nanosleep`

The model of `clock_nanosleep` of `clock.c`, which sleeps in `select` with a `struct timeval`. The
nanoseconds are divided by 1000 and a remainder is rounded up, but not in the last microsecond of a
second: `tv_usec` would reach a million there, and the code then leaves it as it is.
-/

namespace Solcompat.Time

open Lib

/-- `EINTR` -/
def interrupted : Errno := .system 4

/-- What the calls answer, in their order: the clocks, the time before `select`, `select` itself
and the time after it. -/
structure SleepWorld where
  clocks : System
  tv_start : Timeval
  select : Option Errno
  tv_end : Timeval

/-- The returned error number, the argument of `select` and what is stored at `remain`. -/
structure SleepReply where
  ret : Option Errno
  tv_req : Option Timeval
  remain : Option Timespec

/-- The time from `now` to an absolute request, with the borrow. -/
def difference (request now : Timespec) : Timespec :=
  let tv_sec := request.tv_sec - now.tv_sec
  let tv_nsec := request.tv_nsec - now.tv_nsec
  if tv_nsec < 0 then ⟨tv_sec - 1, tv_nsec + 1000000000⟩ else ⟨tv_sec, tv_nsec⟩

def timeval (req : Timespec) : Timeval :=
  let tv_usec := req.tv_nsec / 1000
  ⟨req.tv_sec, if req.tv_nsec % 1000 ≠ 0 ∧ tv_usec < 999999 then tv_usec + 1 else tv_usec⟩

/-- What is left of the request when `select` was interrupted. -/
def remaining (req : Timespec) (tv_start tv_end : Timeval) : Timespec :=
  let elapsed_us : Int64 := (tv_end.tv_sec - tv_start.tv_sec).toInt64 * 1000000 +
    (tv_end.tv_usec - tv_start.tv_usec).toInt64
  let requested_us : Int64 := req.tv_sec.toInt64 * 1000000 + (req.tv_nsec / 1000).toInt64
  let remain_us := requested_us - elapsed_us
  let remain_us := if remain_us < 0 then 0 else remain_us
  ⟨(remain_us / 1000000).toInt32, (remain_us % 1000000 * 1000).toInt32⟩

def sleep (remain : Bool) (world : SleepWorld) (req : Timespec) : SleepReply :=
  let tv_req := timeval req
  match world.select with
  | some e =>
    { ret := some e
      tv_req := some tv_req
      remain := if remain ∧ e = interrupted then
        some (remaining req world.tv_start world.tv_end) else none }
  | none =>
    { ret := none
      tv_req := some tv_req
      remain := if remain then some ⟨0, 0⟩ else none }

/-- `remain` tells whether the pointer is not `NULL`. -/
def clock_nanosleep (clk_id flags : Int32) (request : Timespec) (remain : Bool)
    (world : SleepWorld) : SleepReply :=
  if flags &&& 1 ≠ 0 then
    match (solcompat_clock_gettime clk_id world.clocks).value with
    | .error e => ⟨some e, none, none⟩
    | .ok now =>
      let req := difference request now
      if req.tv_sec < 0 then ⟨none, none, none⟩ else sleep remain world req
  else sleep remain world request

/-- `select` is asked for at least `ns` nanoseconds, and for less than a microsecond more. -/
def AsksFor (ns : ℤ) (reply : SleepReply) : Prop :=
  ∃ tv, reply.tv_req = some tv ∧ ns ≤ 1000 * tv.us ∧ 1000 * tv.us < ns + 1000

/-- Nanoseconds that need no rounding up, or get it. -/
def Rounds (nsec : ℤ) : Prop := nsec % 1000 = 0 ∨ 0 ≤ nsec ∧ nsec < 999999000

instance (nsec : ℤ) : Decidable (Rounds nsec) := inferInstanceAs (Decidable (_ ∨ _))

theorem sleep_tv_req (remain : Bool) (world : SleepWorld) (req : Timespec) :
    (sleep remain world req).tv_req = some (timeval req) := by
  rw [sleep]
  split <;> rfl

theorem timeval_usec (req : Timespec) :
    (timeval req).tv_usec.toInt = req.tv_nsec.toInt.tdiv 1000 +
      if req.tv_nsec.toInt.tmod 1000 ≠ 0 ∧ req.tv_nsec.toInt.tdiv 1000 < 999999 then 1 else 0 := by
  have hdiv : (req.tv_nsec / 1000).toInt = req.tv_nsec.toInt.tdiv 1000 :=
    div32_of_pos (by decide)
  have hmod : req.tv_nsec % 1000 ≠ 0 ↔ req.tv_nsec.toInt.tmod 1000 ≠ 0 := by
    rw [ne_eq, ← Int32.toInt_inj, Int32.toInt_mod]
    rfl
  have hlast : (999999 : Int32).toInt = 999999 := rfl
  have hlt : req.tv_nsec / 1000 < 999999 ↔ req.tv_nsec.toInt.tdiv 1000 < 999999 := by
    rw [Int32.lt_iff_toInt_lt, hdiv, hlast]
  have husec : (timeval req).tv_usec =
      if req.tv_nsec % 1000 ≠ 0 ∧ req.tv_nsec / 1000 < 999999 then req.tv_nsec / 1000 + 1
      else req.tv_nsec / 1000 :=
    rfl
  rw [husec]
  by_cases h : req.tv_nsec % 1000 ≠ 0 ∧ req.tv_nsec / 1000 < 999999
  · have hone : (1 : Int32).toInt = 1 := rfl
    have hbounds := fits32_toInt (req.tv_nsec / 1000)
    have hadd : Fits32 ((req.tv_nsec / 1000).toInt + (1 : Int32).toInt) := by
      have hsmall := hlt.mp h.2
      rw [hdiv, Fits32] at *
      omega
    rw [if_pos h, if_pos ⟨hmod.mp h.1, hlt.mp h.2⟩, add32_of_fits hadd, hdiv, hone]
  · rw [if_neg h, if_neg fun h' => h ⟨hmod.mpr h'.1, hlt.mpr h'.2⟩, hdiv, add_zero]

theorem asksFor_sleep_iff (remain : Bool) (world : SleepWorld) (req : Timespec) :
    AsksFor req.ns (sleep remain world req) ↔ Rounds req.tv_nsec.toInt := by
  obtain ⟨hsum, hpos, hneg, hlow, hhigh⟩ := tdiv_spec req.tv_nsec.toInt (d := 1000) (by decide)
  have husec := timeval_usec req
  have hsec : (timeval req).tv_sec = req.tv_sec := rfl
  have hasks : AsksFor req.ns (sleep remain world req) ↔
      req.ns ≤ 1000 * (timeval req).us ∧ 1000 * (timeval req).us < req.ns + 1000 := by
    rw [AsksFor, sleep_tv_req]
    simp only [Option.some.injEq, exists_eq_left']
  rw [hasks, Timeval.us, hsec, husec, Timespec.ns, Rounds]
  split_ifs with h <;> omega

theorem ns_lt_timeval (req : Timespec) : req.ns < 1000 * (timeval req).us + 1000 := by
  obtain ⟨hsum, -, -, -, hhigh⟩ := tdiv_spec req.tv_nsec.toInt (d := 1000) (by decide)
  have husec := timeval_usec req
  have hsec : (timeval req).tv_sec = req.tv_sec := rfl
  rw [Timeval.us, hsec, husec, Timespec.ns]
  split_ifs <;> omega

/-- The seconds from `now` to the request, after the borrow. -/
def restSec (request now : Timespec) : ℤ :=
  request.tv_sec.toInt - now.tv_sec.toInt -
    if request.tv_nsec.toInt < now.tv_nsec.toInt then 1 else 0

def restNsec (request now : Timespec) : ℤ :=
  request.tv_nsec.toInt - now.tv_nsec.toInt +
    if request.tv_nsec.toInt < now.tv_nsec.toInt then 1000000000 else 0

/-- The difference is computed without leaving 32 bits, and is not taken for a past time. -/
def DifferenceFits (request now : Timespec) : Prop :=
  0 ≤ restSec request now ∧ restSec request now < 2147483648 ∧
    -2147483648 ≤ request.tv_nsec.toInt - now.tv_nsec.toInt

instance (request now : Timespec) : Decidable (DifferenceFits request now) :=
  inferInstanceAs (Decidable (_ ∧ _))

/-- The nanoseconds are those of the difference, or they wrapped and there was no borrow. -/
theorem difference_cases (request : Timespec) {now : Timespec} (hnow : now.Normalised) :
    (-2147483648 ≤ request.tv_nsec.toInt - now.tv_nsec.toInt ∧
      (difference request now).tv_nsec.toInt = restNsec request now ∧
      ∃ k : ℤ, (difference request now).tv_sec.toInt = restSec request now + 4294967296 * k) ∨
    (request.tv_nsec.toInt - now.tv_nsec.toInt < -2147483648 ∧
      (difference request now).tv_nsec.toInt =
        request.tv_nsec.toInt - now.tv_nsec.toInt + 4294967296 ∧
      ∃ k : ℤ, (difference request now).tv_sec.toInt =
        request.tv_sec.toInt - now.tv_sec.toInt + 4294967296 * k) := by
  rw [Timespec.Normalised] at hnow
  have hone : (1 : Int32).toInt = 1 := rfl
  have hrequest := fits32_toInt request.tv_nsec
  have hdiff := fits32_toInt (request.tv_nsec - now.tv_nsec)
  rw [Fits32] at hrequest hdiff
  obtain ⟨j, hj⟩ := sub32_spec request.tv_nsec now.tv_nsec
  obtain ⟨k, hk⟩ := sub32_spec request.tv_sec now.tv_sec
  by_cases hneg : request.tv_nsec - now.tv_nsec < 0
  · have hlt : (request.tv_nsec - now.tv_nsec).toInt < 0 := Int32.lt_iff_toInt_lt.mp hneg
    have hadd : Fits32 ((request.tv_nsec - now.tv_nsec).toInt + (1000000000 : Int32).toInt) := by
      rw [toInt_billion, Fits32]
      omega
    have hvalue : difference request now =
        ⟨request.tv_sec - now.tv_sec - 1, request.tv_nsec - now.tv_nsec + 1000000000⟩ :=
      if_pos hneg
    obtain ⟨l, hl⟩ := sub32_spec (request.tv_sec - now.tv_sec) 1
    have hbelow : request.tv_nsec.toInt < now.tv_nsec.toInt := by omega
    have hexact : (request.tv_nsec - now.tv_nsec).toInt =
        request.tv_nsec.toInt - now.tv_nsec.toInt := by
      omega
    left
    rw [hvalue, restNsec, restSec, if_pos hbelow, if_pos hbelow]
    dsimp only
    rw [add32_of_fits hadd, toInt_billion]
    exact ⟨by omega, by omega, k + l, by omega⟩
  · have hge : 0 ≤ (request.tv_nsec - now.tv_nsec).toInt := by
      rwa [Int32.lt_iff_toInt_lt, Int32.toInt_zero, not_lt] at hneg
    have hvalue : difference request now =
        ⟨request.tv_sec - now.tv_sec, request.tv_nsec - now.tv_nsec⟩ :=
      if_neg hneg
    rw [hvalue]
    dsimp only
    by_cases hwrap : request.tv_nsec.toInt - now.tv_nsec.toInt < -2147483648
    · right
      exact ⟨hwrap, by omega, k, by omega⟩
    · left
      have habove : ¬ request.tv_nsec.toInt < now.tv_nsec.toInt := by omega
      rw [restNsec, restSec, if_neg habove, if_neg habove]
      exact ⟨by omega, by omega, k, by omega⟩

theorem rest_ns (request now : Timespec) :
    1000000000 * restSec request now + restNsec request now = request.ns - now.ns := by
  rw [Timespec.ns, Timespec.ns, restSec, restNsec]
  split_ifs <;> ring

/-- The difference to a request that is not past: it is taken for a past one, or it is right, or the
nanoseconds wrapped and it is too long. -/
theorem difference_spec {request now : Timespec} (hnow : now.Normalised)
    (hpast : now.ns ≤ request.ns) :
    (difference request now).tv_sec.toInt < 0 ∧ ¬ DifferenceFits request now ∨
      0 ≤ (difference request now).tv_sec.toInt ∧ DifferenceFits request now ∧
        (difference request now).ns = request.ns - now.ns ∧
        (difference request now).tv_nsec.toInt = restNsec request now ∨
      0 ≤ (difference request now).tv_sec.toInt ∧ ¬ DifferenceFits request now ∧
        (difference request now).ns = request.ns - now.ns + 4294967296 := by
  have hsec := fits32_toInt (difference request now).tv_sec
  have hnsec := fits32_toInt (difference request now).tv_nsec
  have hreq := fits32_toInt request.tv_sec
  have hnowSec := fits32_toInt now.tv_sec
  have hns := rest_ns request now
  simp only [Fits32] at hsec hnsec hreq hnowSec
  rw [DifferenceFits]
  rcases difference_cases request hnow with ⟨hlow, hvalue, k, hk⟩ | ⟨hwrap, hvalue, k, hk⟩
  · have hbounds : restSec request now < 4294967296 ∧ -4294967297 ≤ restSec request now := by
      rw [restSec]
      split_ifs <;> omega
    have hdiff : (difference request now).ns =
        1000000000 * (difference request now).tv_sec.toInt + restNsec request now := by
      rw [Timespec.ns, hvalue, mul_comm]
    omega
  · simp only [Timespec.ns] at *
    omega

theorem asksFor_absolute_iff {clk_id flags : Int32} {request now : Timespec} {remain : Bool}
    {world : SleepWorld} (hflags : flags &&& 1 ≠ 0)
    (hnow : (solcompat_clock_gettime clk_id world.clocks).value = .ok now)
    (hpast : now.ns ≤ request.ns) :
    AsksFor (request.ns - now.ns) (clock_nanosleep clk_id flags request remain world) ↔
      DifferenceFits request now ∧ Rounds (restNsec request now) := by
  have hcall : clock_nanosleep clk_id flags request remain world =
      if (difference request now).tv_sec < 0 then ⟨none, none, none⟩
      else sleep remain world (difference request now) := by
    rw [clock_nanosleep, if_pos hflags, hnow]
  have hsleep := asksFor_sleep_iff remain world (difference request now)
  have hlong := ns_lt_timeval (difference request now)
  have hsign : (difference request now).tv_sec < 0 ↔ (difference request now).tv_sec.toInt < 0 := by
    rw [Int32.lt_iff_toInt_lt, Int32.toInt_zero]
  rw [hcall]
  rcases difference_spec (clock_gettime_normalised hnow) hpast with
    ⟨hneg, hno⟩ | ⟨hpos, hfits, hns, hnsec⟩ | ⟨hpos, hno, hns⟩
  · rw [if_pos (hsign.mpr hneg)]
    apply iff_of_false _ fun h => hno h.1
    rintro ⟨tv, htv, -⟩
    cases htv
  · rw [if_neg (mt hsign.mp (not_lt.mpr hpos)), ← hns, hsleep, hnsec]
    exact (and_iff_right hfits).symm
  · rw [if_neg (mt hsign.mp (not_lt.mpr hpos))]
    apply iff_of_false _ fun h => hno h.1
    rintro ⟨tv, htv, -, hless⟩
    rw [sleep_tv_req, Option.some.injEq] at htv
    rw [htv] at hlong
    omega

/-- `select` is asked for the remaining time, rounded up to microseconds, except in the last
microsecond of a second and where the difference of an absolute request does not fit. -/
theorem sleep_long_enough_iff (clk_id flags : Int32) (request : Timespec) (remain : Bool)
    (world : SleepWorld) :
    (flags &&& 1 = 0 → 0 ≤ request.tv_sec.toInt → request.Normalised →
      (AsksFor request.ns (clock_nanosleep clk_id flags request remain world) ↔
        Rounds request.tv_nsec.toInt)) ∧
      ∀ now : Timespec, flags &&& 1 ≠ 0 →
        (solcompat_clock_gettime clk_id world.clocks).value = .ok now → now.ns ≤ request.ns →
        (AsksFor (request.ns - now.ns) (clock_nanosleep clk_id flags request remain world) ↔
          DifferenceFits request now ∧ Rounds (restNsec request now)) := by
  constructor
  · intro hflags _ _
    rw [clock_nanosleep, if_neg (by simp [hflags])]
    exact asksFor_sleep_iff remain world request
  · intro now hflags hnow hpast
    exact asksFor_absolute_iff hflags hnow hpast

theorem fiveSeconds_nonneg : 0 ≤ (5000000000 : Int64).toInt := by
  decide

/-- Five seconds on the monotonic clock, and a `select` that is not interrupted. -/
def restWorld : SleepWorld where
  clocks :=
    { gettimeofday := .error .EINVAL
      gethrtime := 5000000000
      hrtime_nonneg := fiveSeconds_nonneg
      getrusage := .error .EINVAL }
  tv_start := ⟨0, 0⟩
  select := none
  tv_end := ⟨0, 0⟩

/-- The last nanosecond of a second, relative and absolute: `select` is asked for 999 ns less. -/
theorem sleep_too_short :
    ¬ AsksFor (Timespec.ns ⟨0, 999999999⟩) (clock_nanosleep 0 0 ⟨0, 999999999⟩ false restWorld) ∧
      ¬ AsksFor (Timespec.ns ⟨5, 999999999⟩ - Timespec.ns ⟨5, 0⟩)
        (clock_nanosleep 4 1 ⟨5, 999999999⟩ false restWorld) := by
  have hrelative : (clock_nanosleep 0 0 ⟨0, 999999999⟩ false restWorld).tv_req =
      some ⟨0, 999999⟩ := by
    decide
  have habsolute : (clock_nanosleep 4 1 ⟨5, 999999999⟩ false restWorld).tv_req =
      some ⟨0, 999999⟩ := by
    decide
  constructor
  · rintro ⟨tv, htv, hle, -⟩
    rw [hrelative, Option.some.injEq] at htv
    subst htv
    exact absurd hle (by decide)
  · rintro ⟨tv, htv, hle, -⟩
    rw [habsolute, Option.some.injEq] at htv
    subst htv
    exact absurd hle (by decide)

theorem sleep_long_enough_tenth :
    AsksFor (Timespec.ns ⟨0, 100000001⟩)
        (clock_nanosleep 0 0 ⟨0, 100000001⟩ true restWorld) ∧
      AsksFor (Timespec.ns ⟨6, 1⟩ - Timespec.ns ⟨5, 0⟩)
        (clock_nanosleep 4 1 ⟨6, 1⟩ true restWorld) := by
  constructor
  · exact ((sleep_long_enough_iff 0 0 ⟨0, 100000001⟩ true restWorld).1 (by decide) (by decide)
      (by decide)).mpr (by decide)
  · exact ((sleep_long_enough_iff 4 1 ⟨6, 1⟩ true restWorld).2 ⟨5, 0⟩ (by decide) (by decide)
      (by decide)).mpr (by decide)

end Solcompat.Time
