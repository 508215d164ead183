import Solcompat.Lib.Polling
import Solcompat.Time.Deadline

/-!
# Timed locks

`rwlock_timed_common` of `process.c` and `sem_timedwait` of `stubs.c`: a try, a look at the
clock, ten milliseconds in `poll`, and again. The try, the clock and the other threads are
not under the control of the code. A deadline need not be normalised.
-/

namespace Solcompat.Time

open Lib Polling

/-- `EAGAIN`, `EBUSY` and `ETIMEDOUT` of Solaris -/
def again : Errno := .system 11
def busy : Errno := .system 16
def timedOut : Errno := .system 145

/-- A try on a lock or a semaphore: no error, or an error and no change. -/
structure Try (σ : Type) where
  run : σ → Option Errno × σ
  still : ∀ s, (run s).1 ≠ none → (run s).2 = s

section Source

variable {σ : Type}

/-- A try that fails because it would block has no result. -/
def attempt (blocked : Errno) (lock : Try σ) (s : σ) : Option (Option Errno) × σ :=
  let (rv, s') := lock.run s
  if rv ≠ some blocked then (some rv, s') else (none, s')

/-- `now.tv_sec > abs_timeout->tv_sec || (... && now.tv_nsec >= abs_timeout->tv_nsec)` -/
def expired (now abs_timeout : Timespec) : Bool :=
  decide (now.tv_sec > abs_timeout.tv_sec) ||
    (now.tv_sec == abs_timeout.tv_sec && decide (now.tv_nsec ≥ abs_timeout.tv_nsec))

/-- The same with a `struct timeval` and `now.tv_usec * 1000L`. -/
def expiredUsec (now : Timeval) (abs_timeout : Timespec) : Bool :=
  decide (now.tv_sec > abs_timeout.tv_sec) ||
    (now.tv_sec == abs_timeout.tv_sec && decide (now.tv_usec * 1000 ≥ abs_timeout.tv_nsec))

def rwlockVerdict (abs_timeout : Timespec) : Except Errno Instant → Option (Option Errno)
  | .error e => some (some e)
  | .ok now => if expired now.toTimespec abs_timeout then some (some timedOut) else none

def semVerdict (abs_timeout : Timespec) (now : SystemTime) : Option (Option Errno) :=
  if expiredUsec now.toTimeval abs_timeout then some (some timedOut) else none

/-- Each round shows what `clock_gettime` answers. The result is the error number, `none` is 0;
there is none after `fuel` rounds without a result. -/
def rwlock_timed_common (abs_timeout : Option Timespec) (try_lock : Try σ)
    (rounds : ℕ → Round σ (Except Errno Instant)) (fuel : ℕ) (s : σ) :
    Option (Outcome σ (Option Errno)) :=
  match abs_timeout with
  | none => some ⟨some .EINVAL, s, 0⟩
  | some t => poll (attempt busy try_lock) (rwlockVerdict t) rounds fuel 0 s

/-- A lock with the two tries of the system. -/
structure Rwlock (σ : Type) where
  tryrdlock : Try σ
  trywrlock : Try σ

def pthread_rwlock_timedrdlock (lock : Rwlock σ) (abs_timeout : Option Timespec)
    (rounds : ℕ → Round σ (Except Errno Instant)) (fuel : ℕ) (s : σ) :
    Option (Outcome σ (Option Errno)) :=
  rwlock_timed_common abs_timeout lock.tryrdlock rounds fuel s

def pthread_rwlock_timedwrlock (lock : Rwlock σ) (abs_timeout : Option Timespec)
    (rounds : ℕ → Round σ (Except Errno Instant)) (fuel : ℕ) (s : σ) :
    Option (Outcome σ (Option Errno)) :=
  rwlock_timed_common abs_timeout lock.trywrlock rounds fuel s

/-- Each round shows what `gettimeofday` stores. The result is `errno` behind -1, `none` is 0. -/
def sem_timedwait (sem_trywait : Try σ) (abs_timeout : Timespec)
    (rounds : ℕ → Round σ SystemTime) (fuel : ℕ) (s : σ) : Option (Outcome σ (Option Errno)) :=
  poll (attempt again sem_trywait) (semVerdict abs_timeout) rounds fuel 0 s

end Source

/-- The time from which on a deadline has expired. Nanoseconds outside of their range count as
the beginning or as the end of the second. -/
def Timespec.reach (t : Timespec) : ℤ :=
  t.tv_sec.toInt * 1000000000 + max 0 (min t.tv_nsec.toInt 1000000000)

theorem expired_iff (now : Instant) (t : Timespec) :
    expired now.toTimespec t = true ↔ t.reach ≤ now.ns := by
  have hnow := now.normalised
  rw [Timespec.Normalised] at hnow
  simp only [expired, Bool.or_eq_true, Bool.and_eq_true, decide_eq_true_iff, beq_iff_eq, gt_iff_lt,
    ge_iff_le, Int32.lt_iff_toInt_lt, Int32.le_iff_toInt_le, ← Int32.toInt_inj, Timespec.reach,
    Timespec.ns]
  omega

theorem expiredUsec_iff (now : SystemTime) (t : Timespec) :
    expiredUsec now.toTimeval t = true ↔ t.reach ≤ 1000 * now.us := by
  have hnow := now.normalised
  rw [Timeval.Normalised] at hnow
  have hfits : Fits32 (now.tv_usec.toInt * (1000 : Int32).toInt) := by
    rw [toInt_thousand, Fits32]
    omega
  simp only [expiredUsec, Bool.or_eq_true, Bool.and_eq_true, decide_eq_true_iff, beq_iff_eq,
    gt_iff_lt, ge_iff_le, Int32.lt_iff_toInt_lt, Int32.le_iff_toInt_le, ← Int32.toInt_inj,
    mul32_of_fits hfits, toInt_thousand, Timespec.reach, Timeval.us]
  omega

/-- What a reading of the clock, in nanoseconds, means for the wait. -/
def due (deadline : ℤ) : Except Errno ℤ → Option (Option Errno)
  | .error e => some (some e)
  | .ok ns => if deadline ≤ ns then some (some timedOut) else none

section Rounds

variable {σ C : Type} {blocked : Errno} {lock : Try σ} {deadline : ℤ}
variable {reading : C → Except Errno ℤ} {verdict : C → Option (Option Errno)}
variable {rounds : ℕ → Round σ C} {s : σ} {fuel : ℕ} {o : Outcome σ (Option Errno)}

/-- Round `i` goes on: the try would block, and the clock is before the deadline. -/
structure Waits (blocked : Errno) (lock : Try σ) (deadline : ℤ) (reading : C → Except Errno ℤ)
    (rounds : ℕ → Round σ C) (s : σ) (i : ℕ) : Prop where
  blocks : (lock.run (met rounds s i)).1 = some blocked
  early : ∃ ns, reading (rounds i).clock = .ok ns ∧ ns < deadline

/-- How round `n` ends the wait. Only a try without error has changed the lock. -/
inductive Ends (blocked : Errno) (lock : Try σ) (deadline : ℤ) (reading : C → Except Errno ℤ)
    (rounds : ℕ → Round σ C) (s : σ) (n : ℕ) : Outcome σ (Option Errno) → Prop
  | acquired (h : (lock.run (met rounds s n)).1 = none) :
    Ends blocked lock deadline reading rounds s n ⟨none, (lock.run (met rounds s n)).2, n + 1⟩
  | failed {e : Errno} (h : (lock.run (met rounds s n)).1 = some e) (he : e ≠ blocked) :
    Ends blocked lock deadline reading rounds s n ⟨some e, met rounds s n, n + 1⟩
  | noClock {e : Errno} (h : (lock.run (met rounds s n)).1 = some blocked)
    (hclock : reading (rounds n).clock = .error e) :
    Ends blocked lock deadline reading rounds s n ⟨some e, met rounds s n, n + 1⟩
  | late {ns : ℤ} (h : (lock.run (met rounds s n)).1 = some blocked)
    (hclock : reading (rounds n).clock = .ok ns) (hlate : deadline ≤ ns) :
    Ends blocked lock deadline reading rounds s n ⟨some timedOut, met rounds s n, n + 1⟩

theorem attempt_of_blocks (h : (lock.run s).1 = some blocked) :
    attempt blocked lock s = (none, s) := by
  have hstill := lock.still s (by simp [h])
  simp [attempt, h, hstill]

theorem attempt_of_ne (h : (lock.run s).1 ≠ some blocked) :
    attempt blocked lock s = (some (lock.run s).1, (lock.run s).2) := by
  simp [attempt, h]

theorem attempt_still (s : σ) (h : (attempt blocked lock s).1 = none) :
    (attempt blocked lock s).2 = s := by
  by_cases hblocks : (lock.run s).1 = some blocked
  · rw [attempt_of_blocks hblocks]
  · rw [attempt_of_ne hblocks] at h
    cases h

theorem found_eq_none_iff (hverdict : ∀ c, verdict c = due deadline (reading c)) (i : ℕ) :
    found (attempt blocked lock) verdict rounds s i = none ↔
      Waits blocked lock deadline reading rounds s i := by
  rw [found, hverdict]
  constructor
  · intro h
    obtain ⟨htry, hdue⟩ := Option.or_eq_none_iff.mp h
    constructor
    · by_contra hne
      rw [attempt_of_ne hne] at htry
      cases htry
    · cases hclock : reading (rounds i).clock with
      | error e =>
        rw [hclock] at hdue
        cases hdue
      | ok ns =>
        rw [hclock, due] at hdue
        split_ifs at hdue with hlate
        exact ⟨ns, rfl, not_le.mp hlate⟩
  · rintro ⟨hblocks, ns, hclock, hearly⟩
    rw [attempt_of_blocks hblocks, hclock, due, if_neg (not_le.mpr hearly)]
    rfl

theorem found_eq_some_iff (hverdict : ∀ c, verdict c = due deadline (reading c)) (n : ℕ) :
    found (attempt blocked lock) verdict rounds s n = some o.result ∧
        o.object = (attempt blocked lock (met rounds s n)).2 ∧ o.rounds = n + 1 ↔
      Ends blocked lock deadline reading rounds s n o := by
  obtain ⟨result, object, count⟩ := o
  rw [found, hverdict]
  constructor
  · rintro ⟨hresult, rfl, rfl⟩
    by_cases hblocks : (lock.run (met rounds s n)).1 = some blocked
    · rw [attempt_of_blocks hblocks] at hresult ⊢
      cases hclock : reading (rounds n).clock with
      | error e =>
        rw [hclock] at hresult
        obtain rfl : some e = result := Option.some.inj hresult
        exact .noClock hblocks hclock
      | ok ns =>
        rw [hclock, Option.none_or, due] at hresult
        split_ifs at hresult with hlate
        obtain rfl : some timedOut = result := Option.some.inj hresult
        exact .late hblocks hclock hlate
    · rw [attempt_of_ne hblocks] at hresult ⊢
      obtain rfl : (lock.run (met rounds s n)).1 = result := Option.some.inj hresult
      cases htry : (lock.run (met rounds s n)).1 with
      | none => exact .acquired htry
      | some e =>
        rw [lock.still _ (by simp [htry])]
        exact .failed htry fun he => hblocks (by rw [htry, he])
  · intro h
    cases h with
    | acquired h =>
      rw [attempt_of_ne (by simp [h]), h]
      exact ⟨rfl, rfl, rfl⟩
    | failed h he =>
      rw [attempt_of_ne (by simp [h, he]), h, lock.still _ (by simp [h])]
      exact ⟨rfl, rfl, rfl⟩
    | noClock h hclock =>
      rw [attempt_of_blocks h, hclock]
      exact ⟨rfl, rfl, rfl⟩
    | late h hclock hlate =>
      rw [attempt_of_blocks h, hclock, due, if_pos hlate]
      exact ⟨rfl, rfl, rfl⟩

theorem poll_timed_iff (hverdict : ∀ c, verdict c = due deadline (reading c)) :
    poll (attempt blocked lock) verdict rounds fuel 0 s = some o ↔
      ∃ n < fuel, (∀ i < n, Waits blocked lock deadline reading rounds s i) ∧
        Ends blocked lock deadline reading rounds s n o := by
  rw [poll_eq_some_iff attempt_still]
  simp only [found_eq_none_iff hverdict, found_eq_some_iff hverdict]

/-- `poll(NULL, 0, 10)`, in nanoseconds -/
def pollStep : ℕ := 10000000

/-- With a clock that advances by ten milliseconds in each round, the wait ends after a bounded
number of rounds. It does not look at the clock later than one round behind the deadline. -/
theorem poll_timed_ends (hverdict : ∀ c, verdict c = due deadline (reading c)) {time : ℕ → ℤ}
    {gap : ℤ}
    (hclock : ∀ i ≤ steps time pollStep deadline, reading (rounds i).clock = .ok (time i))
    (hstep : ∀ i < steps time pollStep deadline, time i + pollStep ≤ time (i + 1))
    (hgap : ∀ i < steps time pollStep deadline, time (i + 1) ≤ time i + gap)
    (hfuel : steps time pollStep deadline < fuel) (s : σ) :
    ∃ n o, poll (attempt blocked lock) verdict rounds fuel 0 s = some o ∧ o.rounds = n + 1 ∧
      n ≤ steps time pollStep deadline ∧ (0 < n → time n < deadline + gap) := by
  have hpassed := deadline_passed (by decide : 0 < pollStep) hstep
  have hend : verdict (rounds (steps time pollStep deadline)).clock ≠ none := by
    rw [hverdict, hclock _ le_rfl, due, if_pos hpassed]
    simp
  obtain ⟨o, ho, hle⟩ := exists_poll attempt_still hfuel hend s
  obtain ⟨n, -, hwaits, hends⟩ := (poll_timed_iff hverdict).mp ho
  have hrounds : o.rounds = n + 1 := by cases hends <;> rfl
  refine ⟨n, o, ho, hrounds, by omega, fun hpos => ?_⟩
  obtain ⟨m, rfl⟩ := Nat.exists_eq_add_of_lt hpos
  obtain ⟨ns, hreading, hearly⟩ := (hwaits (0 + m) (by omega)).early
  rw [hclock _ (by omega)] at hreading
  obtain rfl := Except.ok.inj hreading
  have hnext := hgap (0 + m) (by omega)
  omega

end Rounds

/-- What the clock of `rwlock_timed_common` shows, and what the one of `sem_timedwait` does. -/
def nanoseconds : Except Errno Instant → Except Errno ℤ
  | .error e => .error e
  | .ok now => .ok now.ns

def semNanoseconds (now : SystemTime) : Except Errno ℤ := .ok (1000 * now.us)

theorem rwlockVerdict_eq (t : Timespec) (c : Except Errno Instant) :
    rwlockVerdict t c = due t.reach (nanoseconds c) := by
  cases c with
  | error e => rfl
  | ok now => simp only [rwlockVerdict, nanoseconds, due, expired_iff]

theorem semVerdict_eq (t : Timespec) (now : SystemTime) :
    semVerdict t now = due t.reach (semNanoseconds now) := by
  simp only [semVerdict, semNanoseconds, due, expiredUsec_iff]

section Functions

variable {σ : Type}

/-- The lock is tried before the clock is read, so that a deadline in the past does not keep a
free lock from being taken. `ETIMEDOUT` is returned behind a try that failed, and only when the
clock has reached the deadline; an error leaves the lock to the other threads as they made it. -/
theorem rwlock_timed_common_iff (try_lock : Try σ) (t : Timespec)
    (rounds : ℕ → Round σ (Except Errno Instant)) (fuel : ℕ) (s : σ)
    (o : Outcome σ (Option Errno)) :
    rwlock_timed_common (some t) try_lock rounds fuel s = some o ↔
      ∃ n < fuel, (∀ i < n, Waits busy try_lock t.reach nanoseconds rounds s i) ∧
        Ends busy try_lock t.reach nanoseconds rounds s n o :=
  poll_timed_iff (rwlockVerdict_eq t)

/-- As long as `poll` does not come back early, the number of rounds is bounded by the distance of
the deadline, and the last look at the clock is at most one round late. -/
theorem rwlock_timed_common_returns (try_lock : Try σ) (t : Timespec)
    (rounds : ℕ → Round σ (Except Errno Instant)) (now : ℕ → Instant) (gap : ℤ) (s : σ)
    (hclock : ∀ i ≤ steps (fun i => (now i).ns) pollStep t.reach, (rounds i).clock = .ok (now i))
    (hstep : ∀ i < steps (fun i => (now i).ns) pollStep t.reach,
      (now i).ns + pollStep ≤ (now (i + 1)).ns)
    (hgap : ∀ i < steps (fun i => (now i).ns) pollStep t.reach,
      (now (i + 1)).ns ≤ (now i).ns + gap) :
    ∃ n o, rwlock_timed_common (some t) try_lock rounds
        (steps (fun i => (now i).ns) pollStep t.reach + 1) s = some o ∧ o.rounds = n + 1 ∧
      n ≤ steps (fun i => (now i).ns) pollStep t.reach ∧
        (0 < n → (now n).ns < t.reach + gap) := by
  refine poll_timed_ends (rwlockVerdict_eq t) (fun i hi => ?_) hstep hgap (Nat.lt_succ_self _) s
  rw [hclock i hi]
  rfl

theorem normalised_start : (⟨0, 0⟩ : Timespec).Normalised := by decide

theorem normalised_tick : (⟨0, 10000000⟩ : Timespec).Normalised := by decide

/-- Ten milliseconds behind the first round. -/
def tickingTime (i : ℕ) : Instant :=
  if i = 0 then ⟨_, normalised_start⟩ else ⟨_, normalised_tick⟩

theorem rwlock_timed_common_returns_busy :
    ∃ n o, rwlock_timed_common (some ⟨0, 5000000⟩) ⟨fun s : Unit => (some busy, s), fun _ _ => rfl⟩
        (fun i => ⟨id, .ok (tickingTime i)⟩) 2 () = some o ∧ o.rounds = n + 1 ∧ n ≤ 1 ∧
      (0 < n → (tickingTime n).ns < 5000000 + 10000000) :=
  rwlock_timed_common_returns _ ⟨0, 5000000⟩ _ tickingTime 10000000 () (fun _ _ => rfl)
    (by decide) (by decide)

theorem sem_timedwait_iff (sem_trywait : Try σ) (t : Timespec) (rounds : ℕ → Round σ SystemTime)
    (fuel : ℕ) (s : σ) (o : Outcome σ (Option Errno)) :
    sem_timedwait sem_trywait t rounds fuel s = some o ↔
      ∃ n < fuel, (∀ i < n, Waits again sem_trywait t.reach semNanoseconds rounds s i) ∧
        Ends again sem_trywait t.reach semNanoseconds rounds s n o :=
  poll_timed_iff (semVerdict_eq t)

end Functions

end Solcompat.Time
