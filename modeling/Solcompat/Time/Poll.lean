import Solcompat.Time.Model

/-!
# `ppoll` and `pselect`

The model of `poll.c`: the timeout is converted, and the signal mask is set around the call. The
milliseconds of `ppoll` are computed in 32 bits. They wrap for long timeouts, a negative result is
taken for a timeout of zero, and what is left of a millisecond is cut off; `pselect` cuts off what
is left of a microsecond.
-/

namespace Solcompat.Time

open Lib

/-- The calls of the system, with the arguments that are computed here. -/
inductive PollCall (Mask : Type)
  | setMask (sigmask : Mask)
  | poll (timeout_ms : Int32)
  | select (timeout : Option Timeval)
  | restoreMask

/-- `(int)(tmo_p->tv_sec * 1000 + tmo_p->tv_nsec / 1000000)` -/
def milliseconds (tmo : Timespec) : Int32 := tmo.tv_sec * 1000 + tmo.tv_nsec / 1000000

def timeoutMs : Option Timespec → Int32
  | none => -1
  | some tmo =>
    let timeout_ms := milliseconds tmo
    if timeout_ms < 0 then 0 else timeout_ms

/-- A call with the mask set around it, if there is one. -/
def masked {Mask : Type} (sigmask : Option Mask) (call : PollCall Mask) : List (PollCall Mask) :=
  match sigmask with
  | none => [call]
  | some mask => [.setMask mask, call, .restoreMask]

def ppoll {Mask : Type} (tmo_p : Option Timespec) (sigmask : Option Mask) : List (PollCall Mask) :=
  masked sigmask (.poll (timeoutMs tmo_p))

/-- The argument of `select`. -/
def selectTimeout (timeout : Timespec) : Timeval := ⟨timeout.tv_sec, timeout.tv_nsec / 1000⟩

def pselect {Mask : Type} (timeout : Option Timespec) (sigmask : Option Mask) :
    List (PollCall Mask) :=
  masked sigmask (.select (timeout.map selectTimeout))

def PollCall.timeoutMs? {Mask : Type} : PollCall Mask → Option Int32
  | .poll timeout_ms => some timeout_ms
  | _ => none

def PollCall.timeval? {Mask : Type} : PollCall Mask → Option Timeval
  | .select timeout => timeout
  | _ => none

/-- `poll` is called for at least the timeout, or for the longest that there is. -/
def PollsLong {Mask : Type} (tmo : Timespec) (calls : List (PollCall Mask)) : Prop :=
  ∃ timeout_ms : Int32, calls.filterMap PollCall.timeoutMs? = [timeout_ms] ∧
    0 ≤ timeout_ms.toInt ∧
    (tmo.ns ≤ 1000000 * timeout_ms.toInt ∨ timeout_ms.toInt = 2147483647)

/-- `select` is called for at least the timeout. -/
def SelectsLong {Mask : Type} (tmo : Timespec) (calls : List (PollCall Mask)) : Prop :=
  ∃ tv : Timeval, calls.filterMap PollCall.timeval? = [tv] ∧ tv.Normalised ∧
    tmo.ns ≤ 1000 * tv.us

theorem ppoll_timeout {Mask : Type} (tmo_p : Option Timespec) (sigmask : Option Mask) :
    (ppoll tmo_p sigmask).filterMap PollCall.timeoutMs? = [timeoutMs tmo_p] := by
  cases sigmask <;> rfl

theorem pselect_timeout {Mask : Type} (tmo : Timespec) (sigmask : Option Mask) :
    (pselect (some tmo) sigmask).filterMap PollCall.timeval? = [selectTimeout tmo] := by
  cases sigmask <;> rfl

/-- The milliseconds of a timeout, without what is left of one. -/
def wholeMs (tmo : Timespec) : ℤ := 1000 * tmo.tv_sec.toInt + tmo.tv_nsec.toInt / 1000000

theorem milliseconds_spec {tmo : Timespec} (h : 0 ≤ tmo.tv_nsec.toInt) :
    ∃ k : ℤ, (milliseconds tmo).toInt = wholeMs tmo + 4294967296 * k := by
  have hdiv : (tmo.tv_nsec / 1000000).toInt = tmo.tv_nsec.toInt / 1000000 := by
    have hmillion : (1000000 : Int32).toInt = 1000000 := rfl
    rw [div32_of_pos (by decide), hmillion, Int.tdiv_eq_ediv_of_nonneg h]
  obtain ⟨k, hk⟩ := mul32_spec tmo.tv_sec 1000
  obtain ⟨l, hl⟩ := add32_spec (tmo.tv_sec * 1000) (tmo.tv_nsec / 1000000)
  rw [toInt_thousand] at hk
  rw [milliseconds, hl, hk, hdiv, wholeMs]
  exact ⟨k + l, by ring⟩

theorem timeoutMs_toInt (tmo : Timespec) :
    (timeoutMs (some tmo)).toInt = max 0 (milliseconds tmo).toInt := by
  have hvalue : timeoutMs (some tmo) = if milliseconds tmo < 0 then 0 else milliseconds tmo := rfl
  rw [hvalue]
  by_cases h : milliseconds tmo < 0
  · have hneg : (milliseconds tmo).toInt < 0 := Int32.lt_iff_toInt_lt.mp h
    rw [if_pos h, Int32.toInt_zero, max_eq_left hneg.le]
  · rw [if_neg h]
    rw [Int32.lt_iff_toInt_lt, Int32.toInt_zero, not_lt] at h
    rw [max_eq_right h]

/-- Nothing is cut off, or the longest timeout comes out. -/
def MsFit (tmo : Timespec) : Prop :=
  tmo.tv_nsec.toInt % 1000000 = 0 ∧ wholeMs tmo ≤ 2147483647 ∨
    wholeMs tmo % 4294967296 = 2147483647

instance (tmo : Timespec) : Decidable (MsFit tmo) := inferInstanceAs (Decidable (_ ∨ _))

theorem pollsLong_iff {Mask : Type} {tmo : Timespec} (hsec : 0 ≤ tmo.tv_sec.toInt)
    (hnormal : tmo.Normalised) (sigmask : Option Mask) :
    PollsLong tmo (ppoll (some tmo) sigmask) ↔ MsFit tmo := by
  have hpolls : PollsLong tmo (ppoll (some tmo) sigmask) ↔
      0 ≤ (timeoutMs (some tmo)).toInt ∧ (tmo.ns ≤ 1000000 * (timeoutMs (some tmo)).toInt ∨
        (timeoutMs (some tmo)).toInt = 2147483647) := by
    simp only [PollsLong, ppoll_timeout, List.cons.injEq, and_true, exists_eq_left']
  rw [Timespec.Normalised] at hnormal
  obtain ⟨k, hk⟩ := milliseconds_spec hnormal.1
  have hbounds := fits32_toInt (milliseconds tmo)
  rw [Fits32] at hbounds
  have hwhole : 0 ≤ wholeMs tmo := by
    rw [wholeMs]
    omega
  have hns : tmo.ns = 1000000 * wholeMs tmo + tmo.tv_nsec.toInt % 1000000 := by
    rw [wholeMs, Timespec.ns]
    omega
  rw [hpolls, timeoutMs_toInt, MsFit]
  omega

theorem selectTimeout_usec {tmo : Timespec} (h : 0 ≤ tmo.tv_nsec.toInt) :
    (selectTimeout tmo).tv_usec.toInt = tmo.tv_nsec.toInt / 1000 := by
  have husec : (selectTimeout tmo).tv_usec = tmo.tv_nsec / 1000 := rfl
  rw [husec, div32_of_pos (by decide), toInt_thousand, Int.tdiv_eq_ediv_of_nonneg h]

theorem selectTimeout_normalised {tmo : Timespec} (h : tmo.Normalised) :
    (selectTimeout tmo).Normalised := by
  rw [Timespec.Normalised] at h
  rw [Timeval.Normalised, selectTimeout_usec h.1]
  omega

theorem selectsLong_iff {Mask : Type} {tmo : Timespec} (hnormal : tmo.Normalised)
    (sigmask : Option Mask) :
    SelectsLong tmo (pselect (some tmo) sigmask) ↔ tmo.tv_nsec.toInt % 1000 = 0 := by
  have hselects : SelectsLong tmo (pselect (some tmo) sigmask) ↔
      (selectTimeout tmo).Normalised ∧ tmo.ns ≤ 1000 * (selectTimeout tmo).us := by
    simp only [SelectsLong, pselect_timeout, List.cons.injEq, and_true, exists_eq_left']
  have hsec : (selectTimeout tmo).tv_sec = tmo.tv_sec := rfl
  rw [hselects, and_iff_right (selectTimeout_normalised hnormal), Timeval.us, hsec,
    selectTimeout_usec hnormal.1, Timespec.ns]
  omega

/-- Which timeouts are not cut short: for `ppoll` whole milliseconds that 31 bits hold, for
`pselect` whole microseconds. -/
theorem poll_long_enough_iff {Mask : Type} (tmo : Timespec) (sigmask : Option Mask)
    (hsec : 0 ≤ tmo.tv_sec.toInt) (hnormal : tmo.Normalised) :
    (PollsLong tmo (ppoll (some tmo) sigmask) ↔ MsFit tmo) ∧
      (SelectsLong tmo (pselect (some tmo) sigmask) ↔ tmo.tv_nsec.toInt % 1000 = 0) := by
  constructor
  · exact pollsLong_iff hsec hnormal sigmask
  · exact selectsLong_iff hnormal sigmask

/-- A timeout of 25 days is polled for nothing at all, and one of a nanosecond is not waited for. -/
theorem poll_gives_up :
    ¬ PollsLong ⟨2160000, 0⟩ (ppoll (some ⟨2160000, 0⟩) (none : Option Unit)) ∧
      ¬ SelectsLong ⟨0, 1⟩ (pselect (some ⟨0, 1⟩) (none : Option Unit)) := by
  constructor
  · rintro ⟨timeout_ms, hcalls, -, hlong⟩
    have hvalue : timeoutMs (some ⟨2160000, 0⟩) = 0 := by decide
    rw [ppoll_timeout, hvalue, List.cons.injEq] at hcalls
    rw [← hcalls.1] at hlong
    exact absurd hlong (by decide)
  · rintro ⟨tv, hcalls, -, hlong⟩
    have hvalue : selectTimeout ⟨0, 1⟩ = ⟨0, 0⟩ := by decide
    rw [pselect_timeout, hvalue, List.cons.injEq] at hcalls
    rw [← hcalls.1] at hlong
    exact absurd hlong (by decide)

theorem poll_long_enough_second :
    PollsLong ⟨1, 500000000⟩ (ppoll (some ⟨1, 500000000⟩) (some ())) ∧
      SelectsLong ⟨1, 500000000⟩ (pselect (some ⟨1, 500000000⟩) (some ())) := by
  have h := poll_long_enough_iff ⟨1, 500000000⟩ (some ()) (by decide) (by decide)
  exact ⟨h.1.mpr (by decide), h.2.mpr (by decide)⟩

end Solcompat.Time
