import Mathlib.Tactic

/-!
# Polling with a deadline

An attempt on a shared object is made again and again. After an attempt without a result
the clock is read, and its verdict may end the poll. Between two rounds other users change
the object. A poll whose clock goes on in steps of a minimal size ends after a number of
rounds that the distance of the deadline bounds.
-/

namespace Solcompat.Lib

/-- What a round meets: what the others have made of the object since the round before, and
what the clock shows. -/
structure Round (σ C : Type) where
  others : σ → σ
  clock : C

/-- How a poll ends: with its result, the object behind it, and the number of its rounds. -/
structure Outcome (σ R : Type) where
  result : R
  object : σ
  rounds : ℕ

namespace Polling

variable {σ C R : Type} (attempt : σ → Option R × σ) (verdict : C → Option R)
variable (rounds : ℕ → Round σ C)

/-- At most `fuel` rounds, from round `i` on. -/
def poll : ℕ → ℕ → σ → Option (Outcome σ R)
  | 0, _, _ => none
  | fuel + 1, i, s =>
    let (result, s') := attempt ((rounds i).others s)
    match result.or (verdict (rounds i).clock) with
    | some result => some ⟨result, s', i + 1⟩
    | none => poll fuel (i + 1) s'

/-- The object that attempt `i` meets, if no attempt before it has changed it. -/
def met (s : σ) : ℕ → σ
  | 0 => (rounds 0).others s
  | i + 1 => (rounds (i + 1)).others (met s i)

/-- What round `i` comes to: the result of its attempt, or else the verdict of the clock. -/
def found (s : σ) (i : ℕ) : Option R :=
  (attempt (met rounds s i)).1.or (verdict (rounds i).clock)

variable {attempt verdict rounds} {s : σ} {o : Outcome σ R}

theorem poll_found {fuel i : ℕ} {s₀ : σ} {result : R}
    (hmet : (rounds i).others s₀ = met rounds s i)
    (hfound : found attempt verdict rounds s i = some result) :
    poll attempt verdict rounds (fuel + 1) i s₀ =
      some ⟨result, (attempt (met rounds s i)).2, i + 1⟩ := by
  unfold found at hfound
  simp only [poll, hmet, hfound]

theorem poll_passes {fuel i : ℕ} {s₀ : σ} (hmet : (rounds i).others s₀ = met rounds s i)
    (hfound : found attempt verdict rounds s i = none) :
    poll attempt verdict rounds (fuel + 1) i s₀ =
      poll attempt verdict rounds fuel (i + 1) (attempt (met rounds s i)).2 := by
  unfold found at hfound
  simp only [poll, hmet, hfound]

/-- From round `i` on, where the object is what the others have made of it. -/
theorem poll_from (hstill : ∀ s, (attempt s).1 = none → (attempt s).2 = s) (fuel i : ℕ) {s₀ : σ}
    (hmet : (rounds i).others s₀ = met rounds s i) :
    poll attempt verdict rounds fuel i s₀ = some o ↔
      ∃ n, i ≤ n ∧ n < i + fuel ∧ (∀ j, i ≤ j → j < n → found attempt verdict rounds s j = none) ∧
        found attempt verdict rounds s n = some o.result ∧
          o.object = (attempt (met rounds s n)).2 ∧ o.rounds = n + 1 := by
  induction fuel generalizing i s₀ with
  | zero =>
    constructor
    · intro h
      cases h
    · rintro ⟨n, hin, hn, -⟩
      omega
  | succ fuel ih =>
    cases hfound : found attempt verdict rounds s i with
    | some result =>
      rw [poll_found hmet hfound]
      constructor
      · intro h
        obtain rfl := Option.some.inj h
        exact ⟨i, le_rfl, by omega, fun j hij hji => absurd hji (by omega), hfound, rfl, rfl⟩
      · rintro ⟨n, hin, -, hpasses, hdecides, hobject, hrounds⟩
        obtain rfl : n = i := by
          by_contra hne
          have hpass := hpasses i le_rfl (by omega)
          rw [hfound] at hpass
          cases hpass
        obtain rfl := Option.some.inj (hfound.symm.trans hdecides)
        rw [← hobject, ← hrounds]
    | none =>
      have hnext : (rounds (i + 1)).others (attempt (met rounds s i)).2 =
          met rounds s (i + 1) := by
        rw [hstill _ (Option.or_eq_none_iff.mp hfound).1]
        rfl
      rw [poll_passes hmet hfound, ih (i + 1) hnext]
      constructor
      · rintro ⟨n, hin, hn, hpasses, hdecides⟩
        refine ⟨n, by omega, by omega, fun j hij hjn => ?_, hdecides⟩
        by_cases hji : j = i
        · rw [hji, hfound]
        · exact hpasses j (by omega) hjn
      · rintro ⟨n, hin, hn, hpasses, hdecides⟩
        have hne : n ≠ i := by
          rintro rfl
          rw [hfound] at hdecides
          cases hdecides.1
        exact ⟨n, by omega, by omega, fun j hij hjn => hpasses j (by omega) hjn, hdecides⟩

theorem poll_eq_some_iff (hstill : ∀ s, (attempt s).1 = none → (attempt s).2 = s) (fuel : ℕ) :
    poll attempt verdict rounds fuel 0 s = some o ↔
      ∃ n < fuel, (∀ i < n, found attempt verdict rounds s i = none) ∧
        found attempt verdict rounds s n = some o.result ∧
          o.object = (attempt (met rounds s n)).2 ∧ o.rounds = n + 1 := by
  rw [poll_from hstill fuel 0 rfl]
  simp

/-- If the clock has a verdict in some round, the poll ends there or before. -/
theorem exists_poll (hstill : ∀ s, (attempt s).1 = none → (attempt s).2 = s) {n fuel : ℕ}
    (hn : n < fuel) (hverdict : verdict (rounds n).clock ≠ none) (s : σ) :
    ∃ o, poll attempt verdict rounds fuel 0 s = some o ∧ o.rounds ≤ n + 1 := by
  have hend : found attempt verdict rounds s n ≠ none :=
    fun h => hverdict (Option.or_eq_none_iff.mp h).2
  have hexists : ∃ m, found attempt verdict rounds s m ≠ none := ⟨n, hend⟩
  classical
  have hfirst := Nat.find_spec hexists
  obtain ⟨result, hresult⟩ := Option.ne_none_iff_exists'.mp hfirst
  have hle : Nat.find hexists ≤ n := Nat.find_min' hexists hend
  refine ⟨⟨result, _, Nat.find hexists + 1⟩, (poll_eq_some_iff hstill fuel).mpr
    ⟨Nat.find hexists, by omega, fun i hi => ?_, hresult, rfl, rfl⟩, by simpa using hle⟩
  exact not_not.mp (Nat.find_min hexists hi)

section Latency

variable {time : ℕ → ℤ} {step : ℕ}

theorem advances {n : ℕ} (hstep : ∀ i < n, time i + step ≤ time (i + 1)) :
    time 0 + n * step ≤ time n := by
  induction n with
  | zero => simp
  | succ n ih =>
    have hbefore := ih fun i hi => hstep i (Nat.lt_succ_of_lt hi)
    have hnext := hstep n (Nat.lt_succ_self n)
    push_cast
    linarith

/-- The steps of the clock from the first reading to the deadline. -/
def steps (time : ℕ → ℤ) (step : ℕ) (deadline : ℤ) : ℕ := (deadline - time 0).toNat / step + 1

/-- A clock that advances by at least `step` has passed the deadline after this many steps. -/
theorem deadline_passed (hpos : 0 < step) {deadline : ℤ}
    (hstep : ∀ i < steps time step deadline, time i + step ≤ time (i + 1)) :
    deadline ≤ time (steps time step deadline) := by
  have hreach := advances hstep
  have hdiv : (deadline - time 0).toNat < step * steps time step deadline :=
    Nat.lt_mul_div_succ _ hpos
  have hle : deadline - time 0 ≤ (steps time step deadline : ℤ) * step := by
    rw [mul_comm]
    exact (Int.self_le_toNat _).trans (by exact_mod_cast hdiv.le)
  linarith

end Latency

end Polling

end Solcompat.Lib
