import Solcompat.Wchar.RoundTrip

/-!
# What `c16rtomb` accepts

A unit is ill-formed when it is a low surrogate with nothing pending, or anything but a low
surrogate while a high one is pending. `c16rtomb` reports the first kind only: a high
surrogate replaces a pending one, any other unit is written and leaves the pending one for
a later low surrogate, and a call with a null pointer leaves it too.
-/

namespace Solcompat.Wchar

def illFormed (highPending : Bool) (unit : UInt16) : Bool :=
  if highPending then !isLow unit else isLow unit

def firstIll : Bool → List UInt16 → Option ℕ
  | _, [] => none
  | highPending, unit :: units =>
    if illFormed highPending unit then some 0 else (firstIll (isHigh unit) units).map (· + 1)

section Calls

variable {σ : Type} (L : Libc σ)

def calls : List UInt16 → MbState σ → List (Count × List UInt8)
  | [], _ => []
  | unit :: units, state =>
    let (r, bs, state) := c16rtomb L false unit state
    (r, bs) :: calls units state

/-- The calls before the first ill-formed unit succeed, and the call for it does not. -/
def AcceptsFrom (highPending : Bool) (state : MbState σ) (units : List UInt16) : Prop :=
  match firstIll highPending units with
  | none => ∀ out ∈ calls L units state, out.1 ≠ .error
  | some k =>
    (∀ out ∈ (calls L units state).take k, out.1 ≠ .error) ∧
      ((calls L units state)[k]?).map Prod.fst = some .error

def Accepts (units : List UInt16) : Prop := AcceptsFrom L false L.zeroed units

/-- After a call with a null pointer, the calls behave as from the initial state. -/
def Discards (c16 : UInt16) (state : MbState σ) : Prop :=
  ∀ units, calls L units (c16rtomb L true c16 state).2.2 = calls L units L.zeroed

end Calls

/-- No unit but a low surrogate follows a high one, up to the first lone low surrogate. -/
def HighsFollowed (highPending : Bool) (units : List UInt16) : Prop :=
  ∀ k, firstIll highPending units = some k → (units[k]?).map isLow = some true

/-- The locale has every character, writes it from the initial state to the initial state,
and a null character ends in the initial state. -/
structure Libc.Total {σ : Type} (L : Libc σ) : Prop where
  write : ∀ c : Char, ∃ bs, L.wcrtomb c.val L.initial = (some bs, L.initial)
  reset : ∀ s, ∃ bs, L.wcrtomb 0 s = (some bs, L.initial)

section Step

variable {σ : Type} {L : Libc σ} {unit : UInt16} {raw : UInt8 × UInt8}

theorem exists_char {n : UInt32} (h : n.toNat < 0xD800 ∨ 0xDFFF < n.toNat ∧ n.toNat < 0x110000) :
    ∃ c : Char, c.val = n :=
  ⟨⟨n, h⟩, rfl⟩

/-- A unit that is no surrogate is written, and what is pending stays. -/
theorem c16rtomb_other (hL : L.Total) (hhigh : isHigh unit = false) (hlow : isLow unit = false) :
    ∃ bs, ∀ raw, c16rtomb L false unit ⟨L.initial, raw⟩ =
      (.bytes bs.length, bs, ⟨L.initial, raw⟩) := by
  have hscalar : unit.toNat < 0xD800 ∨ 0xDFFF < unit.toNat ∧ unit.toNat < 0x110000 := by
    have hlt := unit.toNat_lt
    rw [Bool.eq_false_iff, Ne, isHigh_iff] at hhigh
    rw [Bool.eq_false_iff, Ne, isLow_iff] at hlow
    omega
  obtain ⟨c, hc⟩ := exists_char (n := unit.toUInt32) (by rwa [UInt16.toNat_toUInt32])
  obtain ⟨bs, hbs⟩ := hL.write c
  refine ⟨bs, fun raw => ?_⟩
  rw [c16rtomb, hhigh, hlow, ← hc]
  exact writeChar_eq hbs raw

theorem c16rtomb_pair (hL : L.Total) (hlow : isLow unit = true)
    (hhigh : isHigh (pending raw) = true) :
    ∃ bs, c16rtomb L false unit ⟨L.initial, raw⟩ = (.bytes bs.length, bs, L.zeroed) := by
  have htoNat := codepoint_toNat hhigh hlow
  obtain ⟨c, hc⟩ := exists_char (n := (0x10000 : UInt32) +
      ((pending raw - 0xD800).toUInt32 <<< 10) + (unit - 0xDC00).toUInt32) (by
    rw [isHigh_iff] at hhigh
    rw [isLow_iff] at hlow
    omega)
  obtain ⟨bs, hbs⟩ := hL.write c
  refine ⟨bs, ?_⟩
  simp only [c16rtomb, hlow, isHigh_of_isLow hlow, hhigh, ← hc, if_true, Bool.false_eq_true,
    if_false]
  exact writeChar_eq hbs _

theorem c16rtomb_lone (hlow : isLow unit = true) (hhigh : isHigh (pending raw) = false) :
    c16rtomb L false unit ⟨L.initial, raw⟩ = (.error, [], L.zeroed) := by
  simp [c16rtomb, hlow, isHigh_of_isLow hlow, hhigh, Libc.zeroed]

end Step

section Sequences

variable {σ : Type} {L : Libc σ} {raw : UInt8 × UInt8}

theorem acceptsFrom_cons_ill {highPending : Bool} {unit : UInt16} (units : List UInt16)
    (state : MbState σ) (hill : illFormed highPending unit = true) :
    AcceptsFrom L highPending state (unit :: units) ↔
      (c16rtomb L false unit state).1 = .error := by
  simp [AcceptsFrom, firstIll, hill, calls]

theorem acceptsFrom_cons {highPending : Bool} {unit : UInt16} (units : List UInt16)
    {state state' : MbState σ} {n : ℕ} {bs : List UInt8}
    (hill : illFormed highPending unit = false)
    (hcall : c16rtomb L false unit state = (.bytes n, bs, state')) :
    AcceptsFrom L highPending state (unit :: units) ↔ AcceptsFrom L (isHigh unit) state' units := by
  unfold AcceptsFrom
  rw [firstIll, if_neg (by simp [hill]), calls, hcall]
  cases firstIll (isHigh unit) units with
  | none => simp
  | some k => simp

theorem highsFollowed_cons_ill {highPending : Bool} {unit : UInt16} (units : List UInt16)
    (hill : illFormed highPending unit = true) :
    HighsFollowed highPending (unit :: units) ↔ isLow unit = true := by
  simp [HighsFollowed, firstIll, hill]

theorem highsFollowed_cons {highPending : Bool} {unit : UInt16} (units : List UInt16)
    (hill : illFormed highPending unit = false) :
    HighsFollowed highPending (unit :: units) ↔ HighsFollowed (isHigh unit) units := by
  unfold HighsFollowed
  rw [firstIll, if_neg (by simp [hill])]
  cases firstIll (isHigh unit) units with
  | none => simp
  | some k => simp

theorem isHigh_pending_zero : isHigh (pending (0, 0)) = false := by decide

/-- From a state in which at most a high surrogate is pending, the first ill-formed unit is
reported exactly when it is a low surrogate. -/
theorem acceptsFrom_iff (hL : L.Total) (units : List UInt16) (raw : UInt8 × UInt8) :
    AcceptsFrom L (isHigh (pending raw)) ⟨L.initial, raw⟩ units ↔
      HighsFollowed (isHigh (pending raw)) units := by
  induction units generalizing raw with
  | nil => simp [AcceptsFrom, HighsFollowed, firstIll, calls]
  | cons unit units ih =>
    cases hlow : isLow unit with
    | true =>
      have hhigh := isHigh_of_isLow hlow
      cases hpending : isHigh (pending raw) with
      | true =>
        have hill : illFormed true unit = false := by simp [illFormed, hlow]
        obtain ⟨bs, hcall⟩ := c16rtomb_pair hL hlow hpending
        have hrest := ih (0, 0)
        rw [isHigh_pending_zero] at hrest
        rw [acceptsFrom_cons units hill hcall, highsFollowed_cons units hill, hhigh]
        exact hrest
      | false =>
        have hill : illFormed false unit = true := by simp [illFormed, hlow]
        rw [acceptsFrom_cons_ill units _ hill, highsFollowed_cons_ill units hill,
          c16rtomb_lone hlow hpending, hlow]
        simp
    | false =>
      cases hpending : isHigh (pending raw) with
      | true =>
        -- A high surrogate and an ordinary unit are both taken without an error.
        have hill : illFormed true unit = true := by simp [illFormed, hlow]
        rw [acceptsFrom_cons_ill units _ hill, highsFollowed_cons_ill units hill, hlow]
        cases hhigh : isHigh unit with
        | true => simp [c16rtomb_high hhigh]
        | false =>
          obtain ⟨bs, hcall⟩ := c16rtomb_other hL hhigh hlow
          simp [hcall raw]
      | false =>
        have hill : illFormed false unit = false := by simp [illFormed, hlow]
        cases hhigh : isHigh unit with
        | true =>
          have hrest := ih (stash unit)
          rw [pending_stash, hhigh] at hrest
          rw [acceptsFrom_cons units hill (c16rtomb_high hhigh _), highsFollowed_cons units hill,
            hhigh]
          exact hrest
        | false =>
          obtain ⟨bs, hcall⟩ := c16rtomb_other hL hhigh hlow
          have hrest := ih raw
          rw [hpending] at hrest
          rw [acceptsFrom_cons units hill (hcall raw), highsFollowed_cons units hill, hhigh]
          exact hrest

theorem accepts_iff (hL : L.Total) (units : List UInt16) :
    Accepts L units ↔ HighsFollowed false units := by
  have h := acceptsFrom_iff hL units (0, 0)
  rwa [isHigh_pending_zero] at h

/-- What is left in the two bytes does not matter unless it is a high surrogate. -/
theorem calls_congr (hL : L.Total) (units : List UInt16) {raw raw' : UInt8 × UInt8}
    (h : isHigh (pending raw) = false) (h' : isHigh (pending raw') = false) :
    calls L units ⟨L.initial, raw⟩ = calls L units ⟨L.initial, raw'⟩ := by
  induction units generalizing raw raw' with
  | nil => rfl
  | cons unit units ih =>
    unfold calls
    cases hlow : isLow unit with
    | true => rw [c16rtomb_lone hlow h, c16rtomb_lone hlow h']
    | false =>
      cases hhigh : isHigh unit with
      | true => rw [c16rtomb_high hhigh, c16rtomb_high hhigh]
      | false =>
        obtain ⟨bs, hcall⟩ := c16rtomb_other hL hhigh hlow
        rw [hcall, hcall]
        dsimp only
        rw [ih h h']

theorem discards_iff (hL : L.Total) (c16 : UInt16) (state : MbState σ) :
    Discards L c16 state ↔ isHigh (pending state.raw) = false ∨ L.clears = true := by
  obtain ⟨bs, hreset⟩ := hL.reset state.libc
  have hstate : (c16rtomb L true c16 state).2.2 =
      ⟨L.initial, if L.clears then (0, 0) else state.raw⟩ := by
    simp only [c16rtomb, resetChar, writeChar, hreset, if_true]
    cases L.clears <;> rfl
  unfold Discards
  rw [hstate]
  cases hclears : L.clears with
  | true => simp [Libc.zeroed]
  | false =>
    cases hpending : isHigh (pending state.raw) with
    | false =>
      simp only [Bool.false_eq_true, if_false, or_false, iff_true]
      exact fun units => calls_congr hL units hpending isHigh_pending_zero
    | true =>
      simp only [Bool.false_eq_true, Bool.true_eq_false, if_false, or_self, iff_false]
      -- A low surrogate is combined with the one that was to be discarded.
      intro h
      have hlow : isLow 0xDC00 = true := by decide
      obtain ⟨bs, hcall⟩ := c16rtomb_pair hL hlow hpending
      have hunits := h [0xDC00]
      rw [calls, hcall, calls, Libc.zeroed, c16rtomb_lone hlow isHigh_pending_zero] at hunits
      simp at hunits

/-- Exactly when `c16rtomb` accepts the well-formed part of a sequence and reports its end,
and exactly when a call with a null pointer discards what is pending. -/
theorem c16rtomb_well_formed (hL : L.Total) :
    (∀ units, Accepts L units ↔ HighsFollowed false units) ∧
      ∀ c16 state, Discards L c16 state ↔
        isHigh (pending state.raw) = false ∨ L.clears = true :=
  ⟨accepts_iff hL, discards_iff hL⟩

end Sequences

theorem utf8_total : utf8.Total where
  write c := ⟨_, utf8_wcrtomb c⟩
  reset _ := ⟨_, utf8_wcrtomb '\x00'⟩

/-- A well-formed pair, and a lone low surrogate after it. -/
theorem c16rtomb_well_formed_pair :
    Accepts utf8 [0xD800, 0xDC00, 0xDC01] ∧ Discards utf8 0 utf8.zeroed :=
  ⟨((c16rtomb_well_formed utf8_total).1 _).mpr (by unfold HighsFollowed; decide),
    ((c16rtomb_well_formed utf8_total).2 0 _).mpr (.inl (by decide))⟩

/-- The letter after a high surrogate is accepted, and the high surrogate survives a call with
a null pointer. -/
theorem c16rtomb_accepts_unpaired :
    ¬ Accepts utf8 [0xD800, 0x41] ∧ ¬ Discards utf8 0 ⟨(), stash 0xD800⟩ := by
  rw [accepts_iff utf8_total, discards_iff utf8_total]
  constructor
  · intro h
    exact absurd (h 1 (by decide)) (by decide)
  · decide

end Solcompat.Wchar
