import Solcompat.Inet.Model

/-!
# The canonical text of an IPv6 address

RFC 5952: lower-case groups without leading zeros, the first longest run of at
least two zero groups replaced by `::`, no other compression. The detection loop
finds that run and the formatting loop writes that text.
-/

namespace Solcompat.Inet

open Lib Printf

def joinGroups : List ℕ → List UInt8
  | [] => []
  | w :: ws => hexText w ++ ws.flatMap fun v => ch ':' :: hexText v

/-- `l ≥ 2` consecutive zero groups from position `s` on. -/
structure ZeroRun (ws : List ℕ) (s l : ℕ) : Prop where
  fits : s + l ≤ ws.length
  two_le : 2 ≤ l
  zero : ∀ k, s ≤ k → k < s + l → ws.getD k 1 = 0

/-- A zero run that is longer than every other, or as long and not later. -/
structure FirstLongestRun (ws : List ℕ) (s l : ℕ) : Prop where
  run : ZeroRun ws s l
  first : ∀ s' l', ZeroRun ws s' l' → l' < l ∨ l' = l ∧ s ≤ s'

/-- `text` is the RFC 5952 form of the groups `ws`. -/
inductive Canonical (ws : List ℕ) : List UInt8 → Prop
  | plain : (∀ s l, ¬ ZeroRun ws s l) → Canonical ws (joinGroups ws)
  | compressed {s l} : FirstLongestRun ws s l →
      Canonical ws (joinGroups (ws.take s) ++ [ch ':', ch ':'] ++ joinGroups (ws.drop (s + l)))

/-- The two forms of the RFC exclude each other, and the run to compress is determined. -/
theorem Canonical.unique {ws : List ℕ} {t t' : List UInt8} (h : Canonical ws t)
    (h' : Canonical ws t') : t = t' := by
  cases h with
  | plain hfree =>
    cases h' with
    | plain _ => rfl
    | compressed hrun => exact absurd hrun.run (hfree _ _)
  | compressed hrun =>
    cases h' with
    | plain hfree => exact absurd hrun.run (hfree _ _)
    | compressed hrun' =>
      rename_i s l s' l'
      obtain ⟨rfl, rfl⟩ : s = s' ∧ l = l' := by
        have h₁ := hrun.first _ _ hrun'.run
        have h₂ := hrun'.first _ _ hrun.run
        omega
      rfl

/-- `start` and `len` describe the best of the zero runs that end at `e` or before. -/
def BestUpTo (ws : List ℕ) (e : ℕ) (start : ℤ) (len : ℕ) : Prop :=
  (start = -1 ∧ len = 0 ∧ ∀ s l, ZeroRun ws s l → ¬ s + l ≤ e) ∨
  ∃ s : ℕ, start = s ∧ ZeroRun ws s len ∧ s + len ≤ e ∧
    ∀ s' l', ZeroRun ws s' l' → s' + l' ≤ e → l' < len ∨ l' = len ∧ s ≤ s'

namespace Runs

/-- The state after reading `i` groups: the open run is the maximal block of zeros
that ends there, and the best run is chosen among those before it. -/
structure Scanned (ws : List ℕ) (i : ℕ) (r : Runs) : Prop where
  open_le : r.curLen ≤ i
  start : r.curStart = if r.curLen = 0 then -1 else ((i - r.curLen : ℕ) : ℤ)
  zeros : ∀ k, i - r.curLen ≤ k → k < i → ws.getD k 1 = 0
  maximal : r.curLen < i → ws.getD (i - r.curLen - 1) 1 ≠ 0
  best : BestUpTo ws (i - r.curLen) r.bestStart r.bestLen

theorem scanned_initial (ws : List ℕ) : initial.Scanned ws 0 where
  open_le := le_rfl
  start := rfl
  zeros := fun k _ hk => absurd hk (by omega)
  maximal := fun h => absurd h (by simp [initial])
  best := Or.inl ⟨rfl, rfl, fun s l h hle => by have := h.two_le; omega⟩

variable {ws : List ℕ} {i : ℕ} {r : Runs}

theorem Scanned.start_of_reaches (h : r.Scanned ws i) {s l : ℕ} (hrun : ZeroRun ws s l)
    (hlt : ¬ s + l ≤ i - r.curLen) : i - r.curLen ≤ s := by
  by_contra hs
  exact h.maximal (by omega) (hrun.zero (i - r.curLen - 1) (by omega) (by omega))

theorem Scanned.close (h : r.Scanned ws i) (hi : i ≤ ws.length) :
    BestUpTo ws i r.close.bestStart r.close.bestLen := by
  have hopen := h.open_le
  unfold Runs.close
  split_ifs with hc
  · -- the open run is strictly longer than every run before it
    have hstart := h.start
    rw [if_neg (by omega)] at hstart
    refine Or.inr ⟨i - r.curLen, hstart, ⟨?_, hc.2, ?_⟩, ?_, ?_⟩
    · change i - r.curLen + r.curLen ≤ ws.length
      omega
    · change ∀ k, i - r.curLen ≤ k → k < i - r.curLen + r.curLen → ws.getD k 1 = 0
      intro k h₁ h₂
      exact h.zeros k h₁ (by omega)
    · change i - r.curLen + r.curLen ≤ i
      omega
    · change ∀ s l, ZeroRun ws s l → s + l ≤ i → l < r.curLen ∨ l = r.curLen ∧ i - r.curLen ≤ s
      intro s l hrun hle
      by_cases hbefore : s + l ≤ i - r.curLen
      · rcases h.best with ⟨_, _, hnone⟩ | ⟨t, _, _, _, hfirst⟩
        · exact absurd hbefore (hnone s l hrun)
        · have := hfirst s l hrun hbefore
          omega
      · have := h.start_of_reaches hrun hbefore
        omega
  · -- every run inside the open block is at most as long as the best one before it
    rcases h.best with ⟨h₁, h₂, hnone⟩ | ⟨t, h₁, h₂, h₃, hfirst⟩
    · refine Or.inl ⟨h₁, h₂, ?_⟩
      intro s l hrun hle
      have hbefore := hnone s l hrun
      have := h.start_of_reaches hrun hbefore
      have := hrun.two_le
      omega
    · refine Or.inr ⟨t, h₁, h₂, by omega, ?_⟩
      intro s l hrun hle
      by_cases hbefore : s + l ≤ i - r.curLen
      · exact hfirst s l hrun hbefore
      · have := h.start_of_reaches hrun hbefore
        have := hrun.two_le
        omega

theorem Scanned.scan_zero (h : r.Scanned ws i) (hw : ws.getD i 1 = 0) :
    (r.scan i 0).Scanned ws (i + 1) := by
  have hopen := h.open_le
  have hstart := h.start
  rw [Runs.scan, if_pos rfl]
  refine ⟨Nat.succ_le_succ hopen, ?_, ?_, ?_, ?_⟩
  · change (if r.curStart < 0 then (i : ℤ) else r.curStart) =
      if r.curLen + 1 = 0 then -1 else ((i + 1 - (r.curLen + 1) : ℕ) : ℤ)
    rw [if_neg (Nat.succ_ne_zero _)]
    split_ifs at hstart with hzero <;> split_ifs <;> omega
  · change ∀ k, i + 1 - (r.curLen + 1) ≤ k → k < i + 1 → ws.getD k 1 = 0
    intro k h₁ h₂
    by_cases hk : k = i
    · rw [hk, hw]
    · exact h.zeros k (by omega) (by omega)
  · change r.curLen + 1 < i + 1 → ws.getD (i + 1 - (r.curLen + 1) - 1) 1 ≠ 0
    intro hlt
    rw [show i + 1 - (r.curLen + 1) - 1 = i - r.curLen - 1 by omega]
    exact h.maximal (by omega)
  · change BestUpTo ws (i + 1 - (r.curLen + 1)) r.bestStart r.bestLen
    rw [show i + 1 - (r.curLen + 1) = i - r.curLen by omega]
    exact h.best

theorem Scanned.scan_nonzero (h : r.Scanned ws i) (hi : i < ws.length) {w : ℕ} (hw : w ≠ 0)
    (hat : ws.getD i 1 = w) : (r.scan i w).Scanned ws (i + 1) := by
  have hend : ∀ s l, ZeroRun ws s l → s + l ≤ i + 1 → s + l ≤ i := by
    intro s l hrun hle
    by_contra hgt
    have := hrun.two_le
    exact hw (hat.symm.trans (hrun.zero i (by omega) (by omega)))
  rw [Runs.scan, if_neg hw]
  refine ⟨Nat.zero_le _, rfl, ?_, ?_, ?_⟩
  · change ∀ k, i + 1 ≤ k → k < i + 1 → ws.getD k 1 = 0
    intro k h₁ h₂
    omega
  · intro _
    exact fun hz => hw (hat.symm.trans hz)
  · change BestUpTo ws (i + 1) r.close.bestStart r.close.bestLen
    rcases h.close hi.le with ⟨h₁, h₂, hnone⟩ | ⟨t, h₁, h₂, h₃, hfirst⟩
    · exact Or.inl ⟨h₁, h₂, fun s l hrun hle => hnone s l hrun (hend s l hrun hle)⟩
    · exact Or.inr ⟨t, h₁, h₂, by omega,
        fun s l hrun hle => hfirst s l hrun (hend s l hrun hle)⟩

theorem Scanned.scanFrom (rest : List ℕ) :
    ∀ {i : ℕ} {r : Runs}, i ≤ ws.length → r.Scanned ws i → ws.drop i = rest →
      BestUpTo ws ws.length (r.scanFrom i rest).bestStart (r.scanFrom i rest).bestLen := by
  induction rest with
  | nil =>
    intro i r hle h hdrop
    obtain rfl : i = ws.length := le_antisymm hle (List.drop_eq_nil_iff.mp hdrop)
    exact h.close le_rfl
  | cons w rest ih =>
    intro i r hle h hdrop
    have hlt : i < ws.length := by
      by_contra hge
      rw [List.drop_eq_nil_of_le (by omega)] at hdrop
      simp at hdrop
    have hat : ws.getD i 1 = w := by
      have : ws[i]? = some w := by rw [← List.head?_drop, hdrop]; rfl
      simp [List.getD, this]
    have hnext : ws.drop (i + 1) = rest := by
      rw [← List.tail_drop, hdrop]
      rfl
    rw [Runs.scanFrom]
    by_cases hw : w = 0
    · subst hw
      exact ih hlt (h.scan_zero hat) hnext
    · exact ih hlt (h.scan_nonzero hlt hw hat) hnext

end Runs

/-- The run that `inet_ntop` compresses, in terms of the specification. -/
theorem scanFrom_spec (ws : List ℕ) :
    let best := Runs.initial.scanFrom 0 ws
    (best.bestStart = -1 ∧ ∀ s l, ¬ ZeroRun ws s l) ∨
      ∃ s : ℕ, best.bestStart = s ∧ FirstLongestRun ws s best.bestLen := by
  rcases (Runs.scanned_initial ws).scanFrom ws (Nat.zero_le _) rfl with
    ⟨h₁, _, hnone⟩ | ⟨s, h₁, h₂, _, hfirst⟩
  · exact Or.inl ⟨h₁, fun s l hrun => hnone s l hrun hrun.fits⟩
  · exact Or.inr ⟨s, h₁, h₂, fun s' l' hrun => hfirst s' l' hrun hrun.fits⟩

end Solcompat.Inet
