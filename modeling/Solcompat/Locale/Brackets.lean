import Solcompat.Locale.Model

/-!
# Temporary switches of the locale

A program switches with `old = uselocale(loc)` and back with `uselocale(old)`, and such
brackets nest. The first `uselocale` of a process returns `LC_GLOBAL_LOCALE`, and passing
this back only asks, so that the first bracket leaves its own locale in force. Every later
bracket restores the locale of the handle that was in use before it.
-/

namespace Solcompat.Locale

open Solcompat.Lib

/-- A sequence of brackets: the handle of the first one, what happens inside, and the rest. -/
inductive Brackets
  | done
  | bracket (loc : ℕ) (inner rest : Brackets)

namespace Brackets

variable {Loc : Type} (setlocale : CString → Option Loc)

def handles : Brackets → List ℕ
  | done => []
  | bracket loc inner rest => loc :: (inner.handles ++ rest.handles)

def run : Brackets → Process Loc → Process Loc
  | done, p => p
  | bracket loc inner rest, p =>
    let (old, p) := uselocale setlocale (.ref loc) p
    let p := inner.run p
    let (_, p) := uselocale setlocale old p
    rest.run p

/-- The locales in force after the outermost closing calls. -/
def closings : Brackets → Process Loc → List Loc
  | done, _ => []
  | bracket loc inner rest, p =>
    let (old, p) := uselocale setlocale (.ref loc) p
    let p := run setlocale inner p
    let (_, p) := uselocale setlocale old p
    p.locale :: rest.closings p

/-- Every closing call, at any depth, restores the locale in force before its opening call. -/
def Restores : Brackets → Process Loc → Prop
  | done, _ => True
  | bracket loc inner rest, p =>
    let (old, p₁) := uselocale setlocale (.ref loc) p
    let p₂ := run setlocale inner p₁
    let (_, p₃) := uselocale setlocale old p₂
    inner.Restores p₁ ∧ p₃.locale = p.locale ∧ rest.Restores p₃

/-- The handle in use once the first bracket is closed. -/
def base (brackets : Brackets) (p : Process Loc) : Option ℕ :=
  match brackets with
  | done => none
  | bracket loc _ _ => some (p.current.getD loc)

end Brackets

/-- The handle was issued and its name is that of the locale. -/
def Names {Loc : Type} (setlocale : CString → Option Loc) (p : Process Loc) (h : ℕ) (l : Loc) :
    Prop :=
  (p.names[h]?).bind setlocale = some l

section Runs

variable {Loc : Type} {setlocale : CString → Option Loc} {p : Process Loc} {h : ℕ} {l : Loc}

/-- The state inside a bracket for `loc`. -/
def Process.inside (p : Process Loc) (loc : ℕ) (l : Loc) : Process Loc :=
  { p with locale := l, current := some loc }

theorem uselocale_ref (hnames : Names setlocale p h l) :
    uselocale setlocale (.ref h) p = (p.old, p.inside h l) := by
  rw [uselocale, hnames]
  rfl

theorem uselocale_back (hcurrent : p.current = some h) (hnames : Names setlocale p h l)
    (loc : ℕ) (l' : Loc) :
    uselocale setlocale p.old (p.inside loc l') = (.ref loc, { p with locale := l }) := by
  have hback : Names setlocale (p.inside loc l') h l := hnames
  rw [Process.old, hcurrent, uselocale_ref hback, Process.inside, Process.inside, ← hcurrent]
  rfl

/-- With a handle in use that names the locale in force, brackets restore the whole state. -/
theorem restores_of_synced (b : Brackets) (hcurrent : p.current = some h)
    (hsynced : Names setlocale p h p.locale)
    (hb : ∀ loc ∈ b.handles, ∃ l, Names setlocale p loc l) :
    b.run setlocale p = p ∧ b.Restores setlocale p ∧
      ∀ l ∈ b.closings setlocale p, l = p.locale := by
  induction b generalizing p h with
  | done => exact ⟨rfl, trivial, by simp [Brackets.closings]⟩
  | bracket loc inner rest ihinner ihrest =>
    obtain ⟨l, hloc⟩ := hb loc (by simp [Brackets.handles])
    obtain ⟨hrun, hinner, -⟩ := ihinner (p := p.inside loc l) rfl hloc
      fun loc' hloc' => hb loc' (by simp [Brackets.handles, hloc'])
    obtain ⟨hrun', hrest, hclosings⟩ := ihrest hcurrent hsynced
      fun loc' hloc' => hb loc' (by simp [Brackets.handles, hloc'])
    have hback := uselocale_back hcurrent hsynced loc l
    refine ⟨?_, ?_, ?_⟩
    · simp only [Brackets.run, uselocale_ref hloc, hrun, hback, hrun']
    · simp only [Brackets.Restores, uselocale_ref hloc, hrun, hback]
      exact ⟨hinner, trivial, hrest⟩
    · simpa only [Brackets.closings, uselocale_ref hloc, hrun, hback, List.forall_mem_cons,
        true_and] using hclosings

/-- What one outermost bracket does from any state: the handle in use afterwards is the one in
use before, or that of the bracket if there was none, and it names the locale in force. -/
theorem close_eq {loc : ℕ} {inner rest : Brackets} {l' : Loc}
    (hb : ∀ loc' ∈ (Brackets.bracket loc inner rest).handles, ∃ l, Names setlocale p loc' l)
    (hbase : Names setlocale p (p.current.getD loc) l') :
    ∃ l, Names setlocale p loc l ∧ inner.run setlocale (p.inside loc l) = p.inside loc l ∧
      inner.Restores setlocale (p.inside loc l) ∧
      (uselocale setlocale p.old (p.inside loc l)).2 = p.inside (p.current.getD loc) l' := by
  obtain ⟨l, hloc⟩ := hb loc (by simp [Brackets.handles])
  obtain ⟨hrun, hinner, -⟩ := restores_of_synced (p := p.inside loc l) inner rfl hloc
    fun loc' hloc' => hb loc' (by simp [Brackets.handles, hloc'])
  refine ⟨l, hloc, hrun, hinner, ?_⟩
  cases hcurrent : p.current with
  | none =>
    rw [hcurrent] at hbase
    have hsame : l = l' := Option.some.inj (hloc.symm.trans hbase)
    rw [Process.old, hcurrent, hsame]
    rfl
  | some h =>
    rw [hcurrent] at hbase
    rw [uselocale_back hcurrent hbase, Process.inside, Option.getD_some, ← hcurrent]

/-- The brackets of a process restore its locale, the outermost and the inner ones, exactly when
the handle that is in use after the first of them names that locale. -/
theorem brackets_restore_iff (p : Process Loc) (brackets : Brackets)
    (hcurrent : ∀ h, p.current = some h → ∃ l, Names setlocale p h l)
    (hb : ∀ loc ∈ brackets.handles, ∃ l, Names setlocale p loc l) :
    (∀ l ∈ brackets.closings setlocale p, l = p.locale) ∧ brackets.Restores setlocale p ↔
      ∀ h, brackets.base p = some h → Names setlocale p h p.locale := by
  cases brackets with
  | done => simp [Brackets.closings, Brackets.Restores, Brackets.base]
  | bracket loc inner rest =>
    obtain ⟨l', hbase⟩ : ∃ l', Names setlocale p (p.current.getD loc) l' := by
      cases h : p.current with
      | none => exact hb loc (by simp [Brackets.handles])
      | some h' => exact hcurrent h' h
    obtain ⟨l, hloc, hrun, hinner, hclose⟩ := close_eq hb hbase
    have hiff : (∀ h, (Brackets.bracket loc inner rest).base p = some h →
        Names setlocale p h p.locale) ↔ l' = p.locale := by
      simp only [Brackets.base, Option.some.injEq, forall_eq']
      exact ⟨fun h => Option.some.inj (hbase.symm.trans h), fun h => h ▸ hbase⟩
    rw [hiff]
    simp only [Brackets.closings, Brackets.Restores, uselocale_ref hloc, hrun, hclose,
      List.forall_mem_cons]
    constructor
    · exact fun h => h.1.1
    · intro hl
      obtain ⟨-, hrest, hclosings⟩ := restores_of_synced
        (p := p.inside (p.current.getD loc) l') rest rfl hbase
        fun loc' hloc' => hb loc' (by simp [Brackets.handles, hloc'])
      exact ⟨⟨hl, fun l'' hl'' => (hclosings l'' hl'').trans hl⟩, hinner, hl, hrest⟩

end Runs

/-- A process in the locale `fr` with one handle, for `C`. -/
def french : Process CString where
  names := [CString.ofString "C"]
  frees _ := 0
  current := none
  locale := CString.ofString "fr"

/-- Switching to `C` and back leaves `C` in force. -/
theorem french_not_restored :
    ¬ ((∀ l ∈ (Brackets.bracket 0 .done .done).closings some french, l = french.locale) ∧
      (Brackets.bracket 0 .done .done).Restores some french) := by
  intro h
  exact absurd (h.1 (CString.ofString "C") (by decide)) (by decide)

/-- In the locale `C` the same bracket, and one inside it, restore the locale. -/
theorem brackets_restore_C :
    (∀ l ∈ (Brackets.bracket 0 (.bracket 0 .done .done) .done).closings some
        { french with locale := CString.ofString "C" }, l = CString.ofString "C") ∧
      (Brackets.bracket 0 (.bracket 0 .done .done) .done).Restores some
        { french with locale := CString.ofString "C" } :=
  (brackets_restore_iff { french with locale := CString.ofString "C" } _ (by simp [french])
    (by simp [Brackets.handles, Names, french])).mpr (by simp [Brackets.base, Names, french])

end Solcompat.Locale
