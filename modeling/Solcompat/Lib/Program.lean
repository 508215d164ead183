import Mathlib.Logic.Basic
import Mathlib.Tactic

/-!
# Sequential programs among others

A program is a tree of actions: after each action it goes on with the answer it got.
`Runs` are the paths through the tree, with the answers and the result, and `exec` is the
path that a state takes through it.
`Accepted` says that every path through the tree is a word of an automaton. `Sound` is
the weakest precondition of a program that other programs may interrupt between any two
of its actions: it fixes what the others may change (`rely`), what may be taken for
granted when an action is made (`given`), and what has to hold then (`ok`).
-/

namespace Solcompat.Lib

inductive Program (Act : Type) (Answer : Act → Type) (R : Type) where
  | done (result : R)
  | act (a : Act) (next : Answer a → Program Act Answer R)

namespace Program

variable {Act : Type} {Answer : Act → Type} {R S : Type}

def bind : Program Act Answer R → (R → Program Act Answer S) → Program Act Answer S
  | done result, f => f result
  | act a next, f => act a fun x => (next x).bind f

instance : Monad (Program Act Answer) where
  pure := done
  bind := bind

/-- The program that makes one action and returns its answer. -/
def perform (a : Act) : Program Act Answer (Answer a) := act a done

section Runs

/-- The program may make the actions of the list, get these answers and end with `s`. -/
def Runs : Program Act Answer R → List ((a : Act) × Answer a) → R → Prop
  | done result, trace, s => trace = [] ∧ s = result
  | act a next, trace, s => ∃ x rest, trace = ⟨a, x⟩ :: rest ∧ (next x).Runs rest s

variable {trace : List ((a : Act) × Answer a)} {s : S}

theorem runs_perform_bind {a : Act} {f : Answer a → Program Act Answer S} :
    (perform a >>= f).Runs trace s ↔ ∃ x rest, trace = ⟨a, x⟩ :: rest ∧ (f x).Runs rest s :=
  Iff.rfl

theorem runs_bind (p : Program Act Answer R) (f : R → Program Act Answer S) :
    (p >>= f).Runs trace s ↔
      ∃ before x after, trace = before ++ after ∧ p.Runs before x ∧ (f x).Runs after s := by
  induction p generalizing trace with
  | done result =>
    constructor
    · exact fun h => ⟨[], result, trace, rfl, ⟨rfl, rfl⟩, h⟩
    · rintro ⟨before, x, after, rfl, ⟨rfl, rfl⟩, h⟩
      exact h
  | act a next ih =>
    constructor
    · rintro ⟨x, rest, rfl, h⟩
      obtain ⟨before, y, after, rfl, hnext, hf⟩ := (ih x).mp h
      exact ⟨⟨a, x⟩ :: before, y, after, rfl, ⟨x, before, rfl, hnext⟩, hf⟩
    · rintro ⟨before, y, after, rfl, ⟨x, rest, rfl, hnext⟩, hf⟩
      exact ⟨x, rest ++ after, rfl, (ih x).mpr ⟨rest, y, after, rfl, hnext, hf⟩⟩

end Runs

section Execution

variable {σ : Type} (step : σ → (a : Act) → Option (Answer a × σ))

/-- The program alone, with a surrounding that has one answer to each action in each state;
`none` when an action blocks. -/
def exec : Program Act Answer R → σ → Option (R × σ)
  | done result, s => some (result, s)
  | act a next, s => (step s a).bind fun answer => (next answer.1).exec answer.2

variable {step} {s s' : σ}

theorem exec_perform_bind {a : Act} {x : Answer a} (f : Answer a → Program Act Answer S)
    (h : step s a = some (x, s')) : (perform a >>= f).exec step s = (f x).exec step s' := by
  change (step s a).bind _ = _
  rw [h]
  rfl

theorem exec_bind (p : Program Act Answer R) (f : R → Program Act Answer S) :
    (p >>= f).exec step s =
      (p.exec step s).bind fun answer => (f answer.1).exec step answer.2 := by
  induction p generalizing s with
  | done result => rfl
  | act a next ih =>
    change (step s a).bind _ = ((step s a).bind _).bind _
    rw [Option.bind_assoc]
    exact congrArg _ (funext fun answer => ih answer.1)

end Execution

section Automaton

variable {Q : Type} (next? : Q → Act → Option Q)

/-- From state `q` every action of the program has a transition, and every result is
returned in a state that `final` allows. -/
def Accepted (final : R → Q → Prop) : Program Act Answer R → Q → Prop
  | done result, q => final result q
  | act a next, q => ∃ q', next? q a = some q' ∧ ∀ x, (next x).Accepted final q'

variable {next?} {final : S → Q → Prop} {q : Q}

theorem accepted_perform_bind {a : Act} {f : Answer a → Program Act Answer S} (q' : Q)
    (hq : next? q a = some q') (hf : ∀ x, (f x).Accepted next? final q') :
    (perform a >>= f).Accepted next? final q :=
  ⟨q', hq, hf⟩

theorem accepted_bind (p : Program Act Answer R) (f : R → Program Act Answer S) :
    (p >>= f).Accepted next? final q ↔
      p.Accepted next? (fun result q' => (f result).Accepted next? final q') q := by
  induction p generalizing q with
  | done result => exact Iff.rfl
  | act a next ih =>
    constructor
    · rintro ⟨q', hq', h⟩
      exact ⟨q', hq', fun x => (ih x).mp (h x)⟩
    · rintro ⟨q', hq', h⟩
      exact ⟨q', hq', fun x => (ih x).mpr (h x)⟩

end Automaton

section Interference

/-- The surroundings of a program whose state, shared and private, is a `σ`. -/
structure Surroundings (Act : Type) (Answer : Act → Type) (σ : Type) where
  rely : σ → σ → Prop
  given : σ → Act → Prop
  ok : σ → Act → Prop
  sem : σ → (a : Act) → Answer a → σ → Prop

variable {σ : Type} (env : Surroundings Act Answer σ)

/-- Whatever the others do in between, each action is made where it is `ok`, and a result
is returned in a state that `post` allows. -/
def Sound (post : R → σ → Prop) : Program Act Answer R → σ → Prop
  | done result, s => post result s
  | act a next, s => ∀ s', env.rely s s' → env.given s' a →
      env.ok s' a ∧ ∀ x s'', env.sem s' a x s'' → (next x).Sound post s''

variable {env} {s : σ}

theorem sound_bind {post : S → σ → Prop} (p : Program Act Answer R)
    (f : R → Program Act Answer S) :
    (p >>= f).Sound env post s ↔
      p.Sound env (fun result s' => (f result).Sound env post s') s := by
  induction p generalizing s with
  | done result => exact Iff.rfl
  | act a next ih =>
    constructor
    · intro h s' hrely hgiven
      exact ⟨(h s' hrely hgiven).1, fun x s'' hsem =>
        (ih x).mp ((h s' hrely hgiven).2 x s'' hsem)⟩
    · intro h s' hrely hgiven
      exact ⟨(h s' hrely hgiven).1, fun x s'' hsem =>
        (ih x).mpr ((h s' hrely hgiven).2 x s'' hsem)⟩

/-- Steps of the others do not matter when the result does not depend on them. -/
theorem Sound.rely {post : R → σ → Prop} {p : Program Act Answer R} {s' : σ}
    (h : p.Sound env post s) (hrely : env.rely s s')
    (htrans : ∀ s₁ s₂ s₃, env.rely s₁ s₂ → env.rely s₂ s₃ → env.rely s₁ s₃)
    (hstable : ∀ result s₁ s₂, env.rely s₁ s₂ → post result s₁ → post result s₂) :
    p.Sound env post s' := by
  cases p with
  | done result => exact hstable result s s' hrely h
  | act a next => exact fun s'' hrely' hgiven => h s'' (htrans s s' s'' hrely hrely') hgiven

end Interference

end Program

end Solcompat.Lib
