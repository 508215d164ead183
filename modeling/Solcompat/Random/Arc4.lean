import Solcompat.Lib.InPlace
import Solcompat.Random.Model

/-!
# The generator of `arc4random`

The generator seeds itself from `getentropy` when it is first used and after every 1600001
words; between two seeds it mixes its four words, 32 bits each, in place. What the calls of
`getentropy` meet is given in advance, one `Stir` for each of them; when there is none left,
the call is blocked. The seeds taken and the words handed out are logged.
-/

namespace Solcompat.Random

open Solcompat.Lib

abbrev Arc4State := Vector UInt32 4

/-- What one call of `arc4_stir` meets: the answers to its `getentropy`, and what its array
`seed` holds before that. -/
structure Stir where
  answers : Answers
  stack : Memory

inductive Event
  | stirred (stir : Stir) (outcome : Outcome)
  | output (word : UInt32)

structure Generator where
  statics : Statics
  /-- `arc4_state` -/
  state : Arc4State
  /-- `arc4_initialized` -/
  initialized : Bool
  /-- `arc4_count` -/
  count : ℕ
  stirs : List Stir
  log : List Event

def Generator.start (stirs : List Stir) : Generator :=
  ⟨⟨.notProbed, none⟩, Vector.replicate 4 0, false, 0, stirs, []⟩

/-- The word at `4 * i`; the most significant byte is the first. -/
def seedWord (seed : Memory) (i : ℕ) : UInt32 := UInt32.ofNat (seed.number (4 * i) 4)

/-- `memcpy(arc4_state, seed, sizeof(seed))` -/
def loadSeed (seed : Memory) : Arc4State := Vector.ofFn fun i : Fin 4 => seedWord seed i

/-- `arc4_stir`; what `getentropy` returns is not looked at. -/
def arc4Stir (g : Generator) : Option Generator :=
  match g.stirs with
  | [] => none
  | stir :: stirs =>
    (getentropy stir.answers stir.stack 16 g.statics).map fun outcome =>
      { statics := outcome.statics
        state := loadSeed outcome.buffer
        count := 0
        initialized := true
        stirs
        log := g.log ++ [.stirred stir outcome] }

/-- The assignments of `arc4_next`. -/
def arc4Mix (s : Arc4State) : Arc4State :=
  let s := s.set 0 (s[0] + s[1])
  let s := s.set 1 (s[1] <<< 13 ||| s[1] >>> 19)
  let s := s.set 1 (s[1] ^^^ s[0])
  let s := s.set 0 (s[0] <<< 16 ||| s[0] >>> 16)
  let s := s.set 2 (s[2] + s[3])
  let s := s.set 3 (s[3] <<< 17 ||| s[3] >>> 15)
  let s := s.set 3 (s[3] ^^^ s[2])
  let s := s.set 0 (s[0] + s[3])
  s.set 2 (s[2] + s[1])

/-- The generator takes a seed before it mixes. -/
def Generator.due (g : Generator) : Bool := !g.initialized || 1600000 < g.count

/-- `arc4_next` once there is a seed: mix, count, and hand out the first word. -/
def Generator.advance (g : Generator) : Generator :=
  let state := arc4Mix g.state
  { g with state, count := g.count + 1, log := g.log ++ [.output state[0]] }

@[simp] theorem Generator.advance_state (g : Generator) : g.advance.state = arc4Mix g.state := rfl

@[simp] theorem Generator.advance_count (g : Generator) : g.advance.count = g.count + 1 := rfl

@[simp] theorem Generator.advance_initialized (g : Generator) :
    g.advance.initialized = g.initialized := rfl

def arc4Next (g : Generator) : Option (UInt32 × Generator) :=
  (if g.due then arc4Stir g else some g).map fun g => (g.advance.state[0], g.advance)

def arc4random (g : Generator) : Option (UInt32 × Generator) := arc4Next g

def draw : ℕ → Generator → Option Generator
  | 0, g => some g
  | k + 1, g => (arc4Next g).bind fun r => draw k r.2

section Mixing

/-- Each of the nine assignments makes a word out of itself and one other. -/
theorem arc4Mix_eq : arc4Mix =
    assign 2 1 (· + ·) ∘ assign 0 3 (· + ·) ∘ assign 3 2 (· ^^^ ·) ∘
      assign 3 2 (fun a _ => rotate 17 a) ∘ assign 2 3 (· + ·) ∘
      assign 0 1 (fun a _ => rotate 16 a) ∘ assign 1 0 (· ^^^ ·) ∘
      assign 1 0 (fun a _ => rotate 13 a) ∘ assign 0 1 (· + ·) :=
  rfl

theorem arc4Mix_bijective : Function.Bijective arc4Mix := by
  rw [arc4Mix_eq]
  apply (add_assign_bijective (by decide)).comp
  apply (add_assign_bijective (by decide)).comp
  apply (xor_assign_bijective (by decide)).comp
  apply (rotate_assign_bijective (by decide) (by decide) (by decide)).comp
  apply (add_assign_bijective (by decide)).comp
  apply (rotate_assign_bijective (by decide) (by decide) (by decide)).comp
  apply (xor_assign_bijective (by decide)).comp
  apply (rotate_assign_bijective (by decide) (by decide) (by decide)).comp
  exact add_assign_bijective (by decide)

theorem arc4Mix_eq_zero_iff (s : Arc4State) :
    arc4Mix s = Vector.replicate 4 0 ↔ s = Vector.replicate 4 0 := by
  have hzero : arc4Mix (Vector.replicate 4 0) = Vector.replicate 4 0 := by decide
  constructor
  · intro h
    exact arc4Mix_bijective.injective (h.trans hzero.symm)
  · rintro rfl
    exact hzero

theorem bytes_eq_of_loadSeed {seed seed' : Memory} (h : loadSeed seed = loadSeed seed') :
    seed.bytes 0 16 = seed'.bytes 0 16 := by
  have hword : ∀ i, i < 4 → seed.number (4 * i) 4 = seed'.number (4 * i) 4 := by
    intro i hi
    have heq : seedWord seed i = seedWord seed' i := by
      have hget := congrArg (fun s : Arc4State => s[i]) h
      simpa only [loadSeed, Vector.getElem_ofFn] using hget
    have hlt := seed.number_lt (4 * i) 4
    have hlt' := seed'.number_lt (4 * i) 4
    have hnat := congrArg UInt32.toNat heq
    rwa [seedWord, seedWord, UInt32.toNat_ofNat_of_lt' hlt, UInt32.toNat_ofNat_of_lt' hlt'] at hnat
  apply Memory.bytes_congr
  intro x _ hx
  have hin : 4 * (x / 4) ≤ x ∧ x < 4 * (x / 4) + 4 := by omega
  rw [← Memory.putNumber_number seed seed hin, hword (x / 4) (by omega),
    Memory.putNumber_number seed seed' hin]

theorem arc4Next_of_not_due {g : Generator} (h : g.due = false) :
    arc4Next g = some (g.advance.state[0], g.advance) := by
  rw [arc4Next, h]
  rfl

/-- Before the next seed is due, every word moves the state on by one mixing. -/
theorem draw_between {g : Generator} (hinit : g.initialized = true) {k : ℕ}
    (hk : g.count + k ≤ 1600001) :
    (draw k g).map Generator.state = some (arc4Mix^[k] g.state) := by
  induction k generalizing g with
  | zero => rfl
  | succ k ih =>
    have hdue : g.due = false := by
      rw [Generator.due, hinit]
      simp
      omega
    have hnext : g.advance.count + k ≤ 1600001 := by
      rw [Generator.advance_count]
      omega
    rw [draw, arc4Next_of_not_due hdue, Option.bind_some, @ih g.advance hinit hnext,
      Generator.advance_state, Function.iterate_succ_apply]

/-- Between two seeds the state of the generator never collapses. -/
theorem arc4Next_loses_nothing :
    (∀ (g : Generator) (k : ℕ), g.initialized = true → g.count + k ≤ 1600001 →
      (draw k g).map Generator.state = some (arc4Mix^[k] g.state)) ∧
    Function.Bijective arc4Mix ∧
    (∀ (k : ℕ) (seed seed' : Memory), seed.bytes 0 16 ≠ seed'.bytes 0 16 →
      arc4Mix^[k] (loadSeed seed) ≠ arc4Mix^[k] (loadSeed seed')) ∧
    ∀ s : Arc4State, arc4Mix s = Vector.replicate 4 0 ↔ s = Vector.replicate 4 0 := by
  refine ⟨fun g k hinit hk => draw_between hinit hk, arc4Mix_bijective, ?_, arc4Mix_eq_zero_iff⟩
  intro k seed seed' hne heq
  exact hne (bytes_eq_of_loadSeed (arc4Mix_bijective.injective.iterate k heq))

end Mixing

end Solcompat.Random
