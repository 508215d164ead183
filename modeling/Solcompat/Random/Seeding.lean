import Solcompat.Random.Strong
import Solcompat.Random.Uniform

/-!
# The seeds of the generator

The log of a run falls into blocks, each of them one seed and the words made from it. The
generator relies on `getentropy`, but `arc4_stir` does not look at what it returns: the
blocks are what they should be exactly in those runs in which it does not fail.
-/

namespace Solcompat.Random

open Solcompat.Lib

def wordBytes (val : UInt32) : List UInt8 :=
  [(val >>> 24).toUInt8, (val >>> 16).toUInt8, (val >>> 8).toUInt8, val.toUInt8]

def arc4randomBuf : ℕ → Memory → ℕ → Generator → Option (Memory × Generator)
  | 0, buf, _, g => some (buf, g)
  | nbytes + 4, buf, p, g =>
    (arc4random g).bind fun (val, g) =>
      arc4randomBuf nbytes (buf.putBytes p (wordBytes val)) (p + 4) g
  | nbytes, buf, p, g =>
    (arc4random g).map fun (val, g) => (buf.putBytes p ((wordBytes val).take nbytes), g)

inductive Arc4Call
  | random
  | buffer (nbytes : ℕ) (buf : Memory)
  /-- `rounds` is a bound on the rounds of the loop. -/
  | uniform (upperBound : UInt32) (rounds : ℕ)

def Arc4Call.perform (g : Generator) : Arc4Call → Option Generator
  | .random => (arc4random g).map Prod.snd
  | .buffer nbytes buf => (arc4randomBuf nbytes buf 0 g).map Prod.snd
  | .uniform upperBound rounds => (arc4randomUniform arc4random rounds upperBound g).map Prod.snd

/-- The generator after the calls; none when a call does not return. A call that is blocked has
drawn as many words as so many calls of `arc4random`. -/
def runArc4 : List Arc4Call → Generator → Option Generator
  | [], g => some g
  | call :: calls, g => (call.perform g).bind (runArc4 calls)

/-- The bytes are those that the source delivered to this call, or by consent those of the weak
generator. -/
def Written (answers : Answers) (len : ℕ) (out : Outcome) : Prop :=
  out.buffer.bytes 0 len = delivered out.deliveries ∨
    answers.allowWeak = true ∧ ∃ state, out.buffer.bytes 0 len = (fallbackLoop len state).1

/-- A seed, and how many words were made from it. -/
structure Block where
  stir : Stir
  outcome : Outcome
  words : ℕ

def Block.stateAt (b : Block) (k : ℕ) : Arc4State := arc4Mix^[k] (loadSeed b.outcome.buffer)

def Block.events (b : Block) : List Event :=
  .stirred b.stir b.outcome ::
    (List.range b.words).map fun k => .output (b.stateAt (k + 1)).head

/-- A seed that a call of `getentropy` wrote and returned 0, and no more words than it is good
for. -/
structure Block.Sound (b : Block) : Prop where
  called : ∃ statics, getentropy b.stir.answers b.stir.stack 16 statics = some b.outcome
  ret_eq : b.outcome.ret = 0
  written : Written b.stir.answers 16 b.outcome
  words_le : b.words ≤ 1600001

/-- All words so far were made from entropy, and so is the state. -/
def Entropic (g : Generator) : Prop :=
  ∃ blocks : List Block, g.log = blocks.flatMap Block.events ∧ (∀ b ∈ blocks, b.Sound) ∧
    (g.initialized = true → ∃ front b, blocks = front ++ [b] ∧
      g.state = b.stateAt b.words ∧ g.count = b.words)

/-- Every call of `getentropy` so far returned 0. -/
def NeverFailed (g : Generator) : Prop :=
  ∀ stir outcome, .stirred stir outcome ∈ g.log → outcome.ret = 0

section Getentropy

theorem length_fallbackLoop (len : ℕ) (state : UInt32) :
    (fallbackLoop len state).1.length = len := by
  induction len generalizing state with
  | zero => rfl
  | succ len ih =>
    rw [fallbackLoop]
    dsimp only
    rw [List.length_cons, ih]

theorem getentropy_written {answers : Answers} {buffer : Memory} {len : ℕ} {statics : Statics}
    {out : Outcome} (h : getentropy answers buffer len statics = some out) (hret : out.ret = 0) :
    Written answers len out := by
  unfold getentropy at h
  split_ifs at h
  · obtain rfl := Option.some.inj h
    exact absurd (show (-1 : ℤ) = 0 from hret) (by decide)
  · obtain ⟨⟨source, t⟩, hbytes, rfl⟩ := Option.map_eq_some_iff.mp h
    obtain ⟨chosen, -, hmap⟩ := Option.bind_eq_some_iff.mp hbytes
    obtain ⟨t', hread, heq⟩ := Option.map_eq_some_iff.mp hmap
    obtain ⟨rfl, rfl⟩ := Prod.mk.inj heq
    dsimp only at hret ⊢
    split_ifs at hret ⊢ with hok hweak
    · left
      have hfilled := (readSource_filled hread hok).2
      have hbytes := Memory.bytes_putBytes buffer 0 (delivered t'.deliveries)
      rwa [← hfilled.buffer_eq, hfilled.length_eq] at hbytes
    · right
      refine ⟨hweak, statics.lcg.getD answers.seed, ?_⟩
      have hbytes := Memory.bytes_putBytes t'.buffer 0
        (fallbackLoop len (statics.lcg.getD answers.seed)).1
      rwa [length_fallbackLoop] at hbytes
    · exact absurd (show (-1 : ℤ) = 0 from hret) (by decide)

end Getentropy

section Calls

variable {I : Generator → Prop}

/-- What `arc4_next` keeps is kept by all that draws its words from it. -/
theorem arc4randomBuf_keeps (hnext : ∀ g r g', I g → arc4Next g = some (r, g') → I g') (nbytes : ℕ)
    {buf buf' : Memory} {p : ℕ} {g g' : Generator} (hg : I g)
    (h : arc4randomBuf nbytes buf p g = some (buf', g')) : I g' := by
  induction nbytes, buf, p, g using arc4randomBuf.induct with
  | case1 buf p g =>
    obtain ⟨rfl, rfl⟩ := Prod.mk.inj (Option.some.inj h)
    exact hg
  | case2 nbytes buf p g ih =>
    rw [arc4randomBuf] at h
    obtain ⟨⟨val, g₁⟩, hdraw, hrest⟩ := Option.bind_eq_some_iff.mp h
    exact ih val g₁ (hnext g val g₁ hg hdraw) hrest
  | case3 nbytes buf p g hzero hfour =>
    rw [arc4randomBuf] at h
    · obtain ⟨⟨val, g₁⟩, hdraw, heq⟩ := Option.map_eq_some_iff.mp h
      obtain ⟨-, rfl⟩ := Prod.mk.inj heq
      exact hnext g val g₁ hg hdraw
    · exact hzero
    · exact hfour

theorem uniformLoop_keeps (hnext : ∀ g r g', I g → arc4Next g = some (r, g') → I g') (rounds : ℕ)
    {min upperBound v : UInt32} {g g' : Generator} (hg : I g)
    (h : uniformLoop arc4random min upperBound rounds g = some (v, g')) : I g' := by
  induction rounds generalizing g with
  | zero => exact absurd h (by simp [uniformLoop])
  | succ rounds ih =>
    rw [uniformLoop] at h
    obtain ⟨⟨r, g₁⟩, hdraw, hrest⟩ := Option.bind_eq_some_iff.mp h
    have hg₁ := hnext g r g₁ hg hdraw
    dsimp only at hrest
    split_ifs at hrest
    · obtain ⟨-, rfl⟩ := Prod.mk.inj (Option.some.inj hrest)
      exact hg₁
    · exact ih hg₁ hrest

theorem perform_keeps (hnext : ∀ g r g', I g → arc4Next g = some (r, g') → I g')
    {call : Arc4Call} {g g' : Generator} (hg : I g) (h : call.perform g = some g') : I g' := by
  cases call with
  | random =>
    obtain ⟨⟨r, g₁⟩, hdraw, rfl⟩ := Option.map_eq_some_iff.mp h
    exact hnext g r g₁ hg hdraw
  | buffer nbytes buf =>
    obtain ⟨⟨buf', g₁⟩, hbuf, rfl⟩ := Option.map_eq_some_iff.mp h
    exact arc4randomBuf_keeps hnext nbytes hg hbuf
  | uniform upperBound rounds =>
    obtain ⟨⟨v, g₁⟩, huniform, rfl⟩ := Option.map_eq_some_iff.mp h
    rw [arc4randomUniform] at huniform
    split_ifs at huniform
    · obtain ⟨-, rfl⟩ := Prod.mk.inj (Option.some.inj huniform)
      exact hg
    · exact uniformLoop_keeps hnext rounds hg huniform

theorem runArc4_keeps (hnext : ∀ g r g', I g → arc4Next g = some (r, g') → I g')
    (calls : List Arc4Call) {g g' : Generator} (hg : I g) (h : runArc4 calls g = some g') :
    I g' := by
  induction calls generalizing g with
  | nil =>
    obtain rfl := Option.some.inj h
    exact hg
  | cons call calls ih =>
    obtain ⟨g₁, hcall, hrest⟩ := Option.bind_eq_some_iff.mp h
    exact ih (perform_keeps hnext hg hcall) hrest

end Calls

section Blocks

variable {g g' : Generator}

theorem Block.events_succ (b : Block) :
    ({ b with words := b.words + 1 } : Block).events =
      b.events ++ [.output (b.stateAt (b.words + 1)).head] := by
  simp only [Block.events, List.range_succ, List.map_append, List.cons_append]
  rfl

theorem Block.Sound.succ {b : Block} (h : b.Sound) (hwords : b.words ≤ 1600000) :
    ({ b with words := b.words + 1 } : Block).Sound :=
  ⟨h.called, h.ret_eq, h.written, by dsimp only; omega⟩

theorem Entropic.advance (h : Entropic g) (hdue : g.due = false) : Entropic g.advance := by
  have hflag : g.initialized = true ∧ g.count ≤ 1600000 := by
    simpa [Generator.due] using hdue
  obtain ⟨blocks, hlog, hsound, hstate⟩ := h
  obtain ⟨front, b, rfl, hnow, hcount⟩ := hstate hflag.1
  have hb : b.Sound := hsound b (by simp)
  have hmix : arc4Mix g.state = b.stateAt (b.words + 1) := by
    rw [hnow, Block.stateAt, Block.stateAt, Function.iterate_succ_apply']
  refine ⟨front ++ [{ b with words := b.words + 1 }], ?_, ?_, ?_⟩
  · rw [Generator.advance]
    dsimp only
    rw [hlog, hmix]
    simp [Block.events_succ, Vector.head]
  · intro b' hb'
    rcases List.mem_append.mp hb' with hold | hnew
    · exact hsound b' (by simp [hold])
    · rw [List.mem_singleton.mp hnew]
      exact hb.succ (hcount ▸ hflag.2)
  · intro _
    exact ⟨front, _, rfl, hmix, by rw [Generator.advance_count, hcount]⟩

/-- What a stir does: one call to `getentropy`, whose buffer is the new state. -/
theorem arc4Stir_cases (h : arc4Stir g = some g') :
    ∃ stir stirs outcome,
      getentropy stir.answers stir.stack 16 g.statics = some outcome ∧
        g' = ⟨outcome.statics, loadSeed outcome.buffer, true, 0, stirs,
          g.log ++ [.stirred stir outcome]⟩ := by
  unfold arc4Stir at h
  cases hstirs : g.stirs with
  | nil =>
    rw [hstirs] at h
    exact absurd h (by simp)
  | cons stir stirs =>
    rw [hstirs] at h
    obtain ⟨outcome, hcall, rfl⟩ := Option.map_eq_some_iff.mp h
    exact ⟨stir, stirs, outcome, hcall, rfl⟩

theorem Entropic.stir (h : Entropic g) (hstir : arc4Stir g = some g') (hfail : NeverFailed g') :
    Entropic g' := by
  obtain ⟨blocks, hlog, hsound, -⟩ := h
  obtain ⟨stir, stirs, outcome, hcall, rfl⟩ := arc4Stir_cases hstir
  have hret : outcome.ret = 0 := hfail stir outcome (by simp)
  refine ⟨blocks ++ [⟨stir, outcome, 0⟩], ?_, ?_, fun _ => ⟨blocks, _, rfl, rfl, rfl⟩⟩
  · simp [hlog, Block.events]
  · intro b hb
    rcases List.mem_append.mp hb with hold | hnew
    · exact hsound b hold
    · rw [List.mem_singleton.mp hnew]
      exact ⟨⟨g.statics, hcall⟩, hret, getentropy_written hcall hret, by simp⟩

theorem arc4Stir_ready (h : arc4Stir g = some g') : g'.due = false := by
  obtain ⟨stir, stirs, outcome, -, rfl⟩ := arc4Stir_cases h
  rfl

theorem arc4Stir_log (h : arc4Stir g = some g') :
    ∃ stir outcome, g'.log = g.log ++ [.stirred stir outcome] := by
  obtain ⟨stir, stirs, outcome, -, rfl⟩ := arc4Stir_cases h
  exact ⟨stir, outcome, rfl⟩

theorem NeverFailed.of_log {es : List Event} (h : NeverFailed g') (hlog : g'.log = g.log ++ es) :
    NeverFailed g := by
  intro stir outcome hmem
  apply h stir outcome
  rw [hlog]
  exact List.mem_append_left es hmem

theorem arc4Next_entropic (h : NeverFailed g → Entropic g) {r : UInt32}
    (hnext : arc4Next g = some (r, g')) (hfail : NeverFailed g') : Entropic g' := by
  obtain ⟨g₁, hfirst, heq⟩ := Option.map_eq_some_iff.mp hnext
  obtain ⟨-, rfl⟩ := Prod.mk.inj heq
  have hfail₁ : NeverFailed g₁ := hfail.of_log rfl
  split_ifs at hfirst with hdue
  · obtain ⟨stir, outcome, hlog⟩ := arc4Stir_log hfirst
    have hold : Entropic g := h (hfail₁.of_log hlog)
    exact (hold.stir hfirst hfail₁).advance (arc4Stir_ready hfirst)
  · obtain rfl := Option.some.inj hfirst
    exact (h hfail₁).advance (by simpa using hdue)

theorem entropic_start (stirs : List Stir) : Entropic (.start stirs) :=
  ⟨[], rfl, by simp, fun h => absurd h (by simp [Generator.start])⟩

theorem Entropic.neverFailed (h : Entropic g) : NeverFailed g := by
  obtain ⟨blocks, hlog, hsound, -⟩ := h
  intro stir outcome hmem
  rw [hlog] at hmem
  obtain ⟨b, hb, hevent⟩ := List.mem_flatMap.mp hmem
  rcases List.mem_cons.mp hevent with heq | hout
  · obtain ⟨-, rfl⟩ := Event.stirred.inj heq
    exact (hsound b hb).ret_eq
  · obtain ⟨k, -, hk⟩ := List.mem_map.mp hout
    exact absurd hk (by simp)

end Blocks

/-- The generator is only ever seeded with entropy, and reseeded in time, exactly as long as
`getentropy` does not fail. -/
theorem arc4_entropic_iff (stirs : List Stir) (calls : List Arc4Call) (g : Generator)
    (h : runArc4 calls (.start stirs) = some g) : Entropic g ↔ NeverFailed g := by
  constructor
  · exact Entropic.neverFailed
  · apply runArc4_keeps (I := fun g => NeverFailed g → Entropic g) _ calls _ h
    · intro g r g' hg hnext
      exact arc4Next_entropic hg hnext
    · intro _
      exact entropic_start stirs

def sampleStir : Stir :=
  { answers :=
      { urandom := some 3, random := none, probe := ⟨false, [], []⟩
        reads := [.data [1, 2, 3, 4, 5, 6, 7], .interrupted,
          .data [8, 9, 10, 11, 12, 13, 14, 15, 16]]
        egd := ⟨false, [], []⟩, allowWeak := false, seed := 0 }
    stack := fun _ => 0 }

def sampleCalls : List Arc4Call := [.buffer 10 fun _ => 0, .uniform 10 3]

theorem arc4_entropic_iff_sample :
    ∃ g, runArc4 sampleCalls (.start [sampleStir]) = some g ∧ g.count = 4 ∧
      (Entropic g ↔ NeverFailed g) := by
  obtain ⟨g, hrun⟩ := Option.isSome_iff_exists.mp
    (show (runArc4 sampleCalls (.start [sampleStir])).isSome = true by decide)
  have hcount : (runArc4 sampleCalls (.start [sampleStir])).map (·.count) = some 4 := by decide
  rw [hrun] at hcount
  exact ⟨g, hrun, Option.some.inj hcount, arc4_entropic_iff [sampleStir] sampleCalls g hrun⟩

def deafStir : Stir :=
  { answers :=
      { urandom := none, random := none, probe := ⟨false, [], []⟩, reads := []
        egd := ⟨false, [], []⟩, allowWeak := false, seed := 0 }
    stack := fun _ => 0 }

/-- The first word is made from what the stack held. -/
theorem arc4_seeded_without_entropy :
    ∃ g, runArc4 [.random] (.start [deafStir]) = some g ∧ g.initialized = true ∧ ¬ Entropic g := by
  refine ⟨_, rfl, rfl, fun h => ?_⟩
  have hret := h.neverFailed deafStir
    ⟨-1, some .ioError, deafStir.stack, [], ⟨.unavailable, none⟩⟩ List.mem_cons_self
  exact absurd (show (-1 : ℤ) = 0 from hret) (by decide)

end Solcompat.Random
