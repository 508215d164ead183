import Solcompat.Lib.Simulation
import Mathlib.Data.List.Count

/-!
# Calls under striped locks are linearizable

The steps at which calls take effect put the calls of every schedule in an order. The
order respects the real time of the calls, and the atomic machine that makes the calls
in this order ends where the run ends.
-/

namespace Solcompat.Lib

variable {Loc Byte Obj Stripe R Tid : Type} {L : Layout Loc Byte Obj Stripe}

/-- Sections that access nothing after a write have finished once they have written. -/
def Phase.SingleWrite : Phase L R → Prop
  | .idle => True
  | .trying _ body => body.EndsAtWrite
  | .watching _ body => body.EndsAtWrite
  | .inside _ p rest => rest.EndsAtWrite ∧ (p = .hasWritten → rest.isDone = true)

namespace Shared

section Runs

variable [DecidableEq Tid] [DecidableEq Stripe]

/-- The threads of a schedule in the order in which their calls take effect. -/
def effects (progs : Programs L R Tid) : Shared L R Tid → List Tid → List Tid
  | _, [] => []
  | s, t :: rest =>
    (if (s.step progs t).taken t = s.taken t then [] else [t]) ++
      effects progs (s.step progs t) rest

variable {progs : Programs L R Tid} {s : Shared L R Tid} {t : Tid}
variable {a : Sequential Loc Byte R Tid}

theorem effects_append (p q : List Tid) :
    effects progs s (p ++ q) = effects progs s p ++ effects progs (s.run progs p) q := by
  induction p generalizing s with
  | nil => rfl
  | cons t p ih => rw [List.cons_append, effects, effects, ih, List.append_assoc]; rfl

theorem follow_eq_run (a : Sequential Loc Byte R Tid) :
    s.follow progs t a = a.run progs (effects progs s [t]) := by
  unfold follow effects effects
  split <;> rfl

theorem taken_step_of_ne {u : Tid} (hut : u ≠ t) : (s.step progs t).taken u = s.taken u := by
  rw [taken, taken, step_phase_of_ne hut, step_results_of_ne hut]

/-- Every run whose plain accesses are harmless is the atomic run of its effects. -/
theorem Simulates.run (h : Simulates progs s a) (hx : s.Exclusive) (schedule : List Tid)
    (hok : ∀ p t, p ++ [t] <+: schedule → (s.run progs p).Harmless progs t) :
    Simulates progs (s.run progs schedule) (a.run progs (effects progs s schedule)) := by
  induction schedule using List.reverseRecOn with
  | nil => exact h
  | append_singleton p t ih =>
    have hp := ih fun q u hq => hok q u (hq.trans (List.prefix_append p [t]))
    have hstep := hp.step (hx.run p) (hok p t List.prefix_rfl)
    rw [follow_eq_run] at hstep
    rw [effects_append]
    simpa [Shared.run, Sequential.run, List.foldl_append] using hstep

theorem taken_step : (s.step progs t).taken t = s.taken t ∨
    (s.step progs t).taken t = s.taken t + 1 := by
  unfold step
  split
  · next hphase =>
    rcases progs t (s.results t) with _ | _ | _ | _ <;> simp [taken, begin, hphase]
  · next o body hphase =>
    by_cases hfree : s.locks (L.stripe o) = 0 <;>
      cases hdone : body.isDone <;> simp [taken, hphase, hfree, hdone]
  · next o body hphase =>
    by_cases hfree : s.locks (L.stripe o) = 0 <;> simp [taken, hphase, hfree]
  · next o p rest hphase =>
    cases rest with
    | done r => simp [taken, access, hphase]
    | read next =>
      cases hdone : (next (L.load s.mem o)).isDone <;> simp [taken, access, hphase, hdone]
    | write v next => cases hdone : next.isDone <;> simp [taken, access, hphase, hdone]

theorem count_effects (p : List Tid) (u : Tid) :
    (effects progs s p).count u + s.taken u = (s.run progs p).taken u := by
  induction p generalizing s with
  | nil => simp [effects, run]
  | cons t p ih =>
    have hrun : s.run progs (t :: p) = (s.step progs t).run progs p := rfl
    rw [hrun, ← ih, effects, List.count_append]
    by_cases hut : u = t
    · subst hut
      have hstep : (s.step progs u).taken u = s.taken u ∨
          (s.step progs u).taken u = s.taken u + 1 := taken_step
      rcases hstep with h | h
      · simp [h]
      · simp [h]
        omega
    · rw [taken_step_of_ne hut]
      split <;> simp [Ne.symm hut]

/-- `order` gives the calls of every schedule an order in which they take effect: it
only grows as the run goes on, a call is in it between its invocation and its return,
and when no call is in progress the run has done what the calls do one after another in
this order. -/
structure Linearizes (progs : Programs L R Tid) (mem : Loc → Byte)
    (runs : List Tid → Prop) (order : List Tid → List Tid) : Prop where
  grows : ∀ p q, order p <+: order (p ++ q)
  returned : ∀ p t, (((start mem).run progs p).results t).length ≤ (order p).count t
  invoked : ∀ p t, (order p).count t ≤
    (((start mem).run progs p).results t).length + ((start mem).run progs p).inProgress t
  effect : ∀ p, runs p → ((start mem).run progs p).Quiet →
    (Sequential.start mem).run progs (order p) =
      ⟨((start mem).run progs p).mem, ((start mem).run progs p).results⟩

theorem linearizes_effects (progs : Programs L R Tid) (mem : Loc → Byte)
    (runs : List Tid → Prop)
    (hok : ∀ schedule, runs schedule → ∀ p t, p ++ [t] <+: schedule →
      ((start mem).run progs p).Harmless progs t) :
    Linearizes progs mem runs (effects progs (start mem)) := by
  have hcount : ∀ p t, (effects progs (start mem) p).count t =
      ((start mem).run progs p).taken t := by
    intro p t
    rw [← count_effects p t]
    rfl
  constructor
  · intro p q
    rw [effects_append]
    exact List.prefix_append _ _
  · intro p t
    rw [hcount]
    exact (taken_le _ t).1
  · intro p t
    rw [hcount]
    exact (taken_le _ t).2
  · intro p hp hq
    exact ((simulates_start mem).run (exclusive_start mem) p (hok p hp)).eq_of_quiet hq

end Runs

section SingleWrites

variable [DecidableEq Tid] [DecidableEq Stripe]
variable {progs : Programs L R Tid} {s : Shared L R Tid}

theorem singleWrite_step
    (hprogs : ∀ t rs o body, progs t rs = some (.locked o body) → body.EndsAtWrite)
    (h : ∀ u, (s.phase u).SingleWrite) (t u : Tid) :
    ((s.step progs t).phase u).SingleWrite := by
  by_cases hut : u = t
  · subst hut
    have hu := h u
    unfold step
    split
    · next hphase =>
      cases hcall : progs u (s.results u) with
      | none => exact hu
      | some c =>
        cases c with
        | locked o body =>
          simpa [begin, Phase.SingleWrite] using hprogs u (s.results u) o body hcall
        | load o result => exact hu
        | store o value result => exact hu
    · next o body hphase =>
      rw [hphase] at hu
      by_cases hfree : s.locks (L.stripe o) = 0
      · simpa [hfree, Phase.SingleWrite] using hu
      · simpa [hfree, Phase.SingleWrite] using hu
    · next o body hphase =>
      by_cases hfree : s.locks (L.stripe o) = 0
      · rw [hphase] at hu
        simpa [hfree, Phase.SingleWrite] using hu
      · simpa [hfree] using hu
    · next o p rest hphase =>
      rw [hphase] at hu
      obtain ⟨hrest, hwritten⟩ := hu
      cases rest with
      | done r => simp [access, Phase.SingleWrite]
      | read next =>
        have hp : p.afterRead ≠ .hasWritten := by
          intro hafter
          cases p <;> simp [Progress.afterRead] at hafter hwritten
        simpa [access, Phase.SingleWrite, hp] using hrest (L.load s.mem o)
      | write v next =>
        obtain ⟨r, rfl⟩ := Body.isDone_iff.mp hrest
        simp [access, Phase.SingleWrite, Body.EndsAtWrite]
  · rw [step_phase_of_ne hut]
    exact h u

theorem singleWrite_run
    (hprogs : ∀ t rs o body, progs t rs = some (.locked o body) → body.EndsAtWrite)
    (h : ∀ u, (s.phase u).SingleWrite) (schedule : List Tid) (u : Tid) :
    ((s.run progs schedule).phase u).SingleWrite := by
  induction schedule generalizing s with
  | nil => exact h u
  | cons t rest ih => exact ih (singleWrite_step hprogs h t)

end SingleWrites

end Shared

end Solcompat.Lib
