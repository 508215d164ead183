import Solcompat.Lib.Critical
import Mathlib.Tactic

/-!
# Sections under striped locks take effect at one step

A call takes effect at the access that leaves nothing to do in its section. The memory
of the atomic machine is the shared one except on objects that a section has written
and still has to finish; a section that has started would, from the atomic memory, end
as its rest ends from the shared one. Plain accesses keep this relation when they stay
clear of unfinished sections.
-/

namespace Solcompat.Lib

variable {Loc Byte Obj Stripe R Tid : Type} {L : Layout Loc Byte Obj Stripe}

namespace Shared

section Simulation

/-- The calls of a thread that have taken effect: those that returned, and the one
whose section has nothing left to do. -/
def taken (s : Shared L R Tid) (t : Tid) : ℕ :=
  (s.results t).length +
    match s.phase t with
    | .inside _ _ rest => if rest.isDone then 1 else 0
    | _ => 0

/-- A byte of an object that a section has written and not finished with. -/
def Dirty (s : Shared L R Tid) (x : Loc) : Prop :=
  ∃ t o rest, s.phase t = .inside o .hasWritten rest ∧ rest.isDone = false ∧ x ∈ L.cells o

/-- What the atomic machine has done for a thread in a given phase. -/
def Agrees (progs : Programs L R Tid) (s : Shared L R Tid) (a : Sequential Loc Byte R Tid)
    (t : Tid) : Phase L R → Prop
  | .idle => a.results t = s.results t
  | .trying o body =>
    a.results t = s.results t ∧ progs t (s.results t) = some (.locked o body)
  | .watching o body =>
    a.results t = s.results t ∧ progs t (s.results t) = some (.locked o body)
  | .inside o p rest =>
    (∀ r, rest = .done r → a.results t = s.results t ++ [r]) ∧
    (rest.isDone = false → a.results t = s.results t ∧
      ∃ body, progs t (s.results t) = some (.locked o body) ∧
        (p = .entered → rest = body) ∧
        (p ≠ .entered → body.run (L.load a.mem o) = rest.run (L.load s.mem o)))

structure Simulates (progs : Programs L R Tid) (s : Shared L R Tid)
    (a : Sequential Loc Byte R Tid) : Prop where
  memory : ∀ x, ¬ s.Dirty x → s.mem x = a.mem x
  threads : ∀ t, Agrees progs s a t (s.phase t)

/-- A plain load stays clear of unfinished sections that have written, a plain store
of those that have accessed their object at all. -/
def Harmless (progs : Programs L R Tid) (s : Shared L R Tid) (t : Tid) : Prop :=
  s.phase t = .idle →
    match progs t (s.results t) with
    | some (.load o _) => ∀ t' o' rest,
        s.phase t' = .inside o' .hasWritten rest → rest.isDone = false → L.Apart o o'
    | some (.store o _ _) => ∀ t' o' p rest,
        s.phase t' = .inside o' p rest → rest.isDone = false → p ≠ .entered → L.Apart o o'
    | _ => True

variable {progs : Programs L R Tid} {s s' : Shared L R Tid} {t : Tid}
variable {a a' : Sequential Loc Byte R Tid}

theorem simulates_start (mem : Loc → Byte) :
    Simulates progs (start mem) (Sequential.start mem) where
  memory := fun _ _ => rfl
  threads := fun _ => rfl

/-- One thread moves: the others keep what the atomic machine did for them as long as
the objects of their sections keep their values. -/
theorem Simulates.update (h : Simulates progs s a)
    (hphase : ∀ u, u ≠ t → s'.phase u = s.phase u)
    (hresults : ∀ u, u ≠ t → s'.results u = s.results u)
    (hatomic : ∀ u, u ≠ t → a'.results u = a.results u)
    (hloads : ∀ u o p rest, u ≠ t → s.phase u = .inside o p rest → rest.isDone = false →
      p ≠ .entered → L.load s'.mem o = L.load s.mem o ∧ L.load a'.mem o = L.load a.mem o)
    (hmemory : ∀ x, ¬ s'.Dirty x → s'.mem x = a'.mem x)
    (hself : Agrees progs s' a' t (s'.phase t)) : Simulates progs s' a' where
  memory := hmemory
  threads := by
    intro u
    by_cases hut : u = t
    · subst hut
      exact hself
    · have hu := h.threads u
      rw [hphase u hut]
      cases hp : s.phase u with
      | idle =>
        rw [hp] at hu
        rw [Agrees, hresults u hut, hatomic u hut]
        exact hu
      | trying o body =>
        rw [hp] at hu
        rw [Agrees, hresults u hut, hatomic u hut]
        exact hu
      | watching o body =>
        rw [hp] at hu
        rw [Agrees, hresults u hut, hatomic u hut]
        exact hu
      | inside o p rest =>
        rw [hp] at hu
        rw [Agrees, hresults u hut, hatomic u hut]
        refine ⟨hu.1, fun hrest => ?_⟩
        obtain ⟨hres, body, hbody, hentered, hrun⟩ := hu.2 hrest
        refine ⟨hres, body, hbody, hentered, fun hne => ?_⟩
        obtain ⟨hs, ha⟩ := hloads u o p rest hut hp hrest hne
        rw [hs, ha]
        exact hrun hne

/-- Where the moving thread had no unfinished section that wrote, what was dirty
stays so. -/
theorem Dirty.of_ne {x : Loc} (h : s.Dirty x) (hphase : ∀ u, u ≠ t → s'.phase u = s.phase u)
    (hself : ∀ o rest, s.phase t = .inside o .hasWritten rest → rest.isDone = false →
      x ∉ L.cells o) : s'.Dirty x := by
  obtain ⟨u, o, rest, hu, hrest, hx⟩ := h
  by_cases hut : u = t
  · subst hut
    exact absurd hx (hself o rest hu hrest)
  · exact ⟨u, o, rest, (hphase u hut).trans hu, hrest, hx⟩

theorem Exclusive.clean {o : Obj} {p : Progress} {rest : Body (L.View o) R} {x : Loc}
    (hx : s.Exclusive) (hphase : s.phase t = .inside o p rest)
    (hp : p ≠ .hasWritten) (hcell : x ∈ L.cells o) : ¬ s.Dirty x := by
  rintro ⟨u, o', rest', hu, -, hcell'⟩
  have hstripe := L.shared_stripe o o' x hcell hcell'
  have hut : t = u := by
    apply hx.alone t u (L.stripe o)
    · rw [hphase, Phase.holds]
    · rw [hu, Phase.holds, hstripe]
  subst hut
  rw [hphase] at hu
  injection hu with _ hp'
  exact hp hp'

theorem Exclusive.apart {u : Tid} {o o' : Obj} {p p' : Progress} {rest : Body (L.View o) R}
    {rest' : Body (L.View o') R} (hx : s.Exclusive) (hut : u ≠ t)
    (hphase : s.phase t = .inside o p rest) (hphase' : s.phase u = .inside o' p' rest') :
    L.Apart o o' := by
  apply Layout.apart_of_stripe_ne
  intro hstripe
  apply hut
  apply hx.alone u t (L.stripe o)
  · rw [hphase', Phase.holds, hstripe]
  · rw [hphase, Phase.holds]

/-- From the atomic memory the whole body ends as the rest does from the shared one. -/
theorem Simulates.pending {o : Obj} {p : Progress} {rest : Body (L.View o) R}
    (h : Simulates progs s a) (hx : s.Exclusive) (hphase : s.phase t = .inside o p rest)
    (hrest : rest.isDone = false) :
    a.results t = s.results t ∧ ∃ body, progs t (s.results t) = some (.locked o body) ∧
      body.run (L.load a.mem o) = rest.run (L.load s.mem o) := by
  have ht := h.threads t
  rw [hphase] at ht
  obtain ⟨hres, body, hbody, hentered, hrun⟩ := ht.2 hrest
  refine ⟨hres, body, hbody, ?_⟩
  by_cases hp : p = .entered
  · rw [hentered hp]
    congr 1
    apply L.load_congr
    intro x hcell
    exact (h.memory x (hx.clean hphase (by simp [hp]) hcell)).symm
  · exact hrun hp

theorem Simulates.eq_of_quiet (h : Simulates progs s a) (hq : s.Quiet) :
    a = ⟨s.mem, s.results⟩ := by
  have hmem : s.mem = a.mem := by
    funext x
    apply h.memory x
    rintro ⟨t, o, rest, ht, -, -⟩
    rw [hq t] at ht
    exact absurd ht (by simp)
  have hresults : a.results = s.results := by
    funext t
    have ht := h.threads t
    rwa [hq t] at ht
  rw [hmem, ← hresults]

/-- The number of calls a thread is in the middle of. -/
def inProgress (s : Shared L R Tid) (t : Tid) : ℕ :=
  match s.phase t with
  | .idle => 0
  | _ => 1

theorem taken_le (s : Shared L R Tid) (t : Tid) :
    (s.results t).length ≤ s.taken t ∧
      s.taken t ≤ (s.results t).length + s.inProgress t := by
  unfold taken inProgress
  cases s.phase t with
  | inside o p rest => cases hdone : rest.isDone <;> simp [hdone]
  | _ => simp

end Simulation

section Steps

variable [DecidableEq Tid]
variable {progs : Programs L R Tid} {s : Shared L R Tid} {t : Tid}
variable {a : Sequential Loc Byte R Tid}

theorem atomic_results_of_ne {u : Tid} (hut : u ≠ t) :
    (a.step progs t).results u = a.results u := by
  unfold Sequential.step
  split
  · rfl
  · simp [hut]

theorem Simulates.access {o : Obj} {p p' : Progress} {rest rest' : Body (L.View o) R}
    {mem : Loc → Byte} (h : Simulates progs s a) (hx : s.Exclusive)
    (hphase : s.phase t = .inside o p rest) (hrest : rest.isDone = false)
    (hmem : ∀ x, x ∉ L.cells o → mem x = s.mem x)
    (hrun : rest'.run (L.load mem o) = rest.run (L.load s.mem o))
    (hp : p' = .hasWritten ∨ p' = p.afterRead ∧ mem = s.mem) :
    Simulates progs ({ s with mem := mem }.goto t (.inside o p' rest'))
      (if rest'.isDone then a.step progs t else a) := by
  obtain ⟨hres, body, hbody, hbodyRun⟩ := h.pending hx hphase hrest
  rw [← hrun] at hbodyRun
  have hfar : ∀ u o' p'' rest'', u ≠ t → s.phase u = .inside o' p'' rest'' →
      L.load mem o' = L.load s.mem o' := by
    intro u o' p'' rest'' hut hu
    apply L.load_congr
    intro x hcell
    exact hmem x fun hcell' => hx.apart hut hphase hu x hcell' hcell
  have hother : ∀ u, u ≠ t →
      ({ s with mem := mem }.goto t (.inside o p' rest')).phase u = s.phase u := by
    intro u hut
    simp [hut]
  have hclean : ∀ x, x ∉ L.cells o →
      ¬ ({ s with mem := mem }.goto t (.inside o p' rest')).Dirty x → ¬ s.Dirty x := by
    intro x hcell hdirty hdirty'
    apply hdirty
    apply hdirty'.of_ne hother
    intro o' rest'' hphase' _
    rw [hphase] at hphase'
    injection hphase' with ho
    rwa [← ho]
  cases hdone : rest'.isDone with
  | true =>
    -- The last access: the call takes effect here.
    obtain ⟨r, rfl⟩ := Body.isDone_iff.mp hdone
    have hstep : a.step progs t =
        ⟨L.store a.mem o (L.load mem o),
          Function.update a.results t (a.results t ++ [r])⟩ := by
      simp only [Sequential.step, hres, hbody, Call.apply, hbodyRun, Body.run]
    refine h.update hother (fun u _ => rfl) (fun u hut => atomic_results_of_ne hut)
      (fun u o' p'' rest'' hut hu _ _ => ⟨hfar u o' p'' rest'' hut hu, ?_⟩) ?_ ?_
    · simp only [if_true, hstep]
      exact (hx.apart hut hphase hu).load_store a.mem _
    · intro x hdirty
      simp only [if_true, hstep]
      by_cases hcell : x ∈ L.cells o
      · exact (L.store_load a.mem mem o x hcell).symm
      · rw [L.store_outside a.mem o _ x hcell]
        exact (hmem x hcell).trans (h.memory x (hclean x hcell hdirty))
    · simp [Agrees, hstep, hres]
  | false =>
    refine h.update hother (fun u _ => rfl) (fun u _ => rfl)
      (fun u o' p'' rest'' hut hu _ _ => ⟨hfar u o' p'' rest'' hut hu, rfl⟩) ?_ ?_
    · intro x hdirty
      by_cases hcell : x ∈ L.cells o
      · -- Only a read of a clean object leaves its bytes clean.
        rcases hp with rfl | ⟨rfl, rfl⟩
        · exact absurd ⟨t, o, rest', by simp, hdone, hcell⟩ hdirty
        · apply h.memory x
          refine hx.clean hphase ?_ hcell
          rintro rfl
          exact hdirty ⟨t, o, rest', by simp [Progress.afterRead], hdone, hcell⟩
      · exact (hmem x hcell).trans (h.memory x (hclean x hcell hdirty))
    · have hnot : ∀ r, rest' ≠ .done r := by
        rintro r rfl
        simp at hdone
      have hp' : p' ≠ .entered := by
        rcases hp with rfl | ⟨rfl, -⟩
        · simp
        · cases p <;> simp [Progress.afterRead]
      simp [Agrees, hnot, hdone, hres, hbody, hp', hbodyRun]

/-- A step that leaves the memory and the results alone and ends outside or at the
entry of a section. -/
theorem Simulates.move {phase : Phase L R} {locks : Stripe → UInt8}
    (h : Simulates progs s a)
    (hold : ∀ o rest, s.phase t = .inside o .hasWritten rest → rest.isDone = true)
    (hself : Agrees progs s a t phase) :
    Simulates progs ({ s with locks := locks }.goto t phase) a := by
  have hother : ∀ u, u ≠ t → ({ s with locks := locks }.goto t phase).phase u = s.phase u := by
    intro u hut
    simp [hut]
  refine h.update hother (fun u _ => rfl) (fun u _ => rfl)
    (fun u o p rest _ _ _ _ => ⟨rfl, rfl⟩) ?_ ?_
  · intro x hdirty
    apply h.memory x
    intro hdirty'
    apply hdirty
    apply hdirty'.of_ne hother
    intro o rest hphase hrest
    rw [hold o rest hphase] at hrest
    exact absurd hrest (by simp)
  · simp only [goto_phase, Function.update_self]
    exact hself

/-- A lock is taken. A section with nothing to do takes effect at once. -/
theorem Simulates.acquire {o : Obj} {body : Body (L.View o) R} {locks : Stripe → UInt8}
    (h : Simulates progs s a) (hphase : s.phase t = .trying o body) :
    Simulates progs ({ s with locks := locks }.goto t (.inside o .entered body))
      (if body.isDone then a.step progs t else a) := by
  have hnot : ∀ o rest, s.phase t = .inside o .hasWritten rest → rest.isDone = true := by
    simp [hphase]
  have ht := h.threads t
  rw [hphase] at ht
  obtain ⟨hres, hbody⟩ := ht
  cases hdone : body.isDone with
  | false =>
    refine h.move hnot ⟨?_, fun _ => ⟨hres, body, hbody, fun _ => rfl, by simp⟩⟩
    rintro r rfl
    simp at hdone
  | true =>
    obtain ⟨r, rfl⟩ := Body.isDone_iff.mp hdone
    have hmem : L.store a.mem o (L.load a.mem o) = a.mem := by
      funext x
      by_cases hcell : x ∈ L.cells o
      · exact L.store_load a.mem a.mem o x hcell
      · exact L.store_outside a.mem o _ x hcell
    have hstep : a.step progs t =
        ⟨a.mem, Function.update a.results t (a.results t ++ [r])⟩ := by
      simp only [Sequential.step, hres, hbody, Call.apply, Body.run, hmem]
    have hother : ∀ u, u ≠ t → ({ s with locks := locks }.goto t
        (.inside o .entered (.done r))).phase u = s.phase u := by
      intro u hut
      simp [hut]
    refine h.update hother (fun u _ => rfl) (fun u hut => atomic_results_of_ne hut)
      (fun u o p rest _ _ _ _ => ⟨rfl, by simp [hstep]⟩) ?_ ?_
    · intro x hdirty
      simp only [if_true, hstep]
      apply h.memory x
      intro hdirty'
      exact hdirty (hdirty'.of_ne hother (by simp [hphase]))
    · simp [Agrees, hstep, hres]

theorem Simulates.plain {c : Call L R} {mem : Loc → Byte} {r : R}
    (h : Simulates progs s a) (hphase : s.phase t = .idle)
    (hcall : progs t (s.results t) = some c) (hresult : (c.apply a.mem).1 = r)
    (hmem : ∀ x, ¬ s.Dirty x → mem x = (c.apply a.mem).2 x)
    (hloads : ∀ u o p rest, s.phase u = .inside o p rest → rest.isDone = false →
      p ≠ .entered → L.load mem o = L.load s.mem o ∧
        L.load (c.apply a.mem).2 o = L.load a.mem o) :
    Simulates progs ({ s with mem := mem }.finish t r) (a.step progs t) := by
  have ht := h.threads t
  rw [hphase, Agrees] at ht
  have hstep : a.step progs t =
      ⟨(c.apply a.mem).2, Function.update a.results t (a.results t ++ [r])⟩ := by
    simp only [Sequential.step, ht, hcall, hresult]
  refine h.update (fun u _ => rfl) (fun u hut => by simp [hut])
    (fun u hut => atomic_results_of_ne hut) ?_ ?_ ?_
  · intro u o p rest _ hu hrest hp
    rw [hstep]
    exact hloads u o p rest hu hrest hp
  · intro x hdirty
    rw [hstep]
    exact hmem x hdirty
  · simp [hphase, Agrees, hstep, ht]

theorem Simulates.release {o : Obj} {p : Progress} {r : R} {locks : Stripe → UInt8}
    (h : Simulates progs s a) (hphase : s.phase t = .inside o p (.done r)) :
    Simulates progs (({ s with locks := locks }.goto t .idle).finish t r) a := by
  have ht := h.threads t
  rw [hphase] at ht
  have hres := ht.1 r rfl
  have hother : ∀ u, u ≠ t →
      (({ s with locks := locks }.goto t .idle).finish t r).phase u = s.phase u := by
    intro u hut
    simp [hut]
  refine h.update hother (fun u hut => by simp [hut]) (fun u _ => rfl)
    (fun u o p rest _ _ _ _ => ⟨rfl, rfl⟩) ?_ ?_
  · intro x hdirty
    apply h.memory x
    intro hdirty'
    apply hdirty
    apply hdirty'.of_ne hother
    intro o' rest hphase' hrest
    rw [hphase] at hphase'
    injection hphase' with ho _ hrest'
    subst ho
    rw [← eq_of_heq hrest'] at hrest
    simp at hrest
  · simpa [Agrees] using hres

variable [DecidableEq Stripe]

/-- The atomic machine makes the call of a thread when its step takes effect. -/
def follow (progs : Programs L R Tid) (s : Shared L R Tid) (t : Tid)
    (a : Sequential Loc Byte R Tid) : Sequential Loc Byte R Tid :=
  if (s.step progs t).taken t = s.taken t then a else a.step progs t

theorem follow_of_taken (h : (s.step progs t).taken t = s.taken t) :
    s.follow progs t a = a :=
  if_pos h

theorem follow_of_taken_succ (h : (s.step progs t).taken t = s.taken t + 1) :
    s.follow progs t a = a.step progs t := by
  rw [follow, if_neg]
  omega

theorem Simulates.step_idle (h : Simulates progs s a) (hok : s.Harmless progs t)
    (hphase : s.phase t = .idle) :
    Simulates progs (s.step progs t) (s.follow progs t a) := by
  have hbegin : s.step progs t = s.begin t (progs t (s.results t)) := by
    rw [Shared.step, hphase]
  have hplain := hok hphase
  cases hcall : progs t (s.results t) with
  | none =>
    have hsame : s.step progs t = s := by
      rw [hbegin, hcall, begin]
    rw [follow_of_taken (by rw [hsame]), hsame]
    exact h
  | some c =>
    rw [hcall] at hbegin hplain
    cases c with
    | locked o body =>
      have ht := h.threads t
      rw [hphase] at ht
      rw [follow_of_taken (by simp [taken, hbegin, begin, hphase]), hbegin]
      exact h.move (by simp [hphase]) ⟨ht, hcall⟩
    | load o result =>
      have hload : L.load a.mem o = L.load s.mem o := by
        apply L.load_congr
        intro x hcell
        refine (h.memory x ?_).symm
        rintro ⟨u, o', rest, hu, hrest, hcell'⟩
        exact hplain u o' rest hu hrest x hcell hcell'
      rw [follow_of_taken_succ (by simp [taken, hbegin, begin, hphase]), hbegin]
      apply h.plain hphase hcall
      · rw [Call.apply, hload]
      · exact fun x hdirty => h.memory x hdirty
      · exact fun u o' p rest _ _ _ => ⟨rfl, rfl⟩
    | store o value result =>
      rw [follow_of_taken_succ (by simp [taken, hbegin, begin, hphase]), hbegin]
      apply h.plain hphase hcall rfl
      · intro x hdirty
        simp only [Call.apply]
        by_cases hcell : x ∈ L.cells o
        · exact L.store_inside s.mem a.mem o value hcell
        · rw [L.store_outside s.mem o value x hcell, L.store_outside a.mem o value x hcell]
          exact h.memory x hdirty
      · intro u o' p rest hu hrest hp
        have hapart := hplain u o' p rest hu hrest hp
        exact ⟨hapart.load_store s.mem value, hapart.load_store a.mem value⟩

theorem Simulates.step_trying {o : Obj} {body : Body (L.View o) R}
    (h : Simulates progs s a) (hphase : s.phase t = .trying o body) :
    Simulates progs (s.step progs t) (s.follow progs t a) := by
  by_cases hfree : s.locks (L.stripe o) = 0
  · have hstep : s.step progs t =
        (s.setLock (L.stripe o) 0xFF).goto t (.inside o .entered body) := by
      simp only [Shared.step, hphase, if_pos hfree]
    have hfollow : s.follow progs t a = if body.isDone then a.step progs t else a := by
      cases hdone : body.isDone <;> simp [follow, taken, hstep, hphase, hdone]
    rw [hstep, hfollow]
    exact h.acquire hphase
  · have hstep : s.step progs t =
        (s.setLock (L.stripe o) 0xFF).goto t (.watching o body) := by
      simp only [Shared.step, hphase, if_neg hfree]
    have ht := h.threads t
    rw [hphase] at ht
    rw [follow_of_taken (by simp [taken, hstep, hphase]), hstep]
    exact h.move (by simp [hphase]) ht

theorem Simulates.step_watching {o : Obj} {body : Body (L.View o) R}
    (h : Simulates progs s a) (hphase : s.phase t = .watching o body) :
    Simulates progs (s.step progs t) (s.follow progs t a) := by
  by_cases hfree : s.locks (L.stripe o) = 0
  · have hstep : s.step progs t = s.goto t (.trying o body) := by
      simp only [Shared.step, hphase, if_pos hfree]
    have ht := h.threads t
    rw [hphase] at ht
    rw [follow_of_taken (by simp [taken, hstep, hphase]), hstep]
    exact h.move (by simp [hphase]) ht
  · have hsame : s.step progs t = s := by
      simp only [Shared.step, hphase, if_neg hfree]
    rw [follow_of_taken (by rw [hsame]), hsame]
    exact h

theorem Simulates.step_inside {o : Obj} {p : Progress} {rest : Body (L.View o) R}
    (h : Simulates progs s a) (hx : s.Exclusive) (hphase : s.phase t = .inside o p rest) :
    Simulates progs (s.step progs t) (s.follow progs t a) := by
  have hstep : s.step progs t = s.access t o p rest := by
    rw [Shared.step, hphase]
  cases rest with
  | done r =>
    rw [follow_of_taken (by simp [taken, hstep, Shared.access, hphase]), hstep]
    exact h.release hphase
  | read next =>
    have hfollow : s.follow progs t a =
        if (next (L.load s.mem o)).isDone then a.step progs t else a := by
      cases hdone : (next (L.load s.mem o)).isDone <;>
        simp [follow, taken, hstep, Shared.access, hphase, hdone]
    rw [hstep, hfollow]
    exact h.access hx hphase rfl (fun x _ => rfl) rfl (.inr ⟨rfl, rfl⟩)
  | write value next =>
    have hfollow : s.follow progs t a = if next.isDone then a.step progs t else a := by
      cases hdone : next.isDone <;>
        simp [follow, taken, hstep, Shared.access, hphase, hdone]
    rw [hstep, hfollow]
    refine h.access hx hphase rfl (fun x hx => L.store_outside s.mem o value x hx) ?_ (.inl rfl)
    rw [L.load_store, Body.run]

theorem Simulates.step (h : Simulates progs s a) (hx : s.Exclusive)
    (hok : s.Harmless progs t) :
    Simulates progs (s.step progs t) (s.follow progs t a) := by
  cases hphase : s.phase t with
  | idle => exact h.step_idle hok hphase
  | trying o body => exact h.step_trying hphase
  | watching o body => exact h.step_watching hphase
  | inside o p rest => exact h.step_inside hx hphase

end Steps

end Shared

end Solcompat.Lib
