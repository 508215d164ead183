import Solcompat.At.Calls

/-!
# Runs in which no call disturbs another

A run is calm when no thread makes a system call that uses the working directory while
another one is away, and no operation is made on a directory name that has become stale.
In a calm run every operation is made from the directories its call names, and whenever no
call is in progress the process is in its initial directory and has closed every descriptor
of the emulation.
-/

namespace Solcompat.At

open Lib

variable {Dir Tid : Type}

/-- All that a system call of thread `t` can do to the process and to the view of its call.
Failures, and answers that nothing depends on, are `same`. -/
inductive Effect (t : Tid) (w : World Dir Tid) (v : View Dir) :
    Action → World Dir Tid → View Dir → Prop
  | locked (hfree : w.atMutex = none) : Effect t w v .lock { w with atMutex := some t } v
  | unlocked : Effect t w v .unlock { w with atMutex := none } v
  | same {a : Action} (hlock : a ≠ .lock) (hunlock : a ≠ .unlock) : Effect t w v a w v
  | saved {fd : ℤ} (hfree : w.fds fd = none) :
      Effect t w v .openDot (w.setFd fd (some ⟨some w.cwd, some t⟩)) v
  | moved {fd : ℤ} {d : Dir} (hdir : w.dirOf fd = some d) :
      Effect t w v (.fchdir fd) { w with cwd := d } { v with away := !w.isSaved fd }
  | closed {fd : ℤ} : Effect t w v (.close fd) (w.setFd fd none) v
  | named {size : ℕ} {name : CString} (hname : w.tree.Names w.cwd name.bytes) :
      Effect t w v (.getcwd size) w { v with names := v.names ++ [(name, w.cwd)] }
  | ran {op : Op} {tree : FileTree Dir} : Effect t w v (.call op) { w with tree := tree } v
  | opened {op : Op} {tree : FileTree Dir} {fd : ℤ} {dir : Option Dir} (hfree : w.fds fd = none) :
      Effect t w v (.call op) ({ w with tree := tree }.setFd fd (some ⟨dir, none⟩)) v

theorem perform_effect [DecidableEq Dir] {w w' : World Dir Tid} {t : Tid} {c : Choice Dir}
    {a : Action} {x : a.Answer} (v : View Dir) (hp : w.perform t c a = some (x, w')) :
    Effect t w v a w' (v.after w a x) := by
  cases a with
  | lock =>
    simp only [World.perform] at hp
    split_ifs at hp with hfree
    obtain ⟨rfl, rfl⟩ := Prod.mk.inj (Option.some.inj hp)
    exact .locked (Option.isNone_iff_eq_none.mp hfree)
  | unlock =>
    obtain ⟨rfl, rfl⟩ := Prod.mk.inj (Option.some.inj hp)
    exact .unlocked
  | openDot =>
    simp only [World.perform] at hp
    split at hp
    · obtain ⟨rfl, rfl⟩ := Prod.mk.inj (Option.some.inj hp)
      exact .same (by simp) (by simp)
    · split_ifs at hp with hfresh
      obtain ⟨rfl, rfl⟩ := Prod.mk.inj (Option.some.inj hp)
      exact .saved (Option.isNone_iff_eq_none.mp hfresh.2)
  | fchdir fd =>
    simp only [World.perform] at hp
    split at hp
    · split_ifs at hp
      obtain ⟨rfl, rfl⟩ := Prod.mk.inj (Option.some.inj hp)
      exact .same (by simp) (by simp)
    · obtain ⟨d, hdir, hd⟩ := Option.map_eq_some_iff.mp hp
      obtain ⟨rfl, rfl⟩ := Prod.mk.inj hd
      exact .moved hdir
  | close fd =>
    obtain ⟨rfl, rfl⟩ := Prod.mk.inj (Option.some.inj hp)
    exact .closed
  | getcwd size =>
    simp only [World.perform] at hp
    split at hp
    · obtain ⟨rfl, rfl⟩ := Prod.mk.inj (Option.some.inj hp)
      exact .same (by simp) (by simp)
    · split_ifs at hp with hname
      obtain ⟨rfl, rfl⟩ := Prod.mk.inj (Option.some.inj hp)
      exact .named hname.2
  | time =>
    obtain ⟨rfl, rfl⟩ := Prod.mk.inj (Option.some.inj hp)
    exact .same (by simp) (by simp)
  | snprintf dirpath path =>
    obtain ⟨rfl, rfl⟩ := Prod.mk.inj (Option.some.inj hp)
    exact .same (by simp) (by simp)
  | call op =>
    simp only [World.perform] at hp
    split at hp
    · obtain ⟨rfl, rfl⟩ := Prod.mk.inj (Option.some.inj hp)
      exact .same (by simp) (by simp)
    · rcases World.succeed_cases hp with rfl | ⟨hnone, rfl⟩
      · exact .ran
      · exact .opened hnone

namespace Effect

variable {w w' : World Dir Tid} {v v' : View Dir} {t t' : Tid} {call : Call} {initial : Dir}
variable {a : Action}

theorem fds_after (h : Effect t w v a w' v') {fd : ℤ} {entry : Entry Dir Tid}
    (hentry : w'.fds fd = some entry) :
    w.fds fd = some entry ∨ entry.owner = none ∨ entry.owner = some t := by
  cases h with
  | @saved fd' hfree =>
    by_cases hfd : fd = fd'
    · rw [hfd, World.setFd_self] at hentry
      exact .inr (.inr (by rw [← Option.some.inj hentry]))
    · rw [World.setFd_of_ne _ _ hfd] at hentry
      exact .inl hentry
  | @closed fd' =>
    by_cases hfd : fd = fd'
    · rw [hfd, World.setFd_self] at hentry
      cases hentry
    · rw [World.setFd_of_ne _ _ hfd] at hentry
      exact .inl hentry
  | @opened op tree fd' dir hfree =>
    by_cases hfd : fd = fd'
    · rw [hfd, World.setFd_self] at hentry
      exact .inr (.inl (by rw [← Option.some.inj hentry]))
    · rw [World.setFd_of_ne _ _ hfd] at hentry
      exact .inl hentry
  | _ => exact .inl hentry

theorem fds_before (h : Effect t w v a w' v') (hok : Permitted t call initial w v a) {fd : ℤ}
    {entry : Entry Dir Tid} (hentry : w.fds fd = some entry) (howner : entry.owner ≠ some t) :
    w'.fds fd = some entry := by
  have hne : ∀ fd', w.fds fd' = none → fd ≠ fd' := by
    rintro fd' hfree rfl
    rw [hentry] at hfree
    cases hfree
  cases h with
  | saved hfree => rw [World.setFd_of_ne _ _ (hne _ hfree), hentry]
  | opened hfree =>
    rw [World.setFd_of_ne _ _ (hne _ hfree)]
    exact hentry
  | closed =>
    obtain ⟨entry', hentry', howner'⟩ := hok
    rw [World.setFd_of_ne, hentry]
    rintro rfl
    rw [hentry] at hentry'
    exact howner (Option.some.inj hentry' ▸ howner')
  | _ => exact hentry

theorem undisturbed (h : Effect t w v a w' v') (hok : Permitted t call initial w v a)
    (hne : t' ≠ t) {away : Bool} (haway : a.usesCwd = true → away = false) :
    Undisturbed t' away w w' where
  kept := by
    intro fd entry hentry howner
    refine h.fds_before hok hentry ?_
    rcases howner with howner | howner
    · simp [howner]
    · simpa [howner] using hne
  own := by
    intro fd entry hentry howner
    rcases h.fds_after hentry with hbefore | hnone | hown
    · exact hbefore
    · rw [hnone] at howner
      cases howner
    · exact absurd (Option.some.inj (howner.symm.trans hown)) hne
  cwd := by
    intro htrue
    cases h with
    | moved => exact absurd (haway rfl) (by simp [htrue])
    | _ => rfl

theorem away_after (h : Effect t w v a w' v') (haway : v'.away = true) :
    v.away = true ∨ a.usesCwd = true := by
  cases h with
  | moved => exact .inr rfl
  | _ => exact .inl haway

/-- A call that is not away leaves the process in the initial directory. -/
theorem cwd_after (h : Effect t w v a w' v') (hok : Permitted t call initial w v a)
    (hback : v'.away = false) (hhome : v.away = false → w.cwd = initial) : w'.cwd = initial := by
  cases h with
  | @moved fd d hdir =>
    obtain ⟨entry, hentry, hd⟩ := Option.bind_eq_some_iff.mp hdir
    rcases hok entry hentry with hclient | hsaved
    · simp [World.isSaved, hentry, hclient] at hback
    · rw [hsaved] at hd
      exact (Option.some.inj hd).symm
  | _ => exact hhome hback

end Effect

namespace State

/-- Every call in progress keeps to what it owes the others, at most one is away, and the
process is in the initial directory when none is. -/
structure Invariant [DecidableEq Dir] (initial : Dir) (s : State Dir Tid) : Prop where
  sound : ∀ t r, s.threads t = some r →
    r.rest.Sound (surroundings t r.call initial) (fun _ s' => Finished t s') (s.world, r.view)
  alone : ∀ t t' r r', s.threads t = some r → s.threads t' = some r' → r.view.away = true →
    r'.view.away = true → t = t'
  home : (∀ t r, s.threads t = some r → r.view.away = false) → s.world.cwd = initial
  owned : ∀ fd entry t, s.world.fds fd = some entry → entry.owner = some t →
    ∃ r, s.threads t = some r
  based : ∀ o ∈ s.operations, o.Based initial

/-- The system call that comes next. -/
def nextAction (s : State Dir Tid) (t : Tid) : Option Action :=
  match s.threads t with
  | some ⟨_, .act a _, _⟩ => some a
  | _ => none

/-- The thread is between its `fchdir(dirfd)` and the `fchdir` that restores the directory. -/
def isAway (s : State Dir Tid) (t : Tid) : Bool := (s.threads t).any fun r => r.view.away

/-- The directory names that the call of the thread has got from `getcwd`. -/
def namesOf (s : State Dir Tid) (t : Tid) : List (CString × Dir) :=
  ((s.threads t).map fun r => r.view.names).getD []

/-- The system call that comes next disturbs no other call: if it uses the working directory,
no other thread is away, and if it is an operation, the names its call has got are not stale. -/
def Calm (s : State Dir Tid) : Event Dir Tid → Prop
  | .begin _ _ => True
  | .act t _ =>
    ((s.nextAction t).any Action.usesCwd = true → ∀ t', t' ≠ t → s.isAway t' = false) ∧
      ((s.nextAction t).any Action.isCall = true →
        ∀ name ∈ s.namesOf t, s.world.tree.Names name.2 name.1.bytes)

def CalmRun [DecidableEq Dir] [DecidableEq Tid] (s : State Dir Tid) : List (Event Dir Tid) → Prop
  | [] => True
  | e :: events => s.Calm e ∧ ∀ s' ∈ s.step e, s'.CalmRun events

theorem Calm.quiet_others {s : State Dir Tid} {t : Tid} {c : Choice Dir} {call : Call} {a : Action}
    {next : a.Answer → Code (Except Errno Reply)} {view : View Dir} (h : s.Calm (.act t c))
    (ht : s.threads t = some ⟨call, .act a next, view⟩) (hcwd : a.usesCwd = true) {t' : Tid}
    {r : Running Dir} (hne : t' ≠ t) (hr : s.threads t' = some r) : r.view.away = false := by
  have haway := h.1 (by rw [nextAction, ht]; exact hcwd) t' hne
  rwa [isAway, hr] at haway

theorem Calm.fresh {s : State Dir Tid} {t : Tid} {c : Choice Dir} {call : Call} {op : Op}
    {next : Except Errno op.Reply → Code (Except Errno Reply)} {view : View Dir}
    (h : s.Calm (.act t c)) (ht : s.threads t = some ⟨call, .act (.call op) next, view⟩) :
    view.Fresh s.world.tree := by
  have hnames := h.2 (by rw [nextAction, ht]; rfl)
  rwa [namesOf, ht] at hnames

section Steps

variable [DecidableEq Dir] {initial : Dir} {s : State Dir Tid} {t : Tid}

theorem invariant_start (tree : FileTree Dir) (descriptors : ℤ → Option (Option Dir)) :
    (start initial tree descriptors : State Dir Tid).Invariant initial where
  sound := by simp [start]
  alone := by simp [start]
  home := fun _ => rfl
  owned := by
    intro fd entry t hentry howner
    obtain ⟨dir, -, rfl⟩ := Option.map_eq_some_iff.mp hentry
    cases howner
  based := by simp [start]

theorem Invariant.cwd_of_quiet (h : s.Invariant initial) (hquiet : s.Quiet) :
    s.world.cwd = initial := by
  refine h.home fun t r hr => ?_
  rw [hquiet t] at hr
  cases hr

/-- What a calm system call finds, and what it leaves to its own thread. -/
theorem Invariant.permitted {call : Call} {a : Action} {next : a.Answer → Code (Except Errno Reply)}
    {view : View Dir} {c : Choice Dir} (h : s.Invariant initial)
    (ht : s.threads t = some ⟨call, .act a next, view⟩) (hcalm : s.Calm (.act t c)) :
    Permitted t call initial s.world view a ∧
      ∀ x w, s.world.perform t c a = some (x, w) →
        (next x).Sound (surroundings t call initial) (fun _ s' => Finished t s')
          (w, view.after s.world a x) := by
  have hfresh : ∀ op, a = .call op → view.Fresh s.world.tree := by
    rintro op rfl
    exact hcalm.fresh ht
  have hhome : a.usesCwd = true → view.away = false → s.world.cwd = initial := by
    intro hcwd haway
    refine h.home fun t' r hr => ?_
    by_cases hne : t' = t
    · subst hne
      rw [ht] at hr
      rw [← Option.some.inj hr]
      exact haway
    · exact hcalm.quiet_others ht hcwd hne hr
  obtain ⟨hok, hnext⟩ := h.sound t _ ht (s.world, view) (surroundings_refl _) ⟨hhome, hfresh⟩
  exact ⟨hok, fun x w hp => hnext x (w, _) ⟨⟨c, hp⟩, rfl⟩⟩

variable [DecidableEq Tid]

theorem Invariant.resume {call : Call} {rest : Code (Except Errno Reply)} {view : View Dir}
    (h : (s.setThread t (some ⟨call, rest, view⟩)).Invariant initial) :
    (s.resume t call view rest).Invariant initial := by
  cases rest with
  | act a next => exact h
  | done result =>
    have hfinished : Finished t (s.world, view) :=
      h.sound t ⟨call, .done result, view⟩ (setThread_self ..)
    have hthread : ∀ t' r, (s.setThread t none).threads t' = some r →
        (s.setThread t (some ⟨call, .done result, view⟩)).threads t' = some r := by
      intro t' r hr
      rcases setThread_cases _ _ hr with ⟨-, hnone⟩ | ⟨hne, hr⟩
      · cases hnone
      · exact (setThread_of_ne _ _ hne).trans hr
    constructor
    · intro t' r hr
      exact h.sound t' r (hthread t' r hr)
    · intro t₁ t₂ r₁ r₂ h₁ h₂
      exact h.alone t₁ t₂ r₁ r₂ (hthread t₁ r₁ h₁) (hthread t₂ r₂ h₂)
    · intro haway
      refine h.home fun t' r hr => ?_
      rcases setThread_cases _ _ hr with ⟨-, hsome⟩ | ⟨hne, hr⟩
      · rw [← Option.some.inj hsome]
        exact hfinished.1
      · exact haway t' r ((setThread_of_ne _ _ hne).trans hr)
    · intro fd entry t' hentry howner
      have ht : t' ≠ t := by
        rintro rfl
        exact hfinished.2 fd entry hentry howner
      obtain ⟨r, hr⟩ := h.owned fd entry t' hentry howner
      rw [setThread_of_ne _ _ ht] at hr
      exact ⟨r, (setThread_of_ne _ _ ht).trans hr⟩
    · exact h.based

theorem Invariant.begin {call : Call} (h : s.Invariant initial) (ht : s.threads t = none)
    (hadmits : s.world.admits call = true) :
    (s.setThread t (some ⟨call, call.code, ⟨false, []⟩⟩)).Invariant initial := by
  have hold : ∀ t' r, s.threads t' = some r →
      (s.setThread t (some ⟨call, call.code, ⟨false, []⟩⟩)).threads t' = some r := by
    intro t' r hr
    refine (setThread_of_ne _ _ ?_).trans hr
    rintro rfl
    rw [ht] at hr
    cases hr
  have hknows : Knows t initial s.world.clients none none [] (s.world, ⟨false, []⟩) := by
    constructor
    · intro fd dir hdir
      obtain ⟨⟨dir', owner⟩, hentry, hclient⟩ := Option.bind_eq_some_iff.mp hdir
      split_ifs at hclient with howner
      obtain rfl : owner = none := Option.isNone_iff_eq_none.mp howner
      rw [hentry, ← Option.some.inj hclient]
    · simp
    · intro fd entry hentry howner
      obtain ⟨r, hr⟩ := h.owned fd entry t hentry howner
      rw [ht] at hr
      cases hr
    · rfl
    · simp
    · rfl
  constructor
  · intro t' r hr
    rcases setThread_cases _ _ hr with ⟨rfl, hsome⟩ | ⟨-, hr⟩
    · obtain rfl := Option.some.inj hsome
      refine Call.code_sound hknows (World.admits_path hadmits) ?_
      rintro fd rfl
      exact World.exists_clients hadmits
    · exact h.sound t' r hr
  · intro t₁ t₂ r₁ r₂ h₁ h₂ haway₁ haway₂
    rcases setThread_cases _ _ h₁ with ⟨-, hsome⟩ | ⟨-, h₁⟩
    · rw [← Option.some.inj hsome] at haway₁
      cases haway₁
    rcases setThread_cases _ _ h₂ with ⟨-, hsome⟩ | ⟨-, h₂⟩
    · rw [← Option.some.inj hsome] at haway₂
      cases haway₂
    exact h.alone t₁ t₂ r₁ r₂ h₁ h₂ haway₁ haway₂
  · intro haway
    exact h.home fun t' r hr => haway t' r (hold t' r hr)
  · intro fd entry t' hentry howner
    obtain ⟨r, hr⟩ := h.owned fd entry t' hentry howner
    exact ⟨r, hold t' r hr⟩
  · exact h.based

theorem Invariant.act {call : Call} {a : Action} {next : a.Answer → Code (Except Errno Reply)}
    {view : View Dir} {c : Choice Dir} {x : a.Answer} {w : World Dir Tid}
    (h : s.Invariant initial) (ht : s.threads t = some ⟨call, .act a next, view⟩)
    (hcalm : s.Calm (.act t c)) (hp : s.world.perform t c a = some (x, w)) :
    ({ s.record call a with world := w }.setThread t
      (some ⟨call, next x, view.after s.world a x⟩)).Invariant initial := by
  obtain ⟨hok, hnext⟩ := h.permitted ht hcalm
  have heffect := perform_effect view hp
  have hcases : ∀ {t' r}, ({ s.record call a with world := w }.setThread t
      (some ⟨call, next x, view.after s.world a x⟩)).threads t' = some r →
      (t' = t ∧ r = ⟨call, next x, view.after s.world a x⟩) ∨
        (t' ≠ t ∧ s.threads t' = some r) := by
    intro t' r hr
    rcases setThread_cases _ _ hr with ⟨ht', hsome⟩ | ⟨hne, hr⟩
    · exact .inl ⟨ht', (Option.some.inj hsome).symm⟩
    · exact .inr ⟨hne, record_threads s call a ▸ hr⟩
  have hothers : ∀ t' r, t' ≠ t → s.threads t' = some r → a.usesCwd = true →
      r.view.away = false :=
    fun t' r hne hr hcwd => hcalm.quiet_others ht hcwd hne hr
  have hlast : ∀ t' r, t' ≠ t → s.threads t' = some r → (view.after s.world a x).away = true →
      r.view.away = false := by
    intro t' r hne hr haway
    rcases heffect.away_after haway with hbefore | hcwd
    · rw [← Bool.not_eq_true]
      exact fun haway' => hne (h.alone t' t r _ hr ht haway' hbefore)
    · exact hothers t' r hne hr hcwd
  constructor
  · intro t' r hr
    rcases hcases hr with ⟨rfl, rfl⟩ | ⟨hne, hr⟩
    · exact hnext x w hp
    · exact (h.sound t' r hr).rely ⟨rfl, heffect.undisturbed hok hne (hothers t' r hne hr)⟩
        surroundings_trans fun _ _ _ => finished_stable
  · intro t₁ t₂ r₁ r₂ h₁ h₂ haway₁ haway₂
    rcases hcases h₁ with ⟨ht₁, rfl⟩ | ⟨hne₁, h₁'⟩ <;>
      rcases hcases h₂ with ⟨ht₂, rfl⟩ | ⟨hne₂, h₂'⟩
    · exact ht₁.trans ht₂.symm
    · rw [hlast t₂ r₂ hne₂ h₂' haway₁] at haway₂
      cases haway₂
    · rw [hlast t₁ r₁ hne₁ h₁' haway₂] at haway₁
      cases haway₁
    · exact h.alone t₁ t₂ r₁ r₂ h₁' h₂' haway₁ haway₂
  · intro haway
    refine heffect.cwd_after hok (haway t _ (setThread_self ..)) fun hbefore => ?_
    refine h.home fun t' r hr => ?_
    by_cases hne : t' = t
    · subst hne
      rw [ht] at hr
      rw [← Option.some.inj hr]
      exact hbefore
    · refine haway t' r ((setThread_of_ne _ _ hne).trans ?_)
      exact record_threads s call a ▸ hr
  · intro fd entry t' hentry howner
    by_cases hne : t' = t
    · subst hne
      exact ⟨_, setThread_self ..⟩
    · rcases heffect.fds_after hentry with hbefore | hnone | hown
      · obtain ⟨r, hr⟩ := h.owned fd entry t' hbefore howner
        exact ⟨r, (setThread_of_ne _ _ hne).trans (record_threads s call a ▸ hr)⟩
      · rw [hnone] at howner
        cases howner
      · exact absurd (Option.some.inj (howner.symm.trans hown)) hne
  · intro o ho
    rcases mem_record ho with ho | ⟨op, rfl, rfl⟩
    · exact h.based o ho
    · exact hok

theorem Invariant.step {e : Event Dir Tid} {s' : State Dir Tid} (h : s.Invariant initial)
    (hcalm : s.Calm e) (hstep : s.step e = some s') : s'.Invariant initial := by
  rcases step_cases hstep with ⟨t, call, rfl, ht, hadmits, rfl⟩ |
    ⟨t, c, call, a, next, view, x, w, rfl, ht, hp, rfl⟩
  · exact (h.begin ht hadmits).resume
  · exact (h.act ht hcalm hp).resume

theorem Invariant.run {events : List (Event Dir Tid)} {s' : State Dir Tid}
    (h : s.Invariant initial) (hcalm : s.CalmRun events) (hrun : s.run events = some s') :
    s'.Invariant initial := by
  induction events generalizing s with
  | nil =>
    obtain rfl := Option.some.inj hrun
    exact h
  | cons e events ih =>
    obtain ⟨s₁, hstep, hrest⟩ := Option.bind_eq_some_iff.mp hrun
    exact ih (h.step hcalm.1 hstep) (hcalm.2 s₁ hstep) hrest

end Steps

end State

section Sample

/-- A root directory `0` with the directories `a` and `b`, which are `1` and `2`. -/
def sampleTree : FileTree (Fin 3) where
  root := 0
  child := fun d name =>
    if d = 0 ∧ name = [ch 'a'] then some 1 else if d = 0 ∧ name = [ch 'b'] then some 2 else none

/-- Descriptor `3` is open on `a` and descriptor `4` on `b`. -/
def sampleDescriptors (fd : ℤ) : Option (Option (Fin 3)) :=
  if fd = 3 then some (some 1) else if fd = 4 then some (some 2) else none

def sampleStart : State (Fin 3) Bool := .start 0 sampleTree sampleDescriptors

/-- Success, with the number of a new descriptor where one is opened. -/
def success (number : ℤ) : Choice (Fin 3) :=
  ⟨none, number, none, ⟨0, 0⟩, .ofString "/b", sampleTree⟩

def failure (e : Errno) : Choice (Fin 3) := { success 0 with failure := some e }

end Sample

end Solcompat.At
