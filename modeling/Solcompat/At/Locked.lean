import Solcompat.At.Runs

/-!
# The calls under the lock

A call that takes `at_mutex` first and releases it last makes all its other system calls,
and its one operation, while it holds the lock. When every call is of that kind the runs are
calm without further ado: only the holder can be away, and nothing but its own operation
changes the file tree.
-/

namespace Solcompat.At

open Lib

/-- Where a call stands: before the lock, with the lock before and after its operation, and
behind the unlock. -/
inductive Stage where
  | waiting
  | held
  | spent
  | released
  deriving DecidableEq

namespace Stage

def holds : Stage → Bool
  | held | spent => true
  | _ => false

def next (q : Stage) (a : Action) : Option Stage :=
  match q, a with
  | waiting, .lock => some held
  | waiting, _ => none
  | released, _ => none
  | _, .lock => none
  | _, .unlock => some released
  | held, .call _ => some spent
  | spent, .call _ => none
  | q, _ => some q

end Stage

theorem accepted_atEnter {dirfd : ℤ} {path : Option CString} {final : Except Errno ℤ → Stage → Prop}
    (herror : ∀ e, final (.error e) .released) (hok : ∀ fd, final (.ok fd) .held) :
    (atEnter dirfd path).Accepted Stage.next final .waiting := by
  unfold atEnter
  refine Program.accepted_perform_bind .held rfl fun _ => ?_
  refine Program.accepted_perform_bind .held rfl fun x => ?_
  cases x with
  | error e => exact ⟨.released, rfl, fun _ => herror e⟩
  | ok fd =>
    dsimp only
    split_ifs
    · exact hok fd
    · exact hok fd
    · refine Program.accepted_perform_bind .held rfl fun x => ?_
      cases x with
      | error e => exact ⟨.held, rfl, fun _ => ⟨.released, rfl, fun _ => herror e⟩⟩
      | ok _ => exact hok fd

theorem accepted_atLeave {fd : ℤ} {final : Unit → Stage → Prop} (hfinal : final () .released) :
    (atLeave fd).Accepted Stage.next final .spent := by
  unfold atLeave
  split_ifs
  · exact ⟨.spent, rfl, fun _ => ⟨.spent, rfl, fun _ => ⟨.released, rfl, fun _ => hfinal⟩⟩⟩
  · exact ⟨.released, rfl, fun _ => hfinal⟩

theorem accepted_between {dirfd : ℤ} {path : Option CString} (op : Op) :
    (between dirfd path op).Accepted Stage.next (fun _ q => q = .released) .waiting := by
  unfold between
  rw [Program.accepted_bind]
  refine accepted_atEnter (fun e => rfl) fun fd => ?_
  dsimp only
  refine Program.accepted_perform_bind .spent rfl fun x => ?_
  rw [Program.accepted_bind]
  exact accepted_atLeave rfl

theorem accepted_resolveDirfdPath {dirfd : ℤ} {final : Except Errno CString → Stage → Prop}
    (hfinal : ∀ x, final x .held) :
    (resolveDirfdPath dirfd).Accepted Stage.next final .held := by
  unfold resolveDirfdPath
  refine Program.accepted_perform_bind .held rfl fun x => ?_
  cases x with
  | error e => exact hfinal _
  | ok saved =>
    refine Program.accepted_perform_bind .held rfl fun x => ?_
    cases x with
    | error e => exact ⟨.held, rfl, fun _ => hfinal _⟩
    | ok _ =>
      exact ⟨.held, rfl, fun p => ⟨.held, rfl, fun _ => ⟨.held, rfl, fun _ => hfinal p⟩⟩⟩

theorem accepted_fullPath {dirfd : ℤ} {path : CString} {final : Except Errno CString → Stage → Prop}
    (hfinal : ∀ x, final x .held) : (fullPath dirfd path).Accepted Stage.next final .held := by
  unfold fullPath
  split_ifs
  · exact hfinal _
  · rw [Program.accepted_bind]
    refine accepted_resolveDirfdPath fun x => ?_
    cases x with
    | error e => exact hfinal _
    | ok dirpath => exact ⟨.held, rfl, fun outcome => hfinal (.ok (outcome.full dirpath path))⟩

theorem accepted_onFullPaths {olddirfd newdirfd : ℤ} {oldpath newpath : CString}
    {op : CString → CString → Code (Except Errno ℤ)}
    (hop : ∀ old new (final : Except Errno ℤ → Stage → Prop), (∀ x, final x .spent) →
      (op old new).Accepted Stage.next final .held) :
    (onFullPaths olddirfd oldpath newdirfd newpath op).Accepted Stage.next
      (fun _ q => q = .released) .waiting := by
  unfold onFullPaths
  refine Program.accepted_perform_bind .held rfl fun _ => ?_
  rw [Program.accepted_bind]
  refine accepted_fullPath fun x => ?_
  cases x with
  | error e => exact ⟨.released, rfl, fun _ => rfl⟩
  | ok old =>
    dsimp only
    rw [Program.accepted_bind]
    refine accepted_fullPath fun x => ?_
    cases x with
    | error e => exact ⟨.released, rfl, fun _ => rfl⟩
    | ok new =>
      dsimp only
      rw [Program.accepted_bind]
      exact hop old new _ fun x => ⟨.released, rfl, fun _ => rfl⟩

theorem accepted_returning {α : Type} {reply : α → Reply} {code : Code (Except Errno α)} {q : Stage}
    (h : code.Accepted Stage.next (fun _ q => q = .released) q) :
    (returning reply code).Accepted Stage.next (fun _ q => q = .released) q := by
  unfold returning
  rw [Program.accepted_bind]
  exact h

theorem Call.code_accepted {call : Call} (h : call.isLocked = true) :
    call.code.Accepted Stage.next (fun _ q => q = .released) .waiting := by
  have hop : ∀ (op : Op) (final : Except Errno op.Reply → Stage → Prop), (∀ x, final x .spent) →
      (syscall op).Accepted Stage.next final .held :=
    fun op final hfinal => ⟨.spent, rfl, hfinal⟩
  cases call with
  | renameat olddirfd oldpath newdirfd newpath =>
    apply accepted_returning
    unfold At.renameat
    rw [if_neg (by simpa only [isLocked, Bool.not_eq_true, Bool.not_eq_true'] using h)]
    exact accepted_onFullPaths fun old new => hop (.rename old new)
  | linkat olddirfd oldpath newdirfd newpath flags =>
    apply accepted_returning
    exact accepted_onFullPaths fun old new => hop (.link old new)
  | utimensat dirfd pathname times flags => cases h
  | fdopendir fd => cases h
  | unlinkat dirfd pathname flags =>
    apply accepted_returning
    unfold At.unlinkat
    split_ifs
    · exact accepted_between (.rmdir pathname)
    · exact accepted_between (.unlink pathname)
  | fstatat dirfd pathname flags =>
    apply accepted_returning
    unfold At.fstatat
    split_ifs
    · exact accepted_between (.lstat pathname)
    · exact accepted_between (.stat pathname)
  | fchownat dirfd pathname owner group flags =>
    apply accepted_returning
    unfold At.fchownat
    split_ifs
    · exact accepted_between (.lchown pathname owner group)
    · exact accepted_between (.chown pathname owner group)
  | openat dirfd pathname flags mode => exact accepted_returning (accepted_between (.open ..))
  | mkdirat dirfd pathname mode => exact accepted_returning (accepted_between (.mkdir ..))
  | fchmodat dirfd pathname mode flags => exact accepted_returning (accepted_between (.chmod ..))
  | readlinkat dirfd pathname bufsiz => exact accepted_returning (accepted_between (.readlink ..))
  | symlinkat target newdirfd linkpath => exact accepted_returning (accepted_between (.symlink ..))
  | faccessat dirfd pathname mode flags => exact accepted_returning (accepted_between (.access ..))

variable {Dir Tid : Type}

/-- A call at a stage: it holds the lock as the stage says, is away only with the lock, and
has fresh names until its operation. -/
structure Staged (w : World Dir Tid) (t : Tid) (r : Running Dir) (q : Stage) : Prop where
  accepted : r.rest.Accepted Stage.next (fun _ q => q = .released) q
  holds : q.holds = true ↔ w.atMutex = some t
  away : r.view.away = true → q.holds = true
  fresh : q = .held → r.view.Fresh w.tree
  unnamed : q = .waiting → r.view.names = []

namespace State

structure LockInvariant (s : State Dir Tid) : Prop where
  staged : ∀ t r, s.threads t = some r → ∃ q, Staged s.world t r q
  holder : ∀ t, s.world.atMutex = some t → ∃ r, s.threads t = some r

theorem lockInvariant_start (cwd : Dir) (tree : FileTree Dir)
    (descriptors : ℤ → Option (Option Dir)) :
    (start cwd tree descriptors : State Dir Tid).LockInvariant where
  staged := by simp [start]
  holder := by simp [start]

end State

theorem Stage.holds_of_next {q q' : Stage} {a : Action} (h : q.next a = some q')
    (ha : a ≠ .lock) : q.holds = true := by
  cases q with
  | waiting => cases a <;> simp [Stage.next] at h ha
  | released => simp [Stage.next] at h
  | _ => rfl

theorem Stage.next_inside {q q' : Stage} {a : Action} (h : q.next a = some q')
    (hlock : a ≠ .lock) (hunlock : a ≠ .unlock) :
    q'.holds = true ∧ (q' = .held → q = .held) := by
  cases q <;> cases a <;> simp [Stage.next] at h hlock hunlock <;> subst h <;> simp [Stage.holds]

theorem Stage.next_call {q q' : Stage} {op : Op} (h : q.next (.call op) = some q') :
    q = .held ∧ q' = .spent := by
  cases q <;> simp [Stage.next] at h
  exact ⟨rfl, h.symm⟩

variable {w w' : World Dir Tid} {t t' : Tid} {r : Running Dir} {q q' : Stage} {a : Action}
variable {v v' : View Dir}

theorem Staged.mutex_of_next (h : Staged w t r q) (hq : q.next a = some q') :
    a = .lock ∨ w.atMutex = some t := by
  by_cases ha : a = .lock
  · exact .inl ha
  · exact .inr (h.holds.mp (Stage.holds_of_next hq ha))

theorem Effect.atMutex_of_ne (h : Effect t w v a w' v') (hmutex : a = .lock ∨ w.atMutex = some t)
    (hne : t' ≠ t) : w.atMutex ≠ some t' ∧ w'.atMutex ≠ some t' := by
  have hother : (some t : Option Tid) ≠ some t' := fun heq => hne (Option.some.inj heq).symm
  cases h with
  | locked hfree => exact ⟨by simp [hfree], hother⟩
  | unlocked => exact ⟨by rw [hmutex.resolve_left (by simp)]; exact hother, by simp⟩
  | same hlock hunlock =>
    rw [hmutex.resolve_left hlock]
    exact ⟨hother, hother⟩
  | _ =>
    have hheld := hmutex.resolve_left (by simp)
    simp [hheld, hother]

theorem Staged.other (h : Staged w t' r q) (heffect : Effect t w v a w' v')
    (hmutex : a = .lock ∨ w.atMutex = some t) (hne : t' ≠ t) : Staged w' t' r q := by
  obtain ⟨hbefore, hafter⟩ := heffect.atMutex_of_ne hmutex hne
  have hholds : q.holds = false := by
    rw [← Bool.not_eq_true]
    exact fun hq => hbefore (h.holds.mp hq)
  refine ⟨h.accepted, ?_, h.away, ?_, h.unnamed⟩
  · simp [hholds, hafter]
  · rintro rfl
    cases hholds

theorem Staged.act {call : Call} {initial : Dir} {next : a.Answer → Code (Except Errno Reply)}
    (h : Staged w t ⟨call, .act a next, v⟩ q) (heffect : Effect t w v a w' v')
    (hok : Permitted t call initial w v a) (hq : q.next a = some q') {x : a.Answer}
    (haccepted : (next x).Accepted Stage.next (fun _ q => q = .released) q') :
    Staged w' t ⟨call, next x, v'⟩ q' := by
  have hwaiting : q' ≠ .waiting := by
    rintro rfl
    cases q <;> cases a <;> simp [Stage.next] at hq
  refine ⟨haccepted, ?_, ?_, ?_, fun hq' => absurd hq' hwaiting⟩
  · cases heffect with
    | locked hfree =>
      cases q <;> simp [Stage.next] at hq
      subst hq
      simp [Stage.holds]
    | unlocked =>
      cases q <;> simp [Stage.next] at hq <;> subst hq <;> simp [Stage.holds]
    | same hlock hunlock =>
      have hheld := (h.mutex_of_next hq).resolve_left hlock
      simp [(Stage.next_inside hq hlock hunlock).1, hheld]
    | _ =>
      have hheld := (h.mutex_of_next hq).resolve_left (by simp)
      simp [(Stage.next_inside hq (by simp) (by simp)).1, hheld]
  · intro haway
    cases heffect with
    | locked =>
      cases q <;> simp [Stage.next] at hq
      rw [← hq]
      rfl
    | unlocked =>
      rw [show v.away = false from hok] at haway
      cases haway
    | same hlock hunlock => exact (Stage.next_inside hq hlock hunlock).1
    | _ => exact (Stage.next_inside hq (by simp) (by simp)).1
  · intro hheld
    cases heffect with
    | locked =>
      have hnames : v.names = [] := h.unnamed (by cases q <;> simp [Stage.next] at hq ⊢)
      simp [View.Fresh, hnames]
    | unlocked =>
      cases q <;> simp [Stage.next] at hq <;> rw [← hq] at hheld <;> cases hheld
    | same hlock hunlock => exact h.fresh ((Stage.next_inside hq hlock hunlock).2 hheld)
    | named hname =>
      have hold := h.fresh ((Stage.next_inside hq (by simp) (by simp)).2 hheld)
      intro name hmem
      rcases List.mem_append.mp hmem with hmem | hmem
      · exact hold name hmem
      · rw [List.mem_singleton.mp hmem]
        exact hname
    | ran =>
      rw [(Stage.next_call hq).2] at hheld
      cases hheld
    | opened =>
      rw [(Stage.next_call hq).2] at hheld
      cases hheld
    | _ => exact h.fresh ((Stage.next_inside hq (by simp) (by simp)).2 hheld)

namespace State

variable {s : State Dir Tid}

theorem LockInvariant.calm (h : s.LockInvariant) (t : Tid) (c : Choice Dir) :
    s.Calm (.act t c) := by
  rcases hthread : s.threads t with _ | ⟨call, _ | ⟨a, next⟩, view⟩
  · have hnone : s.nextAction t = none := by rw [nextAction, hthread]
    simp [Calm, hnone]
  · have hnone : s.nextAction t = none := by rw [nextAction, hthread]
    simp [Calm, hnone]
  have hsome : s.nextAction t = some a := by rw [nextAction, hthread]
  rw [Calm, hsome]
  obtain ⟨q, hq⟩ := h.staged t _ hthread
  obtain ⟨q', hnext, -⟩ := hq.accepted
  constructor
  · intro hcwd t' hne
    have hheld : s.world.atMutex = some t := by
      refine (hq.mutex_of_next hnext).resolve_left ?_
      rintro rfl
      cases hcwd
    unfold isAway
    rcases hother : s.threads t' with _ | r
    · rfl
    obtain ⟨q'', hq''⟩ := h.staged t' r hother
    rw [Option.any_some, ← Bool.not_eq_true]
    intro haway
    have hheld' := hq''.holds.mp (hq''.away haway)
    exact hne (Option.some.inj (hheld'.symm.trans hheld))
  · intro hcall
    rw [namesOf, hthread]
    cases a with
    | call op => exact hq.fresh (Stage.next_call hnext).1
    | _ => cases hcall

variable [DecidableEq Tid]

theorem LockInvariant.resume {call : Call} {rest : Code (Except Errno Reply)} {view : View Dir}
    (h : (s.setThread t (some ⟨call, rest, view⟩)).LockInvariant) :
    (s.resume t call view rest).LockInvariant := by
  cases rest with
  | act a next => exact h
  | done result =>
    obtain ⟨q, hq⟩ := h.staged t _ (setThread_self ..)
    have hfree : s.world.atMutex ≠ some t := by
      intro hheld
      have hholds := hq.holds.mpr hheld
      rw [show q = .released from hq.accepted] at hholds
      cases hholds
    constructor
    · intro t' r hr
      rcases setThread_cases _ _ hr with ⟨-, hnone⟩ | ⟨hne, hr⟩
      · cases hnone
      · exact h.staged t' r ((setThread_of_ne _ _ hne).trans hr)
    · intro t' ht'
      have hne : t' ≠ t := by
        rintro rfl
        exact hfree ht'
      obtain ⟨r, hr⟩ := h.holder t' ht'
      rw [setThread_of_ne _ _ hne] at hr
      exact ⟨r, (setThread_of_ne _ _ hne).trans hr⟩

theorem LockInvariant.begin {call : Call} (h : s.LockInvariant) (ht : s.threads t = none)
    (hlocked : call.isLocked = true) :
    (s.setThread t (some ⟨call, call.code, ⟨false, []⟩⟩)).LockInvariant := by
  have hfree : s.world.atMutex ≠ some t := by
    intro hheld
    obtain ⟨r, hr⟩ := h.holder t hheld
    rw [ht] at hr
    cases hr
  constructor
  · intro t' r hr
    rcases setThread_cases _ _ hr with ⟨rfl, hsome⟩ | ⟨-, hr⟩
    · obtain rfl := Option.some.inj hsome
      refine ⟨.waiting, Call.code_accepted hlocked, ?_, ?_, ?_, fun _ => rfl⟩
      · simp [Stage.holds, hfree]
      · rintro ⟨⟩
      · rintro ⟨⟩
    · exact h.staged t' r hr
  · intro t' ht'
    obtain ⟨r, hr⟩ := h.holder t' ht'
    refine ⟨r, (setThread_of_ne _ _ ?_).trans hr⟩
    rintro rfl
    exact hfree ht'

theorem LockInvariant.act [DecidableEq Dir] {call : Call} {initial : Dir}
    {next : a.Answer → Code (Except Errno Reply)} {c : Choice Dir} {x : a.Answer}
    (h : s.LockInvariant) (ht : s.threads t = some ⟨call, .act a next, v⟩)
    (hok : Permitted t call initial s.world v a) (hp : s.world.perform t c a = some (x, w)) :
    ({ s.record call a with world := w }.setThread t
      (some ⟨call, next x, v.after s.world a x⟩)).LockInvariant := by
  obtain ⟨q, hq⟩ := h.staged t _ ht
  obtain ⟨q', hnext, haccepted⟩ := hq.accepted
  have heffect := perform_effect v hp
  have hmutex := hq.mutex_of_next hnext
  constructor
  · intro t' r hr
    rcases setThread_cases _ _ hr with ⟨rfl, hsome⟩ | ⟨hne, hr⟩
    · obtain rfl := Option.some.inj hsome
      exact ⟨q', hq.act heffect hok hnext (haccepted x)⟩
    · obtain ⟨q'', hq''⟩ := h.staged t' r (record_threads s call a ▸ hr)
      exact ⟨q'', hq''.other heffect hmutex hne⟩
  · intro t' ht'
    by_cases hne : t' = t
    · subst hne
      exact ⟨_, setThread_self ..⟩
    · exact absurd ht' (heffect.atMutex_of_ne hmutex hne).2

end State

/-- The event begins a call that runs under the lock, or goes on with one. -/
def Event.isLocked : Event Dir Tid → Bool
  | .begin _ call => call.isLocked
  | .act _ _ => true

namespace State

variable [DecidableEq Dir] [DecidableEq Tid] {initial : Dir} {s s' : State Dir Tid}

theorem locked_step {e : Event Dir Tid} (h : s.Invariant initial) (hlock : s.LockInvariant)
    (he : e.isLocked = true) (hstep : s.step e = some s') :
    s'.Invariant initial ∧ s'.LockInvariant := by
  rcases step_cases hstep with ⟨t, call, rfl, ht, hadmits, rfl⟩ |
    ⟨t, c, call, a, next, view, x, w, rfl, ht, hp, rfl⟩
  · exact ⟨(h.begin ht hadmits).resume, (hlock.begin ht he).resume⟩
  · have hcalm := hlock.calm t c
    obtain ⟨hok, -⟩ := h.permitted ht hcalm
    exact ⟨(h.act ht hcalm hp).resume, (hlock.act ht hok hp).resume⟩

theorem locked_run {events : List (Event Dir Tid)} (h : s.Invariant initial)
    (hlock : s.LockInvariant) (hevents : ∀ e ∈ events, e.isLocked = true)
    (hrun : s.run events = some s') : s'.Invariant initial ∧ s'.LockInvariant := by
  induction events generalizing s with
  | nil =>
    obtain rfl := Option.some.inj hrun
    exact ⟨h, hlock⟩
  | cons e events ih =>
    obtain ⟨s₁, hstep, hrest⟩ := Option.bind_eq_some_iff.mp hrun
    obtain ⟨h₁, hlock₁⟩ := locked_step h hlock (hevents e (.head _)) hstep
    exact ih h₁ hlock₁ (fun e' he' => hevents e' (.tail _ he')) hrest

end State

/-- `openat(3, "f", O_RDONLY)` succeeds while `renameat(4, "x", AT_FDCWD, "y")` waits for the
lock; then `fchdir(4)` fails in the latter. -/
def lockedEvents : List (Event (Fin 3) Bool) :=
  [.begin false (.openat 3 (some (.ofString "f")) 0 0), .act false (success 0),
    .begin true (.renameat 4 (.ofString "x") atFdcwd (.ofString "y")),
    .act false (success 5), .act false (success 0), .act false (success 7),
    .act false (success 0), .act false (success 0), .act false (success 0),
    .act true (success 0), .act true (success 5), .act true (failure .EBADF),
    .act true (success 0), .act true (success 0)]

end Solcompat.At
