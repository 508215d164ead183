import Solcompat.At.Locate

/-!
# One call among others

What a call may rely on and what it guarantees, with one rule for each system call. The
others leave alone the descriptors of the program and those this call opened, and the
working directory while this call is away. In return the call closes only what it opened,
comes back to the initial directory, and makes its operations from the directories it names.
That needs two things each time: a step that uses the working directory finds the initial
one unless the call is away, and the names from `getcwd` still are names of their
directories when an operation is made.
-/

namespace Solcompat.At

open Lib

variable {Dir Tid : Type}

/-- The outcome of the system call depends on the working directory, or changes it. -/
def Action.usesCwd : Action → Bool
  | openDot | fchdir _ | getcwd _ => true
  | call op => op.paths.any fun path => !path.any isAbsolute
  | _ => false

def Action.isCall : Action → Bool
  | call _ => true
  | _ => false

/-- What other threads leave alone. -/
structure Undisturbed (t : Tid) (away : Bool) (w w' : World Dir Tid) : Prop where
  kept : ∀ fd entry, w.fds fd = some entry → entry.owner = none ∨ entry.owner = some t →
    w'.fds fd = some entry
  own : ∀ fd entry, w'.fds fd = some entry → entry.owner = some t → w.fds fd = some entry
  cwd : away = true → w'.cwd = w.cwd

theorem Undisturbed.trans {t : Tid} {away : Bool} {w w' w'' : World Dir Tid}
    (h : Undisturbed t away w w') (h' : Undisturbed t away w' w'') : Undisturbed t away w w'' where
  kept := fun fd entry he ho => h'.kept fd entry (h.kept fd entry he ho) ho
  own := fun fd entry he ho => h.own fd entry (h'.own fd entry he ho) ho
  cwd := fun ha => (h'.cwd ha).trans (h.cwd ha)

/-- What a thread has to see to before a system call. -/
def Permitted (t : Tid) (call : Call) (initial : Dir) (w : World Dir Tid) (v : View Dir) :
    Action → Prop
  | .fchdir fd => ∀ entry, w.fds fd = some entry →
      entry.owner = none ∨ entry = ⟨some initial, some t⟩
  | .close fd => ∃ entry, w.fds fd = some entry ∧ entry.owner = some t
  | .unlock => v.away = false
  | .call op => Operation.Based initial ⟨call, op, w⟩
  | _ => True

/-- The names from `getcwd` are still names of the directories they were got for. -/
def View.Fresh (v : View Dir) (tree : FileTree Dir) : Prop :=
  ∀ name ∈ v.names, tree.Names name.2 name.1.bytes

def surroundings [DecidableEq Dir] (t : Tid) (call : Call) (initial : Dir) :
    Program.Surroundings Action Action.Answer (World Dir Tid × View Dir) where
  rely s s' := s'.2 = s.2 ∧ Undisturbed t s.2.away s.1 s'.1
  given s a :=
    (a.usesCwd = true → s.2.away = false → s.1.cwd = initial) ∧
      ∀ op, a = .call op → s.2.Fresh s.1.tree
  ok s a := Permitted t call initial s.1 s.2 a
  sem s a x s' := (∃ c, s.1.perform t c a = some (x, s'.1)) ∧ s'.2 = s.2.after s.1 a x

/-- What a call knows of the state: the descriptors `dirs` of the program, the one
descriptor it has open itself, the directory it is away in and the names it has got. -/
structure Knows (t : Tid) (initial : Dir) (dirs : ℤ → Option (Option Dir)) (saved : Option ℤ)
    (away : Option Dir) (names : List (CString × Dir)) (s : World Dir Tid × View Dir) : Prop where
  client : ∀ fd dir, dirs fd = some dir → s.1.fds fd = some ⟨dir, none⟩
  back : ∀ fd, saved = some fd → s.1.fds fd = some ⟨some initial, some t⟩
  own : ∀ fd entry, s.1.fds fd = some entry → entry.owner = some t → saved = some fd
  isAway : s.2.away = away.isSome
  cwd : ∀ d, away = some d → s.1.cwd = d
  got : s.2.names = names

section

variable {t : Tid} {initial : Dir} {dirs : ℤ → Option (Option Dir)} {saved : Option ℤ}
variable {away away' : Option Dir} {names names' : List (CString × Dir)}
variable {s s' : World Dir Tid × View Dir}

theorem Knows.move (h : Knows t initial dirs saved away names s) (hfds : s'.1.fds = s.1.fds)
    (haway : s'.2.away = away'.isSome) (hcwd : ∀ d, away' = some d → s'.1.cwd = d)
    (hnames : s'.2.names = names') : Knows t initial dirs saved away' names' s' where
  client := by simpa only [hfds] using h.client
  back := by simpa only [hfds] using h.back
  own := by simpa only [hfds] using h.own
  isAway := haway
  cwd := hcwd
  got := hnames

/-- A step that changes neither the descriptors, nor the working directory, nor the view. -/
theorem Knows.of_eq (h : Knows t initial dirs saved away names s)
    (hfds : s'.1.fds = s.1.fds) (hcwd : s'.1.cwd = s.1.cwd) (hview : s'.2 = s.2) :
    Knows t initial dirs saved away names s' :=
  h.move hfds (by rw [hview, h.isAway]) (by simpa only [hcwd] using h.cwd) (by rw [hview, h.got])

theorem Knows.opens {fd : ℤ} {entry : Entry Dir Tid} {saved' : Option ℤ}
    (h : Knows t initial dirs saved away names s) (hnone : s.1.fds fd = none)
    (hfd : s'.1.fds fd = some entry) (hfds : ∀ fd', fd' ≠ fd → s'.1.fds fd' = s.1.fds fd')
    (hback : ∀ fd', saved' = some fd' → s'.1.fds fd' = some ⟨some initial, some t⟩)
    (hown : ∀ fd', saved = some fd' → saved' = some fd')
    (howner : entry.owner = some t → saved' = some fd)
    (hcwd : s'.1.cwd = s.1.cwd) (hview : s'.2 = s.2) :
    Knows t initial dirs saved' away names s' where
  client := by
    intro fd' dir hdir
    have hne : fd' ≠ fd := by
      rintro rfl
      rw [h.client _ dir hdir] at hnone
      cases hnone
    rw [hfds fd' hne, h.client fd' dir hdir]
  back := hback
  own := by
    intro fd' entry' hentry howner'
    by_cases hne : fd' = fd
    · subst hne
      rw [hfd] at hentry
      obtain rfl := Option.some.inj hentry
      exact howner howner'
    · rw [hfds fd' hne] at hentry
      exact hown fd' (h.own fd' entry' hentry howner')
  isAway := by rw [hview, h.isAway]
  cwd := by simpa only [hcwd] using h.cwd
  got := by rw [hview, h.got]

end

section Rules

variable [DecidableEq Dir] {t : Tid} {call : Call} {initial : Dir}
variable {dirs : ℤ → Option (Option Dir)} {saved : Option ℤ} {away : Option Dir}
variable {names : List (CString × Dir)} {s s' : World Dir Tid × View Dir}

theorem surroundings_trans (s₁ s₂ s₃ : World Dir Tid × View Dir)
    (h : (surroundings t call initial).rely s₁ s₂) (h' : (surroundings t call initial).rely s₂ s₃) :
    (surroundings t call initial).rely s₁ s₃ := by
  obtain ⟨hview, hworld⟩ := h
  obtain ⟨hview', hworld'⟩ := h'
  exact ⟨hview'.trans hview, hworld.trans (by rwa [hview] at hworld')⟩

theorem surroundings_refl (s : World Dir Tid × View Dir) :
    (surroundings t call initial).rely s s :=
  ⟨rfl, fun _ _ h _ => h, fun _ _ h _ => h, fun _ => rfl⟩

theorem Knows.rely (h : Knows t initial dirs saved away names s)
    (hrely : (surroundings t call initial).rely s s') :
    Knows t initial dirs saved away names s' := by
  obtain ⟨hview, hworld⟩ := hrely
  constructor
  · intro fd dir hdir
    exact hworld.kept fd _ (h.client fd dir hdir) (.inl rfl)
  · intro fd hfd
    exact hworld.kept fd _ (h.back fd hfd) (.inr rfl)
  · intro fd entry hentry howner
    exact h.own fd entry (hworld.own fd entry hentry howner) howner
  · rw [hview, h.isAway]
  · intro d hd
    rw [hworld.cwd (by rw [h.isAway, hd]; rfl), h.cwd d hd]
  · rw [hview, h.got]

theorem sound_pthreadMutexLock {post : Unit → World Dir Tid × View Dir → Prop}
    (h : Knows t initial dirs saved away names s)
    (hpost : ∀ s', Knows t initial dirs saved away names s' → post () s') :
    pthreadMutexLock.Sound (surroundings t call initial) post s := by
  intro s₁ hrely hgiven
  refine ⟨trivial, ?_⟩
  rintro x s₂ ⟨⟨c, hc⟩, hview⟩
  simp only [World.perform] at hc
  split at hc
  · obtain ⟨rfl, hw⟩ := Prod.mk.inj (Option.some.inj hc)
    exact hpost s₂ ((h.rely hrely).of_eq (by rw [← hw]) (by rw [← hw]) hview)
  · cases hc

theorem sound_pthreadMutexUnlock {post : Unit → World Dir Tid × View Dir → Prop}
    (h : Knows t initial dirs saved none names s)
    (hpost : ∀ s', Knows t initial dirs saved none names s' → post () s') :
    pthreadMutexUnlock.Sound (surroundings t call initial) post s := by
  intro s₁ hrely hgiven
  refine ⟨(h.rely hrely).isAway, ?_⟩
  rintro x s₂ ⟨⟨c, hc⟩, hview⟩
  obtain ⟨rfl, hw⟩ := Prod.mk.inj (Option.some.inj hc)
  exact hpost s₂ ((h.rely hrely).of_eq (by rw [← hw]) (by rw [← hw]) hview)

theorem sound_timeNow {post : ℤ → World Dir Tid × View Dir → Prop}
    (h : Knows t initial dirs saved away names s)
    (hpost : ∀ now s', Knows t initial dirs saved away names s' → post now s') :
    timeNow.Sound (surroundings t call initial) post s := by
  intro s₁ hrely hgiven
  refine ⟨trivial, ?_⟩
  rintro x s₂ ⟨⟨c, hc⟩, hview⟩
  obtain ⟨-, hw⟩ := Prod.mk.inj (Option.some.inj hc)
  exact hpost x s₂ ((h.rely hrely).of_eq (by rw [← hw]) (by rw [← hw]) hview)

theorem sound_snprintf {dirpath path : CString}
    {post : Formatting → World Dir Tid × View Dir → Prop}
    (h : Knows t initial dirs saved away names s)
    (hpost : ∀ s', Knows t initial dirs saved away names s' → post .written s') :
    (snprintf dirpath path).Sound (surroundings t call initial) post s := by
  intro s₁ hrely hgiven
  refine ⟨trivial, ?_⟩
  rintro x s₂ ⟨⟨c, hc⟩, hview⟩
  obtain ⟨rfl, hw⟩ := Prod.mk.inj (Option.some.inj hc)
  exact hpost s₂ ((h.rely hrely).of_eq (by rw [← hw]) (by rw [← hw]) hview)

theorem sound_openDot {post : Except Errno ℤ → World Dir Tid × View Dir → Prop}
    (h : Knows t initial dirs none none names s)
    (herror : ∀ e s', Knows t initial dirs none none names s' → post (.error e) s')
    (hok : ∀ fd s', 0 ≤ fd → Knows t initial dirs (some fd) none names s' → post (.ok fd) s') :
    openDot.Sound (surroundings t call initial) post s := by
  intro s₁ hrely hgiven
  refine ⟨trivial, ?_⟩
  rintro x s₂ ⟨⟨c, hc⟩, hview⟩
  have h₁ := h.rely hrely
  have hcwd : s₁.1.cwd = initial := hgiven.1 rfl h₁.isAway
  simp only [World.perform] at hc
  split at hc
  · obtain ⟨rfl, hw⟩ := Prod.mk.inj (Option.some.inj hc)
    exact herror _ s₂ (h₁.of_eq (by rw [← hw]) (by rw [← hw]) hview)
  · split_ifs at hc with hfresh
    obtain ⟨rfl, hw⟩ := Prod.mk.inj (Option.some.inj hc)
    have hnone : s₁.1.fds c.number = none := Option.isNone_iff_eq_none.mp hfresh.2
    have hentry : s₂.1.fds c.number = some ⟨some initial, some t⟩ := by
      rw [← hw, World.setFd_self, hcwd]
    refine hok c.number s₂ hfresh.1 (h₁.opens hnone hentry ?_ ?_ ?_ ?_ ?_ hview)
    · intro fd' hne
      rw [← hw, World.setFd_of_ne _ _ hne]
    · intro fd' hfd'
      rw [← Option.some.inj hfd', hentry]
    · simp
    · exact fun _ => rfl
    · rw [← hw, World.setFd_cwd]

theorem sound_fchdir {post : Except Errno Unit → World Dir Tid × View Dir → Prop} {fd : ℤ}
    {dir : Option Dir} (h : Knows t initial dirs saved none names s) (hfd : dirs fd = some dir)
    (herror : ∀ e s', Knows t initial dirs saved none names s' → post (.error e) s')
    (hok : ∀ d s', dir = some d → Knows t initial dirs saved (some d) names s' → post (.ok ()) s') :
    (fchdir fd).Sound (surroundings t call initial) post s := by
  intro s₁ hrely hgiven
  have h₁ := h.rely hrely
  have hentry := h₁.client fd dir hfd
  refine ⟨fun entry he => .inl ?_, ?_⟩
  · rw [hentry] at he
    rw [← Option.some.inj he]
  rintro x s₂ ⟨⟨c, hc⟩, hview⟩
  have hsaved : s₁.1.isSaved fd = false := by
    simp [World.isSaved, hentry]
  simp only [World.perform, World.dirOf, hsaved, hentry] at hc
  split at hc
  · obtain ⟨rfl, hw⟩ := Prod.mk.inj (Option.some.inj hc)
    exact herror _ s₂ (h₁.of_eq (by rw [← hw]) (by rw [← hw]) hview)
  · obtain ⟨d, hd, hsome⟩ := Option.map_eq_some_iff.mp hc
    obtain ⟨rfl, hw⟩ := Prod.mk.inj hsome
    refine hok d s₂ hd (h₁.move (by rw [← hw]) ?_ ?_ ?_)
    · rw [hview, View.after, hsaved]
      rfl
    · intro d' hd'
      rw [← hw, ← Option.some.inj hd']
    · rw [hview]
      exact h₁.got

theorem sound_fchdir_saved {post : Except Errno Unit → World Dir Tid × View Dir → Prop} {fd : ℤ}
    (h : Knows t initial dirs (some fd) away names s)
    (hpost : ∀ x s', Knows t initial dirs (some fd) none names s' → post x s') :
    (fchdir fd).Sound (surroundings t call initial) post s := by
  intro s₁ hrely hgiven
  have h₁ := h.rely hrely
  have hentry := h₁.back fd rfl
  refine ⟨fun entry he => .inr ?_, ?_⟩
  · rw [hentry] at he
    exact (Option.some.inj he).symm
  rintro x s₂ ⟨⟨c, hc⟩, hview⟩
  have hsaved : s₁.1.isSaved fd = true := by
    simp [World.isSaved, hentry]
  simp only [World.perform, World.dirOf, hsaved, hentry] at hc
  split at hc
  · cases hc
  · obtain ⟨rfl, hw⟩ := Prod.mk.inj (Option.some.inj hc)
    refine hpost _ s₂ (h₁.move (by rw [← hw]) ?_ (by simp) ?_)
    · rw [hview, View.after, hsaved]
      rfl
    · rw [hview]
      exact h₁.got

theorem sound_close {post : Unit → World Dir Tid × View Dir → Prop} {fd : ℤ}
    (h : Knows t initial dirs (some fd) away names s)
    (hpost : ∀ s', Knows t initial dirs none away names s' → post () s') :
    (close fd).Sound (surroundings t call initial) post s := by
  intro s₁ hrely hgiven
  have h₁ := h.rely hrely
  have hentry := h₁.back fd rfl
  refine ⟨⟨_, hentry, rfl⟩, ?_⟩
  rintro x s₂ ⟨⟨c, hc⟩, hview⟩
  obtain ⟨rfl, hw⟩ := Prod.mk.inj (Option.some.inj hc)
  refine hpost s₂ ⟨?_, ?_, ?_, ?_, ?_, ?_⟩
  · intro fd' dir hdir
    have hne : fd' ≠ fd := by
      rintro rfl
      have heq := (h₁.client _ dir hdir).symm.trans hentry
      exact absurd (congrArg Entry.owner (Option.some.inj heq)) (by simp)
    rw [← hw, World.setFd_of_ne _ _ hne, h₁.client fd' dir hdir]
  · simp
  · intro fd' entry he howner
    by_cases hfd : fd' = fd
    · rw [← hw, hfd, World.setFd_self] at he
      cases he
    · rw [← hw, World.setFd_of_ne _ _ hfd] at he
      exact absurd (Option.some.inj (h₁.own fd' entry he howner)).symm hfd
  · rw [hview]
    exact h₁.isAway
  · rw [← hw]
    exact h₁.cwd
  · rw [hview]
    exact h₁.got

theorem sound_getcwd {post : Except Errno CString → World Dir Tid × View Dir → Prop} {size : ℕ}
    {d : Dir} (h : Knows t initial dirs saved (some d) names s)
    (herror : ∀ e s', Knows t initial dirs saved (some d) names s' → post (.error e) s')
    (hok : ∀ name s', name.strlen < size →
      Knows t initial dirs saved (some d) (names ++ [(name, d)]) s' → post (.ok name) s') :
    (getcwd size).Sound (surroundings t call initial) post s := by
  intro s₁ hrely hgiven
  have h₁ := h.rely hrely
  refine ⟨trivial, ?_⟩
  rintro x s₂ ⟨⟨c, hc⟩, hview⟩
  simp only [World.perform] at hc
  split at hc
  · obtain ⟨rfl, hw⟩ := Prod.mk.inj (Option.some.inj hc)
    exact herror _ s₂ (h₁.of_eq (by rw [← hw]) (by rw [← hw]) hview)
  · split_ifs at hc with hname
    obtain ⟨rfl, hw⟩ := Prod.mk.inj (Option.some.inj hc)
    refine hok c.text s₂ hname.1 (h₁.move (by rw [← hw]) ?_ ?_ ?_)
    · rw [hview]
      exact h₁.isAway
    · rw [← hw]
      exact h₁.cwd
    · rw [hview, View.after, h₁.got, h₁.cwd d rfl]

/-- An operation. Whether it is made from the right directory is left to the caller. -/
theorem sound_syscall {op : Op} {post : Except Errno op.Reply → World Dir Tid × View Dir → Prop}
    (h : Knows t initial dirs saved away names s)
    (hbased : ∀ s', Knows t initial dirs saved away names s' →
      ((Action.call op).usesCwd = true → away = none → s'.1.cwd = initial) →
      s'.2.Fresh s'.1.tree → Operation.Based initial ⟨call, op, s'.1⟩)
    (hpost : ∀ x s', Knows t initial dirs saved away names s' → post x s') :
    (syscall op).Sound (surroundings t call initial) post s := by
  intro s₁ hrely hgiven
  have h₁ := h.rely hrely
  refine ⟨hbased s₁ h₁ ?_ (hgiven.2 op rfl), ?_⟩
  · intro huses haway
    exact hgiven.1 huses (by rw [h₁.isAway, haway]; rfl)
  rintro x s₂ ⟨⟨c, hc⟩, hview⟩
  simp only [World.perform] at hc
  split at hc
  · obtain ⟨rfl, hw⟩ := Prod.mk.inj (Option.some.inj hc)
    exact hpost _ s₂ (h₁.of_eq (by rw [← hw]) (by rw [← hw]) hview)
  · rcases World.succeed_cases hc with hw | ⟨hnone, hw⟩
    · exact hpost _ s₂ (h₁.of_eq (by rw [hw]) (by rw [hw]) hview)
    · have hne : ∀ fd', fd' ≠ c.number → s₂.1.fds fd' = s₁.1.fds fd' := by
        intro fd' hne
        rw [hw, World.setFd_of_ne _ _ hne]
      refine hpost _ s₂ (h₁.opens hnone (by rw [hw, World.setFd_self]) hne ?_ (fun _ => id) ?_ ?_
        hview)
      · intro fd' hfd'
        have hback := h₁.back fd' hfd'
        rw [hne fd' ?_, hback]
        rintro rfl
        rw [hback] at hnone
        cases hnone
      · exact fun howner => absurd howner (by simp)
      · rw [hw, World.setFd_cwd]

end Rules

end Solcompat.At
