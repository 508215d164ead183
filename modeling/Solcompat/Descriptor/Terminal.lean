import Solcompat.Descriptor.Rules

/-!
# Pseudo terminals and daemons

`openpty` and `forkpty` open two descriptors and may fail behind each of their system
calls. The child of `forkpty` and of `daemon` goes on with new standard descriptors, which
may have been closed before: then the descriptors that are opened on the way can be 0, 1 or
2 themselves.
-/

namespace Solcompat.Descriptor

open Lib Handles

variable {before : Handles ℤ Entry} {held : ℤ → Option Entry} {r : List Call}
variable {p p' : Process}

/-- All three standard descriptors with the same entry, and no others. -/
def standard (entry : Entry) (fd : ℤ) : Option Entry :=
  if 0 ≤ fd ∧ fd ≤ 2 then some entry else none

def masterEntry : Entry := ⟨.opened devPtmx, false, oRdwr ||| oNoctty⟩

def slaveEntry (name : CString) : Entry := ⟨.opened name, false, oRdwr ||| oNoctty⟩

/-- The call has the two ends of a terminal, and both were free. -/
structure Opened (before : Handles ℤ Entry) (r : List Call) (pty : Pty) (p : Process) : Prop where
  distinct : pty.amaster ≠ pty.aslave
  nonneg : 0 ≤ pty.aslave
  freshMaster : pty.amaster ∈ before.kept → before.table pty.amaster = none
  freshSlave : pty.aslave ∈ before.kept → before.table pty.aslave = none
  has : Has before
    (Function.update (Function.update nothing pty.amaster (some masterEntry)) pty.aslave
      (some (slaveEntry pty.name))) r p

theorem sound_giveUp {R : Type} {result : R} {post : R → Process → Prop} {fd : ℤ} {entry : Entry}
    (hfree : held fd = none) (hfresh : fd ∈ before.kept → before.table fd = none)
    (h : Has before (Function.update held fd (some entry)) r p)
    (hpost : ∀ p', Has before held r p' → post result p') :
    Program.Sound surroundings post
      (do
        let _ ← perform (.close fd)
        pure result) p := by
  refine sound_close h (Function.update_self ..) hfresh fun p' h' => ?_
  rw [update_put_remove hfree] at h'
  exact hpost p' h'

theorem sound_openpty_controls {R : Type} {post : R → Process → Prop} {fd : ℤ} {entry : Entry}
    {rest : Code R} (given : Bool) (what : Control) (h : Has before held r p)
    (hfd : held fd = some entry)
    (hrest : ∀ p', Has before held r p' → rest.Sound surroundings post p') :
    Program.Sound surroundings post
      (do
        if given then
          let _ ← perform (.control fd what)
        rest) p := by
  cases given with
  | false => exact hrest p h
  | true => exact sound_control h hfd fun _ p' h' => hrest p' h'

theorem sound_openpty {post : Option Pty → Process → Prop} (termp winp : Bool)
    (h : Has before nothing r p) (hnone : ∀ p', Has before nothing r p' → post none p')
    (hsome : ∀ pty p', Opened before r pty p' → post (some pty) p') :
    (openpty termp winp).Sound surroundings post p := by
  refine sound_new h (fun p₁ h _ => hnone p₁ h) fun master _ p₁ _ hfree hfresh h => ?_
  have hmaster := Function.update_self master (some masterEntry) (nothing : ℤ → Option Entry)
  refine sound_control h hmaster fun granted p₂ h => ?_
  cases granted with
  | false => exact sound_giveUp hfree hfresh h hnone
  | true =>
    refine sound_control h hmaster fun unlocked p₃ h => ?_
    cases unlocked with
    | false => exact sound_giveUp hfree hfresh h hnone
    | true =>
      refine sound_ptsname h hmaster fun slavename p₄ h => ?_
      cases slavename with
      | none => exact sound_giveUp hfree hfresh h hnone
      | some name =>
        refine sound_new h (fun p₅ h _ => sound_giveUp hfree hfresh h hnone) ?_
        intro slave _ p₅ hpos hslaveFree hslaveFresh h
        have hdistinct : master ≠ slave := by
          rintro rfl
          exact absurd (hmaster.symm.trans hslaveFree) (by simp)
        have hslave := Function.update_self slave (some (slaveEntry name))
          (Function.update nothing master (some masterEntry))
        refine sound_control h hslave fun _ p₆ h => ?_
        refine sound_control h hslave fun _ p₇ h => ?_
        refine sound_control h hslave fun _ p₈ h => ?_
        refine sound_openpty_controls termp .tcsetattr h hslave fun p₉ h => ?_
        refine sound_openpty_controls winp .setWinsize h hslave fun p₁₀ h => ?_
        exact hsome ⟨master, slave, name⟩ p₁₀ ⟨hdistinct, hpos, hfresh, hslaveFresh, h⟩

/-- What `openpty` leaves behind: both ends, or nothing. -/
inductive OpenptyPost (before : Handles ℤ Entry) : Option Pty → Process → Prop
  | failed {p : Process} (h : Has before nothing [] p) : OpenptyPost before none p
  | opened {pty : Pty} {p : Process} (h : Opened before [] pty p) :
    OpenptyPost before (some pty) p

/-- Whatever fails in `openpty` and whatever other threads do to descriptors of their own, it
works on no descriptor but the two that it opens, and a failed call has closed them again. -/
theorem openpty_descriptors (table : ℤ → Option Entry) (kept : Set ℤ) (termp winp : Bool) :
    (openpty termp winp).Sound surroundings (OpenptyPost (Process.start table kept).fds)
      (Process.start table kept) :=
  sound_openpty termp winp (has_start table kept) (fun _ h => .failed h) fun _ _ h => .opened h

/-- The entry on 0, 1 and 2 as well. -/
def onStandard (held : ℤ → Option Entry) (entry : Entry) : ℤ → Option Entry :=
  Function.update (Function.update (Function.update held 0 (some entry)) 1 (some entry)) 2
    (some entry)

theorem onStandard_low {fd : ℤ} {entry : Entry} (hpos : 0 ≤ fd) (hlow : ¬ fd > 2) :
    onStandard (Function.update nothing fd (some entry)) entry = standard entry := by
  funext i
  simp only [onStandard, standard, Function.update_apply, nothing_apply]
  split_ifs <;> first | rfl | omega

theorem onStandard_high {fd : ℤ} {entry : Entry} (hhigh : fd > 2) :
    Function.update (onStandard (Function.update nothing fd (some entry)) entry) fd none =
      standard entry := by
  funext i
  simp only [onStandard, standard, Function.update_apply, nothing_apply]
  split_ifs <;> first | rfl | omega

theorem onStandard_self {fd : ℤ} {entry : Entry} :
    onStandard (Function.update nothing fd (some entry)) entry fd = some entry := by
  simp only [onStandard, Function.update_apply]
  split_ifs <;> rfl

theorem sound_reopenTty {post : Unit → Process → Prop} {fd : ℤ} {entry : Entry}
    (h : Has before held r p) (hfd : held fd = some entry)
    (hpost : ∀ p', Has before held r p' → post () p') :
    (reopenTty fd).Sound surroundings post p := by
  refine sound_ttyname h hfd fun tty p₁ h => ?_
  cases tty with
  | none => exact hpost p₁ h
  | some name =>
    refine sound_new h (fun p₂ h _ => hpost p₂ h) fun tmpfd _ p₂ _ hfree hfresh h => ?_
    exact sound_giveUp hfree hfresh h hpost

/-- The last descriptor of a call is closed unless it is a standard one. -/
theorem sound_closeHigh {post : Unit → Process → Prop} {fd : ℤ} {entry : Entry}
    (h : Has before (onStandard (Function.update nothing fd (some entry)) entry) r p)
    (hpos : 0 ≤ fd) (hfresh : fd ∈ before.kept → before.table fd = none)
    (hpost : ∀ p', Has before (standard entry) r p' → post () p') :
    (closeHigh fd).Sound surroundings post p := by
  unfold closeHigh
  split_ifs with hhigh
  · refine sound_close h onStandard_self hfresh fun p' h' => ?_
    rw [onStandard_high hhigh] at h'
    exact hpost p' h'
  · rw [onStandard_low hpos hhigh] at h
    exact hpost p h

theorem sound_loginTty {post : Bool → Process → Prop} {fd : ℤ} {entry : Entry}
    (h : Has before (Function.update nothing fd (some entry)) r p) (hpos : 0 ≤ fd)
    (hfresh : fd ∈ before.kept → before.table fd = none) (hcloexec : entry.cloexec = false)
    (hfalse : ∀ p', post false p') (htrue : ∀ p', Has before (standard entry) r p' → post true p') :
    (loginTty fd).Sound surroundings post p := by
  refine sound_setsid h fun leader p₁ h => ?_
  cases leader with
  | false => exact hfalse p₁
  | true =>
    have hself {held : ℤ → Option Entry} {n : ℤ} (hfd : held fd = some entry) :
        Function.update held n (some entry) fd = some entry := by
      rw [Function.update_apply]
      split_ifs
      · rfl
      · exact hfd
    have hfd := Function.update_self fd (some entry) (nothing : ℤ → Option Entry)
    apply (Program.sound_bind _ _).mpr
    refine sound_reopenTty h hfd fun p₂ h => ?_
    refine sound_dup2 h hfd hcloexec (fun p₃ _ => hfalse p₃) fun p₃ h => ?_
    refine sound_dup2 h (hself hfd) hcloexec (fun p₄ _ => hfalse p₄) fun p₄ h => ?_
    refine sound_dup2 h (hself (hself hfd)) hcloexec (fun p₅ _ => hfalse p₅) fun p₅ h => ?_
    exact (Program.sound_bind _ _).mpr (sound_closeHigh h hpos hfresh htrue)

/-- What `forkpty` leaves in the process in which it returns: nothing new, the slave on the
standard descriptors, or the master. -/
inductive ForkptyPost (before : Handles ℤ Entry) : Forked × Option CString → Process → Prop
  | failed {name : Option CString} {p : Process} (h : Has before nothing [] p) :
    ForkptyPost before (.failed, name) p
  | child {name : CString} {p : Process} (h : Has before (standard (slaveEntry name)) [] p) :
    ForkptyPost before (.child, some name) p
  | parent {name : CString} {pid amaster : ℤ} {p : Process}
    (hfresh : amaster ∈ before.kept → before.table amaster = none)
    (h : Has before (Function.update nothing amaster (some masterEntry)) [] p) :
    ForkptyPost before (.parent pid amaster, some name) p

theorem forkpty_descriptors (table : ℤ → Option Entry) (kept : Set ℤ) (termp winp : Bool) :
    (forkpty termp winp).Sound surroundings (ForkptyPost (Process.start table kept).fds)
      (Process.start table kept) := by
  apply (Program.sound_bind _ _).mpr
  refine sound_openpty termp winp (has_start table kept) (fun _ h => .failed h) fun pty p₁ h => ?_
  obtain ⟨hdistinct, hpos, hmaster, hslave, h⟩ := h
  -- the slave without the master
  have hcomm := Function.update_comm hdistinct (some masterEntry) (some (slaveEntry pty.name))
    (nothing : ℤ → Option Entry)
  have hmasterHeld : Function.update (Function.update nothing pty.amaster (some masterEntry))
      pty.aslave (some (slaveEntry pty.name)) pty.amaster = some masterEntry := by
    rw [Function.update_of_ne hdistinct, Function.update_self]
  have hslaveOnly : Function.update (Function.update (Function.update nothing pty.amaster
      (some masterEntry)) pty.aslave (some (slaveEntry pty.name))) pty.amaster none =
        Function.update nothing pty.aslave (some (slaveEntry pty.name)) := by
    rw [hcomm]
    exact update_put_remove (Function.update_of_ne hdistinct ..)
  have hslaveHeld := Function.update_self pty.aslave (some (slaveEntry pty.name))
    (nothing : ℤ → Option Entry)
  refine sound_fork h (fun p₂ h => ?_) (fun p₂ h => ?_) fun pid p₂ h => ?_
  · refine sound_close h hmasterHeld hmaster fun p₃ h => ?_
    rw [hslaveOnly] at h
    exact sound_giveUp rfl hslave h fun p₄ h => .failed h
  · refine sound_close h hmasterHeld hmaster fun p₃ h => ?_
    rw [hslaveOnly] at h
    apply (Program.sound_bind _ _).mpr
    exact sound_loginTty h hpos hslave rfl (fun _ => sound_exit) fun p₄ h => .child h
  · exact sound_giveUp (Function.update_of_ne hdistinct.symm ..) hslave h
      fun p₃ h => .parent hmaster h

/-- The descriptor has been copied to the others of `want`, as far as `dup2` worked. -/
structure Copied (before : Handles ℤ Entry) (fd : ℤ) (entry : Entry) (want : ℤ → Option Entry)
    (r : List Call) (p : Process) : Prop where
  exists_held : ∃ held, Has before held r p ∧ held fd = some entry ∧
    (∀ i e, held i = some e → e = entry ∧ want i = some e) ∧ (r = [] → held = want)

theorem sound_dup2_ignored {R : Type} {post : R → Process → Prop} {fd n : ℤ} {entry : Entry}
    {want : ℤ → Option Entry} {rest : Code R} (h : Copied before fd entry want r p)
    (hcloexec : entry.cloexec = false)
    (hrest : ∀ r' p', Copied before fd entry (Function.update want n (some entry)) r' p' →
      rest.Sound surroundings post p') :
    Program.Sound surroundings post
      (do
        let _ ← perform (.dup2 fd n)
        rest) p := by
  obtain ⟨held, h, hfd, hsub, heq⟩ := h.exists_held
  refine sound_dup2 h hfd hcloexec (fun p₁ h => ?_) fun p₁ h => ?_
  · refine hrest _ p₁ ⟨held, h, hfd, fun i e hi => ?_, fun hr => absurd hr (by simp)⟩
    obtain ⟨rfl, hwant⟩ := hsub i e hi
    refine ⟨rfl, ?_⟩
    rw [Function.update_apply]
    split_ifs
    · rfl
    · exact hwant
  · refine hrest r p₁ ⟨_, h, ?_, fun i e hi => ?_, fun hr => by rw [heq hr]⟩
    · rw [Function.update_apply]
      split_ifs
      · rfl
      · exact hfd
    · rw [Function.update_apply] at hi ⊢
      split_ifs at hi ⊢
      · exact ⟨(Option.some.inj hi).symm, hi⟩
      · exact hsub i e hi

theorem sound_toStandard {post : Unit → Process → Prop} {fd : ℤ} {entry : Entry}
    (h : Has before (Function.update nothing fd (some entry)) r p) (hpos : 0 ≤ fd)
    (hfresh : fd ∈ before.kept → before.table fd = none) (hcloexec : entry.cloexec = false)
    (hpost : ∀ held r' p', Has before held r' p' →
      (∀ i e, held i = some e → standard entry i = some e) → (r' = [] → held = standard entry) →
        post () p') :
    (toStandard fd).Sound surroundings post p := by
  have hself := Function.update_self fd (some entry) (nothing : ℤ → Option Entry)
  have hcopied : Copied before fd entry (Function.update nothing fd (some entry)) r p := by
    refine ⟨_, h, hself, fun i e hi => ⟨?_, hi⟩, fun _ => rfl⟩
    rw [Function.update_apply] at hi
    split_ifs at hi
    · exact (Option.some.inj hi).symm
    · cases hi
  refine sound_dup2_ignored hcopied hcloexec fun r₁ p₁ h => ?_
  refine sound_dup2_ignored h hcloexec fun r₂ p₂ h => ?_
  refine sound_dup2_ignored h hcloexec fun r₃ p₃ h => ?_
  obtain ⟨held, h, hfd, hsub, heq⟩ := h.exists_held
  unfold closeHigh
  split_ifs with hhigh
  · refine sound_close h hfd hfresh fun p₄ h => hpost _ _ _ h ?_ fun hr => ?_
    · intro i e hi
      rw [← @onStandard_high fd entry hhigh]
      rw [Function.update_apply] at hi ⊢
      split_ifs at hi ⊢
      exact (hsub i e hi).2
    · rw [heq hr, ← onStandard_high hhigh]
      rfl
  · refine hpost held r₃ p₃ h ?_ fun hr => ?_
    · intro i e hi
      rw [← @onStandard_low fd entry hpos hhigh]
      exact (hsub i e hi).2
    · rw [heq hr, ← onStandard_low hpos hhigh]
      rfl

def nullEntry : Entry := ⟨.opened devNull, false, oRdwr⟩

/-- What `daemon` leaves in the process in which it returns: everything as it was, after a failure
or when the standard descriptors are to stay or `/dev/null` cannot be opened, or `/dev/null` on the
standard descriptors, on all of them if no `dup2` failed. -/
inductive DaemonPost (before : Handles ℤ Entry) (noclose : Bool) : ℤ → Process → Prop
  | failed {p : Process} (h : Has before nothing [] p) : DaemonPost before noclose (-1) p
  | still {p : Process} (h : Has before nothing [] p)
    (hstay : noclose = true ∨ p.exhausted = true) : DaemonPost before noclose 0 p
  | quiet {held : ℤ → Option Entry} {r : List Call} {p : Process} (hclose : noclose = false)
    (h : Has before held r p) (hsub : ∀ i e, held i = some e → standard nullEntry i = some e)
    (hall : r = [] → held = standard nullEntry) : DaemonPost before noclose 0 p

theorem daemon_descriptors (table : ℤ → Option Entry) (kept : Set ℤ) (nochdir noclose : Bool) :
    (daemon nochdir noclose).Sound surroundings (DaemonPost (Process.start table kept).fds noclose)
      (Process.start table kept) := by
  refine sound_fork (has_start table kept) (fun _ h => .failed h) (fun p₁ h => ?_)
    fun _ _ _ => sound_exit
  refine sound_setsid h fun leader p₂ h => ?_
  cases leader with
  | false => exact .failed h
  | true =>
    have hnext : ∀ p, Has (Process.start table kept).fds nothing [] p →
        Program.Sound surroundings (DaemonPost (Process.start table kept).fds noclose)
          (do
            if !noclose then nullToStandard
            pure 0) p := by
      intro p h
      cases noclose with
      | true => exact .still h (.inl rfl)
      | false =>
        apply (Program.sound_bind _ _).mpr
        refine sound_new h (fun _ h hexhausted => .still h (.inr hexhausted)) ?_
        intro fd _ p₃ hpos _ hfresh h
        exact sound_toStandard h hpos hfresh rfl fun held r p₄ h hsub hall => .quiet rfl h hsub hall
    cases nochdir with
    | true => exact hnext p₂ h
    | false => exact sound_chdirRoot h fun _ => hnext

end Solcompat.Descriptor
