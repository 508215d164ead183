import Solcompat.Filesystem.Flock

/-!
# What `flock` guarantees

The locks of a file never clash, whatever processes do with `flock` and `fcntl`; and where no
process has a file open twice, `flock` is a lock of open files.
-/

namespace Solcompat.Filesystem

open Lib

variable {P F : Type} [DecidableEq P] [DecidableEq F]

section Entries

variable {α : Type} {g : P → ℕ → α} {p q : P} {fd fd' : ℕ} {x : α}

theorem update_entry_self : Function.update g p (Function.update (g p) fd x) p fd = x := by
  rw [Function.update_self, Function.update_self]

theorem update_entry_ne (hne : (q, fd') ≠ (p, fd)) :
    Function.update g p (Function.update (g p) fd x) q fd' = g q fd' := by
  by_cases hq : q = p
  · subst hq
    have hfd : fd' ≠ fd := fun heq => hne (by rw [heq])
    rw [Function.update_self, Function.update_of_ne hfd]
  · rw [Function.update_of_ne hq]

end Entries

namespace Host

variable {w w' : Host P F} {p q : P} {fd fd' : ℕ} {d : OpenFile F} {f g : F} {r : Set ℕ}
variable {a : Option Access} {cmd : LockCmd} {fl : FlockRecord} {operation : UInt32}
variable {result : Except LockError Unit} {e : LockEvent P F}

omit [DecidableEq P] in
theorem lock_locks_self : (w.lock p f r a).locks f = (w.locks f).put p r a :=
  Function.update_self ..

omit [DecidableEq P] in
theorem lock_locks_ne (hg : g ≠ f) : (w.lock p f r a).locks g = w.locks g :=
  Function.update_of_ne hg ..

omit [DecidableEq P] in
theorem lock_frame (hne : q ≠ p ∨ g ≠ f) : (w.lock p f r a).locks g q = w.locks g q := by
  by_cases hg : g = f
  · subst hg
    have hq : q ≠ p := hne.resolve_right (not_not_intro rfl)
    rw [lock_locks_self]
    exact funext fun x => LockTable.put_ne hq
  · rw [lock_locks_ne hg]

theorem step_flock (hstep : Step w (.flock p fd operation result) w') :
    (lockType operation = none ∧ result = .error .EINVAL ∧ w' = w) ∨
      ∃ lType answer, lockType operation = some lType ∧ result = flockResult answer ∧
        Fcntl w p fd (lockCmd operation) ⟨lType, 0, 0⟩ answer w' := by
  obtain _ | _ | ⟨hcall, hserves⟩ | _ := hstep
  unfold Filesystem.flock at hcall
  cases htype : lockType operation with
  | none =>
    rw [htype] at hcall
    obtain ⟨rfl, rfl⟩ := hcall
    exact .inl ⟨rfl, rfl, hserves⟩
  | some lType =>
    rw [htype] at hcall
    obtain ⟨answer, rest, rfl, rfl, rfl⟩ := hcall
    obtain ⟨w₁, hfcntl, rfl⟩ := hserves
    exact .inr ⟨lType, answer, rfl, rfl, hfcntl⟩

theorem step_of_fcntl {lType : LockType} {answer : Except LockError Unit}
    (htype : lockType operation = some lType)
    (hcall : Fcntl w p fd (lockCmd operation) ⟨lType, 0, 0⟩ answer w') :
    Step w (.flock p fd operation (flockResult answer)) w' := by
  have hruns : (Filesystem.flock operation).Runs
      [⟨(lockCmd operation, ⟨lType, 0, 0⟩), answer⟩] (flockResult answer) := by
    unfold Filesystem.flock
    rw [htype]
    exact ⟨answer, [], rfl, rfl, rfl⟩
  exact .flock hruns ⟨w', hcall, rfl⟩

theorem flockResult_ok {answer : Except LockError Unit} (hok : flockResult answer = .ok ()) :
    answer = .ok () := by
  cases answer with
  | error errno => cases hok
  | ok => rfl

omit [DecidableEq P] in
theorem Fcntl.frame {answer : Except LockError Unit} (hcall : Fcntl w p fd cmd fl answer w')
    (hq : q ≠ p) : w'.locks g q = w.locks g q := by
  cases hcall with
  | unlock hd ha => exact lock_frame (.inl hq)
  | grant hd ha hmode hgrants => exact lock_frame (.inl hq)
  | _ => rfl

omit [DecidableEq P] in
theorem lock_compatible (hw : ∀ g, (w.locks g).Compatible)
    (hgrants : ∀ b ∈ a, (w.locks f).Grants p r b) (g : F) :
    ((w.lock p f r a).locks g).Compatible := by
  by_cases hg : g = f
  · subst hg
    rw [lock_locks_self]
    exact (hw g).put hgrants
  · rw [lock_locks_ne hg]
    exact hw g

omit [DecidableEq P] in
theorem Fcntl.compatible {answer : Except LockError Unit} (hcall : Fcntl w p fd cmd fl answer w')
    (hw : ∀ g, (w.locks g).Compatible) : ∀ g, (w'.locks g).Compatible := by
  cases hcall with
  | unlock hd ha => exact lock_compatible hw (by simp)
  | grant hd ha hmode hgrants =>
    refine lock_compatible hw fun b hb => ?_
    obtain rfl := Option.some.inj hb
    exact hgrants
  | _ => exact hw

theorem Step.frame (hstep : Step w e w') (hq : q ≠ e.process) : w'.locks g q = w.locks g q := by
  cases e with
  | openFile p fd d =>
    cases hstep
    rfl
  | close p fd =>
    cases hstep
    exact lock_frame (.inl hq)
  | flock p fd operation result =>
    rcases step_flock hstep with ⟨-, -, rfl⟩ | ⟨lType, answer, -, -, hcall⟩
    · rfl
    · exact hcall.frame hq
  | fcntl p fd cmd fl result =>
    obtain _ | _ | _ | ⟨hcall⟩ := hstep
    exact hcall.frame hq

theorem Step.compatible (hstep : Step w e w') (hw : ∀ g, (w.locks g).Compatible) :
    ∀ g, (w'.locks g).Compatible := by
  cases e with
  | openFile p fd d =>
    cases hstep
    exact hw
  | close p fd =>
    cases hstep
    exact lock_compatible (w := Host.setDesc _ _ _ _) hw (by simp)
  | flock p fd operation result =>
    rcases step_flock hstep with ⟨-, -, rfl⟩ | ⟨lType, answer, -, -, hcall⟩
    · exact hw
    · exact hcall.compatible hw
  | fcntl p fd cmd fl result =>
    obtain _ | _ | _ | ⟨hcall⟩ := hstep
    exact hcall.compatible hw

theorem steps_compatible {es : List (LockEvent P F)} (hrun : Steps Step start es w) :
    ∀ g, (w.locks g).Compatible :=
  hrun.invariant (fun _ => LockTable.compatible_empty) fun _ _ _ _ hw hstep => hstep.compatible hw

theorem range_whole (lType : LockType) : FlockRecord.range ⟨lType, 0, 0⟩ = Set.univ :=
  Set.eq_univ_of_forall fun x => ⟨Nat.zero_le x, .inl rfl⟩

omit [DecidableEq P] in
theorem Fcntl.ok_cases (hcall : Fcntl w p fd cmd fl (.ok ()) w') :
    ∃ d, w.descs p fd = some d ∧ w' = w.lock p d.file fl.range fl.lType.access ∧
      ∀ a ∈ fl.lType.access, d.Allows a ∧ (w.locks d.file).Grants p fl.range a := by
  cases hcall with
  | unlock hd ha => exact ⟨_, hd, by rw [ha], by simp [ha]⟩
  | grant hd ha hmode hgrants =>
    refine ⟨_, hd, by rw [ha], fun b hb => ?_⟩
    rw [ha] at hb
    obtain rfl := Option.some.inj hb
    exact ⟨hmode, hgrants⟩

end Host

/-- The event is a lock on the file that is granted. -/
def LockEvent.Locks (w : Host P F) (f : F) : LockEvent P F → Prop
  | .flock p fd operation (.ok ()) =>
    (w.descs p fd).map OpenFile.file = some f ∧
      ∃ a, (lockType operation).map LockType.access = some (some a)
  | .fcntl p fd _ fl (.ok ()) => (w.descs p fd).map OpenFile.file = some f ∧ fl.lType.access.isSome
  | _ => False

namespace Host

variable {w w' : Host P F} {p q : P} {fd : ℕ} {f : F} {cmd : LockCmd} {fl : FlockRecord}
variable {e : LockEvent P F}

omit [DecidableEq P] in
/-- No lock of another process is granted on a file whose bytes are all locked for writing. -/
theorem Fcntl.not_ok (hcall : Fcntl w q fd cmd fl (.ok ()) w') (hq : q ≠ p)
    (hall : ∀ x, w.locks f p x = some .write) (hfile : (w.descs q fd).map OpenFile.file = some f) :
    fl.lType.access = none := by
  obtain ⟨d, hd, -, hgrants⟩ := hcall.ok_cases
  rw [hd] at hfile
  obtain rfl := Option.some.inj hfile
  cases ha : fl.lType.access with
  | none => rfl
  | some a =>
    -- The first byte of the range is one that clashes.
    have hstart : fl.lStart ∈ fl.range := by
      refine ⟨le_rfl, ?_⟩
      omega
    exact absurd (.inr rfl) ((hgrants a ha).2 p hq.symm fl.lStart hstart .write (hall fl.lStart))

theorem Step.not_locks (hstep : Step w e w') (he : e.process ≠ p)
    (hall : ∀ x, w.locks f p x = some .write) : ¬ e.Locks w f := by
  cases e with
  | openFile => exact id
  | close => exact id
  | flock q fd operation result =>
    cases result with
    | error => exact id
    | ok =>
      rintro ⟨hfile, a, ha⟩
      rcases step_flock hstep with ⟨-, hresult, -⟩ | ⟨lType, answer, htype, hresult, hcall⟩
      · cases hresult
      · obtain rfl := flockResult_ok hresult.symm
        have hnone := hcall.not_ok he hall hfile
        rw [htype, Option.map_some, hnone] at ha
        cases ha
  | fcntl q fd cmd fl result =>
    cases result with
    | error => exact id
    | ok =>
      rintro ⟨hfile, ha⟩
      obtain _ | _ | _ | ⟨hcall⟩ := hstep
      rw [hcall.not_ok he hall hfile] at ha
      cases ha

end Host

/-- A process that was granted the exclusive lock on a file has it until it does something itself:
in every run of the others it is alone, with byte ranges as well as with whole files, and no lock
on the file is granted to anyone. -/
theorem flock_excludes {es₀ es : List (LockEvent P F)} {w₀ w₁ w : Host P F} {p : P} {fd : ℕ}
    {d : OpenFile F} {operation : UInt32} (hrun₀ : Steps Host.Step .start es₀ w₀)
    (hd : w₀.descs p fd = some d) (htype : lockType operation = some .wrlck)
    (hlock : Host.Step w₀ (.flock p fd operation (.ok ())) w₁) (hrun : Steps Host.Step w₁ es w)
    (hothers : ∀ e ∈ es, e.process ≠ p) :
    (∀ x, w.locks d.file p x = some .write) ∧
      (∀ q, q ≠ p → ∀ x, w.locks d.file q x = none) ∧
      ∀ e w', e.process ≠ p → Host.Step w e w' → ¬ e.Locks w d.file := by
  have hcompatible : ∀ g, (w.locks g).Compatible :=
    Host.steps_compatible (hrun₀.trans (.cons hlock hrun))
  have hstart : ∀ x, w₁.locks d.file p x = some .write := by
    intro x
    rcases Host.step_flock hlock with ⟨hnone, -, -⟩ | ⟨lType, answer, hsome, hresult, hcall⟩
    · rw [htype] at hnone
      cases hnone
    · obtain rfl := Option.some.inj (hsome.symm.trans htype)
      obtain rfl := Host.flockResult_ok hresult.symm
      obtain ⟨d', hd', rfl, -⟩ := hcall.ok_cases
      obtain rfl := Option.some.inj (hd.symm.trans hd')
      rw [Host.lock_locks_self, Host.range_whole]
      exact LockTable.put_mem (Set.mem_univ x)
  have hall : ∀ x, w.locks d.file p x = some .write :=
    hrun.invariant (I := fun w => ∀ x, w.locks d.file p x = some .write) hstart
      fun _ e _ he hinv hstep x => by rw [hstep.frame (hothers e he).symm]; exact hinv x
  exact ⟨hall, fun q hq x => (hcompatible d.file).alone (hall x) hq,
    fun e w' he hstep => hstep.not_locks he hall⟩

def sharedFile : OpenFile ℕ := ⟨0, true, true⟩

def twoOpen : Host ℕ ℕ := (Host.start.setDesc 1 3 (some sharedFile)).setDesc 2 3 (some sharedFile)

noncomputable def oneLocks : Host ℕ ℕ :=
  twoOpen.lock 1 0 (FlockRecord.range ⟨.wrlck, 0, 0⟩) (some .write)

theorem step_oneLocks :
    Host.Step twoOpen (.flock 1 3 lockEx (.ok ())) oneLocks :=
  Host.step_of_fcntl rfl (.grant (d := sharedFile) (a := .write) rfl rfl rfl
    fun _ _ _ _ _ hb => by cases hb)

theorem step_refused :
    Host.Step oneLocks (.flock 2 3 (lockEx ||| lockNb) (.error ewouldblock)) oneLocks := by
  have hclash : ¬ (oneLocks.locks 0).Grants 2 (FlockRecord.range ⟨.wrlck, 0, 0⟩) .write := by
    intro hgrants
    have hmem : 0 ∈ FlockRecord.range ⟨.wrlck, 0, 0⟩ := ⟨le_rfl, .inl rfl⟩
    refine hgrants 1 (by decide) 0 hmem .write ?_ (.inl rfl)
    rw [oneLocks, Host.lock_locks_self]
    exact LockTable.put_mem hmem
  exact @Host.step_of_fcntl _ _ _ _ oneLocks oneLocks 2 3 _ _ (.error .EAGAIN) rfl
    (.busy (d := sharedFile) (a := .write) rfl rfl rfl hclash rfl (.inr rfl))

/-- The first process keeps the lock while the second one asks for it. -/
theorem flock_excludes_two :
    (∀ x, oneLocks.locks 0 1 x = some .write) ∧
      (∀ q, q ≠ 1 → ∀ x, oneLocks.locks 0 q x = none) ∧
      ∀ e w', e.process ≠ 1 → Host.Step oneLocks e w' → ¬ e.Locks oneLocks 0 :=
  flock_excludes (d := sharedFile) (.cons (.openFile rfl) (.cons (.openFile rfl) (.nil twoOpen)))
    rfl rfl step_oneLocks (.cons step_refused (.nil oneLocks)) (by simp [LockEvent.process])

/-- The locks of a process on a file are those of the descriptor that it has open there. -/
structure Matches (w : Host P F) (s : OpenFiles P F) : Prop where
  descs : s.descs = w.descs
  closed : ∀ p fd, w.descs p fd = none → s.held p fd = none
  held : ∀ p fd d, w.descs p fd = some d → ∀ x, w.locks d.file p x = s.held p fd
  absent : ∀ p f, (∀ fd d, w.descs p fd = some d → d.file ≠ f) → ∀ x, w.locks f p x = none

namespace Matches

variable {w w' : Host P F} {s : OpenFiles P F} {p : P} {fd : ℕ} {d : OpenFile F}
variable {operation : UInt32} {result : Except LockError Unit} {e : LockEvent P F}

omit [DecidableEq P] [DecidableEq F] in
theorem start : Matches (.start : Host P F) .start where
  descs := rfl
  closed _ _ _ := rfl
  held _ _ _ hd := by cases hd
  absent _ _ _ _ := rfl

omit [DecidableEq P] [DecidableEq F] in
/-- A process never clashes with itself, and open files of one process are different files. -/
theorem grants_iff (hm : Matches w s) (honce : w.Once) (hd : w.descs p fd = some d) (a : Access) :
    (w.locks d.file).Grants p Set.univ a ↔ s.Grants p fd d.file a := by
  constructor
  · intro hgrants q fd' hne d' hd' hfile b hb
    rw [hm.descs] at hd'
    have hq : q ≠ p := by
      rintro rfl
      exact hne (by rw [honce q fd' fd d' d hd' hd hfile])
    refine hgrants q hq 0 (Set.mem_univ 0) b ?_
    rw [← hfile, hm.held q fd' d' hd']
    exact hb
  · intro hgrants q hq x _ b hb
    by_contra hclash
    have hsome : w.locks d.file q x ≠ none := by
      rw [hb]
      simp
    obtain ⟨fd', d', hd', hfile⟩ : ∃ fd' d', w.descs q fd' = some d' ∧ d'.file = d.file := by
      by_contra hnone
      push Not at hnone
      exact hsome (hm.absent q d.file hnone x)
    have hne : (q, fd') ≠ (p, fd) := fun heq => hq (congrArg Prod.fst heq)
    refine hgrants q fd' hne d' (by rw [hm.descs]; exact hd') hfile b ?_ hclash
    rw [← hm.held q fd' d' hd' x, hfile]
    exact hb

theorem lock (hm : Matches w s) (honce : w.Once) (hd : w.descs p fd = some d) (a : Option Access) :
    Matches (w.lock p d.file Set.univ a) (s.setHeld p fd a) where
  descs := hm.descs
  closed q fd' hclosed := by
    have hne : (q, fd') ≠ (p, fd) := by
      rintro heq
      obtain ⟨rfl, rfl⟩ := Prod.mk.inj heq
      rw [show w.descs q fd' = none from hclosed] at hd
      cases hd
    exact (update_entry_ne hne).trans (hm.closed q fd' hclosed)
  held q fd' d' hd' x := by
    by_cases heq : (q, fd') = (p, fd)
    · obtain ⟨rfl, rfl⟩ := Prod.mk.inj heq
      obtain rfl := Option.some.inj (hd.symm.trans hd')
      rw [Host.lock_locks_self]
      exact (LockTable.put_mem (Set.mem_univ x)).trans update_entry_self.symm
    · have hne : q ≠ p ∨ d'.file ≠ d.file := by
        by_contra hboth
        push Not at hboth
        obtain ⟨rfl, hfile⟩ := hboth
        exact heq (by rw [honce q fd' fd d' d hd' hd hfile])
      rw [Host.lock_frame hne]
      exact (hm.held q fd' d' hd' x).trans (update_entry_ne heq).symm
  absent q f hnone x := by
    have hne : q ≠ p ∨ f ≠ d.file := by
      by_contra hboth
      push Not at hboth
      obtain ⟨rfl, rfl⟩ := hboth
      exact hnone fd d hd rfl
    rw [Host.lock_frame hne]
    exact hm.absent q f hnone x

omit [DecidableEq F] in
theorem openFile (hm : Matches w s) (honce : (w.setDesc p fd (some d)).Once)
    (hfree : w.descs p fd = none) :
    Matches (w.setDesc p fd (some d)) (s.setDesc p fd (some d)) where
  descs := by rw [OpenFiles.setDesc, Host.setDesc, hm.descs]
  closed q fd' hclosed := by
    have hne : (q, fd') ≠ (p, fd) := by
      rintro heq
      obtain ⟨rfl, rfl⟩ := Prod.mk.inj heq
      rw [show (w.setDesc q fd' (some d)).descs q fd' = some d from update_entry_self] at hclosed
      cases hclosed
    exact hm.closed q fd' ((update_entry_ne hne).symm.trans hclosed)
  held q fd' d' hd' x := by
    by_cases heq : (q, fd') = (p, fd)
    · obtain ⟨rfl, rfl⟩ := Prod.mk.inj heq
      obtain rfl := Option.some.inj (update_entry_self.symm.trans hd')
      -- The process has just opened the file, and has no locks there.
      refine (hm.absent q d.file (fun fd₁ d₁ hd₁ hfile => ?_) x).trans (hm.closed q fd' hfree).symm
      have hne : (q, fd₁) ≠ (q, fd') := by
        rintro heq
        obtain rfl := congrArg Prod.snd heq
        rw [hfree] at hd₁
        cases hd₁
      have hsame := honce q fd₁ fd' d₁ d ((update_entry_ne hne).trans hd₁) hd' hfile
      exact hne (by rw [hsame])
    · exact hm.held q fd' d' ((update_entry_ne heq).symm.trans hd') x
  absent q f hnone x := by
    refine hm.absent q f (fun fd₁ d₁ hd₁ => ?_) x
    have hne : (q, fd₁) ≠ (p, fd) := by
      rintro heq
      obtain ⟨rfl, rfl⟩ := Prod.mk.inj heq
      rw [hfree] at hd₁
      cases hd₁
    exact hnone fd₁ d₁ ((update_entry_ne hne).trans hd₁)

theorem close (hm : Matches w s) (honce : w.Once) (hd : w.descs p fd = some d) :
    Matches ((w.setDesc p fd none).lock p d.file Set.univ none)
      ((s.setDesc p fd none).setHeld p fd none) where
  descs := by
    change (s.setDesc p fd none).descs = (w.setDesc p fd none).descs
    rw [OpenFiles.setDesc, Host.setDesc, hm.descs]
  closed q fd' hclosed := by
    by_cases heq : (q, fd') = (p, fd)
    · obtain ⟨rfl, rfl⟩ := Prod.mk.inj heq
      exact update_entry_self
    · exact (update_entry_ne heq).trans
        (hm.closed q fd' ((update_entry_ne heq).symm.trans hclosed))
  held q fd' d' hd' x := by
    have hdesc : (w.setDesc p fd none).descs q fd' = some d' := hd'
    have heq : (q, fd') ≠ (p, fd) := by
      rintro heq
      obtain ⟨rfl, rfl⟩ := Prod.mk.inj heq
      rw [show (w.setDesc q fd' none).descs q fd' = none from update_entry_self] at hdesc
      cases hdesc
    have hold : w.descs q fd' = some d' := (update_entry_ne heq).symm.trans hdesc
    have hne : q ≠ p ∨ d'.file ≠ d.file := by
      by_contra hboth
      push Not at hboth
      obtain ⟨rfl, hfile⟩ := hboth
      exact heq (by rw [honce q fd' fd d' d hold hd hfile])
    rw [Host.lock_frame hne]
    exact (hm.held q fd' d' hold x).trans (update_entry_ne heq).symm
  absent q f hnone x := by
    by_cases hboth : q = p ∧ f = d.file
    · obtain ⟨rfl, rfl⟩ := hboth
      rw [Host.lock_locks_self]
      exact LockTable.put_mem (Set.mem_univ x)
    · rw [Host.lock_frame (not_and_or.mp hboth)]
      refine hm.absent q f (fun fd₁ d₁ hd₁ hfile => ?_) x
      by_cases heq : (q, fd₁) = (p, fd)
      · obtain ⟨rfl, rfl⟩ := Prod.mk.inj heq
        obtain rfl := Option.some.inj (hd.symm.trans hd₁)
        exact hboth ⟨rfl, hfile.symm⟩
      · exact hnone fd₁ d₁ ((update_entry_ne heq).trans hd₁) hfile

omit [DecidableEq F] in
theorem setHeld_self : s.setHeld p fd (s.held p fd) = s := by
  rw [OpenFiles.setHeld, Function.update_eq_self, Function.update_eq_self]

/-- Each answer of `flock` is one that a lock of the open file would give. -/
theorem flock (hm : Matches w s) (honce : w.Once)
    (hstep : Host.Step w (.flock p fd operation result) w') :
    ∃ a, s.Flock p fd operation result a ∧ Matches w' (s.setHeld p fd a) := by
  have hsame : Matches w (s.setHeld p fd (s.held p fd)) := by rwa [setHeld_self]
  rcases Host.step_flock hstep with ⟨htype, rfl, rfl⟩ | ⟨lType, answer, htype, rfl, hcall⟩
  · exact ⟨_, .invalid htype, hsame⟩
  · have haccess : ∀ {o : Option Access}, lType.access = o →
        (lockType operation).map LockType.access = some o := by
      rintro o rfl
      rw [htype, Option.map_some]
    have hdesc : ∀ {o : Option (OpenFile F)}, w.descs p fd = o → s.descs p fd = o := by
      rintro o rfl
      rw [hm.descs]
    cases hcall with
    | closed hd => exact ⟨_, .closed (hdesc hd), hsame⟩
    | mode hd ha hmode => exact ⟨_, .mode (hdesc hd) (haccess ha) hmode, hsame⟩
    | unlock hd ha =>
      refine ⟨none, .unlock (hdesc hd) (haccess ha), ?_⟩
      rw [Host.range_whole]
      exact hm.lock honce hd none
    | grant hd ha hmode hgrants =>
      rw [Host.range_whole] at hgrants
      refine ⟨_, .grant (hdesc hd) (haccess ha) hmode ((hm.grants_iff honce hd _).mp hgrants), ?_⟩
      rw [Host.range_whole]
      exact hm.lock honce hd _
    | busy hd ha hmode hclash hcmd he =>
      rw [Host.range_whole, hm.grants_iff honce hd] at hclash
      have hnb : isSet operation lockNb = true := by
        unfold lockCmd at hcmd
        split_ifs at hcmd with hset
        exact hset
      -- Whichever of the two numbers it is, the caller sees the same.
      rcases he with rfl | rfl
      · exact ⟨_, .wouldBlock (hdesc hd) (haccess ha) hmode hclash hnb, hsame⟩
      · exact ⟨_, .wouldBlock (hdesc hd) (haccess ha) hmode hclash hnb, hsame⟩
    | givenUp hd ha hmode hclash hcmd he =>
      rw [Host.range_whole, hm.grants_iff honce hd] at hclash
      have hnb : isSet operation lockNb = false := by
        unfold lockCmd at hcmd
        split_ifs at hcmd with hset
        simpa using hset
      rcases he with rfl | rfl
      · exact ⟨_, .givenUp (hdesc hd) (haccess ha) hmode hclash hnb (.inl rfl), hsame⟩
      · exact ⟨_, .givenUp (hdesc hd) (haccess ha) hmode hclash hnb (.inr rfl), hsame⟩
    | full hd => exact ⟨_, .full (hdesc hd), hsame⟩

theorem step (hm : Matches w s) (hstep : Host.OnceStep w e w') :
    ∃ s', OpenFiles.Step s e s' ∧ Matches w' s' := by
  obtain ⟨hstep, hwhole, honce, honce'⟩ := hstep
  cases e with
  | openFile p fd d =>
    obtain ⟨hfree⟩ := hstep
    exact ⟨_, .openFile (by rw [hm.descs]; exact hfree), hm.openFile honce' hfree⟩
  | close p fd =>
    obtain _ | ⟨hd⟩ := hstep
    exact ⟨_, .close (by rw [hm.descs]; exact hd), hm.close honce hd⟩
  | flock p fd operation result =>
    obtain ⟨a, hflock, hm'⟩ := hm.flock honce hstep
    exact ⟨_, .flock hflock, hm'⟩
  | fcntl => exact hwhole.elim

omit [DecidableEq P] [DecidableEq F] in
theorem exclusive (hm : Matches w s) (honce : w.Once) (hw : ∀ g, (w.locks g).Compatible) :
    s.Exclusive := by
  intro p fd q fd' d d' hne hd hd' hfile a ha b hb
  rw [hm.descs] at hd hd'
  have hq : p ≠ q := by
    rintro rfl
    exact hne (by rw [honce p fd' fd d' d hd' hd hfile])
  refine hw d.file p q hq 0 a ((hm.held p fd d hd 0).trans ha) b ?_
  rw [← hfile, hm.held q fd' d' hd' 0]
  exact hb

end Matches

/-- As long as no process has a file open twice, every run of calls of `flock` by any processes is
one of locks that belong to open files, with the same answers; no two of these locks clash. -/
theorem flock_refines {es : List (LockEvent P F)} {w : Host P F}
    (hrun : Steps Host.OnceStep .start es w) :
    ∃ s : OpenFiles P F, Steps OpenFiles.Step .start es s ∧ Matches w s ∧ s.Exclusive := by
  obtain ⟨s, hspec, hm⟩ := hrun.simulates (fun _ _ _ _ hm hstep => hm.step hstep) Matches.start
  have honce : w.Once := by
    refine hrun.invariant (fun p fd fd' d d' hd => ?_) fun _ _ _ _ _ hstep => hstep.2.2.2
    cases hd
  have hcompatible := Host.steps_compatible (hrun.mono fun _ _ _ hstep => hstep.1)
  exact ⟨s, hspec, hm, hm.exclusive honce hcompatible⟩

omit [DecidableEq P] [DecidableEq F] in
theorem once_of_descs {w : Host P F} (hw : ∀ p fd, fd ≠ 3 → w.descs p fd = none) : w.Once := by
  have hthree : ∀ p fd d, w.descs p fd = some d → fd = 3 := by
    intro p fd d hd
    by_contra hfd
    rw [hw p fd hfd] at hd
    cases hd
  intro p fd fd' d d' hd hd' _
  rw [hthree p fd d hd, hthree p fd' d' hd']

theorem twoOpen_descs (p fd : ℕ) (hfd : fd ≠ 3) : twoOpen.descs p fd = none := by
  have hne : ∀ q, (p, fd) ≠ (q, 3) := fun q heq => hfd (congrArg Prod.snd heq)
  exact (update_entry_ne (hne 2)).trans (update_entry_ne (hne 1))

/-- The second process does not get the lock. -/
theorem flock_refines_two :
    ∃ s : OpenFiles ℕ ℕ, Steps OpenFiles.Step .start
        [.openFile 1 3 sharedFile, .openFile 2 3 sharedFile, .flock 1 3 lockEx (.ok ()),
          .flock 2 3 (lockEx ||| lockNb) (.error ewouldblock)] s ∧
      Matches oneLocks s ∧ s.Exclusive := by
  have hone : (Host.start.setDesc 1 3 (some sharedFile) : Host ℕ ℕ).Once :=
    once_of_descs fun p fd hfd => update_entry_ne fun heq => hfd (congrArg Prod.snd heq)
  have htwo : twoOpen.Once := once_of_descs twoOpen_descs
  have hlocks : oneLocks.Once := once_of_descs twoOpen_descs
  exact flock_refines (.cons ⟨.openFile rfl, trivial, once_of_descs fun _ _ _ => rfl, hone⟩
    (.cons ⟨.openFile rfl, trivial, hone, htwo⟩
      (.cons ⟨step_oneLocks, trivial, htwo, hlocks⟩
        (.cons ⟨step_refused, trivial, hlocks, hlocks⟩ (.nil _)))))

end Solcompat.Filesystem
