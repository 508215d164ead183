import Solcompat.Descriptor.Model

/-!
# Rules for the system calls

What a program knows after each of its system calls, among the other threads: which
descriptors it has, and that it has disturbed no others.
-/

namespace Solcompat.Descriptor

open Lib Handles

/-- The descriptors of the call are those of `held`, and `r` are its `fcntl` and `dup2` calls that
have failed. -/
structure Has (before : Handles ℤ Entry) (held : ℤ → Option Entry) (r : List Call) (p : Process) :
    Prop where
  holds : Holds before p.fds held
  refused : p.refused = r

variable {before : Handles ℤ Entry} {held : ℤ → Option Entry} {r : List Call} {p p' : Process}
variable {R : Type} {post : R → Process → Prop} {fd oldfd newfd : ℤ} {entry : Entry}

theorem has_start (table : ℤ → Option Entry) (kept : Set ℤ) :
    Has (Process.start table kept).fds nothing [] (Process.start table kept) :=
  ⟨holds_nothing rfl, rfl⟩

theorem Has.rely (h : Has before held r p) (hrely : surroundings.rely p p') :
    Has before held r p' :=
  ⟨h.holds.rely hrely.1, hrely.2.1.trans h.refused⟩

theorem Has.put (h : Has before held r p) (fd : ℤ) (entry : Entry) :
    Has before (Function.update held fd (some entry)) r (p.put fd entry) :=
  ⟨h.holds.put fd entry, h.refused⟩

theorem Has.refuse (h : Has before held r p) (call : Call) :
    Has before held (call :: r) (p.refuse call) :=
  ⟨h.holds, congrArg (call :: ·) h.refused⟩

theorem Has.table (h : Has before held r p) (hfd : held fd = some entry) :
    p.fds.table fd = some entry :=
  h.holds.entries fd entry hfd

theorem sound_still {call : Call} {f : call.Answer → Code R} (h : Has before held r p)
    (hok : ∀ p' : Process, Has before held r p' → p'.Ok call)
    (hsem : ∀ (p' : Process) x p'', p'.Sem call x p'' → p'' = p')
    (hnext : ∀ x p', Has before held r p' → (f x).Sound surroundings post p') :
    (perform call >>= f).Sound surroundings post p := by
  intro p₁ hrely _
  have h₁ := h.rely hrely
  refine ⟨hok p₁ h₁, fun x p₂ hx => ?_⟩
  obtain rfl := hsem p₁ x p₂ hx
  exact hnext x _ h₁

theorem sound_control {what : Control} {f : Bool → Code R} (h : Has before held r p)
    (hfd : held fd = some entry)
    (hnext : ∀ x p', Has before held r p' → (f x).Sound surroundings post p') :
    (perform (.control fd what) >>= f).Sound surroundings post p :=
  sound_still h (fun _ h => h.holds.mem hfd) (fun _ _ _ hx => hx) hnext

theorem sound_ptsname {f : Option CString → Code R} (h : Has before held r p)
    (hfd : held fd = some entry)
    (hnext : ∀ x p', Has before held r p' → (f x).Sound surroundings post p') :
    (perform (.ptsname fd) >>= f).Sound surroundings post p :=
  sound_still h (fun _ h => h.holds.mem hfd) (fun _ _ _ hx => hx) hnext

theorem sound_ttyname {f : Option CString → Code R} (h : Has before held r p)
    (hfd : held fd = some entry)
    (hnext : ∀ x p', Has before held r p' → (f x).Sound surroundings post p') :
    (perform (.ttyname fd) >>= f).Sound surroundings post p :=
  sound_still h (fun _ h => h.holds.mem hfd) (fun _ _ _ hx => hx) hnext

theorem sound_setsid {f : Bool → Code R} (h : Has before held r p)
    (hnext : ∀ x p', Has before held r p' → (f x).Sound surroundings post p') :
    (perform .setsid >>= f).Sound surroundings post p :=
  sound_still h (fun _ _ => trivial) (fun _ _ _ hx => hx) hnext

theorem sound_chdirRoot {f : Bool → Code R} (h : Has before held r p)
    (hnext : ∀ x p', Has before held r p' → (f x).Sound surroundings post p') :
    (perform .chdirRoot >>= f).Sound surroundings post p :=
  sound_still h (fun _ _ => trivial) (fun _ _ _ hx => hx) hnext

theorem sound_exit {status : ℤ} : (exit status : Code R).Sound surroundings post p :=
  fun _ _ _ => ⟨trivial, fun x => nomatch x⟩

/-- A new descriptor was free, and no other thread had been told to leave it alone. -/
theorem sound_new {opening : Opening} {f : Option ℤ → Code R} (h : Has before held r p)
    (hnone : ∀ p', Has before held r p' → p'.exhausted = true →
      (f none).Sound surroundings post p')
    (hsome : ∀ fd inherited p', 0 ≤ fd → held fd = none →
      (fd ∈ before.kept → before.table fd = none) →
      Has before (Function.update held fd (some (opening.entry inherited))) r p' →
        (f (some fd)).Sound surroundings post p') :
    (perform (.new opening) >>= f).Sound surroundings post p := by
  intro p₁ hrely _
  have h₁ := h.rely hrely
  refine ⟨trivial, fun x p₂ hx => ?_⟩
  cases x with
  | none =>
    obtain rfl : p₂ = { p₁ with exhausted := true } := hx
    exact hnone _ ⟨h₁.holds, h₁.refused⟩ rfl
  | some fd =>
    obtain ⟨hpos, hfree, inherited, rfl⟩ := hx
    exact hsome fd inherited _ hpos (h₁.holds.eq_none hfree) (h₁.holds.fresh hfree) (h₁.put fd _)

theorem sound_close {f : Unit → Code R} (h : Has before held r p) (hfd : held fd = some entry)
    (hfresh : fd ∈ before.kept → before.table fd = none)
    (hnext : ∀ p', Has before (Function.update held fd none) r p' →
      (f ()).Sound surroundings post p') :
    (perform (.close fd) >>= f).Sound surroundings post p := by
  intro p₁ hrely _
  have h₁ := h.rely hrely
  refine ⟨h₁.holds.mem hfd, fun x p₂ hx => ?_⟩
  obtain rfl : p₂ = { p₁ with fds := p₁.fds.remove fd } := hx
  exact hnext _ ⟨h₁.holds.remove hfresh, h₁.refused⟩

/-- `dup2` of a descriptor that the program has. With the same descriptor twice it does nothing. -/
theorem sound_dup2 {f : Bool → Code R} (h : Has before held r p) (hfd : held oldfd = some entry)
    (hcloexec : entry.cloexec = false)
    (hfalse : ∀ p', Has before held (.dup2 oldfd newfd :: r) p' →
      (f false).Sound surroundings post p')
    (htrue : ∀ p', Has before (Function.update held newfd (some entry)) r p' →
      (f true).Sound surroundings post p') :
    (perform (.dup2 oldfd newfd) >>= f).Sound surroundings post p := by
  intro p₁ hrely _
  have h₁ := h.rely hrely
  refine ⟨trivial, fun x p₂ hx => ?_⟩
  cases x with
  | false =>
    obtain rfl : p₂ = p₁.refuse (.dup2 oldfd newfd) := hx
    exact hfalse _ (h₁.refuse _)
  | true =>
    obtain ⟨found, hfound, rfl⟩ := hx
    obtain rfl : found = entry := Option.some.inj (hfound.symm.trans (h₁.table hfd))
    apply htrue
    split_ifs with heq
    · rw [← heq, ← hfd, Function.update_eq_self]
      exact h₁
    · rw [← hcloexec]
      exact h₁.put newfd found

theorem sound_fork {f : Fork → Code R} (h : Has before held r p)
    (hfailed : ∀ p', Has before held r p' → (f .failed).Sound surroundings post p')
    (hchild : ∀ p', Has before held r p' → (f .child).Sound surroundings post p')
    (hparent : ∀ pid p', Has before held r p' → (f (.parent pid)).Sound surroundings post p') :
    (perform .fork >>= f).Sound surroundings post p := by
  intro p₁ hrely _
  have h₁ := h.rely hrely
  refine ⟨trivial, fun x p₂ hx => ?_⟩
  cases x with
  | failed =>
    obtain rfl : p₂ = p₁ := hx
    exact hfailed _ h₁
  | child =>
    obtain rfl : p₂ = { p₁ with fds := p₁.fds.alone } := hx
    exact hchild _ ⟨h₁.holds.alone, h₁.refused⟩
  | parent pid =>
    obtain rfl : p₂ = p₁ := hx
    exact hparent pid _ h₁

end Solcompat.Descriptor
