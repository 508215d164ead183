import Solcompat.Descriptor.Rules

/-!
# Descriptors with flags

`pipe2`, `dup3`, `mkostemp` and `accept4` set the flags of a descriptor after they have
opened it, and only `accept4` looks whether that worked. As long as no `fcntl` on an open
descriptor fails, the flags are what the caller asked for. In any case nothing stays open
behind a call that reports a failure.
-/

namespace Solcompat.Descriptor

open Lib Handles

variable {before : Handles ℤ Entry} {held want : ℤ → Option Entry} {p p' : Process}
variable {R : Type} {post : R → Process → Prop} {fd : ℤ} {entry : Entry}

/-- A call for the status flags of the descriptor has failed. -/
def StatusRefused (refused : List Call) (fd : ℤ) : Prop :=
  .getFl fd ∈ refused ∨ ∃ flags, .setFl fd flags ∈ refused

/-- The entry is the wanted one, but for the flags whose `fcntl` was refused. -/
structure Entry.Granted (refused : List Call) (fd : ℤ) (entry wanted : Entry) : Prop where
  file : entry.file = wanted.file
  cloexec : entry.cloexec = wanted.cloexec ∨
    (entry.cloexec = false ∧ ∃ flags, .setFd fd flags ∈ refused)
  status : entry.status = wanted.status ∨ StatusRefused refused fd

/-- The descriptors of the call are those of `want`, with the entries of `want` as far as the
`fcntl` calls were granted. -/
structure Wants (before : Handles ℤ Entry) (want : ℤ → Option Entry) (p : Process) : Prop where
  exists_held : ∃ held, Has before held p.refused p ∧
    ∀ i, Option.Rel (Entry.Granted p.refused i) (held i) (want i)

theorem Entry.Granted.refl (refused : List Call) (fd : ℤ) (entry : Entry) :
    entry.Granted refused fd entry :=
  ⟨rfl, .inl rfl, .inl rfl⟩

theorem StatusRefused.cons {refused : List Call} (h : StatusRefused refused fd) (call : Call) :
    StatusRefused (call :: refused) fd :=
  h.imp (List.mem_cons_of_mem _) fun ⟨flags, hmem⟩ => ⟨flags, List.mem_cons_of_mem _ hmem⟩

theorem Entry.Granted.cons {refused : List Call} {wanted : Entry}
    (h : entry.Granted refused fd wanted) (call : Call) :
    entry.Granted (call :: refused) fd wanted where
  file := h.file
  cloexec := h.cloexec.imp_right fun ⟨hfalse, flags, hmem⟩ =>
    ⟨hfalse, flags, List.mem_cons_of_mem _ hmem⟩
  status := h.status.imp_right fun hrefused => hrefused.cons call

theorem Has.wants {r : List Call} (h : Has before held r p) : Wants before held p := by
  refine ⟨held, ⟨h.holds, rfl⟩, fun i => ?_⟩
  cases held i with
  | none => exact .none
  | some entry => exact .some (.refl _ _ _)

theorem Wants.rely (h : Wants before want p) (hrely : surroundings.rely p p') :
    Wants before want p' := by
  obtain ⟨held, h, hrel⟩ := h.exists_held
  rw [← hrely.2.1] at h hrel
  exact ⟨held, h.rely hrely, hrel⟩

theorem Wants.exists_entry (h : Wants before want p) (hfd : want fd = some entry) :
    ∃ found, p.fds.table fd = some found ∧ fd ∈ p.fds.mine ∧ found.Granted p.refused fd entry := by
  obtain ⟨held, h, hrel⟩ := h.exists_held
  have hrel := hrel fd
  rw [hfd] at hrel
  cases hheld : held fd with
  | none =>
    rw [hheld] at hrel
    cases hrel
  | some found =>
    rw [hheld] at hrel
    cases hrel with
    | some hgranted => exact ⟨found, h.table hheld, h.holds.mem hheld, hgranted⟩

theorem Wants.refuse (h : Wants before want p) (hfd : want fd = some entry) (call : Call)
    {wanted : Entry}
    (hgranted : ∀ found : Entry, found.Granted p.refused fd entry →
      found.Granted (call :: p.refused) fd wanted) :
    Wants before (Function.update want fd (some wanted)) (p.refuse call) := by
  obtain ⟨held, h, hrel⟩ := h.exists_held
  refine ⟨held, h.refuse call, fun i => ?_⟩
  have hrel := hrel i
  rw [Function.update_apply]
  split_ifs with hi
  · subst hi
    rw [hfd] at hrel
    generalize held i = x at hrel
    cases hrel with
    | some hold => exact .some (hgranted _ hold)
  · generalize held i = x at hrel
    generalize want i = y at hrel
    cases hrel with
    | some hold => exact .some (hold.cons call)
    | none => exact .none

theorem Wants.put (h : Wants before want p) (fd : ℤ) {found wanted : Entry}
    (hgranted : found.Granted p.refused fd wanted) :
    Wants before (Function.update want fd (some wanted)) (p.put fd found) := by
  obtain ⟨held, h, hrel⟩ := h.exists_held
  refine ⟨_, h.put fd found, fun i => ?_⟩
  rw [Function.update_apply, Function.update_apply]
  split_ifs with hi
  · subst hi
    exact .some hgranted
  · exact hrel i

theorem sound_setFd {flags : BitVec 32} {f : Bool → Code R} (h : Wants before want p)
    (hfd : want fd = some entry) (hcloexec : entry.cloexec = false)
    (hnext : ∀ x p',
      Wants before
        (Function.update want fd (some { entry with cloexec := hasFlag flags fdCloexec })) p' →
          (f x).Sound surroundings post p') :
    (perform (.setFd fd flags) >>= f).Sound surroundings post p := by
  intro p₁ hrely _
  have h₁ := h.rely hrely
  obtain ⟨found, hfound, hmem, hgranted⟩ := h₁.exists_entry hfd
  refine ⟨hmem, fun ok p₂ hx => hnext ok p₂ ?_⟩
  cases ok with
  | false =>
    obtain rfl : p₂ = p₁.refuse (.setFd fd flags) := hx
    refine h₁.refuse hfd _ fun found' hold => ⟨hold.file, .inr ⟨?_, flags, List.mem_cons_self⟩, ?_⟩
    · rcases hold.cloexec with heq | ⟨hfalse, -⟩
      · rw [heq, hcloexec]
      · exact hfalse
    · exact hold.status.imp_right fun hrefused => hrefused.cons _
  | true =>
    obtain ⟨found', hfound', rfl⟩ := hx
    obtain rfl : found' = found := Option.some.inj (hfound'.symm.trans hfound)
    exact h₁.put fd ⟨hgranted.file, .inl rfl, hgranted.status⟩

def Entry.addStatus (entry : Entry) (flag : BitVec 32) : Entry :=
  { entry with status := entry.status ||| flag }

theorem sound_setFl {flags flag : BitVec 32} {f : Bool → Code R} (h : Wants before want p)
    (hfd : want fd = some entry)
    (hflags : flags = entry.status ||| flag ∨ StatusRefused p.refused fd)
    (hnext : ∀ x p',
      Wants before (Function.update want fd (some (entry.addStatus flag))) p' →
        (f x).Sound surroundings post p') :
    (perform (.setFl fd flags) >>= f).Sound surroundings post p := by
  intro p₁ hrely _
  have h₁ := h.rely hrely
  rw [← hrely.2.1] at hflags
  obtain ⟨found, hfound, hmem, hgranted⟩ := h₁.exists_entry hfd
  refine ⟨hmem, fun ok p₂ hx => hnext ok p₂ ?_⟩
  cases ok with
  | false =>
    obtain rfl : p₂ = p₁.refuse (.setFl fd flags) := hx
    refine h₁.refuse hfd _ fun found' hold => ⟨hold.file, (hold.cons _).cloexec, ?_⟩
    exact .inr (.inr ⟨flags, List.mem_cons_self⟩)
  | true =>
    obtain ⟨found', hfound', rfl⟩ := hx
    obtain rfl : found' = found := Option.some.inj (hfound'.symm.trans hfound)
    exact h₁.put fd ⟨hgranted.file, hgranted.cloexec, hflags⟩

theorem sound_getFl {f : Option (BitVec 32) → Code R} (h : Wants before want p)
    (hfd : want fd = some entry)
    (hnone : ∀ p', Wants before want p' → StatusRefused p'.refused fd →
      (f none).Sound surroundings post p')
    (hsome : ∀ status p', Wants before want p' →
      status = entry.status ∨ StatusRefused p'.refused fd →
        (f (some status)).Sound surroundings post p') :
    (perform (.getFl fd) >>= f).Sound surroundings post p := by
  intro p₁ hrely _
  have h₁ := h.rely hrely
  obtain ⟨found, hfound, hmem, hgranted⟩ := h₁.exists_entry hfd
  refine ⟨hmem, fun x p₂ hx => ?_⟩
  cases x with
  | none =>
    obtain rfl : p₂ = p₁.refuse (.getFl fd) := hx
    refine hnone _ ?_ (.inl List.mem_cons_self)
    have hrefuse := h₁.refuse hfd (.getFl fd) fun _ hold => hold.cons _
    rwa [← hfd, Function.update_eq_self] at hrefuse
  | some status =>
    obtain ⟨rfl, found', hfound', rfl⟩ := hx
    obtain rfl : found' = found := Option.some.inj (hfound'.symm.trans hfound)
    exact hsome _ _ h₁ hgranted.status

/-- What is asked for: `FD_CLOEXEC`, and a status flag. -/
def Entry.withCloexec (entry : Entry) (given : Bool) : Entry :=
  if given then { entry with cloexec := true } else entry

def Entry.withStatus (entry : Entry) (given : Bool) (flag : BitVec 32) : Entry :=
  if given then entry.addStatus flag else entry

@[simp]
theorem Entry.withStatus_cloexec (entry : Entry) (given : Bool) (flag : BitVec 32) :
    (entry.withStatus given flag).cloexec = entry.cloexec := by
  cases given <;> rfl

theorem Wants.same (h : Wants before want p) (hfd : want fd = some entry) :
    Wants before (Function.update want fd (some entry)) p := by
  rw [← hfd, Function.update_eq_self]
  exact h

theorem sound_cloexec {rest : Code R} (h : Wants before want p) (hfd : want fd = some entry)
    (hcloexec : entry.cloexec = false) (given : Bool)
    (hrest : ∀ p', Wants before (Function.update want fd (some (entry.withCloexec given))) p' →
      rest.Sound surroundings post p') :
    Program.Sound surroundings post
      (do
        if given then
          let _ ← perform (.setFd fd fdCloexec)
        rest) p := by
  cases given with
  | false => exact hrest p (h.same hfd)
  | true => exact sound_setFd h hfd hcloexec fun _ p' h' => hrest p' h'

theorem sound_addStatus {post : Unit → Process → Prop} {flag : BitVec 32}
    (h : Wants before want p) (hfd : want fd = some entry)
    (hpost : ∀ p', Wants before (Function.update want fd (some (entry.addStatus flag))) p' →
      post () p') :
    (addStatus fd flag).Sound surroundings post p := by
  refine sound_getFl h hfd (fun p₁ h hrefused => ?_) fun status p₁ h hstatus => ?_
  · exact sound_setFl h hfd (.inr hrefused) fun _ => hpost
  · exact sound_setFl h hfd (hstatus.imp_left (congrArg (· ||| flag))) fun _ => hpost

theorem sound_status {flag : BitVec 32} {rest : Code R} (h : Wants before want p)
    (hfd : want fd = some entry) (given : Bool)
    (hrest : ∀ p',
      Wants before (Function.update want fd (some (entry.withStatus given flag))) p' →
        rest.Sound surroundings post p') :
    Program.Sound surroundings post
      (do
        if given then addStatus fd flag
        rest) p := by
  cases given with
  | false => exact hrest p (h.same hfd)
  | true => exact (Program.sound_bind _ _).mpr (sound_addStatus h hfd hrest)

/-- What a call for one descriptor leaves behind: nothing, or a new descriptor with the flags. -/
inductive OnePost (before : Handles ℤ Entry) (entry : Entry) : Option ℤ → Process → Prop
  | failed {p : Process} (h : Wants before nothing p) : OnePost before entry none p
  | opened {fd : ℤ} {p : Process} (hfresh : fd ∈ before.kept → before.table fd = none)
    (h : Wants before (Function.update nothing fd (some entry)) p) :
    OnePost before entry (some fd) p

theorem mkostemp_flags (table : ℤ → Option Entry) (kept : Set ℤ) (tmpl : CString)
    (flags : BitVec 32) :
    (mkostemp tmpl flags).Sound surroundings
      (OnePost (Process.start table kept).fds
        ((Entry.withCloexec ⟨.temporary, false, oRdwr⟩ (hasFlag flags oCloexec)).withStatus
          (hasFlag flags oAppend) oAppend))
      (Process.start table kept) := by
  refine sound_new (has_start table kept) (fun p₁ h _ => .failed h.wants) ?_
  intro fd _ p₁ _ _ hfresh h
  have hself {e : Entry} {want : ℤ → Option Entry} : Function.update want fd (some e) fd = some e :=
    Function.update_self ..
  refine sound_cloexec h.wants hself rfl _ fun p₂ h => ?_
  refine sound_status h hself _ fun p₃ h => ?_
  rw [Function.update_idem, Function.update_idem] at h
  exact .opened hfresh h

theorem Has.changed {r : List Call} (h : Has before held r p) (hfd : held fd = some entry)
    {f : Entry → Entry} (hchange : ∃ found, p.fds.table fd = some found ∧ p' = p.put fd (f found)) :
    Has before (Function.update held fd (some (f entry))) r p' := by
  obtain ⟨found, hfound, rfl⟩ := hchange
  obtain rfl : found = entry := Option.some.inj (hfound.symm.trans (h.table hfd))
  exact h.put fd (f found)

theorem sound_setFdChecked {flags : BitVec 32} {f : Bool → Code R} {r : List Call}
    (h : Has before held r p) (hfd : held fd = some entry)
    (hfalse : ∀ p', Has before held (.setFd fd flags :: r) p' →
      (f false).Sound surroundings post p')
    (htrue : ∀ p',
      Has before
        (Function.update held fd (some { entry with cloexec := hasFlag flags fdCloexec })) r p' →
          (f true).Sound surroundings post p') :
    (perform (.setFd fd flags) >>= f).Sound surroundings post p := by
  intro p₁ hrely _
  have h₁ := h.rely hrely
  refine ⟨h₁.holds.mem hfd, fun ok p₂ hx => ?_⟩
  cases ok with
  | false =>
    obtain rfl : p₂ = p₁.refuse (.setFd fd flags) := hx
    exact hfalse _ (h₁.refuse _)
  | true => exact htrue p₂ (h₁.changed hfd hx)

theorem sound_setFlChecked {flags : BitVec 32} {f : Bool → Code R} {r : List Call}
    (h : Has before held r p) (hfd : held fd = some entry)
    (hfalse : ∀ p', Has before held (.setFl fd flags :: r) p' →
      (f false).Sound surroundings post p')
    (htrue : ∀ p', Has before (Function.update held fd (some { entry with status := flags })) r p' →
      (f true).Sound surroundings post p') :
    (perform (.setFl fd flags) >>= f).Sound surroundings post p := by
  intro p₁ hrely _
  have h₁ := h.rely hrely
  refine ⟨h₁.holds.mem hfd, fun ok p₂ hx => ?_⟩
  cases ok with
  | false =>
    obtain rfl : p₂ = p₁.refuse (.setFl fd flags) := hx
    exact hfalse _ (h₁.refuse _)
  | true => exact htrue p₂ (h₁.changed hfd hx)

theorem sound_getFlChecked {f : Option (BitVec 32) → Code R} {r : List Call}
    (h : Has before held r p) (hfd : held fd = some entry)
    (hnone : ∀ p', Has before held (.getFl fd :: r) p' → (f none).Sound surroundings post p')
    (hsome : ∀ p', Has before held r p' → (f (some entry.status)).Sound surroundings post p') :
    (perform (.getFl fd) >>= f).Sound surroundings post p := by
  intro p₁ hrely _
  have h₁ := h.rely hrely
  refine ⟨h₁.holds.mem hfd, fun x p₂ hx => ?_⟩
  cases x with
  | none =>
    obtain rfl : p₂ = p₁.refuse (.getFl fd) := hx
    exact hnone _ (h₁.refuse _)
  | some status =>
    obtain ⟨rfl, found, hfound, rfl⟩ := hx
    obtain rfl : found = entry := Option.some.inj (hfound.symm.trans (h₁.table hfd))
    exact hsome _ h₁

/-- What `accept4` leaves behind: nothing, or a new descriptor with all flags, besides those that
the connection came with. -/
inductive AcceptPost (before : Handles ℤ Entry) (flagged : BitVec 32 → Entry) :
    Option ℤ → Process → Prop
  | failed {r : List Call} {p : Process} (h : Has before nothing r p) :
    AcceptPost before flagged none p
  | opened {fd : ℤ} {inherited : BitVec 32} {p : Process}
    (hfresh : fd ∈ before.kept → before.table fd = none)
    (h : Has before (Function.update nothing fd (some (flagged inherited))) [] p) :
    AcceptPost before flagged (some fd) p

theorem sound_accept4_close {r : List Call}
    (h : Has before (Function.update nothing fd (some entry)) r p)
    (hfresh : fd ∈ before.kept → before.table fd = none) {flagged : BitVec 32 → Entry} :
    Program.Sound surroundings (AcceptPost before flagged)
      (do
        let _ ← perform (.close fd)
        pure none) p := by
  refine sound_close h (Function.update_self ..) hfresh fun p' h => ?_
  rw [update_put_remove rfl] at h
  exact .failed h

theorem sound_accept4Status (flags inherited : BitVec 32) (unflagged : BitVec 32 → Entry)
    (h : Has before (Function.update nothing fd (some (unflagged inherited))) [] p)
    (hfresh : fd ∈ before.kept → before.table fd = none) :
    (accept4Status fd flags).Sound surroundings
      (AcceptPost before fun inherited =>
        (unflagged inherited).withStatus (hasFlag flags sockNonblock) oNonblock) p := by
  unfold accept4Status Entry.withStatus
  split_ifs with hnonblock
  · have hself := Function.update_self fd (some (unflagged inherited)) (nothing : ℤ → Option Entry)
    apply sound_getFlChecked h hself
    · exact fun p₁ h => sound_accept4_close h hfresh
    · intro p₁ h
      apply sound_setFlChecked h hself
      · exact fun p₂ h => sound_accept4_close h hfresh
      · intro p₂ h
        rw [Function.update_idem] at h
        exact .opened hfresh h
  · exact .opened hfresh h

/-- Where `accept4` succeeds, all flags are set: a descriptor without them is closed again. -/
theorem accept4_flags (table : ℤ → Option Entry) (kept : Set ℤ) (sockfd : ℤ)
    (flags : BitVec 32) :
    (accept4 sockfd flags).Sound surroundings
      (AcceptPost (Process.start table kept).fds fun inherited =>
        (((Opening.accept sockfd).entry inherited).withCloexec
          (hasFlag flags sockCloexec)).withStatus (hasFlag flags sockNonblock) oNonblock)
      (Process.start table kept) := by
  refine sound_new (has_start table kept) (fun p₁ h _ => .failed h) ?_
  intro fd inherited p₁ _ _ hfresh h
  dsimp only
  unfold Entry.withCloexec
  split_ifs with hcloexec
  · apply sound_setFdChecked h (Function.update_self ..)
    · exact fun p₂ h => sound_accept4_close h hfresh
    · intro p₂ h
      rw [Function.update_idem] at h
      exact sound_accept4Status flags inherited
        (fun inherited => { (Opening.accept sockfd).entry inherited with cloexec := true }) h hfresh
  · exact sound_accept4Status flags inherited
      (fun inherited => (Opening.accept sockfd).entry inherited) h hfresh

section Pipe

variable {reading writing : ℤ} {a b c : Entry}

def ends (reading writing : ℤ) (a b : Entry) : ℤ → Option Entry :=
  Function.update (Function.update nothing reading (some a)) writing (some b)

theorem ends_writing : ends reading writing a b writing = some b := Function.update_self ..

theorem ends_reading (hne : reading ≠ writing) : ends reading writing a b reading = some a := by
  rw [ends, Function.update_of_ne hne, Function.update_self]

theorem update_ends_writing :
    Function.update (ends reading writing a b) writing (some c) = ends reading writing a c :=
  Function.update_idem ..

theorem update_ends_reading (hne : reading ≠ writing) :
    Function.update (ends reading writing a b) reading (some c) = ends reading writing c b := by
  rw [ends, Function.update_comm hne.symm, Function.update_idem]
  rfl

/-- What `pipe2` leaves behind: nothing, or both ends with the same flags. -/
inductive PipePost (before : Handles ℤ Entry) (flagged : Entry → Entry) :
    Option (ℤ × ℤ) → Process → Prop
  | failed {p : Process} (h : Wants before nothing p) : PipePost before flagged none p
  | opened {reading writing : ℤ} {p : Process} (hne : reading ≠ writing)
    (hreading : reading ∈ before.kept → before.table reading = none)
    (hwriting : writing ∈ before.kept → before.table writing = none)
    (h : Wants before
      (ends reading writing (flagged ⟨.pipeEnd false, false, oRdwr⟩)
        (flagged ⟨.pipeEnd true, false, oRdwr⟩)) p) :
    PipePost before flagged (some (reading, writing)) p

theorem sound_pipe {f : Option (ℤ × ℤ) → Code R} {r : List Call}
    (h : Has before nothing r p)
    (hnone : ∀ p', Has before nothing r p' → (f none).Sound surroundings post p')
    (hsome : ∀ reading writing p', reading ≠ writing →
      (reading ∈ before.kept → before.table reading = none) →
      (writing ∈ before.kept → before.table writing = none) →
      Has before
        (ends reading writing ⟨.pipeEnd false, false, oRdwr⟩ ⟨.pipeEnd true, false, oRdwr⟩) r p' →
          (f (some (reading, writing))).Sound surroundings post p') :
    (perform .pipe >>= f).Sound surroundings post p := by
  intro p₁ hrely _
  have h₁ := h.rely hrely
  refine ⟨trivial, fun x p₂ hx => ?_⟩
  cases x with
  | none =>
    obtain rfl : p₂ = p₁ := hx
    exact hnone _ h₁
  | some fds =>
    obtain ⟨hne, hreading, hwriting, rfl⟩ := hx
    exact hsome fds.1 fds.2 _ hne (h₁.holds.fresh hreading) (h₁.holds.fresh hwriting)
      ((h₁.put fds.1 _).put fds.2 _)

theorem sound_nonblockEnds {post : Unit → Process → Prop} {flags : BitVec 32}
    (hne : reading ≠ writing) (h : Wants before (ends reading writing a b) p)
    (hpost : ∀ p',
      Wants before
        (ends reading writing (a.withStatus (hasFlag flags oNonblock) oNonblock)
          (b.withStatus (hasFlag flags oNonblock) oNonblock)) p' → post () p') :
    (nonblockEnds reading writing flags).Sound surroundings post p := by
  unfold nonblockEnds
  unfold Entry.withStatus at hpost
  split_ifs at hpost ⊢
  · apply (Program.sound_bind _ _).mpr
    refine sound_addStatus h (ends_reading hne) fun p₁ h => ?_
    rw [update_ends_reading hne] at h
    refine sound_addStatus h ends_writing fun p₂ h => ?_
    rw [update_ends_writing] at h
    exact hpost p₂ h
  · exact hpost p h

theorem sound_cloexecEnds {post : Unit → Process → Prop} {flags : BitVec 32}
    (hne : reading ≠ writing) (ha : a.cloexec = false) (hb : b.cloexec = false)
    (h : Wants before (ends reading writing a b) p)
    (hpost : ∀ p',
      Wants before
        (ends reading writing (a.withCloexec (hasFlag flags oCloexec))
          (b.withCloexec (hasFlag flags oCloexec))) p' → post () p') :
    (cloexecEnds reading writing flags).Sound surroundings post p := by
  unfold cloexecEnds
  unfold Entry.withCloexec at hpost
  split_ifs at hpost ⊢
  · refine sound_setFd h (ends_reading hne) ha fun _ p₁ h => ?_
    rw [update_ends_reading hne] at h
    refine sound_setFd h ends_writing hb fun _ p₂ h => ?_
    rw [update_ends_writing] at h
    exact hpost p₂ h
  · exact hpost p h

theorem pipe2_flags (table : ℤ → Option Entry) (kept : Set ℤ) (flags : BitVec 32) :
    (pipe2 flags).Sound surroundings
      (PipePost (Process.start table kept).fds fun entry =>
        (entry.withStatus (hasFlag flags oNonblock) oNonblock).withCloexec
          (hasFlag flags oCloexec))
      (Process.start table kept) := by
  refine sound_pipe (has_start table kept) (fun p₁ h => .failed h.wants) ?_
  intro reading writing p₁ hne hreading hwriting h
  apply (Program.sound_bind _ _).mpr
  refine sound_nonblockEnds hne h.wants fun p₂ h => ?_
  apply (Program.sound_bind _ _).mpr
  exact sound_cloexecEnds hne (by simp) (by simp) h fun p₃ h => .opened hne hreading hwriting h

end Pipe

/-- What `dup3` leaves behind: a copy of what the old descriptor was, with its own
`FD_CLOEXEC`, unless the `fcntl` for it was refused. -/
inductive CopyPost (before : Handles ℤ Entry) (oldfd newfd : ℤ) (cloexec : Bool) :
    Option ℤ → Process → Prop
  | failed {r : List Call} {p : Process} (h : Has before nothing r p) :
    CopyPost before oldfd newfd cloexec none p
  | copied {entry : Entry} {given : Bool} {r : List Call} {p : Process} (hne : oldfd ≠ newfd)
    (hold : oldfd ∈ before.kept → before.table oldfd = some entry)
    (h : Has before (Function.update nothing newfd (some { entry with cloexec := given })) r p)
    (hgiven : given = cloexec ∨ (given = false ∧ .setFd newfd fdCloexec ∈ r)) :
    CopyPost before oldfd newfd cloexec (some newfd) p

theorem dup3_flags (table : ℤ → Option Entry) (kept : Set ℤ) (oldfd newfd : ℤ)
    (flags : BitVec 32) :
    (dup3 oldfd newfd flags).Sound surroundings
      (CopyPost (Process.start table kept).fds oldfd newfd (hasFlag flags oCloexec))
      (Process.start table kept) := by
  unfold dup3
  by_cases heq : oldfd = newfd
  · rw [if_pos heq]
    exact .failed (has_start table kept)
  rw [if_neg heq]
  intro p₁ hrely _
  have h := (has_start table kept).rely hrely
  refine ⟨trivial, fun ok p₂ hx => ?_⟩
  cases ok with
  | false =>
    obtain rfl : p₂ = p₁.refuse (.dup2 oldfd newfd) := hx
    exact .failed (h.refuse _)
  | true =>
    obtain ⟨entry, hentry, rfl⟩ := hx
    rw [if_neg heq]
    have hold : oldfd ∈ kept → table oldfd = some entry :=
      fun hkept => (h.holds.rest oldfd hkept rfl).symm.trans hentry
    have hnew := h.put newfd { entry with cloexec := false }
    cases hflag : hasFlag flags oCloexec with
    | false => exact .copied heq hold hnew (.inl rfl)
    | true =>
      apply sound_setFdChecked hnew (Function.update_self ..)
      · intro p₃ h
        exact .copied heq hold h (.inr ⟨rfl, List.mem_cons_self⟩)
      · intro p₃ h
        rw [Function.update_idem] at h
        exact .copied heq hold h (.inl rfl)

end Solcompat.Descriptor
