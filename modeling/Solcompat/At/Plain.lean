import Solcompat.At.Process

/-!
# Calls that need no directory

With an absolute path, or with `AT_FDCWD`, the nine functions with one path should be the
plain system call. They open the current directory first all the same. The kernel is a
parameter here: it has one answer to each system call in each state of the process.
-/

namespace Solcompat.At

open Lib

variable {Dir Files : Type}

/-- The state of the process as the kernel sees it: the open descriptors, each with the
directory behind it if it is one, and the whole file system. -/
structure Process (Dir Files : Type) where
  cwd : Dir
  fds : ℤ → Option (Option Dir)
  files : Files

namespace Process

def setFd (p : Process Dir Files) (fd : ℤ) (entry : Option (Option Dir)) : Process Dir Files :=
  { p with fds := Function.update p.fds fd entry }

/-- The current directory is open under the number. -/
def withDot (p : Process Dir Files) (fd : ℤ) : Process Dir Files := p.setFd fd (some (some p.cwd))

@[simp]
theorem withDot_fds (p : Process Dir Files) (fd : ℤ) :
    (p.withDot fd).fds fd = some (some p.cwd) := Function.update_self ..

/-- The numbers for new descriptors. -/
def free (p : Process Dir Files) : Set ℤ := {fd | 0 ≤ fd ∧ p.fds fd = none}

end Process

/-- The answers of the kernel. `open` gives the lowest free number. -/
structure Kernel (Dir Files : Type) where
  openDot : Process Dir Files → Except Errno ℤ
  /-- Whether the directory may be entered. -/
  search : Process Dir Files → Dir → Option Errno
  getcwd : Process Dir Files → ℕ → Except Errno CString
  time : Process Dir Files → ℤ
  call : Process Dir Files → (op : Op) → Except Errno op.Reply
  /-- The file system behind an operation, whether it fails or not. -/
  files : Process Dir Files → Op → Files
  /-- The directory behind a descriptor that an operation opens. -/
  opened : Process Dir Files → Op → Option Dir
  openDot_lowest : ∀ p fd, openDot p = .ok fd → IsLeast p.free fd
  open_lowest : ∀ p path flags mode (fd : ℤ), call p (.open path flags mode) = .ok fd →
    IsLeast p.free fd

namespace Kernel

variable (K : Kernel Dir Files)

def after (p : Process Dir Files) (op : Op) : Process Dir Files :=
  match op, K.call p op with
  | .open path flags mode, .ok (fd : ℤ) =>
    { p with files := K.files p (.open path flags mode) }.setFd fd
      (some (K.opened p (.open path flags mode)))
  | op, _ => { p with files := K.files p op }

/-- One system call, with the process and whether `at_mutex` is held. -/
def step : Process Dir Files × Bool → (a : Action) →
    Option (a.Answer × (Process Dir Files × Bool))
  | (p, locked), .lock => if locked then none else some ((), p, true)
  | (p, _), .unlock => some ((), p, false)
  | (p, locked), .openDot =>
    match K.openDot p with
    | .error e => some (.error e, p, locked)
    | .ok fd => some (.ok fd, p.withDot fd, locked)
  | (p, locked), .fchdir fd =>
    match p.fds fd with
    | none => some (.error .EBADF, p, locked)
    | some none => some (.error (.system 20), p, locked)
    | some (some d) =>
      match K.search p d with
      | some e => some (.error e, p, locked)
      | none => some (.ok (), { p with cwd := d }, locked)
  | (p, locked), .close fd => some ((), p.setFd fd none, locked)
  | (p, locked), .getcwd size => some (K.getcwd p size, p, locked)
  | (p, locked), .time => some (K.time p, p, locked)
  | (p, locked), .snprintf _ _ => some (.written, p, locked)
  | (p, locked), .call op => some (K.call p op, K.after p op, locked)

def result (p : Process Dir Files) (op : Op) : Except Errno op.Reply × Files :=
  (K.call p op, K.files p op)

end Kernel

namespace Op

def reply : (op : Op) → op.Reply → At.Reply
  | stat _, st | lstat _, st => .stat st
  | readlink _ _, bytes => .text bytes
  | .open _ _ _, n | mkdir _ _, n | rename _ _, n | rmdir _, n | unlink _, n | chown _ _ _, n
  | lchown _ _ _, n | chmod _ _, n | symlink _ _, n | link _ _, n | access _ _, n | utime _ _, n
  | opendir _, n => .number n

def code (op : Op) : Code (Except Errno At.Reply) := returning op.reply (syscall op)

end Op

/-- The plain call for a call with one path. -/
def Call.plain : Call → Option Op
  | openat _ pathname flags mode =>
    some (.open pathname flags (if hasFlag flags oCreat then mode else 0))
  | mkdirat _ pathname mode => some (.mkdir pathname mode)
  | unlinkat _ pathname flags =>
    some (if hasFlag flags atRemovedir then .rmdir pathname else .unlink pathname)
  | fstatat _ pathname flags =>
    some (if hasFlag flags atSymlinkNofollow then .lstat pathname else .stat pathname)
  | fchownat _ pathname owner group flags =>
    some (if hasFlag flags atSymlinkNofollow then .lchown pathname owner group
      else .chown pathname owner group)
  | fchmodat _ pathname mode _ => some (.chmod pathname mode)
  | readlinkat _ pathname bufsiz => some (.readlink pathname bufsiz)
  | symlinkat target _ linkpath => some (.symlink target linkpath)
  | faccessat _ pathname mode _ => some (.access pathname mode)
  | renameat .. | linkat .. | utimensat .. | fdopendir .. => none

/-- An absolute path, or `AT_FDCWD`. -/
def Call.NeedsNoDir (call : Call) : Prop :=
  ∀ arg ∈ call.pathArgs, arg.2.any isAbsolute = true ∨ isAtFdcwd arg.1 = true

theorem Call.code_of_plain {call : Call} {op : Op} (h : call.plain = some op) :
    ∃ dirfd path, call.pathArgs = [(dirfd, path)] ∧
      call.code = returning op.reply (between dirfd path op) := by
  cases call with
  | unlinkat dirfd pathname flags =>
    refine ⟨dirfd, pathname, rfl, ?_⟩
    simp only [code, At.unlinkat]
    simp only [plain] at h
    split_ifs at h ⊢
    · obtain rfl := Option.some.inj h
      rfl
    · obtain rfl := Option.some.inj h
      rfl
  | fstatat dirfd pathname flags =>
    refine ⟨dirfd, pathname, rfl, ?_⟩
    simp only [code, At.fstatat]
    simp only [plain] at h
    split_ifs at h ⊢
    · obtain rfl := Option.some.inj h
      rfl
    · obtain rfl := Option.some.inj h
      rfl
  | fchownat dirfd pathname owner group flags =>
    refine ⟨dirfd, pathname, rfl, ?_⟩
    simp only [code, At.fchownat]
    simp only [plain] at h
    split_ifs at h ⊢
    · obtain rfl := Option.some.inj h
      rfl
    · obtain rfl := Option.some.inj h
      rfl
  | renameat | linkat | utimensat | fdopendir => cases h
  | openat dirfd pathname | mkdirat dirfd pathname | fchmodat dirfd pathname
  | readlinkat dirfd pathname | symlinkat _ dirfd pathname | faccessat dirfd pathname =>
    obtain rfl := Option.some.inj h
    exact ⟨dirfd, pathname, rfl, rfl⟩

namespace Kernel

variable {K : Kernel Dir Files} {p p' : Process Dir Files} {op : Op} {fd : ℤ}
variable {dirfd : ℤ} {path : Option CString}

@[simp]
theorem after_files (K : Kernel Dir Files) (p : Process Dir Files) (op : Op) :
    (K.after p op).files = K.files p op := by
  unfold after
  split <;> rfl

@[simp]
theorem after_cwd (K : Kernel Dir Files) (p : Process Dir Files) (op : Op) :
    (K.after p op).cwd = p.cwd := by
  unfold after
  split <;> rfl

/-- An operation opens a descriptor that was free, and leaves the others. -/
theorem after_fds {entry : Option Dir} (hopen : p.fds fd = some entry) (op : Op) :
    (K.after p op).fds fd = some entry := by
  unfold after
  split
  · next path flags mode n hcall =>
    have hfree := (K.open_lowest p path flags mode n hcall).1.2
    have hne : fd ≠ n := by
      rintro rfl
      rw [hopen] at hfree
      cases hfree
    exact (Function.update_of_ne hne _ _).trans hopen
  · exact hopen

/-- The way back leads to the directory in which the process still is. -/
theorem exec_atLeave {q : Process Dir Files} (hfd : 0 ≤ fd) (hq : q.fds fd = some (some q.cwd)) :
    (atLeave fd).exec K.step (q, true) = some ((), q.setFd fd none, false) := by
  unfold atLeave
  rw [if_pos hfd]
  cases hsearch : K.search q q.cwd with
  | none =>
    have hback : K.step (q, true) (.fchdir fd) = some (.ok (), q, true) := by
      simp [step, hq, hsearch]
    rw [fchdir, Program.exec_perform_bind _ hback]
    rfl
  | some e =>
    have hback : K.step (q, true) (.fchdir fd) = some (.error e, q, true) := by
      simp [step, hq, hsearch]
    rw [fchdir, Program.exec_perform_bind _ hback]
    rfl

theorem exec_atEnter_error {e : Errno} (hdot : K.openDot p = .error e) :
    (atEnter dirfd path).exec K.step (p, false) = some (.error e, p, false) := by
  have hlock : K.step (p, false) .lock = some ((), p, true) := rfl
  have hopen : K.step (p, true) .openDot = some (.error e, p, true) := by
    rw [step, hdot]
  rw [atEnter, pthreadMutexLock, Program.exec_perform_bind _ hlock, At.openDot,
    Program.exec_perform_bind _ hopen]
  rfl

theorem exec_atEnter_ok (hdirect : path.any isAbsolute = true ∨ isAtFdcwd dirfd = true)
    (hdot : K.openDot p = .ok fd) :
    (atEnter dirfd path).exec K.step (p, false) = some (.ok fd, p.withDot fd, true) := by
  have hlock : K.step (p, false) .lock = some ((), p, true) := rfl
  have hopen : K.step (p, true) .openDot = some (.ok fd, p.withDot fd, true) := by
    rw [step, hdot]
  rw [atEnter, pthreadMutexLock, Program.exec_perform_bind _ hlock, At.openDot,
    Program.exec_perform_bind _ hopen]
  dsimp only
  rcases hdirect with hdirect | hdirect
  · rw [if_pos hdirect]
    rfl
  · rw [if_pos hdirect, ite_self]
    rfl

theorem exec_between_error {e : Errno} (hdot : K.openDot p = .error e) :
    (between dirfd path op).exec K.step (p, false) = some (.error e, p, false) := by
  rw [between, Program.exec_bind, exec_atEnter_error hdot]
  rfl

/-- The operation is made with the current directory open, and then that is closed. -/
theorem exec_between_ok (hdirect : path.any isAbsolute = true ∨ isAtFdcwd dirfd = true)
    (hdot : K.openDot p = .ok fd) :
    (between dirfd path op).exec K.step (p, false) =
      some (K.call (p.withDot fd) op, (K.after (p.withDot fd) op).setFd fd none, false) := by
  have hback : (K.after (p.withDot fd) op).fds fd =
      some (some (K.after (p.withDot fd) op).cwd) := by
    rw [after_fds (p.withDot_fds fd), after_cwd]
    rfl
  have hcall : K.step (p.withDot fd, true) (.call op) =
      some (K.call (p.withDot fd) op, K.after (p.withDot fd) op, true) := rfl
  rw [between, Program.exec_bind, exec_atEnter_ok hdirect hdot, Option.bind_some]
  dsimp only
  rw [syscall, Program.exec_perform_bind _ hcall, Program.exec_bind,
    exec_atLeave (K.openDot_lowest p fd hdot).1.1 hback]
  rfl

theorem exec_returning {α : Type} (reply : α → Reply) (code : Code (Except Errno α))
    {s s' : Process Dir Files × Bool} {x : Except Errno α}
    (h : code.exec K.step s = some (x, s')) :
    (returning reply code).exec K.step s = some (x.map reply, s') := by
  rw [returning, Program.exec_bind, h]
  rfl

theorem exec_code (K : Kernel Dir Files) (p : Process Dir Files) (op : Op) :
    op.code.exec K.step (p, false) = some ((K.call p op).map op.reply, K.after p op, false) :=
  exec_returning op.reply (syscall op) rfl

end Kernel

namespace Kernel

variable (K : Kernel Dir Files)

/-- The two calls return the same and leave the same file system. -/
def Agree (p : Process Dir Files) (code code' : Code (Except Errno Reply)) : Prop :=
  ∃ x q q', code.exec K.step (p, false) = some (x, q, false) ∧
    code'.exec K.step (p, false) = some (x, q', false) ∧ q.files = q'.files

/-- The operation has the same outcome whether the number is free or in use for the current
directory; when it opens a file itself that means that it fails. -/
structure Unnoticed (p : Process Dir Files) (fd : ℤ) (op : Op) : Prop where
  same : K.result p op = K.result (p.withDot fd) op
  fails : ∀ path flags mode, op = .open path flags mode → ∃ e, K.call p op = .error e

variable {K} {p : Process Dir Files} {call : Call} {op : Op}

theorem map_reply_injective (op : Op) :
    Function.Injective fun x : Except Errno op.Reply => x.map op.reply := by
  have hreply : Function.Injective op.reply := by
    intro x y h
    cases op <;> injection h
  rintro (e | x) (e' | y) h
  · exact congrArg _ (Except.error.inj h)
  · cases h
  · cases h
  · exact congrArg _ (hreply (Except.ok.inj h))

/-- What the emulation and the plain call return and leave, side by side. -/
theorem agree_iff {code : Code (Except Errno Reply)} {x : Except Errno op.Reply}
    {q : Process Dir Files}
    (hcode : code.exec K.step (p, false) = some (x.map op.reply, q, false)) :
    K.Agree p code op.code ↔ K.result p op = (x, q.files) := by
  have hplain := exec_code K p op
  constructor
  · rintro ⟨y, q₁, q₂, h₁, h₂, hfiles⟩
    rw [hcode, Option.some_inj, Prod.mk.injEq, Prod.mk.injEq] at h₁
    rw [hplain, Option.some_inj, Prod.mk.injEq, Prod.mk.injEq] at h₂
    obtain ⟨rfl, rfl, -⟩ := h₁
    obtain ⟨hreply, rfl, -⟩ := h₂
    rw [result, map_reply_injective op hreply, hfiles, after_files]
  · intro h
    obtain ⟨hcall, hfiles⟩ := Prod.mk.inj h
    refine ⟨_, _, _, hcode, ?_, hfiles.symm.trans (after_files K p op).symm⟩
    rw [hplain, hcall]

/-- A descriptor that a plain `open` gives is never the one that is left when the lowest free
number is in use. -/
theorem open_fails_of_same {path : Option CString} {flags mode : BitVec 32} {fd : ℤ}
    (hdot : K.openDot p = .ok fd)
    (hsame : K.call p (.open path flags mode) = K.call (p.withDot fd) (.open path flags mode)) :
    ∃ e, K.call p (.open path flags mode) = .error e := by
  cases hcall : K.call p (.open path flags mode) with
  | error e => exact ⟨e, rfl⟩
  | ok n =>
    have hlowest := K.open_lowest p path flags mode n hcall
    have hfd : fd = n := (K.openDot_lowest p fd hdot).unique hlowest
    have hfree := (K.open_lowest (p.withDot fd) path flags mode n (hsame.symm.trans hcall)).1.2
    rw [← hfd, Process.withDot_fds] at hfree
    cases hfree

/-- A call that needs no directory is the plain call exactly when the current directory can be
opened and that is not noticed, or both fail alike. -/
theorem agree_plain_iff (hplain : call.plain = some op) (hdirect : call.NeedsNoDir)
    (p : Process Dir Files) :
    K.Agree p call.code op.code ↔
      (∃ e, K.openDot p = .error e ∧ K.result p op = (.error e, p.files)) ∨
        ∃ fd, K.openDot p = .ok fd ∧ K.Unnoticed p fd op := by
  obtain ⟨dirfd, path, hargs, hcode⟩ := Call.code_of_plain hplain
  have harg : path.any isAbsolute = true ∨ isAtFdcwd dirfd = true := by
    apply hdirect (dirfd, path)
    rw [hargs]
    exact List.mem_singleton_self _
  rw [hcode]
  cases hdot : K.openDot p with
  | error e =>
    rw [agree_iff (exec_returning op.reply _ (exec_between_error hdot))]
    simp
  | ok fd =>
    rw [agree_iff (exec_returning op.reply _ (exec_between_ok harg hdot))]
    have hfiles : ((K.after (p.withDot fd) op).setFd fd none).files = K.files (p.withDot fd) op :=
      after_files K (p.withDot fd) op
    rw [hfiles]
    constructor
    · intro hsame
      refine .inr ⟨fd, rfl, hsame, ?_⟩
      rintro path flags mode rfl
      exact open_fails_of_same hdot (congrArg Prod.fst hsame)
    · rintro (⟨e, herror, -⟩ | ⟨fd', hok, hunnoticed⟩)
      · cases herror
      · obtain rfl := Except.ok.inj hok
        exact hunnoticed.same

end Kernel

section Sample

/-- The lowest free number below 256, or `EMFILE`. -/
def lowestFree (p : Process Dir Files) : Except Errno ℤ :=
  match (List.range 256).find? fun n : ℕ => (p.fds n).isNone with
  | some n => .ok n
  | none => .error (.system 24)

theorem isLeast_of_lowestFree {p : Process Dir Files} {fd : ℤ} (h : lowestFree p = .ok fd) :
    IsLeast p.free fd := by
  unfold lowestFree at h
  split at h
  · next n hfind =>
    obtain rfl := Except.ok.inj h
    obtain ⟨hfree, -, hbelow⟩ := List.find?_range_eq_some.mp hfind
    refine ⟨⟨Int.natCast_nonneg n, Option.isNone_iff_eq_none.mp hfree⟩, ?_⟩
    rintro fd ⟨hpos, hfd⟩
    obtain ⟨m, rfl⟩ := Int.eq_ofNat_of_zero_le hpos
    by_contra hlt
    have hused := hbelow m (by omega)
    simp [hfd] at hused
  · cases h

/-- A kernel whose current directory may be closed to the process. The file system counts the
directories that were made. -/
def smallKernel (readable : Bool) : Kernel Unit ℕ where
  openDot p := if readable then lowestFree p else .error (.system 13)
  search _ _ := if readable then none else some (.system 13)
  getcwd _ _ := .error (.system 13)
  time _ := 0
  call p op :=
    match op with
    | .open _ _ _ => lowestFree p
    | .mkdir _ _ => .ok 0
    | _ => .error (.system 2)
  files p op :=
    match op with
    | .mkdir _ _ => p.files + 1
    | _ => p.files
  opened _ _ := none
  openDot_lowest p fd h := by
    split_ifs at h
    exact isLeast_of_lowestFree h
  open_lowest _ _ _ _ _ h := isLeast_of_lowestFree h

def standard : Process Unit ℕ where
  cwd := ()
  fds fd := if 0 ≤ fd ∧ fd ≤ 2 then some none else none
  files := 0

end Sample

namespace Kernel

theorem agree_plain_iff_mkdirat :
    (smallKernel true).Agree standard
      (Call.mkdirat atFdcwd (some (.ofString "x")) 0x1ed).code
      (Op.mkdir (some (.ofString "x")) 0x1ed).code := by
  have hdirect : (Call.mkdirat atFdcwd (some (.ofString "x")) 0x1ed).NeedsNoDir := by
    intro arg harg
    obtain rfl := List.mem_singleton.mp harg
    exact .inr (by decide)
  refine (agree_plain_iff rfl hdirect standard).mpr (.inr ⟨3, rfl, rfl, ?_⟩)
  intro path flags mode h
  cases h

/-- `mkdirat(AT_FDCWD, "/x", 0)` fails when the current directory is closed, and
`openat(AT_FDCWD, "/x", O_RDONLY)` gives 4 where `open` gives 3. -/
theorem not_agree_plain :
    ¬(smallKernel false).Agree standard (Call.mkdirat atFdcwd (some (.ofString "/x")) 0).code
        (Op.mkdir (some (.ofString "/x")) 0).code ∧
      ¬(smallKernel true).Agree standard (Call.openat atFdcwd (some (.ofString "/x")) 0 0).code
        (Op.open (some (.ofString "/x")) 0 0).code := by
  constructor
  · intro hagree
    have hfails : (Call.mkdirat atFdcwd (some (.ofString "/x")) 0).code.exec
        (smallKernel false).step (standard, false) =
          some (.error (.system 13), standard, false) := rfl
    have hsame := (agree_iff (x := .error (.system 13)) hfails).mp hagree
    cases congrArg Prod.fst hsame
  · intro hagree
    have hopens : (Call.openat atFdcwd (some (.ofString "/x")) 0 0).code.exec
        (smallKernel true).step (standard, false) =
          some (.ok (.number 4), ((standard.withDot 3).setFd 4 (some none)).setFd 3 none, false) :=
      rfl
    have hsame := (agree_iff (x := .ok (4 : ℤ)) hopens).mp hagree
    have hnumber : (3 : ℤ) = 4 := Except.ok.inj (congrArg Prod.fst hsame)
    exact absurd hnumber (by decide)

end Kernel

end Solcompat.At
