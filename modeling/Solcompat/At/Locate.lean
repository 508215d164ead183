import Solcompat.At.Process
import Solcompat.Printf.Vsnprintf

/-!
# The directory an operation works from

A call names a directory for each of its paths: the root for an absolute path, the working
directory the process started in for `AT_FDCWD`, and else the directory of the descriptor.
The string handed to the system call, looked up in the working directory of that moment,
leads where the path leads from there. `renameat`, `linkat` and `utimensat` cut the string
at the size of their buffer, and the path with it.
-/

namespace Solcompat.At

open Lib

variable {Dir Tid : Type}

namespace World

/-- The directory that a call names for one of its paths. -/
def base (w : World Dir Tid) (initial : Dir) (fd : ℤ) (path : CString) : Option Dir :=
  if isAbsolute path then some w.tree.root
  else if isAtFdcwd fd then some initial
  else w.dirOf fd

/-- The string `given` leads where the path of the call leads from the directory named for
it. The path is cut to `n` bytes only when the buffer is full. -/
def Locates (w : World Dir Tid) (initial : Dir) (arg : ℤ × Option CString) :
    Option CString → Prop
  | none => arg.2 = none
  | some given => ∃ path base n, arg.2 = some path ∧
      w.base initial arg.1 path = some base ∧
      (n < path.strlen → given.strlen = bufSize - 1) ∧
      w.tree.resolve w.cwd given.bytes = w.tree.resolve base (path.take n).bytes

end World

/-- Every path of the operation is looked up from the directory its call names. -/
def Operation.Based (initial : Dir) (o : Operation Dir Tid) : Prop :=
  List.Forall₂ (o.world.Locates initial) o.call.pathArgs o.op.paths

theorem isAbsolute_take {path : CString} (h : isAbsolute path = false) (n : ℕ) :
    isAbsolute (path.take n) = false := by
  cases n with
  | zero => rfl
  | succ n =>
    rw [isAbsolute, CString.bytes_take, FileTree.isAbsolute_take _ n.succ_ne_zero]
    exact h

theorem CString.take_strlen (path : CString) : path.take path.strlen = path :=
  CString.ext_bytes List.take_length

/-- `solcompat_snprintf` leaves the string `snprintfPath` in the buffer, when its allocations
succeed and the formatter does what `%s/%s` says. -/
theorem solcompatVsnprintf_fills {Args : Type} {sys : Printf.System Args}
    (hm : ∀ i, sys.malloc i = true) {fmt : CString} {ap : Args} {dirpath path : CString}
    (hv : sys.vsprintf ((Printf.preprocessFmt fmt 2048).result fmt) ap =
      some (slashJoin dirpath path).bytes)
    (hlen : (slashJoin dirpath path).strlen < 16777216) (request : ℕ) (full : Memory) :
    ∃ after, (Printf.solcompatVsnprintf sys request (some full) bufSize fmt ap).str = some after ∧
      ∀ i, i ≤ (snprintfPath dirpath path).strlen →
        some (after i) = (snprintfPath dirpath path).read i := by
  obtain ⟨requests, hcall⟩ :=
    Printf.solcompatVsnprintf_of_output hm fmt ap hv hlen request (some full) bufSize
  have hf := Printf.copyOut_formatted full (show 0 < bufSize by decide)
    (slashJoin dirpath path).bytes
  have hstrlen : (snprintfPath dirpath path).strlen =
      min (slashJoin dirpath path).bytes.length (bufSize - 1) := by
    rw [CString.strlen, snprintfPath, CString.bytes_take, List.length_take, min_comm]
  refine ⟨Printf.copyOut full bufSize (slashJoin dirpath path).bytes, by rw [hcall]; rfl, ?_⟩
  intro i hi
  rcases hi.lt_or_eq with hlt | rfl
  · rw [hstrlen] at hlt
    rw [hf.contents i hlt, CString.read, snprintfPath, CString.bytes_take]
    have hi' : i < (slashJoin dirpath path).bytes.length := by omega
    rw [List.getElem?_append_left (by simp; omega), List.getElem?_take_of_lt (by omega)]
    simp [List.getD, List.getElem?_eq_getElem hi']
  · have hend : (snprintfPath dirpath path).read (snprintfPath dirpath path).strlen = some 0 :=
      CString.read_end rfl
    rw [hend, hstrlen, hf.terminator]

namespace World

variable {w : World Dir Tid} {initial d : Dir} {fd : ℤ} {path dirpath : CString}

theorem base_of_relative (hrel : isAbsolute path = false) (hfd : isAtFdcwd fd = false) :
    w.base initial fd path = w.dirOf fd := by
  simp [base, hrel, hfd]

/-- The path itself, or as much of it as fits, in the directory named for it. -/
theorem locates_take (hbase : w.base initial fd path = some d)
    (hcwd : isAbsolute path = false → w.cwd = d) {n : ℕ}
    (hn : n < path.strlen → n = bufSize - 1) :
    w.Locates initial (fd, some path) (some (path.take n)) := by
  refine ⟨path, d, n, rfl, hbase, ?_, ?_⟩
  · intro hlt
    unfold CString.strlen at hlt ⊢
    rw [CString.bytes_take, List.length_take, ← hn hlt, min_eq_left hlt.le]
  · cases hrel : isAbsolute path with
    | false => rw [hcwd hrel]
    | true =>
      have hne : n ≠ 0 := by
        rintro rfl
        have hpos : 0 < path.strlen := by
          rw [CString.strlen, List.length_pos_iff]
          rintro hnil
          rw [isAbsolute, hnil] at hrel
          exact absurd hrel (by decide)
        exact absurd (hn hpos) (by decide)
      apply FileTree.resolve_of_isAbsolute
      rw [CString.bytes_take, FileTree.isAbsolute_take _ hne]
      exact hrel

theorem locates_self (hbase : w.base initial fd path = some d)
    (hcwd : isAbsolute path = false → w.cwd = d) :
    w.Locates initial (fd, some path) (some path) := by
  have h := locates_take hbase hcwd (n := path.strlen) fun h => absurd h (lt_irrefl _)
  rwa [CString.take_strlen] at h

theorem locates_snprintfPath (hrel : isAbsolute path = false) (hfd : isAtFdcwd fd = false)
    (hdir : w.dirOf fd = some d) (hname : w.tree.Names d dirpath.bytes)
    (hsize : dirpath.strlen < bufSize) :
    w.Locates initial (fd, some path) (some (snprintfPath dirpath path)) := by
  have hbase : w.base initial fd path = w.dirOf fd := base_of_relative hrel hfd
  rcases Nat.lt_or_ge dirpath.strlen (bufSize - 1) with hlt | hge
  · -- Some of the path is left.
    obtain ⟨n, hn⟩ : ∃ n, bufSize - 1 = dirpath.strlen + (n + 1) :=
      ⟨bufSize - 1 - dirpath.strlen - 1, by omega⟩
    have hbytes : (snprintfPath dirpath path).bytes =
        dirpath.bytes ++ ch '/' :: (path.take n).bytes := by
      rw [snprintfPath, CString.bytes_take, hn, slashJoin, CString.strlen,
        List.take_length_add_append, List.take_succ_cons]
      rfl
    refine ⟨path, d, n, rfl, hbase.trans hdir, ?_, ?_⟩
    · intro hcut
      rw [CString.strlen, hbytes, hn]
      simp only [CString.bytes_take, List.length_append, List.length_cons, List.length_take]
      have hmin : min n path.bytes.length = n := min_eq_left hcut.le
      rw [hmin]
      rfl
    · rw [hbytes]
      exact hname.resolve_join _ (isAbsolute_take hrel n)
  · -- The name fills the buffer, and the slash is lost with the path.
    have hlength : dirpath.strlen = bufSize - 1 := by omega
    have hcut : snprintfPath dirpath path = dirpath := by
      apply CString.ext_bytes
      rw [snprintfPath, CString.bytes_take, ← hlength, slashJoin]
      exact List.take_left
    refine ⟨path, d, 0, rfl, hbase.trans hdir, fun _ => by rw [hcut, hlength], ?_⟩
    rw [hcut]
    exact hname.resolve _

theorem locates_name (hfd : isAtFdcwd fd = false) (hdir : w.dirOf fd = some d)
    (hname : w.tree.Names d dirpath.bytes) :
    w.Locates initial (fd, some default) (some dirpath) :=
  ⟨default, d, 0, rfl, (base_of_relative rfl hfd).trans hdir,
    fun h => absurd h (lt_irrefl 0), hname.resolve _⟩

end World

end Solcompat.At
