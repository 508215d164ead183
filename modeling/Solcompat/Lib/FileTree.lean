import Solcompat.Lib.CString

/-!
# Path names

A file tree says which directory an entry of a directory leads to, links followed. A path
name is looked up one component after the other, from the root if it starts with a slash
and from a given directory if it does not. The lookup ends at a directory with the
components that have no directory there: the entry an operation works on.
-/

namespace Solcompat.Lib

structure FileTree (Dir : Type) where
  root : Dir
  child : Dir → List UInt8 → Option Dir

namespace FileTree

variable {Dir : Type} (tree : FileTree Dir)

/-- The names between the slashes. -/
def components (path : List UInt8) : List (List UInt8) :=
  (path.splitOn (ch '/')).filter (· ≠ [])

def walk : Dir → List (List UInt8) → Dir × List (List UInt8)
  | d, [] => (d, [])
  | d, name :: names =>
    match tree.child d name with
    | some d' => walk d' names
    | none => (d, name :: names)

def isAbsolute (path : List UInt8) : Bool := path.head? == some (ch '/')

/-- Where a path name leads from the working directory `cwd`. -/
def resolve (cwd : Dir) (path : List UInt8) : Dir × List (List UInt8) :=
  tree.walk (if isAbsolute path then tree.root else cwd) (components path)

/-- `path` is an absolute path name of the directory `d`. -/
def Names (d : Dir) (path : List UInt8) : Prop :=
  isAbsolute path = true ∧ tree.walk tree.root (components path) = (d, [])

instance [DecidableEq Dir] (d : Dir) (path : List UInt8) : Decidable (tree.Names d path) :=
  inferInstanceAs (Decidable (_ ∧ _))

theorem components_nil : components [] = [] := by
  simp [components]

theorem components_append (p q : List UInt8) :
    components (p ++ ch '/' :: q) = components p ++ components q := by
  simp [components, List.splitOn_append_cons_self]

theorem isAbsolute_take (path : List UInt8) {n : ℕ} (hn : n ≠ 0) :
    isAbsolute (path.take n) = isAbsolute path := by
  rw [isAbsolute, isAbsolute, List.head?_take, if_neg hn]

theorem resolve_of_isAbsolute {path : List UInt8} (h : isAbsolute path = true) (d d' : Dir) :
    tree.resolve d path = tree.resolve d' path := by
  rw [resolve, resolve, if_pos h, if_pos h]

variable {tree}

theorem walk_append {d d' : Dir} {p : List (List UInt8)} (q : List (List UInt8))
    (h : tree.walk d p = (d', [])) : tree.walk d (p ++ q) = tree.walk d' q := by
  induction p generalizing d with
  | nil =>
    obtain rfl : d = d' := congrArg Prod.fst h
    rfl
  | cons name p ih =>
    rw [walk] at h
    rw [List.cons_append, walk]
    cases hchild : tree.child d name with
    | none =>
      rw [hchild] at h
      exact absurd (congrArg Prod.snd h) (by simp)
    | some next =>
      rw [hchild] at h
      exact ih h

/-- The name of a directory, a slash and a relative path lead where the relative path
leads from that directory. -/
theorem Names.resolve_join {d : Dir} {dirpath : List UInt8} (h : tree.Names d dirpath)
    (cwd : Dir) {path : List UInt8} (hpath : isAbsolute path = false) :
    tree.resolve cwd (dirpath ++ ch '/' :: path) = tree.resolve d path := by
  obtain ⟨habs, hwalk⟩ := h
  have hjoin : isAbsolute (dirpath ++ ch '/' :: path) = true := by
    cases dirpath with
    | nil => rfl
    | cons b rest => exact habs
  rw [resolve, if_pos hjoin, components_append, walk_append _ hwalk, resolve, hpath]
  rfl

theorem Names.resolve {d : Dir} {dirpath : List UInt8} (h : tree.Names d dirpath) (cwd : Dir) :
    tree.resolve cwd dirpath = tree.resolve d [] := by
  rw [FileTree.resolve, if_pos h.1, h.2, FileTree.resolve, components_nil]
  rfl

end FileTree

end Solcompat.Lib
