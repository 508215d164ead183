import Solcompat.Lib.Blocks
import Solcompat.Lib.Buffer
import Solcompat.Lib.CString

/-!
# `scandir`

The blocks of the heap are lists of pointers and copies of directory entries. What `malloc` and
`realloc` answer is known in advance, allocation by allocation; a request for which the address
space has no room fails in any case.
-/

namespace Solcompat.Filesystem

open Solcompat.Lib

/-- `offsetof(struct dirent, d_name)`, behind an inode number and an offset of 64 bits and a
record length of 16 -/
def nameOffset : ℕ := 18

def addressSpace : ℕ := 2 ^ 32

def pointerSize : ℕ := 4

structure Dirent where
  /-- What is in front of the name. -/
  header : List UInt8
  name : CString
  /-- What is behind the name and its terminator. -/
  padding : List UInt8
  header_length : header.length = nameOffset
  fits : header.length + name.strlen + 1 < addressSpace

def Dirent.memory (e : Dirent) : List UInt8 := e.header ++ e.name.bytes ++ 0 :: e.padding

/-- The entry with all of its name, and nothing behind. -/
def Dirent.copy (e : Dirent) : Buffer := e.header ++ e.name.bytes ++ [0]

inductive Block
  /-- An array of pointers; none are those that nothing was stored to. -/
  | list (slots : List (Option ℕ))
  | dirent (bytes : Buffer)

namespace Block

def size : Block → ℕ
  | list slots => pointerSize * slots.length
  | dirent bytes => bytes.length

/-- `realloc` keeps the pointers that are in the block already. -/
def resize (n : ℕ) : Block → Block
  | list slots => list (slots.take n ++ List.replicate (n - slots.length) none)
  | dirent bytes => dirent bytes

/-- `memcpy` to a copy -/
def memcpy (bs : List UInt8) : Block → Option Block
  | list _ => none
  | dirent bytes => (bytes.store 0 bs).map dirent

def setSlot (i p : ℕ) : Block → Option Block
  | list slots => if i < slots.length then some (list (slots.set i (some p))) else none
  | dirent _ => none

/-- `list[i]`, which fails where nothing was stored. -/
def slot (i : ℕ) : Block → Option ℕ
  | list slots => (slots[i]?).join
  | dirent _ => none

def bytes : Block → Buffer
  | list _ => []
  | dirent bytes => bytes

end Block

/-- The heap, and how many directories are open. -/
structure World where
  blocks : Blocks Block
  /-- How many bytes the live blocks have. -/
  used : ℕ
  /-- How many blocks were asked for. -/
  asked : ℕ
  /-- How many requests failed. -/
  refused : ℕ
  openDirs : ℕ

namespace World

section Memory

variable (answers : Allocations)

/-- The answer to a request after which so many bytes are used. -/
def answer (w : World) (used : ℕ) : Option (ℕ → UInt8) :=
  (answers w.asked).filter fun _ => decide (used ≤ addressSpace)

def refuse (w : World) : World := { w with asked := w.asked + 1, refused := w.refused + 1 }

def malloc (size : ℕ) (make : (ℕ → UInt8) → Block) (w : World) : Option ℕ × World :=
  match w.answer answers (w.used + size) with
  | none => (none, w.refuse)
  | some contents =>
    (some w.blocks.next, { w with
      blocks := w.blocks.alloc (make contents)
      used := w.used + size
      asked := w.asked + 1 })

/-- `realloc` of an array of pointers to so many bytes. -/
def realloc (k size : ℕ) (w : World) : Option (Option ℕ × World) := do
  let block ← w.blocks.block k
  let used := w.used - block.size + size
  match w.answer answers used with
  | none => some (none, w.refuse)
  | some _ => do
    let blocks ← w.blocks.realloc k (Block.resize (size / pointerSize))
    some (some w.blocks.next, { w with blocks, used, asked := w.asked + 1 })

end Memory

def free (k : ℕ) (w : World) : Option World := do
  let block ← w.blocks.block k
  let blocks ← w.blocks.free k
  some { w with blocks, used := w.used - block.size }

def opendir (w : World) : World := { w with openDirs := w.openDirs + 1 }

/-- `closedir`, which fails if no directory is open. -/
def closedir (w : World) : Option World :=
  if 0 < w.openDirs then some { w with openDirs := w.openDirs - 1 } else none

def slot (list i : ℕ) (w : World) : Option ℕ := (w.blocks.block list).bind (Block.slot i)

/-- What a comparison function sees of an entry of the list. -/
def direntAt (w : World) (p : ℕ) : Buffer := ((w.blocks.block p).map Block.bytes).getD []

end World

structure ScandirCall where
  world : World
  answers : Allocations
  /-- What the directory holds; none if it cannot be opened. -/
  dirp : Option (List Dirent)
  /-- What `*namelist` points to before. -/
  namelist : Option ℕ
  filter : Option (Dirent → Bool)
  compar : Option (Buffer → Buffer → ℤ)
  /-- The `qsort` of the C library, for lists of pointers. -/
  qsort : (ℕ → ℕ → ℤ) → List ℕ → List ℕ

structure Scan where
  world : World
  list : ℕ
  count : ℕ
  allocated : ℕ

/-- What a call leaves. -/
structure Listing where
  ret : ℤ
  world : World
  namelist : Option ℕ

namespace ScandirCall

variable (c : ScandirCall)

/-- `!(filter && !filter(entry))` -/
def accepts (entry : Dirent) : Bool :=
  match c.filter with
  | none => true
  | some filter => filter entry

/-- Room for one more pointer, and whether there is memory. -/
def grow (s : Scan) : Option (Bool × Scan) :=
  if s.allocated ≤ s.count then do
    let allocated := s.allocated * 2 % 2 ^ 32
    let (newlist, world) ← s.world.realloc c.answers s.list (allocated * pointerSize % 2 ^ 32)
    match newlist with
    | none => some (false, { s with world, allocated })
    | some list => some (true, { s with world, list, allocated })
  else some (true, s)

/-- A copy of the entry at the end of the list, and whether there is memory. -/
def add (entry : Dirent) (s : Scan) : Option (Bool × Scan) :=
  let entsize := (nameOffset + entry.name.strlen + 1) % 2 ^ 32
  let (dup, world) := s.world.malloc c.answers entsize fun contents =>
    .dirent (Buffer.fresh contents entsize)
  match dup with
  | none => some (false, { s with world })
  | some dup => do
    let blocks ← world.blocks.modify dup (Block.memcpy (entry.memory.take entsize))
    let blocks ← blocks.modify s.list (Block.setSlot s.count dup)
    some (true, { s with world := { world with blocks }, count := s.count + 1 })

/-- The loop over what `readdir` gives, and whether there was memory for all. -/
def scanLoop : List Dirent → Scan → Option (Bool × Scan)
  | [], s => some (true, s)
  | entry :: entries, s =>
    if c.accepts entry then do
      let (goesOn, s) ← c.grow s
      if goesOn then
        let (goesOn, s) ← c.add entry s
        if goesOn then scanLoop entries s else some (false, s)
      else some (false, s)
    else scanLoop entries s

/-- `for (i = 0; i < count; i++) free(list[i]);`, for so many rounds. -/
def freeEntries (list : ℕ) : ℕ → ℕ → World → Option World
  | 0, _, w => some w
  | rounds + 1, i, w => do
    let p ← w.slot list i
    let w ← w.free p
    freeEntries list rounds (i + 1) w

def abandon (s : Scan) : Option Listing := do
  let w ← freeEntries s.list s.count 0 s.world
  let w ← w.free s.list
  let w ← w.closedir
  some ⟨-1, w, c.namelist⟩

def sortSlots (cmp : ℕ → ℕ → ℤ) (count : ℕ) : Block → Option Block
  | .list slots => do
    let pointers ← (slots.take count).mapM id
    some (.list ((c.qsort cmp pointers).map some ++ slots.drop count))
  | .dirent _ => none

/-- The end of a call that has read the directory. -/
def finish (s : Scan) : Option Listing := do
  let w ← s.world.closedir
  let blocks ← match c.compar with
    | none => some w.blocks
    | some compar =>
      if 1 < s.count then
        let cmp p q := compar (w.direntAt p) (w.direntAt q)
        w.blocks.modify s.list (c.sortSlots cmp s.count)
      else some w.blocks
  some ⟨(BitVec.ofNat 32 s.count).toInt, { w with blocks }, some s.list⟩

/-- `scandir`; the answer is none if memory that is not live is used, or freed. -/
def scandir : Option Listing :=
  match c.dirp with
  | none => some ⟨-1, c.world, c.namelist⟩
  | some entries =>
    let (list, w) := c.world.opendir.malloc c.answers (32 * pointerSize) fun _ =>
      .list (List.replicate 32 none)
    match list with
    | none => do
      let w ← w.closedir
      some ⟨-1, w, c.namelist⟩
    | some list => do
      let (done, s) ← c.scanLoop entries ⟨w, list, 0, 32⟩
      if done then c.finish s else c.abandon s

end ScandirCall

end Solcompat.Filesystem
