import Solcompat.Filesystem.Scandir
import Solcompat.Lib.Rearrange

/-!
# What `scandir` delivers

The loop keeps a list of new blocks, one for each entry that was accepted. A call that fails
frees them and the list; one that succeeds hands them on, in an order of `qsort` or of the
directory.
-/

namespace Solcompat.Filesystem

open Solcompat.Lib

/-- What is assumed of `qsort`: it permutes, and sorts by what is a total preorder on the
elements. -/
structure Sorts (qsort : (ℕ → ℕ → ℤ) → List ℕ → List ℕ) : Prop where
  perm : ∀ cmp xs, (qsort cmp xs).Perm xs
  sorted : ∀ cmp xs, TotalPreorderOn { x | x ∈ xs } cmp →
    (qsort cmp xs).Pairwise fun p q => cmp p q ≤ 0

/-- The entries of the directory that the filter accepts. -/
def ScandirCall.accepted (c : ScandirCall) : List Dirent := (c.dirp.getD []).filter c.accepts

/-- The call has failed, and has left nothing behind. -/
structure Failed (c : ScandirCall) (r : Listing) : Prop where
  ret_eq : r.ret = -1
  namelist_eq : r.namelist = c.namelist
  block_eq : r.world.blocks.block = c.world.blocks.block
  used_eq : r.world.used = c.world.used
  openDirs_eq : r.world.openDirs = c.world.openDirs
  reason : c.dirp = none ∨ c.world.refused < r.world.refused

/-- The call has succeeded: `list` holds the pointers `ptrs`, each to a block with one of the
copies. -/
structure Listed (c : ScandirCall) (r : Listing) (list : ℕ) (ptrs : List ℕ)
    (copies : List Buffer) : Prop where
  ret_eq : r.ret = c.accepted.length
  namelist_eq : r.namelist = some list
  slots : ∃ spare, r.world.blocks.block list = some (.list (ptrs.map some ++ spare))
  blocks : ptrs.map r.world.blocks.block = copies.map fun copy => some (.dirent copy)
  perm : copies.Perm (c.accepted.map Dirent.copy)
  unsorted : c.compar = none → copies = c.accepted.map Dirent.copy
  sorted : ∀ compar, c.compar = some compar →
    TotalPreorderOn { x | x ∈ c.accepted.map Dirent.copy } compar →
    copies.Pairwise fun x y => compar x y ≤ 0
  grown : Blocks.Grown c.world.blocks r.world.blocks (ptrs ++ [list])
  openDirs_eq : r.world.openDirs = c.world.openDirs
  refused_eq : r.world.refused = c.world.refused

section Requests

variable {answers : Allocations} {w : World}

theorem Dirent.length_copy (e : Dirent) : e.copy.length = nameOffset + e.name.strlen + 1 := by
  rw [Dirent.copy, List.length_append, List.length_append, e.header_length, List.length_singleton]
  rfl

theorem Dirent.take_memory (e : Dirent) : e.memory.take e.copy.length = e.copy := by
  have hmemory : e.memory = e.copy ++ e.padding := by simp [Dirent.memory, Dirent.copy]
  rw [hmemory, List.take_left]

theorem Dirent.entsize_eq (e : Dirent) :
    (nameOffset + e.name.strlen + 1) % 2 ^ 32 = e.copy.length := by
  have hfits := e.fits
  rw [e.header_length, addressSpace] at hfits
  rw [e.length_copy, Nat.mod_eq_of_lt hfits]

theorem Dirent.memcpy_eq (e : Dirent) {old : Buffer} (h : old.length = e.copy.length) :
    Block.memcpy (e.memory.take e.copy.length) (.dirent old) = some (.dirent e.copy) := by
  rw [e.take_memory, Block.memcpy, Buffer.store_all h.symm, Option.map_some]

theorem World.malloc_cases (answers : Allocations) (size : ℕ) (make : (ℕ → UInt8) → Block)
    (w : World) :
    w.malloc answers size make = (none, w.refuse) ∨
      w.used + size ≤ addressSpace ∧ ∃ contents, w.malloc answers size make =
        (some w.blocks.next, { w with
          blocks := w.blocks.alloc (make contents)
          used := w.used + size
          asked := w.asked + 1 }) := by
  rw [World.malloc]
  cases hanswer : w.answer answers (w.used + size) with
  | none => exact .inl rfl
  | some contents =>
    obtain ⟨-, hfits⟩ := Option.filter_eq_some_iff.mp hanswer
    exact .inr ⟨by simpa using hfits, contents, rfl⟩

theorem World.realloc_cases (answers : Allocations) {k : ℕ} (size : ℕ) {w : World} {block : Block}
    (hk : w.blocks.block k = some block) :
    w.realloc answers k size = some (none, w.refuse) ∨
      w.used - block.size + size ≤ addressSpace ∧ w.realloc answers k size =
        some (some w.blocks.next, { w with
          blocks := (w.blocks.alloc (block.resize (size / pointerSize))).erase k
          used := w.used - block.size + size
          asked := w.asked + 1 }) := by
  rw [World.realloc, hk]
  cases hanswer : w.answer answers (w.used - block.size + size) with
  | none =>
    left
    simp only [Option.bind_eq_bind, Option.bind_some, hanswer]
  | some contents =>
    obtain ⟨-, hfits⟩ := Option.filter_eq_some_iff.mp hanswer
    right
    refine ⟨by simpa using hfits, ?_⟩
    simp only [Option.bind_eq_bind, Option.bind_some, hanswer, Blocks.realloc_eq hk]

theorem World.free_eq {k : ℕ} {block : Block} (hk : w.blocks.block k = some block) :
    w.free k = some { w with blocks := w.blocks.erase k, used := w.used - block.size } := by
  rw [World.free, hk]
  simp only [Option.bind_eq_bind, Option.bind_some, Blocks.free_eq hk]

end Requests

/-- An array of so many slots, the first of which hold the pointers. -/
def Block.holding (room : ℕ) (ptrs : List ℕ) : Block :=
  .list (ptrs.map some ++ List.replicate (room - ptrs.length) none)

/-- The new blocks, beside those of `base`, are a list with the given room, and the copies of
the entries that were kept. -/
structure Holds (base w : World) (list room : ℕ) (kept : List Dirent) (ptrs : List ℕ) :
    Prop where
  grown : Blocks.Grown base.blocks w.blocks (ptrs ++ [list])
  slots : w.blocks.block list = some (.holding room ptrs)
  copies : ptrs.map w.blocks.block = kept.map fun e => some (.dirent e.copy)
  le_room : ptrs.length ≤ room
  room_pos : 0 < room
  used_eq : w.used = base.used + (pointerSize * room + (kept.map fun e => e.copy.length).sum)
  used_le : w.used ≤ addressSpace
  openDirs_eq : w.openDirs = base.openDirs

section Loop

variable {c : ScandirCall} {base w : World} {list room : ℕ} {kept : List Dirent} {ptrs : List ℕ}

theorem Holds.refuse (h : Holds base w list room kept ptrs) :
    Holds base w.refuse list room kept ptrs :=
  ⟨h.grown, h.slots, h.copies, h.le_room, h.room_pos, h.used_eq, h.used_le, h.openDirs_eq⟩

theorem Holds.length_eq (h : Holds base w list room kept ptrs) : ptrs.length = kept.length := by
  have hlength := congrArg List.length h.copies
  rwa [List.length_map, List.length_map] at hlength

theorem Holds.notMem (h : Holds base w list room kept ptrs) : list ∉ ptrs := by
  have hnodup := List.nodup_append.mp h.grown.nodup
  exact fun hmem => hnodup.2.2 list hmem list (List.mem_singleton_self list) rfl

theorem copies_large (kept : List Dirent) :
    19 * kept.length ≤ (kept.map fun e => e.copy.length).sum := by
  induction kept with
  | nil => exact le_rfl
  | cons e kept ih =>
    have hone : 19 ≤ e.copy.length := by
      rw [e.length_copy, nameOffset]
      omega
    rw [List.map_cons, List.sum_cons, List.length_cons]
    omega

theorem Holds.room_lt (h : Holds base w list room kept ptrs) (hfull : room ≤ ptrs.length) :
    room * 2 * pointerSize < 2 ^ 32 := by
  have hlarge := copies_large kept
  have hused := h.used_eq
  have hle := h.used_le
  have hlength := h.length_eq
  rw [addressSpace] at hle
  rw [pointerSize] at *
  omega

theorem Block.size_holding {ptrs : List ℕ} (hroom : ptrs.length ≤ room) :
    (Block.holding room ptrs).size = pointerSize * room := by
  rw [Block.holding, Block.size, List.length_append, List.length_map, List.length_replicate,
    Nat.add_sub_cancel' hroom]

theorem Block.setSlot_holding {ptrs : List ℕ} (hroom : ptrs.length < room) (p : ℕ) :
    Block.setSlot ptrs.length p (.holding room ptrs) = some (.holding room (ptrs ++ [p])) := by
  obtain ⟨n, hn⟩ : ∃ n, room - ptrs.length = n + 1 := ⟨room - ptrs.length - 1, by omega⟩
  have hrest : room - (ptrs ++ [p]).length = n := by
    rw [List.length_append, List.length_singleton]
    omega
  rw [Block.holding, Block.holding, hrest, hn, Block.setSlot, if_pos (by simp),
    List.set_append_right _ _ (by simp), List.length_map, Nat.sub_self, List.replicate_succ,
    List.set_cons_zero, List.map_append, List.append_assoc]
  rfl

theorem Block.resize_holding {ptrs : List ℕ} {more : ℕ} (hroom : ptrs.length ≤ room)
    (hmore : room ≤ more) : Block.resize more (.holding room ptrs) = .holding more ptrs := by
  have hlength : (ptrs.map some ++ List.replicate (room - ptrs.length) none).length = room := by
    rw [List.length_append, List.length_map, List.length_replicate, Nat.add_sub_cancel' hroom]
  have hsum : room - ptrs.length + (more - room) = more - ptrs.length := by omega
  rw [Block.holding, Block.resize, List.take_of_length_le (by omega), hlength, List.append_assoc,
    List.replicate_append_replicate, hsum]
  rfl

theorem Holds.moved (h : Holds base w list room kept ptrs) {more asked : ℕ} (hmore : room ≤ more)
    (hfits : w.used - pointerSize * room + more * pointerSize ≤ addressSpace) :
    Holds base { w with
      blocks := (w.blocks.alloc (.holding more ptrs)).erase list
      used := w.used - pointerSize * room + more * pointerSize
      asked } w.blocks.next more kept ptrs where
  grown := ((h.grown.perm (List.perm_append_singleton list ptrs)).realloc _).perm
    (List.perm_append_singleton _ ptrs).symm
  slots := Blocks.realloc_self h.slots _
  copies := by
    rw [← h.copies]
    apply List.map_congr_left
    intro p hp
    have hne : p ≠ list := fun heq => h.notMem (heq ▸ hp)
    exact Blocks.realloc_of_ne _ _ (h.grown.lt_next (List.mem_append_left _ hp)) hne
  le_room := h.le_room.trans hmore
  room_pos := h.room_pos.trans_le hmore
  used_eq := by
    have hused := h.used_eq
    show w.used - pointerSize * room + more * pointerSize = _
    rw [pointerSize] at *
    omega
  used_le := hfits
  openDirs_eq := h.openDirs_eq

theorem Holds.added (h : Holds base w list room kept ptrs) {e : Dirent} {blocks : Blocks Block}
    {dup asked : ℕ} (hgrown : Blocks.Grown base.blocks blocks (ptrs ++ [dup] ++ [list]))
    (hslots : blocks.block list = some (.holding room (ptrs ++ [dup])))
    (hdup : blocks.block dup = some (.dirent e.copy))
    (hothers : ∀ p ∈ ptrs, blocks.block p = w.blocks.block p)
    (hroom : ptrs.length < room) (hfits : w.used + e.copy.length ≤ addressSpace) :
    Holds base { w with blocks, used := w.used + e.copy.length, asked } list room (kept ++ [e])
      (ptrs ++ [dup]) where
  grown := hgrown
  slots := hslots
  copies := by
    rw [List.map_append, List.map_append, ← h.copies, List.map_congr_left hothers,
      List.map_singleton, List.map_singleton]
    show _ ++ [blocks.block dup] = _
    rw [hdup]
  le_room := by
    rw [List.length_append, List.length_singleton]
    exact hroom
  room_pos := h.room_pos
  used_eq := by
    have hused := h.used_eq
    rw [List.map_append, List.sum_append, List.map_singleton, List.sum_singleton]
    show w.used + e.copy.length = _
    omega
  used_le := hfits
  openDirs_eq := h.openDirs_eq

theorem add_spec {s : Scan} (h : Holds base s.world s.list s.allocated kept ptrs)
    (hcount : s.count = ptrs.length) (hroom : s.count < s.allocated) (e : Dirent) :
    (∃ s' dup, c.add e s = some (true, s') ∧
      Holds base s'.world s'.list s'.allocated (kept ++ [e]) (ptrs ++ [dup]) ∧
      s'.count = s.count + 1 ∧ s'.world.refused = s.world.refused) ∨
    c.add e s = some (false, { s with world := s.world.refuse }) := by
  have hsize := e.entsize_eq
  rcases World.malloc_cases c.answers e.copy.length
    (fun contents => .dirent (Buffer.fresh contents e.copy.length)) s.world with
    hrefused | ⟨hfits, contents, hmalloc⟩
  · right
    rw [ScandirCall.add]
    simp only [hsize, hrefused]
  · left
    let dup := s.world.blocks.next
    let old : Block := .dirent (Buffer.fresh contents e.copy.length)
    let slots : Block := .holding s.allocated (ptrs ++ [dup])
    let made := (s.world.blocks.alloc old).put dup (.dirent e.copy)
    have hlive : s.list < dup :=
      h.grown.lt_next (List.mem_append_right ptrs (List.mem_singleton_self s.list))
    have hcopy := e.memcpy_eq (Buffer.length_fresh contents e.copy.length)
    have hlist : made.block s.list = some (.holding s.allocated ptrs) := by
      rw [Blocks.put_of_ne _ _ hlive.ne, Blocks.alloc_of_ne _ _ hlive.ne, h.slots]
    have hset := Block.setSlot_holding (hcount ▸ hroom) dup
    let world : World := { s.world with
      blocks := made.put s.list slots
      used := s.world.used + e.copy.length
      asked := s.world.asked + 1 }
    refine ⟨⟨world, s.list, s.count + 1, s.allocated⟩, dup, ?_,
      h.added ?_ ?_ ?_ ?_ (hcount ▸ hroom) hfits, rfl, rfl⟩
    · rw [ScandirCall.add]
      simp only [hsize, hmalloc, Option.bind_eq_bind]
      rw [Blocks.modify_eq (Blocks.alloc_self ..) hcopy, Option.bind_some]
      rw [hcount, Blocks.modify_eq hlist hset, Option.bind_some]
    · have hmem : s.list ∈ dup :: (ptrs ++ [s.list]) := by simp
      refine (((h.grown.alloc old).put List.mem_cons_self (.dirent e.copy)).put hmem slots).perm ?_
      rw [List.append_assoc]
      exact List.perm_middle.symm
    · exact Blocks.put_self hlist slots
    · rw [Blocks.put_of_ne _ _ hlive.ne', Blocks.put_self (Blocks.alloc_self ..)]
    · intro p hp
      have hne : p ≠ s.list := fun heq => h.notMem (heq ▸ hp)
      have hlt : p < dup := h.grown.lt_next (List.mem_append_left _ hp)
      rw [Blocks.put_of_ne _ _ hne, Blocks.put_of_ne _ _ hlt.ne, Blocks.alloc_of_ne _ _ hlt.ne]

theorem grow_spec {s : Scan} (h : Holds base s.world s.list s.allocated kept ptrs)
    (hcount : s.count = ptrs.length) :
    (∃ s', c.grow s = some (true, s') ∧
      Holds base s'.world s'.list s'.allocated kept ptrs ∧ s'.count = s.count ∧
      s.count < s'.allocated ∧ s'.world.refused = s.world.refused) ∨
    ∃ allocated, c.grow s = some (false, { s with world := s.world.refuse, allocated }) := by
  by_cases hfull : s.allocated ≤ s.count
  · have hlt := h.room_lt (hcount ▸ hfull)
    have hpos := h.room_pos
    have hle := h.le_room
    have hroom : s.allocated * 2 % 2 ^ 32 = s.allocated * 2 := by
      rw [pointerSize] at hlt
      exact Nat.mod_eq_of_lt (by omega)
    have hsize : s.allocated * 2 * pointerSize % 2 ^ 32 = s.allocated * 2 * pointerSize :=
      Nat.mod_eq_of_lt hlt
    have hslots : s.allocated * 2 * pointerSize / pointerSize = s.allocated * 2 :=
      Nat.mul_div_cancel _ (by decide)
    rcases World.realloc_cases c.answers (s.allocated * 2 * pointerSize) h.slots with
      hrefused | ⟨hfits, hmoved⟩
    · right
      refine ⟨s.allocated * 2, ?_⟩
      rw [ScandirCall.grow, if_pos hfull]
      simp only [hroom, hsize, hrefused, Option.bind_eq_bind, Option.bind_some]
    · left
      rw [Block.size_holding hle, hslots, Block.resize_holding hle (by omega)] at hmoved
      rw [Block.size_holding hle] at hfits
      let world : World := { s.world with
        blocks := (s.world.blocks.alloc (.holding (s.allocated * 2) ptrs)).erase s.list
        used := s.world.used - pointerSize * s.allocated + s.allocated * 2 * pointerSize
        asked := s.world.asked + 1 }
      refine ⟨⟨world, s.world.blocks.next, s.count, s.allocated * 2⟩, ?_,
        h.moved (by omega) hfits, rfl, by dsimp only; omega, rfl⟩
      rw [ScandirCall.grow, if_pos hfull]
      simp only [hroom, hsize, hmoved, Option.bind_eq_bind, Option.bind_some]
      rfl
  · left
    exact ⟨s, by rw [ScandirCall.grow, if_neg hfull], h, rfl, by omega, rfl⟩

theorem scanLoop_spec (entries : List Dirent) :
    ∀ {s : Scan} {kept : List Dirent} {ptrs : List ℕ},
    Holds base s.world s.list s.allocated kept ptrs → s.count = ptrs.length →
    (∃ s' ptrs', c.scanLoop entries s = some (true, s') ∧
      Holds base s'.world s'.list s'.allocated (kept ++ entries.filter c.accepts) ptrs' ∧
      s'.count = ptrs'.length ∧ s'.world.refused = s.world.refused) ∨
    ∃ s' room kept' ptrs', c.scanLoop entries s = some (false, s') ∧
      Holds base s'.world s'.list room kept' ptrs' ∧ s'.count = ptrs'.length ∧
      s.world.refused < s'.world.refused := by
  induction entries with
  | nil =>
    intro s kept ptrs h hcount
    exact .inl ⟨s, ptrs, rfl, by rwa [List.filter_nil, List.append_nil], hcount, rfl⟩
  | cons e entries ih =>
    intro s kept ptrs h hcount
    by_cases haccepts : c.accepts e = true
    · rcases grow_spec (c := c) h hcount with
        ⟨s₁, hgrow, h₁, hcount₁, hroom₁, hrefused₁⟩ | ⟨allocated, hgrow⟩
      · rw [← hcount₁] at hroom₁
        rw [hcount] at hcount₁
        rcases add_spec (c := c) h₁ hcount₁ hroom₁ e with
          ⟨s₂, dup, hadd, h₂, hcount₂, hrefused₂⟩ | hadd
        · have hloop : c.scanLoop (e :: entries) s = c.scanLoop entries s₂ := by
            simp only [ScandirCall.scanLoop, haccepts, if_true, hgrow, hadd, Option.bind_eq_bind,
              Option.bind_some]
          have hkept : kept ++ (e :: entries).filter c.accepts =
              kept ++ [e] ++ entries.filter c.accepts := by
            rw [List.filter_cons_of_pos haccepts, List.append_assoc]
            rfl
          rw [hloop, hkept, ← hrefused₁, ← hrefused₂]
          apply ih h₂
          rw [hcount₂, hcount₁, List.length_append, List.length_singleton]
        · right
          refine ⟨{ s₁ with world := s₁.world.refuse }, s₁.allocated, kept, ptrs, ?_, h₁.refuse,
            hcount₁, ?_⟩
          · simp only [ScandirCall.scanLoop, haccepts, if_true, hgrow, hadd, Option.bind_eq_bind,
              Option.bind_some, Bool.false_eq_true, if_false]
          · exact hrefused₁ ▸ Nat.lt_succ_self _
      · right
        refine ⟨{ s with world := s.world.refuse, allocated }, s.allocated, kept, ptrs, ?_,
          h.refuse, hcount, Nat.lt_succ_self _⟩
        simp only [ScandirCall.scanLoop, haccepts, if_true, hgrow, Option.bind_eq_bind,
          Option.bind_some, Bool.false_eq_true, if_false]
    · have hloop : c.scanLoop (e :: entries) s = c.scanLoop entries s := by
        simp only [ScandirCall.scanLoop, haccepts, Bool.false_eq_true, if_false]
      rw [hloop, List.filter_cons_of_neg haccepts]
      exact ih h hcount

end Loop

section Endings

variable {c : ScandirCall} {base w : World} {list room : ℕ} {kept : List Dirent} {ptrs : List ℕ}

/-- The loop that frees the copies, by induction on those that are still there. -/
theorem freeEntries_spec {ptrs : List ℕ} : ∀ {w : World} {front : List ℕ} {copies : List Buffer}
    {spare : List (Option ℕ)} {used : ℕ},
    Blocks.Grown base.blocks w.blocks (ptrs ++ [list]) →
    w.blocks.block list = some (.list (front.map some ++ (ptrs.map some ++ spare))) →
    ptrs.map w.blocks.block = copies.map (fun copy => some (.dirent copy)) →
    w.used = used + (copies.map List.length).sum →
    ∃ blocks, ScandirCall.freeEntries list ptrs.length front.length w =
        some { w with blocks, used } ∧
      Blocks.Grown base.blocks blocks [list] ∧ blocks.block list = w.blocks.block list := by
  induction ptrs with
  | nil =>
    intro w front copies spare used hgrown _ hcopies hused
    obtain rfl : copies = [] := List.map_eq_nil_iff.mp hcopies.symm
    obtain rfl : w.used = used := hused
    exact ⟨w.blocks, rfl, hgrown, rfl⟩
  | cons p ptrs ih =>
    intro w front copies spare used hgrown hlist hcopies hused
    obtain ⟨copy, copies, rfl⟩ : ∃ copy copies', copies = copy :: copies' := by
      cases copies with
      | nil => exact absurd hcopies (by simp)
      | cons copy copies => exact ⟨copy, copies, rfl⟩
    obtain ⟨hp, hcopies⟩ := List.cons.inj hcopies
    have hnodup := List.nodup_cons.mp hgrown.nodup
    have hslot : w.slot list front.length = some p := by
      rw [World.slot, hlist, Option.bind_some, Block.slot,
        List.getElem?_append_right (by rw [List.length_map]), List.length_map, Nat.sub_self]
      rfl
    have hfree := World.free_eq hp
    have hne : list ≠ p := fun heq => hnodup.1 (heq ▸ List.mem_append_right _ (by simp))
    have hothers : ptrs.map (w.blocks.erase p).block =
        copies.map fun copy => some (.dirent copy) := by
      rw [← hcopies]
      apply List.map_congr_left
      intro q hq
      exact Blocks.erase_of_ne _ fun heq => hnodup.1 (heq ▸ List.mem_append_left _ hq)
    rw [List.map_cons, List.sum_cons] at hused
    have hlist' : (w.blocks.erase p).block list =
        some (.list ((front ++ [p]).map some ++ (ptrs.map some ++ spare))) := by
      rw [Blocks.erase_of_ne _ hne, hlist, List.map_append, List.append_assoc]
      rfl
    have hused' : w.used - copy.length = used + (copies.map List.length).sum := by omega
    obtain ⟨blocks, hloop, hleft, hkept⟩ :=
      ih (w := { w with blocks := w.blocks.erase p, used := w.used - copy.length }) hgrown.erase
        hlist' hothers hused'
    refine ⟨blocks, ?_, hleft, hkept.trans (Blocks.erase_of_ne _ hne)⟩
    rw [List.length_append, List.length_singleton] at hloop
    rw [List.length_cons, ScandirCall.freeEntries, hslot]
    simp only [Option.bind_eq_bind, Option.bind_some, hfree]
    exact hloop

theorem abandon_spec {s : Scan} (h : Holds base.opendir s.world s.list room kept ptrs)
    (hcount : s.count = ptrs.length) :
    ∃ r, c.abandon s = some r ∧ r.ret = -1 ∧ r.namelist = c.namelist ∧
      r.world.blocks.block = base.blocks.block ∧ r.world.used = base.used ∧
      r.world.openDirs = base.openDirs ∧ r.world.refused = s.world.refused := by
  have hused : s.world.used = base.used + pointerSize * room +
      ((kept.map Dirent.copy).map List.length).sum := by
    rw [List.map_map, h.used_eq, Nat.add_assoc]
    rfl
  have hcopies : ptrs.map s.world.blocks.block =
      (kept.map Dirent.copy).map fun copy => some (.dirent copy) := by
    rw [h.copies, List.map_map]
    rfl
  have hslots : s.world.blocks.block s.list = some (.list (([] : List ℕ).map some ++
      (ptrs.map some ++ List.replicate (room - ptrs.length) none))) := h.slots
  obtain ⟨blocks, hfree, hgrown, hlist⟩ := freeEntries_spec h.grown hslots hcopies hused
  have hlast := World.free_eq (w := { s.world with blocks, used := base.used + pointerSize * room })
    (hlist.trans h.slots)
  rw [Block.size_holding h.le_room] at hlast
  have hopen : s.world.openDirs = base.openDirs + 1 := h.openDirs_eq
  let world : World := { s.world with
    blocks := blocks.erase s.list
    used := base.used + pointerSize * room - pointerSize * room
    openDirs := s.world.openDirs - 1 }
  refine ⟨⟨-1, world, c.namelist⟩, ?_, rfl, rfl, hgrown.erase.block_eq, ?_, ?_, rfl⟩
  · rw [ScandirCall.abandon, hcount]
    rw [List.length_nil] at hfree
    simp only [hfree, hlast, Option.bind_eq_bind, Option.bind_some]
    rw [World.closedir, if_pos (by dsimp only; omega)]
    rfl
  · exact Nat.add_sub_cancel ..
  · show s.world.openDirs - 1 = base.openDirs
    omega

theorem mapM_some (ptrs : List ℕ) : (ptrs.map some).mapM id = some ptrs := by
  induction ptrs with
  | nil => rfl
  | cons p ptrs ih =>
    rw [List.map_cons, List.mapM_cons, ih]
    rfl

theorem sortSlots_eq (cmp : ℕ → ℕ → ℤ) (ptrs : List ℕ) (spare : List (Option ℕ)) :
    c.sortSlots cmp ptrs.length (.list (ptrs.map some ++ spare)) =
      some (.list ((c.qsort cmp ptrs).map some ++ spare)) := by
  have htake : (ptrs.map some ++ spare).take ptrs.length = ptrs.map some :=
    List.take_left' (List.length_map some)
  have hdrop : (ptrs.map some ++ spare).drop ptrs.length = spare :=
    List.drop_left' (List.length_map some)
  simp only [ScandirCall.sortSlots, htake, hdrop, mapM_some, Option.bind_eq_bind, Option.bind_some]

theorem Holds.block_eq (h : Holds base w list room kept ptrs) {p : ℕ} (hp : p ∈ ptrs) :
    ∃ e ∈ kept, w.blocks.block p = some (.dirent e.copy) := by
  have hmem : w.blocks.block p ∈ ptrs.map w.blocks.block := List.mem_map_of_mem hp
  rw [h.copies] at hmem
  obtain ⟨e, he, heq⟩ := List.mem_map.mp hmem
  exact ⟨e, he, heq.symm⟩

theorem Holds.direntAt_mem (h : Holds base w list room kept ptrs) {p : ℕ} (hp : p ∈ ptrs) :
    w.direntAt p ∈ kept.map Dirent.copy ∧ w.blocks.block p = some (.dirent (w.direntAt p)) := by
  obtain ⟨e, he, hblock⟩ := h.block_eq hp
  have hdirent : w.direntAt p = e.copy := by
    rw [World.direntAt, hblock]
    rfl
  rw [hdirent]
  exact ⟨List.mem_map_of_mem he, hblock⟩

theorem Holds.map_direntAt (h : Holds base w list room kept ptrs) :
    ptrs.map w.direntAt = kept.map Dirent.copy := by
  have hmap := congrArg (List.map fun b => (b.map Block.bytes).getD []) h.copies
  rwa [List.map_map, List.map_map] at hmap

theorem Holds.ret_eq (h : Holds base w list room kept ptrs) :
    (BitVec.ofNat 32 ptrs.length).toInt = kept.length := by
  have hlarge := copies_large kept
  have hused := h.used_eq
  have hle := h.used_le
  rw [addressSpace] at hle
  have hnat : (BitVec.ofNat 32 ptrs.length).toNat = kept.length := by
    rw [BitVec.toNat_ofNat, Nat.mod_eq_of_lt (by rw [h.length_eq]; omega), h.length_eq]
  rw [BitVec.toInt_eq_toNat_of_lt (by rw [hnat]; omega), hnat]

theorem Holds.listed {s : Scan} (h : Holds c.world.opendir s.world s.list room c.accepted ptrs)
    {ptrs' : List ℕ} (hperm : ptrs'.Perm ptrs) {blocks : Blocks Block}
    (hlist : ∃ spare, blocks.block s.list = some (.list (ptrs'.map some ++ spare)))
    (hothers : ∀ p ∈ ptrs, blocks.block p = s.world.blocks.block p)
    (hgrown : Blocks.Grown c.world.blocks blocks (ptrs ++ [s.list]))
    (hunsorted : c.compar = none → ptrs' = ptrs)
    (hsorted : ∀ compar, c.compar = some compar →
      TotalPreorderOn { x | x ∈ c.accepted.map Dirent.copy } compar →
      (ptrs'.map s.world.direntAt).Pairwise fun x y => compar x y ≤ 0)
    (hrefused : s.world.refused = c.world.refused) :
    Listed c ⟨(BitVec.ofNat 32 ptrs.length).toInt,
      { s.world with blocks, openDirs := s.world.openDirs - 1 }, some s.list⟩ s.list ptrs'
      (ptrs'.map s.world.direntAt) where
  ret_eq := h.ret_eq
  namelist_eq := rfl
  slots := hlist
  blocks := by
    rw [List.map_map]
    apply List.map_congr_left
    intro p hp
    have hmem := hperm.mem_iff.mp hp
    exact (hothers p hmem).trans (h.direntAt_mem hmem).2
  perm := by
    rw [← h.map_direntAt]
    exact hperm.map _
  unsorted hnone := by rw [hunsorted hnone, h.map_direntAt]
  sorted := hsorted
  grown := hgrown.perm (hperm.symm.append_right _)
  openDirs_eq := by
    have hopen : s.world.openDirs = c.world.openDirs + 1 := h.openDirs_eq
    show s.world.openDirs - 1 = c.world.openDirs
    omega
  refused_eq := hrefused

theorem Holds.totalPreorderOn (h : Holds base w list room kept ptrs)
    {compar : Buffer → Buffer → ℤ}
    (ht : TotalPreorderOn { x | x ∈ kept.map Dirent.copy } compar) :
    TotalPreorderOn { p | p ∈ ptrs } fun p q => compar (w.direntAt p) (w.direntAt q) where
  antisymm _ hp _ hq := ht.antisymm _ (h.direntAt_mem hp).1 _ (h.direntAt_mem hq).1
  trans _ hp _ hq _ hr :=
    ht.trans _ (h.direntAt_mem hp).1 _ (h.direntAt_mem hq).1 _ (h.direntAt_mem hr).1

theorem pairwise_of_short {α : Type} {R : α → α → Prop} {xs : List α} (h : xs.length ≤ 1) :
    xs.Pairwise R := by
  cases xs with
  | nil => exact .nil
  | cons x xs =>
    obtain rfl : xs = [] := List.eq_nil_of_length_eq_zero (by rw [List.length_cons] at h; omega)
    exact List.pairwise_singleton R x

theorem finish_spec (hqsort : Sorts c.qsort) {s : Scan}
    (h : Holds c.world.opendir s.world s.list room c.accepted ptrs)
    (hcount : s.count = ptrs.length) (hrefused : s.world.refused = c.world.refused) :
    ∃ r ptrs' copies, c.finish s = some r ∧ Listed c r s.list ptrs' copies := by
  have hopen : s.world.openDirs = c.world.openDirs + 1 := h.openDirs_eq
  have hclose : s.world.closedir =
      some { s.world with openDirs := s.world.openDirs - 1 } := if_pos (by omega)
  have hgrown : Blocks.Grown c.world.blocks s.world.blocks (ptrs ++ [s.list]) := h.grown
  have hspare : ∃ spare, s.world.blocks.block s.list = some (.list (ptrs.map some ++ spare)) :=
    ⟨_, h.slots⟩
  cases hcompar : c.compar with
  | none =>
    have hlisted := h.listed (.refl ptrs) hspare (fun _ _ => rfl) hgrown (fun _ => rfl)
      (fun compar hsome => absurd (hcompar.symm.trans hsome) (by simp)) hrefused
    refine ⟨_, ptrs, _, ?_, hlisted⟩
    simp only [ScandirCall.finish, hclose, hcompar, hcount, Option.bind_eq_bind, Option.bind_some]
  | some compar =>
    by_cases hmany : 1 < ptrs.length
    · let cmp p q := compar (s.world.direntAt p) (s.world.direntAt q)
      let spare : List (Option ℕ) := List.replicate (room - ptrs.length) none
      have hperm := hqsort.perm cmp ptrs
      let blocks := s.world.blocks.put s.list (.list ((c.qsort cmp ptrs).map some ++ spare))
      have hmodify : s.world.blocks.modify s.list (c.sortSlots cmp ptrs.length) = some blocks :=
        Blocks.modify_eq h.slots (sortSlots_eq cmp ptrs spare)
      have hothers : ∀ p ∈ ptrs, blocks.block p = s.world.blocks.block p := by
        intro p hp
        exact Blocks.put_of_ne _ _ fun heq => h.notMem (heq ▸ hp)
      have hsorted : ∀ compar', c.compar = some compar' →
          TotalPreorderOn { x | x ∈ c.accepted.map Dirent.copy } compar' →
          ((c.qsort cmp ptrs).map s.world.direntAt).Pairwise fun x y => compar' x y ≤ 0 := by
        intro compar' hsome ht
        obtain rfl := Option.some.inj (hcompar.symm.trans hsome)
        rw [List.pairwise_map]
        exact hqsort.sorted cmp ptrs (h.totalPreorderOn ht)
      have hlisted := h.listed hperm ⟨spare, Blocks.put_self h.slots _⟩ hothers
        (hgrown.put (by simp) _) (fun hnone => absurd (hcompar.symm.trans hnone) (by simp)) hsorted
        hrefused
      refine ⟨_, _, _, ?_, hlisted⟩
      simp only [ScandirCall.finish, hclose, hcompar, hcount, Option.bind_eq_bind,
        Option.bind_some, if_pos hmany]
      exact congrArg (Option.bind · _) hmodify
    · have hlisted := h.listed (.refl ptrs) hspare (fun _ _ => rfl) hgrown (fun _ => rfl)
        (fun _ _ _ => pairwise_of_short (by rw [List.length_map]; omega)) hrefused
      refine ⟨_, ptrs, _, ?_, hlisted⟩
      simp only [ScandirCall.finish, hclose, hcompar, hcount, Option.bind_eq_bind,
        Option.bind_some, if_neg hmany]

end Endings

theorem holds_first {w : World} (hfits : w.used + 32 * pointerSize ≤ addressSpace) (asked : ℕ) :
    Holds w { w with
      blocks := w.blocks.alloc (.list (List.replicate 32 none))
      used := w.used + 32 * pointerSize
      asked } w.blocks.next 32 [] [] where
  grown := (Blocks.Grown.refl w.blocks).alloc _
  slots := Blocks.alloc_self ..
  copies := rfl
  le_room := Nat.zero_le _
  room_pos := by decide
  used_eq := rfl
  used_le := hfits
  openDirs_eq := rfl

/-- Whatever the directory holds, and whenever there is no memory, a call that fails leaves
everything as it was, and one that succeeds delivers a copy of each entry that the filter
accepts. A directory that can be opened is listed unless a request for memory is refused. -/
theorem scandir_delivers (c : ScandirCall) (hqsort : Sorts c.qsort) :
    ∃ r, c.scandir = some r ∧
      (Failed c r ∨ ∃ list ptrs copies, Listed c r list ptrs copies) ∧
      (c.dirp ≠ none → r.world.refused = c.world.refused →
        ∃ list ptrs copies, Listed c r list ptrs copies) := by
  suffices hends : ∃ r, c.scandir = some r ∧
      (Failed c r ∨ ∃ list ptrs copies, Listed c r list ptrs copies) by
    obtain ⟨r, hr, hfailed | hlisted⟩ := hends
    · refine ⟨r, hr, .inl hfailed, fun hdirp hrefused => ?_⟩
      exact absurd hfailed.reason (not_or.mpr ⟨hdirp, hrefused.not_gt⟩)
    · exact ⟨r, hr, .inr hlisted, fun _ _ => hlisted⟩
  cases hdirp : c.dirp with
  | none =>
    refine ⟨⟨-1, c.world, c.namelist⟩, by rw [ScandirCall.scandir, hdirp], .inl ?_⟩
    exact ⟨rfl, rfl, rfl, rfl, rfl, .inl hdirp⟩
  | some entries =>
    rcases World.malloc_cases c.answers (32 * pointerSize)
      (fun _ => .list (List.replicate 32 none)) c.world.opendir with
      hnone | ⟨hfits, contents, hmalloc⟩
    · have hclose : c.world.opendir.refuse.closedir =
          some { c.world.opendir.refuse with openDirs := c.world.openDirs } :=
        if_pos (Nat.succ_pos _)
      refine ⟨⟨-1, { c.world.opendir.refuse with openDirs := c.world.openDirs }, c.namelist⟩, ?_,
        .inl ⟨rfl, rfl, rfl, rfl, rfl, .inr (Nat.lt_succ_self _)⟩⟩
      simp only [ScandirCall.scandir, hdirp, hnone, hclose, Option.bind_eq_bind, Option.bind_some]
    · let first : Scan := ⟨{ c.world.opendir with
        blocks := c.world.blocks.alloc (.list (List.replicate 32 none))
        used := c.world.used + 32 * pointerSize
        asked := c.world.asked + 1 }, c.world.blocks.next, 0, 32⟩
      have hcall : c.scandir = (c.scanLoop entries first).bind fun done =>
          if done.1 then c.finish done.2 else c.abandon done.2 := by
        simp only [ScandirCall.scandir, hdirp, hmalloc]
        rfl
      have hfirst : Holds c.world.opendir first.world first.list first.allocated [] [] :=
        holds_first hfits _
      rw [hcall]
      rcases scanLoop_spec (c := c) entries hfirst rfl with
        ⟨s, ptrs, hloop, hholds, hcount, hrefused⟩ |
        ⟨s, room, kept, ptrs, hloop, hholds, hcount, hlt⟩
      · have haccepted : [] ++ entries.filter c.accepts = c.accepted := by
          rw [ScandirCall.accepted, hdirp]
          rfl
        rw [haccepted] at hholds
        obtain ⟨r, ptrs', copies, hr, hlisted⟩ := finish_spec hqsort hholds hcount hrefused
        refine ⟨r, ?_, .inr ⟨s.list, ptrs', copies, hlisted⟩⟩
        rw [hloop]
        exact hr
      · obtain ⟨r, hr, hret, hnamelist, hblock, hused, hopen, hrefused⟩ :=
          abandon_spec (c := c) hholds hcount
        refine ⟨r, ?_, .inl ⟨hret, hnamelist, hblock, hused, hopen, .inr (hrefused ▸ hlt)⟩⟩
        rw [hloop]
        exact hr

/-- A merge sort, of the elements as members of their list. -/
def mergeSorted (cmp : ℕ → ℕ → ℤ) (xs : List ℕ) : List ℕ :=
  (xs.attach.mergeSort fun p q => decide (cmp p.1 q.1 ≤ 0)).map Subtype.val

theorem sorts_mergeSorted : Sorts mergeSorted where
  perm cmp xs := by
    have hperm := (List.mergeSort_perm xs.attach fun p q => decide (cmp p.1 q.1 ≤ 0)).map
      Subtype.val
    rwa [List.attach_map_subtype_val] at hperm
  sorted cmp xs h := by
    rw [mergeSorted, List.pairwise_map]
    have htrans (p q r : { x // x ∈ xs }) (hpq : decide (cmp p.1 q.1 ≤ 0) = true)
        (hqr : decide (cmp q.1 r.1 ≤ 0) = true) : decide (cmp p.1 r.1 ≤ 0) = true := by
      rw [decide_eq_true_eq] at *
      exact h.trans _ p.2 _ q.2 _ r.2 hpq hqr
    have htotal (p q : { x // x ∈ xs }) :
        (decide (cmp p.1 q.1 ≤ 0) || decide (cmp q.1 p.1 ≤ 0)) = true := by
      rw [Bool.or_eq_true, decide_eq_true_eq, decide_eq_true_eq]
      exact (le_or_gt (cmp p.1 q.1) 0).imp_right (h.le_of_pos p.2 q.2)
    refine (List.pairwise_mergeSort htrans htotal xs.attach).imp ?_
    intro p q hle
    exact of_decide_eq_true hle

theorem length_zeroHeader : (List.replicate 18 (0 : UInt8)).length = nameOffset :=
  List.length_replicate

theorem sampleName_fits (text : String) : (List.replicate 18 (0 : UInt8)).length +
    ((CString.ofString text).take 255).strlen + 1 < addressSpace := by
  have hle : ((CString.ofString text).take 255).strlen ≤ 255 := by
    rw [CString.strlen, CString.bytes_take]
    exact List.length_take_le 255 _
  rw [List.length_replicate, addressSpace]
  omega

/-- An entry whose name is at most 255 bytes of the text. -/
def sampleDirent (text : String) : Dirent where
  header := List.replicate 18 0
  name := (CString.ofString text).take 255
  padding := [0, 0]
  header_length := length_zeroHeader
  fits := sampleName_fits text

/-- Entries whose names do not start with a dot, sorted by the first bytes of their names. -/
def sampleScan : ScandirCall where
  world := ⟨.empty, 0, 0, 0, 0⟩
  answers _ := some fun _ => 7
  dirp := some [sampleDirent ".", sampleDirent "log", sampleDirent "..", sampleDirent "etc"]
  namelist := none
  filter := some fun e => decide (e.name.read 0 ≠ some (ch '.'))
  compar := some fun x y => ((x.getD nameOffset 0).toNat : ℤ) - (y.getD nameOffset 0).toNat
  qsort := mergeSorted

theorem scandir_delivers_sample : ∃ r list ptrs copies,
    sampleScan.scandir = some r ∧ Listed sampleScan r list ptrs copies := by
  obtain ⟨r, hr, -, hlists⟩ := scandir_delivers sampleScan sorts_mergeSorted
  have hgranted : sampleScan.scandir.map (fun r => r.world.refused) = some 0 := by
    decide +kernel
  rw [hr] at hgranted
  obtain ⟨list, ptrs, copies, hlisted⟩ :=
    hlists (Option.some_ne_none _) (Option.some.inj hgranted)
  exact ⟨r, list, ptrs, copies, hr, hlisted⟩

end Solcompat.Filesystem
