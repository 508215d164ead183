import Mathlib.Logic.Function.Basic
import Mathlib.Tactic

/-!
# A heap of blocks

Blocks are numbered as they are allocated, and no number is used twice. What is done to a
block that is not live has no result.
-/

namespace Solcompat.Lib

structure Blocks (α : Type) where
  block : ℕ → Option α
  /-- The number of the next block. -/
  next : ℕ
  unissued : ∀ k, next ≤ k → block k = none

namespace Blocks

variable {α : Type}

def empty : Blocks α := ⟨fun _ => none, 0, fun _ _ => rfl⟩

def alloc (h : Blocks α) (a : α) : Blocks α where
  block := Function.update h.block h.next (some a)
  next := h.next + 1
  unissued k hk := by
    rw [Function.update_of_ne (by omega)]
    exact h.unissued k (by omega)

/-- A live block has new contents. -/
def put (h : Blocks α) (k : ℕ) (a : α) : Blocks α where
  block := Function.update h.block k ((h.block k).map fun _ => a)
  next := h.next
  unissued j hj := by
    by_cases hjk : j = k
    · subst hjk
      rw [Function.update_self, h.unissued j hj, Option.map_none]
    · rw [Function.update_of_ne hjk, h.unissued j hj]

def erase (h : Blocks α) (k : ℕ) : Blocks α where
  block := Function.update h.block k none
  next := h.next
  unissued j hj := by
    by_cases hjk : j = k
    · rw [hjk, Function.update_self]
    · rw [Function.update_of_ne hjk, h.unissued j hj]

def free (h : Blocks α) (k : ℕ) : Option (Blocks α) := (h.block k).map fun _ => h.erase k

/-- `realloc`: the contents go to a new block, of the number `h.next`, and the old one is
freed. -/
def realloc (h : Blocks α) (k : ℕ) (resize : α → α) : Option (Blocks α) :=
  (h.block k).map fun a => (h.alloc (resize a)).erase k

/-- A store to a block, which fails if it is not live or `f` fails. -/
def modify (h : Blocks α) (k : ℕ) (f : α → Option α) : Option (Blocks α) :=
  (h.block k).bind fun a => (f a).map (h.put k)

variable {h : Blocks α} {k j : ℕ} {a : α}

theorem lt_next (hk : h.block k = some a) : k < h.next := by
  by_contra hle
  rw [h.unissued k (by omega)] at hk
  exact absurd hk (by simp)

@[simp] theorem alloc_self (h : Blocks α) (a : α) : (h.alloc a).block h.next = some a :=
  Function.update_self ..

theorem alloc_of_ne (h : Blocks α) (a : α) (hk : k ≠ h.next) : (h.alloc a).block k = h.block k :=
  Function.update_of_ne hk ..

@[simp] theorem erase_self (h : Blocks α) (k : ℕ) : (h.erase k).block k = none :=
  Function.update_self ..

theorem erase_of_ne (h : Blocks α) (hj : j ≠ k) : (h.erase k).block j = h.block j :=
  Function.update_of_ne hj ..

theorem put_self (hk : h.block k = some a) (a' : α) : (h.put k a').block k = some a' := by
  have hput : (h.put k a').block k = (h.block k).map fun _ => a' := Function.update_self ..
  rw [hput, hk, Option.map_some]

theorem put_of_ne (h : Blocks α) (a : α) (hj : j ≠ k) : (h.put k a).block j = h.block j :=
  Function.update_of_ne hj ..

theorem free_eq (hk : h.block k = some a) : h.free k = some (h.erase k) := by
  rw [free, hk, Option.map_some]

theorem realloc_eq (hk : h.block k = some a) (resize : α → α) :
    h.realloc k resize = some ((h.alloc (resize a)).erase k) := by
  rw [realloc, hk, Option.map_some]

theorem modify_eq (hk : h.block k = some a) {f : α → Option α} {a' : α} (hf : f a = some a') :
    h.modify k f = some (h.put k a') := by
  rw [modify, hk, Option.bind_some, hf, Option.map_some]

theorem realloc_self (hk : h.block k = some a) (a' : α) :
    ((h.alloc a').erase k).block h.next = some a' := by
  rw [erase_of_ne _ (lt_next hk).ne', alloc_self]

theorem realloc_of_ne (h : Blocks α) (a' : α) (hj : j < h.next) (hjk : j ≠ k) :
    ((h.alloc a').erase k).block j = h.block j := by
  rw [erase_of_ne _ hjk, alloc_of_ne _ _ hj.ne]

/-- Beside those that were there, the live blocks of `h` are the new ones `owned`. -/
structure Grown (base h : Blocks α) (owned : List ℕ) : Prop where
  next_le : base.next ≤ h.next
  nodup : owned.Nodup
  live : ∀ k ∈ owned, (h.block k).isSome
  fresh : ∀ k ∈ owned, base.next ≤ k
  others : ∀ k ∉ owned, h.block k = base.block k

namespace Grown

variable {base : Blocks α} {owned : List ℕ}

theorem refl (base : Blocks α) : Grown base base [] where
  next_le := le_rfl
  nodup := .nil
  live := by simp
  fresh := by simp
  others _ _ := rfl

theorem lt_next (hg : Grown base h owned) (hk : k ∈ owned) : k < h.next := by
  obtain ⟨a, ha⟩ := Option.isSome_iff_exists.mp (hg.live k hk)
  exact Blocks.lt_next ha

theorem perm (hg : Grown base h owned) {owned' : List ℕ} (hp : owned.Perm owned') :
    Grown base h owned' where
  next_le := hg.next_le
  nodup := hp.nodup_iff.mp hg.nodup
  live k hk := hg.live k (hp.mem_iff.mpr hk)
  fresh k hk := hg.fresh k (hp.mem_iff.mpr hk)
  others k hk := hg.others k fun h => hk (hp.mem_iff.mp h)

theorem alloc (hg : Grown base h owned) (a : α) : Grown base (h.alloc a) (h.next :: owned) where
  next_le := hg.next_le.trans (Nat.le_succ _)
  nodup := List.nodup_cons.mpr ⟨fun hk => (hg.lt_next hk).ne rfl, hg.nodup⟩
  live k hk := by
    rcases List.mem_cons.mp hk with rfl | hk
    · rw [alloc_self, Option.isSome_some]
    · rw [alloc_of_ne _ _ (hg.lt_next hk).ne]
      exact hg.live k hk
  fresh k hk := by
    rcases List.mem_cons.mp hk with rfl | hk
    · exact hg.next_le
    · exact hg.fresh k hk
  others k hk := by
    rw [List.mem_cons, not_or] at hk
    rw [alloc_of_ne _ _ hk.1, hg.others k hk.2]

theorem put (hg : Grown base h owned) (hk : k ∈ owned) (a : α) :
    Grown base (h.put k a) owned where
  next_le := hg.next_le
  nodup := hg.nodup
  live j hj := by
    by_cases hjk : j = k
    · subst hjk
      obtain ⟨b, hb⟩ := Option.isSome_iff_exists.mp (hg.live j hj)
      rw [put_self hb, Option.isSome_some]
    · rw [put_of_ne _ _ hjk]
      exact hg.live j hj
  fresh := hg.fresh
  others j hj := by
    have hne : j ≠ k := fun hjk => hj (hjk ▸ hk)
    rw [put_of_ne _ _ hne, hg.others j hj]

theorem erase (hg : Grown base h (k :: owned)) : Grown base (h.erase k) owned := by
  have hnodup := List.nodup_cons.mp hg.nodup
  refine ⟨hg.next_le, hnodup.2, ?_, ?_, ?_⟩
  · intro j hj
    have hne : j ≠ k := fun hjk => hnodup.1 (hjk ▸ hj)
    rw [erase_of_ne _ hne]
    exact hg.live j (List.mem_cons_of_mem k hj)
  · exact fun j hj => hg.fresh j (List.mem_cons_of_mem k hj)
  · intro j hj
    by_cases hjk : j = k
    · subst hjk
      rw [erase_self, base.unissued j (hg.fresh j List.mem_cons_self)]
    · rw [erase_of_ne _ hjk, hg.others j fun h => (List.mem_cons.mp h).elim hjk hj]

theorem realloc (hg : Grown base h (k :: owned)) (a : α) :
    Grown base ((h.alloc a).erase k) (h.next :: owned) :=
  ((hg.alloc a).perm (.swap ..)).erase

theorem block_eq (hg : Grown base h []) : h.block = base.block :=
  funext fun k => hg.others k List.not_mem_nil

end Grown

end Blocks

end Solcompat.Lib
