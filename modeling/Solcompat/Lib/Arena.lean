import Mathlib.Data.Finset.Basic
import Mathlib.Tactic

/-!
# Blocks that a program allocates and frees

Blocks are numbered by the requests for them, and a request may be refused. Only a block
that is there can be freed. `Owns` says which blocks a program has added to those that were
there before: when it owns none, everything that it allocated has been freed once.
-/

namespace Solcompat.Lib

structure Arena where
  live : Finset ℕ
  requests : ℕ
  below : ∀ k ∈ live, k < requests

namespace Arena

variable {grants : ℕ → Bool} {h₀ h : Arena} {k : ℕ} {ids rest : List ℕ}

theorem below_insert (h : Arena) : ∀ k ∈ insert h.requests h.live, k < h.requests + 1 := by
  intro k hk
  rcases Finset.mem_insert.mp hk with rfl | hk
  · exact Nat.lt_succ_self _
  · exact Nat.lt_succ_of_lt (h.below k hk)

theorem below_erase (h : Arena) (k : ℕ) : ∀ j ∈ h.live.erase k, j < h.requests :=
  fun j hj => h.below j (Finset.mem_of_mem_erase hj)

/-- `malloc`; whether request `k` is granted is `grants k`. -/
def alloc (grants : ℕ → Bool) (h : Arena) : Option ℕ × Arena :=
  if grants h.requests then
    (some h.requests, ⟨insert h.requests h.live, h.requests + 1, h.below_insert⟩)
  else (none, ⟨h.live, h.requests + 1, fun k hk => Nat.lt_succ_of_lt (h.below k hk)⟩)

def free (k : ℕ) (h : Arena) : Option Arena :=
  if k ∈ h.live then some ⟨h.live.erase k, h.requests, h.below_erase k⟩ else none

def freeAll : List ℕ → Arena → Option Arena
  | [], h => some h
  | k :: ids, h => (h.free k).bind (freeAll ids)

theorem freeAll_append (ids rest : List ℕ) (h : Arena) :
    freeAll (ids ++ rest) h = (freeAll ids h).bind (freeAll rest) := by
  induction ids generalizing h with
  | nil => rfl
  | cons k ids ih =>
    rw [List.cons_append, freeAll, freeAll, Option.bind_assoc]
    exact congrArg _ (funext ih)

/-- The blocks that have come to those of `h₀` are these. -/
structure Owns (h₀ h : Arena) (ids : List ℕ) : Prop where
  nodup : ids.Nodup
  fresh : ∀ k ∈ ids, k ∉ h₀.live
  live : ∀ k, k ∈ h.live ↔ k ∈ h₀.live ∨ k ∈ ids
  requests : h₀.requests ≤ h.requests

theorem owns_nil (h : Arena) : Owns h h [] := ⟨List.nodup_nil, by simp, by simp, le_rfl⟩

theorem Owns.perm (howns : Owns h₀ h ids) (hperm : ids.Perm rest) : Owns h₀ h rest where
  nodup := hperm.nodup_iff.mp howns.nodup
  fresh k hk := howns.fresh k (hperm.mem_iff.mpr hk)
  live k := by rw [howns.live, hperm.mem_iff]
  requests := howns.requests

theorem Owns.live_eq (howns : Owns h₀ h []) : h.live = h₀.live := by
  ext k
  rw [howns.live]
  simp

theorem Owns.alloc (howns : Owns h₀ h ids) (grants : ℕ → Bool) :
    Owns h₀ (h.alloc grants).2 (ids ++ (h.alloc grants).1.toList) := by
  have hnew : h.requests ∉ h.live := fun hmem => (h.below _ hmem).false
  have hids : h.requests ∉ ids := fun hmem => hnew ((howns.live _).mpr (.inr hmem))
  unfold Arena.alloc
  split_ifs
  · refine ⟨?_, ?_, fun k => ?_, howns.requests.trans (Nat.le_succ _)⟩
    · exact howns.nodup.append (List.nodup_singleton _) (by simpa using hids)
    · intro k hk
      rcases List.mem_append.mp hk with hk | hk
      · exact howns.fresh k hk
      · rw [List.mem_singleton.mp hk]
        exact fun hmem => hnew ((howns.live _).mpr (.inl hmem))
    · simp only [Finset.mem_insert, howns.live, List.mem_append, Option.toList_some,
        List.mem_singleton]
      tauto
  · rw [Option.toList_none, List.append_nil]
    exact ⟨howns.nodup, howns.fresh, howns.live, howns.requests.trans (Nat.le_succ _)⟩

theorem Owns.free (howns : Owns h₀ h (k :: ids)) : ∃ h', h.free k = some h' ∧ Owns h₀ h' ids := by
  obtain ⟨hk, hnodup⟩ := List.nodup_cons.mp howns.nodup
  refine ⟨_, if_pos ((howns.live k).mpr (.inr List.mem_cons_self)), hnodup,
    fun j hj => howns.fresh j (List.mem_cons_of_mem _ hj), fun j => ?_, howns.requests⟩
  have hfresh := howns.fresh k List.mem_cons_self
  rw [Finset.mem_erase, howns.live, List.mem_cons]
  constructor
  · rintro ⟨hne, hj | hj | hj⟩
    · exact .inl hj
    · exact absurd hj hne
    · exact .inr hj
  · rintro (hj | hj)
    · exact ⟨fun he => hfresh (he ▸ hj), .inl hj⟩
    · exact ⟨fun he => hk (he ▸ hj), .inr (.inr hj)⟩

theorem Owns.freeAll (howns : Owns h₀ h (ids ++ rest)) :
    ∃ h', h.freeAll ids = some h' ∧ Owns h₀ h' rest := by
  induction ids generalizing h with
  | nil => exact ⟨h, rfl, howns⟩
  | cons k ids ih =>
    obtain ⟨h₁, hfree, howns₁⟩ := howns.free
    obtain ⟨h', hall, howns'⟩ := ih howns₁
    exact ⟨h', by rw [Arena.freeAll, hfree]; exact hall, howns'⟩

end Arena

end Solcompat.Lib
