import Mathlib.Data.List.Basic
import Mathlib.Tactic

/-!
# Linked lists in memory

A store of nodes is given by what it holds in the link of a node, if the node is there. A
pointer leads through a list of nodes to another pointer; a whole list leads to the null
pointer. A list that is extended through the link of its last node keeps its nodes.
-/

namespace Solcompat.Lib

variable {Ptr : Type*}

/-- From the pointer `p` the nodes of a list are met in order, and then the pointer `q`. -/
def Linked (next : Ptr → Option (Option Ptr)) : Option Ptr → List Ptr → Option Ptr → Prop
  | p, [], q => p = q
  | p, k :: ks, q => p = some k ∧ ∃ p', next k = some p' ∧ Linked next p' ks q

namespace Linked

variable {next next' : Ptr → Option (Option Ptr)} {p q r : Option Ptr} {k e : Ptr}
variable {ks ms : List Ptr}

theorem congr (h : Linked next p ks q) (hsame : ∀ k ∈ ks, next' k = next k) :
    Linked next' p ks q := by
  induction ks generalizing p with
  | nil => exact h
  | cons k ks ih =>
    obtain ⟨hp, p', hnext, hrest⟩ := h
    refine ⟨hp, p', ?_, ih hrest fun j hj => hsame j (List.mem_cons_of_mem _ hj)⟩
    rw [hsame k List.mem_cons_self, hnext]

theorem append (h : Linked next p ks q) (h' : Linked next q ms r) :
    Linked next p (ks ++ ms) r := by
  induction ks generalizing p with
  | nil =>
    obtain rfl : p = q := h
    exact h'
  | cons k ks ih =>
    obtain ⟨hp, p', hnext, hrest⟩ := h
    exact ⟨hp, p', hnext, ih hrest⟩

theorem last (h : Linked next p (ks ++ [e]) q) :
    Linked next p ks (some e) ∧ next e = some q := by
  induction ks generalizing p with
  | nil =>
    obtain ⟨hp, p', hnext, hq⟩ := h
    obtain rfl : p' = q := hq
    exact ⟨hp, hnext⟩
  | cons k ks ih =>
    obtain ⟨hp, p', hnext, hrest⟩ := h
    obtain ⟨hfront, hlast⟩ := ih hrest
    exact ⟨⟨hp, p', hnext, hfront⟩, hlast⟩

theorem splice (h : Linked next p (ks ++ [e]) q) (hmore : Linked next' r ms none)
    (hsame : ∀ k ∈ ks, next' k = next k) (hlink : next' e = some r) :
    Linked next' p (ks ++ [e] ++ ms) none := by
  obtain ⟨hfront, -⟩ := h.last
  have hend : Linked next' (some e) [e] r := ⟨rfl, r, hlink, rfl⟩
  exact ((hfront.congr hsame).append hend).append hmore

theorem exists_next (h : Linked next p ks q) (hk : k ∈ ks) : ∃ p', next k = some p' := by
  induction ks generalizing p with
  | nil => exact absurd hk List.not_mem_nil
  | cons j ks ih =>
    obtain ⟨-, p', hnext, hrest⟩ := h
    rcases List.mem_cons.mp hk with rfl | hk
    · exact ⟨p', hnext⟩
    · exact ih hrest hk

theorem exists_first (h : Linked next p ks q) (hks : ks ≠ []) : ∃ k, p = some k := by
  obtain ⟨k, ks, rfl⟩ := List.exists_cons_of_ne_nil hks
  exact ⟨k, h.1⟩

end Linked

end Solcompat.Lib
