import Mathlib.Data.List.Basic
import Mathlib.Tactic

/-!
# Compaction in place

A null-terminated array is a list of cells, and its entries are what stands before the
first null. One loop with two indices moves the entries that are kept to the front: the
index that writes never overtakes the index that reads, so that no entry is overwritten
before it is read.
-/

namespace Solcompat.Lib

variable {α : Type}

def entries : List (Option α) → List α
  | [] => []
  | none :: _ => []
  | some a :: cells => a :: entries cells

/-- `for (; *ep; ep++) { if (skip(*ep)) continue; *dp++ = *ep; } *dp = NULL;` with at most
`fuel` reads of `*ep`. The answer is `none` when a read leaves the array or `skip` faults. -/
def compactLoop (skip : α → Option Bool) :
    ℕ → ℕ → ℕ → List (Option α) → Option (List (Option α))
  | 0, _, _, _ => none
  | fuel + 1, ep, dp, cells =>
    match cells[ep]? with
    | none => none
    | some none => some (cells.set dp none)
    | some (some a) => do
      if ← skip a then compactLoop skip fuel (ep + 1) dp cells
      else compactLoop skip fuel (ep + 1) (dp + 1) (cells.set dp (some a))

def compact (skip : α → Option Bool) (cells : List (Option α)) : Option (List (Option α)) :=
  compactLoop skip cells.length 0 0 cells

theorem entries_append (es : List α) (back : List (Option α)) :
    entries (es.map some ++ none :: back) = es := by
  induction es with
  | nil => rfl
  | cons a es ih => simp only [List.map_cons, List.cons_append, entries, ih]

theorem exists_eq_entries {cells : List (Option α)} (h : none ∈ cells) :
    ∃ back, cells = (entries cells).map some ++ none :: back := by
  induction cells with
  | nil => exact absurd h List.not_mem_nil
  | cons c cells ih =>
    cases c with
    | none => exact ⟨cells, rfl⟩
    | some a =>
      obtain ⟨back, hback⟩ := ih (by simpa using h)
      refine ⟨back, ?_⟩
      rw [entries, List.map_cons, List.cons_append, ← hback]

/-- Writing the cell that was just read at the end of the front part. The part between the
two indices moves on by one cell. -/
theorem exists_set_front (front gap back : List (Option α)) (c : Option α) :
    ∃ gap', (front ++ gap ++ c :: back).set front.length c = front ++ c :: (gap' ++ back) ∧
      gap'.length = gap.length := by
  obtain ⟨x, gap', hgap⟩ : ∃ x gap', gap ++ [c] = x :: gap' :=
    List.exists_cons_of_ne_nil (by simp)
  refine ⟨gap', ?_, ?_⟩
  · have hcells : front ++ gap ++ c :: back = front ++ x :: (gap' ++ back) := by
      rw [← List.cons_append, ← hgap]
      simp
    rw [hcells]
    simp
  · simpa using (congrArg List.length hgap).symm

/-- The invariant of the loop: `front` is written, `gap` is read and given up, and the
entries `es` are still to be read. -/
theorem compactLoop_eq {skip : α → Option Bool} {p : α → Bool} (es : List α)
    (hskip : ∀ a ∈ es, skip a = some (p a)) (fuel : ℕ) (hfuel : es.length < fuel)
    (front gap back : List (Option α)) :
    ∃ back', compactLoop skip fuel (front.length + gap.length) front.length
        (front ++ gap ++ (es.map some ++ none :: back)) =
      some (front ++ ((es.filter fun a => !p a).map some ++ none :: back')) := by
  induction es generalizing fuel front gap with
  | nil =>
    obtain ⟨fuel, rfl⟩ := Nat.exists_eq_succ_of_ne_zero (Nat.ne_zero_of_lt hfuel)
    obtain ⟨gap', hset, -⟩ := exists_set_front front gap back none
    have hread : (front ++ gap ++ none :: back)[front.length + gap.length]? = some none := by
      rw [← List.length_append, List.getElem?_append_right le_rfl, Nat.sub_self]
      rfl
    refine ⟨gap' ++ back, ?_⟩
    simp only [List.map_nil, List.nil_append, List.filter_nil, compactLoop, hread, hset]
  | cons a es ih =>
    obtain ⟨fuel, rfl⟩ := Nat.exists_eq_succ_of_ne_zero (Nat.ne_zero_of_lt hfuel)
    have hrest := fun b hb => hskip b (List.mem_cons_of_mem a hb)
    have hlt : es.length < fuel := Nat.lt_of_succ_lt_succ hfuel
    have hread : (front ++ gap ++ some a :: (es.map some ++ none :: back))[
        front.length + gap.length]? = some (some a) := by
      rw [← List.length_append, List.getElem?_append_right le_rfl, Nat.sub_self]
      rfl
    rw [List.map_cons, List.cons_append, compactLoop, hread]
    dsimp only
    rw [hskip a List.mem_cons_self]
    dsimp only [Option.bind_eq_bind, Option.bind_some]
    cases hp : p a with
    | true =>
      obtain ⟨back', heq⟩ := ih hrest fuel hlt front (gap ++ [some a])
      refine ⟨back', ?_⟩
      rw [List.filter_cons_of_neg (by simp [hp]), if_pos rfl, ← heq]
      simp [Nat.add_assoc]
    | false =>
      obtain ⟨gap', hset, hlength⟩ :=
        exists_set_front front gap (es.map some ++ none :: back) (some a)
      obtain ⟨back', heq⟩ := ih hrest fuel hlt (front ++ [some a]) gap'
      refine ⟨back', ?_⟩
      rw [List.filter_cons_of_pos (by simp [hp]), if_neg (by decide), hset]
      simpa [hlength, Nat.add_right_comm] using heq

/-- The loop reads every entry, stays inside the array and keeps what is not skipped, in
order. -/
theorem compact_entries {skip : α → Option Bool} {p : α → Bool} {cells : List (Option α)}
    (hterminated : none ∈ cells) (hskip : ∀ a ∈ entries cells, skip a = some (p a)) :
    ∃ cells', compact skip cells = some cells' ∧
      entries cells' = (entries cells).filter fun a => !p a := by
  obtain ⟨back, hcells⟩ := exists_eq_entries hterminated
  have hfuel : (entries cells).length < cells.length := by
    have hlength := congrArg List.length hcells
    simp only [List.length_append, List.length_map, List.length_cons] at hlength
    omega
  obtain ⟨back', heq⟩ := compactLoop_eq (entries cells) hskip cells.length hfuel [] [] back
  refine ⟨_, ?_, entries_append _ back'⟩
  rw [compact]
  rw [← hcells] at heq
  exact heq

theorem compactLoop_terminated {skip : α → Option Bool} (fuel : ℕ) {ep dp : ℕ} (hle : dp ≤ ep)
    {cells cells' : List (Option α)} (h : compactLoop skip fuel ep dp cells = some cells') :
    none ∈ cells' := by
  induction fuel generalizing ep dp cells with
  | zero => exact absurd h (by simp [compactLoop])
  | succ fuel ih =>
    rw [compactLoop] at h
    split at h
    · exact absurd h (by simp)
    · rename_i hread
      have hlt : ep < cells.length := (List.getElem?_eq_some_iff.mp hread).1
      rw [← Option.some.inj h]
      exact List.mem_set (by omega) none
    · rename_i a hread
      cases hskip : skip a with
      | none => simp [hskip] at h
      | some b =>
        rw [hskip] at h
        cases b with
        | true => exact ih (by omega) h
        | false => exact ih (by omega) h

theorem compact_terminated {skip : α → Option Bool} {cells cells' : List (Option α)}
    (h : compact skip cells = some cells') : none ∈ cells' :=
  compactLoop_terminated _ le_rfl h

end Solcompat.Lib
