import Solcompat.Lib.Contents

/-!
# Copies that return the end

The model of `stpcpy` and `stpncpy` of `string.c`, with memory as bytes at addresses. A loop takes
the bytes of the source from its current one on, the terminator included.

`stpncpy` returns the end of what it filled, not the first zero byte: behind its second loop
`i < n` does not hold any more. A chain of copies therefore leaves a hole behind each call of
`stpncpy` that fills.
-/

namespace Solcompat.Text

open Lib

/-- `while ((*dst = *src) != '\0') { dst++; src++; }` -/
def stpcpyLoop : List UInt8 → ℕ → Memory → ℕ × Memory
  | [], dst, m => (dst, m)
  | b :: src, dst, m =>
    let m := m.put dst b
    if b ≠ 0 then stpcpyLoop src (dst + 1) m else (dst, m)

def stpcpy (dst : ℕ) (src : CString) (m : Memory) : ℕ × Memory := stpcpyLoop src.object dst m

/-- `for (i = 0; i < n && src[i] != '\0'; i++) dst[i] = src[i];`, from `i` on. -/
def copyLoop (dst n : ℕ) : List UInt8 → ℕ → Memory → ℕ × Memory
  | [], i, m => (i, m)
  | b :: src, i, m =>
    if i < n ∧ b ≠ 0 then copyLoop dst n src (i + 1) (m.put (dst + i) b) else (i, m)

/-- `for (; i < n; i++) dst[i] = '\0';`, with `n - i` rounds left. -/
def fillLoop (dst : ℕ) : ℕ → ℕ → Memory → ℕ × Memory
  | 0, i, m => (i, m)
  | left + 1, i, m => fillLoop dst left (i + 1) (m.put (dst + i) 0)

def stpncpy (dst : ℕ) (src : CString) (n : ℕ) (m : Memory) : ℕ × Memory :=
  let (i, m) := copyLoop dst n src.object 0 m
  let (i, m) := fillLoop dst (n - i) i m
  (if i < n then dst + i else dst + n, m)

/-- A call in a chain of copies. The bound of `stpncpy` leaves room for a terminator. -/
inductive Copy
  | stpcpy (src : CString)
  | stpncpy (src : CString) (n : ℕ) (h : src.strlen < n)

def Copy.src : Copy → CString
  | .stpcpy src => src
  | .stpncpy src _ _ => src

@[simp] theorem Copy.src_stpcpy (src : CString) : (Copy.stpcpy src).src = src := rfl

@[simp] theorem Copy.src_stpncpy (src : CString) (n : ℕ) (h : src.strlen < n) :
    (Copy.stpncpy src n h).src = src := rfl

def Copy.Fills : Copy → Prop
  | .stpcpy _ => False
  | .stpncpy _ _ _ => True

def Copy.run (dst : ℕ) (m : Memory) : Copy → ℕ × Memory
  | .stpcpy src => Text.stpcpy dst src m
  | .stpncpy src n _ => Text.stpncpy dst src n m

/-- Each call copies to the pointer that the call before it returned. -/
def chain : List Copy → ℕ → Memory → ℕ × Memory
  | [], dst, m => (dst, m)
  | c :: calls, dst, m =>
    let (dst, m) := c.run dst m
    chain calls dst m

theorem stpcpyLoop_eq {src : List UInt8} (hsrc : ∀ b ∈ src, b ≠ 0) (dst : ℕ) (m : Memory) :
    stpcpyLoop (src ++ [0]) dst m = (dst + src.length, m.putBytes dst (src ++ [0])) := by
  induction src generalizing dst m with
  | nil => simp [stpcpyLoop, Memory.put_eq_putBytes]
  | cons b src ih =>
    rw [List.forall_mem_cons] at hsrc
    have hsplit := Memory.putBytes_append m dst [b] (src ++ [0])
    rw [List.length_singleton, List.singleton_append] at hsplit
    rw [List.cons_append, stpcpyLoop, if_pos hsrc.1, ih hsrc.2, Memory.put_eq_putBytes, hsplit,
      List.length_cons]
    congr 1
    omega

theorem stpcpy_eq (dst : ℕ) (src : CString) (m : Memory) :
    stpcpy dst src m = (dst + src.strlen, m.putBytes dst src.object) :=
  stpcpyLoop_eq src.nulFree dst m

theorem copyLoop_eq {src : List UInt8} (hsrc : ∀ b ∈ src, b ≠ 0) (dst n i : ℕ) (m : Memory) :
    copyLoop dst n (src ++ [0]) i m =
      (i + min (n - i) src.length, m.putBytes (dst + i) (src.take (n - i))) := by
  induction src generalizing i m with
  | nil => simp [copyLoop, Memory.putBytes_nil]
  | cons b src ih =>
    rw [List.forall_mem_cons] at hsrc
    rw [List.cons_append, copyLoop, List.length_cons]
    by_cases hi : i < n
    · obtain ⟨left, hleft⟩ := Nat.exists_eq_add_of_lt hi
      have hrest : n - (i + 1) = left := by omega
      have hsplit := Memory.putBytes_append m (dst + i) [b] (src.take left)
      rw [List.length_singleton, List.singleton_append] at hsplit
      have hall : n - i = left + 1 := by omega
      rw [if_pos ⟨hi, hsrc.1⟩, ih hsrc.2, hrest, hall, Memory.put_eq_putBytes, ← Nat.add_assoc,
        hsplit, List.take_succ_cons]
      congr 1
      omega
    · have hnone : n - i = 0 := by omega
      rw [if_neg fun h => hi h.1, hnone, Nat.zero_min, List.take_zero, Memory.putBytes_nil,
        Nat.add_zero]

theorem fillLoop_eq (dst left i : ℕ) (m : Memory) :
    fillLoop dst left i m = (i + left, m.putBytes (dst + i) (List.replicate left 0)) := by
  induction left generalizing i m with
  | zero => simp [fillLoop, Memory.putBytes_nil]
  | succ left ih =>
    have hsplit := Memory.putBytes_append m (dst + i) [0] (List.replicate left 0)
    rw [List.length_singleton, List.singleton_append, ← List.replicate_succ] at hsplit
    rw [fillLoop, ih, Memory.put_eq_putBytes, ← Nat.add_assoc, hsplit]
    congr 1
    omega

def filled (src : CString) (n : ℕ) : List UInt8 :=
  src.bytes.take n ++ List.replicate (n - min n src.strlen) 0

@[simp] theorem length_filled (src : CString) (n : ℕ) : (filled src n).length = n := by
  rw [filled, List.length_append, List.length_take, List.length_replicate, ← CString.strlen]
  omega

theorem filled_of_lt (src : CString) (left : ℕ) :
    filled src (src.strlen + left + 1) = src.bytes ++ 0 :: List.replicate left 0 := by
  have hroom : src.strlen + left + 1 - min (src.strlen + left + 1) src.strlen = left + 1 := by omega
  rw [filled, hroom, List.replicate_succ, List.take_of_length_le]
  rw [CString.strlen]
  omega

theorem stpncpy_eq (dst : ℕ) (src : CString) (n : ℕ) (m : Memory) :
    stpncpy dst src n m = (dst + n, m.putBytes dst (filled src n)) := by
  have hend : min n src.bytes.length + (n - min n src.bytes.length) = n := by omega
  rw [stpncpy, CString.object, copyLoop_eq src.nulFree]
  simp only [Nat.sub_zero, Nat.zero_add, Nat.add_zero, fillLoop_eq, hend, lt_irrefl, if_false]
  rw [← List.length_take, Memory.putBytes_append, filled, List.length_take, CString.strlen]

/-- What the call does to memory and which pointer it should return. -/
structure StpncpyEnd (dst : ℕ) (src : CString) (n : ℕ) (m : Memory) (ret : ℕ × Memory) : Prop where
  stored : ret.2.bytes dst n = filled src n
  frame : ∀ x, ¬ (dst ≤ x ∧ x < dst + n) → ret.2 x = m x
  pointer : ret.1 = dst + min n src.strlen

theorem stpncpyEnd_iff (dst : ℕ) (src : CString) (n : ℕ) (m : Memory) :
    StpncpyEnd dst src n m (stpncpy dst src n m) ↔ n ≤ src.strlen := by
  rw [stpncpy_eq]
  constructor
  · intro h
    have hpointer : dst + n = dst + min n src.strlen := h.pointer
    omega
  · intro h
    have hbytes := Memory.bytes_putBytes m dst (filled src n)
    rw [length_filled] at hbytes
    constructor
    · exact hbytes
    · intro x hx
      exact Memory.putBytes_outside m (by rwa [length_filled])
    · dsimp only
      omega

def text (calls : List Copy) : List UInt8 := calls.flatMap fun c => c.src.bytes

/-- The concatenation stands at `base`, and a terminator behind it if there was a call. -/
def Concatenated (base : ℕ) (calls : List Copy) (m : Memory) : Prop :=
  m.Holds base (text calls) ∧ (calls ≠ [] → m (base + (text calls).length) = 0)

instance (base : ℕ) (calls : List Copy) (m : Memory) : Decidable (Concatenated base calls m) :=
  inferInstanceAs (Decidable (_ ∧ _))

theorem text_cons (c : Copy) (calls : List Copy) : text (c :: calls) = c.src.bytes ++ text calls :=
  List.flatMap_cons

theorem text_nulFree (calls : List Copy) : ∀ b ∈ text calls, b ≠ 0 := by
  intro b hb
  obtain ⟨c, _, hmem⟩ := List.mem_flatMap.mp hb
  exact c.src.nulFree b hmem

theorem text_eq_nil_iff (calls : List Copy) : text calls = [] ↔ ∀ c ∈ calls, c.src.strlen = 0 := by
  simp [text, CString.strlen]

/-- Every call returns a pointer at or behind its own, and writes nothing in front of it. -/
theorem Copy.run_below (c : Copy) (dst : ℕ) (m : Memory) :
    dst ≤ (c.run dst m).1 ∧ ∀ x < dst, (c.run dst m).2 x = m x := by
  cases c with
  | stpcpy src =>
    rw [Copy.run, stpcpy_eq]
    exact ⟨Nat.le_add_right _ _, fun x hx => Memory.putBytes_outside m (by omega)⟩
  | stpncpy src n h =>
    rw [Copy.run, stpncpy_eq]
    exact ⟨Nat.le_add_right _ _, fun x hx => Memory.putBytes_outside m (by omega)⟩

theorem chain_below (calls : List Copy) (dst : ℕ) (m : Memory) {x : ℕ} (hx : x < dst) :
    (chain calls dst m).2 x = m x := by
  induction calls generalizing dst m with
  | nil => rfl
  | cons c calls ih =>
    obtain ⟨hle, hsame⟩ := c.run_below dst m
    rw [chain, ih _ _ (by omega), hsame x hx]

/-- A text in front of the calls stays, and its terminator too if there are no calls. -/
theorem chain_holds {calls : List Copy} {dst : ℕ} {m : Memory} {bs : List UInt8}
    (h : m.Holds dst bs) : (chain calls (dst + bs.length) m).2.Holds dst bs :=
  (Memory.holds_congr fun _ _ hx => chain_below calls _ m hx).mpr h

/-- No text is copied to a pointer that `stpncpy` returned, or to one behind it. -/
def EndUnused (calls : List Copy) : Prop :=
  calls.Pairwise fun c later => c.Fills → later.src.strlen = 0

theorem concatenated_stpcpy (src : CString) (calls : List Copy) (dst : ℕ) (m : Memory) :
    Concatenated dst (.stpcpy src :: calls) (chain (.stpcpy src :: calls) dst m).2 ↔
      Concatenated (dst + src.strlen) calls
        (chain calls (dst + src.strlen) (m.putBytes dst src.object)).2 := by
  have hchain : chain (.stpcpy src :: calls) dst m =
      chain calls (dst + src.strlen) (m.putBytes dst src.object) := by
    rw [chain, Copy.run, stpcpy_eq]
  have hobject := (Memory.holds_append _ _ _ _).mp (Memory.holds_putBytes m dst src.object)
  have hkept : (chain calls (dst + src.strlen) (m.putBytes dst src.object)).2.Holds dst src.bytes :=
    chain_holds hobject.1
  have hend : dst + (text (.stpcpy src :: calls)).length =
      dst + src.strlen + (text calls).length := by
    rw [text_cons, List.length_append, ← Nat.add_assoc]
    rfl
  rw [hchain, Concatenated, Concatenated, hend, text_cons, Memory.holds_append]
  cases calls with
  | nil =>
    have hnul : m.putBytes dst src.object (dst + src.strlen) = 0 := hobject.2.1
    simpa [chain, text, hnul] using hobject.1
  | cons c calls =>
    simp only [ne_eq, reduceCtorEq, not_false_eq_true, true_imp_iff]
    exact and_congr_left fun _ => and_iff_right hkept

/-- Behind a `stpncpy` that fills there is a zero byte where the next text should start. -/
theorem concatenated_stpncpy (src : CString) (n : ℕ) (h : src.strlen < n) (calls : List Copy)
    (dst : ℕ) (m : Memory) :
    Concatenated dst (.stpncpy src n h :: calls) (chain (.stpncpy src n h :: calls) dst m).2 ↔
      text calls = [] := by
  have hchain : chain (.stpncpy src n h :: calls) dst m =
      chain calls (dst + n) (m.putBytes dst (filled src n)) := by
    rw [chain, Copy.run, stpncpy_eq]
  have hstored := Memory.holds_putBytes m dst (filled src n)
  have hkept := @chain_holds calls _ _ _ hstored
  rw [length_filled] at hkept
  rw [hchain, Concatenated, text_cons, Copy.src_stpncpy, Memory.holds_append]
  generalize (chain calls (dst + n) (m.putBytes dst (filled src n))).2 = after at hkept
  obtain ⟨left, rfl⟩ := Nat.exists_eq_add_of_lt h
  rw [filled_of_lt, Memory.holds_append, Memory.holds_cons] at hkept
  constructor
  · intro hconcat
    cases htext : text calls with
    | nil => rfl
    | cons b bs =>
      rw [htext] at hconcat
      have hzero : b = 0 := hconcat.1.2.1.symm.trans hkept.2.1
      exact absurd hzero (text_nulFree calls b (by rw [htext]; exact List.mem_cons_self))
  · intro htext
    rw [htext, List.append_nil]
    exact ⟨⟨hkept.1, Memory.holds_nil _ _⟩, fun _ => hkept.2.1⟩

theorem chain_concatenated_iff (calls : List Copy) (base : ℕ) (m : Memory) :
    Concatenated base calls (chain calls base m).2 ↔ EndUnused calls := by
  induction calls generalizing base m with
  | nil => simp [Concatenated, EndUnused, text]
  | cons c calls ih =>
    rw [EndUnused, List.pairwise_cons, ← EndUnused]
    cases c with
    | stpcpy src =>
      rw [concatenated_stpcpy, ih]
      simp [Copy.Fills]
    | stpncpy src n h =>
      rw [concatenated_stpncpy, text_eq_nil_iff]
      constructor
      · intro hempty
        refine ⟨fun later hlater _ => hempty later hlater, ?_⟩
        exact List.pairwise_of_forall_mem_list fun _ _ later hlater _ => hempty later hlater
      · intro hall later hlater
        exact hall.1 later hlater trivial

/-- The calls store what they should, but the pointer of `stpncpy` is the end of the string only
where nothing was filled; a chain shows it as soon as a text is copied behind one that was. -/
theorem stpncpy_end_iff_not_filled (dst : ℕ) (src : CString) (n : ℕ) (calls : List Copy)
    (m : Memory) :
    stpcpy dst src m = (dst + src.strlen, m.putBytes dst src.object) ∧
      (stpncpy dst src n m).2 = m.putBytes dst (filled src n) ∧
      (StpncpyEnd dst src n m (stpncpy dst src n m) ↔ n ≤ src.strlen) ∧
      (Concatenated dst calls (chain calls dst m).2 ↔ EndUnused calls) := by
  have hcopy := stpcpy_eq dst src m
  have hstored := congrArg Prod.snd (stpncpy_eq dst src n m)
  have hend := stpncpyEnd_iff dst src n m
  have hchain := chain_concatenated_iff calls dst m
  exact ⟨hcopy, hstored, hend, hchain⟩

/-- `stpncpy(dst, "a", 3)` returns `dst + 3`, and `"b"` does not end up behind `"a"`. -/
theorem stpncpy_misses_end :
    ¬ StpncpyEnd 0 (CString.ofString "a") 3 (fun _ => 255)
        (stpncpy 0 (CString.ofString "a") 3 fun _ => 255) ∧
      ¬ Concatenated 0
        [.stpncpy (CString.ofString "a") 3 (by decide), .stpcpy (CString.ofString "b")]
        (chain [.stpncpy (CString.ofString "a") 3 (by decide), .stpcpy (CString.ofString "b")] 0
          fun _ => 255).2 := by
  constructor
  · intro h
    exact absurd h.pointer (by decide)
  · decide

end Solcompat.Text
