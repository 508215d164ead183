import Solcompat.Lib.Contents
import Solcompat.Lib.Search

/-!
# Searches

The model of `strcasestr`, `memmem` and `memrchr` of `string.c` and of `wcsstr` of `wchar.c`. An
object is the list of its elements, pointers into it are offsets, and a read outside of it has no
result. Lengths are natural numbers: `haystacklen - needlelen` is only computed behind the test
that makes it a difference, and no index goes beyond `haystacklen`.
-/

namespace Solcompat.Text

open Lib Search

/-- A string of `wchar_t`, which is `long`. -/
structure WString where
  chars : List Int32
  nulFree : ∀ c ∈ chars, c ≠ 0

def WString.object (s : WString) : List Int32 := s.chars ++ [0]

def WString.wcslen (s : WString) : ℕ := s.chars.length

/-- `tolower` of the locale. Only letters are mapped, and to letters. -/
structure Casing where
  lower : UInt8 → UInt8
  lower_eq_zero : ∀ b, lower b = 0 ↔ b = 0

/-- The comparison of at most `n` elements of two objects up to the terminators, as the family of
`strncmp` does it. Only the sign is documented. -/
def compareN {α β : Type} [Zero α] [DecidableEq α] [DecidableEq β] [LT β] [DecidableLT β]
    (key : α → β) : List α → List α → ℕ → Option ℤ
  | _, _, 0 => some 0
  | a :: s, b :: t, n + 1 =>
    if key a ≠ key b then some (if key a < key b then -1 else 1)
    else if a = 0 then some 0
    else compareN key s t n
  | _, _, _ + 1 => none

def strncasecmp (casing : Casing) (s1 s2 : List UInt8) (n : ℕ) : Option ℤ :=
  compareN casing.lower s1 s2 n

def wcsncmp (s1 s2 : List Int32) (n : ℕ) : Option ℤ := compareN id s1 s2 n

/-- All `n` bytes may be read. -/
def memcmp (s1 s2 : List UInt8) (n : ℕ) : Option ℤ :=
  if n ≤ s1.length ∧ n ≤ s2.length then some (CString.compareBytes s1 s2 n) else none

/-- `*haystack != 0` of the pointer `haystack + i`. -/
def notNul {α : Type} [Zero α] [DecidableEq α] (object : List α) (i : ℕ) : Option Bool :=
  object[i]?.map fun a => decide (a ≠ 0)

def strcasestr (casing : Casing) (haystack needle : CString) : Option (Option ℕ) := do
  if (← needle.object[0]?) = 0 then some (some 0)
  else
    let nlen := needle.strlen
    scanUp (notNul haystack.object)
      (fun i =>
        (strncasecmp casing (haystack.object.drop i) needle.object nlen).map
          fun r => decide (r = 0))
      haystack.object.length 0

def memmem (haystack : List UInt8) (haystacklen : ℕ) (needle : List UInt8) (needlelen : ℕ) :
    Option (Option ℕ) :=
  if needlelen = 0 then some (some 0)
  else if needlelen > haystacklen then some none
  else
    scanUp (fun i => some (decide (i ≤ haystacklen - needlelen)))
      (fun i => do
        if (← haystack[i]?) = (← needle[0]?) then
          (memcmp (haystack.drop i) needle needlelen).map fun r => decide (r = 0)
        else some false)
      (haystacklen + 1) 0

def wcsstr (haystack needle : WString) : Option (Option ℕ) := do
  if (← needle.object[0]?) = 0 then some (some 0)
  else
    let needle_len := needle.wcslen
    scanUp (notNul haystack.object)
      (fun i => do
        if (← haystack.object[i]?) = (← needle.object[0]?) then
          (wcsncmp (haystack.object.drop i) needle.object needle_len).map fun r => decide (r = 0)
        else some false)
      haystack.object.length 0

def toUnsignedChar (c : Int32) : UInt8 := c.toUInt32.toUInt8

def memrchr (s : List UInt8) (c : Int32) (n : ℕ) : Option (Option ℕ) :=
  scanDown (fun i => s[i]?.map fun b => decide (b = toUnsignedChar c)) n

section Comparisons

variable {α β : Type} [Zero α] [DecidableEq α] [DecidableEq β] [LT β] [DecidableLT β]
  {s t : List α}

/-- A comparison over the length of the second string asks for a prefix, and ends at the
terminator of the first. -/
theorem compareN_prefix (key : α → β) (hkey : ∀ a, key a = key 0 → a = 0) (hs : ∀ a ∈ s, a ≠ 0)
    (ht : ∀ b ∈ t, b ≠ 0) :
    (compareN key (s ++ [0]) (t ++ [0]) t.length).map (fun r => decide (r = 0)) =
      some (decide (t.map key <+: s.map key)) := by
  induction t generalizing s with
  | nil =>
    rw [List.length_nil, compareN, Option.map_some, List.map_nil, decide_eq_true List.nil_prefix]
    rfl
  | cons b t ih =>
    rw [List.forall_mem_cons] at ht
    cases s with
    | nil =>
      have hne : key 0 ≠ key b := fun heq => ht.1 (hkey b heq.symm)
      simp only [List.nil_append, List.cons_append, List.length_cons, compareN, if_pos hne,
        List.map_cons, List.map_nil, List.prefix_nil]
      split_ifs <;> simp
    | cons a s =>
      rw [List.forall_mem_cons] at hs
      rw [List.cons_append, List.cons_append, List.length_cons, compareN, List.map_cons,
        List.map_cons]
      simp only [List.cons_prefix_cons]
      by_cases hab : key a = key b
      · rw [if_neg (not_not.mpr hab), if_neg hs.1, ih hs.2 ht.2]
        simp only [hab, true_and]
      · rw [if_pos hab, decide_eq_false fun h => hab h.1.symm]
        split_ifs <;> rfl

end Comparisons

theorem memcmp_starts {h n : List UInt8} {i : ℕ} (hi : i + n.length ≤ h.length) :
    (memcmp (h.drop i) n n.length).map (fun r => decide (r = 0)) =
      some (decide (n <+: h.drop i)) := by
  have hroom : n.length ≤ (h.drop i).length := by
    rw [List.length_drop]
    omega
  have hiff : CString.compareBytes (h.drop i) n n.length = 0 ↔ n <+: h.drop i := by
    rw [CString.compareBytes_eq_zero, List.take_length, List.prefix_iff_eq_take, eq_comm]
  rw [memcmp, if_pos ⟨hroom, le_rfl⟩, Option.map_some]
  simp only [hiff]

/-- The first elements are compared before the rest, and decide nothing else. -/
theorem prefiltered {α : Type} [DecidableEq α] {h n : List α} {i : ℕ} (hi : i < h.length)
    (hn : n ≠ []) :
    (do if (← h[i]?) = (← n[0]?) then some (decide (n <+: h.drop i)) else some false) =
      some (decide (n <+: h.drop i)) := by
  obtain ⟨b, n, rfl⟩ := List.exists_cons_of_ne_nil hn
  have hfirst : b :: n <+: h.drop i → h[i] = b := by
    intro hprefix
    rw [List.drop_eq_getElem_cons hi, List.cons_prefix_cons] at hprefix
    exact hprefix.1.symm
  rw [List.getElem?_eq_getElem hi]
  by_cases hb : h[i] = b
  · simp [hb]
  · have hother : ¬ b :: n <+: h.drop i := mt hfirst hb
    simp [hother]

theorem notNul_object {α : Type} [Zero α] [DecidableEq α] {s : List α} (hs : ∀ a ∈ s, a ≠ 0)
    {i : ℕ} (hi : i ≤ s.length) : notNul (s ++ [0]) i = some (decide (i < s.length)) := by
  rcases hi.lt_or_eq with hlt | rfl
  · have hne : s[i] ≠ 0 := hs _ (List.getElem_mem hlt)
    rw [notNul, List.getElem?_append_left hlt, List.getElem?_eq_getElem hlt, Option.map_some,
      decide_eq_true hne, decide_eq_true hlt]
  · simp [notNul]

/-- A string is searched up to its terminator, at every offset for the needle. -/
theorem string_search {α β : Type} [Zero α] [DecidableEq α] [DecidableEq β] (key : α → β)
    {s t : List α} (test : ℕ → Option Bool) (hs : ∀ a ∈ s, a ≠ 0) (ht : t ≠ [])
    (htest : ∀ i < s.length, test i = some (decide (t.map key <+: (s.drop i).map key))) :
    ∃ answer, scanUp (notNul (s ++ [0])) test (s ++ [0]).length 0 = some answer ∧
      Finds IsLeast (occurrences (t.map key) (s.map key)) answer := by
  have hpos : 0 < t.length := List.length_pos_iff.mpr ht
  have hset : occurrences (t.map key) (s.map key) =
      {k | 0 ≤ k ∧ k < s.length ∧ t.map key <+: (s.map key).drop k} := by
    apply occurrences_eq
    · intro k hk
      have hend := add_length_le hk
      rw [List.length_map, List.length_map] at hend
      omega
    · rw [List.length_map]
      omega
  rw [hset]
  simp only [← List.map_drop]
  apply scanUp_finds
  · intro i hi
    exact notNul_object hs hi
  · exact htest
  · exact Nat.zero_le _
  · rw [List.length_append, List.length_singleton]
    omega

theorem memmem_finds (haystack needle : List UInt8) :
    ∃ answer, memmem haystack haystack.length needle needle.length = some answer ∧
      Finds IsLeast (occurrences needle haystack) answer := by
  by_cases hempty : needle.length = 0
  · rw [List.length_eq_zero_iff] at hempty
    subst hempty
    exact ⟨some 0, rfl, finds_nil haystack⟩
  rw [memmem, if_neg hempty]
  by_cases hlong : needle.length > haystack.length
  · refine ⟨none, if_pos hlong, finds_none ?_⟩
    rw [Set.eq_empty_iff_forall_notMem]
    intro k hk
    have hend := add_length_le hk
    omega
  rw [if_neg hlong]
  have hset : occurrences needle haystack =
      {k | 0 ≤ k ∧ k < haystack.length - needle.length + 1 ∧ needle <+: haystack.drop k} := by
    apply occurrences_eq
    · intro k hk
      have hend := add_length_le hk
      omega
    · omega
  rw [hset]
  apply scanUp_finds
  · intro i _
    rw [Option.some.injEq, decide_eq_decide]
    omega
  · intro i hi
    rw [memcmp_starts (by omega)]
    exact prefiltered (by omega) (List.ne_nil_of_length_pos (by omega))
  · exact Nat.zero_le _
  · omega

theorem strcasestr_finds (casing : Casing) (haystack needle : CString) :
    ∃ answer, strcasestr casing haystack needle = some answer ∧
      Finds IsLeast
        (occurrences (needle.bytes.map casing.lower) (haystack.bytes.map casing.lower)) answer := by
  obtain ⟨text, hnul⟩ := needle
  cases text with
  | nil => exact ⟨some 0, rfl, finds_nil _⟩
  | cons b text =>
    have hb : b ≠ 0 := hnul b List.mem_cons_self
    have hkey : ∀ a, casing.lower a = casing.lower 0 → a = 0 := by
      intro a ha
      rwa [(casing.lower_eq_zero 0).mpr rfl, casing.lower_eq_zero] at ha
    have htest : ∀ i < haystack.bytes.length,
        (strncasecmp casing (haystack.object.drop i) (b :: text ++ [0]) (b :: text).length).map
            (fun r => decide (r = 0)) =
          some (decide ((b :: text).map casing.lower <+:
            (haystack.bytes.drop i).map casing.lower)) := by
      intro i hi
      rw [strncasecmp, CString.object, List.drop_append_of_le_length hi.le]
      apply compareN_prefix casing.lower hkey _ hnul
      intro a ha
      exact haystack.nulFree a (List.mem_of_mem_drop ha)
    obtain ⟨answer, hscan, hfinds⟩ :=
      string_search casing.lower _ haystack.nulFree (List.cons_ne_nil b text) htest
    refine ⟨answer, ?_, hfinds⟩
    rw [← hscan]
    exact if_neg hb

theorem wcsstr_finds (haystack needle : WString) :
    ∃ answer, wcsstr haystack needle = some answer ∧
      Finds IsLeast (occurrences needle.chars haystack.chars) answer := by
  obtain ⟨text, hnul⟩ := needle
  cases text with
  | nil => exact ⟨some 0, rfl, finds_nil _⟩
  | cons b text =>
    have hb : b ≠ 0 := hnul b List.mem_cons_self
    have htest : ∀ i < haystack.chars.length,
        (do
          if (← haystack.object[i]?) = (← (b :: text ++ [0])[0]?) then
            (wcsncmp (haystack.object.drop i) (b :: text ++ [0]) (b :: text).length).map
              (fun r => decide (r = 0))
          else some false) =
          some (decide ((b :: text).map id <+: (haystack.chars.drop i).map id)) := by
      intro i hi
      have hcompare := compareN_prefix id (fun a ha => ha)
        (fun a ha => haystack.nulFree a (List.mem_of_mem_drop (i := i) ha)) hnul
      rw [wcsncmp, WString.object, List.drop_append_of_le_length hi.le, hcompare, List.map_id,
        List.map_id, List.getElem?_append_left hi]
      exact prefiltered hi (List.cons_ne_nil b text)
    obtain ⟨answer, hscan, hfinds⟩ :=
      string_search id _ haystack.nulFree (List.cons_ne_nil b text) htest
    rw [List.map_id, List.map_id] at hfinds
    refine ⟨answer, ?_, hfinds⟩
    rw [← hscan]
    exact if_neg hb

theorem memrchr_finds (s : List UInt8) (c : Int32) :
    ∃ answer, memrchr s c s.length = some answer ∧
      Finds IsGreatest {k | s[k]? = some (toUnsignedChar c)} answer := by
  have hset : {k | s[k]? = some (toUnsignedChar c)} =
      {k | k < s.length ∧ s[k]? = some (toUnsignedChar c)} := by
    ext k
    constructor
    · intro hk
      exact ⟨(List.getElem?_eq_some_iff.mp hk).1, hk⟩
    · exact fun hk => hk.2
  rw [hset]
  apply scanDown_finds
  intro i hi
  rw [List.getElem?_eq_getElem hi, Option.map_some, Option.some.injEq, decide_eq_decide,
    Option.some.injEq]

/-- Each search answers the extremal place of a match, or none where there is none, and reads
nothing outside of its objects. -/
theorem searches_extremal (casing : Casing) :
    (∀ haystack needle : List UInt8,
      ∃ answer, memmem haystack haystack.length needle needle.length = some answer ∧
        Finds IsLeast (occurrences needle haystack) answer) ∧
      (∀ haystack needle : CString,
        ∃ answer, strcasestr casing haystack needle = some answer ∧
          Finds IsLeast
            (occurrences (needle.bytes.map casing.lower) (haystack.bytes.map casing.lower))
            answer) ∧
      (∀ haystack needle : WString,
        ∃ answer, wcsstr haystack needle = some answer ∧
          Finds IsLeast (occurrences needle.chars haystack.chars) answer) ∧
      ∀ (s : List UInt8) (c : Int32),
        ∃ answer, memrchr s c s.length = some answer ∧
          Finds IsGreatest {k | s[k]? = some (toUnsignedChar c)} answer :=
  ⟨memmem_finds, strcasestr_finds casing, wcsstr_finds, memrchr_finds⟩

def lowerPosix (b : UInt8) : UInt8 := if 65 ≤ b ∧ b ≤ 90 then b + 32 else b

theorem lowerPosix_eq_zero (b : UInt8) : lowerPosix b = 0 ↔ b = 0 := by
  have hzero : (0 : UInt8).toNat = 0 := rfl
  rw [lowerPosix]
  split_ifs with hletter
  · have hlow : 65 ≤ b.toNat := UInt8.le_iff_toNat_le.mp hletter.1
    have hhigh : b.toNat ≤ 90 := UInt8.le_iff_toNat_le.mp hletter.2
    have hsum : (b + 32).toNat = (b.toNat + 32) % 256 := UInt8.toNat_add b 32
    rw [← UInt8.toNat_inj, ← UInt8.toNat_inj, hsum, hzero]
    omega
  · exact Iff.rfl

def Casing.posix : Casing := ⟨lowerPosix, lowerPosix_eq_zero⟩

theorem searches_extremal_hello :
    strcasestr .posix (.ofString "Hello World") (.ofString "WORLD") = some (some 6) ∧
      IsLeast (occurrences ((CString.ofString "WORLD").bytes.map lowerPosix)
        ((CString.ofString "Hello World").bytes.map lowerPosix)) 6 := by
  have hcall : strcasestr .posix (.ofString "Hello World") (.ofString "WORLD") = some (some 6) := by
    decide
  obtain ⟨answer, hanswer, hfinds⟩ :=
    (searches_extremal .posix).2.1 (.ofString "Hello World") (.ofString "WORLD")
  rw [hcall, Option.some.injEq] at hanswer
  exact ⟨hcall, hfinds.extreme 6 hanswer.symm⟩

end Solcompat.Text
