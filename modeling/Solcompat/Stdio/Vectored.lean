import Mathlib.Data.List.ReduceOption
import Solcompat.Lib.ByteFile
import Solcompat.Lib.Checked
import Solcompat.Lib.Segments

/-!
# `preadv` and `pwritev`

One `pread` or `pwrite` after the other, on a regular file. The results of these calls are
recorded. What the loops move is what one call with the summed length moves, as far as they
come. `ssize_t` and `off_t` have 32 bits; no transfer goes behind the largest offset, so that
neither the count nor the position overflows.
-/

namespace Solcompat.Stdio

open Solcompat.Lib Solcompat.Lib.Segments

/-- `struct iovec` -/
abbrev Iovec := Segment

/-- How a `pread` or `pwrite` ends. -/
inductive Answer
  | fails
  /-- It is cut short after so many bytes, if it comes that far. -/
  | atMost (n : ℕ)
  | everything

/-- How many of `n` bytes are transferred; none if the call fails. -/
def Answer.transfers (n : ℕ) : Answer → Option ℕ
  | .fails => none
  | .atMost k => some (min k n)
  | .everything => some n

/-- The largest `off_t`, behind which no transfer goes. -/
def maxOffset : ℕ := 2147483647

/-- How many of `n` bytes from `offset` on come before the largest offset. -/
def inReach (offset : Int32) (n : ℕ) : ℕ := min n (maxOffset - offset.toNatClampNeg)

/-- `pread`: the bytes that it reads. -/
def pread (a : Answer) (content : List UInt8) (len : ℕ) (offset : Int32) : Option (List UInt8) :=
  if offset < 0 then none
  else
    let available := (content.drop offset.toNatClampNeg).take (inReach offset len)
    (a.transfers available.length).map available.take

/-- `pwrite`: how many bytes are written, and the file. At the largest offset there is no room for
any byte (`EFBIG`). -/
def pwrite (a : Answer) (content data : List UInt8) (offset : Int32) :
    Option (ℕ × List UInt8) :=
  if offset < 0 ∨ (data ≠ [] ∧ maxOffset ≤ offset.toNatClampNeg) then none
  else
    let room := data.take (inReach offset data.length)
    (a.transfers room.length).map fun n =>
      (n, overwrite content offset.toNatClampNeg (room.take n))

structure ReadReturn where
  ret : Int32
  memory : Memory
  /-- What the calls of `pread` returned, none for -1. -/
  results : List (Option ℕ)

structure WriteReturn where
  ret : Int32
  content : List UInt8
  /-- What the calls of `pwrite` returned, none for -1. -/
  results : List (Option ℕ)

def preadvLoop (answer : ℕ → Answer) (content : List UInt8) :
    List Iovec → Int32 → Int32 → Memory → List (Option ℕ) → ReadReturn
  | [], totalBytes, _, memory, results => ⟨totalBytes, memory, results⟩
  | v :: iov, totalBytes, offset, memory, results =>
    if v.len = 0 then preadvLoop answer content iov totalBytes offset memory results
    else
      match pread (answer results.length) content v.len offset with
      | none => ⟨if 0 < totalBytes then totalBytes else -1, memory, results ++ [none]⟩
      | some bs =>
        let results := results ++ [some bs.length]
        if bs.length = 0 then ⟨totalBytes, memory, results⟩
        else
          let totalBytes := totalBytes + Int32.ofNat bs.length
          let offset := offset + Int32.ofNat bs.length
          let memory := memory.putBytes v.base bs
          if bs.length < v.len then ⟨totalBytes, memory, results⟩
          else preadvLoop answer content iov totalBytes offset memory results

def preadv (answer : ℕ → Answer) (content : List UInt8) (iov : List Iovec) (offset : Int32)
    (memory : Memory) : ReadReturn :=
  preadvLoop answer content iov 0 offset memory []

def pwritevLoop (answer : ℕ → Answer) (memory : Memory) :
    List Iovec → Int32 → Int32 → List UInt8 → List (Option ℕ) → WriteReturn
  | [], totalBytes, _, content, results => ⟨totalBytes, content, results⟩
  | v :: iov, totalBytes, offset, content, results =>
    if v.len = 0 then pwritevLoop answer memory iov totalBytes offset content results
    else
      match pwrite (answer results.length) content (memory.bytes v.base v.len) offset with
      | none => ⟨if 0 < totalBytes then totalBytes else -1, content, results ++ [none]⟩
      | some (n, content) =>
        let results := results ++ [some n]
        let totalBytes := totalBytes + Int32.ofNat n
        let offset := offset + Int32.ofNat n
        if n < v.len then ⟨totalBytes, content, results⟩
        else pwritevLoop answer memory iov totalBytes offset content results

def pwritev (answer : ℕ → Answer) (content : List UInt8) (iov : List Iovec) (offset : Int32)
    (memory : Memory) : WriteReturn :=
  pwritevLoop answer memory iov 0 offset content []

/-- The number of bytes that the calls have moved. -/
def moved (results : List (Option ℕ)) : ℕ := results.reduceOption.sum

/-- The count of the bytes moved, or -1 if there are none because a call failed. -/
def Counts (ret : ℤ) (results : List (Option ℕ)) : Prop :=
  ret = if none ∈ results ∧ moved results = 0 then -1 else (moved results : ℤ)

section Counting

theorem transfers_le {a : Answer} {n k : ℕ} (h : a.transfers n = some k) : k ≤ n := by
  cases a with
  | fails => exact absurd h (by simp [Answer.transfers])
  | atMost m =>
    obtain rfl := Option.some.inj h
    exact min_le_right m n
  | everything =>
    obtain rfl := Option.some.inj h
    exact le_rfl

theorem moved_append (results results' : List (Option ℕ)) :
    moved (results ++ results') = moved results + moved results' := by
  rw [moved, List.reduceOption_append, List.sum_append]
  rfl

@[simp] theorem moved_none : moved [none] = 0 := rfl

@[simp] theorem moved_some (n : ℕ) : moved [some n] = n := by simp [moved, List.reduceOption]

theorem moved_concat {results : List (Option ℕ)} {totalBytes : ℕ}
    (h : moved results = totalBytes) (n : ℕ) : moved (results ++ [some n]) = totalBytes + n := by
  rw [moved_append, moved_some, h]

theorem counts_of_notMem {results : List (Option ℕ)} (h : none ∉ results) :
    Counts (moved results : ℤ) results := by
  rw [Counts, if_neg fun hand => h hand.1]

theorem counts_failed {results : List (Option ℕ)} {totalBytes : Int32}
    (h : totalBytes.toInt = moved results) :
    Counts (if 0 < totalBytes then totalBytes else -1).toInt (results ++ [none]) := by
  have hpos : 0 < totalBytes ↔ 0 < moved results := by
    rw [Int32.lt_iff_toInt_lt, h]
    exact Int.natCast_pos
  rw [Counts, moved_append, moved_none, Nat.add_zero]
  by_cases hmoved : 0 < moved results
  · rw [if_pos (hpos.mpr hmoved), if_neg (by omega), h]
  · rw [if_neg (fun hlt => hmoved (hpos.mp hlt)), if_pos (by simp; omega)]
    rfl

end Counting

section Position

variable {offset : Int32} {o : ℕ}

theorem toNat_of_toInt (h : offset.toInt = o) : offset.toNatClampNeg = o := by
  rw [← Int32.toNat_toInt, h, Int.toNat_natCast]

theorem not_neg_of_toInt (h : offset.toInt = o) : ¬ offset < 0 := by
  rw [Int32.lt_iff_toInt_lt, h, Int32.toInt_zero]
  omega

theorem inReach_eq (h : offset.toInt = o) (n : ℕ) : inReach offset n = min n (maxOffset - o) := by
  rw [inReach, toNat_of_toInt h]

/-- A count that stays within the type is the sum of what was counted. -/
theorem toInt_add_ofNat {a : Int32} {k n : ℕ} (h : a.toInt = k) (hle : k + n ≤ maxOffset) :
    (a + Int32.ofNat n).toInt = (k + n : ℕ) := by
  rw [maxOffset] at hle
  have hn : (Int32.ofNat n).toInt = n := Int32.toInt_ofNat_of_lt (by omega)
  rw [add32_of_fits (by rw [h, hn, Fits32]; omega), h, hn]
  norm_cast

end Position

section Reading

variable {answer : ℕ → Answer} {content : List UInt8}

/-- What one call reads at `o` if nothing stops it. -/
def flatRead (content : List UInt8) (o n : ℕ) : List UInt8 :=
  (content.drop o).take (min n (maxOffset - o))

theorem length_flatRead (content : List UInt8) (o n : ℕ) :
    (flatRead content o n).length = min (min n (maxOffset - o)) (content.length - o) := by
  rw [flatRead, List.length_take, List.length_drop]

theorem flatRead_add (content : List UInt8) {o n : ℕ} (h : o + n ≤ maxOffset) (n' : ℕ) :
    flatRead content o (n + n') = flatRead content o n ++ flatRead content (o + n) n' := by
  have hlen : min (n + n') (maxOffset - o) = n + min n' (maxOffset - (o + n)) := by omega
  rw [flatRead, flatRead, flatRead, hlen, min_eq_left (by omega : n ≤ maxOffset - o),
    List.take_add, List.drop_drop]

theorem flatRead_prefix (content : List UInt8) (o n n' : ℕ) :
    (flatRead content o (n + n')).take (flatRead content o n).length = flatRead content o n := by
  rw [length_flatRead, flatRead, flatRead, List.take_take, List.take_eq_take_iff, List.length_drop]
  omega

theorem pread_eq_some {a : Answer} {len : ℕ} {offset : Int32} {o : ℕ} {bs : List UInt8}
    (ho : offset.toInt = o) (h : pread a content len offset = some bs) :
    bs.length ≤ (flatRead content o len).length ∧
      bs = (flatRead content o len).take bs.length ∧
      (a = .everything → bs = flatRead content o len) := by
  rw [pread, if_neg (not_neg_of_toInt ho), toNat_of_toInt ho, inReach_eq ho] at h
  obtain ⟨k, hk, rfl⟩ := Option.map_eq_some_iff.mp h
  have hle := transfers_le hk
  have hlength : ((flatRead content o len).take k).length = k := by
    rw [List.length_take]
    exact min_eq_left hle
  refine ⟨by rw [← flatRead, hlength]; exact hle, by rw [← flatRead, hlength], ?_⟩
  rintro rfl
  obtain rfl := Option.some.inj hk
  exact List.take_length

/-- The loop has moved `n` of the bytes `flat` to the segments, beside the `t` before. -/
structure Reads (answer : ℕ → Answer) (iov : List Iovec) (flat : List UInt8) (t n : ℕ)
    (memory : Memory) (r : ReadReturn) : Prop where
  le : n ≤ flat.length
  moved_eq : moved r.results = t + n
  counts : Counts r.ret.toInt r.results
  memory_eq : r.memory = scatter iov (flat.take n) memory
  full : (∀ k, answer k = .everything) → none ∉ r.results ∧ n = flat.length

/-- The loop ends behind `bs`, which is the start of what there is for the first segment. -/
theorem Reads.short (iov : List Iovec) (memory : Memory) {v : Iovec} {t o : ℕ}
    {offset ret : Int32} {results : List (Option ℕ)} {bs : List UInt8} (ho : offset.toInt = o)
    (hread : pread (answer results.length) content v.len offset = some bs)
    (hnone : none ∉ results) (htotal : moved results = t)
    (hret : ret.toInt = (t + bs.length : ℕ)) (hlt : bs.length < v.len) :
    Reads answer (v :: iov) (flatRead content o (total (v :: iov))) t bs.length
      memory ⟨ret, memory.putBytes v.base bs, results ++ [some bs.length]⟩ := by
  obtain ⟨hle, htake, hall⟩ := pread_eq_some ho hread
  have hnone' : none ∉ results ++ [some bs.length] := by simpa using hnone
  have hmoved := moved_concat htotal bs.length
  have hprefix := flatRead_prefix content o v.len (total iov)
  have hlonger : (flatRead content o v.len).length ≤
      (flatRead content o (v.len + total iov)).length := by
    rw [length_flatRead, length_flatRead]
    omega
  rw [total_cons]
  constructor
  · exact hle.trans hlonger
  · exact hmoved
  · have hcounts := counts_of_notMem hnone'
    rw [hmoved] at hcounts
    rw [hret]
    exact hcounts
  · have hstart : (flatRead content o (v.len + total iov)).take bs.length = bs := by
      rw [← min_eq_left hle, ← List.take_take, hprefix]
      exact htake.symm
    rw [hstart, scatter_first hlt.le]
  · intro hfull
    refine ⟨hnone', ?_⟩
    have hlength := congrArg List.length (hall (hfull _))
    rw [length_flatRead] at hlength ⊢
    omega

theorem Reads.further {iov : List Iovec} {v : Iovec} {t o n : ℕ} {offset : Int32}
    {memory : Memory} {results : List (Option ℕ)} {bs : List UInt8} {r : ReadReturn}
    (ho : offset.toInt = o)
    (hread : pread (answer results.length) content v.len offset = some bs)
    (hlen : bs.length = v.len) (hreach : o + v.len ≤ maxOffset)
    (h : Reads answer iov (flatRead content (o + bs.length) (total iov))
      (t + bs.length) n (memory.putBytes v.base bs) r) :
    Reads answer (v :: iov) (flatRead content o (total (v :: iov))) t
      (bs.length + n) memory r := by
  obtain ⟨hle, htake, -⟩ := pread_eq_some ho hread
  have hfirst : flatRead content o v.len = bs := by
    rw [htake, List.take_of_length_le]
    rw [length_flatRead]
    omega
  rw [total_cons, flatRead_add content hreach, hfirst, ← hlen]
  have hn := h.le
  refine ⟨?_, ?_, h.counts, ?_, fun hfull => ⟨(h.full hfull).1, ?_⟩⟩
  · rw [List.length_append]
    omega
  · rw [h.moved_eq, Nat.add_assoc]
  · rw [List.take_length_add_append, scatter_append hlen]
    exact h.memory_eq
  · rw [List.length_append, ← (h.full hfull).2]

theorem Reads.failed {iov : List Iovec} {flat : List UInt8} {t : ℕ} {totalBytes : Int32}
    {memory : Memory} {results : List (Option ℕ)} (htotal : moved results = t)
    (hret : totalBytes.toInt = t) (hnot : ¬ ∀ k, answer k = .everything) :
    Reads answer iov flat t 0 memory
      ⟨if 0 < totalBytes then totalBytes else -1, memory, results ++ [none]⟩ := by
  refine ⟨Nat.zero_le _, ?_, counts_failed (htotal ▸ hret), ?_, fun hfull => absurd hfull hnot⟩
  · rw [moved_append, htotal]
    rfl
  · rw [List.take_zero, scatter_nil]

/-- The invariant of the loop: what is moved is the start of what one call moves. The count and
the position advance together and stay below the largest offset. -/
theorem preadvLoop_reads (iov : List Iovec) {t o : ℕ} {totalBytes offset : Int32}
    {memory : Memory} {results : List (Option ℕ)} (hnone : none ∉ results)
    (htotal : moved results = t) (ht : totalBytes.toInt = t) (ho : offset.toInt = o)
    (hto : t ≤ o) :
    ∃ n, Reads answer iov (flatRead content o (total iov)) t n memory
      (preadvLoop answer content iov totalBytes offset memory results) := by
  induction iov generalizing t o totalBytes offset memory results with
  | nil =>
    rw [preadvLoop]
    refine ⟨0, Nat.zero_le _, htotal, ?_, ?_, fun _ => ⟨hnone, by simp [flatRead, total]⟩⟩
    · rw [ht, ← htotal]
      exact counts_of_notMem hnone
    · rw [List.take_zero, scatter_nil]
  | cons v iov ih =>
    rw [preadvLoop]
    by_cases hlen : v.len = 0
    · obtain ⟨n, hn⟩ := @ih t o totalBytes offset memory results hnone htotal ht ho hto
      rw [if_pos hlen, total_cons, hlen, Nat.zero_add]
      refine ⟨n, hn.le, hn.moved_eq, hn.counts, ?_, hn.full⟩
      rw [scatter, hlen, List.take_zero, List.drop_zero, Memory.putBytes_nil]
      exact hn.memory_eq
    · rw [if_neg hlen]
      cases hread : pread (answer results.length) content v.len offset with
      | none =>
        refine ⟨0, Reads.failed htotal ht fun hfull => ?_⟩
        rw [hfull, pread, if_neg (not_neg_of_toInt ho)] at hread
        exact absurd hread (by simp [Answer.transfers])
      | some bs =>
        have hle := (pread_eq_some ho hread).1
        rw [length_flatRead] at hle
        have hbound := offset.toInt_lt
        have hreach : o + bs.length ≤ maxOffset := by
          rw [ho] at hbound
          rw [maxOffset] at hle ⊢
          omega
        have ht' := toInt_add_ofNat ht (show t + bs.length ≤ maxOffset by omega)
        dsimp only
        split_ifs with hzero hlt
        · have hnil : bs = [] := List.length_eq_zero_iff.mp hzero
          have hsame : totalBytes.toInt = (t + bs.length : ℕ) := by rw [ht, hzero, Nat.add_zero]
          have hnothing := Reads.short iov memory ho hread hnone htotal hsame (by omega)
          rw [hnil, Memory.putBytes_nil] at hnothing
          exact ⟨0, by rw [hnil]; exact hnothing⟩
        · exact ⟨bs.length, Reads.short iov memory ho hread hnone htotal ht' hlt⟩
        · have hlength : bs.length = v.len := by omega
          have hnone' : none ∉ results ++ [some bs.length] := by simpa using hnone
          obtain ⟨n, hn⟩ := ih hnone' (moved_concat htotal bs.length) ht'
            (toInt_add_ofNat ho hreach) (by omega)
          exact ⟨bs.length + n, Reads.further ho hread hlength (by omega) hn⟩

end Reading

section Writing

variable {answer : ℕ → Answer} {memory : Memory}

theorem overwrite_nil (content : List UInt8) (offset : ℕ) : overwrite content offset [] = content :=
  if_pos rfl

/-- What one call writes of the data at `o` if nothing stops it. -/
def flatWrite (data : List UInt8) (o : ℕ) : List UInt8 := data.take (maxOffset - o)

theorem length_flatWrite (data : List UInt8) (o : ℕ) :
    (flatWrite data o).length = min (maxOffset - o) data.length :=
  List.length_take

theorem flatWrite_append {data : List UInt8} {o : ℕ} (h : o + data.length ≤ maxOffset)
    (rest : List UInt8) :
    flatWrite (data ++ rest) o = data ++ flatWrite rest (o + data.length) := by
  rw [flatWrite, flatWrite, List.take_append, List.take_of_length_le (by omega), Nat.sub_sub]

theorem flatWrite_prefix (data rest : List UInt8) (o : ℕ) :
    (flatWrite (data ++ rest) o).take (flatWrite data o).length = flatWrite data o := by
  rw [length_flatWrite, flatWrite, flatWrite, List.take_take, List.take_append_of_le_length
    (by omega), List.take_eq_take_iff]
  omega

theorem pwrite_refused {a : Answer} {content data : List UInt8} {offset : Int32} {o : ℕ}
    (ho : offset.toInt = o) (h : pwrite a content data offset = none) :
    a ≠ .everything ∨ (data ≠ [] ∧ maxOffset ≤ o) := by
  rw [pwrite, toNat_of_toInt ho] at h
  split_ifs at h with hrefused
  · exact .inr (hrefused.resolve_left (not_neg_of_toInt ho))
  · left
    rintro rfl
    exact absurd h (by simp [Answer.transfers])

theorem pwrite_eq_some {a : Answer} {content data content' : List UInt8} {offset : Int32}
    {o n : ℕ} (ho : offset.toInt = o)
    (h : pwrite a content data offset = some (n, content')) :
    n ≤ (flatWrite data o).length ∧ content' = overwrite content o ((flatWrite data o).take n) ∧
      (a = .everything → n = (flatWrite data o).length) ∧ (data ≠ [] → o < maxOffset) := by
  have hflat : data.take (inReach offset data.length) = flatWrite data o := by
    rw [inReach_eq ho, flatWrite, List.take_eq_take_iff]
    omega
  rw [pwrite, hflat, toNat_of_toInt ho] at h
  split_ifs at h with hrefused
  obtain ⟨k, hk, heq⟩ := Option.map_eq_some_iff.mp h
  obtain ⟨rfl, rfl⟩ := Prod.mk.inj heq
  refine ⟨transfers_le hk, rfl, ?_, fun hdata => ?_⟩
  · rintro rfl
    exact (Option.some.inj hk).symm
  · by_contra hend
    exact hrefused (.inr ⟨hdata, not_lt.mp hend⟩)

/-- The loop has written `n` bytes of what one call writes of `data`, beside the `t` before. A call
that writes what it can is refused only at the largest offset. -/
structure Writes (answer : ℕ → Answer) (data : List UInt8) (t o n : ℕ)
    (content : List UInt8) (r : WriteReturn) : Prop where
  le : n ≤ (flatWrite data o).length
  moved_eq : moved r.results = t + n
  counts : Counts r.ret.toInt r.results
  content_eq : r.content = overwrite content o ((flatWrite data o).take n)
  full : (∀ k, answer k = .everything) → n = (flatWrite data o).length
  refused : (∀ k, answer k = .everything) → none ∈ r.results → data ≠ []
  ended : data ≠ [] → maxOffset ≤ o → none ∈ r.results

theorem Writes.short {data : List UInt8} (rest : List UInt8) {t o n : ℕ} {offset ret : Int32}
    {content content' : List UInt8} {results : List (Option ℕ)} (ho : offset.toInt = o)
    (hwrite : pwrite (answer results.length) content data offset = some (n, content'))
    (hnone : none ∉ results) (htotal : moved results = t) (hret : ret.toInt = (t + n : ℕ))
    (hlt : n < data.length) :
    Writes answer (data ++ rest) t o n content ⟨ret, content', results ++ [some n]⟩ := by
  obtain ⟨hle, hcontent, hall, hroom⟩ := pwrite_eq_some ho hwrite
  have hnone' : none ∉ results ++ [some n] := by simpa using hnone
  have hmoved := moved_concat htotal n
  have hdata : data ≠ [] := List.ne_nil_of_length_pos (by omega)
  refine ⟨?_, hmoved, ?_, ?_, fun hfull => ?_, fun _ hmem => absurd hmem hnone', fun _ hend => ?_⟩
  · rw [length_flatWrite] at hle ⊢
    rw [List.length_append]
    omega
  · have hcounts := counts_of_notMem hnone'
    rw [hmoved] at hcounts
    rw [hret]
    exact hcounts
  · rw [← min_eq_left hle, ← List.take_take, flatWrite_prefix]
    exact hcontent
  · have hn := hall (hfull _)
    rw [length_flatWrite] at hn ⊢
    rw [List.length_append]
    omega
  · exact absurd (hroom hdata) (not_lt.mpr hend)

/-- The data of the first segment is written, and the loop goes on with the others. -/
theorem Writes.further {data rest : List UInt8} {t o m : ℕ} {content : List UInt8}
    {r : WriteReturn} (hdata : data ≠ []) (hreach : o + data.length ≤ maxOffset)
    (h : Writes answer rest (t + data.length) (o + data.length) m
      (overwrite content o data) r) :
    Writes answer (data ++ rest) t o (data.length + m) content r := by
  have hrest := h.le
  have hpos := List.length_pos_iff.mpr hdata
  refine ⟨?_, ?_, h.counts, ?_, fun hfull => ?_, fun _ _ => by simp [hdata], fun _ hend => ?_⟩
  · rw [flatWrite_append hreach, List.length_append]
    omega
  · rw [h.moved_eq, Nat.add_assoc]
  · rw [h.content_eq, overwrite_append, flatWrite_append hreach, List.take_length_add_append]
  · rw [flatWrite_append hreach, List.length_append, ← h.full hfull]
  · omega

theorem Writes.failed {data : List UInt8} {t o : ℕ} {totalBytes : Int32} {content : List UInt8}
    {results : List (Option ℕ)} (htotal : moved results = t) (hret : totalBytes.toInt = t)
    (hdata : data ≠ []) (hnot : (∀ k, answer k = .everything) → maxOffset ≤ o) :
    Writes answer data t o 0 content
      ⟨if 0 < totalBytes then totalBytes else -1, content, results ++ [none]⟩ := by
  refine ⟨Nat.zero_le _, ?_, counts_failed (htotal ▸ hret), ?_, fun hfull => ?_,
    fun _ _ => hdata, fun _ _ => by simp⟩
  · rw [moved_append, htotal]
    rfl
  · rw [List.take_zero, overwrite_nil]
  · have hend := hnot hfull
    rw [length_flatWrite]
    omega

/-- The invariant of the loop: what is written is the start of what one call writes. -/
theorem pwritevLoop_writes (iov : List Iovec) {t o : ℕ} {totalBytes offset : Int32}
    {content : List UInt8} {results : List (Option ℕ)} (hnone : none ∉ results)
    (htotal : moved results = t) (ht : totalBytes.toInt = t) (ho : offset.toInt = o)
    (hto : t ≤ o) :
    ∃ n, Writes answer (gather memory iov) t o n content
      (pwritevLoop answer memory iov totalBytes offset content results) := by
  induction iov generalizing t o totalBytes offset content results with
  | nil =>
    rw [pwritevLoop]
    refine ⟨0, Nat.zero_le _, htotal, ?_, ?_, fun _ => ?_, fun _ hmem => absurd hmem hnone,
      fun hdata => absurd rfl hdata⟩
    · rw [ht, ← htotal]
      exact counts_of_notMem hnone
    · rw [List.take_zero, overwrite_nil]
    · rw [length_flatWrite]
      exact (Nat.min_zero _).symm
  | cons v iov ih =>
    have hlength : (memory.bytes v.base v.len).length = v.len := by
      rw [Memory.bytes, List.length_map, List.length_range]
    rw [pwritevLoop, gather_cons]
    by_cases hlen : v.len = 0
    · rw [if_pos hlen, List.length_eq_zero_iff.mp (hlength.trans hlen), List.nil_append]
      exact ih hnone htotal ht ho hto
    · have hdata : memory.bytes v.base v.len ≠ [] := List.ne_nil_of_length_pos (by omega)
      rw [if_neg hlen]
      cases hwrite : pwrite (answer results.length) content (memory.bytes v.base v.len) offset with
      | none =>
        refine ⟨0, Writes.failed htotal ht (by simp [hdata]) fun hfull => ?_⟩
        exact ((pwrite_refused ho hwrite).resolve_left (fun h => h (hfull _))).2
      | some written =>
        obtain ⟨n, content'⟩ := written
        obtain ⟨hle, hcontent, -, hroom⟩ := pwrite_eq_some ho hwrite
        have hlt := hroom hdata
        rw [length_flatWrite] at hle
        have ht' := toInt_add_ofNat ht (show t + n ≤ maxOffset by omega)
        dsimp only
        split_ifs with hshort
        · exact ⟨n, Writes.short _ ho hwrite hnone htotal ht' (by omega)⟩
        · obtain rfl : n = (memory.bytes v.base v.len).length := by omega
          have hall : flatWrite (memory.bytes v.base v.len) o = memory.bytes v.base v.len :=
            List.take_of_length_le (by omega)
          rw [hall, List.take_length] at hcontent
          have hnone' : none ∉ results ++ [some (memory.bytes v.base v.len).length] := by
            simpa using hnone
          subst hcontent
          obtain ⟨m, hm⟩ := @ih _ (o + (memory.bytes v.base v.len).length) _ _
            (overwrite content o (memory.bytes v.base v.len)) _ hnone' (moved_concat htotal _) ht'
            (toInt_add_ofNat ho (by omega)) (by omega)
          exact ⟨_, Writes.further hdata (by omega) hm⟩

end Writing

/-- What a read with any answers has moved of the bytes `flat`. -/
structure ReadPart (iov : List Iovec) (flat : List UInt8) (memory : Memory) (r : ReadReturn) :
    Prop where
  counts : Counts r.ret.toInt r.results
  moved_le : moved r.results ≤ flat.length
  memory_eq : r.memory = scatter iov (flat.take (moved r.results)) memory
  outside : ∀ x, x ∉ (places iov).take (moved r.results) → r.memory x = memory x

/-- What a write with any answers has moved of the bytes `flat`. -/
structure WritePart (flat content : List UInt8) (offset : Int32) (r : WriteReturn) : Prop where
  counts : Counts r.ret.toInt r.results
  moved_le : moved r.results ≤ flat.length
  content_eq : r.content =
    overwrite content offset.toNatClampNeg (flat.take (moved r.results))

def whole : ℕ → Answer := fun _ => .everything

section Results

variable {answer : ℕ → Answer} {content : List UInt8} {iov : List Iovec} {offset : Int32} {o : ℕ}
  {memory : Memory}

theorem preadv_part (ho : offset.toInt = o) :
    ReadPart iov (flatRead content o (total iov)) memory
      (preadv answer content iov offset memory) := by
  obtain ⟨n, hn⟩ := @preadvLoop_reads answer content iov 0 o 0 offset memory [] (by simp) rfl rfl
    ho (Nat.zero_le _)
  have hmoved : moved (preadv answer content iov offset memory).results = n :=
    hn.moved_eq.trans (Nat.zero_add n)
  refine ⟨hn.counts, ?_, ?_, ?_⟩
  · rw [hmoved]
    exact hn.le
  · rw [hmoved]
    exact hn.memory_eq
  · intro x hx
    rw [preadv, hn.memory_eq]
    apply scatter_outside
    rwa [List.length_take, min_eq_left hn.le, ← hmoved]

theorem preadv_whole (ho : offset.toInt = o) :
    (preadv whole content iov offset memory).ret.toInt =
        (flatRead content o (total iov)).length ∧
      (preadv whole content iov offset memory).memory =
        scatter iov (flatRead content o (total iov)) memory := by
  obtain ⟨n, hn⟩ := @preadvLoop_reads whole content iov 0 o 0 offset memory [] (by simp) rfl rfl
    ho (Nat.zero_le _)
  obtain ⟨hnone, rfl⟩ := hn.full fun _ => rfl
  have hcounts := hn.counts
  rw [Counts, if_neg fun hand => hnone hand.1, hn.moved_eq, Nat.zero_add] at hcounts
  have hmemory := hn.memory_eq
  rw [List.take_length] at hmemory
  exact ⟨hcounts, hmemory⟩

theorem pwritev_part (ho : offset.toInt = o) :
    WritePart (flatWrite (gather memory iov) o) content offset
      (pwritev answer content iov offset memory) := by
  obtain ⟨n, hn⟩ := @pwritevLoop_writes answer memory iov 0 o 0 offset content [] (by simp) rfl rfl
    ho (Nat.zero_le _)
  have hmoved : moved (pwritev answer content iov offset memory).results = n :=
    hn.moved_eq.trans (Nat.zero_add n)
  refine ⟨hn.counts, ?_, ?_⟩
  · rw [hmoved]
    exact hn.le
  · rw [hmoved, toNat_of_toInt ho]
    exact hn.content_eq

/-- A whole write fails with one call, and otherwise writes what it writes. -/
theorem pwritev_whole (ho : offset.toInt = o) :
    (pwritev whole content iov offset memory).ret.toInt =
        (if gather memory iov ≠ [] ∧ maxOffset ≤ o then -1
          else ((flatWrite (gather memory iov) o).length : ℤ)) ∧
      (pwritev whole content iov offset memory).content =
        overwrite content o (flatWrite (gather memory iov) o) := by
  obtain ⟨n, hn⟩ := @pwritevLoop_writes whole memory iov 0 o 0 offset content [] (by simp) rfl rfl
    ho (Nat.zero_le _)
  obtain rfl := hn.full fun _ => rfl
  have hcounts := hn.counts
  have hlength := length_flatWrite (gather memory iov) o
  have hmeans : (none ∈ (pwritev whole content iov offset memory).results ∧
      0 + (flatWrite (gather memory iov) o).length = 0) ↔
        gather memory iov ≠ [] ∧ maxOffset ≤ o := by
    constructor
    · rintro ⟨hnone, hzero⟩
      have hdata := hn.refused (fun _ => rfl) hnone
      have hpos := List.length_pos_iff.mpr hdata
      exact ⟨hdata, by omega⟩
    · rintro ⟨hdata, hend⟩
      exact ⟨hn.ended hdata hend, by omega⟩
  rw [Counts, hn.moved_eq] at hcounts
  have hcontent := hn.content_eq
  rw [List.take_length] at hcontent
  refine ⟨hcounts.trans ?_, hcontent⟩
  rw [Nat.zero_add] at hmeans ⊢
  exact if_congr hmeans rfl rfl

/-- What was written from some segments is read to others of the same lengths. -/
theorem preadv_pwritev {iov' : List Iovec} {memory' : Memory} (ho : offset.toInt = o)
    (hlens : iov'.map Segment.len = iov.map Segment.len) :
    (preadv whole (pwritev whole content iov offset memory).content iov' offset memory').ret.toInt =
        (flatWrite (gather memory iov) o).length ∧
      (preadv whole (pwritev whole content iov offset memory).content iov' offset memory').memory =
        scatter iov' (flatWrite (gather memory iov) o) memory' := by
  have htotal : min (total iov') (maxOffset - o) = (flatWrite (gather memory iov) o).length := by
    rw [length_flatWrite, length_gather, total, hlens, total, min_comm]
  obtain ⟨hret, hmemory⟩ := @preadv_whole
    (pwritev whole content iov offset memory).content iov' offset o memory' ho
  rw [(pwritev_whole ho).2, flatRead, htotal, take_drop_overwrite] at hret hmemory
  rw [(pwritev_whole ho).2]
  exact ⟨hret, hmemory⟩

theorem pread_everything (ho : offset.toInt = o) (len : ℕ) :
    pread .everything content len offset = some (flatRead content o len) := by
  rw [pread, if_neg (not_neg_of_toInt ho), toNat_of_toInt ho, inReach_eq ho]
  simp only [Answer.transfers, Option.map_some, List.take_length]
  rfl

theorem pwrite_everything (ho : offset.toInt = o) (data : List UInt8) :
    pwrite .everything content data offset =
      if data ≠ [] ∧ maxOffset ≤ o then none
      else some ((flatWrite data o).length, overwrite content o (flatWrite data o)) := by
  have hflat : data.take (inReach offset data.length) = flatWrite data o := by
    rw [inReach_eq ho, flatWrite, List.take_eq_take_iff]
    omega
  rw [pwrite, hflat, toNat_of_toInt ho]
  simp only [not_neg_of_toInt ho, false_or, Answer.transfers, Option.map_some, List.take_length]

end Results

/-- The file ends on the boundary of a segment. -/
example : (preadv whole [1, 2, 3] [⟨0, 2⟩, ⟨9, 0⟩, ⟨4, 1⟩, ⟨7, 2⟩] 0 fun _ => 0).results =
    [some 2, some 1, some 0] := by
  decide

/-- What one `pwrite` of `data` writes when nothing stops it. -/
def sent (content data : List UInt8) (offset : Int32) : List UInt8 :=
  data.take ((pwrite .everything content data offset).elim 0 Prod.fst)

theorem sent_eq {offset : Int32} {o : ℕ} (ho : offset.toInt = o) (content data : List UInt8) :
    sent content data offset = flatWrite data o := by
  rw [sent, pwrite_everything ho]
  split_ifs with hrefused
  · rw [Option.elim_none, flatWrite, List.take_eq_take_iff]
    omega
  · rw [Option.elim_some]
    dsimp only
    rw [length_flatWrite, flatWrite, List.take_eq_take_iff]
    omega

/-- What a `pwrite` returns, -1 if it fails, and the file that it leaves. -/
def ReturnsAs (one : Option (ℕ × List UInt8)) (content : List UInt8) (r : WriteReturn) : Prop :=
  match one with
  | none => r.ret = -1 ∧ r.content = content
  | some (n, written) => r.ret.toInt = n ∧ r.content = written

end Solcompat.Stdio
