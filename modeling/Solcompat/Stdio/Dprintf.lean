import Solcompat.Printf.Vsnprintf

/-!
# `dprintf`

`vasprintf` formats into a block, and the loop hands what is left of it to `write` until
everything is written. A call of `write` may take less than it is given, or nothing; a call that a
signal interrupts is made again, and any other failure ends the loop.
-/

namespace Solcompat.Stdio

open Lib Printf

/-- `EINTR` -/
def interrupted : Errno := .system 4

/-- What a call of `write` answers. It takes no more than it is given. -/
inductive Written
  | takes (n : ℕ)
  | fails (errno : Errno)
  deriving DecidableEq

/-- The return value, the bytes that `write` has taken, and the error number of a failure. -/
structure Sent where
  ret : ℤ
  bytes : List UInt8
  errno : Option Errno

/-- The loop from `total` on; `none` while it waits for an answer. -/
def writeLoop (buf : Memory) (len : ℕ) : ℕ → List UInt8 → List Written → Option Sent
  | total, bytes, answers =>
    if len ≤ total then some ⟨len, bytes, none⟩
    else
      match answers with
      | [] => none
      | .fails e :: answers =>
        if e = interrupted then writeLoop buf len total bytes answers
        else some ⟨-1, bytes, some e⟩
      | .takes n :: answers =>
        let written := min n (len - total)
        writeLoop buf len (total + written) (bytes ++ buf.bytes total written) answers

variable {Args : Type*}

/-- `fresh` is what the block of `vasprintf` contains before it is filled. -/
def dprintf (sys : System Args) (fresh : Memory) (fmt : CString) (ap : Args)
    (answers : List Written) : Option Sent :=
  let formatted := vasprintf sys fresh fmt ap
  match formatted.str with
  | none => some ⟨-1, [], formatted.errno⟩
  | some buf => writeLoop buf formatted.ret.toNat 0 [] answers

/-- After this answer the loop calls `write` again, if something is left. -/
def Written.Continues : Written → Prop
  | .takes _ => True
  | .fails e => e = interrupted

/-- How much `write` would take of a text without end. -/
def Written.amount : Written → ℕ
  | .takes n => n
  | .fails _ => 0

def taken (answers : List Written) : ℕ := (answers.map Written.amount).sum

/-- How the loop ends with these answers, if `total` bytes of `output` are written. -/
inductive Concludes (output : List UInt8) (total : ℕ) (answers : List Written) : Sent → Prop
  | whole {used rest : List Written} : answers = used ++ rest → (∀ a ∈ used, a.Continues) →
      output.length ≤ total + taken used →
      Concludes output total answers ⟨output.length, output, none⟩
  | cut {used rest : List Written} {e : Errno} : answers = used ++ .fails e :: rest →
      (∀ a ∈ used, a.Continues) → e ≠ interrupted → total + taken used < output.length →
      Concludes output total answers ⟨-1, output.take (total + taken used), some e⟩

section

variable {output : List UInt8} {total : ℕ} {answers used : List Written} {a : Written} {o : Sent}

theorem taken_cons (a : Written) (answers : List Written) :
    taken (a :: answers) = a.amount + taken answers := rfl

/-- When everything is written, the answers that follow are not asked for. -/
theorem concludes_whole (h : output.length ≤ total) :
    Concludes output total answers o ↔ o = ⟨output.length, output, none⟩ := by
  constructor
  · intro hends
    cases hends with
    | whole => rfl
    | cut _ _ _ hlt => omega
  · rintro rfl
    exact .whole (List.nil_append answers).symm (by simp) (by omega)

theorem not_concludes_nil (h : total < output.length) : ¬ Concludes output total [] o := by
  intro hends
  cases hends with
  | whole hnil _ hle =>
    obtain ⟨rfl, -⟩ := List.append_eq_nil_iff.mp hnil.symm
    simp only [taken, List.map_nil, List.sum_nil] at hle
    omega
  | cut hnil => exact absurd hnil.symm (by simp)

theorem concludes_continues (h : total < output.length) (ha : a.Continues) :
    Concludes output total (a :: answers) o ↔
      Concludes output (total + a.amount) answers o := by
  constructor
  · intro hends
    cases hends with
    | @whole used rest hused hall hle =>
      cases used with
      | nil =>
        simp only [taken, List.map_nil, List.sum_nil] at hle
        omega
      | cons b used =>
        obtain ⟨rfl, rfl⟩ := List.cons_eq_cons.mp hused
        rw [taken_cons, ← Nat.add_assoc] at hle
        exact .whole rfl (fun c hc => hall c (List.mem_cons_of_mem _ hc)) hle
    | @cut used rest e hused hall he hlt =>
      cases used with
      | nil =>
        obtain ⟨rfl, -⟩ := List.cons_eq_cons.mp hused
        exact absurd ha he
      | cons b used =>
        obtain ⟨rfl, rfl⟩ := List.cons_eq_cons.mp hused
        rw [taken_cons, ← Nat.add_assoc] at hlt ⊢
        exact .cut rfl (fun c hc => hall c (List.mem_cons_of_mem _ hc)) he hlt
  · intro hends
    cases hends with
    | @whole used rest hused hall hle =>
      exact @Concludes.whole _ _ _ (a :: used) _ (congrArg _ hused)
        (List.forall_mem_cons.mpr ⟨ha, hall⟩) (by rw [taken_cons]; omega)
    | @cut used rest e hused hall he hlt =>
      rw [Nat.add_assoc, ← taken_cons] at hlt ⊢
      exact .cut (congrArg _ hused) (List.forall_mem_cons.mpr ⟨ha, hall⟩) he hlt

theorem concludes_cut {e : Errno} (h : total < output.length) (he : e ≠ interrupted) :
    Concludes output total (.fails e :: answers) o ↔ o = ⟨-1, output.take total, some e⟩ := by
  constructor
  · intro hends
    cases hends with
    | @whole used rest hused hall hle =>
      cases used with
      | nil =>
        simp only [taken, List.map_nil, List.sum_nil] at hle
        omega
      | cons b used =>
        obtain ⟨rfl, -⟩ := List.cons_eq_cons.mp hused
        exact absurd (hall _ List.mem_cons_self) he
    | @cut used rest e' hused hall he' hlt =>
      cases used with
      | nil =>
        obtain ⟨hcons, -⟩ := List.cons_eq_cons.mp hused
        obtain rfl := Written.fails.inj hcons
        rfl
      | cons b used =>
        obtain ⟨rfl, -⟩ := List.cons_eq_cons.mp hused
        exact absurd (hall _ List.mem_cons_self) he
  · rintro rfl
    exact .cut (List.nil_append _).symm (by simp) he h

end

section

variable {output : List UInt8} {buf : Memory}

/-- The bytes that a call hands over continue those that were written before. -/
theorem take_append_bytes (hbuf : ∀ i, i < output.length → buf i = output.getD i 0) {total n : ℕ}
    (h : total < output.length) :
    output.take total ++ buf.bytes total (min n (output.length - total)) =
      output.take (total + n) := by
  have hbytes : buf.bytes total (min n (output.length - total)) = (output.drop total).take n := by
    apply List.ext_getElem
    · simp [Memory.bytes]
    · intro i hi _
      simp only [Memory.bytes, List.length_map, List.length_range] at hi
      simp only [Memory.bytes, List.getElem_map, List.getElem_range, List.getElem_take,
        List.getElem_drop]
      rw [hbuf _ (by omega), List.getD_eq_getElem _ _ (by omega)]
  rw [hbytes, List.take_add]

theorem writeLoop_whole {len total : ℕ} (h : len ≤ total) (bytes : List UInt8)
    (answers : List Written) :
    writeLoop buf len total bytes answers = some ⟨len, bytes, none⟩ := by
  unfold writeLoop
  exact if_pos h

theorem writeLoop_nil {len total : ℕ} (h : total < len) (bytes : List UInt8) :
    writeLoop buf len total bytes [] = none := by
  unfold writeLoop
  exact if_neg (by omega)

theorem writeLoop_takes {len total : ℕ} (h : total < len) (bytes : List UInt8) (n : ℕ)
    (answers : List Written) :
    writeLoop buf len total bytes (.takes n :: answers) =
      writeLoop buf len (total + min n (len - total))
        (bytes ++ buf.bytes total (min n (len - total))) answers := by
  conv_lhs => unfold writeLoop
  exact if_neg (by omega)

theorem writeLoop_fails {len total : ℕ} (h : total < len) (bytes : List UInt8) (e : Errno)
    (answers : List Written) :
    writeLoop buf len total bytes (.fails e :: answers) =
      if e = interrupted then writeLoop buf len total bytes answers
      else some ⟨-1, bytes, some e⟩ := by
  conv_lhs => unfold writeLoop
  exact if_neg (by omega)

theorem writeLoop_iff (hbuf : ∀ i, i < output.length → buf i = output.getD i 0) (total : ℕ)
    (answers : List Written) (o : Sent) :
    writeLoop buf output.length (min total output.length) (output.take total) answers = some o ↔
      Concludes output total answers o := by
  induction answers generalizing total with
  | nil =>
    by_cases h : output.length ≤ total
    · rw [writeLoop_whole (by omega), concludes_whole h, List.take_of_length_le h, Option.some_inj,
        eq_comm]
    · rw [writeLoop_nil (by omega)]
      exact ⟨fun h => (Option.some_ne_none _ h.symm).elim,
        fun hends => (not_concludes_nil (by omega) hends).elim⟩
  | cons a answers ih =>
    by_cases h : output.length ≤ total
    · rw [writeLoop_whole (by omega), concludes_whole h, List.take_of_length_le h, Option.some_inj,
        eq_comm]
    have hlt : total < output.length := by omega
    have hmin : min total output.length = total := by omega
    rw [hmin]
    cases a with
    | takes n =>
      have hcontinues : (Written.takes n).Continues := trivial
      have hnext : total + min n (output.length - total) = min (total + n) output.length := by
        omega
      rw [writeLoop_takes hlt, take_append_bytes hbuf hlt, hnext,
        concludes_continues hlt hcontinues]
      exact ih (total + n)
    | fails e =>
      rw [writeLoop_fails hlt]
      by_cases he : e = interrupted
      · have hcontinues : (Written.fails e).Continues := he
        have hnext := ih total
        rw [hmin] at hnext
        rw [if_pos he, concludes_continues hlt hcontinues]
        exact hnext
      · rw [if_neg he, concludes_cut hlt he, Option.some_inj, eq_comm]

end

theorem vasprintf_of_output {sys : System Args} (hm : ∀ i, sys.malloc i = true) {fmt : CString}
    {ap : Args} {output : List UInt8}
    (hv : sys.vsprintf ((preprocessFmt fmt 2048).result fmt) ap = some output)
    (hlen : output.length < 16777216) (fresh : Memory) :
    (vasprintf sys fresh fmt ap).ret = output.length ∧
      (vasprintf sys fresh fmt ap).str = some (copyOut fresh (output.length + 1) output) := by
  have hcall := solcompatVsnprintf_of_output hm fmt ap hv hlen
  obtain ⟨measured, h₁⟩ := hcall 0 none 0
  obtain ⟨formatted, h₂⟩ := hcall (measured + 1) (some fresh) (output.length + 1)
  have hneg : ¬ (output.length : ℤ) < 0 := by omega
  constructor <;> simp [vasprintf, h₁, hm, h₂, hneg]

/-- Whatever `write` answers, the bytes go out in order and each once. The call returns the length
exactly when `write` has taken all of them before it failed for good; when it fails before, the
call returns -1 with that error, and the bytes that went out are the first ones. There is no other
way in which it ends. -/
theorem dprintf_iff (sys : System Args) (hm : ∀ i, sys.malloc i = true) (fmt : CString)
    (ap : Args) (output : List UInt8)
    (hv : sys.vsprintf ((preprocessFmt fmt 2048).result fmt) ap = some output)
    (hlen : output.length < 16777216) (fresh : Memory) (answers : List Written) (o : Sent) :
    dprintf sys fresh fmt ap answers = some o ↔ Concludes output 0 answers o := by
  obtain ⟨hret, hstr⟩ := vasprintf_of_output hm hv hlen fresh
  have hformatted := copyOut_formatted fresh (Nat.succ_pos output.length) output
  have hbuf : ∀ i, i < output.length →
      copyOut fresh (output.length + 1) output i = output.getD i 0 :=
    fun i hi => hformatted.contents i (by simpa using hi)
  simpa [dprintf, hret, hstr] using writeLoop_iff hbuf 0 answers o

theorem dprintf_iff_short :
    dprintf literalSystem (fun _ => 7) (.ofString "ready") ()
        [.takes 2, .fails interrupted, .takes 0, .takes 9] =
      some ⟨5, [114, 101, 97, 100, 121], none⟩ :=
  (dprintf_iff literalSystem (fun _ => rfl) (.ofString "ready") () [114, 101, 97, 100, 121]
    (by decide +kernel) (by decide) (fun _ => 7) [.takes 2, .fails interrupted, .takes 0, .takes 9]
    ⟨5, [114, 101, 97, 100, 121], none⟩).mpr
    (.whole (List.append_nil _).symm
      (fun a ha => by fin_cases ha <;> first | exact trivial | exact rfl) (by decide))

end Solcompat.Stdio
