import Solcompat.Lib.Buffer
import Solcompat.Lib.Tokens

/-!
# `strsep`

The model of `strsep` of `string.c`. The buffer is a list of bytes that is changed in place, and
pointers are offsets in it. Between two calls the buffer is a part that is done, the rest of the
string and its terminator; a call moves one token and the byte behind it to the part that is done.
-/

namespace Solcompat.Text

open Lib

/-- `strpbrk`: the distance to the first byte of `accept`, on the bytes from a pointer on. The
search ends at the terminator. -/
def strpbrk (accept : CString) : List UInt8 → Option ℕ
  | [] => none
  | b :: s =>
    if b = 0 then none
    else if b ∈ accept.bytes then some 0
    else (strpbrk accept s).map (· + 1)

/-- The memory of the string, and `*stringp`. -/
structure Cursor where
  buffer : Buffer
  stringp : Option ℕ
  deriving DecidableEq

def strsep (delim : CString) (c : Cursor) : Option ℕ × Cursor :=
  match c.stringp with
  | none => (none, c)
  | some start =>
    match strpbrk delim (c.buffer.drop start) with
    | some k =>
      let p := start + k
      (some start, { buffer := c.buffer.set p 0, stringp := some (p + 1) })
    | none => (some start, { c with stringp := none })

/-- Calls of `strsep` until there is no token, `fuel` at most: the pointers that they return. -/
def strsepLoop (delim : CString) : ℕ → Cursor → List ℕ × Cursor
  | 0, c => ([], c)
  | fuel + 1, c =>
    match strsep delim c with
    | (none, c) => ([], c)
    | (some token, c) =>
      let (tokens, c) := strsepLoop delim fuel c
      (token :: tokens, c)

/-- Every call but the last overwrites a byte, so the fuel does not run out. -/
def strsepAll (delim : CString) (c : Cursor) : List ℕ × Cursor :=
  strsepLoop delim (c.buffer.length + 1) c

theorem strsepAll_eq (delim : CString) (buffer : Buffer) (stringp : Option ℕ) :
    strsepAll delim ⟨buffer, stringp⟩ = strsepLoop delim (buffer.length + 1) ⟨buffer, stringp⟩ :=
  rfl

/-- The string that a returned pointer points to. -/
def tokenAt (buffer : Buffer) (p : ℕ) : List UInt8 := Buffer.text (buffer.drop p)

/-- The bytes that are not what they were. -/
def overwritten (before after : Buffer) : List UInt8 :=
  ((before.zip after).filter fun change => change.1 ≠ change.2).map Prod.fst

def isDelim (delim : CString) (b : UInt8) : Bool := decide (b ∈ delim.bytes)

def cut (delim : CString) (s : List UInt8) : List UInt8 :=
  s.map fun b => if isDelim delim b then 0 else b

theorem ne_zero_of_isDelim {delim : CString} {b : UInt8} (h : isDelim delim b = true) : b ≠ 0 :=
  delim.nulFree b (of_decide_eq_true h)

theorem cut_append (delim : CString) (xs ys : List UInt8) :
    cut delim (xs ++ ys) = cut delim xs ++ cut delim ys :=
  List.map_append

theorem cut_token {delim : CString} {token : List UInt8}
    (h : ∀ b ∈ token, isDelim delim b = false) : cut delim token = token := by
  have hsame : ∀ b ∈ token, (if isDelim delim b then 0 else b) = b := by
    intro b hb
    rw [h b hb]
    rfl
  rw [cut, List.map_congr_left hsame, List.map_id']

theorem strpbrk_token {delim : CString} {token : List UInt8}
    (htoken : ∀ b ∈ token, isDelim delim b = false) (hnul : ∀ b ∈ token, b ≠ 0)
    (rest : List UInt8) :
    strpbrk delim (token ++ rest) = (strpbrk delim rest).map (· + token.length) := by
  induction token with
  | nil => exact Option.map_id'.symm
  | cons b token ih =>
    rw [List.forall_mem_cons] at htoken hnul
    have hrest := ih htoken.2 hnul.2
    rw [List.cons_append, strpbrk, if_neg hnul.1, if_neg (of_decide_eq_false htoken.1), hrest,
      Option.map_map]
    rfl

theorem strpbrk_of_delim {delim : CString} {token : List UInt8} {sep : UInt8}
    (htoken : ∀ b ∈ token, isDelim delim b = false) (hnul : ∀ b ∈ token, b ≠ 0)
    (hsep : isDelim delim sep = true) (rest : List UInt8) :
    strpbrk delim (token ++ sep :: rest) = some token.length := by
  rw [strpbrk_token htoken hnul, strpbrk, if_neg (ne_zero_of_isDelim hsep),
    if_pos (of_decide_eq_true hsep), Option.map_some, Nat.zero_add]

theorem strpbrk_of_last {delim : CString} {token : List UInt8}
    (htoken : ∀ b ∈ token, isDelim delim b = false) (hnul : ∀ b ∈ token, b ≠ 0)
    (back : List UInt8) : strpbrk delim (token ++ 0 :: back) = none := by
  rw [strpbrk_token htoken hnul, strpbrk, if_pos rfl, Option.map_none]

theorem strsep_none (delim : CString) (buffer : Buffer) :
    strsep delim ⟨buffer, none⟩ = (none, ⟨buffer, none⟩) :=
  rfl

theorem strsep_of_delim {delim : CString} {token : List UInt8} {sep : UInt8}
    (htoken : ∀ b ∈ token, isDelim delim b = false) (hnul : ∀ b ∈ token, b ≠ 0)
    (hsep : isDelim delim sep = true) (front rest : List UInt8) :
    strsep delim ⟨front ++ (token ++ sep :: rest), some front.length⟩ =
      (some front.length,
        ⟨front ++ token ++ [0] ++ rest, some (front ++ token ++ [0]).length⟩) := by
  have hset : (front ++ (token ++ sep :: rest)).set (front.length + token.length) 0 =
      front ++ token ++ [0] ++ rest := by
    rw [← List.append_assoc, ← List.length_append, List.set_append_right _ _ le_rfl, Nat.sub_self,
      List.set_cons_zero, List.append_assoc, List.append_assoc, List.append_assoc,
      List.singleton_append]
  have hend : front.length + token.length + 1 = (front ++ token ++ [0]).length := by
    simp only [List.length_append, List.length_singleton]
  simp only [strsep, List.drop_left, strpbrk_of_delim htoken hnul hsep, hset, hend]

theorem strsep_of_last {delim : CString} {token : List UInt8}
    (htoken : ∀ b ∈ token, isDelim delim b = false) (hnul : ∀ b ∈ token, b ≠ 0)
    (front back : List UInt8) :
    strsep delim ⟨front ++ (token ++ 0 :: back), some front.length⟩ =
      (some front.length, ⟨front ++ (token ++ 0 :: back), none⟩) := by
  simp only [strsep, List.drop_left, strpbrk_of_last htoken hnul]

theorem tokenAt_front {token : List UInt8} (hnul : ∀ b ∈ token, b ≠ 0) (front rest : List UInt8) :
    tokenAt (front ++ (token ++ 0 :: rest)) front.length = token := by
  rw [tokenAt, List.drop_left, Buffer.text_append hnul]

theorem strsepLoop_eq {delim : CString} {s : List UInt8} (hs : ∀ b ∈ s, b ≠ 0)
    (front back : List UInt8) {fuel : ℕ} (hfuel : s.countP (isDelim delim) < fuel) :
    let run := strsepLoop delim fuel ⟨front ++ (s ++ 0 :: back), some front.length⟩
    run.2 = ⟨front ++ (cut delim s ++ 0 :: back), none⟩ ∧
      run.1.map (tokenAt run.2.buffer) = s.splitOnP (isDelim delim) := by
  induction s using Tokens.cut_induction (p := isDelim delim) generalizing front fuel with
  | last token htoken =>
    obtain ⟨fuel, rfl⟩ := Nat.exists_eq_add_of_lt hfuel
    have hcall := strsep_of_last htoken hs front back
    have hstop : ∀ n, strsepLoop delim n ⟨front ++ (token ++ 0 :: back), none⟩ =
        ([], ⟨front ++ (token ++ 0 :: back), none⟩) := by
      intro n
      cases n <;> rfl
    rw [strsepLoop, hcall]
    simp only [hstop, cut_token htoken, List.map_cons, List.map_nil, tokenAt_front hs,
      List.splitOnP_eq_singleton htoken, and_self]
  | cut token sep rest htoken hsep ih =>
    have hnul : ∀ b ∈ token, b ≠ 0 := fun b hb => hs b (List.mem_append_left _ hb)
    have hrest : ∀ b ∈ rest, b ≠ 0 :=
      fun b hb => hs b (List.mem_append_right _ (List.mem_cons_of_mem _ hb))
    rw [List.countP_append, Tokens.countP_token htoken, List.countP_cons_of_pos hsep] at hfuel
    obtain ⟨fuel, rfl⟩ := Nat.exists_eq_add_of_lt hfuel
    have hcall := strsep_of_delim htoken hnul hsep front (rest ++ 0 :: back)
    have hloop := ih hrest (front ++ token ++ [0])
      (by omega : rest.countP (isDelim delim) < 0 + (rest.countP (isDelim delim) + 1) + fuel)
    have hdone : cut delim (token ++ sep :: rest) = token ++ 0 :: cut delim rest := by
      rw [cut_append, cut_token htoken, cut, List.map_cons, hsep, if_pos rfl, ← cut]
    have hbuffer : front ++ token ++ [0] ++ (cut delim rest ++ 0 :: back) =
        front ++ (token ++ 0 :: (cut delim rest ++ 0 :: back)) := by
      simp only [List.append_assoc, List.singleton_append]
    dsimp only at hloop ⊢
    rw [List.append_assoc, List.cons_append, strsepLoop, hcall]
    constructor
    · dsimp only
      rw [hloop.1, hbuffer, hdone, List.append_assoc, List.cons_append]
    · have hfirst : tokenAt (front ++ token ++ [0] ++ (cut delim rest ++ 0 :: back))
          front.length = token := by
        rw [hbuffer, tokenAt_front hnul]
      dsimp only
      rw [List.map_cons, hloop.2, hloop.1, hfirst,
        List.splitOnP_append_cons_of_forall_mem htoken sep hsep]

theorem overwritten_cut (delim : CString) (s front back : List UInt8) :
    overwritten (front ++ (s ++ 0 :: back)) (front ++ (cut delim s ++ 0 :: back)) =
      s.filter (isDelim delim) := by
  have hsame : ∀ bs : List UInt8, overwritten bs bs = [] := by
    intro bs
    induction bs with
    | nil => rfl
    | cons b bs ih => simpa [overwritten] using ih
  have happend : ∀ xs ys xs' ys' : List UInt8, xs.length = xs'.length →
      overwritten (xs ++ ys) (xs' ++ ys') = overwritten xs xs' ++ overwritten ys ys' := by
    intro xs ys xs' ys' hlength
    simp only [overwritten, List.zip_append hlength, List.filter_append, List.map_append]
  have hcut : overwritten s (cut delim s) = s.filter (isDelim delim) := by
    induction s with
    | nil => rfl
    | cons b s ih =>
      cases hb : isDelim delim b with
      | true =>
        have hne := ne_zero_of_isDelim hb
        simpa [overwritten, cut, hb, hne] using ih
      | false => simpa [overwritten, cut, hb] using ih
  have hlength : (cut delim s).length = s.length := List.length_map _
  rw [happend _ _ _ _ rfl, happend _ _ _ _ hlength.symm, hsame, hsame, hcut, List.nil_append,
    List.append_nil]

/-- The tokens of a string that stands somewhere in a buffer: their number, what they are free of,
the empty ones, how they give back the string, and that the calls behind the last do nothing. -/
theorem strsep_lossless (delim s : CString) (front back : Buffer) :
    let before := front ++ (s.bytes ++ 0 :: back)
    let run := strsepAll delim ⟨before, some front.length⟩
    let tokens := run.1.map (tokenAt run.2.buffer)
    run.1.length = s.bytes.countP (isDelim delim) + 1 ∧
      (∀ token ∈ tokens, ∀ b ∈ token, b ∉ delim.bytes) ∧
      (∀ xs ys, s.bytes = xs ++ ys → (xs = [] ∨ ∃ d ∈ xs.getLast?, d ∈ delim.bytes) →
        (ys = [] ∨ ∃ d ∈ ys.head?, d ∈ delim.bytes) →
        tokens[xs.countP (isDelim delim)]? = some []) ∧
      Tokens.join tokens (overwritten before run.2.buffer) = s.bytes ∧
      run.2.stringp = none ∧ strsep delim run.2 = (none, run.2) := by
  have hfuel : s.bytes.countP (isDelim delim) < (front ++ (s.bytes ++ 0 :: back)).length + 1 := by
    have hle := List.countP_le_length (p := isDelim delim) (l := s.bytes)
    simp only [List.length_append]
    omega
  obtain ⟨hfinal, htokens⟩ := strsepLoop_eq s.nulFree front back hfuel
  dsimp only at hfinal htokens ⊢
  rw [← strsepAll_eq] at hfinal htokens
  generalize strsepAll delim ⟨front ++ (s.bytes ++ 0 :: back), some front.length⟩ = run at *
  have hisDelim : ∀ bs : Option UInt8,
      (∃ d ∈ bs, d ∈ delim.bytes) → ∃ d ∈ bs, isDelim delim d = true := by
    rintro bs ⟨d, hd, hmem⟩
    exact ⟨d, hd, decide_eq_true hmem⟩
  have hcount : run.1.length = s.bytes.countP (isDelim delim) + 1 := by
    rw [← Tokens.length_splitOnP, ← htokens, List.length_map]
  have hfree : ∀ token ∈ run.1.map (tokenAt run.2.buffer), ∀ b ∈ token, b ∉ delim.bytes := by
    intro token htoken b hb
    rw [htokens] at htoken
    exact of_decide_eq_false (Tokens.notSep_of_mem_splitOnP htoken b hb)
  have hempty : ∀ xs ys, s.bytes = xs ++ ys → (xs = [] ∨ ∃ d ∈ xs.getLast?, d ∈ delim.bytes) →
      (ys = [] ∨ ∃ d ∈ ys.head?, d ∈ delim.bytes) →
      (run.1.map (tokenAt run.2.buffer))[xs.countP (isDelim delim)]? = some [] := by
    intro xs ys hs hxs hys
    rw [htokens, hs]
    exact Tokens.splitOnP_empty (hxs.imp_right (hisDelim _)) (hys.imp_right (hisDelim _))
  have hjoin : Tokens.join (run.1.map (tokenAt run.2.buffer))
      (overwritten (front ++ (s.bytes ++ 0 :: back)) run.2.buffer) = s.bytes := by
    rw [htokens, hfinal, overwritten_cut]
    exact List.splitOnP_spec s.bytes
  have hend : run.2.stringp = none ∧ strsep delim run.2 = (none, run.2) := by
    rw [hfinal]
    exact ⟨rfl, strsep_none _ _⟩
  exact ⟨hcount, hfree, hempty, hjoin, hend⟩

example : (strsepAll (CString.ofString ":") ⟨(CString.ofString ":a::").bytes ++ [0], some 0⟩).1 =
    [0, 1, 3, 4] := by
  decide

end Solcompat.Text
