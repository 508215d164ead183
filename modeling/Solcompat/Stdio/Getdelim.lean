import Solcompat.Lib.Blocks
import Solcompat.Lib.Buffer
import Solcompat.Lib.Memory

/-!
# `getdelim`

What `malloc` and `realloc` answer is known in advance, allocation by allocation. Calls that
follow each other share one block, and each takes its piece of the stream.
-/

namespace Solcompat.Stdio

open Solcompat.Lib

/-- What `lineptr` and `n` point to, and the heap. -/
structure Line where
  heap : Blocks Buffer
  /-- How many blocks were asked for. -/
  asked : ℕ
  lineptr : Option ℕ
  n : ℕ

structure Reading where
  line : Line
  buf : ℕ
  bufsize : ℕ
  pos : ℕ

inductive Stop
  | eof
  | delimiter
  | noMemory
  deriving DecidableEq

/-- What a call leaves; without an error `errno` is none. -/
structure Return where
  ret : ℤ
  errno : Option Errno
  line : Line
  /-- What the stream has still to give. -/
  stream : List UInt8

/-- `GETDELIM_INITIAL_SIZE` -/
def initialSize : ℕ := 128

/-- `realloc` keeps what is in the block already. -/
def resize (contents : ℕ → UInt8) (size : ℕ) (old : Buffer) : Buffer :=
  old.take size ++ (Buffer.fresh contents size).drop old.length

/-- The `ssize_t` of a `size_t`. -/
def ssize (n : ℕ) : ℤ := (BitVec.ofNat 32 n).toInt

section Code

variable (answers : Allocations)

/-- The block that a line starts with; an error is that there is no memory. -/
def Line.newBlock (line : Line) : Except Line Reading :=
  let asked := line.asked + 1
  match answers line.asked with
  | none => .error { line with asked }
  | some contents =>
    let heap := line.heap.alloc (Buffer.fresh contents initialSize)
    let buf := line.heap.next
    .ok ⟨⟨heap, asked, some buf, initialSize⟩, buf, initialSize, 0⟩

def Line.start (line : Line) : Except Line Reading :=
  match line.lineptr with
  | none => line.newBlock answers
  | some buf => if line.n = 0 then line.newBlock answers else .ok ⟨line, buf, line.n, 0⟩

/-- `if (pos + 1 >= bufsize)`, and whether there is memory. -/
def Reading.grow (r : Reading) : Option (Bool × Reading) :=
  if r.bufsize ≤ r.pos + 1 then
    let bufsize := r.bufsize * 2 % 2 ^ 32
    let asked := r.line.asked + 1
    match answers r.line.asked with
    | none => some (false, { r with line := { r.line with asked }, bufsize })
    | some contents => do
      let heap ← r.line.heap.realloc r.buf (resize contents bufsize)
      let buf := r.line.heap.next
      some (true, ⟨⟨heap, asked, some buf, bufsize⟩, buf, bufsize, r.pos⟩)
  else some (true, r)

/-- `buf[pos] = c`, which fails outside of the block. -/
def Reading.store (c : UInt8) (r : Reading) : Option Reading := do
  let heap ← r.line.heap.modify r.buf (Buffer.store r.pos [c])
  some { r with line := { r.line with heap } }

/-- The loop over the bytes that `fgetc` gives. -/
def fill (delim : ℤ) : List UInt8 → Reading → Option (Stop × Reading × List UInt8)
  | [], r => some (.eof, r, [])
  | c :: stream, r => do
    let (grown, r) ← r.grow answers
    if grown then
      let r ← r.store c
      let r := { r with pos := r.pos + 1 }
      if (c.toNat : ℤ) = delim then some (.delimiter, r, stream) else fill delim stream r
    else some (.noMemory, r, stream)

/-- `getdelim`; `given` says that no argument is null. The answer is none if a byte is stored
outside of the block. -/
def getdelim (given : Bool) (delim : ℤ) (line : Line) (stream : List UInt8) : Option Return :=
  if given then
    match line.start answers with
    | .error line => some ⟨-1, some .ENOMEM, line, stream⟩
    | .ok r => do
      let (stop, r, stream) ← fill answers delim stream r
      if stop = .noMemory then some ⟨-1, some .ENOMEM, r.line, stream⟩
      else if r.pos = 0 ∧ stop = .eof then some ⟨-1, none, r.line, stream⟩
      else
        let r ← r.store 0
        some ⟨ssize r.pos, none, r.line, stream⟩
  else some ⟨-1, some .EINVAL, line, stream⟩

def getline (given : Bool) (line : Line) (stream : List UInt8) : Option Return :=
  getdelim answers given 10 line stream

/-- So many calls, one after the other, and what each of them leaves. -/
def getdelims (delim : ℤ) : ℕ → Return → Option (List Return)
  | 0, _ => some []
  | calls + 1, last => do
    let r ← getdelim answers true delim last.line last.stream
    let later ← getdelims delim calls r
    some (r :: later)

end Code

def Return.text (r : Return) : List UInt8 :=
  ((r.line.lineptr.bind r.line.heap.block).getD []).take r.ret.toNat

/-- `*lineptr` is a live block of exactly `*n` bytes. -/
def Line.Owns (line : Line) : Prop :=
  ∃ k block, line.lineptr = some k ∧ line.heap.block k = some block ∧ block.length = line.n ∧
    1 ≤ line.n

/-- What a caller may hand to `getdelim`. -/
def Line.Valid (line : Line) : Prop := line.lineptr = none ∨ line.n = 0 ∨ line.Owns

/-- The blocks that were there are as they were, except for the line's own. -/
structure Line.Leaves (before after : Line) : Prop where
  next_le : before.heap.next ≤ after.heap.next
  own : ∀ k, after.lineptr = some k → k < before.heap.next → before.lineptr = some k
  others : ∀ k < before.heap.next, before.lineptr ≠ some k →
    after.heap.block k = before.heap.block k

structure Keeps (answers : Allocations) (before after : Return) : Prop where
  leaves : before.line.Leaves after.line
  rest : after.stream <:+ before.stream
  /-- The line is not changed if there is no memory for its first block. -/
  owns : after.line.Owns ∨
    (before.line.lineptr = none ∨ before.line.n = 0) ∧ answers before.line.asked = none ∧
      after.line.lineptr = before.line.lineptr ∧ after.line.n = before.line.n

/-- The call takes the next piece of the stream. -/
structure Takes (d : UInt8) (before after : Return) : Prop where
  stream_eq : before.stream = after.text ++ after.stream
  only_last : d ∉ after.text.dropLast
  ends : after.text.getLast? = some d ∨ after.stream = []
  fails_iff : after.ret = -1 ↔ before.stream = []
  ret_eq : before.stream ≠ [] → after.ret = after.text.length
  terminated : before.stream ≠ [] → ∃ k rest, after.line.lineptr = some k ∧
    after.line.heap.block k = some (after.text ++ 0 :: rest)

/-- The pieces of the stream have lengths that a `ssize_t` can tell. -/
def Short (d : UInt8) (stream : List UInt8) : Prop :=
  ∀ piece, piece <:+: stream → d ∉ piece.dropLast → piece.length < 2 ^ 31

section Loop

variable {answers : Allocations} {d : UInt8}

theorem Line.Leaves.refl (line : Line) : line.Leaves line :=
  ⟨le_rfl, fun _ h _ => h, fun _ _ _ => rfl⟩

theorem Line.Leaves.trans {a b c : Line} (hab : a.Leaves b) (hbc : b.Leaves c) : a.Leaves c where
  next_le := hab.next_le.trans hbc.next_le
  own k hk hlt := hab.own k (hbc.own k hk (by have := hab.next_le; omega)) hlt
  others k hlt hne := by
    have hnext := hab.next_le
    have hown : b.lineptr ≠ some k := fun hb => hne (hab.own k hb hlt)
    rw [hbc.others k (by omega) hown, hab.others k hlt hne]

/-- The bytes of the line so far are at the start of its block, and there is room for one
more. -/
structure Reading.Holds (r : Reading) (got : List UInt8) : Prop where
  lineptr_eq : r.line.lineptr = some r.buf
  n_eq : r.line.n = r.bufsize
  pos_eq : r.pos = got.length
  pos_lt : r.pos < r.bufsize
  block : ∃ rest, r.line.heap.block r.buf = some (got ++ rest) ∧
    got.length + rest.length = r.bufsize

theorem Reading.Holds.owns {r : Reading} {got : List UInt8} (h : r.Holds got) : r.line.Owns := by
  obtain ⟨rest, hblock, hlength⟩ := h.block
  have hlt := h.pos_lt
  exact ⟨r.buf, got ++ rest, h.lineptr_eq, hblock, by rw [List.length_append, h.n_eq, hlength],
    by rw [h.n_eq]; omega⟩

theorem resize_of_le (contents : ℕ → UInt8) {size : ℕ} {old : Buffer} (h : old.length ≤ size) :
    resize contents size old = old ++ (Buffer.fresh contents size).drop old.length := by
  rw [resize, List.take_of_length_le h]

theorem Line.newBlock_spec {line : Line} {contents : ℕ → UInt8}
    (h : answers line.asked = some contents) :
    ∃ r, line.newBlock answers = .ok r ∧ r.Holds [] ∧ line.Leaves r.line := by
  rw [Line.newBlock, h]
  refine ⟨_, rfl, ⟨rfl, rfl, rfl, Nat.succ_pos 127, ?_⟩, ?_⟩
  · exact ⟨Buffer.fresh contents initialSize, Blocks.alloc_self .., by simp⟩
  · refine ⟨Nat.le_succ _, ?_, ?_⟩
    · intro k hk hlt
      obtain rfl := Option.some.inj hk
      exact absurd hlt (lt_irrefl _)
    · intro k hlt _
      exact Blocks.alloc_of_ne _ _ hlt.ne

/-- Before the loop there is a block, or no memory for the first one. -/
theorem Line.start_cases (answers : Allocations) {line : Line} (h : line.Valid) :
    (∃ r, line.start answers = .ok r ∧ r.Holds [] ∧ line.Leaves r.line) ∨
      line.start answers = .error { line with asked := line.asked + 1 } ∧
        (line.lineptr = none ∨ line.n = 0) ∧ answers line.asked = none := by
  have hnew (hstart : line.start answers = line.newBlock answers)
      (hfirst : line.lineptr = none ∨ line.n = 0) : (∃ r, line.start answers = .ok r ∧ r.Holds [] ∧
        line.Leaves r.line) ∨ line.start answers = .error { line with asked := line.asked + 1 } ∧
        (line.lineptr = none ∨ line.n = 0) ∧ answers line.asked = none := by
    rw [hstart]
    cases hanswer : answers line.asked with
    | none => exact .inr ⟨by rw [Line.newBlock, hanswer], hfirst, rfl⟩
    | some contents => exact .inl (Line.newBlock_spec hanswer)
  cases hptr : line.lineptr with
  | none =>
    rw [hptr] at hnew
    exact hnew (by rw [Line.start, hptr]) (.inl rfl)
  | some buf =>
    by_cases hn : line.n = 0
    · rw [hptr] at hnew
      exact hnew (by rw [Line.start, hptr]; exact if_pos hn) (.inr hn)
    · rcases h with hnone | hzero | ⟨k, block, hk, hblock, hlength, hpos⟩
      · exact absurd (hnone.symm.trans hptr) (by simp)
      · exact absurd hzero hn
      · obtain rfl := Option.some.inj (hk.symm.trans hptr)
        refine .inl ⟨⟨line, k, line.n, 0⟩, ?_, ⟨hptr, rfl, rfl, hpos, block, hblock, ?_⟩,
          .refl line⟩
        · rw [Line.start, hptr]
          exact if_neg hn
        · rw [List.length_nil, Nat.zero_add, hlength]

theorem Reading.grow_cases (answers : Allocations) {r : Reading} {got : List UInt8}
    (h : r.Holds got) (hshort : got.length + 1 < 2 ^ 31) :
    (∃ r', r.grow answers = some (true, r') ∧ r'.Holds got ∧ r'.pos + 1 < r'.bufsize ∧
        r.line.Leaves r'.line) ∨
      ∃ r', r.grow answers = some (false, r') ∧ r'.line.Owns ∧ answers r.line.asked = none ∧
        r.line.Leaves r'.line := by
  have hpos := h.pos_eq
  have hroom := h.pos_lt
  by_cases hfull : r.bufsize ≤ r.pos + 1
  · have hsize : r.bufsize * 2 % 2 ^ 32 = r.bufsize * 2 := Nat.mod_eq_of_lt (by omega)
    cases hanswer : answers r.line.asked with
    | none =>
      refine .inr ⟨_, by rw [Reading.grow, if_pos hfull, hanswer], ?_, rfl, ?_⟩
      · exact h.owns
      · exact ⟨le_rfl, fun _ hk _ => hk, fun _ _ _ => rfl⟩
    | some contents =>
      obtain ⟨rest, hblock, hlength⟩ := h.block
      have hresize : resize contents (r.bufsize * 2) (got ++ rest) =
          got ++ (rest ++ (Buffer.fresh contents (r.bufsize * 2)).drop r.bufsize) := by
        rw [resize_of_le _ (by rw [List.length_append]; omega), List.length_append, hlength,
          List.append_assoc]
      let heap := (r.line.heap.alloc (resize contents (r.bufsize * 2) (got ++ rest))).erase r.buf
      let buf := r.line.heap.next
      refine .inl ⟨⟨⟨heap, r.line.asked + 1, some buf, r.bufsize * 2⟩, buf, r.bufsize * 2, r.pos⟩,
        ?_, ⟨rfl, rfl, hpos, ?_, ?_⟩, ?_, ?_, ?_, ?_⟩
      · rw [Reading.grow, if_pos hfull, hanswer]
        simp only [hsize, Blocks.realloc_eq hblock, Option.bind_eq_bind, Option.bind_some]
        rfl
      · show r.pos < r.bufsize * 2
        omega
      · refine ⟨_, (Blocks.realloc_self hblock _).trans (congrArg some hresize), ?_⟩
        rw [List.length_append, List.length_drop, Buffer.length_fresh]
        show got.length + (rest.length + (r.bufsize * 2 - r.bufsize)) = r.bufsize * 2
        omega
      · show r.pos + 1 < r.bufsize * 2
        omega
      · exact Nat.le_succ _
      · intro k hk hlt
        obtain rfl := Option.some.inj hk
        exact absurd hlt (lt_irrefl _)
      · intro k hlt hne
        exact Blocks.realloc_of_ne _ _ hlt fun hk => hne (hk ▸ h.lineptr_eq)
  · exact .inl ⟨r, by rw [Reading.grow, if_neg hfull], h, by omega, .refl _⟩

theorem Reading.store_spec {r : Reading} {got : List UInt8} (h : r.Holds got) (c : UInt8) :
    ∃ heap rest, r.store c = some { r with line := { r.line with heap } } ∧
      heap.block r.buf = some (got ++ c :: rest) ∧ got.length + 1 + rest.length = r.bufsize ∧
      r.line.Leaves { r.line with heap } := by
  obtain ⟨rest, hblock, hlength⟩ := h.block
  have hroom := h.pos_lt
  have hpos := h.pos_eq
  have hstore : Buffer.store r.pos [c] (got ++ rest) = some (got ++ c :: rest.drop 1) := by
    have hbehind := Buffer.store_behind got [c] rest hpos (by rw [List.length_singleton]; omega)
    rw [hbehind, List.append_assoc]
    rfl
  refine ⟨r.line.heap.put r.buf (got ++ c :: rest.drop 1), rest.drop 1, ?_, ?_, ?_, ?_, ?_, ?_⟩
  · rw [Reading.store, Blocks.modify_eq hblock hstore]
    rfl
  · exact Blocks.put_self hblock _
  · rw [List.length_drop]
    omega
  · exact le_rfl
  · exact fun _ hk _ => hk
  · intro k _ hne
    exact Blocks.put_of_ne _ _ fun hk => hne (hk ▸ h.lineptr_eq)

/-- How the loop may end, with the bytes `got` in the block before it. -/
inductive Fills (d : UInt8) (answers : Allocations) (r : Reading) (got stream : List UInt8) :
    Stop × Reading × List UInt8 → Prop
  | noMemory {r' stream'} : r'.line.Owns → (∃ i, answers i = none) → r.line.Leaves r'.line →
      stream' <:+ stream → Fills d answers r got stream (.noMemory, r', stream')
  | delimiter {r' text stream'} : stream = text ++ d :: stream' → d ∉ text →
      r'.Holds (got ++ (text ++ [d])) → r.line.Leaves r'.line →
      Fills d answers r got stream (.delimiter, r', stream')
  | eof {r'} : d ∉ stream → r'.Holds (got ++ stream) → r.line.Leaves r'.line →
      Fills d answers r got stream (.eof, r', [])

theorem fill_round (answers : Allocations) {r : Reading} {got : List UInt8} (c : UInt8)
    (stream : List UInt8) (h : r.Holds got) (hroom : got.length + 1 < 2 ^ 31) :
    (∃ r', fill answers d.toNat (c :: stream) r =
        (if c = d then some (.delimiter, r', stream) else fill answers d.toNat stream r') ∧
      r'.Holds (got ++ [c]) ∧ r.line.Leaves r'.line) ∨
    ∃ r', fill answers d.toNat (c :: stream) r = some (.noMemory, r', stream) ∧
      r'.line.Owns ∧ (∃ i, answers i = none) ∧ r.line.Leaves r'.line := by
  rcases Reading.grow_cases answers h hroom with
    ⟨r₁, hgrow, hholds, hlt, hleaves⟩ | ⟨r₁, hgrow, howns, hanswer, hleaves⟩
  · left
    obtain ⟨heap, rest, hstore, hblock, hlength, hleaves'⟩ := Reading.store_spec hholds c
    have hdelim : ((c.toNat : ℤ) = d.toNat) = (c = d) :=
      propext (Nat.cast_inj.trans UInt8.toNat_inj)
    refine ⟨⟨{ r₁.line with heap }, r₁.buf, r₁.bufsize, r₁.pos + 1⟩, ?_, ?_,
      hleaves.trans hleaves'⟩
    · simp only [fill, hgrow, hstore, hdelim, Option.bind_eq_bind, Option.bind_some, if_true]
    · refine ⟨hholds.lineptr_eq, hholds.n_eq, ?_, hlt, rest, ?_, ?_⟩
      · rw [List.length_append, List.length_singleton, ← hholds.pos_eq]
      · rw [List.append_assoc]
        exact hblock
      · rw [List.length_append, List.length_singleton]
        exact hlength
  · right
    refine ⟨r₁, ?_, howns, ⟨_, hanswer⟩, hleaves⟩
    simp only [fill, hgrow, Option.bind_eq_bind, Option.bind_some, Bool.false_eq_true, if_false]

theorem fill_spec (answers : Allocations) {stream : List UInt8} :
    ∀ {r : Reading} {got : List UInt8}, r.Holds got →
      (∀ piece, piece <+: stream → d ∉ piece.dropLast → got.length + piece.length < 2 ^ 31) →
      ∃ result, fill answers d.toNat stream r = some result ∧
        Fills d answers r got stream result := by
  induction stream with
  | nil =>
    intro r got h _
    exact ⟨_, rfl, .eof (by simp) (by rwa [List.append_nil]) (.refl _)⟩
  | cons c stream ih =>
    intro r got h hshort
    have hroom : got.length + 1 < 2 ^ 31 := hshort [c] ⟨stream, rfl⟩ (by simp)
    rcases fill_round (d := d) answers c stream h hroom with
      ⟨r', hround, hnext, hthrough⟩ | ⟨r', hround, howns, hnone, hthrough⟩
    · by_cases hc : c = d
      · subst hc
        have hstream : c :: stream = [] ++ c :: stream := rfl
        exact ⟨_, hround.trans (if_pos rfl), .delimiter hstream (by simp) hnext hthrough⟩
      · have hcons {text : List UInt8} (hd : d ∉ text) : d ∉ c :: text :=
          fun hmem => (List.mem_cons.mp hmem).elim (fun heq => hc heq.symm) hd
        rw [hround, if_neg hc]
        obtain ⟨result, hresult, hfills⟩ := ih hnext (by
          intro piece hpiece hd
          have hmore := hshort (c :: piece) (List.cons_prefix_cons.mpr ⟨rfl, hpiece⟩) (by
            cases piece with
            | nil => simp
            | cons e piece =>
              rw [List.dropLast_cons_cons]
              exact hcons hd)
          rw [List.length_append, List.length_singleton]
          rw [List.length_cons] at hmore
          omega)
        refine ⟨result, hresult, ?_⟩
        cases hfills with
        | noMemory howns hanswer hleft hsuffix =>
          exact .noMemory howns hanswer (hthrough.trans hleft) (hsuffix.trans (List.suffix_cons ..))
        | @delimiter r' text stream' hstream hd hafter hleft =>
          have hlonger : c :: stream = (c :: text) ++ d :: stream' := by
            rw [hstream]
            rfl
          refine .delimiter hlonger (hcons hd) ?_ (hthrough.trans hleft)
          rwa [List.append_assoc] at hafter
        | eof hd hafter hleft =>
          refine .eof (hcons hd) ?_ (hthrough.trans hleft)
          rwa [List.append_assoc] at hafter
    · exact ⟨_, hround, .noMemory howns hnone hthrough (List.suffix_cons ..)⟩

end Loop

section Calls

variable {answers : Allocations} {d : UInt8}

theorem ssize_of_lt {n : ℕ} (h : n < 2 ^ 31) : ssize n = n := by
  have hnat : (BitVec.ofNat 32 n).toNat = n := by
    rw [BitVec.toNat_ofNat, Nat.mod_eq_of_lt (by omega)]
  rw [ssize, BitVec.toInt_eq_toNat_of_lt (by rw [hnat]; omega), hnat]

theorem Reading.close_spec (answers : Allocations) {before : Return} {r : Reading}
    {text stream : List UInt8}
    (h : r.Holds text) (hleaves : before.line.Leaves r.line)
    (hpiece : before.stream = text ++ stream) (hne : before.stream ≠ [])
    (hlast : d ∉ text.dropLast) (hends : text.getLast? = some d ∨ stream = [])
    (hshort : text.length < 2 ^ 31) :
    ∃ after : Return, (do
        let r ← r.store 0
        some (⟨ssize r.pos, none, r.line, stream⟩ : Return)) = some after ∧
      Keeps answers before after ∧ Takes d before after := by
  obtain ⟨heap, rest, hstore, hblock, hlength, hclose⟩ := Reading.store_spec h 0
  have hret : ssize r.pos = text.length := by rw [h.pos_eq, ssize_of_lt hshort]
  let after : Return := ⟨ssize r.pos, none, { r.line with heap }, stream⟩
  have htext : after.text = text := by
    have hptr : (some r.buf).bind heap.block = some (text ++ 0 :: rest) := hblock
    rw [Return.text, h.lineptr_eq, hptr, Option.getD_some]
    show (text ++ 0 :: rest).take (ssize r.pos).toNat = text
    rw [hret, Int.toNat_natCast, List.take_left]
  have howns : after.line.Owns := by
    refine ⟨r.buf, _, h.lineptr_eq, hblock, ?_, ?_⟩
    · rw [List.length_append, List.length_cons]
      exact (by omega : text.length + (rest.length + 1) = r.bufsize).trans h.n_eq.symm
    · exact h.n_eq ▸ (by omega : 1 ≤ r.bufsize)
  refine ⟨after, by rw [hstore]; rfl, ?_, ?_⟩
  · exact ⟨hleaves.trans hclose, ⟨text, hpiece.symm⟩, .inl howns⟩
  · refine ⟨?_, ?_, ?_, ?_, fun _ => ?_, fun _ => ?_⟩
    · rw [htext, hpiece]
    · rwa [htext]
    · rwa [htext]
    · exact ⟨fun h => by have := hret.symm.trans h; omega, fun h => absurd h hne⟩
    · rw [htext]
      exact hret
    · rw [htext]
      exact ⟨r.buf, rest, h.lineptr_eq, hblock⟩

theorem getdelim_of_fill {line : Line} {stream stream' : List UInt8} {delim : ℤ} {r r' : Reading}
    {stop : Stop} (hstart : line.start answers = .ok r)
    (hfill : fill answers delim stream r = some (stop, r', stream')) :
    getdelim answers true delim line stream =
      if stop = .noMemory then some ⟨-1, some .ENOMEM, r'.line, stream'⟩
      else if r'.pos = 0 ∧ stop = .eof then some ⟨-1, none, r'.line, stream'⟩
      else (do
        let r ← r'.store 0
        some ⟨ssize r.pos, none, r.line, stream'⟩) := by
  rw [getdelim, if_pos rfl, hstart]
  simp only [hfill, Option.bind_eq_bind, Option.bind_some]

theorem takes_nothing {before after : Return} (h : before.stream = []) (hrest : after.stream = [])
    (hret : after.ret = -1) : Takes d before after := by
  have htext : after.text = [] := by
    rw [Return.text, hret]
    rfl
  refine ⟨?_, ?_, .inr hrest, ⟨fun _ => h, fun _ => hret⟩, fun hne => absurd h hne,
    fun hne => absurd h hne⟩
  · rw [htext, h, hrest]
    rfl
  · rw [htext]
    simp

theorem getdelim_spec (answers : Allocations) {before : Return} (hvalid : before.line.Valid)
    (hshort : Short d before.stream) :
    ∃ after, getdelim answers true d.toNat before.line before.stream = some after ∧
      Keeps answers before after ∧ ((∀ i, (answers i).isSome) → Takes d before after) := by
  rcases Line.start_cases answers hvalid with
    ⟨r, hstart, hholds, hleaves⟩ | ⟨hstart, hfirst, hanswer⟩
  · obtain ⟨⟨stop, r', stream'⟩, hfill, hfills⟩ := fill_spec answers (d := d) hholds
      (by
        intro piece hpiece hd
        rw [List.length_nil, Nat.zero_add]
        exact hshort piece hpiece.isInfix hd)
    rw [getdelim_of_fill hstart hfill]
    cases hfills with
    | noMemory howns hnone hleft hsuffix =>
      refine ⟨_, if_pos rfl, ⟨hleaves.trans hleft, hsuffix, .inl howns⟩, ?_⟩
      intro hall
      obtain ⟨i, hi⟩ := hnone
      exact absurd (hall i) (by rw [hi]; simp)
    | @delimiter _ text _ hstream hd hafter hleft =>
      rw [List.nil_append] at hafter
      have hpiece : before.stream = (text ++ [d]) ++ stream' := by
        rw [hstream, List.append_assoc]
        rfl
      have hlast : d ∉ (text ++ [d]).dropLast := by rwa [List.dropLast_concat]
      obtain ⟨after, hclose, hkeeps, htakes⟩ := Reading.close_spec answers hafter
        (hleaves.trans hleft) hpiece (by rw [hstream]; simp) hlast (.inl List.getLast?_concat)
        (hshort _ ⟨[], stream', by rw [List.nil_append, hpiece]⟩ hlast)
      refine ⟨after, ?_, hkeeps, fun _ => htakes⟩
      rw [if_neg (by simp), if_neg (by simp)]
      exact hclose
    | eof hd hafter hleft =>
      rw [List.nil_append] at hafter
      by_cases hnil : before.stream = []
      · have hzero : r'.pos = 0 := by rw [hafter.pos_eq, hnil, List.length_nil]
        exact ⟨_, (if_neg (by simp)).trans (if_pos ⟨hzero, rfl⟩),
          ⟨hleaves.trans hleft, List.nil_suffix, .inl hafter.owns⟩,
          fun _ => takes_nothing hnil rfl rfl⟩
      · have hlast : d ∉ before.stream.dropLast := fun hmem => hd (List.dropLast_subset _ hmem)
        obtain ⟨after, hclose, hkeeps, htakes⟩ := Reading.close_spec answers hafter
          (hleaves.trans hleft) (List.append_nil _).symm hnil hlast (.inr rfl)
          (hshort _ List.infix_rfl hlast)
        have hpos : r'.pos ≠ 0 := by
          rw [hafter.pos_eq]
          exact fun h => hnil (List.eq_nil_of_length_eq_zero h)
        refine ⟨after, ?_, hkeeps, fun _ => htakes⟩
        rw [if_neg (by simp), if_neg fun h => hpos h.1]
        exact hclose
  · let line := { before.line with asked := before.line.asked + 1 }
    have hleaves : before.line.Leaves line := ⟨le_rfl, fun _ hk _ => hk, fun _ _ _ => rfl⟩
    refine ⟨⟨-1, some .ENOMEM, line, before.stream⟩, ?_,
      ⟨hleaves, List.suffix_rfl, .inr ⟨hfirst, hanswer, rfl, rfl⟩⟩, ?_⟩
    · rw [getdelim, if_pos rfl, hstart]
    · intro hall
      exact absurd (hall before.line.asked) (by rw [hanswer]; simp)

theorem Keeps.valid {before after : Return} (h : Keeps answers before after) :
    after.line.Valid := by
  rcases h.owns with howns | ⟨hnone | hzero, -, hptr, hn⟩
  · exact .inr (.inr howns)
  · exact .inl (hptr.trans hnone)
  · exact .inr (.inl (hn.trans hzero))

theorem Short.of_suffix {stream rest : List UInt8} (h : Short d stream) (hrest : rest <:+ stream) :
    Short d rest :=
  fun piece hpiece => h piece (hpiece.trans hrest.isInfix)

theorem Takes.length_lt {before after : Return} (h : Takes d before after)
    (hne : before.stream ≠ []) : after.stream.length < before.stream.length := by
  have htext : after.text ≠ [] := by
    intro htext
    have hrest : before.stream = after.stream := by rw [h.stream_eq, htext, List.nil_append]
    rcases h.ends with hlast | hnil
    · rw [htext] at hlast
      exact absurd hlast (by simp)
    · exact hne (hrest.trans hnil)
  have hpos := List.length_pos_iff.mpr htext
  rw [h.stream_eq, List.length_append]
  omega

/-- Calls one after the other, by induction on how many there are still. -/
theorem getdelims_spec (answers : Allocations) {calls : ℕ} :
    ∀ {before : Return}, before.line.Valid → Short d before.stream →
    ∃ run, getdelims answers d.toNat calls before = some run ∧ run.length = calls ∧
      (before :: run).IsChain (Keeps answers) ∧
      ((∀ i, (answers i).isSome) → (before :: run).IsChain (Takes d) ∧
        run.flatMap Return.text <+: before.stream ∧
        (before.stream.length ≤ calls → run.flatMap Return.text = before.stream)) := by
  induction calls with
  | zero =>
    intro before _ _
    refine ⟨[], rfl, rfl, .singleton _, fun _ => ⟨.singleton _, List.nil_prefix, ?_⟩⟩
    intro hle
    exact (List.eq_nil_of_length_eq_zero (by omega)).symm
  | succ calls ih =>
    intro before hvalid hshort
    obtain ⟨after, hcall, hkeeps, htakes⟩ := getdelim_spec answers hvalid hshort
    obtain ⟨run, hrun, hlength, hkeep, htake⟩ := ih hkeeps.valid (hshort.of_suffix hkeeps.rest)
    refine ⟨after :: run, ?_, by rw [List.length_cons, hlength], hkeep.cons_cons hkeeps, ?_⟩
    · rw [getdelims, hcall, Option.bind_eq_bind, Option.bind_some, hrun]
      rfl
    · intro hall
      obtain ⟨hchain, hstart, hwhole⟩ := htake hall
      have hone := htakes hall
      refine ⟨hchain.cons_cons hone, ?_, ?_⟩
      · rw [List.flatMap_cons, hone.stream_eq]
        exact (List.prefix_append_right_inj _).mpr hstart
      · intro hle
        rw [List.flatMap_cons, hwhole ?_, ← hone.stream_eq]
        by_cases hne : before.stream = []
        · have hnil := hkeeps.rest
          rw [hne, List.suffix_nil] at hnil
          rw [hnil]
          exact Nat.zero_le _
        · have hlt := hone.length_lt hne
          omega

end Calls

/-- Whatever memory there is, every call leaves the line with a block of its size or as it was,
and no byte is stored outside of it; with memory enough the calls take the stream apart, each a
piece that ends with the delimiter or at the end of the stream, until nothing is left. -/
theorem getdelim_partitions (d : UInt8) (answers : Allocations) {line : Line}
    {stream : List UInt8} (hvalid : line.Valid) (hshort : Short d stream) (calls : ℕ) :
    ∃ run, getdelims answers d.toNat calls ⟨0, none, line, stream⟩ = some run ∧
      run.length = calls ∧
      ((⟨0, none, line, stream⟩ : Return) :: run).IsChain (Keeps answers) ∧
      ((∀ i, (answers i).isSome) →
        ((⟨0, none, line, stream⟩ : Return) :: run).IsChain (Takes d) ∧
        run.flatMap Return.text <+: stream ∧
        (stream.length ≤ calls → run.flatMap Return.text = stream)) :=
  getdelims_spec answers hvalid hshort

/-- The first of two lines, from a block of one byte. -/
example : (getline (fun _ => some fun _ => 7) true ⟨Blocks.empty.alloc [7], 0, some 0, 1⟩
    [97, 98, 10, 99, 10]).map (fun r => (r.ret, r.line.n, r.text)) =
      some (3, 4, [97, 98, 10]) := by
  decide

/-- Two lines and the start of a third, from a null pointer. -/
theorem getdelim_partitions_sample : ∃ run,
    getdelims (fun _ => some fun _ => 7) (10 : UInt8).toNat 5
      ⟨0, none, ⟨.empty, 0, none, 0⟩, [97, 10, 10, 0, 98]⟩ = some run ∧
      run.flatMap Return.text = [97, 10, 10, 0, 98] := by
  have hvalid : (⟨.empty, 0, none, 0⟩ : Line).Valid := .inl rfl
  have hshort : Short 10 [97, 10, 10, 0, 98] := by
    intro piece hpiece _
    have hle := hpiece.length_le
    simp only [List.length_cons, List.length_nil] at hle
    omega
  obtain ⟨run, hrun, -, -, hall⟩ :=
    getdelim_partitions 10 (fun _ => some fun _ => 7) hvalid hshort 5
  exact ⟨run, hrun, (hall fun _ => rfl).2.2 (by decide)⟩

end Solcompat.Stdio
