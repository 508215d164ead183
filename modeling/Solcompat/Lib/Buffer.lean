import Solcompat.Lib.CString

/-!
# Buffers with bounds

A buffer is a list of bytes of the length that it was made with. A store that would leave it
has no result.
-/

namespace Solcompat.Lib

abbrev Buffer := List UInt8

/-- The answers of `malloc` and `realloc`: none if there is no memory, else what the new bytes
hold. -/
abbrev Allocations := ℕ → Option (ℕ → UInt8)

namespace Buffer

def fresh (contents : ℕ → UInt8) (size : ℕ) : Buffer := (List.range size).map contents

/-- `memcpy(buffer + i, bs, n)` -/
def store (i : ℕ) (bs : List UInt8) (buffer : Buffer) : Option Buffer :=
  if i + bs.length ≤ buffer.length then
    some (buffer.take i ++ bs ++ buffer.drop (i + bs.length))
  else none

def text (buffer : Buffer) : List UInt8 := buffer.takeWhile (· ≠ 0)

@[simp] theorem length_fresh (contents : ℕ → UInt8) (size : ℕ) :
    (fresh contents size).length = size := by
  simp [fresh]

theorem store_behind (front bs rest : List UInt8) {i : ℕ} (hi : i = front.length)
    (h : bs.length ≤ rest.length) :
    store i bs (front ++ rest) = some (front ++ bs ++ rest.drop bs.length) := by
  subst hi
  rw [store, if_pos (by rw [List.length_append]; omega), List.take_left, List.drop_append,
    List.drop_of_length_le (by omega), List.nil_append, Nat.add_sub_cancel_left]

theorem store_all {bs buffer : List UInt8} (h : bs.length = buffer.length) :
    store 0 bs buffer = some bs := by
  rw [store, if_pos (by omega), List.take_zero, List.nil_append, List.drop_of_length_le (by omega),
    List.append_nil]

theorem store_pieces {a b c buffer : List UInt8}
    (h : a.length + b.length + c.length ≤ buffer.length) :
    (do
      let buffer ← store 0 a buffer
      let buffer ← store a.length b buffer
      store (a.length + b.length) c buffer) =
      some (a ++ b ++ c ++ buffer.drop (a.length + b.length + c.length)) := by
  have hfirst : store 0 a buffer = some ([] ++ a ++ buffer.drop a.length) :=
    store_behind [] a buffer rfl (by omega)
  have hsecond := store_behind a b (buffer.drop a.length) rfl
    (by rw [List.length_drop]; omega)
  have hthird := store_behind (a ++ b) c ((buffer.drop a.length).drop b.length)
    (List.length_append).symm (by rw [List.length_drop, List.length_drop]; omega)
  simp only [List.drop_drop, List.nil_append] at hfirst hsecond hthird
  simp only [Option.bind_eq_bind, Option.bind_some, hfirst, hsecond, hthird]

theorem text_append {bs : List UInt8} (h : ∀ b ∈ bs, b ≠ 0) (rest : List UInt8) :
    text (bs ++ 0 :: rest) = bs := by
  rw [text, List.takeWhile_append_of_pos (by simpa using h)]
  simp

end Buffer

end Solcompat.Lib
