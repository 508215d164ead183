import Solcompat.Wchar.Model

/-!
# Multibyte strings through UTF-16 and back

One call gives one unit. A character above `U+FFFF` takes two calls in either direction;
between them half of the pair is in the state, and after them the state is as it was.
-/

namespace Solcompat.Wchar

def highUnit (c : Char) : UInt16 := .ofNat (0xD800 + (c.toNat - 0x10000) / 0x400)

def lowUnit (c : Char) : UInt16 := .ofNat (0xDC00 + (c.toNat - 0x10000) % 0x400)

def utf16 (c : Char) : List UInt16 :=
  if c.toNat < 0x10000 then [.ofNat c.toNat] else [highUnit c, lowUnit c]

section Units

theorem or_eq_add {x : ℕ} (k a : ℕ) (hx : x < 2 ^ k) : 2 ^ k * a ||| x = 2 ^ k * a + x :=
  (Nat.two_pow_add_eq_or_of_lt hx a).symm

theorem pending_toNat (raw : UInt8 × UInt8) :
    (pending raw).toNat = 256 * raw.2.toNat + raw.1.toNat := by
  have hlow := raw.1.toNat_lt
  have hhigh := raw.2.toNat_lt
  have hor := or_eq_add (x := raw.1.toNat) 8 raw.2.toNat hlow
  have hshift : raw.2.toNat <<< 8 % 2 ^ 16 = 2 ^ 8 * raw.2.toNat := by
    rw [Nat.shiftLeft_eq]
    omega
  rw [pending, UInt16.toNat_or, UInt16.toNat_shiftLeft, Nat.or_comm]
  simp only [UInt8.toNat_toUInt16, UInt16.reduceToNat, Nat.reduceMod, hshift, hor]
  rfl

theorem stash_toNat (unit : UInt16) :
    (stash unit).1.toNat = unit.toNat % 256 ∧ (stash unit).2.toNat = unit.toNat / 256 := by
  have hlt := unit.toNat_lt
  have hlow := Nat.and_two_pow_sub_one_eq_mod unit.toNat 8
  have hhigh := Nat.and_two_pow_sub_one_eq_mod (unit.toNat / 2 ^ 8) 8
  simp only [stash, UInt16.toNat_toUInt8, UInt16.toNat_and, UInt16.toNat_shiftRight,
    UInt16.reduceToNat, Nat.reduceMod, Nat.shiftRight_eq_div_pow]
  constructor
  · exact (congrArg (· % 2 ^ 8) hlow).trans (Nat.mod_mod _ _)
  · refine (congrArg (· % 2 ^ 8) hhigh).trans ?_
    omega

theorem pending_stash (unit : UInt16) : pending (stash unit) = unit := by
  obtain ⟨hlow, hhigh⟩ := stash_toNat unit
  apply UInt16.toNat_inj.mp
  rw [pending_toNat, hlow, hhigh]
  omega

theorem or_shiftRight {v : UInt32} (h : v.toNat < 2 ^ 20) :
    ((0xD800 : UInt32) ||| (v >>> 10)).toNat = 0xD800 + v.toNat / 0x400 := by
  have hor := or_eq_add (x := v.toNat / 2 ^ 10) 10 54 (by omega)
  rw [UInt32.toNat_or, UInt32.toNat_shiftRight]
  simpa [Nat.shiftRight_eq_div_pow] using hor

theorem or_and_mask (v : UInt32) :
    ((0xDC00 : UInt32) ||| (v &&& 0x3FF)).toNat = 0xDC00 + v.toNat % 0x400 := by
  have hor := or_eq_add (x := v.toNat % 2 ^ 10) 10 55 (by omega)
  rw [← Nat.and_two_pow_sub_one_eq_mod] at hor
  rw [UInt32.toNat_or, UInt32.toNat_and]
  simpa [Nat.and_two_pow_sub_one_eq_mod v.toNat 10] using hor

variable {c : Char}

theorem toNat_lt (c : Char) : c.toNat < 0x110000 := by
  rcases c.valid with h | h
  · exact lt_trans h (by decide)
  · exact h.2

theorem not_surrogate (c : Char) : c.toNat < 0xD800 ∨ 0xDFFF < c.toNat := by
  rcases c.valid with h | h
  · exact .inl h
  · exact .inr h.1

theorem highUnit_toNat (c : Char) : (highUnit c).toNat = 0xD800 + (c.toNat - 0x10000) / 0x400 := by
  have hlt := toNat_lt c
  rw [highUnit, UInt16.toNat_ofNat']
  omega

theorem lowUnit_toNat (c : Char) : (lowUnit c).toNat = 0xDC00 + (c.toNat - 0x10000) % 0x400 := by
  have hlt := toNat_lt c
  rw [lowUnit, UInt16.toNat_ofNat']
  omega

theorem isHigh_iff (unit : UInt16) :
    isHigh unit = true ↔ 0xD800 ≤ unit.toNat ∧ unit.toNat ≤ 0xDBFF := by
  simp [isHigh, UInt16.le_iff_toNat_le]

theorem isLow_iff (unit : UInt16) :
    isLow unit = true ↔ 0xDC00 ≤ unit.toNat ∧ unit.toNat ≤ 0xDFFF := by
  simp [isLow, UInt16.le_iff_toNat_le]

theorem isHigh_highUnit (c : Char) : isHigh (highUnit c) = true := by
  have hlt := toNat_lt c
  rw [isHigh_iff, highUnit_toNat]
  omega

theorem isLow_lowUnit (c : Char) : isLow (lowUnit c) = true := by
  rw [isLow_iff, lowUnit_toNat]
  omega

theorem isHigh_of_isLow {unit : UInt16} (h : isLow unit = true) : isHigh unit = false := by
  rw [isLow_iff] at h
  rw [Bool.eq_false_iff, Ne, isHigh_iff]
  omega

theorem not_surrogate_unit (hc : c.toNat < 0x10000) :
    isHigh (.ofNat c.toNat) = false ∧ isLow (.ofNat c.toNat) = false ∧
      (UInt16.ofNat c.toNat).toUInt32 = c.val := by
  have hunit : (UInt16.ofNat c.toNat).toNat = c.toNat := UInt16.toNat_ofNat_of_lt' hc
  have hsurrogate := not_surrogate c
  refine ⟨?_, ?_, ?_⟩
  · rw [Bool.eq_false_iff, Ne, isHigh_iff, hunit]
    omega
  · rw [Bool.eq_false_iff, Ne, isLow_iff, hunit]
    omega
  · apply UInt32.toNat_inj.mp
    rw [UInt16.toNat_toUInt32, hunit]
    rfl

theorem codepoint_toNat {high low : UInt16} (hhigh : isHigh high = true) (hlow : isLow low = true) :
    ((0x10000 : UInt32) + ((high - 0xD800).toUInt32 <<< 10) + (low - 0xDC00).toUInt32).toNat =
      0x10000 + (high.toNat - 0xD800) * 0x400 + (low.toNat - 0xDC00) := by
  rw [isHigh_iff] at hhigh
  rw [isLow_iff] at hlow
  have hhigh' : (high - 0xD800).toNat = high.toNat - 0xD800 :=
    UInt16.toNat_sub_of_le _ _ (UInt16.le_iff_toNat_le.mpr hhigh.1)
  have hlow' : (low - 0xDC00).toNat = low.toNat - 0xDC00 :=
    UInt16.toNat_sub_of_le _ _ (UInt16.le_iff_toNat_le.mpr hlow.1)
  rw [UInt32.toNat_add, UInt32.toNat_add, UInt32.toNat_shiftLeft, UInt16.toNat_toUInt32,
    UInt16.toNat_toUInt32, hhigh', hlow', Nat.shiftLeft_eq]
  simp only [UInt32.reduceToNat, Nat.reduceMod, Nat.reducePow]
  omega

theorem codepoint_eq (hc : 0x10000 ≤ c.toNat) :
    (0x10000 : UInt32) + ((highUnit c - 0xD800).toUInt32 <<< 10) +
      (lowUnit c - 0xDC00).toUInt32 = c.val := by
  apply UInt32.toNat_inj.mp
  rw [codepoint_toNat (isHigh_highUnit c) (isLow_lowUnit c), highUnit_toNat, lowUnit_toNat]
  change _ = c.toNat
  omega

end Units

/-- `mbrtowc` and `wcrtomb` are inverse on complete characters, and leave the initial state
after one. -/
structure Libc.Inverse {σ : Type} (L : Libc σ) : Prop where
  state : ∀ (c : Char) bs s, c.toNat ≠ 0 → L.wcrtomb c.val L.initial = (some bs, s) →
    s = L.initial
  decode : ∀ (c : Char) bs s rest, c.toNat ≠ 0 → L.wcrtomb c.val L.initial = (some bs, s) →
    L.mbrtowc (bs ++ rest) L.initial = (.bytes bs.length, c.val, L.initial)

section Strings

variable {σ : Type} (L : Libc σ)

def encode : σ → List Char → Option (List UInt8)
  | _, [] => some []
  | s, c :: cs =>
    match L.wcrtomb c.val s with
    | (none, _) => none
    | (some bs, s) => (encode s cs).map (bs ++ ·)

/-- `k` calls of `mbrtoc16`, each with what the calls before have left of the string: the
units, what is left then, and the state. -/
def feedBytes : ℕ → List UInt8 → MbState σ → Option (List UInt16 × List UInt8 × MbState σ)
  | 0, s, state => some ([], s, state)
  | k + 1, s, state =>
    match mbrtoc16 L true (some s) state with
    | (.bytes n, some unit, state) =>
      (feedBytes k (s.drop n) state).map fun out => (unit :: out.1, out.2)
    | (.continued, some unit, state) =>
      (feedBytes k s state).map fun out => (unit :: out.1, out.2)
    | _ => none

/-- One call of `c16rtomb` for each unit: the bytes written, and the state. -/
def feedUnits : List UInt16 → MbState σ → Option (List UInt8 × MbState σ)
  | [], state => some ([], state)
  | unit :: units, state =>
    match c16rtomb L false unit state with
    | (.bytes _, bs, state) => (feedUnits units state).map fun out => (bs ++ out.1, out.2)
    | _ => none

end Strings

section Characters

variable {σ : Type} {L : Libc σ} {c : Char} {bs rest : List UInt8}

theorem val_le_iff (c : Char) : c.val ≤ 0xFFFF ↔ c.toNat < 0x10000 := by
  rw [UInt32.le_iff_toNat_le]
  exact Nat.lt_succ_iff.symm

/-- A call with nothing pending, after `mbrtowc` has read a character. -/
theorem mbrtoc16_eq {s : List UInt8} {n : ℕ} {wc : UInt32}
    (h : L.mbrtowc s L.initial = (.bytes n, wc, L.initial)) :
    mbrtoc16 L true (some s) L.zeroed =
      if wc ≤ 0xFFFF then (.bytes n, some wc.toUInt16, L.zeroed)
      else
        (.bytes n, some ((0xD800 : UInt32) ||| ((wc - 0x10000) >>> 10)).toUInt16,
          ⟨L.initial, stash ((0xDC00 : UInt32) ||| ((wc - 0x10000) &&& 0x3FF)).toUInt16⟩) := by
  have hpending : pending (0, 0) = 0 := by decide
  simp [mbrtoc16, Libc.zeroed, hpending, h]

theorem mbrtoc16_bmp {s : List UInt8} {n : ℕ} (hc : c.toNat < 0x10000)
    (h : L.mbrtowc s L.initial = (.bytes n, c.val, L.initial)) :
    mbrtoc16 L true (some s) L.zeroed = (.bytes n, some (.ofNat c.toNat), L.zeroed) := by
  rw [mbrtoc16_eq h, if_pos ((val_le_iff c).mpr hc)]
  rfl

theorem mbrtoc16_high {s : List UInt8} {n : ℕ} (hc : 0x10000 ≤ c.toNat)
    (h : L.mbrtowc s L.initial = (.bytes n, c.val, L.initial)) :
    mbrtoc16 L true (some s) L.zeroed =
      (.bytes n, some (highUnit c), ⟨L.initial, stash (lowUnit c)⟩) := by
  have hlt := toNat_lt c
  have hv : (c.val - 0x10000).toNat = c.toNat - 0x10000 :=
    UInt32.toNat_sub_of_le _ _ (UInt32.le_iff_toNat_le.mpr hc)
  have hhigh : ((0xD800 : UInt32) ||| ((c.val - 0x10000) >>> 10)).toUInt16 = highUnit c := by
    apply UInt16.toNat_inj.mp
    rw [UInt32.toNat_toUInt16, or_shiftRight (by omega), hv, highUnit_toNat]
    omega
  have hlow : ((0xDC00 : UInt32) ||| ((c.val - 0x10000) &&& 0x3FF)).toUInt16 = lowUnit c := by
    apply UInt16.toNat_inj.mp
    rw [UInt32.toNat_toUInt16, or_and_mask, hv, lowUnit_toNat]
    omega
  rw [mbrtoc16_eq h, if_neg ((val_le_iff c).not.mpr (by omega)), hhigh, hlow]

theorem mbrtoc16_low (s : List UInt8) (libc : σ) (c : Char) :
    mbrtoc16 L true (some s) ⟨libc, stash (lowUnit c)⟩ =
      (.continued, some (lowUnit c), ⟨libc, 0, 0⟩) := by
  have hne : lowUnit c ≠ 0 := by
    intro h
    have htoNat := lowUnit_toNat c
    rw [h] at htoNat
    simp at htoNat
    omega
  rw [mbrtoc16, pending_stash, if_pos hne, if_pos rfl]

theorem feedBytes_char (h : L.mbrtowc (bs ++ rest) L.initial = (.bytes bs.length, c.val, L.initial))
    (k : ℕ) :
    feedBytes L ((utf16 c).length + k) (bs ++ rest) L.zeroed =
      (feedBytes L k rest L.zeroed).map fun out => (utf16 c ++ out.1, out.2) := by
  unfold utf16
  split_ifs with hc
  · rw [List.length_singleton, Nat.add_comm, feedBytes, mbrtoc16_bmp hc h]
    simp
  · rw [List.length_cons, List.length_singleton, Nat.add_comm, ← Nat.add_assoc, feedBytes,
      mbrtoc16_high (by omega) h]
    dsimp only
    rw [List.drop_left, feedBytes, mbrtoc16_low]
    dsimp only
    rw [Option.map_map]
    rfl

theorem writeChar_eq {wc : UInt32} {s : σ} (h : L.wcrtomb wc L.initial = (some bs, s))
    (raw : UInt8 × UInt8) :
    writeChar L wc ⟨L.initial, raw⟩ = (.bytes bs.length, bs, ⟨s, raw⟩) := by
  rw [writeChar, h]

theorem c16rtomb_bmp (hc : c.toNat < 0x10000)
    (h : L.wcrtomb c.val L.initial = (some bs, L.initial)) :
    c16rtomb L false (.ofNat c.toNat) L.zeroed = (.bytes bs.length, bs, L.zeroed) := by
  obtain ⟨hhigh, hlow, hval⟩ := not_surrogate_unit hc
  rw [c16rtomb, hhigh, hlow, hval]
  exact writeChar_eq h _

theorem c16rtomb_high {unit : UInt16} (hunit : isHigh unit = true) (state : MbState σ) :
    c16rtomb L false unit state = (.bytes 0, [], { state with raw := stash unit }) := by
  rw [c16rtomb, hunit]
  rfl

theorem c16rtomb_low (hc : 0x10000 ≤ c.toNat)
    (h : L.wcrtomb c.val L.initial = (some bs, L.initial)) :
    c16rtomb L false (lowUnit c) ⟨L.initial, stash (highUnit c)⟩ =
      (.bytes bs.length, bs, L.zeroed) := by
  have hlow := isLow_lowUnit c
  have hhigh := isHigh_of_isLow hlow
  simp only [c16rtomb, hhigh, hlow, pending_stash, isHigh_highUnit, codepoint_eq hc, if_true,
    Bool.false_eq_true, if_false]
  exact writeChar_eq h _

theorem feedUnits_char (h : L.wcrtomb c.val L.initial = (some bs, L.initial))
    (units : List UInt16) :
    feedUnits L (utf16 c ++ units) L.zeroed =
      (feedUnits L units L.zeroed).map fun out => (bs ++ out.1, out.2) := by
  unfold utf16
  split_ifs with hc
  · rw [List.singleton_append, feedUnits, c16rtomb_bmp hc h]
  · rw [List.cons_append, List.singleton_append, feedUnits, c16rtomb_high (isHigh_highUnit c)]
    dsimp only [Libc.zeroed]
    rw [feedUnits, c16rtomb_low (by omega) h]
    dsimp only
    rw [Option.map_map]
    rfl

end Characters

section RoundTrip

variable {σ : Type} {L : Libc σ}

theorem encode_append (hL : L.Inverse) (cs₁ cs₂ : List Char)
    (hne : ∀ c ∈ cs₁, c.toNat ≠ 0) {M : List UInt8}
    (hM : encode L L.initial (cs₁ ++ cs₂) = some M) :
    ∃ M₁ M₂, M = M₁ ++ M₂ ∧ encode L L.initial cs₁ = some M₁ ∧
      encode L L.initial cs₂ = some M₂ := by
  induction cs₁ generalizing M with
  | nil => exact ⟨[], M, rfl, rfl, hM⟩
  | cons c cs₁ ih =>
    rw [List.cons_append, encode] at hM
    split at hM
    · exact absurd hM (by simp)
    · rename_i bs s hwrite
      obtain rfl := hL.state c bs s (hne c List.mem_cons_self) hwrite
      obtain ⟨M', hM', rfl⟩ := Option.map_eq_some_iff.mp hM
      obtain ⟨M₁, M₂, rfl, hM₁, hM₂⟩ :=
        ih (fun c' hc' => hne c' (List.mem_cons_of_mem c hc')) hM'
      refine ⟨bs ++ M₁, M₂, by simp, ?_, hM₂⟩
      rw [encode, hwrite]
      dsimp only
      rw [hM₁]
      rfl

/-- The calls for a string read exactly its bytes and write them again. -/
theorem feed_encode (hL : L.Inverse) (cs : List Char) (hne : ∀ c ∈ cs, c.toNat ≠ 0)
    {M : List UInt8} (hM : encode L L.initial cs = some M) (rest : List UInt8) :
    feedBytes L (cs.flatMap utf16).length (M ++ rest) L.zeroed =
        some (cs.flatMap utf16, rest, L.zeroed) ∧
      feedUnits L (cs.flatMap utf16) L.zeroed = some (M, L.zeroed) := by
  induction cs generalizing M with
  | nil =>
    cases Option.some.inj hM
    exact ⟨rfl, rfl⟩
  | cons c cs ih =>
    have hc := hne c List.mem_cons_self
    rw [encode] at hM
    split at hM
    · exact absurd hM (by simp)
    · rename_i bs s hwrite
      obtain rfl := hL.state c bs s hc hwrite
      obtain ⟨M', hM', rfl⟩ := Option.map_eq_some_iff.mp hM
      obtain ⟨hbytes, hunits⟩ := ih (fun c' hc' => hne c' (List.mem_cons_of_mem c hc')) hM'
      constructor
      · rw [List.flatMap_cons, List.length_append, List.append_assoc bs,
          feedBytes_char (hL.decode c bs _ _ hc hwrite), hbytes]
        rfl
      · rw [List.flatMap_cons, feedUnits_char hwrite, hunits]
        rfl

/-- A multibyte string goes through UTF-16 and back unchanged, one unit a call, and both
states are initial at every boundary between two characters. -/
theorem utf16_round_trip (hL : L.Inverse) (cs : List Char) (hne : ∀ c ∈ cs, c.toNat ≠ 0)
    (M : List UInt8) (hM : encode L L.initial cs = some M) :
    feedBytes L (cs.flatMap utf16).length M L.zeroed = some (cs.flatMap utf16, [], L.zeroed) ∧
    feedUnits L (cs.flatMap utf16) L.zeroed = some (M, L.zeroed) ∧
    ∀ cs₁ cs₂, cs = cs₁ ++ cs₂ → ∃ M₁ M₂, M = M₁ ++ M₂ ∧
      encode L L.initial cs₁ = some M₁ ∧
      feedBytes L (cs₁.flatMap utf16).length M L.zeroed =
        some (cs₁.flatMap utf16, M₂, L.zeroed) ∧
      feedUnits L (cs₁.flatMap utf16) L.zeroed = some (M₁, L.zeroed) := by
  obtain ⟨hbytes, hunits⟩ := feed_encode hL cs hne hM []
  rw [List.append_nil] at hbytes
  refine ⟨hbytes, hunits, ?_⟩
  rintro cs₁ cs₂ rfl
  have hne₁ : ∀ c ∈ cs₁, c.toNat ≠ 0 := fun c hc => hne c (List.mem_append_left _ hc)
  obtain ⟨M₁, M₂, rfl, hM₁, -⟩ := encode_append hL cs₁ cs₂ hne₁ hM
  obtain ⟨hbytes₁, hunits₁⟩ := feed_encode hL cs₁ hne₁ hM₁ M₂
  exact ⟨M₁, M₂, rfl, hM₁, hbytes₁, hunits₁⟩

end RoundTrip

/-- A UTF-8 locale, which needs no conversion state. A string that ends within a character is
not told from an ill-formed one. -/
def utf8 : Libc Unit where
  initial := ()
  wcrtomb wc _ :=
    (if h : wc.toNat.isValidChar then some (String.utf8EncodeChar ⟨wc, h⟩) else none, ())
  mbrtowc s _ :=
    match s.toByteArray.utf8DecodeChar? 0 with
    | some c => (.bytes (if c.toNat = 0 then 0 else c.utf8Size), c.val, ())
    | none => (.error, 0, ())
  clears := false

theorem utf8_wcrtomb (c : Char) : utf8.wcrtomb c.val () = (some (String.utf8EncodeChar c), ()) := by
  have hvalid : c.val.toNat.isValidChar := c.valid
  simp only [utf8, dif_pos hvalid]

theorem utf8_inverse : utf8.Inverse where
  state _ _ _ _ _ := rfl
  decode c bs s rest hc h := by
    rw [show utf8.initial = () from rfl, utf8_wcrtomb] at h
    obtain rfl : String.utf8EncodeChar c = bs := Option.some.inj (congrArg Prod.fst h)
    have hdecode : (String.utf8EncodeChar c ++ rest).toByteArray.utf8DecodeChar? 0 = some c := by
      rw [List.toByteArray_append]
      exact ByteArray.utf8DecodeChar?_utf8EncodeChar_append
    simp only [utf8, hdecode, if_neg hc, String.length_utf8EncodeChar]

/-- The letter `A` and the first character that needs two units. -/
theorem utf16_round_trip_pair :
    feedBytes utf8 3 [0x41, 0xF0, 0x90, 0x80, 0x80] utf8.zeroed =
        some ([0x41, 0xD800, 0xDC00], [], utf8.zeroed) ∧
      feedUnits utf8 [0x41, 0xD800, 0xDC00] utf8.zeroed =
        some ([0x41, 0xF0, 0x90, 0x80, 0x80], utf8.zeroed) := by
  have h := utf16_round_trip utf8_inverse ['A', Char.ofNat 0x10000] (by simp)
    [0x41, 0xF0, 0x90, 0x80, 0x80] (by decide)
  exact ⟨h.1, h.2.1⟩

end Solcompat.Wchar
