import Solcompat.Inet.Canonical

/-!
# What the formatting loop writes

The loop is first read as a list of bytes, then shown to leave exactly that list
in the work buffer: five bytes a round at most, so that no call of
`solcompat_snprintf` is ever short of room. The list is the canonical text. A call that is
refused its memory returns -1, which moves the pointer back over the byte before the group.
-/

namespace Solcompat.Inet

open Lib Printf

/-- The system formats `%x` as documented. -/
structure FormatsHex (sys : System (List ℕ)) : Prop where
  hex : ∀ w, w < 65536 → sys.vsprintf (CString.ofString "%x").bytes [w] = some (hexText w)

/-- The bytes before `tp` are `text`. -/
structure Writer.Written (t : Writer) (text : List UInt8) : Prop where
  tp_eq : t.tp = text.length
  holds : ∀ i, i < text.length → t.tmp i = text.getD i 0

namespace Writer

variable {sys : System (List ℕ)} {t : Writer} {text : List UInt8}

theorem Written.toNat_tp (h : t.Written text) : t.tp.toNat = text.length := by
  rw [h.tp_eq, Int.toNat_natCast]

theorem Written.inside (h : t.Written text) (hroom : text.length < inet6AddrStrLen) :
    t.Inside := by
  rw [Inside, h.tp_eq]
  omega

theorem Written.put (h : t.Written text) (hroom : text.length < inet6AddrStrLen) (b : UInt8) :
    ∃ t', t.put b = some t' ∧ t'.Written (text ++ [b]) ∧ t'.requests = t.requests := by
  refine ⟨_, if_pos (h.inside hroom), ⟨by simp [h.tp_eq], ?_⟩, rfl⟩
  intro i hi
  rw [List.length_append, List.length_singleton] at hi
  change Function.update t.tmp t.tp.toNat b i = _
  rw [h.toNat_tp]
  by_cases hlast : i = text.length
  · subst hlast
    simp
  · have hlt : i < text.length := by omega
    rw [Function.update_of_ne hlast, h.holds i hlt]
    simp [List.getD, List.getElem?_append_left hlt]

theorem Written.print (hsys : FormatsHex sys) {w : ℕ} (hw : w < 65536) (h : t.Written text)
    (hroom : text.length + 4 < inet6AddrStrLen) (hm : sys.malloc t.requests = true) :
    ∃ t', t.print sys w = some t' ∧ t'.Written (text ++ hexText w) ∧
      t'.requests = t.requests + 1 := by
  have hlen : (hexText w).length ≤ 4 := hexText_length_le (by norm_num) hw
  have hfmt : (preprocessFmt (.ofString "%x") 2048).result (.ofString "%x") =
      (CString.ofString "%x").bytes := by decide +kernel
  have hpos : 0 < inet6AddrStrLen - text.length := by omega
  unfold Writer.print
  rw [if_pos (h.inside (by omega)), h.toNat_tp,
    solcompatVsnprintf_of_short hm (.ofString "%x") [w] (hfmt ▸ hsys.hex w hw) (by omega)]
  simp only [if_pos hpos, Option.map_some]
  refine ⟨_, rfl, ⟨by simp [h.tp_eq], ?_⟩, rfl⟩
  intro i hi
  rw [List.length_append] at hi
  dsimp only
  by_cases hlt : i < text.length
  · rw [if_pos hlt, h.holds i hlt]
    simp [List.getD, List.getElem?_append_left hlt]
  · rw [if_neg hlt, copyOut_apply _ hpos, if_pos (by omega)]
    simp [List.getD, List.getElem?_append_right (not_lt.mp hlt)]

theorem print_refused (w : ℕ) (hinside : t.Inside) (hm : sys.malloc t.requests = false) :
    ∃ t', t.print sys w = some t' ∧ t'.tp = t.tp - 1 ∧ t'.tmp = t.tmp ∧
      t'.requests = t.requests + 1 := by
  unfold Writer.print
  rw [if_pos hinside, solcompatVsnprintf_of_refused hm]
  refine ⟨_, rfl, by dsimp only; omega, ?_, rfl⟩
  funext i
  dsimp only
  split_ifs with hi
  · rfl
  · congr 1
    omega

theorem Written.print_refused {w : ℕ} (h : t.Written text) (hne : text ≠ [])
    (hroom : text.length < inet6AddrStrLen) (hm : sys.malloc t.requests = false) :
    ∃ t', t.print sys w = some t' ∧ t'.Written text.dropLast ∧
      t'.requests = t.requests + 1 := by
  have hpos := List.length_pos_iff.mpr hne
  obtain ⟨t', hprint, htp, htmp, hrequests⟩ := Writer.print_refused w (h.inside hroom) hm
  refine ⟨t', hprint, ⟨?_, ?_⟩, hrequests⟩
  · rw [htp, h.tp_eq, List.length_dropLast]
    omega
  · intro i hi
    rw [List.length_dropLast] at hi
    rw [htmp, h.holds i (by omega), List.getD_eq_getElem _ _ (by omega),
      List.getD_eq_getElem _ _ (by rw [List.length_dropLast]; omega), List.getElem_dropLast]

end Writer

/-- The bytes that `rounds` rounds of the loop write from group `i` on. -/
def loopText (ws : List ℕ) (best : Runs) : ℕ → ℕ → List UInt8
  | 0, _ => []
  | rounds + 1, i =>
    if i < 8 then
      if (i : ℤ) = best.bestStart then
        [ch ':', ch ':'] ++ loopText ws best rounds (i + best.bestLen)
      else
        (if colonBefore best i then [ch ':'] else []) ++ hexText (ws.getD i 0) ++
          loopText ws best rounds (i + 1)
    else []

theorem length_loopText_le {ws : List ℕ} (hws : ∀ i, ws.getD i 0 < 65536) (best : Runs)
    (rounds i : ℕ) : (loopText ws best rounds i).length ≤ 5 * rounds := by
  induction rounds generalizing i with
  | zero => exact Nat.zero_le _
  | succ rounds ih =>
    have hhex : (hexText (ws.getD i 0)).length ≤ 4 := hexText_length_le (by norm_num) (hws i)
    have hrun := ih (i + best.bestLen)
    have hnext := ih (i + 1)
    rw [loopText]
    split_ifs
    · simp only [List.length_append, List.length_cons, List.length_nil]
      omega
    · simp only [List.length_append, List.length_cons, List.length_nil]
      omega
    · simp only [List.length_append, List.length_nil]
      omega
    · exact Nat.zero_le _

/-- The groups that these rounds print, one allocation for each: those outside of the run. -/
def loopGroups (ws : List ℕ) (best : Runs) : ℕ → ℕ → List ℕ
  | 0, _ => []
  | rounds + 1, i =>
    if i < 8 then
      if (i : ℤ) = best.bestStart then loopGroups ws best rounds (i + best.bestLen)
      else ws.getD i 0 :: loopGroups ws best rounds (i + 1)
    else []

/-- The bytes that refused allocations leave out, from request `k` on: the digits of a group and
the byte before them. -/
def lost (grants : ℕ → Bool) : ℕ → List ℕ → ℕ
  | _, [] => 0
  | k, w :: groups =>
    (if grants k = true then 0 else (hexText w).length + 1) + lost grants (k + 1) groups

theorem lost_eq_zero_iff (grants : ℕ → Bool) (k : ℕ) (groups : List ℕ) :
    lost grants k groups = 0 ↔ ∀ j, j < groups.length → grants (k + j) = true := by
  induction groups generalizing k with
  | nil => simp [lost]
  | cons w groups ih =>
    rw [lost, Nat.add_eq_zero_iff, ih]
    constructor
    · rintro ⟨hfirst, hrest⟩ j hj
      cases j with
      | zero =>
        by_contra hrefused
        rw [Nat.add_zero] at hrefused
        rw [if_neg hrefused] at hfirst
        omega
      | succ j =>
        rw [← Nat.add_assoc, Nat.add_right_comm]
        exact hrest j (Nat.lt_of_succ_lt_succ hj)
    · intro h
      refine ⟨if_pos (h 0 (Nat.succ_pos _)), fun j hj => ?_⟩
      rw [Nat.add_right_comm]
      exact h (j + 1) (Nat.succ_lt_succ hj)

/-- What the loop has left: a text without terminators, shorter by what was refused. -/
structure Shortened (sys : System (List ℕ)) (t : Writer) (text more : List UInt8)
    (groups : List ℕ) (t' : Writer) (text' : List UInt8) : Prop where
  written : t'.Written text'
  nulFree : ∀ b ∈ text', b ≠ 0
  length_eq : text'.length + lost sys.malloc t.requests groups = text.length + more.length
  whole : lost sys.malloc t.requests groups = 0 → text' = text ++ more
  requests : t'.requests = t.requests + groups.length

theorem hexText_nulFree (w : ℕ) : ∀ b ∈ hexText w, b ≠ 0 := fun _ hb =>
  (isxdigit_plain (isxdigit_of_mem_hexText hb)).2.2.2.2.2.2

section Loop

variable {sys : System (List ℕ)} {t : Writer} {text : List UInt8}

theorem print_shortened (hsys : FormatsHex sys) {w : ℕ} (hw : w < 65536) (h : t.Written text)
    (hne : text ≠ []) (hnul : ∀ b ∈ text, b ≠ 0) (hroom : text.length + 4 < inet6AddrStrLen) :
    ∃ t' text', t.print sys w = some t' ∧ Shortened sys t text (hexText w) [w] t' text' := by
  have hpos := List.length_pos_iff.mpr hne
  cases hm : sys.malloc t.requests with
  | true =>
    obtain ⟨t', hprint, hwritten, hrequests⟩ := h.print hsys hw hroom hm
    refine ⟨t', _, hprint, hwritten, ?_, ?_, fun _ => rfl, hrequests⟩
    · exact List.forall_mem_append.mpr ⟨hnul, hexText_nulFree w⟩
    · simp [lost, hm]
  | false =>
    obtain ⟨t', hprint, hwritten, hrequests⟩ := h.print_refused hne (by omega) hm
    refine ⟨t', _, hprint, hwritten, fun b hb => hnul b (List.mem_of_mem_dropLast hb), ?_, ?_,
      hrequests⟩
    · simp only [lost, hm, Bool.false_eq_true, if_false, List.length_dropLast]
      omega
    · simp [lost, hm]

theorem Shortened.append {t₁ t₂ : Writer} {text₁ text₂ more more' : List UInt8}
    {groups groups' : List ℕ} (h : Shortened sys t text more groups t₁ text₁)
    (h' : Shortened sys t₁ text₁ more' groups' t₂ text₂) :
    Shortened sys t text (more ++ more') (groups ++ groups') t₂ text₂ := by
  have hlost : ∀ (k : ℕ) (vs : List ℕ), lost sys.malloc k (vs ++ groups') =
      lost sys.malloc k vs + lost sys.malloc (k + vs.length) groups' := by
    intro k vs
    induction vs generalizing k with
    | nil => simp [lost]
    | cons v vs ih =>
      rw [List.cons_append, lost, lost, ih, List.length_cons,
        show k + 1 + vs.length = k + (vs.length + 1) by omega, Nat.add_assoc]
  have hlength := h.length_eq
  have hlength' := h'.length_eq
  rw [h.requests] at hlength'
  refine ⟨h'.written, h'.nulFree, ?_, fun hzero => ?_, ?_⟩
  · rw [hlost, List.length_append]
    omega
  · rw [hlost] at hzero
    rw [h'.whole (by rw [h.requests]; omega), h.whole (by omega), List.append_assoc]
  · rw [h'.requests, h.requests, List.length_append, Nat.add_assoc]

theorem shortened_put (sys : System (List ℕ)) (hwritten : t.Written text) (hnul : ∀ b ∈ text, b ≠ 0)
    (hroom : text.length < inet6AddrStrLen) :
    ∃ t', t.put (ch ':') = some t' ∧
      Shortened sys t text [ch ':'] [] t' (text ++ [ch ':']) := by
  obtain ⟨t', hput, hwritten', hrequests⟩ := hwritten.put hroom (ch ':')
  refine ⟨t', hput, hwritten', ?_, by simp [lost], fun _ => rfl, hrequests⟩
  rw [List.forall_mem_append]
  exact ⟨hnul, by decide⟩

theorem Shortened.ne_nil {t' : Writer} {more text' : List UInt8}
    (h : Shortened sys t text more [] t' text') (hmore : more ≠ []) : text' ≠ [] := by
  rw [h.whole rfl]
  simp [hmore]

theorem Shortened.length_le {t' : Writer} {more text' : List UInt8} {groups : List ℕ}
    (h : Shortened sys t text more groups t' text') :
    text'.length ≤ text.length + more.length := by
  have hlength := h.length_eq
  omega

theorem shortened_start (hwritten : t.Written text) (hnul : ∀ b ∈ text, b ≠ 0) :
    Shortened sys t text [] [] t text :=
  ⟨hwritten, hnul, by simp [lost], fun _ => (List.append_nil text).symm, rfl⟩

/-- One round at a group outside of the run. There is a byte for a refused call to move back over,
the colon of the round or the second one of the run, and it is not the last. -/
theorem round_shortened (hsys : FormatsHex sys) {w i : ℕ} (hw : w < 65536) {best : Runs}
    (h : t.Written text) (hne : text ≠ []) (hnul : ∀ b ∈ text, b ≠ 0)
    (hroom : text.length + 5 ≤ 45) (hback : colonBefore best i ∨ 2 ≤ text.length) :
    ∃ t₁ t₂ text₂, (if colonBefore best i then t.put (ch ':') else some t) = some t₁ ∧
      t₁.print sys w = some t₂ ∧ text₂ ≠ [] ∧ text₂.length ≤ text.length + 5 ∧
      Shortened sys t text ((if colonBefore best i then [ch ':'] else []) ++ hexText w) [w] t₂
        text₂ := by
  have hpos := List.length_pos_iff.mpr hne
  have hhex : (hexText w).length ≤ 4 := hexText_length_le (by norm_num) hw
  have hlost : ∀ k, lost sys.malloc k [w] ≤ (hexText w).length + 1 := by
    intro k
    rw [lost, lost]
    split_ifs
    · omega
    · omega
  have hstays : ∀ {more text₂ : List UInt8} {t₂ : Writer},
      Shortened sys t text (more ++ hexText w) [w] t₂ text₂ → more.length ≤ 1 →
        2 ≤ text.length + more.length → text₂ ≠ [] ∧ text₂.length ≤ text.length + 5 := by
    intro more text₂ t₂ hshort hmore htwo
    have hlength := hshort.length_eq
    have hle := hlost t.requests
    rw [List.length_append] at hlength
    exact ⟨List.ne_nil_of_length_pos (by omega), by omega⟩
  by_cases hcolon : colonBefore best i
  · obtain ⟨t₁, hput, hcolonShort⟩ :=
      shortened_put sys h hnul (by unfold inet6AddrStrLen; omega)
    obtain ⟨t₂, text₂, hprint, hshort⟩ := print_shortened hsys hw hcolonShort.written
      (by simp) hcolonShort.nulFree (by simp [inet6AddrStrLen]; omega)
    have hboth := hcolonShort.append hshort
    obtain ⟨hne₂, hle₂⟩ := hstays hboth (by simp) (by simp; omega)
    refine ⟨t₁, t₂, text₂, by rw [if_pos hcolon]; exact hput, hprint, hne₂, hle₂, ?_⟩
    rw [if_pos hcolon]
    exact hboth
  · have htwo := hback.resolve_left hcolon
    obtain ⟨t₂, text₂, hprint, hshort⟩ := print_shortened hsys hw h hne hnul
      (by unfold inet6AddrStrLen; omega)
    obtain ⟨hne₂, hle₂⟩ := @hstays [] _ _ hshort (by simp) (by simpa using htwo)
    refine ⟨t, t₂, text₂, by rw [if_neg hcolon], hprint, hne₂, hle₂, ?_⟩
    rw [if_neg hcolon]
    exact hshort

/-- The loop behind its first round. It jumps over the run, so that a group without a colon
follows the two of the run. -/
theorem formatLoop_shortened (hsys : FormatsHex sys) {ws : List ℕ}
    (hws : ∀ i, ws.getD i 0 < 65536) {best : Runs} (hrun : 0 ≤ best.bestStart → 1 ≤ best.bestLen)
    (rounds : ℕ) :
    ∀ (i : ℕ) (t : Writer) (text : List UInt8), t.Written text → text ≠ [] →
      (∀ b ∈ text, b ≠ 0) → text.length + 5 * rounds ≤ 45 →
      (best.bestStart < 0 ∨ (i : ℤ) ≤ best.bestStart ∨ best.bestStart + best.bestLen ≤ i) →
      (colonBefore best i ∨ 2 ≤ text.length) →
      ∃ t' text', formatLoop sys ws best rounds i t = some t' ∧
        Shortened sys t text (loopText ws best rounds i) (loopGroups ws best rounds i) t'
          text' := by
  induction rounds with
  | zero =>
    intro i t text h _ hnul _ _ _
    exact ⟨t, text, rfl, shortened_start h hnul⟩
  | succ rounds ih =>
    intro i t text h hne hnul hroom hvisit hback
    have hpos := List.length_pos_iff.mpr hne
    rw [formatLoop, loopText, loopGroups]
    by_cases hi : i < 8
    · by_cases hstart : (i : ℤ) = best.bestStart
      · obtain ⟨t₁, hput₁, hshort₁⟩ :=
          shortened_put sys h hnul (by unfold inet6AddrStrLen; omega)
        obtain ⟨t₂, hput₂, hshort₂⟩ := shortened_put sys hshort₁.written hshort₁.nulFree
          (by simp [inet6AddrStrLen]; omega)
        have hshort := hshort₁.append hshort₂
        obtain ⟨t', text', hloop, hrest⟩ := ih (i + best.bestLen) t₂ _ hshort.written (by simp)
          hshort.nulFree (by simp; omega) (.inr (.inr (by omega))) (.inr (by simp))
        simp only [if_pos hi, if_pos hstart]
        refine ⟨t', text', ?_, hshort.append hrest⟩
        simp only [Option.bind_eq_bind, hput₁, hput₂, Option.bind_some, hloop]
      · obtain ⟨t₁, t₂, text₂, hput, hprint, hne₂, hle₂, hshort⟩ :=
          round_shortened hsys (hws i) h hne hnul (by omega) hback
        have hnext : colonBefore best (i + 1) := by
          refine ⟨Nat.succ_pos i, fun hend => ?_⟩
          have := hrun hend.2
          omega
        obtain ⟨t', text', hloop, hrest⟩ := ih (i + 1) t₂ text₂ hshort.written hne₂ hshort.nulFree
          (by omega) (by omega) (.inl hnext)
        simp only [if_pos hi, if_neg hstart]
        refine ⟨t', text', ?_, hshort.append hrest⟩
        by_cases hcolon : colonBefore best i
        · rw [if_pos hcolon] at hput
          simp only [Option.bind_eq_bind, if_pos hcolon, hput, hprint, Option.bind_some, hloop]
        · rw [if_neg hcolon] at hput
          obtain rfl := Option.some.inj hput
          simp only [Option.bind_eq_bind, if_neg hcolon, hprint, Option.bind_some, hloop]
    · simp only [if_neg hi]
      exact ⟨t, text, rfl, shortened_start h hnul⟩

/-- The first group is in the run, or its allocation is granted: the loop does not leave the buffer
at its start. -/
def KeepsStart (sys : System (List ℕ)) (best : Runs) : Prop :=
  best.bestStart = 0 ∨ sys.malloc 0 = true

theorem formatLoop_eq_some (hsys : FormatsHex sys) {ws : List ℕ}
    (hws : ∀ i, ws.getD i 0 < 65536) {best : Runs} (hrun : 0 ≤ best.bestStart → 1 ≤ best.bestLen)
    (hstart : KeepsStart sys best) (tmp : Memory) :
    ∃ t' text', formatLoop sys ws best 8 0 ⟨tmp, 0, 0⟩ = some t' ∧
      Shortened sys ⟨tmp, 0, 0⟩ [] (loopText ws best 8 0) (loopGroups ws best 8 0) t' text' := by
  have hempty : (⟨tmp, 0, 0⟩ : Writer).Written [] := ⟨rfl, fun i hi => absurd hi (by simp)⟩
  have hnone : ¬ colonBefore best 0 := fun h => absurd h.1 (lt_irrefl 0)
  rw [formatLoop, loopText, loopGroups]
  simp only [if_pos (show 0 < 8 by decide)]
  by_cases hzero : best.bestStart = 0
  · obtain ⟨t₁, hput₁, hshort₁⟩ := shortened_put sys hempty (by simp) (by decide)
    obtain ⟨t₂, hput₂, hshort₂⟩ := shortened_put sys hshort₁.written hshort₁.nulFree (by decide)
    have hshort := hshort₁.append hshort₂
    obtain ⟨t', text', hloop, hrest⟩ := formatLoop_shortened hsys hws hrun 7 (0 + best.bestLen) t₂ _
      hshort.written (by simp) hshort.nulFree (by simp) (.inr (.inr (by omega))) (.inr (by simp))
    have hcast : ((0 : ℕ) : ℤ) = best.bestStart := by omega
    rw [if_pos hcast, if_pos hcast, if_pos hcast]
    refine ⟨t', text', ?_, hshort.append hrest⟩
    simp only [Option.bind_eq_bind, hput₁, hput₂, Option.bind_some, hloop]
  · have hm : sys.malloc 0 = true := hstart.resolve_left hzero
    have hhex : (hexText (ws.getD 0 0)).length ≤ 4 := hexText_length_le (by norm_num) (hws 0)
    obtain ⟨t₁, hprint, hwritten, hrequests⟩ :=
      hempty.print hsys (hws 0) (by decide) hm
    have hshort : Shortened sys ⟨tmp, 0, 0⟩ [] (hexText (ws.getD 0 0)) [ws.getD 0 0] t₁
        ([] ++ hexText (ws.getD 0 0)) :=
      ⟨hwritten, hexText_nulFree _, by simp [lost, hm], fun _ => rfl, hrequests⟩
    have hcolon : colonBefore best (0 + 1) := by
      refine ⟨Nat.one_pos, fun hend => ?_⟩
      have := hrun hend.2
      omega
    obtain ⟨t', text', hloop, hrest⟩ := formatLoop_shortened hsys hws hrun 7 (0 + 1) t₁ _
      hshort.written (by simpa using hexText_ne_nil _) hshort.nulFree
      (by rw [List.nil_append]; omega) (by omega) (.inl hcolon)
    have hcast : ¬ ((0 : ℕ) : ℤ) = best.bestStart := by omega
    rw [if_neg hcast, if_neg hcast, if_neg hcast]
    refine ⟨t', text', ?_, ?_⟩
    · simp only [Option.bind_eq_bind, if_neg hnone, hprint, Option.bind_some, hloop]
    · rw [if_neg hnone]
      exact hshort.append hrest

theorem formatLoop_eq_none {ws : List ℕ} {best : Runs} (hstart : ¬ KeepsStart sys best)
    (tmp : Memory) : formatLoop sys ws best 8 0 ⟨tmp, 0, 0⟩ = none := by
  rw [KeepsStart, not_or, Bool.not_eq_true] at hstart
  have hnone : ¬ colonBefore best 0 := fun h => absurd h.1 (lt_irrefl 0)
  have hcast : ¬ ((0 : ℕ) : ℤ) = best.bestStart := fun h => hstart.1 h.symm
  have hinside : (⟨tmp, 0, 0⟩ : Writer).Inside := ⟨le_rfl, by norm_num [inet6AddrStrLen]⟩
  obtain ⟨t₁, hprint, htp, -, -⟩ := Writer.print_refused (ws.getD 0 0) hinside hstart.2
  have houtside : ¬ t₁.Inside := by
    intro h
    have hlow := h.1
    rw [htp] at hlow
    exact absurd hlow (by norm_num)
  have hput : t₁.put (ch ':') = none := if_neg houtside
  have hprintNone : ∀ w, t₁.print sys w = none := fun _ => if_neg houtside
  rw [formatLoop, if_pos (by decide), if_neg hcast]
  simp only [if_neg hnone, Option.bind_eq_bind, hprint, Option.bind_some]
  rw [formatLoop, if_pos (by decide)]
  split_ifs
  · simp only [Option.bind_eq_bind, hput, Option.bind_none]
  · simp only [Option.bind_eq_bind, hput, Option.bind_none]
  · simp only [Option.bind_eq_bind, Option.bind_some, hprintNone, Option.bind_none]

end Loop

/-- Groups with a colon before each, or before each but the first. -/
def separated (leading : Bool) (ws : List ℕ) : List UInt8 :=
  if leading then joinGroups ws else ws.flatMap fun v => ch ':' :: hexText v

theorem separated_cons (leading : Bool) (w : ℕ) (ws : List ℕ) :
    separated leading (w :: ws) =
      (if leading then [] else [ch ':']) ++ hexText w ++ separated false ws := by
  cases leading <;> simp [separated, joinGroups]

theorem loopText_stretch {ws : List ℕ} (best : Runs) (hlen : ws.length = 8) (n : ℕ) :
    ∀ (rounds i : ℕ) (leading : Bool), i + n ≤ 8 →
      (∀ k, i ≤ k → k < i + n → (k : ℤ) ≠ best.bestStart) →
      (∀ k, i ≤ k → k < i + n → (colonBefore best k ↔ ¬ (leading = true ∧ k = i))) →
      loopText ws best (n + rounds) i =
        separated leading ((ws.drop i).take n) ++ loopText ws best rounds (i + n) := by
  induction n with
  | zero =>
    intro rounds i leading _ _ _
    cases leading <;> simp [separated, joinGroups]
  | succ n ih =>
    intro rounds i leading hi hrun hcolon
    have hget : ws.drop i = ws.getD i 0 :: ws.drop (i + 1) := by
      rw [List.drop_eq_getElem_cons (by omega)]
      simp [List.getD, List.getElem?_eq_getElem (show i < ws.length by omega)]
    have hnext := ih rounds (i + 1) false (by omega)
      (fun k h₁ h₂ => hrun k (by omega) (by omega)) (by
        intro k h₁ h₂
        rw [hcolon k (by omega) (by omega)]
        constructor
        · intro _ hk
          exact absurd hk.1 (by simp)
        · intro _ hk
          omega)
    rw [show n + 1 + rounds = n + rounds + 1 by omega, loopText, if_pos (by omega),
      if_neg (hrun i le_rfl (by omega)), hnext, hget, List.take_succ_cons, separated_cons,
      show i + 1 + n = i + (n + 1) by omega]
    have hfirst := hcolon i le_rfl (by omega)
    cases leading with
    | true => simp [show ¬ colonBefore best i from fun hc => hfirst.mp hc ⟨rfl, rfl⟩]
    | false => simp [show colonBefore best i from hfirst.mpr (by simp)]

theorem loopText_end (ws : List ℕ) (best : Runs) (rounds i : ℕ) (h : 8 ≤ i) :
    loopText ws best rounds i = [] := by
  cases rounds with
  | zero => rfl
  | succ rounds => rw [loopText, if_neg (by omega)]

theorem loopText_canonical {ws : List ℕ} (hlen : ws.length = 8) :
    Canonical ws (loopText ws (Runs.initial.scanFrom 0 ws) 8 0) := by
  rcases scanFrom_spec ws with ⟨hnone, hfree⟩ | ⟨s, hs, hbest⟩
  · generalize Runs.initial.scanFrom 0 ws = best at *
    have := loopText_stretch best hlen 8 0 0 true (by omega)
      (fun k _ _ => by rw [hnone]; omega)
      (fun k _ _ => by unfold colonBefore; rw [hnone]; simp; omega)
    rw [show (8 : ℕ) = 8 + 0 from rfl, this]
    simp only [List.drop_zero, loopText, List.append_nil]
    rw [List.take_of_length_le (by omega)]
    exact .plain hfree
  · generalize Runs.initial.scanFrom 0 ws = best at *
    have hfits := hbest.run.fits
    have htwo := hbest.run.two_le
    have hleft := loopText_stretch best hlen s (8 - s) 0 true (by omega)
      (fun k _ hk => by rw [hs]; omega)
      (fun k _ hk => by unfold colonBefore; rw [hs]; simp; omega)
    have hright := loopText_stretch best hlen (8 - (s + best.bestLen)) (best.bestLen - 1)
      (s + best.bestLen) true (by omega)
      (fun k hk _ => by rw [hs]; omega)
      (fun k hk _ => by unfold colonBefore; rw [hs]; simp; omega)
    have hrun : loopText ws best (8 - s) s =
        [ch ':', ch ':'] ++ loopText ws best (7 - s) (s + best.bestLen) := by
      rw [show 8 - s = 7 - s + 1 by omega, loopText, if_pos (by omega), if_pos hs.symm]
    rw [show (8 : ℕ) = s + (8 - s) by omega, hleft, Nat.zero_add, hrun,
      show 7 - s = 8 - (s + best.bestLen) + (best.bestLen - 1) by omega, hright,
      loopText_end _ _ _ _ (by omega), List.append_nil, List.drop_zero,
      List.take_of_length_le (l := ws.drop _) (by simp; omega), ← List.append_assoc]
    exact .compressed hbest

end Solcompat.Inet
