import Solcompat.Lib.Hex

/-!
# The text grammar of IPv6 addresses

RFC 4291 without a dotted-quad tail: groups of one to four hexadecimal digits, separated by
colons, eight of them or fewer with one `::` for the others. The parser is looser: a group may be
longer or have a `0x`, one colon may dangle at the end, and eight groups may have a `::` as well.
Both are described by the parts of a text, which the text determines.
-/

namespace Solcompat.Inet

open Lib

structure IsGroup (t : List UInt8) : Prop where
  digits : ∀ b ∈ t, isxdigit b = true
  ne_nil : t ≠ []
  length_le : t.length ≤ 4

instance (t : List UInt8) : Decidable (IsGroup t) :=
  decidable_of_iff (t.all isxdigit = true ∧ t ≠ [] ∧ t.length ≤ 4)
    ⟨fun h => ⟨List.all_eq_true.mp h.1, h.2.1, h.2.2⟩,
      fun h => ⟨List.all_eq_true.mpr h.digits, h.ne_nil, h.length_le⟩⟩

/-- A group as `strtoul` takes it, with a value that the parser takes. -/
def IsLooseGroup (t : List UInt8) : Prop :=
  ∃ mark ∈ hexMarks, ∃ digits, digits ≠ [] ∧ (∀ b ∈ digits, isxdigit b = true) ∧
    xvalue digits ≤ 0xFFFF ∧ t = mark ++ digits

def joinTexts (ts : List (List UInt8)) : List UInt8 := [ch ':'].intercalate ts

/-- The groups in front of a `::`, those behind it if there is one, and whether a colon dangles
at the end. -/
structure Parts where
  before : List (List UInt8)
  after : Option (List (List UInt8))
  dangling : Bool
  deriving DecidableEq, Repr

namespace Parts

variable (p : Parts)

def groups : List (List UInt8) := p.before ++ p.after.getD []

def text : List UInt8 :=
  joinTexts p.before ++
    (p.after.elim [] fun ts => [ch ':', ch ':'] ++ joinTexts ts) ++
    if p.dangling then [ch ':'] else []

/-- The parts of a text of RFC 4291. -/
structure Strict : Prop where
  groups : ∀ t ∈ p.groups, IsGroup t
  count : p.after.elim (p.groups.length = 8) fun _ => p.groups.length < 8
  dangling : p.dangling = false

instance : Decidable p.Strict :=
  have : Decidable (p.after.elim (p.groups.length = 8) fun _ => p.groups.length < 8) :=
    match p.after with
    | none => inferInstanceAs (Decidable (_ = _))
    | some _ => inferInstanceAs (Decidable (_ < _))
  decidable_of_iff (p.groups.all (fun t => decide (IsGroup t)) = true ∧
      (p.after.elim (p.groups.length = 8) fun _ => p.groups.length < 8) ∧ p.dangling = false)
    ⟨fun h => ⟨fun t ht => of_decide_eq_true (List.all_eq_true.mp h.1 t ht), h.2.1, h.2.2⟩,
      fun h => ⟨List.all_eq_true.mpr fun t ht => decide_eq_true (h.groups t ht), h.count,
        h.dangling⟩⟩

/-- The parts of a text that the parser takes. -/
structure Loose : Prop where
  groups : ∀ t ∈ p.groups, IsLooseGroup t
  count : p.after.elim (p.groups.length = 8) fun _ => p.groups.length ≤ 8
  dangling : p.dangling = true → p.after ≠ some []

/-- The eight groups that the parts stand for, when `value` is what one text stands for. -/
def words (value : List UInt8 → ℕ) : List ℕ :=
  p.before.map value ++ List.replicate (8 - p.groups.length) 0 ++ (p.after.getD []).map value

end Parts

/-- The text is an address of RFC 4291. -/
def IsAddress (s : List UInt8) : Prop := ∃ p : Parts, p.Strict ∧ p.text = s

/-- The text is taken by the parser and no address: a group has a `0x` or more than four digits,
a colon dangles at the end, or a `::` stands beside eight groups. -/
def IsLax (s : List UInt8) : Prop :=
  ∃ p : Parts, p.Loose ∧ p.text = s ∧
    ((∃ t ∈ p.groups, ch 'x' ∈ t ∨ ch 'X' ∈ t ∨ 4 < t.length) ∨ p.dangling = true ∨
      p.after ≠ none ∧ p.groups.length = 8)

section Groups

variable {t : List UInt8}

theorem IsGroup.loose (h : IsGroup t) : IsLooseGroup t := by
  refine ⟨[], nil_mem_hexMarks, t, h.ne_nil, h.digits, ?_, rfl⟩
  have hlt := xvalue_lt h.digits
  have hle : 16 ^ t.length ≤ 16 ^ 4 := Nat.pow_le_pow_right (by norm_num) h.length_le
  omega

theorem IsLooseGroup.mem (h : IsLooseGroup t) {b : UInt8} (hb : b ∈ t) :
    isxdigit b = true ∨ b = ch 'x' ∨ b = ch 'X' := by
  obtain ⟨mark, hmark, digits, -, hall, -, rfl⟩ := h
  rcases List.mem_append.mp hb with hb | hb
  · simp only [hexMarks, List.mem_cons, List.not_mem_nil, or_false] at hmark
    rcases hmark with rfl | rfl | rfl
    · cases hb
    · simp only [List.mem_cons, List.not_mem_nil, or_false] at hb
      rcases hb with rfl | rfl
      · exact .inl (by decide)
      · exact .inr (.inl rfl)
    · simp only [List.mem_cons, List.not_mem_nil, or_false] at hb
      rcases hb with rfl | rfl
      · exact .inl (by decide)
      · exact .inr (.inr rfl)
  · exact .inl (hall b hb)

theorem IsLooseGroup.ne_nil (h : IsLooseGroup t) : t ≠ [] := by
  obtain ⟨mark, -, digits, hne, -, -, rfl⟩ := h
  exact List.append_ne_nil_of_right_ne_nil _ hne

theorem IsLooseGroup.colon_notMem (h : IsLooseGroup t) : ch ':' ∉ t := by
  intro hmem
  rcases h.mem hmem with hdigit | hx | hx
  · exact absurd hdigit (by decide)
  · exact absurd hx (by decide)
  · exact absurd hx (by decide)

theorem IsLooseGroup.head (h : IsLooseGroup t) : isxdigit (t.headD 0) = true := by
  obtain ⟨mark, hmark, digits, hne, hall, -, rfl⟩ := h
  simp only [hexMarks, List.mem_cons, List.not_mem_nil, or_false] at hmark
  rcases hmark with rfl | rfl | rfl
  · obtain ⟨d, ds, rfl⟩ := List.exists_cons_of_ne_nil hne
    exact hall d List.mem_cons_self
  · exact (by decide : isxdigit (ch '0') = true)
  · exact (by decide : isxdigit (ch '0') = true)

/-- A loose group is one of RFC 4291 unless it has a mark or is too long. -/
theorem IsLooseGroup.isGroup_iff (h : IsLooseGroup t) :
    IsGroup t ↔ ¬ (ch 'x' ∈ t ∨ ch 'X' ∈ t ∨ 4 < t.length) := by
  constructor
  · rintro hgroup (hx | hx | hlen)
    · exact absurd (hgroup.digits _ hx) (by decide)
    · exact absurd (hgroup.digits _ hx) (by decide)
    · exact absurd hgroup.length_le hlen.not_ge
  · intro hnot
    simp only [not_or, not_lt] at hnot
    refine ⟨fun b hb => ?_, h.ne_nil, hnot.2.2⟩
    rcases h.mem hb with hdigit | rfl | rfl
    · exact hdigit
    · exact absurd hb hnot.1
    · exact absurd hb hnot.2.1

def groupValue (t : List UInt8) : ℕ := (strtoul16 t).1

/-- A group is read up to the colon behind it or the end of the text. -/
theorem IsLooseGroup.reads (h : IsLooseGroup t) {rest : List UInt8}
    (hrest : rest = [] ∨ ∃ more, rest = ch ':' :: more) :
    strtoul16 (t ++ rest) = (groupValue t, rest) ∧ groupValue t ≤ 0xFFFF := by
  obtain ⟨mark, hmark, digits, hne, hall, hvalue, rfl⟩ := h
  have hends : ∀ {rest : List UInt8}, (rest = [] ∨ ∃ more, rest = ch ':' :: more) →
      strtoul16 (mark ++ digits ++ rest) = (xvalue digits, rest) := by
    intro rest hrest
    rw [strtoul16_append hmark hne hall, saturated, if_neg (by omega)]
    rintro b hb
    rcases hrest with rfl | ⟨more, rfl⟩
    · cases hb
    · cases hb
      decide
  have hgroup : groupValue (mark ++ digits) = xvalue digits := by
    have h := hends (.inl rfl)
    rw [List.append_nil] at h
    rw [groupValue, h]
  rw [hgroup]
  exact ⟨hends hrest, hvalue⟩

theorem IsGroup.value (h : IsGroup t) : groupValue t = xvalue t := by
  have hread : strtoul16 ([] ++ t ++ []) = (saturated (xvalue t), []) :=
    strtoul16_append nil_mem_hexMarks h.ne_nil h.digits (by simp)
  have hlt := xvalue_lt h.digits
  have hle : 16 ^ t.length ≤ 16 ^ 4 := Nat.pow_le_pow_right (by norm_num) h.length_le
  rw [List.nil_append, List.append_nil, saturated, if_neg (by omega)] at hread
  rw [groupValue, hread]

end Groups

theorem joinTexts_nil : joinTexts [] = [] := rfl

theorem joinTexts_cons {t : List UInt8} {ts : List (List UInt8)} (h : ts ≠ []) :
    joinTexts (t :: ts) = t ++ ch ':' :: joinTexts ts := by
  rw [joinTexts, List.intercalate_cons_of_ne_nil h, List.append_assoc, List.singleton_append]
  rfl

theorem joinTexts_append {ts us : List (List UInt8)} (hts : ts ≠ []) (hus : us ≠ []) :
    joinTexts (ts ++ us) = joinTexts ts ++ ch ':' :: joinTexts us := by
  induction ts with
  | nil => exact absurd rfl hts
  | cons t ts ih =>
    by_cases hnil : ts = []
    · subst hnil
      rw [List.singleton_append, joinTexts_cons hus]
      simp [joinTexts]
    · rw [List.cons_append, joinTexts_cons (by simp [hnil]), ih hnil, joinTexts_cons hnil,
        List.append_assoc, List.cons_append]

/-- Lists of texts without an empty one end where an empty one follows. -/
theorem append_inj_of_empty {ts us vs ws : List (List UInt8)} (hts : ∀ t ∈ ts, t ≠ [])
    (hus : ∀ t ∈ us, t ≠ []) (hvs : ∀ t ∈ vs.head?, t = []) (hws : ∀ t ∈ ws.head?, t = [])
    (h : ts ++ vs = us ++ ws) : ts = us ∧ vs = ws := by
  induction ts generalizing us with
  | nil =>
    cases us with
    | nil => exact ⟨rfl, h⟩
    | cons u us =>
      rw [List.nil_append] at h
      subst h
      exact absurd (hvs u rfl) (hus u List.mem_cons_self)
  | cons t ts ih =>
    cases us with
    | nil =>
      rw [List.nil_append] at h
      subst h
      exact absurd (hws t rfl) (hts t List.mem_cons_self)
    | cons u us =>
      rw [List.forall_mem_cons] at hts hus
      rw [List.cons_append, List.cons_append, List.cons.injEq] at h
      obtain ⟨rfl, rfl⟩ := ih hts.2 hus.2 h.2
      exact ⟨by rw [h.1], rfl⟩

namespace Parts

variable (p : Parts)

/-- The empty fields of a dangling colon. -/
def danglingFields : List (List UInt8) := if p.dangling then [[]] else []

/-- The groups behind a `::`, or an empty field when there are none. -/
def afterFields (ts : List (List UInt8)) : List (List UInt8) := ts ++ if ts = [] then [[]] else []

/-- The fields from the first empty one on: a `::` is an empty field, and two at the start. -/
def tailFields : List (List UInt8) :=
  p.after.elim [] (fun ts => (if p.before = [] then [[]] else []) ++ [] :: afterFields ts) ++
    p.danglingFields

def fields : List (List UInt8) := p.before ++ p.tailFields

variable {p} {q : Parts}

theorem afterFields_ne_nil (ts : List (List UInt8)) : afterFields ts ≠ [] := by
  unfold afterFields
  split_ifs with h
  · simp
  · simpa using h

theorem joinTexts_afterFields (ts : List (List UInt8)) :
    joinTexts (afterFields ts) = joinTexts ts := by
  unfold afterFields
  split_ifs with h
  · rw [h]
    rfl
  · rw [List.append_nil]

theorem text_eq_joinTexts (h : p.after = none → p.before ≠ []) :
    p.text = joinTexts p.fields := by
  obtain ⟨before, after, dangling⟩ := p
  have hcolon : ∀ ts : List (List UInt8), ts ≠ [] →
      joinTexts ts ++ (if dangling then [ch ':'] else []) =
        joinTexts (ts ++ danglingFields ⟨before, after, dangling⟩) := by
    intro ts hts
    cases dangling with
    | false => simp [danglingFields]
    | true =>
      have hempty : joinTexts [[]] = [] := rfl
      rw [danglingFields, if_pos rfl, if_pos rfl, joinTexts_append hts (by simp), hempty]
  cases after with
  | none =>
    have := hcolon before (h rfl)
    simpa [text, fields, tailFields] using this
  | some ts =>
    have hdouble : joinTexts ([] :: afterFields ts) = ch ':' :: joinTexts ts := by
      rw [joinTexts_cons (afterFields_ne_nil ts), List.nil_append, joinTexts_afterFields]
    by_cases hbefore : before = []
    · subst hbefore
      have := hcolon ([] :: [] :: afterFields ts) (List.cons_ne_nil _ _)
      rw [joinTexts_cons (List.cons_ne_nil _ _), hdouble] at this
      simpa [text, fields, tailFields, joinTexts_nil] using this
    · have := hcolon (before ++ [] :: afterFields ts) (by simp)
      rw [joinTexts_append hbefore (List.cons_ne_nil _ _), hdouble] at this
      simpa [text, fields, tailFields, hbefore] using this

/-- Parts whose text can be taken apart again. -/
structure Readable (p : Parts) : Prop where
  ne_nil : ∀ t ∈ p.groups, t ≠ []
  colon : ∀ t ∈ p.groups, ch ':' ∉ t
  before : p.after = none → p.before ≠ []

theorem head_danglingFields : ∀ t ∈ p.danglingFields.head?, t = [] := by
  unfold danglingFields
  split_ifs <;> simp

theorem head_tailFields : ∀ t ∈ p.tailFields.head?, t = [] := by
  unfold tailFields
  cases p.after with
  | none => exact head_danglingFields
  | some ts =>
    rw [Option.elim_some]
    split_ifs <;> simp

theorem danglingFields_inj (h : p.danglingFields = q.danglingFields) : p.dangling = q.dangling := by
  unfold danglingFields at h
  cases hp : p.dangling <;> cases hq : q.dangling <;> simp_all

theorem danglingFields_ne {ts us vs : List (List UInt8)} :
    p.danglingFields ≠ ts ++ [] :: afterFields us ++ vs := by
  intro h
  have hlen := congrArg List.length h
  have hpos := List.length_pos_of_ne_nil (afterFields_ne_nil us)
  have hle : p.danglingFields.length ≤ 1 := by
    unfold danglingFields
    split_ifs <;> simp
  simp only [List.length_append, List.length_cons] at hlen
  omega

theorem fields_inj (hp : p.Readable) (hq : q.Readable) (h : p.fields = q.fields) : p = q := by
  have hgroups : ∀ {r : Parts}, r.Readable → ∀ t ∈ r.before, t ≠ [] :=
    fun hr t ht => hr.ne_nil t (List.mem_append_left _ ht)
  obtain ⟨hbefore, htail⟩ := append_inj_of_empty (hgroups hp) (hgroups hq) head_tailFields
    head_tailFields h
  have hpne := hp.ne_nil
  have hqne := hq.ne_nil
  unfold tailFields at htail
  rw [hbefore] at htail
  unfold groups at hpne hqne
  obtain ⟨before, after, dangling⟩ := p
  obtain ⟨before', after', dangling'⟩ := q
  obtain rfl : before = before' := hbefore
  cases after with
  | none =>
    cases after' with
    | none => rw [show dangling = dangling' from danglingFields_inj htail]
    | some us => exact absurd htail danglingFields_ne
  | some ts =>
    cases after' with
    | none => exact absurd htail.symm danglingFields_ne
    | some us =>
      simp only [Option.elim_some, afterFields, List.append_assoc, List.cons_append,
        List.append_cancel_left_eq, List.cons.injEq, true_and] at htail
      have hts : ∀ t ∈ ts, t ≠ [] := fun t ht => hpne t (List.mem_append_right _ ht)
      have hus : ∀ t ∈ us, t ≠ [] := fun t ht => hqne t (List.mem_append_right _ ht)
      have hstop : ∀ (r : Parts) (vs : List (List UInt8)),
          ∀ t ∈ ((if vs = [] then [[]] else []) ++ r.danglingFields).head?, t = [] := by
        intro r vs
        split_ifs
        · simp
        · exact head_danglingFields
      obtain ⟨rfl, hdangling⟩ := append_inj_of_empty hts hus (hstop _ _) (hstop _ _) htail
      rw [List.append_cancel_left_eq] at hdangling
      rw [show dangling = dangling' from danglingFields_inj hdangling]

theorem Readable.colon_fields (hp : p.Readable) : ∀ t ∈ p.fields, ch ':' ∉ t := by
  have hcolon := hp.colon
  unfold groups at hcolon
  rw [List.forall_mem_append] at hcolon
  have hdangling : ∀ t ∈ p.danglingFields, ch ':' ∉ t := by
    unfold danglingFields
    split_ifs <;> simp
  unfold fields tailFields
  rw [List.forall_mem_append]
  refine ⟨hcolon.1, ?_⟩
  rw [List.forall_mem_append]
  refine ⟨?_, hdangling⟩
  cases hafter : p.after with
  | none => simp
  | some ts =>
    rw [hafter] at hcolon
    rw [Option.elim_some, List.forall_mem_append, List.forall_mem_cons, afterFields,
      List.forall_mem_append]
    refine ⟨?_, by simp, hcolon.2, ?_⟩
    · split_ifs <;> simp
    · split_ifs <;> simp

theorem Readable.fields_ne_nil (hp : p.Readable) : p.fields ≠ [] := by
  unfold fields tailFields
  cases hafter : p.after with
  | none => simp [hp.before hafter]
  | some ts => simp

theorem text_inj (hp : p.Readable) (hq : q.Readable) (h : p.text = q.text) : p = q := by
  have hsplit : ∀ {r : Parts}, r.Readable → r.text.splitOn (ch ':') = r.fields := by
    intro r hr
    rw [text_eq_joinTexts hr.before]
    exact List.splitOn_intercalate _ hr.colon_fields hr.fields_ne_nil
  apply fields_inj hp hq
  rw [← hsplit hp, ← hsplit hq, h]

theorem Loose.readable (h : p.Loose) : p.Readable where
  ne_nil t ht := (h.groups t ht).ne_nil
  colon t ht := (h.groups t ht).colon_notMem
  before hnone := by
    have hcount := h.count
    rw [hnone, Option.elim_none, Parts.groups, hnone, Option.getD_none, List.append_nil] at hcount
    exact List.ne_nil_of_length_pos (by omega)

theorem Strict.loose (h : p.Strict) : p.Loose where
  groups t ht := (h.groups t ht).loose
  count := by
    have hcount := h.count
    cases hafter : p.after with
    | none => rwa [hafter] at hcount
    | some ts =>
      rw [hafter] at hcount
      exact Nat.le_of_lt hcount
  dangling hdangling := by
    rw [h.dangling] at hdangling
    cases hdangling

theorem Loose.strict_iff (h : p.Loose) :
    p.Strict ↔ ¬ ((∃ t ∈ p.groups, ch 'x' ∈ t ∨ ch 'X' ∈ t ∨ 4 < t.length) ∨
      p.dangling = true ∨ p.after ≠ none ∧ p.groups.length = 8) := by
  constructor
  · rintro hstrict (⟨t, ht, hodd⟩ | hdangling | ⟨hafter, hcount⟩)
    · exact (h.groups t ht).isGroup_iff.mp (hstrict.groups t ht) hodd
    · rw [hstrict.dangling] at hdangling
      cases hdangling
    · obtain ⟨ts, hts⟩ := Option.ne_none_iff_exists'.mp hafter
      have hlt := hstrict.count
      rw [hts, Option.elim_some] at hlt
      omega
  · intro hnot
    simp only [not_or, not_exists, not_and, Bool.not_eq_true] at hnot
    obtain ⟨hgroups, hdangling, hcount⟩ := hnot
    refine ⟨fun t ht => ?_, ?_, hdangling⟩
    · rw [(h.groups t ht).isGroup_iff]
      simpa only [not_or] using hgroups t ht
    · have hle := h.count
      cases hafter : p.after with
      | none => rwa [hafter] at hle
      | some ts =>
        rw [hafter, Option.elim_some] at hle
        have hne := hcount (by rw [hafter]; exact Option.some_ne_none ts)
        exact lt_of_le_of_ne hle hne

end Parts

theorem isAddress_iff {p : Parts} (h : p.Loose) : IsAddress p.text ↔ ¬ IsLax p.text := by
  constructor
  · rintro ⟨q, hq, hqtext⟩ ⟨r, hr, hrtext, hodd⟩
    obtain rfl := Parts.text_inj hq.loose.readable hr.readable (hqtext.trans hrtext.symm)
    exact hr.strict_iff.mp hq hodd
  · intro hlax
    exact ⟨p, h.strict_iff.mpr fun hodd => hlax ⟨p, h, rfl, hodd⟩, rfl⟩

end Solcompat.Inet
