import Solcompat.Printf.Translate
import Solcompat.Printf.Vsnprintf

/-!
# Formats that do not fit

A format with a length modifier of C99 goes through a buffer of 2048 bytes. When its translation
is longer, the formatter gets what is in the buffer, unless the scanner never came to such a
modifier: then it gets the format of the caller. What is in the buffer is neither the format nor
its translation, but for an unfinished directive that spills over the end.
-/

namespace Solcompat.Printf

open Lib

section Prefix

variable (limit : ℕ)

theorem copyWhile_stored (p : UInt8 → Bool) (source stored : List UInt8) :
    stored <+: (copyWhile limit p source stored).stored := by
  induction source generalizing stored with
  | nil => exact List.prefix_rfl
  | cons b rest ih =>
    rw [copyWhile]
    split_ifs
    · exact (List.prefix_append stored [b]).trans (ih _)
    · exact List.prefix_rfl

namespace Cursor

variable (c : Cursor)

theorem copyByte_stored : c.stored <+: c.copyByte.stored := List.prefix_append _ _

theorem copyWidth_stored : c.stored <+: (c.copyWidth limit).stored := by
  unfold copyWidth
  split_ifs
  · exact c.copyByte_stored
  · exact copyWhile_stored _ _ _ _

theorem copyPrecision_stored : c.stored <+: (c.copyPrecision limit).stored := by
  unfold copyPrecision
  dsimp only
  split_ifs
  · exact c.copyByte_stored.trans (copyByte_stored _)
  · exact c.copyByte_stored.trans (copyWhile_stored _ _ _ _)
  · exact List.prefix_rfl

theorem convertLength_stored : c.stored <+: (c.convertLength limit).1.stored := by
  unfold convertLength
  split_ifs
  · exact List.prefix_rfl
  · exact List.prefix_append _ _
  · exact List.prefix_rfl
  · exact List.prefix_append _ _
  · exact copyWhile_stored _ _ _ _

theorem copySpecifier_stored : c.stored <+: (c.copySpecifier limit).stored := by
  unfold copySpecifier
  split_ifs
  · exact c.copyByte_stored
  · exact List.prefix_rfl

theorem directive_stored : c.stored <+: (c.directive limit).1.stored := by
  unfold directive
  exact (copyWhile_stored _ _ _ _).trans ((copyWidth_stored _ _).trans
    ((copyPrecision_stored _ _).trans ((convertLength_stored _ _).trans
      (copySpecifier_stored _ _))))

end Cursor

end Prefix

/-- What the loop adds to the buffer is never its source behind a byte that is no `%`. -/
theorem preprocessLoop_added (limit : ℕ) (c : Cursor) (changed : Bool) :
    ∃ added, (preprocessLoop limit c changed).1.stored = c.stored ++ added ∧
      ∀ a, a ≠ ch '%' → added ≠ a :: c.source := by
  -- a directive and a `%%` add a `%` first
  have hpercent : ∀ {c : Cursor} {stored : List UInt8}, c.stored ++ [ch '%'] <+: stored →
      ∃ added, stored = c.stored ++ added ∧ ∀ a, a ≠ ch '%' → added ≠ a :: c.source := by
    rintro c - ⟨more, rfl⟩
    refine ⟨ch '%' :: more, by simp, fun a ha heq => ?_⟩
    exact ha (List.cons.inj heq).1.symm
  fun_induction preprocessLoop limit c changed with
  | case1 c changed hc => exact ⟨[], by simp, fun a _ => List.cons_ne_nil _ _ ∘ Eq.symm⟩
  | case2 c changed b rest hc hroom hb ih =>
    obtain ⟨added, hstored, hadded⟩ := ih
    refine ⟨b :: added, by rw [hstored]; simp, fun a ha heq => ?_⟩
    rw [hc] at heq
    exact hadded b hb (List.cons.inj heq).2
  | case3 c changed b rest hc hroom hb d hend =>
    obtain rfl := not_not.mp hb
    exact hpercent List.prefix_rfl
  | case4 c changed b rest hc hroom hb d hgo hpeek ih =>
    obtain rfl := not_not.mp hb
    obtain ⟨added, hstored, -⟩ := ih
    rw [hstored]
    exact hpercent (d.copyByte_stored.trans (List.prefix_append _ _))
  | case5 c changed b rest hc hroom hb d hgo hpeek step ih =>
    obtain rfl := not_not.mp hb
    obtain ⟨added, hstored, -⟩ := ih
    rw [hstored]
    exact hpercent ((d.directive_stored limit).trans (List.prefix_append _ _))
  | case6 c changed b rest hc hroom =>
    exact ⟨[], by simp, fun a _ => List.cons_ne_nil _ _ ∘ Eq.symm⟩

namespace Cursor

variable {limit : ℕ} {source stored rest : List UInt8} {d : Directive}

theorem upToModifier_reached (hd : (Directive.read source).1 = d)
    (h : d.Reached limit stored.length) :
    upToModifier limit ⟨source, stored⟩ =
      ⟨Directive.afterPrecision source, stored ++ d.flags ++ d.width ++ d.precision⟩ := by
  rcases h.2 with hfits | ⟨hstar, hprecision⟩
  · exact upToModifier_fits hd hfits
  · rw [upToModifier_star hd hstar, hstar.2.2, hprecision, List.append_nil]
    rw [← hd] at hprecision
    simp only [Directive.read] at hprecision
    rw [Directive.afterPrecision, hprecision, List.length_nil, List.drop_zero]

/-- Either a `j` has become `ll`, or one byte of the source was left out. -/
theorem directive_rewrites (hd : Directive.read source = (d, rest))
    (h : d.Reached limit stored.length) (hnew : d.modifier.isNew = true) :
    ∃ front a, a ≠ ch '%' ∧ source = front ++ a :: (d.conversion ++ rest) ∧
      ((a ≠ ch 'l' ∧
          stored ++ front ++ [ch 'l'] <+: (directive limit ⟨source, stored⟩).1.stored) ∨
        (directive limit ⟨source, stored⟩).1 =
          copySpecifier limit ⟨d.conversion ++ rest, stored ++ front⟩) := by
  have hfst : (Directive.read source).1 = d := by rw [hd]
  obtain ⟨hsource, hafter⟩ := Directive.read_split hd
  have hmodifier := Directive.read_modifier hfst
  rw [directive_eq, upToModifier_reached hfst h, convertLength_eq, hmodifier]
  rw [hafter] at hsource ⊢
  generalize hfront : d.flags ++ d.width ++ d.precision = front at hsource
  have hstored : stored ++ d.flags ++ d.width ++ d.precision = stored ++ front := by
    rw [← hfront]
    simp only [List.append_assoc]
  rw [hstored]
  cases hm : d.modifier with
  | z =>
    rw [hm] at hsource
    exact ⟨front, ch 'z', by decide, hsource, .inr rfl⟩
  | t =>
    rw [hm] at hsource
    exact ⟨front, ch 't', by decide, hsource, .inr rfl⟩
  | j =>
    rw [hm] at hsource
    refine ⟨front, ch 'j', by decide, hsource, ?_⟩
    dsimp only
    split_ifs with hroom
    · refine .inl ⟨by decide, List.IsPrefix.trans ?_ (copySpecifier_stored _ _)⟩
      exact ⟨[ch 'l'], by simp⟩
    · exact .inr rfl
  | hh =>
    rw [hm] at hsource
    refine ⟨front ++ [ch 'h'], ch 'h', by decide, by rw [hsource]; simp [Modifier.text], .inr ?_⟩
    rw [← List.append_assoc stored front]
    rfl
  | standard text =>
    rw [hm] at hnew
    cases hnew

theorem directive_changed (hroom : stored.length < limit) (hd : Directive.read source = (d, rest))
    (h : (directive limit ⟨source, stored⟩).2 = true) :
    d.Reached limit stored.length ∧ d.modifier.isNew = true := by
  by_cases hfits : stored.length + d.rewritten.text.length ≤ limit
  · rw [directive_fits hd hfits] at h
    have hlen := d.rewritten_text_length
    exact ⟨⟨hroom, .inl (by omega)⟩, h⟩
  · exact ((directive_cutOff (by rw [hd]) hroom (not_le.mp hfits)).changed.mp h).symm

end Cursor

theorem copyWhile_content (limit : ℕ) (p : UInt8 → Bool) (source stored : List UInt8) :
    (copyWhile limit p source stored).stored ++ (copyWhile limit p source stored).source =
      stored ++ source := by
  induction source generalizing stored with
  | nil => rfl
  | cons b rest ih =>
    rw [copyWhile]
    split_ifs
    · rw [ih, List.append_assoc, List.singleton_append]
    · rfl

namespace Cursor

/-- The bytes in the buffer and those still to be read. -/
def content (c : Cursor) : List UInt8 := c.stored ++ c.source

variable (limit : ℕ) (c : Cursor)

theorem copyByte_content (h : c.source ≠ []) : c.copyByte.content = c.content := by
  obtain ⟨source, stored⟩ := c
  cases source with
  | nil => exact absurd rfl h
  | cons b rest => simp [content, copyByte, peek]

variable {c} in
theorem source_ne_nil_of_peek {b : UInt8} (h : c.peek = b) (hb : b ≠ 0) : c.source ≠ [] := by
  intro hnil
  rw [peek, hnil] at h
  exact hb h.symm

theorem copyWidth_content : (c.copyWidth limit).content = c.content := by
  unfold copyWidth
  split_ifs with hstar
  · exact c.copyByte_content (source_ne_nil_of_peek hstar (by decide))
  · exact copyWhile_content _ _ _ _

theorem copyPrecision_content : (c.copyPrecision limit).content = c.content := by
  unfold copyPrecision
  dsimp only
  split_ifs with hpoint hstar
  · rw [copyByte_content _ (source_ne_nil_of_peek hstar.1 (by decide)),
      copyByte_content _ (source_ne_nil_of_peek hpoint.1 (by decide))]
  · exact (copyWhile_content _ _ _ _).trans
      (c.copyByte_content (source_ne_nil_of_peek hpoint.1 (by decide)))
  · rfl

theorem convertLength_content (h : (c.convertLength limit).2 = false) :
    (c.convertLength limit).1.content = c.content := by
  unfold convertLength at h ⊢
  split_ifs at h ⊢
  exact copyWhile_content _ _ _ _

theorem copySpecifier_content : (c.copySpecifier limit).content = c.content := by
  unfold copySpecifier
  split_ifs with hmore
  · exact c.copyByte_content hmore.1
  · rfl

theorem directive_content (h : (c.directive limit).2 = false) :
    (c.directive limit).1.content = c.content := by
  unfold directive at h ⊢
  dsimp only at h ⊢
  rw [copySpecifier_content, convertLength_content _ _ h, copyPrecision_content,
    copyWidth_content]
  exact copyWhile_content _ _ _ _

end Cursor

/-- Behind a rewritten directive nothing can make up for the difference: the format would have to
continue with what was left out. -/
theorem rewritten_differs {limit : ℕ} {source stored : List UInt8} {changed : Bool}
    (hroom : stored.length < limit) (h : (Cursor.directive limit ⟨source, stored⟩).2 = true) :
    (preprocessLoop limit (Cursor.directive limit ⟨source, stored⟩).1 changed).1.stored ≠
      Cursor.content ⟨source, stored⟩ := by
  cases hd : Directive.read source with
  | mk d rest =>
  obtain ⟨hreached, hnew⟩ := Cursor.directive_changed hroom hd h
  obtain ⟨front, a, ha, hsource, hstep⟩ := Cursor.directive_rewrites hd hreached hnew
  obtain ⟨added, hstored, hadded⟩ := preprocessLoop_added limit
    (Cursor.directive limit ⟨source, stored⟩).1 changed
  have hcontent : Cursor.content ⟨source, stored⟩ =
      stored ++ front ++ a :: (d.conversion ++ rest) := by
    simp [Cursor.content, hsource]
  rw [hstored, hcontent]
  rcases hstep with ⟨hl, more, hmore⟩ | hstep
  · intro heq
    rw [← hmore, List.append_assoc, List.append_assoc, List.append_cancel_left_eq] at heq
    exact hl (List.cons.inj heq).1.symm
  · rw [hstep] at hadded ⊢
    generalize d.conversion ++ rest = tail at hadded ⊢
    unfold Cursor.copySpecifier at hadded ⊢
    split_ifs at hadded ⊢ with hcopy
    · cases tail with
      | nil => exact absurd rfl hcopy.1
      | cons b tail =>
        intro heq
        simp only [Cursor.copyByte, Cursor.peek, List.headD_cons, List.append_assoc,
          List.append_cancel_left_eq, List.singleton_append, List.cons.injEq] at heq
        obtain ⟨rfl, heq⟩ := heq
        exact hadded b ha heq
    · intro heq
      exact hadded a ha (List.append_cancel_left heq)

theorem preprocessLoop_differs (limit : ℕ) (c : Cursor) (changed : Bool) (hbefore : changed = false)
    (h : (preprocessLoop limit c changed).2 = true) :
    (preprocessLoop limit c changed).1.stored ≠ c.content := by
  fun_induction preprocessLoop limit c changed with
  | case1 c changed hc => rw [hbefore] at h; cases h
  | case2 c changed b rest hc hroom hb ih =>
    have hcontent : c.content = Cursor.content ⟨rest, c.stored ++ [b]⟩ := by
      simp [Cursor.content, hc]
    rw [hcontent]
    exact ih hbefore h
  | case3 c changed b rest hc hroom hb d hend => rw [hbefore] at h; cases h
  | case4 c changed b rest hc hroom hb d hgo hpeek ih =>
    have hcontent : c.content = d.copyByte.content := by
      rw [Cursor.copyByte_content d (Cursor.source_ne_nil_of_peek hpeek (by decide))]
      simp [Cursor.content, hc, d]
    rw [hcontent]
    exact ih hbefore h
  | case5 c changed b rest hc hroom hb d hgo hpeek step ih =>
    have hcontent : c.content = d.content := by simp [Cursor.content, hc, d]
    rw [hcontent]
    subst hbefore
    cases hstep : step.2 with
    | false =>
      rw [hstep] at ih h
      rw [← Cursor.directive_content limit d hstep]
      exact ih rfl h
    | true =>
      have hroom' : d.stored.length < limit := by
        by_contra hfull
        exact hgo (.inr hfull)
      exact rewritten_differs hroom' hstep
  | case6 c changed b rest hc hroom => rw [hbefore] at h; cases h

theorem preprocessFmt_differs {fmt : CString} {outsize : ℕ}
    (h : (preprocessFmt fmt outsize).changed = true) :
    (preprocessFmt fmt outsize).stored ≠ fmt.bytes :=
  preprocessLoop_differs _ _ _ rfl h

section Calls

variable {Args : Type*} {sys : System Args} {fmt : CString} {ap : Args}

theorem growLoop_output {text output : List UInt8} {request workSize requests : ℕ}
    {hpos : 0 < workSize}
    (h : growLoop sys text ap request workSize hpos = .fits output requests) :
    sys.vsprintf text ap = some output := by
  fun_induction growLoop sys text ap request workSize hpos with
  | case1 => cases h
  | case2 => cases h
  | case3 request workSize hpos hm output' hv hfit =>
    rw [hv, (Grown.fits.inj h).1]
  | case4 => cases h
  | case5 request workSize hpos hm output' hv hfit hlimit ih => exact ih h

/-- The call has formatted `text`: it returns the length of the output, and the caller's buffer
holds what fits of it. -/
def Formats (sys : System Args) (ap : Args) (text : List UInt8) (str : Option Memory) (size : ℕ)
    (result : Result) : Prop :=
  ∃ output, sys.vsprintf text ap = some output ∧ result.ret = output.length ∧
    result.str = if 0 < size then str.map fun m => copyOut m size output else str

theorem solcompatVsnprintf_formats (request : ℕ) (str : Option Memory) (size : ℕ) :
    (solcompatVsnprintf sys request str size fmt ap).ret = -1 ∨
      Formats sys ap ((preprocessFmt fmt 2048).result fmt) str size
        (solcompatVsnprintf sys request str size fmt ap) := by
  unfold solcompatVsnprintf
  split
  · exact .inl rfl
  · rename_i output requests h
    exact .inr ⟨output, growLoop_output h, rfl, rfl⟩

end Calls

/-- Whatever the formatter does and whatever the arguments are, a call fails or formats the whole
format, as it is or translated. -/
def NeverCut (fmt : CString) : Prop :=
  ∀ (Args : Type) (sys : System Args) (ap : Args) (request : ℕ) (str : Option Memory) (size : ℕ),
    (solcompatVsnprintf sys request str size fmt ap).ret = -1 ∨
      Formats sys ap fmt.bytes str size (solcompatVsnprintf sys request str size fmt ap) ∨
      Formats sys ap (translate (items fmt.bytes)) str size
        (solcompatVsnprintf sys request str size fmt ap)

theorem neverCut_iff_result (fmt : CString) :
    NeverCut fmt ↔ (preprocessFmt fmt 2048).result fmt = fmt.bytes ∨
      (preprocessFmt fmt 2048).result fmt = translate (items fmt.bytes) := by
  constructor
  · intro h
    by_contra hnot
    rw [not_or] at hnot
    -- a formatter that tells the whole format from anything else by the length of its output
    let sys : System Unit := ⟨fun text _ =>
      some (if text = fmt.bytes ∨ text = translate (items fmt.bytes) then [] else [0]),
      fun _ _ => 0, fun _ => true⟩
    have hv : sys.vsprintf ((preprocessFmt fmt 2048).result fmt) () = some [0] := by
      simp [sys, hnot]
    obtain ⟨requests, hcall⟩ := solcompatVsnprintf_of_output (fun _ => rfl) fmt () hv
      (by norm_num) 0 none 0
    rcases h Unit sys () 0 none 0 with hret | ⟨output, hout, hret, -⟩ | ⟨output, hout, hret, -⟩
    · rw [hcall] at hret
      cases hret
    · rw [hcall] at hret
      simp only [sys, true_or, if_true, Option.some.injEq] at hout
      rw [← hout] at hret
      cases hret
    · rw [hcall] at hret
      simp only [sys, or_true, if_true, Option.some.injEq] at hout
      rw [← hout] at hret
      cases hret
  · intro h Args sys ap request str size
    refine (solcompatVsnprintf_formats request str size).imp_right fun hformats => ?_
    rcases h with h | h
    · rw [h] at hformats
      exact .inl hformats
    · rw [h] at hformats
      exact .inr hformats

/-- A format whose translation is too long for the buffer is never cut if and only if the scanner
gets to none of its C99 length modifiers before the buffer is full, or the excess is the end of
an unfinished directive that is stored past the end. -/
theorem neverCut_iff (fmt : CString) (hlong : 2048 ≤ (translate (items fmt.bytes)).length) :
    NeverCut fmt ↔ ¬ Somewhere (Item.Rewrites 2047) (items fmt.bytes) 0 ∨
      AtEnd (Item.Spills 2047) (items fmt.bytes) 0 := by
  have hscanned := preprocessFmt_scanned fmt 2048
  have hchanged := hscanned.changed
  have hwhole := hscanned.whole (by rw [List.length_nil]; omega)
  rw [List.length_nil] at hchanged hwhole
  rw [List.nil_append] at hwhole
  rw [neverCut_iff_result, ← hwhole]
  unfold Preprocessed.result
  by_cases h : (preprocessFmt fmt 2048).changed = true
  · have hsomewhere := (hchanged.mp h).resolve_left (by simp)
    rw [if_pos h, or_iff_right (preprocessFmt_differs h), or_iff_right (not_not.mpr hsomewhere)]
  · have hnowhere := fun hsomewhere => h (hchanged.mpr (.inr hsomewhere))
    rw [if_neg h]
    exact iff_of_true (.inl rfl) (.inl hnowhere)

/-- A C99 directive, with plain text around it. -/
def sizeFormat (before after : ℕ) : CString :=
  ⟨List.replicate before (ch 'x') ++ ((CString.ofString "%zd").bytes ++
    List.replicate after (ch 'x')), by
    have hx : ∀ n, ∀ b ∈ List.replicate n (ch 'x'), b ≠ 0 := by
      intro n b hb
      rw [List.eq_of_mem_replicate hb]
      decide
    intro b hb
    rcases List.mem_append.mp hb with hb | hb
    · exact hx before b hb
    · rcases List.mem_append.mp hb with hb | hb
      · exact (CString.ofString "%zd").nulFree b hb
      · exact hx after b hb⟩

theorem sizeFormat_bytes (before after : ℕ) : (sizeFormat before after).bytes =
    List.replicate before (ch 'x') ++ ([ch '%', ch 'z', ch 'd'] ++
      List.replicate after (ch 'x')) := by
  have hsize : (CString.ofString "%zd").bytes = [ch '%', ch 'z', ch 'd'] := by decide +kernel
  rw [← hsize]
  rfl

theorem sizeFormat_items (before after : ℕ) : items (sizeFormat before after).bytes =
    (List.replicate before (ch 'x')).map .literal ++
      (.directive ⟨[], [], [], .z, [ch 'd']⟩ :: (List.replicate after (ch 'x')).map .literal) := by
  have hx : ∀ n, ∀ b ∈ List.replicate n (ch 'x'), b ≠ ch '%' := by
    intro n b hb
    rw [List.eq_of_mem_replicate hb]
    decide
  have hd : Directive.IsC99 ⟨[], [], [], .z, [ch 'd']⟩ :=
    ⟨by simp, .inr (by simp), .inl rfl, by decide, ch 'd', by decide, rfl⟩
  have htext : [ch '%', ch 'z', ch 'd'] =
      ch '%' :: Directive.text ⟨[], [], [], .z, [ch 'd']⟩ := rfl
  have hafter : items (List.replicate after (ch 'x')) =
      (List.replicate after (ch 'x')).map .literal := by
    rw [← List.append_nil (List.replicate after (ch 'x')), items_literal (hx after), items,
      List.append_nil, List.append_nil]
  rw [sizeFormat_bytes, items_literal (hx before), htext, List.cons_append, items_directive hd,
    hafter]
  rfl

/-- The directive is behind the part that the buffer holds. -/
theorem neverCut_behind :
    2048 ≤ (translate (items (sizeFormat 2047 0).bytes)).length ∧ NeverCut (sizeFormat 2047 0) := by
  have hlong : 2048 ≤ (translate (items (sizeFormat 2047 0).bytes)).length := by
    rw [sizeFormat_items, translate, List.flatMap_append, ← translate, translate_literal,
      List.length_append, List.length_replicate]
    decide
  refine ⟨hlong, (neverCut_iff _ hlong).mpr (.inl ?_)⟩
  rw [sizeFormat_items, somewhere_literal (fun _ _ => id), List.length_replicate]
  exact not_somewhere_of_le (fun _ _ h => Nat.lt_of_succ_lt h.lt) le_rfl

theorem scan_replicate {limit n k : ℕ} {b : UInt8} (hb : b ≠ ch '%') {stored : List UInt8}
    {changed : Bool} (h : stored.length + n = limit) :
    scan limit (List.replicate (n + k) b) stored changed =
      ⟨stored ++ List.replicate n b, changed⟩ := by
  induction n generalizing stored with
  | zero => rw [scan_full (by omega), List.replicate_zero, List.append_nil]
  | succ n ih =>
    have hnext : (stored ++ [b]).length + n = limit := by
      rw [List.length_append, List.length_singleton]
      omega
    rw [Nat.add_right_comm, List.replicate_succ, scan_literal (by omega) hb, ih hnext,
      List.replicate_succ, List.append_assoc, List.singleton_append]

theorem sizeFormat_preprocessed (k : ℕ) :
    preprocessFmt (sizeFormat 0 (2045 + k)) 2048 =
      ⟨[ch '%', ch 'd'] ++ List.replicate 2045 (ch 'x'), true⟩ := by
  have hd : Directive.IsC99 ⟨[], [], [], .z, [ch 'd']⟩ :=
    ⟨by simp, .inr (by simp), .inl rfl, by decide, ch 'd', by decide, rfl⟩
  have hbytes : (sizeFormat 0 (2045 + k)).bytes =
      ch '%' :: (Directive.text ⟨[], [], [], .z, [ch 'd']⟩ ++
        List.replicate (2045 + k) (ch 'x')) := by
    rw [sizeFormat_bytes]
    rfl
  have hread := Directive.read_text hd (List.replicate (2045 + k) (ch 'x'))
  have hne : Directive.text ⟨[], [], [], .z, [ch 'd']⟩ ++
      List.replicate (2045 + k) (ch 'x') ≠ [] := List.cons_ne_nil _ _
  rw [preprocessFmt_eq, hbytes, scan_directive (by decide) hne (hd.head_ne _),
    Cursor.directive_fits hread (by decide)]
  exact scan_replicate (by decide) rfl

/-- A formatter for a number at the start of a format, in plain text otherwise. -/
def numberSystem : System ℕ where
  vsprintf text n :=
    if text.take 2 = [ch '%', ch 'd'] then some ((toString n).toList.map ch ++ text.drop 2)
    else if text.take 3 = [ch '%', ch 'z', ch 'd'] then
      some ((toString n).toList.map ch ++ text.drop 3)
    else some text
  storedOnError _ _ := 0
  malloc _ := true

/-- A directive and more plain text than the buffer holds: the length that is returned lacks the
text that was cut. -/
theorem neverCut_fails :
    2048 ≤ (translate (items (sizeFormat 0 (2045 + 55)).bytes)).length ∧
      ¬ NeverCut (sizeFormat 0 (2045 + 55)) := by
  have htranslation : translate (items (sizeFormat 0 (2045 + 55)).bytes) =
      [ch '%', ch 'd'] ++ List.replicate (2045 + 55) (ch 'x') := by
    rw [sizeFormat_items, List.replicate_zero, List.map_nil, List.nil_append, translate_cons,
      translate_literal]
    rfl
  rw [htranslation, List.length_append, List.length_replicate]
  refine ⟨by decide, fun h => ?_⟩
  have hdigits : ((toString 7).toList.map ch).length = 1 := by decide +kernel
  have hwhole : ∀ {text : List UInt8}, numberSystem.vsprintf text 7 =
      some ((toString 7).toList.map ch ++ List.replicate (2045 + 55) (ch 'x')) →
      ∀ {result : Result}, Formats numberSystem 7 text none 0 result → result.ret = 2101 := by
    rintro text hv result ⟨output, hout, hret, -⟩
    rw [hv, Option.some.injEq] at hout
    rw [hret, ← hout, List.length_append, hdigits, List.length_replicate]
    rfl
  have hv : numberSystem.vsprintf ((preprocessFmt (sizeFormat 0 (2045 + 55)) 2048).result
      (sizeFormat 0 (2045 + 55))) 7 =
      some ((toString 7).toList.map ch ++ List.replicate 2045 (ch 'x')) := by
    rw [sizeFormat_preprocessed]
    rfl
  obtain ⟨requests, hcall⟩ := solcompatVsnprintf_of_output (fun _ => rfl) _ 7 hv
    (by rw [List.length_append, hdigits, List.length_replicate]; decide) 0 none 0
  have hret :
      (solcompatVsnprintf numberSystem 0 none 0 (sizeFormat 0 (2045 + 55)) 7).ret = 2046 := by
    rw [hcall]
    simp only [List.length_append, hdigits, List.length_replicate]
    rfl
  rcases h ℕ numberSystem 7 0 none 0 with hfail | hformats | hformats
  · rw [hret] at hfail
    cases hfail
  · have := hwhole (by rw [sizeFormat_bytes]; rfl) hformats
    rw [hret] at this
    cases this
  · have := hwhole (by rw [htranslation]; rfl) hformats
    rw [hret] at this
    cases this

end Solcompat.Printf
