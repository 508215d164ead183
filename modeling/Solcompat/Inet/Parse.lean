import Solcompat.Inet.Grammar
import Solcompat.Inet.Model

/-!
# What the parser makes of a text

The parser stores the groups of a text one after another, remembers where `::` stood, and moves
the groups after it to the end of the array. It takes every text with loose parts, and no other,
and every array index is in range on the way.
-/

namespace Solcompat.Inet

open Lib

theorem index_ofNat {k : ℕ} (h : k < 8) : index (k : ℤ) = .ok ⟨k, h⟩ := by
  unfold index
  rw [dif_pos (by omega)]
  simp

theorem read_ofNat {k : ℕ} (hk : k < 8) (g : Groups) : g.read (k : ℤ) = .ok (g ⟨k, hk⟩) := by
  unfold Groups.read
  rw [index_ofNat hk]
  rfl

theorem write_ofNat {k : ℕ} (hk : k < 8) (g : Groups) (v : ℕ) :
    g.write (k : ℤ) v = .ok (Function.update g ⟨k, hk⟩ v) := by
  unfold Groups.write
  rw [index_ofNat hk]
  rfl

/-- Consecutive groups from position `k` on. -/
def storeFrom (g : Groups) (k : ℕ) (ws : List ℕ) : Groups :=
  fun j => if k ≤ j ∧ j < k + ws.length then ws.getD (j - k) 0 else g j

theorem storeFrom_nil (g : Groups) (k : ℕ) : storeFrom g k [] = g := by
  funext j
  rw [storeFrom, if_neg (by simp)]

theorem storeFrom_cons {k : ℕ} (hk : k < 8) (g : Groups) (w : ℕ) (ws : List ℕ) :
    storeFrom (Function.update g ⟨k, hk⟩ w) (k + 1) ws = storeFrom g k (w :: ws) := by
  funext j
  unfold storeFrom
  by_cases hj : (j : ℕ) = k
  · have hj' : j = ⟨k, hk⟩ := Fin.ext hj
    subst hj'
    simp
  · have hj' : j ≠ ⟨k, hk⟩ := fun h => hj (congrArg Fin.val h)
    rw [Function.update_of_ne hj']
    by_cases hin : k + 1 ≤ (j : ℕ) ∧ (j : ℕ) < k + 1 + ws.length
    · rw [if_pos hin, if_pos (by simp; omega), show (j : ℕ) - k = (j - (k + 1)) + 1 by omega]
      simp
    · rw [if_neg hin, if_neg (by simp; omega)]

theorem parseLoop_nil (rounds : ℕ) (g : Groups) (k : ℕ) (dcolon : ℤ) :
    parseLoop rounds ⟨g, k, dcolon, []⟩ = .ok ⟨g, k, dcolon, []⟩ := by
  cases rounds with
  | zero => rfl
  | succ rounds => rw [parseLoop, if_neg (by simp)]

/-- What a group may have behind it. -/
def EndsGroup (rest : List UInt8) : Prop := rest = [] ∨ ∃ more, rest = ch ':' :: more

/-- How the loop goes on with the colons behind a group. -/
def afterGroup (rounds : ℕ) (s : Parse) : Except Fault Parse :=
  match s.p with
  | [] => parseLoop rounds s
  | [_] => parseLoop rounds { s with p := [] }
  | _ :: d :: p =>
    if d = ch ':' then
      if 0 ≤ s.dcolon then .error .reject
      else if p = [] then .ok { s with dcolon := s.ngroups, p := [] }
      else parseLoop rounds { s with dcolon := s.ngroups, p := p }
    else parseLoop rounds { s with p := d :: p }

/-- One round on a group: it is stored, and what follows it decides how to go on. -/
theorem parseLoop_group {t : List UInt8} (ht : IsLooseGroup t) {k : ℕ} (hk : k < 8) (rounds : ℕ)
    (g : Groups) (dcolon : ℤ) {rest : List UInt8} (hrest : EndsGroup rest) :
    parseLoop (rounds + 1) ⟨g, k, dcolon, t ++ rest⟩ =
      afterGroup rounds ⟨Function.update g ⟨k, hk⟩ (groupValue t), k + 1, dcolon, rest⟩ := by
  obtain ⟨hnumber, hvalue⟩ := ht.reads hrest
  have hne : t ++ rest ≠ [] := by simp [ht.ne_nil]
  have hhead : isxdigit ((t ++ rest).headD 0) = true := by
    obtain ⟨b, bs, rfl⟩ := List.exists_cons_of_ne_nil ht.ne_nil
    exact ht.head
  rw [parseLoop]
  simp only [hne, hk, ne_eq, not_false_eq_true, and_self, if_true, hhead, hnumber]
  rw [if_neg (by omega), write_ofNat hk]
  rcases hrest with rfl | ⟨more, rfl⟩
  · rfl
  · cases more <;> rfl

theorem afterGroup_nil (rounds : ℕ) (g : Groups) (k : ℕ) (dcolon : ℤ) :
    afterGroup rounds ⟨g, k, dcolon, []⟩ = .ok ⟨g, k, dcolon, []⟩ :=
  parseLoop_nil rounds g k dcolon

theorem afterGroup_single (rounds : ℕ) (g : Groups) (k : ℕ) (dcolon : ℤ) {p : List UInt8}
    (hp : p.head? ≠ some (ch ':')) :
    afterGroup rounds ⟨g, k, dcolon, ch ':' :: p⟩ = parseLoop rounds ⟨g, k, dcolon, p⟩ := by
  cases p with
  | nil => rfl
  | cons d p =>
    have hd : d ≠ ch ':' := fun h => hp (by rw [h]; rfl)
    simp only [afterGroup, if_neg hd]

theorem afterGroup_double (rounds : ℕ) (g : Groups) (k : ℕ) (dcolon : ℤ) (p : List UInt8) :
    afterGroup rounds ⟨g, k, dcolon, ch ':' :: ch ':' :: p⟩ =
      if 0 ≤ dcolon then .error .reject else parseLoop rounds ⟨g, k, k, p⟩ := by
  simp only [afterGroup, if_true]
  congr 1
  split_ifs with hp
  · rw [hp, parseLoop_nil]
  · rfl

section Join

variable {ts : List (List UInt8)} (hts : ∀ t ∈ ts, IsLooseGroup t)
include hts

theorem head_joinTexts (hne : ts ≠ []) (rest : List UInt8) :
    isxdigit ((joinTexts ts ++ rest).headD 0) = true := by
  obtain ⟨t, us, rfl⟩ := List.exists_cons_of_ne_nil hne
  have ht := hts t List.mem_cons_self
  obtain ⟨b, bs, rfl⟩ := List.exists_cons_of_ne_nil ht.ne_nil
  have hb : isxdigit b = true := ht.head
  by_cases hus : us = []
  · subst hus
    exact hb
  · rw [joinTexts_cons hus]
    exact hb

theorem head_joinTexts_ne_colon (hne : ts ≠ []) (rest : List UInt8) :
    (joinTexts ts ++ rest).head? ≠ some (ch ':') := by
  intro h
  have hhead := head_joinTexts hts hne rest
  rw [List.headD_eq_head?_getD, h] at hhead
  exact absurd hhead (by decide)

theorem parseLoop_joinTexts (hne : ts ≠ []) (rounds : ℕ) (g : Groups) (k : ℕ) (dcolon : ℤ)
    (hk : k + ts.length ≤ 8) {rest : List UInt8} (hrest : EndsGroup rest) :
    parseLoop (rounds + ts.length) ⟨g, k, dcolon, joinTexts ts ++ rest⟩ =
      afterGroup rounds ⟨storeFrom g k (ts.map groupValue), k + ts.length, dcolon, rest⟩ := by
  induction ts generalizing g k with
  | nil => exact absurd rfl hne
  | cons t us ih =>
    rw [List.forall_mem_cons] at hts
    rw [List.length_cons] at hk ⊢
    rw [List.map_cons, ← storeFrom_cons (show k < 8 by omega)]
    by_cases hus : us = []
    · subst hus
      have hsingle : joinTexts [t] = t := by simp [joinTexts]
      rw [hsingle, List.map_nil, storeFrom_nil]
      exact parseLoop_group hts.1 _ _ _ _ hrest
    · have hmore : EndsGroup (ch ':' :: (joinTexts us ++ rest)) := .inr ⟨_, rfl⟩
      rw [joinTexts_cons hus, List.append_assoc, List.cons_append, ← Nat.add_assoc,
        parseLoop_group hts.1 (by omega) _ _ _ hmore,
        afterGroup_single _ _ _ _ (head_joinTexts_ne_colon hts.2 hus rest),
        ih hts.2 hus _ (k + 1) (by omega)]
      congr 2
      omega

theorem parseLoop_last (dangling : Bool) (hdangling : dangling = true → ts ≠ []) (rounds : ℕ)
    (g : Groups) (k : ℕ) (dcolon : ℤ) (hk : k + ts.length ≤ 8) :
    parseLoop (rounds + ts.length)
        ⟨g, k, dcolon, joinTexts ts ++ if dangling then [ch ':'] else []⟩ =
      .ok ⟨storeFrom g k (ts.map groupValue), k + ts.length, dcolon, []⟩ := by
  by_cases hne : ts = []
  · subst hne
    have hfalse : dangling = false := by simpa using hdangling
    rw [hfalse]
    simpa [storeFrom_nil, joinTexts_nil] using parseLoop_nil rounds g k dcolon
  · cases dangling with
    | false =>
      rw [if_neg Bool.false_ne_true, parseLoop_joinTexts hts hne rounds g k dcolon hk (.inl rfl)]
      exact afterGroup_nil _ _ _ _
    | true =>
      rw [if_pos rfl, parseLoop_joinTexts hts hne rounds g k dcolon hk (.inr ⟨[], rfl⟩)]
      exact parseLoop_nil _ _ _ _

end Join

/-- Moving `n` groups from position `d` up by `fill`, last one first. -/
theorem shiftGroups_eq {d fill : ℕ} (n : ℕ) :
    ∀ g : Groups, d + fill + n ≤ 8 →
      shiftGroups d fill n g = .ok fun j =>
        if d + fill ≤ j ∧ (j : ℕ) < d + fill + n then g ⟨j - fill, by omega⟩ else g j := by
  induction n with
  | zero =>
    intro g _
    rw [shiftGroups]
    congr 1
    funext j
    rw [if_neg (by omega)]
  | succ n ih =>
    intro g hn
    have hread : g.read ((d : ℤ) + (n : ℤ)) = .ok (g ⟨d + n, by omega⟩) := by
      exact_mod_cast read_ofNat (show d + n < 8 by omega) g
    have hwrite : g.write ((d : ℤ) + fill + (n : ℤ)) (g ⟨d + n, by omega⟩) =
        .ok (Function.update g ⟨d + fill + n, by omega⟩ (g ⟨d + n, by omega⟩)) := by
      exact_mod_cast write_ofNat (show d + fill + n < 8 by omega) g _
    rw [shiftGroups, hread]
    simp only [bind, Except.bind, hwrite]
    rw [ih _ (by omega)]
    congr 1
    funext j
    by_cases hlow : d + fill ≤ (j : ℕ) ∧ (j : ℕ) < d + fill + n
    · rw [if_pos hlow, if_pos (by omega), Function.update_of_ne]
      intro heq
      have := congrArg Fin.val heq
      simp only at this
      omega
    · rw [if_neg hlow]
      by_cases hj : (j : ℕ) = d + fill + n
      · rw [if_pos (by omega), show j = ⟨d + fill + n, by omega⟩ from Fin.ext hj,
          Function.update_self]
        congr 1
        apply Fin.ext
        simp only
        omega
      · rw [if_neg (by omega), Function.update_of_ne fun heq => hj (congrArg Fin.val heq)]

theorem clearGroups_eq {d : ℕ} (n : ℕ) (g : Groups) (hn : d + n ≤ 8) :
    clearGroups d n g = .ok fun j => if d ≤ j ∧ (j : ℕ) < d + n then 0 else g j := by
  induction n with
  | zero =>
    rw [clearGroups]
    congr 1
    funext j
    rw [if_neg (by omega)]
  | succ n ih =>
    have hwrite : ∀ g : Groups, g.write ((d : ℤ) + (n : ℤ)) 0 =
        .ok (Function.update g ⟨d + n, by omega⟩ 0) := by
      intro g
      exact_mod_cast write_ofNat (show d + n < 8 by omega) g 0
    rw [clearGroups, ih (by omega)]
    simp only [bind, Except.bind, hwrite]
    congr 1
    funext j
    by_cases hj : (j : ℕ) = d + n
    · rw [if_pos (by omega), show j = ⟨d + n, by omega⟩ from Fin.ext hj, Function.update_self]
    · rw [Function.update_of_ne fun heq => hj (congrArg Fin.val heq)]
      by_cases hin : d ≤ (j : ℕ) ∧ (j : ℕ) < d + n
      · rw [if_pos hin, if_pos (by omega)]
      · rw [if_neg hin, if_neg (by omega)]

/-- `d` groups, then `n - d` groups after the `::`, with zeros put between them. -/
theorem expand_eq {g : Groups} {d n : ℕ} (hd : d ≤ n) (hn : n ≤ 8) (p : List UInt8) :
    expand ⟨g, n, (d : ℤ), p⟩ = .ok ⟨fun j =>
      if (j : ℕ) < d then g j else if _ : (j : ℕ) < d + (8 - n) then 0
        else g ⟨j - (8 - n), by omega⟩, 8, (d : ℤ), p⟩ := by
  have htail : ((n : ℤ) - d).toNat = n - d := by omega
  have hfill : (8 : ℤ) - n = ((8 - n : ℕ) : ℤ) := by omega
  unfold expand
  rw [if_pos (by simp)]
  simp only [hfill, htail]
  rw [if_neg (by omega), shiftGroups_eq (n - d) g (by omega)]
  simp only [bind, Except.bind, Int.toNat_natCast]
  rw [clearGroups_eq _ _ (by omega)]
  simp only [pure, Except.pure]
  congr 2
  funext j
  have := j.isLt
  by_cases h₁ : (j : ℕ) < d
  · rw [if_neg (by omega), if_neg (by omega), if_pos h₁]
  · by_cases h₂ : (j : ℕ) < d + (8 - n)
    · rw [if_pos (by omega), if_neg h₁, dif_pos h₂]
    · rw [if_neg (by omega), if_pos (by omega), if_neg h₁, dif_neg h₂]

/-- The groups of an address as the array the parser fills. -/
def groupsOf (ws : List ℕ) : Groups := fun j => ws.getD j 0

theorem storeFrom_zero {ws : List ℕ} (hlen : ws.length = 8) (g : Groups) :
    storeFrom g 0 ws = groupsOf ws := by
  funext j
  have := j.isLt
  rw [storeFrom, if_pos (by omega)]
  rfl

/-- Groups on both sides of a `::`, each side possibly empty, come apart. -/
theorem expand_sides (vs ws : List ℕ) (hlen : vs.length + ws.length ≤ 8) (g : Groups)
    (p : List UInt8) :
    expand ⟨storeFrom (storeFrom g 0 vs) vs.length ws, vs.length + ws.length, vs.length, p⟩ =
      .ok ⟨groupsOf (vs ++ List.replicate (8 - (vs.length + ws.length)) 0 ++ ws), 8, vs.length,
        p⟩ := by
  rw [expand_eq (by omega) hlen]
  congr 2
  funext j
  have hj := j.isLt
  unfold groupsOf storeFrom
  simp only [List.getD, List.append_assoc]
  by_cases hbefore : (j : ℕ) < vs.length
  · rw [if_pos hbefore, if_neg (by omega), if_pos (by omega), List.getElem?_append_left hbefore,
      Nat.sub_zero]
  · rw [if_neg hbefore, List.getElem?_append_right (by omega)]
    by_cases hzero : (j : ℕ) < vs.length + (8 - (vs.length + ws.length))
    · rw [dif_pos hzero, List.getElem?_append_left (by simp; omega),
        List.getElem?_replicate_of_lt (by omega), Option.getD_some]
    · rw [dif_neg hzero, if_pos (by omega), List.getElem?_append_right (by simp; omega),
        List.length_replicate]
      congr 2
      omega

theorem parseFrom_of_loop {s : Parse} {g g' : Groups} {n : ℕ} {d d' : ℤ}
    (hloop : parseLoop 8 s = .ok ⟨g, n, d, []⟩)
    (hexpand : expand ⟨g, n, d, []⟩ = .ok ⟨g', 8, d', []⟩) :
    parseFrom s = .ok (groupBytes g') := by
  rw [parseFrom, hloop]
  simp [bind, Except.bind, hexpand, pure, Except.pure]

theorem parseAddress_double {src : CString} {rest : List UInt8}
    (h : src.bytes = ch ':' :: ch ':' :: rest) :
    parseAddress src =
      if rest = [] then .ok (groupBytes fun _ => 0) else parseFrom ⟨fun _ => 0, 0, 0, rest⟩ := by
  unfold parseAddress
  rw [h]
  simp

theorem parseAddress_plain {src : CString}
    (h : ∀ rest, src.bytes ≠ ch ':' :: ch ':' :: rest) :
    parseAddress src = parseFrom ⟨fun _ => 0, 0, -1, src.bytes⟩ := by
  unfold parseAddress
  split
  · rename_i a b rest hbytes
    rw [if_neg]
    rintro ⟨rfl, rfl⟩
    exact h rest hbytes
  · rfl

theorem ne_double_of_groups {ts : List (List UInt8)} (hts : ∀ t ∈ ts, IsLooseGroup t)
    (hne : ts ≠ []) {s more : List UInt8} (hs : s = joinTexts ts ++ more) (rest : List UInt8) :
    s ≠ ch ':' :: ch ':' :: rest := by
  intro h
  apply head_joinTexts_ne_colon hts hne more
  rw [← hs, h]
  rfl

section Taken

variable {ts : List (List UInt8)} (hts : ∀ t ∈ ts, IsLooseGroup t) {src : CString}
  {dangling : Bool}
include hts

theorem parseAddress_groups (hcount : ts.length = 8)
    (hbytes : src.bytes = joinTexts ts ++ if dangling then [ch ':'] else []) :
    parseAddress src = .ok (groupBytes (groupsOf (ts.map groupValue))) := by
  have hne : ts ≠ [] := List.ne_nil_of_length_pos (by omega)
  have hnone : expand ⟨groupsOf (ts.map groupValue), 8, -1, []⟩ =
      .ok ⟨groupsOf (ts.map groupValue), 8, -1, []⟩ := by
    rw [expand, if_neg (by simp)]
  have hloop := parseLoop_last hts dangling (fun _ => hne) 0 (fun _ => 0) 0 (-1) (by omega)
  rw [hcount, storeFrom_zero (by simpa using hcount), ← hbytes] at hloop
  rw [parseAddress_plain (ne_double_of_groups hts hne hbytes)]
  exact parseFrom_of_loop hloop hnone

theorem parseAddress_sides {before : List (List UInt8)} (hbefore : ∀ t ∈ before, IsLooseGroup t)
    (hcount : before.length + ts.length ≤ 8) (hdangling : dangling = true → ts ≠ [])
    (hbytes : src.bytes = joinTexts before ++ ([ch ':', ch ':'] ++ joinTexts ts) ++
      if dangling then [ch ':'] else []) :
    parseAddress src = .ok (groupBytes (groupsOf (before.map groupValue ++
      List.replicate (8 - (before.length + ts.length)) 0 ++ ts.map groupValue))) := by
  set rest := joinTexts ts ++ if dangling then [ch ':'] else [] with hrest
  have hlast := parseLoop_last hts dangling hdangling (8 - before.length - ts.length)
    (storeFrom (fun _ => 0) 0 (before.map groupValue)) before.length before.length hcount
  have hexpand := expand_sides (before.map groupValue) (ts.map groupValue)
    (by simpa using hcount) (fun _ => 0) []
  simp only [List.length_map] at hexpand
  rw [Nat.sub_add_cancel (by omega), ← hrest] at hlast
  have hsplit : src.bytes = joinTexts before ++ (ch ':' :: ch ':' :: rest) := by
    rw [hbytes, hrest]
    simp
  by_cases hne : before = []
  · subst hne
    rw [parseAddress_double hsplit]
    split_ifs with hnil
    · -- the text is just `::`, and the parser answers zeros at once
      have hempty : ts = [] := by
        by_contra hts'
        have hhead := head_joinTexts hts hts' (if dangling then [ch ':'] else [])
        rw [← hrest, hnil] at hhead
        exact absurd hhead (by decide)
      subst hempty
      congr 2
      funext j
      fin_cases j <;> rfl
    · exact parseFrom_of_loop hlast hexpand
  · have hfirst := parseLoop_joinTexts hbefore hne (8 - before.length) (fun _ => 0) 0 (-1)
      (by omega) (.inr ⟨_, rfl⟩ : EndsGroup (ch ':' :: ch ':' :: rest))
    rw [afterGroup_double, if_neg (by decide), ← hsplit, Nat.sub_add_cancel (by omega),
      Nat.zero_add, hlast] at hfirst
    rw [parseAddress_plain (ne_double_of_groups hbefore hne hsplit)]
    exact parseFrom_of_loop hfirst hexpand

end Taken

/-- The parser takes every text with loose parts and answers their groups. -/
theorem parseAddress_loose {p : Parts} (h : p.Loose) {src : CString} (hbytes : src.bytes = p.text) :
    parseAddress src = .ok (groupBytes (groupsOf (p.words groupValue))) := by
  obtain ⟨before, after, dangling⟩ := p
  have hgroups := h.groups
  have hcount := h.count
  have hdangling := h.dangling
  unfold Parts.groups at hgroups hcount
  rw [List.forall_mem_append] at hgroups
  unfold Parts.text at hbytes
  unfold Parts.words Parts.groups
  cases after with
  | none =>
    simp only [Option.elim_none, Option.getD_none, List.append_nil, List.map_nil] at *
    rw [hcount, Nat.sub_self, List.replicate_zero, List.append_nil]
    exact parseAddress_groups hgroups.1 hcount hbytes
  | some ts =>
    simp only [Option.elim_some, Option.getD_some, List.length_append, ne_eq,
      Option.some.injEq] at *
    exact parseAddress_sides hgroups.2 hgroups.1 hcount hdangling hbytes

theorem parseLoop_round (rounds : ℕ) (g : Groups) {k : ℕ} (hk : k < 8) (dcolon : ℤ)
    {p : List UInt8} (hp : p ≠ []) :
    (∃ t rest, IsLooseGroup t ∧ EndsGroup rest ∧ p = t ++ rest) ∨
      parseLoop (rounds + 1) ⟨g, k, dcolon, p⟩ = .error .reject := by
  rw [parseLoop]
  simp only [ne_eq, hp, not_false_eq_true, hk, and_self, if_true]
  by_cases hhead : isxdigit (p.headD 0) = true
  · obtain ⟨mark, hmark, digits, hne, hall, hsplit, hvalue⟩ := strtoul16_split hhead
    rw [if_pos hhead]
    by_cases hlarge : 0xFFFF < (strtoul16 p).1
    · exact .inr (if_pos hlarge)
    · have hgroup : IsLooseGroup (mark ++ digits) := by
        refine ⟨mark, hmark, digits, hne, hall, ?_, rfl⟩
        rw [hvalue, saturated] at hlarge
        split_ifs at hlarge <;> omega
      rw [if_neg hlarge, write_ofNat hk]
      generalize (strtoul16 p).2 = rest at hsplit
      cases rest with
      | nil => exact .inl ⟨_, [], hgroup, .inl rfl, hsplit⟩
      | cons c more =>
        by_cases hc : c = ch ':'
        · subst hc
          exact .inl ⟨_, _, hgroup, .inr ⟨more, rfl⟩, hsplit⟩
        · right
          simp only [bind, Except.bind, if_neg hc]
  · exact .inr (if_neg hhead)

/-- From `k` groups and `dcolon` on, the loop has read the parts `q` of the text `p` and has
come to `s`. -/
structure Reads (k : ℕ) (dcolon : ℤ) (p : List UInt8) (s : Parse) (q : Parts) : Prop where
  text : q.text = p
  groups : ∀ t ∈ q.groups, IsLooseGroup t
  count : s.ngroups = k + q.groups.length
  dcolon : q.after.elim (s.dcolon = dcolon) fun _ =>
    dcolon < 0 ∧ q.before ≠ [] ∧ s.dcolon = (k + q.before.length : ℕ)
  dangling : q.dangling = true → q.groups ≠ [] ∧ q.after ≠ some []

namespace Reads

variable {k : ℕ} {dcolon : ℤ} {p : List UInt8} {s : Parse} {q : Parts} {t : List UInt8}

theorem nil (g : Groups) : Reads k dcolon [] ⟨g, k, dcolon, []⟩ ⟨[], none, false⟩ where
  text := rfl
  groups := by simp [Parts.groups]
  count := rfl
  dcolon := rfl
  dangling := by simp

theorem last (ht : IsLooseGroup t) (g : Groups) (dangling : Bool) :
    Reads k dcolon (t ++ if dangling then [ch ':'] else []) ⟨g, k + 1, dcolon, []⟩
      ⟨[t], none, dangling⟩ where
  text := by simp [Parts.text, joinTexts]
  groups := by simpa [Parts.groups] using ht
  count := rfl
  dcolon := rfl
  dangling := by simp [Parts.groups]

theorem after_eq_none (h : Reads k dcolon p s q) (hdcolon : 0 ≤ dcolon) : q.after = none := by
  have hafter := h.dcolon
  cases hq : q.after with
  | none => rfl
  | some ts =>
    rw [hq, Option.elim_some] at hafter
    omega

theorem eq_nil_of_before (h : Reads k dcolon p s q) (hbefore : q.before = []) : p = [] := by
  have hnone : q.after = none := by
    have hafter := h.dcolon
    cases hq : q.after with
    | none => rfl
    | some ts =>
      rw [hq, Option.elim_some] at hafter
      exact absurd hbefore hafter.2.1
  have hdangling : q.dangling = false := by
    have hgroups : q.groups = [] := by simp [Parts.groups, hbefore, hnone]
    by_contra htrue
    exact (h.dangling (by simpa using htrue)).1 hgroups
  rw [← h.text]
  simp [Parts.text, hbefore, hnone, hdangling, joinTexts_nil]

theorem single (ht : IsLooseGroup t) (h : Reads (k + 1) dcolon p s q) (hp : p ≠ []) :
    Reads k dcolon (t ++ ch ':' :: p) s { q with before := t :: q.before } where
  text := by
    have hne : q.before ≠ [] := fun hbefore => hp (h.eq_nil_of_before hbefore)
    simp [Parts.text, joinTexts_cons hne, ← h.text]
  groups := by
    have hgroups := h.groups
    simp only [Parts.groups, List.cons_append, List.forall_mem_cons] at hgroups ⊢
    exact ⟨ht, hgroups⟩
  count := by
    have hcount := h.count
    simp only [Parts.groups, List.cons_append, List.length_cons] at hcount ⊢
    omega
  dcolon := by
    have hdcolon := h.dcolon
    cases hafter : q.after with
    | none => rwa [hafter] at hdcolon
    | some ts =>
      rw [hafter, Option.elim_some] at hdcolon
      refine ⟨hdcolon.1, List.cons_ne_nil _ _, ?_⟩
      rw [hdcolon.2.2, List.length_cons]
      congr 1
      omega
  dangling hdangling := ⟨by simp [Parts.groups], (h.dangling hdangling).2⟩

/-- A group and the double colon in front of what the loop reads next. -/
theorem double (ht : IsLooseGroup t) (h : Reads (k + 1) (k + 1 : ℕ) p s q) (hdcolon : dcolon < 0) :
    Reads k dcolon (t ++ ch ':' :: ch ':' :: p) s ⟨[t], some q.before, q.dangling⟩ := by
  have hnone := h.after_eq_none (by omega)
  have hgroups : q.groups = q.before := by simp [Parts.groups, hnone]
  have hcount := h.count
  have hsame := h.dcolon
  rw [hnone, Option.elim_none] at hsame
  rw [hgroups] at hcount
  refine ⟨?_, ?_, ?_, ?_, fun hdangling => ⟨by simp [Parts.groups], ?_⟩⟩
  · rw [← h.text]
    simp [Parts.text, hnone, joinTexts]
  · have hloose := h.groups
    rw [hgroups] at hloose
    simpa [Parts.groups] using ⟨ht, hloose⟩
  · simp only [Parts.groups, Option.getD_some, List.singleton_append, List.length_cons]
    omega
  · exact ⟨hdcolon, List.cons_ne_nil _ _, hsame⟩
  · have hne := (h.dangling hdangling).1
    rw [hgroups] at hne
    simpa using hne

end Reads

theorem parseLoop_sound (rounds : ℕ) (g : Groups) (k : ℕ) (dcolon : ℤ) (p : List UInt8)
    (hk : k + rounds = 8) :
    parseLoop rounds ⟨g, k, dcolon, p⟩ = .error .reject ∨
      ∃ s, parseLoop rounds ⟨g, k, dcolon, p⟩ = .ok s ∧ s.ngroups ≤ 8 ∧
        (s.p = [] → ∃ q, Reads k dcolon p s q) := by
  induction rounds generalizing g k dcolon p with
  | zero =>
    right
    refine ⟨_, rfl, by dsimp only; omega, ?_⟩
    rintro rfl
    exact ⟨_, Reads.nil g⟩
  | succ rounds ih =>
    by_cases hp : p = []
    · subst hp
      rw [parseLoop_nil]
      exact .inr ⟨_, rfl, by dsimp only; omega, fun _ => ⟨_, Reads.nil g⟩⟩
    obtain ⟨t, rest, ht, hrest, rfl⟩ | hreject := parseLoop_round rounds g
      (show k < 8 by omega) dcolon hp
    · rw [parseLoop_group ht (by omega) rounds g dcolon hrest]
      generalize Function.update g ⟨k, by omega⟩ (groupValue t) = g'
      rcases hrest with rfl | ⟨more, rfl⟩
      · rw [afterGroup_nil]
        exact .inr ⟨_, rfl, by dsimp only; omega, fun _ => ⟨_, Reads.last ht g' false⟩⟩
      · by_cases hmore : more.head? = some (ch ':')
        · obtain ⟨p', rfl⟩ := List.head?_eq_some_iff.mp hmore
          rw [afterGroup_double]
          split_ifs with hdcolon
          · exact .inl rfl
          · obtain hreject | ⟨s, hs, hle, hreads⟩ := ih g' (k + 1) (k + 1 : ℕ) p' (by omega)
            · exact .inl hreject
            · refine .inr ⟨s, hs, hle, fun hend => ?_⟩
              obtain ⟨q, hq⟩ := hreads hend
              exact ⟨_, hq.double ht (by omega)⟩
        · rw [afterGroup_single _ _ _ _ hmore]
          by_cases hnil : more = []
          · subst hnil
            rw [parseLoop_nil]
            exact .inr ⟨_, rfl, by dsimp only; omega, fun _ => ⟨_, Reads.last ht g' true⟩⟩
          · obtain hreject | ⟨s, hs, hle, hreads⟩ := ih g' (k + 1) dcolon more (by omega)
            · exact .inl hreject
            · refine .inr ⟨s, hs, hle, fun hend => ?_⟩
              obtain ⟨q, hq⟩ := hreads hend
              exact ⟨_, hq.single ht hnil⟩
    · exact .inl hreject

/-- The parser rejects what is not made of at most eight loose groups, or eight without `::`. -/
theorem parseFrom_sound (g : Groups) (dcolon : ℤ) (p : List UInt8) :
    parseFrom ⟨g, 0, dcolon, p⟩ = .error .reject ∨
      ∃ s q, Reads 0 dcolon p s q ∧ s.ngroups ≤ 8 ∧ (s.dcolon < 0 → s.ngroups = 8) := by
  obtain hreject | ⟨s, hs, hle, hreads⟩ := parseLoop_sound 8 g 0 dcolon p rfl
  · left
    rw [parseFrom, hreject]
    rfl
  · rw [parseFrom, hs]
    simp only [bind, Except.bind]
    by_cases hend : s.p = []
    · obtain ⟨q, hq⟩ := hreads hend
      by_cases hfull : s.dcolon < 0 → s.ngroups = 8
      · exact .inr ⟨s, q, hq, hle, hfull⟩
      · left
        rw [Classical.not_imp] at hfull
        rw [if_neg (not_not_intro hend), expand, if_neg (by omega)]
        exact if_pos hfull.2
    · exact .inl (if_pos hend)

theorem parseAddress_sound (src : CString) :
    parseAddress src = .error .reject ∨ ∃ p : Parts, p.Loose ∧ p.text = src.bytes := by
  by_cases hdouble : ∃ rest, src.bytes = ch ':' :: ch ':' :: rest
  · obtain ⟨rest, hrest⟩ := hdouble
    rw [parseAddress_double hrest]
    split_ifs with hnil
    · refine .inr ⟨⟨[], some [], false⟩, ⟨?_, ?_, by simp⟩, ?_⟩
      · simp [Parts.groups]
      · simp [Parts.groups]
      · rw [hrest, hnil]
        rfl
    · obtain hreject | ⟨s, q, hq, hle, -⟩ := parseFrom_sound (fun _ => 0) 0 rest
      · exact .inl hreject
      · have hnone := hq.after_eq_none le_rfl
        have hbefore : q.before ≠ [] := fun hbefore => hnil (hq.eq_nil_of_before hbefore)
        have hgroups := hq.groups
        have hcount := hq.count
        simp only [Parts.groups, hnone, Option.getD_none, List.append_nil] at hgroups hcount
        refine .inr ⟨⟨[], some q.before, q.dangling⟩,
          ⟨hgroups, ?_, fun _ => by simpa using hbefore⟩, ?_⟩
        · exact (by omega : q.before.length ≤ 8)
        · rw [hrest, ← hq.text]
          simp [Parts.text, hnone, joinTexts_nil]
  · rw [parseAddress_plain (not_exists.mp hdouble)]
    obtain hreject | ⟨s, q, hq, hle, hfull⟩ := parseFrom_sound (fun _ => 0) (-1) src.bytes
    · exact .inl hreject
    · refine .inr ⟨q, ⟨hq.groups, ?_, fun hdangling => (hq.dangling hdangling).2⟩, hq.text⟩
      have hplace := hq.dcolon
      have hcount := hq.count
      cases hafter : q.after with
      | none =>
        rw [hafter, Option.elim_none] at hplace
        have := hfull (by omega)
        exact (by omega : q.groups.length = 8)
      | some ts => exact (by omega : q.groups.length ≤ 8)

end Solcompat.Inet
