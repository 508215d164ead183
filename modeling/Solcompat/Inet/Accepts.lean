import Solcompat.Inet.Parse

/-!
# Which texts are addresses

`inet_pton` takes every text of RFC 4291 and stores what it denotes. It takes more: the texts of
the looser grammar that are no addresses are exactly those that it should have rejected.
-/

namespace Solcompat.Inet

open Lib

theorem word_eq (src : Memory) (i : ℕ) :
    word src i = (src (i * 2)).toNat * 256 + (src (i * 2 + 1)).toNat := by
  unfold word
  rw [← Nat.shiftLeft_add_eq_or_of_lt (src (i * 2 + 1)).toNat_lt, Nat.shiftLeft_eq]

theorem groupBytes_getElem (g : Groups) (i : Fin 8) :
    (groupBytes g).getD (i * 2) 0 = UInt8.ofNat (g i >>> 8) ∧
      (groupBytes g).getD (i * 2 + 1) 0 = UInt8.ofNat (g i &&& 0xFF) := by
  fin_cases i <;> exact ⟨rfl, rfl⟩

theorem word_memcpy_groupBytes (ws : List ℕ) (dst : Memory) {i : ℕ} (hi : i < 8)
    (hlt : ws.getD i 0 < 65536) :
    word (dst.memcpy (groupBytes (groupsOf ws)) 16) i = ws.getD i 0 := by
  obtain ⟨hhigh, hlow⟩ := groupBytes_getElem (groupsOf ws) ⟨i, hi⟩
  have hbytes : ∀ v, v < 65536 →
      (UInt8.ofNat (v >>> 8)).toNat * 256 + (UInt8.ofNat (v &&& 0xFF)).toNat = v := by
    intro v hv
    rw [UInt8.toNat_ofNat', UInt8.toNat_ofNat', Nat.shiftRight_eq_div_pow,
      show (0xFF : ℕ) = 2 ^ 8 - 1 from rfl, Nat.and_two_pow_sub_one_eq_mod]
    omega
  rw [word_eq, Memory.memcpy, Memory.memcpy, if_pos (by omega), if_pos (by omega), hhigh, hlow]
  exact hbytes _ hlt

theorem words_memcpy_groupBytes {ws : List ℕ} (hlen : ws.length = 8) (hlt : ∀ w ∈ ws, w < 65536)
    (dst : Memory) : words (dst.memcpy (groupBytes (groupsOf ws)) 16) = ws := by
  apply List.ext_getElem (by simp [words, hlen])
  intro i _ hi
  have hget : ws.getD i 0 = ws[i] := by simp [List.getD, hi]
  have hword := word_memcpy_groupBytes ws dst (show i < 8 by omega)
    (by rw [hget]; exact hlt _ (List.getElem_mem hi))
  rw [hget] at hword
  simpa [words] using hword

namespace Parts

variable {p : Parts}

theorem length_words (hcount : p.groups.length ≤ 8) (value : List UInt8 → ℕ) :
    (p.words value).length = 8 := by
  simp only [groups, List.length_append] at hcount
  simp only [words, groups, List.length_append, List.length_map, List.length_replicate]
  omega

theorem Strict.count_le (h : p.Strict) : p.groups.length ≤ 8 := by
  have hcount := h.count
  cases hafter : p.after with
  | none =>
    rw [hafter] at hcount
    exact Nat.le_of_eq hcount
  | some ts =>
    rw [hafter] at hcount
    exact Nat.le_of_lt hcount

/-- On the groups of an address `strtoul` computes the value of their digits. -/
theorem Strict.words_eq (h : p.Strict) : p.words groupValue = p.words xvalue := by
  have hgroups := h.groups
  unfold Parts.groups at hgroups
  rw [List.forall_mem_append] at hgroups
  unfold words
  rw [List.map_congr_left fun t ht => (hgroups.1 t ht).value,
    List.map_congr_left fun t ht => (hgroups.2 t ht).value]

theorem Strict.words_lt (h : p.Strict) : ∀ w ∈ p.words xvalue, w < 65536 := by
  have hvalue : ∀ t ∈ p.groups, xvalue t < 65536 := by
    intro t ht
    have hlt := xvalue_lt (h.groups t ht).digits
    have hle : 16 ^ t.length ≤ 16 ^ 4 :=
      Nat.pow_le_pow_right (by norm_num) (h.groups t ht).length_le
    omega
  intro w hw
  simp only [words, List.mem_append, List.mem_map, List.mem_replicate] at hw
  rcases hw with (⟨t, ht, rfl⟩ | ⟨-, rfl⟩) | ⟨t, ht, rfl⟩
  · exact hvalue t (List.mem_append_left _ ht)
  · norm_num
  · exact hvalue t (List.mem_append_right _ ht)

end Parts

/-- Every address of RFC 4291 is taken, with no index outside the group array: the sixteen bytes
it denotes are stored in network order, and nothing behind them. -/
theorem inetPton_complete (inetAton : CString → Option (List UInt8)) (p : Parts) (hp : p.Strict)
    (src : CString) (hsrc : src.bytes = p.text) (dst : Memory) :
    ∃ r, inetPton inetAton afInet6 src dst = some r ∧ r.ret = 1 ∧
      words r.dst = p.words xvalue ∧ ∀ i, 16 ≤ i → r.dst i = dst i := by
  refine ⟨⟨1, dst.memcpy (groupBytes (groupsOf (p.words xvalue))) 16, none⟩, ?_, rfl, ?_, ?_⟩
  · unfold inetPton
    rw [if_neg (by decide), if_pos rfl, parseAddress_loose hp.loose hsrc, hp.words_eq]
  · exact words_memcpy_groupBytes (Parts.length_words hp.count_le _) hp.words_lt dst
  · intro i hi
    exact if_neg (by omega)

def documentationParts : Parts :=
  ⟨[[ch '2', ch '0', ch '0', ch '1'], [ch 'D', ch 'B', ch '8']], some [[ch '1']], false⟩

theorem inetPton_complete_documentation :
    documentationParts.Strict ∧
    (CString.ofString "2001:DB8::1").bytes = documentationParts.text ∧
    ∀ dst, ∃ r, inetPton (fun _ => none) afInet6 (.ofString "2001:DB8::1") dst = some r ∧
      r.ret = 1 ∧ words r.dst = [0x2001, 0xDB8, 0, 0, 0, 0, 0, 1] ∧
      ∀ i, 16 ≤ i → r.dst i = dst i := by
  have hp : documentationParts.Strict := by decide
  have htext : (CString.ofString "2001:DB8::1").bytes = documentationParts.text := by decide
  exact ⟨hp, htext, fun dst => inetPton_complete _ documentationParts hp _ htext dst⟩

theorem inetPton_cases (inetAton : CString → Option (List UInt8)) (src : CString) (dst : Memory) :
    (∃ p : Parts, p.Loose ∧ p.text = src.bytes ∧ ∃ after,
      inetPton inetAton afInet6 src dst = some ⟨1, after, none⟩) ∨
    (∀ p : Parts, p.Loose → p.text ≠ src.bytes) ∧
      inetPton inetAton afInet6 src dst = some ⟨0, dst, none⟩ := by
  unfold inetPton
  rw [if_neg (by decide), if_pos rfl]
  obtain hreject | ⟨p, hp, htext⟩ := parseAddress_sound src
  · right
    rw [hreject]
    refine ⟨fun p hp htext => ?_, rfl⟩
    rw [parseAddress_loose hp htext.symm] at hreject
    cases hreject
  · left
    rw [parseAddress_loose hp htext.symm]
    exact ⟨p, hp, htext, _, rfl⟩

/-- A success means an address, and a failure answers `0` and leaves the destination alone,
unless the text is one that the parser takes and RFC 4291 does not. -/
theorem inetPton_strict_iff (inetAton : CString → Option (List UInt8)) (src : CString) :
    (∀ dst, ∃ r, inetPton inetAton afInet6 src dst = some r ∧
      (r.ret = 1 → IsAddress src.bytes) ∧ (r.ret ≠ 1 → r.ret = 0 ∧ r.dst = dst)) ↔
    ¬ IsLax src.bytes := by
  constructor
  · intro h hlax
    obtain ⟨r, hr, haddress, -⟩ := h (fun _ => 0)
    obtain ⟨p, hp, htext, after, hpton⟩ | ⟨hnone, -⟩ := inetPton_cases inetAton src fun _ => 0
    · rw [hpton, Option.some.injEq] at hr
      subst hr
      rw [← htext] at hlax haddress
      exact (isAddress_iff hp).mp (haddress rfl) hlax
    · obtain ⟨p, hp, htext, -⟩ := hlax
      exact hnone p hp htext
  · intro hlax dst
    obtain ⟨p, hp, htext, after, hpton⟩ | ⟨-, hpton⟩ := inetPton_cases inetAton src dst
    · refine ⟨_, hpton, fun _ => ?_, fun h => absurd rfl h⟩
      rw [← htext] at hlax ⊢
      exact (isAddress_iff hp).mpr hlax
    · exact ⟨_, hpton, fun h => absurd h (by simp), fun _ => ⟨rfl, rfl⟩⟩

/-- A colon behind the eighth group is let pass. -/
theorem inetPton_takes_dangling :
    (inetPton (fun _ => none) afInet6 (.ofString "1:2:3:4:5:6:7:8:") fun _ => 0).map Pton.ret =
        some 1 ∧
      ¬ IsAddress (CString.ofString "1:2:3:4:5:6:7:8:").bytes := by
  constructor
  · rfl
  · let p : Parts := ⟨[[ch '1'], [ch '2'], [ch '3'], [ch '4'], [ch '5'], [ch '6'], [ch '7'],
      [ch '8']], none, true⟩
    have hgroups : p.groups.all (fun t => decide (IsGroup t)) = true := by decide
    have hgroup : ∀ t ∈ p.groups, IsGroup t :=
      fun t ht => of_decide_eq_true (List.all_eq_true.mp hgroups t ht)
    have hp : p.Loose := ⟨fun t ht => (hgroup t ht).loose, rfl, by decide⟩
    have htext : (CString.ofString "1:2:3:4:5:6:7:8:").bytes = p.text := by decide
    rw [htext, isAddress_iff hp, not_not]
    exact ⟨p, hp, rfl, .inr (.inl rfl)⟩

end Solcompat.Inet
