import Solcompat.Inet.Format
import Solcompat.Inet.Accepts

/-!
# Parsing what was formatted

The canonical text that `inet_ntop` produces is an address of RFC 4291 with the groups that the
formatter saw, so the parser takes it and gives them back.
-/

namespace Solcompat.Inet

open Lib Printf

theorem isGroup_hexText {w : ℕ} (hw : w < 65536) : IsGroup (hexText w) where
  digits _ hb := isxdigit_of_mem_hexText hb
  ne_nil := hexText_ne_nil w
  length_le := hexText_length_le (by norm_num) hw

theorem joinGroups_eq (ws : List ℕ) : joinGroups ws = joinTexts (ws.map hexText) := by
  have hshift : ∀ (w : ℕ) (vs : List ℕ),
      joinTexts ((w :: vs).map hexText) = hexText w ++ vs.flatMap fun v => ch ':' :: hexText v := by
    intro w vs
    induction vs generalizing w with
    | nil => simp [joinTexts]
    | cons v vs ih =>
      rw [List.map_cons, joinTexts_cons (by simp), ih]
      rfl
  cases ws with
  | nil => rfl
  | cons w vs => exact (hshift w vs).symm

theorem map_xvalue_hexText (ws : List ℕ) : (ws.map hexText).map xvalue = ws := by
  rw [List.map_map]
  exact (List.map_congr_left fun w _ => xvalue_hexText w).trans (List.map_id ws)

theorem ZeroRun.eq_append {ws : List ℕ} {s l : ℕ} (h : ZeroRun ws s l) :
    ws = ws.take s ++ List.replicate l 0 ++ ws.drop (s + l) := by
  have hfits := h.fits
  have hzeros : (ws.drop s).take l = List.replicate l 0 := by
    rw [List.eq_replicate_iff]
    refine ⟨by simp; omega, fun v hv => ?_⟩
    obtain ⟨i, hi, rfl⟩ := List.getElem_of_mem hv
    simp only [List.length_take, List.length_drop] at hi
    have hzero := h.zero (s + i) (by omega) (by omega)
    have hlt : s + i < ws.length := by omega
    simpa [List.getD, hlt] using hzero
  rw [← hzeros, List.append_assoc, ← List.drop_drop, List.take_append_drop, List.take_append_drop]

theorem Canonical.parts {ws : List ℕ} (hlen : ws.length = 8) (hws : ∀ v ∈ ws, v < 65536)
    {text : List UInt8} (h : Canonical ws text) :
    ∃ p : Parts, p.Strict ∧ text = p.text ∧ p.words xvalue = ws := by
  have hgroup : ∀ {vs : List ℕ}, (∀ v ∈ vs, v ∈ ws) → ∀ t ∈ vs.map hexText, IsGroup t := by
    intro vs hvs t ht
    obtain ⟨v, hv, rfl⟩ := List.mem_map.mp ht
    exact isGroup_hexText (hws v (hvs v hv))
  cases h with
  | plain hfree =>
    refine ⟨⟨ws.map hexText, none, false⟩, ⟨?_, ?_, rfl⟩, ?_, ?_⟩
    · simpa [Parts.groups] using hgroup fun v hv => hv
    · simpa [Parts.groups] using hlen
    · simp [Parts.text, joinGroups_eq]
    · rw [Parts.words, map_xvalue_hexText]
      simp [Parts.groups, hlen]
  | @compressed s l hbest =>
    have hfits := hbest.run.fits
    have htwo := hbest.run.two_le
    have htake : (ws.take s).length = s := by simp; omega
    have hdrop : (ws.drop (s + l)).length = 8 - (s + l) := by simp [hlen]
    refine ⟨⟨(ws.take s).map hexText, some ((ws.drop (s + l)).map hexText), false⟩,
      ⟨?_, ?_, rfl⟩, ?_, ?_⟩
    · rw [Parts.groups, List.forall_mem_append]
      exact ⟨hgroup fun v hv => List.mem_of_mem_take hv, hgroup fun v hv => List.mem_of_mem_drop hv⟩
    · simp only [Parts.groups, Option.elim_some, Option.getD_some, List.length_append,
        List.length_map, htake, hdrop]
      omega
    · simp [Parts.text, joinGroups_eq]
    · simp only [Parts.words, Parts.groups, Option.getD_some, map_xvalue_hexText,
        List.length_append, List.length_map, htake, hdrop]
      rw [show 8 - (s + (8 - (s + l))) = l by omega]
      exact hbest.run.eq_append.symm

theorem word_lt (src : Memory) (i : ℕ) : word src i < 65536 := by
  have h₁ := (src (i * 2)).toNat_lt
  have h₂ := (src (i * 2 + 1)).toNat_lt
  rw [word_eq]
  omega

theorem word_bytes (src : Memory) (i : ℕ) :
    UInt8.ofNat (word src i >>> 8) = src (i * 2) ∧
      UInt8.ofNat (word src i &&& 0xFF) = src (i * 2 + 1) := by
  have h := (src (i * 2 + 1)).toNat_lt
  rw [word_eq, Nat.shiftRight_eq_div_pow, show (0xFF : ℕ) = 2 ^ 8 - 1 from rfl,
    Nat.and_two_pow_sub_one_eq_mod]
  constructor
  · rw [show ((src (i * 2)).toNat * 256 + (src (i * 2 + 1)).toNat) / 2 ^ 8 =
      (src (i * 2)).toNat by omega, UInt8.ofNat_toNat]
  · rw [show ((src (i * 2)).toNat * 256 + (src (i * 2 + 1)).toNat) % 2 ^ 8 =
      (src (i * 2 + 1)).toNat by omega, UInt8.ofNat_toNat]

theorem words_length (src : Memory) : (words src).length = 8 := by simp [words]

theorem words_lt (src : Memory) : ∀ v ∈ words src, v < 65536 := by
  intro v hv
  obtain ⟨i, _, rfl⟩ := List.mem_map.mp hv
  exact word_lt src i

theorem groupBytes_words (src : Memory) :
    groupBytes (groupsOf (words src)) = (List.range 16).map src := by
  have hbytes : groupBytes (groupsOf (words src)) = (List.range 8).flatMap fun i =>
      [UInt8.ofNat (word src i >>> 8), UInt8.ofNat (word src i &&& 0xFF)] := rfl
  rw [hbytes]
  simp only [word_bytes]
  rfl

theorem joinGroups_nulFree {ws : List ℕ} : ∀ b ∈ joinGroups ws, b ≠ 0 := by
  have hhex : ∀ w, ∀ b ∈ hexText w, b ≠ 0 := fun w b hb =>
    (isxdigit_plain (isxdigit_of_mem_hexText hb)).2.2.2.2.2.2
  cases ws with
  | nil => simp [joinGroups]
  | cons w ws =>
    intro b hb
    rcases List.mem_append.mp hb with hb | hb
    · exact hhex w b hb
    · obtain ⟨v, _, hv⟩ := List.mem_flatMap.mp hb
      rcases List.mem_cons.mp hv with rfl | hv
      · decide
      · exact hhex v b hv

theorem Canonical.nulFree {ws : List ℕ} {text : List UInt8} (h : Canonical ws text) :
    ∀ b ∈ text, b ≠ 0 := by
  cases h with
  | plain _ => exact joinGroups_nulFree
  | compressed _ =>
    intro b hb
    simp only [List.mem_append, List.mem_cons, List.not_mem_nil, or_false] at hb
    rcases hb with (hb | rfl | rfl) | hb
    · exact joinGroups_nulFree b hb
    · decide
    · decide
    · exact joinGroups_nulFree b hb

theorem strlenWithin_eq {n : ℕ} {m : Memory} {text : List UInt8} (hlt : text.length < n)
    (hnul : ∀ b ∈ text, b ≠ 0) (hholds : ∀ i, i < text.length → m i = text.getD i 0)
    (hend : m text.length = 0) : strlenWithin n m = text.length := by
  unfold strlenWithin
  rw [List.findIdx_eq (by simpa using hlt)]
  constructor
  · simpa using hend
  · intro j hj
    have hget : m j = text[j] := by rw [hholds j hj]; simp [List.getD, hj]
    simpa [hget] using hnul _ (List.getElem_mem hj)

theorem getD_words_lt (src : Memory) (i : ℕ) : (words src).getD i 0 < 65536 := by
  by_cases hi : i < (words src).length
  · rw [show (words src).getD i 0 = (words src)[i] by simp [List.getD, hi]]
    exact words_lt src _ (List.getElem_mem hi)
  · rw [show (words src).getD i 0 = 0 by simp [List.getD, hi]]
    norm_num

/-- The run that the formatter compresses. -/
def bestRun (src : Memory) : Runs := Runs.initial.scanFrom 0 (words src)

theorem bestRun_pos (src : Memory) (h : 0 ≤ (bestRun src).bestStart) :
    1 ≤ (bestRun src).bestLen := by
  rcases scanFrom_spec (words src) with ⟨hnone, -⟩ | ⟨s, -, hbest⟩
  · rw [bestRun, hnone] at h
    exact absurd h (by norm_num)
  · exact le_trans (by norm_num) hbest.run.two_le

/-- The text of an address, and the groups of it that are printed. -/
def ntopText (src : Memory) : List UInt8 := loopText (words src) (bestRun src) 8 0

def shownGroups (src : Memory) : List ℕ := loopGroups (words src) (bestRun src) 8 0

theorem length_ntopText_le (src : Memory) : (ntopText src).length ≤ 40 :=
  length_loopText_le (getD_words_lt src) _ 8 0

theorem ntopText_canonical (src : Memory) : Canonical (words src) (ntopText src) :=
  loopText_canonical (words_length src)

theorem map_range_terminated {m : Memory} {text : List UInt8}
    (hholds : ∀ i, i < text.length → m i = text.getD i 0) (hend : m text.length = 0) :
    (List.range (text.length + 1)).map m = text ++ [0] := by
  apply List.ext_getElem (by simp)
  intro i h₁ h₂
  simp only [List.getElem_map, List.getElem_range]
  simp only [List.length_map, List.length_range] at h₁
  by_cases hi : i = text.length
  · subst hi
    simpa using hend
  · have hlt : i < text.length := by omega
    rw [hholds i hlt, List.getElem_append_left hlt]
    simp [List.getD, hlt]

/-- `inet_ntop` in terms of the text that is left in the work buffer. -/
theorem inetNtop_eq {sys : System (List ℕ)} (hsys : FormatsHex sys) {src : Memory}
    (hstart : KeepsStart sys (bestRun src)) (tmp : Memory) :
    ∃ text, (∀ b ∈ text, b ≠ 0) ∧
      text.length + lost sys.malloc 0 (shownGroups src) = (ntopText src).length ∧
      (lost sys.malloc 0 (shownGroups src) = 0 → text = ntopText src) ∧
      ∀ dst size, inetNtop sys afInet6 src dst tmp size = some
        (if size < text.length + 1 then ⟨false, dst, some .ENOSPC, (shownGroups src).length⟩
        else ⟨true, dst.memcpy (text ++ [0]) (text.length + 1), none,
          (shownGroups src).length⟩) := by
  obtain ⟨t, text, hloop, hshort⟩ :=
    formatLoop_eq_some hsys (getD_words_lt src) (bestRun_pos src) hstart tmp
  have hlength := hshort.length_eq
  rw [List.length_nil, Nat.zero_add] at hlength
  have hwhole := hshort.whole
  rw [List.nil_append] at hwhole
  have hle := length_ntopText_le src
  refine ⟨text, hshort.nulFree, hlength, hwhole, fun dst size => ?_⟩
  have hroom : text.length < inet6AddrStrLen := by
    change text.length + lost _ _ _ = (ntopText src).length at hlength
    unfold inet6AddrStrLen
    omega
  obtain ⟨ended, hput, hended, hrequests⟩ := hshort.written.put hroom 0
  have hbefore : ∀ i, i < text.length → ended.tmp i = text.getD i 0 := by
    intro i hi
    rw [hended.holds i (by rw [List.length_append]; omega), List.getD_append _ _ _ _ hi]
  have hend : ended.tmp text.length = 0 := by
    rw [hended.holds _ (by simp), List.getD_append_right _ _ _ _ le_rfl]
    simp
  have hcount : ended.requests = (shownGroups src).length := by
    rw [hrequests, hshort.requests, shownGroups]
    exact Nat.zero_add _
  unfold inetNtop
  rw [if_neg (by decide), if_pos rfl]
  simp only [Option.bind_eq_bind]
  rw [show formatLoop sys (words src) (Runs.initial.scanFrom 0 (words src)) 8 0 ⟨tmp, 0, 0⟩ =
    some t from hloop]
  simp only [Option.bind_some, hput]
  rw [strlenWithin_eq hroom hshort.nulFree hbefore hend, map_range_terminated hbefore hend, hcount]
  split_ifs
  · rfl
  · rfl

/-- A refused allocation at the start lets the formatter store outside of its buffer. -/
theorem inetNtop_eq_none {sys : System (List ℕ)} {src : Memory}
    (hstart : ¬ KeepsStart sys (bestRun src)) (dst tmp : Memory) (size : ℕ) :
    inetNtop sys afInet6 src dst tmp size = none := by
  unfold inetNtop
  rw [if_neg (by decide), if_pos rfl]
  simp only [Option.bind_eq_bind]
  rw [show formatLoop sys (words src) (Runs.initial.scanFrom 0 (words src)) 8 0 ⟨tmp, 0, 0⟩ =
    none from formatLoop_eq_none hstart tmp]
  rfl

/-- What a caller of `inet_ntop` and `inet_pton` may expect: the canonical text of at most 45
bytes, delivered exactly to the buffers that hold it with its terminator, and the address back
from it. -/
structure RoundTrips (inetAton : CString → Option (List UInt8)) (src dst : Memory) (size : ℕ)
    (call : Option Ntop) (text : CString) : Prop where
  canonical : Canonical (words src) text.bytes
  length_le : text.strlen + 1 ≤ inet6AddrStrLen
  delivers : ∃ r, call = some r ∧ (r.returned = true ↔ text.strlen + 1 ≤ size) ∧
    (text.strlen + 1 ≤ size → r.dst = dst.memcpy (text.bytes ++ [0]) (text.strlen + 1)) ∧
    (size < text.strlen + 1 → r.dst = dst ∧ r.errno = some .ENOSPC)
  reads : ∀ back, ∃ r, inetPton inetAton afInet6 text back = some r ∧ r.ret = 1 ∧
    ∀ i, i < 16 → r.dst i = src i

/-- No allocation is refused, or the buffer is too small for what refused ones leave of the text as
well, and the formatter stays in its own. -/
def NtopSound (sys : System (List ℕ)) (src : Memory) (size : ℕ) : Prop :=
  (∀ k, k < (shownGroups src).length → sys.malloc k = true) ∨
    (KeepsStart sys (bestRun src) ∧
      size + lost sys.malloc 0 (shownGroups src) ≤ (ntopText src).length)

theorem lost_eq_zero {sys : System (List ℕ)} {src : Memory} :
    lost sys.malloc 0 (shownGroups src) = 0 ↔
      ∀ k, k < (shownGroups src).length → sys.malloc k = true := by
  simp only [lost_eq_zero_iff, Nat.zero_add]

theorem keepsStart_of_granted {sys : System (List ℕ)} {src : Memory}
    (h : ∀ k, k < (shownGroups src).length → sys.malloc k = true) :
    KeepsStart sys (bestRun src) := by
  by_cases hzero : (bestRun src).bestStart = 0
  · exact .inl hzero
  · right
    apply h
    have hcast : ¬ ((0 : ℕ) : ℤ) = (bestRun src).bestStart := fun h => hzero h.symm
    rw [shownGroups, loopGroups, if_pos (by decide), if_neg hcast, List.length_cons]
    exact Nat.succ_pos _

theorem inetPton_ntopText (inetAton : CString → Option (List UInt8)) (src back : Memory) :
    ∃ r, inetPton inetAton afInet6 ⟨ntopText src, (ntopText_canonical src).nulFree⟩ back = some r ∧
      r.ret = 1 ∧ ∀ i, i < 16 → r.dst i = src i := by
  obtain ⟨p, hp, htext, hwords⟩ :=
    (ntopText_canonical src).parts (words_length src) (words_lt src)
  refine ⟨⟨1, back.memcpy ((List.range 16).map src) 16, none⟩, ?_, rfl, ?_⟩
  · unfold inetPton
    rw [if_neg (by decide), if_pos rfl, parseAddress_loose hp.loose htext, hp.words_eq, hwords,
      groupBytes_words]
  · intro i hi
    simp [Memory.memcpy, hi]

/-- Two terminated strings of different lengths are not stored alike. -/
theorem memcpy_ne {dst : Memory} {text text' : List UInt8} (hnul : ∀ b ∈ text', b ≠ 0)
    (hlt : text.length < text'.length) :
    dst.memcpy (text ++ [0]) (text.length + 1) ≠ dst.memcpy (text' ++ [0]) (text'.length + 1) := by
  intro heq
  have hbyte := congrFun heq text.length
  rw [Memory.memcpy, Memory.memcpy, if_pos (Nat.lt_succ_self _), if_pos (by omega),
    List.getD_append_right _ _ _ _ le_rfl, Nat.sub_self, List.getD_append _ _ _ _ hlt,
    List.getD_eq_getElem _ _ hlt] at hbyte
  exact hnul _ (List.getElem_mem hlt) hbyte.symm

section Calls

variable {sys : System (List ℕ)} {inetAton : CString → Option (List UInt8)}
  {src dst tmp : Memory} {size : ℕ}

theorem ntopSound_of_roundTrips (hsys : FormatsHex sys) {text : CString}
    (h : RoundTrips inetAton src dst size (inetNtop sys afInet6 src dst tmp size) text) :
    NtopSound sys src size := by
  obtain ⟨hcanonical, -, ⟨r, hcall, hreturned, hdst, -⟩, -⟩ := h
  by_contra hnot
  rw [NtopSound, not_or, ← lost_eq_zero] at hnot
  obtain ⟨hlost, hshort⟩ := hnot
  have hbytes : text.bytes = ntopText src := hcanonical.unique (ntopText_canonical src)
  by_cases hstart : KeepsStart sys (bestRun src)
  · obtain ⟨left, hnul, hlength, -, hntop⟩ := inetNtop_eq hsys hstart tmp
    have hlong : ¬ size + lost sys.malloc 0 (shownGroups src) ≤ (ntopText src).length :=
      fun h => hshort ⟨hstart, h⟩
    rw [hntop, if_neg (by omega)] at hcall
    obtain rfl := Option.some.inj hcall
    have hsize : text.strlen + 1 ≤ size := hreturned.mp rfl
    have hsame := hdst hsize
    rw [CString.strlen, hbytes] at hsame
    exact memcpy_ne (ntopText_canonical src).nulFree (by omega) hsame
  · rw [inetNtop_eq_none hstart] at hcall
    cases hcall

theorem NtopSound.keepsStart (h : NtopSound sys src size) : KeepsStart sys (bestRun src) := by
  rcases h with hgranted | ⟨hstart, -⟩
  · exact keepsStart_of_granted hgranted
  · exact hstart

theorem NtopSound.inetNtop_eq (hsys : FormatsHex sys) (h : NtopSound sys src size)
    (dst tmp : Memory) :
    inetNtop sys afInet6 src dst tmp size = some
      (if size < (ntopText src).length + 1 then
        ⟨false, dst, some .ENOSPC, (shownGroups src).length⟩
      else ⟨true, dst.memcpy (ntopText src ++ [0]) ((ntopText src).length + 1), none,
        (shownGroups src).length⟩) := by
  obtain ⟨left, -, hlength, hwhole, hntop⟩ := Inet.inetNtop_eq hsys h.keepsStart tmp
  rw [hntop]
  rcases h with hgranted | ⟨-, hsmall⟩
  · rw [hwhole (lost_eq_zero.mpr hgranted)]
  · rw [if_pos (by omega), if_pos (by omega)]

theorem NtopSound.roundTrips (hsys : FormatsHex sys) (h : NtopSound sys src size) :
    RoundTrips inetAton src dst size (inetNtop sys afInet6 src dst tmp size)
      ⟨ntopText src, (ntopText_canonical src).nulFree⟩ := by
  have hle := length_ntopText_le src
  have hstrlen : CString.strlen ⟨ntopText src, (ntopText_canonical src).nulFree⟩ =
      (ntopText src).length := rfl
  refine ⟨ntopText_canonical src, ?_, ⟨_, h.inetNtop_eq hsys dst tmp, ?_⟩,
    inetPton_ntopText inetAton src⟩
  · rw [hstrlen, inet6AddrStrLen]
    omega
  · rw [hstrlen]
    split_ifs with hsize
    · exact ⟨by simp; omega, fun h => by omega, fun _ => ⟨rfl, rfl⟩⟩
    · exact ⟨by simp; omega, fun _ => rfl, fun h => by omega⟩

end Calls

/-- A call of `inet_ntop` keeps its promise exactly when no allocation is refused that matters. -/
theorem inetNtop_inetPton_iff (sys : System (List ℕ)) (hsys : FormatsHex sys)
    (inetAton : CString → Option (List UInt8)) (src dst tmp : Memory) (size : ℕ) :
    (∃ text, RoundTrips inetAton src dst size (inetNtop sys afInet6 src dst tmp size) text) ↔
      NtopSound sys src size :=
  ⟨fun ⟨_, h⟩ => ntopSound_of_roundTrips hsys h, fun h => ⟨_, h.roundTrips hsys⟩⟩

/-- A system that knows `%x` and nothing else, and grants the requests that it is asked to. -/
def hexSystem (grants : ℕ → Bool) : System (List ℕ) where
  vsprintf fmt args := if fmt = (CString.ofString "%x").bytes then args.head?.map hexText else none
  storedOnError _ _ := 0
  malloc := grants

theorem hexSystem_formatsHex (grants : ℕ → Bool) : FormatsHex (hexSystem grants) where
  hex := fun w _ => by simp [hexSystem]

def documentation : Memory := fun i => [0x20, 0x01, 0x0d, 0xb8].getD i (if i = 15 then 1 else 0)

theorem inetNtop_inetPton_iff_documentation :
    ∃ text, RoundTrips (fun _ => none) documentation (fun _ => 0) 46
      (inetNtop (hexSystem fun _ => true) afInet6 documentation (fun _ => 0) (fun _ => 0) 46)
      text :=
  (inetNtop_inetPton_iff _ (hexSystem_formatsHex _) _ _ _ _ _).mpr (.inl fun _ _ => rfl)

/-- With its third request refused the formatter makes `2001:db8:` of the address. -/
theorem inetNtop_refused :
    ¬ ∃ text, RoundTrips (fun _ => none) documentation (fun _ => 0) 46
      (inetNtop (hexSystem fun k => decide (k ≠ 2)) afInet6 documentation (fun _ => 0)
        (fun _ => 0) 46) text := by
  rintro ⟨text, h⟩
  rcases ntopSound_of_roundTrips (hexSystem_formatsHex _) h with hgranted | ⟨-, hsmall⟩
  · have hthree : (shownGroups documentation).length = 3 := by decide +kernel
    exact absurd (hgranted 2 (by rw [hthree]; norm_num)) (by decide)
  · have hle := length_ntopText_le documentation
    omega

end Solcompat.Inet
