import Mathlib.Data.List.Nodup
import Solcompat.Lib.CString

/-!
# Interface names and indices

`if_nametoindex` and `if_indextoname` number the interfaces by their position in the list
that `SIOCGIFCONF` returns, one by a search and the other by indexing. The index is an
unsigned number that is compared as a signed one.
-/

namespace Solcompat.Network

open Solcompat.Lib

def ifnamsiz : ℕ := 16

/-- The size of `struct ifreq`: the name and an address. -/
def sizeofIfreq : ℕ := 32

def sizeofBuf : ℕ := 4096

/-- The `ifr_name` of the records `SIOCGIFCONF` fills in. They fit into the buffer, and each
name fits into its array with its terminator. -/
structure InterfaceList where
  names : List CString
  distinct : names.Nodup
  short : ∀ name ∈ names, name.strlen < ifnamsiz
  fits : names.length * sizeofIfreq ≤ sizeofBuf

/-- What `socket` and `ioctl` answer. -/
structure Answers where
  socket : Bool
  siocgifconf : Option InterfaceList

def searchName (ifname : CString) : List CString → ℕ → UInt32
  | [], _ => 0
  | name :: rest, i =>
    if name = ifname then UInt32.ofNat (i + 1) else searchName ifname rest (i + 1)

def ifNametoindex (a : Answers) (ifname : Option CString) : UInt32 :=
  match ifname with
  | none => 0
  | some ifname =>
    if a.socket then
      match a.siocgifconf with
      | none => 0
      | some list => searchName ifname list.names 0
    else 0

/-- `if_indextoname` with a buffer for the name, or without one: the name in the buffer, or
the null pointer. The outer `none` is a read of `ifr_p` outside of the list. -/
def ifIndextoname (a : Answers) (ifindex : UInt32) (ifname : Bool) : Option (Option CString) :=
  if ifindex = 0 ∨ ifname = false then some none
  else if a.socket then
    match a.siocgifconf with
    | none => some none
    | some list =>
      if ifindex.toBitVec.toInt ≤ list.names.length then
        -- `strncpy` fills the buffer up with zeros, and the last byte is set to zero.
        (list.names[ifindex.toNat - 1]?).map fun name => some (name.take (ifnamsiz - 1))
      else some none
  else some none

section List

variable {list : InterfaceList}

theorem InterfaceList.length_le (list : InterfaceList) : list.names.length ≤ 128 := by
  have hfits := list.fits
  unfold sizeofIfreq sizeofBuf at hfits
  omega

theorem InterfaceList.take_name {name : CString} (h : name ∈ list.names) :
    name.take (ifnamsiz - 1) = name := by
  have hshort := list.short name h
  apply CString.ext_bytes
  rw [CString.bytes_take]
  apply List.take_of_length_le
  unfold CString.strlen ifnamsiz at hshort
  unfold ifnamsiz
  omega

theorem searchName_of_notMem {ifname : CString} {names : List CString} (h : ifname ∉ names)
    (i : ℕ) : searchName ifname names i = 0 := by
  induction names generalizing i with
  | nil => rfl
  | cons name rest ih =>
    rw [List.mem_cons, not_or] at h
    rw [searchName, if_neg (Ne.symm h.1), ih h.2]

theorem searchName_getElem? {names : List CString} (hdistinct : names.Nodup) {k : ℕ}
    {name : CString} (hk : names[k]? = some name) (i : ℕ) :
    searchName name names i = UInt32.ofNat (i + k + 1) := by
  induction names generalizing k i with
  | nil => simp at hk
  | cons first rest ih =>
    rw [List.nodup_cons] at hdistinct
    cases k with
    | zero =>
      have hfirst : first = name := by simpa using hk
      rw [searchName, if_pos hfirst, Nat.add_zero]
    | succ k =>
      rw [List.getElem?_cons_succ] at hk
      have hne : first ≠ name := by
        rintro rfl
        exact hdistinct.1 (List.mem_of_getElem? hk)
      rw [searchName, if_neg hne, ih hdistinct.2 hk]
      congr 1
      omega

end List

section Numbering

variable {list : InterfaceList} {ifindex : UInt32} {name : CString}

def listed (list : InterfaceList) : Answers := ⟨true, some list⟩

theorem ifNametoindex_listed (list : InterfaceList) (name : CString) :
    ifNametoindex (listed list) (some name) = searchName name list.names 0 := rfl

/-- The comparison of `if_indextoname`, where numbers from `2^31` on are negative. -/
theorem toInt_le_iff {n : ℕ} (hn : n ≤ 128) :
    ifindex.toBitVec.toInt ≤ n ↔ ifindex.toNat ≤ n ∨ 2 ^ 31 ≤ ifindex.toNat := by
  have hlt := ifindex.toNat_lt
  rw [BitVec.toInt_eq_toNat_cond, UInt32.toNat_toBitVec]
  split_ifs with h <;> omega

theorem ifIndextoname_pos (hpos : ifindex ≠ 0) :
    ifIndextoname (listed list) ifindex true =
      if ifindex.toNat ≤ list.names.length ∨ 2 ^ 31 ≤ ifindex.toNat then
        (list.names[ifindex.toNat - 1]?).map fun name => some (name.take (ifnamsiz - 1))
      else some none := by
  simp only [ifIndextoname, listed, hpos, false_or, Bool.true_eq_false, if_false, if_true,
    toInt_le_iff list.length_le]

theorem ifIndextoname_of_getElem? {k : ℕ} (hk : list.names[k]? = some name) :
    ifIndextoname (listed list) (UInt32.ofNat (k + 1)) true = some (some name) := by
  have hlt := (List.getElem?_eq_some_iff.mp hk).1
  have hle := list.length_le
  have hnat : (UInt32.ofNat (k + 1)).toNat = k + 1 := by
    apply UInt32.toNat_ofNat_of_lt'
    unfold UInt32.size
    omega
  have hpos : UInt32.ofNat (k + 1) ≠ 0 := by
    intro hzero
    rw [hzero] at hnat
    cases hnat
  rw [ifIndextoname_pos hpos, hnat, if_pos (.inl (by omega)), Nat.add_sub_cancel, hk,
    Option.map_some, InterfaceList.take_name (List.mem_of_getElem? hk)]

/-- A name stands for the interface that has it. -/
structure NameAgrees (list : InterfaceList) (name : CString) : Prop where
  zero : ifNametoindex (listed list) (some name) = 0 ↔ name ∉ list.names
  back : name ∈ list.names →
    ifIndextoname (listed list) (ifNametoindex (listed list) (some name)) true = some (some name)

/-- An index stands for the interface at its position, and the list is read inside its
bounds. -/
structure IndexAgrees (list : InterfaceList) (ifindex : UInt32) : Prop where
  inside : ifIndextoname (listed list) ifindex true ≠ none
  named : (∃ name, ifIndextoname (listed list) ifindex true = some (some name)) ↔
    1 ≤ ifindex.toNat ∧ ifindex.toNat ≤ list.names.length
  back : ∀ name, ifIndextoname (listed list) ifindex true = some (some name) →
    ifNametoindex (listed list) (some name) = ifindex

theorem nameAgrees (list : InterfaceList) (name : CString) : NameAgrees list name := by
  by_cases hmem : name ∈ list.names
  · obtain ⟨k, hk⟩ := List.mem_iff_getElem?.mp hmem
    have hindex : ifNametoindex (listed list) (some name) = UInt32.ofNat (k + 1) := by
      rw [ifNametoindex_listed, searchName_getElem? list.distinct hk, Nat.zero_add]
    have hback := ifIndextoname_of_getElem? hk
    rw [← hindex] at hback
    refine ⟨iff_of_false ?_ (not_not_intro hmem), fun _ => hback⟩
    intro hzero
    rw [hzero] at hback
    exact absurd hback (by simp [ifIndextoname])
  · have hzero : ifNametoindex (listed list) (some name) = 0 := searchName_of_notMem hmem 0
    exact ⟨iff_of_true hzero hmem, fun h => absurd h hmem⟩

theorem indexAgrees_of_lt (list : InterfaceList) (h : ifindex.toNat < 2 ^ 31) :
    IndexAgrees list ifindex := by
  by_cases hzero : ifindex = 0
  · have hnull : ifIndextoname (listed list) ifindex true = some none := by
      rw [ifIndextoname, if_pos (.inl hzero)]
    have hnat : ifindex.toNat = 0 := by rw [hzero]; rfl
    refine ⟨by simp [hnull], ?_, by simp [hnull]⟩
    simp [hnull, hnat]
  · have hpos : 1 ≤ ifindex.toNat := by
      refine Nat.pos_of_ne_zero fun hnat => hzero ?_
      exact UInt32.toNat_inj.mp hnat
    by_cases hle : ifindex.toNat ≤ list.names.length
    · have hlt : ifindex.toNat - 1 < list.names.length := by omega
      obtain ⟨name, hname⟩ : ∃ name, list.names[ifindex.toNat - 1]? = some name :=
        ⟨_, List.getElem?_eq_getElem hlt⟩
      have hindex : UInt32.ofNat (ifindex.toNat - 1 + 1) = ifindex := by
        rw [Nat.sub_add_cancel hpos, UInt32.ofNat_toNat]
      have hcall := ifIndextoname_of_getElem? hname
      rw [hindex] at hcall
      refine ⟨by simp [hcall], iff_of_true ⟨name, hcall⟩ ⟨hpos, hle⟩, ?_⟩
      intro name' hname'
      obtain rfl : name = name' := by simpa [hcall] using hname'
      rw [ifNametoindex_listed, searchName_getElem? list.distinct hname, Nat.zero_add, hindex]
    · have hnull : ifIndextoname (listed list) ifindex true = some none := by
        rw [ifIndextoname_pos hzero, if_neg (by omega)]
      refine ⟨by simp [hnull], ?_, by simp [hnull]⟩
      simp [hnull, hle]

theorem ifIndextoname_outside (list : InterfaceList) (h : 2 ^ 31 ≤ ifindex.toNat) :
    ifIndextoname (listed list) ifindex true = none := by
  have hzero : ifindex ≠ 0 := by
    rintro rfl
    exact absurd h (by decide)
  have hle := list.length_le
  rw [ifIndextoname_pos hzero, if_pos (.inr h), List.getElem?_eq_none (by omega)]
  rfl

/-- Names and indices correspond one to one, exactly below `2^31`. -/
theorem interfaces_agree_iff (list : InterfaceList) :
    (∀ name, NameAgrees list name) ∧
      ∀ ifindex, IndexAgrees list ifindex ↔ ifindex.toNat < 2 ^ 31 := by
  refine ⟨nameAgrees list, fun ifindex => ⟨?_, indexAgrees_of_lt list⟩⟩
  intro hagrees
  by_contra hge
  exact hagrees.inside (ifIndextoname_outside list (by omega))

def loopback : InterfaceList where
  names := [CString.ofString "lo0"]
  distinct := List.nodup_singleton _
  short := List.forall_mem_singleton.mpr (by decide)
  fits := by decide

/-- Index `2^31` reads record `2^31 - 1` of a list of one. -/
theorem ifIndextoname_reads_outside :
    ifIndextoname (listed loopback) 2147483648 true = none ∧
      ¬ IndexAgrees loopback 2147483648 := by
  have houtside : ifIndextoname (listed loopback) 2147483648 true = none := by decide
  exact ⟨houtside, fun h => h.inside houtside⟩

end Numbering

end Solcompat.Network
