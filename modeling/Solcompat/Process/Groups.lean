import Mathlib.Data.List.GetD
import Solcompat.Lib.CString
import Solcompat.Lib.Checked

/-!
# `getgrouplist`

The model of `getgrouplist` of `process.c`. The array of the caller is a map from places, so that
what is stored and what is left alone are statements about one function. Counting goes on behind
the capacity: after a scan the array holds a list as far as the capacity reaches, and the count is
the length of the whole list.
-/

namespace Solcompat.Process

open Lib

abbrev Gid := Int32

/-- `struct group`, without what is not read. -/
structure GroupEntry where
  gr_gid : Gid
  gr_mem : List CString

/-- What `getgrent` returns after `setgrent`. The entries are lines of a file whose offsets are
`int`, so an `int` counts them. -/
structure GroupDatabase where
  entries : List GroupEntry
  countable : entries.length < 2147483647

/-- The array and `group_count`. -/
structure GroupFill where
  groups : ℕ → Gid
  group_count : Int32

/-- `if (group_count < max_groups) groups[group_count] = gid; group_count++;` -/
def addGroup (max_groups : Int32) (gid : Gid) (fill : GroupFill) : GroupFill where
  groups :=
    if fill.group_count < max_groups then
      Function.update fill.groups fill.group_count.toInt.toNat gid
    else fill.groups
  group_count := fill.group_count + 1

/-- The `for` loop over `gr_mem`, on the members from `member_index` on. `strcmp` gives zero on
equal strings. -/
def scanMembers (user : CString) (max_groups : Int32) (gid : Gid) :
    List CString → GroupFill → GroupFill
  | [], fill => fill
  | member :: rest, fill =>
    if member = user then addGroup max_groups gid fill
    else scanMembers user max_groups gid rest fill

def scanGroups (user : CString) (group : Gid) (max_groups : Int32) :
    List GroupEntry → GroupFill → GroupFill
  | [], fill => fill
  | grp_entry :: rest, fill =>
    if grp_entry.gr_gid = group then scanGroups user group max_groups rest fill
    else
      scanGroups user group max_groups rest
        (scanMembers user max_groups grp_entry.gr_gid grp_entry.gr_mem fill)

structure GroupReply where
  result : Int32
  groups : ℕ → Gid
  ngroups : Int32

def getgrouplist (user : CString) (group : Gid) (groups : ℕ → Gid) (ngroups : Int32)
    (database : GroupDatabase) : GroupReply :=
  let max_groups := ngroups
  let fill := addGroup max_groups group ⟨groups, 0⟩
  let fill := scanGroups user group max_groups database.entries fill
  { result := if fill.group_count > max_groups then -1 else 0
    groups := fill.groups
    ngroups := fill.group_count }

/-- The groups that the entries add to the primary one. -/
def supplementary (user : CString) (group : Gid) (entries : List GroupEntry) : List Gid :=
  (entries.filter fun e => e.gr_gid ≠ group ∧ user ∈ e.gr_mem).map GroupEntry.gr_gid

/-- The primary group and the others, in the order of the database. -/
def fullList (user : CString) (group : Gid) (database : GroupDatabase) : List Gid :=
  group :: supplementary user group database.entries

/-- The array after a list was stored as far as the capacity reaches. -/
def stored (groups : ℕ → Gid) (capacity : ℕ) (list : List Gid) (i : ℕ) : Gid :=
  if i < capacity then list.getD i (groups i) else groups i

theorem stored_snoc (groups : ℕ → Gid) (capacity : ℕ) (list : List Gid) (gid : Gid) :
    stored groups capacity (list ++ [gid]) =
      if list.length < capacity then
        Function.update (stored groups capacity list) list.length gid
      else stored groups capacity list := by
  funext i
  rcases lt_trichotomy i list.length with hlt | rfl | hgt
  · have hother : stored groups capacity (list ++ [gid]) i = stored groups capacity list i := by
      simp only [stored, List.getD_append _ _ _ _ hlt]
    split_ifs
    · rw [Function.update_of_ne hlt.ne, hother]
    · exact hother
  · split_ifs with hroom
    · rw [Function.update_self, stored, if_pos hroom, List.getD_append_right _ _ _ _ le_rfl,
        Nat.sub_self]
      rfl
    · simp only [stored, if_neg hroom]
  · have hbehind : stored groups capacity (list ++ [gid]) i = stored groups capacity list i := by
      rw [stored, stored, List.getD_eq_default _ _ hgt.le, List.getD_eq_default]
      rw [List.length_append, List.length_singleton]
      omega
    split_ifs
    · rw [Function.update_of_ne hgt.ne', hbehind]
    · exact hbehind

/-- The list is counted, and stored as far as there is room. -/
structure Filled (groups : ℕ → Gid) (max_groups : Int32) (list : List Gid) (fill : GroupFill) :
    Prop where
  groups : fill.groups = stored groups max_groups.toInt.toNat list
  count : fill.group_count.toInt = list.length

section Scan

variable {groups : ℕ → Gid} {max_groups : Int32} {list : List Gid} {fill : GroupFill}

theorem addGroup_filled (h : Filled groups max_groups list fill)
    (hlength : list.length < 2147483647) (gid : Gid) :
    Filled groups max_groups (list ++ [gid]) (addGroup max_groups gid fill) := by
  have hcount := h.count
  have hone : (1 : Int32).toInt = 1 := rfl
  have hfits : Fits32 (fill.group_count.toInt + (1 : Int32).toInt) := by
    rw [hcount, hone, Fits32]
    omega
  constructor
  · have hlt : fill.group_count < max_groups ↔ list.length < max_groups.toInt.toNat := by
      rw [Int32.lt_iff_toInt_lt, hcount]
      omega
    have hplace : fill.group_count.toInt.toNat = list.length := by omega
    rw [stored_snoc, addGroup, hplace, h.groups]
    simp only [hlt]
  · have hnext : (addGroup max_groups gid fill).group_count = fill.group_count + 1 := rfl
    rw [hnext, add32_of_fits hfits, hcount, hone, List.length_append, List.length_singleton]
    omega

theorem scanMembers_filled (h : Filled groups max_groups list fill)
    (hlength : list.length < 2147483647) (user : CString) (gid : Gid) (members : List CString) :
    Filled groups max_groups (list ++ if user ∈ members then [gid] else [])
      (scanMembers user max_groups gid members fill) := by
  induction members with
  | nil => simpa [scanMembers] using h
  | cons member rest ih =>
    by_cases hmember : member = user
    · have hmem : user ∈ member :: rest := by
        rw [hmember]
        exact List.mem_cons_self
      rw [scanMembers, if_pos hmember, if_pos hmem]
      exact addGroup_filled h hlength gid
    · have hmem : user ∈ member :: rest ↔ user ∈ rest := by
        rw [List.mem_cons, or_iff_right fun h => hmember h.symm]
      rw [scanMembers, if_neg hmember]
      simp only [hmem]
      exact ih

theorem supplementary_cons (user : CString) (group : Gid) (e : GroupEntry)
    (entries : List GroupEntry) :
    supplementary user group (e :: entries) =
      (if e.gr_gid = group then [] else if user ∈ e.gr_mem then [e.gr_gid] else []) ++
        supplementary user group entries := by
  by_cases hgid : e.gr_gid = group
  · simp [supplementary, hgid]
  · by_cases hmem : user ∈ e.gr_mem <;> simp [supplementary, hgid, hmem]

theorem scanGroups_filled (user : CString) (group : Gid) (entries : List GroupEntry)
    (h : Filled groups max_groups list fill)
    (hlength : list.length + entries.length ≤ 2147483647) :
    Filled groups max_groups (list ++ supplementary user group entries)
      (scanGroups user group max_groups entries fill) := by
  induction entries generalizing list fill with
  | nil => simpa [scanGroups, supplementary] using h
  | cons e entries ih =>
    rw [List.length_cons] at hlength
    rw [supplementary_cons, scanGroups]
    by_cases hgid : e.gr_gid = group
    · rw [if_pos hgid, if_pos hgid, List.nil_append]
      exact ih h (by omega)
    · have hentry := scanMembers_filled h (by omega) user e.gr_gid e.gr_mem
      rw [if_neg hgid, if_neg hgid, ← List.append_assoc]
      apply ih hentry
      rw [List.length_append]
      split_ifs <;> simp <;> omega

end Scan

theorem getgrouplist_filled (user : CString) (group : Gid) (groups : ℕ → Gid) (m : Int32)
    (database : GroupDatabase) :
    Filled groups m (fullList user group database)
      ⟨(getgrouplist user group groups m database).groups,
        (getgrouplist user group groups m database).ngroups⟩ := by
  have hcountable := database.countable
  have hempty : Filled groups m [] ⟨groups, 0⟩ := by
    constructor
    · funext i
      simp [stored]
    · rfl
  have hprimary := addGroup_filled hempty (by decide) group
  exact scanGroups_filled user group database.entries hprimary
    (by rw [List.nil_append, List.length_singleton]; omega)

theorem getgrouplist_result (user : CString) (group : Gid) (groups : ℕ → Gid) (m : Int32)
    (database : GroupDatabase) :
    (getgrouplist user group groups m database).result =
      if m.toInt < (fullList user group database).length then -1 else 0 := by
  have hcount := (getgrouplist_filled user group groups m database).count
  have hgt : (getgrouplist user group groups m database).ngroups > m ↔
      m.toInt < (fullList user group database).length := by
    rw [gt_iff_lt, Int32.lt_iff_toInt_lt, ← hcount]
  have hresult : (getgrouplist user group groups m database).result =
      if (getgrouplist user group groups m database).ngroups > m then -1 else 0 :=
    rfl
  rw [hresult]
  simp only [hgt]

theorem stored_range (groups : ℕ → Gid) {capacity n : ℕ} {list : List Gid}
    (hn : n ≤ list.length) (hcapacity : n ≤ capacity) :
    (List.range n).map (stored groups capacity list) = list.take n := by
  apply List.ext_getElem
  · rw [List.length_map, List.length_range, List.length_take_of_le hn]
  · intro i hi _
    rw [List.length_map, List.length_range] at hi
    rw [List.getElem_map, List.getElem_range, List.getElem_take, stored, if_pos (by omega),
      List.getD_eq_getElem _ _ (by omega)]

/-- Whatever the capacity, the array gets as much of the list as there is room for, the count is
that of the whole list, and a call with that capacity gets the whole list. -/
theorem getgrouplist_measures_and_fills (user : CString) (group : Gid) (groups : ℕ → Gid)
    (m : Int32) (database : GroupDatabase) :
    let full := fullList user group database
    let count := min (max m.toInt 0).toNat full.length
    let reply := getgrouplist user group groups m database
    (List.range count).map reply.groups = full.take count ∧
      (∀ i, count ≤ i → reply.groups i = groups i) ∧
      reply.ngroups.toInt = full.length ∧
      (reply.result = -1 ∨ reply.result = 0) ∧ (reply.result = -1 ↔ m.toInt < full.length) ∧
      ∀ groups' : ℕ → Gid,
        let second := getgrouplist user group groups' reply.ngroups database
        (List.range full.length).map second.groups = full ∧ second.result = 0 ∧
          second.ngroups = reply.ngroups := by
  intro full count reply
  have hfilled := getgrouplist_filled user group groups m database
  have hresult : reply.result = if m.toInt < full.length then -1 else 0 :=
    getgrouplist_result user group groups m database
  have hgroups : reply.groups = stored groups m.toInt.toNat full := hfilled.groups
  have hcount : reply.ngroups.toInt = full.length := hfilled.count
  refine ⟨?_, ?_, hcount, ?_, ?_, ?_⟩
  · rw [hgroups]
    exact stored_range groups (by omega) (by omega)
  · intro i hi
    rw [hgroups, stored]
    split_ifs with hroom
    · rw [List.getD_eq_default _ _ (by omega)]
    · rfl
  · rw [hresult]
    split_ifs
    · exact Or.inl rfl
    · exact Or.inr rfl
  · rw [hresult]
    split_ifs with hless
    · exact iff_of_true rfl hless
    · exact iff_of_false (by decide) hless
  · intro groups' second
    have hsecond := getgrouplist_filled user group groups' reply.ngroups database
    have hroom : full.length ≤ reply.ngroups.toInt.toNat := by omega
    have hall : (List.range full.length).map second.groups = full := by
      have hstored : second.groups = stored groups' reply.ngroups.toInt.toNat full := hsecond.groups
      rw [hstored, stored_range groups' le_rfl hroom, List.take_length]
    have hsuccess : second.result = 0 := by
      have hvalue : second.result = if reply.ngroups.toInt < full.length then -1 else 0 :=
        getgrouplist_result user group groups' reply.ngroups database
      rw [hvalue, if_neg (by omega)]
    have hsame : second.ngroups.toInt = full.length := hsecond.count
    exact ⟨hall, hsuccess, Int32.toInt_inj.mp (hsame.trans hcount.symm)⟩

/-- `root` is in the first two groups, and has the last one for its primary group. -/
def sampleGroups : GroupDatabase where
  entries := [⟨0, [.ofString "root"]⟩, ⟨4, [.ofString "adm", .ofString "root"]⟩,
    ⟨12, [.ofString "daemon"]⟩, ⟨1, []⟩]
  countable := by decide

/-- Two places are too few, and the count says how many are needed. -/
theorem getgrouplist_measures_and_fills_root :
    let reply := getgrouplist (.ofString "root") 1 (fun _ => 0) 2 sampleGroups
    reply.result = -1 ∧ reply.ngroups.toInt = 3 ∧ (List.range 2).map reply.groups = [1, 0] ∧
      (getgrouplist (.ofString "root") 1 (fun _ => 0) reply.ngroups sampleGroups).result = 0 := by
  intro reply
  obtain ⟨hfilled, -, hcount, -, hfails, hagain⟩ :=
    getgrouplist_measures_and_fills (.ofString "root") 1 (fun _ => 0) 2 sampleGroups
  have hfull : fullList (.ofString "root") 1 sampleGroups = [1, 0, 4] := by decide +kernel
  rw [hfull] at hfilled hcount hfails
  exact ⟨hfails.mpr (by decide), hcount, hfilled, (hagain fun _ => 0).2.1⟩

end Solcompat.Process
