import Solcompat.Lib.Memory

/-!
# Ancillary data

The `CMSG_*` macros on the 32-bit machine: sizes and pointers are `UInt32`, a null pointer
is zero, and memory is big-endian. A control buffer filled record by record is read back by
`CMSG_FIRSTHDR` and `CMSG_NXTHDR`.
-/

namespace Solcompat.Socket

open Solcompat.Lib

/-- `struct msghdr`, as far as the macros read it. -/
structure Msghdr where
  msgControl : UInt32
  msgControllen : Int32

structure Record where
  level : Int32
  type : Int32
  data : List UInt8
  deriving DecidableEq

def sizeofLong : UInt32 := 4

/-- `sizeof(struct cmsghdr)`: the length, the level and the type. -/
def sizeofCmsghdr : UInt32 := 12

def cmsgDataAlign (len : UInt32) : UInt32 := (len + sizeofLong - 1) &&& ~~~(sizeofLong - 1)

def cmsgHdrAlign (len : UInt32) : UInt32 := cmsgDataAlign len

def cmsgLen (len : UInt32) : UInt32 := cmsgDataAlign sizeofCmsghdr + len

def cmsgSpace (len : UInt32) : UInt32 := cmsgDataAlign sizeofCmsghdr + cmsgDataAlign len

def cmsgData (cmsg : UInt32) : UInt32 := cmsg + sizeofCmsghdr

/-- `CMSG_FIRSTHDR`. The signed length is compared as an unsigned one. -/
def cmsgFirsthdr (mhdr : Msghdr) : UInt32 :=
  if sizeofCmsghdr ≤ mhdr.msgControllen.toUInt32 then mhdr.msgControl else 0

/-- `(cmsg)->cmsg_len` -/
def readLen (m : Memory) (cmsg : UInt32) : UInt32 := .ofNat (m.number cmsg.toNat 4)

def cmsgNxthdr (m : Memory) (mhdr : Msghdr) (cmsg : UInt32) : UInt32 :=
  if cmsg = 0 then cmsgFirsthdr mhdr
  else if mhdr.msgControl + mhdr.msgControllen.toUInt32 <
      cmsg + cmsgHdrAlign (readLen m cmsg) + sizeofCmsghdr then 0
  else cmsg + cmsgHdrAlign (readLen m cmsg)

def Record.size (r : Record) : UInt32 := .ofNat r.data.length

/-- Fill in one control message. -/
def putRecord (m : Memory) (cmsg : UInt32) (r : Record) : Memory :=
  let m := m.putNumber cmsg.toNat 4 (cmsgLen r.size).toNat
  let m := m.putNumber (cmsg.toNat + 4) 4 r.level.toUInt32.toNat
  let m := m.putNumber (cmsg.toNat + 8) 4 r.type.toUInt32.toNat
  m.putBytes (cmsgData cmsg).toNat r.data

/-- What a reader makes of a control message: its data are the bytes that `cmsg_len` counts
beyond the header. -/
def readRecord (m : Memory) (cmsg : UInt32) : Record where
  level := (UInt32.ofNat (m.number (cmsg.toNat + 4) 4)).toInt32
  type := (UInt32.ofNat (m.number (cmsg.toNat + 8) 4)).toInt32
  data := m.bytes (cmsgData cmsg).toNat (readLen m cmsg - cmsgLen 0).toNat

/-- The records with their places, each `CMSG_SPACE` behind the one before. -/
def place (cmsg : UInt32) : List Record → List (UInt32 × Record)
  | [] => []
  | r :: rs => (cmsg, r) :: place (cmsg + cmsgSpace r.size) rs

/-- Write the records to the control buffer of `mhdr`. -/
def layOut (m : Memory) (mhdr : Msghdr) (rs : List Record) : Memory :=
  (place (cmsgFirsthdr mhdr) rs).foldl (fun m p => putRecord m p.1 p.2) m

/-- `for (; cmsg != NULL; cmsg = CMSG_NXTHDR(mhdr, cmsg))`: the messages visited, or nothing
when the loop does not end within `fuel` tests. -/
def iterate (m : Memory) (mhdr : Msghdr) : ℕ → UInt32 → Option (List (UInt32 × Record))
  | 0, _ => none
  | fuel + 1, cmsg =>
    if cmsg = 0 then some []
    else (iterate m mhdr fuel (cmsgNxthdr m mhdr cmsg)).map ((cmsg, readRecord m cmsg) :: ·)

def space (rs : List Record) : ℕ := (rs.map fun r => (cmsgSpace r.size).toNat).sum

section Sizes

variable {len cmsg : UInt32} {r : Record}

theorem and_mask {n : ℕ} (h : n < 2 ^ 32) : n &&& (2 ^ 32 - 4) = n / 4 * 4 := by
  apply Nat.eq_of_testBit_eq
  intro i
  have hmask : (2 ^ 32 - 4 : ℕ) = (2 ^ 30 - 1) * 2 ^ 2 := by norm_num
  have hfour : n / 4 * 4 = n / 2 ^ 2 * 2 ^ 2 := by norm_num
  rw [Nat.testBit_and, hmask, hfour, Nat.testBit_mul_two_pow, Nat.testBit_mul_two_pow,
    Nat.testBit_two_pow_sub_one, Nat.testBit_div_two_pow]
  by_cases hi : 2 ≤ i
  · rw [Nat.sub_add_cancel hi]
    by_cases hlt : i < 32
    · simp [hi, show i - 2 < 30 by omega]
    · have hbit : n.testBit i = false :=
        Nat.testBit_lt_two_pow (lt_of_lt_of_le h (Nat.pow_le_pow_right two_pos (by omega)))
      simp [hbit]
  · simp [hi]

theorem cmsgDataAlign_toNat (h : len.toNat + 3 < 2 ^ 32) :
    (cmsgDataAlign len).toNat = (len.toNat + 3) / 4 * 4 := by
  have hsum : (len + sizeofLong - 1).toNat = len.toNat + 3 := by
    simp only [sizeofLong, UInt32.toNat_sub, UInt32.toNat_add, UInt32.reduceToNat]
    omega
  have hmask : (~~~(sizeofLong - 1)).toNat = 2 ^ 32 - 4 := by decide
  rw [cmsgDataAlign, UInt32.toNat_and, hsum, hmask, and_mask h]

theorem cmsgLen_toNat (h : len.toNat + 15 < 2 ^ 32) : (cmsgLen len).toNat = 12 + len.toNat := by
  have hheader : (cmsgDataAlign sizeofCmsghdr).toNat = 12 := by decide
  rw [cmsgLen, UInt32.toNat_add, hheader]
  omega

theorem cmsgSpace_toNat (h : len.toNat + 15 < 2 ^ 32) :
    (cmsgSpace len).toNat = 12 + (len.toNat + 3) / 4 * 4 := by
  have hheader : (cmsgDataAlign sizeofCmsghdr).toNat = 12 := by decide
  rw [cmsgSpace, UInt32.toNat_add, hheader, cmsgDataAlign_toNat (by omega)]
  omega

theorem cmsgHdrAlign_cmsgLen (h : len.toNat + 15 < 2 ^ 32) :
    cmsgHdrAlign (cmsgLen len) = cmsgSpace len := by
  have hlen := cmsgLen_toNat h
  apply UInt32.toNat_inj.mp
  rw [cmsgHdrAlign, cmsgDataAlign_toNat (by omega), cmsgSpace_toNat h, hlen]
  omega

theorem cmsgData_toNat (h : cmsg.toNat + 12 < 2 ^ 32) :
    (cmsgData cmsg).toNat = cmsg.toNat + 12 := by
  rw [cmsgData, UInt32.toNat_add]
  exact Nat.mod_eq_of_lt h

/-- The record and its header, rounded up, have a size that does not wrap. -/
def Record.Fits (r : Record) : Prop := r.data.length + 15 < 2 ^ 32

theorem Record.Fits.size_toNat (h : r.Fits) : r.size.toNat = r.data.length :=
  UInt32.toNat_ofNat_of_lt' (by unfold Fits at h; simp only [UInt32.size]; omega)

theorem Record.Fits.size_lt (h : r.Fits) : r.size.toNat + 15 < 2 ^ 32 := by
  rw [h.size_toNat]
  exact h

theorem Record.Fits.space_toNat (h : r.Fits) :
    (cmsgSpace r.size).toNat = 12 + (r.data.length + 3) / 4 * 4 := by
  rw [cmsgSpace_toNat h.size_lt, h.size_toNat]

end Sizes

section Records

variable {m m' : Memory} {cmsg : UInt32} {r : Record}

theorem putRecord_outside (hcmsg : cmsg.toNat + 12 < 2 ^ 32) {x : ℕ}
    (h : ¬ (cmsg.toNat ≤ x ∧ x < cmsg.toNat + 12 + r.data.length)) :
    putRecord m cmsg r x = m x := by
  unfold putRecord
  rw [Memory.putBytes_outside _ (by rw [cmsgData_toNat hcmsg]; omega),
    Memory.putNumber_outside _ (by omega), Memory.putNumber_outside _ (by omega),
    Memory.putNumber_outside _ (by omega)]

/-- The memory holds the record: the iteration and the reader find it. -/
structure Holds (m : Memory) (cmsg : UInt32) (r : Record) : Prop where
  len : readLen m cmsg = cmsgLen r.size
  record : readRecord m cmsg = r

theorem Record.Fits.count (h : r.Fits) :
    (cmsgLen r.size - cmsgLen 0).toNat = r.data.length := by
  have hlen := cmsgLen_toNat h.size_lt
  have hzero : (cmsgLen 0).toNat = 12 := by decide
  have hlt := (cmsgLen r.size).toNat_lt
  rw [UInt32.toNat_sub_of_le]
  · rw [hlen, hzero, h.size_toNat]
    omega
  · rw [UInt32.le_iff_toNat_le, hlen, hzero]
    omega

theorem holds_putRecord (hcmsg : cmsg.toNat + 12 < 2 ^ 32) (hr : r.Fits) :
    Holds (putRecord m cmsg r) cmsg r := by
  have hdata := cmsgData_toNat hcmsg
  have hlen : (putRecord m cmsg r).number cmsg.toNat 4 = (cmsgLen r.size).toNat := by
    refine Memory.number_of_putNumber (m := m) (cmsgLen r.size).toNat_lt fun x hx hx' => ?_
    rw [putRecord, Memory.putBytes_outside _ (by omega), Memory.putNumber_outside _ (by omega),
      Memory.putNumber_outside _ (by omega)]
  have hlevel : (putRecord m cmsg r).number (cmsg.toNat + 4) 4 = r.level.toUInt32.toNat := by
    refine Memory.number_of_putNumber (m := m.putNumber cmsg.toNat 4 (cmsgLen r.size).toNat)
      r.level.toUInt32.toNat_lt fun x hx hx' => ?_
    rw [putRecord, Memory.putBytes_outside _ (by omega), Memory.putNumber_outside _ (by omega)]
  have htype : (putRecord m cmsg r).number (cmsg.toNat + 8) 4 = r.type.toUInt32.toNat :=
    Memory.number_of_putNumber r.type.toUInt32.toNat_lt fun x hx hx' =>
      Memory.putBytes_outside _ (by omega)
  have hread : readLen (putRecord m cmsg r) cmsg = cmsgLen r.size := by
    rw [readLen, hlen, UInt32.ofNat_toNat]
  refine ⟨hread, ?_⟩
  have hbytes : (putRecord m cmsg r).bytes (cmsgData cmsg).toNat r.data.length = r.data :=
    Memory.bytes_putBytes _ _ _
  rw [readRecord, hlevel, htype, hread, hr.count, hbytes, UInt32.ofNat_toNat, UInt32.ofNat_toNat,
    Int32.toInt32_toUInt32, Int32.toInt32_toUInt32]

theorem Holds.congr (h : Holds m cmsg r) (hcmsg : cmsg.toNat + 12 < 2 ^ 32) (hr : r.Fits)
    (hsame : ∀ x, cmsg.toNat ≤ x → x < cmsg.toNat + 12 + r.data.length → m' x = m x) :
    Holds m' cmsg r := by
  have hnumber : ∀ i, i + 4 ≤ 12 →
      m'.number (cmsg.toNat + i) 4 = m.number (cmsg.toNat + i) 4 :=
    fun i hi => Memory.number_congr fun x hx hx' => hsame x (by omega) (by omega)
  have hlen : readLen m' cmsg = readLen m cmsg := by
    rw [readLen, readLen, ← Nat.add_zero cmsg.toNat, hnumber 0 (by omega)]
  have hcount : (readLen m cmsg - cmsgLen 0).toNat = r.data.length := by
    rw [h.len, hr.count]
  refine ⟨hlen.trans h.len, Eq.trans ?_ h.record⟩
  have hbytes : m'.bytes (cmsgData cmsg).toNat r.data.length =
      m.bytes (cmsgData cmsg).toNat r.data.length := by
    rw [cmsgData_toNat hcmsg]
    exact Memory.bytes_congr fun x hx hx' => hsame x (by omega) (by omega)
  rw [readRecord, readRecord, hlen, hcount, hbytes, hnumber 4 (by omega), hnumber 8 (by omega)]

end Records

section Layout

variable {m : Memory} {mhdr : Msghdr} {cmsg : UInt32}

@[simp]
theorem space_cons (r : Record) (rs : List Record) :
    space (r :: rs) = (cmsgSpace r.size).toNat + space rs := rfl

/-- Writing the records from `cmsg` on leaves what stands before and holds every record. -/
theorem holds_foldl (m : Memory) (cmsg : UInt32) (rs : List Record) (hfits : ∀ r ∈ rs, r.Fits)
    (hcmsg : cmsg.toNat + space rs + 12 < 2 ^ 32) :
    (∀ x < cmsg.toNat, (place cmsg rs).foldl (fun m p => putRecord m p.1 p.2) m x = m x) ∧
      ∀ p ∈ place cmsg rs,
        Holds ((place cmsg rs).foldl (fun m p => putRecord m p.1 p.2) m) p.1 p.2 := by
  induction rs generalizing m cmsg with
  | nil => exact ⟨fun _ _ => rfl, fun p hp => absurd hp List.not_mem_nil⟩
  | cons r rs ih =>
    have hr := hfits r List.mem_cons_self
    have hspace := hr.space_toNat
    rw [space_cons] at hcmsg
    have hnext : (cmsg + cmsgSpace r.size).toNat = cmsg.toNat + (cmsgSpace r.size).toNat := by
      rw [UInt32.toNat_add]
      omega
    obtain ⟨hbelow, hholds⟩ := ih (putRecord m cmsg r) (cmsg + cmsgSpace r.size)
      (fun r hr => hfits r (List.mem_cons_of_mem _ hr)) (by omega)
    rw [place, List.foldl_cons]
    refine ⟨fun x hx => ?_, fun p hp => ?_⟩
    · rw [hbelow x (by omega), putRecord_outside (by omega) (by omega)]
    · rcases List.mem_cons.mp hp with rfl | hp
      · have hhere : cmsg.toNat + 12 < 2 ^ 32 := by omega
        refine (holds_putRecord (m := m) hhere hr).congr hhere hr fun x _ hx => ?_
        exact hbelow x (by omega)
      · exact hholds p hp

/-- Where the iteration stands when the records `rs` are left. -/
def standing (cmsg : UInt32) (rs : List Record) : UInt32 := if rs = [] then 0 else cmsg

theorem cmsgFirsthdr_eq {rs : List Record} (hfits : ∀ r ∈ rs, r.Fits)
    (hlen : mhdr.msgControllen.toUInt32.toNat = space rs) :
    cmsgFirsthdr mhdr = standing mhdr.msgControl rs := by
  have hroom : sizeofCmsghdr ≤ mhdr.msgControllen.toUInt32 ↔ 12 ≤ space rs := by
    rw [UInt32.le_iff_toNat_le, hlen]
    rfl
  unfold cmsgFirsthdr standing
  cases rs with
  | nil => rw [if_neg (hroom.not.mpr (by simp [space])), if_pos rfl]
  | cons r rs =>
    have hspace := (hfits r List.mem_cons_self).space_toNat
    rw [if_pos (hroom.mpr (by rw [space_cons]; omega)), if_neg (List.cons_ne_nil r rs)]

theorem cmsgNxthdr_eq {r : Record} {rs : List Record} (hne : cmsg ≠ 0)
    (hfits : ∀ r' ∈ r :: rs, r'.Fits) (hholds : Holds m cmsg r)
    (hend : cmsg.toNat + space (r :: rs) =
      mhdr.msgControl.toNat + mhdr.msgControllen.toUInt32.toNat)
    (hcmsg : cmsg.toNat + space (r :: rs) + 12 < 2 ^ 32) :
    cmsgNxthdr m mhdr cmsg = standing (cmsg + cmsgSpace r.size) rs := by
  have hr := hfits r List.mem_cons_self
  rw [space_cons] at hend hcmsg
  have hheader : sizeofCmsghdr.toNat = 12 := rfl
  have hstop : (mhdr.msgControl + mhdr.msgControllen.toUInt32).toNat =
      mhdr.msgControl.toNat + mhdr.msgControllen.toUInt32.toNat := by
    rw [UInt32.toNat_add]
    omega
  have hafter : (cmsg + cmsgSpace r.size + sizeofCmsghdr).toNat =
      cmsg.toNat + (cmsgSpace r.size).toNat + 12 := by
    rw [UInt32.toNat_add, UInt32.toNat_add, hheader]
    omega
  have hpast : mhdr.msgControl + mhdr.msgControllen.toUInt32 <
      cmsg + cmsgSpace r.size + sizeofCmsghdr ↔ space rs < 12 := by
    rw [UInt32.lt_iff_toNat_lt, hstop, hafter]
    omega
  unfold cmsgNxthdr standing
  rw [if_neg hne, hholds.len, cmsgHdrAlign_cmsgLen hr.size_lt]
  cases rs with
  | nil => rw [if_pos (hpast.mpr (by simp [space])), if_pos rfl]
  | cons r' rs =>
    have hspace := (hfits r' (by simp)).space_toNat
    rw [if_neg (hpast.not.mpr (by rw [space_cons]; omega)), if_neg (List.cons_ne_nil r' rs)]

theorem iterate_eq (rs : List Record) (hne : rs ≠ [] → cmsg ≠ 0) (hfits : ∀ r ∈ rs, r.Fits)
    (hholds : ∀ p ∈ place cmsg rs, Holds m p.1 p.2)
    (hend : cmsg.toNat + space rs =
      mhdr.msgControl.toNat + mhdr.msgControllen.toUInt32.toNat)
    (hcmsg : cmsg.toNat + space rs + 12 < 2 ^ 32) {fuel : ℕ} (hfuel : rs.length < fuel) :
    iterate m mhdr fuel (standing cmsg rs) = some (place cmsg rs) := by
  induction rs generalizing cmsg fuel with
  | nil =>
    obtain ⟨fuel, rfl⟩ := Nat.exists_eq_succ_of_ne_zero (Nat.ne_zero_of_lt hfuel)
    rfl
  | cons r rs ih =>
    obtain ⟨fuel, rfl⟩ := Nat.exists_eq_succ_of_ne_zero (Nat.ne_zero_of_lt hfuel)
    have hcmsg₀ := hne (List.cons_ne_nil r rs)
    have hr := hfits r List.mem_cons_self
    have hfirst : Holds m cmsg r := hholds (cmsg, r) List.mem_cons_self
    have hnxt := cmsgNxthdr_eq hcmsg₀ hfits hfirst hend hcmsg
    have hspace := hr.space_toNat
    rw [space_cons] at hend hcmsg
    have hnext : (cmsg + cmsgSpace r.size).toNat = cmsg.toNat + (cmsgSpace r.size).toNat := by
      rw [UInt32.toNat_add]
      omega
    have hnonzero : cmsg + cmsgSpace r.size ≠ 0 := by
      intro hzero
      rw [hzero] at hnext
      simp at hnext
      omega
    have hrest := ih (fun _ => hnonzero) (fun r' hr' => hfits r' (List.mem_cons_of_mem _ hr'))
      (fun p hp => hholds p (List.mem_cons_of_mem _ hp)) (by omega) (by omega)
      (Nat.lt_of_succ_lt_succ hfuel)
    rw [standing, if_neg (List.cons_ne_nil r rs), iterate, if_neg hcmsg₀, hnxt, hrest,
      hfirst.record]
    rfl

end Layout

/-- A control buffer of exactly the space of the records, filled with them, is iterated
record by record, each with its level, type and data, and then the iteration ends. -/
theorem cmsg_round_trip (m : Memory) (mhdr : Msghdr) (rs : List Record)
    (hfits : ∀ r ∈ rs, r.Fits) (hlen : mhdr.msgControllen.toUInt32.toNat = space rs)
    (hcontrol : rs ≠ [] → mhdr.msgControl ≠ 0)
    (hwrap : mhdr.msgControl.toNat + space rs + 12 < 2 ^ 32) {fuel : ℕ} (hfuel : rs.length < fuel) :
    iterate (layOut m mhdr rs) mhdr fuel (cmsgFirsthdr mhdr) =
      some (place mhdr.msgControl rs) := by
  have hfirst := cmsgFirsthdr_eq hfits hlen
  have hplace : place (cmsgFirsthdr mhdr) rs = place mhdr.msgControl rs := by
    cases rs with
    | nil => rfl
    | cons r rs => rw [hfirst, standing, if_neg (List.cons_ne_nil r rs)]
  have hholds := (holds_foldl m mhdr.msgControl rs hfits hwrap).2
  rw [layOut, hplace, hfirst]
  exact iterate_eq rs hcontrol hfits hholds (by rw [hlen]) hwrap hfuel

/-- One record without data and one that is padded, in a buffer they fill. -/
theorem cmsg_round_trip_two :
    iterate (layOut (fun _ => 255) ⟨4096, 28⟩ [⟨1, 2, []⟩, ⟨-1, 3, [7, 0, 9]⟩]) ⟨4096, 28⟩ 3
        (cmsgFirsthdr ⟨4096, 28⟩) =
      some [(4096, ⟨1, 2, []⟩), (4108, ⟨-1, 3, [7, 0, 9]⟩)] :=
  cmsg_round_trip (fun _ => 255) ⟨4096, 28⟩ [⟨1, 2, []⟩, ⟨-1, 3, [7, 0, 9]⟩]
    (by simp [Record.Fits]) (by decide) (by decide) (by decide) (by decide)

end Solcompat.Socket
