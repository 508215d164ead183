import Solcompat.Socket.Cmsg

/-!
# Walking a control buffer of any contents

`CMSG_NXTHDR` adds the rounded `cmsg_len` of a header to its address, whatever the header
says. A length that rounds to zero makes the walk stand still, and one that takes the sum
around the end of the address space makes it go back or leave the buffer. With every other
length the next header is further on and complete, or the walk ends.
-/

namespace Solcompat.Socket

open Solcompat.Lib

/-- The control buffer is an object in memory: it does not reach the end of the address space,
and does not stand at the null pointer. -/
structure Msghdr.InMemory (mhdr : Msghdr) : Prop where
  nonzero : 0 < mhdr.msgControllen.toUInt32 → mhdr.msgControl ≠ 0
  fits : mhdr.msgControl.toNat + mhdr.msgControllen.toUInt32.toNat < 2 ^ 32

/-- A complete header inside the buffer. -/
def Msghdr.Inside (mhdr : Msghdr) (cmsg : UInt32) : Prop :=
  mhdr.msgControl.toNat ≤ cmsg.toNat ∧
    cmsg.toNat + 12 ≤ mhdr.msgControl.toNat + mhdr.msgControllen.toUInt32.toNat

/-- The walk reaches the null pointer, by headers that are inside the buffer and each behind the
one before. -/
def WalkEnds (m : Memory) (mhdr : Msghdr) (cmsg : UInt32) : Prop :=
  ∃ fuel visited, iterate m mhdr fuel cmsg = some visited ∧
    (visited.map Prod.fst).Pairwise (· < ·) ∧ ∀ p ∈ visited, mhdr.Inside p.1

inductive Visited (m : Memory) (mhdr : Msghdr) : UInt32 → UInt32 → Prop
  | here {cmsg : UInt32} (hne : cmsg ≠ 0) : Visited m mhdr cmsg cmsg
  | further {cmsg next : UInt32} (hne : cmsg ≠ 0)
      (h : Visited m mhdr (cmsgNxthdr m mhdr cmsg) next) : Visited m mhdr cmsg next

/-- The length of the header leads on: it does not round to zero, and the end of the next header
does not wrap, unless the next header would be at the null pointer itself. -/
def Advances (m : Memory) (cmsg : UInt32) : Prop :=
  cmsgHdrAlign (readLen m cmsg) ≠ 0 ∧
    (cmsg.toNat + (cmsgHdrAlign (readLen m cmsg)).toNat + 12 < 2 ^ 32 ∨
      cmsg.toNat + (cmsgHdrAlign (readLen m cmsg)).toNat = 2 ^ 32)

section Step

variable {m : Memory} {mhdr : Msghdr} {cmsg : UInt32}

theorem Msghdr.Inside.control_pos (h : mhdr.Inside cmsg) (hbuffer : mhdr.InMemory) :
    0 < mhdr.msgControl.toNat := by
  obtain ⟨hlow, hhigh⟩ := h
  have hlen : 0 < mhdr.msgControllen.toUInt32 := by
    rw [UInt32.lt_iff_toNat_lt, UInt32.toNat_zero]
    omega
  apply Nat.pos_of_ne_zero
  intro hzero
  exact hbuffer.nonzero hlen (UInt32.toNat_inj.mp hzero)

theorem advances_iff (hbuffer : mhdr.InMemory) (h : mhdr.Inside cmsg) :
    Advances m cmsg ↔ cmsgNxthdr m mhdr cmsg = 0 ∨
      cmsg < cmsgNxthdr m mhdr cmsg ∧ mhdr.Inside (cmsgNxthdr m mhdr cmsg) := by
  have hfits := hbuffer.fits
  have hpos := h.control_pos hbuffer
  obtain ⟨hlow, hhigh⟩ := h
  have hne : cmsg ≠ 0 := by
    rintro rfl
    rw [UInt32.toNat_zero] at hlow
    omega
  unfold Advances cmsgNxthdr
  generalize cmsgHdrAlign (readLen m cmsg) = step
  have hstep := step.toNat_lt
  have hcmsg := cmsg.toNat_lt
  have hheader : sizeofCmsghdr.toNat = 12 := rfl
  have hend : (mhdr.msgControl + mhdr.msgControllen.toUInt32).toNat =
      mhdr.msgControl.toNat + mhdr.msgControllen.toUInt32.toNat := by
    rw [UInt32.toNat_add]
    omega
  have hnext : (cmsg + step).toNat = (cmsg.toNat + step.toNat) % 2 ^ 32 := UInt32.toNat_add ..
  have hafter : (cmsg + step + sizeofCmsghdr).toNat =
      (cmsg.toNat + step.toNat + 12) % 2 ^ 32 := by
    rw [UInt32.toNat_add, hnext, hheader]
    omega
  have hzero : step = 0 ↔ step.toNat = 0 := by
    rw [← UInt32.toNat_inj, UInt32.toNat_zero]
  have hnull : cmsg + step = 0 ↔ (cmsg.toNat + step.toNat) % 2 ^ 32 = 0 := by
    rw [← UInt32.toNat_inj, UInt32.toNat_zero, hnext]
  rw [if_neg hne]
  simp only [UInt32.lt_iff_toNat_lt, hend, hafter]
  split_ifs with hpast
  · simp only [true_or, iff_true, ne_eq, hzero]
    omega
  · simp only [ne_eq, hzero, hnull, hnext, Msghdr.Inside]
    omega

theorem iterate_succ (hne : cmsg ≠ 0) (fuel : ℕ) :
    iterate m mhdr (fuel + 1) cmsg =
      (iterate m mhdr fuel (cmsgNxthdr m mhdr cmsg)).map ((cmsg, readRecord m cmsg) :: ·) :=
  if_neg hne

end Step

section Walk

variable {m : Memory} {mhdr : Msghdr} {cmsg : UInt32}

/-- From a header inside the buffer on the distance to its end goes down with every step. -/
theorem walkEnds_of_advances (hbuffer : mhdr.InMemory) {n : ℕ}
    (h : cmsg = 0 ∨ mhdr.Inside cmsg ∧
      mhdr.msgControl.toNat + mhdr.msgControllen.toUInt32.toNat - cmsg.toNat ≤ n)
    (hadvances : ∀ c, Visited m mhdr cmsg c → Advances m c) :
    ∃ visited, iterate m mhdr (n + 1) cmsg = some visited ∧
      (visited.map Prod.fst).Pairwise (· < ·) ∧
      ∀ p ∈ visited, mhdr.Inside p.1 ∧ cmsg ≤ p.1 := by
  induction n generalizing cmsg with
  | zero =>
    rcases h with rfl | ⟨⟨_, hhigh⟩, hn⟩
    · exact ⟨[], rfl, by simp, by simp⟩
    · omega
  | succ n ih =>
    by_cases hne : cmsg = 0
    · exact ⟨[], if_pos hne, by simp, by simp⟩
    · obtain ⟨hinside, hn⟩ := h.resolve_left hne
      have hstep := (advances_iff hbuffer hinside).mp (hadvances cmsg (.here hne))
      have hnext : cmsgNxthdr m mhdr cmsg = 0 ∨ mhdr.Inside (cmsgNxthdr m mhdr cmsg) ∧
          mhdr.msgControl.toNat + mhdr.msgControllen.toUInt32.toNat -
            (cmsgNxthdr m mhdr cmsg).toNat ≤ n := by
        refine hstep.imp_right fun ⟨hlt, hinside'⟩ => ⟨hinside', ?_⟩
        rw [UInt32.lt_iff_toNat_lt] at hlt
        have hhigh := hinside.2
        omega
      obtain ⟨visited, hiterate, hpairwise, hall⟩ := ih hnext fun c hc =>
        hadvances c (.further hne hc)
      -- a header is behind this one only if the walk went on
      have hbehind : ∀ p ∈ visited, cmsg < p.1 := by
        intro p hp
        rcases hstep with hzero | hlt
        · rw [hzero, iterate, if_pos rfl] at hiterate
          rw [← Option.some.inj hiterate] at hp
          simp at hp
        · exact UInt32.lt_of_lt_of_le hlt.1 (hall p hp).2
      refine ⟨(cmsg, readRecord m cmsg) :: visited, ?_, ?_, ?_⟩
      · rw [iterate_succ hne, hiterate, Option.map_some]
      · rw [List.map_cons, List.pairwise_cons]
        refine ⟨fun c hc => ?_, hpairwise⟩
        obtain ⟨p, hp, rfl⟩ := List.mem_map.mp hc
        exact hbehind p hp
      · intro p hp
        rcases List.mem_cons.mp hp with rfl | hp
        · exact ⟨hinside, UInt32.le_refl _⟩
        · exact ⟨(hall p hp).1, UInt32.le_of_lt (hbehind p hp)⟩

theorem advances_of_iterate (hbuffer : mhdr.InMemory) {fuel : ℕ} {visited : List (UInt32 × Record)}
    (hiterate : iterate m mhdr fuel cmsg = some visited)
    (hpairwise : (visited.map Prod.fst).Pairwise (· < ·))
    (hinside : ∀ p ∈ visited, mhdr.Inside p.1) {c : UInt32} (hc : Visited m mhdr cmsg c) :
    Advances m c := by
  induction fuel generalizing cmsg visited with
  | zero => cases hiterate
  | succ fuel ih =>
    have hne : cmsg ≠ 0 := by
      cases hc with
      | here hne => exact hne
      | further hne _ => exact hne
    rw [iterate_succ hne] at hiterate
    obtain ⟨rest, hrest, rfl⟩ := Option.map_eq_some_iff.mp hiterate
    rw [List.map_cons, List.pairwise_cons] at hpairwise
    have hinside' : ∀ p ∈ rest, mhdr.Inside p.1 := fun p hp => hinside p (List.mem_cons_of_mem _ hp)
    cases hc with
    | further _ hc => exact ih hrest hpairwise.2 hinside' hc
    | here _ =>
      rw [advances_iff hbuffer (hinside (c, readRecord m c) List.mem_cons_self)]
      by_cases hnext : cmsgNxthdr m mhdr c = 0
      · exact .inl hnext
      · right
        obtain ⟨r, rest, rfl⟩ : ∃ r rest', rest = (cmsgNxthdr m mhdr c, r) :: rest' := by
          cases fuel with
          | zero => cases hrest
          | succ fuel =>
            rw [iterate_succ hnext] at hrest
            obtain ⟨rest', _, rfl⟩ := Option.map_eq_some_iff.mp hrest
            exact ⟨_, _, rfl⟩
        exact ⟨hpairwise.1 _ List.mem_cons_self, hinside' _ List.mem_cons_self⟩

theorem cmsgFirsthdr_inside (mhdr : Msghdr) :
    cmsgFirsthdr mhdr = 0 ∨ mhdr.Inside (cmsgFirsthdr mhdr) := by
  unfold cmsgFirsthdr
  split_ifs with hroom
  · rw [UInt32.le_iff_toNat_le] at hroom
    have hheader : sizeofCmsghdr.toNat = 12 := rfl
    exact .inr ⟨le_rfl, by omega⟩
  · exact .inl rfl

end Walk

/-- Whatever the buffer holds: the walk from `CMSG_FIRSTHDR` ends, by complete headers inside the
buffer in increasing order, if and only if the length of every header it comes to leads on. -/
theorem walk_ends_iff (m : Memory) (mhdr : Msghdr) (hbuffer : mhdr.InMemory) :
    WalkEnds m mhdr (cmsgFirsthdr mhdr) ↔
      ∀ c, Visited m mhdr (cmsgFirsthdr mhdr) c → Advances m c := by
  constructor
  · rintro ⟨fuel, visited, hiterate, hpairwise, hinside⟩ c hc
    exact advances_of_iterate hbuffer hiterate hpairwise hinside hc
  · intro hadvances
    obtain ⟨visited, hiterate, hpairwise, hall⟩ := walkEnds_of_advances hbuffer
      ((cmsgFirsthdr_inside mhdr).imp_right fun h => ⟨h, le_rfl⟩) hadvances
    exact ⟨_, visited, hiterate, hpairwise, fun p hp => (hall p hp).1⟩

/-- One header whose length goes beyond the end of the buffer. -/
theorem walk_ends_overlong :
    WalkEnds (fun _ => 1) ⟨4096, 16⟩ (cmsgFirsthdr ⟨4096, 16⟩) := by
  apply (walk_ends_iff (fun _ => 1) ⟨4096, 16⟩ ⟨by decide, by decide⟩).mpr
  intro c hc
  have hnext : cmsgNxthdr (fun _ => 1) ⟨4096, 16⟩ 4096 = 0 := by decide
  have hfirst : cmsgFirsthdr ⟨4096, 16⟩ = 4096 := by decide
  rw [hfirst] at hc
  cases hc with
  | here _ => exact ⟨by decide, by decide⟩
  | further _ hc =>
    rw [hnext] at hc
    cases hc with
    | here hne => exact absurd rfl hne
    | further hne _ => exact absurd rfl hne

/-- In a buffer of zeros the walk stays at the first header. -/
theorem walk_stands_still :
    Msghdr.InMemory ⟨4096, 12⟩ ∧ ¬ WalkEnds (fun _ => 0) ⟨4096, 12⟩ (cmsgFirsthdr ⟨4096, 12⟩) := by
  refine ⟨⟨by decide, by decide⟩, ?_⟩
  have hnone : ∀ fuel, iterate (fun _ => 0) ⟨4096, 12⟩ fuel 4096 = none := by
    intro fuel
    induction fuel with
    | zero => rfl
    | succ fuel ih =>
      have hnext : cmsgNxthdr (fun _ => 0) ⟨4096, 12⟩ 4096 = 4096 := by decide
      rw [iterate_succ (by decide), hnext, ih, Option.map_none]
  have hfirst : cmsgFirsthdr ⟨4096, 12⟩ = 4096 := by decide
  rintro ⟨fuel, visited, hiterate, -, -⟩
  rw [hfirst, hnone] at hiterate
  cases hiterate

end Solcompat.Socket
