import Solcompat.Lib.Arena
import Solcompat.Network.AddrInfo

/-!
# Lists of interfaces

`getifaddrs` and `freeifaddrs` of `network.c`. A node has up to three more blocks, and each
of them may be missing: only a refused node ends the loop, and then everything is freed
again. A pointer is the number of its block, with what was stored there when the block was
made. The list that is linked through `ifa_next` is a list of nodes.
-/

namespace Solcompat.Network

open Lib

/-- A record that `SIOCGIFCONF` fills in. -/
structure Ifreq where
  ifrName : CString
  ifrAddr : SockaddrIn

/-- What the system answers. The requests for flags and for the netmask name the interface; their
answers are given by its position. -/
structure IfSystem where
  socket : Except Errno ℤ
  siocgifconf : Except Errno (List Ifreq)
  siocgifflags : ℕ → Option (BitVec 16)
  siocgifnetmask : ℕ → Option SockaddrIn
  grants : ℕ → Bool

/-- `struct ifaddrs`, with the number of its block. -/
structure Ifaddrs where
  block : ℕ
  ifaName : Option (ℕ × CString)
  ifaFlags : BitVec 32
  ifaAddr : Option (ℕ × SockaddrIn)
  ifaNetmask : Option (ℕ × SockaddrIn)
  ifaBroadaddr : Option (ℕ × SockaddrIn)

namespace Ifaddrs

/-- The blocks of a node in the order in which they are freed. -/
def freed (ifa : Ifaddrs) : List ℕ :=
  (ifa.ifaName.map (·.1)).toList ++ (ifa.ifaAddr.map (·.1)).toList ++
    (ifa.ifaNetmask.map (·.1)).toList ++ (ifa.ifaBroadaddr.map (·.1)).toList ++ [ifa.block]

end Ifaddrs

/-- `free` of each node and what it points to; `none` if a block is not there. -/
def freeifaddrs (ifa : List Ifaddrs) (h : Arena) : Option Arena :=
  match ifa with
  | [] => some h
  | ifa :: next => (h.freeAll ifa.freed).bind (freeifaddrs next)

/-- The netmask, if the system has one and there is memory for it. -/
def ifNetmask (sys : IfSystem) (i : ℕ) (h : Arena) : Option (ℕ × SockaddrIn) × Arena :=
  match sys.siocgifnetmask i with
  | none => (none, h)
  | some mask =>
    let (block, h) := h.alloc sys.grants
    (block.map (·, mask), h)

/-- The body of the loop: a node, or none when `calloc` refuses it. `ifr_flags` is a `short`. -/
def ifEntry (sys : IfSystem) (i : ℕ) (ifr : Ifreq) (h : Arena) : Option Ifaddrs × Arena :=
  match h.alloc sys.grants with
  | (none, h) => (none, h)
  | (some block, h) =>
    let (name, h) := h.alloc sys.grants
    let (addr, h) := h.alloc sys.grants
    let (mask, h) := ifNetmask sys i h
    (some
      { block := block
        ifaName := name.map (·, ifr.ifrName)
        ifaFlags := ((sys.siocgifflags i).getD 0).signExtend 32
        ifaAddr := addr.map (·, ifr.ifrAddr)
        ifaNetmask := mask
        ifaBroadaddr := none }, h)

/-- The loop from entry `i` on, behind the nodes of `head`. -/
def ifLoop (sys : IfSystem) :
    ℕ → List Ifreq → List Ifaddrs → Arena → Option (Except Errno (List Ifaddrs) × Arena)
  | _, [], head, h => some (.ok head, h)
  | i, ifr :: rest, head, h =>
    match ifEntry sys i ifr h with
    | (none, h) => (freeifaddrs head h).map fun h => (.error .ENOMEM, h)
    | (some ifa, h) => ifLoop sys (i + 1) rest (head ++ [ifa]) h

/-- What `getifaddrs` leaves behind: its result, the heap, and the sockets that it closed. -/
structure IfResult where
  ret : Except Errno (List Ifaddrs)
  heap : Arena
  closed : List ℤ

def getifaddrs (sys : IfSystem) (h : Arena) : Option IfResult :=
  match sys.socket with
  | .error e => some ⟨.error e, h, []⟩
  | .ok sock =>
    match sys.siocgifconf with
    | .error e => some ⟨.error e, h, [sock]⟩
    | .ok entries => (ifLoop sys 0 entries [] h).map fun (ret, h) => ⟨ret, h, [sock]⟩

variable {sys : IfSystem} {h₀ h : Arena} {ids rest : List ℕ}

theorem freeifaddrs_eq (nodes : List Ifaddrs) (h : Arena) :
    freeifaddrs nodes h = h.freeAll (nodes.flatMap Ifaddrs.freed) := by
  induction nodes generalizing h with
  | nil => rfl
  | cons ifa nodes ih =>
    rw [freeifaddrs, List.flatMap_cons, Arena.freeAll_append]
    exact congrArg _ (funext ih)

/-- What a node says of its interface. -/
structure Describes (sys : IfSystem) (i : ℕ) (ifr : Ifreq) (ifa : Ifaddrs) : Prop where
  name : ∀ text ∈ ifa.ifaName.map (·.2), text = ifr.ifrName
  flags : ifa.ifaFlags = ((sys.siocgifflags i).getD 0).signExtend 32
  addr : ∀ sin ∈ ifa.ifaAddr.map (·.2), sin = ifr.ifrAddr
  netmask : ∀ sin ∈ ifa.ifaNetmask.map (·.2), sys.siocgifnetmask i = some sin
  broadaddr : ifa.ifaBroadaddr = none
  complete : (∀ k, sys.grants k = true) →
    ifa.ifaName.isSome ∧ ifa.ifaAddr.isSome ∧
      ifa.ifaNetmask.isSome = (sys.siocgifnetmask i).isSome

theorem alloc_isSome (hgrants : ∀ k, sys.grants k = true) (h : Arena) :
    (h.alloc sys.grants).1.isSome = true := by
  rw [Arena.alloc, if_pos (hgrants _)]
  rfl

theorem ifNetmask_spec (howns : h₀.Owns h ids) (i : ℕ) :
    h₀.Owns (ifNetmask sys i h).2 (ids ++ ((ifNetmask sys i h).1.map (·.1)).toList) ∧
      (∀ sin ∈ (ifNetmask sys i h).1.map (·.2), sys.siocgifnetmask i = some sin) ∧
        ((∀ k, sys.grants k = true) →
          (ifNetmask sys i h).1.isSome = (sys.siocgifnetmask i).isSome) := by
  unfold ifNetmask
  cases sys.siocgifnetmask i with
  | none => simpa using howns
  | some mask =>
    have halloc := howns.alloc sys.grants
    have hsome := fun hgrants => @alloc_isSome sys hgrants h
    cases hblock : h.alloc sys.grants with
    | mk block h₁ =>
      rw [hblock] at halloc hsome
      cases block with
      | none => exact ⟨halloc, by simp, fun hgrants => absurd (hsome hgrants) (by simp)⟩
      | some block => exact ⟨halloc, by simp, fun _ => rfl⟩

theorem map_text {α : Type} (block : Option ℕ) (value : α) :
    ∀ found ∈ (block.map (·, value)).map (·.2), found = value := by
  cases block <;> simp

theorem map_block {α : Type} (block : Option ℕ) (value : α) :
    (block.map (·, value)).map (·.1) = block := by
  cases block <;> rfl

theorem ifEntry_spec (howns : h₀.Owns h ids) (i : ℕ) (ifr : Ifreq) :
    ((ifEntry sys i ifr h).1 = none ∧ h₀.Owns (ifEntry sys i ifr h).2 ids ∧
        ¬ ∀ k, sys.grants k = true) ∨
      ∃ ifa, (ifEntry sys i ifr h).1 = some ifa ∧ Describes sys i ifr ifa ∧
        h₀.Owns (ifEntry sys i ifr h).2 (ids ++ ifa.freed) := by
  have hown := howns.alloc sys.grants
  have hsome := fun hgrants => @alloc_isSome sys hgrants h
  unfold ifEntry
  cases hblock : h.alloc sys.grants with
  | mk block h₁ =>
    rw [hblock] at hown hsome
    cases block with
    | none =>
      left
      exact ⟨rfl, by simpa using hown, fun hgrants => absurd (hsome hgrants) (by simp)⟩
    | some block =>
      right
      have hname := hown.alloc sys.grants
      have haddr := hname.alloc sys.grants
      obtain ⟨hmask, hnetmask, hcomplete⟩ := @ifNetmask_spec sys _ _ _ haddr i
      refine ⟨_, rfl, ⟨map_text _ _, rfl, map_text _ _, hnetmask, rfl, fun hgrants => ?_⟩, ?_⟩
      · simp only [Option.isSome_map]
        exact ⟨alloc_isSome hgrants _, alloc_isSome hgrants _, hcomplete hgrants⟩
      · refine hmask.perm ?_
        simp only [Ifaddrs.freed, map_block, Option.map_none, Option.toList_none, List.append_nil,
          List.append_assoc, Option.toList_some]
        refine List.Perm.append_left ids (List.perm_append_comm.trans ?_)
        simp only [List.append_assoc]
        rfl

theorem freeifaddrs_owned {nodes : List Ifaddrs}
    (howns : h₀.Owns h (nodes.flatMap Ifaddrs.freed)) :
    ∃ h', freeifaddrs nodes h = some h' ∧ h₀.Owns h' [] := by
  rw [← List.append_nil (nodes.flatMap Ifaddrs.freed)] at howns
  rw [freeifaddrs_eq]
  exact howns.freeAll

inductive Mirrors (sys : IfSystem) : ℕ → List Ifreq → List Ifaddrs → Prop
  | nil (i : ℕ) : Mirrors sys i [] []
  | cons {i : ℕ} {ifr : Ifreq} {ifa : Ifaddrs} {entries : List Ifreq} {nodes : List Ifaddrs}
    (hfirst : Describes sys i ifr ifa) (hrest : Mirrors sys (i + 1) entries nodes) :
    Mirrors sys i (ifr :: entries) (ifa :: nodes)

/-- The loop ends with a node for each record, or it frees all nodes that it has made. -/
theorem ifLoop_spec (entries : List Ifreq) (i : ℕ) {head : List Ifaddrs}
    (howns : h₀.Owns h (head.flatMap Ifaddrs.freed)) :
    ∃ ret h', ifLoop sys i entries head h = some (ret, h') ∧
      ((∃ nodes, ret = .ok (head ++ nodes) ∧ Mirrors sys i entries nodes ∧
          h₀.Owns h' ((head ++ nodes).flatMap Ifaddrs.freed)) ∨
        ret = .error .ENOMEM ∧ h₀.Owns h' [] ∧ ¬ ∀ k, sys.grants k = true) := by
  induction entries generalizing i head h with
  | nil => exact ⟨.ok head, h, rfl, .inl ⟨[], by simp, .nil i, by simpa using howns⟩⟩
  | cons ifr entries ih =>
    have hstep := @ifEntry_spec sys h₀ h _ howns i ifr
    unfold ifLoop
    generalize ifEntry sys i ifr h = round at hstep
    obtain ⟨node, h₁⟩ := round
    rcases hstep with ⟨hnone, hown, hrefused⟩ | ⟨ifa, hsome, hdescribes, hown⟩
    · obtain rfl : node = none := hnone
      obtain ⟨h', hfree, hown'⟩ := freeifaddrs_owned hown
      refine ⟨.error .ENOMEM, h', ?_, .inr ⟨rfl, hown', hrefused⟩⟩
      simp only [hfree, Option.map_some]
    · obtain rfl : node = some ifa := hsome
      have hhead : h₀.Owns h₁ ((head ++ [ifa]).flatMap Ifaddrs.freed) := by
        rw [List.flatMap_append, List.flatMap_singleton]
        exact hown
      obtain ⟨ret, h', hloop, hcases⟩ := ih (i + 1) hhead
      refine ⟨ret, h', hloop, hcases.imp ?_ id⟩
      rintro ⟨nodes, rfl, hmirrors, hown'⟩
      rw [List.append_assoc] at hown' ⊢
      exact ⟨ifa :: nodes, rfl, .cons hdescribes hmirrors, hown'⟩

/-- Why `getifaddrs` fails. -/
inductive Fails (sys : IfSystem) : Errno → Prop
  | socket {e : Errno} (h : sys.socket = .error e) : Fails sys e
  | ioctl {e : Errno} (h : sys.siocgifconf = .error e) : Fails sys e
  | memory {k : ℕ} (h : sys.grants k = false) : Fails sys .ENOMEM

/-- Whatever requests for memory are refused, `getifaddrs` closes its socket, and either mirrors
all records in order or leaves the heap as it was. `freeifaddrs` frees each block of the list
once, and nothing else. -/
theorem getifaddrs_freeifaddrs (sys : IfSystem) (h : Arena) :
    ∃ result, getifaddrs sys h = some result ∧
      result.closed = sys.socket.toOption.toList ∧
      ((∃ e, result.ret = .error e ∧ Fails sys e ∧ result.heap.live = h.live) ∨
        ∃ entries nodes h', sys.siocgifconf = .ok entries ∧ result.ret = .ok nodes ∧
          Mirrors sys 0 entries nodes ∧ freeifaddrs nodes result.heap = some h' ∧
            h'.live = h.live) := by
  unfold getifaddrs
  cases hsocket : sys.socket with
  | error e => exact ⟨_, rfl, rfl, .inl ⟨e, rfl, .socket hsocket, rfl⟩⟩
  | ok sock =>
    cases hconf : sys.siocgifconf with
    | error e => exact ⟨_, rfl, rfl, .inl ⟨e, rfl, .ioctl hconf, rfl⟩⟩
    | ok entries =>
      obtain ⟨ret, h', hloop, hcases⟩ :=
        @ifLoop_spec sys h h entries 0 [] (Arena.owns_nil h)
      refine ⟨⟨ret, h', [sock]⟩, by simp only [hloop, Option.map_some], rfl, ?_⟩
      rcases hcases with ⟨nodes, rfl, hmirrors, hown⟩ | ⟨rfl, hown, hrefused⟩
      · obtain ⟨h'', hfree, hown'⟩ := freeifaddrs_owned hown
        exact .inr ⟨entries, nodes, h'', rfl, rfl, hmirrors, hfree, hown'.live_eq⟩
      · obtain ⟨k, hk⟩ := not_forall.mp hrefused
        exact .inl ⟨.ENOMEM, rfl, .memory (Bool.eq_false_of_not_eq_true hk), hown.live_eq⟩

end Solcompat.Network
