import Mathlib.Data.Finset.Basic
import Solcompat.Locale.Model

/-!
# Who owns a locale handle

A client follows the rules of the interface: it hands over only handles it owns, gives up
the base of a successful `newlocale`, and frees a handle only when another locale was put in
use since. The library breaks its side in two places. `newlocale` frees the base before it
knows whether it can succeed, and the static variable of `uselocale` keeps a handle that the
client has freed.
-/

namespace Solcompat.Locale

open Solcompat.Lib

inductive Event
  | newlocale (memory : Bool) (name : Option CString) (base : Option ℕ)
  | duplocale (memory : Bool) (loc : Handle)
  | uselocale (loc : Handle)
  | freelocale (loc : Handle)
  deriving DecidableEq

/-- The process, the handles that the client owns, and the locale that it has put in use by the
rules of the interface. -/
structure Client (Loc : Type) where
  process : Process Loc
  owned : Finset ℕ
  used : Handle

/-- A process before its first call. -/
def Client.start {Loc : Type} (locale : Loc) : Client Loc where
  process := { names := [], frees := fun _ => 0, current := none, locale }
  owned := ∅
  used := .global

section Steps

variable {Loc : Type} (setlocale : CString → Option Loc)

def Client.receive (c : Client Loc) (given : Finset ℕ) (result : Handle × Process Loc) :
    Client Loc :=
  match result.1 with
  | .ref h => { c with process := result.2, owned := insert h (c.owned \ given) }
  | _ => { c with process := result.2 }

/-- One call: the handle it returns, and what is then. -/
def step (c : Client Loc) : Event → Handle × Client Loc
  | .newlocale memory name base =>
    let result := newlocale memory name base c.process
    (result.1, c.receive base.toFinset result)
  | .duplocale memory loc =>
    let result := duplocale memory loc c.process
    (result.1, c.receive ∅ result)
  | .uselocale loc =>
    let result := uselocale setlocale loc c.process
    (result.1, { c with process := result.2, used := if loc = .null then c.used else loc })
  | .freelocale loc =>
    (.null,
      { c with
        process := freelocale loc c.process
        owned := match loc with
          | .ref h => c.owned.erase h
          | _ => c.owned })

/-- A handle passed to the library is one that the client owns. -/
def Client.may (c : Client Loc) (loc : Handle) : Bool :=
  match loc with
  | .ref h => h ∈ c.owned
  | _ => true

/-- The rules of the interface. -/
def follows (c : Client Loc) : Event → Bool
  | .newlocale _ _ base => base.all (· ∈ c.owned)
  | .duplocale _ loc => c.may loc
  | .uselocale loc => c.may loc
  | .freelocale loc => c.may loc && loc ≠ c.used

/-- Neither defect is reached: a `newlocale` with a base finds memory, and the handle that is
freed or given up is not the one in the static variable. -/
def avoids (c : Client Loc) : Event → Bool
  | .newlocale memory _ base => base.all fun h => memory && c.process.current ≠ some h
  | .freelocale (.ref h) => c.process.current ≠ some h
  | _ => true

def after (c : Client Loc) : List Event → Client Loc
  | [] => c
  | event :: events => after (step setlocale c event).2 events

/-- Every call of the run is made in a state in which it may be made. -/
def along (allowed : Client Loc → Event → Bool) (c : Client Loc) : List Event → Bool
  | [] => true
  | event :: events => allowed c event && along allowed (step setlocale c event).2 events

end Steps

/-- No handle was freed twice, and those the client owns are live. -/
structure Client.Sound {Loc : Type} (c : Client Loc) : Prop where
  once : ∀ h, c.process.frees h ≤ 1
  live : ∀ h ∈ c.owned, h < c.process.names.length ∧ c.process.frees h = 0

/-- What the calls preserve. -/
structure Client.Inv {Loc : Type} (c : Client Loc) : Prop extends c.Sound where
  current : ∀ h, c.process.current = some h → h ∈ c.owned
  unissued : ∀ h, c.process.names.length ≤ h → c.process.frees h = 0

section Invariant

variable {Loc : Type} {setlocale : CString → Option Loc} {c : Client Loc}

theorem inv_start (locale : Loc) : (Client.start locale).Inv := by
  refine ⟨⟨fun _ => Nat.zero_le _, fun h hh => ?_⟩, fun h hh => ?_, fun _ _ => rfl⟩
  · simp [Client.start] at hh
  · simp [Client.start] at hh

theorem Client.Inv.strdup (hc : c.Inv) (memory : Bool) (name : CString) :
    (c.receive ∅ (strdup memory name c.process)).Inv := by
  cases memory with
  | false => exact hc
  | true =>
    refine ⟨⟨hc.once, fun h hh => ?_⟩, fun h hh => ?_, fun h hh => ?_⟩
    · simp only [receive, Locale.strdup, if_true, Finset.sdiff_empty, Finset.mem_insert] at hh
      simp only [receive, Locale.strdup, if_true, List.length_append, List.length_singleton]
      rcases hh with rfl | hh
      · exact ⟨Nat.lt_succ_self _, hc.unissued _ le_rfl⟩
      · exact ⟨Nat.lt_succ_of_lt (hc.live h hh).1, (hc.live h hh).2⟩
    · simp only [receive, Locale.strdup, if_true, Finset.sdiff_empty, Finset.mem_insert]
      exact .inr (hc.current h hh)
    · simp only [receive, Locale.strdup, if_true, List.length_append, List.length_singleton] at hh
      exact hc.unissued h (by omega)

/-- A handle that the client owns and that is not in the static variable may be freed. -/
theorem Client.Inv.free (hc : c.Inv) {h : ℕ} (hh : h ∈ c.owned)
    (hcurrent : c.process.current ≠ some h) :
    Client.Inv { c with process := free h c.process, owned := c.owned.erase h } := by
  refine ⟨⟨fun h' => ?_, fun h' hh' => ?_⟩, fun h' hh' => ?_, fun h' hh' => ?_⟩
  · simp only [Locale.free, Function.update_apply]
    split_ifs
    · rw [(hc.live h hh).2]
    · exact hc.once h'
  · obtain ⟨hne, hmem⟩ := Finset.mem_erase.mp hh'
    simp only [Locale.free, Function.update_of_ne hne]
    exact hc.live h' hmem
  · refine Finset.mem_erase.mpr ⟨?_, hc.current h' hh'⟩
    rintro rfl
    exact hcurrent hh'
  · have hne : h' ≠ h := by
      rintro rfl
      exact absurd (hc.live h' hh).1 (Nat.not_lt.mpr hh')
    simp only [Locale.free, Function.update_of_ne hne]
    exact hc.unissued h' hh'

theorem Client.Inv.newlocale_base (hc : c.Inv) (name : Option CString) {h : ℕ} (hh : h ∈ c.owned)
    (hcurrent : c.process.current ≠ some h) :
    (c.receive (some h).toFinset (newlocale true name (some h) c.process)).Inv := by
  have hinv := (hc.free hh hcurrent).strdup true (name.getD (CString.ofString "C"))
  have hsame : c.receive (some h).toFinset (newlocale true name (some h) c.process) =
      Client.receive { c with process := Locale.free h c.process, owned := c.owned.erase h } ∅
        (Locale.strdup true (name.getD (CString.ofString "C")) (Locale.free h c.process)) := by
    simp [receive, newlocale, Locale.strdup, Locale.free, Finset.sdiff_singleton_eq_erase]
  rw [hsame]
  exact hinv

/-- A call that follows the rules and avoids the defects keeps the invariant, and a handle that
`uselocale` returns is live. -/
theorem step_inv (setlocale : CString → Option Loc) (hc : c.Inv) {event : Event}
    (hfollows : follows c event = true) (havoids : avoids c event = true) :
    (step setlocale c event).2.Inv ∧ ∀ loc h, event = .uselocale loc →
      (step setlocale c event).1 = .ref h → (step setlocale c event).2.process.frees h = 0 := by
  cases event with
  | newlocale memory name base =>
    refine ⟨?_, by simp⟩
    cases base with
    | none => exact hc.strdup memory _
    | some h =>
      simp only [avoids, Option.all_some, Bool.and_eq_true, decide_eq_true_eq] at havoids
      simp only [follows, Option.all_some, decide_eq_true_eq] at hfollows
      rw [havoids.1]
      exact hc.newlocale_base name hfollows havoids.2
  | duplocale memory loc =>
    refine ⟨?_, by simp⟩
    cases loc with
    | ref h => exact hc.strdup memory _
    | null => exact hc.strdup memory _
    | global => exact hc.strdup memory _
  | uselocale loc =>
    have hold : ∀ h, c.process.old = .ref h → c.process.frees h = 0 := by
      intro h hh
      refine (hc.live h (hc.current h ?_)).2
      unfold Process.old at hh
      split at hh
      · rename_i h' hcurrent
        rw [hcurrent, Handle.ref.inj hh]
      · exact absurd hh (by simp)
    cases loc with
    | ref h =>
      simp only [follows, Client.may, decide_eq_true_eq] at hfollows
      refine ⟨⟨⟨hc.once, hc.live⟩, ?_, hc.unissued⟩, fun _ h' _ hh' => hold h' hh'⟩
      rintro h' hh'
      rw [← Option.some.inj hh']
      exact hfollows
    | null => exact ⟨⟨⟨hc.once, hc.live⟩, hc.current, hc.unissued⟩, fun _ h' _ hh' => hold h' hh'⟩
    | global =>
      exact ⟨⟨⟨hc.once, hc.live⟩, hc.current, hc.unissued⟩, fun _ h' _ hh' => hold h' hh'⟩
  | freelocale loc =>
    refine ⟨?_, by simp⟩
    cases loc with
    | ref h =>
      simp only [follows, Client.may, Bool.and_eq_true, decide_eq_true_eq] at hfollows
      simp only [avoids, decide_eq_true_eq] at havoids
      exact hc.free hfollows.1 havoids
    | null => exact hc
    | global => exact hc

theorem after_inv (hc : c.Inv) (events : List Event)
    (hfollows : along setlocale follows c events = true)
    (havoids : along setlocale avoids c events = true) : (after setlocale c events).Inv := by
  induction events generalizing c with
  | nil => exact hc
  | cons event events ih =>
    simp only [along, Bool.and_eq_true] at hfollows havoids
    exact ih (step_inv setlocale hc hfollows.1 havoids.1).1 hfollows.2 havoids.2

theorem along_append (allowed : Client Loc → Event → Bool) (events events' : List Event) :
    along setlocale allowed c (events ++ events') =
      (along setlocale allowed c events &&
        along setlocale allowed (after setlocale c events) events') := by
  induction events generalizing c with
  | nil => rfl
  | cons event events ih =>
    rw [List.cons_append, along, along, after, ih, Bool.and_assoc]

end Invariant

/-- In every run that follows the rules and reaches neither defect, for any pattern of failed
allocations: after each call no handle was freed twice, the handles that the client owns are
live, and `uselocale` returned no freed handle. -/
theorem handles_owned {Loc : Type} (setlocale : CString → Option Loc) (locale : Loc)
    (events : List Event) (event : Event)
    (hfollows : along setlocale follows (.start locale) (events ++ [event]) = true)
    (havoids : along setlocale avoids (.start locale) (events ++ [event]) = true) :
    let c := after setlocale (.start locale) events
    c.Sound ∧ (step setlocale c event).2.Sound ∧ ∀ loc h, event = .uselocale loc →
      (step setlocale c event).1 = .ref h →
        (step setlocale c event).2.process.frees h = 0 := by
  rw [along_append, Bool.and_eq_true] at hfollows havoids
  have hc := after_inv (inv_start locale) events hfollows.1 havoids.1
  simp only [along, Bool.and_true] at hfollows havoids
  obtain ⟨hinv, hreturned⟩ := step_inv setlocale hc hfollows.2 havoids.2
  exact ⟨hc.toSound, hinv.toSound, hreturned⟩

section Samples

/-- Two handles with a bracket inside a bracket; the inner one is freed. -/
def calmEvents : List Event :=
  [.newlocale true none none, .duplocale true (.ref 0), .uselocale (.ref 0),
    .uselocale (.ref 1), .uselocale (.ref 0), .freelocale (.ref 1)]

theorem handles_owned_calm :
    let c := after some (.start (CString.ofString "C")) calmEvents
    c.Sound ∧ (step some c (.uselocale .null)).2.Sound ∧ ∀ loc h,
      Event.uselocale .null = .uselocale loc → (step some c (.uselocale .null)).1 = .ref h →
        (step some c (.uselocale .null)).2.process.frees h = 0 :=
  handles_owned some (CString.ofString "C") calmEvents (.uselocale .null) (by decide) (by decide)

/-- A bracket whose handle is freed once it is closed. -/
def bracketEvents : List Event :=
  [.newlocale true none none, .uselocale (.ref 0), .uselocale .global, .freelocale (.ref 0)]

/-- A base that is lost to a failed allocation. -/
def baseEvents : List Event :=
  [.newlocale true none none, .newlocale false none (some 0), .freelocale (.ref 0)]

/-- Both runs follow the rules. After the first, `uselocale` returns the freed handle; after the
second call of the other the client owns a freed handle, and its next call frees it again. -/
theorem handles_lost :
    (along some follows (.start (CString.ofString "C")) (bracketEvents ++ [.uselocale .null]) ∧
      let result := step some (after some (.start (CString.ofString "C")) bracketEvents)
        (.uselocale .null)
      result.1 = .ref 0 ∧ result.2.process.frees 0 = 1) ∧
    (along some follows (.start (CString.ofString "C")) baseEvents ∧
      ¬ (after some (.start (CString.ofString "C")) (baseEvents.take 2)).Sound ∧
      ¬ (after some (.start (CString.ofString "C")) baseEvents).Sound) := by
  refine ⟨by decide, by decide, fun h => ?_, fun h => ?_⟩
  · exact absurd (h.live 0 (by decide)).2 (by decide)
  · exact absurd (h.once 0) (by decide)

end Samples

end Solcompat.Locale
