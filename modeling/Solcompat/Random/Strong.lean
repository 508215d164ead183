import Solcompat.Random.Model

/-!
# No weak bytes without consent

A call that reports success while the weak generator is not allowed has filled its buffer,
and nothing else, with what one source delivered in this call, in order. The source is the
one that the first probe has found.
-/

namespace Solcompat.Random

open Solcompat.Lib

def delivered (ds : List Delivery) : List UInt8 := ds.flatMap Prod.snd

/-- The deliveries are all from the source, and together the `len` bytes at `offset`. -/
structure Filled (source : RandomSource) (ds : List Delivery) (len offset : ℕ)
    (buffer buffer' : Memory) : Prop where
  source_eq : ∀ d ∈ ds, d.1 = source
  length_eq : (delivered ds).length = len
  buffer_eq : buffer' = buffer.putBytes offset (delivered ds)

section Transfers

variable {source : RandomSource} {ds ds' : List Delivery} {buffer buffer' buffer'' : Memory}
  {log : List Delivery} {len offset : ℕ}

theorem filled_nil : Filled source [] 0 offset buffer buffer :=
  ⟨by simp, rfl, (Memory.putBytes_nil buffer offset).symm⟩

theorem Filled.append {len' : ℕ} (h : Filled source ds len offset buffer buffer')
    (h' : Filled source ds' len' (offset + len) buffer' buffer'') :
    Filled source (ds ++ ds') (len + len') offset buffer buffer'' := by
  refine ⟨?_, ?_, ?_⟩
  · intro d hd
    rcases List.mem_append.mp hd with hd | hd
    · exact h.source_eq d hd
    · exact h'.source_eq d hd
  · rw [delivered, List.flatMap_append, List.length_append]
    exact congrArg₂ (· + ·) h.length_eq h'.length_eq
  · have hjoin : delivered (ds ++ ds') = delivered ds ++ delivered ds' := List.flatMap_append
    rw [h'.buffer_eq, h.buffer_eq, hjoin, ← Memory.putBytes_append, h.length_eq]

theorem filled_single {bs : List UInt8} :
    Filled source [(source, bs)] bs.length offset buffer (buffer.putBytes offset bs) := by
  have hone : delivered [(source, bs)] = bs := by simp [delivered]
  exact ⟨by simp, by rw [hone], by rw [hone]⟩

theorem readLoop_filled (reads : List ReadAnswer) {t : Transfer}
    (h : readLoop source reads buffer offset len log = some t) (hok : t.ok = true) :
    ∃ ds, t.deliveries = log ++ ds ∧ Filled source ds len offset buffer t.buffer := by
  induction reads generalizing buffer offset len log with
  | nil =>
    cases len with
    | zero =>
      rw [readLoop] at h
      obtain rfl := Option.some.inj h
      exact ⟨[], by simp, filled_nil⟩
    | succ len => exact absurd h (by simp [readLoop])
  | cons answer reads ih =>
    cases len with
    | zero =>
      rw [readLoop] at h
      obtain rfl := Option.some.inj h
      exact ⟨[], by simp, filled_nil⟩
    | succ len =>
      cases answer with
      | interrupted => exact ih h
      | failed =>
        rw [readLoop] at h
        obtain rfl := Option.some.inj h
        exact absurd hok (by simp)
      | eof =>
        rw [readLoop] at h
        obtain rfl := Option.some.inj h
        exact absurd hok (by simp)
      | data ready =>
        rw [readLoop] at h
        split_ifs at h
        · obtain rfl := Option.some.inj h
          exact absurd hok (by simp)
        · obtain ⟨ds, hlog, hfilled⟩ := ih h
          have hle : (ready.take (len + 1)).length ≤ len + 1 := List.length_take_le _ _
          have hall := filled_single.append hfilled
          rw [Nat.add_sub_cancel' hle] at hall
          exact ⟨_, by rw [hlog, List.append_assoc], hall⟩

theorem egdLoop_filled (writes : List Bool) {reads : List ReadAnswer} {t : Transfer}
    (h : egdLoop writes reads buffer offset len log = some t) (hok : t.ok = true) :
    ∃ ds, t.deliveries = log ++ ds ∧ Filled .egd ds len offset buffer t.buffer := by
  induction writes generalizing reads buffer offset len log with
  | nil =>
    cases len with
    | zero =>
      rw [egdLoop] at h
      obtain rfl := Option.some.inj h
      exact ⟨[], by simp, filled_nil⟩
    | succ len => exact absurd h (by simp [egdLoop])
  | cons written writes ih =>
    cases len with
    | zero =>
      rw [egdLoop] at h
      obtain rfl := Option.some.inj h
      exact ⟨[], by simp, filled_nil⟩
    | succ len =>
      rw [egdLoop] at h
      split_ifs at h
      · obtain rfl := Option.some.inj h
        exact absurd hok (by simp)
      · split at h
        · exact absurd h (by simp)
        · rename_i first hfirst
          split_ifs at h with hgood
          · obtain ⟨ds₁, hlog₁, hfilled₁⟩ := readLoop_filled reads hfirst hgood
            obtain ⟨ds₂, hlog₂, hfilled₂⟩ := ih h
            have hall := hfilled₁.append hfilled₂
            rw [Nat.add_sub_cancel' (min_le_left _ _)] at hall
            exact ⟨_, by rw [hlog₂, hlog₁, List.append_assoc], hall⟩
          · obtain rfl := Option.some.inj h
            exact absurd hok hgood

/-- Of the probed sources, those that have bytes. -/
def RandomSource.Usable : RandomSource → Prop
  | .device _ | .egd => True
  | _ => False

theorem probe_ne {answers : Answers} {source : RandomSource} (h : probe answers = some source) :
    source ≠ .notProbed := by
  rintro rfl
  unfold probe at h
  split at h
  · exact absurd h (by simp)
  · obtain ⟨t, -, ht⟩ := Option.map_eq_some_iff.mp h
    split_ifs at ht

theorem selectSource_kept {answers : Answers} {source' : RandomSource}
    (h : selectSource source answers = some source') :
    source' ≠ .notProbed ∧ (source ≠ .notProbed → source' = source) := by
  unfold selectSource at h
  split_ifs at h with hsource
  · exact ⟨probe_ne h, fun hne => absurd hsource hne⟩
  · obtain rfl := Option.some.inj h
    exact ⟨hsource, fun _ => rfl⟩

theorem readSource_filled {answers : Answers} {t : Transfer}
    (h : readSource source answers buffer len = some t) (hok : t.ok = true) :
    source.Usable ∧ Filled source t.deliveries len 0 buffer t.buffer := by
  cases source with
  | notProbed =>
    obtain rfl := Option.some.inj h
    exact absurd hok (by simp)
  | unavailable =>
    obtain rfl := Option.some.inj h
    exact absurd hok (by simp)
  | device fd =>
    obtain ⟨ds, hds, hfilled⟩ := readLoop_filled answers.reads h hok
    rw [List.nil_append] at hds
    exact ⟨trivial, hds ▸ hfilled⟩
  | egd =>
    rw [readSource, egdGetBytes] at h
    split_ifs at h
    · obtain ⟨ds, hds, hfilled⟩ := egdLoop_filled answers.egd.writes h hok
      rw [List.nil_append] at hds
      exact ⟨trivial, hds ▸ hfilled⟩
    · obtain rfl := Option.some.inj h
      exact absurd hok (by simp)

end Transfers

inductive Call
  | getentropy (length : ℕ)
  | getrandom (buflen : ℕ)

def Call.size : Call → ℕ
  | .getentropy length => length
  | .getrandom buflen => buflen

/-- A call, what its environment answers, and the memory from its buffer on. -/
structure Request where
  call : Call
  answers : Answers
  buffer : Memory

def Request.perform (r : Request) (statics : Statics) : Option Outcome :=
  match r.call with
  | .getentropy length => getentropy r.answers r.buffer length statics
  | .getrandom buflen => getrandom r.answers r.buffer buflen statics

/-- The outcomes of the calls in order; none when a call does not return. -/
def run : List Request → Statics → Option (List Outcome)
  | [], _ => some []
  | r :: rs, statics =>
    (r.perform statics).bind fun out => (run rs out.statics).map (out :: ·)

def Statics.fresh : Statics := ⟨.notProbed, none⟩

/-- What a call may do with its buffer when the weak generator is not allowed. -/
structure Honest (r : Request) (out : Outcome) : Prop where
  strong : out.ret ≠ -1 → r.answers.allowWeak = false → out.statics.source.Usable ∧
    Filled out.statics.source out.deliveries r.call.size 0 r.buffer out.buffer
  bounded : ∀ length, r.call = .getentropy length → 256 < length →
    out.ret = -1 ∧ out.errno = some .ioError ∧ out.buffer = r.buffer

section Runs

variable {r : Request} {statics : Statics} {out : Outcome}

theorem fetch_strong {success : ℤ} {answers : Answers} {buffer : Memory} {len : ℕ}
    (h : fetch success answers buffer len statics = some out) :
    (statics.source ≠ .notProbed → out.statics.source = statics.source) ∧
      (out.ret ≠ -1 → answers.allowWeak = false → out.statics.source.Usable ∧
        Filled out.statics.source out.deliveries len 0 buffer out.buffer) := by
  obtain ⟨⟨source, t⟩, hbytes, rfl⟩ := Option.map_eq_some_iff.mp h
  obtain ⟨chosen, hselect, hmap⟩ := Option.bind_eq_some_iff.mp hbytes
  obtain ⟨t', hread, heq⟩ := Option.map_eq_some_iff.mp hmap
  obtain ⟨rfl, rfl⟩ := Prod.mk.inj heq
  have hkept := (selectSource_kept hselect).2
  dsimp only
  split_ifs with hok hweak
  · exact ⟨hkept, fun _ _ => readSource_filled hread hok⟩
  · exact ⟨hkept, fun _ hnot => absurd hweak (by simp [hnot])⟩
  · exact ⟨hkept, fun hret => absurd rfl hret⟩

theorem perform_honest (h : r.perform statics = some out) :
    (statics.source ≠ .notProbed → out.statics.source = statics.source) ∧ Honest r out := by
  unfold Request.perform at h
  cases hcall : r.call with
  | getentropy length =>
    rw [hcall] at h
    dsimp only at h
    unfold getentropy at h
    split_ifs at h with hlength
    · obtain rfl := Option.some.inj h
      exact ⟨fun _ => rfl, ⟨fun hret => absurd rfl hret, fun _ _ _ => ⟨rfl, rfl, rfl⟩⟩⟩
    · obtain ⟨hkept, hstrong⟩ := fetch_strong h
      refine ⟨hkept, ⟨by rw [hcall]; exact hstrong, fun length' heq hlt => ?_⟩⟩
      rw [hcall] at heq
      obtain rfl := Call.getentropy.inj heq
      exact absurd hlt hlength
  | getrandom buflen =>
    rw [hcall] at h
    obtain ⟨hkept, hstrong⟩ := fetch_strong h
    refine ⟨hkept, ⟨by rw [hcall]; exact hstrong, fun length heq => ?_⟩⟩
    rw [hcall] at heq
    exact absurd heq (by simp)

theorem run_source (requests : List Request) {outs : List Outcome}
    (h : run requests statics = some outs) (hsource : statics.source ≠ .notProbed) :
    ∀ out ∈ outs, out.statics.source = statics.source := by
  induction requests generalizing statics outs with
  | nil =>
    obtain rfl := Option.some.inj h
    simp
  | cons r rs ih =>
    obtain ⟨first, hfirst, hmap⟩ := Option.bind_eq_some_iff.mp h
    obtain ⟨rest, hrest, rfl⟩ := Option.map_eq_some_iff.mp hmap
    have hkept := (perform_honest hfirst).1 hsource
    intro out hout
    rcases List.mem_cons.mp hout with rfl | hout
    · exact hkept
    · rw [ih hrest (by rwa [hkept]) out hout, hkept]

theorem run_honest (requests : List Request) {outs : List Outcome}
    (h : run requests statics = some outs) :
    outs.Pairwise (fun a b =>
        a.statics.source ≠ .notProbed → b.statics.source = a.statics.source) ∧
      List.Forall₂ Honest requests outs := by
  induction requests generalizing statics outs with
  | nil =>
    obtain rfl := Option.some.inj h
    exact ⟨.nil, .nil⟩
  | cons r rs ih =>
    obtain ⟨first, hfirst, hmap⟩ := Option.bind_eq_some_iff.mp h
    obtain ⟨rest, hrest, rfl⟩ := Option.map_eq_some_iff.mp hmap
    obtain ⟨hpairwise, hhonest⟩ := ih hrest
    refine ⟨List.pairwise_cons.mpr ⟨fun out hout hsource => ?_, hpairwise⟩,
      .cons (perform_honest hfirst).2 hhonest⟩
    exact run_source rs hrest hsource out hout

end Runs

/-- Only `/dev/random` can be opened. The first call is interrupted and then served in two
pieces, and the device fails under the second call. -/
def sampleRequests : List Request :=
  let answers : Answers :=
    { urandom := none, random := some 5, probe := ⟨false, [], []⟩
      reads := [.interrupted, .data [1, 2], .data [3, 4]], egd := ⟨false, [], []⟩
      allowWeak := false, seed := 0 }
  [⟨.getentropy 3, answers, fun _ => 0⟩,
    ⟨.getrandom 2, { answers with reads := [.data [6], .failed] }, fun _ => 0⟩]

end Solcompat.Random
