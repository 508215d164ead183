import Solcompat.Process.Execvpe

/-!
# The order of the search

The loop tries the candidates of the components one after the other, without those that are
too long, until one of them ends the search.
-/

namespace Solcompat.Process

open Solcompat.Lib

/-- The elements up to and including the first one that stops, when they are numbered from `k`. -/
def upTo {α : Type} (stops : ℕ → α → Bool) : ℕ → List α → List α
  | _, [] => []
  | k, a :: as => if stops k a then [a] else a :: upTo stops (k + 1) as

def Fatal (e : Errno) : Prop := e ≠ EACCES ∧ e ≠ ENOENT ∧ e ≠ ENOTDIR

instance (e : Errno) : Decidable (Fatal e) := inferInstanceAs (Decidable (_ ∧ _ ∧ _))

namespace ExecCall

variable (c : ExecCall)

/-- The first `PATH` of `envp`, or else that of the caller; the default for one that is missing
or empty. -/
def effectivePath : List UInt8 :=
  let entry := (c.envp.getD []).find? fun e => (CString.ofString "PATH=").bytes <+: e.bytes
  let path := ((entry.map (·.bytes.drop 5)).or (c.callerPath.map (·.bytes))).getD []
  if path = [] then (CString.ofString "/usr/bin:/bin").bytes else path

/-- The path of the file in the directory that a component names. -/
def pathIn (component : List UInt8) : List UInt8 :=
  if component = [] then [ch '.', ch '/'] ++ c.filename.bytes
  else component ++ ch '/' :: c.filename.bytes

/-- The candidates of a search path, without those that are too long. -/
def candidatesOf (path : List UInt8) : List (List UInt8) :=
  ((path.splitOn (ch ':')).map c.pathIn).filter (·.length ≤ pathMax - 1)

def candidates : List (List UInt8) := c.candidatesOf c.effectivePath

/-- The search ends with this call of `execve`: it succeeds, or its error is fatal. -/
def ends (k : ℕ) (path : List UInt8) : Bool :=
  match c.execve k path with
  | none => true
  | some e => decide (Fatal e)

/-- The search over a list of candidates. -/
def tryAll : List (List UInt8) → Search → Search
  | [], s => s
  | path :: paths, s =>
    let (goesOn, s) := c.attempt path s
    if goesOn then tryAll paths s else s

end ExecCall

variable {c : ExecCall}

section Candidates

theorem findPath_eq (entries : List CString) :
    findPath entries =
      (entries.find? fun e => (CString.ofString "PATH=").bytes <+: e.bytes).map (·.drop 5) := by
  induction entries with
  | nil => rfl
  | cons entry entries ih =>
    have hiff : entry.strncmp (.ofString "PATH=") 5 = 0 ↔
        (CString.ofString "PATH=").bytes <+: entry.bytes :=
      CString.strncmp_eq_zero (List.append_nil _).symm
    rw [findPath, List.find?_cons]
    by_cases hentry : (CString.ofString "PATH=").bytes <+: entry.bytes
    · simp [hentry, hiff.mpr hentry]
    · simp [hentry, mt hiff.mp hentry, ih]

theorem read_zero_iff (s : CString) : s.read 0 = some 0 ↔ s.bytes = [] := by
  rw [CString.read]
  cases hbytes : s.bytes with
  | nil => simp
  | cons b bs =>
    have hb : b ≠ 0 := s.nulFree b (by simp [hbytes])
    simp [hb]

theorem searchPath_bytes : c.searchPath.bytes = c.effectivePath := by
  have hentry : c.envp.bind findPath =
      ((c.envp.getD []).find? fun e => (CString.ofString "PATH=").bytes <+: e.bytes).map
        (·.drop 5) := by
    cases c.envp with
    | none => rfl
    | some entries => exact findPath_eq entries
  rw [ExecCall.searchPath, ExecCall.effectivePath, hentry]
  generalize (c.envp.getD []).find? _ = entry
  cases entry with
  | none =>
    cases c.callerPath with
    | none => simp
    | some path => by_cases hempty : path.bytes = [] <;> simp [read_zero_iff, hempty]
  | some e => by_cases hempty : e.bytes.drop 5 = [] <;> simp [read_zero_iff, hempty]

theorem text_pieces {a b : List UInt8} {buffer : Buffer} (ha : ∀ x ∈ a, x ≠ 0)
    (hb : ∀ x ∈ b, x ≠ 0) :
    Buffer.text (a ++ b ++ (c.filename.bytes ++ [0]) ++ buffer) = a ++ b ++ c.filename.bytes := by
  have hall : ∀ x ∈ a ++ b ++ c.filename.bytes, x ≠ 0 := by
    intro x hx
    rcases List.mem_append.mp hx with hfront | hname
    · rcases List.mem_append.mp hfront with hxa | hxb
      · exact ha x hxa
      · exact hb x hxb
    · exact c.filename.nulFree x hname
  have htext := Buffer.text_append hall buffer
  simpa using htext

theorem buildHere_eq {buffer : Buffer} (hfits : c.filename.strlen + 3 ≤ buffer.length) :
    ∃ built : Buffer, c.buildHere buffer = some built ∧ built.length = buffer.length ∧
      built.text = c.pathIn [] := by
  have hlength : (c.filename.bytes ++ [0]).length = c.filename.strlen + 1 := by
    simp [CString.strlen]
  have hroom : [ch '.'].length + [ch '/'].length + (c.filename.bytes ++ [0]).length ≤
      buffer.length := by
    simp only [hlength, List.length_singleton]
    omega
  have hpieces := Buffer.store_pieces hroom
  refine ⟨_, hpieces, ?_, ?_⟩
  · simp only [List.length_append, List.length_drop, List.length_singleton]
    simp only [CString.strlen] at hfits
    omega
  · exact text_pieces (by decide) (by decide)

theorem buildIn_eq {start : CString} {component rest : List UInt8} {buffer : Buffer}
    (hstart : start.bytes = component ++ rest) (hne : component ≠ [])
    (hfits : component.length + 1 + c.filename.strlen + 1 ≤ buffer.length) :
    ∃ built : Buffer, c.buildIn start component.length buffer = some built ∧
      built.length = buffer.length ∧ built.text = c.pathIn component := by
  have hlength : (c.filename.bytes ++ [0]).length = c.filename.strlen + 1 := by
    simp [CString.strlen]
  have hroom : component.length + [ch '/'].length + (c.filename.bytes ++ [0]).length ≤
      buffer.length := by
    simp only [hlength, List.length_singleton]
    omega
  have hpieces := Buffer.store_pieces hroom
  have hnul : ∀ x ∈ component, x ≠ 0 := by
    intro x hx
    apply start.nulFree
    rw [hstart]
    exact List.mem_append_left rest hx
  have htake : start.bytes.take component.length = component := by
    rw [hstart, List.take_left]
  rw [ExecCall.buildIn, htake]
  refine ⟨_, hpieces, ?_, ?_⟩
  · simp only [List.length_append, List.length_drop, List.length_singleton]
    simp only [CString.strlen] at hfits
    omega
  · rw [text_pieces hnul (by decide), ExecCall.pathIn, if_neg hne]
    simp

/-- A candidate that fits is built inside the buffer, and one that does not is skipped. -/
theorem build_eq {start : CString} {component rest : List UInt8} {buffer : Buffer}
    (hstart : start.bytes = component ++ rest) (hbuffer : buffer.length = pathMax) :
    ((c.pathIn component).length ≤ pathMax - 1 →
      ∃ built : Buffer, c.build start component.length buffer = some (some built) ∧
        built.length = pathMax ∧ built.text = c.pathIn component) ∧
    (¬ (c.pathIn component).length ≤ pathMax - 1 →
      c.build start component.length buffer = some none) := by
  have hmax : pathMax = 1024 := rfl
  unfold ExecCall.build
  by_cases hempty : component = []
  · subst hempty
    have hlength : (c.pathIn []).length = c.filename.strlen + 2 := by
      simp [ExecCall.pathIn, CString.strlen]
    rw [hlength]
    constructor
    · intro hle
      obtain ⟨built, hbuilt, hlen, htext⟩ :=
        buildHere_eq (by omega : c.filename.strlen + 3 ≤ buffer.length)
      refine ⟨built, ?_, hlen.trans hbuffer, htext⟩
      rw [if_pos List.length_nil, if_pos (by omega), hbuilt]
      rfl
    · intro hgt
      rw [if_pos List.length_nil, if_neg (by omega)]
  · have hpos : component.length ≠ 0 := by simpa using hempty
    have hlength : (c.pathIn component).length = component.length + 1 + c.filename.strlen := by
      simp [ExecCall.pathIn, hempty, CString.strlen]
      omega
    rw [hlength]
    constructor
    · intro hle
      obtain ⟨built, hbuilt, hlen, htext⟩ := buildIn_eq (c := c) hstart hempty
        (by omega : component.length + 1 + c.filename.strlen + 1 ≤ buffer.length)
      exact ⟨built, by rw [if_neg hpos, if_pos (by omega), hbuilt]; rfl, hlen.trans hbuffer, htext⟩
    · intro hgt
      rw [if_neg hpos, if_neg (by omega)]

end Candidates

section Loop

theorem candidatesOf_last {bytes : List UInt8} (h : ch ':' ∉ bytes) :
    c.candidatesOf bytes = [c.pathIn bytes].filter (·.length ≤ pathMax - 1) := by
  rw [ExecCall.candidatesOf, List.splitOn_eq_singleton h, List.map_singleton]

theorem candidatesOf_first {component rest : List UInt8} (h : ch ':' ∉ component) :
    c.candidatesOf (component ++ ch ':' :: rest) =
      [c.pathIn component].filter (·.length ≤ pathMax - 1) ++ c.candidatesOf rest := by
  rw [ExecCall.candidatesOf, List.splitOn_append_cons_self_of_not_mem h, List.map_cons,
    ← List.singleton_append, List.filter_append]
  rfl

/-- One round of the loop tries the candidate of its component, if there is one, and leaves the
rest to the next round. -/
theorem searchLoop_round {start : CString} {component rest : List UInt8} {next : Option CString}
    {paths : List (List UInt8)} {rounds : ℕ} {buffer : Buffer} {s : Search}
    (hstart : start.bytes = component ++ rest) (hbuffer : buffer.length = pathMax)
    (hlength : ((start.strchr (ch ':')).map fun e => start.strlen - e.strlen).getD start.strlen =
      component.length)
    (hnext : (start.strchr (ch ':')).map (·.drop 1) = next)
    (hrest : ∀ (buffer : Buffer) s, buffer.length = pathMax →
      c.searchLoop rounds next buffer s = some (c.tryAll paths s)) :
    c.searchLoop (rounds + 1) (some start) buffer s =
      some (c.tryAll ([c.pathIn component].filter (·.length ≤ pathMax - 1) ++ paths) s) := by
  obtain ⟨hbuild, hskip⟩ := build_eq (c := c) hstart hbuffer
  rw [ExecCall.searchLoop]
  simp only [hlength, hnext]
  by_cases hfits : (c.pathIn component).length ≤ pathMax - 1
  · obtain ⟨built, hbuilt, hlen, htext⟩ := hbuild hfits
    have hcons : [c.pathIn component].filter (·.length ≤ pathMax - 1) = [c.pathIn component] := by
      simpa using hfits
    rw [hbuilt, hcons, List.singleton_append, ExecCall.tryAll]
    dsimp only
    rw [htext]
    split_ifs
    · exact hrest built _ hlen
    · rfl
  · have hnil : [c.pathIn component].filter (·.length ≤ pathMax - 1) = [] := by
      simpa using hfits
    rw [hskip hfits, hnil, List.nil_append]
    exact hrest buffer s hbuffer

theorem searchLoop_eq (rounds : ℕ) {start : CString} {buffer : Buffer} {s : Search}
    (hrounds : start.strlen + 2 ≤ rounds) (hbuffer : buffer.length = pathMax) :
    c.searchLoop rounds (some start) buffer s = some (c.tryAll (c.candidatesOf start.bytes) s) := by
  have hcolon : ch ':' ≠ 0 := by decide
  induction rounds generalizing start buffer s with
  | zero => omega
  | succ rounds ih =>
    by_cases hmem : ch ':' ∈ start.bytes
    · obtain ⟨component, rest, hsplit, hfirst⟩ := List.eq_append_cons_of_mem hmem
      obtain ⟨e, he, hbytes⟩ := CString.strchr_append hsplit hcolon hfirst
      have hrest : (e.drop 1).bytes = rest := by
        rw [CString.bytes_drop, hbytes, List.drop_one, List.tail_cons]
      have hlong : start.strlen = component.length + (rest.length + 1) := by
        rw [CString.strlen, hsplit, List.length_append, List.length_cons]
      have hshort : e.strlen = rest.length + 1 := by
        rw [CString.strlen, hbytes, List.length_cons]
      rw [hsplit, candidatesOf_first hfirst]
      apply searchLoop_round hsplit hbuffer
      · rw [he]
        dsimp only [Option.map_some, Option.getD_some]
        omega
      · rw [he, Option.map_some]
      · intro buffer s hbuffer
        rw [← hrest]
        apply ih _ hbuffer
        rw [CString.strlen, hrest]
        omega
    · have he := CString.strchr_of_notMem hcolon hmem
      rw [candidatesOf_last hmem, ← List.append_nil ([c.pathIn start.bytes].filter _)]
      apply searchLoop_round (List.append_nil _).symm hbuffer
      · rw [he]
        rfl
      · rw [he, Option.map_none]
      · intro buffer s _
        obtain ⟨n, rfl⟩ : ∃ n, rounds = n + 1 := ⟨rounds - 1, by omega⟩
        rfl

theorem execvpe_eq (hslash : ch '/' ∉ c.filename.bytes) :
    c.execvpe = some (c.tryAll c.candidates ⟨[], false, none, none⟩).report := by
  rw [ExecCall.execvpe, CString.strchr_of_notMem (by decide) hslash, if_neg (by simp),
    searchLoop_eq _ le_rfl c.size_eq, searchPath_bytes]
  rfl

end Loop

section Order

theorem attempt_tried (path : List UInt8) (s : Search) :
    (c.attempt path s).2.tried = s.tried ++ [path] := by
  unfold ExecCall.attempt
  cases c.execve s.tried.length path with
  | none => rfl
  | some e =>
    dsimp only
    split_ifs <;> rfl

theorem attempt_goesOn (path : List UInt8) (s : Search) :
    (c.attempt path s).1 = !c.ends s.tried.length path := by
  unfold ExecCall.attempt ExecCall.ends
  cases c.execve s.tried.length path with
  | none => rfl
  | some e =>
    dsimp only
    split_ifs with haccess hother
    · simp [Fatal, haccess]
    · simp [Fatal, haccess, hother]
    · simp only [Fatal, haccess, ne_eq, not_false_eq_true, true_and]
      simpa [or_iff_not_imp_left] using hother

theorem tryAll_tried (paths : List (List UInt8)) (s : Search) :
    (c.tryAll paths s).tried = s.tried ++ upTo c.ends s.tried.length paths := by
  induction paths generalizing s with
  | nil => simp [ExecCall.tryAll, upTo]
  | cons path paths ih =>
    have htried := attempt_tried (c := c) path s
    have hgoesOn := attempt_goesOn (c := c) path s
    rw [ExecCall.tryAll, upTo]
    dsimp only
    rw [hgoesOn]
    by_cases hends : c.ends s.tried.length path = true
    · simp [hends, htried]
    · simp [hends, ih, htried]

end Order

/-- The paths that `execve` is called with are the candidates in order, up to the first that ends
the search, and all of them are built inside the buffer. -/
theorem execvpe_tried (c : ExecCall) (hslash : ch '/' ∉ c.filename.bytes) :
    ∃ s, c.execvpe = some s ∧ s.tried = upTo c.ends 0 c.candidates :=
  ⟨_, execvpe_eq hslash, tryAll_tried c.candidates _⟩

theorem length_freshPath : (List.replicate 1024 (0 : UInt8)).length = pathMax :=
  List.length_replicate

/-- The first component is empty, the second is not a directory, and no file of the third may
be executed. -/
def sampleCall : ExecCall where
  filename := .ofString "cc"
  envp := some [.ofString "HOME=/", .ofString "PATH=:/x:/bin:/opt", .ofString "PATH=/y"]
  callerPath := some (.ofString "/z")
  execve k _ := if k = 0 then some ENOENT else if k = 1 then some ENOTDIR else
    if k = 2 then some EACCES else none
  candidatePath := List.replicate 1024 0
  size_eq := length_freshPath

theorem execvpe_tried_sample :
    ch '/' ∉ sampleCall.filename.bytes ∧ ∃ s, sampleCall.execvpe = some s ∧
      s.tried = ["./cc", "/x/cc", "/bin/cc", "/opt/cc"].map fun t =>
        (CString.ofString t).bytes := by
  have hslash : ch '/' ∉ sampleCall.filename.bytes := by decide
  obtain ⟨s, hs, htried⟩ := execvpe_tried sampleCall hslash
  refine ⟨hslash, s, hs, htried.trans ?_⟩
  decide

end Solcompat.Process
