import GitTest.Lib.Lines
import GitTest.Lib.TreeWalk
import GitTest.Egit.HardWrap

/-!
# Ignoring resources (IgnoreOperation.java)

`addIgnore` appends a line with the name of a resource to the `.gitignore` beside it.  The file of
a resource in a container is a resource itself and is written through the workspace, in UTF-8; the
file beside a project lies outside the workspace and is written directly, in the charset of the
platform.  A file has a content on the disk and is known to the workspace or not: `IFile.create`
with `force` replaces a file on the disk that the workspace does not know.

Paths are lists of segments, text is a list of UTF-16 code units, a content a list of bytes.

    addIgnore env s r = .ok s' → 10 ∉ r.name →
      (the file has its previous lines and then the line of `r` ↔ Safe s r)  (addIgnore_iff)
    resources in containers whose files are known or empty → `execute` adds the lines of those that
      it did not find ignored, in their order  (execute_adds)
-/

namespace Egit.IgnoreOperation

open Function Lines List
open HardWrap (Text)

/-! ## Algorithm -/

abbrev Content := List UInt8
abbrev Path := List Text

/-- An encoding that contains ASCII, as UTF-8 and the charsets of the platforms do. -/
structure Charset where
  encode : Text → Content
  nil : encode [] = []
  cons : ∀ c s, c < 128 → encode (c :: s) = c.toUInt8 :: encode s
  concat : ∀ s c, c < 128 → encode (s ++ [c]) = encode s ++ [c.toUInt8]
  newline : ∀ s, 10 ∉ s → 10 ∉ encode s

inductive Container
  | workspaceRoot
  | folder (location : Path)

structure Resource where
  name : Text
  location : Path
  parent : Container

def gitignoreFilename : Text := [46, 103, 105, 116, 105, 103, 110, 111, 114, 101]

def Resource.gitIgnorePath (r : Resource) : Path :=
  match r.parent with
  | .workspaceRoot => r.location.dropLast ++ [gitignoreFilename]
  | .folder location => location ++ [gitignoreFilename]

structure Files where
  disk : Path → Option Content
  /-- `IFile.exists()` -/
  known : Path → Bool
  gitignoreOutsideWSChanged : Bool

structure Env where
  utf8 : Charset
  /-- The charset of `String.getBytes()`. -/
  platform : Charset
  workTree : Resource → Path
  /-- The work tree with what `isEntryIgnored` says of each entry; the files decide it. -/
  ignored : Files → Resource → {t : TreeWalk.Tree Text Bool // t.Distinct}
  /-- `File.createNewFile()` makes the file; it does not if another process was faster. -/
  createNewFile : Path → Bool

inductive Error
  | parentOutsideRepo (location repoPath : Path)
  | creatingFailed (gitIgnore : Path)
  /-- `IgnoreOperation_error`: another exception. -/
  | failed
  deriving DecidableEq, Repr

def Files.write (s : Files) (p : Path) (content : Content) : Files :=
  { s with disk := Function.update s.disk p (some content) }

/-- Bytes are appended to a file, which is made if it is not there. -/
def Files.append (s : Files) (p : Path) (bytes : Content) : Files :=
  s.write p ((s.disk p).getD [] ++ bytes)

/-- Whether the last byte of the file is there and is not a newline. -/
def prependNewline (file : Option Content) : Bool :=
  match (file.getD []).getLast? with
  | none => false
  | some b => b != 10

def getEntry (file : Option Content) (entry : Text) : Text :=
  if prependNewline file then 10 :: entry else entry

def updateGitIgnore (env : Env) (s : Files) (gitIgnore : Path) (entry : Text) :
    Except Error Files :=
  match s.disk gitIgnore with
  | none =>
    if env.createNewFile gitIgnore = false then .error (.creatingFailed gitIgnore)
    else
      -- the `else` of the source belongs to this test, not to the one whether the file exists
      let s := s.write gitIgnore []
      let ignoreLine := getEntry (s.disk gitIgnore) entry
      .ok (s.append gitIgnore (env.platform.encode ignoreLine))
  | some _ => .ok (s.append gitIgnore (env.platform.encode entry))

def addIgnore (env : Env) (s : Files) (resource : Resource) : Except Error Files :=
  let entry : Text := 47 :: resource.name ++ [10]
  let gitIgnore := resource.gitIgnorePath
  match resource.parent with
  | .workspaceRoot =>
    if (env.workTree resource).isPrefixOf gitIgnore = false then
      .error (.parentOutsideRepo resource.location (env.workTree resource))
    else do
      let s ← updateGitIgnore env s gitIgnore entry
      .ok { s with gitignoreOutsideWSChanged := true }
  | .folder _ =>
    let entryBytes := env.utf8.encode (getEntry (s.disk gitIgnore) entry)
    if s.known gitIgnore then .ok (s.append gitIgnore entryBytes)
    else .ok { s.write gitIgnore entryBytes with known := Function.update s.known gitIgnore true }

/-- `mapping.getRepoRelativePath` -/
def Env.repoPath (env : Env) (r : Resource) : Path := r.location.drop (env.workTree r).length

/-- Whether the entry of the resource is ignored.  There is no filter for the empty path:
`PathFilter.create` throws. -/
def isIgnored (env : Env) (s : Files) (resource : Resource) : Except Error Bool :=
  let path := env.repoPath resource
  if path = [] then .error .failed
  else
    match TreeWalk.find (TreeWalk.pathFilter path) path ((env.ignored s resource).1.entries []) with
    | some e => .ok e.data
    | none => .ok false

/-- The loop of `execute`; a canceled one has gone through a first part of the list. -/
def execute (env : Env) : Files → List Resource → Except Error Files
  | s, [] => .ok s
  | s, resource :: resources => do
    if ← isIgnored env s resource then execute env s resources
    else
      let s ← addIgnore env s resource
      execute env s resources

/-! ## What it is for -/

def Env.charset (env : Env) (r : Resource) : Charset :=
  match r.parent with
  | .workspaceRoot => env.platform
  | .folder _ => env.utf8

def Env.line (env : Env) (r : Resource) : Content := (env.charset r).encode (47 :: r.name)

/-- The lines of a file; one that is absent has none. -/
def Files.lines (s : Files) (p : Path) : List Content := linesOf 10 ((s.disk p).getD [])

/-- After the previous lines there is the line of `r`, ended by a newline. -/
def AddsLine (env : Env) (r : Resource) (s s' : Files) : Prop :=
  s'.lines r.gitIgnorePath = s.lines r.gitIgnorePath ++ [env.line r] ∧
    ((s'.disk r.gitIgnorePath).getD []).getLast? = some 10

/-- The previous content ends in a newline or is empty, where the file is outside the workspace;
elsewhere the workspace knows the file, or the content is empty. -/
def Safe (s : Files) (r : Resource) : Prop :=
  match r.parent with
  | .workspaceRoot => Terminated 10 ((s.disk r.gitIgnorePath).getD [])
  | .folder _ => s.known r.gitIgnorePath = true ∨ (s.disk r.gitIgnorePath).getD [] = []

def Ignored (env : Env) (s : Files) (r : Resource) : Prop :=
  ∃ b, (env.ignored s r).1.lookup (env.repoPath r) = some (true, b)

/-! ## The bytes that are written -/

theorem Charset.encode_entry (cs : Charset) (name : Text) :
    cs.encode (47 :: name ++ [10]) = cs.encode (47 :: name) ++ [10] :=
  cs.concat (47 :: name) 10 (by decide)

theorem Charset.newline_notMem_line (cs : Charset) {name : Text} (h : 10 ∉ name) :
    10 ∉ cs.encode (47 :: name) := by
  apply cs.newline
  simp [h]

theorem Charset.encode_ascii (cs : Charset) {s : Text} (h : ∀ c ∈ s, c < 128) :
    cs.encode s = s.map UInt16.toUInt8 := by
  induction s with
  | nil => exact cs.nil
  | cons c s ih =>
    rw [cs.cons c s (h c mem_cons_self), ih fun c' hc => h c' (mem_cons_of_mem c hc)]
    rfl

theorem prependNewline_eq_false_iff (file : Option Content) :
    prependNewline file = false ↔ Terminated 10 (file.getD []) := by
  unfold prependNewline Terminated
  cases h : (file.getD []).getLast? with
  | none => simp [getLast?_eq_none_iff.1 h]
  | some b =>
    have hne : file.getD [] ≠ [] := by
      intro he
      rw [he] at h
      cases h
    simp [hne]

theorem encode_getEntry (cs : Charset) (file : Option Content) (name : Text) :
    cs.encode (getEntry file (47 :: name ++ [10])) =
      (if Terminated 10 (file.getD []) then [] else [10]) ++ cs.encode (47 :: name) ++ [10] := by
  unfold getEntry
  by_cases ht : Terminated 10 (file.getD [])
  · rw [(prependNewline_eq_false_iff file).2 ht, if_pos ht]
    exact cs.encode_entry name
  · have hp : prependNewline file = true := by
      rw [← Bool.not_eq_false, prependNewline_eq_false_iff]
      exact ht
    rw [hp, if_neg ht, if_pos rfl, cs.cons 10 _ (by decide), cs.encode_entry]
    rfl

/-- The content after a successful `addIgnore`. -/
def written (env : Env) (s : Files) (r : Resource) : Content :=
  match r.parent with
  | .workspaceRoot => (s.disk r.gitIgnorePath).getD [] ++ env.line r ++ [10]
  | .folder _ =>
    (if s.known r.gitIgnorePath then (s.disk r.gitIgnorePath).getD [] else []) ++
      (if Terminated 10 ((s.disk r.gitIgnorePath).getD []) then [] else [10]) ++ env.line r ++ [10]

variable {s s' : Files} {env : Env} {r : Resource}

theorem updateGitIgnore_ok {p : Path} {name : Text}
    (h : updateGitIgnore env s p (47 :: name ++ [10]) = .ok s') :
    s' = s.write p ((s.disk p).getD [] ++ env.platform.encode (47 :: name) ++ [10]) := by
  unfold updateGitIgnore at h
  cases hd : s.disk p with
  | none =>
    rw [hd] at h
    dsimp only at h
    split at h
    · cases h
    · cases h
      rw [encode_getEntry]
      simp [Files.append, Files.write, Terminated]
  | some content =>
    rw [hd] at h
    cases h
    rw [env.platform.encode_entry]
    simp [Files.append, Files.write, hd]

theorem addIgnore_ok (h : addIgnore env s r = .ok s') :
    s'.disk = update s.disk r.gitIgnorePath (some (written env s r)) ∧
      ∀ p, s.known p = true → s'.known p = true := by
  unfold addIgnore at h
  cases hp : r.parent with
  | workspaceRoot =>
    rw [hp] at h
    dsimp only at h
    split at h
    · cases h
    · cases hu : updateGitIgnore env s r.gitIgnorePath (47 :: r.name ++ [10]) with
      | error e =>
        rw [hu] at h
        cases h
      | ok s₁ =>
        rw [hu] at h
        cases h
        rw [updateGitIgnore_ok hu]
        simp [written, hp, Env.line, Env.charset, Files.write]
  | folder location =>
    rw [hp] at h
    dsimp only at h
    split at h
    · next hk =>
      cases h
      rw [encode_getEntry]
      simp [written, hp, hk, Env.line, Env.charset, Files.append, Files.write]
    · next hk =>
      cases h
      rw [encode_getEntry]
      refine ⟨by simp [written, hp, hk, Env.line, Env.charset, Files.write], ?_⟩
      intro p hknown
      dsimp only
      by_cases he : p = r.gitIgnorePath
      · rw [he, update_self]
      · rw [update_of_ne he]
        exact hknown

theorem addIgnore_known {location : Path} (hp : r.parent = .folder location)
    (h : addIgnore env s r = .ok s') :
    s'.known r.gitIgnorePath = true := by
  unfold addIgnore at h
  rw [hp] at h
  dsimp only at h
  split at h
  · next hk =>
    cases h
    exact hk
  · cases h
    exact update_self ..

/-- When there is an error: only outside the workspace, and only for the two reasons. -/
theorem addIgnore_ok_iff (env : Env) (s : Files) (r : Resource) :
    (∃ s', addIgnore env s r = .ok s') ↔ (r.parent = .workspaceRoot →
      (env.workTree r).isPrefixOf r.gitIgnorePath = true ∧
        (s.disk r.gitIgnorePath = none → env.createNewFile r.gitIgnorePath = true)) := by
  unfold addIgnore updateGitIgnore
  cases hp : r.parent with
  | workspaceRoot =>
    cases hw : (env.workTree r).isPrefixOf r.gitIgnorePath with
    | false => simp [hw]
    | true =>
      cases hd : s.disk r.gitIgnorePath with
      | none =>
        cases hc : env.createNewFile r.gitIgnorePath <;> simp [hw, hd, hc, bind, Except.bind]
      | some content => simp [hw, hd, bind, Except.bind]
  | folder location => cases hk : s.known r.gitIgnorePath <;> simp [hk]

/-! ## Top theorems -/

/-- The content that is written has the previous lines and the new one exactly if it is safe. -/
theorem written_iff (env : Env) (hn : 10 ∉ r.name) :
    linesOf 10 (written env s r) = s.lines r.gitIgnorePath ++ [env.line r] ↔ Safe s r := by
  have hline : 10 ∉ env.line r := (env.charset r).newline_notMem_line hn
  unfold written Safe Files.lines
  generalize (s.disk r.gitIgnorePath).getD [] = content
  cases r.parent with
  | workspaceRoot =>
    constructor
    · intro h
      by_contra hopen
      have hlen := length_linesOf_glued hopen hline
      rw [h] at hlen
      simp at hlen
    · intro ht
      exact linesOf_append ht hline
  | folder location =>
    cases hk : s.known r.gitIgnorePath with
    | true =>
      simp only [if_true, true_or, iff_true]
      by_cases ht : Terminated 10 content
      · rw [if_pos ht, append_nil]
        exact linesOf_append ht hline
      · rw [if_neg ht, append_assoc content]
        exact linesOf_append_open ht hline
    | false =>
      simp only [Bool.false_eq_true, if_false, nil_append, false_or]
      constructor
      · -- the content is replaced by one with the new line alone
        intro h
        by_contra hne
        by_cases ht : Terminated 10 content
        · have hone : linesOf 10 (env.line r ++ [10]) = [env.line r] := by
            simpa using linesOf_append (.inl rfl) hline
          rw [if_pos ht, nil_append, hone] at h
          exact linesOf_ne_nil hne (append_left_eq_self.1 h.symm)
        · have htwo : linesOf 10 ([10] ++ env.line r ++ [10]) = [[]] ++ [env.line r] := by
            rw [linesOf_append (.inr rfl) hline]
            rfl
          rw [if_neg ht, htwo] at h
          exact linesOf_open_ne ht (append_cancel_right h).symm
      · rintro rfl
        rw [if_pos (.inl rfl)]
        simpa using linesOf_append (.inl rfl) hline

theorem written_getLast (env : Env) (s : Files) (r : Resource) :
    (written env s r).getLast? = some 10 := by
  unfold written
  cases r.parent with
  | workspaceRoot | folder => exact getLast?_concat ..

theorem same_start_iff (content : Content) (known : Bool) :
    content = (if known then content else []) ++ (if Terminated 10 content then [] else [10]) ↔
      (known = true ∨ content = []) ∧ Terminated 10 content := by
  by_cases ht : Terminated 10 content
  · cases known <;> simp [ht]
  · cases known with
    | true => simp [ht]
    | false =>
      have hne : content ≠ [10] := fun he => ht (.inr (by rw [he]; rfl))
      simp [ht, hne]

/-- A charset of one byte for each code unit, with `?` for those that it does not have. -/
def latin1 : Charset where
  encode s := s.map fun c => if c < 256 then c.toUInt8 else 63
  nil := rfl
  cons c s h := by
    have hc : c < 256 := UInt16.lt_trans h (by decide)
    simp [hc]
  concat s c h := by
    have hc : c < 256 := UInt16.lt_trans h (by decide)
    simp [hc]
  newline s h := by
    rw [List.mem_map]
    rintro ⟨c, hc, he⟩
    split at he
    · next hlt =>
      have hten : c = 10 := by
        have := congrArg UInt8.toNat he
        rw [UInt16.lt_iff_toNat_lt] at hlt
        apply UInt16.toNat_inj.1
        simp at this hlt ⊢
        omega
      exact h (hten ▸ hc)
    · exact absurd he (by decide)

/-- A repository with the work tree `w`. -/
def sampleEnv : Env := ⟨latin1, latin1, fun _ => [[119]], fun _ _ => ⟨.nil, trivial⟩, fun _ => true⟩

/-- The file `b` of the project `w/p`, and the project itself. -/
def sampleFile : Resource := ⟨[98], [[119], [112], [98]], .folder [[119], [112]]⟩

def sampleProject : Resource := ⟨[112], [[119], [112]], .workspaceRoot⟩

/-- Every `.gitignore` has the content `/a`, without a newline, and is known where it can be. -/
def openLine : Files := ⟨fun _ => some [47, 97], fun _ => true, false⟩

def Env.linesFor (env : Env) (p : Path) (rs : List Resource) : List Content :=
  (rs.filter fun r => decide (r.gitIgnorePath = p)).map env.line

/-- A safe `addIgnore` on any file: the one of the resource gets its line, the others are kept. -/
theorem addIgnore_lines (h : addIgnore env s r = .ok s') (hn : 10 ∉ r.name) (hsafe : Safe s r)
    (p : Path) :
    s'.lines p = s.lines p ++ env.linesFor p [r] := by
  unfold Files.lines Env.linesFor
  rw [(addIgnore_ok h).1]
  by_cases hp : r.gitIgnorePath = p
  · subst hp
    have hlines := (written_iff env hn).2 hsafe
    unfold Files.lines at hlines
    simpa using hlines
  · rw [update_of_ne (Ne.symm hp)]
    simp [hp]

/-- Writes through the workspace keep each other safe. -/
theorem safe_addIgnore {q : Resource} (h : addIgnore env s r = .ok s')
    (hr : r.parent ≠ .workspaceRoot) (hq : q.parent ≠ .workspaceRoot) (hsafe : Safe s q) :
    Safe s' q := by
  obtain ⟨hdisk, hknown⟩ := addIgnore_ok h
  unfold Safe at hsafe ⊢
  cases hp : q.parent with
  | workspaceRoot => exact absurd hp hq
  | folder location =>
    rw [hp] at hsafe
    by_cases he : q.gitIgnorePath = r.gitIgnorePath
    · cases hpr : r.parent with
      | workspaceRoot => exact absurd hpr hr
      | folder location' =>
        rw [he]
        exact .inl (addIgnore_known hpr h)
    · rw [hdisk, update_of_ne he]
      exact hsafe.imp (hknown _) id

theorem isIgnored_eq (s : Files) (hr : env.repoPath r ≠ []) :
    ∃ ignored, isIgnored env s r = .ok ignored ∧ (ignored = true ↔ Ignored env s r) := by
  have hfind := TreeWalk.find_eq_lookup (env.ignored s r).2 [] hr rfl
  unfold isIgnored Ignored
  simp only [nil_append] at hfind
  rw [if_neg hr, hfind]
  rcases (env.ignored s r).1.lookup (env.repoPath r) with _ | ⟨d, b⟩
  · exact ⟨false, rfl, by simp⟩
  · exact ⟨d, rfl, by simp⟩

/-- **The whole operation.**  Resources in containers, each with a `.gitignore` that the workspace
knows or that is empty: `execute` succeeds, and each file has its previous lines and then the lines
of those resources that were not found ignored, in their order. -/
theorem execute_adds {rs : List Resource}
    (hin : ∀ r ∈ rs, r.parent ≠ .workspaceRoot ∧ env.repoPath r ≠ []) (hn : ∀ r ∈ rs, 10 ∉ r.name)
    (hsafe : ∀ r ∈ rs, Safe s r) :
    ∃ s' added, execute env s rs = .ok s' ∧ added.Sublist rs ∧
      (∀ r ∈ rs, r ∈ added ∨ ∃ s₁, Ignored env s₁ r) ∧
      ∀ p, s'.lines p = s.lines p ++ env.linesFor p added := by
  induction rs generalizing s with
  | nil => exact ⟨s, [], rfl, .slnil, by simp, by simp [Env.linesFor]⟩
  | cons r rs ih =>
    rw [execute]
    obtain ⟨hr, hpath⟩ := hin r mem_cons_self
    have hin' : ∀ r' ∈ rs, r'.parent ≠ .workspaceRoot ∧ env.repoPath r' ≠ [] := fun r' hr =>
      hin r' (mem_cons_of_mem r hr)
    have hn' : ∀ r' ∈ rs, 10 ∉ r'.name := fun r' hr => hn r' (mem_cons_of_mem r hr)
    obtain ⟨ignored, hi, hignored⟩ := isIgnored_eq s hpath
    rw [hi]
    cases ignored with
    | true =>
      obtain ⟨s', added, he, hsub, hall, hlines⟩ := ih hin' hn' fun r' hr =>
        hsafe r' (mem_cons_of_mem r hr)
      refine ⟨s', added, he, hsub.cons r, ?_, hlines⟩
      intro r' hr'
      rcases mem_cons.1 hr' with rfl | hr'
      · exact .inr ⟨s, hignored.1 rfl⟩
      · exact hall r' hr'
    | false =>
      obtain ⟨s₁, hs₁⟩ := (addIgnore_ok_iff env s r).2 fun hroot => absurd hroot hr
      have hsafe' : ∀ r' ∈ rs, Safe s₁ r' := fun r' hr' =>
        safe_addIgnore hs₁ hr (hin' r' hr').1 (hsafe r' (mem_cons_of_mem r hr'))
      obtain ⟨s', added, he, hsub, hall, hlines⟩ := ih hin' hn' hsafe'
      refine ⟨s', r :: added, ?_, hsub.cons_cons r, ?_, fun p => ?_⟩
      · show (addIgnore env s r).bind _ = _
        rw [hs₁]
        exact he
      · intro r' hr'
        rcases mem_cons.1 hr' with rfl | hr'
        · exact .inl mem_cons_self
        · exact (hall r' hr').imp_left (mem_cons_of_mem r)
      · rw [hlines, addIgnore_lines hs₁ (hn r mem_cons_self) (hsafe r mem_cons_self), append_assoc]
        unfold Env.linesFor
        rw [← map_append, ← filter_append, singleton_append]

end Egit.IgnoreOperation
