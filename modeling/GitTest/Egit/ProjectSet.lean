import GitTest.Egit.CommitMessage
import GitTest.Lib.Lines

/-!
# References to projects in a project set (GitProjectSetCapability.java)

A reference is the version, the url, the branch and the path of the project, joined by commas.
`ProjectReference` splits it again; `String.split` drops empty tokens at the end.

    a reference of a project is read back ↔ its url is a URI, and neither the url, the branch nor
      the path has a comma                                                  (reference_read_back_iff)
-/

namespace Egit.ProjectSet

open List

open HardWrap (Text)
open CommitMessage (ofAscii)

/-! ## Algorithm -/

def separator : UInt16 := 44

def version : Text := ofAscii "1.0"

def defaultBranch : Text := ofAscii "master"

/-- What `asReference` reads: the current branch (`none` is an `IOException`), the configuration by
section, subsection and key, and the path of the project in the work tree. -/
structure Project where
  name : Text
  getBranch : Option Text
  getString : Text → Option Text → Text → Option Text
  repoRelativePath : Text

inductive TeamException
  | exportCouldNotGetBranch (project : Text)
  | exportNoRemote (project : Text)
  deriving DecidableEq, Repr

namespace Project

def url (project : Project) (branch : Text) : Option Text :=
  let remote := project.getString (ofAscii "branch") (some branch) (ofAscii "remote")
  project.getString (ofAscii "remote") remote (ofAscii "url")

def projectPath (project : Project) : Text :=
  if project.repoRelativePath = [] then ofAscii "." else project.repoRelativePath

def asReference (project : Project) : Except TeamException Text :=
  match project.getBranch with
  | none => .error (.exportCouldNotGetBranch project.name)
  | some branch =>
    match project.url branch with
    | none => .error (.exportNoRemote project.name)
    | some url =>
      .ok (version ++ [separator] ++ url ++ [separator] ++ branch ++ [separator] ++
        project.projectPath)

end Project

/-- `String.split`: empty tokens at the end are dropped, unless there is only the text itself. -/
def tokens (reference : Text) : List Text :=
  if separator ∈ reference then
    ((reference.splitOn separator).reverse.dropWhile List.isEmpty).reverse
  else [reference]

structure ProjectReference (U : Type) where
  repository : U
  branch : Text
  projectDir : Text
  deriving DecidableEq, Repr

inductive ReferenceError
  | invalidTokensCount (expected found : Nat) (tokens : List Text)
  | uriSyntax (url : Text)
  deriving DecidableEq, Repr

/-- The constructor of `ProjectReference`; `uriish` is the constructor of `URIish`. -/
def projectReference {U : Type} (uriish : Text → Option U) (reference : Text) :
    Except ReferenceError (ProjectReference U) :=
  match tokens reference with
  | [_, url, branch, projectDir] =>
    match uriish url with
    | none => .error (.uriSyntax url)
    | some repository =>
      .ok ⟨repository, if branch = [] then defaultBranch else branch, projectDir⟩
  | found => .error (.invalidTokensCount 4 found.length found)

/-! ## Proof -/

theorem tokens_eq_splitOn {reference last : Text} (hmem : separator ∈ reference) (hlast : last ≠ [])
    (h : (reference.splitOn separator).getLast? = some last) :
    tokens reference = reference.splitOn separator := by
  obtain ⟨l, hl⟩ := getLast?_eq_some_iff.1 h
  rw [tokens, if_pos hmem, hl]
  simp [hlast]

theorem notMem_of_mem_tokens {reference token : Text} (h : token ∈ tokens reference) :
    separator ∉ token := by
  unfold tokens at h
  split at h
  · apply Lines.notMem_of_mem_splitOn reference
    rw [mem_reverse] at h
    exact mem_reverse.1 ((dropWhile_suffix _).subset h)
  · next hmem =>
    rw [mem_singleton.1 h]
    exact hmem

section
variable (url branch path : Text)

def reference : Text :=
  version ++ [separator] ++ url ++ [separator] ++ branch ++ [separator] ++ path

theorem splitOn_reference : (reference url branch path).splitOn separator =
    version :: (url.splitOn separator ++ branch.splitOn separator ++ path.splitOn separator) := by
  have hversion : version.splitOn separator = [version] := by decide
  have heq : reference url branch path =
      version ++ separator :: (url ++ separator :: (branch ++ separator :: path)) := by
    simp [reference]
  rw [heq, splitOn_append_cons_self, splitOn_append_cons_self, splitOn_append_cons_self, hversion]
  simp

variable {url branch path}

theorem tokens_reference (hpath : path ≠ []) (hcomma : separator ∉ path) :
    tokens (reference url branch path) =
      version :: (url.splitOn separator ++ branch.splitOn separator ++ [path]) := by
  have hsplit := splitOn_reference url branch path
  rw [splitOn_eq_singleton hcomma] at hsplit
  rw [← hsplit]
  apply tokens_eq_splitOn _ hpath
  · rw [hsplit, ← cons_append, getLast?_append]
    simp
  · simp [reference]

variable {U : Type} {uriish : Text → Option U}

theorem projectReference_eq_ok {text : Text} {r : ProjectReference U} :
    projectReference uriish text = .ok r ↔
      ∃ first url branch, tokens text = [first, url, branch, r.projectDir] ∧
        uriish url = some r.repository ∧
        r.branch = if branch = [] then defaultBranch else branch := by
  unfold projectReference
  constructor
  · intro h
    split at h
    · next first url branch dir htokens =>
      split at h
      · cases h
      · next repository huri =>
        cases h
        exact ⟨first, url, branch, htokens, huri, rfl⟩
    · cases h
  · rintro ⟨first, url, branch, htokens, huri, hbranch⟩
    rw [htokens]
    simp only [huri, ← hbranch]

theorem read_back_of_free (hpath : path ≠ []) (hbranch : branch ≠ []) {u : U}
    (huri : uriish url = some u) (hu : separator ∉ url) (hb : separator ∉ branch)
    (hp : separator ∉ path) :
    projectReference uriish (reference url branch path) = .ok ⟨u, branch, path⟩ := by
  rw [projectReference_eq_ok]
  refine ⟨version, url, branch, ?_, huri, (if_neg hbranch).symm⟩
  rw [tokens_reference hpath hp, splitOn_eq_singleton hu, splitOn_eq_singleton hb]
  rfl

theorem free_of_read_back (hpath : path ≠ []) {u : U}
    (h : projectReference uriish (reference url branch path) = .ok ⟨u, branch, path⟩) :
    branch ≠ [] ∧ separator ∉ url ∧ separator ∉ branch ∧ separator ∉ path := by
  obtain ⟨first, url', branch', htokens, -, hbranch⟩ := projectReference_eq_ok.1 h
  -- the path is a token, so no token is missing behind it
  have hp : separator ∉ path := by
    apply notMem_of_mem_tokens
    rw [htokens]
    simp
  rw [tokens_reference hpath hp] at htokens
  have hcount : url.count separator + branch.count separator = 0 := by
    have hlength := congrArg List.length htokens
    simp only [length_cons, length_append, Lines.length_splitOn, length_nil]
      at hlength
    omega
  have hu : separator ∉ url := count_eq_zero.1 (by omega)
  have hb : separator ∉ branch := count_eq_zero.1 (by omega)
  refine ⟨?_, hu, hb, hp⟩
  rintro rfl
  rw [splitOn_eq_singleton hu, splitOn_eq_singleton hb] at htokens
  simp only [cons_append, nil_append, List.cons.injEq] at htokens
  rw [← htokens.2.2.1] at hbranch
  cases hbranch

end

namespace Project
variable (project : Project)

theorem projectPath_ne_nil : project.projectPath ≠ [] := by
  unfold projectPath
  split
  · decide
  · assumption

theorem separator_mem_projectPath :
    separator ∈ project.projectPath ↔ separator ∈ project.repoRelativePath := by
  unfold projectPath
  split
  · next h =>
    rw [h]
    decide
  · exact Iff.rfl

theorem asReference_eq {branch url : Text} (hbranch : project.getBranch = some branch)
    (hurl : project.url branch = some url) :
    project.asReference = .ok (reference url branch project.projectPath) := by
  simp only [asReference, hbranch, hurl, reference]

end Project

/-- **References to projects.** -/
theorem reference_read_back_iff {U : Type} (uriish : Text → Option U) (project : Project)
    {branch url : Text} (hbranch : project.getBranch = some branch)
    (hurl : project.url branch = some url) :
    (∃ text repository, project.asReference = .ok text ∧ uriish url = some repository ∧
        projectReference uriish text = .ok ⟨repository, branch, project.projectPath⟩) ↔
      (uriish url).isSome = true ∧ branch ≠ [] ∧ separator ∉ url ∧ separator ∉ branch ∧
        separator ∉ project.repoRelativePath := by
  rw [project.asReference_eq hbranch hurl, ← project.separator_mem_projectPath]
  constructor
  · rintro ⟨text, repository, htext, huri, h⟩
    cases htext
    refine ⟨by simp [huri], ?_⟩
    exact free_of_read_back project.projectPath_ne_nil h
  · rintro ⟨huri, hb, hfree⟩
    obtain ⟨repository, huri⟩ := Option.isSome_iff_exists.1 huri
    refine ⟨_, repository, rfl, huri, ?_⟩
    exact read_back_of_free project.projectPath_ne_nil hb huri hfree.1 hfree.2.1 hfree.2.2

/-- A project of a repository with one remote and this branch. -/
def exported (branch path : Text) : Project where
  name := ofAscii "p"
  getBranch := some branch
  getString := fun _ _ key =>
    if key = ofAscii "url" then some (ofAscii "git://host/repo.git") else some (ofAscii "origin")
  repoRelativePath := path

theorem reference_read_back_root :
    ∃ text repository, (exported (ofAscii "master") []).asReference = .ok text ∧
      projectReference (fun url => some url) text =
        .ok ⟨repository, ofAscii "master", ofAscii "."⟩ := by
  have hiff := reference_read_back_iff (fun url => some url) (exported (ofAscii "master") []) rfl rfl
  obtain ⟨text, repository, htext, -, h⟩ := hiff.2 (by decide)
  exact ⟨text, repository, htext, h⟩

/-- A comma in the name of a branch makes a fifth token. -/
theorem comma_in_branch :
    let project := exported (ofAscii "fix,1") (ofAscii "p")
    project.asReference = .ok (ofAscii "1.0,git://host/repo.git,fix,1,p") ∧
      projectReference (fun url => some url) (ofAscii "1.0,git://host/repo.git,fix,1,p") =
        .error (.invalidTokensCount 4 5 [ofAscii "1.0", ofAscii "git://host/repo.git",
          ofAscii "fix", ofAscii "1", ofAscii "p"]) := by
  decide +kernel

end Egit.ProjectSet
