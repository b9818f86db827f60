import Mathlib.Data.List.Basic

/-!
# The search for repositories (RepositorySearchDialog.java)

`findGitDirsRecursive` on a directory, given by what `listFiles` returns for it and for the
directories in it.  Without the nested option the loop ends at the first git directory.

    with the nested option the git directories that are in no other one are found; without it
      those that should be are found exactly in a fair tree  (findGitDirsRecursive_right_iff)
-/

namespace Egit.RepositorySearch

open List

/-! ## Algorithm -/

/-- The children of a directory, in the order of `listFiles`; `git` is what `isGitRepository`
says. -/
inductive Listing (N : Type)
  | nil
  | file (rest : Listing N)
  | dir (name : N) (git : Bool) (children rest : Listing N)

section
variable {N : Type}

/-- The paths that are added for the children of a directory, from this directory on. -/
def findGitDirsRecursive (lookForNested : Bool) : Listing N → List (List N)
  | .nil => []
  | .file rest => findGitDirsRecursive lookForNested rest
  | .dir name true _ rest =>
    [name] :: if lookForNested then findGitDirsRecursive lookForNested rest else []
  | .dir name false children rest =>
    (findGitDirsRecursive lookForNested children).map (name :: ·) ++
      findGitDirsRecursive lookForNested rest

/-! ## Specification -/

/-- The paths that a search should add for the children of a directory: those of its git
directories and, if the search is to go below the directory, what is wanted in its other ones. -/
def Wanted (goesBelow : Listing N → Prop) : Prop → Listing N → List N → Prop
  | _, .nil, _ => False
  | b, .file rest, q => Wanted goesBelow b rest q
  | b, .dir n true _ rest, q => q = [n] ∨ Wanted goesBelow b rest q
  | b, .dir n false c rest, q =>
    (b ∧ ∃ q', Wanted goesBelow (goesBelow c) c q' ∧ n :: q' = q) ∨ Wanted goesBelow b rest q

def Listing.HasGit (name : N) : Listing N → Prop
  | .nil => False
  | .file rest => rest.HasGit name
  | .dir n git _ rest => n = name ∧ git = true ∨ rest.HasGit name

/-- Not a work tree: there is no git directory `.git` in the directory. -/
def Bare (dotGit : N) (l : Listing N) : Prop := ¬ l.HasGit dotGit

def Listing.names : Listing N → List N
  | .nil => []
  | .file rest => rest.names
  | .dir n _ _ rest => n :: rest.names

def Listing.Distinct : Listing N → Prop
  | .nil => True
  | .file rest => rest.Distinct
  | .dir n _ c rest => n ∉ rest.names ∧ c.Distinct ∧ rest.Distinct

def Listing.NoGit : Listing N → Prop
  | .nil => True
  | .file rest => rest.NoGit
  | .dir _ git c rest => git = false ∧ c.NoGit ∧ rest.NoGit

/-- In each directory that the search comes to there is at most one git directory.  If it is `.git`
there are none below the directories listed before it, otherwise none below those behind it. -/
def Fair [DecidableEq N] (dotGit : N) : Listing N → Prop
  | .nil => True
  | .file rest => Fair dotGit rest
  | .dir n true _ rest => if n = dotGit then ∀ m, ¬ rest.HasGit m else rest.NoGit
  | .dir _ false c rest =>
    (rest.HasGit dotGit → c.NoGit) ∧ (Bare dotGit rest → Fair dotGit c) ∧ Fair dotGit rest

/-! ## Proof -/

variable {below : Listing N → Prop} {b : Prop} {n dotGit : N} {l c rest : Listing N} {q : List N}

theorem head_of_wanted (h : Wanted below b l (n :: q)) : n ∈ l.names := by
  induction l with
  | nil => cases h
  | file rest ih => exact ih h
  | dir m git c rest _ ih =>
    cases git with
    | true =>
      rcases h with h | h
      · cases h
        exact mem_cons_self
      · exact mem_cons_of_mem _ (ih h)
    | false =>
      rcases h with ⟨-, q', -, h⟩ | h
      · cases h
        exact mem_cons_self
      · exact mem_cons_of_mem _ (ih h)

theorem nested_iff : q ∈ findGitDirsRecursive true l ↔ Wanted (fun _ => True) True l q := by
  induction l generalizing q with
  | nil => exact mem_nil_iff q
  | file rest ih => exact ih
  | dir n git c rest ihc ihr =>
    cases git with
    | true => simp only [findGitDirsRecursive, if_true, mem_cons, ihr, Wanted]
    | false =>
      simp only [findGitDirsRecursive, mem_append, mem_map, ihc, ihr, Wanted, true_and]

theorem nested_of_found (h : q ∈ findGitDirsRecursive false l) :
    q ∈ findGitDirsRecursive true l := by
  induction l generalizing q with
  | nil => cases h
  | file rest ih => exact ih h
  | dir n git c rest ihc ihr =>
    cases git with
    | true => exact mem_cons.2 (.inl (mem_singleton.1 h))
    | false =>
      rw [findGitDirsRecursive, mem_append, mem_map] at h ⊢
      exact h.imp (fun ⟨q', hq, he⟩ => ⟨q', ihc hq, he⟩) ihr

theorem noGit_iff_find : l.NoGit ↔ findGitDirsRecursive false l = [] := by
  induction l with
  | nil => simp [Listing.NoGit, findGitDirsRecursive]
  | file rest ih => exact ih
  | dir n git c rest ihc ihr =>
    cases git with
    | true => simp [Listing.NoGit, findGitDirsRecursive]
    | false => simp [Listing.NoGit, findGitDirsRecursive, ihc, ihr]

theorem wanted_of_hasGit (h : l.HasGit n) : Wanted below b l [n] := by
  induction l with
  | nil => cases h
  | file rest ih => exact ih h
  | dir m git c rest _ ih =>
    cases git with
    | true => exact h.imp (fun h => by rw [h.1]) ih
    | false => exact .inr (ih (h.resolve_left (by simp)))

theorem not_wanted (hb : ¬ b) (h : ∀ m, ¬ l.HasGit m) : ¬ Wanted below b l q := by
  induction l with
  | nil => exact id
  | file rest ih => exact ih h
  | dir m git c rest _ ih =>
    cases git with
    | true => exact absurd (.inl ⟨rfl, rfl⟩) (h m)
    | false => exact fun hq => hq.elim (hb ·.1) (ih fun k hk => h k (.inr hk))

theorem bare_dir : Bare dotGit (.dir n false c rest) = Bare dotGit rest := by
  simp [Bare, Listing.HasGit]

/-- If there is a git directory anywhere, one is wanted. -/
theorem noGit_iff : l.NoGit ↔ ∀ q, ¬ Wanted (Bare dotGit) (Bare dotGit l) l q := by
  induction l with
  | nil => simp [Listing.NoGit, Wanted]
  | file rest ih => exact ih
  | dir n git c rest ihc ihr =>
    cases git with
    | true => exact iff_of_false (by simp [Listing.NoGit]) fun h => h [n] (.inl rfl)
    | false =>
      simp only [Listing.NoGit, true_and, ihr, ihc, Wanted, bare_dir, not_or]
      constructor
      · rintro ⟨hc, hr⟩ q
        exact ⟨fun ⟨_, q', hq, _⟩ => hc q' hq, hr q⟩
      · intro h
        have hb : Bare dotGit rest := fun hg => (h _).2 (wanted_of_hasGit hg)
        exact ⟨fun q hq => (h _).1 ⟨hb, q, hq, rfl⟩, fun q => (h q).2⟩

theorem once_iff [DecidableEq N] (hd : l.Distinct) :
    (∀ q, q ∈ findGitDirsRecursive false l ↔ Wanted (Bare dotGit) (Bare dotGit l) l q) ↔
      Fair dotGit l := by
  induction l with
  | nil => simp [findGitDirsRecursive, Wanted, Fair]
  | file rest ih => exact ih hd
  | dir n git c rest ihc ihr =>
    obtain ⟨hn, hdc, hdr⟩ := hd
    have hother (b : Prop) (q : List N) : ¬ Wanted (Bare dotGit) b rest (n :: q) :=
      fun h => hn (head_of_wanted h)
    cases git with
    | true =>
      have hnone (b : Prop) : (∀ q, q = [n] ↔ q = [n] ∨ Wanted (Bare dotGit) b rest q) ↔
          ∀ q, ¬ Wanted (Bare dotGit) b rest q := by
        refine forall_congr' fun q => ⟨fun h hq => ?_, fun h => by simp [h]⟩
        rw [h.2 (.inr hq)] at hq
        exact hother b [] hq
      simp only [findGitDirsRecursive, Bool.false_eq_true, if_false, mem_singleton, Wanted,
        hnone, Fair]
      split
      · next hdot =>
        have hbare : ¬ Bare dotGit (.dir n true c rest) := fun h => h (.inl ⟨hdot, rfl⟩)
        exact ⟨fun h m hm => h [m] (wanted_of_hasGit hm), fun h q => not_wanted hbare h⟩
      · next hdot =>
        have hbare : Bare dotGit (.dir n true c rest) = Bare dotGit rest := by
          simp [Bare, Listing.HasGit, hdot]
        rw [hbare, noGit_iff]
    | false =>
      have hfind (q : List N) : n :: q ∉ findGitDirsRecursive false rest :=
        fun h => hn (head_of_wanted (nested_iff.1 (nested_of_found h)))
      have hsplit (b : Prop) : (∀ q, q ∈ findGitDirsRecursive false (.dir n false c rest) ↔
          Wanted (Bare dotGit) b (.dir n false c rest) q) ↔
          (∀ q, q ∈ findGitDirsRecursive false c ↔ b ∧ Wanted (Bare dotGit) (Bare dotGit c) c q) ∧
            ∀ q, q ∈ findGitDirsRecursive false rest ↔ Wanted (Bare dotGit) b rest q := by
        simp only [findGitDirsRecursive, mem_append, mem_map, Wanted]
        constructor
        · refine fun h => ⟨fun q => by simpa [hfind, hother] using h (n :: q), fun q => ?_⟩
          by_cases hq : ∃ q', n :: q' = q
          · obtain ⟨q', rfl⟩ := hq
            exact iff_of_false (hfind q') (hother _ q')
          · simpa [not_exists.1 hq] using h q
        · rintro ⟨hc, hr⟩ q
          simp only [hc, hr, exists_and_left, and_assoc]
      have hchild : (∀ q, q ∈ findGitDirsRecursive false c ↔
          Bare dotGit rest ∧ Wanted (Bare dotGit) (Bare dotGit c) c q) ↔
          (rest.HasGit dotGit → c.NoGit) ∧ (Bare dotGit rest → Fair dotGit c) := by
        rw [← ihc hdc, noGit_iff_find]
        by_cases hb : rest.HasGit dotGit
        · simp [Bare, hb, eq_nil_iff_forall_not_mem]
        · simp [Bare, hb]
      rw [bare_dir, hsplit, hchild, ihr hdr, Fair, and_assoc]

/-- **The search.** -/
theorem findGitDirsRecursive_right_iff [DecidableEq N] (dotGit : N) (root : Listing N)
    (hd : root.Distinct) :
    (∀ q, q ∈ findGitDirsRecursive true root ↔ Wanted (fun _ => True) True root q) ∧
      ((∀ q, q ∈ findGitDirsRecursive false root ↔
          Wanted (Bare dotGit) (Bare dotGit root) root q) ↔
        Fair dotGit root) :=
  ⟨fun _ => nested_iff, once_iff hd⟩

/-- The work tree `p`, with a directory before `.git` and another work tree behind it. -/
def workTrees : Listing String :=
  .dir "p" false
    (.dir "a" false (.file .nil)
      (.dir ".git" true .nil (.dir "b" false (.dir ".git" true .nil .nil) .nil)))
    (.file .nil)

theorem findGitDirsRecursive_right_workTree :
    workTrees.Distinct ∧ findGitDirsRecursive false workTrees = [["p", ".git"]] ∧
      ∀ q, q ∈ findGitDirsRecursive false workTrees ↔
        Wanted (Bare ".git") (Bare ".git" workTrees) workTrees q := by
  have hd : workTrees.Distinct := by simp [workTrees, Listing.Distinct, Listing.names]
  have hfair : Fair ".git" workTrees := by
    simp [workTrees, Fair, Listing.HasGit, Listing.NoGit]
  exact ⟨hd, by decide, (findGitDirsRecursive_right_iff ".git" _ hd).2.2 hfair⟩

/-- Of two bare repositories beside each other only the first is found. -/
theorem second_bare_missed : ∃ root : Listing String, root.Distinct ∧
    Wanted (Bare ".git") (Bare ".git" root) root ["b"] ∧
      ["b"] ∉ findGitDirsRecursive false root :=
  ⟨.dir "a" true .nil (.dir "b" true .nil .nil), by simp [Listing.Distinct, Listing.names],
    .inr (.inl rfl), by decide⟩

end

end Egit.RepositorySearch
