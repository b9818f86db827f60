import GitTest.Lib.Paths

/-!
# Refreshing the projects of a repository (ProjectUtil.java)

`getValidProjects` takes the projects that have a `.project` file and whose path, as a text, starts
with the path of the work tree.  After a checkout `refreshValidProjects` deletes those of them that
have lost the file.

    the projects taken are those in the work tree, and only such ones are deleted later ↔ no
      project with a `.project` file is in a directory beside the work tree whose name continues
      the work tree's name  (refreshed_iff)

A location is given by its segments from the root of the file system.
-/

namespace Egit.ProjectUtil

open List Paths

/-! ## Algorithm -/

def getAbsolutePath (location : List Name) : Text := 47 :: join location

structure Project where
  name : Text
  location : List Name
  deriving DecidableEq

/-- `.project` -/
def dotProject : Name := ⟨[46, 112, 114, 111, 106, 101, 99, 116], by decide, by decide⟩

def Project.hasFile (files : Text → Bool) (p : Project) : Bool :=
  files (getAbsolutePath (p.location ++ [dotProject]))

def getValidProjects (files : Text → Bool) (projects : List Project) (workTree : List Name) :
    List Project :=
  projects.filter fun p =>
    p.hasFile files && (getAbsolutePath workTree).isPrefixOf (getAbsolutePath p.location)

inductive Call
  | refreshLocal (p : Project)
  | delete (p : Project)
  deriving DecidableEq

/-- The calls on the projects, until the monitor is cancelled or a call throws. -/
def refreshValidProjects (files : Text → Bool) (isCanceled throws : Project → Bool) :
    List Project → List Call
  | [] => []
  | p :: projects =>
    if isCanceled p then []
    else (if p.hasFile files then .refreshLocal p else .delete p) ::
      if throws p then [] else refreshValidProjects files isCanceled throws projects

/-! ## Paths as texts -/

/-- The path of the location goes on inside the last name of the work tree, as `/a/repo2` does with
`/a/repo`. -/
def GoesOn (workTree location : List Name) : Prop :=
  workTree ≠ [] ∧ ∃ c t, c ≠ 47 ∧ join location = join workTree ++ c :: t

section
variable {w l : List Name}

/-- A text that starts with another does so segment by segment, or goes on inside a segment. -/
theorem isPrefixOf_iff : (getAbsolutePath w).isPrefixOf (getAbsolutePath l) = true ↔
    w <+: l ∨ GoesOn w l := by
  rw [getAbsolutePath, getAbsolutePath, isPrefixOf_cons_cons_self, isPrefixOf_iff_prefix]
  constructor
  · rintro ⟨t, ht⟩
    cases t with
    | nil =>
      rw [append_nil, join_inj] at ht
      exact .inl (ht ▸ prefix_rfl)
    | cons c t =>
      by_cases hc : c = 47
      · have hl := congrArg names ht
        rw [hc, names_append, names_join, names_join] at hl
        exact .inl ⟨_, hl⟩
      · by_cases hw : w = []
        · exact .inl (hw ▸ nil_prefix)
        · exact .inr ⟨hw, c, t, hc, ht.symm⟩
  · rintro (⟨k, rfl⟩ | ⟨-, c, t, -, h⟩)
    · by_cases hw : w = []
      · exact hw ▸ nil_prefix
      · by_cases hk : k = []
        · simp [hk]
        · exact join_append hw hk ▸ prefix_append ..
    · exact h ▸ prefix_append ..

theorem GoesOn.not_prefix (h : GoesOn w l) : ¬ w <+: l := by
  obtain ⟨hw, c, t, hc, hl⟩ := h
  rintro ⟨k, rfl⟩
  by_cases hk : k = []
  · simp [hk] at hl
  · rw [join_append hw hk, append_cancel_left_eq] at hl
    exact hc (cons.inj hl).1.symm

variable {files : Text → Bool} {isCanceled throws : Project → Bool} {projects : List Project}
  {p : Project}

theorem of_delete (h : .delete p ∈ refreshValidProjects files isCanceled throws projects) :
    p ∈ projects ∧ p.hasFile files = false := by
  fun_induction refreshValidProjects files isCanceled throws projects with
  | case1 => cases h
  | case2 => cases h
  | case3 q projects hq ih =>
    rcases mem_cons.1 h with h | h
    · split at h
      · cases h
      · next hf =>
        cases h
        exact ⟨mem_cons_self, eq_false_of_ne_true hf⟩
    · split at h
      · cases h
      · exact ⟨mem_cons_of_mem q (ih h).1, (ih h).2⟩

end

/-! ## Refreshing -/

/-- The valid projects are those of the work tree, and of the projects that a later refresh deletes
each is one of them and has lost its file. -/
def Right (files : Text → Bool) (projects : List Project) (workTree : List Name) : Prop :=
  (∀ p, p ∈ getValidProjects files projects workTree ↔
    p ∈ projects ∧ p.hasFile files = true ∧ workTree <+: p.location) ∧
  ∀ files' isCanceled throws p, .delete p ∈ refreshValidProjects files' isCanceled throws
      (getValidProjects files projects workTree) →
    workTree <+: p.location ∧ p.hasFile files = true ∧ p.hasFile files' = false

/-- **The refreshed projects.**  They are those in the work tree if and only if no location goes on
inside the name of the work tree. -/
theorem refreshed_iff (files : Text → Bool) (projects : List Project) (workTree : List Name) :
    Right files projects workTree ↔
      ∀ p ∈ projects, p.hasFile files = true → ¬ GoesOn workTree p.location := by
  have hmem : ∀ p, p ∈ getValidProjects files projects workTree ↔ p ∈ projects ∧
      p.hasFile files = true ∧ (workTree <+: p.location ∨ GoesOn workTree p.location) := by
    intro p
    rw [getValidProjects, mem_filter, Bool.and_eq_true, isPrefixOf_iff]
  constructor
  · rintro ⟨h, -⟩ p hp hf hgo
    exact hgo.not_prefix ((h p).1 ((hmem p).2 ⟨hp, hf, .inr hgo⟩)).2.2
  · intro h
    have hvalid : ∀ p, p ∈ getValidProjects files projects workTree ↔
        p ∈ projects ∧ p.hasFile files = true ∧ workTree <+: p.location := by
      intro p
      rw [hmem]
      tauto
    refine ⟨hvalid, fun files' isCanceled throws p hp => ?_⟩
    obtain ⟨hp, hf⟩ := of_delete hp
    obtain ⟨-, hf', hpre⟩ := (hvalid p).1 hp
    exact ⟨hpre, hf', hf⟩

/-- With the work tree `/a`, a project at `/ab` that loses its file is deleted. -/
theorem foreign_deleted : ∃ (files : Text → Bool) (p : Project) (workTree : List Name),
    ¬ workTree <+: p.location ∧ Call.delete p ∈ refreshValidProjects (fun _ => false)
      (fun _ => false) (fun _ => false) (getValidProjects files [p] workTree) := by
  refine ⟨fun _ => true, ⟨[], [⟨[97, 98], by decide, by decide⟩]⟩, [⟨[97], by decide, by decide⟩], ?_⟩
  decide

end Egit.ProjectUtil
