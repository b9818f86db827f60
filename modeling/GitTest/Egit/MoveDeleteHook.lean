import GitTest.Egit.MoveProject

/-!
# The four hooks and a failed index (GitMoveDeleteHook.java)

A hook edits the index of the repository, then it has the resource tree delete or move the files.
What the index editor does may end in four ways: no lock, an exception, a commit that returns false,
or a written index.

    files are deleted or moved by a hook only with the index that was written for them ↔
      deleteFile, moveFile, moveProject: the commit is not reached, or it does not return false;
      moveFolder: the destination is in the same repository, if the source is in one
      (leavesFiles_iff)
-/

namespace Egit.MoveDeleteHook

open List MoveIndex MoveProject Paths RepositoryMapping

section
variable {M : Type}

/-! ## Algorithm -/

/-- The end of `deleteFile` and `moveFile`.  After a commit that returns false they go on. -/
def commitThen (commit : Commit) (call : Call) (index : List (DirCacheEntry M)) : Run M :=
  match commit with
  | .written => ⟨true, [call], some index⟩
  | .refused => ⟨true, [.failed, call], none⟩
  | .noLock | .ioException => ⟨true, [.failed], none⟩

def deleteFile (force synchronized mapped : Bool) (workTree file : Location)
    (index : List (DirCacheEntry M)) (commit : Commit) : Option (Run M) :=
  if force = false ∧ synchronized = false then some ⟨false, [], none⟩
  else if mapped = false then some ⟨false, [], none⟩
  else if commit = .noLock then some ⟨true, [.failed], none⟩
  else match getRepoRelativePath workTree (some file) with
  | none => none
  | some path =>
    if index.all fun e => e.path ≠ path then some ⟨false, [], none⟩
    else some (commitThen commit .standardDeleteFile (index.filter fun e => e.path ≠ path))

/-- The edit for the destination; a destination outside the work tree has no path for it. -/
def destinationEdits (sameRepository : Bool) (workTree dstf : Location) (sEnt : DirCacheEntry M) :
    Option (List (PathEdit M)) :=
  if sameRepository then
    (getRepoRelativePath workTree (some dstf)).map fun dPath => [PathEdit.mk dPath sEnt]
  else some []

def moveFile (force synchronized mapped sameRepository : Bool) (workTree srcf dstf : Location)
    (index : List (DirCacheEntry M)) (commit : Commit) : Option (Run M) :=
  if force = false ∧ synchronized = false then some ⟨false, [], none⟩
  else if mapped = false then some ⟨false, [], none⟩
  else if commit = .noLock then some ⟨true, [.failed], none⟩
  else match getRepoRelativePath workTree (some srcf) with
  | none => none
  | some sPath =>
    match index.find? fun e => e.path = sPath with
    | none => some ⟨false, [], none⟩
    | some sEnt =>
      match destinationEdits sameRepository workTree dstf sEnt with
      | none => none
      | some edits =>
        if edits.any fun edit => !isValidPath edit.path then none
        else some (commitThen commit .standardMoveFile
          ((index.filter fun e => e.path ≠ sPath && !edits.any fun edit => edit.path = e.path) ++
            edits.flatMap (applyEdit index edits)))

def moveFolder (force synchronized mapped sameRepository : Bool) (workTree srcf dstf : Location)
    (index : List (DirCacheEntry M)) (commit : Commit) : Option (Run M) :=
  if force = false ∧ synchronized = false then some ⟨false, [], none⟩
  else if mapped = false then some ⟨false, [], none⟩
  else if sameRepository then
    let dPath := (getRepoRelativePath workTree (some dstf)).getD nullText ++ [47]
    match getRepoRelativePath workTree (some srcf) with
    | none => if commit = .noLock then some ⟨true, [.failed], none⟩ else none
    | some sPath => runOf .standardMoveFolder [.failed] (moveIndexContent index commit dPath sPath)
  else some ⟨true, [.standardMoveFolder], none⟩

/-! ## What it is for -/

/-- A call of one of the hooks, with the test of the tree and the mappings that it finds. -/
inductive HookCall
  | deleteFile (force synchronized mapped : Bool) (file : Location)
  | moveFile (force synchronized mapped sameRepository : Bool) (srcf dstf : Location)
  | moveFolder (force synchronized mapped sameRepository : Bool) (srcf dstf : Location)
  | moveProject (mapped : Bool) (source newLocation : Location)

def HookCall.run (workTree : Location) (index : List (DirCacheEntry M)) (commit : Commit) :
    HookCall → Option (Run M)
  | .deleteFile force synchronized mapped file =>
    MoveDeleteHook.deleteFile force synchronized mapped workTree file index commit
  | .moveFile force synchronized mapped sameRepository srcf dstf =>
    MoveDeleteHook.moveFile force synchronized mapped sameRepository workTree srcf dstf index commit
  | .moveFolder force synchronized mapped sameRepository srcf dstf =>
    MoveDeleteHook.moveFolder force synchronized mapped sameRepository workTree srcf dstf index
      commit
  | .moveProject mapped source newLocation =>
    MoveProject.moveProject mapped workTree source newLocation index commit

/-- Without a written index the tree is told of failures only, or the operation is handed back. -/
def LeavesFiles (run : Option (Run M)) : Prop :=
  ∀ r, run = some r → r.written = none → (∃ call ∈ r.calls, call ≠ .failed) → r.done = false

/-- The hook goes to the index of a repository. -/
def Ready (force synchronized mapped : Bool) : Prop :=
  (force = true ∨ synchronized = true) ∧ mapped = true

def HasRecord (workTree file : Location) (index : List (DirCacheEntry M)) : Prop :=
  ∃ path, getRepoRelativePath workTree (some file) = some path ∧ ∃ e ∈ index, e.path = path

/-- The condition under which a hook goes on without an index. -/
def GoesOn (workTree : Location) (index : List (DirCacheEntry M)) (commit : Commit) :
    HookCall → Prop
  | .deleteFile force synchronized mapped file =>
    commit = .refused ∧ Ready force synchronized mapped ∧ HasRecord workTree file index
  | .moveFile force synchronized mapped sameRepository srcf dstf =>
    commit = .refused ∧ Ready force synchronized mapped ∧ HasRecord workTree srcf index ∧
      (sameRepository = true →
        ∃ dPath, getRepoRelativePath workTree (some dstf) = some dPath ∧ isValidPath dPath = true)
  | .moveFolder force synchronized mapped sameRepository _ _ =>
    Ready force synchronized mapped ∧ sameRepository = false
  | .moveProject mapped source newLocation =>
    commit = .refused ∧ mapped = true ∧ ∃ dPath, passedOn workTree newLocation = .path dPath ∧
      ∃ sPath, Tracked workTree source index sPath ∧
        ∀ edit ∈ editsTo index dPath sPath, isValidPath edit.path = true

/-! ## Proof -/

section
variable {force synchronized mapped sameRepository : Bool} {workTree : Location}
  {index : List (DirCacheEntry M)} {commit : Commit}

theorem leavesFiles_none : LeavesFiles (none : Option (Run M)) := by
  intro r h
  cases h

theorem leavesFiles_finishForMe : LeavesFiles (some (Run.mk (M := M) false [] none)) := by
  intro r h _ _
  cases h
  rfl

theorem leavesFiles_failed : LeavesFiles (some (Run.mk (M := M) true [.failed] none)) := by
  rintro r h _ ⟨call, hmem, hne⟩
  cases h
  exact absurd (mem_singleton.1 hmem) hne

theorem leavesFiles_written (call : Call) (index : List (DirCacheEntry M)) :
    LeavesFiles (some (Run.mk true [call] (some index))) := by
  intro r h hnone
  cases h
  cases hnone

theorem not_leavesFiles {calls : List Call} {call : Call} (hmem : call ∈ calls)
    (hne : call ≠ .failed) : ¬ LeavesFiles (some (Run.mk (M := M) true calls none)) := by
  intro h
  cases h _ rfl rfl ⟨call, hmem, hne⟩

theorem leavesFiles_commitThen_iff {call : Call} (hne : call ≠ .failed) :
    LeavesFiles (some (commitThen commit call index)) ↔ commit ≠ .refused := by
  cases commit with
  | noLock | ioException => exact iff_of_true leavesFiles_failed (by simp)
  | written => exact iff_of_true (leavesFiles_written call index) (by simp)
  | refused =>
    have hmem : call ∈ [Call.failed, call] := by simp
    exact iff_of_false (not_leavesFiles hmem hne) (by simp)

/-- The tests that three of the hooks begin with. -/
theorem leavesFiles_guard_iff {rest : Option (Run M)} {goesOn : Prop}
    (hready : goesOn → Ready force synchronized mapped)
    (hrest : Ready force synchronized mapped → (LeavesFiles rest ↔ ¬ goesOn)) :
    LeavesFiles (if force = false ∧ synchronized = false then some ⟨false, [], none⟩
      else if mapped = false then some ⟨false, [], none⟩ else rest) ↔ ¬ goesOn := by
  by_cases h : Ready force synchronized mapped
  · have hin : ¬ (force = false ∧ synchronized = false) := by
      rintro ⟨rfl, rfl⟩
      rcases h.1 with h | h <;> cases h
    rw [if_neg hin, if_neg (by simp [h.2])]
    exact hrest h
  · refine iff_of_true ?_ fun hgo => h (hready hgo)
    split
    · exact leavesFiles_finishForMe
    · next hin =>
      rw [if_pos]
      · exact leavesFiles_finishForMe
      · -- one of the tests has failed
        by_contra hmap
        refine h ⟨?_, by simpa using hmap⟩
        by_contra hno
        exact hin (by simpa using hno)

theorem leavesFiles_lock_iff {rest : Option (Run M)} {goesOn : Prop}
    (hlock : goesOn → commit ≠ .noLock) (hrest : LeavesFiles rest ↔ ¬ goesOn) :
    LeavesFiles (if commit = .noLock then some ⟨true, [.failed], none⟩ else rest) ↔ ¬ goesOn := by
  split
  · next h => exact iff_of_true leavesFiles_failed fun hgo => hlock hgo h
  · exact hrest

theorem HasRecord.path_eq {file : Location} {path : Text}
    (hpath : getRepoRelativePath workTree (some file) = some path)
    (h : HasRecord workTree file index) : ∃ e ∈ index, e.path = path := by
  obtain ⟨path', hsome, e, he, rfl⟩ := h
  rw [hpath] at hsome
  cases hsome
  exact ⟨e, he, rfl⟩

theorem not_hasRecord {file : Location} (hpath : getRepoRelativePath workTree (some file) = none) :
    ¬ HasRecord workTree file index := by
  rintro ⟨path, hsome, -⟩
  rw [hpath] at hsome
  cases hsome

theorem deleteFile_leavesFiles_iff (file : Location) :
    LeavesFiles (deleteFile force synchronized mapped workTree file index commit) ↔
      ¬ GoesOn workTree index commit (.deleteFile force synchronized mapped file) := by
  apply leavesFiles_guard_iff fun h => h.2.1
  intro hready
  apply leavesFiles_lock_iff fun h => by simp [h.1]
  cases hpath : getRepoRelativePath workTree (some file) with
  | none => exact iff_of_true leavesFiles_none fun h => not_hasRecord hpath h.2.2
  | some path =>
    dsimp only
    split
    · next hall =>
      refine iff_of_true leavesFiles_finishForMe fun h => ?_
      obtain ⟨e, he, heq⟩ := h.2.2.path_eq hpath
      simpa [heq] using all_eq_true.1 hall e he
    · next hall =>
      have hrecord : HasRecord workTree file index := ⟨path, hpath, by simpa using hall⟩
      rw [leavesFiles_commitThen_iff (by simp)]
      simp [GoesOn, hrecord, hready]

theorem destinationEdits_valid_iff (sameRepository : Bool) (workTree dstf : Location)
    (sEnt : DirCacheEntry M) :
    (∃ edits, destinationEdits sameRepository workTree dstf sEnt = some edits ∧
        ¬ (edits.any fun edit => !isValidPath edit.path) = true) ↔
      (sameRepository = true → ∃ dPath, getRepoRelativePath workTree (some dstf) = some dPath ∧
          isValidPath dPath = true) := by
  unfold destinationEdits
  cases sameRepository with
  | false => simp
  | true => simp

theorem moveFile_leavesFiles_iff (srcf dstf : Location) :
    LeavesFiles
        (moveFile force synchronized mapped sameRepository workTree srcf dstf index commit) ↔
      ¬ GoesOn workTree index commit
        (.moveFile force synchronized mapped sameRepository srcf dstf) := by
  apply leavesFiles_guard_iff fun h => h.2.1
  intro hready
  apply leavesFiles_lock_iff fun h => by simp [h.1]
  cases hpath : getRepoRelativePath workTree (some srcf) with
  | none => exact iff_of_true leavesFiles_none fun h => not_hasRecord hpath h.2.2.1
  | some sPath =>
    dsimp only
    cases hfind : index.find? fun e => e.path = sPath with
    | none =>
      refine iff_of_true leavesFiles_finishForMe fun h => ?_
      obtain ⟨e, he, heq⟩ := h.2.2.1.path_eq hpath
      simpa [heq] using find?_eq_none.1 hfind e he
    | some sEnt =>
      have hrecord : HasRecord workTree srcf index :=
        ⟨sPath, hpath, sEnt, mem_of_find?_eq_some hfind, by
          simpa using find?_some hfind⟩
      have hvalid := destinationEdits_valid_iff sameRepository workTree dstf sEnt
      dsimp only
      cases hedits : destinationEdits sameRepository workTree dstf sEnt with
      | none =>
        refine iff_of_true leavesFiles_none fun h => ?_
        obtain ⟨edits, hsome, -⟩ := hvalid.2 h.2.2.2
        rw [hedits] at hsome
        cases hsome
      | some edits =>
        dsimp only
        split
        · next hany =>
          refine iff_of_true leavesFiles_none fun h => ?_
          obtain ⟨edits', hsome, hnone⟩ := hvalid.2 h.2.2.2
          rw [hedits] at hsome
          cases hsome
          exact hnone hany
        · next hany =>
          rw [leavesFiles_commitThen_iff (by simp)]
          refine not_congr ⟨fun hcommit => ?_, fun h => h.1⟩
          exact ⟨hcommit, hready, hrecord, hvalid.1 ⟨edits, hedits, hany⟩⟩

/-- After `moveIndexContent` it depends on what is done when the index was not written. -/
theorem leavesFiles_runOf_iff {move : Call} {onFailure : List Call}
    {result : Except Thrown (MoveResult × List (DirCacheEntry M))} :
    LeavesFiles (runOf move onFailure result) ↔
      ((∃ index', result = .ok (.failed, index')) → ∀ call ∈ onFailure, call = .failed) := by
  rcases result with (_ | _) | ⟨_ | _ | _, index'⟩
  · exact iff_of_true leavesFiles_failed fun h => nomatch h.choose_spec
  · exact iff_of_true leavesFiles_none fun h => nomatch h.choose_spec
  · exact iff_of_true (leavesFiles_written move index') fun h => nomatch h.choose_spec
  · constructor
    · intro h _ call hmem
      by_contra hne
      exact not_leavesFiles hmem hne h
    · rintro h r hr _ ⟨call, hmem, hne⟩
      cases hr
      exact absurd (h ⟨index', rfl⟩ call hmem) hne
  · exact iff_of_true leavesFiles_finishForMe fun h => nomatch h.choose_spec

theorem moveFolder_leavesFiles_iff (srcf dstf : Location) :
    LeavesFiles
        (moveFolder force synchronized mapped sameRepository workTree srcf dstf index commit) ↔
      ¬ GoesOn workTree index commit
        (.moveFolder force synchronized mapped sameRepository srcf dstf) := by
  apply leavesFiles_guard_iff fun h => h.1
  intro hready
  cases sameRepository with
  | false =>
    refine iff_of_false (not_leavesFiles mem_cons_self (by simp)) ?_
    exact fun h => h ⟨hready, rfl⟩
  | true =>
    rw [if_pos rfl]
    refine iff_of_true ?_ fun h => nomatch h.2
    cases getRepoRelativePath workTree (some srcf) with
    | none =>
      dsimp only
      split
      · exact leavesFiles_failed
      · exact leavesFiles_none
    | some sPath =>
      refine leavesFiles_runOf_iff.2 fun _ call hmem => ?_
      exact mem_singleton.1 hmem

theorem moveIndexContent_failed_iff {dPath sPath : Text} :
    (∃ index', moveIndexContent index commit dPath sPath = .ok (.failed, index')) ↔
      commit = .refused ∧ (∃ e ∈ index, within sPath e.path = true) ∧
        ∀ edit ∈ editsTo index dPath sPath, isValidPath edit.path = true := by
  by_cases htracked : ∃ e ∈ index, within sPath e.path = true
  · have hvalid : (∀ edit ∈ editsTo index dPath sPath, isValidPath edit.path = true) ↔
        ¬ ((editsTo index dPath sPath).any fun edit => !isValidPath edit.path) = true := by simp
    rw [moveIndexContent_tracked htracked, hvalid]
    by_cases hany : ((editsTo index dPath sPath).any fun edit => !isValidPath edit.path) = true
    · refine iff_of_false ?_ fun h => h.2.2 hany
      split
      · simp
      · simp
    · cases commit with
      | _ => simp [htracked, hany]
  · have hnone : ∀ e ∈ index, within sPath e.path = false := by simpa using htracked
    rw [moveIndexContent_untracked hnone]
    refine iff_of_false ?_ fun h => htracked h.2.1
    split
    · simp
    · simp

theorem moveProject_leavesFiles_iff (source newLocation : Location) :
    LeavesFiles (moveProject mapped workTree source newLocation index commit) ↔
      ¬ GoesOn workTree index commit (.moveProject mapped source newLocation) := by
  unfold moveProject
  split
  · next hmap =>
    refine iff_of_true leavesFiles_finishForMe fun h => ?_
    rw [h.2.1] at hmap
    cases hmap
  · next hmap =>
    cases hpassed : passedOn workTree newLocation with
    | finishForMe =>
      refine iff_of_true leavesFiles_finishForMe ?_
      rintro ⟨-, -, dPath, hpath, -⟩
      rw [hpassed] at hpath
      cases hpath
    | throws =>
      refine iff_of_true leavesFiles_none ?_
      rintro ⟨-, -, dPath, hpath, -⟩
      rw [hpassed] at hpath
      cases hpath
    | path dPath =>
      cases hsource : getRepoRelativePath workTree (some source) with
      | none =>
        refine iff_of_true ?_ ?_
        · unfold moveTo
          rw [hsource]
          dsimp only
          split
          · exact leavesFiles_failed
          · exact leavesFiles_none
        · rintro ⟨-, -, _, -, sPath, htracked, -⟩
          rw [htracked.1] at hsource
          cases hsource
      | some sPath =>
        dsimp only
        rw [moveTo_of_path hsource, leavesFiles_runOf_iff, moveIndexContent_failed_iff]
        constructor
        · rintro h ⟨hcommit, -, dPath', hpath, sPath', htracked, hvalid⟩
          rw [hpassed] at hpath
          rw [htracked.1] at hsource
          cases hpath
          cases hsource
          cases h ⟨hcommit, htracked.2, hvalid⟩ .standardMoveProject (by simp)
        · rintro h ⟨hcommit, htracked, hvalid⟩
          exact absurd ⟨hcommit, by simpa using hmap, dPath, hpassed, sPath, ⟨hsource, htracked⟩,
            hvalid⟩ h

end

/-- **A failed index.**  A hook deletes or moves files without the index that was written for them
exactly if it goes on after a refused commit, or moves a folder to another repository. -/
theorem leavesFiles_iff (workTree : Location) (index : List (DirCacheEntry M)) (commit : Commit)
    (call : HookCall) :
    LeavesFiles (call.run workTree index commit) ↔ ¬ GoesOn workTree index commit call := by
  cases call with
  | deleteFile force synchronized mapped file => exact deleteFile_leavesFiles_iff file
  | moveFile force synchronized mapped sameRepository srcf dstf =>
    exact moveFile_leavesFiles_iff srcf dstf
  | moveFolder force synchronized mapped sameRepository srcf dstf =>
    exact moveFolder_leavesFiles_iff srcf dstf
  | moveProject mapped source newLocation => exact moveProject_leavesFiles_iff source newLocation

/-- The commit for the tracked file `/a/x` returns false, and the file is deleted all the same. -/
theorem deleteFile_refused :
    let a : Name := ⟨[97], by decide, by decide⟩
    let x : Name := ⟨[120], by decide, by decide⟩
    let workTree := rooted [a] (by decide)
    let file := rooted [a, x] (by decide)
    let index := (oneRecord [120] (by decide)).entries
    deleteFile true true true workTree file index .refused =
        some ⟨true, [.failed, .standardDeleteFile], none⟩ ∧
      ¬ LeavesFiles ((HookCall.deleteFile true true true file).run workTree index .refused) := by
  intro a x workTree file index
  have hrun : deleteFile true true true workTree file index .refused =
      some ⟨true, [.failed, .standardDeleteFile], none⟩ := by
    rfl
  refine ⟨hrun, ?_⟩
  show ¬ LeavesFiles (deleteFile true true true workTree file index .refused)
  have hmem : Call.standardDeleteFile ∈ [Call.failed, .standardDeleteFile] := by simp
  exact not_leavesFiles hmem (by simp)

end

end Egit.MoveDeleteHook
