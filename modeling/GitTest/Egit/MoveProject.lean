import GitTest.Egit.MoveIndex

/-!
# Where a project is moved to (GitMoveDeleteHook.java, moveProject)

`moveProject` goes to the index if the text of the new location contains the text of the work tree,
wherever that is.  It drops as many characters as the work tree has, and one more, and what is left
is the new path in the index, written with doubled colons.

    the index is edited exactly for locations in the work tree, with the path there ↔
      in the work tree, for a project with tracked files: the work tree is not a root, the location
        is not the work tree, its path there has no colon (or by luck), and the new paths are valid;
      elsewhere: the text of the work tree is not in the one of the location, or it is another text,
        the project has no tracked files, and the index can be locked  (moveProject_iff)
-/

namespace Egit.MoveProject

open List MoveIndex Paths RepositoryMapping

section
variable {M : Type}

/-! ## Algorithm -/

/-- What a hook calls on the resource tree. -/
inductive Call
  | failed | standardDeleteFile | standardMoveFile | standardMoveFolder | standardMoveProject
  deriving DecidableEq, Repr

structure Run (M : Type) where
  /-- `I_AM_DONE`, or else `FINISH_FOR_ME`. -/
  done : Bool
  calls : List Call
  /-- The index, if a commit has written it. -/
  written : Option (List (DirCacheEntry M))

/-- The end of `moveFolder` and `moveProject`, after `moveIndexContent`. -/
def runOf (move : Call) (onFailure : List Call) :
    Except Thrown (MoveResult × List (DirCacheEntry M)) → Option (Run M)
  | .ok (.success, index) => some ⟨true, [move], some index⟩
  | .ok (.failed, _) => some ⟨true, onFailure, none⟩
  | .ok (.untracked, _) => some ⟨false, [], none⟩
  | .error .ioException => some ⟨true, [.failed], none⟩
  | .error .illegalArgument => none

/-- What is known before the index is opened: the operation is handed back, the text is too short to
be cut, or a path is passed on. -/
inductive Passed
  | finishForMe
  | throws
  | path (dPath : Text)
  deriving DecidableEq

/-- `newLocation.getAbsolutePath().contains(workTree.getAbsolutePath())` -/
def containsText (workTree newLocation : Location) : Bool :=
  newLocation.path.toString.tails.any fun t => workTree.path.toString.isPrefixOf t

def passedOn (workTree newLocation : Location) : Passed :=
  let newText := newLocation.path.toString
  let workText := workTree.path.toString
  if containsText workTree newLocation then
    if newText.length < workText.length + 1 then .throws
    else
      let path := ofText none (newText.drop (workText.length + 1) ++ [47])
      .path (path.toPortableString ++ if path.segments = [] then [] else [47])
  else .finishForMe

def moveTo (workTree source : Location) (index : List (DirCacheEntry M)) (commit : Commit)
    (dPath : Text) : Option (Run M) :=
  match getRepoRelativePath workTree (some source) with
  -- the index is locked before the missing path is used
  | none => if commit = .noLock then some ⟨true, [.failed], none⟩ else none
  | some sPath =>
    -- after `FAILED` the source leaves the switch, and moves the files as well
    runOf .standardMoveProject [.failed, .standardMoveProject]
      (moveIndexContent index commit dPath sPath)

/-- `none` is an exception that a hook does not catch; it has called nothing then. -/
def moveProject (mapped : Bool) (workTree source newLocation : Location)
    (index : List (DirCacheEntry M)) (commit : Commit) : Option (Run M) :=
  if mapped = false then some ⟨false, [], none⟩
  else match passedOn workTree newLocation with
  | .finishForMe => some ⟨false, [], none⟩
  | .throws => none
  | .path dPath => moveTo workTree source index commit dPath

def editsTo (index : List (DirCacheEntry M)) (dPath sPath : Text) : List (PathEdit M) :=
  (index.filter fun e => within sPath e.path).map fun se =>
    PathEdit.mk (dPath ++ se.path.drop (sPath.length + 1)) se

/-! ## What it is for -/

/-- The path of `d` in the index, as it stands before the paths below. -/
def destination (d : List Name) : Text := if d = [] then [] else join d ++ [47]

/-- The project is at `sPath` in the work tree, and the index has files of it. -/
def Tracked (workTree source : Location) (index : List (DirCacheEntry M)) (sPath : Text) : Prop :=
  getRepoRelativePath workTree (some source) = some sPath ∧
    ∃ e ∈ index, within sPath e.path = true

def Untracked (workTree source : Location) (index : List (DirCacheEntry M)) : Prop :=
  ∃ sPath, getRepoRelativePath workTree (some source) = some sPath ∧
    ∀ e ∈ index, within sPath e.path = false

structure EditsInside (workTree source newLocation : Location) (index : List (DirCacheEntry M))
    (commit : Commit) : Prop where
  inside : ∀ d, Below workTree newLocation d → ∀ sPath, Tracked workTree source index sPath →
    passedOn workTree newLocation = .path (destination d) ∧
      (commit = .written → moveProject true workTree source newLocation index commit =
        some ⟨true, [.standardMoveProject],
          some (applyEdits index sPath (editsTo index (destination d) sPath))⟩)
  untracked : (¬ ∃ sPath, Tracked workTree source index sPath) →
    ∀ r, moveProject true workTree source newLocation index commit = some r → r.written = none
  /-- Elsewhere the operation is handed back. -/
  outside : (¬ ∃ d, Below workTree newLocation d) →
    moveProject true workTree source newLocation index commit = some ⟨false, [], none⟩

/-- The condition on the path `d` of the new location.  Below a root its first character is lost,
and a doubled colon can make up for it. -/
def Written (workTree : Location) (d : List Name) : Prop :=
  if workTree.path.segments = [] then ∃ q, join d = 58 :: 58 :: q ∧ 58 ∉ q
  else d ≠ [] ∧ 58 ∉ join d

structure Confined (workTree source newLocation : Location) (index : List (DirCacheEntry M))
    (commit : Commit) : Prop where
  inside : ∀ d, Below workTree newLocation d → ∀ sPath, Tracked workTree source index sPath →
    Written workTree d ∧ (commit = .written →
      ∀ edit ∈ editsTo index (destination d) sPath, isValidPath edit.path = true)
  outside : (¬ ∃ d, Below workTree newLocation d) → containsText workTree newLocation = true →
    newLocation.path.toString ≠ workTree.path.toString ∧ commit ≠ .noLock ∧
      Untracked workTree source index

/-! ## The path that is passed on -/

section
variable {workTree newLocation : Location} {d : List Name}

theorem containsText_iff :
    containsText workTree newLocation = true ↔
      workTree.path.toString <:+: newLocation.path.toString := by
  unfold containsText
  rw [any_eq_true, infix_iff_prefix_suffix]
  constructor
  · rintro ⟨t, ht, hpre⟩
    exact ⟨t, isPrefixOf_iff_prefix.1 hpre, (mem_tails _ _).1 ht⟩
  · rintro ⟨t, hpre, ht⟩
    exact ⟨t, (mem_tails _ _).2 ht, isPrefixOf_iff_prefix.2 hpre⟩

theorem containsText_of_eq (h : newLocation.path.toString = workTree.path.toString) :
    containsText workTree newLocation = true := by
  rw [containsText_iff, h]

theorem length_lt_iff (h : containsText workTree newLocation = true) :
    newLocation.path.toString.length < workTree.path.toString.length + 1 ↔
      newLocation.path.toString = workTree.path.toString := by
  have hin := containsText_iff.1 h
  constructor
  · intro hlt
    exact (hin.eq_of_length_le (by omega)).symm
  · intro heq
    rw [heq]
    omega

theorem passedOn_throws_iff : passedOn workTree newLocation = .throws ↔
    newLocation.path.toString = workTree.path.toString := by
  unfold passedOn
  by_cases hc : containsText workTree newLocation = true
  · rw [if_pos hc, ← length_lt_iff hc]
    split
    · next hlt => exact iff_of_true rfl hlt
    · next hlt => exact iff_of_false (by simp) hlt
  · rw [if_neg hc]
    exact iff_of_false (by simp) fun heq => hc (containsText_of_eq heq)

theorem passedOn_finishForMe_iff : passedOn workTree newLocation = .finishForMe ↔
    containsText workTree newLocation = false := by
  unfold passedOn
  dsimp only
  split
  · next hc =>
    refine iff_of_false ?_ (by simp [hc])
    split <;> simp
  · next hc => exact iff_of_true rfl (Bool.not_eq_true _ ▸ hc)

theorem passedOn_of_append {c : UInt16} {t : Text}
    (h : newLocation.path.toString = workTree.path.toString ++ c :: t) :
    passedOn workTree newLocation =
      .path ((ofText none (t ++ [47])).toPortableString ++
        if (ofText none (t ++ [47])).segments = [] then [] else [47]) := by
  have hc : containsText workTree newLocation = true := by
    rw [containsText_iff, h]
    exact (prefix_append ..).isInfix
  have hlen : ¬ newLocation.path.toString.length < workTree.path.toString.length + 1 := by
    rw [h, length_append, length_cons]
    omega
  have hdrop : newLocation.path.toString.drop (workTree.path.toString.length + 1) = t := by
    rw [h, append_cons]
    exact drop_left' (by simp)
  unfold passedOn
  rw [if_pos hc, if_neg hlen, hdrop]

theorem toString_below_nil (h : Below workTree newLocation []) :
    newLocation.path.toString = workTree.path.toString := by
  unfold Path.toString
  rw [h.device, h.leading, h.segments, append_nil]

theorem passedOn_below_iff (hw : workTree.path.segments ≠ []) (h : Below workTree newLocation d) :
    passedOn workTree newLocation = .path (destination d) ↔ d ≠ [] ∧ 58 ∉ join d := by
  by_cases hd : d = []
  · subst hd
    rw [passedOn_throws_iff.2 (toString_below_nil h)]
    simp
  · have hplain : ∀ n ∈ d, Plain n := by
      intro n hn
      apply newLocation.plain
      rw [h.segments]
      exact mem_append_right _ hn
    have htext : newLocation.path.toString = workTree.path.toString ++ 47 :: join d := by
      rw [h.toString_eq hw hd]
      simp
    have hport : (Paths.Path.mk none .none d).toPortableString = escape (join d) := escape_join d
    rw [passedOn_of_append htext, ofText_trailing hd hplain, hport, if_neg hd, destination,
      if_neg hd, Passed.path.injEq, append_left_inj, escape_eq_self_iff]
    exact (and_iff_right hd).symm

section
variable {a : UInt16} {n : Name}

theorem cut_slash (hn : n.text = [a]) (d : List Name) :
    ∃ t r, join (n :: d) = a :: t ∧ t ++ [47] = 47 :: r := by
  cases d with
  | nil => exact ⟨[], [], by rw [join_singleton, hn], rfl⟩
  | cons k d => exact ⟨47 :: join (k :: d), _, by rw [join_cons_cons, hn]; rfl, rfl⟩

theorem portable_relative {l : List Name} (hl : l ≠ []) :
    (Paths.Path.mk none .none l).toPortableString ++ (if l = [] then [] else [47]) =
      escape (join l) ++ [47] := by
  rw [if_neg hl]
  show [] ++ [] ++ _ ++ _ = _
  rw [escape_join]
  rfl

/-- With a character in front, the cut segments are written as they were only by luck. -/
theorem portable_cut_iff (a : UInt16) (m : Name) {d : List Name} (hd : ∀ k ∈ d, Plain k) :
    (Paths.Path.mk none .none (collapse false (m :: d))).toPortableString ++
        (if collapse false (m :: d) = [] then [] else [47]) = a :: join (m :: d) ++ [47] ↔
      ∃ q, a :: join (m :: d) = 58 :: 58 :: q ∧ 58 ∉ q := by
  rcases collapse_cons_relative m hd with heq | ⟨rfl, hne, heq⟩
  · rw [heq, portable_relative (by simp), append_left_inj, escape_eq_cons_iff]
    constructor
    · rintro ⟨rfl, q, hq, hcolon⟩
      exact ⟨q, by rw [hq], hcolon⟩
    · rintro ⟨q, hq, hcolon⟩
      obtain ⟨ha, hq⟩ := List.cons.inj hq
      exact ⟨ha, q, hq, hcolon⟩
  · -- the `.` is lost
    have hdot : join (dot :: d) = 46 :: 47 :: join d := by
      show join ([dot] ++ d) = _
      rw [join_append (by simp) hne]
      rfl
    rw [heq, portable_relative hne, hdot, append_left_inj]
    refine iff_of_false ?_ ?_
    · intro h
      have hall := eq_colon_of_escape (k := [a, 46, 47]) h
      exact absurd (hall 46 (by simp)) (by decide)
    · rintro ⟨q, hq, -⟩
      exact absurd (List.cons.inj (List.cons.inj hq).2).1 (by decide)

end

theorem passedOn_root_iff (hw : workTree.path.segments = []) (h : Below workTree newLocation d) :
    passedOn workTree newLocation = .path (destination d) ↔
      ∃ q, join d = 58 :: 58 :: q ∧ 58 ∉ q := by
  have htext : newLocation.path.toString = workTree.path.toString ++ join d := by
    unfold Path.toString
    rw [h.device, h.leading, h.segments, hw]
    simp
  cases d with
  | nil =>
    rw [passedOn_throws_iff.2 (toString_below_nil h)]
    simp
  | cons n d =>
    obtain ⟨a, m, hn⟩ := exists_cons_of_ne_nil n.nonempty
    have hplain : ∀ k ∈ d, Plain k := by
      intro k hk
      apply newLocation.plain
      rw [h.segments]
      exact mem_append_right _ (mem_cons_of_mem n hk)
    by_cases hm : m = []
    · subst hm
      obtain ⟨t, r, ht, hr⟩ := cut_slash hn d
      have ha : a ≠ 47 := fun ha => n.noSlash (by rw [hn, ha]; exact mem_cons_self)
      rw [ht] at htext
      rw [passedOn_of_append htext, hr, destination, ht, Passed.path.injEq]
      refine iff_of_false ?_ ?_
      · -- the path that is passed on begins with a slash
        intro heq
        have hhead := congrArg List.head? heq
        rw [head?_append, head?_toPortableString_slash] at hhead
        exact ha (Option.some.inj hhead).symm
      · rintro ⟨q, hq, -⟩
        rw [(List.cons.inj hq).2] at hr
        cases hr
    · have hslash : 47 ∉ m := fun hs => n.noSlash (hn ▸ mem_cons_of_mem a hs)
      have hjoin : join (n :: d) = a :: join (⟨m, hm, hslash⟩ :: d) := join_cons_text hn d
      rw [hjoin] at htext
      rw [passedOn_of_append htext, ofText_trailing_relative (by simp), destination,
        hjoin, Passed.path.injEq]
      exact portable_cut_iff a _ hplain

theorem passedOn_iff (h : Below workTree newLocation d) :
    passedOn workTree newLocation = .path (destination d) ↔ Written workTree d := by
  unfold Written
  split
  · next hw => exact passedOn_root_iff hw h
  · next hw => exact passedOn_below_iff hw h

end

/-! ## The index -/

section
variable {workTree source : Location} {index : List (DirCacheEntry M)} {sPath : Text}

theorem moveIndexContent_untracked (h : ∀ e ∈ index, within sPath e.path = false)
    (commit : Commit) (dPath : Text) : moveIndexContent index commit dPath sPath =
      if commit = .noLock then .error .ioException else .ok (.untracked, index) := by
  have hnone : (index.filter fun e => within sPath e.path).length = 0 := by simpa using h
  unfold moveIndexContent
  rw [if_pos hnone]

theorem moveIndexContent_tracked (h : ∃ e ∈ index, within sPath e.path = true) (commit : Commit)
    (dPath : Text) : moveIndexContent index commit dPath sPath =
      if commit = .noLock then .error .ioException
      else if (editsTo index dPath sPath).any fun edit => !isValidPath edit.path then
        .error .illegalArgument
      else match commit with
      | .written => .ok (.success, applyEdits index sPath (editsTo index dPath sPath))
      | .refused => .ok (.failed, index)
      | .noLock | .ioException => .error .ioException := by
  have hsome : ¬ (index.filter fun e => within sPath e.path).length = 0 := by simpa using h
  unfold moveIndexContent
  rw [if_neg hsome]
  rfl

variable {commit : Commit} {dPath : Text}

theorem moveTo_of_path (h : getRepoRelativePath workTree (some source) = some sPath) :
    moveTo workTree source index commit dPath =
      runOf .standardMoveProject [.failed, .standardMoveProject]
        (moveIndexContent index commit dPath sPath) := by
  unfold moveTo
  rw [h]

theorem moveTo_done (h : Tracked workTree source index sPath) {o : Run M}
    (ho : moveTo workTree source index commit dPath = some o) : o.done = true := by
  rw [moveTo_of_path h.1, moveIndexContent_tracked h.2] at ho
  split at ho
  · cases ho
    rfl
  · split at ho
    · cases ho
    · cases commit with
      | _ =>
        cases ho
        rfl

theorem moveTo_finishForMe_iff :
    moveTo workTree source index commit dPath = some ⟨false, [], none⟩ ↔
      commit ≠ .noLock ∧ Untracked workTree source index := by
  constructor
  · intro h
    cases hpath : getRepoRelativePath workTree (some source) with
    | none =>
      unfold moveTo at h
      rw [hpath] at h
      dsimp only at h
      split at h <;> cases h
    | some sPath =>
      by_cases hex : ∃ e ∈ index, within sPath e.path = true
      · cases moveTo_done ⟨hpath, hex⟩ h
      · have hnone : ∀ e ∈ index, within sPath e.path = false := by simpa using hex
        refine ⟨?_, sPath, hpath, hnone⟩
        rintro rfl
        rw [moveTo_of_path hpath] at h
        cases h
  · rintro ⟨hlock, sPath, hpath, hnone⟩
    rw [moveTo_of_path hpath, moveIndexContent_untracked hnone, if_neg hlock]
    rfl

theorem moveTo_written_iff (h : Tracked workTree source index sPath) :
    moveTo workTree source index .written dPath =
        some ⟨true, [.standardMoveProject],
          some (applyEdits index sPath (editsTo index dPath sPath))⟩ ↔
      ∀ edit ∈ editsTo index dPath sPath, isValidPath edit.path = true := by
  rw [moveTo_of_path h.1, moveIndexContent_tracked h.2]
  by_cases hinvalid : ((editsTo index dPath sPath).any fun edit => !isValidPath edit.path) = true
  · rw [if_pos hinvalid]
    refine iff_of_false (by simp [runOf]) ?_
    intro hvalid
    obtain ⟨edit, hedit, hbad⟩ := any_eq_true.1 hinvalid
    rw [hvalid edit hedit] at hbad
    cases hbad
  · rw [if_neg hinvalid]
    refine iff_of_true rfl ?_
    simpa using hinvalid

theorem moveTo_untracked (h : ¬ ∃ sPath, Tracked workTree source index sPath) {o : Run M}
    (ho : moveTo workTree source index commit dPath = some o) :
    o.written = none := by
  revert ho
  fun_cases moveTo workTree source index commit dPath with
  | case1 =>
    rintro ⟨⟩
    rfl
  | case2 => rintro ⟨⟩
  | case3 sPath hpath =>
    have hnone : ∀ e ∈ index, within sPath e.path = false := by
      intro e he
      rw [← Bool.not_eq_true]
      exact fun hw => h ⟨sPath, hpath, e, he, hw⟩
    rw [moveIndexContent_untracked hnone]
    split
    · rintro ⟨⟩
      rfl
    · rintro ⟨⟩
      rfl

end

/-! ## Proof -/

theorem moveProject_eq_passed (workTree source newLocation : Location)
    (index : List (DirCacheEntry M)) (commit : Commit) :
    moveProject true workTree source newLocation index commit =
      match passedOn workTree newLocation with
      | .finishForMe => some ⟨false, [], none⟩
      | .throws => none
      | .path dPath => moveTo workTree source index commit dPath :=
  if_neg (by simp)

section
variable {workTree source newLocation : Location} {index : List (DirCacheEntry M)} {commit : Commit}

theorem moveProject_inside_iff {d : List Name} (hd : Below workTree newLocation d) {sPath : Text}
    (hs : Tracked workTree source index sPath) :
    (passedOn workTree newLocation = .path (destination d) ∧
      (commit = .written → moveProject true workTree source newLocation index commit =
        some ⟨true, [.standardMoveProject],
          some (applyEdits index sPath (editsTo index (destination d) sPath))⟩)) ↔
    (Written workTree d ∧ (commit = .written →
      ∀ edit ∈ editsTo index (destination d) sPath, isValidPath edit.path = true)) := by
  rw [← passedOn_iff hd]
  apply and_congr_right
  intro hpath
  rw [moveProject_eq_passed, hpath]
  constructor
  · rintro h rfl
    exact (moveTo_written_iff hs).1 (h rfl)
  · rintro h rfl
    exact (moveTo_written_iff hs).2 (h rfl)

theorem moveProject_untracked (h : ¬ ∃ sPath, Tracked workTree source index sPath) {o : Run M}
    (ho : moveProject true workTree source newLocation index commit = some o) :
    o.written = none := by
  rw [moveProject_eq_passed] at ho
  cases hp : passedOn workTree newLocation with
  | finishForMe =>
    rw [hp] at ho
    cases ho
    rfl
  | throws =>
    rw [hp] at ho
    cases ho
  | path dPath =>
    rw [hp] at ho
    exact moveTo_untracked h ho

theorem moveProject_finishForMe_iff :
    moveProject true workTree source newLocation index commit = some ⟨false, [], none⟩ ↔
      (containsText workTree newLocation = true →
        newLocation.path.toString ≠ workTree.path.toString ∧ commit ≠ .noLock ∧
          Untracked workTree source index) := by
  rw [moveProject_eq_passed, ← Bool.not_eq_false, ← passedOn_finishForMe_iff, Ne,
    ← passedOn_throws_iff]
  cases hp : passedOn workTree newLocation with
  | finishForMe => simp
  | throws => simp
  | path dPath =>
    rw [moveTo_finishForMe_iff]
    simp

end

end

end Egit.MoveProject
