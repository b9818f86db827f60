import Mathlib.Data.List.Infix
import Mathlib.Data.List.MinMax
import Mathlib.Data.List.Perm.Basic
import GitTest.Egit.RepositoryMapping

/-!
# Moving a folder or a project in the index (GitMoveDeleteHook.java)

`moveIndexContent` takes the entries below the source path, deletes this tree and edits the path of
each of them below the destination.  The editor of the index applies an edit to every record that
the index has at its path, and to a new record if there is none, which must have a valid path; the
edits of this module copy all but the path.

An index is a list of records with valid paths, with at most one of each stage at a path.

    success → (the records below `s` are below `d`, and the others are as before ↔
      `s` is not the work tree itself, and no destination path has a record already)
      (moveIndexContent_iff)
    `s` is not the work tree itself → success ↔ there are records below `s`, and the index could
      be locked and written  (moveIndexContent_succeeds_iff)
-/

namespace Egit.MoveIndex

open List Paths RepositoryMapping

/-! ## Algorithm -/

structure DirCacheEntry (M : Type) where
  path : Text
  stage : Nat
  /-- Mode, object id, times, size and flags. -/
  data : M
  deriving DecidableEq

/-- A path of the index has no empty part between slashes, and no NUL. -/
def isValidPath (path : Text) : Bool :=
  (path.splitOn 47).all fun c => !c.isEmpty && c.all fun u => u != 0

structure Index (M : Type) where
  entries : List (DirCacheEntry M)
  stages : entries.Pairwise fun e e' => e.path = e'.path → e.stage ≠ e'.stage
  valid : ∀ e ∈ entries, isValidPath e.path = true

section
variable {M : Type}

/-- The records that `getEntriesWithin` returns and `DeleteTree` deletes; the empty path is the one
of the work tree, with all records. -/
def within (sPath path : Text) : Bool := sPath.isEmpty || (sPath ++ [47]).isPrefixOf path

/-- `PathEdit` with a copy of the metadata of `se`. -/
structure PathEdit (M : Type) where
  path : Text
  se : DirCacheEntry M

def copyMetaData (path : Text) (se : DirCacheEntry M) : DirCacheEntry M := { se with path := path }

/-- The records that an edit gives.  It changes a record of the index in place, so that several
edits of its path leave in it what the last of them has copied. -/
def applyEdit (index : List (DirCacheEntry M)) (edits : List (PathEdit M)) (edit : PathEdit M) :
    List (DirCacheEntry M) :=
  match index.filter fun e => e.path = edit.path with
  | [] => [copyMetaData edit.path edit.se]
  | old =>
    let last := (edits.filter fun e => e.path = edit.path).getLastD edit
    old.map fun _ => copyMetaData edit.path last.se

/-- The index after `DeleteTree(sPath)` and the edits; its order is not modelled. -/
def applyEdits (index : List (DirCacheEntry M)) (sPath : Text) (edits : List (PathEdit M)) :
    List (DirCacheEntry M) :=
  (index.filter fun e => !within sPath e.path && !edits.any fun edit => edit.path = e.path) ++
    edits.flatMap (applyEdit index edits)

inductive MoveResult
  | success | failed | untracked
  deriving DecidableEq, Repr

inductive Thrown
  | ioException | illegalArgument
  deriving DecidableEq, Repr

/-- How the lock and the commit of the editor end. -/
inductive Commit
  | noLock | written | refused | ioException
  deriving DecidableEq

/-- The editor makes a new record for a path that the index does not have, and an invalid path is
none of the index. -/
def moveIndexContent (index : List (DirCacheEntry M)) (commit : Commit) (dPath sPath : Text) :
    Except Thrown (MoveResult × List (DirCacheEntry M)) :=
  if commit = .noLock then .error .ioException
  else
    let sEnt := index.filter fun e => within sPath e.path
    if sEnt.length = 0 then .ok (.untracked, index)
    else
      let sPathLen := sPath.length + 1
      let edits := sEnt.map fun se => PathEdit.mk (dPath ++ se.path.drop sPathLen) se
      if edits.any fun edit => !isValidPath edit.path then .error .illegalArgument
      else match commit with
      | .written => .ok (.success, applyEdits index sPath edits)
      | .refused => .ok (.failed, index)
      | .noLock | .ioException => .error .ioException

/-! ## What it is for -/

def rest (s : List Name) (path : Text) : Text :=
  if s = [] then path else path.drop ((join s).length + 1)

/-- The path below `d` of a record that was below `s`. -/
def target (s d : List Name) (path : Text) : Text := join d ++ 47 :: rest s path

/-- The records below `s` are below `d`, with the same stage and data. -/
def renamed (s d : List Name) (index : List (DirCacheEntry M)) : List (DirCacheEntry M) :=
  (index.filter fun e => !within (join s) e.path) ++
    (index.filter fun e => within (join s) e.path).map fun e => copyMetaData (target s d e.path) e

/-- No record is where one will be moved to. -/
def Vacant (s d : List Name) (index : List (DirCacheEntry M)) : Prop :=
  ∀ e ∈ index, within (join s) e.path = true → ∀ o ∈ index, o.path ≠ target s d e.path

/-! ## Proof -/

variable {path : Text} {d s : List Name} {commit : Commit}

theorem ne_nil_of_isValidPath (h : isValidPath path = true) : path ≠ [] := by
  rintro rfl
  simp [isValidPath] at h

theorem isValidPath_append {a b : Text} :
    isValidPath (a ++ 47 :: b) = (isValidPath a && isValidPath b) := by
  unfold isValidPath
  rw [splitOn_append_cons_self, all_append]

theorem isValidPath_join (hd : d ≠ []) (h : ∀ n ∈ d, (0 : UInt16) ∉ n.text) :
    isValidPath (join d) = true := by
  unfold isValidPath
  rw [splitOn_join hd, all_eq_true]
  intro c hc
  obtain ⟨n, hn, rfl⟩ := mem_map.1 hc
  have hnul : ∀ u ∈ n.text, u ≠ 0 := by
    rintro u hu rfl
    exact h n hn hu
  simpa [n.nonempty] using hnul

theorem within_iff (hs : s ≠ []) :
    within (join s) path = true ↔ ∃ p, path = join s ++ 47 :: p := by
  have hne : (join s).isEmpty = false := by simpa using join_ne_nil hs
  rw [within, hne, Bool.false_or, isPrefixOf_iff_prefix]
  constructor
  · rintro ⟨p, rfl⟩
    exact ⟨p, by simp⟩
  · rintro ⟨p, rfl⟩
    exact ⟨p, by simp⟩

theorem within_target (hs : s ≠ []) (hsd : ¬ s <+: d) (hds : ¬ d <+: s) (path : Text) :
    within (join s) (target s d path) = false := by
  rw [← Bool.not_eq_true, within_iff hs]
  rintro ⟨p, hp⟩
  rcases prefix_or_prefix hp with h | h
  · exact hds h
  · exact hsd h

theorem rest_append (hs : s ≠ []) (q : Text) : rest s (join s ++ 47 :: q) = q := by
  rw [rest, if_neg hs, append_cons]
  exact drop_left' (by simp)

theorem target_inj (hs : s ≠ []) {p p' : Text} (hp : within (join s) p = true)
    (hp' : within (join s) p' = true) (h : target s d p = target s d p') : p = p' := by
  obtain ⟨q, rfl⟩ := (within_iff hs).1 hp
  obtain ⟨q', rfl⟩ := (within_iff hs).1 hp'
  have := append_cancel_left h
  rw [rest_append hs, rest_append hs, List.cons.injEq] at this
  rw [this.2]

theorem isValidPath_target (hs : s ≠ []) (hd : d ≠ []) (hnul : ∀ n ∈ d, (0 : UInt16) ∉ n.text)
    (hw : within (join s) path = true) (h : isValidPath path = true) :
    isValidPath (target s d path) = true := by
  obtain ⟨q, rfl⟩ := (within_iff hs).1 hw
  rw [isValidPath_append, Bool.and_eq_true] at h
  rw [target, rest_append hs, isValidPath_append, isValidPath_join hd hnul, h.2]
  rfl

/-- The edits of `moveIndexContent`, for a source that is not the work tree. -/
def editsOf (s d : List Name) (index : List (DirCacheEntry M)) : List (PathEdit M) :=
  (index.filter fun e => within (join s) e.path).map fun se => PathEdit.mk (target s d se.path) se

theorem moveIndexContent_edits {index index' : List (DirCacheEntry M)} {dPath sPath : Text}
    (h : moveIndexContent index commit dPath sPath = .ok (.success, index')) :
    index' = applyEdits index sPath ((index.filter fun e => within sPath e.path).map fun se =>
      PathEdit.mk (dPath ++ se.path.drop (sPath.length + 1)) se) := by
  revert h
  fun_cases moveIndexContent index commit dPath sPath with
  | case4 =>
    rintro ⟨⟩
    rfl
  | _ => rintro ⟨⟩

theorem edit_path (hs : s ≠ []) (d : List Name) (path : Text) :
    join d ++ [47] ++ path.drop ((join s).length + 1) = target s d path := by
  rw [target, rest, if_neg hs]
  simp

/-- Below a folder the editor takes every edit. -/
theorem moveIndexContent_succeeds_iff {index : Index M} (hs : s ≠ []) (hd : d ≠ [])
    (hnul : ∀ n ∈ d, (0 : UInt16) ∉ n.text) :
    (∃ index', moveIndexContent index.entries commit (join d ++ [47]) (join s) =
        .ok (.success, index')) ↔
      commit = .written ∧ ∃ e ∈ index.entries, within (join s) e.path = true := by
  have hvalid : ¬ ((editsOf s d index.entries).any fun edit => !isValidPath edit.path) = true := by
    rw [Bool.not_eq_true, any_eq_false]
    intro edit hedit
    obtain ⟨e, he, rfl⟩ := mem_map.1 hedit
    obtain ⟨he, hw⟩ := mem_filter.1 he
    simp [isValidPath_target hs hd hnul hw (index.valid e he)]
  have hnone : (index.entries.filter fun e => within (join s) e.path).length = 0 ↔
      ¬ ∃ e ∈ index.entries, within (join s) e.path = true := by
    simp
  unfold editsOf at hvalid
  unfold moveIndexContent
  simp only [edit_path hs, if_neg hvalid]
  by_cases hsome : ∃ e ∈ index.entries, within (join s) e.path = true
  · have hlen : ¬ (index.entries.filter fun e => within (join s) e.path).length = 0 := by
      rw [hnone]
      exact not_not.2 hsome
    simp only [if_neg hlen]
    cases commit with
    | noLock | refused | ioException => simp
    | written => simpa using hsome
  · simp only [if_pos (hnone.2 hsome)]
    cases commit with
    | _ => simp [hsome]

theorem moveIndexContent_success {index index' : List (DirCacheEntry M)} (hs : s ≠ [])
    (h : moveIndexContent index commit (join d ++ [47]) (join s) = .ok (.success, index')) :
    index' = applyEdits index (join s) (editsOf s d index) := by
  rw [moveIndexContent_edits h]
  simp only [edit_path hs]
  rfl

section
variable {index : List (DirCacheEntry M)} {s d : List Name}

variable {edit : PathEdit M} {edits : List (PathEdit M)}

theorem mem_editsOf : edit ∈ editsOf s d index ↔
    ∃ e ∈ index, within (join s) e.path = true ∧ ⟨target s d e.path, e⟩ = edit := by
  simp only [editsOf, mem_map, mem_filter, and_assoc]

/-- Without records at the destination paths each edit gives one new record. -/
theorem applyEdits_vacant (hv : Vacant s d index) :
    applyEdits index (join s) (editsOf s d index) = renamed s d index := by
  have hkept : ∀ o ∈ index, ((editsOf s d index).any fun edit => edit.path = o.path) = false := by
    intro o ho
    rw [any_eq_false]
    intro edit hedit
    obtain ⟨e, he, hw, rfl⟩ := mem_editsOf.1 hedit
    simpa using Ne.symm (hv e he hw o ho)
  have hedit : ∀ edit ∈ editsOf s d index,
      applyEdit index (editsOf s d index) edit = [copyMetaData edit.path edit.se] := by
    intro edit hedit
    obtain ⟨e, he, hw, rfl⟩ := mem_editsOf.1 hedit
    have hnone : index.filter (fun o => o.path = target s d e.path) = [] := by
      rw [filter_eq_nil_iff]
      intro o ho
      simpa using hv e he hw o ho
    simp only [applyEdit, hnone]
  unfold applyEdits
  congr 1
  · apply filter_congr
    intro o ho
    rw [hkept o ho]
    simp
  · rw [flatMap_congr hedit, ← map_eq_flatMap, editsOf, map_map]
    rfl

theorem path_of_mem_applyEdit {e : DirCacheEntry M} (h : e ∈ applyEdit index edits edit) :
    e.path = edit.path := by
  unfold applyEdit at h
  split at h
  · rw [mem_singleton] at h
    rw [h]
    rfl
  · obtain ⟨_, -, rfl⟩ := mem_map.1 h
    rfl

theorem filter_applyEdits {q sPath : Text} (hq : ∃ edit ∈ edits, edit.path = q) :
    (applyEdits index sPath edits).filter (fun e => e.path = q) =
      (edits.filter fun edit => edit.path = q).flatMap (applyEdit index edits) := by
  obtain ⟨edit, hedit, hpath⟩ := hq
  have hkept : ((index.filter fun e => !within sPath e.path &&
      !edits.any fun edit => edit.path = e.path).filter fun e => e.path = q) = [] := by
    rw [filter_filter, filter_eq_nil_iff]
    intro e _ he
    simp only [Bool.and_eq_true, decide_eq_true_eq, Bool.not_eq_true', any_eq_false] at he
    exact he.2.2 edit hedit (hpath.trans he.1.symm)
  have hedits : ∀ l : List (PathEdit M),
      (l.flatMap (applyEdit index edits)).filter (fun e => e.path = q) =
        (l.filter fun edit => edit.path = q).flatMap (applyEdit index edits) := by
    intro l
    induction l with
    | nil => rfl
    | cons edit l ih =>
      rw [flatMap_cons, filter_append, ih]
      by_cases hp : edit.path = q
      · have hall : (applyEdit index edits edit).filter (fun e => e.path = q) =
            applyEdit index edits edit := by
          rw [filter_eq_self]
          intro e he
          simpa [path_of_mem_applyEdit he] using hp
        simp [hp, hall]
      · have hnone : (applyEdit index edits edit).filter (fun e => e.path = q) = [] := by
          rw [filter_eq_nil_iff]
          intro e he
          simpa [path_of_mem_applyEdit he] using hp
        simp [hp, hnone]
  rw [applyEdits, filter_append, hkept, nil_append, hedits]

/-- Edits of a path that has records: as many as there are, all with what the last edit copies. -/
theorem applyEdit_occupied {q : Text} {o : DirCacheEntry M} (ho : o ∈ index) (hq : o.path = q)
    (hedit : edit ∈ edits) (hpath : edit.path = q) : ∃ x, ∀ edit' ∈ edits, edit'.path = q →
      applyEdit index edits edit' = (index.filter fun e => e.path = q).map fun _ => x := by
  have hne : (edits.filter fun e => e.path = q) ≠ [] :=
    ne_nil_of_mem (mem_filter.2 ⟨hedit, by simpa using hpath⟩)
  obtain ⟨l, z, hz⟩ := (eq_nil_or_concat' _).resolve_left hne
  refine ⟨copyMetaData q z.se, ?_⟩
  rintro edit' _ rfl
  unfold applyEdit
  split
  · next hnil =>
    rw [filter_eq_nil_iff] at hnil
    exact absurd (by simpa using hq) (hnil o ho)
  · rw [hz]
    simp

end

theorem length_le_one {l : List (DirCacheEntry M)} {k : Nat}
    (h : l.Pairwise fun e e' => e.path = e'.path → e.stage ≠ e'.stage)
    (hpath : ∀ e ∈ l, ∀ e' ∈ l, e.path = e'.path) (hk : ∀ e ∈ l, e.stage = k) : l.length ≤ 1 := by
  match l with
  | [] => exact Nat.zero_le 1
  | [_] => exact Nat.le_refl 1
  | a :: b :: l =>
    have hab := (pairwise_cons.1 h).1 b mem_cons_self (hpath a (by simp) b (by simp))
    rw [hk a (by simp), hk b (by simp)] at hab
    exact absurd rfl hab

theorem exists_longest {l : List (DirCacheEntry M)} (h : l ≠ []) :
    ∃ e ∈ l, ∀ e' ∈ l, e'.path.length ≤ e.path.length := by
  cases hm : l.argmax fun e => e.path.length with
  | none => exact absurd (argmax_eq_none.1 hm) h
  | some e =>
    refine ⟨e, argmax_mem hm, fun e' he' => ?_⟩
    exact le_of_mem_argmax (f := fun e => e.path.length) he' hm

section
variable {s d : List Name}

theorem filter_renamed {index : List (DirCacheEntry M)} {q : Text}
    (hq : within (join s) q = false) : (renamed s d index).filter (fun e => e.path = q) =
      (index.filter fun e => e.path = q) ++
        ((index.filter fun e => within (join s) e.path).filter fun e => target s d e.path = q).map
          fun e => copyMetaData (target s d e.path) e := by
  unfold renamed
  rw [filter_append, filter_map]
  congr 1
  rw [filter_filter]
  apply filter_congr
  intro e _
  by_cases he : e.path = q
  · simp [he, hq]
  · simp [he]

def coming (s d : List Name) (index : List (DirCacheEntry M)) (q : Text) : List (DirCacheEntry M) :=
  (index.filter fun e => within (join s) e.path).filter fun e => target s d e.path = q

/-- All edits of a path that has records give copies of one record. -/
theorem filter_occupied {index : List (DirCacheEntry M)} {q : Text} {o e : DirCacheEntry M}
    (ho : o ∈ index) (hoq : o.path = q) (he : e ∈ coming s d index q) :
    ∃ x, (applyEdits index (join s) (editsOf s d index)).filter (fun e => e.path = q) =
      (coming s d index q).flatMap fun _ => (index.filter fun e => e.path = q).map fun _ => x := by
  have hcoming : (editsOf s d index).filter (fun edit => edit.path = q) =
      (coming s d index q).map fun e => ⟨target s d e.path, e⟩ := by
    rw [editsOf, filter_map]
    rfl
  obtain ⟨edit, hedit, hpath⟩ : ∃ edit ∈ editsOf s d index, edit.path = q := by
    have hmem := mem_map_of_mem (f := fun e => PathEdit.mk (target s d e.path) e) he
    rw [← hcoming, mem_filter, decide_eq_true_eq] at hmem
    exact ⟨_, hmem⟩
  obtain ⟨x, hx⟩ := applyEdit_occupied ho hoq hedit hpath
  refine ⟨x, ?_⟩
  have hall : ∀ edit ∈ (editsOf s d index).filter (fun edit => edit.path = q),
      applyEdit index (editsOf s d index) edit =
        (index.filter fun e => e.path = q).map fun _ => x := by
    intro edit hmem
    rw [mem_filter, decide_eq_true_eq] at hmem
    exact hx edit hmem.1 hmem.2
  rw [filter_applyEdits ⟨edit, hedit, hpath⟩, flatMap_congr hall, hcoming, flatMap_map]

/-- A record at a destination path is lost, or doubled. -/
theorem vacant_of_perm {index : Index M} (hs : s ≠ []) (hsd : ¬ s <+: d) (hds : ¬ d <+: s)
    (h : (applyEdits index.entries (join s) (editsOf s d index.entries)).Perm
      (renamed s d index.entries)) : Vacant s d index.entries := by
  intro e he hw o ho hcol
  generalize hq : target s d e.path = q at hcol
  have hmem : e ∈ coming s d index.entries q := by simp [coming, he, hw, hq]
  obtain ⟨x, hx⟩ := filter_occupied ho hcol hmem
  have hperm := h.filter fun e => decide (e.path = q)
  rw [hx, filter_renamed (hq ▸ within_target hs hsd hds e.path)] at hperm
  change List.Perm _ (_ ++ (coming s d index.entries q).map _) at hperm
  -- so all records that should be at `q` are the same one
  have hsame : ∀ y ∈ (index.entries.filter fun e => decide (e.path = q)) ++
      (coming s d index.entries q).map fun e => copyMetaData (target s d e.path) e, y = x := by
    intro y hy
    obtain ⟨_, -, hy⟩ := mem_flatMap.1 (hperm.mem_iff.2 hy)
    obtain ⟨_, -, rfl⟩ := mem_map.1 hy
    rfl
  have hthere : (index.entries.filter fun e => decide (e.path = q)).length ≤ 1 := by
    refine length_le_one (k := x.stage) (index.stages.filter _) ?_ ?_
    · intro a ha b hb
      rw [mem_filter, decide_eq_true_eq] at ha hb
      rw [ha.2, hb.2]
    · intro a ha
      rw [hsame a (mem_append_left _ ha)]
  have hcoming : (coming s d index.entries q).length ≤ 1 := by
    refine length_le_one (k := x.stage) ((index.stages.filter _).filter _) ?_ ?_
    · intro a ha b hb
      simp only [coming, mem_filter, decide_eq_true_eq] at ha hb
      exact target_inj hs ha.1.2 hb.1.2 (ha.2.trans hb.2.symm)
    · intro a ha
      rw [← hsame (copyMetaData (target s d a.path) a)
        (mem_append_right _ (mem_map.2 ⟨a, ha, rfl⟩))]
      rfl
  have hthere0 : 0 < (index.entries.filter fun e => decide (e.path = q)).length :=
    length_pos_of_mem (mem_filter.2 ⟨ho, by simpa using hcol⟩)
  have hcoming0 := length_pos_of_mem hmem
  have h1 : (coming s d index.entries q).length = 1 := by omega
  have h2 : (index.entries.filter fun e => decide (e.path = q)).length = 1 := by omega
  -- one of each should be there, but only one copy is
  have hlen := hperm.length_eq
  simp [h1, h2] at hlen

/-- Moved from the work tree itself, a longest path loses its first character. -/
theorem not_perm_of_root {index : Index M} {commit : Commit} {index' : List (DirCacheEntry M)}
    (h : moveIndexContent index.entries commit (join d ++ [47]) (join []) =
      .ok (.success, index')) :
    ¬ index'.Perm (renamed [] d index.entries) := by
  have hall : index.entries.filter (fun e => within (join []) e.path) = index.entries := by
    simp [within]
  have hedits := moveIndexContent_edits h
  rw [hall] at hedits
  subst hedits
  have hne : index.entries ≠ [] := by
    rintro hnil
    unfold moveIndexContent at h
    rw [hnil] at h
    split at h <;> cases h
  intro hperm
  obtain ⟨e, he, hmax⟩ := exists_longest hne
  have hmem : copyMetaData (target [] d e.path) e ∈ renamed [] d index.entries := by
    rw [renamed, hall]
    exact mem_append_right _ (mem_map.2 ⟨e, he, rfl⟩)
  have hmem' := hperm.mem_iff.2 hmem
  rw [applyEdits, mem_append] at hmem'
  rcases hmem' with hkept | hedited
  · simp [within] at hkept
  · obtain ⟨edit, hedit, hy⟩ := mem_flatMap.1 hedited
    obtain ⟨e', he', rfl⟩ := mem_map.1 hedit
    have hlen := congrArg List.length (path_of_mem_applyEdit hy)
    have hle := hmax e' he'
    have hpos := length_pos_iff.2 (ne_nil_of_isValidPath (index.valid e he))
    simp [copyMetaData, target, rest] at hlen
    omega

end

/-! ## Top theorems -/

/-- **Moving the index.**  When `moveIndexContent` succeeds, the records below `s` are below `d` and
the others are as before, if and only if `s` is not the work tree itself and no destination path had
a record. -/
theorem moveIndexContent_iff {index : Index M} {commit : Commit} {s d : List Name}
    {index' : List (DirCacheEntry M)} (hapart : s ≠ [] → ¬ s <+: d ∧ ¬ d <+: s)
    (h : moveIndexContent index.entries commit (join d ++ [47]) (join s) =
      .ok (.success, index')) :
    index'.Perm (renamed s d index.entries) ↔ s ≠ [] ∧ Vacant s d index.entries := by
  by_cases hs : s = []
  · subst hs
    simp [not_perm_of_root h]
  · obtain ⟨hsd, hds⟩ := hapart hs
    rw [moveIndexContent_success hs h]
    constructor
    · intro hperm
      exact ⟨hs, vacant_of_perm hs hsd hds hperm⟩
    · rintro ⟨-, hv⟩
      rw [applyEdits_vacant hv]

end

def oneRecord (path : Text) (h : isValidPath path = true) : Index Unit :=
  ⟨[⟨path, 0, ()⟩], by simp, by simpa using h⟩

/-- The record `w`, and a conflict at `x/y`. -/
def conflicted : Index Unit where
  entries := [⟨[119], 0, ()⟩, ⟨[120, 47, 121], 1, ()⟩, ⟨[120, 47, 121], 2, ()⟩]
  stages := by simp
  valid := by decide

/-- The folder `x` with the conflict is moved to `z`. -/
theorem moveIndexContent_iff_folder :
    let x : Name := ⟨[120], by decide, by decide⟩
    let z : Name := ⟨[122], by decide, by decide⟩
    ∃ index', moveIndexContent conflicted.entries .written (join [z] ++ [47]) (join [x]) =
        .ok (.success, index') ∧ index'.Perm (renamed [x] [z] conflicted.entries) := by
  intro x z
  have h : moveIndexContent conflicted.entries .written (join [z] ++ [47]) (join [x]) =
      .ok (.success, [⟨[119], 0, ()⟩, ⟨[122, 47, 121], 1, ()⟩, ⟨[122, 47, 121], 2, ()⟩]) := by
    decide
  have hapart : [x] ≠ [] → ¬ [x] <+: [z] ∧ ¬ [z] <+: [x] := by decide
  have hvacant : Vacant [x] [z] conflicted.entries := by
    unfold Vacant
    decide
  exact ⟨_, h, (moveIndexContent_iff hapart h).2 ⟨by simp, hvacant⟩⟩

/-- A project at the work tree is moved to `z`: the record `xy` gets the path `z/y`. -/
theorem root_name_cut :
    let z : Name := ⟨[122], by decide, by decide⟩
    let index := oneRecord [120, 121] (by decide)
    moveIndexContent index.entries .written (join [z] ++ [47]) (join []) =
        .ok (.success, [⟨[122, 47, 121], 0, ()⟩]) ∧
      renamed [] [z] index.entries = [⟨[122, 47, 120, 121], 0, ()⟩] := by
  decide

end Egit.MoveIndex
