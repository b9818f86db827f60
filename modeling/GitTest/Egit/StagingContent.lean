import GitTest.Lib.KeyedSet
import Mathlib.Order.Nat

/-!
# The content of the staging tables (StagingViewContentProvider.java)

A provider turns an `IndexDiff` into the entries of its table, sorted by path, with one entry
for each path.  A full update starts from nothing; an incremental one from the old content
less the entries of the changed paths.  Paths are of any linearly ordered type `P`.

For each path the sets of the diff give a state (`stateOf`), and the content after an update
is known from these states.  So updates with the diff of the changed paths keep the content
what a full update would make it (`incremental_eq_full`).  An update with an empty set of
changed paths counts as a full one.
-/

namespace Egit.StagingContent

open KeyedSet

/-! ## Algorithm -/

inductive EntryState
  | added
  | changed
  | removed
  | missing
  | modified
  | partiallyModified
  | untracked
  | conflicting
  deriving DecidableEq, Repr

/-- An entry of a table.  The ghost `source` is the repository of the diff it comes from. -/
structure StagingEntry (R P : Type) where
  repository : R
  source : R
  state : EntryState
  path : P
  deriving DecidableEq, Repr

/-- The sets of JGit's `IndexDiff`, in the order of their iterators. -/
structure IndexDiff (R P : Type) where
  repository : R
  added : List P
  changed : List P
  removed : List P
  missing : List P
  modified : List P
  untracked : List P
  conflicting : List P

structure StagingViewUpdate (R P : Type) where
  repository : Option R
  indexDiff : Option (IndexDiff R P)
  changedResources : Option (List P)

section
variable {R P : Type} [LinearOrder P]

abbrev Nodes (R P : Type) [LinearOrder P] := Keyed (StagingEntry.path : StagingEntry R P → P)

/-- The entries of the diff in the order in which they are added. -/
def entries (isWorkspace : Bool) (repository : R) (indexDiff : IndexDiff R P) :
    List (StagingEntry R P) :=
  if isWorkspace then
    (indexDiff.missing.map fun file => ⟨repository, indexDiff.repository, .missing, file⟩) ++
    (indexDiff.modified.map fun file =>
      if file ∈ indexDiff.changed then
        ⟨repository, indexDiff.repository, .partiallyModified, file⟩
      else ⟨repository, indexDiff.repository, .modified, file⟩) ++
    (indexDiff.untracked.map fun file => ⟨repository, indexDiff.repository, .untracked, file⟩) ++
    indexDiff.conflicting.map fun file => ⟨repository, indexDiff.repository, .conflicting, file⟩
  else
    (indexDiff.added.map fun file => ⟨repository, indexDiff.repository, .added, file⟩) ++
    (indexDiff.changed.map fun file => ⟨repository, indexDiff.repository, .changed, file⟩) ++
    indexDiff.removed.map fun file => ⟨repository, indexDiff.repository, .removed, file⟩

def removeResource (content : List (StagingEntry R P)) (nodes : Nodes R P) (res : P) : Nodes R P :=
  content.foldl (fun nodes entry => if entry.path = res then nodes.erase entry.path else nodes)
    nodes

def removeChanged (content : List (StagingEntry R P)) (nodes : Nodes R P) (changed : List P) :
    Nodes R P :=
  changed.foldl (removeResource content) nodes

def fullNodes (isWorkspace : Bool) (repository : R) (indexDiff : IndexDiff R P) : Nodes R P :=
  Keyed.empty.insertAll (entries isWorkspace repository indexDiff)

def incrementalNodes (isWorkspace : Bool) (repository : R) (indexDiff : IndexDiff R P)
    (old : List (StagingEntry R P)) (changed : List P) : Nodes R P :=
  (removeChanged old (Keyed.empty.insertAll old) changed).insertAll
    (entries isWorkspace repository indexDiff)

/-- `inputChanged`; the content is `none` before the first update.  An incremental update of it
then throws and changes nothing. -/
def inputChanged (isWorkspace : Bool) (content : Option (List (StagingEntry R P)))
    (update : StagingViewUpdate R P) : Option (List (StagingEntry R P)) :=
  match update.repository, update.indexDiff with
  | some repository, some indexDiff =>
    match update.changedResources, content with
    | some (res :: more), some old =>
      some (incrementalNodes isWorkspace repository indexDiff old (res :: more)).toList
    | some (_ :: _), none => none
    | some [], _ | none, _ => some (fullNodes isWorkspace repository indexDiff).toList
  | none, _ | _, none => content

def fullUpdate (repository : R) (indexDiff : IndexDiff R P) : StagingViewUpdate R P :=
  ⟨some repository, some indexDiff, none⟩

/-- JGit's `PathFilterGroup`. -/
def covers (below : P → P → Bool) (changed : List P) (p : P) : Bool :=
  changed.any fun c => decide (p = c) || below p c

/-- The diff with JGit's filter for the paths `changed` and what is below them. -/
def IndexDiff.restrict (below : P → P → Bool) (d : IndexDiff R P) (changed : List P) :
    IndexDiff R P where
  repository := d.repository
  added := d.added.filter (covers below changed)
  changed := d.changed.filter (covers below changed)
  removed := d.removed.filter (covers below changed)
  missing := d.missing.filter (covers below changed)
  modified := d.modified.filter (covers below changed)
  untracked := d.untracked.filter (covers below changed)
  conflicting := d.conflicting.filter (covers below changed)

/-- The update that the resource listener makes for the paths `changed`. -/
def incrementalUpdate (below : P → P → Bool) (repository : R) (d : IndexDiff R P)
    (changed : List P) : StagingViewUpdate R P :=
  ⟨some repository, some (d.restrict below changed), some changed⟩

end

/-! ## States -/

section
variable {R P : Type} [LinearOrder P]

def stateOf (isWorkspace : Bool) (d : IndexDiff R P) (p : P) : Option EntryState :=
  if isWorkspace then
    if p ∈ d.missing then some .missing
    else if p ∈ d.modified then
      if p ∈ d.changed then some .partiallyModified else some .modified
    else if p ∈ d.untracked then some .untracked
    else if p ∈ d.conflicting then some .conflicting
    else none
  else
    if p ∈ d.added then some .added
    else if p ∈ d.changed then some .changed
    else if p ∈ d.removed then some .removed
    else none

structure AgreeOutside (paths : List P) (d d' : IndexDiff R P) : Prop where
  added : ∀ p ∉ paths, p ∈ d.added ↔ p ∈ d'.added
  changed : ∀ p ∉ paths, p ∈ d.changed ↔ p ∈ d'.changed
  removed : ∀ p ∉ paths, p ∈ d.removed ↔ p ∈ d'.removed
  missing : ∀ p ∉ paths, p ∈ d.missing ↔ p ∈ d'.missing
  modified : ∀ p ∉ paths, p ∈ d.modified ↔ p ∈ d'.modified
  untracked : ∀ p ∉ paths, p ∈ d.untracked ↔ p ∈ d'.untracked
  conflicting : ∀ p ∉ paths, p ∈ d.conflicting ↔ p ∈ d'.conflicting

theorem AgreeOutside.stateOf_eq {changed : List P} {d d' : IndexDiff R P}
    (h : AgreeOutside changed d d') {p : P} (hp : p ∉ changed) (isWorkspace : Bool) :
    stateOf isWorkspace d p = stateOf isWorkspace d' p := by
  unfold stateOf
  simp only [h.added p hp, h.changed p hp, h.removed p hp, h.missing p hp, h.modified p hp,
    h.untracked p hp, h.conflicting p hp]

theorem stateOf_restrict (below : P → P → Bool) (isWorkspace : Bool) (d : IndexDiff R P)
    (changed : List P) (p : P) :
    stateOf isWorkspace (d.restrict below changed) p =
      if covers below changed p = true then stateOf isWorkspace d p
      else none := by
  unfold stateOf IndexDiff.restrict
  by_cases hp : covers below changed p = true
  · simp only [List.mem_filter, hp, and_true, if_true]
  · simp [List.mem_filter, hp]

theorem lookup_files (f : P → StagingEntry R P) (hf : ∀ p, (f p).path = p) (files : List P)
    (p : P) :
    lookup StagingEntry.path p (files.map f) = if p ∈ files then some (f p) else none := by
  induction files with
  | nil => rfl
  | cons q files ih =>
    show (if (f q).path = p then some (f q) else lookup StagingEntry.path p (files.map f)) = _
    rw [hf, ih]
    by_cases hq : q = p
    · rw [if_pos hq, if_pos (hq ▸ List.mem_cons_self), hq]
    · rw [if_neg hq]
      simp only [List.mem_cons, Ne.symm hq, false_or]

theorem lookup_entries (isWorkspace : Bool) (repository : R) (d : IndexDiff R P) (p : P) :
    lookup StagingEntry.path p (entries isWorkspace repository d) =
      (stateOf isWorkspace d p).map fun state => ⟨repository, d.repository, state, p⟩ := by
  unfold entries stateOf
  cases isWorkspace with
  | true =>
    simp only [if_true, lookup_append]
    rw [lookup_files _ (fun _ => rfl), lookup_files _ (fun q => by split <;> rfl),
      lookup_files _ (fun _ => rfl), lookup_files _ (fun _ => rfl)]
    by_cases h₁ : p ∈ d.missing
    · simp [h₁]
    · by_cases h₂ : p ∈ d.modified
      · by_cases h₃ : p ∈ d.changed
        · simp [h₁, h₂, h₃]
        · simp [h₁, h₂, h₃]
      · by_cases h₄ : p ∈ d.untracked
        · simp [h₁, h₂, h₄]
        · by_cases h₅ : p ∈ d.conflicting
          · simp [h₁, h₂, h₄, h₅]
          · simp [h₁, h₂, h₄, h₅]
  | false =>
    simp only [Bool.false_eq_true, if_false, lookup_append]
    rw [lookup_files _ (fun _ => rfl), lookup_files _ (fun _ => rfl), lookup_files _ (fun _ => rfl)]
    by_cases h₁ : p ∈ d.added
    · simp [h₁]
    · by_cases h₂ : p ∈ d.changed
      · simp [h₁, h₂]
      · by_cases h₃ : p ∈ d.removed
        · simp [h₁, h₂, h₃]
        · simp [h₁, h₂, h₃]

/-! ## The old content -/

theorem find_removeResource (content : List (StagingEntry R P)) (nodes : Nodes R P) (res p : P) :
    (removeResource content nodes res).find p =
      if p = res ∧ p ∈ content.map StagingEntry.path then none else nodes.find p := by
  unfold removeResource
  induction content generalizing nodes with
  | nil => simp
  | cons entry content ih =>
    rw [List.foldl_cons, ih]
    by_cases hentry : entry.path = res
    · rw [if_pos hentry, Keyed.find_erase]
      by_cases hp : p = res
      · simp [hp, hentry]
      · simp [hp, hentry]
    · rw [if_neg hentry]
      by_cases hp : p = res
      · simp [hp, Ne.symm hentry]
      · simp [hp]

theorem find_removeChanged (content : List (StagingEntry R P)) (nodes : Nodes R P)
    (changed : List P) (p : P) :
    (removeChanged content nodes changed).find p =
      if p ∈ changed ∧ p ∈ content.map StagingEntry.path then none else nodes.find p := by
  unfold removeChanged
  induction changed generalizing nodes with
  | nil => simp
  | cons res changed ih =>
    rw [List.foldl_cons, ih, find_removeResource]
    by_cases hp : p = res ∧ p ∈ content.map StagingEntry.path
    · rw [if_pos hp, ite_self, if_pos ⟨hp.1 ▸ List.mem_cons_self, hp.2⟩]
    · rw [if_neg hp]
      refine if_congr ?_ rfl rfl
      rw [List.mem_cons]
      exact ⟨fun h => ⟨.inr h.1, h.2⟩, fun h => ⟨h.1.resolve_left fun hr => hp ⟨hr, h.2⟩, h.2⟩⟩

theorem find_removeChanged_old (content : List (StagingEntry R P)) (changed : List P) (p : P) :
    (removeChanged content (Keyed.empty.insertAll content) changed).find p =
      if p ∈ changed then none else lookup StagingEntry.path p content := by
  rw [find_removeChanged, Keyed.find_insertAll]
  show (if _ then none else (none : Option _).or _) = _
  rw [Option.none_or]
  by_cases hp : p ∈ changed
  · by_cases hin : p ∈ content.map StagingEntry.path
    · rw [if_pos ⟨hp, hin⟩, if_pos hp]
    · rw [if_neg fun h => hin h.2, if_pos hp]
      exact lookup_eq_none fun e he heq => hin (heq ▸ List.mem_map_of_mem he)
  · rw [if_neg fun h => hp h.1, if_neg hp]

/-! ## Updates -/

theorem find_fullNodes (isWorkspace : Bool) (repository : R) (d : IndexDiff R P) (p : P) :
    (fullNodes isWorkspace repository d).find p =
      (stateOf isWorkspace d p).map fun state => ⟨repository, d.repository, state, p⟩ := by
  unfold fullNodes
  rw [Keyed.find_insertAll, lookup_entries]
  rfl

theorem inputChanged_full (isWorkspace : Bool) (content : Option (List (StagingEntry R P)))
    (repository : R) (d : IndexDiff R P) :
    inputChanged isWorkspace content (fullUpdate repository d) =
      some (fullNodes isWorkspace repository d).toList :=
  rfl

theorem inputChanged_incremental (below : P → P → Bool) (isWorkspace : Bool) (repository : R)
    {d d' : IndexDiff R P} {changed : List P} (hne : changed ≠ [])
    (hrepo : d.repository = d'.repository) (h : AgreeOutside changed d d') :
    inputChanged isWorkspace (some (fullNodes isWorkspace repository d).toList)
        (incrementalUpdate below repository d' changed) =
      some (fullNodes isWorkspace repository d').toList := by
  obtain ⟨res, more, rfl⟩ := List.exists_cons_of_ne_nil hne
  show some (incrementalNodes isWorkspace repository _ _ (res :: more)).toList = _
  congr 2
  refine Keyed.ext_find fun p => ?_
  have hold : lookup StagingEntry.path p (fullNodes isWorkspace repository d).toList =
      (stateOf isWorkspace d p).map fun state => ⟨repository, d.repository, state, p⟩ :=
    find_fullNodes isWorkspace repository d p
  rw [incrementalNodes, Keyed.find_insertAll, find_removeChanged_old, hold, lookup_entries,
    stateOf_restrict, find_fullNodes]
  by_cases hp : p ∈ res :: more
  · -- a changed path: its entry comes from the diff alone
    have hcovered : covers below (res :: more) p = true :=
      List.any_eq_true.2 ⟨p, hp, by simp⟩
    rw [if_pos hp, if_pos hcovered]
    rfl
  · -- another path: the diff says nothing of it, or what the content says already
    rw [if_neg hp, h.stateOf_eq hp, hrepo]
    by_cases hcovered : covers below (res :: more) p = true
    · rw [if_pos hcovered]
      exact Option.or_self
    · rw [if_neg hcovered]
      exact Option.or_none

/-- Each diff agrees with the one before it outside of the changed paths, which are some. -/
def Chain (d : IndexDiff R P) : List (List P × IndexDiff R P) → Prop
  | [] => True
  | (changed, d') :: rest =>
    changed ≠ [] ∧ d.repository = d'.repository ∧ AgreeOutside changed d d' ∧ Chain d' rest

def lastDiff (d : IndexDiff R P) : List (List P × IndexDiff R P) → IndexDiff R P
  | [] => d
  | (_, d') :: rest => lastDiff d' rest

/-- **Incremental updates.**  After a full update and any incremental updates the content of both
tables is that of a full update with the last diff. -/
theorem incremental_eq_full (below : P → P → Bool) (isWorkspace : Bool) (repository : R)
    (content content' : Option (List (StagingEntry R P))) (d : IndexDiff R P)
    (updates : List (List P × IndexDiff R P)) (h : Chain d updates) :
    updates.foldl (fun content u =>
        inputChanged isWorkspace content (incrementalUpdate below repository u.2 u.1))
      (inputChanged isWorkspace content (fullUpdate repository d)) =
      inputChanged isWorkspace content' (fullUpdate repository (lastDiff d updates)) := by
  rw [inputChanged_full, inputChanged_full]
  induction updates generalizing d with
  | nil => rfl
  | cons u updates ih =>
    obtain ⟨changed, d'⟩ := u
    obtain ⟨hne, hrepo, hagree, hrest⟩ := h
    rw [List.foldl_cons, inputChanged_incremental below isWorkspace repository hne hrepo hagree]
    exact ih d' hrest

end

def untrackedDiff (l : List Nat) : IndexDiff Unit Nat := ⟨(), [], [], [], [], [], l, []⟩

theorem incremental_eq_full_once :
    inputChanged true (inputChanged true none (fullUpdate () (untrackedDiff [1, 2])))
        (incrementalUpdate (fun _ _ => false) () (untrackedDiff [3, 1]) [2, 3]) =
      inputChanged true none (fullUpdate () (untrackedDiff [3, 1])) := by
  have hagree : AgreeOutside [2, 3] (untrackedDiff [1, 2]) (untrackedDiff [3, 1]) := by
    refine ⟨fun _ _ => .rfl, fun _ _ => .rfl, fun _ _ => .rfl, fun _ _ => .rfl, fun _ _ => .rfl,
      ?_, fun _ _ => .rfl⟩
    intro p hp
    show p ∈ [1, 2] ↔ p ∈ [3, 1]
    simp only [List.mem_cons, List.not_mem_nil, or_false, not_or] at hp ⊢
    omega
  exact incremental_eq_full (fun _ _ => false) true () none none (untrackedDiff [1, 2])
    [([2, 3], untrackedDiff [3, 1])] ⟨by decide, rfl, hagree, trivial⟩

/-- An update with no changed paths empties the table. -/
theorem empty_update_clears :
    AgreeOutside [] (untrackedDiff [1]) (untrackedDiff [1]) ∧
      inputChanged true (inputChanged true none (fullUpdate () (untrackedDiff [1])))
        (incrementalUpdate (fun _ _ => false) () (untrackedDiff [1]) []) = some [] ∧
      inputChanged true none (fullUpdate () (untrackedDiff [1])) =
        some [⟨(), (), .untracked, 1⟩] :=
  ⟨⟨fun _ _ => .rfl, fun _ _ => .rfl, fun _ _ => .rfl, fun _ _ => .rfl, fun _ _ => .rfl,
    fun _ _ => .rfl, fun _ _ => .rfl⟩, rfl, rfl⟩

end Egit.StagingContent
