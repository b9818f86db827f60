import GitTest.Egit.StagingView

/-!
# The repositories of the staging tables

An entry carries as its label the repository of the update, and as the ghost `source` the
repository of the diff.  A table is unmixed if both are one repository for all of its entries.

A runnable reads `currentRepository` for the label of a diff that may have been made before it
changed, and the update of a notification may be merged into the entries of another repository.
`Fits` says of an update and the content it meets that neither happens.  From unmixed tables a
step leads to unmixed tables exactly if what it shows fits (`unmixed_step_iff`), so that runs
whose updates all fit never mix (`never_mixes`).
-/

namespace Egit.StagingView

open CommitMessage KeyedSet Machines Option StagingContent
open HardWrap (Text LineDelimiter)

/-! ## What fits -/

section
variable {R P : Type} [LinearOrder P]

/-- Every entry is labelled with its source, and all of them alike. -/
def Unmixed (content : List (StagingEntry R P)) : Prop :=
  ∀ e ∈ content, e.repository = e.source ∧ ∀ e' ∈ content, e.repository = e'.repository

def shown (isWorkspace : Bool) (d : IndexDiff R P) : List P :=
  if isWorkspace then d.missing ++ d.modified ++ d.untracked ++ d.conflicting
  else d.added ++ d.changed ++ d.removed

/-- If a diff adds an entry to those that are kept, its label is the repository of the diff and
the label of all of them. -/
def FitsOver (isWorkspace : Bool) (repository : R) (d : IndexDiff R P)
    (kept : List (StagingEntry R P)) : Prop :=
  ∀ p ∈ shown isWorkspace d, (∀ e ∈ kept, e.path ≠ p) →
    repository = d.repository ∧ ∀ e ∈ kept, e.repository = repository

/-- The entries of the old content that an incremental update keeps. -/
def unchanged (content : List (StagingEntry R P)) (changed : List P) : List (StagingEntry R P) :=
  content.filter fun e => !changed.any fun c => decide (e.path = c)

/-- The entries that an update keeps; `none` if it throws. -/
def kept (content : Option (List (StagingEntry R P))) (changedResources : Option (List P)) :
    Option (List (StagingEntry R P)) :=
  match changedResources, content with
  | some (res :: more), some old => some (unchanged old (res :: more))
  | some (_ :: _), none => none
  | some [], _ | none, _ => some []

def Fits (isWorkspace : Bool) (content : Option (List (StagingEntry R P)))
    (update : StagingViewUpdate R P) : Prop :=
  ∀ repository ∈ update.repository, ∀ indexDiff ∈ update.indexDiff,
    ∀ l ∈ kept content update.changedResources, FitsOver isWorkspace repository indexDiff l

theorem mem_shown_iff (isWorkspace : Bool) (d : IndexDiff R P) (p : P) :
    p ∈ shown isWorkspace d ↔ ∃ state, stateOf isWorkspace d p = some state := by
  rw [← isSome_iff_exists]
  unfold shown stateOf
  cases isWorkspace with
  | true =>
    grind
  | false =>
    grind

theorem lookup_unchanged (content : List (StagingEntry R P)) (changed : List P) (p : P) :
    lookup StagingEntry.path p (unchanged content changed) =
      if p ∈ changed then none else lookup StagingEntry.path p content := by
  unfold unchanged
  induction content with
  | nil => exact (ite_self _).symm
  | cons e content ih =>
    by_cases he : e.path ∈ changed
    · rw [List.filter_cons_of_neg (by simpa using he), ih]
      by_cases hp : p ∈ changed
      · rw [if_pos hp, if_pos hp]
      · have hne : e.path ≠ p := by
          rintro rfl
          exact hp he
        rw [if_neg hp, if_neg hp, lookup, if_neg hne]
    · have hne : ∀ c ∈ changed, ¬ e.path = c := by
        rintro c hc rfl
        exact he hc
      rw [List.filter_cons_of_pos (by simpa using hne)]
      show (if e.path = p then some e else lookup StagingEntry.path p _) =
        if p ∈ changed then none else if e.path = p then some e else _
      rw [ih]
      by_cases hp : e.path = p
      · rw [if_pos hp, if_neg (hp ▸ he), if_pos hp]
      · rw [if_neg hp, if_neg hp]

/-- An update that keeps `kept` and adds the entries of its diff. -/
theorem unmixed_iff_fitsOver {isWorkspace : Bool} {repository : R} {d : IndexDiff R P}
    {kept : List (StagingEntry R P)} {nodes : Nodes R P} (hkept : Unmixed kept)
    (hfind : ∀ p, nodes.find p = (lookup StagingEntry.path p kept).or
      (lookup StagingEntry.path p (entries isWorkspace repository d))) :
    Unmixed nodes.toList ↔ FitsOver isWorkspace repository d kept := by
  simp only [lookup_entries] at hfind
  constructor
  · intro hnew p hp hfree
    obtain ⟨state, hstate⟩ := (mem_shown_iff isWorkspace d p).1 hp
    have hadded : ⟨repository, d.repository, state, p⟩ ∈ nodes.toList := by
      rw [Keyed.mem_iff_find, hfind, lookup_eq_none hfree, hstate]
      rfl
    refine ⟨(hnew _ hadded).1, ?_⟩
    intro e he
    -- some entry with the path of `e` is kept, and it has the label of `e`
    have hsome : lookup StagingEntry.path e.path kept ≠ none := lookup_ne_none he
    obtain ⟨e', hlook⟩ := ne_none_iff_exists'.1 hsome
    obtain ⟨he', hpath⟩ := lookup_eq_some hlook
    have hin : e' ∈ nodes.toList := by
      rw [Keyed.mem_iff_find, hpath, hfind, hlook]
      rfl
    rw [(hkept e he).2 e' he']
    exact (hnew e' hin).2 _ hadded
  · intro hfits
    have hcases : ∀ e ∈ nodes.toList, e ∈ kept ∨ e.repository = repository ∧
        e.source = d.repository ∧ repository = d.repository ∧
        ∀ k ∈ kept, k.repository = repository := by
      intro e he
      rw [Keyed.mem_iff_find, hfind] at he
      rcases or_eq_some_iff.1 he with h | ⟨hnone, h⟩
      · exact .inl (lookup_eq_some h).1
      · obtain ⟨state, hstate, heq⟩ := map_eq_some_iff.1 h
        refine .inr ⟨(congrArg StagingEntry.repository heq).symm,
          (congrArg StagingEntry.source heq).symm,
          hfits e.path ((mem_shown_iff ..).2 ⟨state, hstate⟩) ?_⟩
        intro k hk hpath
        exact lookup_ne_none hk (hpath ▸ hnone)
    intro e he
    rcases hcases e he with hk | ⟨hrepo, hsource, heq, hall⟩
    · refine ⟨(hkept e hk).1, ?_⟩
      intro e' he'
      rcases hcases e' he' with hk' | ⟨hrepo, -, -, hall⟩
      · exact (hkept e hk).2 e' hk'
      · rw [hrepo, hall e hk]
    · refine ⟨by rw [hrepo, hsource, heq], ?_⟩
      intro e' he'
      rcases hcases e' he' with hk' | ⟨hrepo', -, -, -⟩
      · rw [hrepo, hall e' hk']
      · rw [hrepo, hrepo']

theorem unmixed_inputChanged_iff (isWorkspace : Bool) (content : Option (List (StagingEntry R P)))
    (update : StagingViewUpdate R P) (h : ∀ l ∈ content, Unmixed l) :
    (∀ l ∈ inputChanged isWorkspace content update, Unmixed l) ↔
      Fits isWorkspace content update := by
  obtain ⟨repository, indexDiff, changedResources⟩ := update
  unfold Fits
  cases repository with
  | none => exact ⟨fun _ => nofun, fun _ => h⟩
  | some r =>
    cases indexDiff with
    | none => exact ⟨fun _ _ _ => nofun, fun _ => h⟩
    | some d =>
      simp only [mem_some_iff, forall_eq']
      have hfull : (∀ l ∈ some (fullNodes isWorkspace r d).toList, Unmixed l) ↔
          ∀ l ∈ some [], FitsOver isWorkspace r d l := by
        simp only [mem_some_iff, forall_eq']
        refine unmixed_iff_fitsOver nofun fun p => ?_
        rw [fullNodes, Keyed.find_insertAll]
        rfl
      match changedResources, content with
      | none, _ => exact hfull
      | some [], _ => exact hfull
      | some (_ :: _), none => exact ⟨fun _ => nofun, fun _ => nofun⟩
      | some (res :: more), some old =>
        have hold : Unmixed (unchanged old (res :: more)) := by
          intro e he
          obtain ⟨hsame, hall⟩ := h old rfl e (List.mem_of_mem_filter he)
          exact ⟨hsame, fun e' he' => hall e' (List.mem_of_mem_filter he')⟩
        show (∀ l ∈ some (incrementalNodes isWorkspace r d old (res :: more)).toList, Unmixed l) ↔
          ∀ l ∈ some (unchanged old (res :: more)), FitsOver isWorkspace r d l
        simp only [mem_some_iff, forall_eq']
        refine unmixed_iff_fitsOver hold fun p => ?_
        rw [incrementalNodes, Keyed.find_insertAll, find_removeChanged_old, lookup_unchanged]

end

/-! ## Runs -/

section
variable {R P : Type} [DecidableEq R] [LinearOrder P]

def State.Unmixed (s : State R P) : Prop :=
  (∀ l ∈ s.unstaged, StagingView.Unmixed l) ∧ ∀ l ∈ s.staged, StagingView.Unmixed l

def State.update (s : State R P) : Action R P → Option (StagingViewUpdate R P)
  | .complete i =>
    match s.reloads[i]? with
    | some ⟨_, _, .done results⟩ => some ⟨s.currentRepository, results, none⟩
    | _ => none
  | .apply k =>
    match s.notifications[k]? with
    | some (.posted update) => some update
    | _ => none
  | _ => none

def Fitting (s : State R P) (a : Action R P) : Prop :=
  ∀ u ∈ s.update a, Fits true s.unstaged u ∧ Fits false s.staged u

instance (isWorkspace : Bool) (repository : R) (d : IndexDiff R P)
    (kept : List (StagingEntry R P)) : Decidable (FitsOver isWorkspace repository d kept) :=
  inferInstanceAs (Decidable (∀ p ∈ shown isWorkspace d, _))

instance (isWorkspace : Bool) (content : Option (List (StagingEntry R P)))
    (update : StagingViewUpdate R P) : Decidable (Fits isWorkspace content update) :=
  inferInstanceAs (Decidable (∀ repository ∈ update.repository, _))

instance (s : State R P) (a : Action R P) : Decidable (Fitting s a) :=
  inferInstanceAs (Decidable (∀ u ∈ s.update a, _))

variable {delimiter : LineDelimiter} {below : P → P → Bool} {s s' : State R P} {a : Action R P}

/-- A step shows its update in both tables, and without one it keeps them. -/
theorem step_tables (h : step delimiter below s a = some s') :
    match s.update a with
    | some u => s'.unstaged = inputChanged true s.unstaged u ∧
        s'.staged = inputChanged false s.staged u
    | none => s'.unstaged = s.unstaged ∧ s'.staged = s.staged := by
  revert h
  fun_cases step delimiter below s a with
  | case7 _ _ _ _ hfound | case29 _ _ hfound =>
    rintro ⟨⟩
    simp only [State.update, hfound]
    exact ⟨rfl, rfl⟩
  | case1 | case3 | case5 | case9 | case10 | case12 | case13 | case14 | case15 | case17 | case19
  | case21 | case22 | case23 | case25 | case27 =>
    rintro ⟨⟩
    exact ⟨rfl, rfl⟩
  | _ => rintro ⟨⟩

theorem unmixed_step_iff (hs : s.Unmixed) (h : step delimiter below s a = some s') :
    s'.Unmixed ↔ Fitting s a := by
  have htables := step_tables h
  unfold Fitting State.Unmixed
  cases hu : s.update a with
  | none =>
    rw [hu] at htables
    rw [htables.1, htables.2]
    exact ⟨fun _ => nofun, fun _ => hs⟩
  | some u =>
    rw [hu] at htables
    rw [htables.1, htables.2, unmixed_inputChanged_iff _ _ _ hs.1,
      unmixed_inputChanged_iff _ _ _ hs.2]
    simp only [mem_some_iff, forall_eq']

/-- **The view never mixes repositories.**  In every run in which each update that is shown fits
the tables, all entries of a table have the same label, the repository whose diff they come
from. -/
theorem never_mixes (h : (machine delimiter below).ReachableIf Fitting s) :
    (∀ l ∈ s.unstaged, ∀ e ∈ l, e.repository = e.source ∧
      ∀ e' ∈ l, e.repository = e'.repository) ∧
    (∀ l ∈ s.staged, ∀ e ∈ l, e.repository = e.source ∧
      ∀ e' ∈ l, e.repository = e'.repository) := by
  have hunmixed : s.Unmixed := by
    refine Machine.ReachableIf.invariant ?_ ?_ h
    · rintro _ ⟨saved, -, rfl⟩
      exact ⟨nofun, nofun⟩
    · intro _ _ _ hi hfit hstep
      exact (unmixed_step_iff hi hstep).2 hfit
  exact hunmixed

end

def untrackedOf (l : List Nat) : IndexDiff Bool Nat := ⟨false, [], [], [], [], [], l, []⟩

/-- A reload with its runnable, and an update for a file. -/
theorem never_mixes_notified :
    ∃ s : State Bool Nat, (machine .lf fun _ _ => false).ReachableIf Fitting s ∧
      s.unstaged = some [⟨true, true, .untracked, 1⟩, ⟨true, true, .untracked, 2⟩] ∧
      ∀ l ∈ s.unstaged, ∀ e ∈ l, e.repository = e.source := by
  obtain ⟨s, hrun, htable⟩ : ∃ s : State Bool Nat,
      (machine .lf fun _ _ => false).runIf Fitting (start fun _ => none)
        [.reload true, .start 0, .diff 0 (some (untrackedOf [1])), .complete 0,
          .commitHelper (some .cannotCommit), .update none, .setRepository none, .notify,
          .visit 0 true 2, .indexDiff 0 (untrackedOf [1, 2]), .label 0, .apply 0] = some s ∧
      s.unstaged = some [⟨true, true, .untracked, 1⟩, ⟨true, true, .untracked, 2⟩] :=
    ⟨_, rfl, rfl⟩
  have hreach : (machine .lf fun _ _ => false).ReachableIf Fitting s :=
    Machine.ReachableIf.runIf (.init ⟨_, savedOwned_none, rfl⟩) _ hrun
  exact ⟨s, hreach, htable, fun l hl e he => ((never_mixes hreach).1 l hl e he).1⟩

/-- The runnable of a reload comes after the job of the next one. -/
theorem late_runnable_mislabels :
    ∃ s : State Bool Nat, (machine .lf fun _ _ => false).Reachable s ∧
      s.unstaged = some [⟨true, false, .untracked, 1⟩] := by
  obtain ⟨s, hrun, htable⟩ : ∃ s : State Bool Nat,
      (machine .lf fun _ _ => false).run (start fun _ => none)
        [.reload false, .reload true, .start 0, .diff 0 (some (untrackedOf [1])), .start 1,
          .complete 0] = some s ∧
      s.unstaged = some [⟨true, false, .untracked, 1⟩] := ⟨_, rfl, rfl⟩
  exact ⟨s, Machine.Reachable.run (.init ⟨_, savedOwned_none, rfl⟩) _ hrun, htable⟩

end Egit.StagingView
