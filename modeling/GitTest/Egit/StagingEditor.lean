import GitTest.Egit.StagingTables

/-!
# The repository of the commit message editor

A reload that was requested with `repositoryChanged` moves the editor to whatever is the current
repository when its runnable sets it.  So the editor follows as long as it shows the current
repository, or some reload with `repositoryChanged` is not finished yet.  A job breaks this if it
assigns another repository while neither holds after it: its request was made when that was the
current repository, and jobs of earlier requests came in between.

`Fresh` leaves out these jobs, a runnable that throws before it has moved the editor, and a job
that assigns another repository while the runnable has loaded the message of the old one.  In
the other runs the editor shows the current repository when all is finished
(`editor_follows`).
-/

namespace Egit.StagingView

open CommitMessage List Machines StagingContent
open HardWrap (Text LineDelimiter)

/-! ## The condition -/

section
variable {R P : Type}

/-- The runnable of the reload is still to move the editor. -/
def Reload.unsettled (job : Reload R P) : Bool := job.repositoryChanged && !job.phase.isFinished

def Unsettled (reloads : List (Reload R P)) : Prop := reloads.any Reload.unsettled = true

/-- A message that was loaded and is not shown yet was typed for no other repository than `r`. -/
def Ui.LoadedFor (r : Option R) : Ui R → Prop
  | .load _ _ oldState => ∀ state ∈ oldState, state.OwnedBy r
  | .idle | .helper _ | .update _ _ => True

/-- Where the runnable is before `new CommitHelper`, the editor need not be moved by it. -/
def State.Settled (s : State R P) : Ui R → Prop
  | .helper i =>
    s.component.repository = s.currentRepository ∨ Unsettled (s.reloads.eraseIdx i)
  | .idle | .update _ _ | .load _ _ _ => True

/-- The editor follows after the step: a job that assigns a repository finds the editor there or
to be moved yet, and no message of another repository loaded; a runnable that throws was not to
move the editor. -/
def Fresh (s : State R P) : Action R P → Prop
  | .start i => ∀ job ∈ s.reloads[i]?,
      (s.component.repository = some job.repository ∨ Unsettled s.reloads) ∧
        s.ui.LoadedFor (some job.repository)
  | .commitHelper none => s.Settled s.ui
  | .commitHelper (some _) | .reload _ | .diff _ _ | .complete _ | .update _ | .setRepository _
  | .type _ | .notify | .visit _ _ _ | .indexDiff _ _ | .label _ | .apply _ => True

def State.quiescent (s : State R P) : Prop :=
  s.reloads.all (fun job => job.phase.isFinished) = true

end

section
variable {R P : Type} [DecidableEq R]

instance (s : State R P) : Decidable s.quiescent :=
  inferInstanceAs (Decidable (s.reloads.all (fun job => job.phase.isFinished) = true))

instance (reloads : List (Reload R P)) : Decidable (Unsettled reloads) :=
  inferInstanceAs (Decidable (_ = true))

instance (r : Option R) (state : CommitMessageComponentState R) : Decidable (state.OwnedBy r) :=
  inferInstanceAs (Decidable (∀ q ∈ state.typedFor, r = some q))

instance (r : Option R) : (ui : Ui R) → Decidable (ui.LoadedFor r)
  | .load _ _ oldState => inferInstanceAs (Decidable (∀ state ∈ oldState, state.OwnedBy r))
  | .idle | .helper _ | .update _ _ => isTrue trivial

instance (s : State R P) : (ui : Ui R) → Decidable (s.Settled ui)
  | .helper i => inferInstanceAs (Decidable (_ = s.currentRepository ∨
      Unsettled (s.reloads.eraseIdx i)))
  | .idle | .update _ _ | .load _ _ _ => isTrue trivial

instance (s : State R P) : (a : Action R P) → Decidable (Fresh s a)
  | .start i => inferInstanceAs (Decidable (∀ job ∈ s.reloads[i]?, _))
  | .commitHelper none => inferInstanceAs (Decidable (s.Settled s.ui))
  | .commitHelper (some _) | .reload _ | .diff _ _ | .complete _ | .update _ | .setRepository _
  | .type _ | .notify | .visit _ _ _ | .indexDiff _ _ | .label _ | .apply _ => isTrue trivial

end

/-! ## Unsettled reloads -/

section
variable {R P : Type}

/-- A job that moves on keeps what it is to do. -/
theorem Unsettled.set {l : List (Reload R P)} {i : Nat} {job job' : Reload R P}
    (hjob : l[i]? = some job) (hsame : job'.unsettled = job.unsettled) (h : Unsettled l) :
    Unsettled (l.set i job') := by
  obtain ⟨x, hx, hset⟩ := any_eq_true.1 h
  obtain ⟨j, hj, rfl⟩ := mem_iff_getElem.1 hx
  refine any_eq_true.2 ?_
  by_cases hij : i = j
  · subst hij
    refine ⟨job', mem_set hj job', ?_⟩
    rw [getElem?_eq_getElem hj, Option.some.injEq] at hjob
    rw [hsame, ← hjob]
    exact hset
  · refine ⟨l[j], ?_, hset⟩
    rw [← getElem_set_ne hij (by simpa using hj)]
    exact getElem_mem _

theorem unsettled_set_iff {l : List (Reload R P)} {i : Nat} {job job' : Reload R P}
    (hjob : l[i]? = some job) (hsame : job'.unsettled = job.unsettled) :
    Unsettled (l.set i job') ↔ Unsettled l := by
  refine ⟨fun h => ?_, Unsettled.set hjob hsame⟩
  obtain ⟨hi, rfl⟩ := List.getElem?_eq_some_iff.1 hjob
  have hback : (l.set i job')[i]? = some job' := List.getElem?_set_self hi
  have hset := Unsettled.set hback hsame.symm h
  rwa [set_set, set_getElem_self hi] at hset

theorem any_finish (l : List (Reload R P)) (i : Nat) :
    (l.modify i fun job => { job with phase := .finished }).any Reload.unsettled =
      (l.eraseIdx i).any Reload.unsettled := by
  induction l generalizing i with
  | nil =>
    rw [modify_nil, eraseIdx_nil]
  | cons job l ih =>
    cases i with
    | zero =>
      simp [Reload.unsettled, Phase.isFinished]
    | succ i =>
      rw [modify_succ_cons, eraseIdx_cons_succ, any_cons, any_cons, ih]

/-- A reload without `repositoryChanged` does not count. -/
theorem Unsettled.eraseIdx {l : List (Reload R P)} {i : Nat}
    (hkeep : (l[i]?).any Reload.repositoryChanged = false) (h : Unsettled l) :
    Unsettled (l.eraseIdx i) := by
  unfold Unsettled at h ⊢
  induction l generalizing i with
  | nil => cases h
  | cons job l ih =>
    rw [any_cons, Bool.or_eq_true] at h
    cases i with
    | zero =>
      refine h.resolve_left fun hjob => ?_
      have hchanged : job.repositoryChanged = true := (Bool.and_eq_true_iff.1 hjob).1
      have hkeep : job.repositoryChanged = false := hkeep
      rw [hkeep] at hchanged
      cases hchanged
    | succ i =>
      rw [eraseIdx_cons_succ, any_cons, Bool.or_eq_true]
      exact h.imp_right (ih hkeep)

theorem not_unsettled_of_quiescent {s : State R P} (h : s.quiescent) : ¬ Unsettled s.reloads := by
  intro hset
  obtain ⟨job, hjob, hunsettled⟩ := any_eq_true.1 hset
  have hfinished : job.phase.isFinished = true := all_eq_true.1 h job hjob
  unfold Reload.unsettled at hunsettled
  rw [hfinished, Bool.not_true, Bool.and_false] at hunsettled
  cases hunsettled

end

/-! ## Invariant -/

section
variable {R P : Type}

structure Inv (s : State R P) : Prop where
  component : s.component.Owned
  saved : SavedOwned s.saved
  loaded : s.ui.LoadedFor s.currentRepository
  synced : s.component.repository = s.currentRepository ∨ Unsettled s.reloads

theorem inv_newView {saved : Saved R} (h : SavedOwned saved) : Inv (start saved : State R P) :=
  ⟨newComponent_owned, h, trivial, .inl rfl⟩

theorem Inv.finish {s : State R P} (hi : Inv s) {i : Nat}
    (h : s.component.repository = s.currentRepository ∨ Unsettled (s.reloads.eraseIdx i)) :
    Inv (s.finish i) := by
  refine ⟨hi.component, hi.saved, trivial, h.imp_right fun hset => ?_⟩
  show List.any (s.reloads.modify i _) Reload.unsettled = true
  rw [any_finish]
  exact hset

variable [DecidableEq R] [LinearOrder P] {delimiter : LineDelimiter} {below : P → P → Bool}
  {s s' : State R P}

theorem inv_step (hi : Inv s) {a : Action R P} (hg : Fresh s a)
    (h : step delimiter below s a = some s') : Inv s' := by
  have hdone : ∀ i, ¬ s.repositoryChanged i = true → Inv (s.finish i) := fun i hchanged =>
    hi.finish (hi.synced.imp_right (Unsettled.eraseIdx (Bool.eq_false_iff.2 hchanged)))
  revert h
  fun_cases step delimiter below s a with
  | case1 =>
    rintro ⟨⟩
    refine ⟨hi.component, hi.saved, hi.loaded, hi.synced.imp_right ?_⟩
    intro hset
    show List.any (s.reloads ++ _) _ = true
    rw [any_append, Bool.or_eq_true]
    exact .inl hset
  | case3 i repository changed hjob =>
    rintro ⟨⟩
    obtain ⟨hsynced, hloaded⟩ := hg _ hjob
    exact ⟨hi.component, hi.saved, hloaded, hsynced.imp_right (Unsettled.set hjob rfl)⟩
  | case5 i results repository changed hjob =>
    rintro ⟨⟩
    exact ⟨hi.component, hi.saved, hi.loaded, hi.synced.imp_right (Unsettled.set hjob rfl)⟩
  | case7 | case9 =>
    rintro ⟨⟩
    exact ⟨hi.component, hi.saved, trivial, hi.synced⟩
  | case10 i hui =>
    rintro ⟨⟩
    have hsettled : s.Settled s.ui := hg
    rw [hui] at hsettled
    exact hi.finish hsettled
  | case12 provided i helper hui _ saved hsaved =>
    -- what is loaded for the current repository was typed for it
    rintro ⟨⟩
    have howned : SavedOwned saved := hi.saved.saveOrDelete hi.component hsaved
    refine ⟨hi.component, howned, ?_, hi.synced⟩
    intro state hstate
    obtain ⟨r, hr, hstate⟩ := Option.bind_eq_some_iff.1 hstate
    show state.OwnedBy s.currentRepository
    rw [hr]
    exact howned r state hstate
  | case13 provided i helper hui _ hnone =>
    have hsome : (saveOrDelete delimiter s.saved s.component).isSome :=
      hi.component.saveOrDelete_isSome s.saved
    rw [hnone] at hsome
    cases hsome
  | case14 provided i helper hui hchanged component hkeep =>
    rintro ⟨⟩
    refine ⟨hi.component.keepRepository hkeep, hi.saved, trivial, ?_⟩
    show component.repository = s.currentRepository ∨ _
    rw [keepRepository_repository hkeep]
    exact (hdone i hchanged).synced
  | case15 provided i helper hui hchanged =>
    rintro ⟨⟩
    exact hdone i hchanged
  | case17 provided i helper oldState hui =>
    rintro ⟨⟩
    have hloaded := hi.loaded
    rw [hui] at hloaded
    exact ⟨changeRepository_owned provided helper hloaded, hi.saved, trivial,
      .inl (changeRepository_repository ..)⟩
  | case19 text =>
    rintro ⟨⟩
    exact ⟨hi.component.type text, hi.saved, hi.loaded, hi.synced⟩
  | case21 | case22 | case25 | case27 | case29 =>
    rintro ⟨⟩
    exact ⟨hi.component, hi.saved, hi.loaded, hi.synced⟩
  | case23 =>
    rintro ⟨⟩
    exact hi
  | _ => rintro ⟨⟩

/-- `Fresh` asks for no more than the invariant after the step. -/
theorem fresh_of_inv {a : Action R P} (h : step delimiter below s a = some s') (hi : Inv s') :
    Fresh s a := by
  revert h
  fun_cases step delimiter below s a with
  | case3 i repository changed hjob =>
    rintro ⟨⟩ job hmem
    obtain rfl := Option.some.inj (hjob.symm.trans hmem)
    refine ⟨hi.synced.imp_right fun hset => ?_, hi.loaded⟩
    refine (unsettled_set_iff hjob ?_).1 hset
    rfl
  | case10 i hui =>
    rintro ⟨⟩
    show s.Settled s.ui
    rw [hui]
    refine hi.synced.imp_right fun hset => ?_
    have hset : List.any (s.reloads.modify i _) Reload.unsettled = true := hset
    rw [any_finish] at hset
    exact hset
  | case2 | case4 | case11 => rintro ⟨⟩
  | _ => exact fun _ => trivial

theorem inv_step_iff (hi : Inv s) {a : Action R P} (h : step delimiter below s a = some s') :
    Inv s' ↔ Fresh s a :=
  ⟨fresh_of_inv h, fun hg => inv_step hi hg h⟩

theorem reachable_inv (h : (machine delimiter below).ReachableIf Fresh s) : Inv s := by
  refine Machine.ReachableIf.invariant ?_ ?_ h
  · rintro _ ⟨saved, hsaved, rfl⟩
    exact inv_newView hsaved
  · intro _ _ _ hi hg hs
    exact (inv_step_iff hi hs).2 hg

/-- **The editor follows the selected repository.**  In every fresh run, when all jobs and
runnables have finished, the component has the current repository, and a message that was typed
was typed for it. -/
theorem editor_follows (h : (machine delimiter below).ReachableIf Fresh s) (hq : s.quiescent) :
    s.component.repository = s.currentRepository ∧
      ∀ r, s.component.typedFor = some r → s.currentRepository = some r := by
  have hi := reachable_inv h
  have hsame : s.component.repository = s.currentRepository :=
    hi.synced.resolve_right (not_unsettled_of_quiescent hq)
  refine ⟨hsame, ?_⟩
  intro r hr
  rw [← hsame]
  exact hi.component.owner r hr

end

def reloadSteps (i : Nat) : List (Action Bool Nat) :=
  [.start i, .diff i none, .complete i, .commitHelper (some .cannotCommit), .update none]

theorem editor_follows_back :
    ∃ s : State Bool Nat, (machine .lf fun _ _ => false).ReachableIf Fresh s ∧
      s.component.commitText = ofAscii "a" ∧ s.component.typedFor = some false ∧
      s.component.repository = some false ∧ s.currentRepository = some false := by
  obtain ⟨s, hrun, htext, htyped, hrepo, hq⟩ : ∃ s : State Bool Nat,
      (machine .lf fun _ _ => false).runIf Fresh (StagingView.start fun _ => none)
        (.reload false :: reloadSteps 0 ++ [.setRepository none, .type (ofAscii "a")] ++
          .reload true :: reloadSteps 1 ++ [.setRepository none, .type (ofAscii "b")] ++
          .reload false :: reloadSteps 2 ++ [.setRepository none]) = some s ∧
      s.component.commitText = ofAscii "a" ∧ s.component.typedFor = some false ∧
      s.component.repository = some false ∧ s.quiescent :=
    Machine.exists_end (by decide +kernel)
  have hreach : (machine .lf fun _ _ => false).ReachableIf Fresh s :=
    Machine.ReachableIf.runIf (.init ⟨_, savedOwned_none, rfl⟩) _ hrun
  exact ⟨s, hreach, htext, htyped, hrepo, (editor_follows hreach hq).2 false htyped⟩

/-- Both reloads are requested before the first job runs, so the second one, back to the first
repository, does not count as a change. -/
theorem editor_left_behind :
    ∃ s : State Bool Nat, (machine .lf fun _ _ => false).Reachable s ∧ s.quiescent ∧
      s.currentRepository = some false ∧ s.component.repository = some true ∧
      s.component.commitText = ofAscii "b" ∧ s.component.typedFor = some true := by
  obtain ⟨s, hrun, h⟩ : ∃ s : State Bool Nat,
      (machine .lf fun _ _ => false).run (StagingView.start fun _ => none)
        (.reload false :: reloadSteps 0 ++ [.setRepository none, .reload true, .reload false] ++
          reloadSteps 1 ++ [.setRepository none, .type (ofAscii "b")] ++ reloadSteps 2) = some s ∧
      s.quiescent ∧ s.currentRepository = some false ∧ s.component.repository = some true ∧
      s.component.commitText = ofAscii "b" ∧ s.component.typedFor = some true :=
    ⟨_, rfl, by exact rfl, rfl, rfl, rfl, rfl⟩
  exact ⟨s, Machine.Reachable.run (.init ⟨_, savedOwned_none, rfl⟩) _ hrun, h⟩

end Egit.StagingView
