import GitTest.Lib.Transition
import GitTest.Egit.StagingContent
import GitTest.Egit.CommitMessage

/-!
# The staging view (StagingView.java)

Repositories are of any type `R`, paths of any linearly ordered type `P`.  A `reload` is
requested with `repositoryChanged` decided at once; its job assigns `currentRepository` and makes
the diff; its runnable on the UI thread shows the diff, labelled with what `currentRepository` is
by then, and updates the commit message editor.  The job manager runs one job at a time, in any
order; the runnables come in any order after their jobs.  A resource notification collects the
changed paths of the current repository, makes their diff, and has it merged into the tables.

A step is what happens between two accesses to `currentRepository`, which the jobs, the UI
thread and the notifications share.  JGit's results are part of the labels; the repository of a
diff is the one given to `new IndexDiff`.
-/

namespace Egit.StagingView

open Machines StagingContent CommitMessage
open HardWrap (Text LineDelimiter)

/-! ## State -/

inductive Phase (R P : Type)
  | waiting
  /-- behind the assignment of `currentRepository` -/
  | running
  /-- the runnable is posted; the result is `none` if `doReload` threw -/
  | done (results : Option (IndexDiff R P))
  /-- the runnable has returned -/
  | finished

structure Reload (R P : Type) where
  repository : R
  repositoryChanged : Bool
  phase : Phase R P

/-- Where a resource notification is. -/
inductive Notification (R P : Type)
  | visiting (resourcesToUpdate : List P)
  /-- before `new StagingViewUpdate` -/
  | diffed (indexDiff : IndexDiff R P) (resourcesToUpdate : List P)
  /-- the runnable is posted -/
  | posted (update : StagingViewUpdate R P)
  | finished

/-- Where the UI thread is in the runnable of the reload `i`. -/
inductive Ui (R : Type)
  | idle
  /-- before `new CommitHelper` -/
  | helper (i : Nat)
  /-- before the test of `repositoryChanged` -/
  | update (i : Nat) (helper : CommitHelper)
  /-- before `setRepository` -/
  | load (i : Nat) (helper : CommitHelper) (oldState : Option (CommitMessageComponentState R))

structure State (R P : Type) where
  currentRepository : Option R
  reloads : List (Reload R P)
  notifications : List (Notification R P)
  ui : Ui R
  unstaged : Option (List (StagingEntry R P))
  staged : Option (List (StagingEntry R P))
  component : CommitMessageComponent R
  saved : Saved R

inductive Action (R P : Type)
  | reload (repository : R)
  /-- `doReload` begins -/
  | start (i : Nat)
  /-- the job ends -/
  | diff (i : Nat) (results : Option (IndexDiff R P))
  /-- the runnable shows the results -/
  | complete (i : Nat)
  /-- `new CommitHelper`, which throws for `none` -/
  | commitHelper (helper : Option CommitHelper)
  | update (provided : Option Text)
  | setRepository (provided : Option Text)
  /-- the user edits the message -/
  | type (text : Text)
  | notify
  | visit (k : Nat) (repository : R) (path : P)
  | indexDiff (k : Nat) (indexDiff : IndexDiff R P)
  | label (k : Nat)
  /-- the runnable of a notification -/
  | apply (k : Nat)

/-! ## Steps -/

section
variable {R P : Type}

def Phase.isRunning : Phase R P → Bool
  | .running => true
  | .waiting | .done _ | .finished => false

def Phase.isFinished : Phase R P → Bool
  | .finished => true
  | .waiting | .running | .done _ => false

def diffOf (repository : R) (indexDiff : IndexDiff R P) : IndexDiff R P :=
  { indexDiff with repository := repository }

def State.repositoryChanged (s : State R P) (i : Nat) : Bool :=
  (s.reloads[i]?).any Reload.repositoryChanged

/-- The runnable of the reload `i` returns, or throws. -/
def State.finish (s : State R P) (i : Nat) : State R P :=
  { s with ui := .idle, reloads := s.reloads.modify i fun job => { job with phase := .finished } }

def State.put (s : State R P) (k : Nat) (n : Notification R P) : State R P :=
  { s with notifications := s.notifications.set k n }

end

section
variable {R P : Type} [DecidableEq R] [LinearOrder P]

def State.setInput (s : State R P) (update : StagingViewUpdate R P) : State R P :=
  { s with
    unstaged := inputChanged true s.unstaged update
    staged := inputChanged false s.staged update }

variable (delimiter : LineDelimiter) (below : P → P → Bool)

def step (s : State R P) : Action R P → Option (State R P)
  | .reload repository =>
    some { s with
      reloads := s.reloads ++
        [⟨repository, decide (s.currentRepository ≠ some repository), .waiting⟩] }
  | .start i =>
    match s.reloads[i]? with
    | some ⟨repository, changed, .waiting⟩ =>
      -- one job at a time, by the rule for the workspace root
      if s.reloads.any fun job => job.phase.isRunning then none
      else some { s with
        currentRepository := some repository
        reloads := s.reloads.set i ⟨repository, changed, .running⟩ }
    | _ => none
  | .diff i results =>
    match s.reloads[i]? with
    | some ⟨repository, changed, .running⟩ =>
      some { s with
        reloads := s.reloads.set i
          ⟨repository, changed, .done (results.map (diffOf repository))⟩ }
    | _ => none
  | .complete i =>
    match s.ui, s.reloads[i]? with
    | .idle, some ⟨_, _, .done results⟩ =>
      some { s.setInput ⟨s.currentRepository, results, none⟩ with ui := .helper i }
    | _, _ => none
  | .commitHelper helper =>
    match s.ui, helper with
    | .helper i, some helper => some { s with ui := .update i helper }
    | .helper i, none => some (s.finish i)
    | _, _ => none
  | .update provided =>
    match s.ui with
    | .update i helper =>
      if s.repositoryChanged i then
        match saveOrDelete delimiter s.saved s.component with
        | some saved =>
          some { s with saved := saved, ui := .load i helper (s.currentRepository.bind saved) }
        | none => some (s.finish i)
      else
        match keepRepository delimiter provided helper s.component with
        | some component => some { s.finish i with component := component }
        | none => some (s.finish i)
    | _ => none
  | .setRepository provided =>
    match s.ui with
    | .load i helper oldState =>
      some { s.finish i with
        component := changeRepository delimiter provided helper oldState s.currentRepository
          s.component }
    | _ => none
  | .type text =>
    match s.ui with
    | .idle => some { s with component := s.component.type text }
    | _ => none
  | .notify => some { s with notifications := s.notifications ++ [.visiting []] }
  | .visit k repository path =>
    match s.notifications[k]? with
    | some (.visiting resources) =>
      if s.currentRepository = some repository then
        some (s.put k (.visiting (resources.insert path)))
      else some s
    | _ => none
  | .indexDiff k indexDiff =>
    match s.notifications[k]?, s.currentRepository with
    | some (.visiting (resource :: more)), some repository =>
      some (s.put k (.diffed (diffOf repository indexDiff) (resource :: more)))
    | _, _ => none
  | .label k =>
    match s.notifications[k]?, s.currentRepository with
    | some (.diffed indexDiff resources), some repository =>
      some (s.put k (.posted (incrementalUpdate below repository indexDiff resources)))
    | _, _ => none
  | .apply k =>
    match s.ui, s.notifications[k]? with
    | .idle, some (.posted update) => some ((s.setInput update).put k .finished)
    | _, _ => none

/-- The view is new; messages may be saved from earlier ones. -/
def start (saved : Saved R) : State R P :=
  ⟨none, [], [], .idle, none, none, newComponent R, saved⟩

def machine : Machine (State R P) (Action R P) :=
  ⟨fun s => ∃ saved, SavedOwned saved ∧ s = start saved, step delimiter below⟩

end

end Egit.StagingView
