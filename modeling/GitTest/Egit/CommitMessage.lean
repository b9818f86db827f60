import Mathlib.Logic.Function.Basic
import GitTest.Lib.Search
import GitTest.Egit.HardWrap

/-!
# The commit message editor (CommitMessageComponent.java, StagingView.java)

The editor of the staging view shows the message for one repository.  When the view changes to
another repository, `updateCommitMessageComponent` saves what the user entered under the
repository of the component, or deletes what was saved there, and loads what is saved for the
new one, or its initial message.  That function reads `currentRepository` several times; here it
is cut where it does.

The ghost `typedFor` is the repository that the component had when the text was typed, and
`none` for an initial message.  Saved states keep it.
-/

namespace Egit.CommitMessage

open Option

open HardWrap (Text LineDelimiter)

/-! ## Texts -/

abbrev ObjectId := BitVec 160

def ofAscii (s : String) : Text := s.toList.map fun c => c.val.toUInt16

def whitespace (c : HardWrap.CodeUnit) : Bool := c ≤ 32

def trim (text : Text) : Text := ((text.dropWhile whitespace).reverse.dropWhile whitespace).reverse

def indexOf (text pattern : Text) (start : Nat) : Option Nat :=
  (List.range' start (text.length + 1 - start)).find? fun i => pattern.isPrefixOf (text.drop i)

/-- `CommitHelper`: what it finds out about its repository. -/
structure CommitHelper where
  previousCommit : Option ObjectId
  author : Option Text
  committer : Option Text
  commitMessage : Option Text
  isMergedResolved : Bool
  isCherryPickResolved : Bool

/-- What `calculateCommitInfo` leaves if the state of the repository does not allow a commit. -/
def CommitHelper.cannotCommit : CommitHelper := ⟨none, none, none, none, false, false⟩

def amendAllowed (helper : CommitHelper) : Bool :=
  !helper.isMergedResolved && !helper.isCherryPickResolved

def getCommitId (commit : Option ObjectId) : ObjectId := commit.getD 0

section
variable (delimiter : LineDelimiter)

def replaceSignOff (input oldSignOff newSignOff : Text) : Text :=
  match indexOf (Search.terminated delimiter.text input) (oldSignOff ++ delimiter.text) 0 with
  | none => input
  | some indexOfSignOff =>
    input.take indexOfSignOff ++ newSignOff ++ input.drop (indexOfSignOff + oldSignOff.length)

/-- The text of `refreshSignedOffBy` for `signedOff = false`. -/
def removed (committer curText : Text) : Text :=
  let curText := replaceSignOff delimiter curText (ofAscii "Signed-off-by: " ++ committer) []
  if (delimiter.text ++ delimiter.text).isSuffixOf curText then
    curText.take (curText.length - delimiter.text.length)
  else curText

def changeIdTag : Text := ofAscii "Change-Id: I"

def findNextEOL (oldPos : Nat) (message : Text) : Option Nat :=
  indexOf message delimiter.text (oldPos + 1)

def findOffsetOfChangeIdLine (message : Text) : Option Nat :=
  indexOf message (delimiter.text ++ changeIdTag) 0

/-- The text of the editor after `refreshChangeIdText` without `createChangeId`, or `none` if it
throws. -/
def refreshChangeIdText (text : Text) : Option Text :=
  match findOffsetOfChangeIdLine delimiter text with
  | none => some text
  | some changeIdOffset =>
    if changeIdOffset > 0 then
      (findNextEOL delimiter changeIdOffset text).map fun endOfChangeId =>
        text.take changeIdOffset ++ text.drop endOfChangeId
    else some text

/-- `calculateCommitMessage` when not amending; `provided` is from the message provider. -/
def calculateCommitMessage (commitMessage provided : Option Text) : Text :=
  match commitMessage, provided with
  | some message, _ => message
  | none, some message => message
  | none, none => []

/-- What `updateUI` puts into the editor.  An exception leaves the text as it was. -/
def initialText (provided : Option Text) (helper : CommitHelper) : Text :=
  let text := removed delimiter (helper.committer.getD [])
    (calculateCommitMessage helper.commitMessage provided)
  (refreshChangeIdText delimiter text).getD text

def headChangedWarning (commitMessage : Text) : Text :=
  ofAscii "# WARNING: head commit changed in the meantime" ++ delimiter.text ++ delimiter.text ++
    commitMessage

end

/-! ## The component -/

structure CommitMessageComponentState (R : Type) where
  amend : Bool
  author : Text
  commitMessage : Text
  committer : Text
  headCommit : ObjectId
  typedFor : Option R

structure CommitMessageComponent (R : Type) where
  repository : Option R
  /-- the widgets -/
  commitText : Text
  authorText : Text
  committerText : Text
  /-- the fields, `none` for null -/
  commitMessage : Option Text
  author : Option Text
  committer : Option Text
  headCommitId : Option ObjectId
  amending : Bool
  amendAllowed : Bool
  typedFor : Option R

abbrev Saved (R : Type) := R → Option (CommitMessageComponentState R)

def newComponent (R : Type) : CommitMessageComponent R :=
  ⟨none, [], [], [], none, none, none, none, false, false, none⟩

section
variable {R : Type} [DecidableEq R] (delimiter : LineDelimiter)

/-- `getCommitMessage`: line ends become `\n`. -/
def getCommitMessage (c : CommitMessageComponent R) : Text :=
  List.intercalate [10] (Split.split delimiter.text c.commitText)

def userEnteredCommmitMessage (c : CommitMessageComponent R) : Bool :=
  c.repository.isSome && !(trim (getCommitMessage delimiter c)).isEmpty

/-- The state to save; `persistState` throws for `none`. -/
def getState (c : CommitMessageComponent R) : Option (CommitMessageComponentState R) :=
  c.headCommitId.map fun id =>
    ⟨c.amending, trim c.authorText, c.commitText, trim c.committerText, id, c.typedFor⟩

def CommitMessageComponent.type (c : CommitMessageComponent R) (text : Text) :
    CommitMessageComponent R :=
  { c with commitText := text, typedFor := c.repository }

/-- Save what the user entered, or delete what was saved; `none` if it throws. -/
def saveOrDelete (saved : Saved R) (c : CommitMessageComponent R) : Option (Saved R) :=
  match c.repository with
  | none => some saved
  | some repository =>
    if userEnteredCommmitMessage delimiter c then
      (getState c).map fun state => Function.update saved repository (some state)
    else some (Function.update saved repository none)

/-- `loadInitialState` with `resetState` and `updateUI`. -/
def loadInitialState (provided : Option Text) (helper : CommitHelper)
    (c : CommitMessageComponent R) : CommitMessageComponent R where
  repository := c.repository
  commitText := initialText delimiter provided helper
  authorText := helper.author.getD []
  committerText := helper.committer.getD []
  commitMessage := helper.commitMessage
  author := helper.author
  committer := helper.committer
  headCommitId := some (getCommitId helper.previousCommit)
  amending := false
  amendAllowed := amendAllowed helper
  typedFor := none

/-- The message that `loadExistingState` shows. -/
def existingMessage (helper : CommitHelper) (oldState : CommitMessageComponentState R) : Text :=
  if oldState.headCommit = getCommitId helper.previousCommit then oldState.commitMessage
  else headChangedWarning delimiter oldState.commitMessage

/-- `loadExistingState` with `updateUIFromState`. -/
def loadExistingState (helper : CommitHelper) (oldState : CommitMessageComponentState R)
    (c : CommitMessageComponent R) : CommitMessageComponent R where
  repository := c.repository
  commitText := existingMessage delimiter helper oldState
  authorText := oldState.author
  committerText := oldState.committer
  commitMessage := some (existingMessage delimiter helper oldState)
  author := some oldState.author
  committer := some oldState.committer
  headCommitId := some (getCommitId helper.previousCommit)
  amending := amendAllowed helper &&
    decide (oldState.headCommit = getCommitId helper.previousCommit) && oldState.amend
  amendAllowed := amendAllowed helper
  typedFor := oldState.typedFor

/-- `setRepository` and what is loaded after it. -/
def changeRepository (provided : Option Text) (helper : CommitHelper)
    (oldState : Option (CommitMessageComponentState R)) (repository : Option R)
    (c : CommitMessageComponent R) : CommitMessageComponent R :=
  match oldState with
  | none => loadInitialState delimiter provided helper { c with repository := repository }
  | some oldState => loadExistingState delimiter helper oldState { c with repository := repository }

/-- The branch of `updateCommitMessageComponent` for a repository that did not change; `none` if
it throws.  The warning is put into the field and not into the editor. -/
def keepRepository (provided : Option Text) (helper : CommitHelper)
    (c : CommitMessageComponent R) : Option (CommitMessageComponent R) :=
  if userEnteredCommmitMessage delimiter c then
    c.headCommitId.map fun id => { c with
      commitMessage := some (
        if helper.previousCommit = some id then getCommitMessage delimiter c
        else headChangedWarning delimiter (getCommitMessage delimiter c)) }
  else some (loadInitialState delimiter provided helper c)

end

/-! ## What was typed for which repository -/

section
variable {R : Type}

/-- The component has a head commit with its repository, and its text was typed for no other
repository. -/
structure CommitMessageComponent.Owned (c : CommitMessageComponent R) : Prop where
  head : c.repository.isSome → c.headCommitId.isSome
  owner : ∀ r, c.typedFor = some r → c.repository = some r

/-- A saved message was typed for no other repository. -/
def CommitMessageComponentState.OwnedBy (r : Option R) (state : CommitMessageComponentState R) :
    Prop :=
  ∀ q, state.typedFor = some q → r = some q

def SavedOwned (saved : Saved R) : Prop := ∀ r, ∀ state ∈ saved r, state.OwnedBy (some r)

theorem newComponent_owned : (newComponent R).Owned := ⟨nofun, nofun⟩

theorem savedOwned_none : SavedOwned fun _ : R => none := fun _ _ h => nomatch h

variable {delimiter : LineDelimiter} {c c' : CommitMessageComponent R}

theorem CommitMessageComponent.Owned.type (h : c.Owned) (text : Text) : (c.type text).Owned :=
  ⟨h.head, fun _ hr => hr⟩

theorem changeRepository_repository (provided : Option Text) (helper : CommitHelper)
    (oldState : Option (CommitMessageComponentState R)) (r : Option R)
    (c : CommitMessageComponent R) :
    (changeRepository delimiter provided helper oldState r c).repository = r := by
  cases oldState with
  | none => rfl
  | some state => rfl

theorem changeRepository_owned (provided : Option Text) (helper : CommitHelper)
    {oldState : Option (CommitMessageComponentState R)} {r : Option R}
    (h : ∀ state ∈ oldState, state.OwnedBy r) :
    (changeRepository delimiter provided helper oldState r c).Owned := by
  cases oldState with
  | none => exact ⟨fun _ => rfl, nofun⟩
  | some state => exact ⟨fun _ => rfl, h state rfl⟩

theorem keepRepository_repository {provided : Option Text} {helper : CommitHelper}
    (h : keepRepository delimiter provided helper c = some c') : c'.repository = c.repository := by
  unfold keepRepository at h
  split at h
  · obtain ⟨id, -, rfl⟩ := map_eq_some_iff.1 h
    rfl
  · cases h
    rfl

theorem CommitMessageComponent.Owned.keepRepository {provided : Option Text}
    {helper : CommitHelper} (hc : c.Owned)
    (h : keepRepository delimiter provided helper c = some c') : c'.Owned := by
  unfold CommitMessage.keepRepository at h
  split at h
  · obtain ⟨id, -, rfl⟩ := map_eq_some_iff.1 h
    exact ⟨hc.head, hc.owner⟩
  · cases h
    exact ⟨fun _ => rfl, nofun⟩

variable [DecidableEq R] {saved saved' : Saved R}

theorem CommitMessageComponent.Owned.saveOrDelete_isSome (hc : c.Owned) (saved : Saved R) :
    (saveOrDelete delimiter saved c).isSome := by
  unfold saveOrDelete
  split
  · rfl
  · next r hr =>
    split
    · have hhead : c.headCommitId.isSome := hc.head (by rw [hr]; rfl)
      unfold getState
      rw [isSome_map, isSome_map]
      exact hhead
    · rfl

theorem SavedOwned.saveOrDelete (hs : SavedOwned saved) (hc : c.Owned)
    (h : saveOrDelete delimiter saved c = some saved') : SavedOwned saved' := by
  unfold CommitMessage.saveOrDelete at h
  split at h
  · cases h
    exact hs
  · next r hr =>
    -- only the entry of the component's repository changes
    have hupdate : ∀ new : Option (CommitMessageComponentState R),
        (∀ state ∈ new, state.OwnedBy (some r)) → SavedOwned (Function.update saved r new) := by
      intro new hnew q state hstate
      by_cases hq : q = r
      · subst hq
        rw [Function.update_self] at hstate
        exact hnew state hstate
      · rw [Function.update_of_ne hq] at hstate
        exact hs q state hstate
    split at h
    · obtain ⟨state, hstate, rfl⟩ := map_eq_some_iff.1 h
      refine hupdate (some state) ?_
      rintro _ ⟨⟩ q hq
      obtain ⟨id, -, rfl⟩ := map_eq_some_iff.1 hstate
      rw [← hr]
      exact hc.owner q hq
    · cases h
      exact hupdate none nofun

end

end Egit.CommitMessage
