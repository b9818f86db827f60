import GitTest.Lib.Search
import GitTest.Lib.Transition
import GitTest.Egit.CommitMessage

/-!
# The sign-off line and the committer (CommitMessageComponent.java)

While the component is signed off, an edit of the committer replaces the sign-off in the message.
The listener looks for the sign-off of the committer that it has seen last, `oldCommitter`, and it
sees a committer only if listeners are enabled and the component is signed off.

    in a run, every change of the committer while the message has its sign-off line replaces this
      line, and switching sign-off on and off gives the message back up to line breaks at its end ↔
      at every such change `oldCommitter` is the committer, and no earlier line ends with that
      sign-off  (runFollows_iff)
    the committer is only changed with listeners enabled and signed off →
      `oldCommitter` is the committer  (remembers_of_guarded)
-/

namespace Egit.SignOff

open CommitMessage List Machines Split
open Search (terminated)
open HardWrap (Text LineDelimiter CodeUnit delimiter_ne_nil unbordered)

/-! ## Algorithm -/

/-- The text of a field with one line. -/
structure Committer where
  text : Text
  single : 10 ∉ text ∧ 13 ∉ text
  deriving DecidableEq

def getSignedOff (signer : Committer) : Text := ofAscii "Signed-off-by: " ++ signer.text

def lastIndexOf (text pattern : Text) : Option Nat :=
  (List.range (text.length + 1)).reverse.find? fun i => pattern.isPrefixOf (text.drop i)

/-- `line.matches("[A-Za-z\\-]+:.*")`; a dot is no line terminator. -/
def isFooterLine (line : Text) : Bool :=
  let inName (c : CodeUnit) : Bool := (65 ≤ c && c ≤ 90) || (97 ≤ c && c ≤ 122) || c == 45
  let terminator (c : CodeUnit) : Bool :=
    c == 10 || c == 13 || c == 0x85 || c == 0x2028 || c == 0x2029
  let rest := line.dropWhile inName
  line.head?.any inName && rest.head? == some 58 && rest.tail.all fun c => !terminator c

structure Component where
  commitText : Text
  committerText : Committer
  /-- The field of the listener. -/
  oldCommitter : Committer
  signedOff : Bool
  listersEnabled : Bool
  deriving DecidableEq

section
variable (delimiter : LineDelimiter)

def getLastLine (input : Text) : Text :=
  let breakLength := delimiter.text.length
  let output :=
    if lastIndexOf input delimiter.text = some (input.length - breakLength) then
      input.take (input.length - breakLength)
    else input
  match lastIndexOf output delimiter.text with
  | none => output
  | some i => output.drop (i + breakLength)

def signOff (committer : Committer) (input : Text) : Text :=
  let output := terminated delimiter.text input
  let output :=
    if isFooterLine (getLastLine delimiter output) then output else output ++ delimiter.text
  output ++ getSignedOff committer

def updateSignedOffButton (c : Component) : Component :=
  { c with
    signedOff := (indexOf (terminated delimiter.text c.commitText)
      (getSignedOff c.committerText ++ delimiter.text) 0).isSome }

/-- `commitText.setText`, or an edit of the user, with the listener of the message. -/
def setText (c : Component) (text : Text) : Component :=
  let c := { c with commitText := text }
  if c.listersEnabled then updateSignedOffButton delimiter c else c

def refreshSignedOffBy (c : Component) : Component :=
  if c.signedOff then setText delimiter c (signOff delimiter c.committerText c.commitText)
  else setText delimiter c (removed delimiter c.committerText.text c.commitText)

def setSignedOffButtonSelection (c : Component) (selection : Bool) : Component :=
  refreshSignedOffBy delimiter { c with signedOff := selection }

/-- An edit of the committer, with the listener. -/
def setCommitter (c : Component) (newCommitter : Committer) : Component :=
  let c := { c with committerText := newCommitter }
  if c.listersEnabled && c.signedOff then
    { setText delimiter c (replaceSignOff delimiter c.commitText (getSignedOff c.oldCommitter)
        (getSignedOff newCommitter)) with oldCommitter := newCommitter }
  else c

inductive Event
  | committer (newCommitter : Committer)
  | message (text : Text)
  | selection (signedOff : Bool)
  | signedOff (signedOff : Bool)
  | enableListers (enable : Bool)

def next (c : Component) : Event → Component
  | .committer newCommitter => setCommitter delimiter c newCommitter
  | .message text => setText delimiter c text
  | .selection signedOff => setSignedOffButtonSelection delimiter c signedOff
  | .signedOff signedOff => { c with signedOff }
  | .enableListers enable => { c with listersEnabled := enable }

/-- The component with its events; `attachControls` makes the listener. -/
def machine : Machine Component Event where
  init c := c.oldCommitter = c.committerText
  step c e := some (next delimiter c e)

/-! ## What it is for -/

abbrev lines (text : Text) : List Text := split delimiter.text text

/-- The committer is changed while the component is signed off, and the message has the sign-off
line once, behind the lines `pre`. -/
structure Asked (c : Component) (newCommitter : Committer) (pre post : List Text) : Prop where
  enabled : c.listersEnabled = true
  signedOff : c.signedOff = true
  changed : newCommitter ≠ c.committerText
  line : lines delimiter c.commitText = pre ++ getSignedOff c.committerText :: post
  once : getSignedOff c.committerText ∉ pre ∧ getSignedOff c.committerText ∉ post

/-- The line is replaced, and the component is still signed off. -/
def Follows (c : Component) (newCommitter : Committer) (pre post : List Text) : Prop :=
  (next delimiter c (.committer newCommitter)).commitText =
      delimiter.text.intercalate (pre ++ getSignedOff newCommitter :: post) ∧
    (next delimiter c (.committer newCommitter)).signedOff = true

def breaks (k : Nat) : Text := (List.replicate k delimiter.text).flatten

/-- Sign-off switched on and off. -/
def Restores (c : Component) : Prop :=
  ¬ getSignedOff c.committerText <:+: c.commitText →
    ∃ u j k, c.commitText = u ++ breaks delimiter j ∧
      (next delimiter (next delimiter c (.selection true)) (.selection false)).commitText =
        u ++ breaks delimiter k

structure RunFollows (start : Component) (events : List Event) : Prop where
  committer : ∀ p newCommitter q c pre post, events = p ++ .committer newCommitter :: q →
    (machine delimiter).run start p = some c → Asked delimiter c newCommitter pre post →
      Follows delimiter c newCommitter pre post
  toggle : ∀ p q c, events = p ++ q → (machine delimiter).run start p = some c →
    Restores delimiter c

/-- The condition at a change of the committer. -/
def Remembered (c : Component) (pre : List Text) : Prop :=
  c.oldCommitter = c.committerText ∧ ∀ l ∈ pre, ¬ getSignedOff c.committerText <:+ l

end

/-! ## The sign-off lines of a text -/

section
variable {delimiter : LineDelimiter}

theorem getSignedOff_text (delimiter : LineDelimiter) (signer : Committer) :
    ∀ c ∈ getSignedOff signer, c ∉ delimiter.text := by
  have htag : ∀ c ∈ ofAscii "Signed-off-by: ", c ≠ 10 ∧ c ≠ 13 := by
    show ∀ c ∈ [83, 105, 103, 110, 101, 100, 45, 111, 102, 102, 45, 98, 121, 58, 32],
      c ≠ 10 ∧ c ≠ 13
    simp
  have hall : ∀ c ∈ getSignedOff signer, c ≠ 10 ∧ c ≠ 13 := by
    intro c hc
    rcases mem_append.1 hc with hc | hc
    · exact htag c hc
    · constructor
      · rintro rfl
        exact signer.single.1 hc
      · rintro rfl
        exact signer.single.2 hc
  intro c hc
  cases delimiter with
  | lf => simpa [LineDelimiter.text] using (hall c hc).1
  | crlf => simpa [LineDelimiter.text] using ⟨(hall c hc).2, (hall c hc).1⟩

theorem getSignedOff_ne_nil (signer : Committer) : getSignedOff signer ≠ [] := by
  simp [getSignedOff, ofAscii]

theorem getSignedOff_inj {signer signer' : Committer}
    (h : getSignedOff signer = getSignedOff signer') : signer = signer' := by
  obtain ⟨text, hsingle⟩ := signer
  cases append_cancel_left h
  rfl

theorem replaceSignOff_eq {text p : Text} {pre post : List Text} (old : Committer) (new : Text)
    (h : lines delimiter text = pre ++ (p ++ getSignedOff old) :: post)
    (hfirst : ∀ l ∈ pre, ¬ getSignedOff old <:+ l) :
    replaceSignOff delimiter text (getSignedOff old) new =
      delimiter.text.intercalate (pre ++ (p ++ new) :: post) := by
  have hindex : indexOf (terminated delimiter.text text) (getSignedOff old ++ delimiter.text) 0 =
      some (delimiter.text.intercalate (pre ++ [p])).length :=
    Search.indexOf_end (delimiter_ne_nil delimiter) (unbordered delimiter)
      (getSignedOff_text delimiter old) (getSignedOff_ne_nil old) h hfirst
  obtain ⟨rest, hrest⟩ := Search.intercalate_line pre post p
  have htext : text = delimiter.text.intercalate (pre ++ [p]) ++ (getSignedOff old ++ rest) := by
    rw [← hrest, ← h]
    exact (intercalate_split (delimiter_ne_nil delimiter) text).symm
  unfold replaceSignOff
  rw [hindex]
  dsimp only
  rw [hrest, htext, take_left, append_assoc]
  congr 2
  rw [← append_assoc]
  exact drop_left' (by rw [length_append])

theorem replaceSignOff_none {text : Text} (old : Committer) (new : Text)
    (h : ∀ l ∈ lines delimiter text, ¬ getSignedOff old <:+ l) :
    replaceSignOff delimiter text (getSignedOff old) new = text := by
  have hindex : indexOf (terminated delimiter.text text) (getSignedOff old ++ delimiter.text) 0 =
      none :=
    (Search.indexOf_end_eq_none_iff (delimiter_ne_nil delimiter) (unbordered delimiter)
      (getSignedOff_text delimiter old) (getSignedOff_ne_nil old)).2 h
  unfold replaceSignOff
  rw [hindex]

theorem indexOf_isSome_iff (signer : Committer) (text : Text) :
    (indexOf (terminated delimiter.text text) (getSignedOff signer ++ delimiter.text) 0).isSome =
        true ↔ ∃ l ∈ lines delimiter text, getSignedOff signer <:+ l := by
  have hnone : indexOf (terminated delimiter.text text)
      (getSignedOff signer ++ delimiter.text) 0 = none ↔ _ :=
    Search.indexOf_end_eq_none_iff (delimiter_ne_nil delimiter) (unbordered delimiter)
      (getSignedOff_text delimiter signer) (getSignedOff_ne_nil signer)
  rw [Option.isSome_iff_ne_none, ne_eq, hnone]
  simp

/-! ## The committer -/

section
variable {c : Component} {newCommitter : Committer} {pre post : List Text}

theorem committer_next (delimiter : LineDelimiter) (henabled : c.listersEnabled = true)
    (hsigned : c.signedOff = true) (newCommitter : Committer) :
    (next delimiter c (.committer newCommitter)).commitText =
        replaceSignOff delimiter c.commitText (getSignedOff c.oldCommitter)
          (getSignedOff newCommitter) ∧
      ((next delimiter c (.committer newCommitter)).signedOff = true ↔
        ∃ l ∈ lines delimiter (next delimiter c (.committer newCommitter)).commitText,
          getSignedOff newCommitter <:+ l) := by
  rw [← indexOf_isSome_iff]
  unfold next setCommitter
  rw [henabled, hsigned]
  exact ⟨rfl, Iff.rfl⟩

theorem lines_replaced {text l p : Text} (h : lines delimiter text = pre ++ l :: post)
    (hp : p <:+: l) (signer : Committer) :
    lines delimiter (delimiter.text.intercalate (pre ++ (p ++ getSignedOff signer) :: post)) =
      pre ++ (p ++ getSignedOff signer) :: post := by
  have hfree := free_of_mem_split (delimiter_ne_nil delimiter) text
  rw [show split delimiter.text text = _ from h] at hfree
  apply split_intercalate (delimiter_ne_nil delimiter) (unbordered delimiter) (by simp)
  intro x hx
  simp only [mem_append, mem_cons] at hx
  rcases hx with hx | rfl | hx
  · exact hfree x (by simp [hx])
  · exact Free.append_text (delimiter_ne_nil delimiter) (getSignedOff_text delimiter signer)
      ((hfree l (by simp)).of_piece hp)
  · exact hfree x (by simp [hx])

section
variable (h : Asked delimiter c newCommitter pre post)
include h

theorem Asked.lines_replaced :
    lines delimiter (delimiter.text.intercalate (pre ++ getSignedOff newCommitter :: post)) =
      pre ++ getSignedOff newCommitter :: post :=
  SignOff.lines_replaced (p := []) h.line nil_infix newCommitter

theorem Asked.follows (hr : Remembered c pre) : Follows delimiter c newCommitter pre post := by
  obtain ⟨htext, hflag⟩ := committer_next delimiter h.enabled h.signedOff newCommitter
  have hreplace : (next delimiter c (.committer newCommitter)).commitText =
      delimiter.text.intercalate (pre ++ getSignedOff newCommitter :: post) := by
    rw [htext, hr.1]
    exact replaceSignOff_eq (p := []) c.committerText (getSignedOff newCommitter) h.line hr.2
  refine ⟨hreplace, hflag.2 ⟨getSignedOff newCommitter, ?_, suffix_rfl⟩⟩
  rw [hreplace, h.lines_replaced]
  simp

theorem Asked.remembered (hf : Follows delimiter c newCommitter pre post) : Remembered c pre := by
  have hchanged : getSignedOff c.committerText ≠ getSignedOff newCommitter :=
    fun heq => h.changed (getSignedOff_inj heq).symm
  have htext := (committer_next delimiter h.enabled h.signedOff newCommitter).1
  rw [hf.1] at htext
  have hsplit := congrArg (lines delimiter) htext
  rw [h.lines_replaced] at hsplit
  rcases Search.first_line (getSignedOff c.oldCommitter <:+ ·) (lines delimiter c.commitText) with
    hnone | ⟨pre', _, post', hlines, ⟨p, rfl⟩, hfirst⟩
  · -- the text stays, with the line
    rw [replaceSignOff_none _ _ hnone, h.line] at hsplit
    exact absurd (List.cons.inj (append_cancel_left hsplit)).1.symm hchanged
  · rw [replaceSignOff_eq _ _ hlines hfirst,
      SignOff.lines_replaced hlines (prefix_append ..).isInfix newCommitter] at hsplit
    rw [h.line] at hlines
    obtain ⟨rfl, hold, hnew⟩ := Search.same_line hlines hsplit hchanged
    -- the whole line was the old sign-off
    have hp : p = [] := by
      have hlen := congrArg List.length hnew
      rw [length_append] at hlen
      exact eq_nil_of_length_eq_zero (by omega)
    rw [hp] at hold
    have hold := getSignedOff_inj hold
    exact ⟨hold.symm, hold ▸ hfirst⟩

end

end

/-! ## On and off -/

section
variable {c : Component}

/-- The listener of the message changes the flag only. -/
theorem setText_eq (delimiter : LineDelimiter) (c : Component) (text : Text) :
    ∃ flag, setText delimiter c text = { c with commitText := text, signedOff := flag } := by
  unfold setText
  dsimp only
  split
  · exact ⟨_, rfl⟩
  · exact ⟨c.signedOff, rfl⟩

theorem toggle_commitText (delimiter : LineDelimiter) (c : Component) :
    (next delimiter (next delimiter c (.selection true)) (.selection false)).commitText =
      removed delimiter c.committerText.text (signOff delimiter c.committerText c.commitText) := by
  obtain ⟨flag, hon⟩ := setText_eq delimiter { c with signedOff := true }
    (signOff delimiter c.committerText c.commitText)
  have hnext : next delimiter c (.selection true) = setText delimiter { c with signedOff := true }
      (signOff delimiter c.committerText c.commitText) := rfl
  rw [hnext, hon]
  obtain ⟨flag', hoff⟩ := setText_eq delimiter
    { c with
      commitText := signOff delimiter c.committerText c.commitText
      signedOff := false }
    (removed delimiter c.committerText.text (signOff delimiter c.committerText c.commitText))
  show (setText delimiter _ _).commitText = _
  rw [hoff]

theorem breaks_succ (k : Nat) :
    breaks delimiter (k + 1) = breaks delimiter k ++ delimiter.text := by
  unfold breaks
  rw [replicate_succ']
  simp

theorem signOff_eq (delimiter : LineDelimiter) (committer : Committer) (text : Text) : ∃ k w,
    text ++ breaks delimiter k = w ++ delimiter.text ∧
      signOff delimiter committer text = w ++ delimiter.text ++ getSignedOff committer := by
  obtain ⟨k, w, hw, hterminated⟩ : ∃ k w, text ++ breaks delimiter k = w ++ delimiter.text ∧
      terminated delimiter.text text = w ++ delimiter.text := by
    unfold terminated
    split
    · next hsuffix =>
      obtain ⟨w, hw⟩ := isSuffixOf_iff_suffix.1 hsuffix
      exact ⟨0, w, by rw [hw]; exact append_nil text, hw.symm⟩
    · exact ⟨1, text, by rw [breaks_succ]; rfl, rfl⟩
  unfold signOff
  dsimp only
  rw [hterminated]
  split
  · exact ⟨k, w, hw, rfl⟩
  · refine ⟨k + 1, w ++ delimiter.text, ?_, rfl⟩
    rw [breaks_succ, ← append_assoc, hw]

theorem replaceSignOff_last {w : Text} (committer : Committer)
    (hnot : ¬ getSignedOff committer <:+: w ++ delimiter.text) :
    replaceSignOff delimiter (w ++ delimiter.text ++ getSignedOff committer)
      (getSignedOff committer) [] = w ++ delimiter.text := by
  have hlines : lines delimiter (w ++ delimiter.text ++ getSignedOff committer) =
      split delimiter.text w ++ ([] ++ getSignedOff committer) :: [] := by
    have hfree : split delimiter.text (getSignedOff committer) = [getSignedOff committer] := by
      have happend := split_text_append (delimiter_ne_nil delimiter)
        (getSignedOff_text delimiter committer) []
      simpa using happend
    show split _ _ = _
    rw [append_assoc, split_append_append (delimiter_ne_nil delimiter) (unbordered delimiter),
      hfree]
    rfl
  have hfirst : ∀ l ∈ split delimiter.text w, ¬ getSignedOff committer <:+ l := by
    intro l hl hsuffix
    have hw := Search.infix_of_mem_split (delimiter_ne_nil delimiter) hl
    exact hnot ((hsuffix.isInfix.trans hw).trans (prefix_append ..).isInfix)
  rw [replaceSignOff_eq committer [] hlines hfirst,
    intercalate_append (split_ne_nil (delimiter_ne_nil delimiter) w) (by simp),
    intercalate_split (delimiter_ne_nil delimiter)]
  simp

theorem restores (c : Component) : Restores delimiter c := by
  intro hnot
  rw [toggle_commitText]
  obtain ⟨k, w, hw, hsign⟩ := signOff_eq delimiter c.committerText c.commitText
  have hnot' : ¬ getSignedOff c.committerText <:+: w ++ delimiter.text := by
    rw [← hw]
    intro hin
    refine hnot (Search.infix_of_append (fun x hx hmem => ?_) hin)
    obtain ⟨y, hy, hxy⟩ := mem_flatten.1 hmem
    rw [(mem_replicate.1 hy).2] at hxy
    exact getSignedOff_text delimiter c.committerText x hx hxy
  unfold removed
  rw [← getSignedOff]
  dsimp only
  rw [hsign, replaceSignOff_last _ hnot']
  split
  · have hdrop : (w ++ delimiter.text).take ((w ++ delimiter.text).length - delimiter.text.length) =
        w := take_left' (by rw [length_append]; omega)
    rw [hdrop]
    cases k with
    | zero =>
      refine ⟨w, 1, 0, ?_, (append_nil w).symm⟩
      rw [breaks_succ]
      exact (append_nil _).symm.trans hw
    | succ k =>
      refine ⟨c.commitText, 0, k, (append_nil _).symm, ?_⟩
      rw [breaks_succ, ← append_assoc] at hw
      exact (append_cancel_right hw).symm
  · exact ⟨c.commitText, 0, k, (append_nil _).symm, hw.symm⟩

end

/-! ## Runs -/

/-- The committer is changed only where the listener sees it. -/
def Seen (c : Component) : Event → Prop
  | .committer _ => c.listersEnabled = true ∧ c.signedOff = true
  | .message _ | .selection _ | .signedOff _ | .enableListers _ => True

theorem selection_committers (delimiter : LineDelimiter) (c : Component) (selection : Bool) :
    (next delimiter c (.selection selection)).oldCommitter = c.oldCommitter ∧
      (next delimiter c (.selection selection)).committerText = c.committerText := by
  unfold next setSignedOffButtonSelection refreshSignedOffBy
  dsimp only
  split
  · obtain ⟨flag, h⟩ := setText_eq delimiter { c with signedOff := selection }
      (signOff delimiter c.committerText c.commitText)
    rw [h]
    exact ⟨rfl, rfl⟩
  · obtain ⟨flag, h⟩ := setText_eq delimiter { c with signedOff := selection }
      (removed delimiter c.committerText.text c.commitText)
    rw [h]
    exact ⟨rfl, rfl⟩

theorem remembers_of_guarded {c : Component}
    (h : (machine delimiter).ReachableIf Seen c) : c.oldCommitter = c.committerText := by
  refine h.invariant (fun _ hinit => hinit) ?_
  intro c e c' hc hseen hstep
  cases hstep
  cases e with
  | committer newCommitter =>
    obtain ⟨flag, hset⟩ := setText_eq delimiter { c with committerText := newCommitter }
      (replaceSignOff delimiter c.commitText (getSignedOff c.oldCommitter)
        (getSignedOff newCommitter))
    have hnext : next delimiter c (.committer newCommitter) =
        { setText delimiter { c with committerText := newCommitter }
            (replaceSignOff delimiter c.commitText (getSignedOff c.oldCommitter)
              (getSignedOff newCommitter)) with oldCommitter := newCommitter } := by
      unfold next setCommitter
      dsimp only
      rw [if_pos (by rw [hseen.1, hseen.2]; rfl)]
    rw [hnext, hset]
    rfl
  | message text =>
    obtain ⟨flag, hset⟩ := setText_eq delimiter c text
    show (setText delimiter c text).oldCommitter = (setText delimiter c text).committerText
    rw [hset]
    exact hc
  | selection selection =>
    obtain ⟨hold, hcommitter⟩ := selection_committers delimiter c selection
    exact hold.trans (Eq.trans hc hcommitter.symm)
  | signedOff signedOff => exact hc
  | enableListers enable => exact hc

/-- In such runs only an earlier line that ends with the sign-off is in the way. -/
theorem follows_of_guarded {c : Component} {newCommitter : Committer} {pre post : List Text}
    (h : (machine delimiter).ReachableIf Seen c) (hasked : Asked delimiter c newCommitter pre post)
    (hpre : ∀ l ∈ pre, ¬ getSignedOff c.committerText <:+ l) :
    Follows delimiter c newCommitter pre post :=
  hasked.follows ⟨remembers_of_guarded h, hpre⟩

end

def sampleCommitter (c : CodeUnit) (h : c ≠ 10 ∧ c ≠ 13) : Committer :=
  ⟨[c], by simpa using Ne.symm h.1, by simpa using Ne.symm h.2⟩

end Egit.SignOff
