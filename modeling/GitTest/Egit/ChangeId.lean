import GitTest.Lib.Search
import GitTest.Egit.CommitMessage

/-!
# The Change-Id line of a commit message (CommitMessageComponent.java)

`saveOriginalChangeId` looks for the Change-Id of the commit that is amended, `refreshChangeIdText`
takes the line out of the editor.  Both search for a line break with `Change-Id: I` behind it, and
for the next line break.

    the id of the first line with 40 hexadecimal digits is saved ↔
      no earlier line behind a break begins with `Change-Id: I`, the line is not right behind a
      break at the very beginning, and a line break follows  (saveOriginalChangeId_iff)
    the first line that begins with `Change-Id: I` is taken out ↔
      it is not right behind a break at the very beginning, and a line break follows
      (refreshChangeIdText_iff)
-/

namespace Egit.ChangeId

open CommitMessage List Split
open HardWrap (Text LineDelimiter CodeUnit delimiter_ne_nil unbordered)

/-! ## Algorithm -/

def isHexDigit (c : CodeUnit) : Bool :=
  decide (48 ≤ c ∧ c ≤ 57 ∨ 65 ≤ c ∧ c ≤ 70 ∨ 97 ≤ c ∧ c ≤ 102)

/-- `ObjectId.fromString`; `none` is an `IllegalArgumentException`. -/
structure IdReader where
  fromString : Text → Option ObjectId
  reads : ∀ s, (fromString s).isSome = (decide (s.length = 40) && s.all isHexDigit)

/-- `String.substring`; `none` is an exception. -/
def substring (s : Text) (beginIndex endIndex : Nat) : Option Text :=
  if beginIndex ≤ endIndex ∧ endIndex ≤ s.length then some ((s.take endIndex).drop beginIndex)
  else none

section
variable (ids : IdReader) (delimiter : LineDelimiter)

/-- The new `originalChangeId`, or `none` if an exception is not caught. -/
def saveOriginalChangeId (previousCommitMessage : Text) : Option (Option ObjectId) :=
  match findOffsetOfChangeIdLine delimiter previousCommitMessage with
  | none => some none
  | some changeIdOffset =>
    if changeIdOffset > 0 then
      let endOfChangeId := (findNextEOL delimiter changeIdOffset previousCommitMessage).getD
        (previousCommitMessage.length - 1)
      let sha1Offset := changeIdOffset + delimiter.text.length + changeIdTag.length
      (substring previousCommitMessage sha1Offset endOfChangeId).map ids.fromString
    else some none

/-! ## What it is for -/

abbrev lines (text : Text) : List Text := split delimiter.text text

def IsChangeId (id : ObjectId) (line : Text) : Prop :=
  ∃ digits, line = changeIdTag ++ digits ∧ ids.fromString digits = some id

/-- The first line with a Change-Id, the very first line of the message apart. -/
structure FirstId (message : Text) (first : Text) (before : List Text) (id : ObjectId)
    (after : List Text) : Prop where
  found : ∃ line, IsChangeId ids id line ∧ lines delimiter message = first :: before ++ line :: after
  none_before : ∀ line ∈ before, ∀ other, ¬ IsChangeId ids other line

structure Keeps (message : Text) (originalChangeId : Option (Option ObjectId)) : Prop where
  id : ∀ first before id after, FirstId ids delimiter message first before id after →
    originalChangeId = some (some id)
  null : (∀ line ∈ lines delimiter message, ¬ changeIdTag <+: line) → originalChangeId = some none

/-- The condition for a line that is found. -/
def Framed (first : Text) (before after : List Text) : Prop :=
  (first ≠ [] ∨ before ≠ []) ∧ after ≠ []

structure Cleans (text : Text) (result : Option Text) : Prop where
  line : ∀ first before x after,
    lines delimiter text = first :: before ++ (changeIdTag ++ x) :: after →
      (∀ l ∈ before, ¬ changeIdTag <+: l) →
        result = some (delimiter.text.intercalate (first :: before ++ after))
  other : ∀ first rest, lines delimiter text = first :: rest → (∀ l ∈ rest, ¬ changeIdTag <+: l) →
    result = some text

end

/-! ## What is found -/

section
variable {delimiter : LineDelimiter}

theorem changeIdTag_eq :
    changeIdTag = [67, 104, 97, 110, 103, 101, 45, 73, 100, 58, 32, 73] := rfl

theorem changeIdTag_text (delimiter : LineDelimiter) : ∀ c ∈ changeIdTag, c ∉ delimiter.text := by
  rw [changeIdTag_eq]
  cases delimiter with
  | lf | crlf => simp [LineDelimiter.text]

theorem intercalate_pos_iff (first : Text) (before : List Text) :
    (delimiter.text.intercalate (first :: before)).length > 0 ↔ first ≠ [] ∨ before ≠ [] := by
  have hd := length_pos_iff.2 (delimiter_ne_nil delimiter)
  cases before with
  | nil =>
    rw [gt_iff_lt, length_pos_iff]
    simp
  | cons l before =>
    rw [intercalate_cons_cons]
    simp only [length_append]
    exact iff_of_true (by omega) (.inr (by simp))

theorem substring_digits {a t x rest : Text} {k : Nat} (hk : k ≤ x.length) :
    substring (a ++ t ++ x ++ rest) (a.length + t.length) (a.length + t.length + k) =
      some (x.take k) := by
  have hlen : a.length + t.length = (a ++ t).length := by rw [length_append]
  unfold substring
  rw [if_pos (by simp only [length_append]; omega), hlen, append_assoc,
    take_length_add_append, drop_left, take_append_of_le_length hk]

theorem substring_last {a t x : Text} (ht : t ≠ []) :
    substring (a ++ t ++ x) (a.length + t.length) ((a ++ t ++ x).length - 1) =
      if x = [] then none else some x.dropLast := by
  split
  · next hx =>
    subst hx
    have hpos := length_pos_iff.2 ht
    unfold substring
    rw [if_neg]
    simp only [length_append, length_nil]
    omega
  · next hx =>
    have hpos := length_pos_iff.2 hx
    have hend : (a ++ t ++ x).length - 1 = a.length + t.length + (x.length - 1) := by
      simp only [length_append]
      omega
    have hdigits : substring (a ++ t ++ x ++ []) (a.length + t.length)
        (a.length + t.length + (x.length - 1)) = some (x.take (x.length - 1)) :=
      substring_digits (Nat.sub_le x.length 1)
    rw [append_nil, ← hend] at hdigits
    rw [hdigits, dropLast_eq_take]

section
variable {text first x : Text} {before after : List Text}

theorem offset_none {rest : List Text} (h : lines delimiter text = first :: rest)
    (hnone : ∀ l ∈ rest, ¬ changeIdTag <+: l) : findOffsetOfChangeIdLine delimiter text = none :=
  (Search.indexOf_begin_eq_none_iff (delimiter_ne_nil delimiter) (unbordered delimiter)
    (changeIdTag_text delimiter) h).2 hnone

variable (h : lines delimiter text = first :: before ++ (changeIdTag ++ x) :: after)
include h

theorem offset_some (hbefore : ∀ l ∈ before, ¬ changeIdTag <+: l) :
    findOffsetOfChangeIdLine delimiter text =
      some (delimiter.text.intercalate (first :: before)).length :=
  Search.indexOf_begin (delimiter_ne_nil delimiter) (unbordered delimiter)
    (changeIdTag_text delimiter) h hbefore

theorem nextEOL : findNextEOL delimiter (delimiter.text.intercalate (first :: before)).length text =
    if after = [] then none
    else some ((delimiter.text.intercalate (first :: before)).length + delimiter.text.length +
      (changeIdTag ++ x).length) :=
  Search.indexOf_next (delimiter_ne_nil delimiter) (unbordered delimiter) (by simp) h

theorem text_eq : ∃ rest, text = delimiter.text.intercalate (first :: before) ++
      (delimiter.text ++ changeIdTag) ++ x ++ rest ∧
    delimiter.text.intercalate (first :: before) ++ rest =
      delimiter.text.intercalate (first :: before ++ after) ∧ (after = [] → rest = []) := by
  have htext := Search.text_begin (delimiter_ne_nil delimiter) (by simp) h
  cases after with
  | nil =>
    rw [htext]
    simp
  | cons l after =>
    refine ⟨delimiter.text ++ delimiter.text.intercalate (l :: after), ?_, ?_, by simp⟩
    · rw [htext]
      simp
    · rw [intercalate_append (by simp) (by simp)]

theorem refreshChangeIdText_eq (hbefore : ∀ l ∈ before, ¬ changeIdTag <+: l) :
    refreshChangeIdText delimiter text =
      if first ≠ [] ∨ before ≠ [] then
        if after = [] then none
        else some (delimiter.text.intercalate (first :: before ++ after))
      else some text := by
  unfold refreshChangeIdText
  rw [offset_some h hbefore]
  dsimp only
  rw [nextEOL h]
  simp only [intercalate_pos_iff]
  obtain ⟨rest, htext, hrest, -⟩ := text_eq h
  split
  · split
    · rfl
    · rw [Option.map_some, ← hrest, htext]
      congr 2
      · rw [append_assoc, append_assoc, take_left]
      · exact drop_left' (by simp only [length_append]; omega)
  · rfl

theorem saveOriginalChangeId_eq (hbefore : ∀ l ∈ before, ¬ changeIdTag <+: l) :
    saveOriginalChangeId ids delimiter text =
      if first ≠ [] ∨ before ≠ [] then
        if after = [] then if x = [] then none else some (ids.fromString x.dropLast)
        else some (ids.fromString x)
      else some none := by
  unfold saveOriginalChangeId
  rw [offset_some h hbefore]
  dsimp only
  rw [nextEOL h]
  simp only [intercalate_pos_iff]
  obtain ⟨rest, htext, -, hrest⟩ := text_eq h
  have hsha : (delimiter.text.intercalate (first :: before)).length + delimiter.text.length +
      changeIdTag.length = (delimiter.text.intercalate (first :: before)).length +
        (delimiter.text ++ changeIdTag).length := by
    rw [length_append]
    omega
  rw [hsha]
  split
  · split
    · next hafter =>
      have hne : delimiter.text ++ changeIdTag ≠ [] :=
        append_ne_nil_of_left_ne_nil (delimiter_ne_nil delimiter) _
      rw [Option.getD_none, htext, hrest hafter, append_nil, substring_last hne]
      split <;> rfl
    · have hend : (delimiter.text.intercalate (first :: before)).length + delimiter.text.length +
          (changeIdTag ++ x).length = (delimiter.text.intercalate (first :: before)).length +
            (delimiter.text ++ changeIdTag).length + x.length := by
        simp only [length_append]
        omega
      rw [Option.getD_some, htext, hend, substring_digits (Nat.le_refl _), take_length]
      rfl
  · rfl

end

/-! ## Proof -/

def IdFramed (ids : IdReader) (delimiter : LineDelimiter) (message : Text) : Prop :=
  ∀ first before id after, FirstId ids delimiter message first before id after →
    Framed first before after ∧ ∀ line ∈ before, ¬ changeIdTag <+: line

theorem exists_first (delimiter : LineDelimiter) (text : Text) :
    ∃ first rest, lines delimiter text = first :: rest :=
  exists_cons_of_ne_nil (split_ne_nil (delimiter_ne_nil delimiter) text)

/-- **The removed line.**  The first line behind a break that begins with the tag is taken out if
and only if it is neither right behind a break at the beginning nor last. -/
theorem refreshChangeIdText_iff (delimiter : LineDelimiter) (text : Text) :
    Cleans delimiter text (refreshChangeIdText delimiter text) ↔
      ∀ first before x after,
        lines delimiter text = first :: before ++ (changeIdTag ++ x) :: after →
          (∀ l ∈ before, ¬ changeIdTag <+: l) → Framed first before after := by
  constructor
  · intro h first before x after hlines hbefore
    have hclean := h.line first before x after hlines hbefore
    rw [refreshChangeIdText_eq hlines hbefore] at hclean
    split at hclean
    · next hpos =>
      split at hclean
      · cases hclean
      · next hafter => exact ⟨hpos, hafter⟩
    · -- the line is still there, so the text is longer
      obtain ⟨rest, htext, hrest, -⟩ := text_eq hlines
      have hlen := congrArg List.length (Option.some.inj hclean)
      have hpos := length_pos_iff.2 (delimiter_ne_nil delimiter)
      rw [← hrest, htext] at hlen
      simp only [length_append] at hlen
      omega
  · intro h
    constructor
    · intro first before x after hlines hbefore
      obtain ⟨hpos, hafter⟩ := h first before x after hlines hbefore
      rw [refreshChangeIdText_eq hlines hbefore, if_pos hpos, if_neg hafter]
    · intro first rest hlines hnone
      rw [refreshChangeIdText, offset_none hlines hnone]

theorem IdReader.length_eq (ids : IdReader) {s : Text} {id : ObjectId}
    (h : ids.fromString s = some id) : s.length = 40 := by
  have hs := ids.reads s
  rw [h, Option.isSome_some, eq_comm, Bool.and_eq_true, decide_eq_true_eq] at hs
  exact hs.1

/-- **The saved Change-Id.**  The id of the first line that has one is saved if and only if nothing
before it is taken for it, and it is neither right behind a break at the beginning nor last. -/
theorem saveOriginalChangeId_iff (ids : IdReader) (delimiter : LineDelimiter) (message : Text) :
    Keeps ids delimiter message (saveOriginalChangeId ids delimiter message) ↔
      IdFramed ids delimiter message := by
  constructor
  · intro h first before id after hid
    have hsave := h.id first before id after hid
    obtain ⟨_, ⟨digits, rfl, hdigits⟩, hlines⟩ := hid.found
    rcases Search.first_line (changeIdTag <+: ·) before with
      hbefore | ⟨before, _, between, rfl, ⟨x, rfl⟩, hbefore⟩
    · rw [saveOriginalChangeId_eq hlines hbefore] at hsave
      split at hsave
      · next hpos =>
        split at hsave
        · split at hsave
          · cases hsave
          · -- the last digit is lost
            have hlen := ids.length_eq (Option.some.inj hsave)
            rw [length_dropLast, ids.length_eq hdigits] at hlen
            omega
        · next hafter => exact ⟨⟨hpos, hafter⟩, hbefore⟩
      · cases hsave
    · -- the line before is taken, and it has no Change-Id
      have hlines' : lines delimiter message = first :: before ++ (changeIdTag ++ x) ::
          (between ++ (changeIdTag ++ digits) :: after) := by
        rw [hlines]
        simp
      rw [saveOriginalChangeId_eq hlines' hbefore] at hsave
      split at hsave
      · rw [if_neg (by simp)] at hsave
        exact absurd ⟨x, rfl, Option.some.inj hsave⟩ (hid.none_before _ (by simp) id)
      · cases hsave
  · intro h
    constructor
    · intro first before id after hid
      obtain ⟨⟨hpos, hafter⟩, hbefore⟩ := h first before id after hid
      obtain ⟨_, ⟨digits, rfl, hdigits⟩, hlines⟩ := hid.found
      rw [saveOriginalChangeId_eq hlines hbefore, if_pos hpos, if_neg hafter, hdigits]
    · intro hnone
      obtain ⟨first, rest, hlines⟩ := exists_first delimiter message
      have hrest : ∀ l ∈ rest, ¬ changeIdTag <+: l := by
        intro l hl
        exact hnone l (by rw [hlines]; exact mem_cons_of_mem first hl)
      rw [saveOriginalChangeId, offset_none hlines hrest]

end

/-- A code unit of a digit has its value in the last four bits, and bit 6 set for a letter. -/
def hexReader : IdReader where
  fromString s :=
    if decide (s.length = 40) && s.all isHexDigit then
      some (s.foldl (fun id c => id * 16 + (c.toNat % 16 + 9 * (c.toNat / 64))) 0)
    else none
  reads s := by
    split <;> simp_all

/-- The message `a` and a last line with forty times the digit 1: the id is not found. -/
theorem last_line_id_lost :
    let digits : Text := List.replicate 40 49
    let message : Text := 97 :: 10 :: changeIdTag ++ digits
    saveOriginalChangeId hexReader .lf message = some none ∧
      ¬ Keeps hexReader .lf message (saveOriginalChangeId hexReader .lf message) := by
  intro digits message
  have hlines : lines .lf message = [97] :: [] ++ (changeIdTag ++ digits) :: [] := by decide
  have hsave : saveOriginalChangeId hexReader .lf message = some none := by
    decide
  obtain ⟨id, hid⟩ : ∃ id, hexReader.fromString digits = some id := ⟨_, rfl⟩
  refine ⟨hsave, fun h => ?_⟩
  have hkeeps := h.id [97] [] id [] ⟨⟨_, ⟨digits, rfl, hid⟩, hlines⟩, by simp⟩
  cases hkeeps

/-- The message `a` and a last line `Change-Id: I0`: `substring` throws. -/
theorem last_line_throws :
    let text : Text := 97 :: 10 :: changeIdTag ++ [48]
    refreshChangeIdText .lf text = none ∧ ¬ Cleans .lf text (refreshChangeIdText .lf text) := by
  intro text
  have hlines : lines .lf text = [97] :: [] ++ (changeIdTag ++ [48]) :: [] := by decide
  have hthrows : refreshChangeIdText .lf text = none := by
    rfl
  refine ⟨hthrows, fun h => ?_⟩
  have hclean := h.line [97] [] [48] [] hlines (by simp)
  cases hclean

end Egit.ChangeId
