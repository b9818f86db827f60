import GitTest.Egit.CommitMessage
import GitTest.Lib.Lines

/-!
# The header of a diff in Eclipse format (FileDiff.java)

`outputEclipseDiff` reads the ids and the modes of the two sides from two arrays.  `getModes` puts
the old mode into both places of its array.

    the header has the lines that belong in it ↔ both sides have the same mode  (header_right_iff)
-/

namespace Egit.EclipseDiff

open List

open HardWrap (Text)
open CommitMessage (ObjectId ofAscii)

/-! ## Algorithm -/

/-- `FileMode` of JGit by its bits. -/
abbrev FileMode := BitVec 32

def missing : FileMode := 0

def zeroId : ObjectId := 0

inductive ChangeType
  | add | modify | delete | rename | copy
  deriving DecidableEq, Repr

structure Side where
  id : ObjectId
  mode : FileMode
  path : Text
  id_eq_zero : id = zeroId ↔ mode = missing

/-- `DiffEntry` of JGit, between two trees. -/
structure DiffEntry where
  changeType : ChangeType
  old : Side
  new : Side
  exists_side : ¬ (old.mode = missing ∧ new.mode = missing)
  delete : changeType = .delete ↔ new.mode = missing

/-- `FileDiff`, with the entry or, for a commit with several parents, what
`FileDiffForMerges` keeps: one place for each parent and one for the commit. -/
inductive FileDiff
  | entry (diffEntry : DiffEntry)
  | forMerges (path : Text) (change : ChangeType) (sides : List (ObjectId × FileMode))
    (several : 2 < sides.length)

namespace FileDiff

def getPath : FileDiff → Text
  | entry diffEntry =>
    if diffEntry.changeType = .delete then diffEntry.old.path else diffEntry.new.path
  | forMerges path _ _ _ => path

def getBlobs : FileDiff → List ObjectId
  | entry diffEntry => [diffEntry.old.id, diffEntry.new.id]
  | forMerges _ _ sides _ => sides.map Prod.fst

/-- The source asks for the old mode twice. -/
def getModes : FileDiff → List FileMode
  | entry diffEntry => [diffEntry.old.mode, diffEntry.old.mode]
  | forMerges _ _ sides _ => sides.map Prod.snd

end FileDiff

inductive Error
  | unsupportedOperation
  | nullPointer
  deriving DecidableEq, Repr

section
variable (abbreviate : ObjectId → Text) (modeText : FileMode → Text)

/-- What `outputEclipseDiff` appends before the edits. -/
def header (path : Text) (id1 id2 : ObjectId) (mode1 mode2 : FileMode) : Text :=
  ofAscii "diff --git " ++ path ++ ofAscii " " ++ path ++ ofAscii "\n" ++
  (if id1 = zeroId then ofAscii "new file mode " ++ modeText mode2 ++ ofAscii "\n"
    else if id2 = zeroId then ofAscii "deleted file mode " ++ modeText mode1 ++ ofAscii "\n"
    else if mode1 ≠ mode2 then
      ofAscii "old mode " ++ modeText mode1 ++
        (ofAscii "new mode " ++ modeText mode2 ++ ofAscii "\n")
    else []) ++
  (ofAscii "index " ++ abbreviate id1 ++ ofAscii ".." ++ abbreviate id2 ++
    (if mode1 = mode2 then ofAscii " " ++ modeText mode1 else []) ++ ofAscii "\n") ++
  (if id1 = zeroId then ofAscii "--- /dev/null\n" else ofAscii "--- " ++ path ++ ofAscii "\n") ++
  (if id2 = zeroId then ofAscii "+++ /dev/null\n" else ofAscii "+++ " ++ path ++ ofAscii "\n")

/-- The edits come from `diffFmt`; a path outside the workspace has no resource. -/
def outputEclipseDiff (getProjectRelativePath : Text → Option Text)
    (edits : ObjectId → ObjectId → Text) (fileDiff : FileDiff) (d : Text) : Except Error Text :=
  match fileDiff.getBlobs, fileDiff.getModes with
  | [id1, id2], [mode1, mode2] =>
    match getProjectRelativePath fileDiff.getPath with
    | none => .error .nullPointer
    | some path => .ok (d ++ header abbreviate modeText path id1 id2 mode1 mode2 ++ edits id1 id2)
  | _, _ => .error .unsupportedOperation

/-! ## What it is for -/

def unlines (lines : List Text) : Text := lines.flatMap fun line => line ++ [10]

def modeLines (old new : FileMode) : List Text :=
  if old = missing then [ofAscii "new file mode " ++ modeText new]
  else if new = missing then [ofAscii "deleted file mode " ++ modeText old]
  else if old ≠ new then [ofAscii "old mode " ++ modeText old, ofAscii "new mode " ++ modeText new]
  else []

/-- The line of the ids, with the mode that both sides have. -/
def indexLine (e : DiffEntry) : Text :=
  ofAscii "index " ++ abbreviate e.old.id ++ ofAscii ".." ++ abbreviate e.new.id ++
    (if e.old.mode = e.new.mode then ofAscii " " ++ modeText e.old.mode else [])

def fileLine (marker path : Text) (side : Side) : Text :=
  marker ++ (if side.mode = missing then ofAscii "/dev/null" else path)

def headerLines (path : Text) (e : DiffEntry) : List Text :=
  [ofAscii "diff --git " ++ path ++ ofAscii " " ++ path] ++ modeLines modeText e.old.mode e.new.mode ++
    [indexLine abbreviate modeText e, fileLine (ofAscii "--- ") path e.old,
      fileLine (ofAscii "+++ ") path e.new]

end

/-! ## Proof -/

theorem unlines_singleton (line : Text) : unlines [line] = line ++ [10] := by
  simp [unlines]

section
variable (abbreviate : ObjectId → Text) (modeText : FileMode → Text) (path : Text) (e : DiffEntry)

/-- A header with these lines about the modes and this end of the line of the ids. -/
def framed (modes suffix : Text) : Text :=
  ofAscii "diff --git " ++ path ++ ofAscii " " ++ path ++ [10] ++
    (modes ++ (ofAscii "index " ++ (abbreviate e.old.id ++ ofAscii ".." ++ abbreviate e.new.id) ++
      (suffix ++ unlines [[], fileLine (ofAscii "--- ") path e.old,
        fileLine (ofAscii "+++ ") path e.new])))

/-- What the source writes about the modes, with the old mode on both sides. -/
def writtenModes : Text :=
  if e.old.mode = missing then ofAscii "new file mode " ++ modeText missing ++ [10]
  else if e.new.mode = missing then ofAscii "deleted file mode " ++ modeText e.old.mode ++ [10]
  else []

theorem header_eq_framed : header abbreviate modeText path e.old.id e.new.id e.old.mode e.old.mode =
    framed abbreviate path e (writtenModes modeText e) (ofAscii " " ++ modeText e.old.mode) := by
  have hnewline : ofAscii "\n" = [10] := rfl
  have hold : ofAscii "--- /dev/null\n" = ofAscii "--- " ++ ofAscii "/dev/null" ++ [10] := rfl
  have hnew : ofAscii "+++ /dev/null\n" = ofAscii "+++ " ++ ofAscii "/dev/null" ++ [10] := rfl
  unfold header framed writtenModes fileLine unlines
  rw [hnewline, hold, hnew]
  simp only [e.old.id_eq_zero, e.new.id_eq_zero]
  by_cases ho : e.old.mode = missing
  · have hn : e.new.mode ≠ missing := fun hn => e.exists_side ⟨ho, hn⟩
    simp [ho, hn]
  · by_cases hn : e.new.mode = missing
    · simp [ho, hn]
    · simp [ho, hn]

theorem unlines_eq_framed : unlines (headerLines abbreviate modeText path e) =
    framed abbreviate path e (unlines (modeLines modeText e.old.mode e.new.mode))
      (if e.old.mode = e.new.mode then ofAscii " " ++ modeText e.old.mode else []) := by
  simp [headerLines, framed, unlines, indexLine]

variable {abbreviate modeText path e}

/-- The mode of a line is read off the header up to the line break. -/
theorem framed_line_cancel (hmode : ∀ mode, 10 ∉ modeText mode) {start suffix suffix' : Text}
    {mode mode' : FileMode}
    (h : framed abbreviate path e (start ++ modeText mode ++ [10]) suffix =
      framed abbreviate path e (start ++ modeText mode' ++ [10]) suffix') :
    suffix = suffix' := by
  simp only [framed, append_assoc, append_cancel_left_eq] at h
  have hrest := (Lines.first_line_inj (hmode mode) (hmode mode') h).2
  simpa using hrest

theorem header_right_of_eq (h : e.old.mode = e.new.mode) :
    header abbreviate modeText path e.old.id e.new.id e.old.mode e.old.mode =
      unlines (headerLines abbreviate modeText path e) := by
  have ho : e.old.mode ≠ missing := fun ho => e.exists_side ⟨ho, h.symm.trans ho⟩
  have hn : e.new.mode ≠ missing := fun hn => ho (h.trans hn)
  rw [header_eq_framed, unlines_eq_framed]
  simp [writtenModes, modeLines, unlines, hn, h]

theorem eq_of_header_right (hmode : ∀ mode, 10 ∉ modeText mode)
    (h : header abbreviate modeText path e.old.id e.new.id e.old.mode e.old.mode =
      unlines (headerLines abbreviate modeText path e)) : e.old.mode = e.new.mode := by
  by_contra hne
  rw [header_eq_framed, unlines_eq_framed, writtenModes, modeLines] at h
  have hsuffix : ofAscii " " ++ modeText e.old.mode ≠ [] := by simp [ofAscii]
  split at h
  · rw [unlines_singleton] at h
    exact hsuffix (framed_line_cancel hmode h)
  · split at h
    · rw [unlines_singleton] at h
      exact hsuffix (framed_line_cancel hmode h)
    · -- 'i' of the line of the ids, 'o' of the first line about the modes
      have hhead := congrArg List.head? (append_cancel_left h)
      simp [ofAscii, unlines] at hhead

end

section
variable (abbreviate : ObjectId → Text) (modeText : FileMode → Text)
  (getProjectRelativePath : Text → Option Text) (edits : ObjectId → ObjectId → Text) (d : Text)

theorem outputEclipseDiff_forMerges (path : Text) (change : ChangeType)
    (sides : List (ObjectId × FileMode)) (several : 2 < sides.length) :
    outputEclipseDiff abbreviate modeText getProjectRelativePath edits
      (.forMerges path change sides several) d = .error .unsupportedOperation := by
  match sides, several with
  | _ :: _ :: _ :: _, _ => rfl

theorem outputEclipseDiff_entry (e : DiffEntry) {path : Text}
    (hpath : getProjectRelativePath (FileDiff.entry e).getPath = some path) :
    outputEclipseDiff abbreviate modeText getProjectRelativePath edits (.entry e) d =
      .ok (d ++ header abbreviate modeText path e.old.id e.new.id e.old.mode e.old.mode ++
        edits e.old.id e.new.id) := by
  simp only [outputEclipseDiff, FileDiff.getBlobs, FileDiff.getModes, hpath]

/-- **The header of a diff.**  Whatever the text of a mode is, if it has no line break in it. -/
theorem header_right_iff (hmode : ∀ mode, 10 ∉ modeText mode) (e : DiffEntry) {path : Text}
    (hpath : getProjectRelativePath (FileDiff.entry e).getPath = some path) :
    outputEclipseDiff abbreviate modeText getProjectRelativePath edits (.entry e) d =
        .ok (d ++ unlines (headerLines abbreviate modeText path e) ++ edits e.old.id e.new.id) ↔
      e.old.mode = e.new.mode := by
  rw [outputEclipseDiff_entry abbreviate modeText getProjectRelativePath edits d e hpath]
  constructor
  · intro h
    apply eq_of_header_right hmode
    exact append_cancel_left (append_cancel_right (Except.ok.inj h))
  · intro h
    rw [header_right_of_eq h]

end

def octal (mode : FileMode) : Text :=
  (Nat.toDigits 8 mode.toNat).map fun c => c.val.toUInt16

theorem newline_notMem_octal (mode : FileMode) : 10 ∉ octal mode := by
  intro h
  obtain ⟨c, hc, hten⟩ := mem_map.1 h
  have hdigit := Nat.isDigit_of_mem_toDigits (by decide) (by decide) hc
  obtain ⟨hge, hle⟩ := Char.isDigit_iff_toNat.1 hdigit
  have hzero : '0'.toNat = 48 := rfl
  have hnine : '9'.toNat = 57 := rfl
  have hmod : c.toNat % 2 ^ 16 = 10 := by simpa using congrArg UInt16.toNat hten
  omega

/-- A regular file in both trees. -/
def modified : DiffEntry where
  changeType := .modify
  old := ⟨1, 0o100644, ofAscii "f", by decide⟩
  new := ⟨2, 0o100644, ofAscii "f", by decide⟩
  exists_side := by decide
  delete := by decide

theorem header_right_modified :
    (outputEclipseDiff (fun _ => ofAscii "abc") octal some (fun _ _ => []) (.entry modified) [] =
        .ok (unlines (headerLines (fun _ => ofAscii "abc") octal (ofAscii "f") modified))) ∧
      modified.old.mode = modified.new.mode := by
  have hpath : some (FileDiff.entry modified).getPath = some (ofAscii "f") := rfl
  have hiff := header_right_iff (fun _ => ofAscii "abc") octal some (fun _ _ => []) []
    newline_notMem_octal modified hpath
  refine ⟨?_, rfl⟩
  simpa using hiff.2 rfl

def added : DiffEntry where
  changeType := .add
  old := ⟨0, 0, ofAscii "/dev/null", by decide⟩
  new := ⟨2, 0o100644, ofAscii "f", by decide⟩
  exists_side := by decide
  delete := by decide

/-- The mode of a new file is written as 0, and on the line of the ids as well. -/
theorem added_mode_zero :
    outputEclipseDiff (fun _ => ofAscii "abc") octal some (fun _ _ => []) (.entry added) [] =
        .ok (ofAscii "diff --git f f\nnew file mode 0\nindex abc..abc 0\n--- /dev/null\n+++ f\n") ∧
      unlines (headerLines (fun _ => ofAscii "abc") octal (ofAscii "f") added) =
        ofAscii "diff --git f f\nnew file mode 100644\nindex abc..abc\n--- /dev/null\n+++ f\n" := by
  decide +kernel

end Egit.EclipseDiff
