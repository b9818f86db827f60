import GitTest.Egit.CommitMessage
import Mathlib.Data.List.DropRight

/-!
# Edits of a ref specification (RefSpecPanel.java)

An edit of one side rewrites the other one at its last slash, so that again both sides are wildcards
or neither is.  A typed `*` is no wildcard, but behind the last slash of a wildcard it makes one.

    every edit of a legal specification is right ↔ the typed text is not `*`, or no side is a
      wildcard  (edit_right_iff)
-/

namespace Egit.RefSpecEdit

open List

open HardWrap (Text)
open CommitMessage (ofAscii)

/-! ## Algorithm -/

def slash : UInt16 := 47
def star : UInt16 := 42

def isWildcard : Option Text → Bool
  | none => false
  | some s => [slash, star].isSuffixOf s

structure RefSpec where
  force : Bool
  source : Option Text
  destination : Option Text
  deriving DecidableEq, Repr

/-- `RefSpec.setSourceDestination`; `none` is the `IllegalStateException`. -/
def RefSpec.setSourceDestination (spec : RefSpec) (source destination : Option Text) :
    Option RefSpec :=
  if isWildcard source ≠ isWildcard destination then none
  else some { spec with source, destination }

def refChooseSome : Text := ofAscii "choose/some/ref"
def refChooseSomeWildcard : Text := ofAscii "choose/some/ref/*"

/-- The text behind the last slash, `s.substring(s.lastIndexOf('/') + 1)`. -/
def afterSlash (s : Text) : Text := s.rtakeWhile (· ≠ slash)

/-- The text up to the last slash, empty if there is none. -/
def uptoSlash (s : Text) : Text := s.rdropWhile (· ≠ slash)

def wildcardSpecComponent (comp : Option Text) : Option Text :=
  if isWildcard comp then comp
  else
    match comp with
    | none => some refChooseSomeWildcard
    | some s => if slash ∈ s then some (uptoSlash s ++ [star]) else some refChooseSomeWildcard

def unwildcardSpecComponent (comp other : Option Text) : Option Text :=
  if isWildcard comp then
    if other.getD [] = [] then some []
    else comp.map fun s => s.dropLast ++ afterSlash (other.getD [])
  else comp

def setRefSpecSource (spec : RefSpec) (src : Option Text) : Option RefSpec :=
  let dst := if isWildcard src then wildcardSpecComponent spec.destination
    else unwildcardSpecComponent spec.destination src
  spec.setSourceDestination src dst

def setRefSpecDestination (spec : RefSpec) (dst : Option Text) : Option RefSpec :=
  let src := if isWildcard dst then wildcardSpecComponent spec.source
    else unwildcardSpecComponent spec.source dst
  spec.setSourceDestination src dst

/-- `setValue` of the mode column. -/
def setMode (spec : RefSpec) (delete : Bool) : Option RefSpec :=
  if delete then setRefSpecSource spec none else setRefSpecSource spec (some refChooseSome)

/-! ## Specification -/

def Legal (spec : RefSpec) : Prop := isWildcard spec.source = isWildcard spec.destination

instance (spec : RefSpec) : Decidable (Legal spec) :=
  inferInstanceAs (Decidable (isWildcard spec.source = isWildcard spec.destination))

/-- The edit does not throw, and the result is legal and has the value on the side `side`. -/
def Yields (side : RefSpec → Option Text) (value : Option Text) (result : Option RefSpec) : Prop :=
  ∃ spec, result = some spec ∧ side spec = value ∧ Legal spec

def EditsRight (spec : RefSpec) (typed : Text) : Prop :=
  Yields RefSpec.source (some typed) (setRefSpecSource spec (some typed)) ∧
    Yields RefSpec.destination (some typed) (setRefSpecDestination spec (some typed)) ∧
    Yields RefSpec.source none (setMode spec true) ∧
    Yields RefSpec.source (some refChooseSome) (setMode spec false)

/-! ## Proof -/

theorem afterSlash_append (s : Text) {a : Text} (h : slash ∉ a) :
    afterSlash (s ++ slash :: a) = a := by
  have ha : ∀ c ∈ a.reverse, decide (c ≠ slash) = true := by
    intro c hc
    rw [decide_eq_true_eq]
    rintro rfl
    exact h (mem_reverse.1 hc)
  rw [afterSlash, List.rtakeWhile, reverse_append, reverse_cons, append_assoc,
    takeWhile_append_of_pos ha]
  simp

theorem uptoSlash_eq (s : Text) : uptoSlash s = [] ∨ ∃ x, uptoSlash s = x ++ [slash] := by
  by_cases h : uptoSlash s = []
  · exact .inl h
  · have hlast := rdropWhile_last_not (· ≠ slash) s h
    rw [decide_eq_true_eq, not_not] at hlast
    refine .inr ⟨(uptoSlash s).dropLast, ?_⟩
    conv_lhs => rw [← dropLast_append_getLast h]
    exact congrArg (fun c => (uptoSlash s).dropLast ++ [c]) hlast

theorem isWildcard_some {s : Text} : isWildcard (some s) = true ↔ ∃ x, s = x ++ [slash, star] := by
  rw [isWildcard, isSuffixOf_iff_suffix]
  exact ⟨fun ⟨x, h⟩ => ⟨x, h.symm⟩, fun ⟨x, h⟩ => ⟨x, h.symm⟩⟩

theorem isWildcard_append (s : Text) {a : Text} (h : slash ∉ a) :
    isWildcard (some (s ++ slash :: a)) = true ↔ a = [star] := by
  rw [isWildcard_some]
  constructor
  · rintro ⟨x, hx⟩
    have hstar : afterSlash (x ++ [slash, star]) = [star] := afterSlash_append x (by decide)
    rwa [← hx, afterSlash_append s h] at hstar
  · rintro rfl
    exact ⟨s, rfl⟩

theorem slash_notMem_afterSlash (s : Text) : slash ∉ afterSlash s := fun h => by
  simpa using mem_rtakeWhile_imp h

/-- A text that is no wildcard ends in a star only behind no slash. -/
theorem afterSlash_eq_star {o : Text} (h : isWildcard (some o) = false) :
    afterSlash o = [star] ↔ o = [star] := by
  constructor
  · intro hstar
    have ho : uptoSlash o ++ afterSlash o = o := rdropWhile_append_rtakeWhile ..
    rw [hstar] at ho
    rcases uptoSlash_eq o with hnil | ⟨x, hx⟩
    · rwa [hnil, nil_append, eq_comm] at ho
    · rw [← ho, hx, append_assoc] at h
      exact absurd (isWildcard_some.2 ⟨x, rfl⟩) (Bool.eq_false_iff.1 h)
  · rintro rfl
    decide

theorem isWildcard_wildcardSpecComponent (comp : Option Text) :
    isWildcard (wildcardSpecComponent comp) = true := by
  unfold wildcardSpecComponent
  split
  · assumption
  · match comp with
    | none => decide
    | some s =>
      by_cases hmem : slash ∈ s
      · simp only [hmem, if_true]
        rcases uptoSlash_eq s with hnil | ⟨x, hx⟩
        · simpa using rdropWhile_eq_nil_iff.1 hnil slash hmem
        · rw [hx, append_assoc, isWildcard_some]
          exact ⟨x, rfl⟩
      · simp only [hmem, if_false]
        decide

theorem isWildcard_unwildcardSpecComponent (comp : Option Text) {value : Option Text}
    (h : isWildcard value = false) :
    isWildcard (unwildcardSpecComponent comp value) = true ↔
      value = some [star] ∧ isWildcard comp = true := by
  rw [unwildcardSpecComponent]
  split
  · next hcomp =>
    obtain ⟨s, rfl⟩ : ∃ s, comp = some s := by
      cases comp with
      | none => cases hcomp
      | some s => exact ⟨s, rfl⟩
    obtain ⟨x, rfl⟩ := isWildcard_some.1 hcomp
    match value with
    | none => simp [isWildcard]
    | some o =>
      split
      · next ho =>
        obtain rfl : o = [] := ho
        simp [isWildcard]
      · rw [Option.some_inj, ← afterSlash_eq_star h,
          ← isWildcard_append x (slash_notMem_afterSlash o)]
        simp [hcomp]
  · next hcomp => simp [hcomp]

/-- The other side follows an edit, unless a star is typed beside a wildcard. -/
theorem follows_iff (comp value : Option Text) :
    isWildcard value = isWildcard (if isWildcard value then wildcardSpecComponent comp
        else unwildcardSpecComponent comp value) ↔
      (value = some [star] → isWildcard comp = false) := by
  by_cases hv : isWildcard value = true
  · rw [if_pos hv, hv, isWildcard_wildcardSpecComponent]
    simp only [true_iff]
    rintro rfl
    cases hv
  · have hv' := Bool.eq_false_iff.2 hv
    rw [if_neg hv, hv', eq_comm, Bool.eq_false_iff, ne_eq, isWildcard_unwildcardSpecComponent _ hv',
      not_and, Bool.not_eq_true]

theorem yields_iff (spec : RefSpec) (src dst value : Option Text) (side : RefSpec → Option Text)
    (hside : ∀ force, side ⟨force, src, dst⟩ = value) :
    Yields side value (spec.setSourceDestination src dst) ↔ isWildcard src = isWildcard dst := by
  rw [RefSpec.setSourceDestination]
  constructor
  · rintro ⟨spec', h, -, -⟩
    by_contra hne
    rw [if_pos hne] at h
    cases h
  · intro h
    rw [if_neg (fun hne => hne h)]
    exact ⟨_, rfl, hside _, h⟩

theorem source_yields_iff (spec : RefSpec) (src : Option Text) :
    Yields RefSpec.source src (setRefSpecSource spec src) ↔
      (src = some [star] → isWildcard spec.destination = false) := by
  rw [setRefSpecSource, yields_iff _ _ _ _ _ fun _ => rfl, follows_iff]

theorem destination_yields_iff (spec : RefSpec) (dst : Option Text) :
    Yields RefSpec.destination dst (setRefSpecDestination spec dst) ↔
      (dst = some [star] → isWildcard spec.source = false) := by
  rw [setRefSpecDestination, yields_iff _ _ _ _ _ fun _ => rfl, eq_comm, follows_iff]

/-- **Edits of a ref specification.** -/
theorem edit_right_iff {spec : RefSpec} (h : Legal spec) (typed : Text) :
    EditsRight spec typed ↔ (typed = [star] → isWildcard spec.source = false) := by
  have hdelete : Yields RefSpec.source none (setMode spec true) :=
    (source_yields_iff spec none).2 (by simp)
  have hupdate : Yields RefSpec.source (some refChooseSome) (setMode spec false) :=
    (source_yields_iff spec (some refChooseSome)).2 fun h => absurd h (by decide)
  rw [EditsRight, source_yields_iff, destination_yields_iff, ← h]
  simp [hdelete, hupdate]

/-- The usual specification of a fetch. -/
def allHeads : RefSpec := ⟨true, some (ofAscii "refs/heads/*"), some (ofAscii "refs/remotes/o/*")⟩

theorem edit_right_allHeads : Legal allHeads ∧ EditsRight allHeads (ofAscii "refs/heads/m") :=
  ⟨by decide, (edit_right_iff (by decide) _).2 fun h => absurd h (by decide)⟩

/-- A star typed into the source cell makes `setSourceDestination` throw. -/
theorem star_throws : setRefSpecSource allHeads (some (ofAscii "*")) = none := by decide

end Egit.RefSpecEdit
