import Mathlib.Data.List.Nodup
import Mathlib.Logic.Function.Basic

/-!
# Line ranges of a blame (BlameOperation.java, BlameRevision.java)

The loop over the lines has one revision for each commit, with the start and the length of its
current run; a run is registered at the next change, at a line without a commit, or after the loop.

    the registered ranges of a commit are its maximal runs and contain all of its lines, and every
      commit has one revision  (execute_partitions)
-/

namespace Egit.Blame

open List

/-! ## Algorithm -/

structure Revision where
  start : Nat
  lines : Nat
  ranges : List (Nat × Nat)
  deriving DecidableEq, Repr

def newRevision : Revision := ⟨0, 1, []⟩

def Revision.register (r : Revision) : Revision :=
  { r with ranges := r.ranges ++ [(r.start, r.lines)] }

def Revision.addLine (r : Revision) : Revision := { r with lines := r.lines + 1 }

def Revision.reset (r : Revision) (number : Nat) : Revision :=
  { r with start := number, lines := 1 }

/-- `info` has the commits whose revision exists, in the order of the calls of `addRevision`. -/
structure State (C : Type) where
  revision : C → Revision
  info : List C
  previous : Option C

section
variable {C : Type} [DecidableEq C]

def State.update (s : State C) (c : C) (f : Revision → Revision) : State C :=
  { s with revision := Function.update s.revision c (f (s.revision c)) }

/-- `if (previous != null) previous.register()`. -/
def State.registerPrevious (s : State C) : State C :=
  match s.previous with
  | none => s
  | some p => s.update p Revision.register

/-- The revision of a commit is made when its first line comes. -/
def State.known (s : State C) (c : C) : State C :=
  if c ∈ s.info then s else { s with info := s.info ++ [c] }

/-- One round of the loop. -/
def line (s : State C) (i : Nat) : Option C → State C
  | none => { s.registerPrevious with previous := none }
  | some commit =>
    let s := s.known commit
    if s.previous = some commit then s.update commit Revision.addLine
    else { s.registerPrevious.update commit fun r => r.reset i with previous := some commit }

def lines (s : State C) : Nat → List (Option C) → State C
  | _, [] => s
  | i, l :: ls => lines (line s i l) (i + 1) ls

def execute (sourceCommits : List (Option C)) : State C :=
  (lines ⟨fun _ => newRevision, [], none⟩ 0 sourceCommits).registerPrevious

/-! ## Specification -/

/-- The commit of a line; there is none behind the last line. -/
def source (sourceCommits : List (Option C)) (j : Nat) : Option C := sourceCommits[j]?.join

variable {src : Nat → Option C} {c : C} {n : Nat} {s : State C}

/-- A nonempty run of lines of `c` that cannot be extended. -/
structure IsRun (src : Nat → Option C) (c : C) (r : Nat × Nat) : Prop where
  pos : 0 < r.2
  lines : ∀ j, r.1 ≤ j → j < r.1 + r.2 → src j = some c
  left : ∀ j, j + 1 = r.1 → src j ≠ some c
  right : src (r.1 + r.2) ≠ some c

/-- The ranges are runs, one behind the other, and contain the lines of `c` before `n`. -/
structure Covers (src : Nat → Option C) (c : C) (n : Nat) (ranges : List (Nat × Nat)) : Prop where
  run : ∀ r ∈ ranges, IsRun src c r ∧ r.1 + r.2 < n
  apart : ranges.Pairwise fun r r' => r.1 + r.2 < r'.1
  all : ∀ j, j < n → src j = some c → ∃ r ∈ ranges, r.1 ≤ j ∧ j < r.1 + r.2

/-! ## Proof -/

omit [DecidableEq C] in
theorem Covers.next {ranges : List (Nat × Nat)} (h : Covers src c n ranges) (hn : src n ≠ some c) :
    Covers src c (n + 1) ranges := by
  refine ⟨fun r hr => ?_, h.apart, fun j hj hc => ?_⟩
  · obtain ⟨hrun, hlt⟩ := h.run r hr
    exact ⟨hrun, by omega⟩
  · have hjn : j ≠ n := by
      rintro rfl
      exact hn hc
    exact h.all j (by omega) hc

/-- The current run of `c` goes up to the line before `n`. -/
structure Current (src : Nat → Option C) (c : C) (n : Nat) (r : Revision) : Prop where
  next : r.start + r.lines = n
  pos : 0 < r.lines
  lines : ∀ j, r.start ≤ j → j < n → src j = some c
  left : ∀ j, j + 1 = r.start → src j ≠ some c
  covers : Covers src c r.start r.ranges

omit [DecidableEq C] in
theorem Current.register {r : Revision} (h : Current src c n r) (hn : src n ≠ some c) :
    Covers src c (n + 1) r.register.ranges := by
  obtain ⟨rfl, hpos, hlines, hleft, hc⟩ := h
  have hlast : ∀ r' ∈ r.ranges ++ [(r.start, r.lines)],
      r' ∈ r.ranges ∨ r' = (r.start, r.lines) := by simp
  refine ⟨fun r' hr' => ?_, ?_, fun j hj hsrc => ?_⟩
  · rcases hlast r' hr' with hr' | rfl
    · obtain ⟨hrun, hlt⟩ := hc.run r' hr'
      exact ⟨hrun, by omega⟩
    · exact ⟨⟨hpos, hlines, hleft, hn⟩, by simp⟩
  · refine pairwise_append.2 ⟨hc.apart, pairwise_singleton .., ?_⟩
    intro r' hr' _ hnew
    rw [mem_singleton.1 hnew]
    exact (hc.run r' hr').2
  · have hjn : j ≠ r.start + r.lines := by
      rintro rfl
      exact hn hsrc
    by_cases hj' : j < r.start
    · obtain ⟨r', hr', hin⟩ := hc.all j hj' hsrc
      exact ⟨r', mem_append_left _ hr', hin⟩
    · exact ⟨(r.start, r.lines), mem_append_right _ (mem_singleton.2 rfl), by
        simp only; omega⟩

/-- The runs after the lines before `n`. -/
structure Runs (src : Nat → Option C) (n : Nat) (s : State C) : Prop where
  previous : ∀ j, j + 1 = n → src j = s.previous
  current : ∀ c, s.previous = some c → Current src c n (s.revision c)
  others : ∀ c, s.previous ≠ some c → Covers src c n (s.revision c).ranges

/-- There is one revision for each commit of the lines before `n`. -/
def Listed (src : Nat → Option C) (n : Nat) (info : List C) : Prop :=
  info.Nodup ∧ ∀ c, c ∈ info ↔ ∃ j, j < n ∧ src j = some c

theorem registerPrevious_of_ne (h : s.previous ≠ some c) :
    s.registerPrevious.revision c = s.revision c := by
  unfold State.registerPrevious
  split
  · rfl
  · next p hp =>
    have hpc : c ≠ p := by
      rintro rfl
      exact h hp
    exact Function.update_of_ne hpc _ _

theorem Runs.covers (h : Runs src n s) (hn : src n ≠ some c) :
    Covers src c (n + 1) (s.registerPrevious.revision c).ranges := by
  by_cases hp : s.previous = some c
  · simp only [State.registerPrevious, hp, State.update, Function.update_self]
    exact (h.current c hp).register hn
  · rw [registerPrevious_of_ne hp]
    exact (h.others c hp).next hn

theorem Runs.known (h : Runs src n s) (d : C) : Runs src n (s.known d) := by
  unfold State.known
  split
  · exact h
  · exact ⟨h.previous, h.current, h.others⟩

theorem runs_line (h : Runs src n s) : Runs src (n + 1) (line s n (src n)) := by
  cases hsrc : src n with
  | none =>
    refine ⟨fun j hj => ?_, fun c hc => ?_, fun c _ => h.covers (by simp [hsrc])⟩
    · obtain rfl : j = n := by omega
      exact hsrc
    · cases hc
  | some d =>
    have hk := h.known d
    have hne (c : C) (hc : c ≠ d) : src n ≠ some c := by simp [hsrc, Ne.symm hc]
    rw [line]
    split
    · next hp =>
      -- the current run goes on
      obtain ⟨hnext, hpos, hlines, hleft, hcovers⟩ := hk.current d hp
      refine ⟨fun j hj => ?_, fun c hc => ?_, fun c hc => ?_⟩
      · obtain rfl : j = n := by omega
        exact hsrc.trans hp.symm
      · obtain rfl : d = c := Option.some.inj (hp.symm.trans hc)
        simp only [State.update, Function.update_self]
        refine ⟨by simp only [Revision.addLine]; omega, by simp [Revision.addLine], ?_, hleft,
          hcovers⟩
        intro j hj hjn
        rcases Nat.lt_succ_iff_lt_or_eq.1 hjn with hjn | rfl
        · exact hlines j hj hjn
        · exact hsrc
      · have hcd : c ≠ d := by
          rintro rfl
          exact hc hp
        simp only [State.update, Function.update_of_ne hcd]
        exact (hk.others c hc).next (hne c hcd)
    · next hp =>
      -- a run of `d` begins
      refine ⟨fun j hj => ?_, fun c hc => ?_, fun c hc => ?_⟩
      · obtain rfl : j = n := by omega
        exact hsrc
      · obtain rfl : d = c := Option.some.inj hc
        simp only [State.update, Function.update_self, registerPrevious_of_ne hp]
        refine ⟨rfl, Nat.one_pos, fun j hj hjn => ?_, fun j hj => ?_, hk.others d hp⟩
        · obtain rfl : n = j := by simp only [Revision.reset] at hj; omega
          exact hsrc
        · rw [hk.previous j hj]
          exact hp
      · have hcd : c ≠ d := fun hcd => hc (congrArg some hcd.symm)
        simp only [State.update, Function.update_of_ne hcd]
        exact hk.covers (hne c hcd)

theorem info_registerPrevious (s : State C) : s.registerPrevious.info = s.info := by
  unfold State.registerPrevious
  split <;> rfl

theorem listed_line (h : Listed src n s.info) : Listed src (n + 1) (line s n (src n)).info := by
  have hsucc (c : C) : (∃ j, j < n + 1 ∧ src j = some c) ↔ c ∈ s.info ∨ src n = some c := by
    rw [h.2]
    constructor
    · rintro ⟨j, hj, hc⟩
      rcases Nat.lt_succ_iff_lt_or_eq.1 hj with hj | rfl
      · exact .inl ⟨j, hj, hc⟩
      · exact .inr hc
    · rintro (⟨j, hj, hc⟩ | hc)
      · exact ⟨j, by omega, hc⟩
      · exact ⟨n, by omega, hc⟩
  simp only [Listed, hsucc]
  cases hsrc : src n with
  | none =>
    rw [line, info_registerPrevious]
    exact ⟨h.1, by simp⟩
  | some d =>
    have hinfo : (line s n (some d)).info = (s.known d).info := by
      rw [line]
      split
      · rfl
      · exact info_registerPrevious _
    rw [hinfo, State.known]
    split
    · next hd =>
      refine ⟨h.1, fun c => ⟨.inl, ?_⟩⟩
      rintro (hc | hc)
      · exact hc
      · rwa [← Option.some.inj hc]
    · next hd =>
      refine ⟨nodup_append'.2 ⟨h.1, nodup_singleton d, by simpa using hd⟩, ?_⟩
      simp [eq_comm]

theorem inv_lines (ls : List (Option C)) (hsrc : ∀ j, src (n + j) = source ls j)
    (h : Runs src n s ∧ Listed src n s.info) :
    Runs src (n + ls.length) (lines s n ls) ∧ Listed src (n + ls.length) (lines s n ls).info := by
  induction ls generalizing n s with
  | nil => exact h
  | cons l ls ih =>
    obtain rfl : src n = l := hsrc 0
    have hsrc' (j : Nat) : src (n + 1 + j) = source ls j := by
      rw [Nat.add_assoc, Nat.add_comm 1]
      exact hsrc (j + 1)
    have hnext := ih hsrc' ⟨runs_line h.1, listed_line h.2⟩
    rwa [Nat.add_assoc, Nat.add_comm 1] at hnext

/-- **Ranges of a blame.** -/
theorem execute_partitions (sourceCommits : List (Option C)) :
    (execute sourceCommits).info.Nodup ∧
      (∀ c, c ∈ (execute sourceCommits).info ↔ some c ∈ sourceCommits) ∧
      ∀ c, Covers (source sourceCommits) c (sourceCommits.length + 1)
        ((execute sourceCommits).revision c).ranges := by
  have hnil : Runs (source sourceCommits) 0 (⟨fun _ => newRevision, [], none⟩ : State C) := by
    refine ⟨fun j hj => absurd hj (by omega), fun c hc => ?_, fun c _ => ?_⟩
    · cases hc
    · exact ⟨by simp [newRevision], .nil, fun j hj => absurd hj (by omega)⟩
  have hlisted : Listed (source sourceCommits) 0 ([] : List C) := ⟨.nil, by simp⟩
  obtain ⟨hruns, hnodup, hinfo⟩ := inv_lines sourceCommits (fun j => by rw [Nat.zero_add])
    ⟨hnil, hlisted⟩
  rw [Nat.zero_add] at hruns hinfo
  rw [execute, info_registerPrevious]
  refine ⟨hnodup, fun c => ?_, fun c => hruns.covers ?_⟩
  · rw [hinfo, mem_iff_getElem?]
    constructor
    · rintro ⟨j, -, hj⟩
      exact ⟨j, Option.join_eq_some_iff.1 hj⟩
    · rintro ⟨j, hj⟩
      exact ⟨j, (List.getElem?_eq_some_iff.1 hj).1, Option.join_eq_some_iff.2 hj⟩
  · simp [source]

end

end Egit.Blame
