import Mathlib.Logic.Function.Basic

/-!
# Machines: executable steps, guarded runs, invariants

A machine has a set of initial states and a partial step function on labels; a
nondeterministic choice (which thread moves, whether a timeout fires) is part of
the label, so a run is a list of labels and can be evaluated.

`ReachableIf g` are the states reached by runs whose every step meets the guard
`g` in the state before it; `Reachable` is the unguarded case.  The rules the proofs
use:

    (∀ s, init s → I s) → (∀ s a s', I s → g s a → step s a = some s' → I s') →
      ReachableIf g s → I s  (ReachableIf.invariant)
    Reachable s → run s as = some s' → Reachable s'  (Reachable.run)
    ReachableIf g s → runIf g s as = some s' → ReachableIf g s'  (ReachableIf.runIf)
    a step from P leads to P exactly if it meets g, and none leads back into P →
      P s → run s as = some s' → (P s' ↔ runIf g s as = some s')  (run_keeps_iff)
-/

namespace Machines

open Option

/-- Initial states and a partial step function on labels. -/
structure Machine (σ ι : Type) where
  init : σ → Prop
  step : σ → ι → Option σ

namespace Machine

variable {σ ι : Type} (M : Machine σ ι)

/-- States reached by runs whose every step meets `g` in the state before it. -/
inductive ReachableIf (g : σ → ι → Prop) : σ → Prop
  | init {s : σ} : M.init s → ReachableIf g s
  | step {s s' : σ} {a : ι} : ReachableIf g s → g s a → M.step s a = some s' → ReachableIf g s'

def Reachable (s : σ) : Prop := M.ReachableIf (fun _ _ => True) s

def run : σ → List ι → Option σ
  | s, [] => some s
  | s, a :: as => (M.step s a).bind fun s' => run s' as

/-- Run a list of labels as long as every step meets the guard. -/
def runIf (g : σ → ι → Prop) [∀ s a, Decidable (g s a)] : σ → List ι → Option σ
  | s, [] => some s
  | s, a :: as => if g s a then (M.step s a).bind fun s' => runIf g s' as else none

variable {M}

/-- An inductive property of the guarded steps holds of every guarded-reachable state. -/
theorem ReachableIf.invariant {g : σ → ι → Prop} {I : σ → Prop}
    (hinit : ∀ s, M.init s → I s)
    (hstep : ∀ s a s', I s → g s a → M.step s a = some s' → I s')
    {s : σ} (h : M.ReachableIf g s) : I s := by
  induction h with
  | init h0 => exact hinit _ h0
  | step _ hg hs ih => exact hstep _ _ _ ih hg hs

theorem Reachable.invariant {I : σ → Prop} (hinit : ∀ s, M.init s → I s)
    (hstep : ∀ s a s', I s → M.step s a = some s' → I s') {s : σ} (h : M.Reachable s) : I s :=
  ReachableIf.invariant hinit (fun s a s' hi _ hs => hstep s a s' hi hs) h

theorem Reachable.step {s s' : σ} {a : ι} (h : M.Reachable s) (hs : M.step s a = some s') :
    M.Reachable s' :=
  ReachableIf.step h trivial hs

theorem run_append (s : σ) (as bs : List ι) :
    M.run s (as ++ bs) = (M.run s as).bind fun s' => M.run s' bs := by
  induction as generalizing s with
  | nil => rfl
  | cons a as ih =>
    simp only [List.cons_append, run]
    cases M.step s a with
    | none => rfl
    | some s1 => exact ih s1

theorem run_invariant {I : σ → Prop} (hstep : ∀ s a s', I s → M.step s a = some s' → I s')
    {s s' : σ} {as : List ι} (h : I s) (hr : M.run s as = some s') : I s' := by
  induction as generalizing s with
  | nil =>
    cases hr
    exact h
  | cons a as ih =>
    obtain ⟨s1, hs, hr⟩ := bind_eq_some_iff.1 hr
    exact ih (hstep s a s1 h hs) hr

theorem Reachable.run {s s' : σ} (h : M.Reachable s) (as : List ι) (hr : M.run s as = some s') :
    M.Reachable s' :=
  run_invariant (fun _ _ _ h hs => h.step hs) h hr

theorem runIf_invariant {g : σ → ι → Prop} [∀ s a, Decidable (g s a)] {I : σ → Prop}
    (hstep : ∀ s a s', I s → g s a → M.step s a = some s' → I s') {s s' : σ} {as : List ι}
    (h : I s) (hr : M.runIf g s as = some s') : I s' := by
  induction as generalizing s with
  | nil =>
    cases hr
    exact h
  | cons a as ih =>
    simp only [Machine.runIf] at hr
    split at hr
    · next hg =>
      obtain ⟨s1, hs, hr⟩ := bind_eq_some_iff.1 hr
      exact ih (hstep s a s1 h hg hs) hr
    · cases hr

theorem ReachableIf.runIf {g : σ → ι → Prop} [∀ s a, Decidable (g s a)] {s s' : σ}
    (h : M.ReachableIf g s) (as : List ι) (hr : M.runIf g s as = some s') : M.ReachableIf g s' :=
  runIf_invariant (fun _ _ _ h hg hs => h.step hg hs) h hr

/-- The end of a run on given labels has a property that can be computed there. -/
theorem exists_end {o : Option σ} {P : σ → Prop} [DecidablePred P]
    (h : o.any (fun s => decide (P s)) = true) : ∃ s, o = some s ∧ P s := by
  obtain ⟨s, hs, hp⟩ := (any_eq_true _ _).1 h
  exact ⟨s, hs, of_decide_eq_true hp⟩

/-- What no step leads into, no run leads into. -/
theorem run_back {I P : σ → Prop} (hinv : ∀ s a s', I s → M.step s a = some s' → I s')
    (hback : ∀ s a s', I s → M.step s a = some s' → P s' → P s)
    {s s' : σ} {as : List ι} (hi : I s) (hr : M.run s as = some s') (hp : P s') : P s := by
  induction as generalizing s with
  | nil =>
    cases hr
    exact hp
  | cons a as ih =>
    obtain ⟨s1, hs, hr⟩ := bind_eq_some_iff.1 hr
    exact hback s a s1 hi hs (ih (hinv s a s1 hi hs) hr)

/-- If the steps that keep `P` are those that meet the guard, and `P` once lost does not come
back, the runs that end in `P` are the guarded ones. -/
theorem run_keeps_iff {g : σ → ι → Prop} [∀ s a, Decidable (g s a)] {I P : σ → Prop}
    (hinv : ∀ s a s', I s → M.step s a = some s' → I s')
    (hkeep : ∀ s a s', I s → P s → M.step s a = some s' → (P s' ↔ g s a))
    (hback : ∀ s a s', I s → M.step s a = some s' → P s' → P s)
    {s s' : σ} {as : List ι} (hi : I s) (hp : P s) (hr : M.run s as = some s') :
    P s' ↔ M.runIf g s as = some s' := by
  induction as generalizing s with
  | nil =>
    cases hr
    exact ⟨fun _ => rfl, fun _ => hp⟩
  | cons a as ih =>
    obtain ⟨s1, hs, hr⟩ := bind_eq_some_iff.1 hr
    simp only [Machine.runIf]
    by_cases hg : g s a
    · rw [if_pos hg, hs]
      exact ih (hinv s a s1 hi hs) ((hkeep s a s1 hi hp hs).2 hg) hr
    · rw [if_neg hg]
      constructor
      · intro hp'
        -- going back from the end, the first step kept it
        have hp1 : P s1 := run_back hinv hback (hinv s a s1 hi hs) hr hp'
        exact absurd ((hkeep s a s1 hi hp hs).1 hp1) hg
      · intro h
        cases h

end Machine

end Machines
