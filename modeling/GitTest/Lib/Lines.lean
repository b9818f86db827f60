import Mathlib.Data.List.Basic

/-!
# The lines of a text

A text is a list over any type, a line is ended by the terminator `x`; behind the last terminator
there is one more line unless nothing is there.

    Terminated x l → x ∉ e → linesOf x (l ++ e ++ [x]) = linesOf x l ++ [e]  (linesOf_append)
    ¬ Terminated x l → x ∉ e → linesOf x (l ++ x :: e ++ [x]) = linesOf x l ++ [e]
      (linesOf_append_open)
    ¬ Terminated x l → x ∉ e → linesOf x (l ++ e ++ [x]) has as many lines as l
      (length_linesOf_glued)
    x ∉ l → x ∉ l' → l ++ x :: t = l' ++ x :: t' → l = l' ∧ t = t'  (first_line_inj)
-/

namespace Lines

open List

variable {α : Type} {x : α}

theorem first_line_inj {l' t t' : List α} (h : x ∉ l) (h' : x ∉ l')
    (heq : l ++ x :: t = l' ++ x :: t') : l = l' ∧ t = t' := by
  induction l generalizing l' with
  | nil =>
    cases l' with
    | nil => exact ⟨rfl, (List.cons.inj heq).2⟩
    | cons c l' =>
      obtain ⟨rfl, -⟩ := List.cons.inj heq
      exact absurd mem_cons_self h'
  | cons c l ih =>
    cases l' with
    | nil =>
      obtain ⟨rfl, -⟩ := List.cons.inj heq
      exact absurd mem_cons_self h
    | cons c' l' =>
      obtain ⟨rfl, htail⟩ := List.cons.inj heq
      obtain ⟨rfl, ht⟩ := ih (not_mem_of_not_mem_cons h) (not_mem_of_not_mem_cons h') htail
      exact ⟨rfl, ht⟩

variable [DecidableEq α]

/-- The text is empty, or its last line is ended. -/
def Terminated (x : α) (l : List α) : Prop := l = [] ∨ l.getLast? = some x

instance (x : α) (l : List α) : Decidable (Terminated x l) :=
  inferInstanceAs (Decidable (l = [] ∨ l.getLast? = some x))

def linesOf (x : α) (l : List α) : List (List α) :=
  if Terminated x l then (l.splitOn x).dropLast else l.splitOn x

theorem length_splitOn (l : List α) : (l.splitOn x).length = l.count x + 1 := by
  induction l with
  | nil => rfl
  | cons c l ih =>
    rw [splitOn_cons_eq_if_modifyHead]
    by_cases hc : c = x
    · simp [hc, ih]
    · simp [hc, ih]

theorem notMem_of_mem_splitOn (l : List α) : ∀ piece ∈ l.splitOn x, x ∉ piece := by
  induction l with
  | nil => simp
  | cons c l ih =>
    rw [splitOn_cons_eq_if_modifyHead]
    by_cases hc : c = x
    · simpa [hc] using ih
    · obtain ⟨piece, pieces, hl⟩ := exists_cons_of_ne_nil (splitOn_ne_nil x l)
      rw [hl] at ih ⊢
      have hne : ¬ x = c := fun h => hc h.symm
      simpa [hc, hne] using ih

omit [DecidableEq α] in
theorem terminated_concat (l : List α) : Terminated x (l ++ [x]) := .inr (by simp)

theorem linesOf_concat (l : List α) : linesOf x (l ++ [x]) = l.splitOn x := by
  unfold linesOf
  rw [if_pos (terminated_concat l), splitOn_append_cons_self]
  simp

variable {l e : List α}

theorem linesOf_open (h : ¬ Terminated x l) : linesOf x l = l.splitOn x :=
  if_neg h

@[simp]
theorem linesOf_nil : linesOf x [] = [] := by
  simp [linesOf, Terminated]

theorem linesOf_ne_nil (h : l ≠ []) : linesOf x l ≠ [] := by
  by_cases ht : Terminated x l
  · obtain ⟨k, rfl⟩ := getLast?_eq_some_iff.1 (ht.resolve_left h)
    rw [linesOf_concat]
    exact splitOn_ne_nil x k
  · rw [linesOf_open ht]
    exact splitOn_ne_nil x l

theorem linesOf_open_ne (h : ¬ Terminated x l) : linesOf x l ≠ [[]] := by
  intro hl
  rw [linesOf_open h] at hl
  have hjoin : [x].intercalate (l.splitOn x) = l := intercalate_splitOn x
  rw [hl] at hjoin
  exact h (.inl hjoin.symm)

/-- A text whose last line is ended goes on with a new line. -/
theorem linesOf_append (h : Terminated x l) (he : x ∉ e) :
    linesOf x (l ++ e ++ [x]) = linesOf x l ++ [e] := by
  rw [linesOf_concat]
  rcases h with rfl | hlast
  · simp [splitOn_eq_singleton he]
  · obtain ⟨k, rfl⟩ := getLast?_eq_some_iff.1 hlast
    rw [append_assoc, singleton_append, splitOn_append_cons_self, linesOf_concat,
      splitOn_eq_singleton he]

/-- Otherwise the open line has to be ended first. -/
theorem linesOf_append_open (h : ¬ Terminated x l) (he : x ∉ e) :
    linesOf x (l ++ x :: e ++ [x]) = linesOf x l ++ [e] := by
  rw [linesOf_concat, splitOn_append_cons_self, splitOn_eq_singleton he, linesOf_open h]

/-- If it is not, the open line gets longer and there is no new one. -/
theorem length_linesOf_glued (h : ¬ Terminated x l) (he : x ∉ e) :
    (linesOf x (l ++ e ++ [x])).length = (linesOf x l).length := by
  rw [linesOf_concat, linesOf_open h, length_splitOn, length_splitOn, count_append,
    count_eq_zero.2 he]

end Lines
