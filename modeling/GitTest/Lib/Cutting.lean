import Mathlib.Data.List.Basic

/-!
# Cutting elements out of blocks

A machine goes through the elements of a list of blocks.  It sees each element with those behind it
in the same block, and keeps it or not; the elements that it keeps one after another make up a new
block.  What is between the blocks stays.

`kept` are the elements that it keeps, said without the blocks (`texts_clean`); the order of
everything is that of the input (`flat_clean`).
-/

namespace Cutting

open List

inductive Piece (α D : Type)
  | text (l : List α)
  | mark (d : D)
  deriving DecidableEq, Repr

section
variable {σ α β D : Type}

def Piece.map (f : α → β) : Piece α D → Piece β D
  | .text l => .text (l.map f)
  | .mark d => .mark d

def texts : List (Piece α D) → List α
  | [] => []
  | .text l :: bs => l ++ texts bs
  | .mark _ :: bs => texts bs

def marks : List (Piece α D) → List D
  | [] => []
  | .text _ :: bs => marks bs
  | .mark d :: bs => d :: marks bs

def flat : List (Piece α D) → List (α ⊕ D)
  | [] => []
  | .text l :: bs => l.map Sum.inl ++ flat bs
  | .mark d :: bs => .inr d :: flat bs

/-- Whether an element is kept, and the next state. -/
abbrev Step (σ α : Type) := σ → α → List α → Bool × σ

def emit (cur : List α) : List (List α) := if cur.isEmpty then [] else [cur]

/-- The blocks that are made of one block; `cur` is the one that is being made. -/
def cut (step : Step σ α) : σ → List α → List α → σ × List (List α)
  | s, cur, [] => (s, emit cur)
  | s, cur, a :: rest =>
    if (step s a rest).1 then cut step (step s a rest).2 (cur ++ [a]) rest
    else
      let r := cut step (step s a rest).2 [] rest
      (r.1, emit cur ++ r.2)

def clean (step : Step σ α) : σ → List (Piece α D) → List (Piece α D)
  | _, [] => []
  | s, .mark d :: bs => .mark d :: clean step s bs
  | s, .text l :: bs =>
    let r := cut step s [] l
    r.2.map .text ++ clean step r.1 bs

def ahead : List α → List (α × List α)
  | [] => []
  | a :: rest => (a, rest) :: ahead rest

def looks : List (Piece α D) → List (α × List α)
  | [] => []
  | .text l :: bs => ahead l ++ looks bs
  | .mark _ :: bs => looks bs

def kept (step : Step σ α) : σ → List (α × List α) → List α
  | _, [] => []
  | s, a :: as =>
    if (step s a.1 a.2).1 then a.1 :: kept step (step s a.1 a.2).2 as
    else kept step (step s a.1 a.2).2 as

def final (step : Step σ α) : σ → List (α × List α) → σ
  | s, [] => s
  | s, a :: as => final step (step s a.1 a.2).2 as

variable {step : Step σ α} {s : σ}

theorem final_append (as bs : List (α × List α)) :
    final step s (as ++ bs) = final step (final step s as) bs := by
  induction as generalizing s with
  | nil => rfl
  | cons a as ih => exact ih

theorem kept_append (as bs : List (α × List α)) :
    kept step s (as ++ bs) = kept step s as ++ kept step (final step s as) bs := by
  induction as generalizing s with
  | nil => rfl
  | cons a as ih =>
    rw [cons_append, kept, kept, ih]
    split <;> rfl

theorem flatten_emit (cur : List α) : (emit cur).flatten = cur := by
  cases cur <;> simp [emit]

theorem cut_final (cur l : List α) : (cut step s cur l).1 = final step s (ahead l) := by
  induction l generalizing s cur with
  | nil => rfl
  | cons a rest ih =>
    rw [cut]
    split
    · exact ih _
    · exact ih []

theorem cut_flatten (cur l : List α) :
    (cut step s cur l).2.flatten = cur ++ kept step s (ahead l) := by
  induction l generalizing s cur with
  | nil => rw [cut, flatten_emit, ahead, kept, append_nil]
  | cons a rest ih =>
    rw [cut, ahead, kept]
    split
    · rw [ih, append_assoc]
      rfl
    · show (emit cur ++ (cut step _ [] rest).2).flatten = _
      rw [flatten_append, flatten_emit, ih]
      rfl

theorem texts_append (bs cs : List (Piece α D)) : texts (bs ++ cs) = texts bs ++ texts cs := by
  induction bs with
  | nil => rfl
  | cons b bs ih =>
    cases b with
    | text l => rw [cons_append, texts, texts, ih, append_assoc]
    | mark d => exact ih

theorem flat_append (bs cs : List (Piece α D)) : flat (bs ++ cs) = flat bs ++ flat cs := by
  induction bs with
  | nil => rfl
  | cons b bs ih =>
    cases b with
    | text l => rw [cons_append, flat, flat, ih, append_assoc]
    | mark d => rw [cons_append, flat, flat, ih, cons_append]

theorem marks_append (bs cs : List (Piece α D)) : marks (bs ++ cs) = marks bs ++ marks cs := by
  induction bs with
  | nil => rfl
  | cons b bs ih =>
    cases b with
    | text l => exact ih
    | mark d => rw [cons_append, marks, marks, ih, cons_append]

theorem texts_map_text (ls : List (List α)) :
    texts (ls.map (Piece.text (D := D))) = ls.flatten := by
  induction ls with
  | nil => rfl
  | cons l ls ih => rw [map_cons, texts, ih, flatten_cons]

theorem flat_map_text (ls : List (List α)) :
    flat (ls.map (Piece.text (D := D))) = ls.flatten.map Sum.inl := by
  induction ls with
  | nil => rfl
  | cons l ls ih => rw [map_cons, flat, ih, flatten_cons, map_append]

theorem marks_map_text (ls : List (List α)) : marks (ls.map (Piece.text (D := D))) = [] := by
  induction ls with
  | nil => rfl
  | cons l ls ih => exact ih

theorem texts_clean (bs : List (Piece α D)) :
    texts (clean step s bs) = kept step s (looks bs) := by
  induction bs generalizing s with
  | nil => rfl
  | cons b bs ih =>
    cases b with
    | mark d => exact ih
    | text l =>
      rw [clean, looks, kept_append, texts_append, texts_map_text, cut_flatten, cut_final, ih]
      rfl

theorem marks_clean (bs : List (Piece α D)) : marks (clean step s bs) = marks bs := by
  induction bs generalizing s with
  | nil => rfl
  | cons b bs ih =>
    cases b with
    | mark d => rw [clean, marks, marks, ih]
    | text l =>
      rw [clean, marks_append, marks_map_text, ih]
      rfl

theorem kept_sublist (as : List (α × List α)) : (kept step s as).Sublist (as.map Prod.fst) := by
  induction as generalizing s with
  | nil => exact List.Sublist.refl []
  | cons a as ih =>
    rw [kept]
    split
    · exact ih.cons_cons a.1
    · exact ih.cons a.1

theorem map_fst_ahead (l : List α) : (ahead l).map Prod.fst = l := by
  induction l with
  | nil => rfl
  | cons a rest ih => rw [ahead, map_cons, ih]

theorem flat_clean (bs : List (Piece α D)) : (flat (clean step s bs)).Sublist (flat bs) := by
  induction bs generalizing s with
  | nil => exact List.Sublist.refl []
  | cons b bs ih =>
    cases b with
    | mark d => exact ih.cons_cons (Sum.inr d)
    | text l =>
      rw [clean, flat_append, flat_map_text, cut_flatten]
      have hkept : (kept step s (ahead l)).Sublist _ := kept_sublist (ahead l)
      rw [map_fst_ahead] at hkept
      exact (hkept.map Sum.inl).append ih

theorem map_fst_looks (bs : List (Piece α D)) : (looks bs).map Prod.fst = texts bs := by
  induction bs with
  | nil => rfl
  | cons b bs ih =>
    cases b with
    | mark d => exact ih
    | text l => rw [looks, texts, map_append, map_fst_ahead, ih]

/-! ## Elements with more data -/

section
variable {step' : Step σ β} {f : α → β}
  (h : ∀ s a rest, step s a rest = step' s (f a) (rest.map f))
include h

theorem cut_map (cur l : List α) : (cut step s cur l).1 = (cut step' s (cur.map f) (l.map f)).1 ∧
    (cut step s cur l).2.map (List.map f) = (cut step' s (cur.map f) (l.map f)).2 := by
  have hemit : ∀ cur : List α, (emit cur).map (List.map f) = emit (cur.map f) := by
    intro cur
    cases cur <;> rfl
  induction l generalizing s cur with
  | nil => exact ⟨rfl, hemit cur⟩
  | cons a rest ih =>
    rw [map_cons, cut, cut, ← h s a rest]
    split
    · have hcur : cur.map f ++ [f a] = (cur ++ [a]).map f := by rw [map_append]; rfl
      rw [hcur]
      exact ih (cur ++ [a])
    · obtain ⟨h1, h2⟩ := ih []
      refine ⟨h1, ?_⟩
      show (emit cur ++ _).map _ = emit _ ++ _
      rw [map_append, hemit, h2]
      rfl

theorem clean_map (bs : List (Piece α D)) :
    (clean step s bs).map (Piece.map f) = clean step' s (bs.map (Piece.map f)) := by
  induction bs generalizing s with
  | nil => rfl
  | cons b bs ih =>
    cases b with
    | mark d =>
      rw [clean, map_cons, ih]
      rfl
    | text l =>
      obtain ⟨h1, h2⟩ := cut_map h [] l
      show List.map _ (_ ++ _) = (cut step' s [] (l.map f)).2.map _ ++ clean step' _ _
      rw [map_append, ih, h1]
      rw [map_nil] at h2
      rw [← h2, map_map, map_map]
      rfl

end

end

end Cutting
