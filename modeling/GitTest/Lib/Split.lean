import Mathlib.Data.List.Basic
import Mathlib.Data.List.Infix

/-!
# Splitting a list at a delimiter

The delimiter is a list; its occurrences are taken from the left and do not overlap, and the
pieces at both ends are kept even if they are empty.

    d ≠ [] → d.intercalate (split d l) = l  (intercalate_split)
    Unbordered d → (∀ x ∈ ls, Free d x) → split d (d.intercalate ls) = ls  (split_intercalate)
-/

namespace Split

open List

section
variable {α : Type} [DecidableEq α] (d : List α)

/-- The pieces after `skip` more elements of a delimiter. -/
def splitFrom : Nat → List α → List (List α)
  | _, [] => [[]]
  | skip + 1, _ :: l => splitFrom skip l
  | 0, c :: l =>
    if d.isPrefixOf (c :: l) then [] :: splitFrom (d.length - 1) l
    else (splitFrom 0 l).modifyHead (c :: ·)

def split (l : List α) : List (List α) := splitFrom d 0 l

def Free (l : List α) : Prop := ¬ d <:+: l

/-- Two occurrences of the delimiter never overlap. -/
def Unbordered : Prop := ∀ s, s <+: d → s <:+ d → s = [] ∨ s = d

end

section
variable {α : Type} {d : List α}

theorem Free.of_piece {l m : List α} (h : Free d m) (hl : l <:+: m) : Free d l :=
  fun hd => h (hd.trans hl)

/-- An occurrence that begins before a delimiter ends before it. -/
theorem not_prefix_append (hu : Unbordered d) {c : α} {k : List α} (h : ¬ d <+: c :: k)
    (l : List α) : ¬ d <+: c :: k ++ (d ++ l) := by
  intro hpre
  rcases Nat.le_total d.length (c :: k).length with hle | hle
  · exact h (prefix_of_prefix_length_le hpre (prefix_append _ _) hle)
  · obtain ⟨s, hs⟩ := prefix_of_prefix_length_le (prefix_append _ _) hpre hle
    -- `s` is where the two occurrences overlap
    have hlen : (c :: k).length + s.length = d.length := by rw [← length_append, hs]
    have hsd : s <+: d := by
      have hpre' : c :: k ++ s <+: c :: k ++ (d ++ l) := by rwa [hs]
      rw [prefix_append_right_inj] at hpre'
      exact prefix_of_prefix_length_le hpre' (prefix_append _ _) (by omega)
    rcases hu s hsd ⟨c :: k, hs⟩ with rfl | rfl
    · rw [append_nil] at hs
      rw [hs] at h
      exact h prefix_rfl
    · rw [length_cons] at hlen
      omega

theorem intercalate_append {xs ys : List (List α)} (hx : xs ≠ []) (hy : ys ≠ []) :
    d.intercalate (xs ++ ys) = d.intercalate xs ++ (d ++ d.intercalate ys) := by
  induction xs with
  | nil => exact absurd rfl hx
  | cons x xs ih =>
    cases xs with
    | nil =>
      obtain ⟨y, ys, rfl⟩ := exists_cons_of_ne_nil hy
      rw [singleton_append, intercalate_cons_cons, intercalate_singleton, append_assoc]
    | cons z xs =>
      have := ih (by simp)
      rw [cons_append, cons_append, intercalate_cons_cons, ← cons_append, this]
      simp

variable [DecidableEq α]

theorem splitFrom_append (k : List α) (l : List α) :
    splitFrom d k.length (k ++ l) = split d l := by
  induction k with
  | nil => rfl
  | cons c k ih =>
    show splitFrom d (k.length + 1) (c :: (k ++ l)) = _
    rw [splitFrom, ih]

@[simp]
theorem split_nil : split d [] = [[]] := rfl

theorem split_delimiter (hd : d ≠ []) (l : List α) : split d (d ++ l) = [] :: split d l := by
  cases d with
  | nil => exact absurd rfl hd
  | cons c k =>
    have hpre : (c :: k).isPrefixOf (c :: (k ++ l)) = true :=
      isPrefixOf_iff_prefix.2 (prefix_append (c :: k) l)
    show splitFrom (c :: k) 0 (c :: (k ++ l)) = _
    rw [splitFrom, if_pos hpre]
    show [] :: splitFrom (c :: k) k.length (k ++ l) = _
    rw [splitFrom_append]

theorem split_cons {c : α} {l : List α} (h : ¬ d <+: c :: l) :
    split d (c :: l) = (split d l).modifyHead (c :: ·) := by
  show splitFrom d 0 (c :: l) = _
  rw [splitFrom, if_neg (mt isPrefixOf_iff_prefix.1 h)]
  rfl

/-- Induction along the occurrences that `split` takes. -/
theorem delimiter_induction (hd : d ≠ []) {P : List α → Prop} (nil : P [])
    (delimiter : ∀ l, P l → P (d ++ l)) (cons : ∀ c l, ¬ d <+: c :: l → P l → P (c :: l))
    (l : List α) : P l := by
  induction h : l.length using Nat.strong_induction_on generalizing l with
  | _ n ih =>
    by_cases hpre : d <+: l
    · obtain ⟨t, rfl⟩ := hpre
      have hpos := length_pos_iff.2 hd
      rw [length_append] at h
      exact delimiter t (ih t.length (by omega) t rfl)
    · cases l with
      | nil => exact nil
      | cons c t =>
        rw [length_cons] at h
        exact cons c t hpre (ih t.length (by omega) t rfl)

theorem split_ne_nil (hd : d ≠ []) (l : List α) : split d l ≠ [] := by
  induction l using delimiter_induction hd with
  | nil => simp
  | delimiter l ih => simp [split_delimiter hd]
  | cons c l h ih =>
    rw [split_cons h]
    simpa using ih

theorem intercalate_split (hd : d ≠ []) (l : List α) : d.intercalate (split d l) = l := by
  induction l using delimiter_induction hd with
  | nil => rfl
  | delimiter l ih =>
    rw [split_delimiter hd]
    obtain ⟨x, xs, hx⟩ := exists_cons_of_ne_nil (split_ne_nil hd l)
    rw [hx] at ih ⊢
    rw [intercalate_cons_cons, ih, nil_append]
  | cons c l h ih =>
    rw [split_cons h]
    obtain ⟨x, xs, hx⟩ := exists_cons_of_ne_nil (split_ne_nil hd l)
    rw [hx] at ih ⊢
    cases xs with
    | nil =>
      rw [intercalate_singleton] at ih
      rw [modifyHead_cons, intercalate_singleton, ih]
    | cons y ys =>
      rw [intercalate_cons_cons] at ih
      rw [modifyHead_cons, intercalate_cons_cons, cons_append, cons_append, ih]

theorem prefix_of_split (hd : d ≠ []) {l x : List α} {xs : List (List α)}
    (h : split d l = x :: xs) : x <+: l := by
  have hl := intercalate_split hd l
  rw [h] at hl
  cases xs with
  | nil =>
    rw [intercalate_singleton] at hl
    rw [hl]
  | cons y ys =>
    exact ⟨_, hl⟩

theorem free_of_mem_split (hd : d ≠ []) (l : List α) : ∀ x ∈ split d l, Free d x := by
  have hnil : Free d [] := fun h => hd (infix_nil.1 h)
  induction l using delimiter_induction hd with
  | nil => simpa using hnil
  | delimiter l ih =>
    rw [split_delimiter hd]
    intro x hx
    rcases mem_cons.1 hx with rfl | hx
    · exact hnil
    · exact ih x hx
  | cons c l h ih =>
    rw [split_cons h]
    obtain ⟨y, ys, hy⟩ := exists_cons_of_ne_nil (split_ne_nil hd l)
    rw [hy] at ih ⊢
    intro x hx
    rcases mem_cons.1 hx with rfl | hx
    · intro hinfix
      -- an occurrence in the longer piece begins with `c`, or is one in `y`
      rcases infix_cons_iff.1 hinfix with hpre | hinfix
      · exact h (hpre.trans ((prefix_cons_inj c).2 (prefix_of_split hd hy)))
      · exact ih y mem_cons_self hinfix
    · exact ih x (mem_cons_of_mem _ hx)

theorem split_free {l : List α} (h : Free d l) : split d l = [l] := by
  induction l with
  | nil => rfl
  | cons c l ih =>
    have hl : Free d l := h.of_piece (infix_cons (infix_refl l))
    rw [split_cons fun hpre => h hpre.isInfix, ih hl]
    rfl

theorem split_append_append (hd : d ≠ []) (hu : Unbordered d) (k l : List α) :
    split d (k ++ (d ++ l)) = split d k ++ split d l := by
  induction k using delimiter_induction hd with
  | nil => exact split_delimiter hd l
  | delimiter k ih => rw [append_assoc, split_delimiter hd, ih, split_delimiter hd]; rfl
  | cons c k h ih =>
    have hnot : ¬ d <+: c :: (k ++ (d ++ l)) := not_prefix_append hu h l
    obtain ⟨x, xs, hx⟩ := exists_cons_of_ne_nil (split_ne_nil hd k)
    rw [cons_append, split_cons hnot, ih, split_cons h, hx]
    rfl

theorem split_append (hd : d ≠ []) (hu : Unbordered d) {k : List α} (h : Free d k) (l : List α) :
    split d (k ++ (d ++ l)) = k :: split d l := by
  rw [split_append_append hd hu, split_free h]
  rfl

theorem split_intercalate (hd : d ≠ []) (hu : Unbordered d) {ls : List (List α)} (hls : ls ≠ [])
    (h : ∀ x ∈ ls, Free d x) : split d (d.intercalate ls) = ls := by
  induction ls with
  | nil => exact absurd rfl hls
  | cons x ls ih =>
    have hx := h x mem_cons_self
    cases ls with
    | nil =>
      rw [intercalate_singleton]
      exact split_free hx
    | cons y ls =>
      rw [intercalate_cons_cons, append_assoc, split_append hd hu hx,
        ih (by simp) fun z hz => h z (mem_cons_of_mem _ hz)]

end

/-! ## Text with no character of the delimiter -/

section
variable {α : Type} [DecidableEq α] {d x : List α}

theorem split_text_append (hd : d ≠ []) (hx : ∀ c ∈ x, c ∉ d) (l : List α) :
    split d (x ++ l) = (split d l).modifyHead (x ++ ·) := by
  induction x with
  | nil =>
    obtain ⟨y, ys, hy⟩ := exists_cons_of_ne_nil (split_ne_nil hd l)
    rw [nil_append, hy]
    rfl
  | cons c x ih =>
    have hnot : ¬ d <+: c :: (x ++ l) := by
      rintro ⟨t, ht⟩
      cases d with
      | nil => exact hd rfl
      | cons e d =>
        have he : e = c := (List.cons.inj ht).1
        exact hx c mem_cons_self (he ▸ mem_cons_self)
    obtain ⟨y, ys, hy⟩ := exists_cons_of_ne_nil (split_ne_nil hd l)
    rw [cons_append, split_cons hnot, ih fun c' hc => hx c' (mem_cons_of_mem c hc), hy]
    rfl

theorem split_append_text (hd : d ≠ []) (hx : ∀ c ∈ x, c ∉ d) (l : List α) :
    ∃ ys y, split d l = ys ++ [y] ∧ split d (l ++ x) = ys ++ [y ++ x] := by
  induction l using delimiter_induction hd with
  | nil =>
    have hsplit := split_text_append hd hx []
    exact ⟨[], [], rfl, by simpa using hsplit⟩
  | delimiter l ih =>
    obtain ⟨ys, y, hl, hlx⟩ := ih
    refine ⟨[] :: ys, y, ?_, ?_⟩
    · rw [split_delimiter hd, hl]
      rfl
    · rw [append_assoc, split_delimiter hd, hlx]
      rfl
  | cons c l h ih =>
    obtain ⟨ys, y, hl, hlx⟩ := ih
    have hnot : ¬ d <+: c :: (l ++ x) := by
      intro hpre
      -- a delimiter that begins before `x` would have a character of it
      rcases Nat.le_total d.length (c :: l).length with hle | hle
      · exact h (prefix_of_prefix_length_le hpre (prefix_append (c :: l) x) hle)
      · obtain ⟨t, ht⟩ := prefix_of_prefix_length_le (prefix_append (c :: l) x) hpre hle
        cases t with
        | nil =>
          rw [append_nil] at ht
          exact h (ht ▸ prefix_rfl)
        | cons e t =>
          rw [← ht, ← cons_append, prefix_append_right_inj] at hpre
          obtain ⟨r, hr⟩ := hpre
          refine hx e ?_ ?_
          · rw [← hr]
            simp
          · rw [← ht]
            simp
    rw [cons_append, split_cons h, split_cons hnot, hl, hlx]
    cases ys with
    | nil => exact ⟨[], c :: y, rfl, rfl⟩
    | cons z ys => exact ⟨(c :: z) :: ys, y, rfl, rfl⟩

theorem Free.append_text (hd : d ≠ []) (hx : ∀ c ∈ x, c ∉ d) {l : List α} (h : Free d l) :
    Free d (l ++ x) := by
  obtain ⟨ys, y, hl, hlx⟩ := split_append_text hd hx l
  rw [split_free h] at hl
  have hys : ys = [] ∧ y = l := by
    cases ys with
    | nil => exact ⟨rfl, (List.cons.inj hl).1.symm⟩
    | cons z ys =>
      have := congrArg List.length hl
      simp at this
  rw [hys.2] at hlx
  exact free_of_mem_split hd (l ++ x) (l ++ x) (by rw [hlx]; simp)

end

end Split
