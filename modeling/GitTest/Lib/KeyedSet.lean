import Mathlib.Data.List.Pairwise
import Mathlib.Data.List.Perm.Lattice
import Mathlib.Order.Lattice

/-!
# Sets with one element for each key, in the order of the keys

Adding an element whose key is there already changes nothing; elements are removed by key.
A set is known from what it has for each key.

    find (insert s a) k = (find s k).or (if key a = k then some a else none)  (find_insert)
    (∀ k, find s k = find t k) → s = t  (ext_find)
-/

namespace KeyedSet

open List

variable {α κ : Type} [LinearOrder κ] (key : α → κ)

/-- Elements in strictly ascending order of their keys. -/
structure Keyed where
  toList : List α
  sorted : toList.Pairwise fun a b => key a < key b

def insertList (a : α) : List α → List α
  | [] => [a]
  | b :: l =>
    if key a < key b then a :: b :: l
    else if key b < key a then b :: insertList a l
    else b :: l

def lookup (k : κ) : List α → Option α
  | [] => none
  | a :: l => if key a = k then some a else lookup k l

variable {key} in
theorem lookup_append (k : κ) (l l' : List α) :
    lookup key k (l ++ l') = (lookup key k l).or (lookup key k l') := by
  induction l with
  | nil => rfl
  | cons a l ih =>
    show (if key a = k then some a else lookup key k (l ++ l')) =
      (if key a = k then some a else lookup key k l).or (lookup key k l')
    by_cases hk : key a = k
    · rw [if_pos hk, if_pos hk]
      rfl
    · rw [if_neg hk, if_neg hk, ih]

variable {key} in
theorem lookup_eq_none {k : κ} {l : List α} (h : ∀ a ∈ l, key a ≠ k) : lookup key k l = none := by
  induction l with
  | nil => rfl
  | cons a l ih =>
    unfold lookup
    rw [if_neg (h a mem_cons_self)]
    exact ih fun b hb => h b (mem_cons_of_mem _ hb)

variable {key} in
theorem lookup_eq_some {k : κ} {l : List α} {a : α} (h : lookup key k l = some a) :
    a ∈ l ∧ key a = k := by
  induction l with
  | nil => cases h
  | cons b l ih =>
    unfold lookup at h
    split at h
    · next hk =>
      cases h
      exact ⟨mem_cons_self, hk⟩
    · exact (ih h).imp_left (mem_cons_of_mem b)

variable {key} in
theorem lookup_ne_none {a : α} {l : List α} (h : a ∈ l) : lookup key (key a) l ≠ none := by
  intro hnone
  obtain ⟨l₁, l₂, rfl⟩ := append_of_mem h
  rw [lookup_append, lookup, if_pos rfl, Option.or_eq_none_iff] at hnone
  cases hnone.2

theorem mem_insertList {a x : α} {l : List α} (h : x ∈ insertList key a l) : x = a ∨ x ∈ l := by
  induction l with
  | nil => exact .inl (mem_singleton.1 h)
  | cons b l ih =>
    unfold insertList at h
    split at h
    · rcases mem_cons.1 h with h | h
      · exact .inl h
      · exact .inr h
    · split at h
      · rcases mem_cons.1 h with rfl | h
        · exact .inr mem_cons_self
        · exact (ih h).imp_right (mem_cons_of_mem b)
      · exact .inr h

theorem sorted_insertList (a : α) {l : List α} (h : l.Pairwise fun a b => key a < key b) :
    (insertList key a l).Pairwise fun a b => key a < key b := by
  induction l with
  | nil => exact pairwise_singleton _ _
  | cons b l ih =>
    obtain ⟨hb, hl⟩ := pairwise_cons.1 h
    unfold insertList
    split
    · next hlt =>
      refine pairwise_cons.2 ⟨?_, h⟩
      intro x hx
      rcases mem_cons.1 hx with rfl | hx
      · exact hlt
      · exact lt_trans hlt (hb x hx)
    · split
      · next hlt =>
        refine pairwise_cons.2 ⟨?_, ih hl⟩
        intro x hx
        rcases mem_insertList key hx with rfl | hx
        · exact hlt
        · exact hb x hx
      · exact h

variable {key}

namespace Keyed

def empty : Keyed key := ⟨[], .nil⟩

def insert (s : Keyed key) (a : α) : Keyed key :=
  ⟨insertList key a s.toList, sorted_insertList key a s.sorted⟩

def erase (s : Keyed key) (k : κ) : Keyed key :=
  ⟨s.toList.filter fun a => decide (key a ≠ k), s.sorted.filter _⟩

def insertAll (s : Keyed key) (l : List α) : Keyed key := l.foldl insert s

def find (s : Keyed key) (k : κ) : Option α := lookup key k s.toList

theorem find_insert (s : Keyed key) (a : α) (k : κ) :
    (s.insert a).find k = (s.find k).or (if key a = k then some a else none) := by
  obtain ⟨l, hl⟩ := s
  show lookup key k (insertList key a l) = (lookup key k l).or _
  induction l with
  | nil => rfl
  | cons b l ih =>
    obtain ⟨hb, hl⟩ := pairwise_cons.1 hl
    rw [insertList]
    split
    · next hlt =>
      -- `a` comes first, and no other element has its key
      show (if key a = k then some a else lookup key k (b :: l)) = _
      by_cases hk : key a = k
      · have hnone : lookup key k (b :: l) = none := by
          refine lookup_eq_none fun x hx => ?_
          rw [← hk]
          rcases mem_cons.1 hx with rfl | hx
          · exact ne_of_gt hlt
          · exact ne_of_gt (lt_trans hlt (hb x hx))
        rw [if_pos hk, if_pos hk, hnone]
        rfl
      · rw [if_neg hk, if_neg hk, Option.or_none]
    · next hnlt =>
      split
      · show (if key b = k then some b else lookup key k (insertList key a l)) =
          (if key b = k then some b else lookup key k l).or _
        by_cases hbk : key b = k
        · rw [if_pos hbk, if_pos hbk]
          rfl
        · rw [if_neg hbk, if_neg hbk]
          exact ih hl
      · next hnlt' =>
        have heq : key a = key b := le_antisymm (not_lt.1 hnlt') (not_lt.1 hnlt)
        by_cases hk : key a = k
        · show (if key b = k then some b else lookup key k l) =
            (if key b = k then some b else lookup key k l).or _
          rw [if_pos (heq ▸ hk)]
          rfl
        · rw [if_neg hk, Option.or_none]

theorem find_insertAll (s : Keyed key) (l : List α) (k : κ) :
    (s.insertAll l).find k = (s.find k).or (lookup key k l) := by
  induction l generalizing s with
  | nil => exact (Option.or_none).symm
  | cons a l ih =>
    show ((s.insert a).insertAll l).find k =
      (s.find k).or (if key a = k then some a else lookup key k l)
    rw [ih, find_insert, Option.or_assoc]
    by_cases hk : key a = k
    · rw [if_pos hk, if_pos hk]
      rfl
    · rw [if_neg hk, if_neg hk]
      rfl

theorem find_erase (s : Keyed key) (k' k : κ) :
    (s.erase k').find k = if k = k' then none else s.find k := by
  obtain ⟨l, hl⟩ := s
  show lookup key k (l.filter _) = if k = k' then none else lookup key k l
  clear hl
  induction l with
  | nil => exact (ite_self _).symm
  | cons a l ih =>
    by_cases ha : key a = k'
    · rw [filter_cons_of_neg (by simpa using ha), ih]
      by_cases hk : k = k'
      · rw [if_pos hk, if_pos hk]
      · rw [if_neg hk, if_neg hk, lookup, if_neg fun h : key a = k => hk (h.symm.trans ha)]
    · rw [filter_cons_of_pos (by simpa using ha), lookup, lookup, ih]
      by_cases hk : k = k'
      · rw [if_pos hk, if_pos hk, if_neg fun h => ha (h.trans hk)]
      · rw [if_neg hk, if_neg hk]

theorem eq_of_key (s : Keyed key) {a b : α} (ha : a ∈ s.toList) (hb : b ∈ s.toList)
    (h : key a = key b) : a = b := by
  by_contra hne
  have hlt := pairwise_iff_getElem.1 s.sorted
  obtain ⟨i, hi, rfl⟩ := mem_iff_getElem.1 ha
  obtain ⟨j, hj, rfl⟩ := mem_iff_getElem.1 hb
  rcases Nat.lt_trichotomy i j with hij | rfl | hij
  · exact ne_of_lt (hlt i j hi hj hij) h
  · exact hne rfl
  · exact ne_of_gt (hlt j i hj hi hij) h

theorem mem_iff_find (s : Keyed key) (a : α) : a ∈ s.toList ↔ s.find (key a) = some a := by
  constructor
  · intro h
    cases hf : s.find (key a) with
    | none => exact absurd hf (lookup_ne_none h)
    | some b =>
      obtain ⟨hb, hkey⟩ := lookup_eq_some hf
      rw [s.eq_of_key hb h hkey]
  · intro h
    exact (lookup_eq_some h).1

theorem ext_find {s t : Keyed key} (h : ∀ k, s.find k = t.find k) : s = t := by
  have hnodup : ∀ u : Keyed key, u.toList.Nodup := fun u =>
    u.sorted.imp fun hlt heq => absurd (congrArg key heq) (ne_of_lt hlt)
  have hperm : s.toList.Perm t.toList := by
    refine (perm_ext_iff_of_nodup (hnodup s) (hnodup t)).2 fun a => ?_
    rw [mem_iff_find, mem_iff_find, h]
  have heq : s.toList = t.toList :=
    hperm.eq_of_pairwise (fun a b _ _ hab hba => absurd hba (lt_asymm hab)) s.sorted t.sorted
  cases t
  cases heq
  rfl

end Keyed

end KeyedSet
