import Mathlib.Data.Set.Card

/-!
# A counter kept in step with a set of threads

`Counts P n`: exactly `n` elements have the property `P`.  A program that keeps such a
counter changes it by one when one element gains or loses the property; the rules say so
for a property given before and after the change, and for a property of the place `f t` of
each element when one element moves.
-/

namespace Counting

variable {T : Type} {P Q : T → Prop} {n : ℕ}

def Counts (P : T → Prop) (n : ℕ) : Prop := {t | P t}.encard = n

theorem counts_zero (h : ∀ t, ¬ P t) : Counts P 0 := by
  unfold Counts
  rw [Nat.cast_zero, Set.encard_eq_zero, Set.eq_empty_iff_forall_notMem]
  exact h

theorem Counts.congr (h : Counts P n) (hq : ∀ u, Q u ↔ P u) : Counts Q n := by
  rwa [Set.ext hq]

theorem Counts.add (h : Counts P n) (t : T) (ht : ¬ P t) (hq : ∀ u, Q u ↔ u = t ∨ P u) :
    Counts Q (n + 1) := by
  unfold Counts at h ⊢
  have he : {u | Q u} = insert t {u | P u} := Set.ext hq
  have hm : t ∉ {u | P u} := ht
  rw [he, Set.encard_insert_of_notMem hm, h, Nat.cast_add, Nat.cast_one]

theorem Counts.remove (h : Counts P n) (t : T) (ht : P t) (hq : ∀ u, Q u ↔ P u ∧ u ≠ t) :
    Counts Q (n - 1) := by
  unfold Counts at h ⊢
  have he : {u | Q u} = {u | P u} \ {t} := Set.ext hq
  have hm : t ∈ {u | P u} := ht
  rw [he, Set.encard_sdiff_singleton_of_mem hm, h]
  rfl

theorem Counts.pos (h : Counts P n) (t : T) (ht : P t) : 0 < n := by
  unfold Counts at h
  rw [Nat.pos_iff_ne_zero]
  rintro rfl
  rw [Nat.cast_zero, Set.encard_eq_zero] at h
  exact (Set.eq_empty_iff_forall_notMem.1 h) t ht

theorem Counts.exists_of_pos (h : Counts P n) (hn : 0 < n) : ∃ t, P t := by
  by_contra hne
  rw [not_exists] at hne
  have h0 : Counts P 0 := counts_zero hne
  unfold Counts at h h0
  rw [h, Nat.cast_inj] at h0
  omega

theorem Counts.length_le (h : Counts P n) {l : List T} (hl : l.Nodup) (hp : ∀ t ∈ l, P t) :
    l.length ≤ n := by
  classical
  have hsub : (l.toFinset : Set T) ⊆ {t | P t} := by
    intro t ht
    exact hp t (List.mem_toFinset.1 ht)
  have hle := Set.encard_le_encard hsub
  rw [h, Set.encard_coe_eq_coe_finsetCard, List.toFinset_card_of_nodup hl, Nat.cast_le] at hle
  exact hle

/-! ## One element moves -/

variable [DecidableEq T] {A : Type} {p : A → Prop} {f : T → A} {t : T} {a : A}

theorem Counts.update_same (h : Counts (fun u => p (f u)) n) (ha : p a ↔ p (f t)) :
    Counts (fun u => p (Function.update f t a u)) n := by
  refine h.congr fun u => ?_
  by_cases hu : u = t
  · subst hu
    simpa using ha
  · simp [hu]

theorem Counts.update_add (h : Counts (fun u => p (f u)) n) (ht : ¬ p (f t)) (ha : p a) :
    Counts (fun u => p (Function.update f t a u)) (n + 1) := by
  refine h.add t ht fun u => ?_
  by_cases hu : u = t
  · subst hu
    simpa using ha
  · simp [hu]

theorem Counts.update_remove (h : Counts (fun u => p (f u)) n) (ht : p (f t)) (ha : ¬ p a) :
    Counts (fun u => p (Function.update f t a u)) (n - 1) := by
  refine h.remove t ht fun u => ?_
  by_cases hu : u = t
  · subst hu
    simpa using ha
  · simp [hu]

end Counting
