import Mathlib.Data.List.Basic
import Mathlib.Logic.Function.Basic

/-!
# Lists in the order of last use

Each use of an element is stamped with the reading of a clock that goes on with every event.
A list is ordered by recency if the stamps go down along it; then its last element is the
one whose last use is the oldest.

    Ordered → a goes to the front with the stamp of now → Ordered  (Ordered.use)
    Ordered lastUse clock (l ++ [a]) → ∀ b ∈ l, lastUse a < lastUse b  (Ordered.oldest)
-/

namespace Recency

variable {α : Type} {lastUse : α → Nat} {clock : Nat} {l : List α}

/-- The most recently used element is first, and every use is in the past. -/
structure Ordered (lastUse : α → Nat) (clock : Nat) (l : List α) : Prop where
  sorted : l.Pairwise fun a b => lastUse b < lastUse a
  past : ∀ a ∈ l, lastUse a < clock

theorem ordered_nil : Ordered lastUse clock [] := ⟨.nil, fun _ h => absurd h List.not_mem_nil⟩

theorem Ordered.sublist (h : Ordered lastUse clock l) {k : List α} (hk : k.Sublist l) :
    Ordered lastUse clock k :=
  ⟨h.sorted.sublist hk, fun a ha => h.past a (hk.subset ha)⟩

theorem Ordered.later (h : Ordered lastUse clock l) : Ordered lastUse (clock + 1) l :=
  ⟨h.sorted, fun a ha => Nat.lt_succ_of_lt (h.past a ha)⟩

theorem Ordered.oldest {a : α} (h : Ordered lastUse clock (l ++ [a])) {b : α} (hb : b ∈ l) :
    lastUse a < lastUse b :=
  (List.pairwise_append.1 h.sorted).2.2 b hb a List.mem_cons_self

variable [DecidableEq α]

theorem Ordered.use (h : Ordered lastUse clock l) {a : α} (ha : a ∉ l) :
    Ordered (Function.update lastUse a clock) (clock + 1) (a :: l) := by
  have hsame : ∀ b ∈ l, Function.update lastUse a clock b = lastUse b := by
    intro b hb
    refine Function.update_of_ne ?_ _ _
    rintro rfl
    exact ha hb
  constructor
  · refine List.pairwise_cons.2 ⟨?_, ?_⟩
    · intro b hb
      rw [hsame b hb, Function.update_self]
      exact h.past b hb
    · refine h.sorted.imp_of_mem ?_
      intro b d hb hd hlt
      rw [hsame b hb, hsame d hd]
      exact hlt
  · intro b hb
    rcases List.mem_cons.1 hb with rfl | hb
    · rw [Function.update_self]
      exact Nat.lt_succ_self clock
    · rw [hsame b hb]
      exact Nat.lt_succ_of_lt (h.past b hb)

end Recency
