import GitTest.Lib.Links

/-!
# Chains linked in both directions

Chains whose nodes also know what is before them.  `back a` is a value of any type `B` that says
where the pointer to `a` is: `place i none` for the first node of chain `i`, `place i (some b)` for
a node behind `b`.  A back link may be the node before (`NULL` for the first), or the address of
the pointer to the node.

    Doubly place D heads next back chain → taking out a node, which stores its link before it and
      its back link behind it, gives the chains without it  (Doubly.remove)
    a node that is in no chain becomes the head of one  (Doubly.push)

A walk along the links has one end: from a node that is reached from itself no chain starts.

    Seg next (some a) (a :: l) (some a) → ¬ Seg next (some a) k none (Seg.no_end)
-/

namespace Links

open Function List

section
variable {A B : Type}

/-- The nodes of `l` know what is before them, and the first of them that it is `x`. -/
def Backs (place : Option A → B) (back : A → B) : Option A → List A → Prop
  | _, [] => True
  | x, a :: l => back a = place x ∧ Backs place back (some a) l

variable {place : Option A → B} {back : A → B}

theorem backs_append {x : Option A} {l₁ l₂ : List A} : Backs place back x (l₁ ++ l₂) ↔
    Backs place back x l₁ ∧ Backs place back (l₁.getLast?.or x) l₂ := by
  induction l₁ generalizing x with
  | nil => simp [Backs]
  | cons a l ih =>
    have hlast : (a :: l).getLast?.or x = l.getLast?.or (some a) := by
      rw [getLast?_cons]
      cases l.getLast? with
      | none | some => rfl
    rw [cons_append, Backs, Backs, ih, hlast, and_assoc]

variable [DecidableEq A]

theorem Backs.frame {x : Option A} {l : List A} (h : Backs place back x l) {a : A} (ha : a ∉ l)
    (v : B) : Backs place (update back a v) x l := by
  induction l generalizing x with
  | nil => trivial
  | cons b l ih =>
    rw [mem_cons, not_or] at ha
    exact ⟨by rw [update_of_ne (Ne.symm ha.1)]; exact h.1, ih h.2 ha.2⟩

/-- A store to the back link of the node that a pointer points to, if it is not `NULL`. -/
def storeBack (back : A → B) (v : B) : Option A → A → B
  | none => back
  | some b => Function.update back b v

/-- The node behind a node that goes takes over its back link. -/
theorem Backs.remove {x : Option A} {pre post : List A} {a : A}
    (h : Backs place back x (pre ++ a :: post)) (hn : (pre ++ a :: post).Nodup) :
    Backs place (storeBack back (back a) post.head?) x (pre ++ post) := by
  obtain ⟨hpre, ha, hpost⟩ := backs_append.1 h
  cases post with
  | nil =>
    rw [append_nil]
    exact hpre
  | cons b post =>
    obtain ⟨-, hn', hdisj⟩ := nodup_append.1 hn
    have hb : b ∉ pre := fun hm => hdisj b hm b (by simp) rfl
    have hb' : b ∉ post := (nodup_cons.1 (nodup_cons.1 hn').2).1
    refine backs_append.2 ⟨hpre.frame hb _, ?_, hpost.2.frame hb' _⟩
    rw [← ha]
    exact update_self ..

end

section
variable {A : Type} {next : A → Option A}

theorem Seg.head_eq {p : Option A} {l : List A} (h : Seg next p l none) : p = l.head? := by
  cases l with
  | nil => exact h
  | cons a l => exact h.1

/-- The walk from a pointer passes through every node that it reaches. -/
theorem Seg.extend {p : Option A} {l k : List A} {a : A} (h : Seg next p l (some a))
    (hk : Seg next p k none) : ∃ k', k = l ++ k' ∧ Seg next (some a) k' none := by
  induction l generalizing p k with
  | nil =>
    cases h
    exact ⟨k, rfl, hk⟩
  | cons b l ih =>
    obtain ⟨rfl, h⟩ := h
    cases k with
    | nil => cases hk
    | cons c k =>
      obtain ⟨hc, hk⟩ := hk
      cases hc
      obtain ⟨k', rfl, hk'⟩ := ih h hk
      exact ⟨k', rfl, hk'⟩

theorem Seg.no_end {a : A} {l k : List A} (h : Seg next (some a) (a :: l) (some a)) :
    ¬ Seg next (some a) k none := by
  -- each round takes away a part of the walk that is not empty
  induction hn : k.length using Nat.strongRecOn generalizing k with
  | ind n ih =>
    intro hk
    obtain ⟨k', rfl, hk'⟩ := h.extend hk
    exact ih k'.length (by simp at hn; omega) rfl hk'

end

section
variable {I A B : Type}

/-- The chains of the buckets in `D`, linked in both directions. -/
structure Doubly (place : I → Option A → B) (D : I → Prop) (heads : I → Option A)
    (next : A → Option A) (back : A → B) (chain : I → List A) : Prop
    extends Chains D heads next chain where
  backs : ∀ i, D i → Backs (place i) back none (chain i)

variable {place : I → Option A → B} {D : I → Prop} {heads : I → Option A} {next : A → Option A}
  {back : A → B} {chain : I → List A} {i : I} {a : A} {pre post : List A}

theorem Doubly.next_eq (h : Doubly place D heads next back chain) (hi : D i)
    (hc : chain i = pre ++ a :: post) : next a = post.head? := by
  have hseg := h.seg i hi
  rw [hc] at hseg
  obtain ⟨r, -, -, hpost⟩ := seg_append.1 hseg
  exact hpost.head_eq

theorem Doubly.back_eq (h : Doubly place D heads next back chain) (hi : D i)
    (hc : chain i = pre ++ a :: post) : back a = place i pre.getLast? := by
  have hbacks := h.backs i hi
  rw [hc] at hbacks
  obtain ⟨-, ha, -⟩ := backs_append.1 hbacks
  rw [ha, Option.or_none]

variable [DecidableEq A]

variable [DecidableEq I]

theorem Doubly.remove (h : Doubly place D heads next back chain) (hi : D i)
    (hc : chain i = pre ++ a :: post) :
    Doubly place D (storeHead heads (next a) (slotAfter i pre))
      (storeLink next (next a) (slotAfter i pre)) (storeBack back (back a) (next a))
      (update chain i (pre ++ post)) := by
  refine ⟨h.toChains.remove hi hc, fun j hj => ?_⟩
  by_cases hji : j = i
  · subst hji
    rw [update_self, h.next_eq hi hc]
    have hbacks := h.backs j hj
    have hn := h.nodup j hj
    rw [hc] at hbacks hn
    exact hbacks.remove hn
  · rw [update_of_ne hji, h.next_eq hi hc]
    cases post with
    | nil => exact h.backs j hj
    | cons b post =>
      refine (h.backs j hj).frame ?_ _
      exact h.disjoint i j hi hj hji b (by rw [hc]; simp)

omit [DecidableEq A] in
theorem mem_update_cons {j : I} {b : A} : b ∈ update chain i (a :: chain i) j ↔
    b ∈ chain j ∨ b = a ∧ j = i := by
  by_cases hji : j = i
  · subst hji
    simp [or_comm]
  · simp [hji]

/-- A node that is in no chain is put before the first one. -/
theorem Doubly.push (h : Doubly place D heads next back chain) (hi : D i)
    (ha : ∀ j, D j → a ∉ chain j) :
    Doubly place D (update heads i (some a)) (update next a (heads i))
      (storeBack (update back a (place i none)) (place i (some a)) (heads i))
      (update chain i (a :: chain i)) := by
  have hhead := (h.seg i hi).head_eq
  refine ⟨⟨fun j hj => ?_, fun j hj => ?_, fun j k hj hk hkj b hb => ?_⟩, fun j hj => ?_⟩
  · by_cases hji : j = i
    · subst hji
      rw [update_self, update_self]
      exact (h.seg j hj).push (ha j hj)
    · rw [update_of_ne hji, update_of_ne hji]
      exact (h.seg j hj).frame (ha j hj) _
  · by_cases hji : j = i
    · subst hji
      rw [update_self]
      exact nodup_cons.2 ⟨ha j hj, h.nodup j hj⟩
    · rw [update_of_ne hji]
      exact h.nodup j hj
  · by_cases hji : j = i
    · subst hji
      rw [update_of_ne hkj]
      rw [update_self] at hb
      rcases mem_cons.1 hb with rfl | hb
      · exact ha k hk
      · exact h.disjoint j k hj hk hkj b hb
    · rw [update_of_ne hji] at hb
      by_cases hki : k = i
      · subst hki
        rw [update_self, mem_cons, not_or]
        exact ⟨fun he => ha j hj (he ▸ hb), h.disjoint j k hj hk hkj b hb⟩
      · rw [update_of_ne hki]
        exact h.disjoint j k hj hk hkj b hb
  · -- the first node so far gets the new one as its back link
    rw [hhead]
    by_cases hji : j = i
    · subst hji
      have hbacks := h.backs j hj
      have hnew := ha j hj
      have hn := h.nodup j hj
      rw [update_self]
      cases hl : chain j with
      | nil => exact ⟨update_self .., trivial⟩
      | cons b l =>
        rw [hl] at hbacks hnew hn
        rw [mem_cons, not_or] at hnew
        refine ⟨?_, update_self .., ?_⟩
        · change update _ b _ a = _
          rw [update_of_ne hnew.1, update_self]
        · exact (hbacks.2.frame hnew.2 _).frame (nodup_cons.1 hn).1 _
    · rw [update_of_ne hji]
      have hframe := (h.backs j hj).frame (ha j hj) (place i none)
      cases hl : chain i with
      | nil => exact hframe
      | cons b l => exact hframe.frame (h.disjoint i j hi hj hji b (by rw [hl]; simp)) _

end

end Links
