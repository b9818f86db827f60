import Mathlib.Data.List.Nodup

/-!
# Intrusive lists: chains of a hash table and rings

Link fields are functions from nodes; a store to a field is `Function.update`.

`Seg next p l q`: following `next` from the pointer `p` visits `l` and ends at the pointer
`q`; a chain is a segment to `none`.  A chain is changed through a slot, the place a pointer
is stored in: the head of a chain or the link field of a node.

    Seg next (heads i) l q → load heads next (slotAfter i l) = q  (load_slotAfter)
    storing v in slotAfter i l gives Seg next' (heads' i) l v  (seg_store)

`Chains D heads next chain`: the chains of the buckets in `D` are `chain`, each without
repetition and no two with a common node.

    taking a node out, or adding one at the end, through its slot gives the chains afterwards
      (Chains.remove, Chains.append)

At its head a chain is a stack.

    Seg next p l q → a ∉ l → Seg next' (some a) (a :: l) q  (Seg.push)
    Seg next (some a) l none → l = a :: k ∧ Seg next' (next a) k none  (Seg.pop)

`Path next prev x l y`: from `x` through `l` to `y`, linked in both directions; a ring is a
path from its header back to it.

    Ring h next prev l → removing `a` gives the ring of `l.erase a`  (Ring.remove)
    Ring h next prev l → adding `a` behind the header gives that of `a :: l`  (Ring.add)
-/

namespace Links

open Function List

/-! ## Chains -/

section
variable {I A : Type}

/-- Following `next` from `p` visits `l` and ends at `q`. -/
def Seg (next : A → Option A) : Option A → List A → Option A → Prop
  | p, [], q => p = q
  | p, a :: l, q => p = some a ∧ Seg next (next a) l q

variable {next : A → Option A} {p q : Option A} {l : List A} {a : A} {heads : I → Option A} {i : I}

theorem seg_append {l₁ l₂ : List A} :
    Seg next p (l₁ ++ l₂) q ↔ ∃ r, Seg next p l₁ r ∧ Seg next r l₂ q := by
  induction l₁ generalizing p with
  | nil =>
    constructor
    · intro h
      exact ⟨p, rfl, h⟩
    · rintro ⟨r, hr, h⟩
      cases hr
      exact h
  | cons a l ih =>
    simp only [cons_append, Seg, ih]
    constructor
    · rintro ⟨hp, r, h1, h2⟩
      exact ⟨r, ⟨hp, h1⟩, h2⟩
    · rintro ⟨r, ⟨hp, h1⟩, h2⟩
      exact ⟨hp, r, h1, h2⟩

variable [DecidableEq A]

theorem Seg.frame (h : Seg next p l q) (ha : a ∉ l) (v : Option A) :
    Seg (update next a v) p l q := by
  induction l generalizing p with
  | nil => exact h
  | cons b l ih =>
    obtain ⟨hp, h⟩ := h
    have hb : b ≠ a := fun he => ha (he ▸ mem_cons_self)
    refine ⟨hp, ?_⟩
    rw [update_of_ne hb]
    exact ih h (fun hm => ha (mem_cons_of_mem b hm))

instance Seg.decidable (next : A → Option A) :
    (p : Option A) → (l : List A) → (q : Option A) → Decidable (Seg next p l q)
  | p, [], q => inferInstanceAs (Decidable (p = q))
  | p, a :: l, q =>
    have := Seg.decidable next (next a) l q
    inferInstanceAs (Decidable (p = some a ∧ Seg next (next a) l q))

theorem Seg.push (h : Seg next p l q) (ha : a ∉ l) :
    Seg (update next a p) (some a) (a :: l) q := by
  refine ⟨rfl, ?_⟩
  rw [update_self]
  exact h.frame ha p

theorem Seg.pop (h : Seg next (some a) l none) (hn : l.Nodup) (v : Option A) :
    ∃ k, l = a :: k ∧ Seg (update next a v) (next a) k none := by
  cases l with
  | nil => cases h
  | cons b k =>
    obtain ⟨hb, h⟩ := h
    cases hb
    exact ⟨k, rfl, h.frame (nodup_cons.1 hn).1 v⟩

/-- Where the pointer to a node of a chain is stored. -/
inductive Slot (I A : Type)
  | head (i : I)
  | link (a : A)
  deriving DecidableEq

def load (heads : I → Option A) (next : A → Option A) : Slot I A → Option A
  | .head i => heads i
  | .link a => next a

/-- The slot behind the nodes `l` of chain `i`. -/
def slotAfter (i : I) (l : List A) : Slot I A :=
  match l.getLast? with
  | none => .head i
  | some a => .link a

omit [DecidableEq A] in
@[simp] theorem slotAfter_nil (i : I) : slotAfter i ([] : List A) = .head i := rfl

omit [DecidableEq A] in
@[simp] theorem slotAfter_append (i : I) (l : List A) (a : A) :
    slotAfter i (l ++ [a]) = .link a := by
  simp [slotAfter]

omit [DecidableEq A] in
theorem load_slotAfter (h : Seg next (heads i) l q) : load heads next (slotAfter i l) = q := by
  rcases eq_nil_or_concat l with rfl | ⟨l', a, rfl⟩
  · exact h
  · rw [concat_eq_append] at h ⊢
    rw [slotAfter_append]
    obtain ⟨r, -, -, h⟩ := seg_append.1 h
    exact h

def storeHead [DecidableEq I] (heads : I → Option A) (v : Option A) : Slot I A → I → Option A
  | .head i => Function.update heads i v
  | .link _ => heads

def storeLink (next : A → Option A) (v : Option A) : Slot I A → A → Option A
  | .head _ => next
  | .link a => Function.update next a v

theorem seg_store_frame {k : List A} (h : Seg next p k q) (hd : ∀ a ∈ l, a ∉ k) (v : Option A) :
    Seg (storeLink next v (slotAfter i l)) p k q := by
  rcases eq_nil_or_concat l with rfl | ⟨l', a, rfl⟩
  · exact h
  · rw [concat_eq_append] at hd ⊢
    rw [slotAfter_append]
    exact h.frame (hd a (by simp)) v

variable [DecidableEq I]

theorem seg_store (h : Seg next (heads i) l q) (hn : l.Nodup) (v : Option A) :
    Seg (storeLink next v (slotAfter i l)) (storeHead heads v (slotAfter i l) i) l v := by
  rcases eq_nil_or_concat l with rfl | ⟨l', a, rfl⟩
  · simp [storeHead, Seg]
  · rw [concat_eq_append] at h hn ⊢
    obtain ⟨r, h1, hr, -⟩ := seg_append.1 h
    have ha : a ∉ l' := fun hm => by
      have := (nodup_append.1 hn).2.2 a hm a mem_cons_self
      exact this rfl
    rw [slotAfter_append]
    exact seg_append.2 ⟨r, h1.frame ha v, hr, by simp [storeLink, Seg]⟩

omit [DecidableEq A] in
theorem storeHead_ne {j : I} (h : j ≠ i) (v : Option A) :
    storeHead heads v (slotAfter i l) j = heads j := by
  unfold slotAfter
  cases l.getLast? with
  | none => exact update_of_ne h v heads
  | some a => rfl

/-! ### A table of chains -/

structure Chains (D : I → Prop) (heads : I → Option A) (next : A → Option A)
    (chain : I → List A) : Prop where
  seg : ∀ i, D i → Seg next (heads i) (chain i) none
  nodup : ∀ i, D i → (chain i).Nodup
  disjoint : ∀ i j, D i → D j → j ≠ i → ∀ a ∈ chain i, a ∉ chain j

section
variable {D : I → Prop} {heads : I → Option A} {next : A → Option A} {chain : I → List A}
  {i j : I} {a b : A} {pre post : List A}

omit [DecidableEq A] in
theorem Chains.mem_remove (h : Chains D heads next chain) (hi : D i) (hj : D j)
    (hc : chain i = pre ++ a :: post) :
    b ∈ update chain i (pre ++ post) j ↔ b ∈ chain j ∧ b ≠ a := by
  have hn := h.nodup i hi
  rw [hc, nodup_middle, nodup_cons] at hn
  by_cases hji : j = i
  · subst hji
    rw [update_self, hc, mem_append, mem_append, mem_cons]
    have hne : b ∈ pre ∨ b ∈ post → b ≠ a := by
      rintro hb rfl
      exact hn.1 (mem_append.2 hb)
    tauto
  · rw [update_of_ne hji]
    have hne : b ∈ chain j → b ≠ a := by
      rintro hb rfl
      exact h.disjoint i j hi hj hji b (by rw [hc]; simp) hb
    tauto

theorem Chains.remove (h : Chains D heads next chain) (hi : D i)
    (hc : chain i = pre ++ a :: post) :
    Chains D (storeHead heads (next a) (slotAfter i pre)) (storeLink next (next a) (slotAfter i pre))
      (update chain i (pre ++ post)) := by
  have hseg := h.seg i hi
  rw [hc] at hseg
  obtain ⟨r, hpre, -, hpost⟩ := seg_append.1 hseg
  have hn := h.nodup i hi
  rw [hc] at hn
  obtain ⟨hnpre, -, hdisj⟩ := nodup_append.1 hn
  refine ⟨?_, ?_, ?_⟩
  · intro j hj
    by_cases hji : j = i
    · subst hji
      rw [update_self]
      refine seg_append.2 ⟨next a, seg_store hpre hnpre _, seg_store_frame hpost ?_ _⟩
      intro b hb hb'
      exact hdisj b hb b (mem_cons_of_mem a hb') rfl
    · rw [update_of_ne hji, storeHead_ne hji]
      refine seg_store_frame (h.seg j hj) ?_ _
      intro b hb
      exact h.disjoint i j hi hj hji b (by rw [hc]; exact mem_append_left _ hb)
  · intro j hj
    by_cases hji : j = i
    · subst hji
      rw [update_self]
      exact hn.sublist (List.Sublist.append_left (sublist_cons_self a post) pre)
    · rw [update_of_ne hji]
      exact h.nodup j hj
  · intro j k hj hk hkj b hb hb'
    rw [h.mem_remove hi hj hc] at hb
    rw [h.mem_remove hi hk hc] at hb'
    exact h.disjoint j k hj hk hkj b hb.1 hb'.1

omit [DecidableEq A] in
theorem mem_update_append : b ∈ update chain i (chain i ++ [a]) j ↔
    b ∈ chain j ∨ b = a ∧ j = i := by
  by_cases hji : j = i
  · subst hji
    simp
  · simp [hji]

/-- A node that is in no chain is stored in the slot at the end of one. -/
theorem Chains.append (h : Chains D heads next chain) (hi : D i) (ha : ∀ j, D j → a ∉ chain j)
    (hnext : next a = none) :
    Chains D (storeHead heads (some a) (slotAfter i (chain i)))
      (storeLink next (some a) (slotAfter i (chain i)))
      (update chain i (chain i ++ [a])) := by
  refine ⟨?_, ?_, ?_⟩
  · intro j hj
    by_cases hji : j = i
    · subst hji
      rw [update_self]
      refine seg_append.2 ⟨some a, seg_store (h.seg j hj) (h.nodup j hj) (some a), rfl, ?_⟩
      have hnew : Seg next (some a) [a] none := ⟨rfl, hnext⟩
      have hd : ∀ b ∈ chain j, b ∉ [a] := by
        intro b hb hm
        rw [mem_singleton.1 hm] at hb
        exact ha j hj hb
      exact (seg_store_frame hnew hd (some a)).2
    · rw [update_of_ne hji, storeHead_ne hji]
      exact seg_store_frame (h.seg j hj) (h.disjoint i j hi hj hji) _
  · intro j hj
    by_cases hji : j = i
    · subst hji
      rw [update_self]
      refine nodup_append.2 ⟨h.nodup j hj, nodup_singleton a, ?_⟩
      intro b hb b' hb' he
      rw [mem_singleton.1 hb'] at he
      exact ha j hj (he ▸ hb)
    · rw [update_of_ne hji]
      exact h.nodup j hj
  · intro j k hj hk hkj b hb hb'
    rw [mem_update_append] at hb hb'
    rcases hb with hb | ⟨rfl, rfl⟩
    · rcases hb' with hb' | ⟨rfl, -⟩
      · exact h.disjoint j k hj hk hkj b hb hb'
      · exact ha j hj hb
    · rcases hb' with hb' | ⟨-, rfl⟩
      · exact ha k hk hb'
      · exact hkj rfl

omit [DecidableEq I] in
theorem Chains.frame (h : Chains D heads next chain) (ha : ∀ j, D j → a ∉ chain j)
    (v : Option A) : Chains D heads (update next a v) chain :=
  ⟨fun j hj => (h.seg j hj).frame (ha j hj) v, h.nodup, h.disjoint⟩

end

end

/-! ## Rings -/

section
variable {N : Type} {next prev : N → N}

def Linked (next prev : N → N) (x y : N) : Prop := next x = y ∧ prev y = x

/-- From `x` through `l` to `y`, linked in both directions. -/
def Path (next prev : N → N) : N → List N → N → Prop
  | x, [], y => Linked next prev x y
  | x, a :: l, y => Linked next prev x a ∧ Path next prev a l y

variable {x y a h : N} {l : List N}

theorem path_append {l₁ l₂ : List N} :
    Path next prev x (l₁ ++ a :: l₂) y ↔ Path next prev x l₁ a ∧ Path next prev a l₂ y := by
  induction l₁ generalizing x with
  | nil => rfl
  | cons b l ih => simp only [cons_append, Path, ih, and_assoc]

theorem Path.prev_end (h : Path next prev x l y) :
    prev y = (x :: l).getLast (cons_ne_nil x l) := by
  induction l generalizing x with
  | nil => exact h.2
  | cons a l ih =>
    rw [ih h.2, getLast_cons_cons]

theorem Path.next_start (h : Path next prev x l y) :
    next x ∈ l ∨ next x = y := by
  cases l with
  | nil => exact .inr h.1
  | cons a l => exact .inl (by rw [h.1.1]; exact mem_cons_self)

variable [DecidableEq N]

/-- Stores to the links of a node outside the path: `next` of its sources, `prev` of its targets. -/
theorem Path.frame_next (h : Path next prev x l y) {u : N} (hu : u ∉ x :: l) (v : N) :
    Path (update next u v) prev x l y := by
  induction l generalizing x with
  | nil =>
    have hx : x ≠ u := fun he => hu (he ▸ mem_cons_self)
    exact ⟨by rw [update_of_ne hx]; exact h.1, h.2⟩
  | cons a l ih =>
    have hx : x ≠ u := fun he => hu (he ▸ mem_cons_self)
    exact ⟨⟨by rw [update_of_ne hx]; exact h.1.1, h.1.2⟩,
      ih h.2 (fun hm => hu (mem_cons_of_mem x hm))⟩

theorem Path.frame_prev (h : Path next prev x l y) {u : N} (hu : u ∉ l) (huy : u ≠ y) (v : N) :
    Path next (update prev u v) x l y := by
  induction l generalizing x with
  | nil => exact ⟨h.1, by rw [update_of_ne huy.symm]; exact h.2⟩
  | cons a l ih =>
    have ha : a ≠ u := fun he => hu (he ▸ mem_cons_self)
    exact ⟨⟨h.1.1, by rw [update_of_ne ha]; exact h.1.2⟩,
      ih h.2 (fun hm => hu (mem_cons_of_mem a hm))⟩

theorem Path.bridge {l₁ l₂ : List N} (h₁ : Path next prev x l₁ a) (h₂ : Path next prev a l₂ y)
    (hn : (x :: l₁ ++ l₂).Nodup) (hy : y ∉ l₁ ++ l₂) :
    Path (update next (prev a) (next a)) (update prev (next a) (prev a))
      x (l₁ ++ l₂) y := by
  induction l₁ generalizing x with
  | nil =>
    have hpa : prev a = x := h₁.2
    rw [hpa]
    cases l₂ with
    | nil =>
      have hna : next a = y := h₂.1
      rw [hna]
      exact ⟨update_self x y next, update_self y x prev⟩
    | cons b l =>
      have hna : next a = b := h₂.1.1
      have hb : b ∉ l := (nodup_cons.1 (nodup_cons.1 hn).2).1
      have hby : b ≠ y := fun he => hy (he ▸ mem_cons_self)
      rw [hna]
      exact ⟨⟨update_self x b next, update_self b x prev⟩,
        (h₂.2.frame_next (nodup_cons.1 hn).1 b).frame_prev hb hby x⟩
  | cons c l ih =>
    have hx := (nodup_cons.1 hn).1
    have hc := (nodup_cons.1 (nodup_cons.1 hn).2).1
    -- the stores go to the last node of the first path and the first of the second
    have hpx : x ≠ prev a := by
      intro he
      rw [h₁.2.prev_end] at he
      exact hx (mem_append_left l₂ (he ▸ getLast_mem _))
    have hnc : c ≠ next a := by
      intro he
      rcases h₂.next_start with hm | hm
      · exact hc (mem_append_right l (he ▸ hm))
      · exact hy (by rw [← hm, ← he]; exact mem_cons_self)
    refine ⟨⟨?_, ?_⟩, ih h₁.2 (nodup_cons.1 hn).2 (fun hm => hy (mem_cons_of_mem c hm))⟩
    · rw [update_of_ne hpx]
      exact h₁.1.1
    · rw [update_of_ne hnc]
      exact h₁.1.2

/-- The nodes `l` in a ring through the header `h`. -/
structure Ring (h : N) (next prev : N → N) (l : List N) : Prop where
  path : Path next prev h l h
  nodup : (h :: l).Nodup

theorem Ring.remove (hr : Ring h next prev l) (ha : a ∈ l) :
    Ring h (update next (prev a) (next a)) (update prev (next a) (prev a))
      (l.erase a) := by
  obtain ⟨l₁, l₂, rfl⟩ := append_of_mem ha
  have hnot : a ∉ l₁ := fun hm =>
    (nodup_append.1 (nodup_cons.1 hr.nodup).2).2.2 a hm a mem_cons_self rfl
  have he : (l₁ ++ a :: l₂).erase a = l₁ ++ l₂ := by
    rw [erase_append_right _ hnot, erase_cons_head]
  have hsub : (h :: (l₁ ++ l₂)).Nodup := by
    refine hr.nodup.sublist ?_
    exact List.Sublist.cons_cons h (List.Sublist.append_left (sublist_cons_self a l₂) l₁)
  obtain ⟨h₁, h₂⟩ := path_append.1 hr.path
  rw [he]
  exact ⟨h₁.bridge h₂ hsub (nodup_cons.1 hsub).1, hsub⟩

theorem Ring.add (hr : Ring h next prev l) (ha : a ∉ h :: l) :
    Ring h (update (update next a (next h)) h a)
      (update (update prev a h) (next h) a) (a :: l) := by
  have hah : a ≠ h := fun he => ha (he ▸ mem_cons_self)
  have hal : a ∉ l := fun hm => ha (mem_cons_of_mem h hm)
  have hhl := (nodup_cons.1 hr.nodup).1
  refine ⟨?_, ?_⟩
  · cases l with
    | nil =>
      have hnh : next h = h := hr.path.1
      rw [hnh]
      refine ⟨⟨?_, ?_⟩, ?_, ?_⟩
      · rw [update_self]
      · rw [update_of_ne hah, update_self]
      · rw [update_of_ne hah, update_self]
      · rw [update_self]
    | cons b l =>
      have hnh : next h = b := hr.path.1.1
      have hab : a ≠ b := fun he => hal (he ▸ mem_cons_self)
      have hbl : b ∉ l := (nodup_cons.1 (nodup_cons.1 hr.nodup).2).1
      have hbh : b ≠ h := fun he => hhl (he ▸ mem_cons_self)
      rw [hnh]
      refine ⟨⟨?_, ?_⟩, ⟨?_, ?_⟩, ?_⟩
      · rw [update_self]
      · rw [update_of_ne hab, update_self]
      · rw [update_of_ne hah, update_self]
      · rw [update_self]
      · have hp := hr.path.2
        exact (((hp.frame_next hal b).frame_next hhl a).frame_prev
          (fun hm => hal (mem_cons_of_mem b hm)) hah h).frame_prev hbl hbh a
  · have hl := (nodup_cons.1 hr.nodup).2
    refine nodup_cons.2 ⟨?_, nodup_cons.2 ⟨hal, hl⟩⟩
    intro hm
    rcases mem_cons.1 hm with he | hm
    · exact hah he.symm
    · exact hhl hm

omit [DecidableEq N] in
/-- The header alone is a ring exactly when it points to itself. -/
theorem ring_nil (hn : next h = h) (hp : prev h = h) : Ring h next prev [] :=
  ⟨⟨hn, hp⟩, nodup_singleton h⟩

end

end Links
