import Mathlib.Data.List.Nodup
import Mathlib.Data.List.Perm.Subperm
import Mathlib.Logic.Relation

/-!
# Walks over a graph that take the newest pending vertex

The state of a walk is the list of the vertices it has taken, first one first.  Pending is
what the walk starts from and what comes behind a taken vertex, less what is taken.  A walk
takes a pending vertex that no pending vertex is newer than; a tie is decided by the walk
(`Newest`).

    Walked l → vertices.length ≤ n + l.length → pending (walk n l) = []  (pending_walk)
    pending l = [] → (v ∈ l ↔ ∃ a ∈ starts, Reach a v)  (mem_iff)
-/

namespace Walk

open List

/-- A finite graph: the vertices behind a vertex belong to it. -/
structure Graph (V : Type) where
  vertices : List V
  next : V → List V
  closed : ∀ v ∈ vertices, ∀ w ∈ next v, w ∈ vertices

/-- `b` is `a` or comes behind it. -/
def Graph.Reach {V : Type} (g : Graph V) : V → V → Prop :=
  Relation.ReflTransGen fun a b => b ∈ g.next a

/-- A choice of one of the newest vertices of a list. -/
structure Newest {V : Type} (time : V → Int) where
  pick : List V → Option V
  mem : ∀ {l v}, pick l = some v → v ∈ l
  newest : ∀ {l v}, pick l = some v → ∀ w ∈ l, time w ≤ time v
  nonempty : ∀ {l}, pick l = none → l = []

def firstNewest {V : Type} (time : V → Int) : List V → Option V
  | [] => none
  | v :: l =>
    match firstNewest time l with
    | none => some v
    | some w => if time v < time w then some w else some v

theorem firstNewest_eq_none {V : Type} {time : V → Int} {l : List V}
    (h : firstNewest time l = none) : l = [] := by
  revert h
  fun_cases firstNewest time l with
  | case1 => exact fun _ => rfl
  | _ => rintro ⟨⟩

theorem firstNewest_spec {V : Type} {time : V → Int} {l : List V} {v : V}
    (h : firstNewest time l = some v) : v ∈ l ∧ ∀ w ∈ l, time w ≤ time v := by
  revert h
  fun_induction firstNewest time l generalizing v with
  | case1 => rintro ⟨⟩
  | case2 _ _ hnone =>
    rintro ⟨⟩
    rw [firstNewest_eq_none hnone]
    simp
  | case3 u l w hw _ ih =>
    rintro ⟨⟩
    obtain ⟨hmem, hmax⟩ := ih hw
    refine ⟨mem_cons_of_mem u hmem, ?_⟩
    intro x hx
    rcases mem_cons.1 hx with rfl | hx
    · omega
    · exact hmax x hx
  | case4 u l w hw _ ih =>
    rintro ⟨⟩
    refine ⟨mem_cons_self, ?_⟩
    intro x hx
    rcases mem_cons.1 hx with rfl | hx
    · omega
    · have hle := (ih hw).2 x hx
      omega

def Newest.first {V : Type} (time : V → Int) : Newest time where
  pick := firstNewest time
  mem := fun h => (firstNewest_spec h).1
  newest := fun h => (firstNewest_spec h).2
  nonempty := fun h => firstNewest_eq_none h

section
variable {V : Type} [DecidableEq V] (g : Graph V) {time : V → Int} (n : Newest time)
  (starts : List V)

def pending (l : List V) : List V :=
  (starts ++ l.flatMap g.next).filter fun v => decide (v ∉ l)

/-- The vertex that a walk takes after `l`. -/
def step (l : List V) : Option V := n.pick (pending g starts l)

def walk : Nat → List V → List V
  | 0, l => l
  | fuel + 1, l =>
    match step g n starts l with
    | none => l
    | some v => walk fuel (l ++ [v])

/-- The order in which a walk takes the vertices. -/
def order : List V := walk g n starts g.vertices.length []

inductive Walked : List V → Prop
  | nil : Walked []
  | snoc {l : List V} {v : V} (h : Walked l) (hv : step g n starts l = some v) : Walked (l ++ [v])

end

section
variable {V : Type} {g : Graph V} {time : V → Int} {n : Newest time} {starts l : List V} {v a : V}

theorem Graph.reach_mem (ha : a ∈ g.vertices) (h : g.Reach a v) : v ∈ g.vertices := by
  induction h with
  | refl => exact ha
  | tail _ hnext ih => exact g.closed _ ih _ hnext

variable [DecidableEq V]

theorem mem_pending : v ∈ pending g starts l ↔
    (v ∈ starts ∨ ∃ u ∈ l, v ∈ g.next u) ∧ v ∉ l := by
  unfold pending
  rw [mem_filter, mem_append, mem_flatMap, decide_eq_true_eq]

/-! ## Histories -/

theorem Walked.walk (h : Walked g n starts l) (fuel : Nat) :
    Walked g n starts (walk g n starts fuel l) := by
  induction fuel generalizing l with
  | zero => exact h
  | succ fuel ih =>
    unfold Walk.walk
    split
    · exact h
    · next v hv => exact ih (.snoc h hv)

/-- What a walk knew when it took `v`. -/
theorem Walked.split (h : Walked g n starts l) {l₁ l₂ : List V} (hl : l = l₁ ++ v :: l₂) :
    Walked g n starts l₁ ∧ step g n starts l₁ = some v := by
  induction h generalizing l₁ l₂ with
  | nil => simp at hl
  | @snoc l v' h hv ih =>
    rcases eq_nil_or_concat l₂ with rfl | ⟨l₃, w, rfl⟩
    · obtain ⟨rfl, h1⟩ := append_inj' hl rfl
      cases h1
      exact ⟨h, hv⟩
    · have hl' : l ++ [v'] = (l₁ ++ v :: l₃) ++ [w] := by
        rw [hl, concat_eq_append, append_assoc, cons_append]
      obtain ⟨rfl, -⟩ := append_inj' hl' rfl
      exact ih rfl

theorem Walked.nodup (h : Walked g n starts l) : l.Nodup := by
  induction h with
  | nil => exact nodup_nil
  | @snoc l v h hv ih =>
    have hnot := (mem_pending.1 (n.mem hv)).2
    refine List.Nodup.append ih (nodup_singleton _) ?_
    intro w hw hw'
    obtain rfl : w = v := mem_singleton.1 hw'
    exact hnot hw

theorem Walked.reach (h : Walked g n starts l) (hv : v ∈ l) : ∃ a ∈ starts, g.Reach a v := by
  induction h generalizing v with
  | nil => cases hv
  | @snoc l w h hw ih =>
    rcases mem_append.1 hv with hv | hv
    · exact ih hv
    · obtain rfl : v = w := mem_singleton.1 hv
      rcases (mem_pending.1 (n.mem hw)).1 with hs | ⟨u, hu, hnext⟩
      · exact ⟨_, hs, .refl⟩
      · obtain ⟨a, ha, hr⟩ := ih hu
        exact ⟨a, ha, hr.tail hnext⟩

/-! ## Whole walks -/

theorem Walked.reach_pending (h : Walked g n starts l) (hv : v ∈ pending g starts l) :
    ∃ a ∈ starts, g.Reach a v := by
  rcases (mem_pending.1 hv).1 with hs | ⟨u, hu, hnext⟩
  · exact ⟨v, hs, .refl⟩
  · obtain ⟨a, ha, hr⟩ := h.reach hu
    exact ⟨a, ha, hr.tail hnext⟩

/-- On the way to a vertex that is not taken yet, some vertex is pending. -/
theorem exists_pending (ha : a ∈ starts) (h : g.Reach a v) (hv : v ∉ l) :
    ∃ w ∈ pending g starts l, g.Reach a w ∧ g.Reach w v ∧
      (w = a ∨ ∃ u ∈ l, g.Reach a u ∧ w ∈ g.next u) := by
  induction h with
  | refl => exact ⟨a, mem_pending.2 ⟨.inl ha, hv⟩, .refl, .refl, .inl rfl⟩
  | @tail b c hab hnext ih =>
    by_cases hb : b ∈ l
    · exact ⟨c, mem_pending.2 ⟨.inr ⟨b, hb, hnext⟩, hv⟩, hab.tail hnext, .refl,
        .inr ⟨b, hb, hab, hnext⟩⟩
    · obtain ⟨w, hw, haw, hwb, hcases⟩ := ih hb
      exact ⟨w, hw, haw, hwb.tail hnext, hcases⟩

/-- A walk leaves no vertex pending if it may take as many as there are. -/
theorem Walked.pending_walk (h : Walked g n starts l) (hs : ∀ a ∈ starts, a ∈ g.vertices)
    {fuel : Nat} (hfuel : g.vertices.length ≤ fuel + l.length) :
    pending g starts (Walk.walk g n starts fuel l) = [] := by
  induction fuel generalizing l with
  | zero =>
    refine eq_nil_iff_forall_not_mem.2 fun v hv => ?_
    -- with `v` the walk would have more vertices than the graph
    have hnodup : (v :: l).Nodup := nodup_cons.2 ⟨(mem_pending.1 hv).2, h.nodup⟩
    have hsub : v :: l ⊆ g.vertices := by
      intro w hw
      rcases mem_cons.1 hw with rfl | hw
      · obtain ⟨a, ha, hr⟩ := h.reach_pending hv
        exact Graph.reach_mem (hs a ha) hr
      · obtain ⟨a, ha, hr⟩ := h.reach hw
        exact Graph.reach_mem (hs a ha) hr
    have hle := (List.Nodup.subperm hnodup hsub).length_le
    rw [length_cons] at hle
    omega
  | succ fuel ih =>
    unfold Walk.walk
    split
    · next hnone => exact n.nonempty hnone
    · next v hv =>
      refine ih (.snoc h hv) ?_
      rw [length_append, length_singleton]
      omega

theorem Walked.mem_iff (h : Walked g n starts l) (hdone : pending g starts l = []) :
    v ∈ l ↔ ∃ a ∈ starts, g.Reach a v := by
  have hclosed : ∀ w, (w ∈ starts ∨ ∃ u ∈ l, w ∈ g.next u) → w ∈ l := by
    intro w hw
    by_contra hnot
    have hp := mem_pending.2 ⟨hw, hnot⟩
    rw [hdone] at hp
    cases hp
  constructor
  · exact h.reach
  · rintro ⟨a, ha, hr⟩
    induction hr with
    | refl => exact hclosed a (.inl ha)
    | @tail b c _ hnext ih => exact hclosed c (.inr ⟨b, ih, hnext⟩)

variable (g n) in
theorem order_spec (hs : ∀ a ∈ starts, a ∈ g.vertices) :
    Walked g n starts (order g n starts) ∧ pending g starts (order g n starts) = [] := by
  have h0 : Walked g n starts [] := .nil
  exact ⟨h0.walk _, h0.pending_walk hs (by simp)⟩

theorem reach_iff_mem_order (n : Newest time) (ha : a ∈ g.vertices) :
    g.Reach a v ↔ v ∈ order g n [a] := by
  have hs : ∀ b ∈ [a], b ∈ g.vertices := by
    intro b hb
    rwa [mem_singleton.1 hb]
  obtain ⟨hw, hdone⟩ := order_spec g n hs
  rw [hw.mem_iff hdone]
  simp

end

end Walk
