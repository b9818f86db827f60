import Mathlib.Algebra.Ring.Int.Defs
import Mathlib.Data.Set.Insert
import Mathlib.Order.Basic

/-!
# The order of a change set (GitChangeSetSorter.java)

`compare` goes through the kinds of two nodes: files behind containers, the working tree first, then
the staged changes, commits by their time.  A tree is a commit as well.

    antisymmetric, transitive and as the comment says, on the nodes of a set ↔
      no working tree and no staged changes, times of commits less than 2^31 apart, and every tree
      older than every commit  (compare_consistent_iff)
-/

namespace Egit.ChangeSetSorter

/-! ## Algorithm -/

inductive Kind
  | workingTree | cache | commit | tree | blob
  deriving DecidableEq, Repr

/-- Seconds, a Java `int`. -/
abbrev CommitTime := BitVec 32

/-- A node with its label; the base commit is missing below the working tree. -/
structure Node (L : Type) where
  kind : Kind
  label : L
  baseCommit : Option CommitTime
  commit : kind = .commit → baseCommit.isSome = true

/-- `ViewerSorter.compare`, a total preorder on labels. -/
structure LabelOrder (L : Type) where
  compare : L → L → Int
  antisymm : ∀ a b, (compare a b).sign = -(compare b a).sign
  trans : ∀ a b c, compare a b ≤ 0 → compare b c ≤ 0 → compare a c ≤ 0

section
variable {L : Type}

namespace Node

def isGitModelBlob (e : Node L) : Bool := e.kind = .blob

def isGitModelWorkingTree (e : Node L) : Bool := e.kind = .workingTree

def isGitModelCache (e : Node L) : Bool := e.kind = .cache || e.isGitModelWorkingTree

def isGitModelTree (e : Node L) : Bool := e.kind = .tree

def isGitModelCommit (e : Node L) : Bool :=
  e.kind = .commit || e.isGitModelTree || e.isGitModelBlob

end Node

/-- `none` is a `NullPointerException`. -/
def compare (viewer : LabelOrder L) (e1 e2 : Node L) : Option Int :=
  if e1.isGitModelBlob && !e2.isGitModelBlob then some 1
  else if e2.isGitModelBlob && !e1.isGitModelBlob then some (-1)
  else if e1.isGitModelWorkingTree then some (-1)
  else if e2.isGitModelWorkingTree then some 1
  else if e1.isGitModelCache then some (-2)
  else if e2.isGitModelCache then some 2
  else if (e1.isGitModelTree && e2.isGitModelTree) ||
      (e1.isGitModelBlob && e2.isGitModelBlob) then some (viewer.compare e1.label e2.label)
  else if e1.isGitModelTree && e2.isGitModelCommit then some 1
  else if e1.isGitModelCommit && e2.isGitModelCommit then
    e1.baseCommit.bind fun rc1 => e2.baseCommit.map fun rc2 => (rc2 - rc1).toInt
  else some (viewer.compare e1.label e2.label)

/-! ## What it is for -/

def Before (viewer : LabelOrder L) (a b : Node L) : Prop :=
  ∃ x, compare viewer a b = some x ∧ x < 0

structure Consistent (viewer : LabelOrder L) (S : Set (Node L)) : Prop where
  self : ∀ a ∈ S, compare viewer a a = some 0
  antisymm : ∀ a ∈ S, ∀ b ∈ S, ∃ x y, compare viewer a b = some x ∧ compare viewer b a = some y ∧
    x.sign = -y.sign
  trans : ∀ a ∈ S, ∀ b ∈ S, ∀ c ∈ S, ∀ x y z, compare viewer a b = some x →
    compare viewer b c = some y → compare viewer a c = some z → x ≤ 0 → y ≤ 0 → z ≤ 0
  workingTree : ∀ a ∈ S, ∀ b ∈ S, a.kind = .workingTree → b.kind = .cache → Before viewer a b
  cache : ∀ a ∈ S, ∀ b ∈ S, a.kind = .cache → b.kind = .commit → Before viewer a b
  newer : ∀ a ∈ S, ∀ b ∈ S, a.kind = .commit → b.kind = .commit →
    ∀ ta tb, a.baseCommit = some ta → b.baseCommit = some tb → tb.toInt < ta.toInt →
      Before viewer a b
  blob : ∀ a ∈ S, ∀ b ∈ S, a.kind ≠ .blob → b.kind = .blob → Before viewer a b

/-- The difference of the times is negative as a Java `int`. -/
def Older (ta tb : CommitTime) : Prop :=
  (-2 ^ 31 ≤ ta.toInt - tb.toInt ∧ ta.toInt - tb.toInt < 0) ∨ 2 ^ 31 ≤ ta.toInt - tb.toInt

structure Sortable (S : Set (Node L)) : Prop where
  kinds : ∀ a ∈ S, a.kind ≠ .workingTree ∧ a.kind ≠ .cache
  commits : ∀ a ∈ S, ∀ b ∈ S, a.kind = .commit → b.kind = .commit →
    ∀ ta tb, a.baseCommit = some ta → b.baseCommit = some tb → ta.toInt - tb.toInt < 2 ^ 31
  trees : ∀ a ∈ S, ∀ b ∈ S, a.kind = .tree → b.kind = .commit →
    ∃ ta, a.baseCommit = some ta ∧ ∀ tb, b.baseCommit = some tb → Older ta tb

/-! ## The table of the kinds -/

section
variable {viewer : LabelOrder L} {a b : Node L}

theorem compare_blob_left (ha : a.kind = .blob) (hb : b.kind ≠ .blob) :
    compare viewer a b = some 1 := by
  simp [compare, Node.isGitModelBlob, ha, hb]

theorem compare_blob_right (ha : a.kind ≠ .blob) (hb : b.kind = .blob) :
    compare viewer a b = some (-1) := by
  simp [compare, Node.isGitModelBlob, ha, hb]

theorem compare_workingTree (ha : a.kind = .workingTree) (hb : b.kind ≠ .blob) :
    compare viewer a b = some (-1) := by
  simp [compare, Node.isGitModelBlob, Node.isGitModelWorkingTree, ha, hb]

theorem compare_cache (ha : a.kind = .cache) (hb : b.kind ≠ .blob) (hw : b.kind ≠ .workingTree) :
    compare viewer a b = some (-2) := by
  simp [compare, Node.isGitModelBlob, Node.isGitModelWorkingTree, Node.isGitModelCache, ha, hb, hw]

theorem compare_label (hk : a.kind = b.kind) (h : a.kind = .tree ∨ a.kind = .blob) :
    compare viewer a b = some (viewer.compare a.label b.label) := by
  rcases h with h | h <;> rw [h] at hk <;>
    simp [compare, Node.isGitModelBlob, Node.isGitModelWorkingTree, Node.isGitModelCache,
      Node.isGitModelTree, h, ← hk]

theorem compare_tree_commit (ha : a.kind = .tree) (hb : b.kind = .commit) :
    compare viewer a b = some 1 := by
  simp [compare, Node.isGitModelBlob, Node.isGitModelWorkingTree, Node.isGitModelCache,
    Node.isGitModelTree, Node.isGitModelCommit, ha, hb]

theorem compare_commit (ha : a.kind = .commit) (hb : b.kind = .commit ∨ b.kind = .tree) :
    compare viewer a b =
      a.baseCommit.bind fun ta => b.baseCommit.map fun tb => (tb - ta).toInt := by
  rcases hb with hb | hb <;>
    simp [compare, Node.isGitModelBlob, Node.isGitModelWorkingTree, Node.isGitModelCache,
      Node.isGitModelTree, Node.isGitModelCommit, ha, hb]

theorem exists_time (ha : a.kind = .commit) : ∃ ta, a.baseCommit = some ta :=
  Option.isSome_iff_exists.1 (a.commit ha)

end

/-! ## Differences of times -/

section
variable (s t : CommitTime)

theorem toInt_sub : (s - t).toInt =
    if s.toInt - t.toInt < -2 ^ 31 then s.toInt - t.toInt + 2 ^ 32
    else if 2 ^ 31 ≤ s.toInt - t.toInt then s.toInt - t.toInt - 2 ^ 32
    else s.toInt - t.toInt := by
  have hs := s.le_toInt
  have ht := t.le_toInt
  have hs' := s.toInt_lt
  have ht' := t.toInt_lt
  rw [BitVec.toInt_sub, Int.bmod_def]
  split
  · split
    · omega
    · split <;> omega
  · split
    · omega
    · split <;> omega

theorem sub_neg_iff : (s - t).toInt < 0 ↔ Older s t := by
  have hs := s.le_toInt
  have ht := t.le_toInt
  have hs' := s.toInt_lt
  have ht' := t.toInt_lt
  rw [toInt_sub]
  unfold Older
  split
  · omega
  · split <;> omega

end

/-! ## Proof -/

section
variable {viewer : LabelOrder L} {S : Set (Node L)}

namespace Consistent
variable (h : Consistent viewer S)
include h

theorem kind_ne {a : Node L} (ha : a ∈ S) : a.kind ≠ .workingTree ∧ a.kind ≠ .cache := by
  have hself := h.self a ha
  constructor
  · intro hk
    rw [compare_workingTree hk (by simp [hk])] at hself
    cases hself
  · intro hk
    rw [compare_cache hk (by simp [hk]) (by simp [hk])] at hself
    cases hself

theorem commits_near {a b : Node L} (ha : a ∈ S) (hb : b ∈ S) (hka : a.kind = .commit)
    (hkb : b.kind = .commit) {ta tb : CommitTime} (hta : a.baseCommit = some ta)
    (htb : b.baseCommit = some tb) : ta.toInt - tb.toInt < 2 ^ 31 := by
  by_contra hfar
  have hab : compare viewer a b = some (tb - ta).toInt := by
    rw [compare_commit hka (.inl hkb), hta, htb]
    rfl
  have hba : compare viewer b a = some (ta - tb).toInt := by
    rw [compare_commit hkb (.inl hka), hta, htb]
    rfl
  obtain ⟨x, hx, hneg⟩ := h.newer a ha b hb hka hkb ta tb hta htb (by omega)
  obtain ⟨y, z, hy, hz, hsign⟩ := h.antisymm a ha b hb
  rw [hab] at hx hy
  rw [hba] at hz
  cases hx
  cases hy
  cases hz
  -- both differences are negative
  have hneg' : (ta - tb).toInt < 0 := (sub_neg_iff ta tb).2 (.inr (by omega))
  rw [Int.sign_eq_neg_one_of_neg hneg, Int.sign_eq_neg_one_of_neg hneg'] at hsign
  cases hsign

theorem tree_older {a b : Node L} (ha : a ∈ S) (hb : b ∈ S) (hka : a.kind = .tree)
    (hkb : b.kind = .commit) :
    ∃ ta, a.baseCommit = some ta ∧ ∀ tb, b.baseCommit = some tb → Older ta tb := by
  obtain ⟨x, y, hx, hy, hsign⟩ := h.antisymm a ha b hb
  obtain ⟨tb, htb⟩ := exists_time hkb
  rw [compare_tree_commit hka hkb] at hx
  rw [compare_commit hkb (.inr hka), htb] at hy
  obtain ⟨ta, hta, rfl⟩ := Option.map_eq_some_iff.1 hy
  cases hx
  refine ⟨ta, hta, ?_⟩
  intro tb' htb'
  cases htb.symm.trans htb'
  rw [← sub_neg_iff, ← Int.sign_eq_neg_one_iff_neg]
  have hone : (1 : Int).sign = 1 := rfl
  omega

theorem sortable : Sortable S :=
  ⟨fun _ ha => h.kind_ne ha,
    fun _ ha _ hb hka hkb _ _ hta htb => h.commits_near ha hb hka hkb hta htb,
    fun _ ha _ hb hka hkb => h.tree_older ha hb hka hkb⟩

end Consistent

/-- Commits, then trees, then files. -/
def Kind.rank : Kind → Nat
  | .workingTree | .cache | .commit => 0
  | .tree => 1
  | .blob => 2

def within (viewer : LabelOrder L) (a b : Node L) : Int :=
  if a.kind = .commit then (b.baseCommit.getD 0).toInt - (a.baseCommit.getD 0).toInt
  else viewer.compare a.label b.label

/-- The result has the sign of the order by kind, then by time or label. -/
structure Orders (viewer : LabelOrder L) (a b : Node L) (x : Int) : Prop where
  lt : a.kind.rank < b.kind.rank → x < 0
  gt : b.kind.rank < a.kind.rank → 0 < x
  eq : a.kind = b.kind → x = within viewer a b

theorem Sortable.kind_cases (h : Sortable S) {a : Node L} (ha : a ∈ S) :
    a.kind = .commit ∨ a.kind = .tree ∨ a.kind = .blob := by
  obtain ⟨hw, hc⟩ := h.kinds a ha
  cases hk : a.kind with
  | workingTree => exact absurd hk hw
  | cache => exact absurd hk hc
  | commit => exact .inl rfl
  | tree => exact .inr (.inl rfl)
  | blob => exact .inr (.inr rfl)

variable (viewer) in
theorem Sortable.compare_eq (h : Sortable S) {a b : Node L} (ha : a ∈ S) (hb : b ∈ S) :
    ∃ x, compare viewer a b = some x ∧ Orders viewer a b x := by
  rcases h.kind_cases ha with hka | hka | hka <;> rcases h.kind_cases hb with hkb | hkb | hkb
  · obtain ⟨ta, hta⟩ := exists_time hka
    obtain ⟨tb, htb⟩ := exists_time hkb
    have hnear := h.commits a ha b hb hka hkb ta tb hta htb
    have hnear' := h.commits b hb a ha hkb hka tb ta htb hta
    refine ⟨(tb - ta).toInt, ?_, by simp [hka, hkb], by simp [hka, hkb], fun _ => ?_⟩
    · rw [compare_commit hka (.inl hkb), hta, htb]
      rfl
    · rw [within, if_pos hka, hta, htb, toInt_sub, if_neg (by omega), if_neg (by omega)]
      rfl
  · obtain ⟨ta, hta⟩ := exists_time hka
    obtain ⟨tb, htb, hold⟩ := h.trees b hb a ha hkb hka
    have hneg := (sub_neg_iff tb ta).2 (hold ta hta)
    refine ⟨(tb - ta).toInt, ?_, fun _ => hneg, by simp [hka, hkb, Kind.rank], by simp [hka, hkb]⟩
    rw [compare_commit hka (.inr hkb), hta, htb]
    rfl
  · exact ⟨-1, compare_blob_right (by simp [hka]) hkb, by simp, by simp [hka, hkb, Kind.rank],
      by simp [hka, hkb]⟩
  · exact ⟨1, compare_tree_commit hka hkb, by simp [hka, hkb, Kind.rank], by simp,
      by simp [hka, hkb]⟩
  · refine ⟨_, compare_label (hka.trans hkb.symm) (.inl hka), by simp [hka, hkb],
      by simp [hka, hkb], fun _ => ?_⟩
    simp [within, hka]
  · exact ⟨-1, compare_blob_right (by simp [hka]) hkb, by simp, by simp [hka, hkb, Kind.rank],
      by simp [hka, hkb]⟩
  · exact ⟨1, compare_blob_left hka (by simp [hkb]), by simp [hka, hkb, Kind.rank], by simp,
      by simp [hka, hkb]⟩
  · exact ⟨1, compare_blob_left hka (by simp [hkb]), by simp [hka, hkb, Kind.rank], by simp,
      by simp [hka, hkb]⟩
  · refine ⟨_, compare_label (hka.trans hkb.symm) (.inr hka), by simp [hka, hkb],
      by simp [hka, hkb], fun _ => ?_⟩
    simp [within, hka]

theorem within_antisymm {a b : Node L} (hk : a.kind = b.kind) :
    (within viewer a b).sign = -(within viewer b a).sign := by
  unfold within
  rw [← hk]
  split
  · rw [← Int.sign_neg, Int.neg_sub]
  · exact viewer.antisymm _ _

theorem within_trans {a b c : Node L} (hab : a.kind = b.kind) (h : within viewer a b ≤ 0)
    (h' : within viewer b c ≤ 0) : within viewer a c ≤ 0 := by
  unfold within at *
  rw [← hab] at h'
  split at h
  · next hk =>
    rw [if_pos hk] at h' ⊢
    omega
  · next hk =>
    rw [if_neg hk] at h' ⊢
    exact viewer.trans _ _ _ h h'

/-- Two nodes of a sortable set have the same rank, and then the same kind, or one is before the
other. -/
theorem Sortable.rank_cases (h : Sortable S) {a b : Node L} (ha : a ∈ S) (hb : b ∈ S) :
    a.kind = b.kind ∨ a.kind.rank < b.kind.rank ∨ b.kind.rank < a.kind.rank := by
  rcases h.kind_cases ha with hka | hka | hka <;> rcases h.kind_cases hb with hkb | hkb | hkb <;>
    simp [hka, hkb, Kind.rank]

theorem Sortable.antisymm (h : Sortable S) {a b : Node L} (ha : a ∈ S) (hb : b ∈ S) {x y : Int}
    (hx : Orders viewer a b x) (hy : Orders viewer b a y) : x.sign = -y.sign := by
  rcases h.rank_cases ha hb with hk | hlt | hgt
  · rw [hx.eq hk, hy.eq hk.symm, within_antisymm hk]
  · rw [Int.sign_eq_neg_one_of_neg (hx.lt hlt), Int.sign_eq_one_of_pos (hy.gt hlt)]
  · rw [Int.sign_eq_one_of_pos (hx.gt hgt), Int.sign_eq_neg_one_of_neg (hy.lt hgt)]
    rfl

theorem Sortable.trans (h : Sortable S) {a b c : Node L} (ha : a ∈ S) (hb : b ∈ S) (hc : c ∈ S)
    {x y z : Int} (hx : Orders viewer a b x) (hy : Orders viewer b c y) (hz : Orders viewer a c z)
    (hx0 : x ≤ 0) (hy0 : y ≤ 0) : z ≤ 0 := by
  rcases h.rank_cases ha hb with hab | hab | hab
  · rcases h.rank_cases hb hc with hbc | hbc | hbc
    · rw [hx.eq hab] at hx0
      rw [hy.eq hbc] at hy0
      rw [hz.eq (hab.trans hbc)]
      exact within_trans hab hx0 hy0
    · rw [← hab] at hbc
      exact Int.le_of_lt (hz.lt hbc)
    · exact absurd (hy.gt hbc) (Int.not_lt.2 hy0)
  · rcases h.rank_cases hb hc with hbc | hbc | hbc
    · rw [hbc] at hab
      exact Int.le_of_lt (hz.lt hab)
    · exact Int.le_of_lt (hz.lt (Nat.lt_trans hab hbc))
    · exact absurd (hy.gt hbc) (Int.not_lt.2 hy0)
  · exact absurd (hx.gt hab) (Int.not_lt.2 hx0)

theorem Sortable.consistent (viewer : LabelOrder L) (h : Sortable S) : Consistent viewer S where
  self := by
    intro a ha
    obtain ⟨x, hx, hord⟩ := h.compare_eq viewer ha ha
    have hsign := h.antisymm ha ha hord hord
    have hzero : x = 0 := Int.sign_eq_zero_iff_zero.1 (by omega)
    rw [hx, hzero]
  antisymm := by
    intro a ha b hb
    obtain ⟨x, hx, hordx⟩ := h.compare_eq viewer ha hb
    obtain ⟨y, hy, hordy⟩ := h.compare_eq viewer hb ha
    exact ⟨x, y, hx, hy, h.antisymm ha hb hordx hordy⟩
  trans := by
    intro a ha b hb c hc x y z hx hy hz
    obtain ⟨x', hx', hordx⟩ := h.compare_eq viewer ha hb
    obtain ⟨y', hy', hordy⟩ := h.compare_eq viewer hb hc
    obtain ⟨z', hz', hordz⟩ := h.compare_eq viewer ha hc
    cases hx.symm.trans hx'
    cases hy.symm.trans hy'
    cases hz.symm.trans hz'
    exact h.trans ha hb hc hordx hordy hordz
  workingTree := by
    intro a ha b _ hk
    exact absurd hk (h.kinds a ha).1
  cache := by
    intro a ha b _ hk
    exact absurd hk (h.kinds a ha).2
  newer := by
    intro a ha b hb hka hkb ta tb hta htb hlt
    obtain ⟨x, hx, hord⟩ := h.compare_eq viewer ha hb
    refine ⟨x, hx, ?_⟩
    rw [hord.eq (hka.trans hkb.symm), within, if_pos hka, hta, htb]
    show tb.toInt - ta.toInt < 0
    omega
  blob := by
    intro a _ b _ hka hkb
    exact ⟨-1, compare_blob_right hka hkb, by decide⟩

end

/-- **The order of a change set.** -/
theorem compare_consistent_iff (viewer : LabelOrder L) (S : Set (Node L)) :
    Consistent viewer S ↔ Sortable S := by
  constructor
  · intro h
    exact h.sortable
  · intro h
    exact h.consistent viewer

end

def unitOrder : LabelOrder Unit := ⟨fun _ _ => 0, fun _ _ => rfl, fun _ _ _ h _ => h⟩

/-- A tree of a newer commit and an older commit: each is behind the other. -/
theorem tree_behind_commit :
    let a : Node Unit := ⟨.tree, (), some 1, by simp⟩
    let b : Node Unit := ⟨.commit, (), some 0, by simp⟩
    compare unitOrder a b = some 1 ∧ compare unitOrder b a = some 1 ∧
      ¬ Consistent unitOrder {a, b} := by
  intro a b
  have hab : compare unitOrder a b = some 1 := compare_tree_commit rfl rfl
  have hba : compare unitOrder b a = some 1 := by
    rfl
  refine ⟨hab, hba, ?_⟩
  intro h
  obtain ⟨x, y, hx, hy, hsign⟩ := h.antisymm a (Set.mem_insert ..) b (Set.mem_insert_of_mem _ rfl)
  cases hx
  cases hy
  cases hsign

end Egit.ChangeSetSorter
