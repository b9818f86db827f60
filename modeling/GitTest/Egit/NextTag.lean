import Mathlib.Data.List.Induction
import Mathlib.Logic.Relation

/-!
# The next tag (CommitInfoBuilder.java, getNextTag)

One scan over the tags, in any order.  A tag of a strict ancestor replaces the one that was found
before if that one is an ancestor of it; for the descendants the arguments of `isMergedInto` are
swapped.

    no tag is found ↔ no tag is on a strict ancestor, and no tagged commit is strictly between a
      tag that is found and the shown commit  (getNextTag_nearest)
-/

namespace Egit.NextTag

/-! ## Algorithm -/

/-- `b` is `a` or an ancestor of it. -/
def Reaches {C : Type} (parents : C → List C) : C → C → Prop :=
  Relation.ReflTransGen fun c p => p ∈ parents c

/-- Commits with their parents, and `RevWalk.isMergedInto`. -/
structure History (C : Type) where
  parents : C → List C
  acyclic : ∀ a b, Reaches parents a b → Reaches parents b a → a = b
  isMergedInto : C → C → Bool
  isMergedInto_iff : ∀ base tip, isMergedInto base tip = true ↔ Reaches parents tip base

/-- A tag with the commit it peels to, if that is one. -/
structure Tag (N C : Type) where
  name : N
  peeled : Option C

section
variable {N C : Type}

def isMergedInto (h : History C) (base tip : C) (swap : Bool) : Bool :=
  if !swap then h.isMergedInto base tip else h.isMergedInto tip base

/-- One round of the loop; `tagRef` is kept with its commit. -/
def visit [DecidableEq C] (isMergedInto : C → C → Bool) (commit : C)
    (tagRef : Option (Tag N C × C)) (ref : Tag N C) : Option (Tag N C × C) :=
  match ref.peeled with
  | none => tagRef
  | some newTag =>
    if newTag = commit then tagRef
    else if isMergedInto newTag commit then
      match tagRef with
      | some (_, oldTag) => if isMergedInto oldTag newTag then some (ref, newTag) else tagRef
      | none => some (ref, newTag)
    else tagRef

def getNextTag [DecidableEq C] (h : History C) (commit : C) (searchDescendant : Bool)
    (tags : List (Tag N C)) : Option (Tag N C) :=
  (tags.foldl (visit (isMergedInto h · · searchDescendant) commit) none).map Prod.fst

/-! ## What it is for -/

/-- A strict ancestor, or a strict descendant. -/
def Beyond (h : History C) (searchDescendant : Bool) (base tip : C) : Prop :=
  base ≠ tip ∧
    if searchDescendant then Reaches h.parents base tip else Reaches h.parents tip base

def Tagged (tags : List (Tag N C)) (c : C) : Prop := ∃ tag ∈ tags, tag.peeled = some c

/-- The tag is on a commit beyond `commit`, and no tagged commit is between them. -/
def Nearest (Beyond : C → C → Prop) (commit : C) (tags : List (Tag N C)) (tag : Tag N C) (c : C) :
    Prop :=
  tag ∈ tags ∧ tag.peeled = some c ∧ Beyond c commit ∧
    ∀ u, Tagged tags u → ¬ (Beyond c u ∧ Beyond u commit)

/-! ## Proof -/

def Found (Beyond : C → C → Prop) (commit : C) (tags : List (Tag N C)) :
    Option (Tag N C × C) → Prop
  | none => ∀ c, Tagged tags c → ¬ Beyond c commit
  | some (tag, c) => Nearest Beyond commit tags tag c

variable {R : C → C → Prop} {merged : C → C → Bool} {commit c : C} {tags : List (Tag N C)}
  {tag ref : Tag N C} {found : Option (Tag N C × C)}

theorem tagged_concat : Tagged (tags ++ [ref]) c ↔ Tagged tags c ∨ ref.peeled = some c := by
  simp [Tagged, or_and_right, exists_or]

theorem nearest_concat (hmem : tag ∈ tags ++ [ref]) (hpeeled : tag.peeled = some c)
    (hbeyond : R c commit) (hbetween : ∀ u, Tagged tags u → ¬ (R c u ∧ R u commit))
    (hnew : ∀ u, ref.peeled = some u → ¬ (R c u ∧ R u commit)) :
    Nearest R commit (tags ++ [ref]) tag c :=
  ⟨hmem, hpeeled, hbeyond, fun u hu => (tagged_concat.1 hu).elim (hbetween u) (hnew u)⟩

/-- A tag that is not beyond the commit does not matter. -/
theorem Found.skip (hf : Found R commit tags found)
    (hskip : ∀ u, ref.peeled = some u → ¬ R u commit) : Found R commit (tags ++ [ref]) found := by
  cases found with
  | none =>
    intro u hu
    exact (tagged_concat.1 hu).elim (hf u) (hskip u)
  | some found =>
    obtain ⟨hmem, hpeeled, hbeyond, hbetween⟩ := hf
    exact nearest_concat (List.mem_append_left _ hmem) hpeeled hbeyond hbetween
      fun u hu h => hskip u hu h.2

section
variable [DecidableEq C] (hR : ∀ a b, R a b ↔ a ≠ b ∧ merged a b = true)
  (htrans : ∀ a b c, merged a b = true → R b c → R a c)
include hR htrans

theorem found_visit (hf : Found R commit tags found) :
    Found R commit (tags ++ [ref]) (visit merged commit found ref) := by
  unfold visit
  split
  · next hnone => exact hf.skip fun u hu => by simp [hnone] at hu
  · next newTag hnew =>
    have hthis {P : C → Prop} (hP : P newTag) (u : C) (hu : ref.peeled = some u) : P u := by
      cases hnew.symm.trans hu
      exact hP
    split
    · next hself => exact hf.skip (hthis fun h => ((hR ..).1 h).1 hself)
    · next hne =>
      split
      · next hmerged =>
        have hbeyond : R newTag commit := (hR ..).2 ⟨hne, hmerged⟩
        have hself : ¬ (R newTag newTag ∧ R newTag commit) := fun h => ((hR ..).1 h.1).1 rfl
        split
        · next tag oldTag =>
          obtain ⟨hmem, hpeeled, hold, hbetween⟩ := hf
          split
          · next hcloser =>
            refine nearest_concat (by simp) hnew hbeyond (fun u hu hu' => ?_) (hthis hself)
            exact hbetween u hu ⟨htrans _ _ _ hcloser hu'.1, hu'.2⟩
          · next hcloser =>
            exact nearest_concat (List.mem_append_left _ hmem) hpeeled hold hbetween
              (hthis fun h => hcloser ((hR ..).1 h.1).2)
        · exact nearest_concat (by simp) hnew hbeyond (fun u hu hu' => hf u hu hu'.2) (hthis hself)
      · next hmerged => exact hf.skip (hthis fun h => hmerged ((hR ..).1 h).2)

theorem found_foldl (commit : C) (tags : List (Tag N C)) :
    Found R commit tags (tags.foldl (visit merged commit) none) := by
  induction tags using List.reverseRecOn with
  | nil =>
    rintro c ⟨tag, hmem, -⟩
    cases hmem
  | append_singleton tags ref ih =>
    rw [List.foldl_append]
    exact found_visit hR htrans ih

end

theorem beyond_iff (h : History C) (searchDescendant : Bool) (a b : C) :
    Beyond h searchDescendant a b ↔ a ≠ b ∧ isMergedInto h a b searchDescendant = true := by
  cases searchDescendant with
  | false | true => simp [Beyond, isMergedInto, h.isMergedInto_iff]

theorem beyond_of_merged (h : History C) (searchDescendant : Bool) (a b c : C)
    (hab : isMergedInto h a b searchDescendant = true) (hbc : Beyond h searchDescendant b c) :
    Beyond h searchDescendant a c := by
  cases searchDescendant with
  | false =>
    have hab' := (h.isMergedInto_iff a b).1 hab
    refine ⟨?_, Relation.ReflTransGen.trans hbc.2 hab'⟩
    rintro rfl
    exact hbc.1 (h.acyclic b a hab' hbc.2)
  | true =>
    have hab' := (h.isMergedInto_iff b a).1 hab
    refine ⟨?_, Relation.ReflTransGen.trans hab' hbc.2⟩
    rintro rfl
    exact hbc.1 (h.acyclic b a hbc.2 hab')

/-- **The next tag.** -/
theorem getNextTag_nearest [DecidableEq C] (h : History C) (commit : C) (searchDescendant : Bool)
    (tags : List (Tag N C)) :
    (getNextTag h commit searchDescendant tags = none ↔
        ¬ ∃ c, Tagged tags c ∧ Beyond h searchDescendant c commit) ∧
      ∀ tag, getNextTag h commit searchDescendant tags = some tag →
        ∃ c, Nearest (Beyond h searchDescendant) commit tags tag c := by
  have hfound := found_foldl (beyond_iff h searchDescendant) (beyond_of_merged h searchDescendant)
    commit tags
  unfold getNextTag
  generalize tags.foldl _ none = found at hfound
  cases found with
  | none =>
    refine ⟨iff_of_true rfl ?_, fun _ htag => by cases htag⟩
    rintro ⟨c, hc, hbeyond⟩
    exact hfound c hc hbeyond
  | some found =>
    have hnearest : Nearest (Beyond h searchDescendant) commit tags found.1 found.2 := hfound
    obtain ⟨hmem, hpeeled, hbeyond, -⟩ := hnearest
    refine ⟨iff_of_false (by simp) fun hno => hno ⟨found.2, ⟨found.1, hmem, hpeeled⟩, hbeyond⟩, ?_⟩
    intro tag htag
    cases htag
    exact ⟨found.2, hfound⟩

/-- Commits in a row; the first one is 0. -/
def rowParents : Nat → List Nat
  | 0 => []
  | c + 1 => [c]

theorem reaches_rowParents (a b : Nat) : Reaches rowParents a b ↔ b ≤ a := by
  constructor
  · intro h
    induction h with
    | refl => exact Nat.le_refl a
    | @tail c p _ hp ih =>
      cases c with
      | zero => cases hp
      | succ c =>
        cases List.mem_singleton.1 hp
        exact Nat.le_of_succ_le ih
  · intro h
    induction h with
    | refl => exact .refl
    | step _ ih => exact .head (List.mem_singleton_self _) ih

def row : History Nat where
  parents := rowParents
  acyclic a b hab hba :=
    Nat.le_antisymm ((reaches_rowParents b a).1 hba) ((reaches_rowParents a b).1 hab)
  isMergedInto base tip := decide (base ≤ tip)
  isMergedInto_iff base tip := by rw [decide_eq_true_eq, reaches_rowParents]

def rowTags : List (Tag Char Nat) := [⟨'a', some 0⟩, ⟨'b', some 2⟩, ⟨'c', some 4⟩]

theorem getNextTag_nearest_row :
    (getNextTag row 3 false rowTags = some ⟨'b', some 2⟩ ∧
        ∃ c, Nearest (Beyond row false) 3 rowTags ⟨'b', some 2⟩ c) ∧
      getNextTag row 1 true rowTags = some ⟨'b', some 2⟩ ∧
        ∃ c, Nearest (Beyond row true) 1 rowTags ⟨'b', some 2⟩ c :=
  ⟨⟨rfl, (getNextTag_nearest row 3 false rowTags).2 _ rfl⟩,
    rfl, (getNextTag_nearest row 1 true rowTags).2 _ rfl⟩

end

end Egit.NextTag
