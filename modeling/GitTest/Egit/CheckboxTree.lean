import Mathlib.Data.List.Basic

/-!
# Select-all and deselect-all of a filtered tree (CachedCheckboxTreeViewer.java)

`setAllChecked(true)` walks down the children that pass the filters; `setAllChecked(false)` asks the
filters about each cached leaf alone, whether or not the elements above it are shown.

    both act on the visible leaves only ↔ every cached leaf that passes the filters is visible
      (setAllChecked_right_iff)
-/

namespace Egit.CheckboxTree

/-! ## Algorithm -/

/-- An element with its children of the content provider. -/
inductive Content (E : Type)
  | node (element : E) (children : List (Content E))

def Content.element {E : Type} : Content E → E
  | .node e _ => e

def Content.children {E : Type} : Content E → List (Content E)
  | .node _ children => children

section
variable {E : Type} (passes : E → Bool)

mutual

/-- `addFilteredChildren`: the leaves that are collected for an element. -/
def addFilteredChildren : Content E → List E
  | .node e [] => [e]
  | .node _ (child :: children) => addFilteredElements (child :: children)

/-- The loop over `getFilteredChildren`. -/
def addFilteredElements : List (Content E) → List E
  | [] => []
  | child :: children =>
    if passes child.element then addFilteredChildren child ++ addFilteredElements children
    else addFilteredElements children

end

def setAllChecked (root : Content E) (checkState : List E) (state : Bool) : List E :=
  if state then checkState ++ addFilteredElements passes root.children
  else checkState.filter fun e => !passes e

/-! ## Specification -/

/-- A leaf below an element, with all elements on the way and itself passing the filters. -/
inductive VisibleLeaf : Content E → E → Prop
  | leaf {c child : Content E} : child ∈ c.children → passes child.element = true →
      child.children = [] → VisibleLeaf c child.element
  | deeper {c child : Content E} {e : E} : child ∈ c.children → passes child.element = true →
      VisibleLeaf child e → VisibleLeaf c e

def RightChecked (root : Content E) (checkState : List E) : Prop :=
  (∀ e, e ∈ setAllChecked passes root checkState true ↔
    e ∈ checkState ∨ VisibleLeaf passes root e) ∧
  ∀ e, e ∈ setAllChecked passes root checkState false ↔
    e ∈ checkState ∧ ¬VisibleLeaf passes root e

/-! ## Proof -/

variable {passes}

theorem VisibleLeaf.passed {c : Content E} {e : E} (h : VisibleLeaf passes c e) :
    passes e = true := by
  induction h with
  | leaf _ hp _ => exact hp
  | deeper _ _ _ ih => exact ih

theorem visibleLeaf_iff {c : Content E} {e : E} :
    VisibleLeaf passes c e ↔ ∃ child ∈ c.children, passes child.element = true ∧
      (child.children = [] ∧ e = child.element ∨ VisibleLeaf passes child e) := by
  constructor
  · intro h
    cases h with
    | leaf hc hp hl => exact ⟨_, hc, hp, .inl ⟨hl, rfl⟩⟩
    | deeper hc hp h => exact ⟨_, hc, hp, .inr h⟩
  · rintro ⟨child, hc, hp, ⟨hl, rfl⟩ | h⟩
    · exact .leaf hc hp hl
    · exact .deeper hc hp h

mutual

theorem mem_addFilteredChildren (e : E) : (c : Content E) →
    (e ∈ addFilteredChildren passes c ↔ c.children = [] ∧ e = c.element ∨ VisibleLeaf passes c e)
  | .node e' [] => by
    rw [visibleLeaf_iff]
    simp [addFilteredChildren, Content.children, Content.element]
  | .node e' (child :: children) => by
    rw [addFilteredChildren, mem_addFilteredElements e (child :: children), visibleLeaf_iff]
    simp [Content.children]

theorem mem_addFilteredElements (e : E) : (l : List (Content E)) →
    (e ∈ addFilteredElements passes l ↔ ∃ c ∈ l, passes c.element = true ∧
      (c.children = [] ∧ e = c.element ∨ VisibleLeaf passes c e))
  | [] => by simp [addFilteredElements]
  | child :: children => by
    rw [addFilteredElements]
    split
    · next hp =>
      rw [List.mem_append, mem_addFilteredChildren e child, mem_addFilteredElements e children]
      simp [hp]
    · next hp =>
      rw [mem_addFilteredElements e children]
      simp [hp]

end

/-- **Select-all and deselect-all.** -/
theorem setAllChecked_right_iff (passes : E → Bool) (root : Content E) (checkState : List E) :
    RightChecked passes root checkState ↔
      ∀ e ∈ checkState, passes e = true → VisibleLeaf passes root e := by
  constructor
  · rintro ⟨-, h⟩ e he hp
    by_contra hv
    have hkept := (h e).2 ⟨he, hv⟩
    simp [setAllChecked, hp] at hkept
  · intro h
    refine ⟨?_, ?_⟩
    · intro e
      rw [setAllChecked, if_pos rfl, List.mem_append, mem_addFilteredElements, visibleLeaf_iff]
    · intro e
      simp only [setAllChecked, Bool.false_eq_true, if_false, List.mem_filter, Bool.not_eq_true']
      refine and_congr_right fun he => ⟨fun hp hv => ?_, fun hv => ?_⟩
      · exact absurd hv.passed (by simp [hp])
      · exact Bool.eq_false_iff.2 fun hp => hv (h e he hp)

end

/-- A hidden folder 1 with a leaf 2 that passes: deselecting all drops the leaf from the cache. -/
theorem hidden_folder :
    let root := Content.node 0 [.node 1 [.node 2 []]]
    setAllChecked (fun e => e != 1) root [2] false = [] ∧
      ¬VisibleLeaf (fun e => e != 1) root 2 := by
  refine ⟨by decide, ?_⟩
  rw [visibleLeaf_iff]
  simp [Content.children, Content.element]

end Egit.CheckboxTree
