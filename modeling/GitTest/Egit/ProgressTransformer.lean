import Mathlib.Algebra.Order.BigOperators.Group.List
import Mathlib.Algebra.Order.Ring.Int

/-!
# The progress of a task (EclipseGitProgressTransformer.java)

`update` adds the work to what is done and writes a new label if the percentage is another one.
The percentage is computed from 100 times the work, in 32 bits.

    the labels are right ↔ 100 times the reported work fits in 32 bits  (percentages_right_iff)
-/

namespace Egit.ProgressTransformer

/-! ## Algorithm -/

/-- The value of an `int` expression. -/
def int32 (n : Int) : Int := (n + 2147483648) % 4294967296 - 2147483648

def unknown : Int := 0

structure Task where
  msg : String
  lastWorked : Int
  totalWork : Int

/-- The parts of the text for `task.subTask`. -/
inductive Label
  | count (msg : String) (cmp : Int)
  | percentage (msg : String) (pcnt cmp totalWork : Int)
  deriving DecidableEq

def beginTask (name : String) (total : Int) : Task := ⟨name, 0, total⟩

/-- Java's `/` cuts towards 0. -/
def percentage (work totalWork : Int) : Int := (int32 (work * 100)).tdiv totalWork

/-- The task afterwards, and the label for `task.subTask`; `none` is no task, or no new label. -/
def update (task : Option Task) (work : Int) : Option Task × Option Label :=
  match task with
  | none => (none, none)
  | some t =>
    let cmp := int32 (t.lastWorked + work)
    (some { t with lastWorked := cmp },
      if t.totalWork = unknown ∧ cmp > 0 then
        if t.lastWorked ≠ cmp then some (.count t.msg cmp) else none
      else if t.totalWork ≤ 0 then none
      else if percentage cmp t.totalWork ≠ percentage t.lastWorked t.totalWork then
        some (.percentage t.msg (percentage cmp t.totalWork) cmp t.totalWork)
      else none)

def labels (task : Option Task) : List Int → List (Option Label)
  | [] => []
  | work :: updates => (update task work).2 :: labels (update task work).1 updates

/-! ## What it is for -/

/-- The labels with exact percentages, from `done` on. -/
def exactLabels (msg : String) (total : Int) : Int → List Int → List (Option Label)
  | _, [] => []
  | done, work :: updates =>
    (if 100 * (done + work) / total ≠ 100 * done / total then
        some (.percentage msg (100 * (done + work) / total) (done + work) total)
      else none) :: exactLabels msg total (done + work) updates

def Label.pcnt : Label → Option Int
  | .count _ _ => none
  | .percentage _ pcnt _ _ => some pcnt

def shown (labels : List (Option Label)) : List Int := labels.filterMap (·.bind Label.pcnt)

structure Right (msg : String) (total : Int) (updates : List Int) : Prop where
  exact : labels (some (beginTask msg total)) updates = exactLabels msg total 0 updates
  range : ∀ p ∈ shown (labels (some (beginTask msg total)) updates), 0 ≤ p ∧ p ≤ 100
  monotone : (shown (labels (some (beginTask msg total)) updates)).Pairwise (· ≤ ·)

/-! ## Proof -/

section
variable {total done : Int} (ht : 1 ≤ total) (ht' : total < 2147483648)
include ht ht'

/-- Behind an overflow the quotient is too small by more than the cut can give back. -/
theorem percentage_eq_iff (h0 : 0 ≤ done) (hd : done ≤ total) :
    percentage done total = 100 * done / total ↔ 100 * done < 2147483648 := by
  unfold percentage int32
  constructor
  · intro h
    by_contra hover
    have hx : (done * 100 + 2147483648) % 4294967296 - 2147483648 ≤ 100 * done - 4294967296 := by
      omega
    generalize (done * 100 + 2147483648) % 4294967296 - 2147483648 = x at h hx
    have hq := Int.lt_mul_ediv_self_add (x := 100 * done) (show 0 < total by omega)
    by_cases hneg : 0 ≤ x
    · rw [Int.tdiv_eq_ediv_of_nonneg hneg] at h
      have hle := Int.mul_ediv_self_le (x := x) (show total ≠ 0 by omega)
      rw [h] at hle
      omega
    · have hle : 0 ≤ (-x).tdiv total := Int.tdiv_nonneg (by omega) (by omega)
      rw [Int.neg_tdiv] at hle
      have hpos : 1 ≤ 100 * done / total := Int.le_ediv_of_mul_le (by omega) (by omega)
      omega
  · intro h
    have hx : (done * 100 + 2147483648) % 4294967296 - 2147483648 = 100 * done := by omega
    rw [hx, Int.tdiv_eq_ediv_of_nonneg (by omega)]

theorem labels_eq_iff (msg : String) {updates : List Int} (hw : ∀ w ∈ updates, 0 ≤ w)
    (h0 : 0 ≤ done) (hs : done + updates.sum ≤ total) (hd : 100 * done < 2147483648) :
    labels (some ⟨msg, done, total⟩) updates = exactLabels msg total done updates ↔
      100 * (done + updates.sum) < 2147483648 := by
  induction updates generalizing done with
  | nil => simpa [labels, exactLabels] using hd
  | cons w ws ih =>
    rw [List.forall_mem_cons] at hw
    rw [List.sum_cons] at hs ⊢
    have hsum : 0 ≤ ws.sum := List.sum_nonneg hw.2
    have hcmp : int32 (done + w) = done + w := by
      unfold int32
      omega
    have hold := (percentage_eq_iff ht ht' h0 (by omega)).2 hd
    have hnew := percentage_eq_iff ht ht' (show 0 ≤ done + w by omega) (by omega)
    simp only [labels, exactLabels, update, hcmp, hold, unknown]
    rw [if_neg (by omega), if_neg (by omega), List.cons.injEq]
    by_cases hfits : 100 * (done + w) < 2147483648
    · rw [hnew.2 hfits, ih hw.2 (by omega) (by omega) hfits, add_assoc]
      exact and_iff_right rfl
    · -- a label that is right has the right percentage, and so has one that is not written
      refine iff_of_false ?_ (by omega)
      rintro ⟨hhead, -⟩
      split at hhead <;> split at hhead <;> simp_all

theorem exactLabels_spec (msg : String) {updates : List Int} (hw : ∀ w ∈ updates, 0 ≤ w)
    (h0 : 0 ≤ done) (hs : done + updates.sum ≤ total) :
    (∀ p ∈ shown (exactLabels msg total done updates), 100 * done / total ≤ p ∧ p ≤ 100) ∧
      (shown (exactLabels msg total done updates)).Pairwise (· ≤ ·) := by
  induction updates generalizing done with
  | nil => simp [shown, exactLabels]
  | cons w ws ih =>
    rw [List.forall_mem_cons] at hw
    rw [List.sum_cons] at hs
    have hsum : 0 ≤ ws.sum := List.sum_nonneg hw.2
    obtain ⟨hrange, hsorted⟩ := ih hw.2 (show 0 ≤ done + w by omega) (by omega)
    have hle : 100 * done / total ≤ 100 * (done + w) / total :=
      Int.ediv_le_ediv (by omega) (by omega)
    have hmax : 100 * (done + w) / total ≤ 100 := Int.ediv_le_of_le_mul (by omega) (by omega)
    have hrest := fun p hp => And.intro (hle.trans (hrange p hp).1) (hrange p hp).2
    simp only [shown, exactLabels, List.filterMap_cons] at hrange hsorted hrest ⊢
    split
    · exact ⟨hrest, hsorted⟩
    · next hlabel =>
      split at hlabel
      · cases hlabel
        exact ⟨List.forall_mem_cons.2 ⟨⟨hle, hmax⟩, hrest⟩,
          List.pairwise_cons.2 ⟨fun p hp => (hrange p hp).1, hsorted⟩⟩
      · cases hlabel

end

/-- **The percentages.**  They are right if and only if their computation stays in 32 bits. -/
theorem percentages_right_iff (msg : String) {total : Int} {updates : List Int} (ht : 1 ≤ total)
    (ht' : total < 2147483648) (hw : ∀ w ∈ updates, 0 ≤ w) (hs : updates.sum ≤ total) :
    Right msg total updates ↔ 100 * updates.sum < 2147483648 := by
  have hs' : 0 + updates.sum ≤ total := by rwa [zero_add]
  have h := labels_eq_iff ht ht' msg hw (le_refl 0) hs' (by decide)
  rw [zero_add] at h
  constructor
  · exact fun hr => h.1 hr.exact
  · intro hfits
    have heq : labels (some (beginTask msg total)) updates = exactLabels msg total 0 updates :=
      h.2 hfits
    obtain ⟨hrange, hsorted⟩ := exactLabels_spec ht ht' msg hw (le_refl 0) hs'
    rw [mul_zero, Int.zero_ediv] at hrange
    exact ⟨heq, heq ▸ hrange, heq ▸ hsorted⟩

/-- Two of four units, then the rest. -/
theorem percentages_right_halves : Right "Receiving objects" 4 [2, 2] :=
  (percentages_right_iff _ (by decide) (by decide) (by decide) (by decide)).2 (by decide)

/-- A quarter of 100,000,000 units is shown as -17 percent. -/
theorem percentage_overflows :
    labels (some (beginTask "Receiving objects" 100000000)) [25000000] =
      [some (.percentage "Receiving objects" (-17) 25000000 100000000)] ∧
    ¬ Right "Receiving objects" 100000000 [25000000] := by
  have hlabel : labels (some (beginTask "Receiving objects" 100000000)) [25000000] =
      [some (.percentage "Receiving objects" (-17) 25000000 100000000)] := by decide
  refine ⟨hlabel, fun h => ?_⟩
  have hexact := h.exact
  exact absurd hexact (by decide)

end Egit.ProgressTransformer
