import Mathlib.Logic.Function.Basic

/-!
# A set of numbers as the bits of words

Number `k` is bit `k % w` of word `k / w`.

    test (set m k) j = true ↔ j = k ∨ test m j = true  (test_set)
    test (clear m k) j = true ↔ j ≠ k ∧ test m j = true  (test_clear)
-/

namespace Bitmap

variable {w : Nat}

abbrev Words (w : Nat) := Nat → BitVec w

def bit (w k : Nat) : BitVec w := 1#w <<< (k % w)

def test (m : Words w) (k : Nat) : Bool := decide (m (k / w) &&& bit w k ≠ 0)

def set (m : Words w) (k : Nat) : Words w := Function.update m (k / w) (m (k / w) ||| bit w k)

def clear (m : Words w) (k : Nat) : Words w :=
  Function.update m (k / w) (m (k / w) &&& ~~~bit w k)

section
variable (hw : 0 < w)
include hw

theorem getLsbD_bit (k i : Nat) : (bit w k).getLsbD i = decide (i = k % w) := by
  have hlt := Nat.mod_lt k hw
  unfold bit
  rw [← BitVec.twoPow_eq]
  by_cases hi : i = k % w
  · simp [hi, hlt]
  · simp [hi, Ne.symm hi]

theorem test_eq (m : Words w) (k : Nat) : test m k = (m (k / w)).getLsbD (k % w) := by
  have hlt := Nat.mod_lt k hw
  unfold test
  rw [bit, ← BitVec.twoPow_eq, BitVec.and_twoPow]
  cases (m (k / w)).getLsbD (k % w) with
  | true =>
    have hne : BitVec.twoPow w (k % w) ≠ 0#w := by
      intro h
      have := congrArg (fun v => BitVec.getLsbD v (k % w)) h
      simp [hlt] at this
    simpa using hne
  | false => simp

omit hw in
theorem eq_of_div_mod {j k : Nat} (hd : j / w = k / w) (hm : j % w = k % w) : j = k := by
  rw [← Nat.div_add_mod j w, ← Nat.div_add_mod k w, hd, hm]

theorem test_set (m : Words w) (j k : Nat) :
    test (set m k) j = true ↔ j = k ∨ test m j = true := by
  rw [test_eq hw, test_eq hw]
  unfold set
  by_cases hd : j / w = k / w
  · rw [hd, Function.update_self, BitVec.getLsbD_or, getLsbD_bit hw, Bool.or_eq_true,
      decide_eq_true_eq, or_comm]
    constructor
    · rintro (h | h)
      · exact .inl (eq_of_div_mod hd h)
      · exact .inr h
    · rintro (rfl | h)
      · exact .inl rfl
      · exact .inr h
  · rw [Function.update_of_ne hd]
    have hne : j ≠ k := fun h => hd (by rw [h])
    simp [hne]

theorem test_clear (m : Words w) (j k : Nat) :
    test (clear m k) j = true ↔ j ≠ k ∧ test m j = true := by
  have hlt := Nat.mod_lt j hw
  rw [test_eq hw, test_eq hw]
  unfold clear
  by_cases hd : j / w = k / w
  · rw [hd, Function.update_self, BitVec.getLsbD_and, BitVec.getLsbD_not, getLsbD_bit hw]
    have hiff : j % w = k % w ↔ j = k := ⟨eq_of_div_mod hd, fun h => by rw [h]⟩
    simp only [hlt, decide_true, Bool.true_and, Bool.and_eq_true, Bool.not_eq_true',
      decide_eq_false_iff_not, hiff]
    exact and_comm
  · rw [Function.update_of_ne hd]
    have hne : j ≠ k := fun h => hd (by rw [h])
    simp [hne]

end

end Bitmap
