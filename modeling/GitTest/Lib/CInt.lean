import Mathlib.Data.BitVec

/-!
# Integers of the C preprocessor

The arithmetic of `#if` conditions: every value is an `intmax_t` or a `uintmax_t`, here of 64
bits.  An operator with an unsigned operand is computed unsigned; comparisons and the logical
operators give the signed values 0 and 1; a shift has the type of its left operand.  Division
by zero and a shift by a negative number or by 64 and more have no value.
-/

namespace CInt

structure Value where
  unsigned : Bool
  bits : BitVec 64
  deriving DecidableEq, Repr

def Value.ofBool (b : Bool) : Value := ⟨false, if b then 1 else 0⟩

def Value.truth (v : Value) : Bool := v.bits ≠ 0

def Value.neg (v : Value) : Value := { v with bits := -v.bits }

/-- The value of an integer constant: signed if it fits, else unsigned if the constant has the
suffix `U` or is not decimal. -/
def constant (decimal suffixU : Bool) (n : Nat) : Option Value :=
  if n < 2 ^ 63 ∧ suffixU = false then some ⟨false, BitVec.ofNat 64 n⟩
  else if n < 2 ^ 64 ∧ (suffixU = true ∨ decimal = false) then some ⟨true, BitVec.ofNat 64 n⟩
  else none

theorem constant_signed {n : Nat} (h : n < 2 ^ 63) (decimal : Bool) :
    constant decimal false n = some ⟨false, BitVec.ofNat 64 n⟩ := if_pos ⟨h, rfl⟩

theorem constant_unsigned {decimal suffixU : Bool} {n : Nat} (h : (constant decimal suffixU n).isSome)
    (hn : suffixU = true ∨ 2 ^ 63 ≤ n) :
    constant decimal suffixU n = some ⟨true, BitVec.ofNat 64 n⟩ ∧
      (suffixU = true ∨ decimal = false) := by
  have hsigned : ¬ (n < 2 ^ 63 ∧ suffixU = false) := by
    rintro ⟨hlt, hu⟩
    rcases hn with hn | hn
    · rw [hu] at hn
      cases hn
    · omega
  unfold constant at h ⊢
  rw [if_neg hsigned] at h ⊢
  split
  · next hlt => exact ⟨rfl, hlt.2⟩
  · next hlt =>
    rw [if_neg hlt] at h
    cases h

inductive UnaryOp
  | not
  | compl
  deriving DecidableEq, Repr

inductive BinaryOp
  | add | sub | lt | le | ge | gt | land | lor | mul | div | mod
  | and | or | xor | shl | shr | eq | ne
  deriving DecidableEq, Repr

def UnaryOp.apply : UnaryOp → Value → Value
  | .not, v => .ofBool (!v.truth)
  | .compl, v => { v with bits := ~~~v.bits }

/-- The number of places a shift by `v` moves. -/
def Value.places (v : Value) : Option Nat :=
  if v.bits.toNat < 64 then some v.bits.toNat else none

/-- The operators that need both operands. -/
def BinaryOp.compute (op : BinaryOp) (a b : Value) : Option Value :=
  let u := a.unsigned || b.unsigned
  match op with
  | .add => some ⟨u, a.bits + b.bits⟩
  | .sub => some ⟨u, a.bits - b.bits⟩
  | .mul => some ⟨u, a.bits * b.bits⟩
  | .div =>
    if b.bits = 0 then none else some ⟨u, if u then a.bits / b.bits else a.bits.sdiv b.bits⟩
  | .mod =>
    if b.bits = 0 then none else some ⟨u, if u then a.bits % b.bits else a.bits.srem b.bits⟩
  | .and => some ⟨u, a.bits &&& b.bits⟩
  | .or => some ⟨u, a.bits ||| b.bits⟩
  | .xor => some ⟨u, a.bits ^^^ b.bits⟩
  | .shl => b.places.map fun k => { a with bits := a.bits <<< k }
  | .shr => b.places.map fun k =>
      { a with bits := if a.unsigned then a.bits >>> k else a.bits.sshiftRight k }
  | .eq => some (.ofBool (a.bits = b.bits))
  | .ne => some (.ofBool (a.bits ≠ b.bits))
  | .lt => some (.ofBool (if u then a.bits.ult b.bits else a.bits.slt b.bits))
  | .le => some (.ofBool (if u then a.bits.ule b.bits else a.bits.sle b.bits))
  | .gt => some (.ofBool (if u then b.bits.ult a.bits else b.bits.slt a.bits))
  | .ge => some (.ofBool (if u then b.bits.ule a.bits else b.bits.sle a.bits))
  | .land => some (.ofBool (a.truth && b.truth))
  | .lor => some (.ofBool (a.truth || b.truth))

/-- A binary operator on operands that may have no value; `&&` and `||` do not look at the right
operand if the left one decides. -/
def BinaryOp.apply (op : BinaryOp) (a b : Option Value) : Option Value :=
  a.bind fun v =>
    match op, v.truth with
    | .land, false => some (.ofBool false)
    | .lor, true => some (.ofBool true)
    | op, _ => b.bind fun w => op.compute v w

@[simp] theorem truth_ofBool (b : Bool) : (Value.ofBool b).truth = b := by
  cases b <;> rfl

theorem truth_constant {decimal suffixU : Bool} {n : Nat} {v : Value}
    (h : constant decimal suffixU n = some v) : v.truth = decide (n ≠ 0) := by
  have hv : n < 2 ^ 64 ∧ v.bits = BitVec.ofNat 64 n := by
    unfold constant at h
    split at h
    · next hn =>
      cases h
      exact ⟨by omega, rfl⟩
    · split at h
      · next hn =>
        cases h
        exact ⟨hn.1, rfl⟩
      · cases h
  have hz : v.bits = 0 ↔ n = 0 := by
    rw [hv.2, ← BitVec.toNat_inj]
    simp only [BitVec.toNat_ofNat, Nat.mod_eq_of_lt hv.1, BitVec.ofNat_eq_ofNat, Nat.zero_mod]
  unfold Value.truth
  rw [decide_eq_decide, not_iff_not, hz]

/-- The truth of `&&` (`d = false`) and `||` (`d = true`): the left operand decides with the
value `d`, or the right one does. -/
theorem truth_logical (d : Bool) {a b : Option Value} {v : Value}
    (h : (if d then BinaryOp.lor else BinaryOp.land).apply a b = some v) :
    ∃ x, a = some x ∧ ((x.truth = d ∧ v.truth = d) ∨
      ∃ y, b = some y ∧ x.truth = !d ∧ v.truth = y.truth) := by
  obtain ⟨x, ha, h'⟩ := Option.bind_eq_some_iff.1 h
  refine ⟨x, ha, ?_⟩
  by_cases hx : x.truth = d
  · rw [hx] at h'
    cases d <;> cases h' <;> exact .inl ⟨hx, rfl⟩
  · have hx' : x.truth = !d := Bool.eq_not.2 hx
    rw [hx'] at h'
    cases d <;>
    · obtain ⟨y, hb, h'⟩ := Option.bind_eq_some_iff.1 h'
      cases h'
      exact .inr ⟨y, hb, hx', by rw [truth_ofBool, hx']; rfl⟩

end CInt
