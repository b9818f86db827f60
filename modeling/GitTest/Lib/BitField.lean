import Mathlib.Data.Nat.Bitwise

/-!
# Bit fields of a machine word

A field is `n` bits starting at bit `k`.  Masking a word with the field's mask keeps the
field's bits in place; joining words with no common bit adds them.  With these, statements
about masked words become linear arithmetic on `toNat`.

    (v &&& mask k n).toNat = v.toNat / 2 ^ k % 2 ^ n * 2 ^ k  (toNat_and_mask)
    (x ||| y).toNat = x.toNat + y.toNat  (toNat_or_of_lt)

A tagged word is a signed number above a flag in bit 0.
-/

namespace BitField

/-- The mask of the `n` bits from bit `k` on. -/
def mask (w k n : Nat) : BitVec w := BitVec.ofNat w ((2 ^ n - 1) * 2 ^ k)

theorem land_mask (x k n : Nat) : x &&& ((2 ^ n - 1) * 2 ^ k) = x / 2 ^ k % 2 ^ n * 2 ^ k := by
  apply Nat.eq_of_testBit_eq
  intro i
  rw [Nat.testBit_and, Nat.testBit_mul_two_pow, Nat.testBit_mul_two_pow,
    Nat.testBit_two_pow_sub_one, Nat.testBit_mod_two_pow, Nat.testBit_div_two_pow]
  by_cases hi : k ≤ i
  · have he : i - k + k = i := by omega
    simp only [hi, decide_true, Bool.true_and, he]
    rw [Bool.and_comm]
  · simp [hi]

theorem toNat_and_mask {w : Nat} (v : BitVec w) (k n : Nat) (h : (2 ^ n - 1) * 2 ^ k < 2 ^ w) :
    (v &&& mask w k n).toNat = v.toNat / 2 ^ k % 2 ^ n * 2 ^ k := by
  unfold mask
  rw [BitVec.toNat_and, BitVec.toNat_ofNat, Nat.mod_eq_of_lt h, land_mask]

theorem toNat_or_of_lt {w : Nat} (x y : BitVec w) (k : Nat) (hx : x.toNat % 2 ^ k = 0)
    (hy : y.toNat < 2 ^ k) : (x ||| y).toNat = x.toNat + y.toNat := by
  rw [BitVec.toNat_or]
  have he : x.toNat = 2 ^ k * (x.toNat / 2 ^ k) := by
    have := Nat.div_add_mod x.toNat (2 ^ k)
    omega
  rw [he, ← Nat.two_pow_add_eq_or_of_lt hy]

/-! ## A number above a flag -/

/-- The word with the number `n` in its upper 31 bits and the flag `b` in bit 0. -/
def tagged (b : BitVec 32) (n : Int) : BitVec 32 := BitVec.ofInt 32 (2 * n + b.toNat)

theorem toNat_and_one (v : BitVec 32) : (v &&& 1).toNat = v.toNat % 2 := by
  have h : (v &&& 1).toNat = v.toNat / 2 ^ 0 % 2 ^ 1 * 2 ^ 0 := toNat_and_mask v 0 1 (by decide)
  omega

theorem toNat_and_not_one (v : BitVec 32) : (v &&& 0xfffffffe).toNat = v.toNat / 2 * 2 := by
  have h : (v &&& 0xfffffffe).toNat = v.toNat / 2 ^ 1 % 2 ^ 31 * 2 ^ 1 :=
    toNat_and_mask v 1 31 (by decide)
  omega

theorem toNat_tagged (b : BitVec 32) (n : Int) :
    (tagged b n).toNat = ((2 * n + b.toNat) % 4294967296).toNat := by
  rfl

theorem toNat_tagged_zero (n : Int) : (tagged 0 n).toNat = (2 * n % 4294967296).toNat := by
  have h := toNat_tagged 0 n
  have h0 : (0 : BitVec 32).toNat = 0 := rfl
  omega

section
variable {b : BitVec 32} (hb : b.toNat < 2)
include hb

theorem tagged_and_one (n : Int) : tagged b n &&& 1 = b := by
  apply BitVec.eq_of_toNat_eq
  rw [toNat_and_one, toNat_tagged]
  omega

theorem tagged_and_not_one (n : Int) : tagged b n &&& 0xfffffffe = tagged 0 n := by
  apply BitVec.eq_of_toNat_eq
  rw [toNat_and_not_one, toNat_tagged, toNat_tagged_zero]
  omega

theorem tagged_zero_or (n : Int) : tagged 0 n ||| b = tagged b n := by
  have h0 := toNat_tagged_zero n
  apply BitVec.eq_of_toNat_eq
  rw [toNat_or_of_lt _ _ 1 (by omega) hb, h0, toNat_tagged]
  omega

theorem tagged_add_two (n : Int) : (tagged b n + 2) &&& 0xfffffffe = tagged 0 (n + 1) := by
  have h2 : (2 : BitVec 32).toNat = 2 := rfl
  apply BitVec.eq_of_toNat_eq
  rw [toNat_and_not_one, BitVec.toNat_add, toNat_tagged, toNat_tagged_zero]
  omega

theorem tagged_sub_two (n : Int) : (tagged b n - 2) &&& 0xfffffffe = tagged 0 (n - 1) := by
  have h2 : (2 : BitVec 32).toNat = 2 := rfl
  apply BitVec.eq_of_toNat_eq
  rw [toNat_and_not_one, BitVec.toNat_sub, toNat_tagged, toNat_tagged_zero]
  omega

theorem tagged_inj_iff (m n : Int) : tagged b m = tagged b n ↔ m % 2147483648 = n % 2147483648 := by
  rw [← BitVec.toNat_inj, toNat_tagged, toNat_tagged]
  omega

/-- The arithmetic shift gives the number back, if it fits. -/
theorem toInt_tagged_shift {n : Int} (h1 : -1073741824 ≤ n) (h2 : n < 1073741824) :
    ((tagged b n).sshiftRight 1).toInt = n := by
  unfold tagged
  rw [BitVec.toInt_sshiftRight, BitVec.toInt_ofInt, Int.shiftRight_eq_div_pow,
    Int.bmod_eq_of_le (by omega) (by omega)]
  omega

end

end BitField
