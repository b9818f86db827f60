import GitTest.Lib.BitField

/-!
# The mutex word (libc/bionic/pthread.c)

A mutex is one `int`: owner's kernel id (bits 31-16), type (15-14), shared flag (13),
recursion counter (12-2), lock state (1-0; 0 unlocked, 1 locked, 2 locked and maybe
contended).  `pthreadMutexInit` is the word `pthread_mutex_init` stores.
-/

namespace Pthread

/-- A C `int`. -/
abbrev Word := BitVec 32

def mutexTypeMask : Word := 0xc000
def mutexTypeNormal : Word := 0x0000
def mutexTypeRecursive : Word := 0x4000
def mutexTypeErrorcheck : Word := 0x8000

def mutexCounterShift : Nat := 2
def mutexCounterMask : Word := 0x1ffc
def mutexSharedMask : Word := 0x2000

/-- `MUTEX_OWNER`: an arithmetic shift of the `int`, then the mask. -/
def mutexOwner (value : Word) : Word := value.sshiftRight 16 &&& 0xffff

def mutexattrTypeMask : Word := 0x000f
def mutexattrSharedMask : Word := 0x0010

def pthreadMutexNormal : Word := 0
def pthreadMutexRecursive : Word := 1
def pthreadMutexErrorcheck : Word := 2

/-- The word stored by `pthread_mutex_init`; `none` is the `EINVAL` return.  A missing
attribute is `NULL`. -/
def pthreadMutexInit : Option Word → Option Word
  | none => some mutexTypeNormal
  | some attr =>
    let value : Word := if attr &&& mutexattrSharedMask ≠ 0 then mutexSharedMask else 0
    if attr &&& mutexattrTypeMask = pthreadMutexNormal then
      some (value ||| mutexTypeNormal)
    else if attr &&& mutexattrTypeMask = pthreadMutexRecursive then
      some (value ||| mutexTypeRecursive)
    else if attr &&& mutexattrTypeMask = pthreadMutexErrorcheck then
      some (value ||| mutexTypeErrorcheck)
    else none

def IsSharedFlag (shared : Word) : Prop := shared = 0 ∨ shared = mutexSharedMask

variable {sh ty v : Word} {o k st : Nat}

/-- The three states differ, and the decrement goes down by one state. -/
theorem IsSharedFlag.states (h : IsSharedFlag sh) :
    sh ||| 0 = sh ∧ sh ||| 1 ≠ sh ∧ sh ||| 2 ≠ sh ∧ sh ||| 2 ≠ sh ||| 1 ∧
      (sh ||| 1) - 1 = sh ∧ (sh ||| 2) - 1 = sh ||| 1 := by
  rcases h with rfl | rfl <;> decide

/-- An initialised word is a shared flag and a type, with no owner, counter or state. -/
theorem pthreadMutexInit_eq (attr : Option Word) (v : Word) (h : pthreadMutexInit attr = some v) :
    IsSharedFlag (v &&& mutexSharedMask) ∧
      v = v &&& mutexTypeMask ||| v &&& mutexSharedMask ∧
      (v &&& mutexTypeMask = mutexTypeNormal ∨ v &&& mutexTypeMask = mutexTypeRecursive ∨
        v &&& mutexTypeMask = mutexTypeErrorcheck) := by
  revert h
  fun_cases pthreadMutexInit attr with
  | case1 =>
    rintro ⟨⟩
    unfold IsSharedFlag
    decide
  | case2 attr sh | case3 attr sh | case4 attr sh =>
    rintro ⟨⟩
    have hsh : sh = 0 ∨ sh = mutexSharedMask := by
      by_cases h : attr &&& mutexattrSharedMask ≠ 0
      · exact .inr (if_pos h)
      · exact .inl (if_neg h)
    unfold IsSharedFlag
    clear_value sh
    rcases hsh with rfl | rfl <;> decide
  | case5 => rintro ⟨⟩

/-- `pshared ? FUTEX_WAIT : FUTEX_WAIT_PRIVATE` -/
def pshared (shared : Word) : Bool := decide (shared ≠ 0)

/-! ## The fields as numbers -/

open BitField

theorem toNat_type (v : Word) : (v &&& mutexTypeMask).toNat = v.toNat / 16384 % 4 * 16384 :=
  toNat_and_mask v 14 2 (by decide)

theorem toNat_shared (v : Word) : (v &&& mutexSharedMask).toNat = v.toNat / 8192 % 2 * 8192 :=
  toNat_and_mask v 13 1 (by decide)

theorem toNat_counter (v : Word) : (v &&& mutexCounterMask).toNat = v.toNat / 4 % 2048 * 4 :=
  toNat_and_mask v 2 11 (by decide)

theorem toNat_state (v : Word) : (v &&& 3).toNat = v.toNat % 4 := by
  have h : (v &&& 3).toNat = v.toNat / 2 ^ 0 % 2 ^ 2 * 2 ^ 0 := toNat_and_mask v 0 2 (by decide)
  omega

theorem state_eq_iff (v c : Word) : v &&& 3 = c ↔ v.toNat % 4 = c.toNat := by
  rw [← BitVec.toNat_inj, toNat_state]

theorem toNat_owner (v : Word) : (mutexOwner v).toNat = v.toNat / 65536 := by
  have h : mutexOwner v = v >>> 16 := by
    unfold mutexOwner
    apply BitVec.eq_of_getLsbD_eq
    intro i hi
    have hmask : ∀ j < 32, (0xffff : BitVec 32).getLsbD j = decide (j < 16) := by decide
    rw [BitVec.getLsbD_and, hmask i hi, BitVec.getLsbD_sshiftRight]
    by_cases h16 : i < 16
    · have : 16 + i < 32 := by omega
      simp [this, h16, hi]
    · simp [h16, BitVec.getLsbD_of_ge v (16 + i) (by omega)]
  rw [h, BitVec.toNat_ushiftRight, Nat.shiftRight_eq_div_pow]

/-! ## The word of a mutex with an owner -/

def IsOwnedType (ty : Word) : Prop := ty = mutexTypeRecursive ∨ ty = mutexTypeErrorcheck

/-- The word with owner `o`, counter `k` and state `st`. -/
def HasFields (ty sh v : Word) (o k st : Nat) : Prop :=
  v.toNat = o * 65536 + ty.toNat + sh.toNat + 4 * k + st ∧ o < 65536 ∧ k < 2048 ∧ st < 4

/-- The type and the shared bit as numbers, for the arithmetic below. -/
theorem flags_toNat (hty : IsOwnedType ty) (hsh : IsSharedFlag sh) :
    (ty.toNat = 16384 ∨ ty.toNat = 32768) ∧ (sh.toNat = 0 ∨ sh.toNat = 8192) := by
  rcases hty with rfl | rfl <;> rcases hsh with rfl | rfl <;> decide

theorem toNat_base (hty : IsOwnedType ty) (hsh : IsSharedFlag sh) :
    (ty ||| sh).toNat = ty.toNat + sh.toNat ∧ sh ||| ty = ty ||| sh := by
  rcases hty with rfl | rfl <;> rcases hsh with rfl | rfl <;> decide

section
variable (hty : IsOwnedType ty) (hsh : IsSharedFlag sh) (h : HasFields ty sh v o k st)
include hty hsh h

theorem HasFields.type : v &&& mutexTypeMask = ty := by
  obtain ⟨h, ho, hk, hst⟩ := h
  have hf := flags_toNat hty hsh
  apply BitVec.eq_of_toNat_eq
  rw [toNat_type]
  omega

theorem HasFields.shared : v &&& mutexSharedMask = sh := by
  obtain ⟨h, ho, hk, hst⟩ := h
  have hf := flags_toNat hty hsh
  apply BitVec.eq_of_toNat_eq
  rw [toNat_shared]
  omega

theorem HasFields.owner : (mutexOwner v).toNat = o := by
  obtain ⟨h, ho, hk, hst⟩ := h
  have hf := flags_toNat hty hsh
  rw [toNat_owner]
  omega

theorem HasFields.counter :
    (v &&& mutexCounterMask).toNat = 4 * k := by
  obtain ⟨h, ho, hk, hst⟩ := h
  have hf := flags_toNat hty hsh
  rw [toNat_counter]
  omega

theorem HasFields.counter_eq_zero_iff : v &&& mutexCounterMask = 0 ↔ k = 0 := by
  have hc := h.counter hty hsh
  have h0 : (0 : Word).toNat = 0 := rfl
  rw [← BitVec.toNat_inj]
  omega

theorem HasFields.counter_full_iff :
    v &&& mutexCounterMask = mutexCounterMask ↔ k = 2047 := by
  have hc := h.counter hty hsh
  have hm : mutexCounterMask.toNat = 8188 := rfl
  rw [← BitVec.toNat_inj]
  omega

theorem HasFields.mod4 : v.toNat % 4 = st := by
  obtain ⟨h, ho, hk, hst⟩ := h
  have hf := flags_toNat hty hsh
  omega

/-- A word of this shape is the released one exactly when it has no owner, count or state. -/
theorem HasFields.eq_base_iff :
    v = ty ||| sh ↔ o = 0 ∧ k = 0 ∧ st = 0 := by
  obtain ⟨h, ho, hk, hst⟩ := h
  have hb := (toNat_base hty hsh).1
  constructor
  · intro he
    rw [he] at h
    omega
  · rintro ⟨rfl, rfl, rfl⟩
    apply BitVec.eq_of_toNat_eq
    omega

end

theorem hasFields_base (hty : IsOwnedType ty) (hsh : IsSharedFlag sh) :
    HasFields ty sh (ty ||| sh) 0 0 0 := by
  refine ⟨?_, by omega, by omega, by omega⟩
  have hb := (toNat_base hty hsh).1
  omega

/-- The word written by an acquisition: `(tid << 16) | mtype | state`. -/
theorem hasFields_acquire {tid st : Word} (hty : IsOwnedType ty) (hsh : IsSharedFlag sh)
    (ht : tid.toNat < 65536) (hst : st.toNat < 4) :
    HasFields ty sh ((tid <<< 16) ||| (ty ||| sh) ||| st) tid.toNat 0 st.toNat := by
  have hf := flags_toNat hty hsh
  have hb := (toNat_base hty hsh).1
  have hshift : (tid <<< 16).toNat = tid.toNat * 65536 := by
    rw [BitVec.toNat_shiftLeft]
    omega
  have h1 : ((tid <<< 16) ||| (ty ||| sh)).toNat = (tid <<< 16).toNat + (ty ||| sh).toNat :=
    toNat_or_of_lt _ _ 16 (by omega) (by omega)
  refine ⟨?_, ht, by omega, hst⟩
  rw [toNat_or_of_lt _ _ 2 (by omega) (by omega)]
  omega

/-- `oldv ^= 3` takes state 1 to state 2 and keeps the rest. -/
theorem toNat_xor_three (v : Word) (h : v.toNat % 4 = 1) : (v ^^^ 3).toNat = v.toNat + 1 := by
  obtain ⟨q, hq⟩ : ∃ q, v.toNat = 2 ^ 2 * q + 1 := ⟨v.toNat / 4, by omega⟩
  have h3 : (3 : Word).toNat = 2 ^ 2 * 0 + 3 := rfl
  rw [BitVec.toNat_xor, hq, h3]
  apply Nat.eq_of_testBit_eq
  intro i
  rw [show 2 ^ 2 * q + 1 + 1 = 2 ^ 2 * q + 2 by omega, Nat.testBit_xor,
    Nat.testBit_two_pow_mul_add _ (by omega), Nat.testBit_two_pow_mul_add _ (by omega),
    Nat.testBit_two_pow_mul_add _ (by omega)]
  by_cases hi : i < 2
  · have : i = 0 ∨ i = 1 := by omega
    rcases this with rfl | rfl <;> rfl
  · simp [hi]

theorem HasFields.promote (h : HasFields ty sh v o k 1) (hty : IsOwnedType ty)
    (hsh : IsSharedFlag sh) : HasFields ty sh (v ^^^ 3) o k 2 := by
  have hm := h.mod4 hty hsh
  obtain ⟨h, ho, hk, -⟩ := h
  refine ⟨?_, ho, hk, by omega⟩
  rw [toNat_xor_three v hm]
  omega

/-- The word written by an owner that locks again: the counter goes up by one, modulo 2048. -/
theorem HasFields.relock (hty : IsOwnedType ty) (hsh : IsSharedFlag sh)
    (h : HasFields ty sh v o k st) :
    HasFields ty sh
      ((v &&& ~~~mutexCounterMask) ||| ((v + (1 <<< mutexCounterShift)) &&& mutexCounterMask))
      o ((k + 1) % 2048) st := by
  have hmod := h.mod4 hty hsh
  obtain ⟨h, ho, hk, hst⟩ := h
  have hstate : (v &&& 3).toNat = st := by
    rw [toNat_state, hmod]
  have hcount : ((v + (1 <<< mutexCounterShift)) &&& mutexCounterMask).toNat =
      4 * ((k + 1) % 2048) := by
    have hf := flags_toNat hty hsh
    have hadd : (v + (1 <<< mutexCounterShift)).toNat = (v.toNat + 4) % 4294967296 := by
      rfl
    rw [toNat_counter]
    omega
  have hhigh : (v &&& mask 32 13 19).toNat = o * 65536 + ty.toNat + sh.toNat := by
    have hf := flags_toNat hty hsh
    have hm : (v &&& mask 32 13 19).toNat = v.toNat / 2 ^ 13 % 2 ^ 19 * 2 ^ 13 :=
      toNat_and_mask v 13 19 (by decide)
    rw [hm]
    omega
  -- high part, counter and state are joined from the top down
  have he : (v &&& ~~~mutexCounterMask) ||| ((v + (1 <<< mutexCounterShift)) &&& mutexCounterMask) =
      v &&& mask 32 13 19 |||
        ((v + (1 <<< mutexCounterShift)) &&& mutexCounterMask ||| v &&& 3) := by
    rw [show ~~~mutexCounterMask = mask 32 13 19 ||| 3 by decide, BitVec.and_or_distrib_left,
      BitVec.or_assoc, BitVec.or_comm (v &&& 3)]
  have hlow : ((v + (1 <<< mutexCounterShift)) &&& mutexCounterMask ||| v &&& 3).toNat =
      4 * ((k + 1) % 2048) + st := by
    rw [toNat_or_of_lt _ _ 2 (by omega) (by omega), hcount, hstate]
  have hdvd : (v &&& mask 32 13 19).toNat % 2 ^ 13 = 0 := by
    have hf := flags_toNat hty hsh
    omega
  refine ⟨?_, ho, by omega, hst⟩
  rw [he, toNat_or_of_lt _ _ 13 hdvd (by omega)]
  omega

theorem HasFields.unnest (h : HasFields ty sh v o (k + 1) st) :
    HasFields ty sh (v - (1 <<< mutexCounterShift)) o k st := by
  obtain ⟨h, ho, hk, hst⟩ := h
  have h4 : ((1 <<< mutexCounterShift : Word)).toNat = 4 := rfl
  refine ⟨?_, ho, by omega, hst⟩
  rw [BitVec.toNat_sub]
  omega

/-! ## Atomic operations on the word

Each returns the new content of the word and the C result. -/

/-- `__atomic_cmpxchg` returns 0 when it made the swap. -/
def atomicCmpxchg (old new value : Word) : Word × Word :=
  if value = old then (new, 0) else (value, 1)

/-- `__atomic_swap` returns the previous value. -/
def atomicSwap (new value : Word) : Word × Word := (new, value)

/-- `__atomic_dec` returns the previous value. -/
def atomicDec (value : Word) : Word × Word := (value - 1, value)

end Pthread
