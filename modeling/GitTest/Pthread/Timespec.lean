import Mathlib.Algebra.Ring.Int.Defs
import Mathlib.Tactic.SplitIfs

/-!
# Times (libc/bionic/pthread_internal.h, pthread.c)

`struct timespec` and the functions of it that timed waits and timers use.  The fields are
integers: a time fits its `long` in every use modelled here.
-/

namespace Pthread

@[ext]
structure Timespec where
  sec : Int
  nsec : Int
  deriving DecidableEq, Repr

def timespecAdd (a b : Timespec) : Timespec :=
  let sec := a.sec + b.sec
  let nsec := a.nsec + b.nsec
  if nsec ≥ 1000000000 then ⟨sec + 1, nsec - 1000000000⟩ else ⟨sec, nsec⟩

def timespecSub (a b : Timespec) : Timespec :=
  let sec := a.sec - b.sec
  let nsec := a.nsec - b.nsec
  if nsec < 0 then ⟨sec - 1, nsec + 1000000000⟩ else ⟨sec, nsec⟩

def timespecZero : Timespec := ⟨0, 0⟩

def timespecIsZero (a : Timespec) : Bool := a.sec == 0 && a.nsec == 0

def timespecCmp (a b : Timespec) : Int :=
  if a.sec < b.sec then -1
  else if a.sec > b.sec then 1
  else if a.nsec < b.nsec then -1
  else if a.nsec > b.nsec then 1
  else 0

def timespecCmp0 (a : Timespec) : Int :=
  if a.sec < 0 then -1
  else if a.sec > 0 then 1
  else if a.nsec < 0 then -1
  else if a.nsec > 0 then 1
  else 0

/-- `__timespec_to_absolute`: the time left until `abstime` when the clock shows `now`, or `none`
for the result -1. -/
def timespecToAbsolute (abstime now : Timespec) : Option Timespec :=
  let ts := timespecSub abstime now
  if ts.nsec < 0 ∨ ts.sec < 0 then none else some ts

/-! ## Times in nanoseconds -/

def Timespec.ns (t : Timespec) : Int := t.sec * 1000000000 + t.nsec

/-- The nanoseconds are a part of a second. -/
def Timespec.Normal (t : Timespec) : Prop := 0 ≤ t.nsec ∧ t.nsec < 1000000000

/-- The fields are values of a `long`. -/
def Timespec.Fits (t : Timespec) : Prop :=
  (-2 ^ 31 ≤ t.sec ∧ t.sec < 2 ^ 31) ∧ -2 ^ 31 ≤ t.nsec ∧ t.nsec < 2 ^ 31

instance (t : Timespec) : Decidable t.Fits :=
  inferInstanceAs
    (Decidable ((-2 ^ 31 ≤ t.sec ∧ t.sec < 2 ^ 31) ∧ -2 ^ 31 ≤ t.nsec ∧ t.nsec < 2 ^ 31))

instance (t : Timespec) : Decidable t.Normal :=
  inferInstanceAs (Decidable (0 ≤ t.nsec ∧ t.nsec < 1000000000))

theorem timespecAdd_ns (a b : Timespec) : (timespecAdd a b).ns = a.ns + b.ns := by
  unfold timespecAdd Timespec.ns
  dsimp only
  split <;> dsimp only <;> omega

theorem timespecSub_ns (a b : Timespec) : (timespecSub a b).ns = a.ns - b.ns := by
  unfold timespecSub Timespec.ns
  dsimp only
  split <;> dsimp only <;> omega

theorem Timespec.Normal.add {a b : Timespec} (ha : a.Normal) (hb : b.Normal) :
    (timespecAdd a b).Normal := by
  unfold Timespec.Normal at *
  unfold timespecAdd
  dsimp only
  split <;> dsimp only <;> omega

theorem Timespec.Normal.add_sub {a : Timespec} (ha : a.Normal) (b : Timespec) :
    timespecSub (timespecAdd a b) b = a := by
  unfold Timespec.Normal at *
  unfold timespecAdd timespecSub
  dsimp only
  split
  · dsimp only
    rw [if_pos (by omega)]
    ext <;> dsimp only <;> omega
  · dsimp only
    rw [if_neg (by omega)]
    ext <;> dsimp only <;> omega

theorem Timespec.Normal.sec_eq {a : Timespec} (ha : a.Normal) : a.sec = a.ns / 1000000000 := by
  unfold Timespec.Normal at ha
  unfold Timespec.ns
  omega

theorem Timespec.Normal.cmp_neg_iff {a b : Timespec} (ha : a.Normal) (hb : b.Normal) :
    timespecCmp a b < 0 ↔ a.ns < b.ns := by
  unfold Timespec.Normal at *
  unfold timespecCmp Timespec.ns
  split_ifs <;> omega

theorem Timespec.Normal.cmp_nonpos_iff {a b : Timespec} (ha : a.Normal) (hb : b.Normal) :
    timespecCmp a b ≤ 0 ↔ a.ns ≤ b.ns := by
  unfold Timespec.Normal at *
  unfold timespecCmp Timespec.ns
  split_ifs <;> omega

end Pthread
