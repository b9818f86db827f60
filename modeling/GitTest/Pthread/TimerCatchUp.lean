import Mathlib.Algebra.Order.Ring.Int
import Mathlib.Data.Nat.Find
import Mathlib.Tactic.IntervalCases
import Mathlib.Tactic.Ring
import GitTest.Pthread.Timer

/-!
# Overruns of a timer (libc/bionic/pthread-timers.c)

The loop with which the thread of a periodic timer catches up with the clock: it adds the period
to its copy of the expiration time, once for each overrun, until the result is not before `now`.
`timer_settime` stores any interval, so the loop may get further and further away from `now`, or
order its sums wrongly when their nanoseconds are out of range.

    Lands s now ↔ the first expiration that is not before `now` exists, its sums are ordered by
      timespec_cmp as they are in time, and none of them overflows  (lands_iff)
    for times with 0 <= tv_nsec < 10^9: Lands s now ↔ 0 <= period.tv_sec, without an overflow
-/

namespace Pthread.Timer

open Machines

/-! ## What the loop is for -/

/-- `expires + k * period` is the first of the following expirations that is not before `now`. -/
structure Least (expires period now : Timespec) (k : Nat) : Prop where
  pos : 1 ≤ k
  reaches : now.ns ≤ expires.ns + k * period.ns
  first : ∀ j : Nat, 1 ≤ j → j < k → expires.ns + j * period.ns < now.ns

variable {expires period now clock : Timespec} {k : Nat} {s s' : State}

theorem Least.unique {j : Nat} (hj : Least expires period now j) (hk : Least expires period now k) :
    j = k := by
  rcases Nat.lt_trichotomy j k with h | h | h
  · have := hk.first j hj.pos h
    have := hj.reaches
    omega
  · exact h
  · have := hj.first k hk.pos h
    have := hk.reaches
    omega

/-- A negative period leads away from `now`. -/
theorem not_least_of_neg (hp : period.ns < 0) (hle : expires.ns ≤ now.ns) :
    ¬ Least expires period now k := by
  intro h
  have hpos := h.pos
  have hreach := h.reaches
  have hneg : (k : Int) * period.ns < 0 := mul_neg_of_pos_of_neg (by omega) hp
  omega

theorem least_of_pos (expires now : Timespec) (hp : 0 < period.ns) :
    ∃ k, Least expires period now k := by
  have hex : ∃ k : Nat, 1 ≤ k ∧ now.ns ≤ expires.ns + k * period.ns := by
    refine ⟨(now.ns - expires.ns).toNat + 1, by omega, ?_⟩
    have hle : ((now.ns - expires.ns).toNat + 1 : Int) ≤
        ((now.ns - expires.ns).toNat + 1 : Int) * period.ns :=
      le_mul_of_one_le_right (by omega) (by omega)
    push_cast
    omega
  refine ⟨Nat.find hex, (Nat.find_spec hex).1, (Nat.find_spec hex).2, ?_⟩
  intro j hj hlt
  have hmin := Nat.find_min hex hlt
  rw [not_and, not_le] at hmin
  exact hmin hj

/-! ## Signed overflow -/

/-- No intermediate result of `timespec_add` overflows. -/
def SumFits (a b : Timespec) : Prop :=
  (Timespec.mk (a.sec + b.sec) (a.nsec + b.nsec)).Fits ∧ (timespecAdd a b).Fits

/-- No intermediate result of `timespec_sub` overflows. -/
def DiffFits (a b : Timespec) : Prop :=
  (Timespec.mk (a.sec - b.sec) (a.nsec - b.nsec)).Fits ∧ (timespecSub a b).Fits

instance (a b : Timespec) : Decidable (SumFits a b) :=
  inferInstanceAs (Decidable (_ ∧ _))

instance (a b : Timespec) : Decidable (DiffFits a b) :=
  inferInstanceAs (Decidable (_ ∧ _))

/-- The arithmetic of the thread's next step at an expiration does not overflow. -/
def Pc.InRange : Pc → Prop
  | .overrun expires period now =>
    SumFits expires period ∧
      (0 ≤ timespecCmp (timespecAdd expires period) now →
        DiffFits (timespecAdd expires period) period)
  | .expired expires period => timespecIsZero period = false → SumFits expires period
  | .start | .top | .wait | .timedWait _ _ | .relock | .timedOut _ _ | .callback | .inCallback
  | .ended => True

instance : (p : Pc) → Decidable p.InRange
  | .overrun expires period now => inferInstanceAs (Decidable (SumFits expires period ∧
      (0 ≤ timespecCmp (timespecAdd expires period) now →
        DiffFits (timespecAdd expires period) period)))
  | .expired expires period =>
    inferInstanceAs (Decidable (timespecIsZero period = false → SumFits expires period))
  | .start | .top | .wait | .timedWait _ _ | .relock | .timedOut _ _ | .callback | .inCallback
  | .ended => .isTrue trivial

/-- A step on the way to the next callback, without an overflow. -/
def Handles (s : State) (_ : Act) : Prop := s.pc ≠ .callback ∧ s.pc.InRange

instance (s : State) (a : Act) : Decidable (Handles s a) :=
  inferInstanceAs (Decidable (s.pc ≠ .callback ∧ s.pc.InRange))

/-- From the head of its loop the thread gets to its callback; the loop that counts overruns makes
`k` rounds, for the least `k` with `expires + k * period` not before `now`, and this is the
expiration that is stored. -/
def Lands (s : State) (now : Timespec) : Prop :=
  ∃ k s', Least s.timer.expires s.timer.period now k ∧
    machine.runIf Handles s (List.replicate (k + 2) (.exec now)) = some s' ∧
    s'.pc = .callback ∧
    s'.timer.expires.ns = s.timer.expires.ns + k * s.timer.period.ns ∧
    s'.timer.overruns = min (s.timer.overruns + k) delaytimerMax

/-! ## The rounds of the loop -/

/-- The thread's copy of the expiration time after `k` rounds. -/
def advance (expires period : Timespec) : Nat → Timespec
  | 0 => expires
  | k + 1 => advance (timespecAdd expires period) period k

theorem advance_succ (expires period : Timespec) (k : Nat) :
    advance expires period (k + 1) = timespecAdd (advance expires period k) period := by
  induction k generalizing expires with
  | zero => rfl
  | succ k ih => exact ih (timespecAdd expires period)

theorem advance_ns (expires period : Timespec) (k : Nat) :
    (advance expires period k).ns = expires.ns + k * period.ns := by
  induction k with
  | zero => simp [advance]
  | succ k ih =>
    rw [advance_succ, timespecAdd_ns, ih]
    push_cast
    ring

/-- The loop ends after `k` rounds, and nothing overflows up to the store. -/
structure Stops (expires period now : Timespec) (k : Nat) : Prop where
  pos : 1 ≤ k
  sums : ∀ j < k, SumFits (advance expires period j) period
  before : ∀ j, 1 ≤ j → j < k → timespecCmp (advance expires period j) now < 0
  reached : 0 ≤ timespecCmp (advance expires period k) now
  back : DiffFits (advance expires period k) period ∧
    SumFits (timespecSub (advance expires period k) period) period

theorem Stops.round (hs : SumFits expires period)
    (hc : timespecCmp (timespecAdd expires period) now < 0)
    (h : Stops (timespecAdd expires period) period now k) : Stops expires period now (k + 1) where
  pos := by omega
  sums := by
    intro j hj
    cases j with
    | zero => exact hs
    | succ j => exact h.sums j (by omega)
  before := by
    intro j hj hlt
    obtain ⟨j, rfl⟩ := Nat.exists_eq_succ_of_ne_zero (by omega : j ≠ 0)
    by_cases h0 : j = 0
    · subst h0
      exact hc
    · exact h.before j (by omega) (by omega)
  reached := h.reached
  back := h.back

theorem Stops.tail (h : Stops expires period now (k + 2)) :
    Stops (timespecAdd expires period) period now (k + 1) where
  pos := by omega
  sums := fun j hj => h.sums (j + 1) (by omega)
  before := fun j hj hlt => h.before (j + 1) (by omega) (by omega)
  reached := h.reached
  back := h.back

theorem step_overrun (hpc : s.pc = .overrun expires period now) (clock : Timespec) :
    step s (.exec clock) = some { s with
      timer := s.timer.countOverrun
      pc := if timespecCmp (timespecAdd expires period) now < 0
        then .overrun (timespecAdd expires period) period now
        else .expired (timespecSub (timespecAdd expires period) period) period } := by
  simp only [step, exec, hpc]
  split <;> rfl

theorem step_expired (hpc : s.pc = .expired expires period) (hp : timespecIsZero period = false)
    (clock : Timespec) :
    step s (.exec clock) = some { s with
      timer := { s.timer with expires := timespecAdd expires period }
      pc := .callback } := by
  simp [step, exec, hpc, hp]

theorem countOverrun_overruns {f : Fields} (h : f.overruns ≤ delaytimerMax) :
    f.countOverrun.overruns = min (f.overruns + 1) delaytimerMax := by
  unfold Fields.countOverrun
  split
  · dsimp only
    omega
  · omega

theorem runIf_cons (hg : Handles s (.exec clock)) (hs : step s (.exec clock) = some s') (n : Nat) :
    machine.runIf Handles s (List.replicate (n + 1) (.exec clock)) =
      machine.runIf Handles s' (List.replicate n (.exec clock)) := by
  rw [List.replicate_succ, Machine.runIf, if_pos hg]
  change (step s (.exec clock)).bind _ = _
  rw [hs]
  rfl

theorem runIf_cons_inv {n : Nat}
    (h : machine.runIf Handles s (List.replicate (n + 1) (.exec clock)) = some s') :
    Handles s (.exec clock) ∧ ∃ s₁, step s (.exec clock) = some s₁ ∧
      machine.runIf Handles s₁ (List.replicate n (.exec clock)) = some s' := by
  rw [List.replicate_succ, Machine.runIf, Option.ite_none_right_eq_some] at h
  obtain ⟨hg, h⟩ := h
  exact ⟨hg, Option.bind_eq_some_iff.mp h⟩

/-- A loop that ends after `k` rounds takes the thread to its callback. -/
theorem Stops.run (h : Stops expires period now k) (hp : timespecIsZero period = false)
    (clock : Timespec) :
    ∀ {s : State}, s.pc = .overrun expires period now → s.timer.overruns ≤ delaytimerMax →
      ∃ s', machine.runIf Handles s (List.replicate (k + 1) (.exec clock)) = some s' ∧
        s'.pc = .callback ∧
        s'.timer.expires = timespecAdd (timespecSub (advance expires period k) period) period ∧
        s'.timer.overruns = min (s.timer.overruns + k) delaytimerMax := by
  induction k generalizing expires with
  | zero => exact absurd h.pos (by omega)
  | succ k ih =>
    intro s hpc ho
    have hsum : SumFits expires period := h.sums 0 (by omega)
    have hcount := countOverrun_overruns ho
    by_cases hk : k = 0
    · subst hk
      have hreach : 0 ≤ timespecCmp (timespecAdd expires period) now := h.reached
      have hg : Handles s (.exec clock) := by
        refine ⟨by rw [hpc]; simp, ?_⟩
        rw [hpc]
        exact ⟨hsum, fun _ => h.back.1⟩
      have hstep := step_overrun hpc clock
      rw [if_neg (by omega)] at hstep
      have hg' : Handles { s with
          timer := s.timer.countOverrun
          pc := .expired (timespecSub (timespecAdd expires period) period) period }
          (.exec clock) := ⟨by simp, fun _ => h.back.2⟩
      exact ⟨_, (runIf_cons hg hstep 1).trans (runIf_cons hg' (step_expired rfl hp clock) 0), rfl,
        rfl, hcount⟩
    · have hbefore : timespecCmp (timespecAdd expires period) now < 0 :=
        h.before 1 (by omega) (by omega)
      have hg : Handles s (.exec clock) := by
        refine ⟨by rw [hpc]; simp, ?_⟩
        rw [hpc]
        exact ⟨hsum, fun hge => absurd hge (by omega)⟩
      have hstep := step_overrun hpc clock
      rw [if_pos hbefore] at hstep
      obtain ⟨j, rfl⟩ := Nat.exists_eq_succ_of_ne_zero hk
      obtain ⟨s', hrun, hcall, he, hn⟩ := ih h.tail (s := { s with
        timer := s.timer.countOverrun
        pc := .overrun (timespecAdd expires period) period now }) rfl (by rw [hcount]; omega)
      refine ⟨s', (runIf_cons hg hstep _).trans hrun, hcall, he, ?_⟩
      rw [hn, hcount]
      omega

/-- Conversely, a thread that gets to its callback in `k + 1` steps has made `k` rounds. -/
theorem stops_of_run (hp : timespecIsZero period = false) (hpc : s.pc = .overrun expires period now)
    (h : machine.runIf Handles s (List.replicate (k + 1) (.exec clock)) = some s')
    (hcall : s'.pc = .callback) : Stops expires period now k := by
  induction k generalizing expires s with
  | zero =>
    obtain ⟨-, s₁, hs, hrun⟩ := runIf_cons_inv h
    rw [step_overrun hpc] at hs
    cases hs
    cases hrun
    split at hcall <;> cases hcall
  | succ k ih =>
    obtain ⟨hg, s₁, hs, hrun⟩ := runIf_cons_inv h
    obtain ⟨-, hrange⟩ := hg
    rw [hpc] at hrange
    obtain ⟨hsum, hdiff⟩ := hrange
    rw [step_overrun hpc] at hs
    by_cases hc : timespecCmp (timespecAdd expires period) now < 0
    · rw [if_pos hc] at hs
      cases hs
      exact (ih rfl hrun).round hsum hc
    · rw [if_neg hc] at hs
      cases hs
      obtain ⟨⟨-, hrange⟩, s₂, hs, hrun⟩ := runIf_cons_inv hrun
      cases hs
      have hreach : 0 ≤ timespecCmp (timespecAdd expires period) now := by omega
      cases k with
      | zero =>
        refine ⟨by omega, ?_, fun j hj hlt => absurd hlt (by omega), hreach, hdiff hreach,
          hrange hp⟩
        intro j hj
        obtain rfl : j = 0 := by omega
        exact hsum
      | succ k =>
        -- the callback is where the run would have ended
        exact absurd rfl (runIf_cons_inv hrun).1.1

/-! ## The condition -/

/-- The sums `expires + j * period` up to the `k`-th, as `timespec_add` makes them: `timespec_cmp`
finds them before `now` when they are, and nothing overflows. -/
structure Regular (expires period now : Timespec) (k : Nat) : Prop where
  ordered : ∀ j, 1 ≤ j → j ≤ k →
    (timespecCmp (advance expires period j) now < 0 ↔ (advance expires period j).ns < now.ns)
  sums : ∀ j < k, SumFits (advance expires period j) period
  back : DiffFits (advance expires period k) period ∧
    SumFits (timespecSub (advance expires period k) period) period

theorem stops_iff_regular (hk : Least expires period now k) :
    Stops expires period now k ↔ Regular expires period now k := by
  constructor
  · intro h
    refine ⟨fun j hj hle => ?_, h.sums, h.back⟩
    rw [advance_ns]
    by_cases hjk : j = k
    · subst hjk
      exact iff_of_false (not_lt.mpr h.reached) (not_lt.mpr hk.reaches)
    · exact iff_of_true (h.before j hj (by omega)) (hk.first j hj (by omega))
  · intro h
    refine ⟨hk.pos, h.sums, fun j hj hlt => ?_, ?_, h.back⟩
    · rw [h.ordered j hj (by omega), advance_ns]
      exact hk.first j hj hlt
    · have hno := h.ordered k hk.pos (le_refl k)
      rw [advance_ns] at hno
      have hreach := hk.reaches
      omega

section
variable {expires period now : Timespec}

theorem advance_normal (he : expires.Normal) (hp : period.Normal) (k : Nat) :
    (advance expires period k).Normal := by
  induction k with
  | zero => exact he
  | succ k ih =>
    rw [advance_succ]
    exact ih.add hp

theorem timespecAdd_fields (a b : Timespec) :
    ((timespecAdd a b).sec = a.sec + b.sec ∧ (timespecAdd a b).nsec = a.nsec + b.nsec) ∨
      ((timespecAdd a b).sec = a.sec + b.sec + 1 ∧
        (timespecAdd a b).nsec = a.nsec + b.nsec - 1000000000) := by
  unfold timespecAdd
  dsimp only
  split
  · exact .inr ⟨rfl, rfl⟩
  · exact .inl ⟨rfl, rfl⟩

theorem sumFits_of_normal {a : Timespec} (ha : a.Normal) (hp : period.Normal)
    (hlow : -2 ^ 31 ≤ a.sec) (hpos : 0 ≤ period.sec)
    (hhigh : (timespecAdd a period).sec < 2 ^ 31) : SumFits a period := by
  have hsum := ha.add hp
  have hfields := timespecAdd_fields a period
  unfold Timespec.Normal at ha hp hsum
  unfold SumFits Timespec.Fits
  dsimp only
  omega

theorem diffFits_of_sumFits {a : Timespec} (ha : a.Normal) (hp : period.Normal)
    (hpos : 0 ≤ period.sec) (hlow : -2 ^ 31 ≤ a.sec) (hs : SumFits a period) :
    DiffFits (timespecAdd a period) period := by
  have hsum := ha.add hp
  have hfields := timespecAdd_fields a period
  unfold DiffFits
  rw [ha.add_sub period]
  unfold Timespec.Normal at ha hp hsum
  unfold SumFits at hs
  unfold Timespec.Fits at *
  dsimp only at *
  omega

theorem advance_sec_mono (hpos : 0 ≤ period.sec) {j k : Nat} (hjk : j ≤ k) :
    (advance expires period j).sec ≤ (advance expires period k).sec := by
  induction k, hjk using Nat.le_induction with
  | base => exact le_refl _
  | succ k _ ih =>
    rw [advance_succ]
    rcases timespecAdd_fields (advance expires period k) period with ⟨h, -⟩ | ⟨h, -⟩
    · omega
    · omega

/-- Times that are in order and a period that is not negative: the sums are regular if the last
one fits. -/
theorem regular_of_normal (he : expires.Normal) (hp : period.Normal) (hn : now.Normal)
    (hlow : -2 ^ 31 ≤ expires.sec) (hpos : 0 ≤ period.sec) {k : Nat} (hk : 1 ≤ k)
    (hhigh : (advance expires period k).sec < 2 ^ 31) : Regular expires period now k := by
  have hlow' : ∀ j, -2 ^ 31 ≤ (advance expires period j).sec := fun j =>
    hlow.trans (advance_sec_mono hpos (Nat.zero_le j))
  have hsums : ∀ j < k, SumFits (advance expires period j) period := by
    intro j hj
    refine sumFits_of_normal (advance_normal he hp j) hp (hlow' j) hpos ?_
    rw [← advance_succ]
    exact lt_of_le_of_lt (advance_sec_mono hpos hj) hhigh
  obtain ⟨i, rfl⟩ := Nat.exists_eq_succ_of_ne_zero (by omega : k ≠ 0)
  refine ⟨fun j _ _ => (advance_normal he hp j).cmp_neg_iff hn, hsums, ?_⟩
  have hi := advance_normal he hp i
  rw [advance_succ, hi.add_sub period]
  exact ⟨diffFits_of_sumFits hi hp hpos (hlow' i) (hsums i (by omega)), hsums i (by omega)⟩

end

/-! ## Top theorem -/

/-- The head of the loop finds an expiration of a periodic timer that `now` has reached.  The bound
of the counter is that of its type. -/
structure Overdue (s : State) (now : Timespec) : Prop where
  pc : s.pc = .top
  done : s.timer.done = false
  stopped : s.timer.stopped = false
  armed : timespecIsZero s.timer.expires = false
  periodic : timespecIsZero s.timer.period = false
  reached : timespecCmp s.timer.expires now ≤ 0
  overruns : s.timer.overruns ≤ delaytimerMax

theorem Overdue.step_top (h : Overdue s now) :
    step s (.exec now) =
      some (s.copied (.overrun s.timer.expires s.timer.period now)) := by
  have hle := h.reached
  simp only [step, exec, h.pc, h.done, Bool.false_eq_true, if_false, loopTop, h.stopped, h.armed,
    or_self, h.periodic, if_true]
  rw [if_neg (by omega)]

theorem lands_iff_stops (h : Overdue s now) :
    Lands s now ↔ ∃ k, Least s.timer.expires s.timer.period now k ∧
      Stops s.timer.expires s.timer.period now k := by
  have hg : Handles s (.exec now) := by
    refine ⟨by rw [h.pc]; simp, ?_⟩
    rw [h.pc]
    exact trivial
  constructor
  · rintro ⟨k, s', hk, hrun, hcall, -⟩
    rw [runIf_cons hg h.step_top] at hrun
    exact ⟨k, hk, stops_of_run h.periodic rfl hrun hcall⟩
  · rintro ⟨k, hk, hstops⟩
    obtain ⟨s', hrun, hcall, he, hn⟩ := hstops.run h.periodic now
      (s := s.copied (.overrun s.timer.expires s.timer.period now)) rfl h.overruns
    refine ⟨k, s', hk, (runIf_cons hg h.step_top _).trans hrun, hcall, ?_, hn⟩
    rw [he, timespecAdd_ns, timespecSub_ns, advance_ns]
    omega

/-- **Catching up.**  For an overdue expiration of a periodic timer, the loop ends and the stored
expiration is the first one that is not before `now` exactly if there is such an expiration and
the sums up to it are regular.  For times whose nanoseconds are a part of a second this is: the
period is not negative, and the seconds of that expiration fit. -/
theorem lands_iff {s : State} {now : Timespec} (h : Overdue s now) :
    (Lands s now ↔ ∃ k, Least s.timer.expires s.timer.period now k ∧
      Regular s.timer.expires s.timer.period now k) ∧
    (s.timer.expires.Normal → s.timer.expires.Fits → s.timer.period.Normal → now.Normal →
      (Lands s now ↔ 0 ≤ s.timer.period.sec ∧
        ∀ k, Least s.timer.expires s.timer.period now k →
          (s.timer.expires.ns + k * s.timer.period.ns) / 1000000000 < 2 ^ 31)) := by
  have hiff : Lands s now ↔ ∃ k, Least s.timer.expires s.timer.period now k ∧
      Regular s.timer.expires s.timer.period now k := by
    rw [lands_iff_stops h]
    exact exists_congr fun k => and_congr_right fun hk => stops_iff_regular hk
  refine ⟨hiff, fun he hfits hp hn => ?_⟩
  have hsec : ∀ k, (advance s.timer.expires s.timer.period k).sec =
      (s.timer.expires.ns + k * s.timer.period.ns) / 1000000000 := by
    intro k
    rw [(advance_normal he hp k).sec_eq, advance_ns]
  rw [hiff]
  constructor
  · rintro ⟨k, hk, hreg⟩
    refine ⟨?_, ?_⟩
    · by_contra hneg
      have hns : s.timer.period.ns < 0 := by
        unfold Timespec.Normal at hp
        unfold Timespec.ns
        omega
      exact not_least_of_neg hns ((he.cmp_nonpos_iff hn).mp h.reached) hk
    · intro j hj
      obtain rfl := hj.unique hk
      obtain ⟨i, rfl⟩ := Nat.exists_eq_succ_of_ne_zero (by have := hk.pos; omega : j ≠ 0)
      have hfit := (hreg.sums i (by omega)).2
      rw [← advance_succ] at hfit
      rw [← hsec]
      exact hfit.1.2
  · rintro ⟨hpos, hhigh⟩
    have hns : 0 < s.timer.period.ns := by
      have hz := h.periodic
      unfold Timespec.Normal at hp
      unfold Timespec.ns
      simp only [timespecIsZero, Bool.and_eq_false_iff, beq_eq_false_iff_ne] at hz
      omega
    obtain ⟨k, hk⟩ := least_of_pos s.timer.expires now hns
    exact ⟨k, hk, regular_of_normal he hp hn hfits.1.1 hpos hk.pos (by rw [hsec]; exact hhigh k hk)⟩

/-- A period of 3.5 s, ten seconds late: the third expiration is the next one. -/
theorem lands_iff_late :
    ∃ s, machine.Reachable s ∧ Overdue s ⟨30, 0⟩ ∧ s.timer.setting = (⟨20, 0⟩, ⟨3, 500000000⟩) ∧
      Lands s ⟨30, 0⟩ := by
  obtain ⟨s, hs, hpc, htimer⟩ : ∃ s, machine.run newTimer
      [.settime (.relative ⟨10, 0⟩ ⟨3, 500000000⟩ ⟨10, 0⟩), .exec ⟨20, 0⟩] = some s ∧
      s.pc = .top ∧ s.timer = ⟨false, false, ⟨20, 0⟩, ⟨3, 500000000⟩, 0⟩ := ⟨_, rfl, rfl, rfl⟩
  have hov : Overdue s ⟨30, 0⟩ := by
    refine ⟨hpc, ?_, ?_, ?_, ?_, ?_, ?_⟩ <;> rw [htimer] <;> decide
  have hthird : Least ⟨20, 0⟩ ⟨3, 500000000⟩ ⟨30, 0⟩ 3 := by
    refine ⟨by decide, by decide, fun j hj hlt => ?_⟩
    interval_cases j <;> decide
  refine ⟨s, Machine.Reachable.run (.init rfl) _ hs, hov, by rw [htimer]; rfl, ?_⟩
  refine ((lands_iff hov).2 ?_ ?_ ?_ (by decide)).mpr ⟨?_, ?_⟩ <;> rw [htimer]
  · decide
  · decide
  · decide
  · decide
  · intro k hk
    rw [hk.unique hthird]
    decide

/-- `timer_settime` stores a negative interval.  The loop goes back in time: there is no expiration
to land on, and the thread does not get to its callback. -/
theorem negative_interval_diverges :
    ∃ s, machine.Reachable s ∧ Overdue s ⟨20, 0⟩ ∧ s.timer.setting = (⟨20, 0⟩, ⟨-1, 0⟩) ∧
      ¬ Lands s ⟨20, 0⟩ ∧
      ∀ n s', machine.runIf Handles s (List.replicate n (.exec ⟨20, 0⟩)) = some s' →
        s'.pc ≠ .callback := by
  obtain ⟨s, hs, hpc, htimer⟩ : ∃ s, machine.run newTimer
      [.settime (.relative ⟨10, 0⟩ ⟨-1, 0⟩ ⟨10, 0⟩), .exec ⟨20, 0⟩] = some s ∧
      s.pc = .top ∧ s.timer = ⟨false, false, ⟨20, 0⟩, ⟨-1, 0⟩, 0⟩ := ⟨_, rfl, rfl, rfl⟩
  have hov : Overdue s ⟨20, 0⟩ := by
    refine ⟨hpc, ?_, ?_, ?_, ?_, ?_, ?_⟩ <;> rw [htimer] <;> decide
  refine ⟨s, Machine.Reachable.run (.init rfl) _ hs, hov, by rw [htimer]; rfl, ?_, ?_⟩
  · rintro ⟨k, s', hk, -⟩
    rw [htimer] at hk
    exact not_least_of_neg (by decide) (by decide) hk
  · intro n s' hrun hcall
    match n with
    | 0 =>
      cases hrun
      rw [hpc] at hcall
      cases hcall
    | 1 =>
      obtain ⟨-, s₁, hstep, hend⟩ := runIf_cons_inv hrun
      rw [hov.step_top] at hstep
      cases hstep
      cases hend
      cases hcall
    | k + 2 =>
      obtain ⟨-, s₁, hstep, hrun⟩ := runIf_cons_inv hrun
      rw [hov.step_top] at hstep
      cases hstep
      have hstops := stops_of_run hov.periodic rfl hrun hcall
      simp only [htimer] at hstops
      have hnormal : (advance ⟨20, 0⟩ ⟨-1, 0⟩ k).Normal := advance_normal (by decide) (by decide) k
      have hcmp := hnormal.cmp_neg_iff (b := ⟨20, 0⟩) (by decide)
      have hpos := hstops.pos
      have hreach := hstops.reached
      rw [advance_ns] at hcmp
      simp only [Timespec.ns] at hcmp
      omega

end Pthread.Timer
