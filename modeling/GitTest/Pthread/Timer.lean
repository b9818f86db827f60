import GitTest.Lib.Transition
import GitTest.Pthread.Timespec

/-!
# The thread of a timer (libc/bionic/pthread-timers.c)

One `SIGEV_THREAD` timer: the loop of `timer_thread_start`, and the sections in which
`timer_settime`, `timer_delete` and `__timer_table_start_stop` change the timer under its mutex.
The thread holds the mutex from the head of its loop to a wait, to its callback or to its end; a
section of another call, or of the callback, is one step at a time when it does not.  The signal a
call sends afterwards is no step: a wait may end at any time, with 0 or, if it is timed, with
`ETIMEDOUT`.  The clock shows any time whenever it is read.

The thread copies `expires` and `period` at the head of the loop and writes `expires` back when it
acts on an expiration.  Ghosts: `copy` is the copy; `touched` says that since it was made a
`timer_settime`, a stop or a `timer_delete` has run its section, and `revoked` that one of them
was a stop, a `timer_delete` or a disarming `timer_settime`.

    ReachableIf Undisturbed s → a step that changes the stored setting is a timer_settime or the
      thread acting on exactly that setting, and a callback that is about to start is for a setting
      that nothing has revoked  (settings_kept)
    a timer_settime that disarms while the wait times out → the thread arms the timer again and
      calls the callback  (disarm_overwritten)
-/

namespace Pthread.Timer

open Machines

/-! ## The timer -/

structure Itimerspec where
  interval : Timespec
  value : Timespec
  deriving DecidableEq, Repr

/-- What the mutex of a `thr_timer_t` protects. -/
structure Fields where
  done : Bool
  stopped : Bool
  expires : Timespec
  period : Timespec
  overruns : Nat
  deriving DecidableEq, Repr

/-- The stores of `timer_create`. -/
def Fields.created : Fields where
  done := false
  stopped := false
  expires := timespecZero
  period := timespecZero
  overruns := 0

/-- The time left until the timer expires, and its period. -/
def timerGettimeInternal (f : Fields) (now : Timespec) : Itimerspec :=
  let diff :=
    if timespecIsZero f.expires = true then f.expires
    else
      let diff := timespecSub f.expires now
      if timespecCmp0 diff < 0 then timespecZero else diff
  { interval := f.period, value := diff }

structure SettimeCall where
  /-- `none` is `NULL`. -/
  spec : Option Itimerspec
  /-- `TIMER_ID_IS_WRAPPED(id)` -/
  wrapped : Bool
  /-- `thr_timer_from_id(id)` has found the timer. -/
  found : Bool
  /-- `flags & TIMER_ABSTIME` -/
  abstime : Bool
  /-- `ospec != NULL` -/
  wantsOld : Bool
  /-- The clock in `timer_gettime_internal`. -/
  nowOld : Timespec
  now : Timespec

inductive SettimeResult
  | einval
  /-- The result of the system call. -/
  | kernel
  /-- 0, with what is stored in `*ospec` -/
  | ok (old : Option Itimerspec)

/-- The expiration time that `timer_settime` stores. -/
def SettimeCall.expires (c : SettimeCall) (value : Timespec) : Timespec :=
  if timespecIsZero value = true then value
  else if c.abstime = false then timespecAdd value c.now
  else if timespecCmp value c.now < 0 then c.now
  else value

def timerSettime (f : Fields) (c : SettimeCall) : Fields × SettimeResult :=
  match c.spec with
  | none => (f, .einval)
  | some spec =>
    if c.wrapped = false then (f, .kernel)
    else if c.found = false then (f, .einval)
    else
      let old := if c.wantsOld = true then some (timerGettimeInternal f c.nowOld) else none
      ({ f with expires := c.expires spec.value, period := spec.interval }, .ok old)

/-- The value it sets, if the call gets to the timer. -/
def SettimeCall.sets (c : SettimeCall) : Option Timespec :=
  match c.spec with
  | none => none
  | some spec => if c.wrapped = true ∧ c.found = true then some spec.value else none

/-- It gets to the timer, and disarms it. -/
def SettimeCall.disarms (c : SettimeCall) : Bool :=
  match c.sets with
  | none => false
  | some value => timespecIsZero value

/-! ## The thread -/

def delaytimerMax : Nat := 0x7fffffff

inductive Pc
  /-- `thr_timer_lock( timer )` -/
  | start
  /-- `while (!timer->done)` -/
  | top
  /-- In `pthread_cond_wait`. -/
  | wait
  /-- In `__pthread_cond_timedwait_relative`. -/
  | timedWait (expires period : Timespec)
  /-- The wait has ended with 0; the mutex is not locked again. -/
  | relock
  /-- It has ended with `ETIMEDOUT`; the mutex is not locked again. -/
  | timedOut (expires period : Timespec)
  /-- The loop that counts overruns. -/
  | overrun (expires period now : Timespec)
  /-- Reload or disarm, `timer->expires = expires` and the unlock. -/
  | expired (expires period : Timespec)
  /-- `timer->callback( timer->value )` -/
  | callback
  | inCallback
  /-- Past the loop. -/
  | ended
  deriving DecidableEq, Repr

def Pc.holds : Pc → Bool
  | .top | .overrun _ _ _ | .expired _ _ => true
  | .start | .wait | .timedWait _ _ | .relock | .timedOut _ _ | .callback | .inCallback
  | .ended => false

def Fields.setting (f : Fields) : Timespec × Timespec := (f.expires, f.period)

structure State where
  timer : Fields
  pc : Pc
  copy : Timespec × Timespec
  touched : Bool
  revoked : Bool

inductive Act
  /-- The next step of the thread; the clock shows `now`. -/
  | exec (now : Timespec)
  /-- Its wait ends with 0. -/
  | wake
  /-- Its wait ends with `ETIMEDOUT`. -/
  | timeout
  | settime (c : SettimeCall)
  | delete
  | startStop (stop : Bool)

def Fields.countOverrun (f : Fields) : Fields :=
  if f.overruns < delaytimerMax then { f with overruns := f.overruns + 1 } else f

/-- The thread copies the setting and goes to `pc`. -/
def State.copied (s : State) (pc : Pc) : State :=
  { s with pc, copy := s.timer.setting, touched := false, revoked := false }

/-- The head of the loop: the thread copies the setting, and waits or acts on an expiration. -/
def loopTop (s : State) (now : Timespec) : State :=
  if s.timer.stopped = true ∨ timespecIsZero s.timer.expires = true then s.copied .wait
  else if timespecCmp s.timer.expires now > 0 then
    s.copied (.timedWait s.timer.expires s.timer.period)
  else if timespecIsZero s.timer.period = false then
    s.copied (.overrun s.timer.expires s.timer.period now)
  else
    { s.copied (.expired s.timer.expires s.timer.period) with
      timer := { s.timer with overruns := 1 } }

def exec (s : State) (now : Timespec) : Option State :=
  match s.pc with
  | .start | .relock => some { s with pc := .top }
  | .top => if s.timer.done = true then some { s with pc := .ended } else some (loopTop s now)
  | .overrun expires period now =>
    let expires := timespecAdd expires period
    let s := { s with timer := s.timer.countOverrun }
    if timespecCmp expires now < 0 then some { s with pc := .overrun expires period now }
    else some { s with pc := .expired (timespecSub expires period) period }
  | .timedOut expires period => some { s with pc := .expired expires period }
  | .expired expires period =>
    let expires :=
      if timespecIsZero period = false then timespecAdd expires period else timespecZero
    some { s with timer := { s.timer with expires }, pc := .callback }
  | .callback => some { s with pc := .inCallback }
  | .inCallback => some { s with timer := { s.timer with overruns := 0 }, pc := .top }
  | .wait | .timedWait _ _ | .ended => none

/-- A section under the mutex; `changes` and `revokes` say what it does to the setting. -/
def State.underLock (s : State) (f : Fields) (changes revokes : Bool) : Option State :=
  if s.pc.holds = false then
    some { s with timer := f, touched := s.touched || changes, revoked := s.revoked || revokes }
  else none

def step (s : State) : Act → Option State
  | .exec now => exec s now
  | .wake =>
    match s.pc with
    | .wait | .timedWait _ _ => some { s with pc := .relock }
    | _ => none
  | .timeout =>
    match s.pc with
    | .timedWait expires period => some { s with pc := .timedOut expires period }
    | _ => none
  | .settime c => s.underLock (timerSettime s.timer c).1 c.sets.isSome c.disarms
  | .delete => s.underLock { s.timer with done := true } true true
  | .startStop stop => s.underLock { s.timer with stopped := stop } stop stop

def newTimer : State where
  timer := .created
  pc := .start
  copy := Fields.created.setting
  touched := false
  revoked := false

def machine : Machine State Act := ⟨fun s => s = newTimer, step⟩

/-! ## The condition -/

/-- Its wait has timed out, and it waits for the mutex. -/
def Pc.isTimedOut : Pc → Bool
  | .timedOut _ _ => true
  | .start | .top | .wait | .timedWait _ _ | .relock | .overrun _ _ _ | .expired _ _ | .callback
  | .inCallback | .ended => false

/-- No `timer_settime`, stop or `timer_delete` runs its section in a wait that ends with
`ETIMEDOUT`, from the unlock in the wait to the lock behind it; and no disarming `timer_settime`,
stop or `timer_delete` does between the unlock before a callback and the call of it. -/
def Undisturbed (s : State) : Act → Prop
  | .timeout => s.touched = false
  | .settime c =>
    (s.pc.isTimedOut = true → c.sets = none) ∧ (s.pc = .callback → c.disarms = false)
  | .delete => s.pc.isTimedOut = false ∧ s.pc ≠ .callback
  | .startStop stop => stop = true → s.pc.isTimedOut = false ∧ s.pc ≠ .callback
  | .exec _ | .wake => True

instance (s : State) : (a : Act) → Decidable (Undisturbed s a)
  | .timeout => inferInstanceAs (Decidable (s.touched = false))
  | .settime c => inferInstanceAs (Decidable
      ((s.pc.isTimedOut = true → c.sets = none) ∧ (s.pc = .callback → c.disarms = false)))
  | .delete => inferInstanceAs (Decidable (s.pc.isTimedOut = false ∧ s.pc ≠ .callback))
  | .startStop stop =>
    inferInstanceAs (Decidable (stop = true → s.pc.isTimedOut = false ∧ s.pc ≠ .callback))
  | .exec _ | .wake => inferInstanceAs (Decidable True)

/-! ## The invariant -/

/-- The period in the copy that the thread may act on. -/
def Pc.period : Pc → Option Timespec
  | .timedWait _ p | .timedOut _ p | .overrun _ p _ | .expired _ p => some p
  | .start | .top | .wait | .relock | .callback | .inCallback | .ended => none

def Pc.acts : Pc → Bool
  | .timedOut _ _ | .overrun _ _ _ | .expired _ _ => true
  | .start | .top | .wait | .timedWait _ _ | .relock | .callback | .inCallback | .ended => false

/-- The timer was armed when the copy was made, and nothing has revoked it. -/
structure Armed (s : State) : Prop where
  revoked : s.revoked = false
  done : s.timer.done = false
  stopped : s.timer.stopped = false
  armed : timespecIsZero s.copy.1 = false

structure Inv (s : State) : Prop where
  period : ∀ p, s.pc.period = some p → p = s.copy.2
  pending : ∀ p, s.pc.period = some p → s.touched = false → s.copy = s.timer.setting ∧ Armed s
  acts : s.pc.acts = true → s.touched = false
  callback : s.pc = .callback → Armed s

variable {s s' : State}

theorem Inv.idle (hp : s.pc.period = none) (ha : s.pc.acts = false) (hc : s.pc ≠ .callback) :
    Inv s := by
  refine ⟨?_, ?_, ?_, fun h => absurd h hc⟩
  · intro p h
    rw [hp] at h
    cases h
  · intro p h
    rw [hp] at h
    cases h
  · intro h
    rw [ha] at h
    cases h

theorem Inv.fresh (hp : s.pc.period = some s.copy.2) (ht : s.touched = false)
    (hs : s.copy = s.timer.setting) (ha : Armed s) : Inv s := by
  refine ⟨?_, fun _ _ _ => ⟨hs, ha⟩, fun _ => ht, fun _ => ha⟩
  intro p h
  rw [hp] at h
  cases h
  rfl

theorem inv_loopTop (hd : s.timer.done = false) (now : Timespec) :
    Inv (loopTop s now) := by
  fun_cases loopTop s now with
  | case1 => exact .idle rfl rfl (by simp [State.copied])
  | case2 hw | case3 hw | case4 hw =>
    rw [not_or, Bool.not_eq_true, Bool.not_eq_true] at hw
    exact .fresh rfl rfl rfl ⟨rfl, hd, hw.1, hw.2⟩

theorem Inv.acting (hi : Inv s) {p : Timespec} (hp : s.pc.period = some p) (ha : s.pc.acts = true) :
    s.touched = false ∧ p = s.copy.2 ∧ s.copy = s.timer.setting ∧ Armed s := by
  have ht := hi.acts ha
  exact ⟨ht, hi.period p hp, hi.pending p hp ht⟩

theorem countOverrun_same (f : Fields) : f.countOverrun.setting = f.setting ∧
    f.countOverrun.done = f.done ∧ f.countOverrun.stopped = f.stopped := by
  fun_cases Fields.countOverrun f <;> exact ⟨rfl, rfl, rfl⟩

theorem inv_exec {now : Timespec} (hi : Inv s) (h : exec s now = some s') :
    Inv s' := by
  obtain ⟨hset, hdone, hstop⟩ := countOverrun_same s.timer
  revert h
  fun_cases exec s now with
  | case1 | case2 | case3 | case9 | case10 =>
    rintro ⟨⟩
    exact .idle rfl rfl (by simp)
  | case4 _ hd =>
    rintro ⟨⟩
    exact inv_loopTop (by simpa using hd) now
  | case5 _ _ _ hpc | case6 _ _ _ hpc =>
    rintro ⟨⟩
    obtain ⟨ht, rfl, hs, ha⟩ := hi.acting (by rw [hpc]; rfl) (by rw [hpc]; rfl)
    exact .fresh rfl ht (hs.trans hset.symm)
      ⟨ha.revoked, hdone.trans ha.done, hstop.trans ha.stopped, ha.armed⟩
  | case7 _ _ hpc =>
    rintro ⟨⟩
    obtain ⟨ht, rfl, hs, ha⟩ := hi.acting (by rw [hpc]; rfl) (by rw [hpc]; rfl)
    exact .fresh rfl ht hs ⟨ha.revoked, ha.done, ha.stopped, ha.armed⟩
  | case8 _ _ hpc =>
    rintro ⟨⟩
    obtain ⟨-, -, -, ha⟩ := hi.acting (by rw [hpc]; rfl) (by rw [hpc]; rfl)
    refine ⟨?_, ?_, ?_, fun _ => ⟨ha.revoked, ha.done, ha.stopped, ha.armed⟩⟩
    · rintro p ⟨⟩
    · rintro p ⟨⟩
    · rintro ⟨⟩
  | _ => rintro ⟨⟩

theorem Pc.timedOut_of_acts {p : Pc} (ha : p.acts = true) (hh : p.holds = false) :
    p.isTimedOut = true := by
  cases p with
  | timedOut => rfl
  | overrun | expired => cases hh
  | _ => cases ha

/-- A section under the mutex: while a timed-out wait is to lock it again, it changes nothing, and
before a callback it revokes nothing. -/
theorem inv_underLock {f : Fields} {changes revokes : Bool} (hi : Inv s)
    (hset : changes = false → f.setting = s.timer.setting ∧ revokes = false)
    (hrev : revokes = false → f.done = s.timer.done ∧ (s.timer.stopped = false → f.stopped = false))
    (hout : s.pc.isTimedOut = true → changes = false) (hcall : s.pc = .callback → revokes = false)
    (h : s.underLock f changes revokes = some s') : Inv s' := by
  unfold State.underLock at h
  rw [Option.ite_none_right_eq_some] at h
  obtain ⟨hh, h⟩ := h
  cases h
  have harmed : Armed s → revokes = false → Armed { s with
      timer := f, touched := s.touched || changes, revoked := s.revoked || revokes } := by
    intro ha hr
    obtain ⟨hd, hst⟩ := hrev hr
    exact ⟨by simp [ha.revoked, hr], hd.trans ha.done, hst ha.stopped, ha.armed⟩
  refine ⟨hi.period, ?_, ?_, ?_⟩
  · intro p hp ht
    rw [Bool.or_eq_false_iff] at ht
    obtain ⟨hs, hr⟩ := hset ht.2
    obtain ⟨hcopy, ha⟩ := hi.pending p hp ht.1
    exact ⟨hcopy.trans hs.symm, harmed ha hr⟩
  · intro ha
    rw [Bool.or_eq_false_iff]
    exact ⟨hi.acts ha, hout (Pc.timedOut_of_acts ha hh)⟩
  · intro hc
    exact harmed (hi.callback hc) (hcall hc)

/-- A call that does not get to the timer leaves it as it is; one that does changes only the
setting. -/
theorem timerSettime_fields (f : Fields) (c : SettimeCall) :
    (c.sets = none → (timerSettime f c).1 = f) ∧
      (timerSettime f c).1.done = f.done ∧ (timerSettime f c).1.stopped = f.stopped := by
  unfold timerSettime SettimeCall.sets
  cases c.spec with
  | none => exact ⟨fun _ => rfl, rfl, rfl⟩
  | some spec =>
    cases c.wrapped with
    | false => exact ⟨fun _ => rfl, rfl, rfl⟩
    | true =>
      cases c.found with
      | false => exact ⟨fun _ => rfl, rfl, rfl⟩
      | true => exact ⟨by simp, rfl, rfl⟩

theorem inv_step {a : Act} (hi : Inv s) (hg : Undisturbed s a) (h : step s a = some s') :
    Inv s' := by
  revert h
  fun_cases step s a with
  | case1 => exact inv_exec hi
  | case2 | case3 =>
    rintro ⟨⟩
    exact .idle rfl rfl (by simp)
  | case5 e p hpc =>
    rintro ⟨⟩
    have hp : s.pc.period = some p := by rw [hpc]; rfl
    obtain ⟨hs, ha⟩ := hi.pending p hp hg
    have hpc : p = s.copy.2 := hi.period p hp
    exact .fresh (by rw [← hpc]; rfl) hg hs ⟨ha.revoked, ha.done, ha.stopped, ha.armed⟩
  | case7 c =>
    obtain ⟨hf, hd, hst⟩ := timerSettime_fields s.timer c
    refine inv_underLock hi ?_ ?_ ?_ hg.2
    · intro hc
      rw [Option.isSome_eq_false_iff, Option.isNone_iff_eq_none] at hc
      exact ⟨by rw [hf hc], by rw [SettimeCall.disarms, hc]⟩
    · exact fun _ => ⟨hd, fun hs => hst.trans hs⟩
    · intro ht
      rw [hg.1 ht]
      rfl
  | case8 =>
    refine inv_underLock hi (by simp) (by simp) ?_ (fun hc => absurd hc hg.2)
    intro ht
    rw [hg.1] at ht
    cases ht
  | case9 stop =>
    cases stop with
    | false =>
      have hkeep : Fields.setting { s.timer with stopped := false } = s.timer.setting := rfl
      exact inv_underLock hi (fun _ => ⟨hkeep, rfl⟩) (fun _ => ⟨rfl, fun _ => rfl⟩)
        (fun _ => rfl) (fun _ => rfl)
    | true =>
      obtain ⟨ht, hc⟩ := hg rfl
      refine inv_underLock hi (by simp) (by simp) ?_ (fun h => absurd h hc)
      intro ht'
      rw [ht] at ht'
      cases ht'
  | _ => rintro ⟨⟩

theorem inv_reachable (h : machine.ReachableIf Undisturbed s) : Inv s := by
  refine h.invariant ?_ fun s a s' hi hg hs => inv_step hi hg hs
  intro s h0
  cases h0
  exact .idle rfl rfl (by simp [newTimer])

/-! ## Settings -/

/-- The thread is about to act on an expiration of exactly the stored setting. -/
def State.Expires (s : State) : Prop :=
  s.copy = s.timer.setting ∧ ∃ expires, s.pc = .expired expires s.timer.period

theorem loopTop_setting (s : State) (now : Timespec) :
    (loopTop s now).timer.setting = s.timer.setting := by
  fun_cases loopTop s now <;> rfl

theorem setting_written {a : Act} (h : step s a = some s')
    (hne : s'.timer.setting ≠ s.timer.setting) :
    (∃ c, a = .settime c) ∨ ∃ e p, s.pc = .expired e p := by
  revert h
  fun_cases step s a with
  | case1 now =>
    fun_cases exec s now with
    | case4 =>
      rintro ⟨⟩
      exact absurd (loopTop_setting s now) hne
    | case5 | case6 =>
      rintro ⟨⟩
      exact absurd (countOverrun_same s.timer).1 hne
    | case8 e p hpc => exact fun _ => .inr ⟨e, p, hpc⟩
    | case11 | case12 | case13 => rintro ⟨⟩
    | _ =>
      rintro ⟨⟩
      exact absurd rfl hne
  | case7 c => exact fun _ => .inl ⟨c, rfl⟩
  | case8 | case9 =>
    intro h
    obtain ⟨-, h⟩ := Option.ite_none_right_eq_some.1 h
    cases h
    exact absurd rfl hne
  | case2 | case3 | case5 =>
    rintro ⟨⟩
    exact absurd rfl hne
  | _ => rintro ⟨⟩

/-- **The settings of a timer.**  Only `timer_settime` and an expiry change them, and a callback
starts only for a timer that is still armed. -/
theorem settings_kept {s : State} (h : machine.ReachableIf Undisturbed s) :
    (∀ a s', step s a = some s' → s'.timer.setting ≠ s.timer.setting →
      (∃ c, a = .settime c) ∨ s.Expires) ∧
    (s.pc = .callback → Armed s) := by
  have hi := inv_reachable h
  refine ⟨?_, hi.callback⟩
  intro a s' hs hne
  rcases setting_written hs hne with hc | ⟨e, p, hpc⟩
  · exact .inl hc
  · obtain ⟨-, hp, hcopy, -⟩ := hi.acting (by rw [hpc]; rfl) (by rw [hpc]; rfl)
    refine .inr ⟨hcopy, e, ?_⟩
    rw [hpc, hp, hcopy]
    rfl

/-- A call of `timer_settime` that gets to the timer, for the relative time `value`. -/
def SettimeCall.relative (value interval now : Timespec) : SettimeCall where
  spec := some { interval, value }
  wrapped := true
  found := true
  abstime := false
  wantsOld := false
  nowOld := now
  now := now

/-- A periodic timer expires; its callback is about to start. -/
theorem settings_kept_expiring :
    ∃ s, machine.ReachableIf Undisturbed s ∧ s.pc = .callback ∧ s.timer.expires = ⟨30, 0⟩ ∧
      Armed s := by
  obtain ⟨s, hs, hpc, he⟩ : ∃ s, machine.runIf Undisturbed newTimer
      [.settime (.relative ⟨10, 0⟩ ⟨10, 0⟩ ⟨10, 0⟩), .exec ⟨10, 0⟩, .exec ⟨10, 0⟩, .timeout,
        .exec ⟨20, 0⟩, .exec ⟨20, 0⟩] = some s ∧ s.pc = .callback ∧ s.timer.expires = ⟨30, 0⟩ :=
    ⟨_, rfl, rfl, rfl⟩
  have hr := (Machine.ReachableIf.init rfl).runIf _ hs
  exact ⟨s, hr, hpc, he, (settings_kept hr).2 hpc⟩

/-- A periodic timer is disarmed while its thread waits; the wait times out all the same.  The
thread arms the timer again and goes on to its callback. -/
theorem disarm_overwritten :
    ∃ s s', machine.Reachable s ∧ s.timer.setting = (timespecZero, timespecZero) ∧ ¬ s.Expires ∧
      step s (.exec ⟨20, 0⟩) = some s' ∧ s'.timer.expires = ⟨30, 0⟩ ∧ s'.pc = .callback ∧
      s'.revoked = true := by
  obtain ⟨s, hs, hset, hcopy, s', hs', he, hpc, hrev⟩ : ∃ s, machine.run newTimer
      [.settime (.relative ⟨10, 0⟩ ⟨10, 0⟩ ⟨10, 0⟩), .exec ⟨10, 0⟩, .exec ⟨10, 0⟩,
        .settime (.relative ⟨0, 0⟩ ⟨0, 0⟩ ⟨20, 0⟩), .timeout, .exec ⟨20, 0⟩] = some s ∧
      s.timer.setting = (timespecZero, timespecZero) ∧ s.copy = (⟨20, 0⟩, ⟨10, 0⟩) ∧
      ∃ s', step s (.exec ⟨20, 0⟩) = some s' ∧ s'.timer.expires = ⟨30, 0⟩ ∧ s'.pc = .callback ∧
        s'.revoked = true := ⟨_, rfl, rfl, rfl, _, rfl, rfl, rfl, rfl⟩
  refine ⟨s, s', Machine.Reachable.run (.init rfl) _ hs, hset, ?_, hs', he, hpc, hrev⟩
  rintro ⟨heq, -⟩
  rw [hcopy, hset] at heq
  exact absurd heq (by decide)

-- the other window: a deletion is complete before the callback of the expiration starts
example : ∃ s, machine.run newTimer
    [.settime (.relative ⟨10, 0⟩ ⟨10, 0⟩ ⟨10, 0⟩), .exec ⟨10, 0⟩, .exec ⟨10, 0⟩, .timeout,
      .exec ⟨20, 0⟩, .exec ⟨20, 0⟩, .delete, .exec ⟨20, 0⟩] = some s ∧
    s.pc = .inCallback ∧ s.timer.done = true := ⟨_, rfl, rfl, rfl⟩

end Pthread.Timer
