import GitTest.Lib.Transition
import GitTest.Lib.Futex
import GitTest.Pthread.Word
import GitTest.Pthread.Timespec

/-!
# Condition variables (libc/bionic/pthread.c)

`pthread_cond_wait`, `pthread_cond_timedwait`, `pthread_cond_signal` and
`pthread_cond_broadcast` on one condition variable and one mutex, run by the threads of any
type `T`.  The word has a shared flag in bit 0 and a counter above it that every pulse (a signal
or a broadcast) decrements; a waiter reads the word, releases the mutex and sleeps only if the
word is still the one it read.  The mutex is its owner: a caller of a wait holds it, and the
last step of a wait takes it again.

Ghosts: `pulses` counts the value updates, so that update `i` is the one made at `pulses = i`;
`snap` and `since` are the number of updates before a waiter's read and before its release of the
mutex; `finished i` says that the pulse of update `i` has made its wake, and `ended i` that a
waiter that had released the mutex before update `i` has come out of its futex wait since.

    ReachableIf FewPulses s → a finished broadcast leaves no earlier waiter asleep or about to
      sleep; a finished signal whose wake passed over no earlier waiter for a later one let an
      earlier waiter go on; no step changes the shared bit  (cond_pulses)
-/

namespace Pthread.Cond

open BitField Function Futex List Machines Option

/-! ## Algorithm -/

def condSharedMask : Word := 0x0001
def condCounterIncrement : Word := 0x0002
def condCounterMask : Word := ~~~condSharedMask

def condIsShared (value : Word) : Bool := decide (value &&& condSharedMask ≠ 0)

/-- The word stored by `pthread_cond_init`; `processShared` is `attr != NULL && *attr ==
PTHREAD_PROCESS_SHARED`. -/
def pthreadCondInit (processShared : Bool) : Word :=
  if processShared then 0 ||| condSharedMask else 0

/-- The callers of `__pthread_cond_pulse`, for one thread or for `INT_MAX`. -/
inductive Pulse
  | signal
  | broadcast
  deriving DecidableEq, Repr

/-- A thread's next step; `timed` says that the wait has a time. -/
inductive Pc
  | idle
  /-- A wait has returned `ETIMEDOUT` or 0. -/
  | returned (timedout : Bool)
  /-- `__timespec_to_absolute(&ts, abstime, clock) < 0` -/
  | clock (abs : Timespec)
  /-- `oldvalue = cond->value` -/
  | snapshot (timed : Bool)
  /-- `pthread_mutex_unlock(mutex)` -/
  | release (timed : Bool) (old : Word)
  /-- `COND_IS_SHARED(cond)`, the argument of the futex wait -/
  | waitShared (timed : Bool) (old : Word)
  /-- `__futex_wait_ex(&cond->value, .., oldvalue, reltime)` -/
  | futexWait (timed : Bool) (old : Word) (shared : Bool)
  /-- In the kernel: asleep while it has a queue entry, about to return 0 when it has none. -/
  | blocked (timed : Bool) (old : Word) (shared : Bool)
  /-- `pthread_mutex_lock(mutex)` -/
  | relock (timedout : Bool)
  /-- `flags = (cond->value & ~COND_COUNTER_MASK)` -/
  | pulseFlags (k : Pulse)
  /-- `oldval = cond->value` -/
  | pulseRead (k : Pulse) (flags : Word)
  /-- `__atomic_cmpxchg(oldval, newval, &cond->value)` -/
  | pulseSwap (k : Pulse) (flags oldval newval : Word)
  /-- `COND_IS_SHARED(cond)`, the argument of the futex wake of update `i` -/
  | pulseShared (k : Pulse) (i : Nat)
  /-- `__futex_wake_ex(&cond->value, .., counter)` -/
  | pulseWake (k : Pulse) (i : Nat) (shared : Bool)
  deriving DecidableEq, Repr

/-- How a pulse ended: which one it was, and whether its wake took no thread that had released the
mutex after the update while one from before it was asleep. -/
structure Done where
  pulse : Pulse
  earlier : Bool
  deriving DecidableEq, Repr

structure State (T : Type) where
  value : Word
  queue : Queue T
  owner : Option T
  pc : T → Pc
  pulses : Nat
  snap : T → Nat
  since : T → Nat
  finished : Nat → Option Done
  ended : Nat → Bool

inductive Act (T : Type)
  /-- A thread outside the functions locks or unlocks the mutex. -/
  | lock (t : T)
  | unlock (t : T)
  /-- The owner of the mutex calls `pthread_cond_wait` (no time) or `pthread_cond_timedwait`. -/
  | wait (t : T) (abs : Option Timespec)
  | pulse (t : T) (k : Pulse)
  | clock (t : T) (now : Timespec)
  | exec (t : T)
  | futexWait (t : T)
  /-- A sleeper leaves the queue by itself: a timeout, a signal or spuriously. -/
  | giveUp (t : T) (timedout : Bool)
  | resume (t : T)
  | futexWake (t : T) (woken : Option T)

def Pc.outside : Pc → Bool
  | .idle | .returned _ => true
  | .clock _ | .snapshot _ | .release _ _ | .waitShared _ _ | .futexWait _ _ _ | .blocked _ _ _
  | .relock _ | .pulseFlags _ | .pulseRead _ _ | .pulseSwap _ _ _ _ | .pulseShared _ _
  | .pulseWake _ _ _ => false

def pulsed (oldval flags : Word) : Word :=
  ((oldval - condCounterIncrement) &&& condCounterMask) ||| flags

section
variable {T : Type} [DecidableEq T]

def State.goto (s : State T) (t : T) (p : Pc) : State T :=
  { s with pc := Function.update s.pc t p }

def State.endWait (s : State T) (t : T) (timedout : Bool) : State T :=
  { s.goto t (.relock timedout) with
    ended := fun i => s.ended i || decide (s.since t ≤ i ∧ i < s.pulses) }

def exec (s : State T) (t : T) : Option (State T) :=
  match s.pc t with
  | .snapshot timed =>
    some { s.goto t (.release timed s.value) with snap := Function.update s.snap t s.pulses }
  | .release timed old =>
    some { s.goto t (.waitShared timed old) with
      owner := none
      since := Function.update s.since t s.pulses }
  | .waitShared timed old => some (s.goto t (.futexWait timed old (condIsShared s.value)))
  | .relock timedout =>
    if s.owner = none then some { s.goto t (.returned timedout) with owner := some t } else none
  | .pulseFlags k => some (s.goto t (.pulseRead k (s.value &&& ~~~condCounterMask)))
  | .pulseRead k flags => some (s.goto t (.pulseSwap k flags s.value (pulsed s.value flags)))
  | .pulseSwap k flags oldval newval =>
    let r := atomicCmpxchg oldval newval s.value
    if r.2 = 0 then
      some { s.goto t (.pulseShared k s.pulses) with value := r.1, pulses := s.pulses + 1 }
    else some (s.goto t (.pulseRead k flags))
  | .pulseShared k i => some (s.goto t (.pulseWake k i (condIsShared s.value)))
  | .idle | .returned _ | .clock _ | .futexWait _ _ _ | .blocked _ _ _ | .pulseWake _ _ _ => none

/-- The wake of update `i` takes a waiter from before it, or there is none asleep. -/
def State.takesEarlier (s : State T) (i : Nat) (woken : Option T) : Bool :=
  woken.all (fun u => decide (s.since u ≤ i)) || s.queue.all fun e => decide (i < s.since e.1)

/-- The wake of update `i` by `t` leaves the queue `q`. -/
def State.wakeDone (s : State T) (t : T) (i : Nat) (d : Done) (q : Queue T) : State T :=
  { s.goto t .idle with queue := q, finished := Function.update s.finished i (some d) }

def step (s : State T) : Act T → Option (State T)
  | .lock t =>
    if (s.pc t).outside = true ∧ s.owner = none then some { s with owner := some t } else none
  | .unlock t =>
    if (s.pc t).outside = true ∧ s.owner = some t then some { s with owner := none } else none
  | .wait t abs =>
    if (s.pc t).outside = true ∧ s.owner = some t then
      match abs with
      | none => some (s.goto t (.snapshot false))
      | some ts => some (s.goto t (.clock ts))
    else none
  | .pulse t k => if (s.pc t).outside = true then some (s.goto t (.pulseFlags k)) else none
  | .clock t now =>
    match s.pc t with
    | .clock abs =>
      match timespecToAbsolute abs now with
      | none => some (s.goto t (.returned true))
      | some _ => some (s.goto t (.snapshot true))
    | _ => none
  | .exec t => exec s t
  | .futexWait t =>
    match s.pc t with
    | .futexWait timed old shared =>
      if s.value = old then
        some { s.goto t (.blocked timed old shared) with queue := sleep s.queue t shared }
      else some (s.endWait t false)
    | _ => none
  | .giveUp t timedout =>
    match s.pc t with
    | .blocked timed _ _ =>
      if asleep s.queue t ∧ (timedout = true → timed = true) then
        some { s.endWait t timedout with queue := leave s.queue t }
      else none
    | _ => none
  | .resume t =>
    match s.pc t with
    | .blocked _ _ _ => if asleep s.queue t then none else some (s.endWait t false)
    | _ => none
  | .futexWake t woken =>
    match s.pc t with
    | .pulseWake .signal i shared =>
      (wakeOne s.queue shared woken).map
        (s.wakeDone t i ⟨.signal, s.takesEarlier i woken⟩)
    | .pulseWake .broadcast i shared =>
      some (s.wakeDone t i ⟨.broadcast, true⟩ (wakeAll s.queue shared))
    | _ => none

/-- Any number of idle threads, a free or held mutex and a condition variable as
`pthread_cond_init` leaves it. -/
def init (s : State T) : Prop :=
  (∃ ps, s.value = pthreadCondInit ps) ∧ s.queue = [] ∧ (∀ t, s.pc t = .idle) ∧ s.pulses = 0 ∧
    (∀ i, s.finished i = none) ∧ ∀ i, s.ended i = false

def machine : Machine (State T) (Act T) := ⟨init, step⟩

/-- Fewer than 2^31 updates between a waiter's read and its futex wait. -/
def FewPulses (s : State T) : Act T → Prop
  | .futexWait t => s.pulses - s.snap t < 2 ^ 31
  | .lock _ | .unlock _ | .wait _ _ | .pulse _ _ | .clock _ _ | .exec _ | .giveUp _ _ | .resume _
  | .futexWake _ _ => True

instance (s : State T) : (a : Act T) → Decidable (FewPulses s a)
  | .futexWait t => inferInstanceAs (Decidable (s.pulses - s.snap t < 2 ^ 31))
  | .lock _ | .unlock _ | .wait _ _ | .pulse _ _ | .clock _ _ | .exec _ | .giveUp _ _ | .resume _
  | .futexWake _ _ => inferInstanceAs (Decidable True)

end

/-! ## The word after `n` updates -/

def IsFlag (sh : Word) : Prop := sh = 0 ∨ sh = condSharedMask

theorem IsFlag.toNat_lt {sh : Word} (h : IsFlag sh) : sh.toNat < 2 := by
  rcases h with rfl | rfl <;> decide

/-- The counter has gone down `n` times. -/
def valueAfter (sh : Word) (n : Nat) : Word := tagged sh (-n)

section
variable {sh : Word} (h : IsFlag sh)
include h

theorem valueAfter_flags (n : Nat) : valueAfter sh n &&& ~~~condCounterMask = sh :=
  tagged_and_one h.toNat_lt _

theorem condIsShared_valueAfter (n : Nat) :
    condIsShared (valueAfter sh n) = condIsShared sh := by
  have h1 : valueAfter sh n &&& condSharedMask = sh := tagged_and_one h.toNat_lt _
  have h2 : sh &&& condSharedMask = sh := by rcases h with rfl | rfl <;> decide
  unfold condIsShared
  rw [h1, h2]

theorem pulsed_valueAfter (n : Nat) : pulsed (valueAfter sh n) sh = valueAfter sh (n + 1) := by
  have hsub : (valueAfter sh n - condCounterIncrement) &&& condCounterMask = tagged 0 (-n - 1) :=
    tagged_sub_two h.toNat_lt _
  unfold pulsed
  rw [hsub, tagged_zero_or h.toNat_lt]
  congr 1
  omega

theorem valueAfter_inj_iff (m n : Nat) :
    valueAfter sh m = valueAfter sh n ↔ m % 2147483648 = n % 2147483648 := by
  unfold valueAfter
  rw [tagged_inj_iff h.toNat_lt]
  omega

/-- A word met again after fewer than 2^31 updates was met without any. -/
theorem eq_of_valueAfter {m n : Nat} (hle : m ≤ n) (hlt : n - m < 2 ^ 31)
    (he : valueAfter sh n = valueAfter sh m) : n = m := by
  rw [valueAfter_inj_iff h] at he
  omega

end

/-! ## The invariant -/

/-- The waiter has released the mutex and not yet come out of its futex wait. -/
def Pc.released : Pc → Bool
  | .waitShared _ _ | .futexWait _ _ _ | .blocked _ _ _ => true
  | .idle | .returned _ | .clock _ | .snapshot _ | .release _ _ | .relock _ | .pulseFlags _
  | .pulseRead _ _ | .pulseSwap _ _ _ _ | .pulseShared _ _ | .pulseWake _ _ _ => false

def Pc.inKernel : Pc → Bool
  | .blocked _ _ _ => true
  | .idle | .returned _ | .clock _ | .snapshot _ | .release _ _ | .waitShared _ _
  | .futexWait _ _ _ | .relock _ | .pulseFlags _ | .pulseRead _ _ | .pulseSwap _ _ _ _
  | .pulseShared _ _ | .pulseWake _ _ _ => false

theorem Pc.released_of_inKernel {p : Pc} (h : p.inKernel = true) : p.released = true := by
  cases p with
  | blocked => rfl
  | _ => cases h

theorem Pc.inKernel_of_released {p : Pc} (h : p.released = false) : p.inKernel = false := by
  cases p with
  | blocked => cases h
  | _ => rfl

/-- What a thread's locals say when there have been `n` updates, the thread having read the word
after `snap` of them and released the mutex after `since`. -/
def Pc.Knows (sh : Word) (n snap since : Nat) : Pc → Prop
  | .release _ old => old = valueAfter sh snap ∧ snap ≤ n
  | .waitShared _ old => old = valueAfter sh snap ∧ snap ≤ since ∧ since ≤ n
  | .futexWait _ old b | .blocked _ old b =>
    (old = valueAfter sh snap ∧ snap ≤ since ∧ since ≤ n) ∧ b = condIsShared sh
  | .pulseRead _ flags => flags = sh
  | .pulseSwap _ flags oldval newval =>
    flags = sh ∧ ∃ m, oldval = valueAfter sh m ∧ newval = valueAfter sh (m + 1)
  | .pulseShared _ i => i < n
  | .pulseWake _ i b => i < n ∧ b = condIsShared sh
  | .idle | .returned _ | .clock _ | .snapshot _ | .relock _ | .pulseFlags _ => True

theorem Pc.Knows.mono {sh : Word} {n n' snap since : Nat} {p : Pc} (h : p.Knows sh n snap since)
    (hle : n ≤ n') : p.Knows sh n' snap since := by
  cases p with
  | release timed old => exact ⟨h.1, Nat.le_trans h.2 hle⟩
  | waitShared timed old => exact ⟨h.1, h.2.1, Nat.le_trans h.2.2 hle⟩
  | futexWait timed old b | blocked timed old b =>
    exact ⟨⟨h.1.1, h.1.2.1, Nat.le_trans h.1.2.2 hle⟩, h.2⟩
  | pulseShared k i => exact Nat.lt_of_lt_of_le h hle
  | pulseWake k i b => exact ⟨Nat.lt_of_lt_of_le h.1 hle, h.2⟩
  | pulseRead | pulseSwap => exact h
  | _ => exact trivial

section
variable {T : Type}

/-- What a step can do; those on the word and the mutex are in `exec`. -/
inductive Effect [DecidableEq T] (s : State T) : Act T → State T → Prop
  | owner (a : Act T) (o : Option T) : Effect s a { s with owner := o }
  /-- A call starts, or goes on from its look at the clock; the new place has no locals. -/
  | call (a : Act T) (t : T) (p : Pc) (hr : (s.pc t).released = false)
    (hk : ∀ sh n snap since, p.Knows sh n snap since) : Effect s a (s.goto t p)
  | exec (t : T) (s' : State T) (h : exec s t = some s') : Effect s (.exec t) s'
  | sleep (t : T) (timed : Bool) (old : Word) (shared : Bool)
    (hp : s.pc t = .futexWait timed old shared) (he : s.value = old) :
    Effect s (.futexWait t)
      { s.goto t (.blocked timed old shared) with queue := sleep s.queue t shared }
  | skip (t : T) (timed : Bool) (old : Word) (shared : Bool)
    (hp : s.pc t = .futexWait timed old shared) : Effect s (.futexWait t) (s.endWait t false)
  | giveUp (t : T) (timedout : Bool) :
    Effect s (.giveUp t timedout) { s.endWait t timedout with queue := leave s.queue t }
  | resume (t : T) (hq : ¬ asleep s.queue t) : Effect s (.resume t) (s.endWait t false)
  | signal (t : T) (woken : Option T) (i : Nat) (shared : Bool) (q : Queue T)
    (hp : s.pc t = .pulseWake .signal i shared) (hw : wakeOne s.queue shared woken = some q) :
    Effect s (.futexWake t woken)
      (s.wakeDone t i ⟨.signal, s.takesEarlier i woken⟩ q)
  | broadcast (t : T) (woken : Option T) (i : Nat) (shared : Bool)
    (hp : s.pc t = .pulseWake .broadcast i shared) :
    Effect s (.futexWake t woken)
      (s.wakeDone t i ⟨.broadcast, true⟩ (wakeAll s.queue shared))

variable {p : Pc} {s s' : State T} {a : Act T} {sh old : Word} {t : T} {timed shared : Bool}
  {i : Nat} {q : Queue T}

theorem Pc.released_of_outside (h : p.outside = true) : p.released = false := by
  cases p with
  | idle | returned => rfl
  | _ => cases h

theorem step_cases [DecidableEq T] (h : step s a = some s') :
    Effect s a s' := by
  revert h
  fun_cases step s a with
  | case1 | case3 =>
    rintro ⟨⟩
    exact .owner _ _
  | case5 t ho | case6 t ho =>
    rintro ⟨⟩
    exact .call _ t _ (Pc.released_of_outside ho.1) fun _ _ _ _ => trivial
  | case8 t k ho =>
    rintro ⟨⟩
    exact .call _ t _ (Pc.released_of_outside ho) fun _ _ _ _ => trivial
  | case10 t now abs hp | case11 t now abs hp =>
    rintro ⟨⟩
    exact .call _ t _ (by rw [hp]; rfl) fun _ _ _ _ => trivial
  | case13 t => exact .exec t s'
  | case14 t timed shared hp =>
    rintro ⟨⟩
    exact .sleep t timed _ shared hp rfl
  | case15 t timed old shared hp =>
    rintro ⟨⟩
    exact .skip t timed old shared hp
  | case17 t timedout =>
    rintro ⟨⟩
    exact .giveUp t timedout
  | case21 t _ _ _ _ hq =>
    rintro ⟨⟩
    exact .resume t hq
  | case23 t woken i shared hp =>
    intro h
    obtain ⟨q, hw, rfl⟩ := map_eq_some_iff.1 h
    exact .signal t woken i shared q hp hw
  | case24 t woken i shared hp =>
    rintro ⟨⟩
    exact .broadcast t woken i shared hp
  | _ => rintro ⟨⟩

structure Inv (sh : Word) (s : State T) : Prop where
  flag : IsFlag sh
  word : s.value = valueAfter sh s.pulses
  knows : ∀ t, (s.pc t).Knows sh s.pulses (s.snap t) (s.since t)
  queued : ∀ t ps, (t, ps) ∈ s.queue → (s.pc t).inKernel = true ∧ ps = condIsShared sh
  /-- A broadcast that is done left nobody asleep who had released the mutex before. -/
  swept : ∀ t i d, asleep s.queue t → s.since t ≤ i → s.finished i = some d →
    d.pulse ≠ .broadcast
  future : ∀ i, s.pulses ≤ i → s.finished i = none

theorem Inv.notQueued (hi : Inv sh s) (hk : (s.pc t).inKernel = false) : ¬ asleep s.queue t := by
  rintro ⟨ps, hm⟩
  rw [(hi.queued t ps hm).1] at hk
  cases hk

theorem inv_init (h : init s) : ∃ sh, Inv sh s := by
  obtain ⟨⟨ps, hv⟩, hq, hpc, hn, hf, -⟩ := h
  have hno : ∀ t, ¬ asleep s.queue t := by
    rintro t ⟨ps, hm⟩
    rw [hq] at hm
    cases hm
  refine ⟨pthreadCondInit ps, ?_, ?_, ?_, ?_, fun t _ _ ht => absurd ht (hno t), fun i _ => hf i⟩
  · unfold pthreadCondInit
    split
    · exact .inr rfl
    · exact .inl rfl
  · rw [hv, hn]
    cases ps <;> decide
  · intro t
    rw [hpc t]
    exact trivial
  · intro t ps hm
    exact absurd ⟨ps, hm⟩ (hno t)

variable [DecidableEq T]

section
variable (hi : Inv sh s)
include hi

/-- The invariant after a step of `t` that may take entries out of the queue, `t` not being asleep
after it. -/
theorem Inv.shrink (t : T) (hpc : s'.pc = update s.pc t p) (hv : s'.value = s.value)
    (hn : s'.pulses = s.pulses) (hsnap : ∀ u, u ≠ t → s'.snap u = s.snap u)
    (hsince : ∀ u, u ≠ t → s'.since u = s.since u)
    (hk : p.Knows sh s.pulses (s'.snap t) (s'.since t)) (hq : s'.queue.Sublist s.queue)
    (ht : ¬ asleep s'.queue t) (hfut : ∀ i, s.pulses ≤ i → s'.finished i = none)
    (hsw : ∀ u i d, asleep s'.queue u → s.since u ≤ i → s'.finished i = some d →
      d.pulse ≠ .broadcast) : Inv sh s' := by
  have hne : ∀ u ps, (u, ps) ∈ s'.queue → u ≠ t := by
    rintro u ps hm rfl
    exact ht ⟨ps, hm⟩
  refine ⟨hi.flag, by rw [hv, hn, hi.word], ?_, ?_, ?_, by rwa [hn]⟩
  · intro u
    rw [hpc, hn]
    by_cases hu : u = t
    · subst hu
      rwa [update_self]
    · rw [update_of_ne hu, hsnap u hu, hsince u hu]
      exact hi.knows u
  · intro u ps hm
    rw [hpc, update_of_ne (hne u ps hm)]
    exact hi.queued u ps (hq.subset hm)
  · rintro u i d ⟨ps, hm⟩ hle
    rw [hsince u (hne u ps hm)] at hle
    exact hsw u i d ⟨ps, hm⟩ hle

/-- `Inv.shrink` for a step that leaves the queue and the ends of the pulses alone. -/
theorem Inv.quiet (t : T) (ht : ¬ asleep s.queue t) (hpc : s'.pc = update s.pc t p)
    (hv : s'.value = s.value) (hq : s'.queue = s.queue) (hn : s'.pulses = s.pulses)
    (hf : s'.finished = s.finished) (hsnap : ∀ u, u ≠ t → s'.snap u = s.snap u)
    (hsince : ∀ u, u ≠ t → s'.since u = s.since u)
    (hk : p.Knows sh s.pulses (s'.snap t) (s'.since t)) : Inv sh s' := by
  refine hi.shrink t hpc hv hn hsnap hsince hk (hq ▸ List.Sublist.refl _) (by rwa [hq]) ?_ ?_
  · rw [hf]
    exact hi.future
  · rw [hq, hf]
    exact hi.swept

/-! ## Every step keeps the invariant -/

theorem Inv.goto (hr : (s.pc t).inKernel = false)
    (hk : p.Knows sh s.pulses (s.snap t) (s.since t)) :
    Inv sh (s.goto t p) :=
  hi.quiet t (hi.notQueued hr) rfl rfl rfl rfl rfl (fun _ _ => rfl) (fun _ _ => rfl) hk

theorem inv_update {k : Pulse} {m : Nat} (hr : (s.pc t).inKernel = false)
    (he : s.value = valueAfter sh m) :
    Inv sh { s.goto t (.pulseShared k s.pulses) with
      value := valueAfter sh (m + 1)
      pulses := s.pulses + 1 } := by
  refine ⟨hi.flag, ?_, ?_, ?_, hi.swept, fun i hle => hi.future i ?_⟩
  · -- the word read may be one of 2^31 updates ago
    rw [hi.word, valueAfter_inj_iff hi.flag] at he
    rw [valueAfter_inj_iff hi.flag]
    dsimp only
    omega
  · intro u
    by_cases hu : u = t
    · subst hu
      simp [State.goto, Pc.Knows]
    · simpa [State.goto, hu] using (hi.knows u).mono (Nat.le_succ _)
  · intro u ps hm
    have hu : u ≠ t := ne_of_not_asleep (hi.notQueued hr) hm
    simpa [State.goto, hu] using hi.queued u ps hm
  · dsimp only at hle
    omega

theorem inv_exec (t : T) (h : exec s t = some s') : Inv sh s' := by
  have hk := hi.knows t
  unfold exec at h
  generalize hp : s.pc t = q at h hk ⊢
  cases q with
  | idle | returned | clock | futexWait | blocked | pulseWake =>
    cases h
  | snapshot timed =>
    cases h
    refine hi.quiet t (hi.notQueued (by rw [hp]; rfl)) rfl rfl rfl rfl rfl
      (fun u hu => update_of_ne hu _ _) (fun _ _ => rfl) ⟨?_, ?_⟩
    · simpa using hi.word
    · simp
  | release timed old =>
    cases h
    refine hi.quiet t (hi.notQueued (by rw [hp]; rfl)) rfl rfl rfl rfl rfl (fun _ _ => rfl)
      (fun u hu => update_of_ne hu _ _) ⟨hk.1, ?_⟩
    simpa [State.goto] using hk.2
  | waitShared | pulseShared =>
    cases h
    refine hi.goto (by rw [hp]; rfl) ⟨hk, ?_⟩
    rw [hi.word, condIsShared_valueAfter hi.flag]
  | relock timedout =>
    dsimp only at h
    split at h
    · cases h
      exact hi.quiet t (hi.notQueued (by rw [hp]; rfl)) rfl rfl rfl rfl rfl (fun _ _ => rfl)
        (fun _ _ => rfl) trivial
    · cases h
  | pulseFlags k =>
    cases h
    refine hi.goto (by rw [hp]; rfl) ?_
    change _ = sh
    rw [hi.word, valueAfter_flags hi.flag]
  | pulseRead k flags =>
    subst hk
    cases h
    refine hi.goto (by rw [hp]; rfl) ⟨rfl, s.pulses, hi.word, ?_⟩
    rw [hi.word, pulsed_valueAfter hi.flag]
  | pulseSwap k flags oldval newval =>
    obtain ⟨rfl, m, rfl, rfl⟩ := hk
    simp only [atomicCmpxchg] at h
    by_cases he : s.value = valueAfter flags m
    · simp only [he, if_true, Option.some.injEq] at h
      subst h
      exact inv_update hi (by rw [hp]; rfl) he
    · simp only [he, if_false, show ¬ (1 : Word) = 0 by decide, Option.some.injEq] at h
      subst h
      exact hi.goto (by rw [hp]; rfl) rfl

theorem Inv.endWait (t : T) (timedout : Bool) (ht : ¬ asleep s.queue t) :
    Inv sh (s.endWait t timedout) :=
  hi.quiet t ht rfl rfl rfl rfl rfl (fun _ _ => rfl) (fun _ _ => rfl) trivial

omit [DecidableEq T] in
/-- A thread that goes to sleep in time has released the mutex after the last update. -/
theorem Inv.since_of_match {b : Bool} (hp : s.pc t = .futexWait timed old b)
    (hfew : FewPulses s (.futexWait t)) (he : s.value = old) : s.since t = s.pulses := by
  have hk := hi.knows t
  rw [hp] at hk
  obtain ⟨⟨hold, hle, hn⟩, -⟩ := hk
  rw [hi.word, hold] at he
  have := eq_of_valueAfter hi.flag (Nat.le_trans hle hn) hfew he
  omega

theorem inv_sleep (hp : s.pc t = .futexWait timed old shared) (hfew : FewPulses s (.futexWait t))
    (he : s.value = old) :
    Inv sh { s.goto t (.blocked timed old shared) with queue := sleep s.queue t shared } := by
  have hk := hi.knows t
  rw [hp] at hk
  have ht := hi.notQueued (by rw [hp]; rfl)
  have hsince := hi.since_of_match hp hfew he
  have hasleep : ∀ u, asleep (sleep s.queue t shared) u → u = t ∨ asleep s.queue u := by
    rintro u ⟨ps, hm⟩
    rcases mem_cons.mp hm with he | hm'
    · cases he
      exact .inl rfl
    · exact .inr ⟨ps, hm'⟩
  refine ⟨hi.flag, hi.word, ?_, ?_, ?_, hi.future⟩
  · intro u
    by_cases hu : u = t
    · subst hu
      change Pc.Knows sh _ _ _ (update s.pc u _ u)
      rw [update_self]
      exact hk
    · simpa [State.goto, hu] using hi.knows u
  · intro u ps hm
    rcases mem_cons.mp hm with he | hm'
    · cases he
      exact ⟨by simp [State.goto, Pc.inKernel], hk.2⟩
    · have hu : u ≠ t := ne_of_not_asleep ht hm'
      simpa [State.goto, hu] using hi.queued u ps hm'
  · intro u i d hu hle hd
    rcases hasleep u hu with rfl | hu
    · -- no update since, so no later pulse is done
      change s.since u ≤ i at hle
      change s.finished i = some d at hd
      rw [hi.future i (by omega)] at hd
      cases hd
    · exact hi.swept u i d hu hle hd

theorem inv_giveUp (t : T) (timedout : Bool) :
    Inv sh { s.endWait t timedout with queue := leave s.queue t } := by
  refine hi.shrink t rfl rfl rfl (fun _ _ => rfl) (fun _ _ => rfl) trivial
    filter_sublist ?_ hi.future ?_
  · intro h
    exact ((asleep_leave _ _ _).1 h).2 rfl
  · intro u i d hu
    exact hi.swept u i d ((asleep_leave _ _ _).1 hu).1

/-- The wake of update `i`, which may be a broadcast only if it leaves nobody asleep. -/
theorem inv_wakeDone {k : Pulse} (hp : s.pc t = .pulseWake k i shared) {d : Done}
    (hq : q.Sublist s.queue) (hd : ∀ u, asleep q u → d.pulse ≠ .broadcast) :
    Inv sh (s.wakeDone t i d q) := by
  have hk := hi.knows t
  rw [hp] at hk
  have hmem : ∀ u, asleep q u → asleep s.queue u := fun u ⟨ps, hm⟩ => ⟨ps, hq.subset hm⟩
  have ht := hi.notQueued (by rw [hp]; rfl)
  refine hi.shrink t rfl rfl rfl (fun _ _ => rfl) (fun _ _ => rfl) trivial hq
    (fun h => ht (hmem t h)) ?_ ?_
  · intro j hle
    change update s.finished i (some d) j = none
    have hlt : i < s.pulses := hk.1
    rw [update_of_ne (by omega)]
    exact hi.future j hle
  · intro u j e hu hle he
    change update s.finished i (some d) j = some e at he
    by_cases hj : j = i
    · subst hj
      rw [update_self] at he
      cases he
      exact hd u hu
    · rw [update_of_ne hj] at he
      exact hi.swept u j e (hmem u hu) hle he

theorem inv_step (hg : FewPulses s a) (h : step s a = some s') : Inv sh s' := by
  cases step_cases h with
  | owner => exact ⟨hi.flag, hi.word, hi.knows, hi.queued, hi.swept, hi.future⟩
  | call _ t p hr hk => exact hi.goto (Pc.inKernel_of_released hr) (hk ..)
  | exec t _ h => exact inv_exec hi t h
  | sleep t timed old shared hp he => exact inv_sleep hi hp hg he
  | skip t timed old shared hp => exact hi.endWait t false (hi.notQueued (by rw [hp]; rfl))
  | giveUp t timedout => exact inv_giveUp hi t timedout
  | resume t hq => exact hi.endWait t false hq
  | signal t woken i shared q hp hw =>
    refine inv_wakeDone hi hp ?_ (by simp)
    rcases wakeOne_cases hw with ⟨w, -, rfl⟩ | ⟨-, rfl⟩
    · exact filter_sublist
    · exact List.Sublist.refl _
  | broadcast t woken i shared hp =>
    have hk := hi.knows t
    rw [hp] at hk
    obtain ⟨-, rfl⟩ := hk
    refine inv_wakeDone hi hp filter_sublist ?_
    -- every entry has the flag of this wake
    rintro u ⟨ps, hm⟩
    rw [mem_wakeAll] at hm
    exact absurd (hi.queued u ps hm.1).2 hm.2

end

/-! ## What becomes of a waiter -/

/-- `w` is in a wait and had released the mutex before update `i`. -/
def Waits (s : State T) (w : T) (i : Nat) : Prop := (s.pc w).released = true ∧ s.since w ≤ i

/-- `w` is not asleep, and its futex wait, if that is its next step, will not put it to sleep. -/
def StaysAwake (s : State T) (w : T) : Prop :=
  ¬ asleep s.queue w ∧
    ∀ s', FewPulses s (.futexWait w) → step s (.futexWait w) = some s' → ¬ asleep s'.queue w

theorem Inv.staysAwake (hi : Inv sh s) {w : T} (hw : ¬ asleep s.queue w)
    (hlt : s.since w < s.pulses) : StaysAwake s w := by
  refine ⟨hw, fun s' hfew h => ?_⟩
  simp only [step] at h
  split at h
  · next timed old shared hp =>
    split at h
    · next heq =>
      have := hi.since_of_match hp hfew heq
      omega
    · cases h
      exact hw
  · cases h

/-- Some waiter had released the mutex before update `i`. -/
def Found (s : State T) (i : Nat) : Prop := s.ended i = true ∨ ∃ w, Waits s w i

/-- One such waiter is out of its futex wait or awake. -/
def Served (s : State T) (i : Nat) : Prop :=
  s.ended i = true ∨ ∃ w, Waits s w i ∧ ¬ asleep s.queue w

/-- From `s` to `s'` no waiter is forgotten: it goes on waiting, and awake if it was awake, or it
has come out of its futex wait; and a signal whose wake passes over no earlier waiter for a later
one serves a waiter, if there is one. -/
structure Follows (s s' : State T) : Prop where
  pulses : s.pulses ≤ s'.pulses
  ended : ∀ i, s.ended i = true → s'.ended i = true
  waits : ∀ w i, i < s'.pulses → Waits s w i →
    s'.ended i = true ∨ (Waits s' w i ∧ (¬ asleep s.queue w → ¬ asleep s'.queue w))
  finished : ∀ i, s'.finished i = some ⟨.signal, true⟩ →
    s.finished i = some ⟨.signal, true⟩ ∨ (Found s i → Served s' i)

section
variable (hpc : s'.pc = Function.update s.pc t p) (hsince : ∀ u, u ≠ t → s'.since u = s.since u)
  (hn : s.pulses ≤ s'.pulses)
include hpc hsince hn

/-- A step of `t` that puts at most `t` to sleep: only what becomes of `t` is to be shown. -/
theorem follows_of_update (hend : ∀ i, s.ended i = true → s'.ended i = true)
    (hq : ∀ u, u ≠ t → asleep s'.queue u → asleep s.queue u)
    (ht : ∀ i, i < s'.pulses → Waits s t i →
      s'.ended i = true ∨ (Waits s' t i ∧ (¬ asleep s.queue t → ¬ asleep s'.queue t)))
    (hfin : ∀ i, s'.finished i = some ⟨.signal, true⟩ →
      s.finished i = some ⟨.signal, true⟩ ∨ (Found s i → Served s' i)) :
    Follows s s' := by
  refine ⟨hn, hend, fun w i hlt hw => ?_, hfin⟩
  by_cases hwt : w = t
  · subst hwt
    exact ht i hlt hw
  · refine .inr ⟨?_, fun hna h => hna (hq w hwt h)⟩
    unfold Waits
    rw [hpc, update_of_ne hwt, hsince w hwt]
    exact hw

/-- The same when `t` was not waiting and makes no wake. -/
theorem follows_of_outside (hend : s'.ended = s.ended) (hq : s'.queue = s.queue)
    (hfin : s'.finished = s.finished) (ht : (s.pc t).released = false) : Follows s s' := by
  refine follows_of_update hpc hsince hn (fun i h => by rwa [hend]) (fun u _ h => by rwa [hq] at h)
    ?_ (fun i h => .inl (by rwa [hfin] at h))
  rintro i - ⟨hr, -⟩
  rw [ht] at hr
  cases hr

end

theorem follows_endWait (timedout : Bool)
    (hs : s' = { s.endWait t timedout with queue := s'.queue })
    (hq : ∀ u, asleep s'.queue u → asleep s.queue u) : Follows s s' := by
  refine follows_of_update (by rw [hs]; rfl)
    (fun _ _ => by rw [hs]; rfl) (by rw [hs]; exact Nat.le_refl _) (fun i h => ?_)
    (fun u _ => hq u) ?_ (fun i h => .inl (by rw [hs] at h; exact h))
  · rw [hs]
    simp [State.endWait, h]
  · rintro i hlt ⟨-, hle⟩
    rw [hs] at hlt ⊢
    have hlt' : i < s.pulses := hlt
    exact .inl (by simp [State.endWait, hle, hlt'])

theorem follows_wakeDone {d : Done} (ht : (s.pc t).released = false)
    (hq : ∀ u, asleep q u → asleep s.queue u)
    (hserve : d = ⟨.signal, true⟩ → Found s i → Served (s.wakeDone t i d q) i) :
    Follows s (s.wakeDone t i d q) := by
  refine follows_of_update rfl (fun _ _ => rfl) (Nat.le_refl _) (fun _ h => h)
    (fun u _ => hq u) ?_ ?_
  · rintro j - ⟨hr, -⟩
    rw [ht] at hr
    cases hr
  · intro j hj
    simp only [State.wakeDone] at hj
    by_cases hji : j = i
    · subst hji
      rw [update_self] at hj
      exact .inr (hserve (Option.some.inj hj))
    · rw [update_of_ne hji] at hj
      exact .inl hj

theorem served_wake (hi : Inv sh s) (hp : s.pc t = .pulseWake .signal i shared) {woken : Option T}
    (hw : wakeOne s.queue shared woken = some q) (hearlier : s.takesEarlier i woken = true)
    (d : Done) (hfound : Found s i) : Served (s.wakeDone t i d q) i := by
  have hk := hi.knows t
  rw [hp] at hk
  obtain ⟨-, rfl⟩ := hk
  have hwaits : ∀ u, Waits s u i → Waits (s.wakeDone t i d q) u i := by
    rintro u ⟨hr, hle⟩
    have hut : u ≠ t := by
      rintro rfl
      rw [hp] at hr
      cases hr
    exact ⟨by simpa [State.wakeDone, State.goto, hut] using hr, hle⟩
  rcases hfound with h | ⟨w, hw'⟩
  · exact .inl h
  by_cases ha : asleep s.queue w
  · -- somebody is asleep with the flag of the wake, and the wake takes an earlier waiter
    obtain ⟨ps, hm⟩ := ha
    have hps := (hi.queued w ps hm).2
    have hwoken : ∀ u ∈ woken, s.since u ≤ i := by
      simp only [State.takesEarlier, Bool.or_eq_true, Option.all_eq_true, List.all_eq_true,
        decide_eq_true_eq] at hearlier
      refine hearlier.resolve_right fun hlater => ?_
      exact Nat.not_lt_of_le hw'.2 (hlater _ hm)
    cases woken with
    | none =>
      simp only [wakeOne, ite_none_right_eq_some, List.all_eq_true, bne_iff_ne] at hw
      exact absurd hps (hw.1 _ hm)
    | some u =>
      simp only [wakeOne, ite_none_right_eq_some, Option.some.injEq] at hw
      obtain ⟨humem, rfl⟩ := hw
      have hur := Pc.released_of_inKernel (hi.queued u _ humem).1
      refine .inr ⟨u, hwaits u ⟨hur, hwoken u rfl⟩, ?_⟩
      intro h
      exact ((asleep_leave _ _ _).1 h).2 rfl
  · refine .inr ⟨w, hwaits w hw', ?_⟩
    rintro ⟨ps, hm⟩
    exact ha ⟨ps, mem_of_wakeOne hw hm⟩

theorem follows_exec (h : exec s t = some s') : Follows s s' := by
  revert h
  fun_cases exec s t with
  | case2 _ _ hp =>
    rintro ⟨⟩
    exact follows_of_outside rfl (fun u hu => update_of_ne hu _ _) (Nat.le_refl _) rfl rfl
      rfl (by rw [hp]; rfl)
  | case3 =>
    rintro ⟨⟩
    refine follows_of_update rfl (fun _ _ => rfl) (Nat.le_refl _) (fun _ h => h)
      (fun _ _ h => h) ?_ (fun _ h => .inl h)
    rintro i - ⟨-, hle⟩
    exact .inr ⟨⟨by simp [State.goto, Pc.released], hle⟩, fun h => h⟩
  | case8 _ _ _ _ hp =>
    rintro ⟨⟩
    exact follows_of_outside rfl (fun _ _ => rfl) (Nat.le_succ _) rfl rfl rfl (by rw [hp]; rfl)
  | case1 _ hp | case4 _ hp | case6 _ hp | case7 _ _ hp | case9 _ _ _ _ hp | case10 _ _ hp =>
    rintro ⟨⟩
    exact follows_of_outside rfl (fun _ _ => rfl) (Nat.le_refl _) rfl rfl rfl (by rw [hp]; rfl)
  | _ => rintro ⟨⟩

theorem follows_sleep (hi : Inv sh s) (hp : s.pc t = .futexWait timed old shared)
    (hfew : FewPulses s (.futexWait t)) (he : s.value = old) :
    Follows s { s.goto t (.blocked timed old shared) with queue := sleep s.queue t shared } := by
  have hsince := hi.since_of_match hp hfew he
  refine follows_of_update rfl (fun _ _ => rfl) (Nat.le_refl _) (fun _ h => h) ?_ ?_
    (fun _ h => .inl h)
  · rintro u hu ⟨ps, hm⟩
    rcases mem_cons.mp hm with he | hm'
    · cases he
      exact absurd rfl hu
    · exact ⟨ps, hm'⟩
  · -- the thread released the mutex after every update
    rintro i hlt ⟨-, hle⟩
    have hlt' : i < s.pulses := hlt
    omega

theorem follows_step (hi : Inv sh s) (hg : FewPulses s a) (h : step s a = some s') :
    Follows s s' := by
  cases step_cases h with
  | owner =>
    exact ⟨Nat.le_refl _, fun _ h => h, fun w i _ hw => .inr ⟨hw, fun h => h⟩, fun _ h => .inl h⟩
  | call _ t p hr =>
    exact follows_of_outside rfl (fun _ _ => rfl) (Nat.le_refl _) rfl rfl rfl hr
  | exec t _ h => exact follows_exec h
  | sleep t timed old shared hp he => exact follows_sleep hi hp hg he
  | skip => exact follows_endWait false rfl fun _ h => h
  | giveUp t timedout =>
    exact follows_endWait timedout rfl fun u hu => ((asleep_leave _ _ _).1 hu).1
  | resume => exact follows_endWait false rfl fun _ h => h
  | signal t woken i shared q hp hw =>
    refine follows_wakeDone (by rw [hp]; rfl) (fun u ⟨ps, hm⟩ => ⟨ps, mem_of_wakeOne hw hm⟩) ?_
    intro hd hfound
    exact served_wake hi hp hw (by simpa using hd) _ hfound
  | broadcast t woken i shared hp =>
    refine follows_wakeDone (by rw [hp]; rfl) ?_ (fun hd => by cases hd)
    rintro u ⟨ps, hm⟩
    exact ⟨ps, ((mem_wakeAll _ _ _).1 hm).1⟩

/-! ## What a signal does for the waiters before it -/

/-- Update `i` found a waiter, and if its signal is done and passed over no earlier waiter for a
later one, a waiter is served. -/
structure Track (i : Nat) (s : State T) : Prop where
  lt : i < s.pulses
  found : Found s i
  served : s.finished i = some ⟨.signal, true⟩ → Served s i

omit [DecidableEq T] in
theorem Track.step (ht : Track i s) (hf : Follows s s') :
    Track i s' := by
  have hlt := Nat.lt_of_lt_of_le ht.lt hf.pulses
  refine ⟨hlt, ?_, fun h => ?_⟩
  · rcases ht.found with h | ⟨w, hw⟩
    · exact .inl (hf.ended i h)
    · exact (hf.waits w i hlt hw).imp id fun h => ⟨w, h.1⟩
  · rcases hf.finished i h with h | h
    · rcases ht.served h with h | ⟨w, hw, hna⟩
      · exact .inl (hf.ended i h)
      · exact (hf.waits w i hlt hw).imp id fun h => ⟨w, h.1, h.2 hna⟩
    · exact h ht.found

theorem track_update (hi : Inv sh s) {b w : T} (hw : (s.pc w).released = true)
    (h : exec s b = some s') (hn : s'.pulses = s.pulses + 1) :
    Track s.pulses s' := by
  have hf := follows_exec h
  have hle : s.since w ≤ s.pulses := by
    have hk := hi.knows w
    generalize hp : s.pc w = q at hk hw ⊢
    cases q with
    | waitShared => exact hk.2.2
    | futexWait | blocked => exact hk.1.2.2
    | _ =>
      cases hw
  refine ⟨by omega, ?_, fun h => ?_⟩
  · exact (hf.waits w s.pulses (by omega) ⟨hw, hle⟩).imp id fun h => ⟨w, h.1⟩
  · rcases hf.finished _ h with h | h
    · rw [hi.future _ (Nat.le_refl _)] at h
      cases h
    · exact h (.inr ⟨w, hw, hle⟩)

/-! ## Top theorem -/

/-- **Pulses are not lost.**  In every run with fewer than 2^31 updates between a waiter's read and
its futex wait: after a broadcast is done, no waiter that had released the mutex before its update
is asleep or goes to sleep; if there is such a waiter at the update of a signal, then after a
signal whose wake took no later thread while one of them was asleep, one of them is out of its futex
wait or stays awake; and no step changes the shared bit. -/
theorem cond_pulses {s : State T} (h : machine.ReachableIf FewPulses s) :
    (∀ i w, s.finished i = some ⟨.broadcast, true⟩ → Waits s w i → StaysAwake s w) ∧
      (∀ b w s₁ acts s₂, (s.pc w).released = true → step s (.exec b) = some s₁ →
        s₁.pulses = s.pulses + 1 → machine.runIf FewPulses s₁ acts = some s₂ →
        s₂.finished s.pulses = some ⟨.signal, true⟩ →
        s₂.ended s.pulses = true ∨ ∃ w', Waits s₂ w' s.pulses ∧ StaysAwake s₂ w') ∧
      ∀ a s', FewPulses s a → step s a = some s' →
        s'.value &&& condSharedMask = s.value &&& condSharedMask := by
  obtain ⟨sh, hi⟩ : ∃ sh, Inv sh s :=
    Machine.ReachableIf.invariant (M := machine)
      (fun _ h0 => inv_init h0) (fun _ _ _ ⟨sh, hi⟩ hg hs => ⟨sh, inv_step hi hg hs⟩) h
  refine ⟨fun i w hd hw => ?_, fun b w s₁ acts s₂ hw hs hn hr hd => ?_, fun a s' hg hs => ?_⟩
  · have hlt : i < s.pulses := by
      by_contra hge
      rw [hi.future i (by omega)] at hd
      cases hd
    have hna : ¬ asleep s.queue w := fun ha => hi.swept w i _ ha hw.2 hd rfl
    exact hi.staysAwake hna (Nat.lt_of_le_of_lt hw.2 hlt)
  · obtain ⟨hi₂, ht⟩ : Inv sh s₂ ∧ Track s.pulses s₂ :=
      Machine.runIf_invariant (I := fun s' => Inv sh s' ∧ Track s.pulses s')
        (fun _ _ _ ⟨hi, ht⟩ hg hs => ⟨inv_step hi hg hs, ht.step (follows_step hi hg hs)⟩)
        ⟨inv_step (a := .exec b) hi trivial hs, track_update hi hw hs hn⟩ hr
    rcases ht.served hd with h | ⟨w', hw', hna⟩
    · exact .inl h
    · exact .inr ⟨w', hw', hi₂.staysAwake hna (Nat.lt_of_le_of_lt hw'.2 ht.lt)⟩
  · have hbit : ∀ n, valueAfter sh n &&& condSharedMask = sh :=
      fun n => tagged_and_one hi.flag.toNat_lt _
    rw [hi.word, (inv_step hi hg hs).word, hbit, hbit]

/-- `t` waits and sleeps, `u` is about to make the value update of a signal. -/
def signalRun {T : Type} (t u : T) : List (Act T) :=
  [.lock t, .wait t none, .exec t, .exec t, .exec t, .futexWait t, .pulse u .signal, .exec u,
   .exec u]

/-- After the update of `u`, `w` waits and sleeps too, and the wake of the signal takes it. -/
def stolenRun {T : Type} (u w : T) : List (Act T) :=
  [.lock w, .wait w none, .exec w, .exec w, .exec w, .futexWait w, .exec u, .futexWake u (some w)]

def fresh : State (Fin 3) :=
  ⟨0, [], none, fun _ => .idle, 0, fun _ => 0, fun _ => 0, fun _ => none, fun _ => false⟩

theorem fresh_init : init fresh :=
  ⟨⟨false, rfl⟩, rfl, fun _ => rfl, rfl, fun _ => rfl, fun _ => rfl⟩

/-- A signal whose wake takes a later waiter leaves every waiter before it asleep. -/
theorem signal_stolen :
    ∃ s s₁ s₂ : State (Fin 3), machine.ReachableIf FewPulses s ∧ (s.pc 0).released = true ∧
      step s (.exec 1) = some s₁ ∧ s₁.pulses = s.pulses + 1 ∧
      machine.runIf FewPulses s₁ (stolenRun 1 2) = some s₂ ∧
      (s₂.finished s.pulses).map Done.pulse = some .signal ∧
      ¬ (s₂.ended s.pulses = true ∨ ∃ w, Waits s₂ w s.pulses ∧ StaysAwake s₂ w) := by
  obtain ⟨s, hs, hp, hn⟩ : ∃ s, machine.runIf FewPulses fresh (signalRun 0 1) = some s ∧
      (s.pc 0).released = true ∧ s.pulses = 0 := ⟨_, rfl, rfl, rfl⟩
  obtain ⟨s₁, s₂, hs₁, hn₁, hs₂, hd, he, hq, h1⟩ : ∃ s₁ s₂, step s (.exec 1) = some s₁ ∧
      s₁.pulses = 1 ∧ machine.runIf FewPulses s₁ (stolenRun 1 2) = some s₂ ∧
      (s₂.finished 0).map Done.pulse = some .signal ∧ s₂.ended 0 = false ∧
      s₂.queue = [(0, false)] ∧ s₂.pc 1 = .idle ∧ s₂.since 2 = 1 := by
    cases hs
    exact ⟨_, _, rfl, rfl, rfl, rfl, rfl, rfl, rfl, rfl⟩
  refine ⟨s, s₁, s₂, .runIf (.init fresh_init) _ hs, hp, hs₁, by omega, hs₂, ?_, ?_⟩
  · rw [hn, hd]
  · rw [hn, he]
    rintro (h | ⟨w, ⟨hr, hle⟩, hna, -⟩)
    · cases h
    · -- thread 0 sleeps, thread 1 has no wait, thread 2 came after the update
      match w with
      | 0 => exact hna ⟨false, by simp [hq]⟩
      | 1 => rw [h1.1] at hr; cases hr
      | 2 => omega

def broadcastRun {T : Type} (t u : T) : List (Act T) :=
  [.lock t, .wait t none, .exec t, .exec t, .exec t, .futexWait t, .pulse u .broadcast, .exec u,
   .exec u, .exec u, .exec u, .futexWake u none]

theorem cond_pulses_broadcast :
    ∃ s : State (Fin 3), machine.ReachableIf FewPulses s ∧
      s.finished 0 = some ⟨.broadcast, true⟩ ∧ Waits s 0 0 ∧ StaysAwake s 0 := by
  obtain ⟨s, hs, hd, hw⟩ : ∃ s, machine.runIf FewPulses fresh (broadcastRun 0 1) = some s ∧
      s.finished 0 = some ⟨.broadcast, true⟩ ∧ Waits s 0 0 :=
    ⟨_, rfl, rfl, rfl, Nat.le_refl _⟩
  have hr : machine.ReachableIf FewPulses s := .runIf (.init fresh_init) _ hs
  exact ⟨s, hr, hd, hw, (cond_pulses hr).1 0 0 hd hw⟩

end

end Pthread.Cond
