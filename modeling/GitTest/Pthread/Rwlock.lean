import GitTest.Lib.Transition
import GitTest.Lib.Count

/-!
# Read/write locks (libc/bionic/pthread-rwlocks.c)

Threads of any type `T` with kernel ids `tid` call the seven lock functions on one
`pthread_rwlock_t`.  A section between two operations on the internal mutex is one step of
the thread that holds it; `pthread_cond_timedwait` releases the mutex when it blocks, and
returns `ETIMEDOUT` with the mutex still held when the deadline has already passed.  A
blocked thread may leave the wait at any time (broadcast, signal, spurious return), a timed
one also by its timeout.  A `++` that would overflow an `int` is undefined in C and no step
here.

Ghosts: `held`, the outstanding acquisitions, newest first (an unlock ends the newest of
its thread), and `told`, the blocked threads to which a broadcast issued after their
precondition became true is still on its way.

    Reachable s → numLocks counts `held`, and a write acquisition excludes every other
      thread  (rwlock_exclusion)
    ReachableIf NoStranding s → a blocked thread whose precondition holds has been told
      (rwlock_wakes)
    a timed write acquisition that times out leaves a reader blocked for good
      (reader_stranded)
    a holder acquires again at once iff it wants to write or no writer is pending
      (reacquire_iff)
-/

namespace Pthread.Rwlock

open Counting Function List Machines Option

/-! ## Algorithm -/

inductive Mode
  | read
  | write
  deriving DecidableEq, Repr

/-- `trylock` is the try function of its mode, `timed` the timed one, `block` the one that passes
a `NULL` timeout. -/
inductive Kind
  | block
  | trylock
  | timed
  deriving DecidableEq, Repr

inductive Op
  | acquire (m : Mode) (k : Kind)
  | unlock
  deriving DecidableEq, Repr

inductive Ret
  | ok
  | ebusy
  | etimedout
  | eperm
  deriving DecidableEq, Repr

/-- The fields of `pthread_rwlock_t` that the internal mutex protects. -/
structure Fields where
  numLocks : Nat
  pendingReaders : Nat
  pendingWriters : Nat
  writerThreadId : Nat
  deriving DecidableEq, Repr

def readPrecondition (rw : Fields) (threadId : Nat) : Bool :=
  if rw.pendingWriters > 0 then false
  else if rw.writerThreadId = 0 ∨ rw.writerThreadId = threadId then true
  else false

def writePrecondition (rw : Fields) (threadId : Nat) : Bool :=
  if rw.numLocks = 0 then true
  else if rw.writerThreadId = threadId then true
  else false

def precondition : Mode → Fields → Nat → Bool
  | .read => readPrecondition
  | .write => writePrecondition

/-- `++` on an `int`. -/
def incr (n : Nat) : Option Nat := if n + 1 < 2 ^ 31 then some (n + 1) else none

/-- `pendingReaders += 1` or `pendingWriters += 1` -/
def pend : Mode → Fields → Option Fields
  | .read, rw => (incr rw.pendingReaders).map fun n => { rw with pendingReaders := n }
  | .write, rw => (incr rw.pendingWriters).map fun n => { rw with pendingWriters := n }

def unpend : Mode → Fields → Fields
  | .read, rw => { rw with pendingReaders := rw.pendingReaders - 1 }
  | .write, rw => { rw with pendingWriters := rw.pendingWriters - 1 }

/-- `numLocks ++`, and for a writer `writerThreadId = thread_id`. -/
def take (m : Mode) (threadId : Nat) (rw : Fields) : Option Fields :=
  (incr rw.numLocks).map fun n =>
    match m with
    | .read => { rw with numLocks := n }
    | .write => { rw with numLocks := n, writerThreadId := threadId }

inductive Pc
  | idle
  /-- `pthread_mutex_lock(&rwlock->lock)` -/
  | enter (op : Op)
  /-- The section after it. -/
  | body (op : Op)
  /-- `pthread_cond_timedwait(&rwlock->cond, &rwlock->lock, abs_timeout)` -/
  | timedwait (m : Mode) (timed : Bool)
  /-- In the futex wait of the condition variable, the mutex released. -/
  | waiting (m : Mode) (timed : Bool)
  /-- `pthread_mutex_lock(mutex)` at the end of the wait. -/
  | relock (m : Mode) (timed : Bool) (ret : Ret)
  /-- `ret == 0 && !precondition` -/
  | check (m : Mode) (timed : Bool) (ret : Ret)
  /-- `pthread_mutex_unlock(&rwlock->lock)` -/
  | leave (ret : Ret)
  | returned (ret : Ret)
  deriving DecidableEq, Repr

/-- What a section does to the outstanding acquisitions of its thread. -/
inductive Ghost
  | keep
  | gain (m : Mode)
  | drop
  deriving DecidableEq, Repr

/-- What a section leaves; `pulse` if it made the broadcast. -/
structure Local where
  rw : Fields
  ghost : Ghost
  pulse : Bool
  pc : Pc

def acquired (m : Mode) (threadId : Nat) (rw : Fields) : Option Local :=
  (take m threadId rw).map fun rw' => ⟨rw', .gain m, false, .leave .ok⟩

def trylock (m : Mode) (threadId : Nat) (rw : Fields) : Option Local :=
  if precondition m rw threadId = false then some ⟨rw, .keep, false, .leave .ebusy⟩
  else acquired m threadId rw

def tryrdlock : Nat → Fields → Option Local := trylock .read
def trywrlock : Nat → Fields → Option Local := trylock .write

/-- The timed acquisition up to its first wait. -/
def timedlock (m : Mode) (timed : Bool) (threadId : Nat) (rw : Fields) : Option Local :=
  if precondition m rw threadId = false then
    (pend m rw).map fun rw' => ⟨rw', .keep, false, .timedwait m timed⟩
  else acquired m threadId rw

def timedrdlock : Bool → Nat → Fields → Option Local := timedlock .read
def timedwrlock : Bool → Nat → Fields → Option Local := timedlock .write
def rdlock : Nat → Fields → Option Local := timedrdlock false
def wrlock : Nat → Fields → Option Local := timedwrlock false

/-- The end of a wait: around the loop again, or out of it. -/
def afterWait (m : Mode) (timed : Bool) (ret : Ret) (threadId : Nat) (rw : Fields) : Option Local :=
  if ret = .ok ∧ precondition m rw threadId = false then
    some ⟨rw, .keep, false, .timedwait m timed⟩
  else if ret ≠ .ok then some ⟨unpend m rw, .keep, false, .leave ret⟩
  else acquired m threadId (unpend m rw)

/-- `_pthread_rwlock_pulse`: whether it broadcasts. -/
def pulse (rw : Fields) : Bool := decide (rw.pendingReaders > 0 ∨ rw.pendingWriters > 0)

def unlock (threadId : Nat) (rw : Fields) : Local :=
  if rw.numLocks = 0 then ⟨rw, .keep, false, .leave .eperm⟩
  else if rw.writerThreadId = 0 then
    let rw' := { rw with numLocks := rw.numLocks - 1 }
    ⟨rw', .drop, decide (rw'.numLocks = 0) && pulse rw', .leave .ok⟩
  else if rw.writerThreadId ≠ threadId then ⟨rw, .keep, false, .leave .eperm⟩
  else if rw.numLocks - 1 = 0 then
    let rw' := { rw with numLocks := 0, writerThreadId := 0 }
    ⟨rw', .drop, pulse rw', .leave .ok⟩
  else ⟨{ rw with numLocks := rw.numLocks - 1 }, .drop, false, .leave .ok⟩

/-- The first section of a call. -/
def start (threadId : Nat) (rw : Fields) : Op → Option Local
  | .acquire .read .block => rdlock threadId rw
  | .acquire .read .trylock => tryrdlock threadId rw
  | .acquire .read .timed => timedrdlock true threadId rw
  | .acquire .write .block => wrlock threadId rw
  | .acquire .write .trylock => trywrlock threadId rw
  | .acquire .write .timed => timedwrlock true threadId rw
  | .unlock => some (unlock threadId rw)

/-- One section of a thread that holds the internal mutex. -/
def exec (threadId : Nat) (rw : Fields) : Pc → Option Local
  | .body op => start threadId rw op
  | .check m timed ret => afterWait m timed ret threadId rw
  | .idle | .enter _ | .timedwait _ _ | .waiting _ _ | .relock _ _ _ | .leave _ | .returned _ => none

/-- A thread may make its next call. -/
def Pc.outside : Pc → Bool
  | .idle | .returned _ => true
  | .enter _ | .body _ | .timedwait _ _ | .waiting _ _ | .relock _ _ _ | .check _ _ _ | .leave _ =>
    false

/-- The mode in which a thread is blocked on the condition variable. -/
def Pc.waits : Pc → Option Mode
  | .waiting m _ => some m
  | .idle | .enter _ | .body _ | .timedwait _ _ | .relock _ _ _ | .check _ _ _ | .leave _
  | .returned _ => none

structure State (T : Type) where
  rw : Fields
  lock : Option T
  pc : T → Pc
  held : List (T × Mode)
  told : T → Bool

inductive Act (T : Type)
  /-- Only a thread that holds the lock calls unlock. -/
  | call (t : T) (op : Op)
  /-- The internal mutex is acquired, at the start of a call or at the end of a wait. -/
  | lock (t : T)
  | exec (t : T)
  /-- `pthread_cond_timedwait` finds the deadline passed and keeps the mutex. -/
  | expired (t : T)
  | block (t : T)
  /-- The futex wait returns, by its timeout if `timeout`. -/
  | wake (t : T) (timeout : Bool)
  | unlock (t : T)

section
variable {T : Type} [DecidableEq T] (tid : T → Nat)

/-- The newest acquisition of `t` ends. -/
def dropNewest (held : List (T × Mode)) (t : T) : List (T × Mode) :=
  held.eraseP fun e => decide (e.1 = t)

def Ghost.apply (t : T) (held : List (T × Mode)) : Ghost → List (T × Mode)
  | .keep => held
  | .gain m => (t, m) :: held
  | .drop => dropNewest held t

/-- A broadcast tells the blocked threads whose precondition holds; one whose precondition became
false has to be told again. -/
def retell (s : State T) (rw : Fields) (pulse : Bool) (u : T) : Bool :=
  match (s.pc u).waits with
  | some m => precondition m rw (tid u) && (pulse || s.told u)
  | none => false

def State.goto (s : State T) (t : T) (p : Pc) : State T :=
  { s with pc := Function.update s.pc t p }

def State.put (s : State T) (t : T) (r : Local) : State T :=
  { s with
    rw := r.rw
    pc := Function.update s.pc t r.pc
    held := r.ghost.apply t s.held
    told := retell tid s r.rw r.pulse }

def step (s : State T) : Act T → Option (State T)
  | .call t op =>
    if (s.pc t).outside ∧ (op = .unlock → t ∈ s.held.map Prod.fst) then some (s.goto t (.enter op))
    else none
  | .lock t =>
    if s.lock = none then
      match s.pc t with
      | .enter op => some { s.goto t (.body op) with lock := some t }
      | .relock m timed ret => some { s.goto t (.check m timed ret) with lock := some t }
      | _ => none
    else none
  | .exec t => (exec (tid t) s.rw (s.pc t)).map fun r => s.put tid t r
  | .expired t =>
    match s.pc t with
    | .timedwait m true => some (s.goto t (.check m true .etimedout))
    | _ => none
  | .block t =>
    match s.pc t with
    | .timedwait m timed =>
      some { s.goto t (.waiting m timed) with
        lock := none
        told := Function.update s.told t false }
    | _ => none
  | .wake t timeout =>
    match s.pc t with
    | .waiting m timed =>
      if timeout then
        if timed then some (s.goto t (.relock m timed .etimedout)) else none
      else some (s.goto t (.relock m timed .ok))
    | _ => none
  | .unlock t =>
    match s.pc t with
    | .leave ret => some { s.goto t (.returned ret) with lock := none }
    | _ => none

/-- Any number of idle threads and the lock of `pthread_rwlock_init`. -/
def init (s : State T) : Prop :=
  s.rw = ⟨0, 0, 0, 0⟩ ∧ s.lock = none ∧ s.held = [] ∧ ∀ t, s.pc t = .idle

def machine : Machine (State T) (Act T) := ⟨init, step tid⟩

/-- The kernel ids are distinct and not 0. -/
structure ValidTids (tid : T → Nat) : Prop where
  inj : ∀ t u, tid t = tid u → t = u
  pos : ∀ t, 0 < tid t

/-- At the exit of a timed write acquisition whose wait timed out. -/
def Pc.timesOut : Pc → Bool
  | .check .write _ ret => decide (ret ≠ .ok)
  | .idle | .enter _ | .body _ | .timedwait _ _ | .waiting _ _ | .relock _ _ _ | .check .read _ _
  | .leave _ | .returned _ => false

/-- The step is not the timeout of the last pending writer while a reader is blocked that only
the pending writer keeps out. -/
def NoStranding (s : State T) : Act T → Prop
  | .exec t => (s.pc t).timesOut = true → s.rw.pendingWriters = 1 →
      ∀ u, (s.pc u).waits = some .read →
        ¬ (s.rw.writerThreadId = 0 ∨ s.rw.writerThreadId = tid u)
  | .call _ _ | .lock _ | .expired _ | .block _ | .wake _ _ | .unlock _ => True

instance [Fintype T] (s : State T) : (a : Act T) → Decidable (NoStranding tid s a)
  | .exec t => inferInstanceAs
      (Decidable ((s.pc t).timesOut = true → s.rw.pendingWriters = 1 →
        ∀ u, (s.pc u).waits = some .read →
          ¬ (s.rw.writerThreadId = 0 ∨ s.rw.writerThreadId = tid u)))
  | .call _ _ | .lock _ | .expired _ | .block _ | .wake _ _ | .unlock _ => .isTrue trivial

end

/-! ## What a section can do -/

theorem readPrecondition_iff (rw : Fields) (i : Nat) : precondition .read rw i = true ↔
    rw.pendingWriters = 0 ∧ (rw.writerThreadId = 0 ∨ rw.writerThreadId = i) := by
  simp only [precondition, readPrecondition]
  by_cases hp : rw.pendingWriters = 0
  · simp [hp]
  · have : rw.pendingWriters > 0 := by omega
    simp [hp, this]

theorem writePrecondition_iff (rw : Fields) (i : Nat) : precondition .write rw i = true ↔
    rw.numLocks = 0 ∨ rw.writerThreadId = i := by
  simp only [precondition, writePrecondition]
  by_cases hn : rw.numLocks = 0
  · simp [hn]
  · simp [hn]

def pendingOf : Mode → Fields → Nat
  | .read, rw => rw.pendingReaders
  | .write, rw => rw.pendingWriters

variable {m : Mode} {rw rw' : Fields} {i : Nat} {r : Local}

theorem pend_eq (h : pend m rw = some rw') :
    rw'.numLocks = rw.numLocks ∧ rw'.writerThreadId = rw.writerThreadId ∧
      pendingOf m rw' = pendingOf m rw + 1 ∧ ∀ m', m' ≠ m → pendingOf m' rw' = pendingOf m' rw := by
  cases m with
  | read | write =>
    simp only [pend, incr, map_eq_some_iff] at h
    obtain ⟨n, hn, rfl⟩ := h
    split at hn
    · cases hn
      refine ⟨rfl, rfl, rfl, fun m' hm => ?_⟩
      cases m' <;> first | rfl | exact absurd rfl hm
    · cases hn

theorem unpend_eq (m : Mode) (rw : Fields) :
    (unpend m rw).numLocks = rw.numLocks ∧ (unpend m rw).writerThreadId = rw.writerThreadId ∧
      pendingOf m (unpend m rw) = pendingOf m rw - 1 ∧
      ∀ m', m' ≠ m → pendingOf m' (unpend m rw) = pendingOf m' rw := by
  cases m with
  | read | write =>
    refine ⟨rfl, rfl, rfl, fun m' hm => ?_⟩
    cases m' <;> first | rfl | exact absurd rfl hm

theorem take_eq (h : take m i rw = some rw') :
    rw'.numLocks = rw.numLocks + 1 ∧
      rw'.writerThreadId = (if m = .write then i else rw.writerThreadId) ∧
      ∀ m', pendingOf m' rw' = pendingOf m' rw := by
  simp only [take, incr, map_eq_some_iff] at h
  obtain ⟨n, hn, rfl⟩ := h
  split at hn
  · cases hn
    cases m with
    | read | write => exact ⟨rfl, rfl, fun m' => by cases m' <;> rfl⟩
  · cases hn

/-- A thread's own place in the queue does not change whether it may have the lock. -/
theorem precondition_unpend (m : Mode) (rw : Fields) (i : Nat) :
    precondition m (unpend m rw) i = precondition m rw i := by
  cases m with
  | read | write => rfl

theorem precondition_pend (h : pend m rw = some rw') (i : Nat) :
    precondition m rw' i = precondition m rw i := by
  cases m with
  | read | write =>
    simp only [pend, map_eq_some_iff] at h
    obtain ⟨n, -, rfl⟩ := h
    rfl

/-- The fields after an unlock that was not refused. -/
def released (rw : Fields) : Fields :=
  { rw with
    numLocks := rw.numLocks - 1
    writerThreadId := if rw.numLocks - 1 = 0 then 0 else rw.writerThreadId }

/-- Everything a section of the thread with id `i` can do. -/
inductive Effect (i : Nat) (rw : Fields) : Pc → Local → Prop
  | refuse {op : Op} {ret : Ret} : ret ≠ .ok → (op = .unlock → rw.numLocks = 0 ∨
      (rw.writerThreadId ≠ 0 ∧ rw.writerThreadId ≠ i)) →
      Effect i rw (.body op) ⟨rw, .keep, false, .leave ret⟩
  | pend {op : Op} {m : Mode} {timed : Bool} {rw' : Fields} : precondition m rw i = false →
      pend m rw = some rw' → Effect i rw (.body op) ⟨rw', .keep, false, .timedwait m timed⟩
  | direct {m : Mode} {k : Kind} {rw' : Fields} : precondition m rw i = true →
      take m i rw = some rw' →
      Effect i rw (.body (.acquire m k)) ⟨rw', .gain m, false, .leave .ok⟩
  | again {m : Mode} {timed : Bool} : precondition m rw i = false →
      Effect i rw (.check m timed .ok) ⟨rw, .keep, false, .timedwait m timed⟩
  | timeout {m : Mode} {timed : Bool} {ret : Ret} : ret ≠ .ok →
      Effect i rw (.check m timed ret) ⟨unpend m rw, .keep, false, .leave ret⟩
  | waited {m : Mode} {timed : Bool} {rw' : Fields} : precondition m rw i = true →
      take m i (unpend m rw) = some rw' →
      Effect i rw (.check m timed .ok) ⟨rw', .gain m, false, .leave .ok⟩
  | release : rw.numLocks ≠ 0 → rw.writerThreadId = 0 ∨ rw.writerThreadId = i →
      Effect i rw (.body .unlock)
        ⟨released rw, .drop, decide (rw.numLocks - 1 = 0) && pulse rw, .leave .ok⟩

theorem trylock_cases {k : Kind} (h : trylock m i rw = some r) :
    Effect i rw (.body (.acquire m k)) r := by
  simp only [trylock] at h
  split at h
  · cases h
    exact .refuse (by decide) (fun h => by cases h)
  · next hp =>
    simp only [acquired, map_eq_some_iff] at h
    obtain ⟨rw', ht, rfl⟩ := h
    exact .direct (by simpa using hp) ht

theorem timedlock_cases {timed : Bool} {k : Kind} (h : timedlock m timed i rw = some r) :
    Effect i rw (.body (.acquire m k)) r := by
  simp only [timedlock] at h
  split at h
  · next hp =>
    simp only [map_eq_some_iff] at h
    obtain ⟨rw', ht, rfl⟩ := h
    exact .pend hp ht
  · next hp =>
    simp only [acquired, map_eq_some_iff] at h
    obtain ⟨rw', ht, rfl⟩ := h
    exact .direct (by simpa using hp) ht

theorem afterWait_cases {timed : Bool} {ret : Ret} (h : afterWait m timed ret i rw = some r) :
    Effect i rw (.check m timed ret) r := by
  revert h
  fun_cases afterWait m timed ret i rw with
  | case1 hp =>
    rintro ⟨⟩
    obtain ⟨rfl, hp⟩ := hp
    exact .again hp
  | case2 hp hr =>
    rintro ⟨⟩
    exact .timeout hr
  | case3 hp hr =>
    intro h
    obtain rfl := not_not.1 hr
    obtain ⟨rw', ht, rfl⟩ := map_eq_some_iff.1 h
    exact .waited (by simpa using hp) ht

theorem unlock_cases (i : Nat) (rw : Fields) : Effect i rw (.body .unlock) (unlock i rw) := by
  fun_cases unlock i rw with
  | case1 h0 => exact .refuse (by decide) (fun _ => .inl h0)
  | case2 h0 hw rw' =>
    have he : released rw = rw' := by simp [released, hw, rw']
    rw [← he]
    exact .release h0 (.inl hw)
  | case3 h0 hw hne => exact .refuse (by decide) (fun _ => .inr ⟨hw, hne⟩)
  | case4 h0 _ hne h1 =>
    have hr := Effect.release h0 (.inr (not_not.1 hne))
    simp only [released, h1, if_true, decide_true, Bool.true_and] at hr
    exact hr
  | case5 h0 _ hne h1 =>
    have hr := Effect.release h0 (.inr (not_not.1 hne))
    simp only [released, h1, if_false, decide_false, Bool.false_and] at hr
    exact hr

theorem exec_cases {p : Pc} (h : exec i rw p = some r) :
    Effect i rw p r := by
  cases p with
  | body op =>
    cases op with
    | unlock =>
      cases h
      exact unlock_cases i rw
    | acquire m k =>
      cases m with
      | read | write =>
        cases k with
        | trylock => exact trylock_cases h
        | block | timed => exact timedlock_cases h
  | check m timed ret => exact afterWait_cases h
  | _ => cases h

/-- What the section that ends a call with 0 does to the outstanding acquisitions. -/
def Pc.success : Pc → Ghost
  | .body (.acquire m _) | .check m _ _ => .gain m
  | .body .unlock => .drop
  | .idle | .enter _ | .timedwait _ _ | .waiting _ _ | .relock _ _ _ | .leave _ | .returned _ =>
    .keep

/-- On its way out of the call, `g` is what a section does that ends it with 0. -/
def Local.Accounts (r : Local) (g : Ghost) : Prop :=
  r.ghost = if r.pc = .leave .ok then g else .keep

theorem exec_accounts {p : Pc} (h : exec i rw p = some r) : r.Accounts p.success := by
  cases exec_cases h with
  | refuse hret | timeout hret => simp [Local.Accounts, hret]
  | pend | direct | again | waited | release => rfl

/-! ## The outstanding acquisitions -/

section
variable {T : Type} (tid : T → Nat)

/-- The fields against the outstanding acquisitions: their number, and either no writer and only
read acquisitions, or one thread with all of them, the oldest a write acquisition. -/
def HeldOk (rw : Fields) (held : List (T × Mode)) : Prop :=
  rw.numLocks = held.length ∧
    ((rw.writerThreadId = 0 ∧ ∀ e ∈ held, e.2 = .read) ∨
      ∃ w, rw.writerThreadId = tid w ∧ (∀ e ∈ held, e.1 = w) ∧
        held.getLast? = some (w, .write))

variable {tid}

variable {rw rw' : Fields} {held : List (T × Mode)} {m m' : Mode} {t u : T} {p : Pc}
  {s s' : State T} {a : Act T} {i : Nat}

theorem HeldOk.congr (h : HeldOk tid rw held) (hn : rw'.numLocks = rw.numLocks)
    (hw : rw'.writerThreadId = rw.writerThreadId) :
    HeldOk tid rw' held := by
  unfold HeldOk
  rw [hn, hw]
  exact h

theorem HeldOk.take (t : T) (hv : ValidTids tid) (h : HeldOk tid rw held)
    (hp : precondition m rw (tid t) = true) (ht : take m (tid t) rw = some rw') :
    HeldOk tid rw' ((t, m) :: held) := by
  obtain ⟨hn, hw, -⟩ := take_eq ht
  obtain ⟨hlen, hcase⟩ := h
  refine ⟨by rw [hn, hlen]; rfl, ?_⟩
  have hpos := hv.pos t
  cases m with
  | read =>
    rw [readPrecondition_iff] at hp
    rw [if_neg (by decide)] at hw
    rcases hcase with ⟨h0, hall⟩ | ⟨w, hwr, hall, hlast⟩
    · -- one more reader
      exact .inl ⟨by rw [hw, h0], forall_mem_cons.2 ⟨rfl, hall⟩⟩
    · -- the writer reads
      have hwpos := hv.pos w
      have htw : w = t := hv.inj w t (by omega)
      subst htw
      refine .inr ⟨w, by rw [hw, hwr], forall_mem_cons.2 ⟨rfl, hall⟩, ?_⟩
      rw [getLast?_cons, hlast]
      rfl
  | write =>
    rw [writePrecondition_iff] at hp
    rw [if_pos rfl] at hw
    have hnil : held = [] → HeldOk tid rw' ((t, .write) :: held) := by
      rintro rfl
      refine ⟨by rw [hn, hlen]; rfl, .inr ⟨t, hw, ?_, rfl⟩⟩
      intro e he
      rw [mem_singleton.mp he]
    rcases hp with hp | hp
    · exact (hnil (length_eq_zero_iff.mp (by omega))).2
    · rcases hcase with ⟨h0, -⟩ | ⟨w, hwr, hall, hlast⟩
      · omega
      · have htw : w = t := hv.inj w t (by omega)
        subst htw
        refine .inr ⟨w, hw, forall_mem_cons.2 ⟨rfl, hall⟩, ?_⟩
        rw [getLast?_cons, hlast]
        rfl

theorem HeldOk.owner (h : HeldOk tid rw held) (ht : (t, m) ∈ held) :
    rw.numLocks ≠ 0 ∧ (rw.writerThreadId = 0 ∨ rw.writerThreadId = tid t) := by
  obtain ⟨hlen, hcase⟩ := h
  have hpos := length_pos_of_mem ht
  refine ⟨by omega, ?_⟩
  rcases hcase with ⟨h0, -⟩ | ⟨w, hwr, hall, -⟩
  · exact .inl h0
  · have htw : t = w := hall _ ht
    rw [htw]
    exact .inr hwr

theorem HeldOk.drop [DecidableEq T] (h : HeldOk tid rw held) (ht : (t, m) ∈ held) :
    HeldOk tid (released rw) (dropNewest held t) := by
  obtain ⟨hlen, hcase⟩ := h
  have hlen' : (dropNewest held t).length = held.length - 1 :=
    length_eraseP_of_mem ht (by simp)
  refine ⟨by rw [hlen', ← hlen]; rfl, ?_⟩
  rcases hcase with ⟨h0, hall⟩ | ⟨w, hwr, hall, hlast⟩
  · refine .inl ⟨by simp [released, h0], ?_⟩
    intro e he
    exact hall e (mem_of_mem_eraseP he)
  · -- every entry is the writer's, so the newest one is the head
    cases held with
    | nil => cases hlast
    | cons e rest =>
      have he : e.1 = t := (hall e mem_cons_self).trans (hall _ ht).symm
      have hdrop : dropNewest (e :: rest) t = rest := by simp [dropNewest, he]
      rw [hdrop] at hlen' ⊢
      cases rest with
      | nil =>
        simp [released, hlen]
      | cons e' rest' =>
        refine .inr ⟨w, ?_, fun e he => hall e (mem_cons_of_mem _ he), hlast⟩
        have : rw.numLocks - 1 ≠ 0 := by
          rw [hlen]
          simp
        simp [released, this, hwr]

/-- The exclusion that `HeldOk` stands for. -/
theorem HeldOk.exclusion (hv : ValidTids tid) (h : HeldOk tid rw held) :
    (rw.writerThreadId ≠ 0 ↔ ∃ e ∈ held, e.2 = .write) ∧
      (rw.writerThreadId ≠ 0 → ∃ w, rw.writerThreadId = tid w ∧ ∀ e ∈ held, e.1 = w) := by
  rcases h.2 with ⟨h0, hall⟩ | ⟨w, hwr, hall, hlast⟩
  · refine ⟨⟨fun hne => absurd h0 hne, ?_⟩, fun hne => absurd h0 hne⟩
    rintro ⟨e, he, hw⟩
    rw [hall e he] at hw
    cases hw
  · have hpos := hv.pos w
    have hmem : (w, Mode.write) ∈ held := mem_of_getLast? hlast
    exact ⟨⟨fun _ => ⟨_, hmem, rfl⟩, fun _ => by omega⟩, fun _ => ⟨w, hwr, hall⟩⟩

/-! ## The invariant -/

def Pc.inside : Pc → Bool
  | .body _ | .timedwait _ _ | .check _ _ _ | .leave _ => true
  | .idle | .enter _ | .waiting _ _ | .relock _ _ _ | .returned _ => false

/-- In an unlock call, before its section. -/
def Pc.unlocking : Pc → Bool
  | .enter .unlock | .body .unlock => true
  | .idle | .enter (.acquire _ _) | .body (.acquire _ _) | .timedwait _ _ | .waiting _ _
  | .relock _ _ _ | .check _ _ _ | .leave _ | .returned _ => false

def Pc.pending : Pc → Option Mode
  | .timedwait m _ | .waiting m _ | .relock m _ _ | .check m _ _ => some m
  | .idle | .enter _ | .body _ | .leave _ | .returned _ => none

def Pends (m : Mode) (p : Pc) : Prop := p.pending = some m

theorem Pc.pends_of_waits (h : p.waits = some m) : Pends m p := by
  cases p with
  | waiting => exact h
  | _ => cases h

theorem Pc.pending_of_outside (h : p.outside = true) : p.pending = none := by
  cases p with
  | idle | returned => rfl
  | _ => cases h

variable (tid) in
structure Inv (s : State T) : Prop where
  mutex : ∀ t, (s.pc t).inside = true → s.lock = some t
  held : HeldOk tid s.rw s.held
  unlocking : ∀ t, (s.pc t).unlocking = true → ∃ m, (t, m) ∈ s.held
  pending : ∀ m, Counts (fun u => Pends m (s.pc u)) (pendingOf m s.rw)
  refused : ∀ t m timed, s.pc t = .timedwait m timed → precondition m s.rw (tid t) = false

theorem Inv.alone (hi : Inv tid s) (ht : (s.pc t).inside = true) (hu : (s.pc u).inside = true) :
    u = t := by
  have h1 := hi.mutex t ht
  rw [hi.mutex u hu] at h1
  exact Option.some.inj h1

theorem Inv.nobodyElse (hi : Inv tid s) (ht : (s.pc t).inside = true) (u : T) (hut : u ≠ t)
    (hu : (s.pc u).inside = true) : none = some u :=
  absurd (hi.alone ht hu) hut

theorem inv_init (h : init s) : Inv tid s := by
  obtain ⟨hrw, hl, hheld, hpc⟩ := h
  refine ⟨?_, ?_, ?_, ?_, ?_⟩
  · intro t ht
    rw [hpc t] at ht
    cases ht
  · rw [hrw, hheld]
    exact ⟨rfl, .inl ⟨rfl, fun e he => by cases he⟩⟩
  · intro t ht
    rw [hpc t] at ht
    cases ht
  · intro m
    have h0 : pendingOf m s.rw = 0 := by
      rw [hrw]
      cases m <;> rfl
    rw [h0]
    refine counts_zero fun t ht => ?_
    rw [hpc t] at ht
    cases ht
  · intro t m timed ht
    rw [hpc t] at ht
    cases ht

/-- Where a section is, and where it leads. -/
theorem Effect.places {r : Local} (h : Effect i rw p r) : p.inside = true ∧
    r.pc.unlocking = false ∧ ∀ m timed, r.pc = .timedwait m timed → precondition m r.rw i = false := by
  cases h with
  | pend hpre hr =>
    refine ⟨rfl, rfl, fun m timed h => ?_⟩
    cases h
    exact (precondition_pend hr i).trans hpre
  | again hpre =>
    refine ⟨rfl, rfl, fun m timed h => ?_⟩
    cases h
    exact hpre
  | _ => exact ⟨rfl, rfl, fun _ _ h => by cases h⟩

/-- After an acquisition by `t`, a precondition that holds for another thread held before. -/
theorem precondition_of_take (hv : ValidTids tid) (hut : u ≠ t) (ht : take m' (tid t) rw = some rw')
    (hpre : precondition m rw' (tid u) = true) :
    precondition m rw (tid u) = true := by
  obtain ⟨hn, hw, hpend⟩ := take_eq ht
  have hne : tid t ≠ tid u := fun h => hut (hv.inj u t h.symm)
  have hpos := hv.pos t
  have hpw : rw'.pendingWriters = rw.pendingWriters := hpend .write
  -- the writer is the one from before or `t`
  have hwr : rw'.writerThreadId = rw.writerThreadId ∨ rw'.writerThreadId = tid t := by
    rw [hw]
    split
    · exact .inr rfl
    · exact .inl rfl
  cases m with
  | read =>
    rw [readPrecondition_iff] at hpre ⊢
    omega
  | write =>
    rw [writePrecondition_iff] at hpre ⊢
    omega

theorem Effect.pc_waits {r : Local} (h : Effect i rw p r) :
    r.pc.waits = none := by
  cases h with
  | _ => rfl

/-- A holder that wants the lock in a mode that its own acquisition allows: the ownership part of
the precondition is true, so only the queued writers are left. -/
theorem HeldOk.precondition_iff {own : Mode} (hv : ValidTids tid) (h : HeldOk tid rw held)
    (ht : (t, own) ∈ held) (hm : own = .write ∨ m = .read) :
    precondition m rw (tid t) = true ↔ m = .write ∨ rw.pendingWriters = 0 := by
  have howner := (h.owner ht).2
  cases m with
  | read =>
    rw [readPrecondition_iff]
    simp [howner]
  | write =>
    have hw : own = .write := by simpa using hm
    rw [hw] at ht
    have hne := (h.exclusion hv).1.mpr ⟨_, ht, rfl⟩
    rw [writePrecondition_iff]
    exact ⟨fun _ => .inl rfl, fun _ => .inr (howner.resolve_left hne)⟩

variable [DecidableEq T]

theorem Inv.pending_leave (hi : Inv tid s) {timed : Bool} {ret : Ret}
    (hp : s.pc t = .check m timed ret) (hnone : p.pending = none) (m' : Mode) :
    Counts (fun u => Pends m' (update s.pc t p u)) (pendingOf m' (unpend m s.rw)) := by
  obtain ⟨-, -, hone, hother⟩ := unpend_eq m s.rw
  by_cases hm : m' = m
  · subst hm
    rw [hone]
    exact (hi.pending m').update_remove (by rw [hp]; rfl)
      (by rw [Pends, hnone]; exact fun h => by cases h)
  · rw [hother m' hm]
    exact (hi.pending m').update_same
      (by rw [hp, Pends, hnone]; simp [Pends, Pc.pending, Ne.symm hm])

theorem Ghost.mem_apply (g : Ghost) (hut : u ≠ t) (h : (u, m) ∈ held) : (u, m) ∈ g.apply t held := by
  cases g with
  | keep => exact h
  | gain => exact mem_cons_of_mem _ h
  | drop =>
    refine (mem_eraseP_of_neg ?_).2 h
    simpa using hut

/-- A section of `t`: what it has to guarantee of the acquisitions and of the counters. -/
theorem Inv.put (hi : Inv tid s) {r : Local} (heff : Effect (tid t) s.rw (s.pc t) r)
    (hheld : HeldOk tid r.rw (r.ghost.apply t s.held))
    (hpend : ∀ m, Counts (fun u => Pends m (update s.pc t r.pc u)) (pendingOf m r.rw)) :
    Inv tid (s.put tid t r) := by
  obtain ⟨hin, hunl, href⟩ := heff.places
  exact {
    mutex := (forall_update_iff s.pc fun u q => q.inside = true → s.lock = some u).2
      ⟨fun _ => hi.mutex t hin, fun u _ => hi.mutex u⟩
    held := hheld
    unlocking := by
      refine (forall_update_iff s.pc fun u q => q.unlocking = true →
        ∃ m, (u, m) ∈ r.ghost.apply t s.held).2 ⟨by simp [hunl], fun u hut hu => ?_⟩
      obtain ⟨m, hm⟩ := hi.unlocking u hu
      exact ⟨m, r.ghost.mem_apply hut hm⟩
    pending := hpend
    refused := (forall_update_iff s.pc fun u q => ∀ m timed, q = .timedwait m timed →
      precondition m r.rw (tid u) = false).2
        ⟨href, fun u hut m timed hu => absurd (hi.alone hin (by rw [hu]; rfl)) hut⟩ }

theorem Inv.goto (hi : Inv tid s) (t : T) (p : Pc) (l : Option T) (told : T → Bool)
    (hin : p.inside = true → l = some t)
    (hothers : ∀ u, u ≠ t → (s.pc u).inside = true → l = some u)
    (hunl : p.unlocking = true → ∃ m, (t, m) ∈ s.held) (hpend : p.pending = (s.pc t).pending)
    (href : ∀ m timed, p ≠ .timedwait m timed) :
    Inv tid { s.goto t p with lock := l, told := told } where
  mutex := (forall_update_iff s.pc fun u q => q.inside = true → l = some u).2
    ⟨hin, hothers⟩
  held := hi.held
  unlocking := (forall_update_iff s.pc fun u q => q.unlocking = true →
    ∃ m, (u, m) ∈ s.held).2 ⟨hunl, fun u _ => hi.unlocking u⟩
  pending := by
    intro m
    exact (hi.pending m).update_same (by rw [Pends, hpend]; rfl)
  refused := (forall_update_iff s.pc fun u q => ∀ m timed, q = .timedwait m timed →
    precondition m s.rw (tid u) = false).2
      ⟨fun m timed h => absurd h (href m timed), fun u _ => hi.refused u⟩

/-! ## Every step keeps the invariant -/

theorem inv_exec (hv : ValidTids tid) (hi : Inv tid s) (t : T) (r : Local)
    (he : exec (tid t) s.rw (s.pc t) = some r) : Inv tid (s.put tid t r) := by
  have heff := exec_cases he
  have hput := hi.put heff
  generalize hp : s.pc t = p at heff
  have same : ∀ {q : Pc} {rw : Fields}, q.pending = p.pending →
      (∀ m, pendingOf m rw = pendingOf m s.rw) →
      ∀ m, Counts (fun u => Pends m (update s.pc t q u)) (pendingOf m rw) := by
    intro q rw hq hrw m
    rw [hrw]
    exact (hi.pending m).update_same (by rw [Pends, Pends, hp, hq])
  cases heff with
  | refuse => exact hput hi.held (same rfl fun _ => rfl)
  | @pend op m timed rw' hpre hr =>
    obtain ⟨hn, hw, hone, hother⟩ := pend_eq hr
    refine hput (hi.held.congr hn hw) fun m' => ?_
    by_cases hm : m' = m
    · subst hm
      rw [hone]
      exact (hi.pending m').update_add (by rw [hp]; exact fun h => by cases h) rfl
    · rw [hother m' hm]
      exact (hi.pending m').update_same (by rw [hp]; simp [Pends, Pc.pending, Ne.symm hm])
  | direct hpre hr =>
    exact hput (hi.held.take t hv hpre hr) (same rfl (take_eq hr).2.2)
  | again => exact hput hi.held (same rfl fun _ => rfl)
  | @timeout m timed ret hret =>
    obtain ⟨hn, hw, -⟩ := unpend_eq m s.rw
    exact hput (hi.held.congr hn hw) (hi.pending_leave hp rfl)
  | @waited m timed rw' hpre hr =>
    obtain ⟨hn, hw, -⟩ := unpend_eq m s.rw
    rw [← precondition_unpend] at hpre
    refine hput ((hi.held.congr hn hw).take t hv hpre hr) fun m' => ?_
    rw [(take_eq hr).2.2 m']
    exact hi.pending_leave hp rfl m'
  | release h0 hw =>
    obtain ⟨m, hm⟩ := hi.unlocking t (by rw [hp]; rfl)
    exact hput (hi.held.drop hm) (same rfl fun m' => by cases m' <;> rfl)

variable (tid) in
/-- What a step can do; the sections are in `exec`. -/
inductive Change (s : State T) : Act T → State T → Prop
  | call (t : T) (op : Op) (ho : (s.pc t).outside = true)
    (hu : op = .unlock → t ∈ s.held.map Prod.fst) : Change s (.call t op) (s.goto t (.enter op))
  | lock (t : T) (op : Op) (hl : s.lock = none) (hp : s.pc t = .enter op) :
    Change s (.lock t) { s.goto t (.body op) with lock := some t }
  | relock (t : T) (m : Mode) (timed : Bool) (ret : Ret) (hl : s.lock = none)
    (hp : s.pc t = .relock m timed ret) :
    Change s (.lock t) { s.goto t (.check m timed ret) with lock := some t }
  | exec (t : T) (r : Local) (h : exec (tid t) s.rw (s.pc t) = some r) :
    Change s (.exec t) (s.put tid t r)
  | expired (t : T) (m : Mode) (hp : s.pc t = .timedwait m true) :
    Change s (.expired t) (s.goto t (.check m true .etimedout))
  | block (t : T) (m : Mode) (timed : Bool) (hp : s.pc t = .timedwait m timed) :
    Change s (.block t)
      { s.goto t (.waiting m timed) with lock := none, told := Function.update s.told t false }
  | wake (t : T) (timeout : Bool) (m : Mode) (timed : Bool) (ret : Ret)
    (hp : s.pc t = .waiting m timed) : Change s (.wake t timeout) (s.goto t (.relock m timed ret))
  | unlock (t : T) (ret : Ret) (hp : s.pc t = .leave ret) :
    Change s (.unlock t) { s.goto t (.returned ret) with lock := none }

theorem step_cases (h : step tid s a = some s') :
    Change tid s a s' := by
  revert h
  fun_cases step tid s a with
  | case1 t op hc =>
    rintro ⟨⟩
    exact .call t op hc.1 hc.2
  | case3 t hl op hp =>
    rintro ⟨⟩
    exact .lock t op hl hp
  | case4 t hl m timed ret hp =>
    rintro ⟨⟩
    exact .relock t m timed ret hl hp
  | case7 t =>
    intro h
    obtain ⟨r, he, rfl⟩ := map_eq_some_iff.1 h
    exact .exec t r he
  | case8 t m hp =>
    rintro ⟨⟩
    exact .expired t m hp
  | case10 t m timed hp =>
    rintro ⟨⟩
    exact .block t m timed hp
  | case12 t m hp =>
    rintro ⟨⟩
    exact .wake t true m true .etimedout hp
  | case14 t timeout m timed hp =>
    rintro ⟨⟩
    exact .wake t timeout m timed .ok hp
  | case16 t ret hp =>
    rintro ⟨⟩
    exact .unlock t ret hp
  | _ => rintro ⟨⟩

theorem inv_step (hv : ValidTids tid) (hi : Inv tid s) (h : step tid s a = some s') :
    Inv tid s' := by
  -- nobody is in a section while the mutex is free
  have free : ∀ {t}, s.lock = none → ∀ u, u ≠ t → (s.pc u).inside = true → some t = some u := by
    intro t hl u _ hu
    have hm := hi.mutex u hu
    rw [hl] at hm
    cases hm
  cases step_cases h with
  | call t op ho hu =>
    refine hi.goto t _ s.lock s.told (fun h => by cases h) (fun u _ hu => hi.mutex u hu) ?_
      (Pc.pending_of_outside ho).symm (fun _ _ h => by cases h)
    intro hunl
    cases op with
    | unlock => simpa using hu rfl
    | acquire => cases hunl
  | lock t op hl hp =>
    refine hi.goto t _ _ s.told (fun _ => rfl) (free hl) ?_ (by rw [hp]; rfl)
      (fun _ _ h => by cases h)
    intro hunl
    refine hi.unlocking t ?_
    rw [hp]
    cases op with
    | unlock => rfl
    | acquire => cases hunl
  | relock t m timed ret hl hp =>
    exact hi.goto t _ _ s.told (fun _ => rfl) (free hl) (fun h => by cases h) (by rw [hp]; rfl)
      (fun _ _ h => by cases h)
  | exec t r he => exact inv_exec hv hi t r he
  | expired t m hp =>
    exact hi.goto t _ s.lock s.told (fun _ => hi.mutex t (by rw [hp]; rfl))
      (fun u _ hu => hi.mutex u hu) (fun h => by cases h) (by rw [hp]; rfl) (fun _ _ h => by cases h)
  | block t m timed hp =>
    exact hi.goto t _ none _ (fun h => by cases h) (hi.nobodyElse (by rw [hp]; rfl))
      (fun h => by cases h) (by rw [hp]; rfl) (fun _ _ h => by cases h)
  | wake t timeout m timed ret hp =>
    exact hi.goto t _ s.lock s.told (fun h => by cases h) (fun u _ hu => hi.mutex u hu)
      (fun h => by cases h) (by rw [hp]; rfl) (fun _ _ h => by cases h)
  | unlock t ret hp =>
    exact hi.goto t _ none s.told (fun h => by cases h) (hi.nobodyElse (by rw [hp]; rfl))
      (fun h => by cases h) (by rw [hp]; rfl) (fun _ _ h => by cases h)

/-! ## Nobody admissible is left asleep -/

/-- A blocked thread whose precondition holds has been told. -/
def ToldOk (tid : T → Nat) (s : State T) : Prop :=
  ∀ u m, (s.pc u).waits = some m → precondition m s.rw (tid u) = true → s.told u = true

theorem precondition_of_pend (h : pend m' rw = some rw') (hpre : precondition m rw' i = true) :
    precondition m rw i = true := by
  obtain ⟨hn, hw, hone, hother⟩ := pend_eq h
  cases m with
  | read =>
    rw [readPrecondition_iff, hw] at hpre
    rw [readPrecondition_iff]
    have hle : rw.pendingWriters ≤ rw'.pendingWriters := by
      cases m' with
      | read => exact (hother .write (by decide)).ge
      | write => exact (Nat.le_succ _).trans hone.ge
    exact ⟨by omega, hpre.2⟩
  | write =>
    rw [writePrecondition_iff, hn, hw] at hpre
    rwa [writePrecondition_iff]

/-- One pending acquisition less opens the lock for readers only, and only if it was the last
pending writer's. -/
theorem precondition_of_unpend (hpre : precondition m (unpend m' rw) i = true)
    (hlast : m = .read → m' = .write → rw.pendingWriters = 1 →
      ¬ (rw.writerThreadId = 0 ∨ rw.writerThreadId = i)) : precondition m rw i = true := by
  obtain ⟨hn, hw, hone, hother⟩ := unpend_eq m' rw
  cases m with
  | write =>
    rw [writePrecondition_iff, hn, hw] at hpre
    rwa [writePrecondition_iff]
  | read =>
    rw [readPrecondition_iff, hw] at hpre
    rw [readPrecondition_iff]
    obtain ⟨h0, hwr⟩ := hpre
    refine ⟨?_, hwr⟩
    cases m' with
    | read => exact (hother .write (by decide)).symm.trans h0
    | write =>
      have h1 : rw.pendingWriters - 1 = 0 := hone.symm.trans h0
      by_cases hp : rw.pendingWriters = 1
      · exact absurd hwr (hlast rfl rfl hp)
      · omega

/-- The end of an acquisition opens nothing if the lock is not free then. -/
theorem precondition_of_released (hz : rw.numLocks - 1 ≠ 0)
    (hpre : precondition m (released rw) i = true) : precondition m rw i = true := by
  cases m with
  | read =>
    rw [readPrecondition_iff] at hpre ⊢
    simpa [released, hz] using hpre
  | write =>
    rw [writePrecondition_iff] at hpre ⊢
    simp only [released, hz, if_false, false_or] at hpre
    exact .inr hpre

omit [DecidableEq T] in
/-- A section without broadcast opens no blocked thread's precondition, the timeout of the last
pending writer apart. -/
theorem Effect.opens (hv : ValidTids tid) (hi : Inv tid s) {r : Local}
    (heff : Effect (tid t) s.rw (s.pc t) r) (hg : NoStranding tid s (.exec t)) (hut : u ≠ t)
    (hw : (s.pc u).waits = some m) (hpre : precondition m r.rw (tid u) = true) :
    r.pulse = true ∨ precondition m s.rw (tid u) = true := by
  generalize hp : s.pc t = p at heff
  cases heff with
  | refuse => exact .inr hpre
  | again => exact .inr hpre
  | pend _ hr => exact .inr (precondition_of_pend hr hpre)
  | direct _ hr => exact .inr (precondition_of_take hv hut hr hpre)
  | @timeout m' timed ret hret =>
    refine .inr (precondition_of_unpend hpre ?_)
    rintro rfl rfl h1
    have hto : (s.pc t).timesOut = true := by
      rw [hp]
      exact decide_eq_true hret
    exact hg hto h1 u hw
  | @waited m' timed rw' _ hr =>
    refine .inr (precondition_of_unpend (precondition_of_take hv hut hr hpre) ?_)
    -- the thread that got in is the writer, so it keeps a reader out
    rintro rfl rfl -
    obtain ⟨-, hwr, -⟩ := take_eq hr
    have hne : tid t ≠ tid u := fun h => hut (hv.inj u t h.symm)
    have hpos := hv.pos t
    rw [readPrecondition_iff] at hpre
    change _ ∧ (rw'.writerThreadId = 0 ∨ rw'.writerThreadId = tid u) at hpre
    rw [if_pos rfl] at hwr
    omega
  | release h0 hwr =>
    by_cases hz : s.rw.numLocks - 1 = 0
    · -- the lock is free: somebody is pending, so there is a broadcast
      have hpos := (hi.pending m).pos u (Pc.pends_of_waits hw)
      have hpulse : pulse s.rw = true := by
        refine decide_eq_true ?_
        cases m with
        | read => exact .inl hpos
        | write => exact .inr hpos
      simp [hz, hpulse]
    · exact .inr (precondition_of_released hz hpre)

/-- A step that keeps the fields and moves `t` to a place where it is not blocked. -/
theorem ToldOk.goto (h : ToldOk tid s) (t : T) (p : Pc) (l : Option T) (hp : p.waits = none) :
    ToldOk tid { s.goto t p with lock := l } := by
  intro u m hu hpre
  by_cases hut : u = t
  · subst hut
    simp [State.goto, hp] at hu
  · exact h u m (by simpa [State.goto, hut] using hu) hpre

theorem told_exec (hv : ValidTids tid) (hi : Inv tid s) (ht : ToldOk tid s) (t : T) (r : Local)
    (hg : NoStranding tid s (.exec t)) (he : exec (tid t) s.rw (s.pc t) = some r) :
    ToldOk tid (s.put tid t r) := by
  have heff := exec_cases he
  intro u m hu hpre
  by_cases hut : u = t
  · subst hut
    simp [State.put, heff.pc_waits] at hu
  · have hw : (s.pc u).waits = some m := by simpa [State.put, hut] using hu
    have hpre' : precondition m r.rw (tid u) = true := hpre
    simp only [State.put, retell, hw, hpre', Bool.true_and, Bool.or_eq_true]
    rcases heff.opens hv hi hg hut hw hpre' with h | h
    · exact .inl h
    · exact .inr (ht u m hw h)

theorem told_step (hv : ValidTids tid) (hi : Inv tid s) (ht : ToldOk tid s)
    (hg : NoStranding tid s a) (h : step tid s a = some s') :
    ToldOk tid s' := by
  cases step_cases h with
  | call | lock | relock | expired | wake | unlock => exact ht.goto _ _ _ rfl
  | exec t r he => exact told_exec hv hi ht t r hg he
  | block t m timed hp =>
    intro u m' hu hpre
    by_cases hut : u = t
    · -- it blocks only after it found its precondition false
      subst hut
      have hm : m = m' := by simpa [State.goto, Pc.waits] using hu
      rw [← hm] at hpre
      have hno := hi.refused u m timed hp
      exact absurd hpre (by simpa [State.goto] using hno)
    · have htold := ht u m' (by simpa [State.goto, hut] using hu) hpre
      simpa [hut] using htold

/-! ## Top theorems -/

/-- The outstanding acquisitions change only with a section of a call that goes on to return 0. -/
def Accounts (s : State T) (a : Act T) (s' : State T) : Prop :=
  match a with
  | .exec t => s'.held =
      if s'.pc t = .leave .ok then (s.pc t).success.apply t s.held else s.held
  | _ => s'.held = s.held

theorem accounts_step (h : step tid s a = some s') : Accounts s a s' := by
  cases step_cases h with
  | exec t r he =>
    have hr : r.ghost = _ := exec_accounts he
    simp only [Accounts, State.put, update_self, hr]
    split <;> rfl
  | _ => rfl

/-- **Exclusion.**  In every reachable state `numLocks` is the number of outstanding acquisitions,
there is a writer exactly when one of them is a write acquisition, and then all of them are the
writer's; the section of a call that is to return 0 adds the acquisition or ends the newest one of
its thread, and no other step changes them. -/
theorem rwlock_exclusion {s : State T} (hv : ValidTids tid) (h : (machine tid).Reachable s) :
    s.rw.numLocks = s.held.length ∧
      (s.rw.writerThreadId ≠ 0 ↔ ∃ e ∈ s.held, e.2 = .write) ∧
      (s.rw.writerThreadId ≠ 0 → ∃ w, s.rw.writerThreadId = tid w ∧ ∀ e ∈ s.held, e.1 = w) ∧
      ∀ a s', step tid s a = some s' → Accounts s a s' := by
  have hi : Inv tid s := Machine.Reachable.invariant (M := machine tid) (fun _ h0 => inv_init h0)
    (fun _ _ _ hi hs => inv_step hv hi hs) h
  obtain ⟨hwriter, hall⟩ := hi.held.exclusion hv
  exact ⟨hi.held.1, hwriter, hall, fun a s' hs => accounts_step hs⟩

def fresh (T : Type) : State T := ⟨⟨0, 0, 0, 0⟩, none, fun _ => .idle, [], fun _ => false⟩

omit [DecidableEq T] in
theorem fresh_init : init (fresh T) := ⟨rfl, rfl, rfl, fun _ => rfl⟩

/-- Kernel ids 1, 2, .. for finitely many threads. -/
def idOf {n : Nat} (t : Fin n) : Nat := t.val + 1

theorem idOf_valid (n : Nat) : ValidTids (idOf : Fin n → Nat) where
  inj := by
    intro t u h
    simp only [idOf] at h
    exact Fin.ext (by omega)
  pos := by
    intro t
    simp only [idOf]
    omega

/-- A call that neither meets a busy mutex nor waits. -/
def quickCall (t : T) (op : Op) : List (Act T) := [.call t op, .lock t, .exec t, .unlock t]

def blockedCall (t : T) (op : Op) : List (Act T) := [.call t op, .lock t, .exec t, .block t]

theorem rwlock_exclusion_writer_reads :
    ∃ s : State (Fin 2), (machine idOf).Reachable s ∧ s.held = [(0, .read), (0, .write)] ∧
      s.rw.numLocks = s.held.length ∧
      (s.rw.writerThreadId ≠ 0 ↔ ∃ e ∈ s.held, e.2 = .write) ∧
      (s.rw.writerThreadId ≠ 0 → ∃ w, s.rw.writerThreadId = idOf w ∧ ∀ e ∈ s.held, e.1 = w) ∧
      ∀ a s', step idOf s a = some s' → Accounts s a s' := by
  obtain ⟨s, hs, hheld⟩ : ∃ s : State (Fin 2),
      (machine idOf).run (fresh (Fin 2)) (quickCall 0 (.acquire .write .block) ++
        blockedCall 1 (.acquire .read .timed) ++ quickCall 0 (.acquire .read .trylock)) = some s ∧
      s.held = [(0, .read), (0, .write)] := ⟨_, rfl, rfl⟩
  have hr : (machine idOf).Reachable s := Machine.Reachable.run (.init fresh_init) _ hs
  exact ⟨s, hr, hheld, rwlock_exclusion (idOf_valid 2) hr⟩

/-- **No admissible thread is left asleep.**  In every run in which no timed write acquisition
gives up as the last pending writer while a reader is blocked that only it keeps out, a blocked
thread whose precondition holds has a broadcast on its way that was issued after the precondition
became true. -/
theorem rwlock_wakes {s : State T} (hv : ValidTids tid)
    (h : (machine tid).ReachableIf (NoStranding tid) s) (u : T) (m : Mode)
    (hu : (s.pc u).waits = some m) (hpre : precondition m s.rw (tid u) = true) :
    s.told u = true := by
  have hi : Inv tid s ∧ ToldOk tid s := by
    refine Machine.ReachableIf.invariant (I := fun s => Inv tid s ∧ ToldOk tid s)
      ?_ ?_ h
    · intro s h0
      refine ⟨inv_init h0, ?_⟩
      intro u m hu
      rw [h0.2.2.2 u] at hu
      cases hu
    · rintro s a s' ⟨hi, ht⟩ hg hs
      exact ⟨inv_step hv hi hs, told_step hv hi ht hg hs⟩
  exact hi.2 u m hu hpre

theorem rwlock_wakes_reader :
    ∃ s : State (Fin 2), (machine idOf).ReachableIf (NoStranding idOf) s ∧ s.lock = none ∧
      (s.pc 1).waits = some .read ∧ precondition .read s.rw (idOf (1 : Fin 2)) = true ∧
      s.told 1 = true := by
  obtain ⟨s, hs, hl, hw, hpre⟩ : ∃ s : State (Fin 2),
      (machine idOf).runIf (NoStranding idOf) (fresh (Fin 2))
        (quickCall 0 (.acquire .write .block) ++ blockedCall 1 (.acquire .read .block) ++
          quickCall 0 .unlock) = some s ∧ s.lock = none ∧
      (s.pc 1).waits = some .read ∧ precondition .read s.rw (idOf (1 : Fin 2)) = true :=
    Machine.exists_end (by decide +kernel)
  have hr : (machine idOf).ReachableIf (NoStranding idOf) s :=
    Machine.ReachableIf.runIf (.init fresh_init) _ hs
  exact ⟨s, hr, hl, hw, hpre, rwlock_wakes (idOf_valid 2) hr 1 .read hw hpre⟩

/-- Thread 0 reads, thread 1 waits for a timed write acquisition, thread 2 blocks as a reader
behind it, and the wait of thread 1 times out. -/
def strandingRun : List (Act (Fin 3)) :=
  quickCall 0 (.acquire .read .block) ++ blockedCall 1 (.acquire .write .timed) ++
    blockedCall 2 (.acquire .read .block) ++ [.wake 1 true, .lock 1, .exec 1, .unlock 1]

/-- The timeout exit makes no broadcast: the reader stays blocked on a lock it may have. -/
theorem reader_stranded :
    ∃ s : State (Fin 3), (machine idOf).run (fresh (Fin 3)) strandingRun = some s ∧
      s.lock = none ∧ (s.pc 2).waits = some .read ∧
      precondition .read s.rw (idOf (2 : Fin 3)) = true ∧ s.told 2 = false :=
  ⟨_, rfl, rfl, rfl, rfl, rfl⟩

/-! ## Acquiring again -/

theorem start_of_precondition (k : Kind) (hp : precondition m rw i = true) :
    start i rw (.acquire m k) = acquired m i rw := by
  have htry : trylock m i rw = acquired m i rw := by simp [trylock, hp]
  have htimed : ∀ timed, timedlock m timed i rw = acquired m i rw := by simp [timedlock, hp]
  cases m with
  | read | write =>
    cases k with
    | trylock => exact htry
    | block | timed => exact htimed _

theorem take_isSome_iff (m : Mode) (i : Nat) (rw : Fields) :
    (∃ rw', take m i rw = some rw') ↔ rw.numLocks + 1 < 2 ^ 31 := by
  simp [take, incr]

/-- The section that `t` is at takes the lock in mode `m`, with nothing left to wait for. -/
def AcquiresNow (tid : T → Nat) (s : State T) (t : T) (m : Mode) : Prop :=
  ∃ s', step tid s (.exec t) = some s' ∧ s'.pc t = .leave .ok ∧ s'.held = (t, m) :: s.held

theorem acquiresNow_iff {k : Kind} (hpc : s.pc t = .body (.acquire m k)) :
    AcquiresNow tid s t m ↔ precondition m s.rw (tid t) = true ∧ s.rw.numLocks + 1 < 2 ^ 31 := by
  rw [← take_isSome_iff m (tid t)]
  constructor
  · rintro ⟨s', hs, hleave, hheld⟩
    simp only [step, map_eq_some_iff] at hs
    obtain ⟨r, he, rfl⟩ := hs
    rw [hpc] at he
    simp only [State.put, update_self] at hleave hheld
    cases exec_cases he with
    | refuse => exact absurd hheld.symm (cons_ne_self _ _)
    | pend => cases hleave
    | direct hp ht =>
      cases hheld
      exact ⟨hp, _, ht⟩
  · rintro ⟨hp, rw', ht⟩
    have he : exec (tid t) s.rw (s.pc t) = some ⟨rw', .gain m, false, .leave .ok⟩ := by
      rw [hpc]
      change start (tid t) s.rw (.acquire m k) = _
      rw [start_of_precondition k hp, acquired, ht]
      rfl
    exact ⟨s.put tid t ⟨rw', .gain m, false, .leave .ok⟩, by rw [step, he]; rfl,
      by simp [State.put], rfl⟩

/-- **Acquiring again.**  A thread that holds the lock and asks for it in a mode that its own
acquisition allows gets it without waiting exactly when it asks for write mode or no writer is
pending, as long as the counter of acquisitions has room. -/
theorem reacquire_iff {s : State T} (hv : ValidTids tid) (h : (machine tid).Reachable s) {t : T}
    {own m : Mode} {k : Kind} (ht : (t, own) ∈ s.held) (hm : own = .write ∨ m = .read)
    (hpc : s.pc t = .body (.acquire m k)) :
    AcquiresNow tid s t m ↔
      (m = .write ∨ s.rw.pendingWriters = 0) ∧ s.rw.numLocks + 1 < 2 ^ 31 := by
  have hi : Inv tid s := Machine.Reachable.invariant (M := machine tid) (fun _ h0 => inv_init h0)
    (fun _ _ _ hi hs => inv_step hv hi hs) h
  rw [acquiresNow_iff hpc, hi.held.precondition_iff hv ht hm]

/-- The writer writes again while another writer is blocked. -/
theorem reacquire_iff_writer :
    ∃ s : State (Fin 2), (machine idOf).Reachable s ∧ (0, .write) ∈ s.held ∧
      s.pc 0 = .body (.acquire .write .block) ∧ s.rw.pendingWriters = 1 ∧
      AcquiresNow idOf s 0 .write := by
  obtain ⟨s, hs, hheld, hpc, hpend, hn⟩ : ∃ s : State (Fin 2),
      (machine idOf).run (fresh (Fin 2)) (quickCall 0 (.acquire .write .block) ++
        blockedCall 1 (.acquire .write .block) ++
        [.call 0 (.acquire .write .block), .lock 0]) = some s ∧
      s.held = [(0, .write)] ∧ s.pc 0 = .body (.acquire .write .block) ∧
      s.rw.pendingWriters = 1 ∧ s.rw.numLocks = 1 := ⟨_, rfl, rfl, rfl, rfl, rfl⟩
  have hr : (machine idOf).Reachable s := Machine.Reachable.run (.init fresh_init) _ hs
  have hmem : (0, .write) ∈ s.held := by simp [hheld]
  exact ⟨s, hr, hmem, hpc, hpend,
    (reacquire_iff (idOf_valid 2) hr hmem (.inl rfl) hpc).mpr ⟨.inl rfl, by simp [hn]⟩⟩

/-- Thread 0 reads, thread 1 waits to write, thread 0 reads again: each is blocked until the other
one unlocks. -/
theorem reader_deadlocks :
    ∃ s : State (Fin 2), (machine idOf).run (fresh (Fin 2))
        (quickCall 0 (.acquire .read .block) ++ blockedCall 1 (.acquire .write .block) ++
          blockedCall 0 (.acquire .read .block)) = some s ∧
      s.held = [(0, .read)] ∧
      (s.pc 0).waits = some .read ∧ precondition .read s.rw (idOf (0 : Fin 2)) = false ∧
      (s.pc 1).waits = some .write ∧ precondition .write s.rw (idOf (1 : Fin 2)) = false :=
  ⟨_, rfl, rfl, rfl, rfl, rfl, rfl⟩

end

end Pthread.Rwlock
