import GitTest.Lib.Transition
import GitTest.Lib.Futex
import GitTest.Pthread.Word

/-!
# Normal mutexes: mutual exclusion and wake-ups (libc/bionic/pthread.c)

`_normal_lock`, `_normal_unlock` and the normal-type paths of `pthread_mutex_trylock`
and `pthread_mutex_lock_timeout_np`, run by the threads of any type `T`.  Each read of
the word, `__atomic_cmpxchg`, `__atomic_swap`, `__atomic_dec`, the plain store, the
compare-and-sleep of the futex wait and the futex wake is one step; a thread's place in
the code with its local `shared` is its `Pc`.  `held` is a ghost: set by a successful
acquisition, cleared by the release step of the unlock (the decrement of an uncontended
word, else the store).  A thread may call any acquiring function at any time, also while
it holds the mutex; it calls unlock only while it holds it.

    run s₀ acts = some s → at most one thread holds, a call that returned 0 has left its thread
      as a holder or not, and the shared bit never changes  (normal_mutual_exclusion)
    Reachable s → a sleeper next to a word in state 0 or 1 has a thread that will wake it
      or put the word back to state 2  (normal_no_lost_wakeup)

Both rest on `exec_cases`, which says once what a step of the code can do to the word.
-/

namespace Pthread.Normal

open Machines Futex

/-! ## Algorithm -/

/-- The three functions that acquire. -/
inductive Call
  | lock
  | trylock
  | lockTimeout
  deriving DecidableEq, Repr

/-- The result of the last call: 0 of a function that acquires, `EBUSY`, or 0 of the unlock. -/
inductive Ret
  | locked
  | ebusy
  | unlocked
  deriving DecidableEq, Repr

/-- A thread's next step; `timed` tells `pthread_mutex_lock_timeout_np` from
`pthread_mutex_lock`. -/
inductive Pc
  | idle
  /-- `mtype = mutex->value & MUTEX_TYPE_MASK` -/
  | readType (c : Call)
  /-- `shared = mutex->value & MUTEX_SHARED_MASK` -/
  | readShared (c : Call)
  /-- `__atomic_cmpxchg(shared|0, shared|1, &mutex->value)` -/
  | cmpxchg (c : Call) (shared : Word)
  /-- `__atomic_swap(shared|2, &mutex->value)` -/
  | swap (timed : Bool) (shared : Word)
  /-- `__timespec_to_absolute(&ts, &abstime, clock) < 0` -/
  | deadline (shared : Word)
  /-- `__futex_wait_ex(&mutex->value, shared, shared|2, ..)` -/
  | wait (timed : Bool) (shared : Word)
  /-- In the kernel: asleep while it has a queue entry, about to return when it has none. -/
  | blocked (timed : Bool) (shared : Word)
  | unlockType
  | unlockShared
  /-- `__atomic_dec(&mutex->value)` -/
  | dec (shared : Word)
  /-- `mutex->value = shared` -/
  | store (shared : Word)
  /-- `__futex_wake_ex(&mutex->value, shared, 1)` -/
  | wake (shared : Word)
  /-- The type bits did not say `MUTEX_TYPE_NORMAL`. -/
  | otherType
  | returned (r : Ret)
  deriving DecidableEq, Repr

structure State (T : Type) where
  value : Word
  queue : Queue T
  pc : T → Pc
  held : T → Bool

inductive Act (T : Type)
  | call (t : T) (c : Call)
  /-- A thread that holds the mutex calls `pthread_mutex_unlock`. -/
  | unlock (t : T)
  | exec (t : T)
  /-- The timed lock finds its deadline passed and returns `EBUSY`. -/
  | expire (t : T)
  | futexWait (t : T)
  /-- A sleeper leaves the queue by a signal, a timeout or spuriously. -/
  | leave (t : T)
  /-- A thread without queue entry returns from the futex wait. -/
  | resume (t : T)
  | futexWake (t : T) (woken : Option T)

/-- What a step on the word leaves: the word, the ghost of its thread, the next place. -/
structure Local where
  value : Word
  held : Bool
  pc : Pc

/-- The type dispatch at the start of each function. -/
def dispatch (value : Word) (next : Pc) : Pc :=
  if value &&& mutexTypeMask = mutexTypeNormal then next else .otherType

/-- The first attempt: state 0 to state 1. -/
def tryFast (c : Call) (shared value : Word) (held : Bool) : Local :=
  let r := atomicCmpxchg (shared ||| 0) (shared ||| 1) value
  if r.2 = 0 then ⟨r.1, true, .returned .locked⟩
  else
    match c with
    | .lock => ⟨r.1, held, .swap false shared⟩
    | .lockTimeout => ⟨r.1, held, .swap true shared⟩
    | .trylock => ⟨r.1, held, .returned .ebusy⟩

/-- The loop condition of the slow path: swap in state 2, acquired if the old state was 0. -/
def trySlow (timed : Bool) (shared value : Word) (held : Bool) : Local :=
  let r := atomicSwap (shared ||| 2) value
  if r.2 = shared ||| 0 then ⟨r.1, true, .returned .locked⟩
  else ⟨r.1, held, if timed then .deadline shared else .wait timed shared⟩

/-- The decrement of the unlock. -/
def decState (shared value : Word) (held : Bool) : Local :=
  let r := atomicDec value
  if r.2 ≠ shared ||| 1 then ⟨r.1, held, .store shared⟩ else ⟨r.1, false, .returned .unlocked⟩

def exec (value : Word) (held : Bool) : Pc → Option Local
  | .readType c => some ⟨value, held, dispatch value (.readShared c)⟩
  | .readShared c => some ⟨value, held, .cmpxchg c (value &&& mutexSharedMask)⟩
  | .cmpxchg c shared => some (tryFast c shared value held)
  | .swap timed shared => some (trySlow timed shared value held)
  | .deadline shared => some ⟨value, held, .wait true shared⟩
  | .unlockType => some ⟨value, held, dispatch value .unlockShared⟩
  | .unlockShared => some ⟨value, held, .dec (value &&& mutexSharedMask)⟩
  | .dec shared => some (decState shared value held)
  | .store shared => some ⟨shared, false, .wake shared⟩
  | .idle | .wait _ _ | .blocked _ _ | .wake _ | .otherType | .returned _ => none

/-- A thread may make its next call. -/
def Pc.outside : Pc → Bool
  | .idle | .returned _ => true
  | .readType _ | .readShared _ | .cmpxchg _ _ | .swap _ _ | .deadline _ | .wait _ _ | .blocked _ _
  | .unlockType | .unlockShared | .dec _ | .store _ | .wake _ | .otherType => false

section
variable {T : Type} [DecidableEq T]

def State.goto (s : State T) (t : T) (p : Pc) : State T :=
  { s with pc := Function.update s.pc t p }

/-- Put the result of a step of `t` on the word into the state. -/
def State.put (s : State T) (t : T) (r : Local) : State T :=
  { s with
    value := r.value
    pc := Function.update s.pc t r.pc
    held := Function.update s.held t r.held }

def step (s : State T) : Act T → Option (State T)
  | .call t c => if (s.pc t).outside then some (s.goto t (.readType c)) else none
  | .unlock t =>
    if (s.pc t).outside ∧ s.held t = true then some (s.goto t .unlockType) else none
  | .exec t => (exec s.value (s.held t) (s.pc t)).map fun r => s.put t r
  | .expire t =>
    match s.pc t with
    | .deadline _ => some (s.goto t (.returned .ebusy))
    | _ => none
  | .futexWait t =>
    match s.pc t with
    | .wait timed shared =>
      if s.value = shared ||| 2 then
        some { s.goto t (.blocked timed shared) with queue := sleep s.queue t (pshared shared) }
      else some (s.goto t (.swap timed shared))
    | _ => none
  | .leave t => if asleep s.queue t then some { s with queue := leave s.queue t } else none
  | .resume t =>
    match s.pc t with
    | .blocked timed shared =>
      if asleep s.queue t then none else some (s.goto t (.swap timed shared))
    | _ => none
  | .futexWake t woken =>
    match s.pc t with
    | .wake shared =>
      (wakeOne s.queue (pshared shared) woken).map fun q =>
        { s.goto t (.returned .unlocked) with queue := q }
    | _ => none

/-- Any number of idle threads and a mutex initialised as a normal one. -/
def init (s : State T) : Prop :=
  (∃ attr, pthreadMutexInit attr = some s.value) ∧ s.value &&& mutexTypeMask = mutexTypeNormal ∧
    s.queue = [] ∧ ∀ t, s.pc t = .idle ∧ s.held t = false

def machine : Machine (State T) (Act T) := ⟨init, step⟩

end

/-! ## What a step can do to the word -/

/-- In `pthread_mutex_unlock`, before the release step. -/
def Pc.unlocking : Pc → Bool
  | .unlockType | .unlockShared | .dec _ | .store _ => true
  | .idle | .readType _ | .readShared _ | .cmpxchg _ _ | .swap _ _ | .deadline _ | .wait _ _
  | .blocked _ _ | .wake _ | .otherType | .returned _ => false

/-- The thread will wake a sleeper or swap in state 2 before it does anything else. -/
def Pc.rescues : Pc → Bool
  | .swap _ _ | .store _ | .wake _ => true
  | .idle | .readType _ | .readShared _ | .cmpxchg _ _ | .deadline _ | .wait _ _ | .blocked _ _
  | .unlockType | .unlockShared | .dec _ | .otherType | .returned _ => false

def Pc.inKernel : Pc → Bool
  | .blocked _ _ => true
  | .idle | .readType _ | .readShared _ | .cmpxchg _ _ | .swap _ _ | .deadline _ | .wait _ _
  | .unlockType | .unlockShared | .dec _ | .store _ | .wake _ | .otherType | .returned _ => false

theorem Pc.of_outside {p : Pc} (h : p.outside = true) : p.rescues = false ∧ p.inKernel = false := by
  cases p with
  | idle | returned => exact ⟨rfl, rfl⟩
  | _ => cases h

/-- The thread is in the normal-mutex code, and its local `shared` is `sh`. -/
def Pc.Knows (sh : Word) : Pc → Prop
  | .cmpxchg _ x | .swap _ x | .deadline x | .wait _ x | .blocked _ x | .dec x | .store x
  | .wake x => x = sh
  | .idle | .readType _ | .readShared _ | .unlockType | .unlockShared | .returned _ => True
  | .otherType => False

/-- The word of a normal mutex with the shared flag `sh` is in state 0, 1 or 2. -/
def InState (sh value : Word) : Prop :=
  IsSharedFlag sh ∧ (value = sh ∨ value = sh ||| 1 ∨ value = sh ||| 2)

theorem InState.masks {sh value : Word} (h : InState sh value) :
    value &&& mutexTypeMask = mutexTypeNormal ∧ value &&& mutexSharedMask = sh := by
  obtain ⟨hsh, hv⟩ := h
  rcases hsh with rfl | rfl <;> rcases hv with rfl | rfl | rfl <;> decide

/-- Everything `exec` can do from a word in state 0, 1 or 2 at a place whose local `shared` is
the word's flag. -/
inductive Effect (sh : Word) : Word → Bool → Pc → Local → Prop
  /-- Nothing happens to the word or the holder. -/
  | quiet {v : Word} {b : Bool} {p p' : Pc} : p'.Knows sh → p.rescues = false →
      p.inKernel = false → (p'.unlocking = true → p.unlocking = true) → Effect sh v b p ⟨v, b, p'⟩
  /-- The first attempt takes a free mutex to state 1. -/
  | acquire1 {b : Bool} {c : Call} : Effect sh sh b (.cmpxchg c sh) ⟨sh ||| 1, true, .returned .locked⟩
  /-- A contender takes a free mutex to state 2. -/
  | acquire2 {b timed : Bool} : Effect sh sh b (.swap timed sh) ⟨sh ||| 2, true, .returned .locked⟩
  /-- A contender marks a mutex that is held as contended. -/
  | contend {v : Word} {b timed : Bool} {p' : Pc} : v ≠ sh →
      p' = .deadline sh ∨ p' = .wait timed sh → Effect sh v b (.swap timed sh) ⟨sh ||| 2, b, p'⟩
  /-- The decrement releases an uncontended mutex. -/
  | release1 {b : Bool} : Effect sh (sh ||| 1) b (.dec sh) ⟨sh, false, .returned .unlocked⟩
  /-- The decrement of a contended mutex does not release it. -/
  | demote {b : Bool} : Effect sh (sh ||| 2) b (.dec sh) ⟨sh ||| 1, b, .store sh⟩
  /-- The store releases it. -/
  | release2 {v : Word} {b : Bool} : Effect sh v b (.store sh) ⟨sh, false, .wake sh⟩

theorem exec_cases {sh v : Word} {b : Bool} {p : Pc} {r : Local} (hv : InState sh v)
    (hk : p.Knows sh) (hbusy : p.unlocking = true → v ≠ sh) (h : exec v b p = some r) :
    Effect sh v b p r := by
  obtain ⟨hor, h1, h2, h12, hd1, hd2⟩ := hv.1.states
  cases p with
  | idle | wait | blocked | wake | otherType | returned => cases h
  | readType | unlockType =>
    simp only [exec, dispatch, hv.masks.1, if_true, Option.some.injEq] at h
    subst h
    exact .quiet trivial rfl rfl (fun h => h)
  | readShared | unlockShared =>
    simp only [exec, hv.masks.2, Option.some.injEq] at h
    subst h
    exact .quiet rfl rfl rfl (fun h => h)
  | cmpxchg c shared =>
    subst hk
    simp only [exec, tryFast, atomicCmpxchg, hor, Option.some.injEq] at h
    by_cases hf : v = shared
    · subst hf
      simp only [if_true] at h
      subst h
      exact .acquire1
    · simp only [hf, if_false, show ¬ (1 : Word) = 0 by decide] at h
      cases c with
      | lock | lockTimeout =>
        subst h
        exact .quiet rfl rfl rfl (fun h => h)
      | trylock =>
        subst h
        exact .quiet trivial rfl rfl (fun h => h)
  | swap timed shared =>
    subst hk
    simp only [exec, trySlow, atomicSwap, hor, Option.some.injEq] at h
    by_cases hf : v = shared
    · subst hf
      simp only [if_true] at h
      subst h
      exact .acquire2
    · simp only [hf, if_false] at h
      subst h
      exact .contend hf (by cases timed <;> simp)
  | deadline shared =>
    subst hk
    simp only [exec, Option.some.injEq] at h
    subst h
    exact .quiet rfl rfl rfl (fun h => h)
  | dec shared =>
    subst hk
    simp only [exec, decState, atomicDec, Option.some.injEq] at h
    -- the thread holds, so the word is not in state 0
    rcases hv.2 with rfl | rfl | rfl
    · exact absurd rfl (hbusy rfl)
    · simp only [ne_eq, not_true_eq_false, if_false, hd1] at h
      subst h
      exact .release1
    · simp only [ne_eq, h12, not_false_eq_true, if_true, hd2] at h
      subst h
      exact .demote
  | store shared =>
    subst hk
    simp only [exec, Option.some.injEq] at h
    subst h
    exact .release2

/-! ## The invariant -/

section
variable {T : Type}

/-- `u` is awake and will wake a sleeper or swap in state 2 before it does anything else. -/
def Rescuer (s : State T) (u : T) : Prop :=
  (s.pc u).rescues = true ∨ ((s.pc u).inKernel = true ∧ ¬ asleep s.queue u)

structure Inv (sh : Word) (s : State T) : Prop where
  word : InState sh s.value
  knows : ∀ t, (s.pc t).Knows sh
  busy : ∀ t, s.held t = true → s.value ≠ sh
  one : ∀ t u, s.held t = true → s.held u = true → t = u
  unlocking : ∀ t, (s.pc t).unlocking = true → s.held t = true
  queued : ∀ t ps, (t, ps) ∈ s.queue → (s.pc t).inKernel = true ∧ ps = pshared sh
  rescue : ∀ t, asleep s.queue t → s.value = sh ||| 2 ∨ ∃ u, Rescuer s u

variable {sh : Word} {s s' : State T}

theorem Inv.notQueued (hi : Inv sh s) {t : T} (hk : (s.pc t).inKernel = false) :
    ¬ asleep s.queue t := by
  rintro ⟨ps, hm⟩
  rw [(hi.queued t ps hm).1] at hk
  cases hk

theorem Inv.alone (hi : Inv sh s) (t : T) (h : s.value = sh ∨ s.held t = true) (u : T)
    (hu : u ≠ t) : s.held u = false := by
  cases hc : s.held u
  · rfl
  · rcases h with h | h
    · exact absurd h (hi.busy u hc)
    · exact absurd (hi.one u t hc h) hu

/-- A thread that is neither in the kernel nor a rescuer is not the one a sleeper relies on. -/
theorem Inv.rescue_ne (hi : Inv sh s) {t : T} (hr : (s.pc t).rescues = false)
    (hk : (s.pc t).inKernel = false) (u : T) (hu : asleep s.queue u) :
    s.value = sh ||| 2 ∨ ∃ w, w ≠ t ∧ Rescuer s w := by
  rcases hi.rescue u hu with h | ⟨w, hw⟩
  · exact .inl h
  · refine .inr ⟨w, ?_, hw⟩
    rintro rfl
    rcases hw with hw | ⟨hw, -⟩
    · rw [hr] at hw; cases hw
    · rw [hk] at hw; cases hw

/-- The holder's clauses of `Inv.move` for a step that keeps the word and the ghost. -/
theorem Inv.keepHeld (hi : Inv sh s) (t : T) :
    (s.held t = true → s.value ≠ sh ∧ ∀ u, u ≠ t → s.held u = false) ∧
      ∀ u, u ≠ t → s.held u = true → s.value ≠ sh :=
  ⟨fun h => ⟨hi.busy t h, hi.alone t (.inr h)⟩, fun u _ hu => hi.busy u hu⟩

theorem inv_init (h : init s) : Inv (s.value &&& mutexSharedMask) s := by
  obtain ⟨⟨attr, hattr⟩, hty, hq, hpc⟩ := h
  obtain ⟨hsh, heq, -⟩ := pthreadMutexInit_eq attr s.value hattr
  refine ⟨⟨hsh, .inl ?_⟩, ?_, ?_, ?_, ?_, ?_, ?_⟩
  · rw [hty] at heq
    rw [heq]
    simp [mutexTypeNormal, BitVec.and_assoc]
  · intro t
    rw [(hpc t).1]
    trivial
  · intro t ht
    rw [(hpc t).2] at ht
    cases ht
  · intro t u ht
    rw [(hpc t).2] at ht
    cases ht
  · intro t ht
    rw [(hpc t).1] at ht
    cases ht
  · intro t ps hm
    rw [hq] at hm
    cases hm
  · rintro t ⟨ps, hm⟩
    rw [hq] at hm
    cases hm

variable [DecidableEq T]

/-- The invariant after a move of one thread: what the move has to guarantee of the word, of the
holder, of the queue and of the sleepers. -/
theorem Inv.move (hi : Inv sh s) (t : T) (r : Local) (q' : Queue T) (hv : InState sh r.value)
    (hk : r.pc.Knows sh) (hhold : r.held = true → r.value ≠ sh ∧ ∀ u, u ≠ t → s.held u = false)
    (hothers : ∀ u, u ≠ t → s.held u = true → r.value ≠ sh)
    (hunl : r.pc.unlocking = true → r.held = true) (hq : ∀ u ps, (u, ps) ∈ q' →
      (u ≠ t ∧ (u, ps) ∈ s.queue) ∨ (u = t ∧ r.pc.inKernel = true ∧ ps = pshared sh))
    (hres : ∀ u, asleep q' u →
      r.value = sh ||| 2 ∨ ∃ w, Rescuer { s.put t r with queue := q' } w) :
    Inv sh { s.put t r with queue := q' } where
  word := hv
  knows := (Function.forall_update_iff s.pc fun _ p => p.Knows sh).2 ⟨hk, fun u _ => hi.knows u⟩
  busy := (Function.forall_update_iff s.held fun _ h => h = true → r.value ≠ sh).2
    ⟨fun h => (hhold h).1, hothers⟩
  one := by
    intro u w hu hw
    by_cases hut : u = t <;> by_cases hwt : w = t
    · rw [hut, hwt]
    · subst hut
      have := (hhold (by simpa [State.put] using hu)).2 w hwt
      rw [show s.held w = true by simpa [State.put, hwt] using hw] at this
      cases this
    · subst hwt
      have := (hhold (by simpa [State.put] using hw)).2 u hut
      rw [show s.held u = true by simpa [State.put, hut] using hu] at this
      cases this
    · exact hi.one u w (by simpa [State.put, hut] using hu) (by simpa [State.put, hwt] using hw)
  unlocking := by
    intro u hu
    by_cases hut : u = t
    · subst hut
      simpa [State.put] using hunl (by simpa [State.put] using hu)
    · simpa [State.put, hut] using hi.unlocking u (by simpa [State.put, hut] using hu)
  queued := by
    intro u ps hm
    rcases hq u ps hm with ⟨hut, hm'⟩ | ⟨rfl, hk, hps⟩
    · simpa [State.put, hut] using hi.queued u ps hm'
    · simpa [State.put] using ⟨hk, hps⟩
  rescue := hres

/-- `Inv.move` for a thread outside the kernel and an unchanged queue. -/
theorem Inv.moveWord (hi : Inv sh s) (t : T) (r : Local) (hv : InState sh r.value)
    (hk : r.pc.Knows sh) (hker : (s.pc t).inKernel = false)
    (hhold : r.held = true → r.value ≠ sh ∧ ∀ u, u ≠ t → s.held u = false)
    (hothers : ∀ u, u ≠ t → s.held u = true → r.value ≠ sh)
    (hunl : r.pc.unlocking = true → r.held = true) (hres : ∀ u, asleep s.queue u →
      r.value = sh ||| 2 ∨ r.pc.rescues = true ∨ ∃ w, w ≠ t ∧ Rescuer s w) :
    Inv sh (s.put t r) := by
  refine hi.move t r s.queue hv hk hhold hothers hunl ?_ ?_
  · intro u ps hm
    exact .inl ⟨ne_of_not_asleep (hi.notQueued hker) hm, hm⟩
  · intro u hu
    rcases hres u hu with h | h | ⟨w, hwt, hw⟩
    · exact .inl h
    · exact .inr ⟨t, .inl (by simpa [State.put] using h)⟩
    · refine .inr ⟨w, ?_⟩
      unfold Rescuer at hw ⊢
      simpa [State.put, hwt] using hw

theorem goto_eq_put (s : State T) (t : T) (p : Pc) :
    s.goto t p = s.put t ⟨s.value, s.held t, p⟩ := by
  simp [State.goto, State.put]

theorem Inv.quiet (hi : Inv sh s) (t : T) (p' : Pc) (hk : p'.Knows sh)
    (hr : (s.pc t).rescues = false) (hker : (s.pc t).inKernel = false)
    (hunl : p'.unlocking = true → s.held t = true) : Inv sh (s.goto t p') := by
  rw [goto_eq_put]
  refine hi.moveWord t _ hi.word hk hker (hi.keepHeld t).1 (hi.keepHeld t).2 hunl ?_
  intro u hu
  rcases hi.rescue_ne hr hker u hu with h | h
  · exact .inl h
  · exact .inr (.inr h)

/-! ## Every step keeps the invariant -/

theorem inv_exec (hi : Inv sh s) (t : T) (r : Local)
    (he : exec s.value (s.held t) (s.pc t) = some r) : Inv sh (s.put t r) := by
  have heff := exec_cases hi.word (hi.knows t) (fun h => hi.busy t (hi.unlocking t h)) he
  obtain ⟨hor, h1, h2, h12, hd1, hd2⟩ := hi.word.1.states
  generalize hv : s.value = v at heff
  generalize hb : s.held t = b at heff
  generalize hp : s.pc t = p at heff
  cases heff with
  | quiet hk hr hker hunl =>
    subst hv hb
    rw [← goto_eq_put]
    exact hi.quiet t _ hk (by rw [hp, hr]) (by rw [hp, hker])
      (fun h => hi.unlocking t (by rw [hp]; exact hunl h))
  | acquire1 =>
    refine hi.moveWord t _ ⟨hi.word.1, .inr (.inl rfl)⟩ trivial (by rw [hp]; rfl)
      (fun _ => ⟨h1, hi.alone t (.inl hv)⟩) (fun _ _ _ => h1) (fun _ => rfl) ?_
    intro u hu
    rcases hi.rescue_ne (by rw [hp]; rfl) (by rw [hp]; rfl) u hu with h | h
    · exact absurd (h.symm.trans hv) h2
    · exact .inr (.inr h)
  | acquire2 =>
    exact hi.moveWord t _ ⟨hi.word.1, .inr (.inr rfl)⟩ trivial (by rw [hp]; rfl)
      (fun _ => ⟨h2, hi.alone t (.inl hv)⟩) (fun _ _ _ => h2) (fun _ => rfl) (fun _ _ => .inl rfl)
  | contend hne hp' =>
    subst hb
    refine hi.moveWord t _ ⟨hi.word.1, .inr (.inr rfl)⟩ ?_ (by rw [hp]; rfl)
      (fun h => ⟨h2, hi.alone t (.inr h)⟩) (fun _ _ _ => h2) ?_ (fun _ _ => .inl rfl)
    · rcases hp' with rfl | rfl <;> rfl
    · rcases hp' with rfl | rfl <;> exact fun h => by cases h
  | release1 =>
    have halone := hi.alone t (.inr (hi.unlocking t (by rw [hp]; rfl)))
    refine hi.moveWord t _ ⟨hi.word.1, .inl rfl⟩ trivial (by rw [hp]; rfl) (fun h => by cases h)
      (fun u hu hc => by rw [halone u hu] at hc; cases hc) (fun h => by cases h) ?_
    intro u hu
    rcases hi.rescue_ne (by rw [hp]; rfl) (by rw [hp]; rfl) u hu with h | h
    · exact absurd (h.symm.trans hv) h12
    · exact .inr (.inr h)
  | demote =>
    have hheld := hi.unlocking t (by rw [hp]; rfl)
    exact hi.moveWord t _ ⟨hi.word.1, .inr (.inl rfl)⟩ rfl (by rw [hp]; rfl)
      (fun _ => ⟨h1, hi.alone t (.inr hheld)⟩) (fun _ _ _ => h1) (fun _ => by rw [← hb]; exact hheld)
      (fun _ _ => .inr (.inl rfl))
  | release2 =>
    have halone := hi.alone t (.inr (hi.unlocking t (by rw [hp]; rfl)))
    exact hi.moveWord t _ ⟨hi.word.1, .inl rfl⟩ rfl (by rw [hp]; rfl) (fun h => by cases h)
      (fun u hu hc => by rw [halone u hu] at hc; cases hc) (fun h => by cases h)
      (fun _ _ => .inr (.inl rfl))

theorem inv_sleep (hi : Inv sh s) {timed : Bool} {shared : Word} (hp : s.pc t = .wait timed shared)
    (heq : s.value = shared ||| 2) :
    Inv sh { s.goto t (.blocked timed shared) with queue := sleep s.queue t (pshared shared) } := by
  have hk := hi.knows t
  rw [hp] at hk
  subst hk
  rw [goto_eq_put]
  refine hi.move t _ _ hi.word rfl (hi.keepHeld t).1 (hi.keepHeld t).2 (fun h => by cases h) ?_
    (fun _ _ => .inl heq)
  intro u ps hm
  rcases List.mem_cons.mp hm with he | hm'
  · cases he
    exact .inr ⟨rfl, rfl, rfl⟩
  · exact .inl ⟨ne_of_not_asleep (hi.notQueued (by rw [hp]; rfl)) hm', hm'⟩

theorem inv_leave (hi : Inv sh s) (t : T) (ht : asleep s.queue t) :
    Inv sh { s with queue := leave s.queue t } where
  word := hi.word
  knows := hi.knows
  busy := hi.busy
  one := hi.one
  unlocking := hi.unlocking
  queued := fun u ps hm => hi.queued u ps ((mem_leave _ _ _).1 hm).1
  rescue := by
    intro u _
    -- the sleeper that left is awake in the kernel and goes on to the swap
    obtain ⟨ps, hm⟩ := ht
    refine .inr ⟨t, .inr ⟨(hi.queued t ps hm).1, ?_⟩⟩
    rw [asleep_leave]
    exact fun h => h.2 rfl

theorem inv_resume (hi : Inv sh s) {timed : Bool} {shared : Word} (hp : s.pc t = .blocked timed shared)
    (hns : ¬ asleep s.queue t) : Inv sh (s.goto t (.swap timed shared)) := by
  have hk := hi.knows t
  rw [hp] at hk
  subst hk
  rw [goto_eq_put]
  refine hi.move t ⟨s.value, s.held t, .swap timed shared⟩ s.queue hi.word rfl
    (hi.keepHeld t).1 (hi.keepHeld t).2 (fun h => by cases h) ?_
    (fun _ _ => .inr ⟨t, .inl (by simp [State.put, Pc.rescues])⟩)
  intro u ps hm
  exact .inl ⟨ne_of_not_asleep hns hm, hm⟩

theorem inv_futexWake (hi : Inv sh s) {shared : Word} (hp : s.pc t = .wake shared) {woken : Option T}
    {q : Queue T} (hw : wakeOne s.queue (pshared shared) woken = some q) :
    Inv sh { s.goto t (.returned .unlocked) with queue := q } := by
  have hk := hi.knows t
  rw [hp] at hk
  subst hk
  have hnt := hi.notQueued (by rw [hp]; rfl)
  rw [goto_eq_put]
  refine hi.move t _ _ hi.word trivial (hi.keepHeld t).1 (hi.keepHeld t).2 (fun h => by cases h) ?_ ?_
  · intro u ps hm
    have hmem := mem_of_wakeOne hw hm
    exact .inl ⟨ne_of_not_asleep hnt hmem, hmem⟩
  · intro u hu
    -- the woken thread goes on to the swap
    obtain ⟨w, hm, hawake⟩ := wakeOne_awake hw (fun e he => (hi.queued e.1 e.2 he).2) hu
    have hwt : w ≠ t := ne_of_not_asleep hnt hm
    exact .inr ⟨w, .inr ⟨by simpa [State.put, hwt] using (hi.queued w _ hm).1, hawake⟩⟩

theorem inv_step {a : Act T} (hi : Inv sh s) (h : step s a = some s') : Inv sh s' := by
  revert h
  fun_cases step s a with
  | case1 t _ hp =>
    rintro ⟨⟩
    exact hi.quiet t _ trivial (Pc.of_outside hp).1 (Pc.of_outside hp).2 (fun h => by cases h)
  | case6 t _ hp =>
    rintro ⟨⟩
    exact hi.quiet t _ trivial (by rw [hp]; rfl) (by rw [hp]; rfl) (fun h => by cases h)
  | case3 t hp =>
    rintro ⟨⟩
    exact hi.quiet t _ trivial (Pc.of_outside hp.1).1 (Pc.of_outside hp.1).2 (fun _ => hp.2)
  | case5 t =>
    intro h
    obtain ⟨r, he, rfl⟩ := Option.map_eq_some_iff.1 h
    exact inv_exec hi t r he
  | case8 t timed shared hp heq =>
    rintro ⟨⟩
    exact inv_sleep hi hp heq
  | case9 t timed shared hp =>
    rintro ⟨⟩
    have hk := hi.knows t
    rw [hp] at hk
    exact hi.quiet t _ hk (by rw [hp]; rfl) (by rw [hp]; rfl) (fun h => by cases h)
  | case11 t ht =>
    rintro ⟨⟩
    exact inv_leave hi t ht
  | case14 t timed shared hp hns =>
    rintro ⟨⟩
    exact inv_resume hi hp hns
  | case16 t woken shared hp =>
    intro h
    obtain ⟨q, hw, rfl⟩ := Option.map_eq_some_iff.1 h
    exact inv_futexWake hi hp hw
  | _ => rintro ⟨⟩

theorem reachable_inv (h : machine.Reachable s) : ∃ sh, Inv sh s := by
  refine Machine.Reachable.invariant (I := fun s => ∃ sh, Inv sh s) ?_ ?_ h
  · intro s h0
    exact ⟨_, inv_init h0⟩
  · rintro s a s' ⟨sh, hi⟩ hs
    exact ⟨sh, inv_step hi hs⟩

/-! ## Calls that return 0 -/

/-- A function that acquires has returned 0 with the mutex held; an unlock returns without it. -/
def Backed (held : Bool) : Pc → Prop
  | .returned .locked => held = true
  | .returned .unlocked | .wake _ => held = false
  | _ => True

theorem exec_backed {v : Word} {b : Bool} {p : Pc} {r : Local} (h : exec v b p = some r) :
    Backed r.held r.pc := by
  cases p with
  | idle | wait | blocked | wake | otherType | returned => cases h
  | readShared | deadline | unlockShared | store =>
    cases h
    trivial
  | readType | unlockType =>
    cases h
    dsimp only [dispatch]
    split <;> trivial
  | cmpxchg c shared =>
    cases h
    dsimp only [tryFast]
    split
    · rfl
    · cases c <;> trivial
  | swap timed shared =>
    cases h
    dsimp only [trySlow]
    split
    · rfl
    · cases timed <;> trivial
  | dec shared =>
    cases h
    dsimp only [decState]
    split <;> trivial

theorem backed_step {a : Act T} (hb : ∀ t, Backed (s.held t) (s.pc t)) (h : step s a = some s')
    (t : T) : Backed (s'.held t) (s'.pc t) := by
  have goto : ∀ (u : T) (p : Pc), Backed (s.held u) p →
      Backed (s.held t) (Function.update s.pc u p t) := by
    intro u p hp
    by_cases ht : t = u
    · subst ht
      simpa using hp
    · simpa [ht] using hb t
  revert h
  fun_cases step s a with
  | case1 u | case3 u | case6 u | case8 u | case9 u | case14 u =>
    rintro ⟨⟩
    exact goto u _ trivial
  | case5 u =>
    intro h
    obtain ⟨r, he, rfl⟩ := Option.map_eq_some_iff.1 h
    by_cases ht : t = u
    · subst ht
      simpa [State.put] using exec_backed he
    · simpa [State.put, ht] using hb t
  | case11 u =>
    rintro ⟨⟩
    exact hb t
  | case16 u woken shared hp =>
    intro h
    obtain ⟨q, hw, rfl⟩ := Option.map_eq_some_iff.1 h
    have hu := hb u
    rw [hp] at hu
    exact goto u _ hu
  | _ => rintro ⟨⟩

/-! ## Top theorems -/

/-- **Mutual exclusion.**  After any run, at most one thread is between a successful acquisition
and the release step of its unlock; a thread that an acquiring call has returned 0 to is one, and
after an unlock it is none; and the word has the shared bit it was initialised with. -/
theorem normal_mutual_exclusion {s₀ s : State T} {acts : List (Act T)} (h0 : init s₀)
    (hr : machine.run s₀ acts = some s) :
    (∀ t u, s.held t = true → s.held u = true → t = u) ∧
      (∀ t, (s.pc t = .returned .locked → s.held t = true) ∧
        (s.pc t = .returned .unlocked → s.held t = false)) ∧
      s.value &&& mutexSharedMask = s₀.value &&& mutexSharedMask := by
  have hb : ∀ t, Backed (s.held t) (s.pc t) :=
    Machine.run_invariant (M := machine) (I := fun s => ∀ t, Backed (s.held t) (s.pc t))
      (fun _ _ _ hb hs => backed_step hb hs)
      (fun t => by rw [(h0.2.2.2 t).1]; trivial) hr
  have hi : Inv (s₀.value &&& mutexSharedMask) s :=
    Machine.run_invariant (M := machine) (fun _ _ _ hi hs => inv_step hi hs) (inv_init h0) hr
  refine ⟨hi.one, fun t => ⟨fun hp => ?_, fun hp => ?_⟩, hi.word.masks.2⟩
  · simpa [hp, Backed] using hb t
  · simpa [hp, Backed] using hb t

/-- Two threads: `false` takes the mutex, `true` contends and goes to sleep, `false` unlocks up
to and including its decrement. -/
def contendedRun : List (Act Bool) :=
  [.call false .lock, .exec false, .exec false, .exec false,
   .call true .lock, .exec true, .exec true, .exec true, .exec true, .futexWait true,
   .unlock false, .exec false, .exec false, .exec false]

theorem normal_mutual_exclusion_contended :
    ∃ s : State Bool,
      machine.run ⟨mutexSharedMask, [], fun _ => .idle, fun _ => false⟩ contendedRun = some s ∧
      (∀ t u, s.held t = true → s.held u = true → t = u) ∧
      (∀ t, (s.pc t = .returned .locked → s.held t = true) ∧
        (s.pc t = .returned .unlocked → s.held t = false)) ∧
      s.value &&& mutexSharedMask = mutexSharedMask := by
  obtain ⟨s, hs⟩ : ∃ s : State Bool,
      machine.run ⟨mutexSharedMask, [], fun _ => .idle, fun _ => false⟩ contendedRun = some s :=
    ⟨_, rfl⟩
  exact ⟨s, hs, normal_mutual_exclusion
    ⟨⟨some mutexattrSharedMask, rfl⟩, rfl, rfl, fun _ => ⟨rfl, rfl⟩⟩ hs⟩

def Uncontended (s : State T) : Prop := s.value &&& 3 = 0 ∨ s.value &&& 3 = 1

/-- Past the releasing store, the futex wake still to perform. -/
def WakePending (s : State T) (u : T) : Prop := ∃ sh, s.pc u = .wake sh

/-- Past the decrement of a contended word, the store and the wake still to perform. -/
def StorePending (s : State T) (u : T) : Prop := ∃ sh, s.pc u = .store sh

/-- A woken or not yet sleeping contender whose next step on the word swaps in state 2. -/
def SwapPending (s : State T) (u : T) : Prop :=
  (∃ b sh, s.pc u = .swap b sh) ∨ ∃ b sh, s.pc u = .blocked b sh ∧ ¬ asleep s.queue u

omit [DecidableEq T] in
theorem Rescuer.pending {u : T} (h : Rescuer s u) :
    WakePending s u ∨ StorePending s u ∨ SwapPending s u := by
  unfold Rescuer at h
  cases hp : s.pc u with
  | swap b sh => exact .inr (.inr (.inl ⟨b, sh, hp⟩))
  | store sh => exact .inr (.inl ⟨sh, hp⟩)
  | wake sh => exact .inl ⟨sh, hp⟩
  | blocked b sh =>
    rw [hp] at h
    rcases h with h | h
    · cases h
    · exact .inr (.inr (.inr ⟨b, sh, hp, h.2⟩))
  | _ =>
    rw [hp] at h
    rcases h with h | ⟨h, -⟩ <;> cases h

/-- **No lost wake-up.**  Whenever a thread sleeps next to a word in state 0 or 1, some thread has
its store or its wake still to perform, or some contender is about to swap in state 2. -/
theorem normal_no_lost_wakeup {s : State T} (h : machine.Reachable s) (t : T)
    (ht : asleep s.queue t) (hst : Uncontended s) :
    ∃ u, WakePending s u ∨ StorePending s u ∨ SwapPending s u := by
  obtain ⟨sh, hi⟩ := reachable_inv h
  rcases hi.rescue t ht with hv | ⟨u, hu⟩
  · -- state 2 is neither 0 nor 1
    exfalso
    unfold Uncontended at hst
    rw [hv] at hst
    rcases hi.word.1 with rfl | rfl <;> revert hst <;> decide
  · exact ⟨u, hu.pending⟩

/-- The end of `contendedRun` on a private mutex: `false` is about to store, `true` sleeps and
the word is in state 1. -/
theorem contendedRun_end :
    ∃ s : State Bool, machine.Reachable s ∧ s.value = 1 ∧ s.queue = [(true, false)] ∧
      s.pc false = .store 0 ∧ s.pc true = .blocked false 0 := by
  refine ⟨_, Machine.Reachable.run (s := ⟨0, [], fun _ => .idle, fun _ => false⟩) ?_ contendedRun
    rfl, rfl, rfl, rfl, rfl⟩
  exact .init ⟨⟨none, rfl⟩, rfl, rfl, fun _ => ⟨rfl, rfl⟩⟩

/-- Between the decrement and the store of a contended unlock a thread sleeps next to a word in
state 1 although nobody is past the store and nobody is about to swap. -/
theorem sleeper_before_store :
    ∃ (s : State Bool) (t : Bool), machine.Reachable s ∧ asleep s.queue t ∧ Uncontended s ∧
      ¬ ∃ u, WakePending s u ∨ SwapPending s u := by
  obtain ⟨s, hr, hv, hq, hf, ht⟩ := contendedRun_end
  refine ⟨s, true, hr, ⟨false, by simp [hq]⟩, .inr (by rw [hv]; rfl), ?_⟩
  rintro ⟨u, ⟨sh, h⟩ | ⟨b, sh, h⟩ | ⟨b, sh, h, hs⟩⟩
  · cases u
    · rw [hf] at h; cases h
    · rw [ht] at h; cases h
  · cases u
    · rw [hf] at h; cases h
    · rw [ht] at h; cases h
  · cases u
    · rw [hf] at h; cases h
    · exact hs ⟨false, by simp [hq]⟩

theorem normal_no_lost_wakeup_contended :
    ∃ s : State Bool, machine.Reachable s ∧ asleep s.queue true ∧ Uncontended s ∧
      ∃ u, WakePending s u ∨ StorePending s u ∨ SwapPending s u := by
  obtain ⟨s, hr, hv, hq, -, -⟩ := contendedRun_end
  have ha : asleep s.queue true := ⟨false, by simp [hq]⟩
  have hu : Uncontended s := .inr (by rw [hv]; rfl)
  exact ⟨s, hr, ha, hu, normal_no_lost_wakeup hr true ha hu⟩

end

end Pthread.Normal
