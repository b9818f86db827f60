import GitTest.Lib.Transition
import GitTest.Lib.Futex
import GitTest.Pthread.Word

/-!
# Recursive and error-check mutexes (libc/bionic/pthread.c)

The paths of `pthread_mutex_lock`, `pthread_mutex_trylock`, `pthread_mutex_lock_timeout_np`
and `pthread_mutex_unlock` for a mutex whose type is not normal, run by the threads of any
type `T` with kernel ids `tid`.  A section between `_recursive_lock` and `_recursive_unlock`
is one step: all of them run under the one global normal mutex, and every write to the word
is in such a section.  The reads before the section are steps of their own.

Two ghosts per thread: `holds`, the acquisitions that returned 0 minus the unlock sections,
and `owned`, whether the thread held the mutex when it made its current call.

`NoOverflow` is the guard of the runs in which no thread locks again while the 11-bit
counter is at its maximum.

    recursive, ReachableIf NoOverflow s → only the thread named in the owner field has
      acquisitions outstanding, and the word is released iff there is none
      (recursive_nesting)
    recursive, 2049 acquisitions and one unlock → another thread acquires
      (nesting_wraps)
    error-check, Reachable s → one owner, EDEADLK iff owner, EPERM iff not, no sleeper
      left behind next to a released word  (errorcheck_protocol)
-/

namespace Pthread.Owned

open Function Futex Machines Option

/-! ## Algorithm -/

/-- The three functions that acquire. -/
inductive Call
  | lock
  | trylock
  | lockTimeout
  deriving DecidableEq, Repr

inductive Op
  | acquire (c : Call)
  | unlock
  deriving DecidableEq, Repr

inductive Ret
  | ok
  | ebusy
  | edeadlk
  | eperm
  deriving DecidableEq, Repr

/-- A thread's next step, with its locals.  From `attempt` on, `mtype` has the shared bit. -/
inductive Pc
  | idle
  /-- `mtype = mutex->value & MUTEX_TYPE_MASK` -/
  | readType (op : Op)
  /-- `shared = mutex->value & MUTEX_SHARED_MASK` -/
  | readShared (op : Op) (mtype : Word)
  /-- `tid == MUTEX_OWNER(mutex)`, outside the global lock -/
  | readOwner (op : Op) (mtype shared : Word)
  /-- The section of an owner that locks again. -/
  | relock (c : Call)
  /-- The section of a thread that does not own the mutex. -/
  | attempt (c : Call) (mtype shared newLockType : Word)
  /-- `__timespec_to_absolute(&ts, &abstime, clock) < 0` -/
  | deadline (mtype shared oldv : Word)
  /-- `__futex_wait_ex(&mutex->value, shared, oldv, ..)` -/
  | wait (c : Call) (mtype shared oldv : Word)
  /-- In the kernel: asleep while it has a queue entry, about to return when it has none. -/
  | blocked (c : Call) (mtype shared : Word)
  /-- The section of the unlock. -/
  | release (mtype shared : Word)
  /-- `__futex_wake_ex(&mutex->value, shared, 1)` -/
  | wake (shared : Word)
  /-- The type bits said `MUTEX_TYPE_NORMAL`. -/
  | normalType
  | returned (op : Op) (r : Ret)
  deriving DecidableEq, Repr

structure State (T : Type) where
  value : Word
  queue : Queue T
  pc : T → Pc
  holds : T → Nat
  owned : T → Bool

inductive Act (T : Type)
  | call (t : T) (op : Op)
  | exec (t : T)
  /-- The timed lock finds its deadline passed and returns `EBUSY`. -/
  | expire (t : T)
  | futexWait (t : T)
  /-- A sleeper leaves the queue by a signal, a timeout or spuriously. -/
  | leave (t : T)
  /-- A thread without queue entry returns from the futex wait. -/
  | resume (t : T)
  | futexWake (t : T) (woken : Option T)

/-- What a step leaves: the word, the ghost count of its thread, the next place. -/
structure Local where
  value : Word
  holds : Nat
  pc : Pc

/-- The type dispatch at the start of each function. -/
def dispatch (op : Op) (value : Word) : Pc :=
  if value &&& mutexTypeMask = mutexTypeNormal then .normalType
  else .readShared op (value &&& mutexTypeMask)

/-- "Do we already own this recursive or error-check mutex?" -/
def checkOwner (tid : Word) (op : Op) (mtype shared value : Word) : Pc :=
  match op with
  | .unlock => if tid ≠ mutexOwner value then .returned .unlock .eperm else .release mtype shared
  | .acquire c =>
    if tid = mutexOwner value then
      if mtype = mutexTypeErrorcheck then .returned (.acquire c) .edeadlk else .relock c
    else .attempt c (mtype ||| shared) shared 1

def relockSection (c : Call) (oldv : Word) (holds : Nat) : Local :=
  let counter := (oldv + (1 <<< mutexCounterShift)) &&& mutexCounterMask
  ⟨(oldv &&& ~~~mutexCounterMask) ||| counter, holds + 1, .returned (.acquire c) .ok⟩

/-- The section of the lock loop: the final `oldv` and the word. -/
def lockSection (tid mtype newLockType oldv : Word) : Word × Word :=
  if oldv = mtype then (oldv, (tid <<< 16) ||| mtype ||| newLockType)
  else if oldv &&& 3 = 1 then (oldv ^^^ 3, oldv ^^^ 3)
  else (oldv, oldv)

def attemptSection (tid : Word) (c : Call) (mtype shared newLockType value : Word) (holds : Nat) :
    Local :=
  match c with
  | .trylock =>
    if value = mtype then ⟨(tid <<< 16) ||| mtype ||| 1, holds + 1, .returned (.acquire c) .ok⟩
    else ⟨value, holds, .returned (.acquire c) .ebusy⟩
  | .lock =>
    let r := lockSection tid mtype newLockType value
    if r.1 = mtype then ⟨r.2, holds + 1, .returned (.acquire c) .ok⟩
    else ⟨r.2, holds, .wait c mtype shared r.1⟩
  | .lockTimeout =>
    let r := lockSection tid mtype newLockType value
    if r.1 = mtype then ⟨r.2, holds + 1, .returned (.acquire c) .ok⟩
    else ⟨r.2, holds, .deadline mtype shared r.1⟩

/-- Decrement the counter, or release the mutex if it is 0 and wake if it was contended. -/
def releaseSection (mtype shared oldv : Word) (holds : Nat) : Local :=
  if oldv &&& mutexCounterMask ≠ 0 then
    ⟨oldv - (1 <<< mutexCounterShift), holds - 1, .returned .unlock .ok⟩
  else
    ⟨shared ||| mtype, holds - 1,
      if oldv &&& 3 = 2 then .wake shared else .returned .unlock .ok⟩

/-- One read or section of a thread. -/
def exec (tid value : Word) (holds : Nat) : Pc → Option Local
  | .readType op => some ⟨value, holds, dispatch op value⟩
  | .readShared op mtype => some ⟨value, holds, .readOwner op mtype (value &&& mutexSharedMask)⟩
  | .readOwner op mtype shared => some ⟨value, holds, checkOwner tid op mtype shared value⟩
  | .relock c => some (relockSection c value holds)
  | .attempt c mtype shared newLockType =>
    some (attemptSection tid c mtype shared newLockType value holds)
  | .deadline mtype shared oldv => some ⟨value, holds, .wait .lockTimeout mtype shared oldv⟩
  | .release mtype shared => some (releaseSection mtype shared value holds)
  | .idle | .wait _ _ _ _ | .blocked _ _ _ | .wake _ | .normalType | .returned _ _ => none

/-- A thread may make its next call. -/
def Pc.outside : Pc → Bool
  | .idle | .returned _ _ => true
  | .readType _ | .readShared _ _ | .readOwner _ _ _ | .relock _ | .attempt _ _ _ _
  | .deadline _ _ _ | .wait _ _ _ _ | .blocked _ _ _ | .release _ _ | .wake _ | .normalType => false

section
variable {T : Type} [DecidableEq T]

def State.goto (s : State T) (t : T) (p : Pc) : State T :=
  { s with pc := Function.update s.pc t p }

def State.put (s : State T) (t : T) (r : Local) : State T :=
  { s with
    value := r.value
    pc := Function.update s.pc t r.pc
    holds := Function.update s.holds t r.holds }

def step (tid : T → Word) (s : State T) : Act T → Option (State T)
  | .call t op =>
    if (s.pc t).outside then
      some { s.goto t (.readType op) with
        owned := Function.update s.owned t (decide (0 < s.holds t)) }
    else none
  | .exec t => (exec (tid t) s.value (s.holds t) (s.pc t)).map fun r => s.put t r
  | .expire t =>
    match s.pc t with
    | .deadline _ _ _ => some (s.goto t (.returned (.acquire .lockTimeout) .ebusy))
    | _ => none
  | .futexWait t =>
    match s.pc t with
    | .wait c mtype shared oldv =>
      if s.value = oldv then
        some { s.goto t (.blocked c mtype shared) with queue := sleep s.queue t (pshared shared) }
      else some (s.goto t (.attempt c mtype shared 2))
    | _ => none
  | .leave t => if asleep s.queue t then some { s with queue := leave s.queue t } else none
  | .resume t =>
    match s.pc t with
    | .blocked c mtype shared =>
      if asleep s.queue t then none else some (s.goto t (.attempt c mtype shared 2))
    | _ => none
  | .futexWake t woken =>
    match s.pc t with
    | .wake shared =>
      (wakeOne s.queue (pshared shared) woken).map fun q =>
        { s.goto t (.returned .unlock .ok) with queue := q }
    | _ => none

/-- Any number of idle threads and a mutex initialised with the type `ty`. -/
def init (ty : Word) (s : State T) : Prop :=
  (∃ attr, pthreadMutexInit attr = some s.value) ∧ s.value &&& mutexTypeMask = ty ∧
    s.queue = [] ∧ ∀ t, s.pc t = .idle ∧ s.holds t = 0

def machine (tid : T → Word) (ty : Word) : Machine (State T) (Act T) := ⟨init ty, step tid⟩

/-- The kernel ids are distinct and fit the 16-bit owner field; 0 is no thread's id. -/
structure ValidTids (tid : T → Word) : Prop where
  inj : ∀ t u, tid t = tid u → t = u
  pos : ∀ t, 0 < (tid t).toNat
  lt : ∀ t, (tid t).toNat < 65536

def Pc.relocks : Pc → Bool
  | .relock _ => true
  | .idle | .readType _ | .readShared _ _ | .readOwner _ _ _ | .attempt _ _ _ _ | .deadline _ _ _
  | .wait _ _ _ _ | .blocked _ _ _ | .release _ _ | .wake _ | .normalType | .returned _ _ => false

/-- The step does not lock again while the counter field is at its maximum. -/
def NoOverflow (s : State T) : Act T → Prop
  | .exec t => (s.pc t).relocks = true → s.value &&& mutexCounterMask ≠ mutexCounterMask
  | .call _ _ | .expire _ | .futexWait _ | .leave _ | .resume _ | .futexWake _ _ => True

instance (s : State T) : (a : Act T) → Decidable (NoOverflow s a)
  | .exec t => inferInstanceAs
      (Decidable ((s.pc t).relocks = true → s.value &&& mutexCounterMask ≠ mutexCounterMask))
  | .call _ _ | .expire _ | .futexWait _ | .leave _ | .resume _ | .futexWake _ _ => .isTrue trivial

end

/-! ## The invariant -/

/-- The thread will wake a sleeper, or re-examine the word as a contender that leaves state 2. -/
def Pc.rescues : Pc → Bool
  | .wake _ => true
  | .attempt _ _ _ newLockType => decide (newLockType = 2)
  | .idle | .readType _ | .readShared _ _ | .readOwner _ _ _ | .relock _ | .deadline _ _ _
  | .wait _ _ _ _ | .blocked _ _ _ | .release _ _ | .normalType | .returned _ _ => false

def Pc.inKernel : Pc → Bool
  | .blocked _ _ _ => true
  | .idle | .readType _ | .readShared _ _ | .readOwner _ _ _ | .relock _ | .attempt _ _ _ _
  | .deadline _ _ _ | .wait _ _ _ _ | .release _ _ | .wake _ | .normalType | .returned _ _ => false

theorem Pc.rescues_of_inKernel {p : Pc} (h : p.inKernel = true) : p.rescues = false := by
  cases p with
  | blocked => rfl
  | _ => cases h

theorem Pc.of_outside {p : Pc} (h : p.outside = true) : p.rescues = false ∧ p.inKernel = false := by
  cases p with
  | idle | returned => exact ⟨rfl, rfl⟩
  | _ => cases h

/-- What a thread that holds the mutex `holds` times, and did (`owned`) or did not hold it when it
made its call, knows at its place. -/
def Pc.Knows (ty sh : Word) (holds : Nat) (owned : Bool) : Pc → Prop
  | .idle => True
  | .readType _ => owned = decide (0 < holds)
  | .readShared _ m => m = ty ∧ owned = decide (0 < holds)
  | .readOwner _ m x => m = ty ∧ x = sh ∧ owned = decide (0 < holds)
  | .relock _ => ty = mutexTypeRecursive ∧ 0 < holds ∧ owned = true
  | .attempt c m x n =>
    m = ty ||| sh ∧ x = sh ∧ holds = 0 ∧ owned = false ∧ (n = 1 ∨ n = 2 ∧ c ≠ .trylock)
  | .deadline m x oldv => m = ty ||| sh ∧ x = sh ∧ holds = 0 ∧ owned = false ∧ oldv.toNat % 4 = 2
  | .wait c m x oldv =>
    m = ty ||| sh ∧ x = sh ∧ holds = 0 ∧ owned = false ∧ oldv.toNat % 4 = 2 ∧ c ≠ .trylock
  | .blocked c m x => m = ty ||| sh ∧ x = sh ∧ holds = 0 ∧ owned = false ∧ c ≠ .trylock
  | .release m x => m = ty ∧ x = sh ∧ 0 < holds ∧ owned = true
  | .wake x => x = sh ∧ owned = true
  | .normalType => False
  | .returned (.acquire _) r =>
    (r = .edeadlk → 0 < holds ∧ owned = true) ∧
      (ty = mutexTypeErrorcheck → owned = true → r = .edeadlk)
  | .returned .unlock r => r = .eperm ↔ owned = false

section
variable {T : Type} (tid : T → Word) (ty sh : Word)

/-- The word against the ghost counts: released and held by nobody, or owned by `t`, whose
counter is one less than its count, and held by nobody else. -/
def WordOk (value : Word) (holds : T → Nat) : Prop :=
  (value = ty ||| sh ∧ ∀ t, holds t = 0) ∨
    ∃ t k st, HasFields ty sh value (tid t).toNat k st ∧ (st = 1 ∨ st = 2) ∧ holds t = k + 1 ∧
      ∀ u, u ≠ t → holds u = 0

def Rescuer (s : State T) (u : T) : Prop :=
  (s.pc u).rescues = true ∨ ((s.pc u).inKernel = true ∧ ¬ asleep s.queue u)

structure Inv (s : State T) : Prop where
  word : WordOk tid ty sh s.value s.holds
  knows : ∀ t, (s.pc t).Knows ty sh (s.holds t) (s.owned t)
  queued : ∀ t ps, (t, ps) ∈ s.queue → (s.pc t).inKernel = true ∧ ps = pshared sh
  rescue : ∀ t, asleep s.queue t → s.value.toNat % 4 = 2 ∨ ∃ u, Rescuer s u

variable {tid ty sh}

variable {v : Word} {holds : T → Nat} {s s' : State T} {t : T}

theorem WordOk.fields (hty : IsOwnedType ty) (hsh : IsSharedFlag sh)
    (h : WordOk tid ty sh v holds) : ∃ o k st, HasFields ty sh v o k st := by
  rcases h with ⟨rfl, -⟩ | ⟨t, k, st, hf, -⟩
  · exact ⟨_, _, _, hasFields_base hty hsh⟩
  · exact ⟨_, _, _, hf⟩

theorem WordOk.owner_iff (hv : ValidTids tid) (hty : IsOwnedType ty) (hsh : IsSharedFlag sh)
    (h : WordOk tid ty sh v holds) (t : T) :
    tid t = mutexOwner v ↔ 0 < holds t := by
  rcases h with ⟨rfl, hz⟩ | ⟨w, k, st, hf, -, hw, hz⟩
  · have ho := (hasFields_base hty hsh).owner hty hsh
    have hp := hv.pos t
    rw [hz t]
    constructor
    · intro he
      rw [he, ho] at hp
      exact hp
    · intro h0
      omega
  · have ho := hf.owner hty hsh
    constructor
    · intro he
      have : t = w := hv.inj t w (BitVec.eq_of_toNat_eq (by rw [he, ho]))
      rw [this]
      omega
    · intro h0
      by_cases htw : t = w
      · rw [htw]
        exact BitVec.eq_of_toNat_eq ho.symm
      · rw [hz t htw] at h0
        omega

theorem WordOk.allZero (hty : IsOwnedType ty) (hsh : IsSharedFlag sh) (h : WordOk tid ty sh v holds)
    (he : v = ty ||| sh) (t : T) : holds t = 0 := by
  rcases h with ⟨-, hz⟩ | ⟨w, k, st, hf, hst, -⟩
  · exact hz t
  · have := (hf.eq_base_iff hty hsh).1 he
    omega

/-- Seen by the holder `t`: its own fields and nobody else's count. -/
theorem WordOk.ofHolder (h : WordOk tid ty sh v holds) (t : T) (ht : 0 < holds t) :
    ∃ k st, HasFields ty sh v (tid t).toNat k st ∧ (st = 1 ∨ st = 2) ∧
      holds t = k + 1 ∧ ∀ u, u ≠ t → holds u = 0 := by
  rcases h with ⟨-, hz⟩ | ⟨w, k, st, hf, hst, hw, hz⟩
  · rw [hz t] at ht
    omega
  · have : t = w := by
      apply Classical.byContradiction
      intro hne
      rw [hz t hne] at ht
      omega
    subst this
    exact ⟨k, st, hf, hst, hw, hz⟩

theorem WordOk.one (h : WordOk tid ty sh v holds) (t u : T) (ht : 0 < holds t) (hu : 0 < holds u) :
    t = u := by
  obtain ⟨k, st, -, -, -, hz⟩ := h.ofHolder t ht
  by_contra hne
  rw [hz u (Ne.symm hne)] at hu
  omega

/-- A thread without the mutex is not told that it would deadlock. -/
theorem knows_acquire {ho : Nat} {owned : Bool} (h : owned = false) (c : Call) {r : Ret}
    (hr : r ≠ .edeadlk) : (Pc.returned (.acquire c) r).Knows ty sh ho owned := by
  refine ⟨fun he => absurd he hr, fun _ ho => ?_⟩
  rw [h] at ho
  cases ho

theorem Inv.knows_at {p : Pc} (hi : Inv tid ty sh s) (hp : s.pc t = p) :
    p.Knows ty sh (s.holds t) (s.owned t) :=
  hp ▸ hi.knows t

theorem Inv.notQueued (hi : Inv tid ty sh s) (hk : (s.pc t).inKernel = false) :
    ¬ asleep s.queue t := by
  rintro ⟨ps, hm⟩
  rw [(hi.queued t ps hm).1] at hk
  cases hk

/-- A thread that is neither in the kernel nor a rescuer is not the one a sleeper relies on. -/
theorem Inv.rescue_ne (hi : Inv tid ty sh s) (hr : (s.pc t).rescues = false)
    (hk : (s.pc t).inKernel = false) (u : T) (hu : asleep s.queue u) :
    s.value.toNat % 4 = 2 ∨ ∃ w, w ≠ t ∧ Rescuer s w := by
  rcases hi.rescue u hu with h | ⟨w, hw⟩
  · exact .inl h
  · refine .inr ⟨w, ?_, hw⟩
    rintro rfl
    rcases hw with hw | ⟨hw, -⟩
    · rw [hr] at hw; cases hw
    · rw [hk] at hw; cases hw

theorem dispatch_eq {o k st : Nat} (hty : IsOwnedType ty) (hsh : IsSharedFlag sh)
    (h : HasFields ty sh v o k st) (op : Op) : dispatch op v = .readShared op ty := by
  unfold dispatch
  rw [h.type hty hsh]
  rcases hty with rfl | rfl <;> rfl

/-- The owner check outside the global lock is reliable: only the thread itself can make its own
id appear in the word or disappear from it. -/
theorem checkOwner_knows (hv : ValidTids tid) (hty : IsOwnedType ty) (hsh : IsSharedFlag sh)
    (h : WordOk tid ty sh v holds) (t : T) (op : Op) :
    (checkOwner (tid t) op ty sh v).Knows ty sh (holds t) (decide (0 < holds t)) := by
  have ho := h.owner_iff hv hty hsh t
  cases op with
  | unlock =>
    by_cases hh : 0 < holds t
    · simp [checkOwner, ho.2 hh, Pc.Knows, hh]
    · have hne : ¬ tid t = mutexOwner v := fun he => hh (ho.1 he)
      simp only [checkOwner, ne_eq, hne, not_false_eq_true, if_true, Pc.Knows, hh, decide_false]
  | acquire c =>
    by_cases hh : 0 < holds t
    · by_cases he : ty = mutexTypeErrorcheck
      · simp [checkOwner, ho.2 hh, he, Pc.Knows, hh]
      · have hr : ty = mutexTypeRecursive := hty.resolve_right he
        rw [checkOwner, if_pos (ho.2 hh), if_neg he]
        exact ⟨hr, hh, decide_eq_true hh⟩
    · have hne : ¬ tid t = mutexOwner v := fun he => hh (ho.1 he)
      simp only [checkOwner, hne, if_false, Pc.Knows, hh, decide_false, true_and, true_or, and_true]
      omega

theorem lockSection_busy {tid n : Word} {o k st : Nat} (hty : IsOwnedType ty)
    (hsh : IsSharedFlag sh) (hf : HasFields ty sh v o k st) (hst : st = 1 ∨ st = 2) :
    (lockSection tid (ty ||| sh) n v).1 = (lockSection tid (ty ||| sh) n v).2 ∧
      HasFields ty sh (lockSection tid (ty ||| sh) n v).2 o k 2 := by
  have hne : ¬ v = ty ||| sh := by
    rw [hf.eq_base_iff hty hsh]
    omega
  have h1 : v &&& 3 = 1 ↔ st = 1 := by
    rw [state_eq_iff, hf.mod4 hty hsh]
    rfl
  unfold lockSection
  rw [if_neg hne]
  rcases hst with rfl | rfl
  · rw [if_pos (h1.2 rfl)]
    exact ⟨rfl, hf.promote hty hsh⟩
  · rw [if_neg (fun h => by have := h1.1 h; omega)]
    exact ⟨rfl, hf⟩

theorem inv_init (h : init ty s) : Inv tid ty (s.value &&& mutexSharedMask) s := by
  obtain ⟨⟨attr, hattr⟩, hty, hq, hpc⟩ := h
  obtain ⟨-, heq, -⟩ := pthreadMutexInit_eq attr s.value hattr
  rw [hty] at heq
  refine ⟨.inl ⟨heq, fun t => (hpc t).2⟩, ?_, ?_, ?_⟩
  · intro t
    rw [(hpc t).1]
    trivial
  · intro t ps hm
    rw [hq] at hm
    cases hm
  · rintro t ⟨ps, hm⟩
    rw [hq] at hm
    cases hm

variable [DecidableEq T]

/-- The invariant after a move of one thread: what the move has to guarantee of the word, of its
own place, of the queue and of the sleepers. -/
theorem Inv.move (hi : Inv tid ty sh s) (t : T) (r : Local) (q' : Queue T)
    (hw : WordOk tid ty sh r.value (update s.holds t r.holds))
    (hk : r.pc.Knows ty sh r.holds (s.owned t)) (hq : ∀ u ps, (u, ps) ∈ q' →
      (u ≠ t ∧ (u, ps) ∈ s.queue) ∨ (u = t ∧ r.pc.inKernel = true ∧ ps = pshared sh))
    (hres : ∀ u, asleep q' u →
      r.value.toNat % 4 = 2 ∨ ∃ w, Rescuer { s.put t r with queue := q' } w) :
    Inv tid ty sh { s.put t r with queue := q' } where
  word := hw
  knows := by
    intro u
    by_cases hu : u = t
    · subst hu
      simpa [State.put] using hk
    · simpa [State.put, hu] using hi.knows u
  queued := by
    intro u ps hm
    rcases hq u ps hm with ⟨hut, hm'⟩ | ⟨rfl, hk, hps⟩
    · simpa [State.put, hut] using hi.queued u ps hm'
    · simpa [State.put] using ⟨hk, hps⟩
  rescue := hres

/-- `Inv.move` for a thread outside the kernel and an unchanged queue. -/
theorem Inv.moveWord (hi : Inv tid ty sh s) (t : T) (r : Local)
    (hw : WordOk tid ty sh r.value (update s.holds t r.holds))
    (hk : r.pc.Knows ty sh r.holds (s.owned t)) (hker : (s.pc t).inKernel = false)
    (hres : ∀ u, asleep s.queue u →
      r.value.toNat % 4 = 2 ∨ r.pc.rescues = true ∨ ∃ w, w ≠ t ∧ Rescuer s w) :
    Inv tid ty sh (s.put t r) := by
  refine hi.move t r s.queue hw hk ?_ ?_
  · intro u ps hm
    exact .inl ⟨ne_of_not_asleep (hi.notQueued hker) hm, hm⟩
  · intro u hu
    rcases hres u hu with h | h | ⟨w, hwt, hw⟩
    · exact .inl h
    · exact .inr ⟨t, .inl (by simpa [State.put] using h)⟩
    · refine .inr ⟨w, ?_⟩
      unfold Rescuer at hw ⊢
      simpa [State.put, hwt] using hw

theorem goto_eq_put (s : State T) (t : T) (p : Pc) :
    s.goto t p = s.put t ⟨s.value, s.holds t, p⟩ := by
  simp [State.goto, State.put]

theorem Inv.wordSame (hi : Inv tid ty sh s) (t : T) :
    WordOk tid ty sh s.value (update s.holds t (s.holds t)) := by
  simpa using hi.word

theorem Inv.quiet (hi : Inv tid ty sh s) (t : T) (p' : Pc)
    (hk : p'.Knows ty sh (s.holds t) (s.owned t)) (hr : (s.pc t).rescues = false)
    (hker : (s.pc t).inKernel = false) : Inv tid ty sh (s.goto t p') := by
  rw [goto_eq_put]
  refine hi.moveWord t _ (hi.wordSame t) hk hker ?_
  intro u hu
  rcases hi.rescue_ne hr hker u hu with h | h
  · exact .inl h
  · exact .inr (.inr h)

/-! ## Every step keeps the invariant -/

theorem inv_relock (hty : IsOwnedType ty) (hsh : IsSharedFlag sh) (hi : Inv tid ty sh s) (t : T)
    (c : Call) (hp : s.pc t = .relock c) (hg : s.value &&& mutexCounterMask ≠ mutexCounterMask) :
    Inv tid ty sh (s.put t (relockSection c s.value (s.holds t))) := by
  obtain ⟨hrec, hpos, -⟩ := hi.knows_at hp
  obtain ⟨k, st, hf, hst, hhold, hothers⟩ := hi.word.ofHolder t hpos
  have hk : k ≠ 2047 := fun he => hg ((hf.counter_full_iff hty hsh).2 he)
  have hlt := hf.2.2.1
  have hf' := hf.relock hty hsh
  rw [show (k + 1) % 2048 = k + 1 by omega] at hf'
  refine hi.moveWord t _ (.inr ⟨t, k + 1, st, hf', hst, ?_, ?_⟩) ?_ (by rw [hp]; rfl) ?_
  · simp [relockSection, hhold]
  · intro u hu
    simp [hu, hothers u hu]
  · refine ⟨fun h => (by cases h), fun he => ?_⟩
    rw [hrec] at he
    exact absurd he (by decide)
  · intro u hu
    rcases hi.rescue_ne (by rw [hp]; rfl) (by rw [hp]; rfl) u hu with h | h
    · rw [hf.mod4 hty hsh] at h
      exact .inl ((hf'.mod4 hty hsh).trans h)
    · exact .inr (.inr h)

theorem inv_release (hty : IsOwnedType ty) (hsh : IsSharedFlag sh) (hi : Inv tid ty sh s) (t : T)
    (m x : Word) (hp : s.pc t = .release m x) :
    Inv tid ty sh (s.put t (releaseSection m x s.value (s.holds t))) := by
  obtain ⟨rfl, rfl, hpos, howned⟩ := hi.knows_at hp
  obtain ⟨k, st, hf, hst, hhold, hothers⟩ := hi.word.ofHolder t hpos
  have hres := hi.rescue_ne (by rw [hp]; rfl) (by rw [hp]; rfl)
  rw [hf.mod4 hty hsh] at hres
  have hret : Pc.Knows m x (s.holds t - 1) (s.owned t) (.returned .unlock .ok) := by
    simp [Pc.Knows, howned]
  cases k with
  | succ k =>
    have hne : s.value &&& mutexCounterMask ≠ 0 := by
      rw [ne_eq, hf.counter_eq_zero_iff hty hsh]
      omega
    simp only [releaseSection, hne, ne_eq, not_false_eq_true, if_true]
    refine hi.moveWord t _ (.inr ⟨t, k, st, hf.unnest, hst, ?_, ?_⟩) hret (by rw [hp]; rfl) ?_
    · simp [hhold]
    · intro u hu
      simp [hu, hothers u hu]
    · intro u hu
      rcases hres u hu with h | h
      · exact .inl ((hf.unnest.mod4 hty hsh).trans h)
      · exact .inr (.inr h)
  | zero =>
    have he : s.value &&& mutexCounterMask = 0 := (hf.counter_eq_zero_iff hty hsh).2 rfl
    have hst2 : s.value &&& 3 = 2 ↔ st = 2 := by
      rw [state_eq_iff, hf.mod4 hty hsh]
      rfl
    simp only [releaseSection, he, ne_eq, not_true_eq_false, if_false, hst2]
    refine hi.moveWord t _ (.inl ⟨(toNat_base hty hsh).2, ?_⟩) ?_ (by rw [hp]; rfl) ?_
    · intro u
      by_cases hu : u = t
      · subst hu
        simp [hhold]
      · simp [hu, hothers u hu]
    · split
      · exact ⟨rfl, howned⟩
      · exact hret
    · intro u hu
      by_cases h2 : st = 2
      · -- the wake is still to come
        exact .inr (.inl (by simp [h2, Pc.rescues]))
      · exact .inr (.inr ((hres u hu).resolve_left h2))

/-- The acquisition of a released mutex, by a first attempt or by a contender. -/
theorem Inv.acquire (hv : ValidTids tid) (hty : IsOwnedType ty) (hsh : IsSharedFlag sh)
    (hi : Inv tid ty sh s) (t : T) (c : Call) (n st : Word)
    (hp : s.pc t = .attempt c (ty ||| sh) sh n) (hfree : s.value = ty ||| sh)
    (hst : n = 1 ∧ st = 1 ∨ st = 2) :
    Inv tid ty sh (s.put t
      ⟨(tid t <<< 16) ||| (ty ||| sh) ||| st, s.holds t + 1, .returned (.acquire c) .ok⟩) := by
  obtain ⟨-, -, h0, howned, -⟩ := hi.knows_at hp
  have hst4 : st.toNat = 1 ∨ st.toNat = 2 := by
    rcases hst with ⟨-, rfl⟩ | rfl
    · exact .inl rfl
    · exact .inr rfl
  have hst' : st.toNat < 4 := by omega
  have hf := hasFields_acquire hty hsh (hv.lt t) hst'
  have hnone : ∀ u, s.holds u = 0 := hi.word.allZero hty hsh hfree
  refine hi.moveWord t _ (.inr ⟨t, 0, st.toNat, hf, hst4, ?_, ?_⟩) (knows_acquire howned c nofun)
    (by rw [hp]; rfl) ?_
  · simp [h0]
  · intro u hu
    simp [hu, hnone u]
  · intro u hu
    rcases hst with ⟨rfl, rfl⟩ | rfl
    · -- a released word is not in state 2, so the sleeper has somebody else
      rcases hi.rescue_ne (by rw [hp]; rfl) (by rw [hp]; rfl) u hu with h | h
      · rw [hfree, (hasFields_base hty hsh).mod4 hty hsh] at h
        omega
      · exact .inr (.inr h)
    · exact .inl (hf.mod4 hty hsh)

/-- A contender of a mutex that is held leaves it in state 2. -/
theorem Inv.contend (hty : IsOwnedType ty) (hsh : IsSharedFlag sh) (hi : Inv tid ty sh s) (t : T)
    (c : Call) (n : Word) (p' : Pc) (hp : s.pc t = .attempt c (ty ||| sh) sh n)
    (hbusy : s.value ≠ ty ||| sh)
    (hk : (lockSection (tid t) (ty ||| sh) n s.value).1.toNat % 4 = 2 →
      p'.Knows ty sh (s.holds t) (s.owned t)) :
    (lockSection (tid t) (ty ||| sh) n s.value).1 ≠ ty ||| sh ∧
    Inv tid ty sh (s.put t ⟨(lockSection (tid t) (ty ||| sh) n s.value).2, s.holds t, p'⟩) := by
  rcases hi.word with ⟨he, -⟩ | ⟨w, k, st, hf, hst, hw, hz⟩
  · exact absurd he hbusy
  · obtain ⟨heq, hf'⟩ := @lockSection_busy ty sh s.value (tid t) n _ _ _ hty hsh hf hst
    have hm := hf'.mod4 hty hsh
    refine ⟨?_, hi.moveWord t _ (.inr ⟨w, k, 2, hf', .inr rfl, ?_, ?_⟩) ?_ (by rw [hp]; rfl)
      (fun _ _ => .inl hm)⟩
    · rw [heq, ne_eq, hf'.eq_base_iff hty hsh]
      omega
    · simpa using hw
    · intro u hu
      simpa using hz u hu
    · exact hk (by rw [heq]; exact hm)

theorem inv_attempt (hv : ValidTids tid) (hty : IsOwnedType ty) (hsh : IsSharedFlag sh)
    (hi : Inv tid ty sh s) (t : T) (c : Call) (m x n : Word) (hp : s.pc t = .attempt c m x n) :
    Inv tid ty sh (s.put t (attemptSection (tid t) c m x n s.value (s.holds t))) := by
  obtain ⟨rfl, rfl, h0, howned, hn⟩ := hi.knows_at hp
  by_cases hfree : s.value = ty ||| x
  · -- the attempt succeeds
    cases c with
    | trylock =>
      have hn1 : n = 1 := hn.resolve_right (fun h => h.2 rfl)
      simp only [attemptSection, hfree, if_true]
      exact hi.acquire hv hty hsh t _ n 1 hp hfree (.inl ⟨hn1, rfl⟩)
    | lock | lockTimeout =>
      simp only [attemptSection, lockSection, hfree, if_true]
      refine hi.acquire hv hty hsh t _ n n hp hfree ?_
      rcases hn with rfl | ⟨rfl, -⟩
      · exact .inl ⟨rfl, rfl⟩
      · exact .inr rfl
  · cases c with
    | trylock =>
      have hn1 : n = 1 := hn.resolve_right (fun h => h.2 rfl)
      simp only [attemptSection, hfree, if_false]
      rw [← goto_eq_put]
      exact hi.quiet t _ (knows_acquire howned _ nofun) (by rw [hp, hn1]; rfl) (by rw [hp]; rfl)
    | lock =>
      obtain ⟨hne, hi'⟩ := hi.contend hty hsh t .lock n
        (.wait .lock (ty ||| x) x (lockSection (tid t) (ty ||| x) n s.value).1) hp hfree
        (fun hm => ⟨rfl, rfl, h0, howned, hm, by decide⟩)
      simpa only [attemptSection, hne, if_false] using hi'
    | lockTimeout =>
      obtain ⟨hne, hi'⟩ := hi.contend hty hsh t .lockTimeout n
        (.deadline (ty ||| x) x (lockSection (tid t) (ty ||| x) n s.value).1) hp hfree
        (fun hm => ⟨rfl, rfl, h0, howned, hm⟩)
      simpa only [attemptSection, hne, if_false] using hi'

theorem inv_exec (hv : ValidTids tid) (hty : IsOwnedType ty) (hsh : IsSharedFlag sh)
    (hi : Inv tid ty sh s) (t : T) (r : Local) (hg : NoOverflow s (.exec t))
    (he : exec (tid t) s.value (s.holds t) (s.pc t) = some r) : Inv tid ty sh (s.put t r) := by
  have hk := hi.knows t
  obtain ⟨o, k, st, hf⟩ := hi.word.fields hty hsh
  generalize hp : s.pc t = q at he hk ⊢
  cases q with
  | idle | wait | blocked | wake | normalType | returned => cases he
  | readType op =>
    cases he
    rw [dispatch_eq hty hsh hf, ← goto_eq_put]
    exact hi.quiet t _ ⟨rfl, hk⟩ (by rw [hp]; rfl) (by rw [hp]; rfl)
  | readShared op m =>
    cases he
    rw [hf.shared hty hsh, ← goto_eq_put]
    exact hi.quiet t _ ⟨hk.1, rfl, hk.2⟩ (by rw [hp]; rfl) (by rw [hp]; rfl)
  | readOwner op m x =>
    cases he
    obtain ⟨rfl, rfl, howned⟩ := hk
    rw [← goto_eq_put]
    refine hi.quiet t _ ?_ (by rw [hp]; rfl) (by rw [hp]; rfl)
    rw [howned]
    exact checkOwner_knows hv hty hsh hi.word t op
  | relock c =>
    cases he
    exact inv_relock hty hsh hi t c hp (hg (by rw [hp]; rfl))
  | attempt c m x n =>
    cases he
    exact inv_attempt hv hty hsh hi t c m x n hp
  | deadline m x oldv =>
    cases he
    rw [← goto_eq_put]
    obtain ⟨hm, hx, h0, howned, hold⟩ := hk
    exact hi.quiet t _ ⟨hm, hx, h0, howned, hold, by decide⟩ (by rw [hp]; rfl) (by rw [hp]; rfl)
  | release m x =>
    cases he
    exact inv_release hty hsh hi t m x hp

theorem inv_call (hi : Inv tid ty sh s) (t : T) (op : Op) (hp : (s.pc t).outside = true) :
    Inv tid ty sh { s.goto t (.readType op) with
      owned := update s.owned t (decide (0 < s.holds t)) } := by
  obtain ⟨hr, hk⟩ := Pc.of_outside hp
  refine ⟨hi.word, ?_, ?_, ?_⟩
  · intro u
    by_cases hu : u = t
    · subst hu
      simp only [State.goto, update_self]
      exact rfl
    · simpa [State.goto, hu] using hi.knows u
  · intro u ps hm
    have hut : u ≠ t := ne_of_not_asleep (hi.notQueued hk) hm
    simpa [State.goto, hut] using hi.queued u ps hm
  · intro u hu
    rcases hi.rescue_ne hr hk u hu with h | ⟨w, hwt, hw⟩
    · exact .inl h
    · refine .inr ⟨w, ?_⟩
      unfold Rescuer at hw ⊢
      simpa [State.goto, hwt] using hw

theorem inv_sleep (hi : Inv tid ty sh s) {c : Call} {m x : Word} (hp : s.pc t = .wait c m x s.value) :
    Inv tid ty sh { s.goto t (.blocked c m x) with queue := sleep s.queue t (pshared x) } := by
  obtain ⟨rfl, rfl, h0, howned, hold, hc⟩ := hi.knows_at hp
  rw [goto_eq_put]
  refine hi.move t _ _ (hi.wordSame t) ⟨rfl, rfl, h0, howned, hc⟩ ?_ (fun _ _ => .inl hold)
  intro u ps hm
  rcases List.mem_cons.mp hm with he | hm'
  · cases he
    exact .inr ⟨rfl, rfl, rfl⟩
  · exact .inl ⟨ne_of_not_asleep (hi.notQueued (by rw [hp]; rfl)) hm', hm'⟩

theorem inv_leave (hi : Inv tid ty sh s) (t : T) (ht : asleep s.queue t) :
    Inv tid ty sh { s with queue := leave s.queue t } where
  word := hi.word
  knows := hi.knows
  queued := fun u ps hm => hi.queued u ps ((mem_leave _ _ _).1 hm).1
  rescue := by
    intro u _
    -- the sleeper that left is awake in the kernel and goes on to its next attempt
    obtain ⟨ps, hm⟩ := ht
    refine .inr ⟨t, .inr ⟨(hi.queued t ps hm).1, ?_⟩⟩
    rw [asleep_leave]
    exact fun h => h.2 rfl

theorem inv_resume (hi : Inv tid ty sh s) {c : Call} {m x : Word} (hp : s.pc t = .blocked c m x)
    (hns : ¬ asleep s.queue t) : Inv tid ty sh (s.goto t (.attempt c m x 2)) := by
  obtain ⟨rfl, rfl, h0, howned, hc⟩ := hi.knows_at hp
  rw [goto_eq_put]
  refine hi.move t ⟨s.value, s.holds t, .attempt c (ty ||| x) x 2⟩ s.queue (hi.wordSame t)
    ⟨rfl, rfl, h0, howned, .inr ⟨rfl, hc⟩⟩ ?_
    (fun _ _ => .inr ⟨t, .inl (by simp [State.put, Pc.rescues])⟩)
  intro u ps hm
  exact .inl ⟨ne_of_not_asleep hns hm, hm⟩

theorem inv_futexWake (hi : Inv tid ty sh s) {x : Word} (hp : s.pc t = .wake x) {woken : Option T}
    {q : Queue T} (hw : wakeOne s.queue (pshared x) woken = some q) :
    Inv tid ty sh { s.goto t (.returned .unlock .ok) with queue := q } := by
  obtain ⟨rfl, howned⟩ := hi.knows_at hp
  have hnt := hi.notQueued (by rw [hp]; rfl)
  rw [goto_eq_put]
  refine hi.move t _ _ (hi.wordSame t) ?_ ?_ ?_
  · simp [Pc.Knows, howned]
  · intro u ps hm
    have hmem := mem_of_wakeOne hw hm
    exact .inl ⟨ne_of_not_asleep hnt hmem, hmem⟩
  · intro u hu
    -- the woken thread goes on to its next attempt
    obtain ⟨w, hm, hawake⟩ := wakeOne_awake hw (fun e he => (hi.queued e.1 e.2 he).2) hu
    have hwt : w ≠ t := ne_of_not_asleep hnt hm
    exact .inr ⟨w, .inr ⟨by simpa [State.put, hwt] using (hi.queued w _ hm).1, hawake⟩⟩

theorem inv_step {a : Act T} (hv : ValidTids tid) (hty : IsOwnedType ty) (hsh : IsSharedFlag sh)
    (hi : Inv tid ty sh s) (hg : NoOverflow s a) (h : step tid s a = some s') :
    Inv tid ty sh s' := by
  revert h
  fun_cases step tid s a with
  | case1 t op hp =>
    rintro ⟨⟩
    exact inv_call hi t op hp
  | case3 t =>
    intro h
    obtain ⟨r, he, rfl⟩ := map_eq_some_iff.1 h
    exact inv_exec hv hty hsh hi t r hg he
  | case4 t _ _ _ hp =>
    rintro ⟨⟩
    obtain ⟨-, -, -, howned, -⟩ := hi.knows_at hp
    exact hi.quiet t _ (knows_acquire howned _ nofun) (by rw [hp]; rfl) (by rw [hp]; rfl)
  | case6 t c m x hp =>
    rintro ⟨⟩
    exact inv_sleep hi hp
  | case7 t c m x oldv hp =>
    rintro ⟨⟩
    obtain ⟨rfl, rfl, h0, howned, -, hc⟩ := hi.knows_at hp
    exact hi.quiet t _ ⟨rfl, rfl, h0, howned, .inr ⟨rfl, hc⟩⟩ (by rw [hp]; rfl) (by rw [hp]; rfl)
  | case9 t ht =>
    rintro ⟨⟩
    exact inv_leave hi t ht
  | case12 t c m x hp hns =>
    rintro ⟨⟩
    exact inv_resume hi hp hns
  | case14 t woken x hp =>
    intro h
    obtain ⟨q, hw, rfl⟩ := map_eq_some_iff.1 h
    exact inv_futexWake hi hp hw
  | _ => rintro ⟨⟩

theorem reachable_inv {g : State T → Act T → Prop} (hv : ValidTids tid) (hty : IsOwnedType ty)
    (hg : ∀ sh s a, Inv tid ty sh s → g s a → NoOverflow s a)
    (h : (machine tid ty).ReachableIf g s) : ∃ sh, IsSharedFlag sh ∧ Inv tid ty sh s := by
  refine Machine.ReachableIf.invariant
    (I := fun s => ∃ sh, IsSharedFlag sh ∧ Inv tid ty sh s) ?_ ?_ h
  · rintro s h0
    obtain ⟨attr, hattr⟩ := h0.1
    exact ⟨_, (pthreadMutexInit_eq attr s.value hattr).1, inv_init h0⟩
  · rintro s a s' ⟨sh, hsh, hi⟩ ha hs
    exact ⟨sh, hsh, inv_step hv hty hsh hi (hg sh s a hi ha) hs⟩

/-- An error-check mutex is never locked again by its owner, so its runs need no guard. -/
theorem inv_errorcheck (hv : ValidTids tid) (h : (machine tid mutexTypeErrorcheck).Reachable s) :
    ∃ sh, IsSharedFlag sh ∧ Inv tid mutexTypeErrorcheck sh s := by
  refine reachable_inv hv (.inr rfl) (fun sh s a hi _ => ?_) h
  cases a with
  | exec t =>
    intro hr
    have hk := hi.knows t
    cases hp : s.pc t <;> rw [hp] at hr hk <;> cases hr
    exact absurd hk.1 (by decide)
  | _ => trivial

/-! ## Calls that return 0 -/

/-- An acquiring call has returned 0. -/
def Pc.acquired : Pc → Bool
  | .returned (.acquire _) .ok => true
  | _ => false

/-- An unlock has returned 0, or has only its wake left before it does. -/
def Pc.released : Pc → Bool
  | .wake _ | .returned .unlock .ok => true
  | _ => false

/-- 1 for a step from `p` to `p'` that makes `f` true. -/
def Pc.enters (f : Pc → Bool) (p p' : Pc) : Nat := (!f p && f p').toNat

/-- One acquisition more for each acquiring call of `t` that returns 0, one less for each unlock. -/
def Accounts (s s' : State T) (t : T) : Prop :=
  s'.holds t + Pc.enters Pc.released (s.pc t) (s'.pc t) =
    s.holds t + Pc.enters Pc.acquired (s.pc t) (s'.pc t)

theorem Pc.enters_of_false {f : Pc → Bool} {p p' : Pc} (h : f p' = false) :
    Pc.enters f p p' = 0 := by
  simp [Pc.enters, h]

theorem exec_accounts {i v : Word} {n : Nat} {p : Pc} {r : Local} (h : exec i v n p = some r)
    (hpos : ∀ m x, p = .release m x → 0 < n) :
    r.holds + Pc.enters Pc.released p r.pc = n + Pc.enters Pc.acquired p r.pc := by
  cases p with
  | idle | wait | blocked | wake | normalType | returned => cases h
  | readShared | deadline | relock =>
    cases h
    rfl
  | readType op =>
    cases h
    dsimp only [dispatch]
    split <;> rfl
  | readOwner op m x =>
    cases h
    dsimp only [checkOwner]
    split
    · split <;> rfl
    · split
      · split <;> rfl
      · rfl
  | attempt c m x new =>
    cases h
    cases c with
    | lock | trylock | lockTimeout =>
      dsimp only [attemptSection]
      split <;> rfl
  | release m x =>
    cases h
    have hn := Nat.sub_add_cancel (hpos m x rfl)
    dsimp only [releaseSection]
    split
    · exact hn
    · split <;> exact hn

theorem accounts_goto {t u : T} {p : Pc} (hpc : s'.pc = update s.pc u p)
    (hh : s'.holds = s.holds)
    (he : Pc.enters Pc.released (s.pc u) p = Pc.enters Pc.acquired (s.pc u) p) :
    Accounts s s' t := by
  unfold Accounts
  rw [hpc, hh]
  by_cases ht : t = u
  · subst ht
    rw [update_self, he]
  · simp [update_of_ne ht, Pc.enters]

theorem Inv.accounts (hi : Inv tid ty sh s) (h : step tid s a = some s') (t : T) :
    Accounts s s' t := by
  revert h
  fun_cases step tid s a with
  | case1 u op hp =>
    rintro ⟨⟩
    refine accounts_goto rfl rfl ?_
    rw [Pc.enters_of_false rfl, Pc.enters_of_false rfl]
  | case3 u =>
    intro h
    obtain ⟨r, he, rfl⟩ := map_eq_some_iff.1 h
    have hu := exec_accounts he fun m x hp => (hi.knows_at hp).2.2.1
    unfold Accounts
    by_cases ht : t = u
    · subst ht
      simpa [State.put] using hu
    · simp [State.put, update_of_ne ht, Pc.enters]
  | case9 u ht =>
    rintro ⟨⟩
    simp [Accounts, Pc.enters]
  | case14 u woken x hp =>
    intro h
    obtain ⟨q, hw, rfl⟩ := map_eq_some_iff.1 h
    exact accounts_goto rfl rfl (by rw [hp]; rfl)
  | case4 u _ _ _ hp | case6 u _ _ _ hp | case7 u _ _ _ _ hp | case12 u _ _ _ hp =>
    rintro ⟨⟩
    exact accounts_goto rfl rfl (by rw [hp]; rfl)
  | _ => rintro ⟨⟩

/-! ## Top theorems -/

def Released (s : State T) : Prop := s.value &&& 3 = 0

omit [DecidableEq T] in
theorem Inv.released_iff (hty : IsOwnedType ty) (hsh : IsSharedFlag sh) (hi : Inv tid ty sh s) :
    Released s ↔ ∀ t, s.holds t = 0 := by
  unfold Released
  rw [state_eq_iff]
  constructor
  · intro h t
    refine hi.word.allZero hty hsh ?_ t
    rcases hi.word with ⟨he, -⟩ | ⟨w, k, st, hf, hst, -⟩
    · exact he
    · rw [hf.mod4 hty hsh] at h
      change st = 0 at h
      omega
  · intro h
    rcases hi.word with ⟨he, -⟩ | ⟨w, k, st, -, -, hw, -⟩
    · rw [he]
      exact (hasFields_base hty hsh).mod4 hty hsh
    · rw [h w] at hw
      omega

/-- **Nesting of a recursive mutex.**  In every run in which no thread locks again while the
counter is at its maximum, the owner field names the thread with outstanding acquisitions and
nobody else has any, the word is released exactly when none is left, an unlock by a thread that
has one is not refused, and each call that returns 0 is accounted for. -/
theorem recursive_nesting {s : State T} (hv : ValidTids tid)
    (h : (machine tid mutexTypeRecursive).ReachableIf NoOverflow s) :
    (∀ t, 0 < s.holds t → mutexOwner s.value = tid t ∧ ∀ u, u ≠ t → s.holds u = 0) ∧
      (Released s ↔ ∀ t, s.holds t = 0) ∧
      (∀ t, s.pc t = .returned .unlock .eperm → s.owned t = false) ∧
      ∀ a s' t, step tid s a = some s' → Accounts s s' t := by
  have hty : IsOwnedType mutexTypeRecursive := .inl rfl
  obtain ⟨sh, hsh, hi⟩ := reachable_inv hv hty (fun _ _ _ _ h => h) h
  refine ⟨?_, hi.released_iff hty hsh, ?_, fun a s' t hs => hi.accounts hs t⟩
  · intro t ht
    obtain ⟨k, st, hf, -, -, hothers⟩ := hi.word.ofHolder t ht
    exact ⟨BitVec.eq_of_toNat_eq (hf.owner hty hsh), hothers⟩
  · intro t hp
    exact (hi.knows_at hp).1 rfl

/-- A whole lock call of a thread that meets nobody. -/
def lockCall (t : T) : List (Act T) :=
  [.call t (.acquire .lock), .exec t, .exec t, .exec t, .exec t]

def unlockCall (t : T) : List (Act T) := [.call t .unlock, .exec t, .exec t, .exec t, .exec t]

def twoTids (b : Bool) : Word := if b then 2 else 1

theorem twoTids_valid : ValidTids twoTids := ⟨by decide, by decide, by decide⟩

/-- A private recursive or error-check mutex before its first use. -/
def fresh (ty : Word) : State Bool := ⟨ty, [], fun _ => .idle, fun _ => 0, fun _ => false⟩

theorem fresh_init {ty : Word} (hty : IsOwnedType ty) : init ty (fresh ty) := by
  refine ⟨?_, ?_, rfl, fun _ => ⟨rfl, rfl⟩⟩
  · rcases hty with rfl | rfl
    · exact ⟨some pthreadMutexRecursive, rfl⟩
    · exact ⟨some pthreadMutexErrorcheck, rfl⟩
  · rcases hty with rfl | rfl <;> rfl

theorem recursive_nesting_twice :
    ∃ s : State Bool, (machine twoTids mutexTypeRecursive).ReachableIf NoOverflow s ∧
      s.holds false = 2 ∧
      (∀ t, 0 < s.holds t → mutexOwner s.value = twoTids t ∧ ∀ u, u ≠ t → s.holds u = 0) ∧
      (Released s ↔ ∀ t, s.holds t = 0) ∧
      (∀ t, s.pc t = .returned .unlock .eperm → s.owned t = false) ∧
      ∀ a s' t, step twoTids s a = some s' → Accounts s s' t := by
  obtain ⟨s, hs, h2⟩ : ∃ s : State Bool,
      (machine twoTids mutexTypeRecursive).runIf NoOverflow (fresh mutexTypeRecursive)
        (lockCall false ++ lockCall false) = some s ∧ s.holds false = 2 := ⟨_, rfl, rfl⟩
  have hr : (machine twoTids mutexTypeRecursive).ReachableIf NoOverflow s :=
    Machine.ReachableIf.runIf (.init (fresh_init (.inl rfl))) _ hs
  exact ⟨s, hr, h2, recursive_nesting twoTids_valid hr⟩

/-- A call reads the type, the shared flag and the owner, and then does what these say. -/
theorem run_call (op : Op) (hp : (s.pc t).outside = true)
    (htype : ¬ s.value &&& mutexTypeMask = mutexTypeNormal) :
    (machine tid ty).run s [.call t op, .exec t, .exec t, .exec t, .exec t] =
      (exec (tid t) s.value (s.holds t) (checkOwner (tid t) op (s.value &&& mutexTypeMask)
        (s.value &&& mutexSharedMask) s.value)).map fun r =>
          { s.put t r with owned := update s.owned t (decide (0 < s.holds t)) } := by
  simp only [Machine.run, machine, step, hp, if_true, exec, dispatch, htype, if_false, State.goto,
    State.put, bind_some, map_some, update_self, update_idem,
    update_eq_self]
  exact bind_fun_some _

/-- What the lock call of an owner does when it meets nobody. -/
theorem run_lockCall (hp : (s.pc t).outside = true)
    (htype : s.value &&& mutexTypeMask = mutexTypeRecursive) (howner : mutexOwner s.value = tid t) :
    (machine tid ty).run s (lockCall t) =
      some { s.put t (relockSection .lock s.value (s.holds t)) with
        owned := update s.owned t (decide (0 < s.holds t)) } := by
  rw [lockCall, run_call _ hp (by rw [htype]; decide), htype, checkOwner, if_pos howner.symm]
  rfl

theorem run_unlockCall (hp : (s.pc t).outside = true)
    (htype : s.value &&& mutexTypeMask = mutexTypeRecursive) (howner : mutexOwner s.value = tid t)
    (hcounter : s.value &&& mutexCounterMask = 0) (hstate : s.value &&& 3 = 1) :
    (machine tid ty).run s (unlockCall t) =
      some { s.put t ⟨s.value &&& mutexSharedMask ||| mutexTypeRecursive, s.holds t - 1,
          .returned .unlock .ok⟩ with
        owned := update s.owned t (decide (0 < s.holds t)) } := by
  have hne : ¬ s.value &&& 3 = 2 := by
    rw [hstate]
    decide
  have howner' : ¬ tid t ≠ mutexOwner s.value := not_not.2 howner.symm
  rw [unlockCall, run_call _ hp (by rw [htype]; decide), htype, checkOwner, if_neg howner', exec,
    releaseSection, if_neg (not_not.2 hcounter), if_neg hne]
  rfl

theorem run_lockCall_released (hp : (s.pc t).outside = true) (hvalue : s.value = mutexTypeRecursive)
    (htid : ¬ tid t = 0#32) :
    (machine tid ty).run s (lockCall t) =
      some { s.put t ⟨(tid t <<< 16) ||| mutexTypeRecursive ||| 1, s.holds t + 1,
          .returned (.acquire .lock) .ok⟩ with
        owned := update s.owned t (decide (0 < s.holds t)) } := by
  have howner : ¬ tid t = mutexOwner mutexTypeRecursive := htid
  rw [lockCall, run_call _ hp (by rw [hvalue]; decide), hvalue, checkOwner, if_neg howner]
  rfl

/-- Thread `false` has acquired the mutex `n + 1` times and `true` is outside. -/
structure Nested (n : Nat) (s : State Bool) : Prop where
  word : HasFields mutexTypeRecursive 0 s.value 1 (n % 2048) 1
  outside : (s.pc false).outside = true
  other : s.pc true = .idle
  count : s.holds false = n + 1
  otherCount : s.holds true = 0

theorem Nested.lockCall {n : Nat} {s : State Bool} (h : Nested n s) :
    ∃ s', (machine twoTids mutexTypeRecursive).run s (lockCall false) = some s' ∧
      Nested (n + 1) s' := by
  have hty : IsOwnedType mutexTypeRecursive := .inl rfl
  have hsh : IsSharedFlag 0 := .inl rfl
  have howner : mutexOwner s.value = twoTids false :=
    BitVec.eq_of_toNat_eq (h.word.owner hty hsh)
  refine ⟨_, run_lockCall h.outside (h.word.type hty hsh) howner, ?_, ?_, ?_, ?_, ?_⟩
  · have hw := h.word.relock hty hsh
    rw [show (n % 2048 + 1) % 2048 = (n + 1) % 2048 by omega] at hw
    exact hw
  · rfl
  · exact h.other
  · simp [State.put, relockSection, h.count]
  · exact h.otherCount

theorem Nested.lockCalls {m : Nat} {s : State Bool} (h : Nested m s) (n : Nat) :
    ∃ s', (machine twoTids mutexTypeRecursive).run s
      (List.replicate n (Owned.lockCall false)).flatten = some s' ∧ Nested (m + n) s' := by
  induction n generalizing m s with
  | zero => exact ⟨s, rfl, h⟩
  | succ n ih =>
    obtain ⟨s₁, hr₁, h₁⟩ := h.lockCall
    obtain ⟨s₂, hr₂, h₂⟩ := ih h₁
    refine ⟨s₂, ?_, ?_⟩
    · rw [List.replicate_succ, List.flatten_cons, Machine.run_append, hr₁]
      exact hr₂
    · rw [show m + (n + 1) = m + 1 + n by omega]
      exact h₂

/-- Once the counter has wrapped to 0, one unlock releases the mutex and the other thread can
have it. -/
theorem Nested.wrapped {n : Nat} {s : State Bool} (h : Nested n s) (hn : n % 2048 = 0) :
    ∃ s', (machine twoTids mutexTypeRecursive).run s (unlockCall false ++ Owned.lockCall true) =
      some s' ∧ s'.holds false = n ∧ s'.holds true = 1 := by
  have hw : s.value = 0x14001 := by
    apply BitVec.eq_of_toNat_eq
    rw [h.word.1, hn]
    rfl
  have hunlock := @run_unlockCall _ twoTids mutexTypeRecursive s false _ h.outside
    (by rw [hw]; decide) (by rw [hw]; decide) (by rw [hw]; decide) (by rw [hw]; decide)
  rw [Machine.run_append, hunlock]
  refine ⟨_, run_lockCall_released ?_ ?_ (by decide), ?_, ?_⟩
  · simp [State.put, h.other, Pc.outside]
  · simp only [State.put]
    rw [hw]
    decide
  · simp [State.put, h.count]
  · simp [State.put, h.otherCount]

/-- 2049 acquisitions, one unlock, and a lock call of the other thread. -/
def wrapRun : List (Act Bool) :=
  lockCall false ++ ((List.replicate 2048 (lockCall false)).flatten ++
    (unlockCall false ++ lockCall true))

/-- The 2049th acquisition wraps the counter: after one unlock, with 2048 acquisitions still
outstanding, the other thread acquires the mutex too. -/
theorem nesting_wraps :
    ∃ s : State Bool, (machine twoTids mutexTypeRecursive).run (fresh mutexTypeRecursive) wrapRun =
      some s ∧ s.holds false = 2048 ∧ s.holds true = 1 := by
  have hfirst := @run_lockCall_released _ twoTids mutexTypeRecursive (fresh mutexTypeRecursive)
    false _ rfl rfl (by decide)
  have h0 : Nested 0 { (fresh mutexTypeRecursive).put false
      ⟨(twoTids false <<< 16) ||| mutexTypeRecursive ||| 1, 0 + 1, .returned (.acquire .lock) .ok⟩ with
        owned := update (fun _ => false) false (decide (0 < 0)) } :=
    ⟨⟨by decide, by decide, by decide, by decide⟩, rfl, rfl, rfl, rfl⟩
  obtain ⟨s₁, hr₁, h₁⟩ := h0.lockCalls 2048
  obtain ⟨s₂, hr₂, hf, ht⟩ := h₁.wrapped (by decide)
  refine ⟨s₂, ?_, hf, ht⟩
  unfold wrapRun
  rw [Machine.run_append, hfirst, bind_some, Machine.run_append]
  exact (congrArg (Option.bind · _) hr₁).trans hr₂

/-! ### The error-check mutex -/

def Pc.unlocking : Pc → Bool
  | .readType .unlock | .readShared .unlock _ | .readOwner .unlock _ _ | .release _ _ | .wake _ =>
    true
  | .idle | .readType (.acquire _) | .readShared (.acquire _) _ | .readOwner (.acquire _) _ _
  | .relock _ | .attempt _ _ _ _ | .deadline _ _ _ | .wait _ _ _ _ | .blocked _ _ _ | .normalType
  | .returned _ _ => false

/-- Past its releasing section, the futex wake still to perform. -/
def WakePending (s : State T) (u : T) : Prop := ∃ sh, s.pc u = .wake sh

/-- A woken or not yet sleeping contender whose next step examines the word again. -/
def Reexamines (s : State T) (u : T) : Prop :=
  (∃ c m x, s.pc u = .attempt c m x 2) ∨ ∃ c m x, s.pc u = .blocked c m x ∧ ¬ asleep s.queue u

omit [DecidableEq T] in
theorem Rescuer.pending {u : T} (h : Rescuer s u) :
    WakePending s u ∨ Reexamines s u := by
  unfold Rescuer at h
  generalize hp : s.pc u = q at h ⊢
  cases q with
  | wake sh => exact .inl ⟨sh, hp⟩
  | attempt c m x n =>
    rcases h with h | ⟨h, -⟩
    · have hn : n = 2 := of_decide_eq_true h
      subst hn
      exact .inr (.inl ⟨c, m, x, hp⟩)
    · cases h
  | blocked c m x =>
    rcases h with h | h
    · cases h
    · exact .inr (.inr ⟨c, m, x, hp, h.2⟩)
  | _ =>
    rcases h with h | ⟨h, -⟩ <;> cases h

/-- No step of an unlock call made by a thread that did not hold the mutex writes the word. -/
theorem Inv.unlock_keeps (hi : Inv tid ty sh s) (hp : (s.pc t).unlocking = true)
    (howned : s.owned t = false) (h : step tid s (.exec t) = some s') : s'.value = s.value := by
  have hk := hi.knows t
  simp only [step, map_eq_some_iff] at h
  obtain ⟨r, he, rfl⟩ := h
  generalize hpc : s.pc t = q at he hk hp ⊢
  cases q with
  | readType | readShared | readOwner =>
    cases he
    rfl
  | release m x =>
    rw [hk.2.2.2] at howned
    cases howned
  | wake =>
    cases he
  | _ =>
    cases hp

/-- **The error-check protocol.**  In every reachable state: the owner field names exactly the
thread that holds the mutex, and there is at most one; an acquiring call returned `EDEADLK`
exactly if its caller held the mutex; an unlock returned `EPERM` exactly if its caller did not,
and no section of such an unlock writes the word; each call that returns 0 is accounted for; and a
thread asleep next to a released mutex has another that is about to wake a sleeper or to examine
the word again. -/
theorem errorcheck_protocol {s : State T} (hv : ValidTids tid)
    (h : (machine tid mutexTypeErrorcheck).Reachable s) :
    (∀ t, mutexOwner s.value = tid t ↔ 0 < s.holds t) ∧
      (∀ t u, 0 < s.holds t → 0 < s.holds u → t = u) ∧
      (∀ t c r, s.pc t = .returned (.acquire c) r →
        ((r = .edeadlk ↔ s.owned t = true) ∧ (r = .edeadlk → 0 < s.holds t))) ∧
      (∀ t r, s.pc t = .returned .unlock r → (r = .eperm ↔ s.owned t = false)) ∧
      (∀ t s', (s.pc t).unlocking = true → s.owned t = false → step tid s (.exec t) = some s' →
        s'.value = s.value) ∧
      (∀ a s' t, step tid s a = some s' → Accounts s s' t) ∧
      ∀ t, asleep s.queue t → Released s → ∃ u, u ≠ t ∧ (WakePending s u ∨ Reexamines s u) := by
  obtain ⟨sh, hsh, hi⟩ := inv_errorcheck hv h
  have hty : IsOwnedType mutexTypeErrorcheck := .inr rfl
  refine ⟨?_, hi.word.one, ?_, ?_, fun t s' => hi.unlock_keeps,
    fun a s' t hs => hi.accounts hs t, ?_⟩
  · intro t
    rw [eq_comm]
    exact hi.word.owner_iff hv hty hsh t
  · intro t c r hp
    have hk := hi.knows_at hp
    exact ⟨⟨fun hr => (hk.1 hr).2, hk.2 rfl⟩, fun hr => (hk.1 hr).1⟩
  · intro t r hp
    exact hi.knows_at hp
  · intro t ht hrel
    rcases hi.rescue t ht with h2 | ⟨u, hu⟩
    · rw [Released, state_eq_iff, h2] at hrel
      cases hrel
    · refine ⟨u, ?_, hu.pending⟩
      rintro rfl
      obtain ⟨ps, hm⟩ := ht
      rcases hu with hu | ⟨-, hu⟩
      · rw [Pc.rescues_of_inKernel (hi.queued u ps hm).1] at hu
        cases hu
      · exact hu ⟨ps, hm⟩

theorem errorcheck_protocol_contended :
    ∃ s : State Bool, (machine twoTids mutexTypeErrorcheck).Reachable s ∧ asleep s.queue true ∧
      Released s ∧ ∃ u, u ≠ true ∧ (WakePending s u ∨ Reexamines s u) := by
  obtain ⟨s, hs, hq, hv⟩ : ∃ s : State Bool,
      (machine twoTids mutexTypeErrorcheck).run (fresh mutexTypeErrorcheck)
        (lockCall false ++ lockCall true ++ [.futexWait true] ++ unlockCall false) = some s ∧
      s.queue = [(true, false)] ∧ s.value = mutexTypeErrorcheck := ⟨_, rfl, rfl, rfl⟩
  have hr : (machine twoTids mutexTypeErrorcheck).Reachable s :=
    Machine.Reachable.run (.init (fresh_init (.inr rfl))) _ hs
  have ha : asleep s.queue true := ⟨false, by simp [hq]⟩
  have hrel : Released s := by
    rw [Released, hv]
    decide
  exact ⟨s, hr, ha, hrel, (errorcheck_protocol twoTids_valid hr).2.2.2.2.2.2 true ha hrel⟩

end

end Pthread.Owned
