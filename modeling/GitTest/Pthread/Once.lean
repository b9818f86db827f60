import GitTest.Pthread.Owned

/-!
# `pthread_once` (libc/bionic/pthread.c)

Any number of threads `T` call `pthread_once` on controls of any type `C`.  All calls share the
recursive mutex `once_lock`: its state is that of `Pthread.Owned`, and a thread inside
`pthread_mutex_lock` or `pthread_mutex_unlock` moves as it does there.  The unlocked read of the
control, the read under the lock and the store are steps of their own.  The init routine is code
of the caller that may call `pthread_once` again, on controls whose routine is not in progress on
its thread; `stack t` are the calls thread `t` has in progress, innermost first.

Ghosts: `started c` counts the executions of the routine of `c`, `completed c` says that one has
returned, and `returned c` that some call on `c` has.

    ReachableIf Shallow s → the routine of each control has run at most once, and no call on it
      has returned before the routine has  (once_exactly_once)
    ReachableIf Shallow s → routines in progress are those of one thread
      (routines_of_one_thread)
    2049 nested calls → the innermost unlock frees the lock, and another thread runs a routine
      that is in progress again  (nested_runs_twice)
-/

namespace Pthread.Once

open Function Futex List Machines Option

/-! ## Algorithm -/

def pthreadOnceInit : Word := 0

/-- Where a call of `pthread_once` is. -/
inductive Stage
  /-- `tmp = *ocptr` -/
  | read
  /-- `pthread_mutex_lock( &once_lock )` -/
  | lock
  /-- `if (*ocptr == PTHREAD_ONCE_INIT)` -/
  | check
  /-- `(*init_routine)()` -/
  | running
  /-- `*ocptr = ~PTHREAD_ONCE_INIT` -/
  | store
  /-- `pthread_mutex_unlock( &once_lock )` -/
  | unlock
  deriving DecidableEq, Repr

structure Frame (C : Type) where
  control : C
  stage : Stage

structure State (T C : Type) where
  mutex : Owned.State T
  once : C → Word
  stack : T → List (Frame C)
  started : C → Nat
  completed : C → Bool
  returned : C → Bool

inductive Act (T C : Type)
  /-- A thread outside `pthread_once` or in an init routine calls it. -/
  | call (t : T) (c : C)
  /-- The innermost init routine of a thread returns. -/
  | finish (t : T)
  /-- The innermost call of a thread goes on. -/
  | exec (t : T)
  /-- A step inside `pthread_mutex_lock` or `pthread_mutex_unlock`. -/
  | mutex (a : Owned.Act T)

def actor {T : Type} : Owned.Act T → T
  | .call t _ | .exec t | .expire t | .futexWait t | .leave t | .resume t | .futexWake t _ => t

def inCall {T : Type} : Owned.Act T → Bool
  | .exec _ | .futexWait _ | .leave _ | .resume _ | .futexWake _ _ => true
  | .call _ _ | .expire _ => false

def usesMutex {C : Type} : List (Frame C) → Bool
  | ⟨_, .lock⟩ :: _ | ⟨_, .unlock⟩ :: _ => true
  | [] | ⟨_, .read⟩ :: _ | ⟨_, .check⟩ :: _ | ⟨_, .running⟩ :: _ | ⟨_, .store⟩ :: _ => false

/-- The thread runs code of the caller: none of its calls is in progress, or the innermost runs
its init routine. -/
def inUserCode {C : Type} : List (Frame C) → Bool
  | [] | ⟨_, .running⟩ :: _ => true
  | ⟨_, .read⟩ :: _ | ⟨_, .lock⟩ :: _ | ⟨_, .check⟩ :: _ | ⟨_, .store⟩ :: _
  | ⟨_, .unlock⟩ :: _ => false

section
variable {T C : Type} [DecidableEq T] [DecidableEq C]

def State.setStack (s : State T C) (t : T) (l : List (Frame C)) : State T C :=
  { s with stack := Function.update s.stack t l }

/-- The innermost call of `t`, on `c`, returns. -/
def State.ret (s : State T C) (t : T) (c : C) (rest : List (Frame C)) : State T C :=
  { s.setStack t rest with returned := Function.update s.returned c true }

/-- The innermost call of `t` goes on to a call of the mutex functions. -/
def State.enter (tid : T → Word) (s : State T C) (t : T) (f : Frame C) (rest : List (Frame C))
    (op : Owned.Op) : Option (State T C) :=
  (Owned.step tid s.mutex (.call t op)).map fun m => { s.setStack t (f :: rest) with mutex := m }

def exec (tid : T → Word) (s : State T C) (t : T) : Option (State T C) :=
  match s.stack t with
  | [] => none
  | ⟨c, .read⟩ :: rest =>
    if s.once c = pthreadOnceInit then s.enter tid t ⟨c, .lock⟩ rest (.acquire .lock)
    else some (s.ret t c rest)
  | ⟨c, .lock⟩ :: rest =>
    -- the result of the lock is not looked at
    match s.mutex.pc t with
    | .returned (.acquire .lock) _ => some (s.setStack t (⟨c, .check⟩ :: rest))
    | _ => none
  | ⟨c, .check⟩ :: rest =>
    if s.once c = pthreadOnceInit then
      some { s.setStack t (⟨c, .running⟩ :: rest) with
        started := Function.update s.started c (s.started c + 1) }
    else s.enter tid t ⟨c, .unlock⟩ rest .unlock
  | ⟨_, .running⟩ :: _ => none
  | ⟨c, .store⟩ :: rest =>
    (s.enter tid t ⟨c, .unlock⟩ rest .unlock).map fun s' =>
      { s' with once := Function.update s.once c (~~~pthreadOnceInit) }
  | ⟨c, .unlock⟩ :: rest =>
    match s.mutex.pc t with
    | .returned .unlock _ => some (s.ret t c rest)
    | _ => none

def step (tid : T → Word) (s : State T C) : Act T C → Option (State T C)
  | .call t c =>
    if inUserCode (s.stack t) = true ∧ c ∉ (s.stack t).map Frame.control then
      some (s.setStack t (⟨c, .read⟩ :: s.stack t))
    else none
  | .finish t =>
    match s.stack t with
    | ⟨c, .running⟩ :: rest =>
      some { s.setStack t (⟨c, .store⟩ :: rest) with
        completed := Function.update s.completed c true }
    | _ => none
  | .exec t => exec tid s t
  | .mutex a =>
    if inCall a = true ∧ usesMutex (s.stack (actor a)) = true then
      (Owned.step tid s.mutex a).map fun m => { s with mutex := m }
    else none

/-- No call in progress, every control as `PTHREAD_ONCE_INIT` leaves it, and a recursive mutex
before its first use. -/
def init (s : State T C) : Prop :=
  Owned.init mutexTypeRecursive s.mutex ∧ (∀ c, s.once c = pthreadOnceInit) ∧
    (∀ t, s.stack t = []) ∧ (∀ c, s.started c = 0) ∧ (∀ c, s.completed c = false) ∧
    ∀ c, s.returned c = false

def machine (tid : T → Word) : Machine (State T C) (Act T C) := ⟨init, step tid⟩

/-- No thread nests more than 2048 calls. -/
def Shallow (s : State T C) : Act T C → Prop
  | .call t _ => (s.stack t).length < 2048
  | .finish _ | .exec _ | .mutex _ => True

instance (s : State T C) : (a : Act T C) → Decidable (Shallow s a)
  | .call t _ => inferInstanceAs (Decidable ((s.stack t).length < 2048))
  | .finish _ | .exec _ | .mutex _ => inferInstanceAs (Decidable True)

end

/-! ## A thread in the mutex functions -/

/-- How far a thread is in a call of `pthread_mutex_lock` or `pthread_mutex_unlock`. -/
inductive Phase
  | locking
  | locked
  | unlocking
  /-- Past the section of the unlock, its wake still to be made or made. -/
  | unlocked
  | other
  deriving DecidableEq

def phase : Owned.Pc → Phase
  | .readType (.acquire .lock) | .readShared (.acquire .lock) _ | .readOwner (.acquire .lock) _ _
  | .relock .lock | .attempt .lock _ _ _ | .wait .lock _ _ _ | .blocked .lock _ _ => .locking
  | .returned (.acquire .lock) .ok => .locked
  | .readType .unlock | .readShared .unlock _ | .readOwner .unlock _ _ | .release _ _ => .unlocking
  | .wake _ | .returned .unlock .ok => .unlocked
  | .idle | .readType (.acquire .trylock) | .readType (.acquire .lockTimeout)
  | .readShared (.acquire .trylock) _ | .readShared (.acquire .lockTimeout) _
  | .readOwner (.acquire .trylock) _ _ | .readOwner (.acquire .lockTimeout) _ _
  | .relock .trylock | .relock .lockTimeout | .attempt .trylock _ _ _ | .attempt .lockTimeout _ _ _
  | .deadline _ _ _ | .wait .trylock _ _ _ | .wait .lockTimeout _ _ _ | .blocked .trylock _ _
  | .blocked .lockTimeout _ _ | .normalType | .returned (.acquire .trylock) _
  | .returned (.acquire .lockTimeout) _ | .returned (.acquire .lock) .ebusy
  | .returned (.acquire .lock) .edeadlk | .returned (.acquire .lock) .eperm
  | .returned .unlock .ebusy | .returned .unlock .edeadlk | .returned .unlock .eperm => .other

/-- From place `p` and count `n` to `p'` and `n'`: a lock goes on or acquires, an unlock of a
holder goes on or gives one acquisition back. -/
structure Advances (p : Owned.Pc) (n : Nat) (p' : Owned.Pc) (n' : Nat) : Prop where
  locking : phase p = .locking →
    (phase p' = .locking ∧ n' = n) ∨ (phase p' = .locked ∧ n' = n + 1)
  unlocking : phase p = .unlocking → 0 < n →
    (phase p' = .unlocking ∧ n' = n) ∨ (phase p' = .unlocked ∧ n' = n - 1)
  locked : phase p = .locked → phase p' = .locked ∧ n' = n
  unlocked : phase p = .unlocked → phase p' = .unlocked ∧ n' = n

section
variable {p p' : Owned.Pc} {n n' : Nat}

theorem Advances.same (h : phase p' = phase p) : Advances p n p' n := by
  refine ⟨?_, ?_, ?_, ?_⟩ <;> intro hp <;> rw [h]
  · exact .inl ⟨hp, rfl⟩
  · exact fun _ => .inl ⟨hp, rfl⟩
  · exact ⟨hp, rfl⟩
  · exact ⟨hp, rfl⟩

theorem Advances.acquired (h : phase p = .locking) (h' : phase p' = .locked) :
    Advances p n p' (n + 1) := by
  refine ⟨fun _ => .inr ⟨h', rfl⟩, ?_, ?_, ?_⟩ <;> intro hp <;> rw [h] at hp <;> cases hp

theorem Advances.released (h : phase p = .unlocking) (h' : phase p' = .unlocked) :
    Advances p n p' (n - 1) := by
  refine ⟨?_, fun _ _ => .inr ⟨h', rfl⟩, ?_, ?_⟩ <;> intro hp <;> rw [h] at hp <;> cases hp

theorem Advances.ofOther (h : phase p = .other) : Advances p n p' n' := by
  refine ⟨?_, ?_, ?_, ?_⟩ <;> intro hp <;> rw [h] at hp <;> cases hp

end

section
variable {T : Type} {tid : T → Word} {sh : Word}

/-- The mutex functions have moved no thread but `t`. -/
def Apart (m m' : Owned.State T) (t : T) : Prop :=
  ∀ u, u ≠ t → m'.pc u = m.pc u ∧ m'.holds u = m.holds u

/-- A read or a section of the mutex functions, on a recursive mutex. -/
theorem advances_exec {m : Owned.State T} (hv : Owned.ValidTids tid) (hsh : IsSharedFlag sh)
    (hi : Owned.Inv tid mutexTypeRecursive sh m) {t : T} {r : Owned.Local}
    (h : Owned.exec (tid t) m.value (m.holds t) (m.pc t) = some r) :
    Advances (m.pc t) (m.holds t) r.pc r.holds := by
  have hty : IsOwnedType mutexTypeRecursive := .inl rfl
  have hk := hi.knows t
  obtain ⟨o, k, st, hf⟩ := hi.word.fields hty hsh
  have howner := hi.word.owner_iff hv hty hsh t
  generalize hp : m.pc t = q at h hk ⊢
  cases q with
  | idle | wait | blocked | wake | normalType | returned =>
    cases h
  | readType op =>
    simp only [Owned.exec, Owned.dispatch_eq hty hsh hf, Option.some.injEq] at h
    subst h
    apply Advances.same
    rcases op with c | - <;> [cases c <;> rfl; rfl]
  | readShared op mtype =>
    cases h
    apply Advances.same
    rcases op with c | - <;> [cases c <;> rfl; rfl]
  | readOwner op mtype shared =>
    obtain ⟨rfl, -, -⟩ := hk
    cases h
    cases op with
    | unlock =>
      -- the owner check of a holder succeeds
      by_cases hh : 0 < m.holds t
      · apply Advances.same
        simp [Owned.checkOwner, howner.2 hh, phase]
      · refine ⟨?_, fun _ h => absurd h hh, ?_, ?_⟩ <;> intro hp <;> cases hp
    | acquire c =>
      have hne : ¬ mutexTypeRecursive = mutexTypeErrorcheck := by decide
      apply Advances.same
      by_cases he : tid t = mutexOwner m.value <;> cases c <;>
        simp [Owned.checkOwner, he, hne, phase]
  | relock c =>
    cases h
    cases c with
    | lock => exact .acquired rfl rfl
    | trylock | lockTimeout => exact .ofOther rfl
  | attempt c mtype shared newLockType =>
    cases c with
    | lock =>
      simp only [Owned.exec, Owned.attemptSection, Option.some.injEq] at h
      split at h
      · subst h
        exact .acquired rfl rfl
      · subst h
        exact .same rfl
    | trylock | lockTimeout => exact .ofOther rfl
  | deadline mtype shared oldv => exact .ofOther rfl
  | release mtype shared =>
    simp only [Owned.exec, Owned.releaseSection, Option.some.injEq] at h
    split at h
    · subst h
      exact .released rfl rfl
    · subst h
      refine .released rfl ?_
      split <;> rfl

/-- A step inside the mutex functions moves its thread on and no other. -/
theorem advances_step [DecidableEq T] {m m' : Owned.State T} (hv : Owned.ValidTids tid)
    (hsh : IsSharedFlag sh) (hi : Owned.Inv tid mutexTypeRecursive sh m) {a : Owned.Act T} (ha : inCall a = true)
    (h : Owned.step tid m a = some m') : Apart m m' (actor a) ∧
      Advances (m.pc (actor a)) (m.holds (actor a)) (m'.pc (actor a)) (m'.holds (actor a)) := by
  have hgoto : ∀ (t : T) (p : Owned.Pc) (m' : Owned.State T), phase p = phase (m.pc t) →
      m'.pc = update m.pc t p → m'.holds = m.holds →
      Apart m m' t ∧ Advances (m.pc t) (m.holds t) (m'.pc t) (m'.holds t) := by
    intro t p m' hp hpc hh
    rw [Apart, hpc, hh, update_self]
    exact ⟨fun u hu => ⟨update_of_ne hu _ _, rfl⟩, .same hp⟩
  revert h
  fun_cases Owned.step tid m a with
  | case1 | case4 => cases ha
  | case3 t =>
    intro h
    obtain ⟨r, he, rfl⟩ := Option.map_eq_some_iff.1 h
    refine ⟨fun u hu => ⟨update_of_ne hu _ _, update_of_ne hu _ _⟩, ?_⟩
    simpa [Owned.State.put, actor] using advances_exec hv hsh hi he
  | case6 t c _ _ hp | case7 t c _ _ _ hp | case12 t c _ _ hp =>
    rintro ⟨⟩
    exact hgoto t _ _ (by rw [hp]; cases c <;> rfl) rfl rfl
  | case9 t =>
    rintro ⟨⟩
    exact ⟨fun _ _ => ⟨rfl, rfl⟩, .same rfl⟩
  | case14 t _ _ hp =>
    intro h
    obtain ⟨q, -, rfl⟩ := Option.map_eq_some_iff.1 h
    exact hgoto t _ _ (by rw [hp]; rfl) rfl rfl
  | _ => rintro ⟨⟩

end

/-! ## The invariant -/

/-- The init routine is in progress, or has returned and the control is not yet marked. -/
def Stage.busy : Stage → Bool
  | .running | .store => true
  | .read | .lock | .check | .unlock => false

section
variable {T C : Type}

/-- The calls a thread has in progress against its place in the mutex functions and its count of
acquisitions: every call but the innermost runs its routine and holds the lock once. -/
def Fits (pc : Owned.Pc) (holds : Nat) : List (Frame C) → Prop
  | [] => pc.outside = true ∧ holds = 0
  | f :: rest =>
    (∀ g ∈ rest, g.stage = .running) ∧
      match f.stage with
      | .read => pc.outside = true ∧ holds = rest.length
      | .lock =>
        (phase pc = .locking ∧ holds = rest.length) ∨
          (phase pc = .locked ∧ holds = rest.length + 1)
      | .check | .running | .store => pc.outside = true ∧ holds = rest.length + 1
      | .unlock =>
        (phase pc = .unlocking ∧ holds = rest.length + 1) ∨
          (phase pc = .unlocked ∧ holds = rest.length)

theorem Fits.holds_pos {pc : Owned.Pc} {holds : Nat} {l : List (Frame C)} (h : Fits pc holds l)
    {f : Frame C} (hf : f ∈ l) (hb : f.stage.busy = true) : 0 < holds := by
  cases l with
  | nil => cases hf
  | cons g rest =>
    obtain ⟨-, hg⟩ := h
    rcases mem_cons.mp hf with rfl | hm
    · cases hst : f.stage <;> rw [hst] at hb hg <;> cases hb <;> omega
    · have hpos := length_pos_of_mem hm
      cases hst : g.stage <;> rw [hst] at hg <;> simp only at hg <;> omega

/-- A thread that locks the mutex again has it fewer than 2048 times, if it nests at most 2048
calls. -/
theorem Fits.holds_lt {holds : Nat} {c : Owned.Call} {l : List (Frame C)}
    (h : Fits (.relock c) holds l) (hl : l.length ≤ 2048) : holds < 2048 := by
  cases l with
  | nil => exact absurd h.1 (by simp [Owned.Pc.outside])
  | cons f rest =>
    obtain ⟨-, h⟩ := h
    rw [length_cons] at hl
    generalize hst : f.stage = q at h ⊢
    cases q with
    | read | check | running | store =>
      cases h.1
    | lock =>
      rcases h with ⟨-, hh⟩ | ⟨hp, -⟩
      · omega
      · cases c <;> cases hp
    | unlock =>
      rcases h with ⟨hp, -⟩ | ⟨hp, -⟩ <;> cases c <;> cases hp

variable {tid : T → Word} {sh : Word}

structure Inv (tid : T → Word) (sh : Word) (s : State T C) : Prop where
  flag : IsSharedFlag sh
  mutex : Owned.Inv tid mutexTypeRecursive sh s.mutex
  fits : ∀ t, Fits (s.mutex.pc t) (s.mutex.holds t) (s.stack t)
  distinct : ∀ t, ((s.stack t).map Frame.control).Nodup
  depth : ∀ t, (s.stack t).length ≤ 2048
  frames : ∀ t, ∀ f ∈ s.stack t, f.stage = .store ∨ f.stage = .unlock →
    s.completed f.control = true
  ran : ∀ t, ∀ f ∈ s.stack t, f.stage.busy = true → 0 < s.started f.control
  once : ∀ c, s.completed c = true → 0 < s.started c
  done : ∀ c, s.once c ≠ pthreadOnceInit → s.completed c = true
  le : ∀ c, s.started c ≤ 1
  busy : ∀ c, s.started c = 0 ∨ s.once c ≠ pthreadOnceInit ∨
    ∃ t, ∃ f ∈ s.stack t, f.control = c ∧ f.stage.busy = true
  returned : ∀ c, s.returned c = true → s.completed c = true

variable {c : C} {s s' : State T C} {t : T} {rest : List (Frame C)} {st : Stage} {m : Owned.State T}
  {ty : Word}

/-- A routine about to be started has not run: another call that runs it would be one of the same
thread, which holds the lock. -/
theorem Inv.fresh (hi : Inv tid sh s) (hst : s.stack t = ⟨c, .check⟩ :: rest)
    (hc : s.once c = pthreadOnceInit) :
    s.started c = 0 := by
  rcases hi.busy c with h | h | ⟨u, f, hf, hfc, hb⟩
  · exact h
  · exact absurd hc h
  · have hu := (hi.fits u).holds_pos hf hb
    have ht : 0 < s.mutex.holds t := by
      have hfit := hi.fits t
      rw [hst] at hfit
      have := hfit.2.2
      omega
    have hut := hi.mutex.word.one u t hu ht
    subst hut
    have hd := hi.distinct u
    rw [hst] at hf hd
    rcases mem_cons.mp hf with rfl | hm
    · cases hb
    · exact absurd (mem_map.2 ⟨f, hm, hfc⟩) (nodup_cons.1 hd).1

/-- The routine of `c` is in progress in one of the calls. -/
def Runs (l : List (Frame C)) (c : C) : Prop := ∃ f ∈ l, f.control = c ∧ f.stage.busy = true

theorem Runs.cons (h : Runs rest c) (f : Frame C) : Runs (f :: rest) c := by
  obtain ⟨g, hg, h⟩ := h
  exact ⟨g, mem_cons_of_mem f hg, h⟩

theorem Runs.of_cons {f : Frame C} (h : Runs (f :: rest) c)
    (hb : f.control = c → f.stage.busy = false) : Runs rest c := by
  obtain ⟨g, hg, hc, hgb⟩ := h
  rcases mem_cons.mp hg with rfl | hm
  · rw [hb hc] at hgb
    cases hgb
  · exact ⟨g, hm, hc, hgb⟩

theorem Inv.busy_at (hi : Inv tid sh s) (t : T) (c : C) :
    s.started c = 0 ∨ s.once c ≠ pthreadOnceInit ∨ Runs (s.stack t) c ∨
      ∃ u, u ≠ t ∧ Runs (s.stack u) c := by
  rcases hi.busy c with h | h | ⟨u, hu⟩
  · exact .inl h
  · exact .inr (.inl h)
  · by_cases hut : u = t
    · exact .inr (.inr (.inl (hut ▸ hu)))
    · exact .inr (.inr (.inr ⟨u, hut, hu⟩))

/-- What the invariant says of the calls of one thread. -/
structure Calls (s : State T C) (t : T) (l : List (Frame C)) : Prop where
  fits : Fits (s.mutex.pc t) (s.mutex.holds t) l
  distinct : (l.map Frame.control).Nodup
  depth : l.length ≤ 2048
  frames : ∀ f ∈ l, f.stage = .store ∨ f.stage = .unlock → s.completed f.control = true
  ran : ∀ f ∈ l, f.stage.busy = true → 0 < s.started f.control

theorem Inv.calls (hi : Inv tid sh s) {l : List (Frame C)} (hst : s.stack t = l) :
    Calls s t l := by
  subst hst
  exact ⟨hi.fits t, hi.distinct t, hi.depth t, hi.frames t, hi.ran t⟩

variable [DecidableEq T]

/-- The invariant after a change of the calls of one thread: what the change has to guarantee. -/
theorem Inv.move (hi : Inv tid sh s) (t : T) (l : List (Frame C))
    (hstack : s'.stack = update s.stack t l)
    (hmutex : Owned.Inv tid mutexTypeRecursive sh s'.mutex) (hothers : Apart s.mutex s'.mutex t)
    (hcalls : Calls s' t l) (hcomp : ∀ c, s.completed c = true → s'.completed c = true)
    (hstart : ∀ c, s.started c ≤ s'.started c)
    (honce : ∀ c, s'.completed c = true → 0 < s'.started c)
    (hdone : ∀ c, s'.once c ≠ pthreadOnceInit → s'.completed c = true) (hle : ∀ c, s'.started c ≤ 1)
    (hbusy : ∀ c, s'.started c = 0 ∨ s'.once c ≠ pthreadOnceInit ∨ Runs l c ∨
      ∃ u, u ≠ t ∧ Runs (s.stack u) c)
    (hret : ∀ c, s'.returned c = true → s'.completed c = true) : Inv tid sh s' := by
  have hself : s'.stack t = l := by rw [hstack, update_self]
  have hother : ∀ u, u ≠ t → s'.stack u = s.stack u := fun u hu => by
    rw [hstack, update_of_ne hu]
  have hall : ∀ u, Calls s' u (s'.stack u) := by
    intro u
    by_cases hu : u = t
    · subst hu
      rwa [hself]
    · have h := hi.calls (t := u) rfl
      rw [hother u hu]
      refine ⟨?_, h.distinct, h.depth, fun f hf hs => hcomp _ (h.frames f hf hs),
        fun f hf hb => Nat.lt_of_lt_of_le (h.ran f hf hb) (hstart _)⟩
      rw [(hothers u hu).1, (hothers u hu).2]
      exact h.fits
  refine ⟨hi.flag, hmutex, fun u => (hall u).fits, fun u => (hall u).distinct,
    fun u => (hall u).depth, fun u => (hall u).frames, fun u => (hall u).ran, honce, hdone, hle,
    fun c => ?_, hret⟩
  rcases hbusy c with h | h | ⟨f, hf, h⟩ | ⟨u, hu, f, hf, h⟩
  · exact .inl h
  · exact .inr (.inl h)
  · exact .inr (.inr ⟨t, f, by rwa [hself], h⟩)
  · exact .inr (.inr ⟨u, f, by rwa [hother u hu], h⟩)

/-- `Inv.move` for the innermost call of `t` going from stage to stage; its control is given only
if it stays in progress or gets marked. -/
theorem Inv.next (hi : Inv tid sh s) {st' : Stage} (hst : s.stack t = ⟨c, st⟩ :: rest)
    (hstack : s'.stack = update s.stack t (⟨c, st'⟩ :: rest))
    (hmutex : Owned.Inv tid mutexTypeRecursive sh s'.mutex) (hothers : Apart s.mutex s'.mutex t)
    (hfits : Fits (s'.mutex.pc t) (s'.mutex.holds t) (⟨c, st'⟩ :: rest))
    (hcomp : ∀ d, s.completed d = true → s'.completed d = true)
    (hframe : st' = .store ∨ st' = .unlock → s'.completed c = true)
    (hran : st'.busy = true → 0 < s'.started c) (hstart : ∀ d, s.started d ≤ s'.started d)
    (hnew : ∀ d, s'.completed d = true → s.completed d = true ∨ 0 < s'.started d)
    (hdone : ∀ d, s'.once d ≠ pthreadOnceInit → s'.completed d = true)
    (honce : ∀ d, s.once d ≠ pthreadOnceInit → s'.once d ≠ pthreadOnceInit)
    (hle : ∀ d, s'.started d ≤ 1) (hstarted : ∀ d, d ≠ c → s'.started d = s.started d)
    (hc : s'.started c = 0 ∨ s'.once c ≠ pthreadOnceInit ∨ st'.busy = true ∨
      (s'.started c = s.started c ∧ st.busy = false)) (hret : s'.returned = s.returned) :
    Inv tid sh s' := by
  have hcalls := hi.calls hst
  refine hi.move t _ hstack hmutex hothers ⟨hfits, hcalls.distinct, hcalls.depth, ?_, ?_⟩ hcomp
    hstart ?_ hdone hle ?_ fun d hr => hcomp d (hi.returned d (by rwa [hret] at hr))
  · have hrest := (forall_mem_cons.1 hcalls.frames).2
    exact forall_mem_cons.2 ⟨hframe, fun f hf hs => hcomp _ (hrest f hf hs)⟩
  · have hrest := (forall_mem_cons.1 hcalls.ran).2
    exact forall_mem_cons.2
      ⟨hran, fun f hf hb => Nat.lt_of_lt_of_le (hrest f hf hb) (hstart _)⟩
  · intro d hd
    rcases hnew d hd with h | h
    · exact Nat.lt_of_lt_of_le (hi.once d h) (hstart d)
    · exact h
  · -- a routine in progress elsewhere, or in an outer call of this thread
    have hkeep : ∀ d, s'.started d = s.started d → (d = c → st.busy = false) →
        s'.started d = 0 ∨ s'.once d ≠ pthreadOnceInit ∨ Runs (⟨c, st'⟩ :: rest) d ∨
          ∃ u, u ≠ t ∧ Runs (s.stack u) d := by
      intro d hs hb
      refine (hi.busy_at t d).imp hs.trans (Or.imp (honce d) (Or.imp_left fun h => ?_))
      rw [hst] at h
      exact (h.of_cons fun hd => hb hd.symm).cons _
    intro d
    by_cases hdc : d = c
    · subst hdc
      rcases hc with h | h | h | ⟨h, hb⟩
      · exact .inl h
      · exact .inr (.inl h)
      · exact .inr (.inr (.inl ⟨_, mem_cons_self, rfl, h⟩))
      · exact hkeep d h fun _ => hb
    · exact hkeep d (hstarted d hdc) fun h => absurd h hdc

theorem Inv.ret [DecidableEq C] (hi : Inv tid sh s) (hst : s.stack t = ⟨c, st⟩ :: rest)
    (hb : st.busy = false) (hcomp : s.completed c = true) (hout : (s.mutex.pc t).outside = true)
    (hholds : s.mutex.holds t = rest.length) : Inv tid sh (s.ret t c rest) := by
  obtain ⟨hfit, hd, hdep, hframes, hran⟩ := hi.calls hst
  rw [length_cons] at hdep
  refine hi.move t rest rfl hi.mutex (fun _ _ => ⟨rfl, rfl⟩) ⟨?_, (nodup_cons.1 hd).2,
    by omega, (forall_mem_cons.1 hframes).2, (forall_mem_cons.1 hran).2⟩ (fun _ h => h)
    (fun _ => Nat.le_refl _) hi.once hi.done hi.le ?_ ?_
  · cases rest with
    | nil => exact ⟨hout, hholds⟩
    | cons g rest' =>
      refine ⟨fun f hf => hfit.1 f (mem_cons_of_mem _ hf), ?_⟩
      rw [hfit.1 g mem_cons_self]
      exact ⟨hout, hholds⟩
  · intro d
    refine (hi.busy_at t d).imp id (Or.imp id (Or.imp_left fun h => ?_))
    rw [hst] at h
    exact h.of_cons fun _ => hb
  · intro d hr
    by_cases hdc : d = c
    · rw [hdc]
      exact hcomp
    · exact hi.returned d (by simpa [State.ret, hdc] using hr)

/-- A call of the mutex functions by a thread outside of them. -/
theorem call_spec {m' : Owned.State T} {op : Owned.Op} (hv : Owned.ValidTids tid)
    (hsh : IsSharedFlag sh) (hi : Owned.Inv tid mutexTypeRecursive sh m)
    (h : Owned.step tid m (.call t op) = some m') :
    Owned.Inv tid mutexTypeRecursive sh m' ∧ Apart m m' t ∧
      m'.pc t = .readType op ∧ m'.holds t = m.holds t := by
  refine ⟨Owned.inv_step (a := .call t op) hv (.inl rfl) hsh hi trivial h, ?_⟩
  simp only [Owned.step] at h
  split at h
  · cases h
    exact ⟨fun u hu => ⟨update_of_ne hu _ _, rfl⟩, update_self _ _ _, rfl⟩
  · cases h

/-! ## Every step keeps the invariant -/

theorem inv_mutex (hv : Owned.ValidTids tid) (hi : Inv tid sh s) {a : Owned.Act T}
    (ha : inCall a = true) (hu : usesMutex (s.stack (actor a)) = true)
    (h : Owned.step tid s.mutex a = some m) :
    Inv tid sh { s with mutex := m } := by
  have hno : Owned.NoOverflow s.mutex a := by
    cases a with
    | exec t =>
      intro hr
      have hk := hi.mutex.knows t
      have hfit := hi.fits t
      cases hp : s.mutex.pc t <;> rw [hp] at hr hk hfit <;> cases hr
      have hlt := hfit.holds_lt (hi.depth t)
      obtain ⟨k, st, hf, -, hkh, -⟩ := hi.mutex.word.ofHolder t hk.2.1
      rw [ne_eq, hf.counter_full_iff (.inl rfl) hi.flag]
      omega
    | _ => exact trivial
  obtain ⟨hothers, hadv⟩ := advances_step hv hi.flag hi.mutex ha h
  refine hi.move (actor a) (s.stack (actor a)) (by simp)
    (Owned.inv_step hv (.inl rfl) hi.flag hi.mutex hno h) hothers ⟨?_, hi.distinct _, hi.depth _,
      hi.frames _, hi.ran _⟩ (fun _ h => h) (fun _ => Nat.le_refl _) hi.once hi.done hi.le
    (hi.busy_at _) hi.returned
  · have hfit := hi.fits (actor a)
    cases hst : s.stack (actor a) with
    | nil =>
      rw [hst] at hu
      cases hu
    | cons f rest =>
      obtain ⟨c, st⟩ := f
      rw [hst] at hfit hu
      refine ⟨hfit.1, ?_⟩
      obtain ⟨-, hfit⟩ := hfit
      cases st with
      | read | check | running | store => cases hu
      | lock =>
        rcases hfit with ⟨hp, hh⟩ | ⟨hp, hh⟩
        · rcases hadv.locking hp with ⟨hp', hh'⟩ | ⟨hp', hh'⟩
          · exact .inl ⟨hp', hh'.trans hh⟩
          · exact .inr ⟨hp', by dsimp only at hh' ⊢; omega⟩
        · obtain ⟨hp', hh'⟩ := hadv.locked hp
          exact .inr ⟨hp', hh'.trans hh⟩
      | unlock =>
        rcases hfit with ⟨hp, hh⟩ | ⟨hp, hh⟩
        · rcases hadv.unlocking hp (by omega) with ⟨hp', hh'⟩ | ⟨hp', hh'⟩
          · exact .inl ⟨hp', hh'.trans hh⟩
          · exact .inr ⟨hp', by dsimp only at hh' ⊢; omega⟩
        · obtain ⟨hp', hh'⟩ := hadv.unlocked hp
          exact .inr ⟨hp', hh'.trans hh⟩

/-- The innermost call of `t` goes on to a stage in which its routine is not in progress, as
before; only the mutex may have changed. -/
theorem Inv.advance (hi : Inv tid sh s) {st' : Stage} (hst : s.stack t = ⟨c, st⟩ :: rest)
    (hmutex : Owned.Inv tid mutexTypeRecursive sh m)
    (hothers : Apart s.mutex m t)
    (hfits : Fits (m.pc t) (m.holds t) (⟨c, st'⟩ :: rest)) (hb : st.busy = false)
    (hb' : st'.busy = false) (hframe : st' = .store ∨ st' = .unlock → s.completed c = true) :
    Inv tid sh { s.setStack t (⟨c, st'⟩ :: rest) with mutex := m } := by
  refine hi.next hst rfl hmutex hothers hfits (fun _ h => h) hframe ?_ (fun _ => Nat.le_refl _)
    (fun _ h => .inl h) hi.done (fun _ h => h) hi.le (fun _ _ => rfl)
    (.inr (.inr (.inr ⟨rfl, hb⟩))) rfl
  intro h
  rw [hb'] at h
  cases h

variable [DecidableEq C]

theorem inv_start (hi : Inv tid sh s) (hst : s.stack t = ⟨c, .check⟩ :: rest)
    (hc : s.once c = pthreadOnceInit) :
    Inv tid sh { s.setStack t (⟨c, .running⟩ :: rest) with
      started := update s.started c (s.started c + 1) } := by
  have h0 := hi.fresh hst hc
  have hfit := hi.fits t
  rw [hst] at hfit
  refine hi.next hst rfl hi.mutex (fun _ _ => ⟨rfl, rfl⟩) hfit (fun _ h => h)
    (by simp) (fun _ => by simp) ?_ (fun _ h => .inl h) hi.done (fun _ h => h) ?_
    (fun d hd => update_of_ne hd _ _) (.inr (.inr (.inl rfl))) rfl
  · intro d
    by_cases hd : d = c
    · subst hd
      simp
    · simp [hd]
  · intro d
    by_cases hd : d = c
    · subst hd
      simp [h0]
    · simpa [hd] using hi.le d

/-- The control of a routine that has returned is marked, and the lock is given back. -/
theorem inv_store (hi : Inv tid sh s) (hst : s.stack t = ⟨c, .store⟩ :: rest)
    (hmutex : Owned.Inv tid mutexTypeRecursive sh m)
    (hothers : Apart s.mutex m t)
    (hfits : Fits (m.pc t) (m.holds t) (⟨c, .unlock⟩ :: rest)) :
    Inv tid sh { s.setStack t (⟨c, .unlock⟩ :: rest) with
      mutex := m
      once := update s.once c (~~~pthreadOnceInit) } := by
  have hcomp : s.completed c = true :=
    hi.frames t _ (by rw [hst]; exact mem_cons_self) (.inl rfl)
  have hmark : update s.once c (~~~pthreadOnceInit) c ≠ pthreadOnceInit := by
    rw [update_self]
    decide
  refine hi.next hst rfl hmutex hothers hfits (fun _ h => h) (fun _ => hcomp)
    (fun h => by cases h) (fun _ => Nat.le_refl _) (fun _ h => .inl h) ?_ ?_ hi.le
    (fun _ _ => rfl) (.inr (.inl hmark)) rfl
  · intro d hd
    by_cases hdc : d = c
    · rw [hdc]
      exact hcomp
    · exact hi.done d (by simpa [hdc] using hd)
  · intro d hd
    by_cases hdc : d = c
    · rw [hdc]
      exact hmark
    · simpa [hdc] using hd

theorem inv_exec (hv : Owned.ValidTids tid) (hi : Inv tid sh s) (t : T)
    (h : exec tid s t = some s') : Inv tid sh s' := by
  have hfits : ∀ l, s.stack t = l → Fits (s.mutex.pc t) (s.mutex.holds t) l := by
    rintro l rfl
    exact hi.fits t
  revert h
  fun_cases exec tid s t with
  | case2 c rest hst =>
    intro h
    obtain ⟨m, hm, rfl⟩ := Option.map_eq_some_iff.1 h
    obtain ⟨hrest, hfit⟩ := hfits _ hst
    obtain ⟨hmi, hothers, hpc, hh⟩ := call_spec hv hi.flag hi.mutex hm
    have hfit' : Fits (m.pc t) (m.holds t) (⟨c, .lock⟩ :: rest) :=
      ⟨hrest, .inl ⟨by rw [hpc]; rfl, hh.trans hfit.2⟩⟩
    exact hi.advance hst hmi hothers hfit' rfl rfl (by simp)
  | case3 c rest hst hne =>
    rintro ⟨⟩
    obtain ⟨-, hfit⟩ := hfits _ hst
    exact hi.ret hst rfl (hi.done c hne) hfit.1 hfit.2
  | case4 c rest hst r hp =>
    rintro ⟨⟩
    obtain ⟨hrest, hfit⟩ := hfits _ hst
    have hout : (s.mutex.pc t).outside = true := by rw [hp]; rfl
    have hh : s.mutex.holds t = rest.length + 1 := by
      rcases hfit with ⟨hph, -⟩ | ⟨-, hh⟩
      · rw [hp] at hph
        cases r <;> cases hph
      · exact hh
    exact hi.advance hst hi.mutex (fun _ _ => ⟨rfl, rfl⟩) ⟨hrest, hout, hh⟩ rfl rfl (by simp)
  | case6 c rest hst hc =>
    rintro ⟨⟩
    exact inv_start hi hst hc
  | case7 c rest hst hne =>
    intro h
    obtain ⟨m, hm, rfl⟩ := Option.map_eq_some_iff.1 h
    obtain ⟨hrest, hfit⟩ := hfits _ hst
    obtain ⟨hmi, hothers, hpc, hh⟩ := call_spec hv hi.flag hi.mutex hm
    have hfit' : Fits (m.pc t) (m.holds t) (⟨c, .unlock⟩ :: rest) :=
      ⟨hrest, .inl ⟨by rw [hpc]; rfl, hh.trans hfit.2⟩⟩
    exact hi.advance hst hmi hothers hfit' rfl rfl fun _ => hi.done c hne
  | case9 c rest hst =>
    simp only [State.enter, Option.map_map, Option.map_eq_some_iff]
    rintro ⟨m, hm, rfl⟩
    obtain ⟨hrest, hfit⟩ := hfits _ hst
    obtain ⟨hmi, hothers, hpc, hh⟩ := call_spec hv hi.flag hi.mutex hm
    exact inv_store hi hst hmi hothers ⟨hrest, .inl ⟨by rw [hpc]; rfl, hh.trans hfit.2⟩⟩
  | case10 c rest hst r hp =>
    rintro ⟨⟩
    have hh : s.mutex.holds t = rest.length := by
      rcases (hfits _ hst).2 with ⟨hph, -⟩ | ⟨-, hh⟩
      · rw [hp] at hph
        cases r <;> cases hph
      · exact hh
    exact hi.ret hst rfl (hi.frames t _ (by rw [hst]; exact mem_cons_self) (.inr rfl))
      (by rw [hp]; rfl) hh
  | _ => rintro ⟨⟩

omit [DecidableEq C] in
theorem inv_call (hi : Inv tid sh s) (hg : (s.stack t).length < 2048)
    (hc : inUserCode (s.stack t) = true ∧ c ∉ (s.stack t).map Frame.control) :
    Inv tid sh (s.setStack t (⟨c, .read⟩ :: s.stack t)) := by
  have hfit := hi.fits t
  refine hi.move t _ rfl hi.mutex (fun _ _ => ⟨rfl, rfl⟩) ⟨?_,
    nodup_cons.2 ⟨hc.2, hi.distinct t⟩, by rw [length_cons]; omega,
    forall_mem_cons.2 ⟨by simp, hi.frames t⟩,
    forall_mem_cons.2 ⟨by simp [Stage.busy], hi.ran t⟩⟩ (fun _ h => h)
    (fun _ => Nat.le_refl _) hi.once hi.done hi.le ?_ hi.returned
  · -- the caller runs no call, or an init routine in its innermost one
    cases hst : s.stack t with
    | nil =>
      rw [hst] at hfit
      exact ⟨by simp, hfit.1, hfit.2⟩
    | cons f rest =>
      obtain ⟨d, st⟩ := f
      rw [hst] at hfit hc
      cases st with
      | read | lock | check | store | unlock => cases hc.1
      | running =>
        exact ⟨forall_mem_cons.2 ⟨rfl, hfit.1⟩, hfit.2.1, hfit.2.2⟩
  · intro d
    exact (hi.busy_at t d).imp id (Or.imp id (Or.imp_left fun h => h.cons _))

theorem inv_finish (hi : Inv tid sh s) (hst : s.stack t = ⟨c, .running⟩ :: rest) :
    Inv tid sh { s.setStack t (⟨c, .store⟩ :: rest) with
      completed := update s.completed c true } := by
  have hfit := hi.fits t
  rw [hst] at hfit
  have hmono : ∀ d, s.completed d = true → update s.completed c true d = true := by
    intro d hd
    by_cases hdc : d = c
    · subst hdc
      simp
    · simpa [hdc] using hd
  have hstarted := hi.ran t _ (by rw [hst]; exact mem_cons_self) rfl
  refine hi.next hst rfl hi.mutex (fun _ _ => ⟨rfl, rfl⟩) hfit hmono (fun _ => by simp)
    (fun _ => hstarted) (fun _ => Nat.le_refl _) ?_ (fun d hd => hmono d (hi.done d hd))
    (fun _ h => h) hi.le (fun _ _ => rfl) (.inr (.inr (.inl rfl))) rfl
  intro d hd
  by_cases hdc : d = c
  · subst hdc
    exact .inr hstarted
  · exact .inl (by simpa [hdc] using hd)

theorem inv_step {a : Act T C} (hv : Owned.ValidTids tid) (hi : Inv tid sh s) (hg : Shallow s a)
    (h : step tid s a = some s') : Inv tid sh s' := by
  revert h
  fun_cases step tid s a with
  | case1 t c hc =>
    rintro ⟨⟩
    exact inv_call hi hg hc
  | case3 t c rest hst =>
    rintro ⟨⟩
    exact inv_finish hi hst
  | case5 t => exact inv_exec hv hi t
  | case6 a hc =>
    intro h
    obtain ⟨m, hm, rfl⟩ := Option.map_eq_some_iff.1 h
    exact inv_mutex hv hi hc.1 hc.2 hm
  | _ => rintro ⟨⟩

omit [DecidableEq T] [DecidableEq C] in
theorem inv_init (h : init s) : ∃ sh, Inv tid sh s := by
  obtain ⟨hm, ho, hst, hs, hc, hr⟩ := h
  obtain ⟨attr, hattr⟩ := hm.1
  refine ⟨_, (pthreadMutexInit_eq attr s.mutex.value hattr).1, Owned.inv_init hm, ?_, ?_, ?_, ?_,
    ?_, ?_, fun c h => absurd (ho c) h, fun c => by rw [hs c]; omega, fun c => .inl (hs c), ?_⟩
  · intro t
    rw [hst t, (hm.2.2.2 t).1, (hm.2.2.2 t).2]
    exact ⟨rfl, rfl⟩
  · intro t
    rw [hst t]
    exact nodup_nil
  · intro t
    rw [hst t]
    exact Nat.zero_le _
  · intro t f hf
    rw [hst t] at hf
    cases hf
  · intro t f hf
    rw [hst t] at hf
    cases hf
  · intro c h
    rw [hc c] at h
    cases h
  · intro c h
    rw [hr c] at h
    cases h

/-! ## Top theorem -/

/-- **Exactly once.**  In every run in which no thread nests more than 2048 calls, the routine of a
control has been started at most once, and if a call on the control has returned, it has been
started once and has completed. -/
theorem once_exactly_once {s : State T C} (hv : Owned.ValidTids tid)
    (h : (machine tid).ReachableIf Shallow s) (c : C) :
    s.started c ≤ 1 ∧ (s.returned c = true → s.started c = 1 ∧ s.completed c = true) := by
  obtain ⟨sh, hi⟩ : ∃ sh, Inv tid sh s :=
    Machine.ReachableIf.invariant (M := machine tid)
      (fun _ h0 => inv_init h0) (fun _ _ _ ⟨sh, hi⟩ hg hs => ⟨sh, inv_step hv hi hg hs⟩) h
  have hle := hi.le c
  refine ⟨hle, fun hr => ?_⟩
  have hcomp := hi.returned c hr
  have hpos := hi.once c hcomp
  exact ⟨by omega, hcomp⟩

/-- **One routine at a time.**  `once_lock` is one lock for all controls: routines in progress are
routines of one thread, each nested in another. -/
theorem routines_of_one_thread {s : State T C} (hv : Owned.ValidTids tid)
    (h : (machine tid).ReachableIf Shallow s) {t u : T} {c d : C} (ht : Runs (s.stack t) c)
    (hu : Runs (s.stack u) d) : t = u := by
  obtain ⟨sh, hi⟩ : ∃ sh, Inv tid sh s :=
    Machine.ReachableIf.invariant (M := machine tid)
      (fun _ h0 => inv_init h0) (fun _ _ _ ⟨sh, hi⟩ hg hs => ⟨sh, inv_step hv hi hg hs⟩) h
  obtain ⟨f, hf, -, hfb⟩ := ht
  obtain ⟨g, hg, -, hgb⟩ := hu
  exact hi.mutex.word.one t u ((hi.fits t).holds_pos hf hfb) ((hi.fits u).holds_pos hg hgb)

/-! ## Too many nested calls -/

/-- A call of `t` on `c` that meets nobody, up to the start of the routine. -/
def enterRun (t : T) (c : C) : List (Act T C) :=
  .call t c :: .exec t :: (List.replicate 4 (.mutex (.exec t)) ++ [.exec t, .exec t])

/-- The routine of `t` returns, and its call returns without meeting anybody. -/
def leaveRun (t : T) : List (Act T C) :=
  .finish t :: .exec t :: (List.replicate 4 (.mutex (.exec t)) ++ [.exec t])

theorem run_mutex (hu : usesMutex (s.stack t) = true) {n : Nat}
    (h : (Owned.machine tid ty).run s.mutex (List.replicate n (.exec t)) = some m) :
    (machine tid).run s (List.replicate n (.mutex (.exec t))) = some { s with mutex := m } := by
  induction n generalizing s with
  | zero =>
    cases h
    rfl
  | succ n ih =>
    simp only [replicate_succ, Machine.run, bind_eq_some_iff] at h ⊢
    obtain ⟨m₁, h₁, h⟩ := h
    have h₁' : Owned.step tid s.mutex (.exec t) = some m₁ := h₁
    have hs : (machine tid).step s (.mutex (.exec t)) = some { s with mutex := m₁ } := by
      simp [machine, step, inCall, actor, hu, h₁']
    exact ⟨_, hs, ih hu h⟩

theorem run_enter {r : Owned.Ret} (huser : inUserCode (s.stack t) = true)
    (hc : c ∉ (s.stack t).map Frame.control) (honce : s.once c = pthreadOnceInit)
    (hm : (Owned.machine tid ty).run s.mutex (Owned.lockCall t) = some m)
    (hpc : m.pc t = .returned (.acquire .lock) r) :
    (machine tid).run s (enterRun t c) =
      some { s.setStack t (⟨c, .running⟩ :: s.stack t) with
        mutex := m
        started := update s.started c (s.started c + 1) } := by
  obtain ⟨m₁, hm₁, hm⟩ : ∃ m₁, Owned.step tid s.mutex (.call t (.acquire .lock)) = some m₁ ∧
      (Owned.machine tid ty).run m₁ (List.replicate 4 (.exec t)) = some m :=
    bind_eq_some_iff.1 hm
  have h₁ : (machine tid).step s (.call t c) = some (s.setStack t (⟨c, .read⟩ :: s.stack t)) := by
    change step tid s (.call t c) = _
    rw [step, if_pos ⟨huser, hc⟩]
  have h₂ : (machine tid).step (s.setStack t (⟨c, .read⟩ :: s.stack t)) (.exec t) =
      some { s.setStack t (⟨c, .lock⟩ :: s.stack t) with mutex := m₁ } := by
    simp [machine, step, exec, State.setStack, State.enter, honce, hm₁]
  have h₃ := run_mutex (s := { s.setStack t (⟨c, .lock⟩ :: s.stack t) with mutex := m₁ })
    (by simp [State.setStack, usesMutex]) hm
  simp only [enterRun, Machine.run, h₁, h₂, bind_some, Machine.run_append, h₃]
  simp [machine, step, exec, State.setStack, hpc, honce]

theorem run_leave {r : Owned.Ret} (hst : s.stack t = ⟨c, .running⟩ :: rest)
    (hm : (Owned.machine tid ty).run s.mutex (Owned.unlockCall t) = some m)
    (hpc : m.pc t = .returned .unlock r) :
    (machine tid).run s (leaveRun t) =
      some { s.setStack t rest with
        mutex := m
        once := update s.once c (~~~pthreadOnceInit)
        completed := update s.completed c true
        returned := update s.returned c true } := by
  obtain ⟨m₁, hm₁, hm⟩ : ∃ m₁, Owned.step tid s.mutex (.call t .unlock) = some m₁ ∧
      (Owned.machine tid ty).run m₁ (List.replicate 4 (.exec t)) = some m :=
    bind_eq_some_iff.1 hm
  have h₁ : (machine tid).step s (.finish t) =
      some { s.setStack t (⟨c, .store⟩ :: rest) with
        completed := update s.completed c true } := by
    simp [machine, step, hst]
  have h₂ : (machine tid).step { s.setStack t (⟨c, .store⟩ :: rest) with
        completed := update s.completed c true } (.exec t) =
      some { s.setStack t (⟨c, .unlock⟩ :: rest) with
        mutex := m₁
        once := update s.once c (~~~pthreadOnceInit)
        completed := update s.completed c true } := by
    simp [machine, step, exec, State.setStack, State.enter, hm₁]
  have h₃ := run_mutex (s := { s.setStack t (⟨c, .unlock⟩ :: rest) with
      mutex := m₁
      once := update s.once c (~~~pthreadOnceInit)
      completed := update s.completed c true }) (by simp [State.setStack, usesMutex]) hm
  simp only [leaveRun, Machine.run, h₁, h₂, bind_some, Machine.run_append, h₃]
  simp [machine, step, exec, State.setStack, State.ret, hpc]

end

/-- Thread `false` runs the routines of the controls `n`, .., 1, 0, one in the other, and `true`
has made no call. -/
structure Nested (n : Nat) (s : State Bool Nat) : Prop where
  mutex : Owned.Nested n s.mutex
  stack : s.stack false = ((List.range (n + 1)).map fun c => ⟨c, .running⟩).reverse
  other : s.stack true = []
  unmarked : ∀ c, s.once c = pthreadOnceInit
  first : s.started 0 = 1
  running : s.completed 0 = false

theorem Nested.enter {n : Nat} {s : State Bool Nat} (h : Nested n s) :
    ∃ s', (machine Owned.twoTids).run s (enterRun false (n + 1)) = some s' ∧ Nested (n + 1) s' := by
  have hty : IsOwnedType mutexTypeRecursive := .inl rfl
  have hsh : IsSharedFlag 0 := .inl rfl
  obtain ⟨m, hm, hmn⟩ := h.mutex.lockCall
  have hpc : m.pc false = .returned (.acquire .lock) .ok := by
    have hrun := @Owned.run_lockCall _ Owned.twoTids mutexTypeRecursive s.mutex false _
      h.mutex.outside (h.mutex.word.type hty hsh) (BitVec.eq_of_toNat_eq (h.mutex.word.owner hty hsh))
    rw [hm] at hrun
    cases hrun
    simp [Owned.State.put, Owned.relockSection]
  have huser : inUserCode (s.stack false) = true := by
    rw [h.stack, range_succ]
    simp [inUserCode]
  have hc : n + 1 ∉ (s.stack false).map Frame.control := by
    rw [h.stack]
    simp
  refine ⟨_, run_enter huser hc (h.unmarked _) hm hpc, hmn, ?_, ?_, h.unmarked, ?_, h.running⟩
  · simp [State.setStack, h.stack, range_succ]
  · simpa [State.setStack] using h.other
  · simpa using h.first

theorem Nested.enters {n : Nat} {s : State Bool Nat} (h : Nested n s) (k : Nat) :
    ∃ as s', (machine Owned.twoTids).run s as = some s' ∧ Nested (n + k) s' := by
  induction k with
  | zero => exact ⟨[], s, rfl, h⟩
  | succ k ih =>
    obtain ⟨as, s₁, hr₁, h₁⟩ := ih
    obtain ⟨s₂, hr₂, h₂⟩ := h₁.enter
    refine ⟨as ++ enterRun false (n + k + 1), s₂, ?_, h₂⟩
    rw [Machine.run_append, hr₁]
    exact hr₂

/-- When the counter of the lock has wrapped to 0, the innermost call of `false` frees the lock,
and `true` starts the routine of control 0 again. -/
theorem Nested.wrapped {n : Nat} {s : State Bool Nat} (h : Nested n s) (hn : n % 2048 = 0)
    (hpos : 0 < n) :
    ∃ s', (machine Owned.twoTids).run s (leaveRun false ++ enterRun true 0) = some s' ∧
      s'.started 0 = 2 ∧ s'.completed 0 = false := by
  have hw : s.mutex.value = 0x14001 := by
    apply BitVec.eq_of_toNat_eq
    rw [h.mutex.word.1, hn]
    rfl
  have hunlock := @Owned.run_unlockCall _ Owned.twoTids mutexTypeRecursive s.mutex false _
    h.mutex.outside (by rw [hw]; decide) (by rw [hw]; decide) (by rw [hw]; decide)
    (by rw [hw]; decide)
  have hst : s.stack false =
      ⟨n, .running⟩ :: ((List.range n).map fun c => ⟨c, .running⟩).reverse := by
    rw [h.stack, range_succ]
    simp
  have hleave := run_leave (r := .ok) hst hunlock (by simp [Owned.State.put])
  rw [Machine.run_append, hleave]
  have hlock := @Owned.run_lockCall_released _ Owned.twoTids mutexTypeRecursive
    { s.mutex.put false ⟨s.mutex.value &&& mutexSharedMask ||| mutexTypeRecursive,
        s.mutex.holds false - 1, .returned .unlock .ok⟩ with
      owned := update s.mutex.owned false (decide (0 < s.mutex.holds false)) } true _
    (by simp [Owned.State.put, h.mutex.other, Owned.Pc.outside])
    (by simp only [Owned.State.put]; rw [hw]; decide) (by decide)
  refine ⟨_, run_enter (r := .ok) ?_ ?_ ?_ hlock (by simp [Owned.State.put]), ?_, ?_⟩
  · simp [State.setStack, h.other, inUserCode]
  · simp [State.setStack, h.other]
  · have hne : (0 : Nat) ≠ n := by omega
    simp [hne, h.unmarked]
  · simp [State.setStack, h.first]
  · have hne : (0 : Nat) ≠ n := by omega
    simp [State.setStack, hne, h.running]

/-- A process before its first call of `pthread_once`. -/
def fresh : State Bool Nat :=
  ⟨Owned.fresh mutexTypeRecursive, fun _ => pthreadOnceInit, fun _ => [], fun _ => 0,
    fun _ => false, fun _ => false⟩

theorem fresh_init : init fresh :=
  ⟨Owned.fresh_init (.inl rfl), fun _ => rfl, fun _ => rfl, fun _ => rfl, fun _ => rfl,
    fun _ => rfl⟩

theorem nested_first :
    ∃ s, (machine Owned.twoTids).run fresh (enterRun false 0) = some s ∧ Nested 0 s := by
  refine ⟨_, rfl, ⟨?_, rfl, rfl, rfl, rfl⟩, rfl, rfl, fun _ => rfl, rfl, rfl⟩
  exact ⟨rfl, by decide, by decide, by decide⟩

/-- 2049 calls nested in one thread wrap the counter of the lock: the innermost one frees it, and
another thread starts a routine that is still in progress. -/
theorem nested_runs_twice :
    ∃ s : State Bool Nat, (machine Owned.twoTids).Reachable s ∧ s.started 0 = 2 ∧
      s.completed 0 = false := by
  obtain ⟨s₀, hr₀, h₀⟩ := nested_first
  obtain ⟨as, s₁, hr₁, h₁⟩ := h₀.enters 2048
  obtain ⟨s₂, hr₂, hs, hc⟩ := h₁.wrapped rfl (by omega)
  have hreach : (machine Owned.twoTids).Reachable s₀ := .run (.init fresh_init) _ hr₀
  exact ⟨s₂, (hreach.run _ hr₁).run _ hr₂, hs, hc⟩

theorem once_exactly_once_nested :
    ∃ s : State Bool Nat, (machine Owned.twoTids).ReachableIf Shallow s ∧ s.returned 1 = true ∧
      s.started 1 ≤ 1 ∧ (s.returned 1 = true → s.started 1 = 1 ∧ s.completed 1 = true) := by
  obtain ⟨s, hs, hr⟩ : ∃ s, (machine Owned.twoTids).runIf Shallow fresh
      (enterRun false 0 ++ enterRun false 1 ++ leaveRun false) = some s ∧ s.returned 1 = true :=
    ⟨_, rfl, rfl⟩
  have hreach : (machine Owned.twoTids).ReachableIf Shallow s := .runIf (.init fresh_init) _ hs
  exact ⟨s, hreach, hr, once_exactly_once Owned.twoTids_valid hreach 1⟩

theorem routines_of_one_thread_nested : ∃ s : State Bool Nat,
    (machine Owned.twoTids).ReachableIf Shallow s ∧ Runs (s.stack false) 0 ∧
      ∀ u c, Runs (s.stack u) c → false = u := by
  obtain ⟨s, hs, hr⟩ : ∃ s, (machine Owned.twoTids).runIf Shallow fresh
      (enterRun false 0 ++ enterRun false 1) = some s ∧ Runs (s.stack false) 0 :=
    ⟨_, rfl, ⟨0, .running⟩, .tail _ (.head _), rfl, rfl⟩
  have hreach : (machine Owned.twoTids).ReachableIf Shallow s := .runIf (.init fresh_init) _ hs
  exact ⟨s, hreach, hr, fun u c => routines_of_one_thread Owned.twoTids_valid hreach hr⟩

end Pthread.Once
