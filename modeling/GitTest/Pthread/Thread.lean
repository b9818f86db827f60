import GitTest.Pthread.Cond

/-!
# Threads: creation, exit, join, detach (libc/bionic/pthread.c)

`pthread_create`, `pthread_exit`, `pthread_join` and `pthread_detach` on the descriptors of
`gThreadList`, with the walk of `pthread_key_delete` over that list, run by the threads of any
type `T`.  `join_count` is the number of joiners, or -1 for a thread that has exited and waits to
be joined; `join_cond` is the condition variable the exiting thread broadcasts.

A descriptor is named by its thread.  A step that would look at memory that is not allocated, or
take the last thread (the main thread) out of the list, which dereferences `NULL`, has no
successor.  A section under `gThreadListLock` is one step unless other threads can tell its parts
apart; then `lock` is its owner.

Ghosts: `exited u` is the value `u` passed to `pthread_exit`, from the end of its locked section
on; `freed u` says that the descriptor of `u` has been given back.

    step s (exec t) = some s' → Effect s t s'  (exec_cases)
-/

namespace Pthread.Thread

open Function Futex Machines Option

/-! ## Algorithm -/

/-- The fields of `pthread_internal_t`; `tls` says that `thread->tls` is set. -/
structure Desc where
  intern : Bool
  detached : Bool
  joinCond : Word
  joinCount : Int
  returnValue : Word
  tls : Bool
  deriving DecidableEq, Repr

/-- A descriptor after `_pthread_internal_alloc` and the stores of `_init_thread`; nobody else has
it before `_pthread_internal_add`. -/
def initThread (detached : Bool) : Desc :=
  { intern := true, detached, joinCond := Cond.pthreadCondInit false, joinCount := 0,
    returnValue := 0, tls := false }

/-- The static descriptor of the main thread after `__libc_init_common`. -/
def mainThread : Desc := { initThread false with intern := false, tls := true }

/-- The value update of `pthread_cond_broadcast(&thread->join_cond)`. -/
def Desc.broadcast (e : Desc) : Desc :=
  { e with joinCond := Cond.pulsed e.joinCond (e.joinCond &&& ~~~Cond.condCounterMask) }

inductive Errno
  | esrch
  | einval
  deriving DecidableEq, Repr

inductive Outcome (T : Type)
  | created (u : T)
  | joined (u : T) (value : Word)
  | joinFailed (e : Errno)
  | detached
  | detachFailed (e : Errno)
  | keyDeleted
  deriving DecidableEq, Repr

inductive Pc (T : Type)
  | unborn
  /-- `pthread_mutex_lock(start_mutex)`, held by the creating thread -/
  | starting (creator : T)
  /-- `__init_tls( tls, thrInfo )` -/
  | initTls
  /-- Outside the functions; cleanup handlers and TLS destructors run here too. -/
  | idle
  | returned (r : Outcome T)
  /-- `_pthread_internal_add(thread)` -/
  | createAdd (u : T)
  /-- `pthread_mutex_unlock(start_mutex)` -/
  | createStart (u : T)
  /-- `if (thread->attr.flags & PTHREAD_ATTR_FLAG_DETACHED)` -/
  | exitFlags (v : Word)
  /-- `_pthread_internal_remove(thread)` -/
  | exitRemove (v : Word)
  /-- `_pthread_internal_free(thread)` -/
  | exitFree
  /-- `thread->return_value = retval` and the test of `join_count` -/
  | exitLock (v : Word)
  /-- The futex wake of the broadcast, and the unlock. -/
  | exitWake (v : Word)
  | dead
  /-- The first section of `pthread_join`. -/
  | join (u : T)
  /-- The futex wait of `pthread_cond_wait`, which has released the lock. -/
  | joinWait (u : T) (old : Word)
  /-- In the kernel: asleep while it has a queue entry, about to return when it has none. -/
  | joinBlocked (u : T)
  /-- The lock again, and the second section of `pthread_join`. -/
  | joinRelock (u : T)
  | detach (u : T)
  /-- `pthread_mutex_lock(&gThreadListLock)` of `pthread_key_delete` -/
  | deleteLock
  /-- The loop `for (thr = gThreadList; thr != NULL; ..)`, the rest of the list to go. -/
  | deleteWalk (rest : List T)
  deriving DecidableEq, Repr

structure State (T : Type) where
  lock : Option T
  list : List T
  desc : T → Option Desc
  queue : T → Queue T
  pc : T → Pc T
  exited : T → Option Word
  freed : T → Bool

inductive Act (T : Type)
  | create (t u : T) (detached : Bool)
  /-- `t` gets to the end of the handlers and destructors of its `pthread_exit`. -/
  | exit (t : T) (v : Word)
  | join (t u : T)
  | detach (t u : T)
  | keyDelete (t : T)
  | exec (t : T)
  /-- The futex wait of `t` ends without a wake. -/
  | leave (t : T)

def Pc.outside {T : Type} : Pc T → Bool
  | .idle | .returned _ => true
  | .unborn | .starting _ | .initTls | .createAdd _ | .createStart _ | .exitFlags _ | .exitRemove _
  | .exitFree | .exitLock _ | .exitWake _ | .dead | .join _ | .joinWait _ _ | .joinBlocked _
  | .joinRelock _ | .detach _ | .deleteLock | .deleteWalk _ => false

section
variable {T : Type} [DecidableEq T]

def State.goto (s : State T) (t : T) (p : Pc T) : State T :=
  { s with pc := Function.update s.pc t p }

theorem goto_pc_self (s : State T) (t : T) (p : Pc T) : (s.goto t p).pc t = p :=
  update_self ..

variable {t u : T} {s s' : State T}

theorem goto_pc_of_ne (s : State T) {x : T} (p : Pc T) (h : x ≠ t) : (s.goto t p).pc x = s.pc x :=
  update_of_ne h _ _

def State.setDesc (s : State T) (u : T) (e : Desc) : State T :=
  { s with desc := Function.update s.desc u (some e) }

/-- `_pthread_internal_remove_locked`, on a thread of the list that is not its last. -/
def State.removeLocked (s : State T) (u : T) : Option (State T) :=
  if u ∈ s.list ∧ s.list.getLast? ≠ some u then some { s with list := s.list.erase u } else none

def State.free (s : State T) (u : T) (e : Desc) : State T :=
  if e.intern then
    { s with desc := Function.update s.desc u none, freed := Function.update s.freed u true }
  else s

def State.joined (s : State T) (t u : T) (e : Desc) (count : Int) : Option (State T) :=
  if count ≤ 0 then
    (s.removeLocked u).map fun s' => (s'.free u e).goto t (.returned (.joined u e.returnValue))
  else some (s.goto t (.returned (.joined u e.returnValue)))

/-- The first section of `pthread_join`, up to the unlock in `pthread_cond_wait`. -/
def State.joinSection (s : State T) (t u : T) : Option (State T) :=
  if u ∈ s.list then
    match s.desc u with
    | none => none
    | some e =>
      if e.detached then some (s.goto t (.returned (.joinFailed .einval)))
      else if 0 ≤ e.joinCount then
        some ((s.setDesc u { e with joinCount := e.joinCount + 1 }).goto t (.joinWait u e.joinCond))
      else s.joined t u e e.joinCount
  else some (s.goto t (.returned (.joinFailed .esrch)))

def State.detachSection (s : State T) (t u : T) : Option (State T) :=
  if u ∈ s.list then
    match s.desc u with
    | none => none
    | some e =>
      if e.detached then some (s.goto t (.returned (.detachFailed .einval)))
      else some ((s.setDesc u { e with detached := true }).goto t (.returned .detached))
  else some (s.goto t (.returned (.detachFailed .esrch)))

/-- The locked section of `pthread_exit`, up to the futex wake of a broadcast. -/
def State.exitSection (s : State T) (t : T) (v : Word) (e : Desc) : State T :=
  if 0 < e.joinCount then
    { s.setDesc t { e with returnValue := v }.broadcast with lock := some t }.goto t (.exitWake v)
  else
    { s.setDesc t { e with returnValue := v, joinCount := -1 } with
      exited := Function.update s.exited t (some v) }.goto t .dead

/-- `pthread_key_delete` skips the threads that are dead or have no TLS area. -/
def Desc.skipped (e : Desc) : Bool := decide (e.joinCount < 0) || !e.tls

def exec (s : State T) (t : T) : Option (State T) :=
  match s.pc t with
  | .initTls => (s.desc t).map fun e => (s.setDesc t { e with tls := true }).goto t .idle
  | .createAdd u =>
    if s.lock = none then some ({ s with list := u :: s.list }.goto t (.createStart u)) else none
  | .createStart u => some ((s.goto u .initTls).goto t (.returned (.created u)))
  | .exitFlags v =>
    (s.desc t).map fun e => s.goto t (if e.detached then .exitRemove v else .exitLock v)
  | .exitRemove v =>
    if s.lock = none then
      (s.removeLocked t).map fun s' =>
        { s' with exited := Function.update s.exited t (some v) }.goto t .exitFree
    else none
  | .exitFree => (s.desc t).map fun e => (s.free t e).goto t .dead
  | .exitLock v =>
    if s.lock = none then (s.desc t).map fun e => s.exitSection t v e else none
  | .exitWake v =>
    (s.desc t).map fun e =>
      { s with
        queue := Function.update s.queue t (wakeAll (s.queue t) (Cond.condIsShared e.joinCond))
        lock := none
        exited := Function.update s.exited t (some v) }.goto t .dead
  | .join u => if s.lock = none then s.joinSection t u else none
  | .joinWait u old =>
    (s.desc u).map fun e =>
      if e.joinCond = old then
        { s with
          queue := Function.update s.queue u
            (sleep (s.queue u) t (Cond.condIsShared e.joinCond)) }.goto t (.joinBlocked u)
      else s.goto t (.joinRelock u)
  | .joinBlocked u => if asleep (s.queue u) t then none else some (s.goto t (.joinRelock u))
  | .joinRelock u =>
    if s.lock = none then
      (s.desc u).bind fun e =>
        (s.setDesc u { e with joinCount := e.joinCount - 1 }).joined t u e (e.joinCount - 1)
    else none
  | .detach u => if s.lock = none then s.detachSection t u else none
  | .deleteLock =>
    if s.lock = none then some ({ s with lock := some t }.goto t (.deleteWalk s.list)) else none
  | .deleteWalk [] => some ({ s with lock := none }.goto t (.returned .keyDeleted))
  | .deleteWalk (u :: rest) =>
    -- the store `thr->tls[key] = NULL` of a thread that is not skipped is outside this state
    (s.desc u).map fun _ => s.goto t (.deleteWalk rest)
  | .unborn | .starting _ | .idle | .returned _ | .dead => none

def step (s : State T) : Act T → Option (State T)
  | .create t u detached =>
    if (s.pc t).outside = true ∧ s.pc u = .unborn then
      some (((s.setDesc u (initThread detached)).goto u (.starting t)).goto t (.createAdd u))
    else none
  | .exit t v => if (s.pc t).outside = true then some (s.goto t (.exitFlags v)) else none
  | .join t u => if (s.pc t).outside = true then some (s.goto t (.join u)) else none
  | .detach t u => if (s.pc t).outside = true then some (s.goto t (.detach u)) else none
  | .keyDelete t => if (s.pc t).outside = true then some (s.goto t .deleteLock) else none
  | .exec t => exec s t
  | .leave t =>
    match s.pc t with
    | .joinBlocked u =>
      if asleep (s.queue u) t then
        some ({ s with queue := Function.update s.queue u (leave (s.queue u) t) }.goto t
          (.joinRelock u))
      else none
    | _ => none

/-- The main thread `m` runs, with its descriptor in the list. -/
def booted (m : T) : State T where
  lock := none
  list := [m]
  desc := Function.update (fun _ => none) m (some mainThread)
  queue := fun _ => []
  pc := Function.update (fun _ => .unborn) m .idle
  exited := fun _ => none
  freed := fun _ => false

def machine : Machine (State T) (Act T) := ⟨fun s => ∃ m, s = booted m, step⟩

def State.joinCount (s : State T) (u : T) : Int := ((s.desc u).map Desc.joinCount).getD 0

/-- What a step of the code by `t` can do. -/
inductive Effect (s : State T) (t : T) : State T → Prop
  | initTls {e : Desc} (hp : s.pc t = .initTls) (hd : s.desc t = some e) :
    Effect s t ((s.setDesc t { e with tls := true }).goto t .idle)
  | add {u : T} (hp : s.pc t = .createAdd u) (hl : s.lock = none) :
    Effect s t ({ s with list := u :: s.list }.goto t (.createStart u))
  | start {u : T} (hp : s.pc t = .createStart u) :
    Effect s t ((s.goto u .initTls).goto t (.returned (.created u)))
  | flags {v : Word} {e : Desc} (hp : s.pc t = .exitFlags v) (hd : s.desc t = some e) :
    Effect s t (s.goto t (if e.detached then .exitRemove v else .exitLock v))
  | remove {v : Word} (hp : s.pc t = .exitRemove v) (hl : s.lock = none) (hm : t ∈ s.list)
      (hlast : s.list.getLast? ≠ some t) :
    Effect s t ({ s with
      list := s.list.erase t, exited := Function.update s.exited t (some v) }.goto t .exitFree)
  | free {e : Desc} (hp : s.pc t = .exitFree) (hd : s.desc t = some e) :
    Effect s t ((s.free t e).goto t .dead)
  | zombie {v : Word} {e : Desc} (hp : s.pc t = .exitLock v) (hl : s.lock = none)
      (hd : s.desc t = some e) (hc : e.joinCount ≤ 0) :
    Effect s t ({ s.setDesc t { e with returnValue := v, joinCount := -1 } with
      exited := Function.update s.exited t (some v) }.goto t .dead)
  | ring {v : Word} {e : Desc} (hp : s.pc t = .exitLock v) (hl : s.lock = none)
      (hd : s.desc t = some e) (hc : 0 < e.joinCount) :
    Effect s t ({ s.setDesc t { e with returnValue := v }.broadcast with
      lock := some t }.goto t (.exitWake v))
  | wake {v : Word} {e : Desc} (hp : s.pc t = .exitWake v) (hd : s.desc t = some e) :
    Effect s t ({ s with
      queue := Function.update s.queue t (wakeAll (s.queue t) (Cond.condIsShared e.joinCond))
      lock := none
      exited := Function.update s.exited t (some v) }.goto t .dead)
  | joinFails {u : T} {r : Errno} (hp : s.pc t = .join u) :
    Effect s t (s.goto t (.returned (.joinFailed r)))
  | waits {u : T} {e : Desc} (hp : s.pc t = .join u) (hl : s.lock = none) (hm : u ∈ s.list)
      (hd : s.desc u = some e) (hdet : e.detached = false) (hc : 0 ≤ e.joinCount) :
    Effect s t ((s.setDesc u { e with joinCount := e.joinCount + 1 }).goto t
      (.joinWait u e.joinCond))
  | reapZombie {u : T} {e : Desc} (hp : s.pc t = .join u) (hl : s.lock = none) (hm : u ∈ s.list)
      (hlast : s.list.getLast? ≠ some u) (hd : s.desc u = some e) (hdet : e.detached = false)
      (hc : e.joinCount < 0) :
    Effect s t (({ s with list := s.list.erase u }.free u e).goto t
      (.returned (.joined u e.returnValue)))
  | sleep {u : T} {e : Desc} (hp : s.pc t = .joinWait u e.joinCond) (hd : s.desc u = some e) :
    Effect s t ({ s with
      queue := Function.update s.queue u
        (sleep (s.queue u) t (Cond.condIsShared e.joinCond)) }.goto t (.joinBlocked u))
  | skip {u : T} {e : Desc} {old : Word} (hp : s.pc t = .joinWait u old) (hd : s.desc u = some e)
      (hne : e.joinCond ≠ old) :
    Effect s t (s.goto t (.joinRelock u))
  | resume {u : T} (hp : s.pc t = .joinBlocked u) (hq : ¬ asleep (s.queue u) t) :
    Effect s t (s.goto t (.joinRelock u))
  | rejoin {u : T} {e : Desc} (hp : s.pc t = .joinRelock u) (hl : s.lock = none)
      (hd : s.desc u = some e) (hc : 0 < e.joinCount - 1) :
    Effect s t ((s.setDesc u { e with joinCount := e.joinCount - 1 }).goto t
      (.returned (.joined u e.returnValue)))
  | reapLast {u : T} {e : Desc} (hp : s.pc t = .joinRelock u) (hl : s.lock = none)
      (hm : u ∈ s.list) (hlast : s.list.getLast? ≠ some u) (hd : s.desc u = some e)
      (hc : e.joinCount - 1 ≤ 0) :
    Effect s t (({ s.setDesc u { e with joinCount := e.joinCount - 1 } with
      list := s.list.erase u }.free u e).goto t (.returned (.joined u e.returnValue)))
  | detachFails {u : T} {r : Errno} (hp : s.pc t = .detach u) :
    Effect s t (s.goto t (.returned (.detachFailed r)))
  | detach {u : T} {e : Desc} (hp : s.pc t = .detach u) (hl : s.lock = none) (hm : u ∈ s.list)
      (hd : s.desc u = some e) (hdet : e.detached = false) :
    Effect s t ((s.setDesc u { e with detached := true }).goto t (.returned .detached))
  | deleteLock (hp : s.pc t = .deleteLock) (hl : s.lock = none) :
    Effect s t ({ s with lock := some t }.goto t (.deleteWalk s.list))
  | deleteNext {u : T} {rest : List T} (hp : s.pc t = .deleteWalk (u :: rest)) :
    Effect s t (s.goto t (.deleteWalk rest))
  | deleteEnd (hp : s.pc t = .deleteWalk []) :
    Effect s t ({ s with lock := none }.goto t (.returned .keyDeleted))

omit [DecidableEq T] in
theorem ne_of_unborn (ho : (s.pc t).outside = true) (hu : s.pc u = .unborn) : t ≠ u := by
  rintro rfl
  rw [hu] at ho
  cases ho

theorem removeLocked_cases (h : s.removeLocked u = some s') :
    u ∈ s.list ∧ s.list.getLast? ≠ some u ∧ s' = { s with list := s.list.erase u } := by
  unfold State.removeLocked at h
  split at h
  · next hc => exact ⟨hc.1, hc.2, (Option.some.inj h).symm⟩
  · cases h

theorem joinSection_effect (hp : s.pc t = .join u) (hl : s.lock = none)
    (h : s.joinSection t u = some s') : Effect s t s' := by
  revert h
  fun_cases State.joinSection s t u with
  | case1 => rintro ⟨⟩
  | case2 | case5 =>
    rintro ⟨⟩
    exact .joinFails hp
  | case3 hm e hd hdet hc =>
    rintro ⟨⟩
    exact .waits hp hl hm hd (Bool.eq_false_iff.2 hdet) hc
  | case4 hm e hd hdet hc =>
    have hneg : e.joinCount ≤ 0 := by omega
    rw [State.joined, if_pos hneg, map_eq_some_iff]
    rintro ⟨s₁, hr, rfl⟩
    obtain ⟨-, hlast, rfl⟩ := removeLocked_cases hr
    exact .reapZombie hp hl hm hlast hd (Bool.eq_false_iff.2 hdet) (by omega)

theorem detachSection_effect (hp : s.pc t = .detach u) (hl : s.lock = none)
    (h : s.detachSection t u = some s') : Effect s t s' := by
  revert h
  fun_cases State.detachSection s t u with
  | case1 => rintro ⟨⟩
  | case2 | case4 =>
    rintro ⟨⟩
    exact .detachFails hp
  | case3 hm e hd hdet =>
    rintro ⟨⟩
    exact .detach hp hl hm hd (Bool.eq_false_iff.2 hdet)

theorem relock_effect {e : Desc} (hp : s.pc t = .joinRelock u) (hl : s.lock = none)
    (hd : s.desc u = some e)
    (h : (s.setDesc u { e with joinCount := e.joinCount - 1 }).joined t u e (e.joinCount - 1) =
      some s') : Effect s t s' := by
  unfold State.joined at h
  split at h
  · next hc =>
    rw [map_eq_some_iff] at h
    obtain ⟨s₁, hr, rfl⟩ := h
    obtain ⟨hm, hlast, rfl⟩ := removeLocked_cases hr
    exact .reapLast hp hl hm hlast hd hc
  · next hc =>
    cases h
    exact .rejoin hp hl hd (by omega)

theorem exec_cases (h : exec s t = some s') : Effect s t s' := by
  revert h
  fun_cases exec s t with
  | case1 hp =>
    intro h
    obtain ⟨e, hd, rfl⟩ := map_eq_some_iff.1 h
    exact .initTls hp hd
  | case2 u hp hl =>
    rintro ⟨⟩
    exact .add hp hl
  | case4 u hp =>
    rintro ⟨⟩
    exact .start hp
  | case5 v hp =>
    intro h
    obtain ⟨e, hd, rfl⟩ := map_eq_some_iff.1 h
    exact .flags hp hd
  | case6 v hp hl =>
    intro h
    obtain ⟨s₁, hr, rfl⟩ := map_eq_some_iff.1 h
    obtain ⟨hm, hlast, rfl⟩ := removeLocked_cases hr
    exact .remove hp hl hm hlast
  | case8 hp =>
    intro h
    obtain ⟨e, hd, rfl⟩ := map_eq_some_iff.1 h
    exact .free hp hd
  | case9 v hp hl =>
    intro h
    obtain ⟨e, hd, rfl⟩ := map_eq_some_iff.1 h
    unfold State.exitSection
    split
    · next hc => exact .ring hp hl hd hc
    · next hc => exact .zombie hp hl hd (by omega)
  | case11 v hp =>
    intro h
    obtain ⟨e, hd, rfl⟩ := map_eq_some_iff.1 h
    exact .wake hp hd
  | case12 u hp hl => exact joinSection_effect hp hl
  | case14 u old hp =>
    intro h
    obtain ⟨e, hd, rfl⟩ := map_eq_some_iff.1 h
    split
    · next he =>
      subst he
      exact .sleep hp hd
    · next hne => exact .skip hp hd hne
  | case16 u hp hq =>
    rintro ⟨⟩
    exact .resume hp hq
  | case17 u hp hl =>
    intro h
    obtain ⟨e, hd, h⟩ := bind_eq_some_iff.1 h
    exact relock_effect hp hl hd h
  | case19 u hp hl => exact detachSection_effect hp hl
  | case21 hp hl =>
    rintro ⟨⟩
    exact .deleteLock hp hl
  | case23 hp =>
    rintro ⟨⟩
    exact .deleteEnd hp
  | case24 u rest hp =>
    intro h
    obtain ⟨e, -, rfl⟩ := map_eq_some_iff.1 h
    exact .deleteNext hp
  | _ => rintro ⟨⟩

/-- After a change of the descriptor of `w` that keeps `f`, each descriptor has the `f` it had. -/
theorem desc_update {A : Type} (f : Desc → A) {w : T} {d : Option Desc}
    (h : ∀ e', d = some e' → ∃ e, s.desc w = some e ∧ f e' = f e) (x : T) (e' : Desc)
    (hx : update s.desc w d x = some e') : ∃ e, s.desc x = some e ∧ f e' = f e := by
  by_cases hxw : x = w
  · subst hxw
    rw [update_self] at hx
    exact h e' hx
  · rw [update_of_ne hxw] at hx
    exact ⟨e', hx, rfl⟩

theorem desc_store {A : Type} (f : Desc → A) {w : T} {e e₁ : Desc} (hd : s.desc w = some e)
    (he : f e₁ = f e) (x : T) (e' : Desc) :
    update s.desc w (some e₁) x = some e' → ∃ e, s.desc x = some e ∧ f e' = f e :=
  desc_update f (fun _ h => ⟨e, hd, by rw [← Option.some.inj h, he]⟩) x e'

end

/-- The main thread `m` creates `t` and `u`; `u` waits for `t`, which exits and wakes it. -/
def wokenRun {T : Type} (m t u : T) : List (Act T) :=
  [.create m t false, .exec m, .exec m, .exec t, .create m u false, .exec m, .exec m, .exec u,
   .join u t, .exec u, .exec u, .exit t 7, .exec t, .exec t, .exec t]

end Pthread.Thread
