import GitTest.Lib.Transition
import GitTest.Pthread.Word

/-!
# The table of thread timers (libc/bionic/pthread-timers.c)

`timer_create` and `timer_delete` of `SIGEV_THREAD` timers, by the threads of any type `T`, and
the threads of the timers themselves (`timer_thread_start`), as far as they use the table of 32
slots.  A section under the table's lock is one step.  Of a slot's fields only those that say who
has it are kept: its link, its id and `done`.  The thread of a timer leaves its loop at some point
after `done` is set; what it does in the loop is in `Pthread.Timer`, and a callback that calls
`timer_create` or `timer_delete` is one more thread of `T` here.

`pthread_create` returns 0 and has started the thread, or returns a positive `errno`.

    step s a = some s' → ∃ o, Effect s a o s'  (step_cases)
-/

namespace Pthread.TimerTable

open Machines

/-! ## Timer ids -/

def timerIdWrapBit : Word := 0x80000000
def timerIdWrap (id : Word) : Word := id ||| timerIdWrapBit
def timerIdUnwrap (id : Word) : Word := id &&& ~~~timerIdWrapBit
def timerIdIsWrapped (id : Word) : Bool := id &&& timerIdWrapBit != 0

/-- The id of a slot that is free or whose timer has been deleted. -/
def timerIdNone : Word := 0xffffffff
def timerIdIsValid (id : Word) : Bool := id != timerIdNone

abbrev maxThreadTimers : Nat := 32

abbrev Slot := Fin maxThreadTimers

/-- `TIMER_ID_WRAP((timer - t->timers))` -/
def slotId (i : Slot) : Word := timerIdWrap (BitVec.ofNat 32 i)

/-- The slot an id names, if it is wrapped and its index is in the table. -/
def slotOf (id : Word) : Option Slot :=
  if timerIdIsWrapped id = true then
    let index := (timerIdUnwrap id).toNat
    if h : index < maxThreadTimers then some ⟨index, h⟩ else none
  else none

theorem slotId_ne_none (i : Slot) : slotId i ≠ timerIdNone := by
  revert i
  decide

/-! ## The table -/

structure Table where
  /-- `__timer_table` is not `NULL`: its `calloc` has succeeded. -/
  present : Bool
  freeTimer : Option Slot
  next : Slot → Option Slot
  id : Slot → Word

def thrTimerTableInit (present : Bool) : Table where
  present
  freeTimer := some 0
  next i := if h : i.val + 1 < maxThreadTimers then some ⟨i.val + 1, h⟩ else none
  id _ := timerIdNone

def Table.take (t : Table) (i : Slot) : Table :=
  { t with
    freeTimer := t.next i
    next := Function.update t.next i none
    id := Function.update t.id i (slotId i) }

def thrTimerTableAlloc (t : Table) : Table × Option Slot :=
  if t.present = true then
    match t.freeTimer with
    | some i => (t.take i, some i)
    | none => (t, none)
  else (t, none)

def thrTimerTableFree (t : Table) (i : Slot) : Table :=
  { t with
    freeTimer := some i
    next := Function.update t.next i t.freeTimer
    id := Function.update t.id i timerIdNone }

def Table.clearId (t : Table) (i : Slot) : Table :=
  { t with id := Function.update t.id i timerIdNone }

def thrTimerTableFromId (t : Table) (id : Word) (remove : Bool) : Table × Option Slot :=
  if t.present = true then
    match slotOf id with
    | some i =>
      if timerIdIsValid (t.id i) = true then (if remove then t.clearId i else t, some i)
      else (t, none)
    | none => (t, none)
  else (t, none)

/-! ## Calls and timer threads -/

inductive Errno
  | einval
  | enomem
  deriving DecidableEq, Repr

inductive Outcome
  /-- The result of the system call, for a timer of the kernel. -/
  | kernel
  /-- 0, with the id stored in `*ptimerid` -/
  | created (id : Word)
  /-- 0, from `timer_delete` -/
  | deleted
  /-- -1, with `errno` -/
  | failed (e : Errno)
  deriving DecidableEq, Repr

/-- What `timer_create` looks at in its arguments. -/
structure Request where
  /-- `evp != NULL` and `evp->sigev_notify == SIGEV_THREAD` -/
  sigevThread : Bool
  /-- `evp->sigev_notify_function != NULL` -/
  hasFunction : Bool
  /-- `clock_gettime( clockid, .. )` does not fail with `EINVAL`. -/
  clockSupported : Bool

inductive Pc
  | idle
  | returned (r : Outcome)
  /-- `thr_timer_table_alloc( table )` -/
  | alloc
  /-- The stores to the fields of the new timer, `timer->done = 0` among them. -/
  | init (i : Slot)
  /-- `pthread_create( &timer->thread, .. )` -/
  | spawn (i : Slot)
  /-- `thr_timer_table_free( __timer_table, timer )` when its result is negative -/
  | undo (i : Slot)
  /-- `*ptimerid = timer->id` -/
  | report (i : Slot)
  /-- `thr_timer_table_from_id(table, id, 1)` -/
  | remove (id : Word)
  /-- `timer->done = 1` -/
  | finish (i : Slot)
  deriving DecidableEq, Repr

inductive Worker
  | absent
  | running
  /-- Past its loop, before `thr_timer_table_free`. -/
  | freeing
  deriving DecidableEq, Repr

structure State (T : Type) where
  table : Table
  done : Slot → Bool
  thread : Slot → Worker
  pc : T → Pc

inductive Act (T : Type)
  | create (t : T) (r : Request)
  | delete (t : T) (id : Word)
  | exec (t : T)
  | pthreadCreate (t : T) (result : Int)
  /-- The thread of a timer sees `done`. -/
  | leave (i : Slot)
  | free (i : Slot)

def Pc.outside : Pc → Bool
  | .idle | .returned _ => true
  | .alloc | .init _ | .spawn _ | .undo _ | .report _ | .remove _ | .finish _ => false

/-- The first step of `timer_create` behind the checks of its arguments. -/
def timerCreate (r : Request) : Pc :=
  if r.sigevThread = false then .returned .kernel
  else if r.hasFunction = false then .returned (.failed .einval)
  else if r.clockSupported = false then .returned (.failed .einval)
  else .alloc

def timerDelete (id : Word) : Pc :=
  if timerIdIsWrapped id = true then .remove id else .returned .kernel

section
variable {T : Type} [DecidableEq T]

def State.goto (s : State T) (t : T) (p : Pc) : State T :=
  { s with pc := Function.update s.pc t p }

def exec (s : State T) (t : T) : Option (State T) :=
  match s.pc t with
  | .alloc =>
    match thrTimerTableAlloc s.table with
    | (table, some i) => some ({ s with table }.goto t (.init i))
    | (table, none) => some ({ s with table }.goto t (.returned (.failed .enomem)))
  | .init i => some ({ s with done := Function.update s.done i false }.goto t (.spawn i))
  | .undo i =>
    some ({ s with table := thrTimerTableFree s.table i }.goto t (.returned (.failed .enomem)))
  | .report i => some (s.goto t (.returned (.created (s.table.id i))))
  | .remove id =>
    match thrTimerTableFromId s.table id true with
    | (table, some i) => some ({ s with table }.goto t (.finish i))
    | (table, none) => some ({ s with table }.goto t (.returned (.failed .einval)))
  | .finish i =>
    some ({ s with done := Function.update s.done i true }.goto t (.returned .deleted))
  | .idle | .returned _ | .spawn _ => none

def step (s : State T) : Act T → Option (State T)
  | .create t r => if (s.pc t).outside = true then some (s.goto t (timerCreate r)) else none
  | .delete t id => if (s.pc t).outside = true then some (s.goto t (timerDelete id)) else none
  | .exec t => exec s t
  | .pthreadCreate t result =>
    match s.pc t with
    | .spawn i =>
      if 0 ≤ result then
        -- the caller takes only a negative result for a failure
        let p : Pc := if result < 0 then .undo i else .report i
        if result = 0 then
          some ({ s with thread := Function.update s.thread i .running }.goto t p)
        else some (s.goto t p)
      else none
    | _ => none
  | .leave i =>
    if s.thread i = .running ∧ s.done i = true then
      some { s with thread := Function.update s.thread i .freeing }
    else none
  | .free i =>
    if s.thread i = .freeing then
      some { s with
        table := thrTimerTableFree s.table i
        thread := Function.update s.thread i .absent }
    else none

def init (s : State T) : Prop :=
  (∃ present, s.table = thrTimerTableInit present) ∧ (∀ i, s.thread i = .absent) ∧
    ∀ t, s.pc t = .idle

def machine : Machine (State T) (Act T) := ⟨init, step⟩

end

/-! ## What a step does -/

/-- The slot that a `timer_create` has and has not started a thread for. -/
def Pc.creates : Pc → Option Slot
  | .init i | .spawn i => some i
  | .idle | .returned _ | .alloc | .undo _ | .report _ | .remove _ | .finish _ => none

/-- The slot that a step of the call can give away. -/
def Pc.slot : Pc → Option Slot
  | .init i | .spawn i | .undo i | .finish i => some i
  | .idle | .returned _ | .alloc | .report _ | .remove _ => none

theorem Pc.slot_of_creates {p : Pc} {i : Slot} (h : p.creates = some i) : p.slot = some i := by
  cases p with
  | init | spawn => exact h
  | _ => cases h

section
variable {T : Type} [DecidableEq T]

/-- What a step does, and to which slot. -/
inductive Effect (s : State T) : Act T → Option Slot → State T → Prop
  | move (a : Act T) (t : T) (p : Pc) (hpc : (s.pc t).slot = none) (hp : p.slot = none) :
    Effect s a none (s.goto t p)
  | alloc (t : T) (i : Slot) (hpc : s.pc t = .alloc) (hi : s.table.freeTimer = some i) :
    Effect s (.exec t) (some i) ({ s with table := s.table.take i }.goto t (.init i))
  | init (t : T) (i : Slot) (hpc : s.pc t = .init i) :
    Effect s (.exec t) (some i)
      ({ s with done := Function.update s.done i false }.goto t (.spawn i))
  | spawn (t : T) (i : Slot) (hpc : s.pc t = .spawn i) :
    Effect s (.pthreadCreate t 0) (some i)
      ({ s with thread := Function.update s.thread i .running }.goto t (.report i))
  | spawnFails (t : T) (i : Slot) (result : Int) (hpc : s.pc t = .spawn i) (hr : 0 < result) :
    Effect s (.pthreadCreate t result) (some i) (s.goto t (.report i))
  | undo (t : T) (i : Slot) (hpc : s.pc t = .undo i) :
    Effect s (.exec t) (some i)
      ({ s with table := thrTimerTableFree s.table i }.goto t (.returned (.failed .enomem)))
  | remove (t : T) (id : Word) (i : Slot) (hpc : s.pc t = .remove id) (hi : slotOf id = some i)
    (hid : s.table.id i ≠ timerIdNone) :
    Effect s (.exec t) (some i) ({ s with table := s.table.clearId i }.goto t (.finish i))
  | finish (t : T) (i : Slot) (hpc : s.pc t = .finish i) :
    Effect s (.exec t) (some i)
      ({ s with done := Function.update s.done i true }.goto t (.returned .deleted))
  | leave (i : Slot) (hi : s.thread i = .running) (hd : s.done i = true) :
    Effect s (.leave i) (some i) { s with thread := Function.update s.thread i .freeing }
  | free (i : Slot) (hi : s.thread i = .freeing) :
    Effect s (.free i) (some i) { s with
      table := thrTimerTableFree s.table i
      thread := Function.update s.thread i .absent }

theorem Pc.slot_of_outside {p : Pc} (h : p.outside = true) : p.slot = none := by
  cases p with
  | idle | returned => rfl
  | _ => cases h

theorem timerCreate_slot (r : Request) : (timerCreate r).slot = none := by
  unfold timerCreate
  split
  · rfl
  split
  · rfl
  split <;> rfl

theorem timerDelete_slot (id : Word) : (timerDelete id).slot = none := by
  unfold timerDelete
  split <;> rfl

theorem alloc_cases (t : Table) :
    thrTimerTableAlloc t = (t, none) ∨
      ∃ i, t.freeTimer = some i ∧ thrTimerTableAlloc t = (t.take i, some i) := by
  unfold thrTimerTableAlloc
  split
  · cases hf : t.freeTimer with
    | none => exact .inl rfl
    | some i => exact .inr ⟨i, rfl, rfl⟩
  · exact .inl rfl

theorem fromId_cases (t : Table) (id : Word) :
    thrTimerTableFromId t id true = (t, none) ∨
      ∃ i, slotOf id = some i ∧ t.id i ≠ timerIdNone ∧
        thrTimerTableFromId t id true = (t.clearId i, some i) := by
  unfold thrTimerTableFromId
  split
  · cases hi : slotOf id with
    | none => exact .inl rfl
    | some i =>
      by_cases hv : t.id i = timerIdNone
      · exact .inl (by simp [timerIdIsValid, hv])
      · exact .inr ⟨i, rfl, hv, by simp [timerIdIsValid, hv]⟩
  · exact .inl rfl

theorem exec_cases {s s' : State T} {t : T} (h : exec s t = some s') :
    ∃ o, Effect s (.exec t) o s' := by
  unfold exec at h
  cases hpc : s.pc t with
  | idle | returned | spawn =>
    rw [hpc] at h
    cases h
  | alloc =>
    simp only [hpc] at h
    rcases alloc_cases s.table with he | ⟨i, hi, he⟩
    · rw [he] at h
      cases h
      exact ⟨_, .move _ t _ (by rw [hpc]; rfl) rfl⟩
    · rw [he] at h
      cases h
      exact ⟨_, .alloc t i hpc hi⟩
  | init i =>
    simp only [hpc, Option.some.injEq] at h
    subst h
    exact ⟨_, .init t i hpc⟩
  | undo i =>
    simp only [hpc, Option.some.injEq] at h
    subst h
    exact ⟨_, .undo t i hpc⟩
  | report i =>
    simp only [hpc, Option.some.injEq] at h
    subst h
    exact ⟨_, .move _ t _ (by rw [hpc]; rfl) rfl⟩
  | remove id =>
    simp only [hpc] at h
    rcases fromId_cases s.table id with he | ⟨i, hi, hid, he⟩
    · rw [he] at h
      cases h
      exact ⟨_, .move _ t _ (by rw [hpc]; rfl) rfl⟩
    · rw [he] at h
      cases h
      exact ⟨_, .remove t id i hpc hi hid⟩
  | finish i =>
    simp only [hpc, Option.some.injEq] at h
    subst h
    exact ⟨_, .finish t i hpc⟩

theorem step_cases {s s' : State T} {a : Act T} (h : step s a = some s') : ∃ o, Effect s a o s' := by
  revert h
  fun_cases step s a with
  | case1 t r ho =>
    rintro ⟨⟩
    exact ⟨_, .move _ t _ (Pc.slot_of_outside ho) (timerCreate_slot r)⟩
  | case3 t id ho =>
    rintro ⟨⟩
    exact ⟨_, .move _ t _ (Pc.slot_of_outside ho) (timerDelete_slot id)⟩
  | case5 => exact exec_cases
  | case6 t i hpc =>
    rintro ⟨⟩
    exact ⟨_, .spawn t i hpc⟩
  | case7 t result i hpc h0 p hne =>
    rintro ⟨⟩
    have hp : p = .report i := if_neg (by omega)
    rw [hp]
    exact ⟨_, .spawnFails t i result hpc (by omega)⟩
  | case10 i hi =>
    rintro ⟨⟩
    exact ⟨_, .leave i hi.1 hi.2⟩
  | case12 i hi =>
    rintro ⟨⟩
    exact ⟨_, .free i hi⟩
  | _ => rintro ⟨⟩

end

end Pthread.TimerTable
