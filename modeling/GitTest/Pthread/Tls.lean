import GitTest.Lib.Bitmap
import GitTest.Pthread.ThreadInv

/-!
# Thread-specific data (libc/bionic/pthread.c)

`pthread_key_create`, `pthread_key_delete`, `pthread_setspecific` and `pthread_getspecific`, with
`__init_tls` at the start of a thread and `pthread_key_clean_all` at its exit, over the threads of
`Thread.State`.  A read takes no lock; it relies on a deletion having stored `NULL` into the slot of
every thread of `gThreadList`.

A section under `_tlsmap_lock` is one step, but for the deletion, which also takes
`gThreadListLock` and clears one thread's slot a step; `mapLock` is its owner.  A thread that is
not started has an arbitrary TLS area, which `__init_tls` clears slot by slot.

Ghost: `stored t k` is the last value `t` stored for `k` since `k` was last created, `NULL` if
there is none or the clean-up of `t` has cleared it since.

    Reachable s → Running s t → pthreadGetspecific reads `stored t k`, or `NULL` if the key is not
      allocated or being deleted  (getspecific_isolated)
    the last case is there: the key is still allocated, and a value stored for it is read as `NULL`
      (getspecific_cleared)
-/

namespace Pthread.Tls

open Bitmap Function Machines Option Thread

/-! ## Algorithm -/

def tlsSlotErrno : Nat := 2
def tlsmapStart : Nat := tlsSlotErrno + 1
def tlsmapSize : Nat := 64
def tlsDefaultAllocMap : Word := 0x0000001F
def pthreadDestructorIterations : Nat := 4

def tlsmapValidateKey (key : Nat) : Bool := decide (tlsmapStart ≤ key ∧ key < tlsmapSize)

/-- `tlsmap_t`; a destructor is its address. -/
structure Tlsmap where
  init : Bool
  map : Words 32
  dtors : Nat → Word

def Tlsmap.lock (m : Tlsmap) : Tlsmap :=
  if m.init then m
  else { m with map := Function.update m.map 0 tlsDefaultAllocMap, init := true }

def tlsmapTest (m : Tlsmap) (key : Nat) : Bool := test m.map key

def tlsmapSet (m : Tlsmap) (key : Nat) (dtor : Word) : Tlsmap :=
  { m with map := set m.map key, dtors := Function.update m.dtors key dtor }

def tlsmapClear (m : Tlsmap) (key : Nat) : Tlsmap :=
  { m with map := clear m.map key, dtors := Function.update m.dtors key 0 }

/-- `tlsmap_alloc`; `none` is the result -1. -/
def tlsmapAlloc (m : Tlsmap) (dtor : Word) : Option (Nat × Tlsmap) :=
  ((List.range' tlsmapStart (tlsmapSize - tlsmapStart)).find? fun key => !tlsmapTest m key).map
    fun key => (key, tlsmapSet m key dtor)

/-- The loop variables of `pthread_key_clean_all`, and the argument of `pthread_exit`. -/
structure Frame where
  retval : Word
  rounds : Nat
  kk : Nat
  count : Nat
  deriving DecidableEq, Repr

/-- `pthread_key_clean_all` calls the destructor of this key. -/
def cleans (m : Tlsmap) (tls : Nat → Word) (kk : Nat) : Bool :=
  tlsmapTest m kk && decide (tls kk ≠ 0) && decide (m.dtors kk ≠ 0)

/-- The loops of `pthread_key_clean_all` up to the next call of a destructor: its key, and the
loop variables for going on after it. -/
def keyCleanAll (m : Tlsmap) (tls : Nat → Word) (retval : Word) :
    (rounds kk count : Nat) → Option (Nat × Frame)
  | 0, _, _ => none
  | r + 1, kk, count =>
    match (List.range' kk (tlsmapSize - kk)).find? (cleans m tls) with
    | some key => some (key, ⟨retval, r + 1, key + 1, count + 1⟩)
    | none => if count = 0 then none else keyCleanAll m tls retval r tlsmapStart 0

/-- Where a thread is in the functions here.  User code that a destructor runs has the loop
variables of the clean-up that called it. -/
inductive Pc
  | user (dtor : Option Frame)
  /-- `__init_tls`: `tls[nn] = 0` -/
  | zeroing (nn : Nat)
  /-- `tlsmap_lock()` in `pthread_key_clean_all` -/
  | cleaning (f : Frame)
  /-- The part of `pthread_key_delete` under `gThreadListLock`. -/
  | deleting (key : Nat) (dtor : Option Frame)
  deriving DecidableEq, Repr

inductive Ret
  | ok
  | created (key : Nat)
  | enomem
  | einval
  deriving DecidableEq, Repr

structure State (T : Type) where
  thr : Thread.State T
  mapLock : Option T
  map : Tlsmap
  area : T → Nat → Word
  pc : T → Pc
  ret : T → Option Ret
  stored : T → Nat → Word

inductive Act (T : Type)
  | create (t u : T) (detached : Bool)
  | keyCreate (t : T) (dtor : Word)
  | setspecific (t : T) (key : Nat) (ptr : Word)
  | keyDelete (t : T) (key : Nat)
  /-- `t` comes to `pthread_key_clean_all` in a call of `pthread_exit`. -/
  | exit (t : T) (retval : Word)
  | dtorReturn (t : T)
  | exec (t : T)

/-- The places of a thread in its creation of another thread, its start and its exit. -/
def lifecycle {T : Type} : Thread.Pc T → Bool
  | .initTls | .createAdd _ | .createStart _ | .exitFlags _ | .exitRemove _ | .exitFree
  | .exitLock _ | .exitWake _ => true
  | .unborn | .starting _ | .idle | .returned _ | .dead | .join _ | .joinWait _ _ | .joinBlocked _
  | .joinRelock _ | .detach _ | .deleteLock | .deleteWalk _ => false

section
variable {T : Type} [DecidableEq T]

def State.goto (s : State T) (t : T) (p : Pc) : State T :=
  { s with pc := Function.update s.pc t p }

def State.setRet (s : State T) (t : T) (r : Ret) : State T :=
  { s with ret := Function.update s.ret t (some r) }

/-- `tls[key] = v` in the area of `t`. -/
def State.setSlot (s : State T) (t : T) (key : Nat) (v : Word) : State T :=
  { s with area := Function.update s.area t (Function.update (s.area t) key v) }

def State.setStored (s : State T) (t : T) (key : Nat) (v : Word) : State T :=
  { s with stored := Function.update s.stored t (Function.update (s.stored t) key v) }

def State.lockMap (s : State T) : State T := { s with map := s.map.lock }

def pthreadGetspecific (s : State T) (t : T) (key : Nat) : Word :=
  if tlsmapValidateKey key then s.area t key else 0

def keyCreate (s : State T) (t : T) (dtor : Word) : State T :=
  match tlsmapAlloc s.map dtor with
  | some (key, m) =>
    { s with
      map := m
      stored := fun u => Function.update (s.stored u) key 0 }.setRet t (.created key)
  | none => s.setRet t .enomem

def setspecific (s : State T) (t : T) (key : Nat) (ptr : Word) : State T :=
  if tlsmapTest s.map key then ((s.setSlot t key ptr).setStored t key ptr).setRet t .ok
  else s.setRet t .einval

/-- `pthread_key_delete` up to the lock of the thread list. -/
def keyDelete (s : State T) (t : T) (key : Nat) (d : Option Frame) : Option (State T) :=
  if tlsmapTest s.map key then
    (Thread.step s.thr (.keyDelete t)).map fun thr =>
      { s with thr, mapLock := some t }.goto t (.deleting key d)
  else some (s.setRet t .einval)

def deleteStep (s : State T) (t : T) (key : Nat) (d : Option Frame) : Option (State T) :=
  (Thread.exec s.thr t).map fun thr =>
    match s.thr.pc t with
    | .deleteWalk [] =>
      ({ s with thr, map := tlsmapClear s.map key, mapLock := none }.goto t (.user d)).setRet t .ok
    | .deleteWalk (u :: _) =>
      if ((s.thr.desc u).map Desc.skipped).getD true then { s with thr }
      else { s with thr }.setSlot u key 0
    | _ => { s with thr }

def cleanStep (s : State T) (t : T) (f : Frame) : Option (State T) :=
  match keyCleanAll s.map (s.area t) f.retval f.rounds f.kk f.count with
  | some (key, f') =>
    some (((s.setSlot t key 0).setStored t key 0).goto t (.user (some f')))
  | none =>
    (Thread.step s.thr (.exit t f.retval)).map fun thr => { s with thr }.goto t (.user none)

/-- A step of `t` in its creation of another thread, its start or its exit. -/
def lifeStep (s : State T) (t : T) : Option (State T) :=
  (Thread.exec s.thr t).map fun thr =>
    if s.thr.pc t = .initTls then { s with thr }.goto t (.zeroing tlsSlotErrno) else { s with thr }

def step (s : State T) : Act T → Option (State T)
  | .create t u detached =>
    match s.pc t with
    | .user _ => (Thread.step s.thr (.create t u detached)).map fun thr => { s with thr }
    | _ => none
  | .keyCreate t dtor =>
    match s.pc t with
    | .user _ =>
      if (s.thr.pc t).outside = true ∧ s.mapLock = none then some (keyCreate s.lockMap t dtor)
      else none
    | _ => none
  | .setspecific t key ptr =>
    match s.pc t with
    | .user _ =>
      if (s.thr.pc t).outside = true then
        if tlsmapValidateKey key then
          if s.mapLock = none then some (setspecific s.lockMap t key ptr) else none
        else some (s.setRet t .einval)
      else none
    | _ => none
  | .keyDelete t key =>
    match s.pc t with
    | .user d =>
      if (s.thr.pc t).outside = true then
        if tlsmapValidateKey key then
          if s.mapLock = none then keyDelete s.lockMap t key d else none
        else some (s.setRet t .einval)
      else none
    | _ => none
  | .exit t retval =>
    match s.pc t with
    | .user _ =>
      if (s.thr.pc t).outside = true then
        some (s.goto t (.cleaning ⟨retval, pthreadDestructorIterations, tlsmapStart, 0⟩))
      else none
    | _ => none
  | .dtorReturn t =>
    match s.pc t with
    | .user (some f) =>
      if (s.thr.pc t).outside = true then some (s.goto t (.cleaning f)) else none
    | _ => none
  | .exec t =>
    match s.pc t with
    | .user _ => if lifecycle (s.thr.pc t) then lifeStep s t else none
    | .zeroing nn =>
      if nn < tlsmapSize then some ((s.setSlot t nn 0).goto t (.zeroing (nn + 1)))
      else some (s.goto t (.user none))
    | .cleaning f => if s.mapLock = none then cleanStep s.lockMap t f else none
    | .deleting key d => deleteStep s t key d

/-- The main thread runs with a cleared TLS area, and the map is the static one. -/
def init (s : State T) : Prop :=
  ∃ m, s.thr = booted m ∧ s.mapLock = none ∧ s.map = ⟨false, fun _ => 0, fun _ => 0⟩ ∧
    (∀ k, tlsSlotErrno ≤ k → s.area m k = 0) ∧ (∀ t, s.pc t = .user none) ∧
    ∀ t k, s.stored t k = 0

def machine : Machine (State T) (Act T) := ⟨init, step⟩

/-! ## The map -/

theorem tlsmapTest_set (m : Tlsmap) (j k : Nat) (d : Word) :
    tlsmapTest (tlsmapSet m k d) j = true ↔ j = k ∨ tlsmapTest m j = true :=
  test_set (by decide) m.map j k

theorem tlsmapTest_clear (m : Tlsmap) (j k : Nat) :
    tlsmapTest (tlsmapClear m k) j = true ↔ j ≠ k ∧ tlsmapTest m j = true :=
  test_clear (by decide) m.map j k

theorem Tlsmap.lock_init (m : Tlsmap) : m.lock.init = true := by
  unfold Tlsmap.lock
  split
  · assumption
  · rfl

variable {k : Nat} {a : Thread.State T} {t : T} {p : Thread.Pc T}

theorem mem_keys :
    k ∈ List.range' tlsmapStart (tlsmapSize - tlsmapStart) ↔ tlsmapValidateKey k = true := by
  rw [List.mem_range'_1, tlsmapValidateKey, decide_eq_true_eq]
  omega

theorem tlsmapAlloc_some {m m' : Tlsmap} {d : Word} (h : tlsmapAlloc m d = some (k, m')) :
    tlsmapValidateKey k = true ∧ tlsmapTest m k = false ∧ m' = tlsmapSet m k d := by
  unfold tlsmapAlloc at h
  rw [map_eq_some_iff] at h
  obtain ⟨j, hj, he⟩ := h
  cases he
  refine ⟨mem_keys.1 (List.mem_of_find?_eq_some hj), ?_, rfl⟩
  simpa using List.find?_some hj

/-! ## The threads -/

/-- Not yet at the end of its `__init_tls` call. -/
def early : Thread.Pc T → Bool
  | .unborn | .starting _ | .initTls => true
  | .idle | .returned _ | .createAdd _ | .createStart _ | .exitFlags _ | .exitRemove _ | .exitFree
  | .exitLock _ | .exitWake _ | .dead | .join _ | .joinWait _ _ | .joinBlocked _ | .joinRelock _
  | .detach _ | .deleteLock | .deleteWalk _ => false

/-- What a step of a thread's creation, start or exit does to the places and to `tls`. -/
structure LifeStep (a b : Thread.State T) (t : T) : Prop where
  pc : ∀ x, x ≠ t → b.pc x = a.pc x ∨ a.pc x = .starting t ∧ b.pc x = .initTls
  late : early (b.pc t) = false
  phase : (b.pc t).phase = .running → (a.pc t).phase = .running
  tls : ∀ x e', b.desc x = some e' →
    ∃ e, a.desc x = some e ∧ (e'.tls = true ∨ (x = t → a.pc t ≠ .initTls) ∧ e'.tls = e.tls)

theorem LifeStep.of_moved {b : Thread.State T} (hpc : b.pc = update a.pc t p)
    (hlate : early p = false) (hph : p.phase = .running → (a.pc t).phase = .running)
    (hne : a.pc t ≠ .initTls)
    (hd : ∀ x e', b.desc x = some e' → ∃ e, a.desc x = some e ∧ e'.tls = e.tls) :
    LifeStep a b t := by
  have hself : b.pc t = p := by rw [hpc, update_self]
  refine ⟨fun x hx => .inl (by rw [hpc, update_of_ne hx]), by rw [hself, hlate],
    by rw [hself]; exact hph, fun x e' h => ?_⟩
  obtain ⟨e, he, h'⟩ := hd x e' h
  exact ⟨e, he, .inr ⟨fun _ => hne, h'⟩⟩

theorem lifeStep_exec {b : Thread.State T} (hi : Thread.Inv a) (hl : lifecycle (a.pc t) = true)
    (h : Thread.exec a t = some b) : LifeStep a b t := by
  cases exec_cases h with
  | @initTls e hp hd =>
    refine ⟨fun x hx => .inl (goto_pc_of_ne _ _ hx), by rw [goto_pc_self]; rfl,
      fun _ => by rw [hp]; rfl, fun x e' hx => ?_⟩
    change update a.desc t _ x = some e' at hx
    by_cases hxt : x = t
    · subst hxt
      rw [update_self] at hx
      cases hx
      exact ⟨e, hd, .inl rfl⟩
    · rw [update_of_ne hxt] at hx
      exact ⟨e', hx, .inr ⟨fun h => absurd h hxt, rfl⟩⟩
  | add hp _ =>
    exact .of_moved rfl rfl (fun _ => by rw [hp]; rfl) (by simp [hp]) fun x e' h => ⟨e', h, rfl⟩
  | @start u hp =>
    have hs := hi.sees_at hp
    refine ⟨fun x hx => ?_, by rw [goto_pc_self]; rfl, fun _ => by rw [hp]; rfl,
      fun x e' h => ⟨e', h, .inr ⟨fun _ => by simp [hp], rfl⟩⟩⟩
    by_cases hxu : x = u
    · subst hxu
      exact .inr ⟨hs.1, (goto_pc_of_ne _ _ hx).trans (goto_pc_self ..)⟩
    · exact .inl ((goto_pc_of_ne _ _ hx).trans (goto_pc_of_ne _ _ hxu))
  | @flags v e hp _ =>
    cases e.detached with
    | true | false =>
      exact .of_moved rfl rfl (fun _ => by rw [hp]; rfl) (by simp [hp]) fun x e' h => ⟨e', h, rfl⟩
  | remove hp _ _ _ | wake hp _ =>
    exact .of_moved rfl rfl (fun h => by cases h) (by simp [hp]) fun x e' h => ⟨e', h, rfl⟩
  | @free e hp hd =>
    obtain ⟨e', v, he, -, -, -, -, hint⟩ := hi.fits_at hp
    cases hd.symm.trans he
    rw [State.free, if_pos hint]
    exact .of_moved rfl rfl (fun h => by cases h) (by simp [hp])
      (desc_update Desc.tls fun _ h => by cases h)
  | zombie hp _ hd _ | ring hp _ hd _ =>
    exact .of_moved rfl rfl (fun h => by cases h) (by simp [hp]) (desc_store Desc.tls hd rfl)
  | _ hp =>
    rw [hp] at hl
    cases hl

end

/-! ## The invariant -/

def Pc.isZeroing : Pc → Bool
  | .zeroing _ => true
  | .user _ | .cleaning _ | .deleting _ _ => false

section
variable {T : Type} {k : Nat} {d : Option Frame} {thr : Thread.State T} {t x u : T}
  {p : Thread.Pc T} {s s' : State T}

/-- Started, and not past the sections of its exit. -/
def Live (s : State T) (t : T) : Prop :=
  (s.thr.pc t).phase = .running ∧ early (s.thr.pc t) = false ∧ (s.pc t).isZeroing = false

/-- A deletion of the key is past its check. -/
def Deleting (s : State T) (key : Nat) : Prop := ∃ t d, s.pc t = .deleting key d

def deletes : Thread.Pc T → Bool
  | .deleteLock | .deleteWalk _ => true
  | .unborn | .starting _ | .initTls | .idle | .returned _ | .createAdd _ | .createStart _
  | .exitFlags _ | .exitRemove _ | .exitFree | .exitLock _ | .exitWake _ | .dead | .join _
  | .joinWait _ _ | .joinBlocked _ | .joinRelock _ | .detach _ => false

structure Inv (s : State T) : Prop where
  thr : Thread.Inv s.thr
  tls : ∀ t e, s.thr.desc t = some e → (s.thr.pc t).phase = .running →
    early (s.thr.pc t) = false → e.tls = true
  young : ∀ t k, early (s.thr.pc t) = true ∨ (s.pc t).isZeroing = true → s.stored t k = 0
  zeroed : ∀ t n, s.pc t = .zeroing n → ∀ k, tlsSlotErrno ≤ k → k < n → s.area t k = 0
  fresh : s.map.init = false → (∀ k, tlsmapTest s.map k = false) ∧ ∀ t k, s.stored t k = 0
  /-- The slot of a free key is empty. -/
  empty : ∀ t k, Live s t → tlsmapValidateKey k = true → tlsmapTest s.map k = false →
    s.area t k = 0
  kept : ∀ t k, Live s t → tlsmapValidateKey k = true → tlsmapTest s.map k = true →
    s.area t k = s.stored t k ∨ s.area t k = 0 ∧ Deleting s k
  deleter : ∀ t k d, s.pc t = .deleting k d →
    s.mapLock = some t ∧ tlsmapValidateKey k = true ∧ deletes (s.thr.pc t) = true
  cleaner : ∀ t f, s.pc t = .cleaning f → (s.thr.pc t).outside = true
  /-- A walk has cleared the slots of the live threads that are not in the rest of its list. -/
  walk : ∀ t k d rest, s.pc t = .deleting k d → s.thr.pc t = .deleteWalk rest →
    ∀ x, Live s x → x ∉ rest → s.area x k = 0

/-- Every running thread that is past `__init_tls` has `tls` set. -/
def TlsSet (a : Thread.State T) : Prop :=
  ∀ t e, a.desc t = some e → (a.pc t).phase = .running → early (a.pc t) = false → e.tls = true

/-- Before its start or in `__init_tls`. -/
def Young (s : State T) (t : T) : Prop := early (s.thr.pc t) = true ∨ (s.pc t).isZeroing = true

theorem Inv.no_deletion (hi : Inv s) (hl : s.mapLock = none) : s.pc t ≠ .deleting k d := by
  intro h
  have := (hi.deleter t k d h).1
  rw [hl] at this
  cases this

/-- Without a deletion in progress, the slot of an allocated key has the value stored last. -/
theorem Inv.kept_free (hi : Inv s) (hl : s.mapLock = none) (ht : Live s t)
    (hk : tlsmapValidateKey k = true) (hm : tlsmapTest s.map k = true) :
    s.area t k = s.stored t k := by
  rcases hi.kept t k ht hk hm with h | ⟨-, u, d, h⟩
  · exact h
  · exact absurd h (hi.no_deletion hl)

/-- A step that leaves the slots, the map and the deletions alone. -/
theorem Inv.frame (hi : Inv s) (harea : s'.area = s.area) (hstored : s'.stored = s.stored)
    (hmap : s'.map = s.map) (hlock : s'.mapLock = s.mapLock) (hthr : Thread.Inv s'.thr)
    (htls : TlsSet s'.thr) (hlive : ∀ x, Live s' x → Live s x)
    (hyoung : ∀ x, Young s' x → Young s x)
    (hzero : ∀ x n, s'.pc x = .zeroing n → ∀ k, tlsSlotErrno ≤ k → k < n → s.area x k = 0)
    (hdel : ∀ x k d, s'.pc x = .deleting k d ↔ s.pc x = .deleting k d)
    (hdpc : ∀ x k d, s.pc x = .deleting k d → s'.thr.pc x = s.thr.pc x)
    (hclean : ∀ x f, s'.pc x = .cleaning f → (s'.thr.pc x).outside = true) : Inv s' := by
  refine ⟨hthr, htls, fun t k h => ?_, fun t n h k h1 h2 => ?_, fun h => ?_, fun t k h hk hm => ?_,
    fun t k h hk hm => ?_, fun t k d h => ?_, hclean, fun t k d rest h hr x hx hn => ?_⟩
  · rw [hstored]
    exact hi.young t k (hyoung t h)
  · rw [harea]
    exact hzero t n h k h1 h2
  · rw [hmap] at h ⊢
    rw [hstored]
    exact hi.fresh h
  · rw [harea]
    rw [hmap] at hm
    exact hi.empty t k (hlive t h) hk hm
  · rw [harea, hstored]
    rw [hmap] at hm
    refine (hi.kept t k (hlive t h) hk hm).imp id fun ⟨h0, u, d, hd⟩ => ⟨h0, u, d, ?_⟩
    exact (hdel u k d).2 hd
  · have h' := (hdel t k d).1 h
    rw [hlock, hdpc t k d h']
    exact hi.deleter t k d h'
  · rw [harea]
    have h' := (hdel t k d).1 h
    rw [hdpc t k d h'] at hr
    exact hi.walk t k d rest h' hr x (hlive x hx) hn

theorem inv_lockMap (hi : Inv s) : Inv s.lockMap := by
  by_cases h0 : s.map.init = true
  · have he : s.lockMap = s := by
      unfold State.lockMap Tlsmap.lock
      rw [if_pos h0]
    rwa [he]
  · rw [Bool.not_eq_true] at h0
    obtain ⟨hfree, hst⟩ := hi.fresh h0
    refine ⟨hi.thr, hi.tls, hi.young, hi.zeroed, fun h => ?_, fun t k ht hk _ => ?_,
      fun t k ht hk _ => ?_, hi.deleter, hi.cleaner, hi.walk⟩
    · rw [State.lockMap, s.map.lock_init] at h
      cases h
    · exact hi.empty t k ht hk (hfree k)
    · left
      change s.area t k = s.stored t k
      rw [hi.empty t k ht hk (hfree k), hst t k]

theorem late_of_outside (h : p.outside = true) : early p = false := by
  cases p with
  | idle | returned => rfl
  | _ => cases h

theorem early_lifecycle (h : lifecycle p = true) (hne : p ≠ .initTls) :
    early p = false := by
  cases p with
  | initTls => exact absurd rfl hne
  | createAdd | createStart | exitFlags | exitRemove | exitFree | exitLock | exitWake => rfl
  | _ => cases h

theorem live_of_outside (ho : (s.thr.pc t).outside = true) (hp : (s.pc t).isZeroing = false) :
    Live s t :=
  ⟨(outside_running ho).1, late_of_outside ho, hp⟩

/-! ## Every step keeps the invariant -/

structure Moved (s s' : State T) (t : T) : Prop where
  pc : ∀ x, x ≠ t → s'.pc x = s.pc x
  thr : ∀ x, x ≠ t → s'.thr.pc x = s.thr.pc x

section
variable (hm : Moved s s' t)
include hm

theorem Moved.live (h : Live s' x) : x = t ∨ Live s x := by
  by_cases hxt : x = t
  · exact .inl hxt
  · right
    unfold Live at h
    rwa [hm.pc x hxt, hm.thr x hxt] at h

theorem Moved.live_of (ht : Live s t) (h : Live s' x) : Live s x :=
  (hm.live h).elim (fun he => he ▸ ht) id

/-- A move to a place that is neither early nor zeroing makes no thread young. -/
theorem Moved.young (hlate : early (s'.thr.pc t) = false) (hzero : (s'.pc t).isZeroing = false)
    (h : Young s' x) : Young s x := by
  unfold Young at h
  by_cases hxt : x = t
  · rw [hxt, hlate, hzero] at h
    exact absurd h (by simp)
  · rwa [hm.pc x hxt, hm.thr x hxt] at h

theorem Moved.deleting (h : ∀ k d, s.pc t ≠ .deleting k d) (h' : ∀ k d, s'.pc t ≠ .deleting k d)
    (x : T) (k : Nat) (d : Option Frame) : s'.pc x = .deleting k d ↔ s.pc x = .deleting k d := by
  by_cases hxt : x = t
  · rw [hxt]
    exact iff_of_false (h' k d) (h k d)
  · rw [hm.pc x hxt]

theorem Moved.zeroed (hi : Inv s) (h' : ∀ n, s'.pc t ≠ .zeroing n) {n : Nat}
    (hx : s'.pc x = .zeroing n) : ∀ k, tlsSlotErrno ≤ k → k < n → s.area x k = 0 := by
  have hxt : x ≠ t := by
    rintro rfl
    exact h' n hx
  exact hi.zeroed x n ((hm.pc x hxt).symm.trans hx)

theorem Moved.cleaner (hi : Inv s) (h' : ∀ f, s'.pc t ≠ .cleaning f) {f : Frame}
    (hx : s'.pc x = .cleaning f) : (s'.thr.pc x).outside = true := by
  have hxt : x ≠ t := by
    rintro rfl
    exact h' f hx
  rw [hm.thr x hxt]
  exact hi.cleaner x f ((hm.pc x hxt).symm.trans hx)

end

/-- The map has one owner, so there is one deletion at most. -/
theorem Inv.deleting_unique (hi : Inv s) (hp : s.pc t = .deleting k d) {j : Nat}
    {d' : Option Frame} (h : s.pc x = .deleting j d') : x = t ∧ j = k := by
  have hxt : x = t :=
    Option.some.inj ((hi.deleter x j d' h).1.symm.trans (hi.deleter t k d hp).1)
  rw [hxt, hp] at h
  cases h
  exact ⟨hxt, rfl⟩

/-- The places of the others stay, but for threads before their start. -/
def Aside (a b : Thread.State T) (t : T) : Prop :=
  ∀ x, x ≠ t → b.pc x = a.pc x ∨
    early (b.pc x) = true ∧ early (a.pc x) = true ∧ deletes (a.pc x) = false

variable [DecidableEq T]

/-- After a step of `t`, a thread at `q` is `t`, which went there, or was there before. -/
theorem goto_pc_eq {p q : Pc} (h : (s.goto t p).pc x = q) :
    x = t ∧ p = q ∨ x ≠ t ∧ s.pc x = q := by
  change update s.pc t p x = q at h
  rw [update_apply] at h
  split at h
  · next hx => exact .inl ⟨hx, h⟩
  · next hx => exact .inr ⟨hx, h⟩

theorem goto_pc (s : State T) (t : T) (p : Pc) : (s.goto t p).pc t = p := update_self ..

theorem moved_goto (s : State T) (t : T) (p : Pc) : Moved s (s.goto t p) t :=
  ⟨fun _ hx => update_of_ne hx _ _, fun _ _ => rfl⟩

theorem inv_setRet (hi : Inv s) (t : T) (r : Ret) : Inv (s.setRet t r) :=
  hi.frame rfl rfl rfl rfl hi.thr hi.tls (fun _ h => h) (fun _ h => h) hi.zeroed
    (fun _ _ _ => Iff.rfl) (fun _ _ _ _ => rfl) hi.cleaner

/-- Neither in `__init_tls` nor in a deletion. -/
def Pc.plain : Pc → Bool
  | .user _ | .cleaning _ => true
  | .zeroing _ | .deleting _ _ => false

theorem Pc.plain_spec {p : Pc} (h : p.plain = true) :
    p.isZeroing = false ∧ (∀ n, p ≠ .zeroing n) ∧ ∀ k d, p ≠ .deleting k d := by
  cases p with
  | user | cleaning => simp [Pc.isZeroing]
  | zeroing | deleting => cases h

/-- A move of a thread from a plain place to a plain place or to the start of `__init_tls`, with a
step of the threads that leaves the others' places alone, but for threads before their start. -/
theorem Inv.move (hi : Inv s) {p : Pc} (hp : (s.pc t).plain = true)
    (hp' : p.plain = true ∨ p = .zeroing tlsSlotErrno ∧ early (s.thr.pc t) = true)
    (hthr : Thread.Inv thr) (htls : TlsSet thr) (hother : Aside s.thr thr t)
    (hlate : early (thr.pc t) = false) (hph : p.plain = true → (thr.pc t).phase = .running →
      (s.thr.pc t).phase = .running ∧ early (s.thr.pc t) = false)
    (hcl : ∀ f, p = .cleaning f → (thr.pc t).outside = true) :
    Inv ({ s with thr }.goto t p) := by
  obtain ⟨hz, hz', hd⟩ := Pc.plain_spec hp
  have hdp : ∀ k d, p ≠ .deleting k d := by
    rcases hp' with h | ⟨h, -⟩
    · exact (Pc.plain_spec h).2.2
    · simp [h]
  have hself := goto_pc { s with thr } t p
  have hm := moved_goto { s with thr } t p
  have hdel := hm.deleting hd (by rwa [hself])
  refine hi.frame rfl rfl rfl rfl hthr htls (fun x ⟨h1, h2, h3⟩ => ?_) (fun x hx => ?_)
    (fun x n hx k h1 h2 => ?_) hdel (fun x k d hx => ?_) (fun x f hx => ?_)
  · by_cases hxt : x = t
    · subst hxt
      rw [hself] at h3
      have hplain := hp'.resolve_right fun h => by
        rw [h.1] at h3
        cases h3
      exact ⟨(hph hplain h1).1, (hph hplain h1).2, hz⟩
    · rw [hm.pc x hxt] at h3
      change early (thr.pc x) = false at h2
      rcases hother x hxt with h | ⟨h, -⟩
      · refine ⟨?_, ?_, h3⟩
        · rwa [← h]
        · rwa [← h]
      · rw [h] at h2
        cases h2
  · unfold Young at hx
    by_cases hxt : x = t
    · subst hxt
      rw [hself] at hx
      rcases hp' with h | ⟨-, h⟩
      · rw [(Pc.plain_spec h).1] at hx
        change early (thr.pc x) = true ∨ _ at hx
        simp [hlate] at hx
      · exact .inl h
    · rw [hm.pc x hxt] at hx
      rcases hother x hxt with h | ⟨-, h, -⟩
      · refine hx.imp (fun hx => ?_) id
        rwa [← h]
      · exact .inl h
  · rcases goto_pc_eq hx with ⟨-, rfl⟩ | ⟨-, hx⟩
    · rcases hp' with h | ⟨h, -⟩
      · cases h
      · cases h
        omega
    · exact hi.zeroed x n hx k h1 h2
  · have hxt : x ≠ t := by
      rintro rfl
      exact hd k d hx
    rcases hother x hxt with h | ⟨-, -, h⟩
    · exact h
    · rw [(hi.deleter x k d hx).2.2] at h
      cases h
  · rcases goto_pc_eq hx with ⟨rfl, hq⟩ | ⟨hxt, hx⟩
    · exact hcl f hq
    · have ho := hi.cleaner x f hx
      rcases hother x hxt with h | ⟨-, h, -⟩
      · change (thr.pc x).outside = true
        rwa [h]
      · rw [late_of_outside ho] at h
        cases h

theorem Inv.goto (hi : Inv s) {p : Pc} (ht : Live s t) (hp : (s.pc t).plain = true)
    (hp' : p.plain = true) (hcl : ∀ f, p = .cleaning f → (s.thr.pc t).outside = true) :
    Inv (s.goto t p) :=
  hi.move hp (.inl hp') hi.thr hi.tls (fun _ _ => .inl rfl) ht.2.1 (fun _ _ => ⟨ht.1, ht.2.1⟩) hcl

theorem Inv.stay (hi : Inv s) (hp : s.pc t = .user d) (hthr : Thread.Inv thr)
    (htls : TlsSet thr) (hother : Aside s.thr thr t) (hlate : early (thr.pc t) = false)
    (hph : (thr.pc t).phase = .running →
      (s.thr.pc t).phase = .running ∧ early (s.thr.pc t) = false) : Inv { s with thr } := by
  have hgo : { s with thr }.goto t (s.pc t) = { s with thr } := by
    unfold State.goto
    rw [update_eq_self]
  rw [← hgo]
  have hplain : (s.pc t).plain = true := by rw [hp]; rfl
  exact hi.move hplain (.inl hplain) hthr htls hother hlate (fun _ => hph) (by simp [hp])

theorem update_slot (f : T → Nat → Word) (t : T) (k : Nat) (v : Word) (x : T) (j : Nat) :
    update f t (update (f t) k v) x j = if x = t ∧ j = k then v else f x j := by
  by_cases hx : x = t
  · subst hx
    simp [update_apply]
  · simp [hx]

section
variable (hi : Inv s) (hl : s.mapLock = none) (h0 : s.map.init = true)
include hi hl h0

theorem Inv.write (ht : Live s t) {v : Word} (hv : tlsmapTest s.map k = true ∨ v = 0) :
    Inv ((s.setSlot t k v).setStored t k v) := by
  set s' := (s.setSlot t k v).setStored t k v
  have harea : ∀ x j, s'.area x j = if x = t ∧ j = k then v else s.area x j :=
    update_slot s.area t k v
  have hstored : ∀ x j, s'.stored x j = if x = t ∧ j = k then v else s.stored x j :=
    update_slot s.stored t k v
  refine ⟨hi.thr, hi.tls, fun x j hx => ?_, fun x n hx j h1 h2 => ?_, fun h => ?_,
    fun x j hx hj hm => ?_, fun x j hx hj hm => ?_, hi.deleter, hi.cleaner,
    fun x j d rest hx => ?_⟩
  · have hxt : x ≠ t := by
      rintro rfl
      have hx' : Young s x := hx
      rw [Young, ht.2.1, ht.2.2] at hx'
      simp at hx'
    rw [hstored, if_neg fun h => hxt h.1]
    exact hi.young x j hx
  · have hxt : x ≠ t := by
      rintro rfl
      have hz := ht.2.2
      rw [show s.pc x = .zeroing n from hx] at hz
      cases hz
    rw [harea, if_neg fun h => hxt h.1]
    exact hi.zeroed x n hx j h1 h2
  · exact absurd (h.symm.trans h0) (by simp)
  · rw [harea]
    split
    · next h =>
      rw [h.2] at hm
      exact hv.resolve_left fun ht => by
        rw [show tlsmapTest s.map k = false from hm] at ht
        cases ht
    · exact hi.empty x j hx hj hm
  · left
    rw [harea, hstored]
    split
    · rfl
    · exact hi.kept_free hl hx hj hm
  · exact absurd hx (hi.no_deletion hl)

theorem inv_keyCreate (t : T) (dtor : Word) : Inv (keyCreate s t dtor) := by
  unfold keyCreate
  split
  · next k m ha =>
    obtain ⟨hk, hfree, rfl⟩ := tlsmapAlloc_some ha
    refine ⟨hi.thr, hi.tls, fun x j hx => ?_, hi.zeroed, fun h => ?_, fun x j hx hj hm => ?_,
      fun x j hx hj hm => ?_, hi.deleter, hi.cleaner, fun x j d rest hx => ?_⟩
    · change update (s.stored x) k 0 j = 0
      by_cases hjk : j = k
      · rw [hjk, update_self]
      · rw [update_of_ne hjk]
        exact hi.young x j hx
    · exact absurd (h.symm.trans h0) (by simp)
    · refine hi.empty x j hx hj ?_
      rw [← Bool.not_eq_true] at hm ⊢
      exact fun h => hm ((tlsmapTest_set s.map j k dtor).2 (.inr h))
    · left
      change s.area x j = update (s.stored x) k 0 j
      by_cases hjk : j = k
      · subst hjk
        rw [update_self]
        exact hi.empty x j hx hj hfree
      · rw [update_of_ne hjk]
        exact hi.kept_free hl hx hj (((tlsmapTest_set s.map j k dtor).1 hm).resolve_left hjk)
    · exact absurd hx (hi.no_deletion hl)
  · exact inv_setRet hi t _

theorem inv_setspecific (ht : Live s t) (k : Nat) (v : Word) :
    Inv (setspecific s t k v) := by
  unfold setspecific
  split
  · next hm => exact inv_setRet (hi.write hl h0 ht (.inl hm)) t _
  · exact inv_setRet hi t _

end

theorem inv_create (hi : Inv s) {det : Bool} (hp : s.pc t = .user d)
    (h : Thread.step s.thr (.create t u det) = some thr) : Inv { s with thr } := by
  have hthr : Thread.Inv thr := Thread.inv_step hi.thr (a := .create t u det) trivial h
  simp only [Thread.step, ite_none_right_eq_some, Option.some.injEq] at h
  obtain ⟨⟨ho, hu⟩, rfl⟩ := h
  have hlive : Live s t := live_of_outside ho (by rw [hp]; rfl)
  have htu : t ≠ u := ne_of_unborn ho hu
  set thr := ((s.thr.setDesc u (initThread det)).goto u (.starting t)).goto t (.createAdd u)
  have hpu : thr.pc u = .starting t := (goto_pc_of_ne _ _ htu.symm).trans (goto_pc_self ..)
  have hpt : thr.pc t = .createAdd u := goto_pc_self ..
  refine hi.stay hp hthr (fun x e hd hph he => ?_) (fun x hx => ?_)
    (by rw [hpt]; rfl) (fun _ => ⟨hlive.1, hlive.2.1⟩)
  · have hxu : x ≠ u := by
      rintro rfl
      rw [hpu] at hph
      cases hph
    have hd' : s.thr.desc x = some e := (update_of_ne hxu _ _).symm.trans hd
    by_cases hxt : x = t
    · subst hxt
      exact hi.tls x e hd' hlive.1 hlive.2.1
    · have hx : thr.pc x = s.thr.pc x := (goto_pc_of_ne _ _ hxt).trans (goto_pc_of_ne _ _ hxu)
      rw [hx] at hph he
      exact hi.tls x e hd' hph he
  · by_cases hxu : x = u
    · subst hxu
      rw [hpu, hu]
      exact .inr ⟨rfl, rfl, rfl⟩
    · exact .inl ((goto_pc_of_ne _ _ hx).trans (goto_pc_of_ne _ _ hxu))

section
variable (hi : Inv s)
include hi

theorem inv_lifeStep (hp : s.pc t = .user d) (hl : lifecycle (s.thr.pc t) = true)
    (h : lifeStep s t = some s') :
    Inv s' := by
  unfold lifeStep at h
  rw [map_eq_some_iff] at h
  obtain ⟨thr, hx, rfl⟩ := h
  have hcalm : Calm s.thr (.exec t) := by
    intro u hu
    rw [hu] at hl
    cases hl
  have hthr : Thread.Inv thr := Thread.inv_step hi.thr hcalm hx
  have hls := lifeStep_exec hi.thr hl hx
  have hplain : (s.pc t).plain = true := by rw [hp]; rfl
  have htls : TlsSet thr := by
    intro x e hd hph he
    obtain ⟨e₀, hd₀, ht | ⟨hne, ht⟩⟩ := hls.tls x e hd
    · exact ht
    · rw [ht]
      by_cases hxt : x = t
      · subst hxt
        exact hi.tls x e₀ hd₀ (hls.phase hph) (early_lifecycle hl (hne rfl))
      · rcases hls.pc x hxt with h | ⟨-, h⟩
        · rw [h] at hph he
          exact hi.tls x e₀ hd₀ hph he
        · rw [h] at he
          cases he
  have hother : Aside s.thr thr t := by
    intro x hx
    refine (hls.pc x hx).imp id fun ⟨h1, h2⟩ => ?_
    rw [h1, h2]
    exact ⟨rfl, rfl, rfl⟩
  split
  · next hinit =>
    exact hi.move hplain (.inr ⟨rfl, by rw [hinit]; rfl⟩) hthr htls hother hls.late
      (fun h => by cases h) (by simp)
  · next hinit =>
    exact hi.stay hp hthr htls hother hls.late
      fun h => ⟨hls.phase h, early_lifecycle hl hinit⟩

theorem tls_call (ht : Live s t) : TlsSet (s.thr.goto t p) := by
  intro x e hd hph he
  by_cases hxt : x = t
  · subst hxt
    exact hi.tls x e hd ht.1 ht.2.1
  · rw [goto_pc_of_ne _ _ hxt] at hph he
    exact hi.tls x e hd hph he

theorem inv_cleanStep (hl : s.mapLock = none) (h0 : s.map.init = true) {f : Frame}
    (hp : s.pc t = .cleaning f) (ht : Live s t) (h : cleanStep s t f = some s') : Inv s' := by
  unfold cleanStep at h
  split at h
  · next k f' hk =>
    cases h
    have h₁ := hi.write hl h0 ht (k := k) (.inr rfl)
    exact h₁.goto ht (show (s.pc t).plain = true by rw [hp]; rfl) rfl (by simp)
  · rw [map_eq_some_iff] at h
    obtain ⟨thr, hx, rfl⟩ := h
    have hthr : Thread.Inv thr := Thread.inv_step hi.thr (a := .exit t f.retval) trivial hx
    simp only [Thread.step, ite_none_right_eq_some, Option.some.injEq] at hx
    obtain ⟨ho, rfl⟩ := hx
    exact hi.move (by rw [hp]; rfl) (.inl rfl) hthr (tls_call hi ht)
      (fun x hx => .inl (goto_pc_of_ne _ _ hx)) (by rw [goto_pc_self]; rfl)
      (fun _ _ => ⟨ht.1, ht.2.1⟩) (by simp)

/-- A store of `NULL` by `__init_tls` or by a deletion. -/
theorem Inv.clear (hu : Live s u → Deleting s k) : Inv (s.setSlot u k 0) := by
  have harea : ∀ x j, (s.setSlot u k 0).area x j = if x = u ∧ j = k then 0 else s.area x j :=
    update_slot s.area u k 0
  have hzero : ∀ x j, s.area x j = 0 → (s.setSlot u k 0).area x j = 0 := by
    intro x j h
    rw [harea, h, ite_self]
  refine ⟨hi.thr, hi.tls, hi.young, fun x n hx j h1 h2 => hzero x j (hi.zeroed x n hx j h1 h2),
    hi.fresh, fun x j hx hj hm => hzero x j (hi.empty x j hx hj hm), fun x j hx hj hm => ?_,
    hi.deleter, hi.cleaner,
    fun x j d rest hx hr y hy hn => hzero y j (hi.walk x j d rest hx hr y hy hn)⟩
  by_cases h : x = u ∧ j = k
  · obtain ⟨rfl, rfl⟩ := h
    exact .inr ⟨by rw [harea, if_pos ⟨rfl, rfl⟩], hu hx⟩
  · rw [harea, if_neg h]
    exact hi.kept x j hx hj hm

theorem inv_zero {n : Nat} (hp : s.pc t = .zeroing n) :
    Inv ((s.setSlot t n 0).goto t (.zeroing (n + 1))) := by
  have hdead : ¬ Live s t := by
    rintro ⟨-, -, h⟩
    rw [hp] at h
    cases h
  have h₁ : Inv (s.setSlot t n 0) := hi.clear fun h => absurd h hdead
  have hp₁ : (s.setSlot t n 0).pc t = .zeroing n := hp
  have hself := goto_pc (s.setSlot t n 0) t (.zeroing (n + 1))
  have hm := moved_goto (s.setSlot t n 0) t (.zeroing (n + 1))
  refine h₁.frame rfl rfl rfl rfl hi.thr hi.tls (fun x hx => ?_) (fun x hx => ?_)
    (fun x m hx j h1 h2 => ?_) (hm.deleting (by rw [hp₁]; simp) (by rw [hself]; simp))
    (fun _ _ _ _ => rfl) (fun x f => hm.cleaner h₁ (by rw [hself]; simp))
  · rcases hm.live hx with rfl | h
    · have hz := hx.2.2
      rw [hself] at hz
      cases hz
    · exact h
  · unfold Young at hx
    by_cases hxt : x = t
    · rw [hxt, Young, hp₁]
      exact .inr rfl
    · rwa [hm.pc x hxt] at hx
  · rcases goto_pc_eq hx with ⟨rfl, hn⟩ | ⟨-, hx⟩
    · cases hn
      by_cases hj : j = n
      · rw [hj]
        exact (update_slot s.area x n 0 x n).trans (if_pos ⟨rfl, rfl⟩)
      · exact h₁.zeroed x n hp j h1 (by omega)
    · exact h₁.zeroed x m hx j h1 h2

/-- The end of `__init_tls`: every slot is `NULL`, and the thread has stored nothing yet. -/
theorem inv_started {n : Nat} (hp : s.pc t = .zeroing n) (hn : tlsmapSize ≤ n) :
    Inv (s.goto t (.user none)) := by
  have hself := goto_pc s t (.user none)
  have hm := moved_goto s t (.user none)
  have hzero : ∀ k, tlsmapValidateKey k = true → s.area t k = 0 := by
    intro k hk
    rw [tlsmapValidateKey, decide_eq_true_eq] at hk
    have h1 : tlsmapStart = tlsSlotErrno + 1 := rfl
    exact hi.zeroed t n hp k (by omega) (by omega)
  have hdel := hm.deleting (by simp [hp]) (by simp [hself])
  refine ⟨hi.thr, hi.tls, fun x k hx => ?_, fun x _ => hm.zeroed hi (by simp [hself]), hi.fresh,
    fun x k hx hk hmap => ?_, fun x k hx hk hmap => ?_,
    fun x k d hx => hi.deleter x k d ((hdel x k d).1 hx),
    fun x _ => hm.cleaner hi (by simp [hself]), fun x k d rest hx hr y hy hny => ?_⟩
  · refine hi.young x k ?_
    by_cases hxt : x = t
    · rw [hxt, hp]
      exact .inr rfl
    · rwa [hm.pc x hxt] at hx
  · rcases hm.live hx with rfl | hx
    · exact hzero k hk
    · exact hi.empty x k hx hk hmap
  · rcases hm.live hx with rfl | hx
    · left
      change s.area x k = s.stored x k
      rw [hzero k hk, hi.young x k (.inr (by rw [hp]; rfl))]
    · exact (hi.kept x k hx hk hmap).imp id fun ⟨h0, u, d, hd⟩ => ⟨h0, u, d, (hdel u k d).2 hd⟩
  · have hx' := (hdel x k d).1 hx
    rcases hm.live hy with rfl | hy
    · exact hzero k (hi.deleter x k d hx').2.1
    · exact hi.walk x k d rest hx' hr y hy hny

theorem inv_keyDelete (hl : s.mapLock = none) (hp : s.pc t = .user d) (ht : Live s t)
    (hk : tlsmapValidateKey k = true) (h : keyDelete s t k d = some s') : Inv s' := by
  unfold keyDelete at h
  split at h
  · rw [map_eq_some_iff] at h
    obtain ⟨thr, hx, rfl⟩ := h
    have hthr : Thread.Inv thr := Thread.inv_step hi.thr (a := .keyDelete t) trivial hx
    simp only [Thread.step, ite_none_right_eq_some, Option.some.injEq] at hx
    obtain ⟨ho, rfl⟩ := hx
    set s' := { s with thr := s.thr.goto t .deleteLock, mapLock := some t }.goto t (.deleting k d)
    have hself : s'.pc t = .deleting k d := update_self ..
    have hthrt : s'.thr.pc t = .deleteLock := goto_pc_self ..
    have hm : Moved s s' t := ⟨fun _ hx => update_of_ne hx _ _, fun _ hx => goto_pc_of_ne _ _ hx⟩
    have hdel : ∀ x j d', s'.pc x = .deleting j d' → x = t ∧ j = k := by
      intro x j d' h
      rcases goto_pc_eq h with ⟨hxt, h⟩ | ⟨-, h⟩
      · cases h
        exact ⟨hxt, rfl⟩
      · exact absurd h (hi.no_deletion hl)
    refine ⟨hthr, tls_call hi ht, fun x j hx => hi.young x j ?_,
      fun x _ => hm.zeroed hi (by simp [hself]), hi.fresh,
      fun x j hx => hi.empty x j (hm.live_of ht hx), fun x j hx hj hmap => ?_, fun x j d' hx => ?_,
      fun x _ => hm.cleaner hi (by simp [hself]), fun x j d' rest hx hr => ?_⟩
    · exact hm.young (by rw [hthrt]; rfl) (by rw [hself]; rfl) hx
    · exact .inl (hi.kept_free hl (hm.live_of ht hx) hj hmap)
    · obtain ⟨rfl, rfl⟩ := hdel x j d' hx
      exact ⟨rfl, hk, by rw [hthrt]; rfl⟩
    · obtain ⟨rfl, rfl⟩ := hdel x j d' hx
      rw [hthrt] at hr
      cases hr
  · cases h
    exact inv_setRet hi t _

theorem Inv.walks {l : Option T} (hp : s.pc t = .deleting k d) (hd : deletes p = true)
    (hthr : Thread.Inv ({ s.thr with lock := l }.goto t p))
    (hw : ∀ rest, p = .deleteWalk rest → ∀ x, Live s x → x ∉ rest → s.area x k = 0) :
    Inv { s with thr := { s.thr with lock := l }.goto t p } := by
  have hrun : ∀ q : Thread.Pc T, deletes q = true → q.phase = .running ∧ early q = false := by
    intro q hq
    cases q with
    | deleteLock | deleteWalk => exact ⟨rfl, rfl⟩
    | _ => cases hq
  have ht := hrun _ (hi.deleter t k d hp).2.2
  have hlt : Live s t := ⟨ht.1, ht.2, by rw [hp]; rfl⟩
  set s' := { s with thr := { s.thr with lock := l }.goto t p }
  have hthrt : s'.thr.pc t = p := goto_pc_self ..
  have hp' : s'.pc t = .deleting k d := hp
  have hm : Moved s s' t := ⟨fun _ _ => rfl, fun _ hx => goto_pc_of_ne _ _ hx⟩
  refine ⟨hthr, tls_call hi hlt, fun x j hx => hi.young x j ?_, hi.zeroed, hi.fresh,
    fun x j hx => hi.empty x j (hm.live_of hlt hx), fun x j hx => hi.kept x j (hm.live_of hlt hx),
    fun x j d' hx => ?_, fun x _ => hm.cleaner hi (by simp [hp']),
    fun x j d' rest hx hr y hy hn => ?_⟩
  · exact hm.young (by rw [hthrt, (hrun p hd).2]) (by rw [hp']; rfl) hx
  · obtain ⟨h1, h2, h3⟩ := hi.deleter x j d' hx
    refine ⟨h1, h2, ?_⟩
    by_cases hxt : x = t
    · rwa [hxt, hthrt]
    · rwa [hm.thr x hxt]
  · obtain ⟨rfl, rfl⟩ := hi.deleting_unique hp hx
    rw [hthrt] at hr
    exact hw rest hr y (hm.live_of hlt hy) hn

omit [DecidableEq T] in
/-- The store of the walk clears the slot of a live thread. -/
theorem not_skipped (hu : Live s u) :
    ((s.thr.desc u).map Desc.skipped).getD true = false := by
  have hf := hi.thr.fits u
  rw [hu.1] at hf
  obtain ⟨e, hd, -, -, -, -, hc⟩ := hf
  have htls := hi.tls u e hd hu.1 hu.2.1
  rw [hd]
  simp [Desc.skipped, htls, hc]

theorem inv_deleteEnd (hp : s.pc t = .deleting k d) (hw : s.thr.pc t = .deleteWalk [])
    (hthr : Thread.Inv ({ s.thr with lock := none }.goto t (.returned .keyDeleted))) :
    Inv ({ s with
      thr := { s.thr with lock := none }.goto t (.returned .keyDeleted)
      map := tlsmapClear s.map k
      mapLock := none }.goto t (.user d)) := by
  have hlt : Live s t := ⟨by rw [hw]; rfl, by rw [hw]; rfl, by rw [hp]; rfl⟩
  set s' := { s with
      thr := { s.thr with lock := none }.goto t (.returned .keyDeleted)
      map := tlsmapClear s.map k
      mapLock := none }.goto t (.user d)
  have hself : s'.pc t = .user d := update_self ..
  have hthrt : s'.thr.pc t = .returned .keyDeleted := goto_pc_self ..
  have hm : Moved s s' t := ⟨fun _ hx => update_of_ne hx _ _, fun _ hx => goto_pc_of_ne _ _ hx⟩
  have hnone : ∀ x j d', s'.pc x ≠ .deleting j d' := by
    intro x j d' h
    rcases goto_pc_eq h with ⟨-, h⟩ | ⟨hxt, h⟩
    · cases h
    · exact hxt (hi.deleting_unique hp h).1
  refine ⟨hthr, tls_call hi hlt, fun x j hx => hi.young x j ?_,
    fun x _ => hm.zeroed hi (by simp [hself]), fun h => ?_, fun x j hx hj hmap => ?_,
    fun x j hx hj hmap => .inl ?_, fun x j d' hx => absurd hx (hnone x j d'),
    fun x _ => hm.cleaner hi (by simp [hself]), fun x j d' rest hx => absurd hx (hnone x j d')⟩
  · exact hm.young (by rw [hthrt]; rfl) (by rw [hself]; rfl) hx
  · obtain ⟨h1, h2⟩ := hi.fresh h
    refine ⟨fun j => ?_, h2⟩
    rw [← Bool.not_eq_true]
    intro hj
    have := ((tlsmapTest_clear s.map j k).1 hj).2
    rw [h1 j] at this
    cases this
  · by_cases hjk : j = k
    · rw [hjk]
      exact hi.walk t k d [] hp hw x (hm.live_of hlt hx) (by simp)
    · refine hi.empty x j (hm.live_of hlt hx) hj ?_
      rw [← Bool.not_eq_true] at hmap ⊢
      exact fun h => hmap ((tlsmapTest_clear s.map j k).2 ⟨hjk, h⟩)
  · obtain ⟨hjk, hm'⟩ := (tlsmapTest_clear s.map j k).1 hmap
    rcases hi.kept x j (hm.live_of hlt hx) hj hm' with h | ⟨-, u, d', h⟩
    · exact h
    · exact absurd (hi.deleting_unique hp h).2 hjk

theorem inv_deleteStep (hp : s.pc t = .deleting k d) (h : deleteStep s t k d = some s') :
    Inv s' := by
  have hdel := (hi.deleter t k d hp).2.2
  unfold deleteStep at h
  rw [map_eq_some_iff] at h
  obtain ⟨thr, hx, rfl⟩ := h
  have hcalm : Calm s.thr (.exec t) := by
    intro u hu
    rw [hu] at hdel
    cases hdel
  have hthr : Thread.Inv thr := Thread.inv_step hi.thr hcalm hx
  cases exec_cases hx with
  | deleteLock hq _ =>
    simp only [hq]
    refine hi.walks hp rfl hthr fun rest hr x hx hn => ?_
    cases hr
    -- every live thread is in the list that the walk starts from
    have hf := hi.thr.fits x
    rw [hx.1] at hf
    obtain ⟨e, -, -, -, hm, -⟩ := hf
    exact absurd hm hn
  | @deleteNext u rest hq =>
    have hdone : ∀ x, Live s x → x ∉ u :: rest → s.area x k = 0 := fun x hx hn =>
      hi.walk t k d _ hp hq x hx hn
    simp only [hq]
    split
    · next hskip =>
      refine hi.walks hp rfl hthr fun rest' hr x hx hn => ?_
      cases hr
      refine hdone x hx fun hm => ?_
      rcases List.mem_cons.1 hm with rfl | hm
      · rw [not_skipped hi hx] at hskip
        cases hskip
      · exact hn hm
    · have h₁ : Inv (s.setSlot u k 0) := hi.clear fun _ => ⟨t, d, hp⟩
      refine h₁.walks hp rfl hthr fun rest' hr x hx hn => ?_
      cases hr
      change update s.area u (update (s.area u) k 0) x k = 0
      rw [update_slot]
      split
      · rfl
      · next hxu =>
        refine hdone x hx fun hm => ?_
        rcases List.mem_cons.1 hm with rfl | hm
        · exact hxu ⟨rfl, rfl⟩
        · exact hn hm
  | deleteEnd hq =>
    simp only [hq]
    exact inv_setRet (inv_deleteEnd hi hp hq hthr) t _
  | _ hq =>
    rw [hq] at hdel
    cases hdel

theorem inv_step {a : Act T} (h : step s a = some s') : Inv s' := by
  revert h
  fun_cases step s a with
  | case1 t u det d hp =>
    intro h
    obtain ⟨thr, hx, rfl⟩ := map_eq_some_iff.1 h
    exact inv_create hi hp hx
  | case3 t dtor _ _ hc =>
    rintro ⟨⟩
    exact inv_keyCreate (inv_lockMap hi) hc.2 s.map.lock_init t dtor
  | case6 t k v d hp ho _ hl =>
    rintro ⟨⟩
    have ht : Live s t := live_of_outside ho (by rw [hp]; rfl)
    exact inv_setspecific (inv_lockMap hi) hl s.map.lock_init ht k v
  | case8 t | case13 t =>
    rintro ⟨⟩
    exact inv_setRet hi t _
  | case11 t k d hp ho hk hl =>
    have ht : Live s t := live_of_outside ho (by rw [hp]; rfl)
    exact inv_keyDelete (inv_lockMap hi) hl hp ht hk
  | case16 t _ _ hp ho | case19 t _ hp ho =>
    rintro ⟨⟩
    exact hi.goto (live_of_outside ho (by rw [hp]; rfl)) (by rw [hp]; rfl) rfl fun _ _ => ho
  | case22 t d hp hl => exact inv_lifeStep hi hp hl
  | case24 t n hp =>
    rintro ⟨⟩
    exact inv_zero hi hp
  | case25 t n hp hn =>
    rintro ⟨⟩
    exact inv_started hi hp (by omega)
  | case26 t f hp hl =>
    have ht : Live s t := live_of_outside (hi.cleaner t f hp) (by rw [hp]; rfl)
    exact inv_cleanStep (inv_lockMap hi) hl s.map.lock_init hp ht
  | case28 t k d hp => exact inv_deleteStep hi hp
  | _ => rintro ⟨⟩

end

theorem inv_init (h : init s) : Inv s := by
  obtain ⟨m, hthr, -, hmap, harea, hpc, hst⟩ := h
  have htest : ∀ k, tlsmapTest s.map k = false := by
    intro k
    rw [hmap]
    simp [tlsmapTest, test]
  have hlive : ∀ t, (s.thr.pc t).phase = .running → t = m := by
    intro t ht
    by_contra hne
    rw [hthr] at ht
    simp [booted, hne, Thread.Pc.phase] at ht
  refine ⟨hthr ▸ Thread.inv_booted m, fun t e hd ht _ => ?_, fun t k _ => hst t k,
    fun t n hp => ?_, fun _ => ⟨htest, hst⟩, fun t k ht hk _ => ?_, fun t k _ _ hm => ?_,
    fun t k d hp => ?_, fun t f hp => ?_, fun t k d rest hp => ?_⟩
  · rw [hlive t ht, hthr] at hd
    simp [booted] at hd
    rw [← hd]
    rfl
  · rw [hpc t] at hp
    cases hp
  · rw [hlive t ht.1]
    rw [tlsmapValidateKey, decide_eq_true_eq] at hk
    have h1 : tlsmapStart = tlsSlotErrno + 1 := rfl
    exact harea k (by omega)
  · rw [htest k] at hm
    cases hm
  · rw [hpc t] at hp
    cases hp
  · rw [hpc t] at hp
    cases hp
  · rw [hpc t] at hp
    cases hp

/-- In user code, where it can call `pthread_getspecific`. -/
def Running (s : State T) (t : T) : Prop := (s.thr.pc t).outside = true ∧ ∃ d, s.pc t = .user d

theorem keyCreate_created {dtor : Word} (h : (keyCreate s u dtor).ret u = some (.created k)) :
    (keyCreate s u dtor).area = s.area ∧ tlsmapTest s.map k = false := by
  unfold keyCreate at h ⊢
  cases ha : tlsmapAlloc s.map dtor with
  | none =>
    rw [ha] at h
    simp [State.setRet] at h
  | some r =>
    rw [ha] at h
    simp only [State.setRet, update_self, Option.some.injEq, Ret.created.injEq] at h
    subst h
    exact ⟨rfl, (tlsmapAlloc_some ha).2.1⟩

/-- The first part of a deletion returns only with an error. -/
theorem keyDelete_not_ok (hs : step s (.keyDelete u k) = some s') (hu : Running s' u) :
    s'.ret u ≠ some .ok := by
  obtain ⟨-, d', hd'⟩ := hu
  simp only [step] at hs
  split at hs
  · split_ifs at hs
    · unfold keyDelete at hs
      split at hs
      · obtain ⟨thr, -, rfl⟩ := map_eq_some_iff.1 hs
        simp [State.goto] at hd'
      · cases hs
        simp [State.setRet]
    · cases hs
      simp [State.setRet]
  · cases hs

/-- A deletion that comes back has gone through the whole list. -/
theorem deleteStep_returned (hp : s.pc u = .deleting k d) (hs : step s (.exec u) = some s')
    (hu : Running s' u) : tlsmapTest s'.map k = false := by
  obtain ⟨-, d', hd'⟩ := hu
  simp only [step, hp, deleteStep] at hs
  obtain ⟨thr, -, rfl⟩ := map_eq_some_iff.1 hs
  split at hd'
  · exact Bool.eq_false_iff.2 fun hm => ((tlsmapTest_clear _ _ _).1 hm).1 rfl
  · split at hd' <;> simp [State.setSlot, hp] at hd'
  · simp [hp] at hd'

/-- **Isolation.**  A running thread reads `NULL` for a key that is not allocated or has just been
created, and for an allocated key the value it stored last; a deletion in progress may have
cleared it.  A deletion that has returned 0 leaves the key not allocated. -/
theorem getspecific_isolated {s : State T} (h : machine.Reachable s) {t : T} (ht : Running s t)
    {k : Nat} (hk : tlsmapStart ≤ k ∧ k < tlsmapSize) :
    (tlsmapTest s.map k = false → pthreadGetspecific s t k = 0) ∧
      (tlsmapTest s.map k = true → pthreadGetspecific s t k = s.stored t k ∨
        pthreadGetspecific s t k = 0 ∧ Deleting s k) ∧
      (∀ u dtor s', step s (.keyCreate u dtor) = some s' → s'.ret u = some (.created k) →
        pthreadGetspecific s' t k = 0) ∧
      ∀ u s', (step s (.keyDelete u k) = some s' ∨
          (∃ d, s.pc u = .deleting k d) ∧ step s (.exec u) = some s') →
        Running s' u → s'.ret u = some .ok → tlsmapTest s'.map k = false := by
  have hi : Inv s :=
    Machine.Reachable.invariant (M := machine) (fun _ h => inv_init h)
      (fun _ _ _ hi hs => inv_step hi hs) h
  obtain ⟨ho, d, hp⟩ := ht
  have hlive : Live s t := live_of_outside ho (by rw [hp]; rfl)
  have hval : tlsmapValidateKey k = true := by
    rw [tlsmapValidateKey, decide_eq_true_eq]
    exact hk
  have hget : ∀ s' : State T, pthreadGetspecific s' t k = s'.area t k := fun s' => by
    rw [pthreadGetspecific, if_pos hval]
  refine ⟨fun hm => ?_, fun hm => ?_, fun u dtor s' hs hr => ?_,
    fun u s' hs hu hr => ?_⟩
  · rw [hget]
    exact hi.empty t k hlive hval hm
  · rw [hget]
    exact hi.kept t k hlive hval hm
  · rw [hget]
    simp only [step] at hs
    split at hs
    · simp only [ite_none_right_eq_some, Option.some.injEq] at hs
      obtain ⟨-, rfl⟩ := hs
      obtain ⟨ha, hfree⟩ := keyCreate_created hr
      rw [ha]
      exact (inv_lockMap hi).empty t k hlive hval hfree
    · cases hs
  · rcases hs with hs | ⟨⟨d, hp⟩, hs⟩
    · exact absurd hr (keyDelete_not_ok hs hu)
    · exact deleteStep_returned hp hs hu

def storeRun : List (Act Bool) := [.keyCreate false 0, .setspecific false 5 9]

def bootedTls : State Bool where
  thr := booted false
  mapLock := none
  map := ⟨false, fun _ => 0, fun _ => 0⟩
  area := fun _ _ => 0
  pc := fun _ => .user none
  ret := fun _ => none
  stored := fun _ _ => 0

theorem bootedTls_init : init bootedTls :=
  ⟨false, rfl, rfl, rfl, fun _ _ => rfl, fun _ => rfl, fun _ _ => rfl⟩

theorem getspecific_isolated_stored :
    ∃ s : State Bool, machine.Reachable s ∧ Running s false ∧ tlsmapTest s.map 5 = true ∧
      s.stored false 5 = 9 ∧ (pthreadGetspecific s false 5 = s.stored false 5 ∨
        pthreadGetspecific s false 5 = 0 ∧ Deleting s 5) := by
  obtain ⟨s, hs, hr, hm, hst⟩ : ∃ s, machine.run bootedTls storeRun = some s ∧ Running s false ∧
      tlsmapTest s.map 5 = true ∧ s.stored false 5 = 9 :=
    ⟨_, rfl, ⟨rfl, none, rfl⟩, rfl, rfl⟩
  have hreach : machine.Reachable s := .run (.init bootedTls_init) _ hs
  exact ⟨s, hreach, hr, hm, hst, (getspecific_isolated hreach hr (by decide)).2.1 hm⟩

/-- Another thread is started, and deletes the key after the store; it has walked past both. -/
def clearedRun : List (Act Bool) :=
  [.create false true false, .exec false, .exec false, .exec true] ++
    List.replicate (tlsmapSize - tlsSlotErrno + 1) (.exec true) ++ storeRun ++
    [.keyDelete true 5, .exec true, .exec true, .exec true]

theorem getspecific_cleared :
    ∃ s : State Bool, machine.Reachable s ∧ Running s false ∧ tlsmapTest s.map 5 = true ∧
      s.stored false 5 = 9 ∧ pthreadGetspecific s false 5 = 0 := by
  obtain ⟨s, hs, h⟩ : ∃ s, machine.run bootedTls clearedRun = some s ∧ Running s false ∧
      tlsmapTest s.map 5 = true ∧ s.stored false 5 = 9 ∧ pthreadGetspecific s false 5 = 0 :=
    ⟨_, rfl, ⟨rfl, none, rfl⟩, rfl, rfl, rfl⟩
  exact ⟨s, .run (.init bootedTls_init) _ hs, h⟩

end

end Pthread.Tls
