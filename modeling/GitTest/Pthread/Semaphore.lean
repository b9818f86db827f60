import GitTest.Lib.Transition
import GitTest.Lib.Futex
import GitTest.Lib.Count
import GitTest.Pthread.Word
import GitTest.Pthread.Timespec

/-!
# Semaphores (libc/bionic/semaphore.c)

`sem_wait`, `sem_trywait`, `sem_timedwait` and `sem_post` on one semaphore, run by the threads
of any type `T`.  The count is one word: a signed value in the upper 31 bits, the shared flag
in bit 0; the value -1 says that a thread may be asleep.  Each read of the word, each
`__atomic_cmpxchg`, the clock check, the compare-and-sleep of the futex wait and the futex
wake is one step.  `__sem_dec`, `__sem_trydec` and `__sem_inc` are one loop with the round of
each, and a thread's place keeps the locals of the loop and of its caller.

The ghosts `posts` and `waits` count the increments of `sem_post` and the decrements with which
a wait succeeds; `zeros` counts the posts that returned 0.

    run s₀ acts = some s → the value is in range, its positive part is the initial value and the
      posts less the waits, each return of 0 is counted, and the shared bit is the initial one
      (sem_conservation)
    Reachable s → a sleeper next to a value above -1 has a poster that has not yet made its wake
      (sem_no_lost_wakeup)
-/

namespace Pthread.Semaphore

open Counting Function Futex Machines

/-! ## The count -/

def semcountSharedMask : Word := 0x00000001
def semcountValueMask : Word := 0xfffffffe
def semcountValueShift : Nat := 1
def semMaxValue : Nat := 0x3fffffff

def semcountFromValue (val : Word) : Word := (val <<< semcountValueShift) &&& semcountValueMask

/-- An arithmetic shift of the `int`. -/
def semcountToValue (sval : Word) : Int := (sval.sshiftRight semcountValueShift).toInt

def semcountOne : Word := semcountFromValue 1
def semcountMinusOne : Word := semcountFromValue (-1)

def semcountDecrement (sval : Word) : Word :=
  (sval - ((1 : Word) <<< semcountValueShift)) &&& semcountValueMask

def semcountIncrement (sval : Word) : Word :=
  (sval + ((1 : Word) <<< semcountValueShift)) &&& semcountValueMask

/-- The count stored by `sem_init`; `none` is the `EINVAL` return. -/
def semInit (pshared value : Word) : Option Word :=
  if semMaxValue < value.toNat then none
  else
    let count := semcountFromValue value
    some (if pshared ≠ 0 then count ||| semcountSharedMask else count)

/-! ## Algorithm -/

/-- The functions; `sem_timedwait` has a time or `NULL`. -/
inductive Call
  | wait
  | trywait
  | timedwait (abs : Option Timespec)
  | post
  deriving DecidableEq, Repr

inductive Errno
  | einval
  | eagain
  | etimedout
  | eintr
  | eoverflow
  deriving DecidableEq, Repr

/-- The caller of a loop on the count, with its locals. -/
inductive Caller
  /-- `__sem_dec` in `sem_wait` (no time) or `sem_timedwait` -/
  | dec (abs : Option Timespec) (shared : Word)
  /-- `__sem_trydec` in `sem_trywait` -/
  | trywait
  /-- `__sem_trydec` in `sem_timedwait`, before the check of the time -/
  | timedwait (abs : Option Timespec)
  /-- `__sem_inc` in `sem_post` -/
  | inc (shared : Word)
  deriving DecidableEq, Repr

inductive Pc
  /-- Outside the semaphore functions, with the last result if any; `none` is success. -/
  | idle
  | returned (c : Call) (err : Option Errno)
  /-- `shared = SEM_GET_SHARED(sem)` in `sem_wait`, `sem_timedwait` and `sem_post` -/
  | waitShared
  | timedShared (abs : Timespec)
  | postShared
  /-- `shared = (*pvalue & SEMCOUNT_SHARED_MASK)` at the start of a loop -/
  | loopShared (c : Caller)
  /-- `old = (*pvalue & SEMCOUNT_VALUE_MASK)` -/
  | loopRead (c : Caller) (shared : Word)
  /-- `__atomic_cmpxchg(old|shared, new|shared, pvalue)`, where `ret` is the value of `old` -/
  | loopSwap (c : Caller) (shared old : Word) (ret : Int) (new : Word)
  /-- `clock_gettime(CLOCK_REALTIME, &ts)` and the check of the time left -/
  | clock (abs : Timespec) (shared : Word)
  /-- `__futex_wait_ex(&sem->count, shared, shared|SEMCOUNT_MINUS_ONE, ..)` -/
  | futexWait (abs : Option Timespec) (shared : Word)
  /-- In the kernel: asleep while it has a queue entry, about to return 0 when it has none. -/
  | blocked (abs : Option Timespec) (shared : Word)
  /-- `__futex_wake_ex(&sem->count, shared, INT_MAX)` -/
  | wake (shared : Word)
  deriving DecidableEq, Repr

/-- A round of a loop after its read: leave the loop, or try to store. -/
inductive Round
  | stop (ret : Int)
  | swap (ret : Int) (new : Word)

def semDec (old : Word) : Round :=
  let ret := semcountToValue old
  if ret < 0 then .stop ret else .swap ret (semcountDecrement old)

def semTrydec (old : Word) : Round :=
  let ret := semcountToValue old
  if ret ≤ 0 then .stop ret else .swap ret (semcountDecrement old)

def semInc (old : Word) : Round :=
  let ret := semcountToValue old
  if ret = semMaxValue then .stop ret
  else .swap ret (if ret < 0 then semcountOne else semcountIncrement old)

def Caller.round : Caller → Word → Round
  | .dec _ _ => semDec
  | .trywait | .timedwait _ => semTrydec
  | .inc _ => semInc

/-- The check of the time in `sem_timedwait`. -/
def validTimeout : Option Timespec → Option Timespec
  | none => none
  | some abs =>
    if abs.sec < 0 ∨ abs.nsec < 0 ∨ abs.nsec ≥ 1000000000 then none else some abs

/-- Where the caller goes on when its loop has returned `ret`. -/
def Caller.next : Caller → Int → Pc
  | .dec none shared, ret => if ret > 0 then .returned .wait none else .futexWait none shared
  | .dec (some abs) shared, ret =>
    if ret > 0 then .returned (.timedwait (some abs)) none else .futexWait (some abs) shared
  | .trywait, ret =>
    if ret > 0 then .returned .trywait none else .returned .trywait (some .eagain)
  | .timedwait abs, ret =>
    if ret > 0 then .returned (.timedwait abs) none
    else
      match validTimeout abs with
      | none => .returned (.timedwait abs) (some .einval)
      | some ts => .timedShared ts
  | .inc shared, ret =>
    if ret < 0 then .wake shared
    else if ret = semMaxValue then .returned .post (some .eoverflow)
    else .returned .post none

/-- Where a thread goes on when its futex wait has ended, `err` being the kernel's error. -/
def afterWait (abs : Option Timespec) (shared : Word) (err : Option Errno) : Pc :=
  match abs with
  | none => .loopShared (.dec none shared)
  | some ts =>
    if err = some .etimedout ∨ err = some .eintr then .returned (.timedwait (some ts)) err
    else .clock ts shared

structure Tally where
  posts : Nat
  waits : Nat
  zeros : Nat

/-- A loop of `c` has stored, having read the value `ret`. -/
def Tally.stored (k : Tally) (c : Caller) (ret : Int) : Tally :=
  match c with
  | .dec _ _ | .trywait | .timedwait _ => if ret > 0 then { k with waits := k.waits + 1 } else k
  | .inc _ =>
    { k with
      posts := k.posts + 1
      zeros := if ret < 0 then k.zeros else k.zeros + 1 }

structure Local where
  count : Word
  tally : Tally
  pc : Pc

def exec (count : Word) (k : Tally) : Pc → Option Local
  | .waitShared => some ⟨count, k, .loopShared (.dec none (count &&& semcountSharedMask))⟩
  | .timedShared abs => some ⟨count, k, .clock abs (count &&& semcountSharedMask)⟩
  | .postShared => some ⟨count, k, .loopShared (.inc (count &&& semcountSharedMask))⟩
  | .loopShared c => some ⟨count, k, .loopRead c (count &&& semcountSharedMask)⟩
  | .loopRead c shared =>
    let old := count &&& semcountValueMask
    match c.round old with
    | .stop ret => some ⟨count, k, c.next ret⟩
    | .swap ret new => some ⟨count, k, .loopSwap c shared old ret new⟩
  | .loopSwap c shared old ret new =>
    let r := atomicCmpxchg (old ||| shared) (new ||| shared) count
    if r.2 ≠ 0 then some ⟨r.1, k, .loopRead c shared⟩
    else some ⟨r.1, k.stored c ret, c.next ret⟩
  | .idle | .returned _ _ | .clock _ _ | .futexWait _ _ | .blocked _ _ | .wake _ => none

structure State (T : Type) where
  count : Word
  queue : Queue T
  pc : T → Pc
  tally : Tally

def State.value {T : Type} (s : State T) : Int := semcountToValue s.count

inductive Act (T : Type)
  | call (t : T) (c : Call)
  | exec (t : T)
  | clock (t : T) (now : Timespec)
  | futexWait (t : T)
  /-- A sleeper leaves the queue by itself: a timeout, a signal or (without error) spuriously. -/
  | giveUp (t : T) (err : Option Errno)
  | resume (t : T)
  | futexWake (t : T)

def Call.start : Call → Pc
  | .wait => .waitShared
  | .trywait => .loopShared .trywait
  | .timedwait abs => .loopShared (.timedwait abs)
  | .post => .postShared

section
variable {T : Type} [DecidableEq T]

def State.goto (s : State T) (t : T) (p : Pc) : State T :=
  { s with pc := Function.update s.pc t p }

def step (s : State T) : Act T → Option (State T)
  | .call t c =>
    match s.pc t with
    | .idle | .returned _ _ => some (s.goto t c.start)
    | _ => none
  | .exec t =>
    (exec s.count s.tally (s.pc t)).map fun r =>
      { s.goto t r.pc with count := r.count, tally := r.tally }
  | .clock t now =>
    match s.pc t with
    | .clock abs shared =>
      match timespecToAbsolute abs now with
      | none => some (s.goto t (.returned (.timedwait (some abs)) (some .etimedout)))
      | some _ => some (s.goto t (.loopShared (.dec (some abs) shared)))
    | _ => none
  | .futexWait t =>
    match s.pc t with
    | .futexWait abs shared =>
      if s.count = shared ||| semcountMinusOne then
        some { s.goto t (.blocked abs shared) with queue := sleep s.queue t (pshared shared) }
      else some (s.goto t (afterWait abs shared none))
    | _ => none
  | .giveUp t err =>
    match s.pc t with
    | .blocked abs shared =>
      if asleep s.queue t then
        some { s.goto t (afterWait abs shared err) with queue := leave s.queue t }
      else none
    | _ => none
  | .resume t =>
    match s.pc t with
    | .blocked abs shared =>
      if asleep s.queue t then none else some (s.goto t (afterWait abs shared none))
    | _ => none
  | .futexWake t =>
    match s.pc t with
    | .wake shared =>
      some { s.goto t (.returned .post none) with
        queue := wakeAll s.queue (pshared shared)
        tally := { s.tally with zeros := s.tally.zeros + 1 } }
    | _ => none

/-- Any number of idle threads and a semaphore that `sem_init` gave the value `v`. -/
def init (v : Word) (s : State T) : Prop :=
  (∃ pshared, semInit pshared v = some s.count) ∧ s.queue = [] ∧ (∀ t, s.pc t = .idle) ∧
    s.tally = ⟨0, 0, 0⟩

/-- Semaphores of any initial value that `sem_init` accepts. -/
def machine : Machine (State T) (Act T) := ⟨fun s => ∃ v, init v s, step⟩

end

/-! ## The count as a number

The word of the value `n` and the shared flag `sh` is `tagged sh n`. -/

open BitField

def InRange (n : Int) : Prop := -1 ≤ n ∧ n ≤ semMaxValue

def IsFlag (sh : Word) : Prop := sh = 0 ∨ sh = semcountSharedMask

variable {sh : Word} {n : Int}

theorem IsFlag.toNat_lt (h : IsFlag sh) : sh.toNat < 2 := by
  rcases h with rfl | rfl <;> decide

theorem tagged_shared (h : IsFlag sh) (n : Int) :
    tagged sh n &&& semcountSharedMask = sh :=
  tagged_and_one h.toNat_lt n

theorem tagged_value (h : IsFlag sh) (n : Int) :
    tagged sh n &&& semcountValueMask = tagged 0 n :=
  tagged_and_not_one h.toNat_lt n

theorem semcountToValue_tagged (h : IsFlag sh) (hn : InRange n) :
    semcountToValue (tagged sh n) = n := by
  have hm : ((semMaxValue : Nat) : Int) = 1073741823 := rfl
  obtain ⟨h1, h2⟩ := hn
  exact toInt_tagged_shift h.toNat_lt (by omega) (by omega)

theorem tagged_inj (h : IsFlag sh) {m : Int} (hm : InRange m) (hn : InRange n)
    (he : tagged sh m = tagged sh n) : m = n := by
  rw [← semcountToValue_tagged h hm, he, semcountToValue_tagged h hn]

theorem semcountDecrement_tagged (n : Int) :
    semcountDecrement (tagged 0 n) = tagged 0 (n - 1) :=
  tagged_sub_two (by decide) n

theorem semcountIncrement_tagged (n : Int) :
    semcountIncrement (tagged 0 n) = tagged 0 (n + 1) :=
  tagged_add_two (by decide) n

theorem semcountFromValue_eq (x : Word) : semcountFromValue x = tagged 0 x.toNat := by
  apply BitVec.eq_of_toNat_eq
  change (x <<< 1 &&& 0xfffffffe).toNat = _
  rw [toNat_and_not_one, BitVec.toNat_shiftLeft, toNat_tagged_zero]
  omega

theorem or_semcountMinusOne (h : IsFlag sh) :
    sh ||| semcountMinusOne = tagged sh (-1) := by
  rcases h with rfl | rfl <;> decide

/-- `sem_init` accepts the values up to the maximum and stores the value and the flag. -/
theorem semInit_eq {pshared v count : Word} (h : semInit pshared v = some count) :
    InRange v.toNat ∧ ∃ sh, IsFlag sh ∧ count = tagged sh v.toNat := by
  unfold semInit at h
  split at h
  · cases h
  · next hle =>
    refine ⟨⟨by omega, by omega⟩, ?_⟩
    simp only [Option.some.injEq] at h
    rw [semcountFromValue_eq] at h
    split at h
    · refine ⟨semcountSharedMask, .inr rfl, ?_⟩
      rw [← h, tagged_zero_or (by decide)]
    · exact ⟨0, .inl rfl, h.symm⟩

/-! ## What a step can do to the count -/

/-- The caller's local `shared`, where it has one, is the flag `sh`. -/
def Caller.Knows (sh : Word) : Caller → Prop
  | .dec _ x | .inc x => x = sh
  | .trywait | .timedwait _ => True

/-- The loop of the caller tries to store when it has read the value `n`. -/
def Caller.Swaps : Caller → Int → Prop
  | .dec _ _, n => 0 ≤ n
  | .trywait, n | .timedwait _, n => 0 < n
  | .inc _, n => n ≠ semMaxValue

/-- The value the loop stores in place of `n`. -/
def Caller.target : Caller → Int → Int
  | .dec _ _, n | .trywait, n | .timedwait _, n => n - 1
  | .inc _, n => if n < 0 then 1 else n + 1

/-- The thread's locals come from a count with the flag `sh`. -/
def Pc.Knows (sh : Word) : Pc → Prop
  | .loopShared c => c.Knows sh
  | .loopRead c x => c.Knows sh ∧ x = sh
  | .loopSwap c x old ret new =>
    c.Knows sh ∧ x = sh ∧ InRange ret ∧ c.Swaps ret ∧ old = tagged 0 ret ∧
      new = tagged 0 (c.target ret)
  | .clock _ x | .futexWait _ x | .blocked _ x | .wake x => x = sh
  | .idle | .returned _ _ | .waitShared | .timedShared _ | .postShared => True

/-- The poster moved the value away from -1 and has not yet made its wake. -/
def Pc.waking : Pc → Bool
  | .wake _ => true
  | .idle | .returned _ _ | .waitShared | .timedShared _ | .postShared | .loopShared _
  | .loopRead _ _ | .loopSwap _ _ _ _ _ | .clock _ _ | .futexWait _ _ | .blocked _ _ => false

def Pc.inKernel : Pc → Bool
  | .blocked _ _ => true
  | .idle | .returned _ _ | .waitShared | .timedShared _ | .postShared | .loopShared _
  | .loopRead _ _ | .loopSwap _ _ _ _ _ | .clock _ _ | .futexWait _ _ | .wake _ => false

theorem afterWait_knows (abs : Option Timespec) (sh : Word) (err : Option Errno) :
    (afterWait abs sh err).Knows sh ∧ (afterWait abs sh err).waking = false ∧
      (afterWait abs sh err).inKernel = false := by
  unfold afterWait
  cases abs with
  | none => exact ⟨rfl, rfl, rfl⟩
  | some ts =>
    dsimp only
    split
    · exact ⟨trivial, rfl, rfl⟩
    · exact ⟨rfl, rfl, rfl⟩

/-- A loop that returns a value of at least 0 leaves no wake to be made. -/
theorem Caller.next_knows {c : Caller} (h : c.Knows sh) (ret : Int) :
    (c.next ret).Knows sh ∧ (c.next ret).inKernel = false ∧
      ((c.next ret).waking = true → ret < 0 ∧ ∃ x, c = .inc x) := by
  fun_cases Caller.next c ret with
  | case2 | case4 => exact ⟨h, rfl, fun h => by cases h⟩
  | case10 x => exact ⟨h, rfl, fun _ => ⟨‹ret < 0›, x, rfl⟩⟩
  | _ => exact ⟨trivial, rfl, fun h => by cases h⟩

/-- The round of a loop that has read the value `n`. -/
theorem Caller.round_tagged (c : Caller) (hn : InRange n) :
    (c.Swaps n ∧ c.round (tagged 0 n) = .swap n (tagged 0 (c.target n))) ∨
      (¬ c.Swaps n ∧ c.round (tagged 0 n) = .stop n) := by
  have hv : semcountToValue (tagged 0 n) = n := semcountToValue_tagged (.inl rfl) hn
  have hone : semcountOne = tagged 0 1 := by decide
  cases c with
  | dec abs x =>
    simp only [Caller.round, semDec, Caller.Swaps, Caller.target, hv, semcountDecrement_tagged]
    split
    · next h => exact .inr ⟨by omega, rfl⟩
    · next h => exact .inl ⟨by omega, rfl⟩
  | trywait | timedwait abs =>
    simp only [Caller.round, semTrydec, Caller.Swaps, Caller.target, hv, semcountDecrement_tagged]
    split
    · next h => exact .inr ⟨by omega, rfl⟩
    · next h => exact .inl ⟨by omega, rfl⟩
  | inc x =>
    simp only [Caller.round, semInc, Caller.Swaps, Caller.target, hv, semcountIncrement_tagged,
      hone]
    split
    · next h => exact .inr ⟨fun hne => hne h, rfl⟩
    · next h =>
      refine .inl ⟨h, ?_⟩
      split <;> rfl

/-- Everything `exec` can do to a count of value `n` and flag `sh`. -/
inductive Effect (sh : Word) (n : Int) (k : Tally) : Local → Prop
  /-- Nothing happens to the count. -/
  | quiet {p' : Pc} : p'.Knows sh → p'.waking = false → p'.inKernel = false →
      Effect sh n k ⟨tagged sh n, k, p'⟩
  /-- A wait succeeds. -/
  | take {p' : Pc} : 0 < n → p'.Knows sh → p'.waking = false → p'.inKernel = false →
      Effect sh n k ⟨tagged sh (n - 1), { k with waits := k.waits + 1 }, p'⟩
  /-- A wait that finds the value 0 marks the contention. -/
  | contend {p' : Pc} : n = 0 → p'.Knows sh → p'.waking = false → p'.inKernel = false →
      Effect sh n k ⟨tagged sh (-1), k, p'⟩
  /-- A post without contention. -/
  | post {p' : Pc} : 0 ≤ n → n < semMaxValue → p'.Knows sh → p'.waking = false →
      p'.inKernel = false →
      Effect sh n k
        ⟨tagged sh (n + 1), { k with posts := k.posts + 1, zeros := k.zeros + 1 }, p'⟩
  /-- A post that finds the value -1 goes on to wake the sleepers. -/
  | rouse {p' : Pc} : n = -1 → p'.Knows sh → p'.waking = true → p'.inKernel = false →
      Effect sh n k ⟨tagged sh 1, { k with posts := k.posts + 1 }, p'⟩

theorem effect_stored (hn : InRange n) (k : Tally) {c : Caller} (hk : c.Knows sh) (hs : c.Swaps n) :
    Effect sh n k ⟨tagged sh (c.target n), k.stored c n, c.next n⟩ := by
  obtain ⟨hnk, hker, hwake⟩ := Caller.next_knows hk n
  obtain ⟨hn1, hn2⟩ := hn
  have hw : 0 ≤ n → (c.next n).waking = false := by
    intro h0
    rw [Bool.eq_false_iff]
    exact fun h => absurd (hwake h).1 (by omega)
  cases c with
  | dec abs x =>
    change 0 ≤ n at hs
    by_cases h0 : n = 0
    · subst h0
      exact .contend rfl hnk (hw hs) hker
    · have hpos : n > 0 := by omega
      simp only [Tally.stored, hpos, if_true]
      exact .take hpos hnk (hw hs) hker
  | trywait | timedwait abs =>
    change 0 < n at hs
    simp only [Tally.stored, hs, if_true]
    exact .take hs hnk (hw (by omega)) hker
  | inc x =>
    change n ≠ semMaxValue at hs
    simp only [Tally.stored, Caller.target]
    by_cases hneg : n < 0
    · simp only [hneg, if_true]
      exact .rouse (by omega) hnk (by simp [Caller.next, hneg, Pc.waking]) hker
    · simp only [hneg, if_false]
      exact .post (by omega) (by omega) hnk (hw (by omega)) hker

theorem exec_cases {k : Tally} {p : Pc} {r : Local} (hsh : IsFlag sh) (hn : InRange n)
    (hp : p.Knows sh) (h : exec (tagged sh n) k p = some r) :
    Effect sh n k r := by
  cases p with
  | idle | returned | clock | futexWait | blocked | wake => cases h
  | waitShared | timedShared | postShared =>
    simp only [exec, tagged_shared hsh, Option.some.injEq] at h
    subst h
    exact .quiet rfl rfl rfl
  | loopShared c =>
    simp only [exec, tagged_shared hsh, Option.some.injEq] at h
    subst h
    exact .quiet ⟨hp, rfl⟩ rfl rfl
  | loopRead c x =>
    obtain ⟨hc, rfl⟩ := hp
    simp only [exec, tagged_value hsh] at h
    rcases c.round_tagged hn with ⟨hsw, hr⟩ | ⟨hsw, hr⟩
    · rw [hr] at h
      cases h
      exact .quiet ⟨hc, rfl, hn, hsw, rfl, rfl⟩ rfl rfl
    · rw [hr] at h
      cases h
      obtain ⟨hnk, hker, hwake⟩ := Caller.next_knows hc n
      refine .quiet hnk ?_ hker
      rw [Bool.eq_false_iff]
      intro hw
      -- a post only leaves its loop without a store at the maximum
      obtain ⟨hneg, y, rfl⟩ := hwake hw
      have hmax : n = semMaxValue := by
        by_contra hne
        exact hsw hne
      omega
  | loopSwap c x old ret new =>
    obtain ⟨hc, rfl, hret, hsw, rfl, rfl⟩ := hp
    simp only [exec, atomicCmpxchg, tagged_zero_or hsh.toNat_lt] at h
    by_cases he : tagged x n = tagged x ret
    · have hnr := tagged_inj hsh hn hret he
      subst hnr
      simp only [if_true, ne_eq, not_true_eq_false, if_false, Option.some.injEq] at h
      subst h
      exact effect_stored hn k hc hsw
    · simp only [he, if_false, ne_eq, show ¬ (1 : Word) = 0 by decide, not_false_eq_true, if_true,
        Option.some.injEq] at h
      subst h
      exact .quiet ⟨hc, rfl⟩ rfl rfl

/-- A step on the count is not one of a sleeper or of a poster at its wake. -/
theorem outside_of_exec {count : Word} {k : Tally} {p : Pc} {r : Local}
    (h : exec count k p = some r) : p.waking = false ∧ p.inKernel = false := by
  cases p with
  | idle | returned | clock | futexWait | blocked | wake => cases h
  | _ => exact ⟨rfl, rfl⟩

/-! ## The invariant -/

section
variable {T : Type}

structure Inv (sh : Word) (v : Nat) (s : State T) : Prop where
  flag : IsFlag sh
  range : InRange s.value
  word : s.count = tagged sh s.value
  balance : max s.value 0 + s.tally.waits = v + s.tally.posts
  returns : ∃ m, Counts (fun t => (s.pc t).waking = true) m ∧ s.tally.posts = s.tally.zeros + m
  knows : ∀ t, (s.pc t).Knows sh
  queued : ∀ t ps, (t, ps) ∈ s.queue → (s.pc t).inKernel = true ∧ ps = pshared sh
  rescue : ∀ t, asleep s.queue t → s.value = -1 ∨ ∃ u, (s.pc u).waking = true

variable {sh : Word} {v : Nat} {s s' : State T} {t : T} {p : Pc} {a : Act T}

theorem Inv.notQueued (hi : Inv sh v s) (hk : (s.pc t).inKernel = false) : ¬ asleep s.queue t := by
  rintro ⟨ps, hm⟩
  rw [(hi.queued t ps hm).1] at hk
  cases hk

theorem Inv.knows_at (hi : Inv sh v s) (hp : s.pc t = p) : p.Knows sh :=
  hp ▸ hi.knows t

theorem queue_same {q : Queue T} (ht : ¬ asleep q t) (u : T) (ps : Bool) (hm : (u, ps) ∈ q) :
    (u ≠ t ∧ (u, ps) ∈ q) ∨ (u = t ∧ p.inKernel = true ∧ ps = pshared sh) :=
  .inl ⟨ne_of_not_asleep ht hm, hm⟩

theorem inv_init {v : Word} (h : init v s) : ∃ sh, Inv sh v.toNat s := by
  obtain ⟨⟨ps, hc⟩, hq, hp, hk⟩ := h
  obtain ⟨hr, sh, hsh, he⟩ := semInit_eq hc
  have hv : s.value = v.toNat := by
    unfold State.value
    rw [he, semcountToValue_tagged hsh hr]
  refine ⟨sh, hsh, by rwa [hv], by rw [hv, he], ?_, ⟨0, ?_, by rw [hk]⟩, ?_, ?_, ?_⟩
  · rw [hk]
    dsimp only
    omega
  · exact counts_zero fun t => by rw [hp t]; simp [Pc.waking]
  · intro t
    rw [hp t]
    exact trivial
  · intro t ps hm
    rw [hq] at hm
    cases hm
  · rintro t ⟨ps, hm⟩
    rw [hq] at hm
    cases hm

variable [DecidableEq T]

/-- The invariant after a move of one thread: what the move has to guarantee of the count, of the
ghosts, of the queue and of the sleepers. -/
theorem Inv.move (hi : Inv sh v s) (t : T) (n : Int) (k : Tally) (p : Pc) (q : Queue T)
    (hn : InRange n) (hk : p.Knows sh) (hbal : max n 0 + k.waits = v + k.posts)
    (hret : ∃ m, Counts (fun u => (update s.pc t p u).waking = true) m ∧
      k.posts = k.zeros + m) (hq : ∀ u ps, (u, ps) ∈ q →
      (u ≠ t ∧ (u, ps) ∈ s.queue) ∨ (u = t ∧ p.inKernel = true ∧ ps = pshared sh))
    (hres : ∀ u, asleep q u → n = -1 ∨ ∃ w, (update s.pc t p w).waking = true) :
    Inv sh v { s.goto t p with count := tagged sh n, tally := k, queue := q } where
  flag := hi.flag
  range := by
    unfold State.value
    rwa [semcountToValue_tagged hi.flag hn]
  word := by
    unfold State.value
    rw [semcountToValue_tagged hi.flag hn]
  balance := by
    unfold State.value
    rwa [semcountToValue_tagged hi.flag hn]
  returns := hret
  knows := (forall_update_iff s.pc (p := fun _ p => p.Knows sh)).2
    ⟨hk, fun u _ => hi.knows u⟩
  queued := by
    intro u ps hm
    rcases hq u ps hm with ⟨hut, hm'⟩ | ⟨rfl, hker, hps⟩
    · simpa [State.goto, hut] using hi.queued u ps hm'
    · simpa [State.goto] using ⟨hker, hps⟩
  rescue := by
    unfold State.value
    rwa [semcountToValue_tagged hi.flag hn]

/-- The count of the posters at their wake when neither place is one. -/
theorem Inv.returns_same (hi : Inv sh v s) (t : T) (hold : (s.pc t).waking = false)
    (hnew : p.waking = false) :
    ∃ m, Counts (fun u => (update s.pc t p u).waking = true) m ∧
      s.tally.posts = s.tally.zeros + m := by
  obtain ⟨m, hm, hz⟩ := hi.returns
  exact ⟨m, hm.update_same (p := fun p : Pc => p.waking = true) (by simp [hold, hnew]), hz⟩

theorem waking_update {u : T} (hold : (s.pc t).waking = false) (hu : (s.pc u).waking = true) :
    (update s.pc t p u).waking = true := by
  have hut : u ≠ t := by
    rintro rfl
    rw [hold] at hu
    cases hu
  rwa [update_of_ne hut]

theorem Inv.quiet (hi : Inv sh v s) (t : T) (hk : p.Knows sh) (hold : (s.pc t).waking = false)
    (hnew : p.waking = false) (ht : ¬ asleep s.queue t) : Inv sh v (s.goto t p) := by
  have h := hi.move t s.value s.tally p s.queue hi.range hk hi.balance
    (hi.returns_same t hold hnew) (queue_same ht) fun u hu =>
      (hi.rescue u hu).imp id fun ⟨w, hw⟩ => ⟨w, waking_update hold hw⟩
  rwa [← hi.word] at h

/-! ## Every step keeps the invariant -/

/-- What a step can do; those on the count are in `exec`. -/
inductive Change (s : State T) : Act T → State T → Prop
  | call (t : T) (c : Call) (hw : (s.pc t).waking = false) (hk : (s.pc t).inKernel = false) :
    Change s (.call t c) (s.goto t c.start)
  | exec (t : T) (r : Local) (h : exec s.count s.tally (s.pc t) = some r) :
    Change s (.exec t) { s.goto t r.pc with count := r.count, tally := r.tally }
  | late (t : T) (now abs : Timespec) (shared : Word) (hp : s.pc t = .clock abs shared) :
    Change s (.clock t now) (s.goto t (.returned (.timedwait (some abs)) (some .etimedout)))
  | inTime (t : T) (now abs : Timespec) (shared : Word) (hp : s.pc t = .clock abs shared) :
    Change s (.clock t now) (s.goto t (.loopShared (.dec (some abs) shared)))
  | sleep (t : T) (abs : Option Timespec) (shared : Word) (hp : s.pc t = .futexWait abs shared)
    (he : s.count = shared ||| semcountMinusOne) :
    Change s (.futexWait t)
      { s.goto t (.blocked abs shared) with queue := sleep s.queue t (pshared shared) }
  | skip (t : T) (abs : Option Timespec) (shared : Word) (hp : s.pc t = .futexWait abs shared) :
    Change s (.futexWait t) (s.goto t (afterWait abs shared none))
  | giveUp (t : T) (err : Option Errno) (abs : Option Timespec) (shared : Word)
    (hp : s.pc t = .blocked abs shared) :
    Change s (.giveUp t err)
      { s.goto t (afterWait abs shared err) with queue := leave s.queue t }
  | resume (t : T) (abs : Option Timespec) (shared : Word) (hp : s.pc t = .blocked abs shared)
    (hq : ¬ asleep s.queue t) : Change s (.resume t) (s.goto t (afterWait abs shared none))
  | wake (t : T) (shared : Word) (hp : s.pc t = .wake shared) :
    Change s (.futexWake t)
      { s.goto t (.returned .post none) with
        queue := wakeAll s.queue (pshared shared)
        tally := { s.tally with zeros := s.tally.zeros + 1 } }

theorem step_cases (h : step s a = some s') : Change s a s' := by
  revert h
  fun_cases step s a with
  | case1 t c hp | case2 t c _ _ hp =>
    rintro ⟨⟩
    exact .call t c (by rw [hp]; rfl) (by rw [hp]; rfl)
  | case4 t =>
    intro h
    obtain ⟨r, he, rfl⟩ := Option.map_eq_some_iff.1 h
    exact .exec t r he
  | case5 t now abs shared hp =>
    rintro ⟨⟩
    exact .late t now abs shared hp
  | case6 t now abs shared hp =>
    rintro ⟨⟩
    exact .inTime t now abs shared hp
  | case8 t abs shared hp he =>
    rintro ⟨⟩
    exact .sleep t abs shared hp he
  | case9 t abs shared hp =>
    rintro ⟨⟩
    exact .skip t abs shared hp
  | case11 t err abs shared hp =>
    rintro ⟨⟩
    exact .giveUp t err abs shared hp
  | case15 t abs shared hp hq =>
    rintro ⟨⟩
    exact .resume t abs shared hp hq
  | case17 t shared hp =>
    rintro ⟨⟩
    exact .wake t shared hp
  | _ => rintro ⟨⟩

theorem inv_exec (hi : Inv sh v s) (t : T) (r : Local)
    (he : exec s.count s.tally (s.pc t) = some r) :
    Inv sh v { s.goto t r.pc with count := r.count, tally := r.tally } := by
  obtain ⟨hold, hker⟩ := outside_of_exec he
  have ht := hi.notQueued hker
  have hbal := hi.balance
  obtain ⟨hn1, hn2⟩ := hi.range
  rw [hi.word] at he
  have hres : ∀ p u, asleep s.queue u →
      s.value = -1 ∨ ∃ w, (update s.pc t p w).waking = true := fun p u hu =>
    (hi.rescue u hu).imp id fun ⟨w, hw⟩ => ⟨w, waking_update hold hw⟩
  cases exec_cases hi.flag hi.range (hi.knows t) he with
  | quiet hk hnew hker' =>
    exact hi.move t s.value s.tally _ s.queue hi.range hk hbal (hi.returns_same t hold hnew)
      (queue_same ht) (hres _)
  | take hpos hk hnew hker' =>
    refine hi.move t _ _ _ s.queue ⟨by omega, by omega⟩ hk ?_ (hi.returns_same t hold hnew)
      (queue_same ht) fun u hu => ?_
    · dsimp only
      omega
    · rcases hres _ u hu with h | h
      · omega
      · exact .inr h
  | contend h0 hk hnew hker' =>
    refine hi.move t _ _ _ s.queue ⟨by omega, by omega⟩ hk ?_ (hi.returns_same t hold hnew)
      (queue_same ht) fun _ _ => .inl rfl
    dsimp only
    omega
  | post h0 hmax hk hnew hker' =>
    refine hi.move t _ _ _ s.queue ⟨by omega, by omega⟩ hk ?_ ?_ (queue_same ht) fun u hu => ?_
    · dsimp only
      omega
    · obtain ⟨m, hm, hz⟩ := hi.returns_same t hold hnew
      exact ⟨m, hm, by dsimp only; omega⟩
    · rcases hres _ u hu with h | h
      · omega
      · exact .inr h
  | rouse hneg hk hnew hker' =>
    have hmax : ((semMaxValue : Nat) : Int) = 1073741823 := rfl
    refine hi.move t _ _ _ s.queue ⟨by omega, by omega⟩ hk ?_ ?_ (queue_same ht)
      fun _ _ => .inr ⟨t, by rwa [update_self]⟩
    · dsimp only
      omega
    · obtain ⟨m, hm, hz⟩ := hi.returns
      refine ⟨m + 1, hm.update_add (p := fun p : Pc => p.waking = true) (by simp [hold]) hnew, ?_⟩
      dsimp only
      omega

/-- `t` goes to sleep: the comparison succeeded, so the value is -1. -/
theorem inv_sleep (hi : Inv sh v s) {abs : Option Timespec} (hp : s.pc t = .futexWait abs sh)
    (he : s.count = sh ||| semcountMinusOne) :
    Inv sh v { s.goto t (.blocked abs sh) with queue := sleep s.queue t (pshared sh) } := by
  have hold : (s.pc t).waking = false := by rw [hp]; rfl
  have ht := hi.notQueued (by rw [hp]; rfl)
  have hv : s.value = -1 := by
    rw [or_semcountMinusOne hi.flag, hi.word] at he
    exact tagged_inj hi.flag hi.range ⟨by omega, by omega⟩ he
  have hmove := hi.move t s.value s.tally (.blocked abs sh) (sleep s.queue t (pshared sh)) hi.range
    rfl hi.balance (hi.returns_same t hold rfl) ?_ fun _ _ => .inl hv
  · rwa [← hi.word] at hmove
  · intro u ps hm
    rcases List.mem_cons.mp hm with he | hm'
    · cases he
      exact .inr ⟨rfl, rfl, rfl⟩
    · exact queue_same ht u ps hm'

theorem inv_giveUp (hi : Inv sh v s) {abs : Option Timespec} (err : Option Errno)
    (hp : s.pc t = .blocked abs sh) :
    Inv sh v { s.goto t (afterWait abs sh err) with queue := leave s.queue t } := by
  have hold : (s.pc t).waking = false := by rw [hp]; rfl
  obtain ⟨hk', hw', -⟩ := afterWait_knows abs sh err
  have hmove := hi.move t s.value s.tally (afterWait abs sh err) (leave s.queue t) hi.range
    hk' hi.balance (hi.returns_same t hold hw') ?_ ?_
  · rwa [← hi.word] at hmove
  · intro u ps hm
    rw [mem_leave] at hm
    exact .inl ⟨hm.2, hm.1⟩
  · intro u hu
    rw [asleep_leave] at hu
    exact (hi.rescue u hu.1).imp id fun ⟨w, hw⟩ => ⟨w, waking_update hold hw⟩

theorem inv_wake (hi : Inv sh v s) (hp : s.pc t = .wake sh) :
    Inv sh v { s.goto t (.returned .post none) with
      queue := wakeAll s.queue (pshared sh)
      tally := { s.tally with zeros := s.tally.zeros + 1 } } := by
  have hempty : ∀ e, e ∉ wakeAll s.queue (pshared sh) := by
    intro e he
    rw [mem_wakeAll] at he
    exact he.2 (hi.queued e.1 e.2 he.1).2
  have hmove := hi.move t s.value { s.tally with zeros := s.tally.zeros + 1 }
    (.returned .post none) (wakeAll s.queue (pshared sh)) hi.range trivial hi.balance ?_
    (fun u ps hm => absurd hm (hempty _)) fun u ⟨ps, hm⟩ => absurd hm (hempty _)
  · rwa [← hi.word] at hmove
  · obtain ⟨m, hm, hz⟩ := hi.returns
    have ht : (s.pc t).waking = true := by rw [hp]; rfl
    have hpos := hm.pos t ht
    refine ⟨m - 1, hm.update_remove (p := fun p : Pc => p.waking = true) ht (by simp [Pc.waking]),
      ?_⟩
    dsimp only
    omega

theorem inv_step (hi : Inv sh v s) (h : step s a = some s') : Inv sh v s' := by
  cases step_cases h with
  | call t c hw hk =>
    have hstart : (c.start).Knows sh ∧ c.start.waking = false := by
      cases c <;> exact ⟨trivial, rfl⟩
    exact hi.quiet t hstart.1 hw hstart.2 (hi.notQueued hk)
  | exec t r he => exact inv_exec hi t r he
  | late t now abs shared hp =>
    exact hi.quiet t trivial (by rw [hp]; rfl) rfl (hi.notQueued (by rw [hp]; rfl))
  | inTime t now abs shared hp =>
    obtain rfl : shared = sh := hi.knows_at hp
    exact hi.quiet t rfl (by rw [hp]; rfl) rfl (hi.notQueued (by rw [hp]; rfl))
  | sleep t abs shared hp he =>
    obtain rfl : shared = sh := hi.knows_at hp
    exact inv_sleep hi hp he
  | skip t abs shared hp =>
    obtain rfl : shared = sh := hi.knows_at hp
    obtain ⟨hk', hw', -⟩ := afterWait_knows abs shared none
    exact hi.quiet t hk' (by rw [hp]; rfl) hw' (hi.notQueued (by rw [hp]; rfl))
  | giveUp t err abs shared hp =>
    obtain rfl : shared = sh := hi.knows_at hp
    exact inv_giveUp hi err hp
  | resume t abs shared hp hq =>
    obtain rfl : shared = sh := hi.knows_at hp
    obtain ⟨hk', hw', -⟩ := afterWait_knows abs shared none
    exact hi.quiet t hk' (by rw [hp]; rfl) hw' hq
  | wake t shared hp =>
    obtain rfl : shared = sh := hi.knows_at hp
    exact inv_wake hi hp

/-! ## A post that overflows -/

/-- The step from `s` to `s'` ends a post of `t` with `EOVERFLOW`. -/
def Overflows (s s' : State T) (t : T) : Prop :=
  s.pc t ≠ .returned .post (some .eoverflow) ∧ s'.pc t = .returned .post (some .eoverflow)

def Pc.postReads : Pc → Bool
  | .loopRead (.inc _) _ => true
  | .loopRead (.dec _ _) _ | .loopRead .trywait _ | .loopRead (.timedwait _) _ | .idle
  | .returned _ _ | .waitShared | .timedShared _ | .postShared | .loopShared _
  | .loopSwap _ _ _ _ _ | .clock _ _ | .futexWait _ _ | .blocked _ _ | .wake _ => false

theorem Caller.next_eq_overflow {c : Caller} {ret : Int} :
    c.next ret = .returned .post (some .eoverflow) ↔ (∃ x, c = .inc x) ∧ ret = semMaxValue := by
  cases c with
  | dec abs x => cases abs <;> by_cases h : ret > 0 <;> simp [Caller.next, h]
  | trywait => by_cases h : ret > 0 <;> simp [Caller.next, h]
  | timedwait abs =>
    by_cases h : ret > 0
    · simp [Caller.next, h]
    · cases hv : validTimeout abs <;> simp [Caller.next, h, hv]
  | inc x =>
    by_cases hneg : ret < 0
    · have hne : ret ≠ semMaxValue := by omega
      simp [Caller.next, hneg, hne]
    · by_cases he : ret = semMaxValue <;> simp [Caller.next, hneg, he]

theorem exec_overflow {n : Int} {k : Tally} {r : Local} (hsh : IsFlag sh) (hn : InRange n)
    (hp : p.Knows sh) (h : exec (tagged sh n) k p = some r) :
    r.pc = .returned .post (some .eoverflow) ↔ p.postReads = true ∧ n = semMaxValue := by
  cases p with
  | idle | returned | clock | futexWait | blocked | wake => cases h
  | waitShared | timedShared | postShared | loopShared =>
    cases h
    simp [Pc.postReads]
  | loopRead c x =>
    simp only [exec, tagged_value hsh] at h
    rcases c.round_tagged hn with ⟨hsw, hr⟩ | ⟨hsw, hr⟩
    · rw [hr] at h
      cases h
      cases c with
      | inc y =>
        change n ≠ semMaxValue at hsw
        simpa [Pc.postReads] using hsw
      | dec | trywait | timedwait => simp [Pc.postReads]
    · rw [hr] at h
      cases h
      rw [Caller.next_eq_overflow]
      cases c <;> simp [Pc.postReads]
  | loopSwap c x old ret new =>
    obtain ⟨hc, rfl, hret, hsw, rfl, rfl⟩ := hp
    simp only [exec] at h
    split at h
    · cases h
      simp [Pc.postReads]
    · cases h
      rw [Caller.next_eq_overflow]
      constructor
      · -- a loop that stores has not read the maximum
        rintro ⟨⟨y, rfl⟩, hm⟩
        exact absurd hm hsw
      · rintro ⟨h, -⟩
        cases h

/-- A place change of another thread ends no post, and one of `t` ends it at the new place. -/
theorem overflows_goto {u : T} (hs : s'.pc = update s.pc u p) :
    Overflows s s' t ↔ t = u ∧ s.pc u ≠ .returned .post (some .eoverflow) ∧
      p = .returned .post (some .eoverflow) := by
  unfold Overflows
  rw [hs]
  by_cases ht : t = u
  · subst ht
    simp
  · simp only [update_of_ne ht, ht, false_and, iff_false]
    exact fun h => h.1 h.2

theorem afterWait_ne_overflow (abs : Option Timespec) (shared : Word) (err : Option Errno) :
    afterWait abs shared err ≠ .returned .post (some .eoverflow) := by
  unfold afterWait
  split
  · simp
  · split <;> simp

theorem overflows_iff (hi : Inv sh v s) (h : step s a = some s') (t : T) :
    Overflows s s' t ↔ a = .exec t ∧ (s.pc t).postReads = true ∧ s.value = semMaxValue := by
  -- every action but `exec` puts its thread at a place that is not the failed return
  have other : ∀ {u : T} {p : Pc}, s'.pc = update s.pc u p →
      p ≠ .returned .post (some .eoverflow) → (∀ x, a ≠ .exec x) →
      (Overflows s s' t ↔ a = .exec t ∧ (s.pc t).postReads = true ∧ s.value = semMaxValue) := by
    intro u p hs hp ha
    rw [overflows_goto hs]
    exact ⟨fun h => absurd h.2.2 hp, fun h => absurd h.1 (ha t)⟩
  cases step_cases h with
  | exec u r he =>
    have hne : s.pc u ≠ .returned .post (some .eoverflow) := by
      intro hc
      rw [hc] at he
      cases he
    rw [hi.word] at he
    rw [overflows_goto rfl, exec_overflow hi.flag hi.range (hi.knows u) he]
    constructor
    · rintro ⟨rfl, -, hp, hv⟩
      exact ⟨rfl, hp, hv⟩
    · rintro ⟨ha, hp, hv⟩
      cases ha
      exact ⟨rfl, hne, hp, hv⟩
  | call u c => exact other rfl (by cases c <;> simp [Call.start]) (by simp)
  | late | inTime | sleep | wake => exact other rfl (by simp) (by simp)
  | skip | giveUp | resume => exact other rfl (afterWait_ne_overflow _ _ _) (by simp)

/-! ## Calls that return 0 -/

/-- A post, or else a wait, has returned 0. -/
def Pc.zero (post : Bool) : Pc → Bool
  | .returned c none => decide (c = .post) == post
  | _ => false

def Tally.returned (k : Tally) (post : Bool) : Nat := if post then k.zeros else k.waits

/-- The step from `s` to `s'` ends a call of `t` with 0. -/
def Returns (s s' : State T) (post : Bool) (t : T) : Prop :=
  (s.pc t).zero post = false ∧ (s'.pc t).zero post = true

theorem Caller.next_stop {c : Caller} (hs : ¬ c.Swaps n) (post : Bool) :
    (c.next n).zero post = false := by
  cases c with
  | dec abs x =>
    have hle : ¬ n > 0 := fun h => hs (Int.le_of_lt h)
    cases abs <;> simp [Caller.next, hle, Pc.zero]
  | trywait =>
    have hle : ¬ n > 0 := hs
    simp [Caller.next, hle, Pc.zero]
  | timedwait abs =>
    have hle : ¬ n > 0 := hs
    cases hv : validTimeout abs <;> simp [Caller.next, hle, hv, Pc.zero]
  | inc x =>
    have hmax : n = semMaxValue := not_not.1 hs
    simp [Caller.next, hmax, semMaxValue, Pc.zero]

theorem Tally.stored_returned (k : Tally) {c : Caller} (hs : c.Swaps n) (post : Bool) :
    (k.stored c n).returned post = k.returned post + ((c.next n).zero post).toNat := by
  cases c with
  | dec abs x =>
    by_cases hpos : n > 0 <;> cases abs <;> cases post <;>
      simp [Tally.stored, Caller.next, hpos, Pc.zero, Tally.returned]
  | trywait | timedwait abs =>
    have hpos : n > 0 := hs
    cases post <;> simp [Tally.stored, Caller.next, hpos, Pc.zero, Tally.returned]
  | inc x =>
    have hmax : n ≠ semMaxValue := hs
    by_cases hneg : n < 0 <;> cases post <;>
      simp [Tally.stored, Caller.next, hneg, hmax, Pc.zero, Tally.returned]

theorem exec_returned {n : Int} {k : Tally} {r : Local} (hsh : IsFlag sh) (hn : InRange n)
    (hp : p.Knows sh) (h : exec (tagged sh n) k p = some r) (post : Bool) :
    r.tally.returned post = k.returned post + (r.pc.zero post).toNat := by
  cases p with
  | idle | returned | clock | futexWait | blocked | wake => cases h
  | waitShared | timedShared | postShared | loopShared =>
    cases h
    rfl
  | loopRead c x =>
    simp only [exec, tagged_value hsh] at h
    rcases c.round_tagged hn with ⟨hsw, hr⟩ | ⟨hsw, hr⟩
    · rw [hr] at h
      cases h
      rfl
    · rw [hr] at h
      cases h
      rw [Caller.next_stop hsw]
      rfl
  | loopSwap c x old ret new =>
    obtain ⟨hc, rfl, hret, hsw, rfl, rfl⟩ := hp
    simp only [exec] at h
    split at h
    · cases h
      rfl
    · cases h
      exact k.stored_returned hsw post

/-- The calls that return 0 are counted one by one. -/
def Counted (s s' : State T) (post : Bool) : Prop :=
  (∃ t, Returns s s' post t) ∧ s'.tally.returned post = s.tally.returned post + 1 ∨
    (∀ t, ¬ Returns s s' post t) ∧ s'.tally.returned post = s.tally.returned post

theorem counted_goto {u : T} {post : Bool} (hs : s'.pc = update s.pc u p)
    (hold : (s.pc u).zero post = false ∨ p.zero post = false)
    (ht : s'.tally.returned post = s.tally.returned post + (p.zero post).toNat) :
    Counted s s' post := by
  cases hp : p.zero post with
  | true =>
    rw [hp] at ht
    exact .inl ⟨⟨u, hold.resolve_right (by simp [hp]), by rw [hs, update_self, hp]⟩, ht⟩
  | false =>
    rw [hp] at ht
    refine .inr ⟨fun t h => ?_, ht⟩
    unfold Returns at h
    rw [hs] at h
    by_cases htu : t = u
    · subst htu
      simp [hp] at h
    · simp [update_of_ne htu] at h

theorem afterWait_not_zero (abs : Option Timespec) (shared : Word) (err : Option Errno)
    (post : Bool) : (afterWait abs shared err).zero post = false := by
  unfold afterWait
  split
  · rfl
  · split
    · next h => rcases h with rfl | rfl <;> rfl
    · rfl

theorem counted_step (hi : Inv sh v s) (h : step s a = some s') (post : Bool) :
    Counted s s' post := by
  have other : ∀ {u : T} {p : Pc}, s'.pc = update s.pc u p → p.zero post = false →
      s'.tally = s.tally → Counted s s' post := by
    intro u p hs hp ht
    exact counted_goto hs (.inr hp) (by rw [ht, hp]; rfl)
  cases step_cases h with
  | exec u r he =>
    have hold : (s.pc u).zero post = false := by
      cases hp : s.pc u with
      | returned c e =>
        rw [hp] at he
        cases he
      | _ => rfl
    rw [hi.word] at he
    exact counted_goto rfl (.inl hold) (exec_returned hi.flag hi.range (hi.knows u) he post)
  | call u c => exact other rfl (by cases c <;> rfl) rfl
  | late | inTime | sleep => exact other rfl rfl rfl
  | skip | giveUp | resume => exact other rfl (afterWait_not_zero _ _ _ _) rfl
  | wake u shared hp =>
    exact counted_goto rfl (.inl (by rw [hp]; rfl)) (by cases post <;> rfl)

/-! ## Top theorems -/

/-- **Conservation.**  After any run of a semaphore initialised with `v`, the value is between -1
and the maximum, its positive part is `v` and the posts that incremented less the waits that
succeeded (of those posts, all have returned 0 but the ones at their wake), the shared bit is the
initial one, a step makes a post fail exactly if it reads the maximum as the value, and the waits
and the posts that returned 0 go up by one exactly with a step that returns 0 from such a call. -/
theorem sem_conservation {v : Word} {s₀ s : State T} {acts : List (Act T)} (h0 : init v s₀)
    (hr : machine.run s₀ acts = some s) :
    (-1 ≤ s.value ∧ s.value ≤ semMaxValue) ∧
      max s.value 0 = v.toNat + s.tally.posts - s.tally.waits ∧
      (∃ m, Counts (fun t => (s.pc t).waking = true) m ∧ s.tally.posts = s.tally.zeros + m) ∧
      (∀ a s' t, step s a = some s' →
        (Overflows s s' t ↔ a = .exec t ∧ (s.pc t).postReads = true ∧ s.value = semMaxValue)) ∧
      (∀ a s' post, step s a = some s' → Counted s s' post) ∧
      s.count &&& semcountSharedMask = s₀.count &&& semcountSharedMask := by
  obtain ⟨sh, hi0⟩ := inv_init h0
  have hi : Inv sh v.toNat s :=
    Machine.run_invariant (M := machine) (fun _ _ _ hi hs => inv_step hi hs) hi0 hr
  have hbal := hi.balance
  refine ⟨hi.range, by omega, hi.returns, fun a s' t hs => overflows_iff hi hs t,
    fun a s' post hs => counted_step hi hs post, ?_⟩
  rw [hi.word, hi0.word, tagged_shared hi.flag, tagged_shared hi.flag]

/-- Two threads and a shared semaphore of value 0: `true` waits and goes to sleep, `false` posts
up to its wake. -/
def contendedRun : List (Act Bool) :=
  [.call true .wait, .exec true, .exec true, .exec true, .exec true, .futexWait true,
   .call false .post, .exec false, .exec false, .exec false, .exec false]

def emptySemaphore : State Bool := ⟨semcountSharedMask, [], fun _ => .idle, ⟨0, 0, 0⟩⟩

theorem emptySemaphore_init : init 0 emptySemaphore :=
  ⟨⟨1, by decide⟩, rfl, fun _ => rfl, rfl⟩

theorem sem_conservation_contended :
    ∃ s : State Bool, machine.run emptySemaphore contendedRun = some s ∧
      (-1 ≤ s.value ∧ s.value ≤ semMaxValue) ∧
      max s.value 0 = (0 : Word).toNat + s.tally.posts - s.tally.waits ∧
      (∃ m, Counts (fun t => (s.pc t).waking = true) m ∧ s.tally.posts = s.tally.zeros + m) ∧
      (∀ a s' t, step s a = some s' →
        (Overflows s s' t ↔ a = .exec t ∧ (s.pc t).postReads = true ∧ s.value = semMaxValue)) ∧
      (∀ a s' post, step s a = some s' → Counted s s' post) ∧
      s.count &&& semcountSharedMask = emptySemaphore.count &&& semcountSharedMask := by
  obtain ⟨s, hs⟩ : ∃ s : State Bool, machine.run emptySemaphore contendedRun = some s := ⟨_, rfl⟩
  exact ⟨s, hs, sem_conservation emptySemaphore_init hs⟩

/-- **No lost wake-up.**  Whenever a thread sleeps next to a value above -1, some poster has moved
the value away from -1 and has its wake of all sleepers still to perform. -/
theorem sem_no_lost_wakeup {s : State T} (h : machine.Reachable s) (t : T)
    (ht : asleep s.queue t) (hv : -1 < s.value) : ∃ u shared, s.pc u = .wake shared := by
  obtain ⟨sh, v, hi⟩ : ∃ sh v, Inv sh v s :=
    Machine.Reachable.invariant (M := machine) (I := fun s => ∃ sh v, Inv sh v s)
      (fun _ ⟨v, h0⟩ => (inv_init h0).imp fun _ hi => ⟨_, hi⟩)
      (fun _ _ _ ⟨sh, v, hi⟩ hs => ⟨sh, v, inv_step hi hs⟩) h
  rcases hi.rescue t ht with he | ⟨u, hu⟩
  · omega
  · cases hp : s.pc u with
    | wake shared => exact ⟨u, shared, hp⟩
    | _ =>
      rw [hp] at hu
      cases hu

theorem sem_no_lost_wakeup_contended :
    ∃ s : State Bool, machine.Reachable s ∧ asleep s.queue true ∧ -1 < s.value ∧
      ∃ u shared, s.pc u = .wake shared := by
  obtain ⟨s, hs, hq, hv⟩ : ∃ s : State Bool, machine.run emptySemaphore contendedRun = some s ∧
      s.queue = [(true, true)] ∧ s.value = 1 := ⟨_, rfl, rfl, by decide +kernel⟩
  have hr : machine.Reachable s :=
    Machine.Reachable.run (.init ⟨0, emptySemaphore_init⟩) contendedRun hs
  have ha : asleep s.queue true := ⟨true, by simp [hq]⟩
  have hpos : -1 < s.value := by omega
  exact ⟨s, hr, ha, hpos, sem_no_lost_wakeup hr true ha hpos⟩

end

end Pthread.Semaphore
