import GitTest.Pthread.Normal
import GitTest.Pthread.Owned

/-!
# pthread_mutex_destroy (libc/bionic/pthread.c)

`pthread_mutex_destroy` locks the mutex with `pthread_mutex_trylock` "to ensure that the mutex
value is valid and is not already locked", and overwrites the word if that returns 0.  Both are
functions of the word here: no other thread moves meanwhile (`run_trylock`, and
`Normal.run_trylock`, connect them to the machines of the three mutex types).

For a recursive mutex the trylock of the owner succeeds.  So the word is overwritten while the
caller holds the mutex:

    destroy returns 0 only if nobody holds, and else leaves the word alone ↔
      not (recursive and owned by the caller) ∧ (the word says released → nobody holds)
      (mutexDestroy_iff)

The last part can fail only after the recursion counter has wrapped.
-/

open Function Machines

namespace Pthread.Destroy

/-! ## Algorithm -/

inductive Ret
  | ok
  | einval
  | ebusy
  | edeadlk
  deriving DecidableEq, Repr

/-- The body of `pthread_mutex_trylock`: the word afterwards and the return value. -/
def trylock (tid value : Word) : Word × Ret :=
  let mtype := value &&& mutexTypeMask
  let shared := value &&& mutexSharedMask
  if mtype = mutexTypeNormal then
    let r := atomicCmpxchg (shared ||| 0) (shared ||| 1) value
    if r.2 = 0 then (r.1, .ok) else (r.1, .ebusy)
  else if tid = mutexOwner value then
    if mtype = mutexTypeErrorcheck then (value, .edeadlk)
    else
      let counter := (value + (1 <<< mutexCounterShift)) &&& mutexCounterMask
      ((value &&& ~~~mutexCounterMask) ||| counter, .ok)
  else if value = mtype ||| shared then ((tid <<< 16) ||| (mtype ||| shared) ||| 1, .ok)
  else (value, .ebusy)

/-- `pthread_mutex_trylock`; `none` is NULL. -/
def pthreadMutexTrylock (tid : Word) : Option Word → Option Word × Ret
  | none => (none, .einval)
  | some value => (some (trylock tid value).1, (trylock tid value).2)

def pthreadMutexDestroy (tid : Word) (mutex : Option Word) : Option Word × Ret :=
  let r := pthreadMutexTrylock tid mutex
  if r.2 ≠ .ok then r else (r.1.map fun _ => 0xdead10cc, .ok)

/-! ## The trylock -/

section
variable (tid value : Word)

/-- Everything a trylock can do with a word. -/
inductive Outcome : Word → Ret → Prop
  /-- A free normal mutex goes to state 1. -/
  | normalFree : value &&& mutexTypeMask = mutexTypeNormal → value = value &&& mutexSharedMask →
      Outcome (value &&& mutexSharedMask ||| 1) .ok
  | normalBusy : value &&& mutexTypeMask = mutexTypeNormal → value ≠ value &&& mutexSharedMask →
      Outcome value .ebusy
  /-- The owner of an error-check mutex is told so. -/
  | deadlock : value &&& mutexTypeMask = mutexTypeErrorcheck → tid = mutexOwner value →
      Outcome value .edeadlk
  /-- The owner of a recursive mutex locks it again. -/
  | relock : value &&& mutexTypeMask ≠ mutexTypeNormal →
      value &&& mutexTypeMask ≠ mutexTypeErrorcheck → tid = mutexOwner value →
      Outcome ((value &&& ~~~mutexCounterMask) |||
        ((value + (1 <<< mutexCounterShift)) &&& mutexCounterMask)) .ok
  | free : value &&& mutexTypeMask ≠ mutexTypeNormal → tid ≠ mutexOwner value →
      value = value &&& mutexTypeMask ||| value &&& mutexSharedMask →
      Outcome ((tid <<< 16) ||| (value &&& mutexTypeMask ||| value &&& mutexSharedMask) ||| 1) .ok
  | busy : value &&& mutexTypeMask ≠ mutexTypeNormal → tid ≠ mutexOwner value →
      value ≠ value &&& mutexTypeMask ||| value &&& mutexSharedMask → Outcome value .ebusy

theorem trylock_outcome : Outcome tid value (trylock tid value).1 (trylock tid value).2 := by
  unfold trylock
  by_cases hn : value &&& mutexTypeMask = mutexTypeNormal
  · have hor : value &&& mutexSharedMask ||| 0 = value &&& mutexSharedMask := BitVec.or_zero
    simp only [hn, if_true, atomicCmpxchg, hor]
    by_cases hv : value = value &&& mutexSharedMask
    · rw [if_pos hv]
      exact .normalFree hn hv
    · rw [if_neg hv]
      exact .normalBusy hn hv
  · simp only [hn, if_false]
    by_cases ho : tid = mutexOwner value
    · rw [if_pos ho]
      by_cases he : value &&& mutexTypeMask = mutexTypeErrorcheck
      · rw [if_pos he]
        exact .deadlock he ho
      · rw [if_neg he]
        exact .relock hn he ho
    · rw [if_neg ho]
      by_cases hv : value = value &&& mutexTypeMask ||| value &&& mutexSharedMask
      · rw [if_pos hv]
        exact .free hn ho hv
      · rw [if_neg hv]
        exact .busy hn ho hv

end

section
variable {tid value : Word}

theorem Outcome.unchanged {v : Word} {r : Ret} (h : Outcome tid value v r) (hr : r ≠ .ok) :
    v = value := by
  cases h with
  | normalFree | relock | free => exact absurd rfl hr
  | normalBusy | deadlock | busy => rfl

theorem trylock_ok_iff : (trylock tid value).2 = .ok ↔
    (value &&& mutexTypeMask = mutexTypeNormal ∧ value = value &&& mutexSharedMask) ∨
    (value &&& mutexTypeMask ≠ mutexTypeNormal ∧ value &&& mutexTypeMask ≠ mutexTypeErrorcheck ∧
      tid = mutexOwner value) ∨
    (value &&& mutexTypeMask ≠ mutexTypeNormal ∧ tid ≠ mutexOwner value ∧
      value = value &&& mutexTypeMask ||| value &&& mutexSharedMask) := by
  have ho := trylock_outcome tid value
  generalize trylock tid value = p at ho ⊢
  obtain ⟨v, r⟩ := p
  cases ho with
  | normalFree hn hv => simp [hn, ← hv]
  | normalBusy hn hv => simp [hn, hv]
  | deadlock he howner => simp [he, howner, mutexTypeErrorcheck, mutexTypeNormal]
  | relock hn he howner => simp [hn, he, howner]
  | free hn howner hv => simp [hn, howner, ← hv]
  | busy hn howner hv => simp [hn, howner, hv]

/-- What is claimed of a destroy: 0 is returned only if nobody holds the mutex, and an error
leaves the word alone. -/
def DestroysUnlocked {T : Type} (tid value : Word) (held : T → Bool) : Prop :=
  ((pthreadMutexDestroy tid (some value)).2 = .ok → ∀ u, held u = false) ∧
    ((pthreadMutexDestroy tid (some value)).2 ≠ .ok →
      (pthreadMutexDestroy tid (some value)).1 = some value)

theorem destroysUnlocked_iff {T : Type} {held : T → Bool} :
    DestroysUnlocked tid value held ↔ ((trylock tid value).2 = .ok → ∀ u, held u = false) := by
  unfold DestroysUnlocked pthreadMutexDestroy pthreadMutexTrylock
  by_cases hr : (trylock tid value).2 = .ok
  · simp [hr]
  · have hv := (trylock_outcome tid value).unchanged hr
    simp [hr, hv]

end

end Pthread.Destroy

/-! ## The owner field, with or without overflow -/

namespace Pthread.Owned

/-- What a thread with the kernel id `tid` knows at its place, also if the counter has wrapped:
its locals, and in the sections of an owner that it is the owner. -/
def Pc.Placed (ty sh tid value : Word) : Pc → Prop
  | .readShared _ m => m = ty
  | .readOwner _ m x => m = ty ∧ x = sh
  | .relock _ => tid = mutexOwner value
  | .attempt _ m x n => m = ty ||| sh ∧ x = sh ∧ (n = 1 ∨ n = 2)
  | .deadline m x _ | .wait _ m x _ | .blocked _ m x => m = ty ||| sh ∧ x = sh
  | .release m x => m = ty ∧ x = sh ∧ tid = mutexOwner value
  | .normalType => False
  | .idle | .readType _ | .wake _ | .returned _ _ => True

section
variable {T : Type} (tid : T → Word) (ty sh : Word)

/-- The word is the released one, or names a thread that has more acquisitions outstanding than
the counter says. -/
def CountOk (value : Word) (holds : T → Nat) : Prop :=
  value = ty ||| sh ∨
    ∃ t k st, HasFields ty sh value (tid t).toNat k st ∧ (st = 1 ∨ st = 2) ∧ k < holds t

structure Placing (s : State T) : Prop where
  word : CountOk tid ty sh s.value s.holds
  placed : ∀ t, (s.pc t).Placed ty sh (tid t) s.value

variable {tid ty sh}

variable {v : Word} {holds : T → Nat} {s s' : State T}

theorem Pc.Placed.mono {v' t : Word} (h : t = mutexOwner v → t = mutexOwner v') {p : Pc}
    (hp : p.Placed ty sh t v) : p.Placed ty sh t v' := by
  cases p with
  | relock => exact h hp
  | release => exact ⟨hp.1, hp.2.1, h hp.2.2⟩
  | _ => exact hp

theorem CountOk.fields (hty : IsOwnedType ty) (hsh : IsSharedFlag sh)
    (h : CountOk tid ty sh v holds) : ∃ o k st, HasFields ty sh v o k st := by
  rcases h with rfl | ⟨t, k, st, hf, -⟩
  · exact ⟨_, _, _, hasFields_base hty hsh⟩
  · exact ⟨_, _, _, hf⟩

theorem WordOk.countOk (h : WordOk tid ty sh v holds) :
    CountOk tid ty sh v holds := by
  rcases h with ⟨he, -⟩ | ⟨t, k, st, hf, hst, hk, -⟩
  · exact .inl he
  · exact .inr ⟨t, k, st, hf, hst, by omega⟩

theorem owner_base_ne (hv : ValidTids tid) (hty : IsOwnedType ty) (hsh : IsSharedFlag sh) (t : T) :
    tid t ≠ mutexOwner (ty ||| sh) := by
  intro he
  have ho := (hasFields_base hty hsh).owner hty hsh
  have hp := hv.pos t
  rw [he] at hp
  omega

theorem CountOk.ofOwner (hv : ValidTids tid) (hty : IsOwnedType ty) (hsh : IsSharedFlag sh)
    (h : CountOk tid ty sh v holds) {t : T} (ht : tid t = mutexOwner v) :
    ∃ k st, HasFields ty sh v (tid t).toNat k st ∧ (st = 1 ∨ st = 2) ∧ k < holds t := by
  rcases h with rfl | ⟨w, k, st, hf, hst, hk⟩
  · exact absurd ht (owner_base_ne hv hty hsh t)
  · have ho := hf.owner hty hsh
    have hw : t = w := hv.inj t w (BitVec.eq_of_toNat_eq (by rw [ht, ho]))
    subst hw
    exact ⟨k, st, hf, hst, hk⟩

theorem checkOwner_placed (t v : Word) (op : Op) :
    (checkOwner t op ty sh v).Placed ty sh t v := by
  cases op with
  | unlock =>
    rw [checkOwner]
    split
    · trivial
    · next ho => exact ⟨rfl, rfl, not_not.1 ho⟩
  | acquire c =>
    rw [checkOwner]
    split
    · next ho =>
      split
      · trivial
      · exact ho
    · exact ⟨rfl, rfl, .inl rfl⟩

variable [DecidableEq T]

/-- The invariant after a move of one thread: what it leaves in the word, what it knows, and
that it takes the mutex from nobody. -/
theorem Placing.move (hp : Placing tid ty sh s) (t : T) {r : Local} (hvalue : s'.value = r.value)
    (hpc : s'.pc = update s.pc t r.pc)
    (hholds : s'.holds = update s.holds t r.holds)
    (hw : CountOk tid ty sh r.value (update s.holds t r.holds))
    (hk : r.pc.Placed ty sh (tid t) r.value)
    (hothers : ∀ u, u ≠ t → tid u = mutexOwner s.value → tid u = mutexOwner r.value) :
    Placing tid ty sh s' := by
  refine ⟨?_, ?_⟩
  · rw [hvalue, hholds]
    exact hw
  · intro u
    rw [hvalue, hpc]
    by_cases hu : u = t
    · subst hu
      rw [update_self]
      exact hk
    · rw [update_of_ne hu]
      exact (hp.placed u).mono (hothers u hu)

theorem Placing.goto (hp : Placing tid ty sh s) (t : T) (p : Pc) (hvalue : s'.value = s.value)
    (hholds : s'.holds = s.holds) (hpc : s'.pc = update s.pc t p)
    (hk : p.Placed ty sh (tid t) s.value) :
    Placing tid ty sh s' := by
  have hsame : update s.holds t (s.holds t) = s.holds := update_eq_self t s.holds
  refine hp.move t (r := ⟨s.value, s.holds t, p⟩) hvalue hpc (hholds.trans hsame.symm) ?_ hk
    fun _ _ h => h
  rw [hsame]
  exact hp.word

section
variable (hv : ValidTids tid) (hty : IsOwnedType ty) (hsh : IsSharedFlag sh)
  (hp : Placing tid ty sh s) (t : T)
include hv hty hsh hp t

theorem placing_relock (c : Call) (hpc : s.pc t = .relock c) :
    Placing tid ty sh (s.put t (relockSection c s.value (s.holds t))) := by
  have ht : tid t = mutexOwner s.value := by
    have hk := hp.placed t
    rw [hpc] at hk
    exact hk
  obtain ⟨k, st, hf, hst, hlt⟩ := hp.word.ofOwner hv hty hsh ht
  have hf' := hf.relock hty hsh
  refine hp.move t rfl rfl rfl (.inr ⟨t, _, st, hf', hst, ?_⟩) trivial ?_
  · -- the counter may wrap to 0, the count does not
    rw [update_self]
    show (k + 1) % 2048 < s.holds t + 1
    omega
  · intro u hu howner
    exact absurd (hv.inj u t (howner.trans ht.symm)) hu

theorem placing_release (m x : Word) (hpc : s.pc t = .release m x) :
    Placing tid ty sh (s.put t (releaseSection m x s.value (s.holds t))) := by
  have hk := hp.placed t
  rw [hpc] at hk
  obtain ⟨rfl, rfl, ht⟩ := hk
  obtain ⟨k, st, hf, hst, hlt⟩ := hp.word.ofOwner hv hty hsh ht
  have hothers : ∀ u, u ≠ t → tid u ≠ mutexOwner s.value := by
    intro u hu howner
    exact hu (hv.inj u t (howner.trans ht.symm))
  have hzero := hf.counter_eq_zero_iff hty hsh
  unfold releaseSection
  cases k with
  | succ k =>
    rw [if_pos (by rw [ne_eq, hzero]; omega)]
    refine hp.move t rfl rfl rfl (.inr ⟨t, k, st, hf.unnest, hst, ?_⟩) trivial
      fun u hu h => absurd h (hothers u hu)
    rw [update_self]
    show k < s.holds t - 1
    omega
  | zero =>
    rw [if_neg (not_not.2 (hzero.2 rfl))]
    refine hp.move t rfl rfl rfl (.inl (toNat_base hty hsh).2) ?_
      fun u hu h => absurd h (hothers u hu)
    show Pc.Placed m x (tid t) _ (if s.value &&& 3 = 2 then _ else _)
    split <;> trivial

theorem placing_attempt (c : Call) (m x n : Word) (hpc : s.pc t = .attempt c m x n) :
    Placing tid ty sh (s.put t (attemptSection (tid t) c m x n s.value (s.holds t))) := by
  have hk := hp.placed t
  rw [hpc] at hk
  obtain ⟨rfl, rfl, hn⟩ := hk
  have hn4 : n.toNat = 1 ∨ n.toNat = 2 := by
    rcases hn with rfl | rfl
    · exact .inl rfl
    · exact .inr rfl
  by_cases hfree : s.value = ty ||| x
  · -- the released word names nobody, and the new one names `t`
    have hothers : ∀ v u, u ≠ t → tid u = mutexOwner s.value → tid u = mutexOwner v := by
      intro v u _ howner
      rw [hfree] at howner
      exact absurd howner (owner_base_ne hv hty hsh u)
    have hacquire : ∀ st : Word, st.toNat = 1 ∨ st.toNat = 2 → Placing tid ty x
        (s.put t ⟨(tid t <<< 16) ||| (ty ||| x) ||| st, s.holds t + 1,
          .returned (.acquire c) .ok⟩) := by
      intro st hst
      have hst4 : st.toNat < 4 := by omega
      have hf := hasFields_acquire hty hsh (hv.lt t) hst4
      refine hp.move t rfl rfl rfl (.inr ⟨t, 0, st.toNat, hf, hst, ?_⟩) trivial (hothers _)
      rw [update_self]
      exact Nat.succ_pos _
    cases c with
    | trylock =>
      simp only [attemptSection, hfree, if_true]
      exact hacquire 1 (.inl rfl)
    | lock | lockTimeout =>
      simp only [attemptSection, lockSection, hfree, if_true]
      exact hacquire n hn4
  · rcases hp.word with he | ⟨w, k, st, hf, hst, hlt⟩
    · exact absurd he hfree
    · obtain ⟨heq, hf'⟩ := @lockSection_busy ty x s.value (tid t) n _ _ _ hty hsh hf hst
      have howner : mutexOwner (lockSection (tid t) (ty ||| x) n s.value).2 = mutexOwner s.value :=
        BitVec.eq_of_toNat_eq ((hf'.owner hty hsh).trans (hf.owner hty hsh).symm)
      have hne : (lockSection (tid t) (ty ||| x) n s.value).1 ≠ ty ||| x := by
        rw [heq, ne_eq, hf'.eq_base_iff hty hsh]
        omega
      -- a contender changes the state at most
      have hcontend : ∀ p : Pc, p.Placed ty x (tid t) (lockSection (tid t) (ty ||| x) n s.value).2 →
          Placing tid ty x
            (s.put t ⟨(lockSection (tid t) (ty ||| x) n s.value).2, s.holds t, p⟩) := by
        intro p hk
        refine hp.move t rfl rfl rfl (.inr ⟨w, k, 2, hf', .inr rfl, ?_⟩) hk ?_
        · simpa using hlt
        · intro u _ h
          exact h.trans howner.symm
      cases c with
      | trylock =>
        simp only [attemptSection, hfree, if_false]
        exact hp.goto t (.returned (.acquire .trylock) .ebusy) rfl
          (update_eq_self t s.holds) rfl trivial
      | lock | lockTimeout =>
        simp only [attemptSection, hne, if_false]
        exact hcontend _ ⟨rfl, rfl⟩

end

theorem placing_exec (hv : ValidTids tid) (hty : IsOwnedType ty) (hsh : IsSharedFlag sh)
    (hp : Placing tid ty sh s) (t : T) (r : Local)
    (he : exec (tid t) s.value (s.holds t) (s.pc t) = some r) : Placing tid ty sh (s.put t r) := by
  obtain ⟨o, k, st, hf⟩ := hp.word.fields hty hsh
  have hsame : update s.holds t (s.holds t) = s.holds := update_eq_self t s.holds
  have hk := hp.placed t
  generalize hpc : s.pc t = q at he hk ⊢
  cases q with
  | idle | wait | blocked | wake | normalType | returned => cases he
  | readType op =>
    cases he
    rw [dispatch_eq hty hsh hf]
    exact hp.goto t _ rfl hsame rfl rfl
  | readShared op m =>
    cases he
    rw [hf.shared hty hsh]
    exact hp.goto t _ rfl hsame rfl ⟨hk, rfl⟩
  | readOwner op m x =>
    cases he
    obtain ⟨rfl, rfl⟩ := hk
    exact hp.goto t _ rfl hsame rfl (checkOwner_placed (tid t) s.value op)
  | relock c =>
    cases he
    exact placing_relock hv hty hsh hp t c hpc
  | attempt c m x n =>
    cases he
    exact placing_attempt hv hty hsh hp t c m x n hpc
  | deadline m x oldv =>
    cases he
    exact hp.goto t _ rfl hsame rfl hk
  | release m x =>
    cases he
    exact placing_release hv hty hsh hp t m x hpc

theorem placing_step {a : Act T} (hv : ValidTids tid) (hty : IsOwnedType ty) (hsh : IsSharedFlag sh)
    (hp : Placing tid ty sh s) (h : step tid s a = some s') :
    Placing tid ty sh s' := by
  revert h
  fun_cases step tid s a with
  | case1 t | case4 t =>
    rintro ⟨⟩
    exact hp.goto t _ rfl rfl rfl trivial
  | case3 t =>
    intro h
    obtain ⟨r, he, rfl⟩ := Option.map_eq_some_iff.1 h
    exact placing_exec hv hty hsh hp t r he
  | case6 t _ _ _ hpc =>
    rintro ⟨⟩
    have hk := hp.placed t
    rw [hpc] at hk
    exact hp.goto t _ rfl rfl rfl hk
  | case7 t _ _ _ _ hpc | case12 t _ _ _ hpc =>
    rintro ⟨⟩
    have hk := hp.placed t
    rw [hpc] at hk
    exact hp.goto t _ rfl rfl rfl ⟨hk.1, hk.2, .inr rfl⟩
  | case9 t =>
    rintro ⟨⟩
    exact ⟨hp.word, hp.placed⟩
  | case14 t =>
    intro h
    obtain ⟨q, -, rfl⟩ := Option.map_eq_some_iff.1 h
    exact hp.goto t _ rfl rfl rfl trivial
  | _ => rintro ⟨⟩

/-- The word and the counts agree in every reachable state, also after the counter wrapped. -/
theorem reachable_placing (hv : ValidTids tid) (hty : IsOwnedType ty)
    (h : (machine tid ty).Reachable s) : ∃ sh, IsSharedFlag sh ∧ Placing tid ty sh s := by
  refine Machine.Reachable.invariant
    (I := fun s => ∃ sh, IsSharedFlag sh ∧ Placing tid ty sh s) ?_ ?_ h
  · rintro s ⟨⟨attr, hattr⟩, hs, -, hpc⟩
    obtain ⟨hsh, heq, -⟩ := pthreadMutexInit_eq attr s.value hattr
    refine ⟨_, hsh, .inl (by rwa [hs] at heq), ?_⟩
    intro t
    rw [(hpc t).1]
    trivial
  · rintro s a s' ⟨sh, hsh, hp⟩ hs
    exact ⟨sh, hsh, placing_step hv hty hsh hp hs⟩

end

end Pthread.Owned

/-! ## The trylock of the machines -/

/-- The return values that the machine of the owned types knows. -/
def Pthread.Destroy.Ret.owned : Pthread.Destroy.Ret → Option Pthread.Owned.Ret
  | .ok => some .ok
  | .ebusy => some .ebusy
  | .edeadlk => some .edeadlk
  | .einval => none

namespace Pthread.Owned

section
variable {T : Type} [DecidableEq T] {tid : T → Word} {ty : Word}

theorem run_checkOwner {s : State T} {t : T} (op : Op) (hp : (s.pc t).outside = true)
    (htype : ¬ s.value &&& mutexTypeMask = mutexTypeNormal) :
    (machine tid ty).run s [.call t op, .exec t, .exec t, .exec t] =
      some { s.goto t (checkOwner (tid t) op (s.value &&& mutexTypeMask)
          (s.value &&& mutexSharedMask) s.value) with
        owned := update s.owned t (decide (0 < s.holds t)) } := by
  simp only [Machine.run, machine, step, hp, if_true, exec, dispatch, htype, if_false, State.goto,
    State.put, Option.bind_some, Option.map_some, update_self, update_idem,
    update_eq_self]

/-- A trylock call that meets nobody does to the word what `trylock` does. -/
theorem run_trylock {s : State T} {t : T} (hp : (s.pc t).outside = true)
    (htype : ¬ s.value &&& mutexTypeMask = mutexTypeNormal) :
    ∃ n s' r, (machine tid ty).run s
        (.call t (.acquire .trylock) :: List.replicate n (.exec t)) = some s' ∧
      s'.value = (Destroy.trylock (tid t) s.value).1 ∧
      (Destroy.trylock (tid t) s.value).2.owned = some r ∧
      s'.pc t = .returned (.acquire .trylock) r := by
  have hcall : (machine tid ty).run s
      (.call t (.acquire .trylock) :: List.replicate 4 (.exec t)) = _ :=
    run_call (.acquire .trylock) hp htype
  simp only [Destroy.trylock, htype, if_false]
  by_cases howner : tid t = mutexOwner s.value
  · rw [if_pos howner]
    by_cases he : s.value &&& mutexTypeMask = mutexTypeErrorcheck
    · -- the owner check is the last step
      have hread : (machine tid ty).run s
          (.call t (.acquire .trylock) :: List.replicate 3 (.exec t)) = _ :=
        run_checkOwner (.acquire .trylock) hp htype
      rw [checkOwner, if_pos howner, if_pos he] at hread
      rw [if_pos he]
      exact ⟨3, _, .edeadlk, hread, rfl, rfl, update_self t _ s.pc⟩
    · rw [checkOwner, if_pos howner, if_neg he] at hcall
      rw [if_neg he]
      exact ⟨4, _, .ok, hcall, rfl, rfl, update_self t _ s.pc⟩
  · rw [checkOwner, if_neg howner, exec, attemptSection] at hcall
    rw [if_neg howner]
    by_cases hv : s.value = s.value &&& mutexTypeMask ||| s.value &&& mutexSharedMask
    · rw [if_pos hv] at hcall ⊢
      exact ⟨4, _, .ok, hcall, rfl, rfl, update_self t _ s.pc⟩
    · rw [if_neg hv] at hcall ⊢
      exact ⟨4, _, .ebusy, hcall, rfl, rfl, update_self t _ s.pc⟩

end

end Pthread.Owned

namespace Pthread.Normal

section
variable {T : Type} [DecidableEq T]

/-- A trylock call that meets nobody does to the word what `trylock` does, and holds the mutex
afterwards if that returns 0. -/
theorem run_trylock {s : State T} {t : T} (tid : Word) (hp : (s.pc t).outside = true)
    (htype : s.value &&& mutexTypeMask = mutexTypeNormal) :
    ∃ s', machine.run s [.call t .trylock, .exec t, .exec t, .exec t] = some s' ∧
      s'.value = (Destroy.trylock tid s.value).1 ∧
      s'.held t = (decide ((Destroy.trylock tid s.value).2 = .ok) || s.held t) := by
  have hrun : machine.run s [.call t .trylock, .exec t, .exec t, .exec t] =
      some (s.put t (tryFast .trylock (s.value &&& mutexSharedMask) s.value (s.held t))) := by
    simp only [Machine.run, machine, step, hp, if_true, exec, dispatch, htype, State.goto,
      State.put, Option.bind_some, Option.map_some, update_self, update_idem,
      update_eq_self]
  refine ⟨_, hrun, ?_⟩
  have hheld : ∀ r : Local, (s.put t r).held t = r.held := by
    intro r
    exact update_self t _ s.held
  rw [hheld]
  simp only [State.put, tryFast, Destroy.trylock, htype, if_true]
  by_cases hfree : (atomicCmpxchg (s.value &&& mutexSharedMask ||| 0)
      (s.value &&& mutexSharedMask ||| 1) s.value).2 = 0
  · rw [if_pos hfree, if_pos hfree]
    exact ⟨rfl, rfl⟩
  · rw [if_neg hfree, if_neg hfree]
    exact ⟨rfl, rfl⟩

end

end Pthread.Normal

/-! ## Destroying a mutex in use -/

namespace Pthread.Destroy

section
variable {T : Type} (tid : T → Word)

theorem normal_nobody {sh : Word} {s : Normal.State T} (hi : Normal.Inv sh s)
    (h : s.value &&& 3 = 0) (u : T) : s.held u = false := by
  have hfree : s.value = sh := by
    obtain ⟨hsh, hv | hv | hv⟩ := hi.word
    · exact hv
    · rw [hv] at h
      rcases hsh with rfl | rfl <;> exact absurd h (by decide)
    · rw [hv] at h
      rcases hsh with rfl | rfl <;> exact absurd h (by decide)
  cases hheld : s.held u with
  | false => rfl
  | true => exact absurd hfree (hi.busy u hheld)

theorem normal_destroysUnlocked {sh : Word} {s : Normal.State T} (hi : Normal.Inv sh s) (t : Word) :
    DestroysUnlocked t s.value s.held := by
  rw [destroysUnlocked_iff, trylock_ok_iff, hi.word.masks.1, hi.word.masks.2]
  rintro (⟨-, hfree⟩ | ⟨hne, -⟩ | ⟨hne, -⟩)
  · apply normal_nobody hi
    rw [hfree]
    rcases hi.word.1 with rfl | rfl <;> decide
  · exact absurd rfl hne
  · exact absurd rfl hne

variable [DecidableEq T]

/-- A mutex word that is reached, with the threads that hold the mutex then; the steps of a
recursive or error-check mutex meet the guard. -/
inductive InUse (guard : Owned.State T → Owned.Act T → Prop) : Word → (T → Bool) → Prop
  | normal {s : Normal.State T} : Normal.machine.Reachable s → InUse guard s.value s.held
  | owned {ty : Word} {s : Owned.State T} : IsOwnedType ty →
      (Owned.machine tid ty).ReachableIf guard s →
      InUse guard s.value fun t => decide (0 < s.holds t)

variable {tid}

omit [DecidableEq T] in
/-- The word of a mutex with an owner: the owner of a recursive one destroys it, and a released
word is destroyed whoever holds. -/
theorem owned_destroysUnlocked_iff {ty sh : Word} (hv : Owned.ValidTids tid) (hty : IsOwnedType ty)
    (hsh : IsSharedFlag sh) {value : Word} {holds : T → Nat}
    (h : Owned.CountOk tid ty sh value holds) (t : T) :
    DestroysUnlocked (tid t) value (fun u => decide (0 < holds u)) ↔
      ¬ (value &&& mutexTypeMask = mutexTypeRecursive ∧ tid t = mutexOwner value) ∧
        (value &&& 3 = 0 → ∀ u, decide (0 < holds u) = false) := by
  have hnormal : ty ≠ mutexTypeNormal := by
    rcases hty with rfl | rfl <;> decide
  rcases h with rfl | ⟨w, k, st, hf, hst, hlt⟩
  · have hf := hasFields_base hty hsh
    have howner := Owned.owner_base_ne hv hty hsh t
    have hstate : (ty ||| sh) &&& 3 = 0 := (state_eq_iff _ _).2 (hf.mod4 hty hsh)
    rw [destroysUnlocked_iff, trylock_ok_iff, hf.type hty hsh, hf.shared hty hsh]
    constructor
    · intro h
      exact ⟨fun hc => howner hc.2, fun _ => h (.inr (.inr ⟨hnormal, howner, rfl⟩))⟩
    · intro h _
      exact h.2 hstate
  · have hne : value ≠ ty ||| sh := by
      rw [ne_eq, hf.eq_base_iff hty hsh]
      omega
    have hstate : value &&& 3 ≠ 0 := by
      rw [ne_eq, state_eq_iff, hf.mod4 hty hsh]
      show ¬ st = 0
      omega
    rw [destroysUnlocked_iff, trylock_ok_iff, hf.type hty hsh, hf.shared hty hsh]
    constructor
    · intro h
      refine ⟨?_, fun hc => absurd hc hstate⟩
      rintro ⟨rfl, howner⟩
      -- the owner gets the mutex once more
      have hnone := h (.inr (.inl ⟨hnormal, by decide, howner⟩)) w
      exact absurd (of_decide_eq_false hnone) (by omega)
    · rintro ⟨hrec, -⟩ (⟨hn, -⟩ | ⟨-, hec, howner⟩ | ⟨-, -, hbase⟩)
      · exact absurd hn hnormal
      · exact absurd ⟨hty.resolve_right hec, howner⟩ hrec
      · exact absurd hbase hne

/-- **What `pthread_mutex_destroy` destroys.**  It refuses a mutex that is held, unless the
mutex is recursive and the caller is the owner, or its counter has wrapped and its word is the
released one; in runs in which no counter wraps only the first is possible. -/
theorem mutexDestroy_iff (hv : Owned.ValidTids tid) {value : Word} {held : T → Bool} (t : T) :
    (InUse tid (fun _ _ => True) value held →
      (DestroysUnlocked (tid t) value held ↔
        ¬ (value &&& mutexTypeMask = mutexTypeRecursive ∧ tid t = mutexOwner value) ∧
          (value &&& 3 = 0 → ∀ u, held u = false))) ∧
    (InUse tid Owned.NoOverflow value held →
      (DestroysUnlocked (tid t) value held ↔
        ¬ (value &&& mutexTypeMask = mutexTypeRecursive ∧ held t = true))) := by
  constructor
  · intro h
    cases h with
    | normal h =>
      obtain ⟨sh, hi⟩ := Normal.reachable_inv h
      refine ⟨fun _ => ⟨?_, normal_nobody hi⟩, fun _ => normal_destroysUnlocked hi (tid t)⟩
      rintro ⟨hrec, -⟩
      exact absurd (hi.word.masks.1.symm.trans hrec) (by decide)
    | owned hty h =>
      obtain ⟨sh, hsh, hp⟩ := Owned.reachable_placing hv hty h
      exact owned_destroysUnlocked_iff hv hty hsh hp.word t
  · intro h
    cases h with
    | normal h =>
      obtain ⟨sh, hi⟩ := Normal.reachable_inv h
      refine ⟨fun _ => ?_, fun _ => normal_destroysUnlocked hi (tid t)⟩
      rintro ⟨hrec, -⟩
      exact absurd (hi.word.masks.1.symm.trans hrec) (by decide)
    | @owned ty s hty h =>
      obtain ⟨sh, hsh, hi⟩ := Owned.reachable_inv hv hty (fun _ _ _ _ h => h) h
      have hnobody : s.value &&& 3 = 0 → ∀ u, decide (0 < s.holds u) = false := by
        intro hstate u
        rw [(hi.released_iff hty hsh).1 hstate u]
        rfl
      rw [owned_destroysUnlocked_iff hv hty hsh hi.word.countOk t,
        hi.word.owner_iff hv hty hsh t, decide_eq_true_iff]
      exact ⟨fun h => h.1, fun h => ⟨h, hnobody⟩⟩

/-- A recursive mutex that thread 1 has locked: thread 2 is refused, and the word stays. -/
theorem mutexDestroy_by_other : ∃ s : Owned.State Bool,
    (Owned.machine Owned.twoTids mutexTypeRecursive).ReachableIf Owned.NoOverflow s ∧
    s.holds false = 1 ∧
    (pthreadMutexDestroy 2 (some s.value)) = (some s.value, .ebusy) ∧
    DestroysUnlocked 2 s.value fun t => decide (0 < s.holds t) := by
  obtain ⟨s, hrun, hholds, hother, hret⟩ : ∃ s : Owned.State Bool,
      (Owned.machine Owned.twoTids mutexTypeRecursive).runIf Owned.NoOverflow
        (Owned.fresh mutexTypeRecursive) (Owned.lockCall false) = some s ∧
      s.holds false = 1 ∧ s.holds true = 0 ∧
      (pthreadMutexDestroy 2 (some s.value)) = (some s.value, .ebusy) := ⟨_, rfl, rfl, rfl, rfl⟩
  have hreach : (Owned.machine Owned.twoTids mutexTypeRecursive).ReachableIf Owned.NoOverflow s :=
    Machine.ReachableIf.runIf (.init (Owned.fresh_init (.inl rfl))) _ hrun
  refine ⟨s, hreach, hholds, hret, ?_⟩
  refine ((mutexDestroy_iff Owned.twoTids_valid true).2 (.owned (.inl rfl) hreach)).2 ?_
  rintro ⟨-, hheld⟩
  exact absurd (of_decide_eq_true hheld) (by omega)

/-- The owner of a recursive mutex destroys it while it is locked. -/
theorem mutexDestroy_by_owner : ∃ s : Owned.State Bool,
    (Owned.machine Owned.twoTids mutexTypeRecursive).ReachableIf Owned.NoOverflow s ∧
    s.holds false = 1 ∧ s.value = 0x00014001 ∧
    (pthreadMutexDestroy 1 (some s.value)) = (some 0xdead10cc, .ok) ∧
    ¬ DestroysUnlocked 1 s.value fun t => decide (0 < s.holds t) := by
  obtain ⟨s, hrun, hholds, hvalue, hret⟩ : ∃ s : Owned.State Bool,
      (Owned.machine Owned.twoTids mutexTypeRecursive).runIf Owned.NoOverflow
        (Owned.fresh mutexTypeRecursive) (Owned.lockCall false) = some s ∧
      s.holds false = 1 ∧ s.value = 0x00014001 ∧
      (pthreadMutexDestroy 1 (some s.value)) = (some 0xdead10cc, .ok) := ⟨_, rfl, rfl, rfl, rfl⟩
  refine ⟨s, Machine.ReachableIf.runIf (.init (Owned.fresh_init (.inl rfl))) _ hrun, hholds, hvalue,
    hret, ?_⟩
  intro hd
  have hnone := hd.1 (by rw [hret]) false
  exact absurd (of_decide_eq_false hnone) (by omega)

end

end Pthread.Destroy
