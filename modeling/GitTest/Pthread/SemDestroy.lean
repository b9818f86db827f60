import GitTest.Pthread.Semaphore

/-!
# Destroying a semaphore (libc/bionic/semaphore.c)

`sem_destroy` takes the value -1 as the sign that a thread is waiting.  A waiter stores the -1,
but only a post takes it away: a `sem_timedwait` that ends with an error leaves it behind.

    ReachableIf NotLast s → sem_destroy fails only if a wait is in progress  (semDestroy_truthful)
    after a `sem_timedwait` that timed out alone, sem_destroy returns EBUSY  (destroy_stays_busy)
-/

namespace Pthread.Semaphore

open BitField Function Futex Machines

/-! ## Algorithm -/

/-- The count that `sem_destroy` stores; `none` is the `EBUSY` return. -/
def semDestroy (count : Word) : Option Word :=
  if semcountToValue count < 0 then none else some 0

def Caller.waits : Caller → Bool
  | .dec _ _ | .timedwait _ => true
  | .trywait | .inc _ => false

def Pc.waits : Pc → Bool
  | .waitShared | .timedShared _ | .clock _ _ | .futexWait _ _ | .blocked _ _ => true
  | .loopShared c | .loopRead c _ | .loopSwap c _ _ _ _ => c.waits
  | .idle | .returned _ _ | .postShared | .wake _ => false

/-- `sem_timedwait` finds no token in a semaphore of value `n`, and then a bad time. -/
def Pc.rejects (n : Int) : Pc → Bool
  | .loopRead (.timedwait abs) _ => decide (n ≤ 0) && (validTimeout abs).isNone
  | .loopRead (.dec _ _) _ | .loopRead .trywait _ | .loopRead (.inc _) _ | .idle | .returned _ _
  | .waitShared | .timedShared _ | .postShared | .loopShared _ | .loopSwap _ _ _ _ _ | .clock _ _
  | .futexWait _ _ | .blocked _ _ | .wake _ => false

def Pc.expires (now : Timespec) : Pc → Bool
  | .clock abs _ => (timespecToAbsolute abs now).isNone
  | .idle | .returned _ _ | .waitShared | .timedShared _ | .postShared | .loopShared _
  | .loopRead _ _ | .loopSwap _ _ _ _ _ | .futexWait _ _ | .blocked _ _ | .wake _ => false

/-- The sleep of `sem_timedwait` ends by the timeout or by a signal. -/
def Pc.breaksOff (err : Option Errno) : Pc → Bool
  | .blocked (some _) _ => decide (err = some .etimedout ∨ err = some .eintr)
  | .blocked none _ | .idle | .returned _ _ | .waitShared | .timedShared _ | .postShared
  | .loopShared _ | .loopRead _ _ | .loopSwap _ _ _ _ _ | .clock _ _ | .futexWait _ _
  | .wake _ => false

section
variable {T : Type}

def Act.thread : Act T → T
  | .call t _ | .exec t | .clock t _ | .futexWait t | .giveUp t _ | .resume t | .futexWake t => t

def fails (s : State T) : Act T → Bool
  | .exec t => (s.pc t).rejects s.value
  | .clock t now => (s.pc t).expires now
  | .giveUp t err => (s.pc t).breaksOff err
  | .call _ _ | .futexWait _ | .resume _ | .futexWake _ => false

/-- A `sem_timedwait` that fails next to the value -1 is not the last wait in progress. -/
def NotLast (s : State T) (a : Act T) : Prop :=
  fails s a = true → s.value = -1 → ∃ u, u ≠ a.thread ∧ (s.pc u).waits = true

instance [DecidableEq T] [Fintype T] (s : State T) (a : Act T) : Decidable (NotLast s a) :=
  inferInstanceAs (Decidable (fails s a = true → s.value = -1 →
    ∃ u, u ≠ a.thread ∧ (s.pc u).waits = true))

/-- The value -1 is there for somebody. -/
def Marked (s : State T) : Prop := s.value = -1 → ∃ u, (s.pc u).waits = true

end

/-! ## What one step does to the waits in progress -/

/-- The places of a thread before and after a step of its own, next to the values `n` and `n'`. -/
structure Moves (n n' : Int) (failed : Bool) (p p' : Pc) : Prop where
  /-- who stores -1, or finds it as a waiter, goes on waiting or fails -/
  stays : n' = -1 → failed = false → n ≠ -1 ∨ p.waits = true → p'.waits = true
  leaves : failed = true → n' = n ∧ p'.waits = false

variable {x : Word} {n : Int} {p p' : Pc} {c : Caller}

theorem Caller.next_dec_waits {abs : Option Timespec} (h : n ≤ 0) :
    ((Caller.dec abs x).next n).waits = true := by
  have hn : ¬ n > 0 := by omega
  cases abs with
  | none | some => simp [Caller.next, hn, Pc.waits]

theorem moves_within (hw : p'.waits = p.waits) : Moves n n false p p' :=
  ⟨fun hn _ h => hw ▸ h.resolve_left (fun hne => hne hn), fun h => nomatch h⟩

theorem moves_outside (hp : p.waits = false) : Moves n n false p p' :=
  ⟨fun hn _ h => absurd h (by simp [hn, hp]), fun h => nomatch h⟩

theorem moves_fail (hp : p'.waits = false) : Moves n n true p p' :=
  ⟨fun _ h _ => (nomatch h), fun _ => ⟨rfl, hp⟩⟩

theorem moves_stop (hs : ¬ c.Swaps n) :
    Moves n n ((Pc.loopRead c x).rejects n) (.loopRead c x) (c.next n) := by
  cases c with
  | dec abs y =>
    exact ⟨fun _ _ _ => Caller.next_dec_waits (by omega), fun h => absurd h Bool.false_ne_true⟩
  | trywait | inc => exact moves_outside rfl
  | timedwait abs =>
    have hn : ¬ 0 < n := hs
    have hle : n ≤ 0 := by omega
    cases hv : validTimeout abs with
    | none =>
      simp only [Caller.next, Pc.rejects, hv, hn, hle, if_false]
      exact moves_fail rfl
    | some ts =>
      simp only [Caller.next, Pc.rejects, hv, hn, hle, if_false]
      exact ⟨fun _ _ _ => rfl, fun h => absurd h Bool.false_ne_true⟩

theorem Caller.target_inRange (hn : InRange n) (hs : c.Swaps n) :
    InRange (c.target n) := by
  have hmax : ((semMaxValue : Nat) : Int) = 1073741823 := rfl
  obtain ⟨hn1, hn2⟩ := hn
  cases c with
  | dec abs y =>
    change 0 ≤ n at hs
    exact ⟨by simp only [Caller.target]; omega, by simp only [Caller.target]; omega⟩
  | trywait | timedwait =>
    change 0 < n at hs
    exact ⟨by simp only [Caller.target]; omega, by simp only [Caller.target]; omega⟩
  | inc y =>
    change n ≠ semMaxValue at hs
    simp only [Caller.target]
    split
    · exact ⟨by omega, by omega⟩
    · exact ⟨by omega, by omega⟩

/-- A loop that stores: only a wait stores -1, and it goes on to sleep. -/
theorem moves_stored {old new : Word} (hs : c.Swaps n) :
    Moves n (c.target n) false (.loopSwap c x old n new) (c.next n) := by
  refine ⟨fun ht _ _ => ?_, fun h => nomatch h⟩
  cases c with
  | dec abs y =>
    change n - 1 = -1 at ht
    exact Caller.next_dec_waits (by omega)
  | trywait | timedwait =>
    change 0 < n at hs
    change n - 1 = -1 at ht
    omega
  | inc y =>
    simp only [Caller.target] at ht
    split at ht <;> omega

theorem moves_exec {sh : Word} {k : Tally} {r : Local} (hsh : IsFlag sh) (hn : InRange n)
    (hp : p.Knows sh) (h : exec (tagged sh n) k p = some r) :
    ∃ n', InRange n' ∧ r.count = tagged sh n' ∧ Moves n n' (p.rejects n) p r.pc := by
  cases p with
  | idle | returned | clock | futexWait | blocked | wake => cases h
  | waitShared | timedShared | postShared | loopShared =>
    cases h
    exact ⟨n, hn, rfl, moves_within rfl⟩
  | loopRead c x =>
    simp only [exec, tagged_value hsh] at h
    rcases c.round_tagged hn with ⟨hsw, hr⟩ | ⟨hsw, hr⟩
    · rw [hr] at h
      cases h
      have hgo : (Pc.loopRead c x).rejects n = false := by
        cases c with
        | timedwait abs =>
          change 0 < n at hsw
          simp [Pc.rejects, hsw]
        | dec | trywait | inc => rfl
      rw [hgo]
      exact ⟨n, hn, rfl, moves_within rfl⟩
    · rw [hr] at h
      cases h
      exact ⟨n, hn, rfl, moves_stop hsw⟩
  | loopSwap c x old ret new =>
    obtain ⟨hc, rfl, hret, hsw, rfl, rfl⟩ := hp
    simp only [exec, atomicCmpxchg, tagged_zero_or hsh.toNat_lt] at h
    by_cases he : tagged x n = tagged x ret
    · obtain rfl := tagged_inj hsh hn hret he
      simp only [if_true, ne_eq, not_true_eq_false, if_false, Option.some.injEq] at h
      subst h
      exact ⟨c.target n, Caller.target_inRange hn hsw, rfl, moves_stored hsw⟩
    · simp only [he, if_false, ne_eq, show ¬ (1 : Word) = 0 by decide, not_false_eq_true, if_true,
        Option.some.injEq] at h
      subst h
      exact ⟨n, hn, rfl, moves_within rfl⟩

section
variable {T : Type}

theorem semDestroy_eq_none_iff {sh : Word} {v : Nat} {s : State T} (hi : Inv sh v s) :
    semDestroy s.count = none ↔ s.value = -1 := by
  obtain ⟨hlow, -⟩ := hi.range
  have hlt : semcountToValue s.count < 0 ↔ s.value = -1 := by
    change s.value < 0 ↔ _
    omega
  simp [semDestroy, hlt]

variable [DecidableEq T]

theorem moves_afterWait {n : Int} {abs : Option Timespec} {shared : Word} (err : Option Errno) :
    Moves n n ((Pc.blocked abs shared).breaksOff err) (.blocked abs shared)
      (afterWait abs shared err) := by
  cases abs with
  | none => exact moves_within rfl
  | some ts =>
    simp only [Pc.breaksOff, afterWait]
    by_cases he : err = some .etimedout ∨ err = some .eintr
    · simp only [he, if_true, decide_true]
      exact moves_fail rfl
    · simp only [he, if_false, decide_false]
      exact moves_within rfl

/-- A step moves one thread, in one of the ways of `Moves`. -/
theorem moves_step {sh : Word} {v : Nat} {s s' : State T} {a : Act T} (hi : Inv sh v s)
    (h : step s a = some s') :
    (∀ u, u ≠ a.thread → s'.pc u = s.pc u) ∧
      Moves s.value s'.value (fails s a) (s.pc a.thread) (s'.pc a.thread) := by
  -- all actions but `exec` leave the count as it is
  have quiet : ∀ {a : Act T} {s' : State T} {p : Pc}, s'.pc = update s.pc a.thread p →
      s'.value = s.value → Moves s.value s.value (fails s a) (s.pc a.thread) p →
      (∀ u, u ≠ a.thread → s'.pc u = s.pc u) ∧
        Moves s.value s'.value (fails s a) (s.pc a.thread) (s'.pc a.thread) := by
    intro a s' p hs hv hm
    rw [hv, hs, update_self]
    exact ⟨fun u hu => update_of_ne hu _ _, hm⟩
  revert h
  fun_cases step s a with
  | case1 _ _ hp | case2 _ _ _ _ hp | case17 _ _ hp =>
    rintro ⟨⟩
    exact quiet rfl rfl (moves_outside (by simp only [Act.thread, hp]; rfl))
  | case4 t =>
    intro h
    obtain ⟨r, he, rfl⟩ := Option.map_eq_some_iff.1 h
    rw [hi.word] at he
    obtain ⟨n', hr, hc, hm⟩ := moves_exec hi.flag hi.range (hi.knows t) he
    have hv : semcountToValue r.count = n' := by rw [hc, semcountToValue_tagged hi.flag hr]
    refine ⟨fun u hu => update_of_ne hu _ _, ?_⟩
    change Moves s.value (semcountToValue r.count) _ _ (update s.pc t r.pc t)
    rw [hv, update_self]
    exact hm
  | case5 _ _ _ _ hp hlate =>
    rintro ⟨⟩
    refine quiet rfl rfl ?_
    simp only [fails, Act.thread, hp, Pc.expires, hlate, Option.isNone_none]
    exact moves_fail rfl
  | case6 _ _ _ _ hp _ hleft =>
    rintro ⟨⟩
    refine quiet rfl rfl ?_
    simp only [fails, Act.thread, hp, Pc.expires, hleft, Option.isNone_some]
    exact moves_within rfl
  | case8 _ _ _ hp =>
    rintro ⟨⟩
    refine quiet rfl rfl (moves_within ?_)
    simp only [Act.thread, hp]
    rfl
  | case9 _ abs _ hp | case15 _ abs _ hp =>
    rintro ⟨⟩
    refine quiet rfl rfl (moves_within ?_)
    simp only [Act.thread, hp]
    cases abs <;> rfl
  | case11 _ err _ _ hp =>
    rintro ⟨⟩
    refine quiet rfl rfl ?_
    simp only [fails, Act.thread, hp]
    exact moves_afterWait err
  | _ => rintro ⟨⟩

/-- One step keeps the value -1 justified exactly if it is not the failure of the last wait. -/
theorem marked_step_iff {sh : Word} {v : Nat} {s s' : State T} {a : Act T} (hi : Inv sh v s)
    (hm : Marked s) (h : step s a = some s') : Marked s' ↔ NotLast s a := by
  obtain ⟨hothers, hmoves⟩ := moves_step hi h
  constructor
  · intro hm' hf hv
    obtain ⟨hsame, hout⟩ := hmoves.leaves hf
    obtain ⟨u, hu⟩ := hm' (hsame.trans hv)
    have hne : u ≠ a.thread := by
      rintro rfl
      rw [hout] at hu
      cases hu
    exact ⟨u, hne, by rwa [hothers u hne] at hu⟩
  · intro hlast hv'
    cases hf : fails s a with
    | true =>
      obtain ⟨hsame, -⟩ := hmoves.leaves hf
      obtain ⟨u, hne, hu⟩ := hlast hf (hsame ▸ hv')
      exact ⟨u, by rwa [hothers u hne]⟩
    | false =>
      by_cases hv : s.value = -1
      · -- the waiter is another thread, or it moves on as a waiter
        obtain ⟨u, hu⟩ := hm hv
        by_cases hne : u = a.thread
        · exact ⟨a.thread, hmoves.stays hv' hf (.inr (hne ▸ hu))⟩
        · exact ⟨u, by rwa [hothers u hne]⟩
      · exact ⟨a.thread, hmoves.stays hv' hf (.inl hv)⟩

/-! ## Top theorems -/

/-- **Contention is reported truthfully.**  In every run in which no `sem_timedwait` fails next to
the value -1 as the last wait in progress, `sem_destroy` succeeds whenever no wait is in progress,
and fails only if one is. -/
theorem semDestroy_truthful {s : State T} (h : machine.ReachableIf NotLast s) :
    ((∀ t, (s.pc t).waits = false) → semDestroy s.count = some 0) ∧
      (semDestroy s.count = none → ∃ t, (s.pc t).waits = true) := by
  obtain ⟨⟨sh, v, hi⟩, hm⟩ : (∃ sh v, Inv sh v s) ∧ Marked s := by
    refine Machine.ReachableIf.invariant
      (I := fun s => (∃ sh v, Inv sh v s) ∧ Marked s) ?_ ?_ h
    · rintro s ⟨v, h0⟩
      obtain ⟨sh, hi⟩ := inv_init h0
      refine ⟨⟨sh, _, hi⟩, fun hv => ?_⟩
      -- `sem_init` stores no negative value
      obtain ⟨⟨ps, hc⟩, -⟩ := h0
      obtain ⟨hr, sh', hsh, he⟩ := semInit_eq hc
      unfold State.value at hv
      rw [he, semcountToValue_tagged hsh hr] at hv
      omega
    · rintro s a s' ⟨⟨sh, v, hi⟩, hm⟩ hg hs
      exact ⟨⟨sh, v, inv_step hi hs⟩, (marked_step_iff hi hm hs).mpr hg⟩
  have hbusy : semDestroy s.count = none → ∃ t, (s.pc t).waits = true := fun hd =>
    hm ((semDestroy_eq_none_iff hi).mp hd)
  refine ⟨fun hnone => ?_, hbusy⟩
  by_contra hd
  have hd' : semDestroy s.count = none := by
    unfold semDestroy at hd ⊢
    split
    · rfl
    · next hv => exact absurd (if_neg hv) hd
  obtain ⟨t, ht⟩ := hbusy hd'
  rw [hnone t] at ht
  cases ht

/-- `true` sleeps in `sem_wait` while the `sem_timedwait` of `false` is refused for its time; then
`false` posts and `true` takes the token. -/
def refusedRun : List (Act Bool) :=
  [.call true .wait, .exec true, .exec true, .exec true, .exec true, .futexWait true,
   .call false (.timedwait none), .exec false, .exec false,
   .call false .post, .exec false, .exec false, .exec false, .exec false, .futexWake false,
   .resume true, .exec true, .exec true, .exec true]

theorem semDestroy_truthful_refused :
    ∃ s : State Bool, machine.ReachableIf NotLast s ∧
      s.pc false = .returned .post none ∧ s.pc true = .returned .wait none ∧
      ((∀ t, (s.pc t).waits = false) → semDestroy s.count = some 0) ∧
      (semDestroy s.count = none → ∃ t, (s.pc t).waits = true) := by
  obtain ⟨s, hs, hf, ht⟩ : ∃ s : State Bool,
      machine.runIf NotLast emptySemaphore refusedRun = some s ∧
      s.pc false = .returned .post none ∧ s.pc true = .returned .wait none := ⟨_, rfl, rfl, rfl⟩
  have hr : machine.ReachableIf NotLast s :=
    Machine.ReachableIf.runIf (.init ⟨0, emptySemaphore_init⟩) _ hs
  exact ⟨s, hr, hf, ht, semDestroy_truthful hr⟩

/-- A `sem_timedwait` on an empty semaphore that times out. -/
def timeoutRun : List (Act Bool) :=
  [.call true (.timedwait (some ⟨5, 0⟩)), .exec true, .exec true, .exec true, .clock true ⟨4, 0⟩,
   .exec true, .exec true, .exec true, .futexWait true, .giveUp true (some .etimedout)]

/-- Its mark stays: nobody is in a wait, and `sem_destroy` returns `EBUSY`. -/
theorem destroy_stays_busy :
    ∃ s : State Bool, machine.run emptySemaphore timeoutRun = some s ∧
      s.pc true = .returned (.timedwait (some ⟨5, 0⟩)) (some .etimedout) ∧
      (∀ t, (s.pc t).waits = false) ∧ semDestroy s.count = none :=
  ⟨_, rfl, rfl, by decide +kernel, by decide +kernel⟩

end

end Pthread.Semaphore
