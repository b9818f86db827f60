import GitTest.Lib.Transition
import Mathlib.Data.List.Basic

/-!
# The queue of decoration requests (GitDecoratorJob.java)

Threads of any type `T` call `addDecorationRequest`, which is synchronized; the job's `run`
tests the queue outside the lock, copies and clears it under the lock and processes the copy.
The job manager is Eclipse's: a job scheduled in the state NONE is run later, and its state
is RUNNING until after `run` has returned.

The ghost `owed` holds the elements that were requested and not handed to `processDecoration`
since.  A request is lost if it looks at the job state after the last test of the queue and
before the state changes to NONE; in runs without that (`InTime`) none is (`no_request_lost`).
-/

namespace Egit.DecoratorJob

open Function List Machines

/-! ## Algorithm -/

inductive JobState
  | none
  | scheduled
  | running
  deriving DecidableEq, Repr

/-- Where a thread is in `addDecorationRequest`. -/
inductive Caller (E : Type)
  | idle
  /-- before `elementList.add` -/
  | entered (element : E)
  /-- before the test of the job state -/
  | testing
  /-- before `schedule` -/
  | scheduling
  /-- before the end of the synchronized method -/
  | leaving
  deriving DecidableEq, Repr

/-- Where the job is in `run`. -/
inductive Worker (E : Type)
  | idle
  /-- before the test of `isEmpty` -/
  | testing
  /-- before the synchronized block -/
  | copying
  /-- before `processDecoration` -/
  | processing (elements : List E)
  /-- behind the loop, until the job manager changes the state -/
  | returned
  deriving DecidableEq, Repr

structure State (T E : Type) where
  elementList : List E
  lock : Option T
  jobState : JobState
  worker : Worker E
  caller : T → Caller E
  owed : List E

inductive Action (T E : Type)
  | enter (t : T) (element : E)
  | add (t : T)
  | getState (t : T)
  | schedule (t : T)
  | leave (t : T)
  | wake
  | isEmpty
  | copy
  | process
  | finish

section
variable {T E : Type} [DecidableEq T] [DecidableEq E]

def State.goto (s : State T E) (t : T) (c : Caller E) : State T E :=
  { s with caller := Function.update s.caller t c }

def step (s : State T E) : Action T E → Option (State T E)
  | .enter t element =>
    if s.lock = none ∧ s.caller t = .idle then
      some { s.goto t (.entered element) with lock := some t }
    else none
  | .add t =>
    match s.caller t with
    | .entered element =>
      if element ∈ s.elementList then
        some { s.goto t .leaving with owed := element :: s.owed }
      else
        some { s.goto t .testing with
          elementList := element :: s.elementList, owed := element :: s.owed }
    | _ => none
  | .getState t =>
    match s.caller t with
    | .testing => some (s.goto t (if s.jobState = .none then .scheduling else .leaving))
    | _ => none
  | .schedule t =>
    match s.caller t with
    | .scheduling => some { s.goto t .leaving with jobState := .scheduled }
    | _ => none
  | .leave t =>
    match s.caller t with
    | .leaving => some { s.goto t .idle with lock := none }
    | _ => none
  | .wake =>
    if s.jobState = .scheduled then some { s with jobState := .running, worker := .testing }
    else none
  | .isEmpty =>
    match s.worker with
    | .testing => some { s with worker := if s.elementList = [] then .returned else .copying }
    | _ => none
  | .copy =>
    match s.worker with
    | .copying =>
      if s.lock = none then
        some { s with worker := .processing s.elementList, elementList := [] }
      else none
    | _ => none
  | .process =>
    match s.worker with
    | .processing elements =>
      some { s with worker := .testing, owed := s.owed.filter fun e => decide (e ∉ elements) }
    | _ => none
  | .finish =>
    match s.worker with
    | .returned => some { s with worker := .idle, jobState := .none }
    | _ => none

def start (T E : Type) : State T E := ⟨[], none, .none, .idle, fun _ => .idle, []⟩

def machine (T E : Type) [DecidableEq T] [DecidableEq E] : Machine (State T E) (Action T E) :=
  ⟨fun s => s = start T E, step⟩

/-- No request looks at the job state between the last test of the queue and the change of the
state to NONE. -/
def InTime (s : State T E) : Action T E → Prop
  | .getState _ => s.worker ≠ .returned
  | _ => True

instance (s : State T E) : (a : Action T E) → Decidable (InTime s a)
  | .getState _ => inferInstanceAs (Decidable (s.worker ≠ .returned))
  | .enter _ _ | .add _ | .schedule _ | .leave _ | .wake | .isEmpty | .copy | .process
  | .finish => isTrue trivial

/-- The steps of the job and of the job manager. -/
def Action.OfJob : Action T E → Prop
  | .wake | .isEmpty | .copy | .process | .finish => True
  | .enter _ _ | .add _ | .getState _ | .schedule _ | .leave _ => False

end

/-! ## Invariant -/

section
variable {T E : Type}

/-- The job will test the queue again. -/
def Worker.looping : Worker E → Prop
  | .testing | .copying | .processing _ => True
  | .idle | .returned => False

def Worker.batch : Worker E → List E
  | .processing elements => elements
  | .idle | .testing | .copying | .returned => []

/-- A request that will still look at the job state, or has seen NONE. -/
def State.asking (s : State T E) : Prop := ∃ t, s.caller t = .testing ∨ s.caller t = .scheduling

structure Inv (s : State T E) : Prop where
  lock_iff : ∀ t, s.lock = some t ↔ s.caller t ≠ .idle
  running_iff : s.jobState = .running ↔ s.worker ≠ .idle
  scheduling : ∀ t, s.caller t = .scheduling → s.jobState = .none
  pending : s.elementList ≠ [] → s.jobState = .scheduled ∨ s.worker.looping ∨ s.asking
  owed : ∀ e ∈ s.owed, e ∈ s.elementList ∨ e ∈ s.worker.batch

theorem inv_start : Inv (start T E) where
  lock_iff := fun _ => ⟨nofun, fun h => absurd rfl h⟩
  running_iff := ⟨nofun, fun h => absurd rfl h⟩
  scheduling := fun _ => nofun
  pending := fun h => absurd rfl h
  owed := fun _ => nofun

variable {s s' : State T E} {t u : T} {a : Action T E}

theorem Inv.eq_of_busy (hi : Inv s) (ht : s.caller t ≠ .idle) (hu : s.caller u ≠ .idle) :
    t = u := by
  have hlock := (hi.lock_iff t).2 ht
  rw [(hi.lock_iff u).2 hu] at hlock
  exact (Option.some.inj hlock).symm

/-- While a thread is in the method nobody else is asking. -/
theorem Inv.not_asking (hi : Inv s) (ht : s.caller t ≠ .idle) (h₁ : s.caller t ≠ .testing)
    (h₂ : s.caller t ≠ .scheduling) : ¬ s.asking := by
  rintro ⟨u, hu⟩
  have hbusy : s.caller u ≠ .idle := by
    rcases hu with hu | hu
    · rw [hu]; exact nofun
    · rw [hu]; exact nofun
  obtain rfl := hi.eq_of_busy ht hbusy
  exact hu.elim h₁ h₂

theorem Inv.worker_idle (hi : Inv s) (h : s.jobState ≠ .running) : s.worker = .idle := by
  by_contra hne
  exact h (hi.running_iff.2 hne)

theorem Inv.owed_list (hi : Inv s) (hbatch : s.worker.batch = []) :
    ∀ e ∈ s.owed, e ∈ s.elementList := by
  intro e he
  have hor := hi.owed e he
  rw [hbatch] at hor
  exact hor.resolve_right not_mem_nil

theorem Inv.owed_nil (hi : Inv s) (hlist : s.elementList = []) (hbatch : s.worker.batch = []) :
    s.owed = [] := by
  refine eq_nil_iff_forall_not_mem.2 fun e he => ?_
  have hin := hi.owed_list hbatch e he
  rw [hlist] at hin
  cases hin

/-- A queue that the job will not see is left to a request that is asking. -/
theorem Inv.asking_of_pending (hi : Inv s) (hne : s.elementList ≠ [])
    (hjob : s.jobState ≠ .scheduled) (hw : ¬ s.worker.looping) : s.asking := by
  rcases hi.pending hne with h | h | h
  · exact absurd h hjob
  · exact absurd h hw
  · exact h

theorem Inv.pending_of_not_asking (hi : Inv s) (hnot : ¬ s.asking) {p : Prop}
    (hne : s.elementList ≠ []) : s.jobState = .scheduled ∨ s.worker.looping ∨ p := by
  rcases hi.pending hne with h | h | h
  · exact .inl h
  · exact .inr (.inl h)
  · exact absurd h hnot

theorem not_asking_of_idle (hidle : ∀ t, s.caller t = .idle) : ¬ s.asking := by
  rintro ⟨t, ht⟩
  rw [hidle t] at ht
  rcases ht with ht | ht
  · cases ht
  · cases ht

variable [DecidableEq T]

theorem Inv.lock_goto (hi : Inv s) (ht : s.caller t ≠ .idle) {c : Caller E} (hc : c ≠ .idle)
    (u : T) : s.lock = some u ↔ (s.goto t c).caller u ≠ .idle := by
  show s.lock = some u ↔ update s.caller t c u ≠ .idle
  by_cases hu : u = t
  · subst hu
    rw [update_self]
    exact ⟨fun _ => hc, fun _ => (hi.lock_iff u).2 ht⟩
  · rw [update_of_ne hu]
    exact hi.lock_iff u

theorem goto_scheduling {c : Caller E} (hc : c ≠ .scheduling)
    (h : update s.caller t c u = .scheduling) : s.caller u = .scheduling := by
  by_cases hu : u = t
  · subst hu
    rw [update_self] at h
    exact absurd h hc
  · rwa [update_of_ne hu] at h

theorem Inv.scheduling_goto (hi : Inv s) {c : Caller E} (hc : c ≠ .scheduling) (u : T)
    (h : update s.caller t c u = .scheduling) : s.jobState = .none :=
  hi.scheduling u (goto_scheduling hc h)

/-- The test of the job state: unless it is NONE, the job is to test the queue again. -/
theorem inv_getState (hi : Inv s) (hg : s.worker ≠ .returned) (hat : s.caller t = .testing) :
    Inv (s.goto t (if s.jobState = .none then .scheduling else .leaving)) := by
  have hbusy : s.caller t ≠ .idle := by rw [hat]; exact nofun
  by_cases hjob : s.jobState = .none
  · rw [if_pos hjob]
    refine ⟨hi.lock_goto hbusy nofun, hi.running_iff, fun _ _ => hjob, ?_, hi.owed⟩
    exact fun _ => .inr (.inr ⟨t, .inr (update_self ..)⟩)
  · rw [if_neg hjob]
    refine ⟨hi.lock_goto hbusy nofun, hi.running_iff, hi.scheduling_goto nofun, ?_, hi.owed⟩
    intro _
    cases hstate : s.jobState with
    | none => exact absurd hstate hjob
    | scheduled => exact .inl hstate
    | running =>
      have hworker := hi.running_iff.1 hstate
      refine .inr (.inl ?_)
      show s.worker.looping
      cases hw : s.worker with
      | idle => exact absurd hw hworker
      | returned => exact absurd hw hg
      | testing | copying | processing elements => trivial

variable [DecidableEq E]

theorem inv_step (hi : Inv s) (hg : InTime s a) (h : step s a = some s') :
    Inv s' := by
  have hrun : s.worker ≠ .idle → s.jobState = .running := hi.running_iff.2
  revert h
  fun_cases step s a with
  | case1 t element hfree =>
    rintro ⟨⟩
    have hidle : ∀ u, s.caller u = .idle := by
      intro u
      by_contra hne
      have hlock := (hi.lock_iff u).2 hne
      rw [hfree.1] at hlock
      cases hlock
    refine ⟨?_, hi.running_iff, hi.scheduling_goto nofun,
      hi.pending_of_not_asking (not_asking_of_idle hidle), hi.owed⟩
    intro u
    show some t = some u ↔ update s.caller t (.entered element) u ≠ .idle
    by_cases hu : u = t
    · subst hu
      rw [update_self]
      exact ⟨fun _ => nofun, fun _ => rfl⟩
    · rw [update_of_ne hu, hidle u]
      exact ⟨fun h => absurd (Option.some.inj h).symm hu, fun h => absurd rfl h⟩
  | case3 t element hat hin =>
    rintro ⟨⟩
    have hbusy : s.caller t ≠ .idle := by rw [hat]; exact nofun
    have hnot := hi.not_asking hbusy (by rw [hat]; exact nofun) (by rw [hat]; exact nofun)
    refine ⟨hi.lock_goto hbusy nofun, hi.running_iff, hi.scheduling_goto nofun,
      hi.pending_of_not_asking hnot, ?_⟩
    exact forall_mem_cons.2 ⟨.inl hin, hi.owed⟩
  | case4 t element hat =>
    rintro ⟨⟩
    have hbusy : s.caller t ≠ .idle := by rw [hat]; exact nofun
    refine ⟨hi.lock_goto hbusy nofun, hi.running_iff, hi.scheduling_goto nofun,
      fun _ => .inr (.inr ⟨t, .inl (update_self ..)⟩), ?_⟩
    exact forall_mem_cons.2
      ⟨.inl mem_cons_self, fun e he => (hi.owed e he).imp_left (mem_cons_of_mem _)⟩
  | case6 t hat =>
    rintro ⟨⟩
    exact inv_getState hi hg hat
  | case8 t hat =>
    rintro ⟨⟩
    have hbusy : s.caller t ≠ .idle := by rw [hat]; exact nofun
    have hidle : s.worker = .idle := hi.worker_idle (by rw [hi.scheduling t hat]; exact nofun)
    refine ⟨hi.lock_goto hbusy nofun, ?_, ?_, fun _ => .inl rfl, hi.owed⟩
    · exact ⟨nofun, fun h => absurd hidle h⟩
    · intro u hu
      have hu' := goto_scheduling (c := .leaving) nofun hu
      obtain rfl := hi.eq_of_busy hbusy (by rw [hu']; exact nofun)
      have hu : update s.caller t .leaving t = .scheduling := hu
      rw [update_self] at hu
      cases hu
  | case10 t hat =>
    rintro ⟨⟩
    have hbusy : s.caller t ≠ .idle := by rw [hat]; exact nofun
    have hnot := hi.not_asking hbusy (by rw [hat]; exact nofun) (by rw [hat]; exact nofun)
    refine ⟨?_, hi.running_iff, hi.scheduling_goto nofun, hi.pending_of_not_asking hnot, hi.owed⟩
    intro u
    show none = some u ↔ update s.caller t .idle u ≠ .idle
    refine ⟨nofun, fun h => ?_⟩
    by_cases hu : u = t
    · subst hu
      rw [update_self] at h
      exact absurd rfl h
    · rw [update_of_ne hu] at h
      exact absurd (hi.eq_of_busy h hbusy) hu
  | case12 hjob =>
    rintro ⟨⟩
    have hidle : s.worker = .idle := hi.worker_idle (by rw [hjob]; exact nofun)
    refine ⟨hi.lock_iff, ⟨fun _ => nofun, fun _ => rfl⟩, ?_, fun _ => .inr (.inl trivial), ?_⟩
    · intro u hu
      rw [hi.scheduling u hu] at hjob
      cases hjob
    · intro e he
      have howed := hi.owed e he
      rwa [hidle] at howed
  | case14 hw =>
    rintro ⟨⟩
    rw [hw] at hrun
    have howed := hi.owed_list (by rw [hw]; rfl)
    by_cases hempty : s.elementList = []
    · rw [if_pos hempty]
      exact ⟨hi.lock_iff, ⟨fun _ => nofun, fun _ => hrun nofun⟩, hi.scheduling,
        fun hne => absurd hempty hne, fun e he => .inl (howed e he)⟩
    · rw [if_neg hempty]
      exact ⟨hi.lock_iff, ⟨fun _ => nofun, fun _ => hrun nofun⟩, hi.scheduling,
        fun _ => .inr (.inl trivial), fun e he => .inl (howed e he)⟩
  | case16 hw =>
    rintro ⟨⟩
    rw [hw] at hrun
    have howed := hi.owed_list (by rw [hw]; rfl)
    exact ⟨hi.lock_iff, ⟨fun _ => nofun, fun _ => hrun nofun⟩, hi.scheduling,
      fun hne => absurd rfl hne, fun e he => .inr (howed e he)⟩
  | case19 elements hw =>
    rintro ⟨⟩
    rw [hw] at hrun
    refine ⟨hi.lock_iff, ⟨fun _ => nofun, fun _ => hrun nofun⟩, hi.scheduling,
      fun _ => .inr (.inl trivial), ?_⟩
    intro e he
    obtain ⟨he, hnot⟩ := mem_filter.1 he
    have hor := hi.owed e he
    rw [hw] at hor
    exact .inl (hor.resolve_right (of_decide_eq_true hnot))
  | case21 hw =>
    -- a request that came after the last test has not looked at the job state yet
    rintro ⟨⟩
    rw [hw] at hrun
    have howed := hi.owed_list (by rw [hw]; rfl)
    refine ⟨hi.lock_iff, ⟨nofun, fun h => absurd rfl h⟩, fun _ _ => rfl, ?_,
      fun e he => .inl (howed e he)⟩
    intro hne
    refine .inr (.inr (hi.asking_of_pending hne ?_ ?_))
    · rw [hrun nofun]
      exact nofun
    · rw [hw]
      exact id
  | _ => rintro ⟨⟩

theorem reachable_inv (h : (machine T E).ReachableIf InTime s) : Inv s := by
  refine Machine.ReachableIf.invariant ?_ ?_ h
  · rintro _ rfl
    exact inv_start
  · intro _ _ _ hi hg hs
    exact inv_step hi hg hs

/-! ## The job hands out what is owed -/

/-- The job alone can get to a state in which nothing is owed. -/
def Drains (s : State T E) : Prop :=
  ∃ as s', (∀ a ∈ as, a.OfJob) ∧ (machine T E).run s as = some s' ∧ s'.owed = []

theorem Drains.of_owed (h : s.owed = []) : Drains s := ⟨[], s, nofun, rfl, h⟩

theorem Drains.cons (h : step s a = some s') (ha : a.OfJob) (hd : Drains s') :
    Drains s := by
  obtain ⟨as, s'', has, hrun, howed⟩ := hd
  refine ⟨a :: as, s'', ?_, ?_, howed⟩
  · intro b hb
    rcases mem_cons.1 hb with rfl | hb
    · exact ha
    · exact has b hb
  · show (step s a).bind _ = some s''
    rw [h]
    exact hrun

theorem drains_copying (hi : Inv s) (hlock : s.lock = none) (hw : s.worker = .copying) :
    Drains s := by
  have hcopy : step s .copy = some { s with
      worker := .processing s.elementList, elementList := [] } := by
    simp only [step, hw, hlock, if_true]
  refine .cons hcopy trivial (.cons (a := .process) rfl trivial (.of_owed ?_))
  refine filter_eq_nil_iff.2 fun e he hnot => ?_
  exact of_decide_eq_true hnot (hi.owed_list (by rw [hw]; rfl) e he)

theorem drains_testing (hi : Inv s) (hlock : s.lock = none) (hw : s.worker = .testing) :
    Drains s := by
  by_cases hempty : s.elementList = []
  · exact .of_owed (hi.owed_nil hempty (by rw [hw]; rfl))
  · have htest : step s .isEmpty = some { s with worker := .copying } := by
      simp only [step, hw, if_neg hempty]
    exact .cons htest trivial (drains_copying (inv_step (a := .isEmpty) hi trivial htest) hlock rfl)

/-- Between the calls, what is owed is handed out by the job alone. -/
theorem Inv.drains (hi : Inv s) (hidle : ∀ t, s.caller t = .idle) : Drains s := by
  have hlock : s.lock = none :=
    Option.eq_none_iff_forall_ne_some.2 fun t ht => (hi.lock_iff t).1 ht (hidle t)
  have hnot : ¬ s.asking := not_asking_of_idle hidle
  cases hjob : s.jobState with
  | none =>
    have hw : s.worker = .idle := hi.worker_idle (by rw [hjob]; exact nofun)
    refine .of_owed (hi.owed_nil ?_ (by rw [hw]; rfl))
    by_contra hne
    exact hnot (hi.asking_of_pending hne (by rw [hjob]; exact nofun) (by rw [hw]; exact id))
  | scheduled =>
    have hwake : step s .wake = some { s with jobState := .running, worker := .testing } := by
      simp only [step, hjob, if_true]
    exact .cons hwake trivial (drains_testing (inv_step (a := .wake) hi trivial hwake) hlock rfl)
  | running =>
    cases hw : s.worker with
    | idle => exact absurd hw (hi.running_iff.1 hjob)
    | testing => exact drains_testing hi hlock hw
    | copying => exact drains_copying hi hlock hw
    | processing elements =>
      have hprocess : step s .process = some { s with
          worker := .testing, owed := s.owed.filter fun e => decide (e ∉ elements) } := by
        simp only [step, hw]
      exact .cons hprocess trivial
        (drains_testing (inv_step (a := .process) hi trivial hprocess) hlock rfl)
    | returned =>
      refine .of_owed (hi.owed_nil ?_ (by rw [hw]; rfl))
      by_contra hne
      exact hnot (hi.asking_of_pending hne (by rw [hjob]; exact nofun) (by rw [hw]; exact id))

/-- **No request is lost.**  In every run in which no request looks at the job state between the
last test of the queue and the change of the state to NONE: if the queue is not empty and the
job is in the state NONE, a call is in progress; what is owed is in the queue or with the job;
and between the calls the job alone hands out all of it. -/
theorem no_request_lost (h : (machine T E).ReachableIf InTime s) :
    (s.elementList ≠ [] → s.jobState = .none → ∃ t, s.caller t ≠ .idle) ∧
    (∀ e ∈ s.owed, e ∈ s.elementList ∨ e ∈ s.worker.batch) ∧
    ((∀ t, s.caller t = .idle) → Drains s) := by
  have hi := reachable_inv h
  refine ⟨?_, hi.owed, hi.drains⟩
  intro hne hjob
  have hw : s.worker = .idle := hi.worker_idle (by rw [hjob]; exact nofun)
  obtain ⟨t, ht⟩ := hi.asking_of_pending hne (by rw [hjob]; exact nofun) (by rw [hw]; exact id)
  refine ⟨t, fun hidle => ?_⟩
  rw [hidle] at ht
  rcases ht with ht | ht
  · cases ht
  · cases ht

end

/-- A request for `e` and the run of the job for it, up to the last test of the queue. -/
def requestAndRun {T E : Type} (t : T) (e : E) : List (Action T E) :=
  [.enter t e, .add t, .getState t, .schedule t, .leave t, .wake, .isEmpty, .copy, .process,
    .isEmpty]

theorem no_request_lost_after_run :
    ∃ s : State Unit Unit, (machine Unit Unit).ReachableIf InTime s ∧ s.elementList = [()] ∧
      s.owed = [()] ∧ Drains s := by
  obtain ⟨s, hrun, hlist, howed, hidle⟩ : ∃ s : State Unit Unit,
      (machine Unit Unit).runIf InTime (start Unit Unit) (requestAndRun () () ++
        [.finish, .enter () (), .add (), .getState (), .schedule (), .leave ()]) = some s ∧
      s.elementList = [()] ∧ s.owed = [()] ∧ s.caller () = .idle :=
    Machine.exists_end (by decide +kernel)
  have hreach : (machine Unit Unit).ReachableIf InTime s :=
    Machine.ReachableIf.runIf (.init rfl) _ hrun
  exact ⟨s, hreach, hlist, howed, (no_request_lost hreach).2.2 fun _ => hidle⟩

/-- A request between the last test of the queue and the end of the job stays in the queue. -/
theorem request_stuck :
    ∃ s : State Unit Unit, (machine Unit Unit).Reachable s ∧ s.elementList = [()] ∧
      s.owed = [()] ∧ s.jobState = .none ∧ s.caller () = .idle := by
  obtain ⟨s, hrun, h⟩ : ∃ s : State Unit Unit,
      (machine Unit Unit).run (start Unit Unit) (requestAndRun () () ++
        [.enter () (), .add (), .getState (), .leave (), .finish]) = some s ∧
      s.elementList = [()] ∧ s.owed = [()] ∧ s.jobState = .none ∧ s.caller () = .idle :=
    ⟨_, rfl, rfl, rfl, rfl, rfl⟩
  exact ⟨s, Machine.Reachable.run (.init rfl) _ hrun, h⟩

end Egit.DecoratorJob
