import Mathlib.Data.List.Pairwise

/-!
# The kernel's side of a futex: the wait queue of one word

A queue entry is a sleeping thread with the `pshared` flag of its wait; private and
shared waits use different kernel keys, so a wake only reaches the entries with its
own flag.  A thread is asleep while it has an entry.  An entry leaves the queue by a
wake or by itself (`leave`: signal, timeout, spurious return); the thread then goes on
from the futex call with its own next step.

    wakeOne q ps (some u)  takes the entry of `u` out, if `u` waits with flag `ps`
    wakeOne q ps none      is the wake that finds nobody with flag `ps`
    wakeAll q ps           takes every entry with flag `ps` out
-/

namespace Futex

open List

/-- The sleeping threads, each with the `pshared` flag of its wait. -/
abbrev Queue (T : Type) := List (T × Bool)

section
variable {T : Type} [DecidableEq T]

def asleep (q : Queue T) (t : T) : Prop := ∃ ps, (t, ps) ∈ q

/-- `FUTEX_WAIT` whose comparison succeeded. -/
def sleep (q : Queue T) (t : T) (ps : Bool) : Queue T := (t, ps) :: q

def leave (q : Queue T) (t : T) : Queue T := q.filter fun e => decide (e.1 ≠ t)

/-- `FUTEX_WAKE` of one thread: some sleeper with the flag `ps`, chosen by the kernel. -/
def wakeOne (q : Queue T) (ps : Bool) : Option T → Option (Queue T)
  | some u => if (u, ps) ∈ q then some (leave q u) else none
  | none => if q.all fun e => e.2 != ps then some q else none

/-- `FUTEX_WAKE` of `INT_MAX` threads.  Thread ids are positive `int`s, so that is all of them. -/
def wakeAll (q : Queue T) (ps : Bool) : Queue T := q.filter fun e => e.2 != ps

instance (q : Queue T) (t : T) : Decidable (asleep q t) :=
  decidable_of_iff ((t, true) ∈ q ∨ (t, false) ∈ q)
    ⟨fun h => h.elim (fun h => ⟨true, h⟩) fun h => ⟨false, h⟩, by
      rintro ⟨ps, h⟩
      cases ps
      · exact .inr h
      · exact .inl h⟩

theorem mem_leave (q : Queue T) (t : T) (e : T × Bool) : e ∈ leave q t ↔ e ∈ q ∧ e.1 ≠ t := by
  unfold leave
  rw [mem_filter, decide_eq_true_eq]

theorem asleep_leave (q : Queue T) (t u : T) : asleep (leave q t) u ↔ asleep q u ∧ u ≠ t := by
  constructor
  · rintro ⟨ps, h⟩
    rw [mem_leave] at h
    exact ⟨⟨ps, h.1⟩, h.2⟩
  · rintro ⟨⟨ps, h⟩, hne⟩
    exact ⟨ps, (mem_leave q t _).2 ⟨h, hne⟩⟩

omit [DecidableEq T] in
theorem ne_of_not_asleep {q : Queue T} {t : T} {e : T × Bool} (h : ¬ asleep q t) (he : e ∈ q) :
    e.1 ≠ t := by
  rintro rfl
  exact h ⟨_, he⟩

omit [DecidableEq T] in
theorem mem_wakeAll (q : Queue T) (ps : Bool) (e : T × Bool) :
    e ∈ wakeAll q ps ↔ e ∈ q ∧ e.2 ≠ ps := by
  unfold wakeAll
  rw [mem_filter, bne_iff_ne]

variable {q q' : Queue T} {ps : Bool} {u : Option T}

/-- What a wake can do: take one sleeper with its flag out, or find none. -/
theorem wakeOne_cases (h : wakeOne q ps u = some q') :
    (∃ w, (w, ps) ∈ q ∧ q' = leave q w) ∨ ((∀ e ∈ q, e.2 ≠ ps) ∧ q' = q) := by
  cases u with
  | some w =>
    simp only [wakeOne] at h
    split at h
    · next hm => exact .inl ⟨w, hm, (Option.some.inj h).symm⟩
    · cases h
  | none =>
    simp only [wakeOne] at h
    split at h
    · next hm =>
      rw [all_eq_true] at hm
      exact .inr ⟨fun e he => by simpa using hm e he, (Option.some.inj h).symm⟩
    · cases h

theorem mem_of_wakeOne (h : wakeOne q ps u = some q') {e : T × Bool} (he : e ∈ q') : e ∈ q := by
  rcases wakeOne_cases h with ⟨w, -, rfl⟩ | ⟨-, rfl⟩
  · exact ((mem_leave q w e).1 he).1
  · exact he

/-- If all entries have the flag of the wake and somebody still sleeps, the wake woke somebody. -/
theorem wakeOne_awake (h : wakeOne q ps u = some q') (hflag : ∀ e ∈ q, e.2 = ps) {t : T}
    (ht : asleep q' t) : ∃ w, (w, ps) ∈ q ∧ ¬ asleep q' w := by
  rcases wakeOne_cases h with ⟨w, hw, rfl⟩ | ⟨hnone, rfl⟩
  · refine ⟨w, hw, ?_⟩
    rw [asleep_leave]
    exact fun hs => hs.2 rfl
  · obtain ⟨b, hm⟩ := ht
    exact absurd (hflag _ hm) (hnone _ hm)

end

end Futex
