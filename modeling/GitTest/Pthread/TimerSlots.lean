import GitTest.Lib.Links
import GitTest.Pthread.TimerTable
import Mathlib.Data.Fintype.Basic
import Mathlib.Data.List.FinRange

/-!
# The slots of the timer table: free, live or dying

Every slot is on the free list once, or belongs to a timer whose thread is to free it.  Three
kinds of calls can have a slot between two of their steps: the `timer_create` that took it off the
list, the `timer_delete` that took its id, and the thread of the timer.

    ReachableIf Careful s → every slot is in exactly one status; a call that returns -1 has not
      changed the table  (slots_partitioned)
    a failing pthread_create → timer_create returns 0, with a valid id and no thread
      (create_without_thread)
-/

namespace Pthread.TimerTable

open Function List Machines
open Links (Seg)

/-! ## Who has a slot -/

/-- The calls that have slot `i`: `c` creates its timer, `f` has taken its id and is to set `done`.
No call undoes a creation: `pthread_create` returns no negative result. -/
structure Users {T : Type} (pc : T → Pc) (i : Slot) (c f : Option T) : Prop where
  creator : ∀ t, (pc t).creates = some i ↔ c = some t
  finisher : ∀ t, pc t = .finish i ↔ f = some t
  noUndo : ∀ t, pc t ≠ .undo i

/-- Whether the timer of slot `i` has been deleted, and its thread told so by `f`. -/
inductive Mark {T : Type} (i : Slot) (id : Word) (done : Bool) : Option T → Prop
  | live (hid : id = slotId i) (hd : done = false) : Mark i id done none
  | taken (t : T) (hid : id = timerIdNone) (hd : done = false) : Mark i id done (some t)
  | told (hid : id = timerIdNone) (hd : done = true) : Mark i id done none

/-- The state of slot `i` when the free list is `l`.  Nobody takes the id of a slot that is being
created. -/
inductive Phase {T : Type} (s : State T) (l : List Slot) (i : Slot) : Option T → Option T → Prop
  | free (hl : i ∈ l) (hth : s.thread i = .absent) (hid : s.table.id i = timerIdNone) :
    Phase s l i none none
  /-- `done` is still that of the timer before. -/
  | init (t : T) (hl : i ∉ l) (hth : s.thread i = .absent) (hpc : s.pc t = .init i)
    (hid : s.table.id i = slotId i) : Phase s l i (some t) none
  | spawn (t : T) (hl : i ∉ l) (hth : s.thread i = .absent) (hpc : s.pc t = .spawn i)
    (hid : s.table.id i = slotId i) (hd : s.done i = false) : Phase s l i (some t) none
  | running (f : Option T) (hl : i ∉ l) (hth : s.thread i = .running)
    (hm : Mark i (s.table.id i) (s.done i) f) : Phase s l i none f
  | freeing (hl : i ∉ l) (hth : s.thread i = .freeing) (hid : s.table.id i = timerIdNone) :
    Phase s l i none none

def Held {T : Type} (s : State T) (l : List Slot) (i : Slot) : Prop :=
  ∃ c f, Users s.pc i c f ∧ Phase s l i c f

structure Inv {T : Type} (s : State T) (l : List Slot) : Prop where
  seg : Seg s.table.next s.table.freeTimer l none
  nodup : l.Nodup
  held : ∀ i, Held s l i

section
variable {T : Type} {s s' : State T} {l k : List Slot} {i j : Slot} {t : T} {p : Pc}
  {c c' f f' : Option T}

/-- Slot `j` and the calls that have it are in `s'` what they are in `s`. -/
structure Same (s s' : State T) (j : Slot) : Prop where
  thread : s'.thread j = s.thread j
  id : s'.table.id j = s.table.id j
  done : s'.done j = s.done j
  pc : ∀ u, s'.pc u = s.pc u ∨ (s.pc u).slot ≠ some j ∧ (s'.pc u).slot ≠ some j

variable {a : Act T} {o : Option Slot}

theorem Effect.same [DecidableEq T] (h : Effect s a o s') (j : Slot) (hj : o ≠ some j) :
    Same s s' j := by
  have hgoto : ∀ {t : T} {p q : Pc}, s.pc t = q → q.slot ≠ some j → p.slot ≠ some j → ∀ u,
      update s.pc t p u = s.pc u ∨
        (s.pc u).slot ≠ some j ∧ (update s.pc t p u).slot ≠ some j := by
    rintro t p q rfl hold hnew u
    rw [update_apply]
    split
    · next hu => exact .inr ⟨hu ▸ hold, hnew⟩
    · exact .inl rfl
  have hne : ∀ {i : Slot}, some i ≠ some j → j ≠ i := fun hj he => hj (he ▸ rfl)
  cases h with
  | move _ t p hpc hp => exact ⟨rfl, rfl, rfl, hgoto rfl (by simp [hpc]) (by simp [hp])⟩
  | alloc t i hpc | remove t _ i hpc =>
    exact ⟨rfl, update_of_ne (hne hj) _ _, rfl, hgoto hpc (by simp [Pc.slot]) hj⟩
  | init t i hpc => exact ⟨rfl, rfl, update_of_ne (hne hj) _ _, hgoto hpc hj hj⟩
  | spawn t i hpc =>
    exact ⟨update_of_ne (hne hj) _ _, rfl, rfl, hgoto hpc hj (by simp [Pc.slot])⟩
  | spawnFails t i _ hpc => exact ⟨rfl, rfl, rfl, hgoto hpc hj (by simp [Pc.slot])⟩
  | undo t i hpc =>
    exact ⟨rfl, update_of_ne (hne hj) _ _, rfl, hgoto hpc hj (by simp [Pc.slot])⟩
  | finish t i hpc =>
    exact ⟨rfl, rfl, update_of_ne (hne hj) _ _, hgoto hpc hj (by simp [Pc.slot])⟩
  | leave i => exact ⟨update_of_ne (hne hj) _ _, rfl, rfl, fun _ => .inl rfl⟩
  | free i =>
    exact ⟨update_of_ne (hne hj) _ _, update_of_ne (hne hj) _ _, rfl, fun _ => .inl rfl⟩

/-- What a step of a call about slot `j` is known by holds of the same calls. -/
theorem Same.calls {P : Pc → Prop} (h : Same s s' j) (hP : ∀ {p}, P p → p.slot = some j) (u : T) :
    P (s'.pc u) ↔ P (s.pc u) := by
  rcases h.pc u with he | ⟨hold, hnew⟩
  · rw [he]
  · exact ⟨fun hu => absurd (hP hu) hnew, fun hu => absurd (hP hu) hold⟩

theorem Same.creates (h : Same s s' j) (u : T) :
    (s'.pc u).creates = some j ↔ (s.pc u).creates = some j :=
  h.calls (P := fun p => p.creates = some j) Pc.slot_of_creates u

theorem Same.finish (h : Same s s' j) (u : T) : s'.pc u = .finish j ↔ s.pc u = .finish j :=
  h.calls (P := fun p => p = .finish j) (fun hp => hp ▸ rfl) u

theorem Held.congr (h : Held s l j) (hl : j ∈ k ↔ j ∈ l) (hs : Same s s' j) : Held s' k j := by
  obtain ⟨c, f, hu, hph⟩ := h
  have hpc : ∀ u, (s.pc u).slot = some j → s'.pc u = s.pc u := by
    intro u hslot
    rcases hs.pc u with he | ⟨hold, -⟩
    · exact he
    · exact absurd hslot hold
  have hth := hs.thread
  have hid := hs.id
  have hd := hs.done
  refine ⟨c, f, ⟨?_, ?_, ?_⟩, ?_⟩
  · exact fun u => (hs.creates u).trans (hu.creator u)
  · exact fun u => (hs.finish u).trans (hu.finisher u)
  · exact fun u h =>
      hu.noUndo u ((hs.calls (P := fun p => p = .undo j) (fun hp => hp ▸ rfl) u).1 h)
  · cases hph with
    | free hm hth' hid' => exact .free (hl.2 hm) (hth.trans hth') (hid.trans hid')
    | init t hm hth' hp hid' =>
      refine .init t (mt hl.1 hm) (hth.trans hth') ?_ (hid.trans hid')
      rw [hpc t (by rw [hp]; rfl), hp]
    | spawn t hm hth' hp hid' hd' =>
      refine .spawn t (mt hl.1 hm) (hth.trans hth') ?_ (hid.trans hid') (hd.trans hd')
      rw [hpc t (by rw [hp]; rfl), hp]
    | running f hm hth' hmark =>
      exact .running f (mt hl.1 hm) (hth.trans hth') (by rwa [hid, hd])
    | freeing hm hth' hid' => exact .freeing (mt hl.1 hm) (hth.trans hth') (hid.trans hid')

/-! ## The steps on one slot -/

/-- Only a thread that has been told leaves its loop. -/
theorem held_leave (h : Held s l i) (hth : s.thread i = .running) (hd : s.done i = true) :
    Held { s with thread := update s.thread i .freeing } l i := by
  obtain ⟨c, f, hu, hph⟩ := h
  cases hph with
  | free _ hth' | init _ _ hth' | spawn _ _ hth' | freeing _ hth' =>
    rw [hth] at hth'
    cases hth'
  | running f hl _ hm =>
    cases hm with
    | live _ hd' | taken _ _ hd' =>
      rw [hd] at hd'
      cases hd'
    | told hid _ => exact ⟨none, none, hu, .freeing hl (update_self ..) hid⟩

theorem held_free (h : Held s l i) (hth : s.thread i = .freeing) :
    i ∉ l ∧ Held { s with
      table := thrTimerTableFree s.table i
      thread := update s.thread i .absent } (i :: l) i := by
  obtain ⟨c, f, hu, hph⟩ := h
  cases hph with
  | free _ hth' | init _ _ hth' | spawn _ _ hth' | running _ _ hth' =>
    rw [hth] at hth'
    cases hth'
  | freeing hl _ _ =>
    exact ⟨hl, none, none, hu, .free mem_cons_self (update_self ..) (update_self ..)⟩

/-- A step on slot `i` keeps the other slots, and whether they are on the list. -/
theorem Held.all (h : ∀ j, Held s l j) (hl : ∀ j, j ≠ i → (j ∈ k ↔ j ∈ l))
    (hs : ∀ j, some i ≠ some j → Same s s' j) (hheld : Held s' k i) (j : Slot) : Held s' k j := by
  rcases eq_or_ne j i with rfl | hj
  · exact hheld
  · exact (h j).congr (hl j hj) (hs j (by simpa using hj.symm))

theorem Inv.onSlot (hi : Inv s l) (hseg : Seg s'.table.next s'.table.freeTimer l none)
    (hs : ∀ j, some i ≠ some j → Same s s' j) (hheld : Held s' l i) : Inv s' l :=
  ⟨hseg, hi.nodup, Held.all hi.held (fun _ _ => Iff.rfl) hs hheld⟩

theorem Inv.noUndo (hi : Inv s l) (t : T) (i : Slot) : s.pc t ≠ .undo i := by
  obtain ⟨c, f, hu, -⟩ := hi.held i
  exact hu.noUndo t

/-- The call that creates the timer of a slot is not the one that deletes it. -/
theorem Users.of_creates {pc : T → Pc} (h : Users pc i c f) (ht : (pc t).creates = some i) :
    c = some t ∧ f ≠ some t := by
  refine ⟨(h.creator t).1 ht, fun hf => ?_⟩
  rw [(h.finisher t).2 hf] at ht
  cases ht

variable [DecidableEq T]

/-- `t` moves to `p`, and the users of the slot with it. -/
theorem Users.move {pc : T → Pc} (h : Users pc i c f)
    (hc : ∀ u, c' = some u ↔ if u = t then p.creates = some i else c = some u)
    (hf : ∀ u, f' = some u ↔ if u = t then p = .finish i else f = some u) (hp : p ≠ .undo i) :
    Users (update pc t p) i c' f' := by
  refine ⟨?_, ?_, ?_⟩ <;> intro u
  · rw [hc, update_apply]
    split
    · rfl
    · exact h.creator u
  · rw [hf, update_apply]
    split
    · rfl
    · exact h.finisher u
  · rw [update_apply]
    split
    · exact hp
    · exact h.noUndo u

theorem held_alloc (h : Held s (i :: k) i) (hk : i ∉ k) :
    Held ({ s with table := s.table.take i }.goto t (.init i)) k i := by
  obtain ⟨c, f, hu, hph⟩ := h
  cases hph with
  | free _ hth _ =>
    refine ⟨some t, none, hu.move ?_ ?_ (by simp), .init t hk hth ?_ ?_⟩
    · intro u
      simp [Pc.creates, eq_comm]
    · intro u
      simp
    · exact update_self ..
    · exact update_self ..
  | init t hl | spawn t hl | running f hl | freeing hl => exact absurd mem_cons_self hl

theorem held_init (h : Held s l i) (hpc : s.pc t = .init i) :
    Held ({ s with done := update s.done i false }.goto t (.spawn i)) l i := by
  obtain ⟨c, f, hu, hph⟩ := h
  obtain ⟨hc, hft⟩ := hu.of_creates (t := t) (by rw [hpc]; rfl)
  refine ⟨c, f, hu.move ?_ ?_ (by simp), ?_⟩
  · intro u
    grind [Pc.creates]
  · intro u
    grind
  · subst hc
    cases hph with
    | init t hl hth _ hid => exact .spawn t hl hth (update_self ..) hid (update_self ..)
    | spawn t _ _ hpc' =>
      rw [hpc] at hpc'
      cases hpc'

theorem held_spawn (h : Held s l i) (hpc : s.pc t = .spawn i) :
    Held ({ s with thread := update s.thread i .running }.goto t (.report i)) l i := by
  obtain ⟨c, f, hu, hph⟩ := h
  obtain ⟨hc, hft⟩ := hu.of_creates (t := t) (by rw [hpc]; rfl)
  subst hc
  refine ⟨none, f, hu.move ?_ ?_ (by simp), ?_⟩
  · intro u
    grind [Pc.creates]
  · intro u
    grind
  · cases hph with
    | init t _ _ hpc' =>
      rw [hpc] at hpc'
      cases hpc'
    | spawn t hl _ _ hid hd => exact .running none hl (update_self ..) (.live hid hd)

/-- The id of a slot is taken while its timer has a thread. -/
theorem held_remove (h : Held s l i) (hid : s.table.id i ≠ timerIdNone)
    (hcreated : ∀ u, (s.pc u).creates ≠ some i) :
    Held ({ s with table := s.table.clearId i }.goto t (.finish i)) l i := by
  obtain ⟨c, f, hu, hph⟩ := h
  have hid' : (s.table.clearId i).id i = timerIdNone := update_self ..
  cases hph with
  | free _ _ hid0 | freeing _ _ hid0 => exact absurd hid0 hid
  | init u | spawn u => exact absurd ((hu.creator u).2 rfl) (hcreated u)
  | running f hl hth hm =>
    cases hm with
    | taken _ hid0 | told hid0 => exact absurd hid0 hid
    | live _ hd =>
      refine ⟨none, some t, hu.move ?_ ?_ (by simp), .running _ hl hth (.taken t hid' hd)⟩
      · intro u
        simp [Pc.creates]
      · intro u
        simp [eq_comm]

theorem held_finish (h : Held s l i) (hpc : s.pc t = .finish i) :
    Held ({ s with done := update s.done i true }.goto t (.returned .deleted)) l i := by
  obtain ⟨c, f, hu, hph⟩ := h
  have hf : f = some t := (hu.finisher t).1 hpc
  subst hf
  cases hph with
  | running _ hl hth hm =>
    cases hm with
    | taken _ hid _ =>
      refine ⟨none, none, hu.move ?_ ?_ (by simp), .running _ hl hth (.told hid (update_self ..))⟩
      · intro u
        simp [Pc.creates]
      · intro u
        grind

/-! ## The invariant -/

theorem seg_init (present : Bool) :
    Seg (thrTimerTableInit present).next (thrTimerTableInit present).freeTimer
      (List.finRange maxThreadTimers) none := by
  revert present
  decide

omit [DecidableEq T] in
theorem inv_init (h : init s) : Inv s (List.finRange maxThreadTimers) := by
  obtain ⟨⟨present, ht⟩, hth, hpc⟩ := h
  refine ⟨ht ▸ seg_init present, nodup_finRange _, ?_⟩
  intro i
  refine ⟨none, none, ⟨?_, ?_, ?_⟩, .free (mem_finRange i) (hth i) (by rw [ht]; rfl)⟩ <;>
    intro t <;> rw [hpc t] <;> simp [Pc.creates]

/-- The slot whose id the next step of the call takes. -/
def Pc.removes : Pc → Option Slot
  | .remove id => slotOf id
  | .idle | .returned _ | .alloc | .init _ | .spawn _ | .undo _ | .report _ | .finish _ => none

/-- Every `pthread_create` succeeds, and no `timer_delete` takes the id of a slot whose
`timer_create` has not started its thread. -/
def Careful {T : Type} (s : State T) : Act T → Prop
  | .pthreadCreate _ result => result = 0
  | .exec t => ∀ i ∈ (s.pc t).removes, ∀ u, (s.pc u).creates ≠ some i
  | .create _ _ | .delete _ _ | .leave _ | .free _ => True

instance {T : Type} [Fintype T] (s : State T) : (a : Act T) → Decidable (Careful s a)
  | .pthreadCreate _ result => inferInstanceAs (Decidable (result = 0))
  | .exec t =>
    inferInstanceAs (Decidable (∀ i ∈ (s.pc t).removes, ∀ u, (s.pc u).creates ≠ some i))
  | .create _ _ | .delete _ _ | .leave _ | .free _ => inferInstanceAs (Decidable True)

theorem inv_effect (hi : Inv s l) (hg : Careful s a) (h : Effect s a o s') : ∃ k, Inv s' k := by
  have hs := h.same
  cases h with
  | move _ t p =>
    exact ⟨l, hi.seg, hi.nodup, fun j => (hi.held j).congr Iff.rfl (hs j (by simp))⟩
  | alloc t i hpc hf =>
    obtain ⟨k, rfl, hseg⟩ := Seg.pop (hf ▸ hi.seg) hi.nodup none
    obtain ⟨hik, hk⟩ := nodup_cons.1 hi.nodup
    have hl : ∀ j, j ≠ i → (j ∈ k ↔ j ∈ i :: k) := fun j hj => by simp [hj]
    exact ⟨k, hseg, hk, Held.all hi.held hl hs (held_alloc (hi.held i) hik)⟩
  | init t i hpc => exact ⟨l, hi.onSlot hi.seg hs (held_init (hi.held i) hpc)⟩
  | spawn t i hpc => exact ⟨l, hi.onSlot hi.seg hs (held_spawn (hi.held i) hpc)⟩
  | spawnFails t i result hpc hr =>
    have h0 : result = 0 := hg
    omega
  | undo t i hpc => exact absurd hpc (hi.noUndo t i)
  | remove t id i hpc hslot hid =>
    have hcreated := hg i (by rw [hpc]; exact hslot)
    exact ⟨l, hi.onSlot hi.seg hs (held_remove (hi.held i) hid hcreated)⟩
  | finish t i hpc => exact ⟨l, hi.onSlot hi.seg hs (held_finish (hi.held i) hpc)⟩
  | leave i hth hd => exact ⟨l, hi.onSlot hi.seg hs (held_leave (hi.held i) hth hd)⟩
  | free i hth =>
    obtain ⟨hil, hheld⟩ := held_free (hi.held i) hth
    have hl : ∀ j, j ≠ i → (j ∈ i :: l ↔ j ∈ l) := fun j hj => by simp [hj]
    exact ⟨i :: l, hi.seg.push hil, nodup_cons.2 ⟨hil, hi.nodup⟩, Held.all hi.held hl hs hheld⟩

theorem inv_reachable (h : machine.ReachableIf Careful s) : ∃ l, Inv s l := by
  refine h.invariant (I := fun s => ∃ l, Inv s l) ?_ ?_
  · exact fun s h0 => ⟨_, inv_init h0⟩
  · rintro s a s' ⟨l, hi⟩ hg hs
    obtain ⟨o, he⟩ := step_cases hs
    exact inv_effect hi hg he

/-! ## Free, live or dying -/

inductive Status
  | free
  | live
  | dying
  deriving DecidableEq, Repr

/-- The thread of slot `i` frees it: it is past its loop, or `done` is set, or a `timer_delete` is
about to set it. -/
def State.Ending {T : Type} (s : State T) (i : Slot) : Prop :=
  s.thread i = .freeing ∨ s.thread i = .running ∧ (s.done i = true ∨ ∃ t, s.pc t = .finish i)

/-- Slot `i` is in a status when the free list is `l`.  The thread of a live timer counts from the
moment its `timer_create` has the slot. -/
def State.InStatus {T : Type} (s : State T) (l : List Slot) (i : Slot) : Status → Prop
  | .free => l.count i = 1 ∧ s.table.id i = timerIdNone
  | .live => i ∉ l ∧ s.table.id i = slotId i ∧
    (s.thread i = .running ∨ ∃ t, (s.pc t).creates = some i)
  | .dying => i ∉ l ∧ s.table.id i = timerIdNone ∧ s.Ending i

omit [DecidableEq T] in
theorem inStatus_unique {st st' : Status} (h : s.InStatus l i st) (h' : s.InStatus l i st') :
    st' = st := by
  have hmem : l.count i = 1 → i ∈ l := fun h => count_pos_iff.1 (by omega)
  cases st with
  | free =>
    cases st' with
    | free => rfl
    | live | dying => exact absurd (hmem h.1) h'.1
  | live =>
    cases st' with
    | free => exact absurd (hmem h'.1) h.1
    | live => rfl
    | dying => exact absurd (h.2.1.symm.trans h'.2.1) (slotId_ne_none i)
  | dying =>
    cases st' with
    | free => exact absurd (hmem h'.1) h.1
    | live => exact absurd (h'.2.1.symm.trans h.2.1) (slotId_ne_none i)
    | dying => rfl

omit [DecidableEq T] in
theorem Inv.inStatus (hi : Inv s l) (i : Slot) : ∃ st, s.InStatus l i st := by
  obtain ⟨c, f, hu, hph⟩ := hi.held i
  cases hph with
  | free hl hth hid => exact ⟨.free, count_eq_one_of_mem hi.nodup hl, hid⟩
  | init t hl _ _ hid | spawn t hl _ _ hid =>
    exact ⟨.live, hl, hid, .inr ⟨t, (hu.creator t).2 rfl⟩⟩
  | running f hl hth hm =>
    cases hm with
    | live hid => exact ⟨.live, hl, hid, .inl hth⟩
    | taken t hid => exact ⟨.dying, hl, hid, .inr ⟨hth, .inr ⟨t, (hu.finisher t).2 rfl⟩⟩⟩
    | told hid hd => exact ⟨.dying, hl, hid, .inr ⟨hth, .inl hd⟩⟩
  | freeing hl hth hid => exact ⟨.dying, hl, hid, .inl hth⟩

/-- A call that comes to return -1 leaves the table as it was. -/
theorem Inv.failed_keeps_table {e : Errno} (hi : Inv s l) (h : step s a = some s')
    (hold : s.pc t ≠ .returned (.failed e)) (hnew : s'.pc t = .returned (.failed e)) :
    s'.table = s.table := by
  obtain ⟨o, h⟩ := step_cases h
  have hgoto : ∀ (u : T) (p : Pc), update s.pc u p t = .returned (.failed e) →
      p = .returned (.failed e) := by
    intro u p hp
    rw [update_apply] at hp
    split at hp
    · exact hp
    · exact absurd hp hold
  cases h with
  | move | init | spawn | spawnFails | finish | leave => rfl
  | alloc u i => cases hgoto u _ hnew
  | remove u id i => cases hgoto u _ hnew
  | free i => exact absurd hnew hold
  | undo u i hpc => exact absurd hpc (hi.noUndo u i)

/-- **Slots.**  In every state of a run in which each `pthread_create` succeeds and no id is taken
from a `timer_create` that has not started its thread, the free list ends, each slot is free, live
or dying and only one of these, and a call that comes to return -1 leaves the table alone. -/
theorem slots_partitioned {s : State T} (h : machine.ReachableIf Careful s) :
    ∃ l, Seg s.table.next s.table.freeTimer l none ∧ (∀ i, ∃! st, s.InStatus l i st) ∧
      ∀ a s' t e, step s a = some s' → s.pc t ≠ .returned (.failed e) →
        s'.pc t = .returned (.failed e) → s'.table = s.table := by
  obtain ⟨l, hi⟩ := inv_reachable h
  refine ⟨l, hi.seg, ?_, ?_⟩
  · intro i
    obtain ⟨st, hst⟩ := hi.inStatus i
    exact ⟨st, hst, fun st' => inStatus_unique hst⟩
  · intro a s' t e hs hold hnew
    exact hi.failed_keeps_table hs hold hnew

end

def noTimers (T : Type) : State T where
  table := thrTimerTableInit true
  done _ := false
  thread _ := .absent
  pc _ := .idle

theorem init_noTimers (T : Type) : init (noTimers T) :=
  ⟨⟨true, rfl⟩, fun _ => rfl, fun _ => rfl⟩

def goodRequest : Request := { sigevThread := true, hasFunction := true, clockSupported := true }

/-- A thread creates a timer and deletes it; the thread of the timer still runs. -/
theorem slots_partitioned_deleted :
    ∃ s : State Unit, machine.ReachableIf Careful s ∧ s.pc () = .returned .deleted ∧
      s.thread 0 = .running ∧
      ∃ l, Seg s.table.next s.table.freeTimer l none ∧ ∀ i, ∃! st, s.InStatus l i st := by
  obtain ⟨s, hs, hpc, hth⟩ : ∃ s, machine.runIf Careful (noTimers Unit)
      [.create () goodRequest, .exec (), .exec (), .pthreadCreate () 0, .exec (),
        .delete () (slotId 0), .exec (), .exec ()] = some s ∧
      s.pc () = .returned .deleted ∧ s.thread 0 = .running := ⟨_, rfl, rfl, rfl⟩
  have hr := (Machine.ReachableIf.init (init_noTimers Unit)).runIf _ hs
  obtain ⟨l, hseg, hst, -⟩ := slots_partitioned hr
  exact ⟨s, hr, hpc, hth, l, hseg, hst⟩

/-- `pthread_create` fails with `ENOMEM` (12), and `timer_create` returns 0 with the id of a slot
that has no thread and is not free. -/
theorem create_without_thread :
    ∃ s : State Unit, machine.Reachable s ∧ s.pc () = .returned (.created (slotId 0)) ∧
      ∀ l, Seg s.table.next s.table.freeTimer l none → ∀ st, ¬ s.InStatus l 0 st := by
  obtain ⟨s, hs, hpc, hth, hid⟩ : ∃ s, machine.run (noTimers Unit)
      [.create () goodRequest, .exec (), .exec (), .pthreadCreate () 12, .exec ()] = some s ∧
      s.pc () = .returned (.created (slotId 0)) ∧ s.thread 0 = .absent ∧
      s.table.id 0 = slotId 0 := ⟨_, rfl, rfl, rfl, rfl⟩
  refine ⟨s, Machine.Reachable.run (.init (init_noTimers Unit)) _ hs, hpc, ?_⟩
  intro l _ st hst
  have hne := slotId_ne_none 0
  cases st with
  | free => exact hne (hid.symm.trans hst.2)
  | dying => exact hne (hid.symm.trans hst.2.1)
  | live =>
    rcases hst.2.2 with hrun | ⟨t, ht⟩
    · rw [hth] at hrun
      cases hrun
    · rw [hpc] at ht
      cases ht

-- a deletion that `timer_create` overwrites: the thread runs on, and nobody has the id of the slot
example : ∃ s : State Bool, machine.run (noTimers Bool)
    [.create false goodRequest, .exec false, .delete true (slotId 0), .exec true, .exec true,
      .exec false, .pthreadCreate false 0, .exec false] = some s ∧
    s.pc true = .returned .deleted ∧ s.table.id 0 = timerIdNone ∧ s.thread 0 = .running ∧
    s.done 0 = false := ⟨_, rfl, rfl, rfl, rfl, rfl⟩

end Pthread.TimerTable
