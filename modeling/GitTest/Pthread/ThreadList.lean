import GitTest.Lib.Doubly
import GitTest.Pthread.Thread

/-!
# The list of threads (libc/bionic/pthread.c)

`gThreadList` with the links of its descriptors: `next` points to the descriptor behind, `pref` to
the pointer that points to this one, which is `gThreadList` or the `next` of the descriptor before.
`_pthread_internal_add` puts a descriptor at the head, so the first one, of the main thread, stays
at the tail; `_pthread_internal_remove_locked` writes to the descriptor behind the one it removes
and does not ask whether there is one.

    the list is as it should be after every part of a run ↔ no run removes the tail, or adds what is
      in the list  (threadList_iff)
    the steps of GitTest.Pthread.Thread on its list are those of the pointers
      (removeLocked_refines)
-/

namespace Pthread.ThreadList

open Links List

/-! ## Algorithm -/

/-- The address of a pointer to a descriptor: `&gThreadList` or `&thread->next`. -/
abbrev Pref (A : Type) := Slot Unit A

structure Memory (A : Type) where
  gThreadList : Option A
  next : A → Option A
  pref : A → Pref A

inductive Op (A : Type)
  | add (thread : A)
  | remove (thread : A)
  deriving DecidableEq

section
variable {A : Type} [DecidableEq A]

/-- `*p` -/
def Memory.load (m : Memory A) (p : Pref A) : Option A :=
  Links.load (fun _ => m.gThreadList) m.next p

/-- `*p = v` -/
def Memory.store (m : Memory A) (p : Pref A) (v : Option A) : Memory A :=
  match p with
  | .head _ => { m with gThreadList := v }
  | .link a => { m with next := Function.update m.next a v }

/-- `_pthread_internal_add`; the stores are in the order of the source. -/
def internalAdd (m : Memory A) (thread : A) : Memory A :=
  let m := { m with pref := Function.update m.pref thread (.head ()) }
  let m := { m with next := Function.update m.next thread (m.load (m.pref thread)) }
  let m :=
    match m.next thread with
    | none => m
    | some n => { m with pref := Function.update m.pref n (.link thread) }
  m.store (m.pref thread) (some thread)

/-- `_pthread_internal_remove_locked`; `none` is the dereference of `NULL`. -/
def internalRemoveLocked (m : Memory A) (thread : A) : Option (Memory A) :=
  match m.next thread with
  | none => none
  | some n =>
    let m := { m with pref := Function.update m.pref n (m.pref thread) }
    some (m.store (m.pref thread) (m.next thread))

def step (m : Memory A) : Op A → Option (Memory A)
  | .add thread => some (internalAdd m thread)
  | .remove thread => internalRemoveLocked m thread

def run (m : Memory A) : List (Op A) → Option (Memory A)
  | [] => some m
  | op :: ops => (step m op).bind fun m => run m ops

/-! ## The list it stands for -/

/-- The descriptors that have been added and not removed, the newest first. -/
def after (l : List A) : Op A → List A
  | .add thread => thread :: l
  | .remove thread => l.erase thread

def contents (l : List A) (ops : List (Op A)) : List A := ops.foldl after l

def Removable (l : List A) : Op A → Prop
  | .add _ => True
  | .remove thread => thread ∈ l

/-- The tail is not removed, and what is in the list is not added again. -/
def Careful (l : List A) : Op A → Prop
  | .add thread => thread ∉ l
  | .remove thread => l.getLast? ≠ some thread

def Each (p : List A → Op A → Prop) (l : List A) : List (Op A) → Prop
  | [] => True
  | op :: ops => p l op ∧ Each p (after l op) ops

/-- The `pref` of the first descriptor, and of the one behind a given one. -/
def prefAfter : Option A → Pref A
  | none => .head ()
  | some a => .link a

/-- `gThreadList` is a doubly linked list of `l`. -/
def Listed (m : Memory A) (l : List A) : Prop :=
  Doubly (fun _ : Unit => prefAfter) (fun _ => True) (fun _ => m.gThreadList) m.next m.pref
    (fun _ => l)

/-! ## One operation -/

variable {m : Memory A} {a : A} {l : List A}

theorem internalAdd_eq (h : m.gThreadList ≠ some a) :
    internalAdd m a = ⟨some a, Function.update m.next a m.gThreadList,
      storeBack (Function.update m.pref a (.head ())) (.link a) m.gThreadList⟩ := by
  unfold internalAdd
  cases hg : m.gThreadList with
  | none => simp [Memory.load, Links.load, Memory.store, storeBack]
  | some n =>
    have hna : a ≠ n := fun he => h (by rw [hg, he])
    simp [Memory.load, Links.load, Memory.store, storeBack, hna]

theorem Listed.add (h : Listed m l) (ha : a ∉ l) :
    Listed (internalAdd m a) (a :: l) := by
  have hne : m.gThreadList ≠ some a := by
    intro hg
    have hhead := (h.seg () trivial).head_eq
    rw [hg] at hhead
    exact ha (mem_of_head? hhead.symm)
  have hpush := Doubly.push (i := ()) h trivial (fun _ _ => ha)
  rw [internalAdd_eq hne]
  exact hpush

/-- What is added twice points to itself in a circle. -/
theorem Listed.not_add (h : Listed m l) (ha : a ∈ l) (l' : List A) :
    ¬ Listed (internalAdd m a) l' := by
  intro h'
  have hseg := h.seg () trivial
  have hnodup := h.nodup () trivial
  have hseg' := h'.seg () trivial
  obtain ⟨pre, post, rfl⟩ := append_of_mem ha
  obtain ⟨r, hpre, rfl, -⟩ := seg_append.1 hseg
  by_cases hg : m.gThreadList = some a
  · have hm : (internalAdd m a).gThreadList = some a ∧ (internalAdd m a).next a = some a := by
      simp [internalAdd, Memory.load, Links.load, hg, Memory.store]
    rw [hm.1] at hseg'
    exact Seg.no_end (l := []) ⟨rfl, hm.2⟩ hseg'
  · rw [internalAdd_eq hg] at hseg'
    have hnot : a ∉ pre := fun hm =>
      (nodup_append.1 hnodup).2.2 a hm a mem_cons_self rfl
    exact Seg.no_end (hpre.push hnot) hseg'

omit [DecidableEq A] in
theorem Listed.next_eq_none_iff (h : Listed m l) (ha : a ∈ l) :
    m.next a = none ↔ l.getLast? = some a := by
  obtain ⟨pre, post, rfl⟩ := append_of_mem ha
  rw [Doubly.next_eq (i := ()) h trivial rfl]
  have hnodup := h.nodup () trivial
  cases post with
  | nil => simp
  | cons b post =>
    have hne : (b :: post).getLast? ≠ some a := by
      intro hlast
      have hn := (nodup_append.1 hnodup).2.1
      exact (nodup_cons.1 hn).1 (mem_of_getLast? hlast)
    simpa [getLast?_append, getLast?_cons] using hne

/-- A store through a `pref` is one to the head or to a link. -/
theorem listed_store {pref : A → Pref A} {p : Pref A} {v : Option A}
    (h : Doubly (fun _ : Unit => prefAfter) (fun _ => True)
      (storeHead (fun _ => m.gThreadList) v p) (storeLink m.next v p) pref (fun _ => l)) :
    Listed (Memory.store { m with pref } p v) l := by
  cases p with
  | head | link => exact h

theorem Listed.remove (h : Listed m l) (ha : a ∈ l) (hlast : l.getLast? ≠ some a) :
    ∃ m', internalRemoveLocked m a = some m' ∧ Listed m' (l.erase a) := by
  have hnext := mt (h.next_eq_none_iff ha).1 hlast
  obtain ⟨n, hn⟩ := Option.ne_none_iff_exists'.1 hnext
  obtain ⟨pre, post, rfl⟩ := append_of_mem ha
  have hnodup := h.nodup () trivial
  obtain ⟨-, hpost, hdisj⟩ := nodup_append.1 hnodup
  have hnot : a ∉ pre := fun hm => hdisj a hm a mem_cons_self rfl
  have hna : a ≠ n := by
    rintro rfl
    have hhead := Doubly.next_eq (i := ()) h trivial rfl
    rw [hn] at hhead
    exact (nodup_cons.1 hpost).1 (mem_of_head? hhead.symm)
  have hpref : m.pref a = slotAfter () pre := Doubly.back_eq (i := ()) h trivial rfl
  have hrem := Doubly.remove (i := ()) h trivial rfl
  rw [hn] at hrem
  rw [erase_append_right _ hnot, erase_cons_head]
  unfold internalRemoveLocked
  rw [hn]
  refine ⟨_, rfl, ?_⟩
  simp only [Function.update_of_ne hna]
  rw [hn]
  rw [← hpref] at hrem
  exact listed_store hrem

/-- The removal of the tail writes to `NULL->pref`. -/
theorem Listed.remove_tail (h : Listed m l) (ha : a ∈ l) (hlast : l.getLast? = some a) :
    internalRemoveLocked m a = none := by
  unfold internalRemoveLocked
  rw [(h.next_eq_none_iff ha).2 hlast]

theorem Listed.step_iff {op : Op A} (h : Listed m l) (hr : Removable l op) :
    (∃ m', step m op = some m' ∧ Listed m' (after l op)) ↔ Careful l op := by
  cases op with
  | add a =>
    constructor
    · rintro ⟨m', hs, hl⟩ ha
      cases hs
      exact h.not_add ha _ hl
    · intro ha
      exact ⟨_, rfl, h.add ha⟩
  | remove a =>
    constructor
    · rintro ⟨m', hs, -⟩ hlast
      rw [step, h.remove_tail hr hlast] at hs
      cases hs
    · intro hlast
      exact h.remove hr hlast

/-! ## Top theorem -/

/-- After every part of the sequence `gThreadList` is a doubly linked list of what has been added
and not removed, and no operation on the way has dereferenced `NULL`. -/
def Kept (m : Memory A) (l : List A) (ops : List (Op A)) : Prop :=
  ∀ part, part <+: ops → ∃ m', run m part = some m' ∧ Listed m' (contents l part)

theorem kept_cons_iff {op : Op A} {ops : List (Op A)} (h : Listed m l) : Kept m l (op :: ops) ↔
      ∃ m', step m op = some m' ∧ Listed m' (after l op) ∧ Kept m' (after l op) ops := by
  constructor
  · intro hk
    obtain ⟨m', hs, hl⟩ := hk [op] (by simp)
    have hs' : step m op = some m' := by simpa [run] using hs
    refine ⟨m', hs', hl, fun part hpart => ?_⟩
    have hkept := hk (op :: part) (by simpa using hpart)
    rw [run, hs'] at hkept
    exact hkept
  · rintro ⟨m', hs, hl, hk⟩ part hpart
    cases part with
    | nil => exact ⟨m, rfl, h⟩
    | cons op' part =>
      rw [cons_prefix_cons] at hpart
      obtain ⟨rfl, hpart⟩ := hpart
      rw [run, hs]
      exact hk part hpart

/-- **Integrity of the list of threads.**  A sequence that removes only elements of the list keeps
it well formed throughout, with no dereference of `NULL`, exactly if it never removes the tail and
never adds what is in the list. -/
theorem threadList_iff {m : Memory A} {l : List A} (h : Listed m l) {ops : List (Op A)}
    (hr : Each Removable l ops) : Kept m l ops ↔ Each Careful l ops := by
  induction ops generalizing m l with
  | nil =>
    refine iff_of_true (fun part hpart => ?_) trivial
    rw [prefix_nil] at hpart
    rw [hpart]
    exact ⟨m, rfl, h⟩
  | cons op ops ih =>
    rw [kept_cons_iff h]
    constructor
    · rintro ⟨m', hs, hl, hk⟩
      exact ⟨(h.step_iff hr.1).1 ⟨m', hs, hl⟩, (ih hl hr.2).1 hk⟩
    · rintro ⟨hc, hrest⟩
      obtain ⟨m', hs, hl⟩ := (h.step_iff hr.1).2 hc
      exact ⟨m', hs, hl, (ih hl hr.2).2 hrest⟩

omit [DecidableEq A] in
theorem listed_nil (h : m.gThreadList = none) : Listed m [] :=
  ⟨⟨fun _ _ => h, fun _ _ => nodup_nil, fun _ _ _ _ _ _ hb => absurd hb not_mem_nil⟩,
    fun _ _ => trivial⟩

end

def noThreads : Memory Nat := ⟨none, fun _ => none, fun _ => .head ()⟩

/-- The main thread 0 and three more, of which the middle one and then the newest go. -/
theorem threadList_iff_exits :
    Kept noThreads [] [.add 0, .add 1, .add 2, .add 3, .remove 2, .remove 3] :=
  (threadList_iff (listed_nil rfl) (by simp [Each, Removable, after])).2
    (by simp [Each, Careful, after])

/-- The main thread exits while another one runs: `NULL->pref` is written. -/
theorem main_thread_removed :
    Each Removable [] [.add 0, .add 1, .remove 0] ∧
      run noThreads [.add 0, .add 1, .remove 0] = none := by
  refine ⟨by simp [Each, Removable, after], rfl⟩

/-! ## The list in the model of the threads -/

section
variable {T : Type} [DecidableEq T]

/-- `Thread.State.removeLocked` is the removal from the pointers: it has a result when that has
one, and the lists agree. -/
theorem removeLocked_refines {s : Thread.State T} {m : Memory T} {u : T} (h : Listed m s.list)
    (hu : u ∈ s.list) :
    (∀ s', s.removeLocked u = some s' →
      ∃ m', internalRemoveLocked m u = some m' ∧ Listed m' s'.list) ∧
    (s.removeLocked u = none → internalRemoveLocked m u = none) := by
  constructor
  · intro s' hs
    obtain ⟨-, hlast, rfl⟩ := Thread.removeLocked_cases hs
    exact h.remove hu hlast
  · intro hs
    apply h.remove_tail hu
    by_contra hlast
    rw [Thread.State.removeLocked, if_pos ⟨hu, hlast⟩] at hs
    cases hs

end

end Pthread.ThreadList
