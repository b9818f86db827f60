import GitTest.Lib.Count
import GitTest.Pthread.Thread

/-!
# The invariant of calm thread runs

In a calm run a join's wait ends before its target's exit only by a wake, and no thread with
joiners is detached.  Then the descriptor, the ghosts and the place in the list of a thread are
those of its phase (`Fits`), a thread inside a function can count on what it saw (`Sees`), and
`join_count` counts the joiners.

Most steps change the record (descriptor, ghosts, place in the list) of one thread `w` only;
`Change.inv` says what is left to show for `w` and for the thread that moves.

    ReachableIf Calm s → Inv s  (inv_reachable)
-/

namespace Pthread.Thread

open Counting Function Futex List Machines

section
variable {T : Type}

/-- No join's wait ends before its target has exited, unless by a wake, and no thread with joiners
is detached. -/
def Calm (s : State T) : Act T → Prop
  | .leave t => ∀ u, s.pc t = .joinBlocked u → (s.exited u).isSome = true
  | .exec t => ∀ u, s.pc t = .detach u → s.joinCount u ≤ 0
  | .create _ _ _ | .exit _ _ | .join _ _ | .detach _ _ | .keyDelete _ => True

instance [DecidableEq T] [Fintype T] (s : State T) : (a : Act T) → Decidable (Calm s a)
  | .leave t => inferInstanceAs (Decidable (∀ u, s.pc t = .joinBlocked u → _))
  | .exec t => inferInstanceAs (Decidable (∀ u, s.pc t = .detach u → _))
  | .create _ _ _ | .exit _ _ | .join _ _ | .detach _ _ | .keyDelete _ =>
    inferInstanceAs (Decidable True)

/-! ## The invariant -/

/-- `join_cond` before and after the broadcast. -/
def quiet : Word := Cond.pthreadCondInit false
def rung : Word := (initThread false).broadcast.joinCond

theorem quiet_ne_rung : quiet ≠ rung := by decide

/-- How far a thread is in its life. -/
inductive Phase
  | unborn
  | starting
  | running
  /-- It goes to take itself out of the list. -/
  | detaching
  | removed
  /-- It has updated its condition variable and goes to wake its joiners. -/
  | ringing (v : Word)
  | dead

def Pc.phase {T : Type} : Pc T → Phase
  | .unborn => .unborn
  | .starting _ => .starting
  | .initTls | .idle | .returned _ | .createAdd _ | .createStart _ | .exitFlags _ | .exitLock _
  | .join _ | .joinWait _ _ | .joinBlocked _ | .joinRelock _ | .detach _ | .deleteLock
  | .deleteWalk _ => .running
  | .exitRemove _ => .detaching
  | .exitFree => .removed
  | .exitWake v => .ringing v
  | .dead => .dead

/-- The descriptor, the ghosts and the place in the list of a thread of each phase. -/
def Fits (d : Option Desc) (ex : Option Word) (fr : Bool) (listed : Prop) : Phase → Prop
  | .unborn => d = none ∧ ex = none ∧ fr = false ∧ ¬ listed
  | .starting => ∃ e, d = some e ∧ ex = none ∧ fr = false ∧ e.joinCond = quiet ∧ 0 ≤ e.joinCount
  | .running =>
    ∃ e, d = some e ∧ ex = none ∧ fr = false ∧ listed ∧ e.joinCond = quiet ∧ 0 ≤ e.joinCount
  | .detaching =>
    ∃ e, d = some e ∧ ex = none ∧ fr = false ∧ listed ∧ e.joinCond = quiet ∧ 0 ≤ e.joinCount ∧
      e.detached = true
  | .removed =>
    ∃ e v, d = some e ∧ ex = some v ∧ fr = false ∧ ¬ listed ∧ e.detached = true ∧ e.intern = true
  | .ringing v =>
    ∃ e, d = some e ∧ ex = none ∧ fr = false ∧ listed ∧ e.joinCond = rung ∧ e.returnValue = v ∧
      0 < e.joinCount
  | .dead =>
    ∃ v, ex = some v ∧ ((d = none ∧ fr = true ∧ ¬ listed) ∨
      ∃ e, d = some e ∧ fr = false ∧ listed ∧ e.returnValue = v ∧
        ((e.joinCount < 0 ∧ e.joinCond = quiet) ∨ (0 < e.joinCount ∧ e.joinCond = rung)))

/-- The thread whose `join_count` counts a thread. -/
def Pc.target {T : Type} : Pc T → Option T
  | .joinWait u _ | .joinBlocked u | .joinRelock u => some u
  | .unborn | .starting _ | .initTls | .idle | .returned _ | .createAdd _ | .createStart _
  | .exitFlags _ | .exitRemove _ | .exitFree | .exitLock _ | .exitWake _ | .dead | .join _
  | .detach _ | .deleteLock | .deleteWalk _ => none

/-- What a thread at `p` can count on about the others. -/
def Sees (s : State T) (t : T) : Pc T → Prop
  | .joinWait u old =>
    ∃ e, s.desc u = some e ∧ e.detached = false ∧ u ∈ s.list ∧
      (e.joinCond = old ∨ e.joinCond = rung)
  | .joinBlocked u =>
    ∃ e, s.desc u = some e ∧ e.detached = false ∧ u ∈ s.list ∧
      (asleep (s.queue u) t ∨ e.joinCond = rung)
  | .joinRelock u =>
    ∃ e, s.desc u = some e ∧ e.detached = false ∧ u ∈ s.list ∧ e.joinCond = rung
  | .returned (.joined u v) => s.exited u = some v
  | .createAdd u => s.pc u = .starting t ∧ u ∉ s.list
  | .createStart u => s.pc u = .starting t ∧ u ∈ s.list
  | .exitWake _ | .deleteWalk _ => s.lock = some t
  | .unborn | .starting _ | .initTls | .idle | .returned (.created _)
  | .returned (.joinFailed _) | .returned .detached | .returned (.detachFailed _)
  | .returned .keyDeleted | .exitFlags _ | .exitRemove _ | .exitFree | .exitLock _ | .dead
  | .join _ | .detach _ | .deleteLock => True

structure Inv (s : State T) : Prop where
  fits : ∀ u, Fits (s.desc u) (s.exited u) (s.freed u) (u ∈ s.list) (s.pc u).phase
  sees : ∀ t, Sees s t (s.pc t)
  counts : ∀ u e, s.desc u = some e →
    Counts (fun t => (s.pc t).target = some u) e.joinCount.toNat
  /-- Only the last descriptor of the list is static. -/
  main : ∃ m, s.list.getLast? = some m ∧ ∀ u e, s.desc u = some e → e.intern = false → u = m
  nodup : s.list.Nodup

variable {s s' : State T} {t u w : T} {p : Pc T}

def FitsAt (s : State T) (u : T) : Phase → Prop :=
  Fits (s.desc u) (s.exited u) (s.freed u) (u ∈ s.list)

theorem Inv.fits_at (hi : Inv s) (hp : s.pc t = p) : FitsAt s t p.phase :=
  hp ▸ hi.fits t

theorem Inv.sees_at (hi : Inv s) (hp : s.pc t = p) : Sees s t p :=
  hp ▸ hi.sees t

theorem Sees.target (h : Sees s t p) (hp : p.target = some u) :
    ∃ e, s.desc u = some e ∧ e.detached = false ∧ u ∈ s.list := by
  cases p with
  | joinWait | joinBlocked | joinRelock =>
    cases hp
    obtain ⟨e, hd, hdet, hm, -⟩ := h
    exact ⟨e, hd, hdet, hm⟩
  | _ => cases hp

variable {e : Desc} {v : Word}

theorem Inv.count_pos (hi : Inv s) (ht : (s.pc t).target = some u) (hd : s.desc u = some e) :
    0 < e.joinCount := by
  have := (hi.counts u e hd).pos t ht
  omega

theorem Pc.eq_dead {T : Type} {p : Pc T} (h : p.phase = .dead) : p = .dead := by
  cases p with
  | dead => rfl
  | _ => cases h

theorem Pc.eq_exitWake {T : Type} {p : Pc T} (h : p.phase = .ringing v) :
    p = .exitWake v := by
  cases p with
  | exitWake => cases h; rfl
  | _ => cases h

theorem Inv.holder (hi : Inv s) (h : (s.pc u).phase = .ringing v) :
    s.lock = some u := by
  have hs := hi.sees u
  rwa [Pc.eq_exitWake h] at hs

/-- A listed thread has not come to its exit section, is in it, or has exited. -/
theorem Inv.listed (hi : Inv s) (hd : s.desc u = some e) (hm : u ∈ s.list) :
    (s.exited u = none ∧ e.joinCond = quiet ∧ 0 ≤ e.joinCount) ∨
      (s.lock = some u ∧ s.exited u = none ∧ e.joinCond = rung ∧ 0 < e.joinCount) ∨
      ((s.pc u).phase = .dead ∧ s.exited u = some e.returnValue ∧
        ((e.joinCount < 0 ∧ e.joinCond = quiet) ∨ (0 < e.joinCount ∧ e.joinCond = rung))) := by
  have hf := hi.fits u
  rw [hd] at hf
  generalize hph : (s.pc u).phase = ph at hf ⊢
  cases ph with
  | unborn => cases hf.1
  | starting =>
    obtain ⟨e', he, hx, -, hq, hc⟩ := hf
    cases he
    exact .inl ⟨hx, hq, hc⟩
  | running =>
    obtain ⟨e', he, hx, -, -, hq, hc⟩ := hf
    cases he
    exact .inl ⟨hx, hq, hc⟩
  | detaching =>
    obtain ⟨e', he, hx, -, -, hq, hc, -⟩ := hf
    cases he
    exact .inl ⟨hx, hq, hc⟩
  | removed =>
    obtain ⟨e', v, -, -, -, hm', -⟩ := hf
    exact absurd hm hm'
  | ringing v =>
    obtain ⟨e', he, hx, -, -, hr, -, hc⟩ := hf
    cases he
    exact .inr (.inl ⟨hi.holder hph, hx, hr, hc⟩)
  | dead =>
    obtain ⟨v, hx, ⟨h, -⟩ | ⟨e', he, -, -, rfl, h⟩⟩ := hf
    · cases h
    · cases he
      exact .inr (.inr ⟨rfl, hx, h⟩)

theorem Inv.allocated (hi : Inv s) (hm : u ∈ s.list) :
    ∃ e, s.desc u = some e := by
  have hf := hi.fits u
  generalize (s.pc u).phase = ph at hf
  cases ph with
  | unborn =>
    exact absurd hm hf.2.2.2
  | starting | running | detaching | ringing =>
    obtain ⟨e, hd, -⟩ := hf
    exact ⟨e, hd⟩
  | removed =>
    obtain ⟨e, v, hd, -⟩ := hf
    exact ⟨e, hd⟩
  | dead =>
    obtain ⟨v, -, ⟨-, -, h⟩ | ⟨e, hd, -⟩⟩ := hf
    · exact absurd hm h
    · exact ⟨e, hd⟩

/-- Outside every locked section, a listed thread that has been rung has exited. -/
theorem Inv.exited_of_rung (hi : Inv s) (hl : s.lock = none) (hd : s.desc u = some e)
    (hm : u ∈ s.list) (hr : e.joinCond = rung) :
    (s.pc u).phase = .dead ∧ s.exited u = some e.returnValue := by
  rcases hi.listed hd hm with ⟨-, hq, -⟩ | ⟨hlu, -⟩ | ⟨hp, hx, -⟩
  · exact absurd (hq.symm.trans hr) quiet_ne_rung
  · rw [hl] at hlu
    cases hlu
  · exact ⟨hp, hx⟩

theorem Inv.exited_of_zombie (hi : Inv s) (hd : s.desc u = some e) (hm : u ∈ s.list)
    (hc : e.joinCount < 0) :
    (s.pc u).phase = .dead ∧ s.exited u = some e.returnValue := by
  rcases hi.listed hd hm with ⟨-, -, h⟩ | ⟨-, -, -, h⟩ | ⟨hp, hx, -⟩
  · omega
  · omega
  · exact ⟨hp, hx⟩

/-! ## A step that changes the record of one thread -/

/-- A step of `t` to `p` touches nobody's descriptor, ghosts and place in the list but those of
`w`, and leaves the others where they are. -/
structure Change (s s' : State T) (t w : T) (p : Pc T) : Prop where
  moved : s'.pc t = p
  pc : ∀ x, x ≠ t → x ≠ w → s'.pc x = s.pc x
  desc : ∀ x, x ≠ w → s'.desc x = s.desc x
  exited : ∀ x, x ≠ w → s'.exited x = s.exited x
  freed : ∀ x, x ≠ w → s'.freed x = s.freed x
  list : ∀ x, x ≠ w → (x ∈ s'.list ↔ x ∈ s.list)

/-- What the threads other than `t` keep over a step that changes the record of `w`. -/
structure Keeps (s s' : State T) (t w : T) : Prop where
  lock : ∀ x, x ≠ t → s.lock = some x → s'.lock = some x
  asleep : ∀ x u, x ≠ t → asleep (s.queue u) x → asleep (s'.queue u) x ∨
    u = w ∧ ∀ e, s'.desc w = some e → e.joinCond = rung
  target : ∀ x, x ≠ t → (s.pc x).target = some w → ∀ e, s.desc w = some e → e.detached = false →
    w ∈ s.list → ∃ e', s'.desc w = some e' ∧ e'.detached = false ∧ w ∈ s'.list ∧
      (e'.joinCond = e.joinCond ∨ e'.joinCond = rung)
  exited : ∀ v, s.exited w = some v → s'.exited w = some v
  starting : ∀ x, x ≠ t → s.pc w = .starting x →
    s'.pc w = .starting x ∧ (w ∈ s'.list ↔ w ∈ s.list)

/-- A new thread is known to its creator only. -/
theorem keeps_created (hl : s'.lock = s.lock) (hq : s'.queue = s.queue) (hd : s'.desc = s.desc)
    (hx : s'.exited = s.exited) (hm : u ∈ s'.list) (hu : s.pc u = .starting t) :
    Keeps s s' t u := by
  refine ⟨fun _ _ h => by rwa [hl], fun _ _ _ h => .inl (by rwa [hq]),
    fun x _ _ e he hdet _ => ⟨e, by rwa [hd], hdet, hm, .inl rfl⟩, fun _ h => by rwa [hx],
    fun x hx h => ?_⟩
  rw [hu] at h
  cases h
  exact absurd rfl hx

theorem getLast?_cons_of_some {l : List T} {m : T} (h : l.getLast? = some m) (u : T) :
    (u :: l).getLast? = l.getLast? := by
  rw [getLast?_cons, h, Option.getD_some]

variable [DecidableEq T]

namespace Change

variable {s s' : State T} {t w : T} {p : Pc T}

theorem fits (hc : Change s s' t w p) (hi : Inv s) (hp : w ≠ t → p.phase = (s.pc t).phase)
    (hw : FitsAt s' w (s'.pc w).phase) (u : T) : FitsAt s' u (s'.pc u).phase := by
  by_cases hu : u = w
  · rwa [hu]
  · have hf := hi.fits u
    have hph : (s'.pc u).phase = (s.pc u).phase := by
      by_cases ht : u = t
      · subst ht
        rw [hc.moved, hp (Ne.symm hu)]
      · rw [hc.pc u ht hu]
    rw [FitsAt, hph, hc.desc u hu, hc.exited u hu, hc.freed u hu]
    rwa [propext (hc.list u hu)]

/-- The joiners of a thread have it in place after the step, whether it is `w` or not. -/
theorem target (hc : Change s s' t w p) (hk : Keeps s s' t w) {x u : T} {e : Desc} (hxt : x ≠ t)
    (hx : (s.pc x).target = some u) (hd : s.desc u = some e) (hdet : e.detached = false)
    (hm : u ∈ s.list) :
    ∃ e', s'.desc u = some e' ∧ e'.detached = false ∧ u ∈ s'.list ∧
      (e'.joinCond = e.joinCond ∨ e'.joinCond = rung) := by
  by_cases hu : u = w
  · subst hu
    exact hk.target x hxt hx e hd hdet hm
  · exact ⟨e, by rw [hc.desc u hu, hd], hdet, (hc.list u hu).2 hm, .inl rfl⟩

theorem sees (hc : Change s s' t w p) (hk : Keeps s s' t w) {x : T} (hx : x ≠ t)
    (h : Sees s x (s.pc x)) (hpc : s'.pc x = s.pc x)
    (hst : ∀ u, s.pc u = .starting x → s'.pc u = .starting x ∧ (u ∈ s'.list ↔ u ∈ s.list)) :
    Sees s' x (s'.pc x) := by
  rw [hpc]
  generalize hp : s.pc x = q at h ⊢
  cases q with
  | joinWait u old =>
    obtain ⟨e, hd, hdet, hm, hr⟩ := h
    obtain ⟨e', hd', hdet', hm', he⟩ := hc.target hk hx (by rw [hp]; rfl) hd hdet hm
    refine ⟨e', hd', hdet', hm', ?_⟩
    rcases he with he | he
    · rwa [he]
    · exact .inr he
  | joinBlocked u =>
    obtain ⟨e, hd, hdet, hm, hr⟩ := h
    obtain ⟨e', hd', hdet', hm', he⟩ := hc.target hk hx (by rw [hp]; rfl) hd hdet hm
    refine ⟨e', hd', hdet', hm', ?_⟩
    rcases he with he | he
    · rcases hr with hr | hr
      · rcases hk.asleep x u hx hr with h | ⟨rfl, h⟩
        · exact .inl h
        · exact .inr (h e' hd')
      · exact .inr (he.trans hr)
    · exact .inr he
  | joinRelock u =>
    obtain ⟨e, hd, hdet, hm, hr⟩ := h
    obtain ⟨e', hd', hdet', hm', he⟩ := hc.target hk hx (by rw [hp]; rfl) hd hdet hm
    exact ⟨e', hd', hdet', hm', he.elim (fun he => he.trans hr) id⟩
  | returned r =>
    cases r with
    | joined u v =>
      change s'.exited u = some v
      by_cases hu : u = w
      · subst hu
        exact hk.exited v h
      · rw [hc.exited u hu]
        exact h
    | _ => trivial
  | createAdd u =>
    obtain ⟨h1, h2⟩ := hst u h.1
    exact ⟨h1, fun hm => h.2 (h2.1 hm)⟩
  | createStart u =>
    obtain ⟨h1, h2⟩ := hst u h.1
    exact ⟨h1, h2.2 h.2⟩
  | exitWake | deleteWalk =>
    exact hk.lock x hx h
  | _ => trivial

theorem counts (hc : Change s s' t w p) (hi : Inv s)
    (hw : w ≠ t → (s'.pc w).target = (s.pc w).target)
    (ht : ∀ u, u ≠ w → (p.target = some u ↔ (s.pc t).target = some u))
    (hcw : ∀ e, s'.desc w = some e →
      Counts (fun x => (s'.pc x).target = some w) e.joinCount.toNat) (u : T) (e : Desc)
    (hd : s'.desc u = some e) : Counts (fun x => (s'.pc x).target = some u) e.joinCount.toNat := by
  by_cases hu : u = w
  · subst hu
    exact hcw e hd
  · rw [hc.desc u hu] at hd
    refine (hi.counts u e hd).congr fun x => ?_
    by_cases hx : x = t
    · subst hx
      rw [hc.moved]
      exact ht u hu
    · by_cases hxw : x = w
      · subst hxw
        rw [hw hx]
      · rw [hc.pc x hx hxw]

end Change

theorem Change.inv (hc : Change s s' t w p) (hk : Keeps s s' t w) (hi : Inv s)
    (hst : ∀ x, s.pc t ≠ .starting x) (hp : w ≠ t → p.phase = (s.pc t).phase)
    (hfw : FitsAt s' w (s'.pc w).phase)
    (hsw : w ≠ t → s'.pc w = s.pc w ∨ Sees s' w (s'.pc w)) (hs : Sees s' t p)
    (hcounts : ∀ u e, s'.desc u = some e →
      Counts (fun x => (s'.pc x).target = some u) e.joinCount.toNat)
    (hlast : s'.list.getLast? = s.list.getLast?)
    (hint : ∀ e', s'.desc w = some e' → e'.intern = true ∨
      ∃ e, s.desc w = some e ∧ e.intern = e'.intern) (hnd : s'.list.Nodup) : Inv s' := by
  refine ⟨hc.fits hi hp hfw, fun x => ?_, hcounts, ?_, hnd⟩
  · by_cases hx : x = t
    · subst hx
      rwa [hc.moved]
    · have hstart : ∀ u, s.pc u = .starting x →
          s'.pc u = .starting x ∧ (u ∈ s'.list ↔ u ∈ s.list) := by
        intro u hu
        by_cases huw : u = w
        · subst huw
          exact hk.starting x hx hu
        · have hut : u ≠ t := by
            rintro rfl
            exact hst x hu
          exact ⟨by rw [hc.pc u hut huw, hu], hc.list u huw⟩
      have hsees : s'.pc x = s.pc x → Sees s' x (s'.pc x) := fun hpc =>
        hc.sees hk hx (hi.sees x) hpc hstart
      by_cases hxw : x = w
      · subst hxw
        exact (hsw hx).elim hsees id
      · exact hsees (hc.pc x hx hxw)
  · obtain ⟨m, hm, hmain⟩ := hi.main
    refine ⟨m, hlast.trans hm, fun u e hd he => ?_⟩
    by_cases hu : u = w
    · subst hu
      rcases hint e hd with h | ⟨e₀, hd₀, h⟩
      · rw [h] at he
        cases he
      · exact hmain u e₀ hd₀ (h.trans he)
    · rw [hc.desc u hu] at hd
      exact hmain u e hd he

/-! ## Every calm step keeps the invariant -/

section
variable (hi : Inv s)
include hi

/-- A step of `t` that changes no descriptor and no ghost. -/
theorem Inv.move {l : Option T} {q : T → Queue T} (hst : ∀ x, s.pc t ≠ .starting x)
    (hfit : FitsAt s t p.phase)
    (htg : p.target = (s.pc t).target) (hl : ∀ x, x ≠ t → s.lock = some x → l = some x)
    (hq : ∀ x u, x ≠ t → asleep (s.queue u) x → asleep (q u) x)
    (hs : Sees ({ s with lock := l, queue := q }.goto t p) t p) :
    Inv ({ s with lock := l, queue := q }.goto t p) := by
  have hc : Change s ({ s with lock := l, queue := q }.goto t p) t t p :=
    ⟨update_self .., fun x hx _ => update_of_ne hx _ _, fun _ _ => rfl,
      fun _ _ => rfl, fun _ _ => rfl, fun _ _ => Iff.rfl⟩
  have hk : Keeps s ({ s with lock := l, queue := q }.goto t p) t t :=
    ⟨hl, fun x u hx h => .inl (hq x u hx h),
      fun x _ _ e hd hdet hm => ⟨e, hd, hdet, hm, .inl rfl⟩, fun _ h => h,
      fun x _ h => absurd h (hst x)⟩
  refine hc.inv hk hi hst (fun h => absurd rfl h) ?_ (fun h => absurd rfl h) hs ?_ rfl
    (fun e h => .inr ⟨e, h, rfl⟩) hi.nodup
  · rwa [hc.moved]
  · refine hc.counts hi (fun h => absurd rfl h) (fun u _ => by rw [htg]) fun e hd => ?_
    exact (hi.counts t e hd).update_same (p := fun a : Pc T => a.target = some t) (by rw [htg])

theorem Inv.goto (hst : ∀ x, s.pc t ≠ .starting x) (hph : p.phase = (s.pc t).phase)
    (htg : p.target = (s.pc t).target) (hs : Sees (s.goto t p) t p) : Inv (s.goto t p) :=
  hi.move hst (by rw [hph]; exact hi.fits t) htg (fun _ _ h => h) (fun _ _ _ h => h) hs

theorem inv_flags (hp : s.pc t = .exitFlags v) (hd : s.desc t = some e) :
    Inv (s.goto t (if e.detached then .exitRemove v else .exitLock v)) := by
  have hst : ∀ x, s.pc t ≠ .starting x := by simp [hp]
  split
  · next hdet =>
    refine hi.move hst ?_ (by rw [hp]; rfl) (fun _ _ h => h) (fun _ _ _ h => h) trivial
    obtain ⟨e', he, h1, h2, h3, h4, h5⟩ := hi.fits_at hp
    cases hd.symm.trans he
    exact ⟨e, hd, h1, h2, h3, h4, h5, hdet⟩
  · exact hi.goto hst (by rw [hp]; rfl) (by rw [hp]; rfl) trivial

theorem inv_sleep (hp : s.pc t = .joinWait u e.joinCond) :
    Inv ({ s with
      queue := update s.queue u
        (sleep (s.queue u) t (Cond.condIsShared e.joinCond)) }.goto t (.joinBlocked u)) := by
  obtain ⟨e', hd, hdet, hm, -⟩ := hi.sees_at hp
  refine hi.move (by simp [hp]) ?_ (by rw [hp]; rfl) (fun _ _ h => h) ?_ ?_
  · exact (hi.fits_at hp :)
  · rintro x v - ⟨ps, h⟩
    by_cases hv : v = u
    · subst hv
      rw [update_self]
      exact ⟨ps, mem_cons_of_mem _ h⟩
    · rw [update_of_ne hv]
      exact ⟨ps, h⟩
  · refine ⟨e', hd, hdet, hm, .inl ?_⟩
    change asleep (update s.queue u _ u) t
    rw [update_self]
    exact ⟨_, mem_cons_self⟩

theorem inv_leave (hp : s.pc t = .joinBlocked u) (hx : (s.exited u).isSome = true) :
    Inv ({ s with queue := update s.queue u (leave (s.queue u) t) }.goto t
      (.joinRelock u)) := by
  obtain ⟨e, hd, hdet, hm, -⟩ := hi.sees_at hp
  have hpos := hi.count_pos (show (s.pc t).target = some u by rw [hp]; rfl) hd
  refine hi.move (by simp [hp]) ?_ (by rw [hp]; rfl) (fun _ _ h => h) ?_ ?_
  · exact (hi.fits_at hp :)
  · intro x v hne h
    by_cases hv : v = u
    · subst hv
      rw [update_self, asleep_leave]
      exact ⟨h, hne⟩
    · rwa [update_of_ne hv]
  · -- an exited thread with joiners is one that has rung
    refine ⟨e, hd, hdet, hm, ?_⟩
    rcases hi.listed hd hm with ⟨h, -⟩ | ⟨-, -, hr, -⟩ | ⟨-, -, h | h⟩
    · rw [h] at hx
      cases hx
    · exact hr
    · omega
    · exact h.2

/-- A step of `t` that stores into the descriptor of `w` and leaves the list alone. -/
theorem Inv.store {e' : Desc} (hd : s.desc w = some e) (hst : ∀ x, s.pc t ≠ .starting x)
    (hpc : s'.pc = update s.pc t p) (hlist : s'.list = s.list)
    (hdesc : s'.desc = update s.desc w (some e')) (hq : s'.queue = s.queue)
    (hfr : s'.freed = s.freed) (hexo : ∀ x, x ≠ w → s'.exited x = s.exited x)
    (hex : ∀ v, s.exited w = some v → s'.exited w = some v)
    (hl : ∀ x, x ≠ t → s.lock = some x → s'.lock = some x) (hp : w ≠ t → p.phase = (s.pc t).phase)
    (hfit : Fits (some e') (s'.exited w) (s.freed w) (w ∈ s.list) (s'.pc w).phase)
    (hjoin : ∀ x, x ≠ t → (s.pc x).target = some w →
      e'.detached = e.detached ∧ (e'.joinCond = e.joinCond ∨ e'.joinCond = rung))
    (hint : e.intern = e'.intern) (hs : Sees s' t p)
    (htg : ∀ u, u ≠ w → (p.target = some u ↔ (s.pc t).target = some u))
    (hcount : Counts (fun x => (update s.pc t p x).target = some w) e'.joinCount.toNat) :
    Inv s' := by
  have hdw : s'.desc w = some e' := by rw [hdesc, update_self]
  have hpcw : w ≠ t → s'.pc w = s.pc w := fun hw => by rw [hpc, update_of_ne hw]
  have hc : Change s s' t w p :=
    ⟨by rw [hpc, update_self], fun x hx _ => by rw [hpc, update_of_ne hx],
      fun x hx => by rw [hdesc, update_of_ne hx], hexo, fun x _ => by rw [hfr],
      fun x _ => by rw [hlist]⟩
  have hk : Keeps s s' t w := by
    refine ⟨hl, fun x u _ h => .inl (by rwa [hq]), ?_, hex, ?_⟩
    · intro x hx ht e₀ hd₀ hdet hm
      cases hd.symm.trans hd₀
      obtain ⟨h1, h2⟩ := hjoin x hx ht
      exact ⟨e', hdw, by rw [h1, hdet], by rwa [hlist], h2⟩
    · intro x hx hw
      have hwt : w ≠ t := by
        rintro rfl
        exact hst x hw
      exact ⟨by rw [hpcw hwt, hw], by rw [hlist]⟩
  refine hc.inv hk hi hst hp ?_ (fun hw => .inl (hpcw hw)) hs ?_ (by rw [hlist]) ?_ ?_
  · rwa [FitsAt, hdw, hfr, hlist]
  · refine hc.counts hi (fun hw => by rw [hpcw hw]) htg fun e₀ hd₀ => ?_
    cases hdw.symm.trans hd₀
    rwa [hpc]
  · intro e₀ hd₀
    cases hdw.symm.trans hd₀
    exact .inr ⟨e, hd, hint⟩
  · rw [hlist]
    exact hi.nodup

theorem Inv.same_count {e' : Desc} (hd : s.desc w = some e) (htg : p.target = (s.pc t).target)
    (hc : e.joinCount.toNat = e'.joinCount.toNat) :
    Counts (fun x => (update s.pc t p x).target = some w) e'.joinCount.toNat := by
  rw [← hc]
  exact (hi.counts w e hd).update_same (p := fun a : Pc T => a.target = some w) (by rw [htg])

theorem inv_initTls (hp : s.pc t = .initTls) (hd : s.desc t = some e) :
    Inv ((s.setDesc t { e with tls := true }).goto t .idle) := by
  refine hi.store hd (by simp [hp]) rfl rfl rfl rfl rfl (fun _ _ => rfl) (fun _ h => h)
    (fun _ _ h => h) (fun h => absurd rfl h) ?_ (fun _ _ _ => ⟨rfl, .inl rfl⟩) rfl trivial
    (fun u _ => by rw [hp]; rfl) (hi.same_count hd (by rw [hp]; rfl) rfl)
  obtain ⟨e', he, h1, h2, h3, h4, h5⟩ := hi.fits_at hp
  cases hd.symm.trans he
  rw [show ((s.setDesc t { e with tls := true }).goto t .idle).pc t = .idle from
    update_self ..]
  exact ⟨_, rfl, h1, h2, h3, h4, h5⟩

theorem inv_zombie (hp : s.pc t = .exitLock v) (hd : s.desc t = some e) (hc : e.joinCount ≤ 0) :
    Inv ({ s.setDesc t { e with returnValue := v, joinCount := -1 } with
      exited := update s.exited t (some v) }.goto t .dead) := by
  obtain ⟨e', he, h1, h2, h3, h4, h5⟩ := hi.fits_at hp
  cases hd.symm.trans he
  refine hi.store hd (by simp [hp]) rfl rfl rfl rfl rfl
    (fun x hx => update_of_ne hx _ _) (fun w h => ?_)
    (fun _ _ h => h) (fun h => absurd rfl h) ?_ (fun x _ hx => ?_) rfl trivial
    (fun u _ => by rw [hp]; rfl) (hi.same_count hd (by rw [hp]; rfl) ?_)
  · rw [h1] at h
    cases h
  · rw [show State.pc (State.goto _ t Pc.dead) t = .dead from update_self ..]
    exact ⟨v, update_self .., .inr ⟨_, rfl, h2, h3, rfl, .inl ⟨by simp, h4⟩⟩⟩
  · have := hi.count_pos hx hd
    omega
  · have : e.joinCount = 0 := by omega
    rw [this]
    rfl

theorem inv_ring (hp : s.pc t = .exitLock v) (hl : s.lock = none) (hd : s.desc t = some e)
    (hc : 0 < e.joinCount) :
    Inv ({ s.setDesc t { e with returnValue := v }.broadcast with
      lock := some t }.goto t (.exitWake v)) := by
  obtain ⟨e', he, h1, h2, h3, h4, h5⟩ := hi.fits_at hp
  cases hd.symm.trans he
  have hr : ({ e with returnValue := v } : Desc).broadcast.joinCond = rung := by
    rw [h4]
    rfl
  refine hi.store hd (by simp [hp]) rfl rfl rfl rfl rfl (fun _ _ => rfl) (fun _ h => h)
    (fun x _ h => ?_) (fun h => absurd rfl h) ?_ (fun x _ _ => ⟨rfl, .inr hr⟩) rfl rfl
    (fun u _ => by rw [hp]; rfl) (hi.same_count hd (by rw [hp]; rfl) rfl)
  · rw [hl] at h
    cases h
  · rw [show State.pc (State.goto _ t (Pc.exitWake v)) t = .exitWake v from
      update_self ..]
    exact ⟨_, rfl, h1, h2, h3, hr, rfl, hc⟩

end

theorem Fits.recount {ex : Option Word} {fr : Bool} {l : Prop} {ph : Phase} {n : Int}
    (h : Fits (some e) ex fr l ph) (h0 : 0 ≤ e.joinCount) (hn : 0 < n) :
    Fits (some { e with joinCount := n }) ex fr l ph := by
  cases ph with
  | unborn => cases h.1
  | starting =>
    obtain ⟨e', he, h1, h2, h3, h4⟩ := h
    cases he
    exact ⟨_, rfl, h1, h2, h3, hn.le⟩
  | running =>
    obtain ⟨e', he, h1, h2, h3, h4, h5⟩ := h
    cases he
    exact ⟨_, rfl, h1, h2, h3, h4, hn.le⟩
  | detaching =>
    obtain ⟨e', he, h1, h2, h3, h4, h5, h6⟩ := h
    cases he
    exact ⟨_, rfl, h1, h2, h3, h4, hn.le, h6⟩
  | removed =>
    obtain ⟨e', v, he, h⟩ := h
    cases he
    exact ⟨_, v, rfl, h⟩
  | ringing v =>
    obtain ⟨e', he, h1, h2, h3, h4, h5, h6⟩ := h
    cases he
    exact ⟨_, rfl, h1, h2, h3, h4, h5, hn⟩
  | dead =>
    obtain ⟨v, hx, ⟨h, -⟩ | ⟨e', he, h1, h2, h3, h⟩⟩ := h
    · cases h
    · cases he
      refine ⟨v, hx, .inr ⟨_, rfl, h1, h2, h3, .inr ⟨hn, ?_⟩⟩⟩
      rcases h with h | h
      · omega
      · exact h.2

theorem Fits.detach {ex : Option Word} {fr : Bool} {l : Prop} {ph : Phase}
    (h : Fits (some e) ex fr l ph) : Fits (some { e with detached := true }) ex fr l ph := by
  cases ph with
  | unborn => cases h.1
  | starting | running | ringing =>
    obtain ⟨e', he, h⟩ := h
    cases he
    exact ⟨_, rfl, h⟩
  | detaching =>
    obtain ⟨e', he, h1, h2, h3, h4, h5, h6⟩ := h
    cases he
    exact ⟨_, rfl, h1, h2, h3, h4, h5, rfl⟩
  | removed =>
    obtain ⟨e', v, he, h1, h2, h3, h4, h5⟩ := h
    cases he
    exact ⟨_, v, rfl, h1, h2, h3, rfl, h5⟩
  | dead =>
    obtain ⟨v, hx, ⟨h, -⟩ | ⟨e', he, h⟩⟩ := h
    · cases h
    · cases he
      exact ⟨v, hx, .inr ⟨_, rfl, h⟩⟩

theorem phase_update {f : T → Pc T} (h : p.phase = (f t).phase) (w : T) :
    (update f t p w).phase = (f w).phase := by
  by_cases hw : w = t
  · subst hw
    rw [update_self, h]
  · rw [update_of_ne hw]

theorem inv_waits (hi : Inv s) (hp : s.pc t = .join u) (hm : u ∈ s.list) (hd : s.desc u = some e)
    (hdet : e.detached = false) (hc : 0 ≤ e.joinCount) :
    Inv ((s.setDesc u { e with joinCount := e.joinCount + 1 }).goto t
      (.joinWait u e.joinCond)) := by
  have hph : (Pc.joinWait u e.joinCond).phase = (s.pc t).phase := by rw [hp]; rfl
  have hn : (e.joinCount + 1).toNat = e.joinCount.toNat + 1 := by omega
  refine hi.store hd (by simp [hp]) rfl rfl rfl rfl rfl (fun _ _ => rfl) (fun _ h => h)
    (fun _ _ h => h) (fun _ => hph) ?_ (fun _ _ _ => ⟨rfl, .inl rfl⟩) rfl
    ⟨_, update_self .., hdet, hm, .inl rfl⟩ (fun v hv => ?_) ?_
  · have hf := hi.fits u
    rw [hd, ← phase_update hph] at hf
    exact hf.recount hc (by omega)
  · rw [hp]
    simp [Pc.target, Ne.symm hv]
  · rw [hn]
    exact (hi.counts u e hd).update_add (p := fun a : Pc T => a.target = some u)
      (by rw [hp]; simp [Pc.target]) rfl

theorem inv_rejoin (hi : Inv s) (hp : s.pc t = .joinRelock u) (hl : s.lock = none)
    (hd : s.desc u = some e) (hc : 0 < e.joinCount - 1) :
    Inv ((s.setDesc u { e with joinCount := e.joinCount - 1 }).goto t
      (.returned (.joined u e.returnValue))) := by
  have hph : (Pc.returned (.joined u e.returnValue)).phase = (s.pc t).phase := by rw [hp]; rfl
  have hn : (e.joinCount - 1).toNat = e.joinCount.toNat - 1 := by omega
  obtain ⟨e', hd', -, hm, hr⟩ := hi.sees_at hp
  cases hd.symm.trans hd'
  refine hi.store hd (by simp [hp]) rfl rfl rfl rfl rfl (fun _ _ => rfl) (fun _ h => h)
    (fun _ _ h => h) (fun _ => hph) ?_ (fun _ _ _ => ⟨rfl, .inl rfl⟩) rfl
    (hi.exited_of_rung hl hd hm hr).2 (fun v hv => ?_) ?_
  · have hf := hi.fits u
    rw [hd, ← phase_update hph] at hf
    exact hf.recount (by omega) hc
  · rw [hp]
    simp [Pc.target, Ne.symm hv]
  · rw [hn]
    exact (hi.counts u e hd).update_remove (p := fun a : Pc T => a.target = some u)
      (by rw [hp]; rfl) (by simp [Pc.target])

theorem inv_detach (hi : Inv s) (hp : s.pc t = .detach u) (hd : s.desc u = some e)
    (hc : e.joinCount ≤ 0) :
    Inv ((s.setDesc u { e with detached := true }).goto t (.returned .detached)) := by
  have hph : (Pc.returned (T := T) .detached).phase = (s.pc t).phase := by rw [hp]; rfl
  refine hi.store hd (by simp [hp]) rfl rfl rfl rfl rfl (fun _ _ => rfl) (fun _ h => h)
    (fun _ _ h => h) (fun _ => hph) ?_ (fun x _ hx => ?_) rfl trivial
    (fun v _ => by rw [hp]; rfl) (hi.same_count hd (by rw [hp]; rfl) rfl)
  · have hf := hi.fits u
    rw [hd, ← phase_update hph] at hf
    exact hf.detach
  · have := hi.count_pos hx hd
    omega

theorem outside_running {T : Type} {p : Pc T} (h : p.outside = true) :
    p.phase = .running ∧ p.target = none ∧ ∀ x, p ≠ .starting x := by
  cases p with
  | idle | returned => simp [Pc.phase, Pc.target]
  | _ => cases h

/-! The steps that change the list. -/

theorem getLast?_erase {l : List T} (h : l.getLast? ≠ some u) :
    (l.erase u).getLast? = l.getLast? := by
  induction l with
  | nil => rfl
  | cons a l ih =>
    rw [getLast?_cons] at h ⊢
    by_cases ha : a = u
    · subst ha
      rw [erase_cons_head]
      cases hl : l.getLast? with
      | none => simp [hl] at h
      | some m => rfl
    · rw [erase_cons_tail (by simpa using ha), getLast?_cons, ih]
      intro hl
      simp [hl] at h

section
variable (hi : Inv s)
include hi

theorem inv_create {det : Bool} (ho : (s.pc t).outside = true) (hu : s.pc u = .unborn) :
    Inv (((s.setDesc u (initThread det)).goto u (.starting t)).goto t (.createAdd u)) := by
  have hut : u ≠ t := (ne_of_unborn ho hu).symm
  have hrun := outside_running ho
  obtain ⟨hd, hx, hfr, hm⟩ := hi.fits_at hu
  have hno : ∀ x, (s.pc x).target ≠ some u := by
    intro x hx
    obtain ⟨e, hd', -⟩ := (hi.sees x).target hx
    rw [hd] at hd'
    cases hd'
  set s' := ((s.setDesc u (initThread det)).goto u (.starting t)).goto t (.createAdd u)
  have hpcu : s'.pc u = .starting t := (goto_pc_of_ne _ _ hut).trans (goto_pc_self ..)
  have hdu : s'.desc u = some (initThread det) := update_self ..
  have hc : Change s s' t u (.createAdd u) :=
    ⟨goto_pc_self .., fun x hx hxu => (goto_pc_of_ne _ _ hx).trans (goto_pc_of_ne _ _ hxu),
      fun x hx => update_of_ne hx _ _, fun _ _ => rfl, fun _ _ => rfl, fun _ _ => Iff.rfl⟩
  have hk : Keeps s s' t u := by
    refine ⟨fun _ _ h => h, fun _ _ _ h => .inl h, fun x _ h => absurd h (hno x), fun _ h => h, ?_⟩
    intro x _ h
    rw [hu] at h
    cases h
  refine hc.inv hk hi hrun.2.2 (fun _ => hrun.1.symm) ?_ (fun _ => .inr ?_) ⟨hpcu, hm⟩ ?_ rfl ?_
    hi.nodup
  · rw [FitsAt, hpcu, hdu]
    exact ⟨_, rfl, hx, hfr, rfl, le_refl _⟩
  · rw [hpcu]
    trivial
  · refine hc.counts hi (fun _ => by rw [hpcu, hu]; rfl) (fun v _ => by rw [hrun.2.1]; rfl) ?_
    intro e hd'
    cases hdu.symm.trans hd'
    refine counts_zero fun x hx => ?_
    by_cases hxt : x = t
    · subst hxt
      rw [hc.moved] at hx
      cases hx
    · by_cases hxu : x = u
      · subst hxu
        rw [hpcu] at hx
        cases hx
      · rw [hc.pc x hxt hxu] at hx
        exact hno x hx
  · intro e hd'
    cases hdu.symm.trans hd'
    exact .inl rfl

theorem inv_add (hp : s.pc t = .createAdd u) :
    Inv ({ s with list := u :: s.list }.goto t (.createStart u)) := by
  obtain ⟨hpu, hu⟩ := hi.sees_at hp
  have hut : u ≠ t := by
    rintro rfl
    rw [hp] at hpu
    cases hpu
  set s' := { s with list := u :: s.list }.goto t (.createStart u)
  have hpcu : s'.pc u = .starting t := (goto_pc_of_ne _ _ hut).trans hpu
  have hm : u ∈ s'.list := mem_cons_self
  have hc : Change s s' t u (.createStart u) :=
    ⟨goto_pc_self .., fun x hx _ => goto_pc_of_ne _ _ hx, fun _ _ => rfl, fun _ _ => rfl,
      fun _ _ => rfl, fun x hx => by simp [s', State.goto, hx]⟩
  have hk : Keeps s s' t u := keeps_created rfl rfl rfl rfl hm hpu
  refine hc.inv hk hi (by simp [hp]) (fun _ => by rw [hp]; rfl) ?_
    (fun _ => .inl (goto_pc_of_ne _ _ hut)) ⟨hpcu, hm⟩ ?_ ?_ (fun e h => .inr ⟨e, h, rfl⟩)
    (nodup_cons.2 ⟨hu, hi.nodup⟩)
  · rw [hpcu]
    exact hi.fits_at hpu
  · refine hc.counts hi (fun _ => by rw [hpcu, hpu]) (fun v _ => by rw [hp]; rfl) fun e hd => ?_
    exact hi.same_count hd (by rw [hp]; rfl) rfl
  · obtain ⟨m, hm, -⟩ := hi.main
    exact getLast?_cons_of_some hm u

theorem inv_start (hp : s.pc t = .createStart u) :
    Inv ((s.goto u .initTls).goto t (.returned (.created u))) := by
  obtain ⟨hpu, hu⟩ := hi.sees_at hp
  have hut : u ≠ t := by
    rintro rfl
    rw [hp] at hpu
    cases hpu
  set s' := (s.goto u .initTls).goto t (.returned (.created u))
  have hpcu : s'.pc u = .initTls := (goto_pc_of_ne _ _ hut).trans (goto_pc_self ..)
  have hc : Change s s' t u (.returned (.created u)) :=
    ⟨goto_pc_self .., fun x hx hxu => (goto_pc_of_ne _ _ hx).trans (goto_pc_of_ne _ _ hxu),
      fun _ _ => rfl, fun _ _ => rfl, fun _ _ => rfl, fun _ _ => Iff.rfl⟩
  have hk : Keeps s s' t u := keeps_created rfl rfl rfl rfl hu hpu
  refine hc.inv hk hi (by simp [hp]) (fun _ => by rw [hp]; rfl) ?_ (fun _ => .inr ?_) trivial ?_ rfl
    (fun e h => .inr ⟨e, h, rfl⟩) hi.nodup
  · obtain ⟨e, hd, h1, h2, h3, h4⟩ := hi.fits_at hpu
    rw [hpcu]
    exact ⟨e, hd, h1, h2, hu, h3, h4⟩
  · rw [hpcu]
    trivial
  · refine hc.counts hi (fun _ => by rw [hpcu, hpu]; rfl) (fun v _ => by rw [hp]; rfl) fun e hd => ?_
    refine (hi.counts u e hd).congr fun x => ?_
    by_cases hx : x = t
    · subst hx
      rw [hc.moved, hp]
      rfl
    · by_cases hxu : x = u
      · subst hxu
        rw [hpcu, hpu]
        rfl
      · rw [hc.pc x hx hxu]

theorem inv_wake (hp : s.pc t = .exitWake v) :
    Inv ({ s with
      queue := update s.queue t (wakeAll (s.queue t) (Cond.condIsShared e.joinCond))
      lock := none
      exited := update s.exited t (some v) }.goto t .dead) := by
  obtain ⟨e', hd, h1, h2, h3, h4, h5, h6⟩ := hi.fits_at hp
  have hl : s.lock = some t := hi.holder (by rw [hp]; rfl)
  set s' := { s with
      queue := update s.queue t (wakeAll (s.queue t) (Cond.condIsShared e.joinCond))
      lock := none
      exited := update s.exited t (some v) }.goto t .dead
  have hc : Change s s' t t .dead :=
    ⟨goto_pc_self .., fun x hx _ => goto_pc_of_ne _ _ hx, fun _ _ => rfl,
      fun x hx => update_of_ne hx _ _, fun _ _ => rfl, fun _ _ => Iff.rfl⟩
  have hk : Keeps s s' t t := by
    refine ⟨fun x hx h => ?_, fun x u _ h => ?_,
      fun x _ _ e hd hdet hm => ⟨e, hd, hdet, hm, .inl rfl⟩, fun w h => ?_, fun x _ h => ?_⟩
    · rw [hl] at h
      cases h
      exact absurd rfl hx
    · by_cases hu : u = t
      · refine .inr ⟨hu, fun e₀ hd₀ => ?_⟩
        cases hd.symm.trans hd₀
        exact h4
      · left
        change asleep (update s.queue t _ u) x
        rwa [update_of_ne hu]
    · rw [h1] at h
      cases h
    · rw [hp] at h
      cases h
  refine hc.inv hk hi (by simp [hp]) (fun h => absurd rfl h) ?_ (fun h => absurd rfl h) trivial ?_
    rfl (fun e h => .inr ⟨e, h, rfl⟩) hi.nodup
  · rw [hc.moved]
    exact ⟨v, update_self .., .inr ⟨e', hd, h2, h3, h5, .inr ⟨h6, h4⟩⟩⟩
  · refine hc.counts hi (fun h => absurd rfl h) (fun u _ => by rw [hp]; rfl) fun e₀ hd₀ => ?_
    exact hi.same_count hd₀ (by rw [hp]; rfl) rfl

/-- A step of `t` that leaves `w` out of the list, when no other thread joins `w`. -/
theorem Inv.drop (hst : ∀ x, s.pc t ≠ .starting x) (hsw : ∀ x, s.pc w ≠ .starting x)
    (hpc : s'.pc = update s.pc t p) (hlist : s'.list = s.list.erase w)
    (hlast : s.list.getLast? ≠ some w) (hl : s'.lock = s.lock) (hq : s'.queue = s.queue)
    (hdesc : ∀ x, x ≠ w → s'.desc x = s.desc x) (hexo : ∀ x, x ≠ w → s'.exited x = s.exited x)
    (hfr : ∀ x, x ≠ w → s'.freed x = s.freed x) (hno : ∀ x, x ≠ t → (s.pc x).target ≠ some w)
    (hex : ∀ v, s.exited w = some v → s'.exited w = some v) (hp : w ≠ t → p.phase = (s.pc t).phase)
    (hfit : w ∉ s'.list → FitsAt s' w (s'.pc w).phase)
    (hs : Sees s' t p) (htg : ∀ u, u ≠ w → (p.target = some u ↔ (s.pc t).target = some u))
    (hdw : s'.desc w = none ∨ s'.desc w = s.desc w ∧ p.target = (s.pc t).target) : Inv s' := by
  have hpcw : w ≠ t → s'.pc w = s.pc w := fun hw => by rw [hpc, update_of_ne hw]
  have hmem : ∀ x, x ≠ w → (x ∈ s'.list ↔ x ∈ s.list) := fun x hx => by
    rw [hlist, mem_erase_of_ne hx]
  have hw : w ∉ s'.list := by
    rw [hlist]
    exact hi.nodup.not_mem_erase
  have hc : Change s s' t w p :=
    ⟨by rw [hpc, update_self], fun x hx _ => by rw [hpc, update_of_ne hx], hdesc,
      hexo, hfr, hmem⟩
  have hk : Keeps s s' t w :=
    ⟨fun _ _ h => by rwa [hl], fun _ _ _ h => .inl (by rwa [hq]),
      fun x hx h => absurd h (hno x hx), hex, fun x _ h => absurd h (hsw x)⟩
  refine hc.inv hk hi hst hp (hfit hw) (fun hw => .inl (hpcw hw)) hs ?_ ?_ ?_ ?_
  · refine hc.counts hi (fun h => by rw [hpcw h]) htg fun e hd => ?_
    rcases hdw with h | ⟨h, htg'⟩
    · rw [h] at hd
      cases hd
    · rw [h] at hd
      rw [hpc]
      exact hi.same_count hd htg' rfl
  · rw [hlist, getLast?_erase hlast]
  · intro e hd
    rcases hdw with h | ⟨h, -⟩
    · rw [h] at hd
      cases hd
    · exact .inr ⟨e, by rw [← h, hd], rfl⟩
  · rw [hlist]
    exact hi.nodup.erase w

omit [DecidableEq T] in
theorem Inv.intern (hlast : s.list.getLast? ≠ some u) (hd : s.desc u = some e) :
    e.intern = true := by
  obtain ⟨m, hm, h⟩ := hi.main
  by_contra hne
  rw [Bool.not_eq_true] at hne
  obtain rfl := h u e hd hne
  exact hlast hm

theorem inv_remove (hp : s.pc t = .exitRemove v) (hlast : s.list.getLast? ≠ some t) :
    Inv ({ s with
      list := s.list.erase t, exited := update s.exited t (some v) }.goto t
        .exitFree) := by
  obtain ⟨e, hd, h1, h2, h3, h4, h5, h6⟩ := hi.fits_at hp
  refine hi.drop (by simp [hp]) (by simp [hp]) rfl rfl hlast rfl rfl (fun _ _ => rfl)
    (fun x hx => update_of_ne hx _ _) (fun _ _ => rfl) (fun x _ hx => ?_) (fun w h => ?_)
    (fun h => absurd rfl h) (fun hm => ?_) trivial (fun u _ => by rw [hp]; rfl)
    (.inr ⟨rfl, by rw [hp]; rfl⟩)
  · obtain ⟨e', hd', hdet, -⟩ := (hi.sees x).target hx
    cases hd.symm.trans hd'
    rw [h6] at hdet
    cases hdet
  · rw [h1] at h
    cases h
  · rw [goto_pc_self]
    exact ⟨e, v, hd, update_self .., h2, hm, h6, hi.intern hlast hd⟩

theorem inv_free (hp : s.pc t = .exitFree) (hd : s.desc t = some e) :
    Inv ((s.free t e).goto t .dead) := by
  obtain ⟨e', v, he, h1, h2, h3, h4, h5⟩ := hi.fits_at hp
  cases hd.symm.trans he
  rw [State.free, if_pos h5]
  refine hi.drop (by simp [hp]) (by simp [hp]) rfl (erase_of_not_mem h3).symm ?_ rfl rfl
    (fun x hx => update_of_ne hx _ _) (fun _ _ => rfl)
    (fun x hx => update_of_ne hx _ _) (fun x _ hx => ?_) (fun _ h => h)
    (fun h => absurd rfl h) (fun hm => ?_) trivial (fun u _ => by rw [hp]; rfl)
    (.inl (update_self ..))
  · exact fun h => h3 (mem_of_getLast? h)
  · obtain ⟨e', hd', hdet, -⟩ := (hi.sees x).target hx
    cases hd.symm.trans hd'
    rw [h4] at hdet
    cases hdet
  · rw [goto_pc_self]
    exact ⟨v, h1, .inl ⟨update_self .., update_self .., hm⟩⟩

/-- The last joiner `t` of an exited thread `u` gives its descriptor back. -/
theorem inv_reap (hph : (s.pc t).phase = .running) (hu : (s.pc u).phase = .dead)
    (hx : s.exited u = some v) (hlast : s.list.getLast? ≠ some u)
    (hno : ∀ x, x ≠ t → (s.pc x).target ≠ some u) (htg : ∀ w, w ≠ u → (s.pc t).target ≠ some w)
    (hs' : s' = { s with
      list := s.list.erase u
      desc := update s.desc u none
      freed := update s.freed u true }.goto t (.returned (.joined u v))) : Inv s' := by
  have hut : u ≠ t := by
    rintro rfl
    rw [hu] at hph
    cases hph
  have hst : ∀ x, s.pc t ≠ .starting x := by
    intro x h
    rw [h] at hph
    cases hph
  subst hs'
  refine hi.drop hst (by simp [Pc.eq_dead hu]) rfl rfl hlast rfl rfl
    (fun x hx => update_of_ne hx _ _) (fun _ _ => rfl)
    (fun x hx => update_of_ne hx _ _) hno (fun _ h => h) (fun _ => hph.symm)
    (fun hm => ?_) hx (fun w hw => ?_) (.inl (update_self ..))
  · rw [goto_pc_of_ne _ _ hut, hu]
    exact ⟨v, hx, .inl ⟨update_self .., update_self .., hm⟩⟩
  · exact iff_of_false (fun h => by cases h) (htg w hw)

theorem inv_reapZombie (hp : s.pc t = .join u) (hm : u ∈ s.list) (hlast : s.list.getLast? ≠ some u)
    (hd : s.desc u = some e) (hc : e.joinCount < 0) :
    Inv (({ s with list := s.list.erase u }.free u e).goto t
      (.returned (.joined u e.returnValue))) := by
  obtain ⟨hph, hx⟩ := hi.exited_of_zombie hd hm hc
  refine inv_reap hi (by rw [hp]; rfl) hph hx hlast (fun x _ hx => ?_)
    (by simp [hp, Pc.target]) ?_
  · have := hi.count_pos hx hd
    omega
  · rw [State.free, if_pos (hi.intern hlast hd)]

theorem inv_reapLast (hp : s.pc t = .joinRelock u) (hl : s.lock = none)
    (hlast : s.list.getLast? ≠ some u) (hd : s.desc u = some e) (hc : e.joinCount - 1 ≤ 0) :
    Inv (({ s.setDesc u { e with joinCount := e.joinCount - 1 } with
      list := s.list.erase u }.free u e).goto t (.returned (.joined u e.returnValue))) := by
  obtain ⟨e', hd', -, hm, hr⟩ := hi.sees_at hp
  cases hd.symm.trans hd'
  obtain ⟨hph, hx⟩ := hi.exited_of_rung hl hd hm hr
  refine inv_reap hi (by rw [hp]; rfl) hph hx hlast (fun x hne hx => ?_)
    (by simp [hp, Pc.target, eq_comm]) ?_
  · -- without `t` the count is zero, so no other joiner is left
    have h := (hi.counts u e hd).update_remove (p := fun a : Pc T => a.target = some u)
      (a := .idle) (by rw [hp]; rfl) (by simp [Pc.target])
    have := h.pos x (by rwa [update_of_ne hne])
    omega
  · rw [State.free, if_pos (hi.intern hlast hd)]
    simp [State.setDesc]

theorem inv_call (ho : (s.pc t).outside = true) (hph : p.phase = .running) (htg : p.target = none)
    (hs : Sees (s.goto t p) t p) :
    Inv (s.goto t p) := by
  obtain ⟨h1, h2, h3⟩ := outside_running ho
  exact hi.goto h3 (by rw [h1, hph]) (by rw [h2, htg]) hs

theorem inv_exec (hg : Calm s (.exec t)) (h : exec s t = some s') : Inv s' := by
  cases exec_cases h with
  | initTls hp hd => exact inv_initTls hi hp hd
  | add hp _ => exact inv_add hi hp
  | start hp => exact inv_start hi hp
  | flags hp hd => exact inv_flags hi hp hd
  | remove hp _ _ hlast => exact inv_remove hi hp hlast
  | free hp hd => exact inv_free hi hp hd
  | zombie hp _ hd hc => exact inv_zombie hi hp hd hc
  | ring hp hl hd hc => exact inv_ring hi hp hl hd hc
  | wake hp _ => exact inv_wake hi hp
  | joinFails hp | detachFails hp =>
    exact hi.goto (by simp [hp]) (by rw [hp]; rfl) (by rw [hp]; rfl) trivial
  | waits hp _ hm hd hdet hc => exact inv_waits hi hp hm hd hdet hc
  | reapZombie hp _ hm hlast hd _ hc => exact inv_reapZombie hi hp hm hlast hd hc
  | sleep hp _ => exact inv_sleep hi hp
  | skip hp hd hne =>
    refine hi.goto (by simp [hp]) (by rw [hp]; rfl) (by rw [hp]; rfl) ?_
    obtain ⟨e, hd', hdet, hm, hr⟩ := hi.sees_at hp
    cases hd.symm.trans hd'
    exact ⟨_, hd, hdet, hm, hr.resolve_left hne⟩
  | resume hp hq =>
    refine hi.goto (by simp [hp]) (by rw [hp]; rfl) (by rw [hp]; rfl) ?_
    obtain ⟨e, hd, hdet, hm, hr⟩ := hi.sees_at hp
    exact ⟨e, hd, hdet, hm, hr.resolve_left hq⟩
  | rejoin hp hl hd hc => exact inv_rejoin hi hp hl hd hc
  | reapLast hp hl _ hlast hd hc => exact inv_reapLast hi hp hl hlast hd hc
  | @detach u e hp _ _ hd _ =>
    have hc := hg u hp
    rw [State.joinCount, hd] at hc
    exact inv_detach hi hp hd hc
  | deleteLock hp hl =>
    refine hi.move (by simp [hp]) ?_ (by rw [hp]; rfl) (fun x _ h => ?_) (fun _ _ _ h => h) rfl
    · exact (hi.fits_at hp :)
    · rw [hl] at h
      cases h
  | deleteNext hp =>
    refine hi.goto (by simp [hp]) (by rw [hp]; rfl) (by rw [hp]; rfl) ?_
    exact hi.sees_at hp
  | deleteEnd hp =>
    refine hi.move (by simp [hp]) ?_ (by rw [hp]; rfl) (fun x hx h => ?_) (fun _ _ _ h => h)
      trivial
    · exact (hi.fits_at hp :)
    · exact absurd (Option.some.inj (h.symm.trans (hi.sees_at hp))) hx

theorem inv_step {a : Act T} (hg : Calm s a) (h : step s a = some s') : Inv s' := by
  revert h
  fun_cases step s a with
  | case1 _ _ _ h =>
    rintro ⟨⟩
    exact inv_create hi h.1 h.2
  | case3 _ _ ho | case5 _ _ ho | case7 _ _ ho | case9 _ ho =>
    rintro ⟨⟩
    exact inv_call hi ho rfl rfl trivial
  | case11 => exact inv_exec hi hg
  | case12 _ u hp =>
    rintro ⟨⟩
    exact inv_leave hi hp (hg u hp)
  | _ => rintro ⟨⟩

end

theorem inv_booted (m : T) : Inv (booted m) := by
  refine ⟨fun u => ?_, fun u => ?_, fun u e hd => ?_, ⟨m, rfl, fun u e hd he => ?_⟩,
    nodup_singleton m⟩
  · by_cases hu : u = m
    · subst hu
      simp [booted, Pc.phase, Fits, mainThread, initThread, quiet]
    · simp [booted, hu, Pc.phase, Fits]
  · by_cases hu : u = m
    · subst hu
      simp [booted, Sees]
    · simp [booted, hu, Sees]
  · have hc : e.joinCount.toNat = 0 := by
      by_cases hu : u = m
      · subst hu
        simp [booted] at hd
        subst hd
        rfl
      · simp [booted, hu] at hd
    rw [hc]
    refine counts_zero fun x hx => ?_
    by_cases hxm : x = m
    · subst hxm
      simp [booted, Pc.target] at hx
    · simp [booted, hxm, Pc.target] at hx
  · by_contra hu
    simp [booted, hu] at hd

theorem inv_reachable (h : machine.ReachableIf Calm s) : Inv s :=
  Machine.ReachableIf.invariant (M := machine) (fun _ ⟨m, hm⟩ => hm ▸ inv_booted m)
    (fun _ _ _ hi hg hs => inv_step hi hg hs) h

end

end Pthread.Thread
