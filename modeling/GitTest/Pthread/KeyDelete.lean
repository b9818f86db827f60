import GitTest.Pthread.ThreadInv

/-!
# `pthread_key_delete` and the TLS areas of dead threads

`pthread_key_delete` walks over `gThreadList` under its lock and stores `NULL` into the TLS area of
every thread whose `join_count` is not negative.  The area of a thread goes with its stack, at the
end of `pthread_exit`; but an exited thread that had joiners keeps its positive count and its place
in the list until the last joiner has run.

    ReachableIf Unwatched s → Stores s t u → exited u = none  (keyDelete_spares_dead)
-/

namespace Pthread.Thread

open Function Futex Machines

/-- It has executed the section of `pthread_exit`. -/
def Pc.over {T : Type} : Pc T → Bool
  | .exitFree | .dead => true
  | .unborn | .starting _ | .initTls | .idle | .returned _ | .createAdd _ | .createStart _
  | .exitFlags _ | .exitRemove _ | .exitLock _ | .exitWake _ | .join _ | .joinWait _ _
  | .joinBlocked _ | .joinRelock _ | .detach _ | .deleteLock | .deleteWalk _ => false

def Pc.holds {T : Type} : Pc T → Bool
  | .exitWake _ | .deleteWalk _ => true
  | .unborn | .starting _ | .initTls | .idle | .returned _ | .createAdd _ | .createStart _
  | .exitFlags _ | .exitRemove _ | .exitFree | .exitLock _ | .dead | .join _ | .joinWait _ _
  | .joinBlocked _ | .joinRelock _ | .detach _ | .deleteLock => false

def Pc.makes {T : Type} : Pc T → Option T
  | .createAdd u | .createStart u => some u
  | .unborn | .starting _ | .initTls | .idle | .returned _ | .exitFlags _ | .exitRemove _
  | .exitFree | .exitLock _ | .exitWake _ | .dead | .join _ | .joinWait _ _ | .joinBlocked _
  | .joinRelock _ | .detach _ | .deleteLock | .deleteWalk _ => none

section
variable {T : Type} [DecidableEq T]

/-- No key deletion takes the lock while an exited thread whose joiners have not all returned is in
the list. -/
def Unwatched (s : State T) : Act T → Prop
  | .exec t => s.pc t = .deleteLock →
    ∀ u ∈ s.list, (s.exited u).isSome = true → ∀ e ∈ s.desc u, e.joinCount < 0
  | .create _ _ _ | .exit _ _ | .join _ _ | .detach _ _ | .keyDelete _ | .leave _ => True

instance (s : State T) : (a : Act T) → Decidable (Unwatched s a)
  | .exec t => inferInstanceAs (Decidable (s.pc t = .deleteLock →
      ∀ u ∈ s.list, (s.exited u).isSome = true → ∀ e ∈ s.desc u, e.joinCount < 0))
  | .create _ _ _ | .exit _ _ | .join _ _ | .detach _ _ | .keyDelete _ | .leave _ =>
    inferInstanceAs (Decidable True)

/-- The next step of `t` is the store `thr->tls[key] = NULL` into the TLS area of `u`. -/
def Stores (s : State T) (t u : T) : Prop :=
  ∃ rest e, s.pc t = .deleteWalk (u :: rest) ∧ s.desc u = some e ∧ e.skipped = false

structure Walk (s : State T) : Prop where
  ended : ∀ u, (s.exited u).isSome = true → (s.pc u).over = true
  making : ∀ t u, (s.pc t).makes = some u → s.pc u = .starting t
  holder : ∀ t, (s.pc t).holds = true → s.lock = some t
  /-- The dead threads that a walk still comes to are skipped. -/
  dead : ∀ t rest, s.pc t = .deleteWalk rest →
    ∀ u ∈ rest, (s.exited u).isSome = true → ∀ e ∈ s.desc u, e.joinCount < 0

variable {s s' : State T} {t : T} {p : Pc T}

/-- A step that moves `t` to `p`.  While another thread holds the lock, it does not bring a dead
thread's count up. -/
theorem Walk.frame (hw : Walk s) (hpc : s'.pc = update s.pc t p)
    (hover : (s.pc t).over = true → p.over = true) (hnot : ∀ x, x ≠ t → (s.pc x).makes ≠ some t)
    (hmake : ∀ u, p.makes = some u → u ≠ t ∧ s.pc u = .starting t)
    (hhold : p.holds = true → s'.lock = some t)
    (hlock : ∀ x, x ≠ t → s.lock = some x → s'.lock = some x)
    (hex : ∀ u, (s'.exited u).isSome = true → (s.exited u).isSome = true ∨ u = t ∧ p.over = true)
    (hdesc : ∀ x, x ≠ t → s.lock = some x → ∀ u, (s'.exited u).isSome = true →
      (s.exited u).isSome = true ∧ ∀ e' ∈ s'.desc u, ∃ e ∈ s.desc u,
        (e.joinCount < 0 → e'.joinCount < 0)) (hwalk : ∀ rest, p = .deleteWalk rest →
      ∀ u ∈ rest, (s'.exited u).isSome = true → ∀ e ∈ s'.desc u, e.joinCount < 0) : Walk s' := by
  have hself : s'.pc t = p := by rw [hpc, update_self]
  have hother : ∀ u, u ≠ t → s'.pc u = s.pc u := fun u hu => by rw [hpc, update_of_ne hu]
  refine ⟨fun u hu => ?_, fun x u hx => ?_, fun x hx => ?_, fun x rest hx u hu hxu e' he' => ?_⟩
  · by_cases hut : u = t
    · subst hut
      rw [hself]
      rcases hex u hu with h | h
      · exact hover (hw.ended u h)
      · exact h.2
    · rw [hother u hut]
      exact hw.ended u ((hex u hu).resolve_right fun h => hut h.1)
  · by_cases hxt : x = t
    · subst hxt
      rw [hself] at hx
      obtain ⟨hne, h⟩ := hmake u hx
      rw [hother u hne, h]
    · rw [hother x hxt] at hx
      have hut : u ≠ t := by
        rintro rfl
        exact hnot x hxt hx
      rw [hother u hut]
      exact hw.making x u hx
  · by_cases hxt : x = t
    · subst hxt
      rw [hself] at hx
      exact hhold hx
    · rw [hother x hxt] at hx
      exact hlock x hxt (hw.holder x hx)
  · by_cases hxt : x = t
    · subst hxt
      rw [hself] at hx
      exact hwalk rest hx u hu hxu e' he'
    · rw [hother x hxt] at hx
      have hl : s.lock = some x := hw.holder x (by rw [hx]; rfl)
      obtain ⟨h1, h2⟩ := hdesc x hxt hl u hxu
      obtain ⟨e, he, h3⟩ := h2 e' he'
      exact h3 (hw.dead x rest hx u hu h1 e he)

omit [DecidableEq T] in
/-- Nobody is creating a thread that does not wait for its creator. -/
theorem Walk.unmade (hw : Walk s) (hp : ∀ x, s.pc t ≠ .starting x) (x : T) (_ : x ≠ t) :
    (s.pc x).makes ≠ some t :=
  fun h => hp x (hw.making x t h)

/-- A step of `t` under the lock, with no other step of a section to follow. -/
theorem Walk.locked (hw : Walk s) (hpc : s'.pc = update s.pc t p) (hl : s.lock = none)
    (hst : ∀ x, s.pc t ≠ .starting x) (hover : (s.pc t).over = true → p.over = true)
    (hmake : ∀ u, p.makes = some u → u ≠ t ∧ s.pc u = .starting t)
    (hhold : p.holds = true → s'.lock = some t)
    (hex : ∀ u, (s'.exited u).isSome = true → (s.exited u).isSome = true ∨ u = t ∧ p.over = true)
    (hwalk : ∀ rest, p = .deleteWalk rest →
      ∀ u ∈ rest, (s'.exited u).isSome = true → ∀ e ∈ s'.desc u, e.joinCount < 0) : Walk s' := by
  have hfree : ∀ x, s.lock ≠ some x := fun x h => by rw [hl] at h; cases h
  exact hw.frame hpc hover (hw.unmade hst) hmake hhold (fun x _ h => absurd h (hfree x)) hex
    (fun x _ h => absurd h (hfree x)) hwalk

/-- A step of `t` that only moves it, or stores into a descriptor without a change of the count. -/
theorem Walk.move (hw : Walk s) (hpc : s'.pc = update s.pc t p)
    (hst : ∀ x, s.pc t ≠ .starting x) (hover : (s.pc t).over = true → p.over = true)
    (hmake : p.makes = none) (hhold : p.holds = false) (hl : s'.lock = s.lock)
    (hex : s'.exited = s.exited)
    (hdesc : ∀ u, ∀ e' ∈ s'.desc u, ∃ e ∈ s.desc u, (e.joinCount < 0 → e'.joinCount < 0)) :
    Walk s' := by
  refine hw.frame hpc hover (hw.unmade hst) (by simp [hmake]) (by simp [hhold])
    (fun x _ h => by rwa [hl]) (fun u h => .inl (by rwa [hex] at h))
    (fun x _ _ u h => ⟨by rwa [hex] at h, hdesc u⟩) fun rest h => ?_
  rw [h] at hhold
  cases hhold

theorem walk_start (hw : Walk s) {u : T} (hp : s.pc t = .createStart u) :
    Walk ((s.goto u .initTls).goto t (.returned (.created u))) := by
  have hpu : s.pc u = .starting t := hw.making t u (by rw [hp]; rfl)
  have hut : u ≠ t := by
    rintro rfl
    rw [hp] at hpu
    cases hpu
  -- the other order: first `t` returns, then nobody is creating `u` any more
  have hcomm : (s.goto u .initTls).goto t (.returned (.created u)) =
      (s.goto t (.returned (.created u))).goto u .initTls := by
    unfold State.goto
    rw [update_comm hut]
  rw [hcomm]
  have h₁ : Walk (s.goto t (.returned (.created u))) :=
    hw.move rfl (by simp [hp]) (by simp [hp, Pc.over]) rfl rfl rfl rfl fun _ e he => ⟨e, he, id⟩
  refine h₁.frame rfl ?_ (fun x hx h => ?_) (by simp [Pc.makes]) (by simp [Pc.holds])
    (fun _ _ h => h) (fun _ h => .inl h) (fun _ _ _ _ h => ⟨h, fun e he => ⟨e, he, id⟩⟩) (by simp)
  · rw [goto_pc_of_ne _ _ hut, hpu]
    simp [Pc.over]
  · by_cases hxt : x = t
    · rw [hxt, goto_pc_self] at h
      cases h
    · rw [goto_pc_of_ne _ _ hxt] at h
      have hx := hw.making x u h
      rw [hpu] at hx
      cases hx
      exact hxt rfl

theorem not_over {T : Type} {p : Pc T} (h : p.outside = true) : p.over = false := by
  cases p with
  | exitFree | dead => cases h
  | _ => rfl

theorem walk_create (hw : Walk s) {u : T} {det : Bool} (ho : (s.pc t).outside = true)
    (hu : s.pc u = .unborn) :
    Walk (((s.setDesc u (initThread det)).goto u (.starting t)).goto t (.createAdd u)) := by
  have htu : t ≠ u := ne_of_unborn ho hu
  have hx : ¬ (s.exited u).isSome = true := by
    intro h
    have := hw.ended u h
    rw [hu] at this
    cases this
  have h₁ : Walk ((s.setDesc u (initThread det)).goto u (.starting t)) := by
    refine hw.frame rfl (by simp [hu, Pc.over]) (hw.unmade (by simp [hu])) (by simp [Pc.makes])
      (by simp [Pc.holds]) (fun _ _ h => h) (fun _ h => .inl h) (fun x _ _ w h => ⟨h, ?_⟩) (by simp)
    have hwu : w ≠ u := by
      rintro rfl
      exact hx h
    intro e he
    exact ⟨e, (update_of_ne hwu _ _).symm.trans he, id⟩
  have hpt : ((s.setDesc u (initThread det)).goto u (.starting t)).pc t = s.pc t :=
    goto_pc_of_ne _ _ htu
  refine h₁.frame rfl (fun h => ?_) (h₁.unmade fun x h => ?_) (fun w h => ?_) (by simp [Pc.holds])
    (fun _ _ h => h) (fun _ h => .inl h) (fun _ _ _ _ h => ⟨h, fun e he => ⟨e, he, id⟩⟩) (by simp)
  · rw [hpt, not_over ho] at h
    cases h
  · rw [hpt] at h
    rw [h] at ho
    cases ho
  · cases h
    exact ⟨htu.symm, goto_pc_self ..⟩

theorem count_update {w : T} {d : Option Desc}
    (h : ∀ e', d = some e' → ∃ e, s.desc w = some e ∧ e'.joinCount = e.joinCount) (u : T) :
    ∀ e' ∈ update s.desc w d u, ∃ e ∈ s.desc u, (e.joinCount < 0 → e'.joinCount < 0) := by
  intro e' he'
  obtain ⟨e, hd, hc⟩ := desc_update Desc.joinCount h u e' he'
  exact ⟨e, hd, by rw [hc]; exact id⟩

theorem walk_free (hw : Walk s) {e : Desc} (hp : s.pc t = .exitFree) :
    Walk ((s.free t e).goto t .dead) := by
  unfold State.free
  split
  · exact hw.move rfl (by simp [hp]) (fun _ => rfl) rfl rfl rfl rfl (count_update nofun)
  · exact hw.move rfl (by simp [hp]) (fun _ => rfl) rfl rfl rfl rfl fun _ e he => ⟨e, he, id⟩

/-- After the exit section of `t`, the exited threads are those from before and `t`. -/
theorem walk_exited {v : Word} (hp : p.over = true)
    (hex : s'.exited = update s.exited t (some v)) (u : T)
    (hu : (s'.exited u).isSome = true) :
    (s.exited u).isSome = true ∨ u = t ∧ p.over = true := by
  by_cases hut : u = t
  · exact .inr ⟨hut, hp⟩
  · rw [hex, update_of_ne hut] at hu
    exact .inl hu

theorem Walk.reap {r : Outcome T} {u : T} {e : Desc} (hw : Walk s) (hpc : s'.pc = s.pc)
    (hex : s'.exited = s.exited) (hl : s.lock = none) (hst : ∀ x, s.pc t ≠ .starting x)
    (hover : (s.pc t).over = false) : Walk ((s'.free u e).goto t (.returned r)) := by
  have hfree : (s'.free u e).pc = s.pc ∧ (s'.free u e).exited = s.exited := by
    unfold State.free
    split
    · exact ⟨hpc, hex⟩
    · exact ⟨hpc, hex⟩
  exact hw.locked (congrArg (update · t _) hfree.1) hl hst (by simp [hover]) (by simp [Pc.makes])
    (by simp [Pc.holds]) (fun w h => .inl ((congrFun hfree.2 w) ▸ h)) (by simp)

theorem walk_exec (hw : Walk s) (hg : Unwatched s (.exec t)) (h : exec s t = some s') :
    Walk s' := by
  cases exec_cases h with
  | initTls hp hd =>
    exact hw.move rfl (by simp [hp]) (by simp [hp, Pc.over]) rfl rfl rfl rfl
      (count_update fun _ h => ⟨_, hd, by rw [← Option.some.inj h]⟩)
  | @add u hp hl =>
    have hpu : s.pc u = .starting t := hw.making t u (by rw [hp]; rfl)
    refine hw.locked rfl hl (by simp [hp]) (by simp [hp, Pc.over]) (fun w h => ?_)
      (by simp [Pc.holds]) (fun _ h => .inl h) (by simp)
    cases h
    refine ⟨?_, hpu⟩
    rintro rfl
    rw [hp] at hpu
    cases hpu
  | start hp => exact walk_start hw hp
  | @flags v e hp _ =>
    cases e.detached with
    | true | false =>
      exact hw.move rfl (by simp [hp]) (by simp [hp, Pc.over]) rfl rfl rfl rfl
        fun _ e he => ⟨e, he, id⟩
  | remove hp hl _ _ | zombie hp hl _ _ =>
    exact hw.locked rfl hl (by simp [hp]) (by simp [hp, Pc.over]) (by simp [Pc.makes])
      (by simp [Pc.holds]) (walk_exited rfl rfl) (by simp)
  | free hp _ => exact walk_free hw hp
  | ring hp hl _ _ =>
    exact hw.locked rfl hl (by simp [hp]) (by simp [hp, Pc.over]) (by simp [Pc.makes])
      (fun _ => rfl) (fun _ h => .inl h) (by simp)
  | wake hp _ =>
    have hl : s.lock = some t := hw.holder t (by rw [hp]; rfl)
    have hme : ∀ x, x ≠ t → s.lock ≠ some x := fun x hx h =>
      hx (Option.some.inj (h.symm.trans hl))
    exact hw.frame rfl (by simp [hp, Pc.over]) (hw.unmade (by simp [hp])) (by simp [Pc.makes])
      (by simp [Pc.holds]) (fun x hx h => absurd h (hme x hx)) (walk_exited rfl rfl)
      (fun x hx h => absurd h (hme x hx)) (by simp)
  | joinFails hp | detachFails hp | skip hp _ _ | sleep hp _ | resume hp _ =>
    exact hw.move rfl (by simp [hp]) (by simp [hp, Pc.over]) rfl rfl rfl rfl
      fun _ e he => ⟨e, he, id⟩
  | waits hp hl _ _ _ _ | rejoin hp hl _ _ | detach hp hl _ _ _ =>
    exact hw.locked rfl hl (by simp [hp]) (by simp [hp, Pc.over]) (by simp [Pc.makes])
      (by simp [Pc.holds]) (fun _ h => .inl h) (by simp)
  | reapZombie hp hl _ _ _ _ _ => exact hw.reap rfl rfl hl (by simp [hp]) (by rw [hp]; rfl)
  | reapLast hp hl _ _ _ _ => exact hw.reap rfl rfl hl (by simp [hp]) (by rw [hp]; rfl)
  | deleteLock hp hl =>
    refine hw.locked rfl hl (by simp [hp]) (by simp [hp, Pc.over]) (by simp [Pc.makes])
      (fun _ => rfl) (fun _ h => .inl h) fun rest h => ?_
    cases h
    exact hg hp
  | @deleteNext u rest hp =>
    refine hw.frame rfl (by simp [hp, Pc.over]) (hw.unmade (by simp [hp])) (by simp [Pc.makes])
      (fun _ => hw.holder t (by rw [hp]; rfl)) (fun _ _ h => h) (fun _ h => .inl h)
      (fun _ _ _ _ h => ⟨h, fun e he => ⟨e, he, id⟩⟩) fun rest' h w hw' => ?_
    cases h
    exact hw.dead t _ hp w (List.mem_cons_of_mem _ hw')
  | deleteEnd hp =>
    have hl : s.lock = some t := hw.holder t (by rw [hp]; rfl)
    exact hw.frame rfl (by simp [hp, Pc.over]) (hw.unmade (by simp [hp])) (by simp [Pc.makes])
      (by simp [Pc.holds]) (fun x hx h => absurd (Option.some.inj (h.symm.trans hl)) hx)
      (fun _ h => .inl h) (fun _ _ _ _ h => ⟨h, fun e he => ⟨e, he, id⟩⟩) (by simp)

theorem walk_step {a : Act T} (hw : Walk s) (hg : Unwatched s a) (h : step s a = some s') :
    Walk s' := by
  revert h
  fun_cases step s a with
  | case1 _ _ _ h =>
    rintro ⟨⟩
    exact walk_create hw h.1 h.2
  | case3 _ _ ho | case5 _ _ ho | case7 _ _ ho | case9 _ ho =>
    rintro ⟨⟩
    refine hw.move rfl (fun x hx => ?_) (fun hx => ?_) rfl rfl rfl rfl fun _ e he => ⟨e, he, id⟩
    · rw [hx] at ho
      cases ho
    · rw [not_over ho] at hx
      cases hx
  | case11 => exact walk_exec hw hg
  | case12 _ _ hp =>
    rintro ⟨⟩
    exact hw.move rfl (by simp [hp]) (by simp [hp, Pc.over]) rfl rfl rfl rfl
      fun _ e he => ⟨e, he, id⟩
  | _ => rintro ⟨⟩

theorem walk_booted (m : T) : Walk (booted m) := by
  have hpc : ∀ t, (booted m).pc t = .idle ∨ (booted m).pc t = .unborn := by
    intro t
    by_cases ht : t = m
    · exact .inl (by simp [booted, ht])
    · exact .inr (by simp [booted, ht])
  refine ⟨fun u hu => (by cases hu), fun t u ht => ?_, fun t ht => ?_, fun t rest ht => ?_⟩
  · rcases hpc t with h | h <;> rw [h] at ht <;> cases ht
  · rcases hpc t with h | h <;> rw [h] at ht <;> cases ht
  · rcases hpc t with h | h <;> rw [h] at ht <;> cases ht

/-- **Dead TLS areas are left alone.**  If no deletion starts its walk while an exited thread with
joiners is listed, every thread it stores into has not executed its exit section. -/
theorem keyDelete_spares_dead {s : State T} (h : machine.ReachableIf Unwatched s) {t u : T}
    (hs : Stores s t u) : s.exited u = none := by
  have hw : Walk s :=
    Machine.ReachableIf.invariant (M := machine) (fun _ ⟨m, hm⟩ => hm ▸ walk_booted m)
      (fun _ _ _ hw hg hs => walk_step hw hg hs) h
  obtain ⟨rest, e, hp, hd, hskip⟩ := hs
  have hc : ¬ e.joinCount < 0 := by
    intro hc
    simp [Desc.skipped, hc] at hskip
  cases hx : s.exited u with
  | none => rfl
  | some v => exact absurd (hw.dead t _ hp u List.mem_cons_self (by rw [hx]; rfl) e hd) hc

/-- Before the woken joiner has the lock again, the main thread `m` deletes a key and comes to
`t`. -/
def watchedRun {T : Type} (m t u : T) : List (Act T) :=
  wokenRun m t u ++ [.keyDelete m, .exec m, .exec m]

theorem keyDelete_hits_dead :
    ∃ s : State (Fin 3), machine.Reachable s ∧ Stores s 0 1 ∧ s.exited 1 = some 7 := by
  obtain ⟨s, hs, hp, ⟨e, hd, hskip⟩, hx⟩ : ∃ s : State (Fin 3),
      machine.run (booted 0) (watchedRun 0 1 2) = some s ∧
      s.pc 0 = .deleteWalk [1, 0] ∧ (∃ e, s.desc 1 = some e ∧ e.skipped = false) ∧
      s.exited 1 = some 7 := ⟨_, rfl, rfl, ⟨_, rfl, rfl⟩, rfl⟩
  exact ⟨s, .run (.init ⟨0, rfl⟩) _ hs, ⟨[0], e, hp, hd, hskip⟩, hx⟩

/-- The main thread `m` comes to `t`, which has not exited. -/
def deleteRun {T : Type} (m t : T) : List (Act T) :=
  [.create m t false, .exec m, .exec m, .exec t, .keyDelete m, .exec m]

theorem keyDelete_spares_dead_running :
    ∃ s : State (Fin 3), machine.ReachableIf Unwatched s ∧ Stores s 0 1 ∧ s.exited 1 = none := by
  obtain ⟨s, hs, hp, e, hd, hskip⟩ : ∃ s : State (Fin 3),
      machine.runIf Unwatched (booted 0) (deleteRun 0 1) = some s ∧
      s.pc 0 = .deleteWalk [1, 0] ∧ ∃ e, s.desc 1 = some e ∧ e.skipped = false :=
    ⟨_, rfl, rfl, _, rfl, rfl⟩
  have hr : machine.ReachableIf Unwatched s := .runIf (.init ⟨0, rfl⟩) _ hs
  have hst : Stores s 0 1 := ⟨[0], e, hp, hd, hskip⟩
  exact ⟨s, hr, hst, keyDelete_spares_dead hr hst⟩

end

end Pthread.Thread
