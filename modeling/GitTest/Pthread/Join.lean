import GitTest.Pthread.ThreadInv

/-!
# What `pthread_join` guarantees

    ReachableIf Calm s → a join returns the value of a thread that has exited, and no descriptor
      is freed before  (join_waits)
    ReachableIf Tidy s → no joiner sleeps on an exited thread, and an exited thread in the list can
      be joined or has a woken joiner  (join_strands_nobody)

The conditions are needed: the wait of `pthread_join` is not in a loop (`spurious_join`), a joiner
that comes after the broadcast is not woken, and a detached zombie stays in the list (`stranded`).
-/

namespace Pthread.Thread

open Counting Function Futex Machines

section
variable {T : Type} [DecidableEq T]

/-- **Joining waits.**  A join returns the value its target passed to `pthread_exit`, after the
target's locked section; a descriptor is freed only when its thread has exited; and a joiner's
target keeps its descriptor. -/
theorem join_waits {s : State T} (h : machine.ReachableIf Calm s) :
    (∀ t u v, s.pc t = .returned (.joined u v) → s.exited u = some v) ∧
      (∀ u, s.freed u = true → s.pc u = .dead ∧ (s.exited u).isSome = true) ∧
      ∀ t u, (s.pc t).target = some u → (s.desc u).isSome = true := by
  have hi := inv_reachable h
  refine ⟨fun t u v hp => ?_, fun u hf => ?_, fun t u ht => ?_⟩
  · exact hi.sees_at hp
  · have hfit := hi.fits u
    cases hph : (s.pc u).phase with
    | unborn | starting | running | detaching | removed | ringing =>
      simp only [Fits] at hfit
      simp_all
    | dead =>
      rw [hph] at hfit
      obtain ⟨v, hx, -⟩ := hfit
      exact ⟨Pc.eq_dead hph, by rw [hx]; rfl⟩
  · obtain ⟨e, hd, -⟩ := (hi.sees t).target ht
    rw [hd]
    rfl

def createRun : List (Act Bool) := [.create false true false, .exec false, .exec false, .exec true]

/-- The main thread waits for `true`, and its wait ends by a signal. -/
def spuriousRun : List (Act Bool) :=
  [.join false true, .exec false, .exec false, .leave false, .exec false]

/-- The join returns, and has freed the descriptor of a thread that is running. -/
theorem spurious_join :
    ∃ s : State Bool, machine.Reachable s ∧ s.pc false = .returned (.joined true 0) ∧
      s.exited true = none ∧ s.freed true = true ∧ s.pc true = .idle := by
  obtain ⟨s, hs, h⟩ : ∃ s, machine.run (booted false) (createRun ++ spuriousRun) = some s ∧
      s.pc false = .returned (.joined true 0) ∧ s.exited true = none ∧ s.freed true = true ∧
      s.pc true = .idle := ⟨_, rfl, rfl, rfl, rfl, rfl⟩
  exact ⟨s, .run (.init ⟨false, rfl⟩) _ hs, h⟩

def exitRun : List (Act Bool) :=
  [.join false true, .exec false, .exec false, .exit true 7, .exec true, .exec true, .exec true]

theorem join_waits_woken :
    ∃ s : State Bool, machine.ReachableIf Calm s ∧ s.pc false = .returned (.joined true 7) ∧
      s.freed true = true ∧ s.exited true = some 7 := by
  obtain ⟨s, hs, hp, hf⟩ : ∃ s, machine.runIf Calm (booted false)
      (createRun ++ exitRun ++ [.exec false, .exec false]) = some s ∧
      s.pc false = .returned (.joined true 7) ∧ s.freed true = true := ⟨_, rfl, rfl, rfl⟩
  have hr : machine.ReachableIf Calm s := .runIf (.init ⟨false, rfl⟩) _ hs
  exact ⟨s, hr, hp, hf, (join_waits hr).1 false true 7 hp⟩

/-! ## Nobody is stranded in tidy runs -/

/-- It has read its flags and goes on to the section that keeps the descriptor. -/
def Pc.leaving {T : Type} : Pc T → Bool
  | .exitLock _ | .exitWake _ => true
  | .unborn | .starting _ | .initTls | .idle | .returned _ | .createAdd _ | .createStart _
  | .exitFlags _ | .exitRemove _ | .exitFree | .dead | .join _ | .joinWait _ _ | .joinBlocked _
  | .joinRelock _ | .detach _ | .deleteLock | .deleteWalk _ => false

/-- Calm, and: no join of an exited thread that still has joiners, no detach of a thread that has
exited or has read its flags to exit, and no exit of the main thread, the last of the list. -/
def Tidy (s : State T) (a : Act T) : Prop :=
  Calm s a ∧
    match a with
    | .exec t =>
      (∀ u, s.pc t = .join u → (s.exited u).isSome = true → s.joinCount u ≤ 0) ∧
        ∀ u, s.pc t = .detach u → s.exited u = none ∧ (s.pc u).leaving = false
    | .exit t _ => s.list.getLast? ≠ some t
    | .create _ _ _ | .join _ _ | .detach _ _ | .keyDelete _ | .leave _ => True

instance [Fintype T] (s : State T) : (a : Act T) → Decidable (Tidy s a)
  | .exec t =>
    inferInstanceAs (Decidable (Calm s (.exec t) ∧ (∀ u, s.pc t = .join u → _) ∧
      ∀ u, s.pc t = .detach u → _))
  | .exit t v => inferInstanceAs (Decidable (Calm s (.exit t v) ∧ s.list.getLast? ≠ some t))
  | .create t u d => inferInstanceAs (Decidable (Calm s (.create t u d) ∧ True))
  | .join t u => inferInstanceAs (Decidable (Calm s (.join t u) ∧ True))
  | .detach t u => inferInstanceAs (Decidable (Calm s (.detach t u) ∧ True))
  | .keyDelete t => inferInstanceAs (Decidable (Calm s (.keyDelete t) ∧ True))
  | .leave t => inferInstanceAs (Decidable (Calm s (.leave t) ∧ True))

def Pc.exiting {T : Type} : Pc T → Bool
  | .exitFlags _ | .exitRemove _ | .exitFree | .exitLock _ | .exitWake _ | .dead => true
  | .unborn | .starting _ | .initTls | .idle | .returned _ | .createAdd _ | .createStart _
  | .join _ | .joinWait _ _ | .joinBlocked _ | .joinRelock _ | .detach _ | .deleteLock
  | .deleteWalk _ => false

structure Tidied (s : State T) : Prop where
  /-- A thread that keeps its descriptor over its exit is not detached. -/
  kept : ∀ u e, s.desc u = some e →
    (s.pc u).leaving = true ∨ (s.exited u).isSome = true ∧ u ∈ s.list → e.detached = false
  stays : ∀ u, s.list.getLast? = some u → (s.pc u).exiting = false
  snap : ∀ t u old, s.pc t = .joinWait u old → old = quiet
  queued : ∀ u x ps, (x, ps) ∈ s.queue u →
    s.pc x = .joinBlocked u ∧ s.exited u = none ∧ ps = false

variable {s s' : State T} {t u : T} {p : Pc T} {e : Desc} {v : Word}

omit [DecidableEq T] in
theorem Tidied.awake (ht : Tidied s) (hp : ∀ u, s.pc t ≠ .joinBlocked u) (u : T) :
    ¬ asleep (s.queue u) t := by
  rintro ⟨ps, h⟩
  exact hp u (ht.queued u t ps h).1

/-- A step of an awake thread `t` that adds no thread to the list and no entry to a queue, and
detaches nobody. -/
theorem Tidied.frame (ht : Tidied s) (hpc : s'.pc = update s.pc t p)
    (hna : ∀ u, ¬ asleep (s.queue u) t) (hq : ∀ u e, e ∈ s'.queue u → e ∈ s.queue u)
    (hlist : ∀ x, x ∈ s'.list → x ∈ s.list) (hlast : s'.list.getLast? = s.list.getLast?)
    (hdesc : ∀ u e', s'.desc u = some e' → ∃ e, s.desc u = some e ∧ e'.detached = e.detached)
    (hexo : ∀ u, u ≠ t → s'.exited u = s.exited u) (hex : s'.exited t = s.exited t ∨
      (∀ e, e ∉ s'.queue t) ∧ (t ∈ s'.list → ∀ e, s.desc t = some e → e.detached = false))
    (hleave : p.leaving = true → ∀ e, s.desc t = some e → e.detached = false)
    (hexit : p.exiting = true → (s.pc t).exiting = true ∨ s.list.getLast? ≠ some t)
    (hsnap : ∀ u old, p = .joinWait u old → old = quiet) : Tidied s' := by
  have hself : s'.pc t = p := by rw [hpc, update_self]
  have hother : ∀ u, u ≠ t → s'.pc u = s.pc u := fun u hu => by rw [hpc, update_of_ne hu]
  refine ⟨fun u e' hd' hk => ?_, fun u hu => ?_, fun x u old hx => ?_, fun u x ps hm => ?_⟩
  · obtain ⟨e, hd, he⟩ := hdesc u e' hd'
    rw [he]
    by_cases hu : u = t
    · subst hu
      rcases hk with hk | ⟨hk, hm⟩
      · rw [hself] at hk
        exact hleave hk e hd
      · rcases hex with hex | ⟨-, hex⟩
        · rw [hex] at hk
          exact ht.kept u e hd (.inr ⟨hk, hlist u hm⟩)
        · exact hex hm e hd
    · refine ht.kept u e hd ?_
      rw [hother u hu, hexo u hu] at hk
      exact hk.imp id fun hk => ⟨hk.1, hlist u hk.2⟩
  · rw [hlast] at hu
    by_cases hut : u = t
    · subst hut
      rw [hself, ← Bool.not_eq_true]
      intro hp
      rcases hexit hp with h | h
      · rw [ht.stays u hu] at h
        cases h
      · exact h hu
    · rw [hother u hut]
      exact ht.stays u hu
  · by_cases hxt : x = t
    · subst hxt
      rw [hself] at hx
      exact hsnap u old hx
    · rw [hother x hxt] at hx
      exact ht.snap x u old hx
  · obtain ⟨h1, h2, h3⟩ := ht.queued u x ps (hq u _ hm)
    have hxt : x ≠ t := by
      rintro rfl
      exact hna u ⟨ps, hq u _ hm⟩
    refine ⟨by rw [hother x hxt, h1], ?_, h3⟩
    by_cases hu : u = t
    · subst hu
      rcases hex with hex | ⟨hex, -⟩
      · rw [hex, h2]
      · exact absurd hm (hex _)
    · rw [hexo u hu, h2]

/-- A step of an awake thread that only moves it or changes fields of a descriptor other than
`detached`. -/
theorem Tidied.move (ht : Tidied s) (hpc : s'.pc = update s.pc t p)
    (hna : ∀ u, ¬ asleep (s.queue u) t) (hq : s'.queue = s.queue) (hlist : s'.list = s.list)
    (hexo : s'.exited = s.exited)
    (hdesc : ∀ u e', s'.desc u = some e' → ∃ e, s.desc u = some e ∧ e'.detached = e.detached)
    (hleave : p.leaving = true → ∀ e, s.desc t = some e → e.detached = false)
    (hexit : p.exiting = true → (s.pc t).exiting = true ∨ s.list.getLast? ≠ some t)
    (hsnap : ∀ u old, p = .joinWait u old → old = quiet) : Tidied s' :=
  ht.frame hpc hna (fun u e he => by rwa [hq] at he) (fun x hx => by rwa [hlist] at hx)
    (by rw [hlist]) hdesc (fun u _ => by rw [hexo]) (.inl (by rw [hexo])) hleave hexit hsnap

omit [DecidableEq T] in
theorem desc_refl (u : T) (e' : Desc) (h : s.desc u = some e') :
    ∃ e, s.desc u = some e ∧ e'.detached = e.detached := ⟨e', h, rfl⟩

omit [DecidableEq T] in
theorem Tidied.queue_empty (ht : Tidied s) (hno : ∀ x, (s.pc x).target ≠ some u) (e : T × Bool) :
    e ∉ s.queue u := by
  obtain ⟨x, ps⟩ := e
  intro h
  have hp := (ht.queued u x ps h).1
  exact hno x (by rw [hp]; rfl)

theorem tidied_remove (hi : Inv s) (ht : Tidied s) (hp : s.pc t = .exitRemove v)
    (hlast : s.list.getLast? ≠ some t) :
    Tidied ({ s with
      list := s.list.erase t, exited := update s.exited t (some v) }.goto t
        .exitFree) := by
  obtain ⟨e, hd, -, -, -, -, -, hdet⟩ := hi.fits_at hp
  refine ht.frame rfl (ht.awake (by simp [hp])) (fun _ _ h => h)
    (fun x hx => List.mem_of_mem_erase hx) (getLast?_erase hlast) desc_refl
    (fun u hu => update_of_ne hu _ _) (.inr ⟨?_, ?_⟩) (by simp [Pc.leaving])
    (fun _ => .inl (by rw [hp]; rfl)) (by simp)
  · refine ht.queue_empty fun x hx => ?_
    obtain ⟨e', hd', h, -⟩ := (hi.sees x).target hx
    cases hd.symm.trans hd'
    rw [hdet] at h
    cases h
  · exact fun hm => absurd hm hi.nodup.not_mem_erase

theorem tidied_free (ht : Tidied s) (hp : s.pc t = .exitFree) :
    Tidied ((s.free t e).goto t .dead) := by
  have hna := ht.awake (t := t) (by simp [hp])
  have hexit : (Pc.dead (T := T)).exiting = true →
      (s.pc t).exiting = true ∨ s.list.getLast? ≠ some t := fun _ => .inl (by rw [hp]; rfl)
  unfold State.free
  split
  · exact ht.move rfl hna rfl rfl rfl (desc_update Desc.detached nofun) (by simp [Pc.leaving])
      hexit (by simp)
  · exact ht.move rfl hna rfl rfl rfl desc_refl (by simp [Pc.leaving]) hexit (by simp)

theorem tidied_zombie (hi : Inv s) (ht : Tidied s) (hp : s.pc t = .exitLock v)
    (hd : s.desc t = some e) (hc : e.joinCount ≤ 0) :
    Tidied ({ s.setDesc t { e with returnValue := v, joinCount := -1 } with
      exited := update s.exited t (some v) }.goto t .dead) := by
  refine ht.frame rfl (ht.awake (by simp [hp])) (fun _ _ h => h) (fun _ h => h) rfl
    (desc_store Desc.detached hd rfl) (fun u hu => update_of_ne hu _ _) (.inr ⟨?_, fun _ e' hd' => ?_⟩)
    (by simp [Pc.leaving]) (fun _ => .inl (by rw [hp]; rfl)) (by simp)
  · refine ht.queue_empty fun x hx => ?_
    have := hi.count_pos hx hd
    omega
  · exact ht.kept t e' hd' (.inl (by rw [hp]; rfl))

theorem tidied_wake (hi : Inv s) (ht : Tidied s) (hp : s.pc t = .exitWake v)
    (hd : s.desc t = some e) :
    Tidied ({ s with
      queue := update s.queue t (wakeAll (s.queue t) (Cond.condIsShared e.joinCond))
      lock := none
      exited := update s.exited t (some v) }.goto t .dead) := by
  obtain ⟨e', he, -, -, -, hr, -⟩ := hi.fits_at hp
  cases hd.symm.trans he
  have hsh : Cond.condIsShared e.joinCond = false := by
    rw [hr]
    decide
  refine ht.frame rfl (ht.awake (by simp [hp])) (fun u q hq => ?_) (fun _ h => h) rfl desc_refl
    (fun u hu => update_of_ne hu _ _) (.inr ⟨fun q hq => ?_, fun _ e' hd' => ?_⟩)
    (by simp [Pc.leaving]) (fun _ => .inl (by rw [hp]; rfl)) (by simp)
  · change q ∈ update s.queue t _ u at hq
    by_cases hu : u = t
    · subst hu
      rw [update_self, mem_wakeAll] at hq
      exact hq.1
    · rwa [update_of_ne hu] at hq
  · change q ∈ update s.queue t _ t at hq
    rw [update_self, mem_wakeAll, hsh] at hq
    exact hq.2 (ht.queued t q.1 q.2 hq.1).2.2
  · exact ht.kept t e' hd' (.inl (by rw [hp]; rfl))

theorem tidied_reap (ht : Tidied s) (hna : ∀ u, ¬ asleep (s.queue u) t)
    (hlast : s.list.getLast? ≠ some u) (hs' : s' = { s with
      list := s.list.erase u
      desc := update s.desc u none
      freed := update s.freed u true }.goto t (.returned (.joined u v))) : Tidied s' := by
  subst hs'
  exact ht.frame rfl hna (fun _ _ h => h) (fun x hx => List.mem_of_mem_erase hx)
    (getLast?_erase hlast) (desc_update Desc.detached nofun) (fun _ _ => rfl) (.inl rfl)
    (by simp [Pc.leaving]) (by simp [Pc.exiting]) (by simp)

theorem tidied_waits (hi : Inv s) (ht : Tidied s)
    (hg : (s.exited u).isSome = true → s.joinCount u ≤ 0) (hp : s.pc t = .join u)
    (hl : s.lock = none) (hm : u ∈ s.list) (hd : s.desc u = some e) (hc : 0 ≤ e.joinCount) :
    Tidied ((s.setDesc u { e with joinCount := e.joinCount + 1 }).goto t
      (.joinWait u e.joinCond)) := by
  refine ht.move rfl (ht.awake (by simp [hp])) rfl rfl rfl (desc_store Desc.detached hd rfl)
    (by simp [Pc.leaving]) (by simp [Pc.exiting]) fun w old h => ?_
  cases h
  -- a thread that has been rung has exited, and then the guard leaves only zombies
  rcases hi.listed hd hm with ⟨-, hq, -⟩ | ⟨hlu, -⟩ | ⟨-, hx, h⟩
  · exact hq
  · rw [hl] at hlu
    cases hlu
  · have hle := hg (by rw [hx]; rfl)
    rw [State.joinCount, hd] at hle
    change e.joinCount ≤ 0 at hle
    omega

theorem tidied_sleep (hi : Inv s) (ht : Tidied s) (hp : s.pc t = .joinWait u e.joinCond)
    (hd : s.desc u = some e) :
    Tidied ({ s with
      queue := update s.queue u
        (sleep (s.queue u) t (Cond.condIsShared e.joinCond)) }.goto t (.joinBlocked u)) := by
  have htg : (s.pc t).target = some u := by rw [hp]; rfl
  have hq := ht.snap t u _ hp
  have hpos := hi.count_pos htg hd
  obtain ⟨-, -, -, hm⟩ := (hi.sees t).target htg
  have hx : s.exited u = none := by
    rcases hi.listed hd hm with ⟨h, -⟩ | ⟨-, h, -⟩ | ⟨-, -, h | ⟨-, hr⟩⟩
    · exact h
    · exact h
    · omega
    · exact absurd (hq.symm.trans hr) quiet_ne_rung
  have hsh : Cond.condIsShared e.joinCond = false := by
    rw [hq]
    decide
  have hna := ht.awake (t := t) (by simp [hp])
  -- without the new entry this is a move
  have h₀ : Tidied (s.goto t (.joinBlocked u)) :=
    ht.move rfl hna rfl rfl rfl desc_refl (by simp [Pc.leaving]) (by simp [Pc.exiting]) (by simp)
  refine ⟨h₀.kept, h₀.stays, h₀.snap, fun w x ps hw => ?_⟩
  change (x, ps) ∈ update s.queue u _ w at hw
  by_cases hwu : w = u
  · subst hwu
    rw [update_self, sleep, List.mem_cons] at hw
    rcases hw with hw | hw
    · cases hw
      exact ⟨goto_pc_self .., hx, hsh⟩
    · exact h₀.queued w x ps hw
  · rw [update_of_ne hwu] at hw
    exact h₀.queued w x ps hw

theorem tidied_detach (ht : Tidied s) (hx : s.exited u = none) (hleave : (s.pc u).leaving = false)
    (hp : s.pc t = .detach u) :
    Tidied ((s.setDesc u { e with detached := true }).goto t (.returned .detached)) := by
  have h₀ : Tidied (s.goto t (.returned .detached)) :=
    ht.move rfl (ht.awake (by simp [hp])) rfl rfl rfl desc_refl (by simp [Pc.leaving])
      (by simp [Pc.exiting]) (by simp)
  refine ⟨fun w e' hd hk => ?_, h₀.stays, h₀.snap, h₀.queued⟩
  change update s.desc u _ w = some e' at hd
  by_cases hw : w = u
  · subst hw
    rcases hk with hk | ⟨hk, -⟩
    · by_cases hwt : w = t
      · subst hwt
        rw [goto_pc_self] at hk
        cases hk
      · rw [goto_pc_of_ne _ _ hwt] at hk
        change (s.pc w).leaving = true at hk
        rw [hleave] at hk
        cases hk
    · change (s.exited w).isSome = true at hk
      rw [hx] at hk
      cases hk
  · rw [update_of_ne hw] at hd
    exact h₀.kept w e' hd hk

theorem tidied_add (hi : Inv s) (ht : Tidied s) (hp : s.pc t = .createAdd u) :
    Tidied ({ s with list := u :: s.list }.goto t (.createStart u)) := by
  have hs := hi.sees_at hp
  obtain ⟨e, -, hx, -⟩ := hi.fits_at hs.1
  have h₀ : Tidied (s.goto t (.createStart u)) :=
    ht.move rfl (ht.awake (by simp [hp])) rfl rfl rfl desc_refl (by simp [Pc.leaving])
      (by simp [Pc.exiting]) (by simp)
  refine ⟨fun w e' hd hk => ?_, fun w hw => ?_, h₀.snap, h₀.queued⟩
  · refine h₀.kept w e' hd (hk.imp id fun hk => ⟨hk.1, ?_⟩)
    rcases List.mem_cons.1 hk.2 with rfl | hm
    · have hk' : (s.exited w).isSome = true := hk.1
      rw [hx] at hk'
      cases hk'
    · exact hm
  · obtain ⟨m, hm, -⟩ := hi.main
    exact h₀.stays w ((getLast?_cons_of_some hm u).symm.trans hw)

/-- `t` gives another thread that has not run yet a new place. -/
theorem Tidied.place (ht : Tidied s) (hb : ∀ w, s.pc u ≠ .joinBlocked w) (h1 : p.leaving = false)
    (h2 : p.exiting = false) (h3 : ∀ w old, p ≠ .joinWait w old) : Tidied (s.goto u p) :=
  ht.move rfl (ht.awake hb) rfl rfl rfl desc_refl (by simp [h1]) (by simp [h2])
    (fun w old h => absurd h (h3 w old))

theorem tidied_create (hi : Inv s) (ht : Tidied s) {det : Bool} (ho : (s.pc t).outside = true)
    (hu : s.pc u = .unborn) :
    Tidied (((s.setDesc u (initThread det)).goto u (.starting t)).goto t (.createAdd u)) := by
  obtain ⟨-, hx, -⟩ := hi.fits_at hu
  have h₀ : Tidied (s.setDesc u (initThread det)) := by
    refine ⟨fun w e hd hk => ?_, ht.stays, ht.snap, ht.queued⟩
    by_cases hw : w = u
    · subst hw
      rcases hk with hk | ⟨hk, -⟩
      · change (s.pc w).leaving = true at hk
        rw [hu] at hk
        cases hk
      · change (s.exited w).isSome = true at hk
        rw [hx] at hk
        cases hk
    · exact ht.kept w e ((update_of_ne hw _ _).symm.trans hd) hk
  have h₁ := h₀.place (u := u) (p := .starting t) (by simp [State.setDesc, hu]) rfl rfl (by simp)
  refine h₁.place (fun w h => ?_) rfl rfl (by simp)
  have htu : t ≠ u := ne_of_unborn ho hu
  rw [goto_pc_of_ne _ _ htu] at h
  change s.pc t = _ at h
  rw [h] at ho
  cases ho

theorem tidied_start (hi : Inv s) (ht : Tidied s) (hp : s.pc t = .createStart u) :
    Tidied ((s.goto u .initTls).goto t (.returned (.created u))) := by
  have hs := hi.sees_at hp
  have h₁ := ht.place (u := u) (p := .initTls) (by simp [hs.1]) rfl rfl (by simp)
  refine h₁.place (fun w h => ?_) rfl rfl (by simp)
  have htu : t ≠ u := by
    rintro rfl
    have hst := hs.1
    rw [hp] at hst
    cases hst
  rw [goto_pc_of_ne _ _ htu, hp] at h
  cases h

theorem tidied_exec (hi : Inv s) (ht : Tidied s) (hg : Tidy s (.exec t)) (h : exec s t = some s') :
    Tidied s' := by
  obtain ⟨-, hjoin, hdetach⟩ := hg
  cases exec_cases h with
  | initTls hp hd | rejoin hp _ hd _ =>
    exact ht.move rfl (ht.awake (by simp [hp])) rfl rfl rfl (desc_store Desc.detached hd rfl)
      (by simp [Pc.leaving]) (by simp [Pc.exiting]) (by simp)
  | add hp _ => exact tidied_add hi ht hp
  | start hp => exact tidied_start hi ht hp
  | @flags v e hp hd =>
    refine ht.move rfl (ht.awake (by simp [hp])) rfl rfl rfl desc_refl (fun h e' hd' => ?_)
      (fun _ => .inl (by rw [hp]; rfl)) (fun u old h => ?_)
    · cases hd.symm.trans hd'
      cases hdet : e.detached with
      | true =>
        rw [hdet] at h
        cases h
      | false => rfl
    · split at h <;> cases h
  | remove hp _ _ hlast => exact tidied_remove hi ht hp hlast
  | free hp _ => exact tidied_free ht hp
  | zombie hp _ hd hc => exact tidied_zombie hi ht hp hd hc
  | ring hp _ hd _ =>
    exact ht.move rfl (ht.awake (by simp [hp])) rfl rfl rfl (desc_store Desc.detached hd rfl)
      (fun _ e' hd' => ht.kept t e' hd' (.inl (by rw [hp]; rfl)))
      (fun _ => .inl (by rw [hp]; rfl)) (by simp)
  | wake hp hd => exact tidied_wake hi ht hp hd
  | waits hp hl hm hd _ hc => exact tidied_waits hi ht (hjoin _ hp) hp hl hm hd hc
  | @reapZombie u e hp _ _ hlast hd _ _ =>
    refine tidied_reap (t := t) (v := e.returnValue) ht (ht.awake (by simp [hp])) hlast ?_
    rw [State.free, if_pos (hi.intern hlast hd)]
  | sleep hp hd => exact tidied_sleep hi ht hp hd
  | joinFails hp | detachFails hp | skip hp _ _ | deleteLock hp _ | deleteNext hp
  | deleteEnd hp =>
    exact ht.move rfl (ht.awake (by simp [hp])) rfl rfl rfl desc_refl (by simp [Pc.leaving])
      (by simp [Pc.exiting]) (by simp)
  | @resume u hp hq =>
    refine ht.move rfl (fun w hw => ?_) rfl rfl rfl desc_refl (by simp [Pc.leaving])
      (by simp [Pc.exiting]) (by simp)
    obtain ⟨ps, hm⟩ := hw
    have hpw := (ht.queued w t ps hm).1
    rw [hp] at hpw
    cases hpw
    exact hq ⟨ps, hm⟩
  | @reapLast u e hp _ _ hlast hd _ =>
    refine tidied_reap (t := t) (v := e.returnValue) ht (ht.awake (by simp [hp])) hlast ?_
    rw [State.free, if_pos (hi.intern hlast hd)]
    simp [State.setDesc]
  | detach hp _ _ hd _ =>
    obtain ⟨hx, hleave⟩ := hdetach _ hp
    exact tidied_detach ht hx hleave hp

theorem tidied_step {a : Act T} (hi : Inv s) (ht : Tidied s) (hg : Tidy s a)
    (h : step s a = some s') : Tidied s' := by
  have hcall : ∀ {t : T} {p : Pc T}, (s.pc t).outside = true → p.leaving = false →
      (p.exiting = true → s.list.getLast? ≠ some t) → (∀ u old, p ≠ .joinWait u old) →
      Tidied (s.goto t p) := by
    intro t p ho h1 h2 h3
    refine ht.move rfl (ht.awake fun u hb => ?_) rfl rfl rfl desc_refl (by simp [h1])
      (fun hp => .inr (h2 hp)) fun u old hp => absurd hp (h3 u old)
    rw [hb] at ho
    cases ho
  revert h
  fun_cases step s a with
  | case1 _ _ _ h =>
    rintro ⟨⟩
    exact tidied_create hi ht h.1 h.2
  | case3 _ _ ho =>
    rintro ⟨⟩
    exact hcall ho rfl (fun _ => hg.2) (by simp)
  | case5 _ _ ho | case7 _ _ ho | case9 _ ho =>
    rintro ⟨⟩
    exact hcall ho rfl (by simp [Pc.exiting]) (by simp)
  | case11 => exact tidied_exec hi ht hg
  | case12 t u hp hm =>
    -- nobody sleeps on an exited thread
    obtain ⟨ps, hm⟩ := hm
    have hx := hg.1 u hp
    rw [(ht.queued u t ps hm).2.1] at hx
    cases hx
  | _ => rintro ⟨⟩

theorem tidied_booted (m : T) : Tidied (booted m) := by
  refine ⟨fun u e hd _ => ?_, fun u hu => ?_, fun t u old hp => ?_, fun u x ps h => ?_⟩
  · by_cases hu : u = m
    · subst hu
      simp [booted] at hd
      subst hd
      rfl
    · simp [booted, hu] at hd
  · obtain rfl : m = u := by simpa [booted] using hu
    simp [booted, Pc.exiting]
  · by_cases ht : t = m
    · simp [booted, ht] at hp
    · simp [booted, ht] at hp
  · simp [booted] at h

/-- Asleep in the join of `u`, or about to go to sleep. -/
def Blocked (s : State T) (t u : T) : Prop :=
  asleep (s.queue u) t ∨
    ∃ old e, s.pc t = .joinWait u old ∧ s.desc u = some e ∧ e.joinCond = old

/-- In the join of `u`, and on the way to its end. -/
def Woken (s : State T) (t u : T) : Prop := (s.pc t).target = some u ∧ ¬ Blocked s t u

/-- Whoever runs the section of `pthread_join` on `u` now returns 0 at once. -/
def Joinable (s : State T) (u : T) : Prop :=
  ∀ t, ∃ s' v, s.joinSection t u = some s' ∧ s'.pc t = .returned (.joined u v)

theorem joinable_of_zombie (hd : s.desc u = some e) (hm : u ∈ s.list)
    (hlast : s.list.getLast? ≠ some u) (hdet : e.detached = false) (hc : e.joinCount < 0) :
    Joinable s u := by
  intro t
  have h1 : ¬ e.detached = true := by simp [hdet]
  have h2 : ¬ 0 ≤ e.joinCount := by omega
  refine ⟨_, e.returnValue, ?_, goto_pc_self ({ s with list := s.list.erase u }.free u e) t _⟩
  rw [State.joinSection, if_pos hm]
  simp only [hd]
  rw [if_neg h1, if_neg h2, State.joined, if_pos (by omega), State.removeLocked,
    if_pos ⟨hm, hlast⟩]
  rfl

/-- **Nobody is stranded.**  In a tidy run no thread is blocked on a thread that has exited, and a
thread that has exited and is still in the list can be joined, or a joiner of it has been woken. -/
theorem join_strands_nobody {s : State T} (h : machine.ReachableIf Tidy s) (u : T)
    (hx : (s.exited u).isSome = true) :
    (∀ t, ¬ Blocked s t u) ∧ (u ∈ s.list → Joinable s u ∨ ∃ t, Woken s t u) := by
  obtain ⟨hi, ht⟩ : Inv s ∧ Tidied s :=
    Machine.ReachableIf.invariant (M := machine) (I := fun s => Inv s ∧ Tidied s)
      (fun _ ⟨m, hm⟩ => hm ▸ ⟨inv_booted m, tidied_booted m⟩)
      (fun _ _ _ ⟨hi, ht⟩ hg hs => ⟨inv_step hi hg.1 hs, tidied_step hi ht hg hs⟩) h
  have hfree : ∀ t, ¬ Blocked s t u := by
    rintro t (⟨ps, hm⟩ | ⟨old, e, hp, hd, ho⟩)
    · rw [(ht.queued u t ps hm).2.1] at hx
      cases hx
    · have htg : (s.pc t).target = some u := by rw [hp]; rfl
      have hpos := hi.count_pos htg hd
      obtain ⟨-, -, -, hm⟩ := (hi.sees t).target htg
      have hq := ho.trans (ht.snap t u old hp)
      rcases hi.listed hd hm with ⟨h, -⟩ | ⟨-, h, -⟩ | ⟨-, -, h | ⟨-, hr⟩⟩
      · rw [h] at hx
        cases hx
      · rw [h] at hx
        cases hx
      · omega
      · exact quiet_ne_rung (hq.symm.trans hr)
  refine ⟨hfree, fun hm => ?_⟩
  obtain ⟨e, hd⟩ := hi.allocated hm
  rcases hi.listed hd hm with ⟨h, -⟩ | ⟨-, h, -⟩ | ⟨hph, -, ⟨hc, -⟩ | ⟨hc, -⟩⟩
  · rw [h] at hx
    cases hx
  · rw [h] at hx
    cases hx
  · have hlast : s.list.getLast? ≠ some u := by
      intro h
      have hst := ht.stays u h
      rw [Pc.eq_dead hph] at hst
      cases hst
    exact .inl (joinable_of_zombie hd hm hlast (ht.kept u e hd (.inr ⟨hx, hm⟩)) hc)
  · obtain ⟨t, htg⟩ := (hi.counts u e hd).exists_of_pos (by omega)
    exact .inr ⟨t, htg, hfree t⟩

/-- Before the woken joiner has the lock again, the main thread `m` joins `t` too. -/
def lateRun {T : Type} (m t u : T) : List (Act T) :=
  wokenRun m t u ++ [.join m t, .exec m, .exec m]

/-- Thread `true` exits without joiners, and then the main thread detaches it. -/
def zombieRun : List (Act Bool) :=
  [.exit true 7, .exec true, .exec true, .detach false true, .exec false]

/-- A joiner that comes after the broadcast sleeps on an exited thread, and a zombie that is
detached stays in the list for good. -/
theorem stranded :
    (∃ s : State (Fin 3), machine.Reachable s ∧ s.exited 1 = some 7 ∧ Blocked s 0 1) ∧
      ∃ s : State Bool, machine.Reachable s ∧ s.exited true = some 7 ∧ true ∈ s.list ∧
        ¬ Joinable s true ∧ ∀ t, ¬ Woken s t true := by
  constructor
  · obtain ⟨s, hs, hx, hq⟩ : ∃ s : State (Fin 3),
        machine.run (booted 0) (lateRun 0 1 2) = some s ∧
        s.exited 1 = some 7 ∧ s.queue 1 = [(0, false)] := ⟨_, rfl, rfl, rfl⟩
    exact ⟨s, .run (.init ⟨0, rfl⟩) _ hs, hx, .inl ⟨false, by simp [hq]⟩⟩
  · obtain ⟨s, hs, hx, hm, hj, ht⟩ : ∃ s, machine.run (booted false) (createRun ++ zombieRun) =
        some s ∧ s.exited true = some 7 ∧ s.list = [true, false] ∧
        s.joinSection false true = some (s.goto false (.returned (.joinFailed .einval))) ∧
        ∀ t, (s.pc t).target = none := ⟨_, rfl, rfl, rfl, rfl, fun t => by cases t <;> rfl⟩
    refine ⟨s, .run (.init ⟨false, rfl⟩) _ hs, hx, by simp [hm], fun h => ?_, fun t h => ?_⟩
    · obtain ⟨s', v, hs', hp⟩ := h false
      rw [hj] at hs'
      cases hs'
      cases hp
    · rw [Woken, ht t] at h
      cases h.1

theorem join_strands_nobody_woken :
    ∃ s : State Bool, machine.ReachableIf Tidy s ∧ s.exited true = some 7 ∧ true ∈ s.list ∧
      (∀ t, ¬ Blocked s t true) ∧ (Joinable s true ∨ ∃ t, Woken s t true) := by
  obtain ⟨s, hs, hx, hm⟩ : ∃ s, machine.runIf Tidy (booted false) (createRun ++ exitRun) = some s ∧
      s.exited true = some 7 ∧ s.list = [true, false] := ⟨_, rfl, rfl, rfl⟩
  have hr : machine.ReachableIf Tidy s := .runIf (.init ⟨false, rfl⟩) _ hs
  have hmem : true ∈ s.list := by simp [hm]
  obtain ⟨h1, h2⟩ := join_strands_nobody hr true (by rw [hx]; rfl)
  exact ⟨s, hr, hx, hmem, h1, h2 hmem⟩

end

end Pthread.Thread
