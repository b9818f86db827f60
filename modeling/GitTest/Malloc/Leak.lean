import GitTest.Lib.Transition
import GitTest.Malloc.LeakTable

/-!
# The leak checker (libc/bionic/malloc_debug_leak.c)

Threads call `leak_malloc`, `leak_calloc`, `leak_realloc` and `leak_free`.  A step is a call of
`dlmalloc`, a section under `gAllocationsMutex`, or what a call does before them; `leak_realloc`
reads the size of the old block without the mutex.  Every `dlmalloc` may return `NULL`, and else
returns memory that nobody has.

    ReachableIf HasEntry s → the table accounts for the blocks and no call has read through `NULL`
      or from a freed entry; a step keeps this exactly if the block that it frees or reallocates
      has an entry  (accounted_iff)
    a `dlmalloc` in `record_backtrace` that returns `NULL` → `leak_free` of the block reads through
      `NULL`  (unrecorded_free)

The contents of the blocks, blocks of `leak_memalign`, and headers that the client has overwritten
are left out.
-/

namespace Malloc.Leak

open Function Machines Option

/-! ## Algorithm -/

/-- Who has a block: nobody, the client, or a call of thread `t`. -/
inductive Owner (T : Type)
  | unused
  | client
  | call (t : T)
  deriving DecidableEq

/-- Where a call is.  The block `old` is that of a `leak_realloc`. -/
inductive Pc (B : Type)
  | idle
  | allocate (bytes : Word) (old : Option B)
  | record (base : B) (bytes : Word) (old : Option B)
  | release (new old : B)
  deriving DecidableEq

structure State (T A B : Type) where
  table : Table A
  header : B → Option (Header A)
  owner : B → Owner T
  zygoteChild : Bool
  pc : T → Pc B
  fault : Bool

/-- `dlmalloc` has the result of the one for a block, and `record` that of the one for an entry;
`release` is the `leak_free` at the end of `leak_realloc`. -/
inductive Act (T A B : Type)
  | malloc (t : T) (bytes : Word)
  | calloc (t : T) (nElements elemSize : Word)
  | realloc (t : T) (oldMem : Option B) (bytes : Word)
  | free (t : T) (mem : Option B)
  | dlmalloc (t : T) (base : Option B)
  | record (t : T) (backtrace : List Word) (entry : Option A)
  | release (t : T)
  | setZygoteChild (b : Bool)

section
variable {T A B : Type}

/-- `header->entry`; what is not a header has none. -/
def State.entry (s : State T A B) (b : B) : Option A := (s.header b).bind Header.entry

/-- A section that aborts ends the run. -/
def State.after (s : State T A B) : Result (State T A B) → Option (State T A B)
  | .ok s' => some s'
  | .aborts => none
  | .faults => some { s with fault := true }

variable [DecidableEq T] [DecidableEq A] [DecidableEq B]

def State.goto (s : State T A B) (t : T) (p : Pc B) : State T A B :=
  { s with pc := Function.update s.pc t p }

def State.give (s : State T A B) (b : B) (o : Owner T) : State T A B :=
  { s with owner := Function.update s.owner b o }

/-- The header of a block is written, or its memory given back. -/
def State.write (s : State T A B) (b : B) (h : Option (Header A)) (m : Table A) : State T A B :=
  { s with table := m, header := Function.update s.header b h }

/-- `leak_malloc` returns: to the client, or to `leak_realloc`. -/
def State.malloced (s : State T A B) (t : T) (base : B) : Option B → State T A B
  | none => (s.give base .client).goto t .idle
  | some old => s.goto t (.release base old)

/-- The block has a header with a guard. -/
def leakFree (s : State T A B) (mem : B) : Result (State T A B) :=
  (releaseEntry s.table (s.entry mem)).bind fun m => .ok ((s.write mem none m).give mem .unused)

def step (s : State T A B) (a : Act T A B) : Option (State T A B) :=
  if s.fault = true then none
  else match a with
  | .malloc t bytes =>
    match s.pc t with
    | .idle => some (s.goto t (.allocate bytes none))
    | _ => none
  | .calloc t nElements elemSize =>
    match s.pc t with
    | .idle =>
      -- `MAX_SIZE_T / n_elements < elem_size`
      if nElements ≠ 0 ∧ BitVec.allOnes 32 / nElements < elemSize then some s
      else some (s.goto t (.allocate (nElements * elemSize) none))
    | _ => none
  | .realloc t none bytes =>
    match s.pc t with
    | .idle => some (s.goto t (.allocate bytes none))
    | _ => none
  | .realloc t (some old) bytes =>
    match s.pc t with
    | .idle =>
      if s.owner old ≠ .client then none
      else if (s.entry old).all (fun a => !s.table.live a) then some { s with fault := true }
      else some ((s.give old (.call t)).goto t (.allocate bytes (some old)))
    | _ => none
  | .free t none =>
    match s.pc t with
    | .idle => some s
    | _ => none
  | .free t (some mem) =>
    match s.pc t with
    | .idle => if s.owner mem ≠ .client then none else s.after (leakFree s mem)
    | _ => none
  | .dlmalloc t base =>
    match s.pc t, base with
    | .allocate _ none, none => some (s.goto t .idle)
    | .allocate _ (some old), none => some ((s.give old .client).goto t .idle)
    | .allocate bytes old, some base =>
      if s.owner base ≠ .unused then none
      else some ((s.give base (.call t)).goto t (.record base bytes old))
    | _, _ => none
  | .record t backtrace entry =>
    match s.pc t with
    | .record base bytes old =>
      if entry.any s.table.live then none
      else s.after <|
        (recordBacktrace s.table s.zygoteChild backtrace bytes entry).bind fun r =>
          .ok ((s.write base (some ⟨r.2, bytes, backtrace⟩) r.1).malloced t base old)
    | _ => none
  | .release t =>
    match s.pc t with
    | .release new old =>
      s.after <| (leakFree s old).bind fun s => .ok ((s.give new .client).goto t .idle)
    | _ => none
  | .setZygoteChild b => some { s with zygoteChild := b }

def emptyTable : Table A where
  slots _ := none
  count := 0
  live _ := false
  slot _ := 0
  prev _ := none
  next _ := none
  size _ := 0
  allocations _ := 0
  backtrace _ := []

def start : State T A B where
  table := emptyTable
  header _ := none
  owner _ := .unused
  zygoteChild := false
  pc _ := .idle
  fault := false

variable (T A B) in
def machine : Machine (State T A B) (Act T A B) where
  init s := s = start
  step := step

end

section
variable {T A B : Type}

/-! ## What it is for -/

/-- The table accounts for the blocks, those that the client has have a header, those that nobody
has do not, and there was no read through `NULL` or from a freed entry. -/
structure Sound (s : State T A B) : Prop where
  fault : s.fault = false
  accounted : ∃ chain, Accounted s.table s.header chain
  client : ∀ b, s.owner b = .client → (s.header b).isSome = true
  unused : ∀ b, s.owner b = .unused → s.header b = none

/-- The block that is freed or reallocated has an entry: there was memory for it, or one with the
same size and backtrace. -/
def HasEntry (s : State T A B) : Act T A B → Prop
  | .free _ (some mem) => (s.entry mem).isSome = true
  | .realloc _ (some old) _ => (s.entry old).isSome = true
  | _ => True

instance (s : State T A B) (a : Act T A B) : Decidable (HasEntry s a) := by
  unfold HasEntry
  split <;> infer_instance

/-! ## The blocks of the calls -/

/-- Thread `t` has a block with an entry. -/
def Has (s : State T A B) (t : T) (b : B) : Prop :=
  s.owner b = .call t ∧ ∃ a, PointsTo s.header a b

def PcOk (s : State T A B) (t : T) : Pc B → Prop
  | .idle => True
  | .allocate _ old => ∀ o, old = some o → Has s t o
  | .record base _ old => s.owner base = .call t ∧ s.header base = none ∧
      ∀ o, old = some o → Has s t o
  | .release new old => new ≠ old ∧ s.owner new = .call t ∧ (s.header new).isSome = true ∧
      Has s t old

structure Inv (s : State T A B) : Prop extends Sound s where
  pcs : ∀ t, PcOk s t (s.pc t)

/-- What the other threads have is as before. -/
def Frames (t : T) (s s' : State T A B) : Prop :=
  ∀ u b, u ≠ t → s.owner b = .call u → s'.owner b = .call u ∧ s'.header b = s.header b

def Mine (s : State T A B) (t : T) (b : B) : Prop := ∀ u, u ≠ t → s.owner b ≠ .call u

variable {s s' s'' : State T A B} {t u : T} {b mem : B} {p : Pc B} {o : Owner T} {m : Table A}
  {h : Option (Header A)}

theorem mine_of_call (hb : s.owner b = .call t) : Mine s t b := by
  intro u hu hc
  rw [hb] at hc
  cases hc
  exact hu rfl

theorem mine_of_owner (hb : s.owner b = o) (ho : ∀ u, o ≠ .call u) : Mine s t b := by
  intro u _ hc
  exact ho u (hb.symm.trans hc)

theorem Frames.trans (h : Frames t s s') (h' : Frames t s' s'') : Frames t s s'' := by
  intro u b hu hb
  obtain ⟨ho, hh⟩ := h u b hu hb
  obtain ⟨ho', hh'⟩ := h' u b hu ho
  exact ⟨ho', hh'.trans hh⟩

theorem PcOk.frame (hp : PcOk s u p) (hf : Frames t s s') (hu : u ≠ t) : PcOk s' u p := by
  have hhas : ∀ c, Has s u c → Has s' u c := by
    rintro c ⟨hc, a, hd, hh, ha⟩
    obtain ⟨hc', hh'⟩ := hf u c hu hc
    exact ⟨hc', a, hd, hh'.trans hh, ha⟩
  cases p with
  | idle => trivial
  | allocate bytes old => exact fun c hc => hhas c (hp c hc)
  | record base bytes old =>
    obtain ⟨hbase, hnone, hold⟩ := hp
    obtain ⟨hbase', hh⟩ := hf u base hu hbase
    exact ⟨hbase', hh.trans hnone, fun c hc => hhas c (hold c hc)⟩
  | release new old =>
    obtain ⟨hne, hnew, hsome, hold⟩ := hp
    obtain ⟨hnew', hh⟩ := hf u new hu hnew
    exact ⟨hne, hnew', by rw [hh]; exact hsome, hhas old hold⟩

theorem accounted_empty : Accounted (emptyTable : Table A) (fun _ : B => none) fun _ => [] where
  linked := ⟨⟨fun _ _ => rfl, fun _ _ => List.nodup_nil, nofun⟩, fun _ _ => trivial⟩
  live_iff a := by simp [emptyTable]
  slot := nofun
  allocations := nofun
  positive := nofun
  recorded := nofun
  count := Counting.counts_zero (by simp [emptyTable])

theorem inv_start : Inv (start : State T A B) :=
  ⟨⟨rfl, ⟨_, accounted_empty⟩, nofun, fun _ _ => rfl⟩, fun _ => trivial⟩

/-- `leak_realloc` can read the size of a block with an entry. -/
theorem entry_live (hs : Sound s) (he : (s.entry b).isSome = true) :
    ¬ (s.entry b).all (fun a => !s.table.live a) = true := by
  obtain ⟨a, ha⟩ := isSome_iff_exists.1 he
  obtain ⟨hd, hh, ha'⟩ := bind_eq_some_iff.1 ha
  obtain ⟨chain, hacc⟩ := hs.accounted
  simp [ha, (hacc.recorded b hd a hh ha').1]

/-! ## A block changes hands -/

variable [DecidableEq B]

theorem give_self (hb : s.owner b = o) : s.give b o = s := by
  unfold State.give
  rw [← hb, update_eq_self]

theorem write_self : s.write b (s.header b) s.table = s := by
  unfold State.write
  rw [update_eq_self]

theorem frames_set (hb : Mine s t b) : Frames t s ((s.write b h m).give b o) := by
  intro u c hu hc
  have hcb : c ≠ b := by
    rintro rfl
    exact hb u hu hc
  exact ⟨(update_of_ne hcb ..).trans hc, update_of_ne hcb ..⟩

theorem Sound.set (hs : Sound s) (ha : ∃ chain, Accounted m (update s.header b h) chain)
    (hc : o = .client → h.isSome = true) (hu : o = .unused → h = none) :
    Sound ((s.write b h m).give b o) := by
  refine ⟨hs.fault, ha, fun c hcl => ?_, fun c hun => ?_⟩
  · change (update s.header b h c).isSome = true
    change update s.owner b o c = .client at hcl
    by_cases hcb : c = b
    · subst hcb
      rw [update_self] at hcl ⊢
      exact hc hcl
    · rw [update_of_ne hcb] at hcl ⊢
      exact hs.client c hcl
  · change update s.header b h c = none
    change update s.owner b o c = .unused at hun
    by_cases hcb : c = b
    · subst hcb
      rw [update_self] at hun ⊢
      exact hu hun
    · rw [update_of_ne hcb] at hun ⊢
      exact hs.unused c hun

theorem frames_give (hb : Mine s t b) (o : Owner T) : Frames t s (s.give b o) := by
  have hf := frames_set (h := s.header b) (m := s.table) (o := o) hb
  rwa [write_self] at hf

theorem Sound.give (hs : Sound s) (hc : o = .client → (s.header b).isSome = true)
    (hu : o = .unused → s.header b = none) : Sound (s.give b o) := by
  have hset := hs.set
    (by rw [update_eq_self]; exact hs.accounted) hc hu
  rwa [write_self] at hset

theorem Has.give (hh : Has s t mem) (hne : mem ≠ b) : Has (s.give b o) t mem :=
  ⟨(update_of_ne hne ..).trans hh.1, hh.2⟩

/-! ## The steps -/

variable [DecidableEq T] {old new base : B} {bytes : Word}

omit [DecidableEq B] in
theorem Inv.move (hi : Inv s) (hs : Sound s') (hf : Frames t s s') (hpc : s'.pc = s.pc)
    (hp : PcOk s' t p) : Inv (s'.goto t p) := by
  refine ⟨⟨hs.fault, hs.accounted, hs.client, hs.unused⟩, fun u => ?_⟩
  change PcOk s' u (update s'.pc t p u)
  by_cases hu : u = t
  · subst hu
    rw [update_self]
    exact hp
  · rw [update_of_ne hu, hpc]
    exact (hi.pcs u).frame hf hu

omit [DecidableEq B] in
theorem goto_self (hpc : s.pc t = p) : s.goto t p = s := by
  unfold State.goto
  rw [← hpc, update_eq_self]

omit [DecidableEq B] in
theorem inv_goto (hi : Inv s) (hp : PcOk s t p) : Inv (s.goto t p) :=
  hi.move hi.toSound (fun _ _ _ hb => ⟨hb, rfl⟩) rfl hp

omit [DecidableEq B] in
theorem inv_begin (hi : Inv s) : Inv (s.goto t (.allocate bytes none)) :=
  inv_goto hi (by simp [PcOk])

theorem inv_take (hi : Inv s) (hb : s.owner old = .client) (he : (s.entry old).isSome = true) :
    Inv ((s.give old (.call t)).goto t (.allocate bytes (some old))) := by
  refine hi.move (hi.give (by simp) (by simp)) (frames_give (mine_of_owner hb (by simp)) _) rfl ?_
  rintro o ⟨⟩
  obtain ⟨a, ha⟩ := isSome_iff_exists.1 he
  obtain ⟨hd, hh, ha⟩ := bind_eq_some_iff.1 ha
  exact ⟨update_self .., a, hd, hh, ha⟩

/-- No memory: the client has the old block again. -/
theorem inv_giveBack (hi : Inv s) (hpc : s.pc t = .allocate bytes (some old)) :
    Inv ((s.give old .client).goto t .idle) := by
  have hp := hi.pcs t
  rw [hpc] at hp
  obtain ⟨hold, a, hd, hh, -⟩ := hp old rfl
  refine hi.move (hi.give ?_ (by simp)) (frames_give (mine_of_call hold) _) rfl trivial
  intro _
  rw [hh]
  rfl

theorem inv_allocate {old : Option B} (hi : Inv s) (hpc : s.pc t = .allocate bytes old)
    (hb : s.owner base = .unused) :
    Inv ((s.give base (.call t)).goto t (.record base bytes old)) := by
  have hp := hi.pcs t
  rw [hpc] at hp
  refine hi.move (hi.give (by simp) (by simp)) (frames_give (mine_of_owner hb (by simp)) _) rfl ?_
  refine ⟨update_self .., hi.unused base hb, fun o ho => (hp o ho).give ?_⟩
  rintro rfl
  rw [(hp o ho).1] at hb
  cases hb

variable [DecidableEq A]

theorem inv_record {old : Option B} (hi : Inv s) (hpc : s.pc t = .record base bytes old)
    {backtrace : List Word} {entry : Option A} (hfresh : entry.any s.table.live = false)
    (hs : s.after ((recordBacktrace s.table s.zygoteChild backtrace bytes entry).bind fun r =>
      .ok ((s.write base (some ⟨r.2, bytes, backtrace⟩) r.1).malloced t base old)) = some s') :
    Inv s' := by
  have hp := hi.pcs t
  rw [hpc] at hp
  obtain ⟨hbase, hnone, hold⟩ := hp
  obtain ⟨chain, hacc⟩ := hi.accounted
  have hnew : ∀ a, entry = some a → s.table.live a = false := by
    rintro a rfl
    exact hfresh
  rcases hacc.record hnone s.zygoteChild backtrace bytes hnew with
    haborts | ⟨m, e, chain', hok, hacc'⟩
  · rw [haborts] at hs
    cases hs
  · rw [hok] at hs
    cases hs
    have hframes : ∀ o, Frames t s ((s.write base (some ⟨e, bytes, backtrace⟩) m).give base o) :=
      fun o => frames_set (mine_of_call hbase)
    cases old with
    | none => exact hi.move (hi.set ⟨chain', hacc'⟩ (by simp) (by simp)) (hframes _) rfl trivial
    | some old =>
      -- the block stays with the call
      have hstay := give_self (s := s.write base (some ⟨e, bytes, backtrace⟩) m) hbase
      have hne : old ≠ base := by
        rintro rfl
        obtain ⟨-, a, ha⟩ := hold old rfl
        exact not_pointsTo hnone a ha
      obtain ⟨hown, a, hd, hh, ha⟩ := hold old rfl
      rw [← hstay]
      refine hi.move (hi.set ⟨chain', hacc'⟩ (by simp) (by simp)) (hframes _) rfl ?_
      refine ⟨hne.symm, update_self .., ?_, ?_, a, hd, ?_, ha⟩
      · change (update s.header base _ base).isSome = true
        rw [update_self]
        rfl
      · exact (update_of_ne hne ..).trans hown
      · exact (update_of_ne hne ..).trans hh

omit [DecidableEq T] in
theorem leakFree_spec (hs : Sound s) {a : A} (hp : PointsTo s.header a mem) :
    ∃ m, leakFree s mem = .ok ((s.write mem none m).give mem .unused) ∧
      Sound ((s.write mem none m).give mem .unused) := by
  obtain ⟨chain, hacc⟩ := hs.accounted
  obtain ⟨m, chain', hok, hacc'⟩ := hacc.release hp
  refine ⟨m, ?_, hs.set ⟨chain', hacc'⟩ (by simp) (by simp)⟩
  obtain ⟨hd, hh, ha⟩ := hp
  unfold leakFree State.entry
  rw [hh, bind_some, ha, hok]
  rfl

theorem inv_free (hi : Inv s) (hpc : s.pc t = .idle) (hb : s.owner mem = .client)
    (he : (s.entry mem).isSome = true) (hs : s.after (leakFree s mem) = some s') : Inv s' := by
  obtain ⟨a, ha⟩ := isSome_iff_exists.1 he
  obtain ⟨m, hok, hsound⟩ := leakFree_spec hi.toSound (bind_eq_some_iff.1 ha)
  rw [hok] at hs
  cases hs
  rw [← goto_self hpc]
  exact hi.move hsound (frames_set (mine_of_owner hb (by simp))) rfl trivial

theorem inv_release (hi : Inv s) (hpc : s.pc t = .release new old)
    (hs : s.after ((leakFree s old).bind fun s => .ok ((s.give new .client).goto t .idle)) =
      some s') : Inv s' := by
  have hp := hi.pcs t
  rw [hpc] at hp
  obtain ⟨hne, hnew, hsome, hold, a, ha⟩ := hp
  obtain ⟨m, hok, hsound⟩ := leakFree_spec hi.toSound ha
  rw [hok] at hs
  cases hs
  have hnew' : ((s.write old none m).give old .unused).owner new = .call t :=
    (update_of_ne hne ..).trans hnew
  have hhead : ((s.write old none m).give old .unused).header new = s.header new :=
    update_of_ne hne ..
  refine hi.move (hsound.give (fun _ => by rw [hhead]; exact hsome) (by simp)) ?_ rfl trivial
  exact (frames_set (mine_of_call hold)).trans (frames_give (mine_of_call hnew') _)

theorem inv_step {a : Act T A B} (hi : Inv s) (hg : HasEntry s a) (hs : step s a = some s') :
    Inv s' := by
  revert hs
  fun_cases step s a with
  | case2 | case5 | case7 =>
    rintro ⟨⟩
    exact inv_begin hi
  | case4 | case13 =>
    rintro ⟨⟩
    exact hi
  | case10 _ _ _ _ _ _ hall => exact absurd hall (entry_live hi.toSound hg)
  | case11 _ _ _ _ _ hb _ =>
    rintro ⟨⟩
    exact inv_take hi (not_not.1 hb) hg
  | case16 _ _ _ hpc hb =>
    intro hs
    exact inv_free hi hpc (not_not.1 hb) hg hs
  | case18 =>
    rintro ⟨⟩
    exact inv_goto hi trivial
  | case19 _ _ _ _ hpc =>
    rintro ⟨⟩
    exact inv_giveBack hi hpc
  | case21 _ _ _ _ _ hpc hb =>
    rintro ⟨⟩
    exact inv_allocate hi hpc (not_not.1 hb)
  | case24 _ _ _ _ _ _ _ hpc hfresh =>
    intro hs
    exact inv_record hi hpc (Bool.eq_false_iff.2 hfresh) hs
  | case26 _ _ _ _ hpc =>
    intro hs
    exact inv_release hi hpc hs
  | case28 =>
    rintro ⟨⟩
    exact ⟨⟨hi.fault, hi.accounted, hi.client, hi.unused⟩, hi.pcs⟩
  | _ => rintro ⟨⟩

theorem fault_step {a : Act T A B} (hg : ¬ HasEntry s a) (hs : step s a = some s') :
    s'.fault = true := by
  revert hs
  fun_cases step s a with
  | case10 =>
    rintro ⟨⟩
    rfl
  | case11 _ _ old _ _ _ hall =>
    have hnone := not_isSome_iff_eq_none.1 hg
    simp [hnone] at hall
  | case16 _ _ mem =>
    have hnone := not_isSome_iff_eq_none.1 hg
    rw [leakFree, hnone]
    rintro ⟨⟩
    rfl
  | case2 | case4 | case5 | case7 | case13 | case18 | case19 | case21 | case24 | case26 | case28 =>
    exact absurd trivial hg
  | _ => rintro ⟨⟩

theorem reachable_inv (h : (machine T A B).ReachableIf HasEntry s) : Inv s := by
  refine Machine.ReachableIf.invariant ?_ ?_ h
  · rintro s rfl
    exact inv_start
  · intro s a s' hi hg hs
    exact inv_step hi hg hs

/-! ## Main result -/

/-- As long as every block that is freed or reallocated has an entry, the table accounts for the
blocks and no call faults; the step that frees or reallocates one without an entry faults. -/
theorem accounted_iff (h : (machine T A B).ReachableIf HasEntry s) :
    Sound s ∧ ∀ a s', step s a = some s' → (Sound s' ↔ HasEntry s a) := by
  have hi := reachable_inv h
  refine ⟨hi.toSound, fun a s' hs => ⟨fun hsound => ?_, fun hg => (inv_step hi hg hs).toSound⟩⟩
  by_contra hg
  have hfault := fault_step hg hs
  rw [hsound.fault] at hfault
  cases hfault

end

def twoBlocks : List (Act Bool Nat Nat) :=
  [.malloc false 8, .dlmalloc false (some 0), .calloc true 2 4, .record false [4] (some 0),
    .dlmalloc true (some 1), .record true [4] none]

theorem accounted_iff_twoBlocks :
    ∃ s : State Bool Nat Nat, (machine Bool Nat Nat).ReachableIf HasEntry s ∧
      s.table.allocations 0 = 2 ∧ Sound s ∧
      ∀ s', step s (.free false (some 1)) = some s' → Sound s' := by
  have hrun : (((machine Bool Nat Nat).runIf HasEntry start twoBlocks).map fun s =>
      (s.table.allocations 0, s.entry 1)) = some (2, some 0) := by decide +kernel
  obtain ⟨s, hs, hend⟩ := map_eq_some_iff.1 hrun
  have hreach : (machine Bool Nat Nat).ReachableIf HasEntry s :=
    Machine.ReachableIf.runIf (.init rfl) _ hs
  obtain ⟨hcount, hentry⟩ := Prod.mk.inj hend
  obtain ⟨hsound, hstep⟩ := accounted_iff hreach
  refine ⟨s, hreach, hcount, hsound, fun s' hs' => (hstep _ s' hs').2 ?_⟩
  change (s.entry 1).isSome = true
  rw [hentry]
  rfl

/-- There is memory for the block and none for its entry; `leak_free` then reads through `NULL`. -/
theorem unrecorded_free :
    ∃ s : State Unit Unit Unit, (machine Unit Unit Unit).Reachable s ∧ s.fault = true ∧
      ¬ Sound s := by
  have hrun : (((machine Unit Unit Unit).run start
      [.malloc () 8, .dlmalloc () (some ()), .record () [4] none, .free () (some ())]).map
      State.fault) = some true := by decide +kernel
  obtain ⟨s, hs, hfault⟩ := map_eq_some_iff.1 hrun
  refine ⟨s, Machine.Reachable.run (.init rfl) _ hs, hfault, fun hsound => ?_⟩
  rw [hsound.fault] at hfault
  cases hfault

end Malloc.Leak
