import Mathlib.Logic.Function.Basic
import GitTest.Lib.Count
import GitTest.Lib.Doubly

/-!
# The table of the leak checker (libc/bionic/malloc_debug_leak.c)

Every block has a header that points to the entry of its size and backtrace; the entries are in a
hash table with doubly linked chains, and an entry counts the blocks that point to it.  This module
has the functions on the table, which run under `gAllocationsMutex`, and what they keep; the
threads that call them are in `GitTest.Malloc.Leak`.

A field of the entries is a function of their address; `live` says which entries are allocated.  To
read or write an entry through `NULL`, or one that is not live, is a fault.

    Accounted m header chain → `recordBacktrace` for a new block does not fault, and its result is
      accounted for with the header of the block  (Accounted.record)
    Accounted m header chain → the same for `releaseEntry`, which is what `leak_free` does with the
      entry of a block, if the header has one  (Accounted.release)
-/

namespace Malloc.Leak

open Counting Function Links List

/-! ## Algorithm -/

abbrev Word := BitVec 32

def hashtableSize : Nat := 1543

/-- `SIZE_FLAG_ZYGOTE_CHILD`, which is also `SIZE_FLAG_MASK` -/
def sizeFlagMask : Word := 0x80000000#32

structure Table (A : Type) where
  slots : Nat → Option A
  count : Nat
  live : A → Bool
  slot : A → Nat
  prev : A → Option A
  next : A → Option A
  size : A → Word
  allocations : A → Nat
  backtrace : A → List Word

inductive Result (X : Type)
  | ok (x : X)
  | aborts
  | faults

def Result.bind {X Y : Type} : Result X → (X → Result Y) → Result Y
  | .ok x, f => f x
  | .aborts, _ => .aborts
  | .faults, _ => .faults

/-- The arithmetic is the one of `int`; it wraps around, and `>>` keeps the sign. -/
def getHash (backtrace : List Word) : Word :=
  backtrace.foldl (fun hash address => hash * 33 + address.sshiftRight 2) 0

section
variable {A : Type} [DecidableEq A]

/-- The loop of `find_entry`; `none` is a fault, or a chain without an end. -/
def findLoop (m : Table A) (backtrace : List Word) (size : Word) :
    Nat → Option A → Option (Option A)
  | 0, _ => none
  | _ + 1, none => some none
  | fuel + 1, some entry =>
    if m.live entry = false then none
    else if m.size entry = size ∧ m.backtrace entry = backtrace then some (some entry)
    else findLoop m backtrace size fuel (m.next entry)

/-- No chain has more entries than the table. -/
def findEntry (m : Table A) (slot : Nat) (backtrace : List Word) (size : Word) :
    Option (Option A) :=
  findLoop m backtrace size (m.count + 1) (m.slots slot)

/-- `if (p != NULL) p->next = v` -/
def writeNext (m : Table A) (p v : Option A) : Result (Table A) :=
  match p with
  | none => .ok m
  | some a =>
    if m.live a = false then .faults else .ok { m with next := Function.update m.next a v }

/-- `if (p != NULL) p->prev = v` -/
def writePrev (m : Table A) (p v : Option A) : Result (Table A) :=
  match p with
  | none => .ok m
  | some a =>
    if m.live a = false then .faults else .ok { m with prev := Function.update m.prev a v }

def insertEntry (m : Table A) (entry : A) (slot : Nat) (backtrace : List Word) (size : Word) :
    Result (Table A) :=
  let m := { m with
    live := Function.update m.live entry true
    allocations := Function.update m.allocations entry 1
    slot := Function.update m.slot entry slot
    prev := Function.update m.prev entry none
    next := Function.update m.next entry (m.slots slot)
    size := Function.update m.size entry size
    backtrace := Function.update m.backtrace entry backtrace
    slots := Function.update m.slots slot (some entry) }
  (writePrev m (m.next entry) (some entry)).bind fun m => .ok { m with count := m.count + 1 }

/-- `fresh` is what `dlmalloc` returns, if a new entry is needed. -/
def recordBacktrace (m : Table A) (zygoteChild : Bool) (backtrace : List Word) (size : Word)
    (fresh : Option A) : Result (Table A × Option A) :=
  let slot := (getHash backtrace).toNat % hashtableSize
  if size &&& sizeFlagMask ≠ 0 then .aborts
  else
    let size := if zygoteChild then size ||| sizeFlagMask else size
    match findEntry m slot backtrace size with
    | none => .faults
    | some (some entry) =>
      .ok ({ m with
        allocations := Function.update m.allocations entry (m.allocations entry + 1) }, some entry)
    | some none =>
      match fresh with
      | none => .ok (m, none)
      | some entry =>
        (insertEntry m entry slot backtrace size).bind fun m => .ok (m, some entry)

def removeEntry (m : Table A) (entry : A) : Result (Table A) :=
  let prev := m.prev entry
  let next := m.next entry
  (writeNext m prev next).bind fun m =>
  (writePrev m (m.next entry) prev).bind fun m =>
    let slots :=
      if prev = none then Function.update m.slots (m.slot entry) (m.next entry) else m.slots
    .ok { m with slots, count := m.count - 1 }

/-- What `leak_free` does with `header->entry`. -/
def releaseEntry (m : Table A) (entry : Option A) : Result (Table A) :=
  match entry with
  | none => .faults
  | some entry =>
    if m.live entry = false then .faults
    else
      let m := { m with
        allocations := Function.update m.allocations entry (m.allocations entry - 1) }
      if m.allocations entry = 0 then
        (removeEntry m entry).bind fun m =>
          .ok { m with live := Function.update m.live entry false }
      else .ok m

/-! ## What it is for -/

/-- The header of a block, with the size and the backtrace that the block was allocated with. -/
structure Header (A : Type) where
  entry : Option A
  bytes : Word
  backtrace : List Word

def PointsTo {B : Type} (header : B → Option (Header A)) (a : A) (b : B) : Prop :=
  ∃ h, header b = some h ∧ h.entry = some a

def IsSlot (i : Nat) : Prop := i < hashtableSize

/-- The table accounts for the headers: `chain` are its chains, linked in both directions, their
entries are the live ones and know their slot, each of them counts the blocks that point to it and
has their size and backtrace. -/
structure Accounted {B : Type} (m : Table A) (header : B → Option (Header A))
    (chain : Nat → List A) : Prop where
  linked : Doubly (fun _ => id) IsSlot m.slots m.next m.prev chain
  live_iff : ∀ a, m.live a = true ↔ ∃ i, IsSlot i ∧ a ∈ chain i
  slot : ∀ i, IsSlot i → ∀ a ∈ chain i, m.slot a = i
  allocations : ∀ a, m.live a = true → Counts (PointsTo header a) (m.allocations a)
  positive : ∀ a, m.live a = true → 0 < m.allocations a
  recorded : ∀ b h a, header b = some h → h.entry = some a →
    m.live a = true ∧ m.size a &&& ~~~sizeFlagMask = h.bytes ∧ m.backtrace a = h.backtrace
  count : Counts (fun a => m.live a = true) m.count

end

/-! ## Searching -/

section
variable {A B : Type} {m : Table A} {header : B → Option (Header A)} {chain : Nat → List A}

variable {p : Option A} {i n : Nat} {a : A} {hd : Header A}

theorem findLoop_spec {l : List A} (h : Seg m.next p l none) (hl : ∀ a ∈ l, m.live a = true)
    (backtrace : List Word) (size : Word) {fuel : Nat} (hf : l.length < fuel) :
    findLoop m backtrace size fuel p = some none ∨
      ∃ a ∈ l, findLoop m backtrace size fuel p = some (some a) ∧
        m.size a = size ∧ m.backtrace a = backtrace := by
  induction l generalizing p fuel with
  | nil =>
    cases h
    cases fuel with
    | zero => cases hf
    | succ fuel => exact .inl rfl
  | cons a l ih =>
    obtain ⟨rfl, h⟩ := h
    cases fuel with
    | zero => cases hf
    | succ fuel =>
      have hlive : ¬ m.live a = false := by simp [hl a mem_cons_self]
      rw [findLoop, if_neg hlive]
      split
      · next hmatch => exact .inr ⟨a, mem_cons_self, rfl, hmatch⟩
      · rcases ih h (fun b hb => hl b (mem_cons_of_mem a hb)) (Nat.lt_of_succ_lt_succ hf) with
          hnone | ⟨b, hb, hfound⟩
        · exact .inl hnone
        · exact .inr ⟨b, mem_cons_of_mem a hb, hfound⟩

theorem Accounted.findEntry (h : Accounted m header chain) (hi : IsSlot i) (backtrace : List Word)
    (size : Word) :
    findEntry m i backtrace size = some none ∨
      ∃ a, findEntry m i backtrace size = some (some a) ∧ m.live a = true ∧
        m.size a = size ∧ m.backtrace a = backtrace := by
  have hlive : ∀ a ∈ chain i, m.live a = true := fun a ha => (h.live_iff a).2 ⟨i, hi, ha⟩
  have hlen : (chain i).length < m.count + 1 :=
    Nat.lt_succ_of_le (h.count.length_le (h.linked.nodup i hi) hlive)
  rcases findLoop_spec (h.linked.seg i hi) hlive backtrace size hlen with hnone | ⟨a, ha, hfound⟩
  · exact .inl hnone
  · exact .inr ⟨a, hfound.1, hlive a ha, hfound.2⟩

/-! ## Writing -/

/-- A pointer that can be written through, if it is not `NULL`. -/
def Writable (m : Table A) (p : Option A) : Prop := ∀ a, p = some a → m.live a = true

theorem writeNext_eq [DecidableEq A] (h : Writable m p) (v : Option A) :
    writeNext m p v = .ok { m with next := storeBack m.next v p } := by
  cases p with
  | none => rfl
  | some a =>
    have hlive : ¬ m.live a = false := by simp [h a rfl]
    exact if_neg hlive

theorem writePrev_eq [DecidableEq A] (h : Writable m p) (v : Option A) :
    writePrev m p v = .ok { m with prev := storeBack m.prev v p } := by
  cases p with
  | none => rfl
  | some a =>
    have hlive : ¬ m.live a = false := by simp [h a rfl]
    exact if_neg hlive

/-! ## A block more -/

theorem size_without_flag {size : Word} (h : size &&& sizeFlagMask = 0) (zygoteChild : Bool) :
    (if zygoteChild then size ||| sizeFlagMask else size) &&& ~~~sizeFlagMask = size := by
  have hoff : size &&& ~~~sizeFlagMask = size := by
    ext i hi
    have hbit := congrArg (fun w : Word => w.getLsbD i) h
    simp only [BitVec.getElem_and, BitVec.getElem_not]
    rw [← BitVec.getLsbD_eq_getElem, ← BitVec.getLsbD_eq_getElem]
    cases hs : sizeFlagMask.getLsbD i with
    | false => simp
    | true => simpa [hs] using hbit.symm
  split
  · rw [BitVec.and_comm, BitVec.and_or_distrib_left, BitVec.and_comm, hoff]
    simp
  · exact hoff

variable {b : B}

theorem not_pointsTo (hb : header b = none) (a : A) : ¬ PointsTo header a b := by
  rintro ⟨hd, h, -⟩
  rw [hb] at h
  cases h

theorem PointsTo.inj {a' : A} (h : PointsTo header a b) (h' : PointsTo header a' b) : a' = a := by
  obtain ⟨hd, hb, ha⟩ := h
  obtain ⟨hd', hb', ha'⟩ := h'
  rw [hb] at hb'
  cases hb'
  rw [ha] at ha'
  cases ha'
  rfl

variable [DecidableEq B]

theorem pointsTo_update {o : Option (Header A)} {u : B} :
    PointsTo (update header b o) a u ↔
      u = b ∧ (∃ hd, o = some hd ∧ hd.entry = some a) ∨ u ≠ b ∧ PointsTo header a u := by
  unfold PointsTo
  by_cases hu : u = b
  · subst hu
    simp
  · simp [hu]

theorem counts_new (h : Counts (PointsTo header a) n) (hb : header b = none)
    (hd' : hd.entry = some a) :
    Counts (PointsTo (update header b (some hd)) a) (n + 1) := by
  refine h.add b (not_pointsTo hb a) fun u => ?_
  rw [pointsTo_update]
  by_cases hu : u = b
  · simp [hu, hd']
  · simp [hu]

theorem counts_same {o : Option (Header A)} (h : Counts (PointsTo header a) n)
    (hb : ¬ PointsTo header a b) (ho : ∀ hd, o = some hd → hd.entry ≠ some a) :
    Counts (PointsTo (update header b o) a) n := by
  refine h.congr fun u => ?_
  rw [pointsTo_update]
  by_cases hu : u = b
  · subst hu
    simpa [hb] using ho
  · simp [hu]

theorem recorded_new {P : Header A → A → Prop} (hnew : ∀ a, hd.entry = some a → P hd a)
    (hold : ∀ u h a, header u = some h → h.entry = some a → P h a) (u : B) (h : Header A) (a : A)
    (hu : update header b (some hd) u = some h) (ha : h.entry = some a) : P h a := by
  by_cases hub : u = b
  · subst hub
    rw [update_self] at hu
    cases hu
    exact hnew a ha
  · rw [update_of_ne hub] at hu
    exact hold u h a hu ha

theorem counts_gone (h : Counts (PointsTo header a) n) (hb : PointsTo header a b) :
    Counts (PointsTo (update header b none) a) (n - 1) := by
  refine h.remove b hb fun u => ?_
  rw [pointsTo_update]
  simp [and_comm]

theorem header_of_update {c : B} (h : update header b none c = some hd) :
    c ≠ b ∧ header c = some hd := by
  by_cases hcb : c = b
  · rw [hcb, update_self] at h
    cases h
  · rw [update_of_ne hcb] at h
    exact ⟨hcb, h⟩

variable [DecidableEq A]

section
variable (h : Accounted m header chain)
include h

omit [DecidableEq A] in
/-- No memory for a new entry: the header has none. -/
theorem Accounted.unrecorded (hb : header b = none) (bytes : Word) (backtrace : List Word) :
    Accounted m (update header b (some ⟨none, bytes, backtrace⟩)) chain where
  linked := h.linked
  live_iff := h.live_iff
  slot := h.slot
  allocations a ha := counts_same (h.allocations a ha) (not_pointsTo hb a) (by simp)
  positive := h.positive
  recorded := recorded_new (by simp) h.recorded
  count := h.count

/-- The entry is there: it counts one block more. -/
theorem Accounted.increment (hb : header b = none) (ha : m.live a = true) {bytes : Word}
    {backtrace : List Word} (hsize : m.size a &&& ~~~sizeFlagMask = bytes)
    (hback : m.backtrace a = backtrace) :
    Accounted { m with allocations := update m.allocations a (m.allocations a + 1) }
      (update header b (some ⟨some a, bytes, backtrace⟩)) chain where
  linked := h.linked
  live_iff := h.live_iff
  slot := h.slot
  allocations := by
    refine (forall_update_iff m.allocations
      (p := fun u n => m.live u = true → Counts (PointsTo _ u) n)).2 ⟨fun _ => ?_, ?_⟩
    · exact counts_new (h.allocations a ha) hb rfl
    · intro u hua hu
      exact counts_same (h.allocations u hu) (not_pointsTo hb u) (by simpa using Ne.symm hua)
  positive := by
    refine (forall_update_iff m.allocations
      (p := fun u n => m.live u = true → 0 < n)).2 ⟨fun _ => ?_, ?_⟩
    · exact Nat.succ_pos _
    · exact fun u _ => h.positive u
  recorded := by
    refine recorded_new ?_ h.recorded
    rintro u ⟨⟩
    exact ⟨ha, hsize, hback⟩
  count := h.count

omit [DecidableEq B] in
/-- The old head of the chain is live, so its link back can be written. -/
theorem Accounted.insertEntry_eq (hi : IsSlot i) (a : A) (backtrace : List Word) (size : Word) :
    insertEntry m a i backtrace size = .ok
      { live := update m.live a true
        allocations := update m.allocations a 1
        slot := update m.slot a i
        prev := storeBack (update m.prev a none) (some a) (m.slots i)
        next := update m.next a (m.slots i)
        size := update m.size a size
        backtrace := update m.backtrace a backtrace
        slots := update m.slots i (some a)
        count := m.count + 1 } := by
  have hlive : ∀ n, m.slots i = some n → update m.live a true n = true := by
    intro n hs
    have hhead := (h.linked.seg i hi).head_eq
    have hmem : n ∈ chain i := mem_of_mem_head? (by rw [← hhead, hs]; rfl)
    by_cases hna : n = a
    · rw [hna, update_self]
    · rw [update_of_ne hna]
      exact (h.live_iff n).2 ⟨i, hi, hmem⟩
  unfold insertEntry
  dsimp only
  rw [update_self, writePrev_eq]
  · rfl
  · exact hlive

/-- A new entry, which one block points to. -/
theorem Accounted.insert (hb : header b = none) (hi : IsSlot i) (ha : m.live a = false)
    {size bytes : Word} {backtrace : List Word} (hsize : size &&& ~~~sizeFlagMask = bytes) :
    ∃ m', insertEntry m a i backtrace size = .ok m' ∧
      Accounted m' (update header b (some ⟨some a, bytes, backtrace⟩))
        (update chain i (a :: chain i)) := by
  have hne : ∀ u, m.live u = true → u ≠ a := by
    rintro u hu rfl
    rw [ha] at hu
    cases hu
  have hnot : ∀ j, IsSlot j → a ∉ chain j := by
    intro j hj hm
    exact hne a ((h.live_iff a).2 ⟨j, hj, hm⟩) rfl
  refine ⟨_, h.insertEntry_eq hi a backtrace size, ?_⟩
  constructor
  case linked => exact h.linked.push hi hnot
  case live_iff =>
    intro u
    dsimp only
    by_cases hua : u = a
    · subst hua
      rw [update_self]
      exact iff_of_true rfl ⟨i, hi, mem_update_cons.2 (.inr ⟨rfl, rfl⟩)⟩
    · rw [update_of_ne hua, h.live_iff u]
      simp [mem_update_cons, hua]
  case slot =>
    intro j hj u hu
    dsimp only
    rcases mem_update_cons.1 hu with hu | ⟨rfl, rfl⟩
    · rw [update_of_ne (hne u ((h.live_iff u).2 ⟨j, hj, hu⟩))]
      exact h.slot j hj u hu
    · exact update_self ..
  case allocations =>
    intro u hu
    dsimp only at hu ⊢
    by_cases hua : u = a
    · subst hua
      rw [update_self]
      refine counts_new (counts_zero ?_) hb rfl
      rintro c ⟨hd, hc, hentry⟩
      exact hne u (h.recorded c hd u hc hentry).1 rfl
    · rw [update_of_ne hua] at hu ⊢
      exact counts_same (h.allocations u hu) (not_pointsTo hb u) (by simpa using Ne.symm hua)
  case positive =>
    intro u hu
    dsimp only at hu ⊢
    by_cases hua : u = a
    · rw [hua, update_self]
      exact Nat.one_pos
    · rw [update_of_ne hua] at hu ⊢
      exact h.positive u hu
  case recorded =>
    refine recorded_new ?_ fun c hd u hc hu => ?_
    · rintro u ⟨⟩
      simp [hsize]
    · obtain ⟨hlive, hrecord⟩ := h.recorded c hd u hc hu
      simp [hne u hlive, hlive, hrecord]
  case count =>
    refine h.count.add a (by simp [ha]) fun u => ?_
    by_cases hua : u = a
    · simp [hua]
    · simp [hua]

/-- `record_backtrace` for a new block, which the header of the block then points to. -/
theorem Accounted.record (hb : header b = none) (zygoteChild : Bool) (backtrace : List Word)
    (bytes : Word) {fresh : Option A} (hfresh : ∀ a, fresh = some a → m.live a = false) :
    recordBacktrace m zygoteChild backtrace bytes fresh = .aborts ∨
      ∃ m' entry chain', recordBacktrace m zygoteChild backtrace bytes fresh = .ok (m', entry) ∧
        Accounted m' (update header b (some ⟨entry, bytes, backtrace⟩)) chain' := by
  unfold recordBacktrace
  dsimp only
  split
  · exact .inl rfl
  · next hflag =>
    right
    have hslot : IsSlot ((getHash backtrace).toNat % hashtableSize) :=
      Nat.mod_lt _ (by decide)
    have hsize := size_without_flag (not_not.1 hflag) zygoteChild
    rcases h.findEntry hslot backtrace (if zygoteChild then bytes ||| sizeFlagMask else bytes) with
      hnone | ⟨a, hfound, hlive, hsa, hba⟩
    · rw [hnone]
      cases fresh with
      | none => exact ⟨m, none, chain, rfl, h.unrecorded hb bytes backtrace⟩
      | some a =>
        obtain ⟨m', heq, hm'⟩ := h.insert hb hslot (hfresh a rfl) hsize
        dsimp only
        rw [heq]
        exact ⟨m', some a, _, rfl, hm'⟩
    · rw [hfound]
      exact ⟨_, some a, chain, rfl, h.increment hb hlive (by rw [hsa, hsize]) hba⟩

end

/-! ## A block less -/

/-- The entries before and behind the one that goes are live. -/
theorem removeEntry_eq (h : Doubly (fun _ => id) IsSlot m.slots m.next m.prev chain) (hi : IsSlot i)
    {pre post : List A} (hc : chain i = pre ++ a :: post)
    (hlive : ∀ u ∈ pre ++ a :: post, m.live u = true) (hslot : m.slot a = i) :
    removeEntry m a = .ok { m with
      slots := storeHead m.slots (m.next a) (slotAfter i pre)
      next := storeLink m.next (m.next a) (slotAfter i pre)
      prev := storeBack m.prev (m.prev a) (m.next a)
      count := m.count - 1 } := by
  have hprev : m.prev a = pre.getLast? := h.back_eq hi hc
  have hnext : m.next a = post.head? := h.next_eq hi hc
  have hwp : Writable m (m.prev a) := by
    intro p hp
    have hmem : p ∈ pre := mem_of_getLast? (by rw [← hprev, hp])
    exact hlive p (by simp [hmem])
  have hwn : Writable m (m.next a) := by
    intro q hq
    have hmem : q ∈ post := mem_of_mem_head? (by rw [← hnext, hq]; rfl)
    exact hlive q (by simp [hmem])
  -- `entry->next` is read again after the write
  have hown : storeBack m.next (m.next a) (m.prev a) a = m.next a := by
    cases m.prev a with
    | none => rfl
    | some p =>
      rw [storeBack, update_apply]
      exact ite_self _
  unfold removeEntry
  dsimp only
  rw [writeNext_eq hwp, Result.bind]
  dsimp only
  rw [hown, writePrev_eq]
  · rw [Result.bind]
    rw [hslot]
    unfold slotAfter
    rw [← hprev]
    cases m.prev a with
    | none => rfl
    | some p => rfl
  · exact hwn

section
variable (h : Accounted m header chain) (hb : PointsTo header a b)
include h hb

theorem Accounted.decrement (hmore : m.allocations a - 1 ≠ 0) :
    Accounted { m with allocations := update m.allocations a (m.allocations a - 1) }
      (update header b none) chain where
  linked := h.linked
  live_iff := h.live_iff
  slot := h.slot
  allocations := by
    refine (forall_update_iff m.allocations
      (p := fun u n => m.live u = true → Counts (PointsTo _ u) n)).2 ⟨?_, ?_⟩
    · intro ha
      exact counts_gone (h.allocations a ha) hb
    · intro u hua hu
      exact counts_same (h.allocations u hu) (fun hu => hua (hb.inj hu)) (by simp)
  positive := by
    refine (forall_update_iff m.allocations
      (p := fun u n => m.live u = true → 0 < n)).2 ⟨fun _ => ?_, ?_⟩
    · exact Nat.pos_of_ne_zero hmore
    · exact fun u _ => h.positive u
  recorded c hd u hc := h.recorded c hd u (header_of_update hc).2
  count := h.count

/-- The block was the last one of the entry. -/
theorem Accounted.remove (hlast : m.allocations a - 1 = 0) (hi : IsSlot i) {pre post : List A}
    (hc : chain i = pre ++ a :: post) (n : Nat) :
    Accounted { m with
      allocations := update m.allocations a n
      slots := storeHead m.slots (m.next a) (slotAfter i pre)
      next := storeLink m.next (m.next a) (slotAfter i pre)
      prev := storeBack m.prev (m.prev a) (m.next a)
      count := m.count - 1
      live := update m.live a false }
      (update header b none) (update chain i (pre ++ post)) := by
  have hlive : m.live a = true := (h.live_iff a).2 ⟨i, hi, by rw [hc]; simp⟩
  have hkept : ∀ u, update m.live a false u = true ↔ m.live u = true ∧ u ≠ a := by
    intro u
    by_cases hua : u = a
    · simp [hua]
    · simp [hua]
  have hnone : ∀ c, ¬ PointsTo (update header b none) a c := by
    intro c hp
    have hpos := (counts_gone (h.allocations a hlive) hb).pos c hp
    omega
  constructor
  case linked => exact h.linked.remove hi hc
  case live_iff =>
    intro u
    rw [hkept, h.live_iff]
    constructor
    · rintro ⟨⟨j, hj, hu⟩, hua⟩
      exact ⟨j, hj, (h.linked.toChains.mem_remove hi hj hc).2 ⟨hu, hua⟩⟩
    · rintro ⟨j, hj, hu⟩
      obtain ⟨hu, hua⟩ := (h.linked.toChains.mem_remove hi hj hc).1 hu
      exact ⟨⟨j, hj, hu⟩, hua⟩
  case slot =>
    intro j hj u hu
    exact h.slot j hj u ((h.linked.toChains.mem_remove hi hj hc).1 hu).1
  case allocations =>
    intro u hu
    obtain ⟨hu, hua⟩ := (hkept u).1 hu
    dsimp only
    rw [update_of_ne hua]
    exact counts_same (h.allocations u hu) (fun hu => hua (hb.inj hu)) (by simp)
  case positive =>
    intro u hu
    obtain ⟨hu, hua⟩ := (hkept u).1 hu
    dsimp only
    rw [update_of_ne hua]
    exact h.positive u hu
  case recorded =>
    intro c hd u hcu hu
    obtain ⟨hlive, hrecord⟩ := h.recorded c hd u (header_of_update hcu).2 hu
    refine ⟨(hkept u).2 ⟨hlive, ?_⟩, hrecord⟩
    rintro rfl
    exact hnone c ⟨hd, hcu, hu⟩
  case count => exact h.count.remove a hlive hkept

theorem Accounted.release :
    ∃ m' chain', releaseEntry m (some a) = .ok m' ∧
      Accounted m' (update header b none) chain' := by
  obtain ⟨hd, hbd, ha⟩ := hb
  have hlive : m.live a = true := (h.recorded b hd a hbd ha).1
  have hnot : ¬ m.live a = false := by simp [hlive]
  unfold releaseEntry
  dsimp only
  rw [if_neg hnot]
  split
  · next hlast =>
    rw [update_self] at hlast
    obtain ⟨i, hi, hm⟩ := (h.live_iff a).1 hlive
    obtain ⟨pre, post, hc⟩ := append_of_mem hm
    have hchain : ∀ u ∈ pre ++ a :: post, m.live u = true := by
      intro u hu
      exact (h.live_iff u).2 ⟨i, hi, hc ▸ hu⟩
    -- the count of the entry is already 0, which its links do not depend on
    have hremove := removeEntry_eq
      (m := { m with allocations := update m.allocations a (m.allocations a - 1) })
      h.linked hi hc hchain (h.slot i hi a hm)
    rw [hremove]
    exact ⟨_, _, rfl, h.remove ⟨hd, hbd, ha⟩ hlast hi hc _⟩
  · next hmore =>
    rw [update_self] at hmore
    exact ⟨_, chain, rfl, h.decrement ⟨hd, hbd, ha⟩ hmore⟩

end

end

end Malloc.Leak
