import Mathlib.Algebra.Group.Nat.Defs
import Mathlib.Logic.Function.Basic

/-!
# The malloc checker (libc/bionic/malloc_debug_leak.c)

A block of `chk_malloc` has 16 sentinel bytes before and after the requested bytes, and the
requested size in the last word of what `dlmalloc_usable_size` reports.  `chk_mem_check` compares
a sentinel as a `char`: where `char` is signed, no byte equals 0xeb.

    after a call that returned a block, and writes to the requested bytes, `chk_mem_check` gives 0
      and the size, and -1 once a sentinel byte is another ↔ `char` is unsigned  (checked_iff)

A pointer of the client is given by its block.  Of the log only the numbers are kept.
-/

namespace Malloc.Check

open List

/-! ## Algorithm -/

/-- `size_t` arithmetic. -/
def wrap (n : Nat) : Nat := n % 4294967296

abbrev Memory := Nat → UInt8

def write (m : Memory) (a n : Nat) (f : Nat → UInt8) : Memory := fun x =>
  if a ≤ x ∧ x < a + n then f (x - a) else m x

def memset (m : Memory) (a : Nat) (c : UInt8) (n : Nat) : Memory := write m a n fun _ => c

def memcpy (m : Memory) (dst src n : Nat) : Memory := write m dst n fun i => m (src + i)

def setWord (m : Memory) (a v : Nat) : Memory := write m a 4 fun i => UInt8.ofNat (v / 256 ^ i)

def word (m : Memory) (a : Nat) : Nat :=
  (m a).toNat + 256 * (m (a + 1)).toNat + 65536 * (m (a + 2)).toNat + 16777216 * (m (a + 3)).toNat

/-- What `dlmalloc` returned, with its `dlmalloc_usable_size`. -/
structure Block where
  base : Nat
  usable : Nat
  deriving DecidableEq

/-- The address that the client has. -/
def Block.mem (b : Block) : Nat := b.base + 16

/-- Where the requested size is stored. -/
def Block.sizeAddress (b : Block) : Nat := wrap (b.base + wrap (b.usable + 4294967292))

def chkOverheadSize : Nat := 36

def charValue (signed : Bool) (c : UInt8) : Int := if signed then c.toInt8.toInt else c.toNat

/-- What `chk_mem_check` finds: a good block with its size, or the numbers that it logs. -/
inductive Outcome
  | passed (allocated : Nat)
  | before (corrupted : Nat)
  | after (size corrupted : Nat)
  deriving DecidableEq

/-- What it returns; with `gTrapOnError` it does not return after an error. -/
def Outcome.returns (trapOnError : Bool) : Outcome → Option Int
  | .passed _ => some 0
  | _ => if trapOnError then none else some (-1)

def isCorrupted (signed : Bool) (m : Memory) (buf i : Nat) : Bool :=
  charValue signed (m (buf + i)) ≠ 0xeb

def chkMemCheck (signed : Bool) (m : Memory) (b : Block) : Outcome :=
  match (range 16).find? (isCorrupted signed m b.base) with
  | some i => .before (16 - i)
  | none =>
    let bytes := word m b.sizeAddress
    match (range 16).reverse.find? (isCorrupted signed m (b.mem + bytes)) with
    | some i => .after bytes (i + 1)
    | none => .passed bytes

section
variable (signed : Bool) (m : Memory) (dlmalloc : Nat → Option Block)

def chkMalloc (bytes : Nat) : Option (Block × Memory) :=
  (dlmalloc (wrap (bytes + chkOverheadSize))).map fun b =>
    (b, setWord (memset m b.base 0xeb (wrap (bytes + chkOverheadSize))) b.sizeAddress bytes)

def chkFree (b : Block) : Memory :=
  match chkMemCheck signed m b with
  | .passed size => memset m b.base 0xef (wrap (size + chkOverheadSize))
  | _ => m

def chkCalloc (nElements elemSize : Nat) : Option (Block × Memory) :=
  if nElements ≠ 0 ∧ 4294967295 / nElements < elemSize then none
  else (chkMalloc m dlmalloc (nElements * elemSize)).map fun r =>
    (r.1, memset r.2 r.1.mem 0 (nElements * elemSize))

def chkRealloc (mem : Option Block) (bytes : Nat) : Option (Block × Memory) :=
  match mem with
  | none => chkMalloc m dlmalloc bytes
  | some old =>
    match chkMemCheck signed m old with
    | .passed oldBytes => (chkMalloc m dlmalloc bytes).map fun r =>
      (r.1, chkFree signed (memcpy r.2 r.1.mem old.mem (min bytes oldBytes)) old)
    | _ => none

inductive Call
  | malloc (bytes : Nat)
  | calloc (nElements elemSize : Nat)
  | realloc (mem : Option Block) (bytes : Nat)
  deriving DecidableEq

def Call.run : Call → Option (Block × Memory)
  | malloc bytes => chkMalloc m dlmalloc bytes
  | calloc nElements elemSize => chkCalloc m dlmalloc nElements elemSize
  | realloc mem bytes => chkRealloc signed m dlmalloc mem bytes

end

def Call.bytes : Call → Nat
  | malloc bytes | realloc _ bytes => bytes
  | calloc nElements elemSize => nElements * elemSize

def Call.old : Call → Option Block
  | realloc mem _ => mem
  | malloc _ | calloc _ _ => none

/-! ## The guards -/

/-- The bytes of both sentinels around `n` bytes. -/
def Block.Sentinel (b : Block) (n x : Nat) : Prop :=
  b.base ≤ x ∧ x < b.base + 16 ∨ b.mem + n ≤ x ∧ x < b.mem + n + 16

/-- A block with the requested size and both sentinels. -/
structure Guarded (m : Memory) (b : Block) (n : Nat) : Prop where
  room : n + 36 ≤ b.usable
  space : b.base + b.usable ≤ 4294967296
  sentinel : ∀ x, b.Sentinel n x → m x = 0xeb
  size : word m b.sizeAddress = n

/-- `dlmalloc` gives at least what is asked for, and nothing that the block `old` has. -/
structure Allocates (dlmalloc : Nat → Option Block) (old : Option Block) : Prop where
  room : ∀ n b, dlmalloc n = some b → n ≤ b.usable
  space : ∀ n b, dlmalloc n = some b → b.base + b.usable ≤ 4294967296
  fresh : ∀ n b o, dlmalloc n = some b → o ∈ old →
    b.base + b.usable ≤ o.base ∨ o.base + o.usable ≤ b.base

section
variable {signed : Bool} {m m' : Memory} {b : Block} {n x : Nat}

theorem write_outside {a : Nat} {f : Nat → UInt8} (h : x < a ∨ a + n ≤ x) : write m a n f x = m x :=
  if_neg (by omega)

theorem sizeAddress_eq (h4 : 4 ≤ b.usable) (hs : b.base + b.usable ≤ 4294967296) :
    b.sizeAddress = b.base + b.usable - 4 := by
  unfold Block.sizeAddress wrap
  omega

theorem word_congr {a : Nat} (h : ∀ i, i < 4 → m' (a + i) = m (a + i)) : word m' a = word m a := by
  have h0 : m' a = m a := h 0 (by omega)
  rw [word, h0, h 1 (by omega), h 2 (by omega), h 3 (by omega), word]

theorem word_setWord {v : Nat} (hv : v < 4294967296) (a : Nat) : word (setWord m a v) a = v := by
  simp [word, setWord, write]
  omega

/-- Writes to the requested bytes and elsewhere keep the guards. -/
theorem Guarded.congr (h : Guarded m b n) (heq : ∀ x, b.base ≤ x → x < b.base + b.usable →
    x < b.mem ∨ b.mem + n ≤ x → m' x = m x) : Guarded m' b n := by
  have hr := h.room
  have hmem : b.mem = b.base + 16 := rfl
  refine ⟨hr, h.space, fun x hx => ?_, ?_⟩
  · rw [← h.sentinel x hx]
    unfold Block.Sentinel at hx
    exact heq x (by omega) (by omega) (by omega)
  · rw [← h.size, sizeAddress_eq (by omega) h.space]
    apply word_congr
    intro i hi
    exact heq _ (by omega) (by omega) (by omega)

theorem isCorrupted_unsigned {buf i : Nat} :
    isCorrupted false m buf i = true ↔ m (buf + i) ≠ 0xeb := by
  have hc : (m (buf + i)).toNat = (0xeb : UInt8).toNat ↔ m (buf + i) = 0xeb := UInt8.toNat_inj
  have h235 : (0xeb : UInt8).toNat = 235 := rfl
  simp [isCorrupted, charValue, ← hc, h235]
  omega

theorem isCorrupted_signed (buf i : Nat) : isCorrupted true m buf i = true := by
  have hlt := (m (buf + i)).toInt8.toInt_lt
  rw [isCorrupted, decide_eq_true_eq, charValue, if_pos rfl]
  omega

theorem check_signed : chkMemCheck true m b = .before 16 := by
  rw [chkMemCheck, show range 16 = 0 :: (range 15).map Nat.succ from rfl,
    find?_cons_of_pos (isCorrupted_signed b.base 0)]

theorem find_none_iff {l : List Nat} (hl : ∀ i, i ∈ l ↔ i < 16) (buf : Nat) :
    l.find? (isCorrupted false m buf) = none ↔ ∀ x, buf ≤ x ∧ x < buf + 16 → m x = 0xeb := by
  simp only [find?_eq_none, hl, isCorrupted_unsigned, not_not]
  constructor
  · intro h x hx
    rw [← Nat.add_sub_cancel' hx.1]
    exact h (x - buf) (by omega)
  · intro h i hi
    exact h _ (by omega)

theorem check_passed_iff : chkMemCheck false m b = .passed n ↔
    word m b.sizeAddress = n ∧ ∀ x, b.Sentinel n x → m x = 0xeb := by
  simp only [Block.Sentinel, or_imp, forall_and]
  rw [← find_none_iff fun i => mem_range, ← find_none_iff fun i => by rw [mem_reverse, mem_range]]
  unfold chkMemCheck
  cases (range 16).find? (isCorrupted false m b.base) with
  | some i => simp
  | none =>
    constructor
    · intro h
      dsimp only at h
      split at h
      · cases h
      · next htail =>
        cases h
        exact ⟨rfl, rfl, htail⟩
    · rintro ⟨rfl, -, htail⟩
      simp [htail]

theorem Guarded.check (h : Guarded m b n) : chkMemCheck false m b = .passed n :=
  check_passed_iff.2 ⟨h.size, h.sentinel⟩

variable {dlmalloc : Nat → Option Block} {old : Option Block}

theorem malloc_guarded (ha : Allocates dlmalloc old) (hn : n + 36 < 4294967296)
    (h : chkMalloc m dlmalloc n = some (b, m')) : Guarded m' b n ∧
      (∀ x, x < b.base ∨ b.base + b.usable ≤ x → m' x = m x) ∧
      ∀ o ∈ old, b.base + b.usable ≤ o.base ∨ o.base + o.usable ≤ b.base := by
  obtain ⟨b', hb, hr⟩ := Option.map_eq_some_iff.1 h
  cases hr
  have hw : wrap (n + chkOverheadSize) = n + 36 := by
    unfold wrap chkOverheadSize
    omega
  rw [hw] at hb ⊢
  have hroom := ha.room _ _ hb
  have hspace := ha.space _ _ hb
  have hsize := sizeAddress_eq (by omega) hspace
  have out : ∀ x, x < b.base + b.usable - 4 ∨ b.base + b.usable ≤ x →
      setWord (memset m b.base 0xeb (n + 36)) b.sizeAddress n x = memset m b.base 0xeb (n + 36) x := by
    intro x hx
    exact write_outside (by omega)
  refine ⟨⟨hroom, hspace, fun x hx => ?_, word_setWord (by omega) _⟩, fun x hx => ?_,
    fun o => ha.fresh _ _ o hb⟩
  · unfold Block.Sentinel Block.mem at hx
    rw [out x (by omega)]
    exact if_pos (by omega)
  · rw [out x (by omega)]
    exact write_outside (by omega)

theorem realloc_guarded {o : Block} {k : Nat} (ha : Allocates dlmalloc (some o))
    (ho : Guarded m o k) (hn : n + 36 < 4294967296)
    (h : chkRealloc signed m dlmalloc (some o) n = some (b, m')) : Guarded m' b n := by
  cases signed with
  | true => simp [chkRealloc, check_signed] at h
  | false =>
    simp only [chkRealloc, ho.check] at h
    obtain ⟨⟨b', m₁⟩, hm, hr⟩ := Option.map_eq_some_iff.1 h
    cases hr
    obtain ⟨hg, hout, hdis⟩ := malloc_guarded ha hn hm
    have hdis := hdis o rfl
    have hmem : b'.mem = b'.base + 16 := rfl
    have hroom := hg.room
    have hcopy : ∀ x, x < b'.mem ∨ b'.mem + n ≤ x → memcpy m₁ b'.mem o.mem (min n k) x = m₁ x :=
      fun x hx => write_outside (by omega)
    have hold := ho.congr fun x hlo hhi _ => (hcopy x (by omega)).trans (hout x (by omega))
    have hnew := hg.congr fun x _ _ hx => hcopy x hx
    rw [chkFree, hold.check]
    refine hnew.congr fun x hlo hhi _ => write_outside ?_
    have hle : wrap (k + chkOverheadSize) ≤ k + 36 := Nat.mod_le ..
    have hk := ho.room
    omega

theorem run_guarded {c : Call} (ha : Allocates dlmalloc c.old)
    (ho : ∀ o ∈ c.old, ∃ k, Guarded m o k) (hn : c.bytes + 36 < 4294967296)
    (h : c.run signed m dlmalloc = some (b, m')) : Guarded m' b c.bytes := by
  cases c with
  | malloc bytes => exact (malloc_guarded ha hn h).1
  | calloc nElements elemSize =>
    simp only [Call.run, chkCalloc, Option.ite_none_left_eq_some, Option.map_eq_some_iff] at h
    obtain ⟨-, ⟨b', m₁⟩, hm, hr⟩ := h
    cases hr
    exact (malloc_guarded ha hn hm).1.congr fun x _ _ hx => write_outside hx
  | realloc mem bytes =>
    cases mem with
    | none => exact (malloc_guarded ha hn h).1
    | some o =>
      obtain ⟨k, hk⟩ := ho o rfl
      exact realloc_guarded ha hk hn h

def writes (m : Memory) (l : List (Nat × UInt8)) : Memory :=
  l.foldl (fun m w => Function.update m w.1 w.2) m

theorem Guarded.writes {l : List (Nat × UInt8)} (h : Guarded m b n)
    (hl : ∀ w ∈ l, b.mem ≤ w.1 ∧ w.1 < b.mem + n) : Guarded (writes m l) b n := by
  induction l generalizing m with
  | nil => exact h
  | cons w l ih =>
    refine ih (h.congr fun x _ _ hx => ?_) fun w' hw' => hl w' (mem_cons_of_mem w hw')
    have hw := hl w mem_cons_self
    exact Function.update_of_ne (by omega) ..

/-- **The check of a block.**  It passes after writes inside, and fails once a sentinel has changed,
if and only if `char` is unsigned. -/
theorem checked_iff {c : Call} (ha : Allocates dlmalloc c.old)
    (ho : ∀ o ∈ c.old, ∃ k, Guarded m o k) (hn : c.bytes + 36 < 4294967296)
    (h : c.run signed m dlmalloc = some (b, m')) {l : List (Nat × UInt8)}
    (hl : ∀ w ∈ l, b.mem ≤ w.1 ∧ w.1 < b.mem + c.bytes) (trapOnError : Bool) :
    (chkMemCheck signed (writes m' l) b = .passed c.bytes ∧
      ∀ m'', word m'' b.sizeAddress = word (writes m' l) b.sizeAddress →
        (∃ x, b.Sentinel c.bytes x ∧ m'' x ≠ writes m' l x) →
        (chkMemCheck signed m'' b).returns trapOnError = if trapOnError then none else some (-1)) ↔
      signed = false := by
  have hg := (run_guarded ha ho hn h).writes hl
  cases signed with
  | true => simp [check_signed]
  | false =>
    refine iff_of_true ⟨hg.check, fun m'' hsize hx => ?_⟩ rfl
    obtain ⟨x, hx, hne⟩ := hx
    cases hm : chkMemCheck false m'' b with
    | passed k =>
      obtain ⟨hk, hs⟩ := check_passed_iff.1 hm
      rw [hsize, hg.size] at hk
      rw [hg.sentinel x hx] at hne
      exact absurd (hs x (hk ▸ hx)) hne
    | before i => rfl
    | after k i => rfl

end

def oneBlock (n : Nat) : Option Block := if n ≤ 40 then some ⟨8, 40⟩ else none

theorem oneBlock_allocates : Allocates oneBlock none := by
  have h : ∀ n b, oneBlock n = some b → n ≤ 40 ∧ b = ⟨8, 40⟩ := by
    intro n b h
    simpa [oneBlock, eq_comm] using h
  refine ⟨fun n b hb => ?_, fun n b hb => ?_, fun n b o _ ho => by cases ho⟩
  · obtain ⟨hn, rfl⟩ := h n b hb
    exact hn
  · obtain ⟨-, rfl⟩ := h n b hb
    decide

theorem checked_unsigned : ∃ m', (Call.malloc 3).run false (fun _ => 0) oneBlock = some (⟨8, 40⟩, m') ∧
    chkMemCheck false (writes m' [(25, 7)]) ⟨8, 40⟩ = .passed 3 :=
  ⟨_, rfl, ((checked_iff oneBlock_allocates (fun o ho => by cases ho) (by decide)
    (show (Call.malloc 3).run false (fun _ => 0) oneBlock = some (⟨8, 40⟩, _) from rfl)
    (by decide) false).2 rfl).1⟩

/-- Where `char` is signed, a fresh block fails its check. -/
theorem fresh_block_fails : ∃ m', (Call.malloc 3).run true (fun _ => 0) oneBlock = some (⟨8, 40⟩, m') ∧
    (chkMemCheck true m' ⟨8, 40⟩).returns false = some (-1) :=
  ⟨_, rfl, by rw [check_signed]; rfl⟩

end Malloc.Check
