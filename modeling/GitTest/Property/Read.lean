import GitTest.Lib.BitField
import GitTest.Lib.Transition

/-!
# Reading a system property (libc/bionic/system_properties.c)

`__system_property_read` against one writer that follows the rules in
libc/include/sys/_system_properties.h.  The serial has the length of the value in its
upper 8 bits and a counter below it; bit 0 is set while the writer is at work.  Both
`memcpy`s go byte by byte, and every byte is a step.  The futex wait may return at any
time: the reader looks at the serial again in any case.

The rule for the writer copies `value_len` bytes, so the NUL is not among them.  `nul` is
a variant that copies one byte more, the NUL.

Ghosts: `completed`, the number of updates so far, `values`, the value of each of them
(number 0 is the initial value), and for each reader the value of `completed` when its
call began (`start`), when it last read the serial before its copy (`seen`), and when its
call returned (`stop`).
-/

namespace Property

open Function List Machines

/-! ## Algorithm -/

abbrev Byte := UInt8

abbrev Serial := BitVec 32

def propValueMax : Nat := 92

def serialValueLen (serial : Serial) : Nat := (serial >>> 24).toNat

def serialDirty (serial : Serial) : Bool := serial &&& 1 != 0

structure PropInfo where
  name : List Byte
  serial : Serial
  value : Nat → Byte

/-- What a read returns: the length, the bytes of `value` it wrote, and `name` if it was asked. -/
structure Result where
  len : Nat
  value : List Byte
  name : Option (List Byte)
  deriving DecidableEq, Repr

inductive Reader
  | idle
  /-- At `serial = pi->serial`; `named` if the caller gave a buffer for the name. -/
  | load (named : Bool)
  | futexWait (named : Bool)
  /-- In the `memcpy`, after the bytes `value`. -/
  | copy (named : Bool) (serial : Serial) (value : List Byte)
  | returned (r : Result)

inductive Writer
  | idle
  /-- In the `memcpy` of the value `v`, after `i` bytes. -/
  | copy (v : List Byte) (i : Nat)

def firstBytes (value : Nat → Byte) (n : Nat) : List Byte := (List.range n).map value

def copied (nul : Bool) (v : List Byte) : List Byte := if nul then v ++ [0] else v

structure State (T : Type) where
  info : PropInfo
  writer : Writer
  reader : T → Reader
  completed : Nat
  values : Nat → List Byte
  start : T → Nat
  seen : T → Nat
  stop : T → Nat

inductive Act (T : Type)
  | call (t : T) (named : Bool)
  /-- The reader reads the serial. -/
  | load (t : T)
  | wake (t : T)
  /-- The reader copies a byte. -/
  | byte (t : T)
  /-- The reader compares the serial after its copy. -/
  | check (t : T)
  /-- The writer sets the dirty bit. -/
  | dirty (v : List Byte)
  /-- The writer copies a byte. -/
  | store
  /-- The writer stores the new serial. -/
  | publish

section
variable {T : Type} [DecidableEq T] (nul : Bool)

def State.goto (s : State T) (t : T) (p : Reader) : State T :=
  { s with reader := Function.update s.reader t p }

/-- `(value_len << 24) | ((pi->serial + 1) & 0xffffff)` -/
def nextSerial (valueLen : Nat) (serial : Serial) : Serial :=
  (BitVec.ofNat 32 valueLen <<< 24) ||| ((serial + 1) &&& 0xffffff)

def step (s : State T) : Act T → Option (State T)
  | .call t named =>
    match s.reader t with
    | .idle | .returned _ =>
      some { s.goto t (.load named) with start := Function.update s.start t s.completed }
    | _ => none
  | .load t =>
    match s.reader t with
    | .load named =>
      if serialDirty s.info.serial then some (s.goto t (.futexWait named))
      else
        some { s.goto t (.copy named s.info.serial []) with
          seen := Function.update s.seen t s.completed }
    | _ => none
  | .wake t =>
    match s.reader t with
    | .futexWait named => some (s.goto t (.load named))
    | _ => none
  | .byte t =>
    match s.reader t with
    | .copy named serial value =>
      if value.length < serialValueLen serial + 1 then
        some (s.goto t (.copy named serial (value ++ [s.info.value value.length])))
      else none
    | _ => none
  | .check t =>
    match s.reader t with
    | .copy named serial value =>
      if value.length < serialValueLen serial + 1 then none
      else if serial = s.info.serial then
        some { s.goto t (.returned ⟨serialValueLen serial, value,
            if named then some s.info.name else none⟩) with
          stop := Function.update s.stop t s.completed }
      else some (s.goto t (.load named))
    | _ => none
  | .dirty v =>
    match s.writer with
    | .idle =>
      if v.length < propValueMax then
        some { s with
          info := { s.info with serial := s.info.serial ||| 1 }
          writer := .copy v 0 }
      else none
    | .copy _ _ => none
  | .store =>
    match s.writer with
    | .copy v i =>
      match (copied nul v)[i]? with
      | some b =>
        some { s with
          info := { s.info with value := Function.update s.info.value i b }
          writer := .copy v (i + 1) }
      | none => none
    | .idle => none
  | .publish =>
    match s.writer with
    | .copy v i =>
      if i = (copied nul v).length then
        some { s with
          info := { s.info with serial := nextSerial v.length s.info.serial }
          writer := .idle
          completed := s.completed + 1
          values := Function.update s.values (s.completed + 1) v }
      else none
    | .idle => none

/-- A property with a value that is terminated, no update in progress and any even counter. -/
def init (s : State T) : Prop :=
  (s.values 0).length < propValueMax ∧
    (∃ c, c % 2 = 0 ∧ s.info.serial.toNat = (s.values 0).length * 2 ^ 24 + c % 2 ^ 24) ∧
    s.values 0 = firstBytes s.info.value (s.values 0).length ∧
    s.info.value (s.values 0).length = 0 ∧
    s.writer = .idle ∧ s.completed = 0 ∧ ∀ t, s.reader t = .idle

def machine : Machine (State T) (Act T) := ⟨init, step nul⟩

/-- The byte behind a new value is NUL, or the writer makes it so. -/
def Terminates (s : State T) : Act T → Prop
  | .dirty v => nul = true ∨ s.info.value v.length = 0
  | .call _ _ | .load _ | .wake _ | .byte _ | .check _ | .store | .publish => True

instance (s : State T) : (a : Act T) → Decidable (Terminates nul s a)
  | .dirty v => inferInstanceAs (Decidable (nul = true ∨ s.info.value v.length = 0))
  | .call _ _ | .load _ | .wake _ | .byte _ | .check _ | .store | .publish => .isTrue trivial

end

/-! ## The serial as a number -/

theorem serialDirty_iff (serial : Serial) : serialDirty serial = true ↔ serial.toNat % 2 = 1 := by
  have h := BitField.toNat_and_one serial
  have h0 : (0 : Serial).toNat = 0 := rfl
  unfold serialDirty
  rw [bne_iff_ne, Ne, ← BitVec.toNat_inj]
  omega

theorem serialValueLen_eq (serial : Serial) : serialValueLen serial = serial.toNat / 2 ^ 24 := by
  unfold serialValueLen
  rw [BitVec.toNat_ushiftRight, Nat.shiftRight_eq_div_pow]

theorem toNat_or_one {serial : Serial} (h : serial.toNat % 2 = 0) :
    (serial ||| 1).toNat = serial.toNat + 1 :=
  BitField.toNat_or_of_lt serial 1 1 (by omega) (by decide)

theorem toNat_nextSerial {len : Nat} (h : len < propValueMax) (serial : Serial) :
    (nextSerial len serial).toNat = len * 2 ^ 24 + (serial.toNat + 1) % 2 ^ 24 := by
  have hlen : len < 92 := h
  have hlow : ((serial + 1) &&& 0xffffff).toNat = (serial + 1).toNat / 2 ^ 0 % 2 ^ 24 * 2 ^ 0 :=
    BitField.toNat_and_mask (serial + 1) 0 24 (by decide)
  have hhigh : (BitVec.ofNat 32 len <<< 24).toNat = len * 2 ^ 24 := by
    rw [BitVec.toNat_shiftLeft, BitVec.toNat_ofNat]
    omega
  have hadd : (serial + 1).toNat = (serial.toNat + 1) % 2 ^ 32 := BitVec.toNat_add ..
  unfold nextSerial
  rw [BitField.toNat_or_of_lt _ _ 24 (by omega) (by omega)]
  omega

/-! ## The bytes -/

@[simp] theorem length_firstBytes (value : Nat → Byte) (n : Nat) :
    (firstBytes value n).length = n := by
  simp [firstBytes]

theorem firstBytes_succ (value : Nat → Byte) (n : Nat) :
    firstBytes value (n + 1) = firstBytes value n ++ [value n] := by
  simp [firstBytes, range_succ]

theorem firstBytes_update {value : Nat → Byte} {n i : Nat} (h : n ≤ i) (b : Byte) :
    firstBytes (update value i b) n = firstBytes value n := by
  refine map_congr_left fun j hj => ?_
  have hlt := mem_range.1 hj
  exact update_of_ne (by omega) _ _

theorem length_copied (nul : Bool) (v : List Byte) :
    (copied nul v).length = v.length + if nul then 1 else 0 := by
  cases nul <;> simp [copied]

/-! ## The invariant -/

section
variable {T : Type}

def Writer.busy : Writer → Nat
  | .idle => 0
  | .copy _ _ => 1

/-- The serial of the value with number `n`, the counter of the initial one being `c`. -/
def serialOf (c : Nat) (s : State T) (n : Nat) : Nat :=
  (s.values n).length * 2 ^ 24 + (c + 2 * n) % 2 ^ 24

/-- The memory holds the last value, or the part of the next one that is copied. -/
def MemoryOk (nul term : Bool) (s : State T) : Prop :=
  match s.writer with
  | .idle =>
    s.values s.completed = firstBytes s.info.value (s.values s.completed).length ∧
      (term = true → s.info.value (s.values s.completed).length = 0)
  | .copy v i =>
    v.length < propValueMax ∧ i ≤ (copied nul v).length ∧
      (copied nul v).take i = firstBytes s.info.value i ∧
      (term = true → nul = false → s.info.value v.length = 0)

/-- What a read returns is the value with number `n`, which was the last one during the read. -/
def ReadOk (term : Bool) (s : State T) (t : T) (r : Result) : Prop :=
  s.stop t - s.start t < 2 ^ 23 → ∃ n, s.start t ≤ n ∧ n ≤ s.stop t ∧
    r.len = (s.values n).length ∧ ∃ b, r.value = s.values n ++ [b] ∧ (term = true → b = 0)

/-- What a reader's locals say. -/
def Knows (term : Bool) (c : Nat) (s : State T) (t : T) : Reader → Prop
  | .idle => True
  | .load _ | .futexWait _ => s.start t ≤ s.completed
  | .copy _ serial value =>
    s.start t ≤ s.seen t ∧ s.seen t ≤ s.completed ∧ serial.toNat = serialOf c s (s.seen t) ∧
      value.length ≤ serialValueLen serial + 1 ∧
      (s.writer.busy = 0 → s.completed = s.seen t → value = firstBytes s.info.value value.length)
  | .returned r => s.stop t ≤ s.completed ∧ ReadOk term s t r

structure Inv (nul term : Bool) (c : Nat) (s : State T) : Prop where
  even : c % 2 = 0
  short : ∀ n, n ≤ s.completed → (s.values n).length < propValueMax
  serial : s.info.serial.toNat = serialOf c s s.completed + s.writer.busy
  memory : MemoryOk nul term s
  knows : ∀ t, Knows term c s t (s.reader t)

variable {nul term : Bool} {c : Nat} {s : State T}

theorem serialOf_mod (s : State T) (hc : c % 2 = 0) (n : Nat) : serialOf c s n % 2 = 0 := by
  unfold serialOf
  omega

theorem serialOf_div (s : State T) (n : Nat) : serialOf c s n / 2 ^ 24 = (s.values n).length := by
  unfold serialOf
  omega

theorem Writer.busy_le (w : Writer) : w.busy ≤ 1 := by
  cases w with
  | idle => exact Nat.zero_le 1
  | copy v i => exact Nat.le_refl 1

theorem Inv.dirty_iff (hi : Inv nul term c s) :
    serialDirty s.info.serial = true ↔ s.writer.busy = 1 := by
  have hmod := serialOf_mod s hi.even s.completed
  have hle := s.writer.busy_le
  rw [serialDirty_iff, hi.serial]
  omega

/-- The serials of two values that are fewer than `2 ^ 23` updates apart are different. -/
theorem serialOf_inj {m n : Nat} (h : serialOf c s m = serialOf c s n) (hmn : m ≤ n)
    (hfew : n - m < 2 ^ 23) : m = n := by
  unfold serialOf at h
  omega

/-- A reader's locals stay true while no update ends and the memory stays, and whenever an update
is in progress. -/
theorem Knows.mono {s' : State T} {t : T} {p : Reader} (h : Knows term c s t p)
    (hstart : s'.start t = s.start t) (hseen : s'.seen t = s.seen t) (hstop : s'.stop t = s.stop t)
    (hle : s.completed ≤ s'.completed) (hvals : ∀ n, n ≤ s.completed → s'.values n = s.values n)
    (hmem : s'.writer.busy = 0 → s'.completed = s.completed →
      s.writer.busy = 0 ∧ s'.info.value = s.info.value) : Knows term c s' t p := by
  cases p with
  | idle => trivial
  | load named | futexWait named =>
    show s'.start t ≤ s'.completed
    rw [hstart]
    exact Nat.le_trans h hle
  | copy named serial value =>
    obtain ⟨h1, h2, h3, h4, h5⟩ := h
    refine ⟨by omega, by omega, ?_, h4, ?_⟩
    · rw [hseen]
      unfold serialOf at h3 ⊢
      rw [hvals _ h2, h3]
    · intro hb hc
      obtain ⟨hb', hv⟩ := hmem hb (by omega)
      rw [hv]
      exact h5 hb' (by omega)
  | returned r =>
    obtain ⟨h1, h2⟩ := h
    refine ⟨by omega, ?_⟩
    intro hfew
    rw [hstart, hstop] at hfew
    obtain ⟨n, hn1, hn2, hlen, hval⟩ := h2 hfew
    refine ⟨n, by omega, by omega, ?_, ?_⟩
    · rw [hvals n (by omega)]
      exact hlen
    · rw [hvals n (by omega)]
      exact hval

section
theorem inv_init (h : init s) : ∃ c, Inv nul term c s := by
  obtain ⟨hshort, ⟨c, hc, hserial⟩, hval, hzero, hw, hcomp, hr⟩ := h
  refine ⟨c, hc, ?_, ?_, ?_, ?_⟩
  · intro n hn
    obtain rfl : n = 0 := by omega
    exact hshort
  · unfold serialOf
    rw [hcomp, hw, hserial]
    simp only [Writer.busy, Nat.mul_zero, Nat.add_zero]
  · unfold MemoryOk
    rw [hw, hcomp]
    exact ⟨hval, fun _ => hzero⟩
  · intro t
    rw [hr t]
    trivial

variable [DecidableEq T]

variable {s' : State T}

section
variable (hi : Inv nul term c s)
include hi

/-- A step of the reader `t`: it changes only what is its own. -/
theorem Inv.move (t : T) (p : Reader) (hinfo : s'.info = s.info) (hwriter : s'.writer = s.writer)
    (hcompleted : s'.completed = s.completed) (hvalues : s'.values = s.values)
    (hreader : s'.reader = update s.reader t p)
    (hothers : ∀ u, u ≠ t → s'.start u = s.start u ∧ s'.seen u = s.seen u ∧ s'.stop u = s.stop u)
    (hp : Knows term c s' t p) : Inv nul term c s' where
  even := hi.even
  short := by
    rw [hcompleted, hvalues]
    exact hi.short
  serial := by
    unfold serialOf
    rw [hinfo, hvalues, hcompleted, hwriter]
    exact hi.serial
  memory := by
    unfold MemoryOk
    rw [hwriter, hvalues, hcompleted, hinfo]
    exact hi.memory
  knows := by
    intro u
    rw [hreader]
    by_cases hu : u = t
    · subst hu
      rw [update_self]
      exact hp
    · obtain ⟨h1, h2, h3⟩ := hothers u hu
      rw [update_of_ne hu]
      refine (hi.knows u).mono h1 h2 h3 (Nat.le_of_eq hcompleted.symm) (fun n _ => by rw [hvalues]) ?_
      intro hb _
      rw [hwriter] at hb
      rw [hinfo]
      exact ⟨hb, rfl⟩

omit [DecidableEq T] in
/-- The locals of every reader, after a step of the writer. -/
theorem Inv.knows_writer (hreader : s'.reader = s.reader) (hstart : s'.start = s.start)
    (hseen : s'.seen = s.seen) (hstop : s'.stop = s.stop) (hle : s.completed ≤ s'.completed)
    (hvals : ∀ n, n ≤ s.completed → s'.values n = s.values n)
    (hbusy : s'.writer.busy = 1 ∨ s.completed < s'.completed) (t : T) :
    Knows term c s' t (s'.reader t) := by
  rw [hreader]
  refine (hi.knows t).mono (by rw [hstart]) (by rw [hseen]) (by rw [hstop]) hle hvals ?_
  omega

/-! ## Every step keeps the invariant -/

omit [DecidableEq T] in
/-- The comparison succeeds only if no update has ended or begun since the serial was read. -/
theorem Inv.unchanged {t : T} {named : Bool} {serial : Serial} {value : List Byte}
    (hp : s.reader t = .copy named serial value) (he : serial = s.info.serial)
    (hfew : s.completed - s.start t < 2 ^ 23) :
    s.writer = .idle ∧ s.completed = s.seen t := by
  have hk := hi.knows t
  rw [hp] at hk
  obtain ⟨h1, h2, h3, -, -⟩ := hk
  have hserial := hi.serial
  have hm1 := serialOf_mod s hi.even (s.seen t)
  have hm2 := serialOf_mod s hi.even s.completed
  have hle := s.writer.busy_le
  rw [he] at h3
  have hb : s.writer.busy = 0 := by omega
  have hsame := serialOf_inj (c := c) (s := s) (by omega) h2
    (by omega)
  refine ⟨?_, hsame.symm⟩
  cases hw : s.writer with
  | idle => rfl
  | copy v i =>
    rw [hw] at hb
    cases hb

theorem inv_returned {t : T} {named : Bool} {value : List Byte}
    (hp : s.reader t = .copy named s.info.serial value)
    (hlen : ¬ value.length < serialValueLen s.info.serial + 1) :
    Inv nul term c { s.goto t (.returned ⟨serialValueLen s.info.serial, value,
        if named then some s.info.name else none⟩) with
      stop := update s.stop t s.completed } := by
  have hk := hi.knows t
  rw [hp] at hk
  obtain ⟨h1, h2, h3, h4, h5⟩ := hk
  refine hi.move t _ rfl rfl rfl rfl rfl
    (fun u hu => ⟨rfl, rfl, update_of_ne hu _ _⟩) ⟨?_, ?_⟩
  · show update s.stop t s.completed t ≤ s.completed
    rw [update_self]
  · intro hfew
    change update s.stop t s.completed t - s.start t < 2 ^ 23 at hfew
    rw [update_self] at hfew
    obtain ⟨hw, hsame⟩ := hi.unchanged hp rfl hfew
    have hmem := hi.memory
    unfold MemoryOk at hmem
    rw [hw] at hmem
    have hl : serialValueLen s.info.serial = (s.values s.completed).length := by
      rw [serialValueLen_eq, h3, serialOf_div, hsame]
    have hv := h5 (by rw [hw]; rfl) hsame
    have hvl : value.length = (s.values s.completed).length + 1 := by omega
    refine ⟨s.completed, Nat.le_trans h1 h2, ?_, hl,
      s.info.value (s.values s.completed).length, ?_, hmem.2⟩
    · show s.completed ≤ update s.stop t s.completed t
      rw [update_self]
    show value = s.values s.completed ++ [s.info.value (s.values s.completed).length]
    rw [hv, hvl, firstBytes_succ, ← hmem.1]

end

theorem copied_whole {value : Nat → Byte} {v : List Byte}
    (h : copied nul v = firstBytes value (copied nul v).length) :
    v = firstBytes value v.length ∧ (nul = true → value v.length = 0) := by
  rw [length_copied] at h
  cases nul with
  | false => exact ⟨h, fun hn => by cases hn⟩
  | true =>
    change v ++ [0] = firstBytes value (v.length + 1) at h
    rw [firstBytes_succ] at h
    obtain ⟨h1, h2⟩ := append_inj h (by rw [length_firstBytes])
    exact ⟨h1, fun _ => (singleton_inj.1 h2).symm⟩

omit [DecidableEq T] in
theorem inv_publish (hi : Inv nul term c s) {v : List Byte}
    (hw : s.writer = .copy v (copied nul v).length) :
    Inv nul term c { s with
      info := { s.info with serial := nextSerial v.length s.info.serial }
      writer := .idle
      completed := s.completed + 1
      values := update s.values (s.completed + 1) v } := by
  have hmem := hi.memory
  have hserial := hi.serial
  unfold MemoryOk at hmem
  rw [hw] at hmem hserial
  obtain ⟨hv, -, htake, hterm⟩ := hmem
  rw [take_length] at htake
  obtain ⟨hwhole, hzero⟩ := copied_whole htake
  have hold : ∀ n, n ≤ s.completed →
      update s.values (s.completed + 1) v n = s.values n := fun n hn =>
    update_of_ne (by omega) _ _
  refine ⟨hi.even, ?_, ?_, ⟨?_, ?_⟩,
    hi.knows_writer rfl rfl rfl rfl (Nat.le_succ _) hold (.inr (Nat.lt_succ_self _))⟩
  · intro n hn
    change n ≤ s.completed + 1 at hn
    show (update s.values (s.completed + 1) v n).length < propValueMax
    by_cases he : n = s.completed + 1
    · rw [he, update_self]
      exact hv
    · rw [hold n (by omega)]
      exact hi.short n (by omega)
  · show (nextSerial v.length s.info.serial).toNat =
      (update s.values (s.completed + 1) v (s.completed + 1)).length * 2 ^ 24 +
        (c + 2 * (s.completed + 1)) % 2 ^ 24 + 0
    rw [toNat_nextSerial hv, update_self, hserial]
    change _ + ((s.values s.completed).length * 2 ^ 24 + (c + 2 * s.completed) % 2 ^ 24 + 1 + 1)
      % 2 ^ 24 = _
    omega
  · show update s.values (s.completed + 1) v (s.completed + 1) = firstBytes s.info.value
      (update s.values (s.completed + 1) v (s.completed + 1)).length
    rw [update_self]
    exact hwhole
  · intro ht
    show s.info.value (update s.values (s.completed + 1) v (s.completed + 1)).length = 0
    rw [update_self]
    cases hnul : nul with
    | true => exact hzero hnul
    | false => exact hterm ht hnul

theorem inv_step (hi : Inv nul term c s) {a : Act T} (hg : term = true → Terminates nul s a)
    (h : step nul s a = some s') :
    Inv nul term c s' := by
  have hknows : ∀ t p, s.reader t = p → Knows term c s t p := by
    rintro t _ rfl
    exact hi.knows t
  have hserial := hi.serial
  have hmem := hi.memory
  revert h
  fun_cases step nul s a with
  | case1 t | case2 t =>
    rintro ⟨⟩
    refine hi.move t _ rfl rfl rfl rfl rfl (fun u hu => ⟨update_of_ne hu _ _, rfl, rfl⟩) ?_
    show update s.start t s.completed t ≤ s.completed
    rw [update_self]
  | case4 t _ hp | case7 t _ hp =>
    rintro ⟨⟩
    exact hi.move t _ rfl rfl rfl rfl rfl (fun _ _ => ⟨rfl, rfl, rfl⟩) (hknows t _ hp)
  | case5 t _ hp hd =>
    rintro ⟨⟩
    rw [hi.dirty_iff] at hd
    have hle := s.writer.busy_le
    refine hi.move t _ rfl rfl rfl rfl rfl
      (fun u hu => ⟨rfl, update_of_ne hu _ _, rfl⟩) ⟨?_, ?_, ?_, Nat.zero_le _, fun _ _ => rfl⟩
    · show s.start t ≤ update s.seen t s.completed t
      rw [update_self]
      exact hknows t _ hp
    · show update s.seen t s.completed t ≤ s.completed
      rw [update_self]
    · -- no update is in progress
      simp only [update_self]
      show s.info.serial.toNat = serialOf c s s.completed
      omega
  | case9 t named serial value hp hlt =>
    rintro ⟨⟩
    obtain ⟨h1, h2, h3, h4, h5⟩ := hknows t _ hp
    refine hi.move t _ rfl rfl rfl rfl rfl (fun _ _ => ⟨rfl, rfl, rfl⟩) ⟨h1, h2, h3, ?_, ?_⟩
    · rw [length_append, length_singleton]
      omega
    · intro hb hc
      have he := h5 hb hc
      show value ++ [s.info.value value.length] =
        firstBytes s.info.value (value ++ [s.info.value value.length]).length
      rw [length_append, length_singleton, firstBytes_succ, ← he]
  | case13 t named value hp hlen =>
    rintro ⟨⟩
    exact inv_returned hi hp hlen
  | case14 t _ _ _ hp =>
    rintro ⟨⟩
    obtain ⟨h1, h2, -⟩ := hknows t _ hp
    exact hi.move t _ rfl rfl rfl rfl rfl (fun _ _ => ⟨rfl, rfl, rfl⟩) (Nat.le_trans h1 h2)
  | case16 v hw hv =>
    rintro ⟨⟩
    have hidle : s.writer.busy = 0 := by
      rw [hw]
      rfl
    have hmod := serialOf_mod s hi.even s.completed
    refine ⟨hi.even, hi.short, ?_, ⟨hv, Nat.zero_le _, rfl, ?_⟩,
      hi.knows_writer rfl rfl rfl rfl (Nat.le_refl _) (fun _ _ => rfl) (.inl rfl)⟩
    · show (s.info.serial ||| 1).toNat = serialOf c s s.completed + 1
      rw [toNat_or_one (by omega), hserial, hidle]
    · intro ht hnul
      rcases hg ht with hn | h0
      · rw [hnul] at hn
        cases hn
      · exact h0
  | case19 v i hw b hb =>
    rintro ⟨⟩
    unfold MemoryOk at hmem
    rw [hw] at hmem hserial
    obtain ⟨hv, hle, htake, hterm⟩ := hmem
    obtain ⟨hlt, hget⟩ := List.getElem?_eq_some_iff.1 hb
    refine ⟨hi.even, hi.short, hserial, ⟨hv, hlt, ?_, ?_⟩,
      hi.knows_writer rfl rfl rfl rfl (Nat.le_refl _) (fun _ _ => rfl) (.inl rfl)⟩
    · show (copied nul v).take (i + 1) = firstBytes (update s.info.value i b) (i + 1)
      rw [firstBytes_succ, firstBytes_update (Nat.le_refl i), update_self, ← htake,
        take_succ_eq_append_getElem hlt, hget]
    · intro ht hnul
      -- the copy does not come to the byte behind the value
      rw [length_copied, hnul, if_neg (by decide)] at hlt
      show update s.info.value i b v.length = 0
      rw [update_of_ne (by omega)]
      exact hterm ht hnul
  | case22 v hw =>
    rintro ⟨⟩
    exact inv_publish hi hw
  | _ => rintro ⟨⟩

/-! ## Top theorems -/

/-- Whatever the writer leaves behind its values: the length and the bytes before it are those of
one update. -/
theorem read_whole (h : (machine nul).Reachable s) {t : T} {r : Result}
    (hr : s.reader t = .returned r) (hfew : s.stop t - s.start t < 2 ^ 23) :
    ∃ n, s.start t ≤ n ∧ n ≤ s.stop t ∧ r.len = (s.values n).length ∧
      ∃ b, r.value = s.values n ++ [b] := by
  obtain ⟨c, hi⟩ : ∃ c, Inv nul false c s :=
    Machine.Reachable.invariant (M := machine nul) (fun _ h0 => inv_init h0)
      (fun _ _ _ ⟨c, hi⟩ hs => ⟨c, inv_step hi (fun ht => by cases ht) hs⟩) h
  have hk := hi.knows t
  rw [hr] at hk
  obtain ⟨n, h1, h2, hlen, b, hval, -⟩ := hk.2 hfew
  exact ⟨n, h1, h2, hlen, b, hval⟩

/-- **Reads are not torn.**  In every run in which the byte behind each new value is NUL, a read
during which fewer than `2 ^ 23` updates end returns the length, the bytes and the NUL of one
value, and that value was the current one at some time during the read. -/
theorem read_not_torn (h : (machine nul).ReachableIf (Terminates nul) s) {t : T} {r : Result}
    (hr : s.reader t = .returned r) (hfew : s.stop t - s.start t < 2 ^ 23) :
    ∃ n, s.start t ≤ n ∧ n ≤ s.stop t ∧ r.len = (s.values n).length ∧
      r.value = s.values n ++ [0] := by
  obtain ⟨c, hi⟩ : ∃ c, Inv nul true c s :=
    Machine.ReachableIf.invariant (M := machine nul) (fun _ h0 => inv_init h0)
      (fun _ _ _ ⟨c, hi⟩ hg hs => ⟨c, inv_step hi (fun _ => hg) hs⟩) h
  have hk := hi.knows t
  rw [hr] at hk
  obtain ⟨n, h1, h2, hlen, b, hval, hb⟩ := hk.2 hfew
  rw [hb rfl] at hval
  exact ⟨n, h1, h2, hlen, hval⟩

end

/-- A property with the value `v` in zeroed memory. -/
def fresh (T : Type) (v : List Byte) : State T where
  info := ⟨[112], nextSerial v.length 0xffffffff, fun i => v.getD i 0⟩
  writer := .idle
  reader := fun _ => .idle
  completed := 0
  values := fun _ => v
  start := fun _ => 0
  seen := fun _ => 0
  stop := fun _ => 0

/-- A read that meets an update in its copy, waits for its end and starts again. -/
def overtakenRead : List (Act Unit) :=
  [.call () true, .load (), .byte (), .dirty [98, 99], .store, .byte (), .check (), .load (),
    .store, .publish, .wake (), .load (), .byte (), .byte (), .byte (), .check ()]

theorem read_not_torn_overtaken :
    ∃ s : State Unit, (machine false).ReachableIf (Terminates false) s ∧
      s.reader () = .returned ⟨2, [98, 99, 0], some [112]⟩ ∧
      ∃ n, s.start () ≤ n ∧ n ≤ s.stop () ∧ 2 = (s.values n).length ∧
        [98, 99, 0] = s.values n ++ [0] := by
  obtain ⟨s, hs, hr, hfew⟩ : ∃ s : State Unit,
      (machine false).runIf (Terminates false) (fresh Unit [97]) overtakenRead = some s ∧
      s.reader () = .returned ⟨2, [98, 99, 0], some [112]⟩ ∧ s.stop () - s.start () < 2 ^ 23 :=
    ⟨_, rfl, rfl, by decide⟩
  have h0 : init (fresh Unit [97]) := ⟨by decide, ⟨0, rfl, rfl⟩, rfl, rfl, rfl, rfl, fun _ => rfl⟩
  have hreach : (machine false).ReachableIf (Terminates false) s :=
    Machine.ReachableIf.runIf (.init h0) _ hs
  exact ⟨s, hreach, hr, read_not_torn hreach hr hfew⟩

/-- The rule for the writer does not terminate a value that is shorter than the one before: after
an update from "abc" to "x", "xb" is read. -/
theorem shorter_value_unterminated :
    ∃ s : State Unit, (machine false).Reachable s ∧ s.values s.completed = [120] ∧
      s.start () = s.stop () ∧ s.reader () = .returned ⟨1, [120, 98], none⟩ := by
  obtain ⟨s, hs, hval, hstop, hr⟩ : ∃ s : State Unit,
      (machine false).run (fresh Unit [97, 98, 99])
        [.dirty [120], .store, .publish, .call () false, .load (), .byte (), .byte (), .check ()] =
        some s ∧ s.values s.completed = [120] ∧ s.start () = s.stop () ∧
      s.reader () = .returned ⟨1, [120, 98], none⟩ := ⟨_, rfl, rfl, rfl, rfl⟩
  have h0 : init (fresh Unit [97, 98, 99]) :=
    ⟨by decide, ⟨0, rfl, rfl⟩, rfl, rfl, rfl, rfl, fun _ => rfl⟩
  exact ⟨s, Machine.Reachable.run (.init h0) _ hs, hval, hstop, hr⟩

end

end Property
