import Mathlib.Data.List.Basic

/-!
# Computations that read a buffer

A traced computation has a value and the list of the offsets it read, in order.  `Gives n x v`
says that `x` computes `v` and reads below `n`.

    Gives n x v → Gives n (f v) w → Gives n (x >>= f) w  (Gives.bind)
    k ≤ buf.length - p → Gives buf.length (readRange d buf p k) ((buf.drop p).take k)
      (gives_readRange)
-/

structure Traced (α : Type) where
  value : α
  reads : List Nat

namespace Traced

open List

instance : Monad Traced where
  pure a := ⟨a, []⟩
  bind x f := ⟨(f x.value).value, x.reads ++ (f x.value).reads⟩

section
variable {α β : Type}

/-- `x` computes `v` and reads offsets smaller than `n` only. -/
def Gives (n : Nat) (x : Traced α) (v : α) : Prop := x.value = v ∧ ∀ i ∈ x.reads, i < n

variable {n : Nat}

theorem gives_pure (a : α) : Gives n (pure a : Traced α) a :=
  ⟨rfl, fun _ h => absurd h not_mem_nil⟩

variable {x : Traced α} {f : α → Traced β}

theorem Gives.bind {v : α} (hx : Gives n x v) {w : β} (hf : Gives n (f v) w) :
    Gives n (x >>= f) w := by
  obtain ⟨rfl, hreads⟩ := hx
  refine ⟨hf.1, ?_⟩
  intro i hi
  rcases mem_append.1 hi with hi | hi
  · exact hreads i hi
  · exact hf.2 i hi

theorem Gives.after {a : α} (hx : Gives n x a) {P : β → Prop} (hf : ∃ v, Gives n (f a) v ∧ P v) :
    ∃ v, Gives n (x >>= f) v ∧ P v := by
  obtain ⟨v, hv, hp⟩ := hf
  exact ⟨v, hx.bind hv, hp⟩

theorem Gives.mono {v : α} (hx : Gives n x v) {m : Nat} (h : n ≤ m) :
    Gives m x v := ⟨hx.1, fun i hi => Nat.lt_of_lt_of_le (hx.2 i hi) h⟩

theorem mem_reads_bind {i : Nat} (h : i ∈ x.reads) :
    i ∈ (x >>= f).reads := mem_append_left _ h

end

/-! ## Reading -/

section
variable {α : Type} (d : α) (buf : List α)

/-- One element; outside the buffer there is no telling what is read, here `d`. -/
def read (i : Nat) : Traced α := ⟨buf.getD i d, [i]⟩

/-- The elements from `p` on, one after the other. -/
def readRange : Nat → Nat → Traced (List α)
  | _, 0 => pure []
  | p, k + 1 => do
    let a ← read d buf p
    let as ← readRange (p + 1) k
    pure (a :: as)

variable {d buf}

theorem gives_read {i : Nat} (h : i < buf.length) :
    Gives buf.length (read d buf i) (buf.getD i d) := by
  refine ⟨rfl, ?_⟩
  intro j hj
  rw [mem_singleton.1 hj]
  exact h

theorem drop_eq_getD_cons {i : Nat} (h : i < buf.length) :
    buf.drop i = buf.getD i d :: buf.drop (i + 1) := by
  rw [drop_eq_getElem_cons h, getD_eq_getElem?_getD, getElem?_eq_getElem h]
  rfl

theorem gives_readRange {p k : Nat} (h : k ≤ buf.length - p) :
    Gives buf.length (readRange d buf p k) ((buf.drop p).take k) := by
  induction k generalizing p with
  | zero => exact gives_pure []
  | succ k ih =>
    have hp : p < buf.length := by omega
    rw [drop_eq_getD_cons hp]
    exact (gives_read hp).bind ((ih (by omega)).bind (gives_pure _))

end

end Traced
