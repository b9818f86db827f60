import Mathlib.Data.List.Basic

/-!
# Recognisers

A recogniser takes a word off the front of its input and returns the rest, or fails.  It is
exact for a language if it succeeds on the inputs that start with a word of the language and
on no others.  Words may have labels; `Sequence L ts` are the words of `L` with the labels
`ts`, one behind the other.

    Exact p L → Exact q M → Exact (p, then q) (Cat L M)  (Exact.bind)
    Exact p (∃ t, T t ∧ L t ·) → Exact (n times p)
      (∃ ts, ts.length = n ∧ (∀ t ∈ ts, T t) ∧ Sequence L ts ·)  (Exact.repeat)
    Unambiguous L → two sequences of one length that start one input are equal
      (Unambiguous.sequence)
-/

namespace Recognise

open List

section
variable {α : Type}

abbrev Recogniser (α : Type) := List α → Option (List α)

/-- `p` takes exactly the words of `L` off its input. -/
def Exact (p : Recogniser α) (L : List α → Prop) : Prop :=
  ∀ s r, p s = some r ↔ ∃ w, L w ∧ s = w ++ r

/-- A word of `L`, then one of `M`. -/
def Cat (L M : List α → Prop) (w : List α) : Prop := ∃ u v, L u ∧ M v ∧ w = u ++ v

variable {p q : Recogniser α} {L M : List α → Prop}

theorem Exact.append (h : Exact p L) {w : List α} (hw : L w) (r : List α) : p (w ++ r) = some r :=
  (h _ _).2 ⟨w, hw, rfl⟩

theorem Exact.bind (hp : Exact p L) (hq : Exact q M) : Exact (fun s => (p s).bind q) (Cat L M) := by
  intro s r
  rw [Option.bind_eq_some_iff]
  constructor
  · rintro ⟨s', hs, hr⟩
    obtain ⟨u, hu, rfl⟩ := (hp s s').1 hs
    obtain ⟨v, hv, rfl⟩ := (hq s' r).1 hr
    exact ⟨u ++ v, ⟨u, v, hu, hv, rfl⟩, (append_assoc u v r).symm⟩
  · rintro ⟨w, ⟨u, v, hu, hv, rfl⟩, rfl⟩
    refine ⟨v ++ r, ?_, hq.append hv r⟩
    rw [append_assoc]
    exact hp.append hu (v ++ r)

theorem Exact.congr (h : Exact p L) (hLM : ∀ w, L w ↔ M w) : Exact p M := by
  intro s r
  rw [h s r]
  simp only [hLM]

theorem Exact.unique (h : Exact p L) {u v r t : List α} (hu : L u) (hv : L v)
    (heq : u ++ r = v ++ t) : u = v ∧ r = t := by
  have hr := h.append hu r
  rw [heq, h.append hv t] at hr
  have hrt : r = t := (Option.some.inj hr).symm
  subst hrt
  exact ⟨append_cancel_right heq, rfl⟩

end

/-! ## Sequences of labelled words -/

section
variable {α τ : Type}

/-- A word of `L t` for each label `t` in turn. -/
inductive Sequence (L : τ → List α → Prop) : List τ → List α → Prop
  | nil : Sequence L [] []
  | cons {t : τ} {ts : List τ} {u v : List α} :
      L t u → Sequence L ts v → Sequence L (t :: ts) (u ++ v)

/-- The first word of an input and its label can be read off the input. -/
def Unambiguous (L : τ → List α → Prop) : Prop :=
  ∀ ⦃t t' : τ⦄ ⦃u u' r r' : List α⦄, L t u → L t' u' → u ++ r = u' ++ r' → t = t' ∧ u = u'

variable {L : τ → List α → Prop}

theorem sequence_nil_iff {w : List α} : Sequence L [] w ↔ w = [] := by
  constructor
  · intro h
    cases h
    rfl
  · rintro rfl
    exact .nil

theorem Exact.repeat {p : Recogniser α} {T : τ → Prop} (h : Exact p fun w => ∃ t, T t ∧ L t w)
    {rep : Nat → Recogniser α} (hzero : ∀ s, rep 0 s = some s)
    (hsucc : ∀ n s, rep (n + 1) s = (p s).bind (rep n)) (n : Nat) :
    Exact (rep n) fun w => ∃ ts : List τ, ts.length = n ∧ (∀ t ∈ ts, T t) ∧ Sequence L ts w := by
  induction n with
  | zero =>
    intro s r
    rw [hzero]
    constructor
    · intro hs
      cases hs
      exact ⟨[], ⟨[], rfl, fun _ ht => absurd ht not_mem_nil, .nil⟩, rfl⟩
    · rintro ⟨w, ⟨ts, hlen, -, hw⟩, rfl⟩
      cases length_eq_zero_iff.1 hlen
      rw [sequence_nil_iff.1 hw]
      rfl
  | succ n ih =>
    intro s r
    rw [hsucc, h.bind ih s r]
    apply exists_congr
    intro w
    apply and_congr_left
    intro _
    constructor
    · rintro ⟨u, v, ⟨t, ht, hu⟩, ⟨ts, hlen, hts, hv⟩, rfl⟩
      exact ⟨t :: ts, by rw [length_cons, hlen], forall_mem_cons.2 ⟨ht, hts⟩, .cons hu hv⟩
    · rintro ⟨ts, hlen, hts, hw⟩
      cases hw with
      | nil => cases hlen
      | cons hu hv =>
        obtain ⟨ht, hts⟩ := forall_mem_cons.1 hts
        exact ⟨_, _, ⟨_, ht, hu⟩, ⟨_, Nat.succ.inj hlen, hts, hv⟩, rfl⟩

theorem Unambiguous.sequence (h : Unambiguous L) {ts ts' : List τ} {w w' r r' : List α}
    (hw : Sequence L ts w) (hw' : Sequence L ts' w') (hlen : ts.length = ts'.length)
    (heq : w ++ r = w' ++ r') : ts = ts' ∧ w = w' := by
  induction hw generalizing ts' w' with
  | nil =>
    cases length_eq_zero_iff.1 hlen.symm
    exact ⟨rfl, (sequence_nil_iff.1 hw').symm⟩
  | cons hu hv ih =>
    cases hw' with
    | nil => cases hlen
    | cons hu' hv' =>
      rw [append_assoc, append_assoc] at heq
      obtain ⟨rfl, rfl⟩ := h hu hu' heq
      obtain ⟨rfl, rfl⟩ := ih hv' (Nat.succ.inj hlen) (append_cancel_left heq)
      exact ⟨rfl, rfl⟩

end

end Recognise
