import Mathlib.Data.List.Basic
import Mathlib.Data.List.TakeWhile

/-!
# Paths with devices, and their portable text

A path has an optional device, leading slashes and segments.  Its portable text has the segments
joined by slashes; the colons of the segments are doubled, so that a single colon ends a device.
Reading drops empty segments and resolves `.` and `..`; to append a path adds its segments, and
resolves again if the first of them is one of these.  Trailing slashes are not kept.

    p.Proper → fromPortableString p.toPortableString = p  (fromPortableString_toPortableString)
    plain segments: collapsing `l ++ .. ^ k ++ [n]` leaves the first segments of `l`, then `n`
      (collapse_up)
-/

namespace Paths

open List

/-- UTF-16 code units. -/
abbrev Text := List UInt16

/-! ## Segments -/

structure Name where
  text : Text
  nonempty : text ≠ []
  noSlash : 47 ∉ text
  deriving DecidableEq

def Name.ofText? (s : Text) : Option Name :=
  if h : s ≠ [] ∧ 47 ∉ s then some ⟨s, h.1, h.2⟩ else none

theorem Name.ofText?_text (n : Name) : Name.ofText? n.text = some n := by
  rw [Name.ofText?, dif_pos ⟨n.nonempty, n.noSlash⟩]

def join (l : List Name) : Text := [47].intercalate (l.map Name.text)

/-- The segments of a text: its pieces between slashes, without the empty ones. -/
def names (s : Text) : List Name := (s.splitOn 47).filterMap Name.ofText?

@[simp] theorem join_nil : join [] = [] := rfl

@[simp] theorem join_singleton (n : Name) : join [n] = n.text := by
  simp [join, List.intercalate]

theorem join_cons_cons (n m : Name) (l : List Name) :
    join (n :: m :: l) = n.text ++ 47 :: join (m :: l) := by
  simp [join, List.intercalate]

theorem join_cons_text {n m : Name} {a : UInt16} (h : n.text = a :: m.text) (l : List Name) :
    join (n :: l) = a :: join (m :: l) := by
  cases l with
  | nil => rw [join_singleton, join_singleton, h]
  | cons k l => rw [join_cons_cons, join_cons_cons, h, cons_append]

variable {l k : List Name}

theorem join_append (hl : l ≠ []) (hk : k ≠ []) :
    join (l ++ k) = join l ++ 47 :: join k := by
  induction l with
  | nil => exact absurd rfl hl
  | cons n l ih =>
    cases l with
    | nil =>
      obtain ⟨m, k, rfl⟩ := exists_cons_of_ne_nil hk
      rw [singleton_append, join_cons_cons, join_singleton]
    | cons m l =>
      have := ih (by simp)
      rw [cons_append, cons_append, join_cons_cons, ← cons_append, this, join_cons_cons]
      simp

theorem splitOn_join (h : l ≠ []) : (join l).splitOn 47 = l.map Name.text := by
  apply splitOn_intercalate
  · simp only [mem_map, forall_exists_index, and_imp, forall_apply_eq_imp_iff₂]
    exact fun n _ => n.noSlash
  · simpa using h

theorem names_join (l : List Name) : names (join l) = l := by
  by_cases h : l = []
  · subst h
    rfl
  · unfold names
    rw [splitOn_join h]
    induction l with
    | nil => rfl
    | cons n l ih =>
      rw [map_cons, filterMap_cons, n.ofText?_text]
      by_cases hl : l = []
      · subst hl
        rfl
      · simpa using ih hl

theorem join_ne_nil (h : l ≠ []) : join l ≠ [] := by
  intro hj
  have := names_join l
  rw [hj] at this
  exact h this.symm

theorem names_append (a b : Text) : names (a ++ 47 :: b) = names a ++ names b := by
  unfold names
  rw [splitOn_append_cons_self, filterMap_append]

theorem names_slash (s : Text) : names (47 :: s) = names s := names_append [] s

theorem join_inj : join l = join k ↔ l = k := by
  constructor
  · intro h
    rw [← names_join l, h, names_join]
  · rintro rfl
    rfl

theorem prefix_or_prefix {a b : Text} (h : join l ++ 47 :: a = join k ++ 47 :: b) :
    l <+: k ∨ k <+: l := by
  -- what is behind the shorter one begins with a slash
  have hpart : ∀ {m n : List Name} {x y z : Text}, join m = join n ++ x → 47 :: y = x ++ 47 :: z →
      n <+: m := by
    intro m n x y z hx hy
    cases x with
    | nil =>
      rw [append_nil, join_inj] at hx
      exact hx ▸ prefix_rfl
    | cons c x =>
      cases hy
      have hnames := names_append (join n) x
      rw [← hx, names_join, names_join] at hnames
      exact ⟨names x, hnames.symm⟩
  rcases append_eq_append_iff.1 h with ⟨x, hx, hy⟩ | ⟨x, hx, hy⟩
  · exact .inl (hpart hx hy)
  · exact .inr (hpart hx hy)

/-! ## Resolving `.` and `..` -/

def dot : Name := ⟨[46], by decide, by decide⟩
def dotdot : Name := ⟨[46, 46], by decide, by decide⟩

/-- One segment of `collapse`; the segments so far are on a stack, and `single` says that there is
only this one. -/
def collapseStep (absolute single : Bool) (stack : List Name) (n : Name) : List Name :=
  if n = dotdot then
    match stack with
    | [] => if absolute then [] else [dotdot]
    | top :: rest => if top = dotdot then dotdot :: stack else rest
  else if n = dot ∧ single = false then stack
  else n :: stack

def collapse (absolute : Bool) (l : List Name) : List Name :=
  (l.foldl (collapseStep absolute (decide (l.length = 1))) []).reverse

def Plain (n : Name) : Prop := n ≠ dot ∧ n ≠ dotdot

instance (n : Name) : Decidable (Plain n) := inferInstanceAs (Decidable (n ≠ dot ∧ n ≠ dotdot))

theorem plain_of_colon {n : Name} (h : 58 ∈ n.text) : Plain n := by
  constructor
  · rintro rfl
    exact absurd h (by decide)
  · rintro rfl
    exact absurd h (by decide)

section
variable {absolute single : Bool} {stack l : List Name}

theorem collapseStep_plain {n : Name} (h : Plain n) :
    collapseStep absolute single stack n = n :: stack := by
  unfold collapseStep
  rw [if_neg h.2, if_neg fun hd => h.1 hd.1]

theorem foldl_plain (h : ∀ n ∈ l, Plain n) :
    l.foldl (collapseStep absolute single) stack = l.reverse ++ stack := by
  induction l generalizing stack with
  | nil => rfl
  | cons n l ih =>
    rw [foldl_cons, collapseStep_plain (h n mem_cons_self),
      ih fun m hm => h m (mem_cons_of_mem n hm)]
    simp

theorem foldl_up (absolute single : Bool) (h : ∀ n ∈ stack, Plain n) {k : Nat}
    (hk : k ≤ stack.length) :
    (List.replicate k dotdot).foldl (collapseStep absolute single) stack = stack.drop k := by
  induction k generalizing stack with
  | zero => rfl
  | succ k ih =>
    cases stack with
    | nil => cases hk
    | cons top rest =>
      have htop : collapseStep absolute single (top :: rest) dotdot = rest := by
        exact if_neg (h top mem_cons_self).2
      rw [replicate_succ, foldl_cons, htop]
      exact ih (fun n hn => h n (mem_cons_of_mem top hn)) (Nat.le_of_succ_le_succ hk)

theorem foldl_up_relative (single : Bool) (j k : Nat) :
    (List.replicate k dotdot).foldl (collapseStep false single) (List.replicate j dotdot) =
      List.replicate (j + k) dotdot := by
  induction k generalizing j with
  | zero => rfl
  | succ k ih =>
    have hstep : collapseStep false single (List.replicate j dotdot) dotdot =
        List.replicate (j + 1) dotdot := by
      cases j with
      | zero => rfl
      | succ j => rfl
    rw [replicate_succ, foldl_cons, hstep, ih, Nat.add_right_comm, Nat.add_assoc]

theorem collapse_plain (h : ∀ n ∈ l, Plain n) : collapse absolute l = l := by
  rw [collapse, foldl_plain h, append_nil, reverse_reverse]

theorem collapse_up (hl : ∀ n ∈ l, Plain n) {k : Nat} (hk : k ≤ l.length) {n : Name}
    (hn : Plain n) :
    collapse absolute (l ++ List.replicate k dotdot ++ [n]) = l.take (l.length - k) ++ [n] := by
  have hstack : ∀ m ∈ l.reverse, Plain m := fun m hm => hl m (mem_reverse.1 hm)
  rw [collapse, foldl_append, foldl_append, foldl_plain hl, append_nil,
    foldl_up _ _ hstack (by simpa using hk), foldl_cons, collapseStep_plain hn, foldl_nil,
    reverse_cons, drop_reverse, reverse_reverse]

theorem collapse_parent (hl : ∀ n ∈ l, Plain n) (hne : l ≠ []) :
    collapse absolute (l ++ [dotdot]) = l.dropLast := by
  have hstack : ∀ m ∈ l.reverse, Plain m := fun m hm => hl m (mem_reverse.1 hm)
  have hlen : 1 ≤ l.reverse.length := by
    rw [length_reverse]
    exact length_pos_iff.2 hne
  rw [collapse, foldl_append, foldl_plain hl, append_nil]
  have hup := foldl_up absolute (decide ((l ++ [dotdot]).length = 1)) hstack hlen
  rw [replicate_one] at hup
  rw [hup, drop_one, tail_reverse, reverse_reverse]

theorem collapse_dot (hl : ∀ n ∈ l, Plain n) (hne : l ≠ []) :
    collapse absolute (l ++ [dot]) = l := by
  have hlen : decide ((l ++ [dot]).length = 1) = false := by simpa using hne
  rw [collapse, hlen, foldl_append, foldl_plain hl, append_nil]
  exact reverse_reverse l

theorem collapse_singleton (n : Name) : collapse false [n] = [n] := by
  unfold collapse
  by_cases hn : n = dotdot
  · subst hn
    rfl
  · simp [collapseStep, hn]

/-- Only a `.` in front of other segments is dropped. -/
theorem collapse_cons_relative (n : Name) (hl : ∀ m ∈ l, Plain m) :
    collapse false (n :: l) = n :: l ∨ n = dot ∧ l ≠ [] ∧ collapse false (n :: l) = l := by
  by_cases hne : l = []
  · subst hne
    exact .inl (collapse_singleton n)
  · have hlen : decide ((n :: l).length = 1) = false := by simpa using hne
    rw [collapse, hlen, foldl_cons, foldl_plain hl, reverse_append, reverse_reverse]
    by_cases hup : n = dotdot
    · subst hup
      exact .inl rfl
    · by_cases hdot : n = dot
      · subst hdot
        exact .inr ⟨rfl, hne, rfl⟩
      · left
        rw [collapseStep_plain ⟨hdot, hup⟩]
        rfl

theorem collapse_up_relative (k : Nat) {n : Name} (hn : Plain n) :
    collapse false (List.replicate k dotdot ++ [n]) = List.replicate k dotdot ++ [n] := by
  have hup := foldl_up_relative (decide ((List.replicate k dotdot ++ [n]).length = 1)) 0 k
  rw [replicate_zero, Nat.zero_add] at hup
  rw [collapse, foldl_append, hup, foldl_cons, collapseStep_plain hn, foldl_nil,
    reverse_cons, reverse_replicate]

end

/-! ## Paths -/

inductive Leading
  | none
  | slash
  /-- Two slashes, of a path on another machine. -/
  | unc
  deriving DecidableEq, Repr

def Leading.text : Leading → Text
  | .none => []
  | .slash => [47]
  | .unc => [47, 47]

structure Path where
  device : Option Text
  leading : Leading
  segments : List Name
  deriving DecidableEq

namespace Path

def isAbsolute (p : Path) : Bool := p.leading != .none

/-- Devices are compared without regard to the case. -/
def sameDevice (fold : UInt16 → UInt16) : Option Text → Option Text → Bool
  | none, none => true
  | some d, some e => d.map fold == e.map fold
  | none, some _ | some _, none => false

/-- A path without segments is in front of all paths of its device. -/
def isPrefixOf (fold : UInt16 → UInt16) (p q : Path) : Bool :=
  sameDevice fold p.device q.device && p.segments.isPrefixOf q.segments

def commonLength : List Name → List Name → Nat
  | n :: l, m :: k => if n = m then commonLength l k + 1 else 0
  | _, _ => 0

def matchingFirstSegments (p q : Path) : Nat := commonLength p.segments q.segments

/-- What is left is relative, and keeps the device. -/
def removeFirstSegments (p : Path) (k : Nat) : Path :=
  if k = 0 then p else ⟨p.device, .none, p.segments.drop k⟩

def removeLastSegments (p : Path) (k : Nat) : Path :=
  { p with segments := p.segments.take (p.segments.length - k) }

def segment (p : Path) (k : Nat) : Option Name := p.segments[k]?

def append (p tail : Path) : Path :=
  match tail.segments with
  | [] => p
  | first :: _ =>
    if first = dotdot ∨ first = dot then
      { p with segments := collapse p.isAbsolute (p.segments ++ tail.segments) }
    else { p with segments := p.segments ++ tail.segments }

/-- The text without doubled colons. -/
def toString (p : Path) : Text := p.device.getD [] ++ p.leading.text ++ join p.segments

theorem removeFirstSegments_eq (p : Path) (k : Nat) :
    ∃ leading, p.removeFirstSegments k = ⟨p.device, leading, p.segments.drop k⟩ := by
  unfold removeFirstSegments
  split
  · next hk => exact ⟨p.leading, by rw [hk, drop_zero]⟩
  · exact ⟨.none, rfl⟩

theorem commonLength_right {l k : List Name} (h : l <+: k) : commonLength k l = l.length := by
  obtain ⟨r, rfl⟩ := h
  induction l with
  | nil => cases r <;> simp [commonLength]
  | cons n l ih => simp [commonLength, ih]

theorem sameDevice_comm (fold : UInt16 → UInt16) (d e : Option Text) :
    sameDevice fold d e = sameDevice fold e d := by
  cases d with
  | none => cases e <;> rfl
  | some d =>
    cases e with
    | none => rfl
    | some e => exact Bool.beq_comm

@[simp] theorem append_device (p tail : Path) : (p.append tail).device = p.device := by
  unfold append
  cases tail.segments with
  | nil => rfl
  | cons first rest =>
    dsimp only
    split <;> rfl

@[simp] theorem append_leading (p tail : Path) : (p.append tail).leading = p.leading := by
  unfold append
  cases tail.segments with
  | nil => rfl
  | cons first rest =>
    dsimp only
    split <;> rfl

theorem append_plain {p tail : Path} (h : ∀ n ∈ tail.segments, Plain n) :
    (p.append tail).segments = p.segments ++ tail.segments := by
  unfold append
  cases hs : tail.segments with
  | nil => simp
  | cons first rest =>
    have hfirst : Plain first := h first (by rw [hs]; exact mem_cons_self)
    dsimp only
    rw [if_neg]
    rintro (h2 | h1)
    · exact hfirst.2 h2
    · exact hfirst.1 h1

theorem append_collapse {p tail : Path} {first : Name} {rest : List Name}
    (ht : tail.segments = first :: rest) (hfirst : first = dotdot ∨ first = dot) :
    (p.append tail).segments = collapse p.isAbsolute (p.segments ++ tail.segments) := by
  unfold append
  rw [ht]
  dsimp only
  rw [if_pos hfirst]

/-- A path that goes up from the end of another one. -/
theorem append_up {p tail : Path} (hp : ∀ n ∈ p.segments, Plain n) {k : Nat}
    (hk : k ≤ p.segments.length) {n : Name} (hn : Plain n)
    (ht : tail.segments = List.replicate k dotdot ++ [n]) :
    (p.append tail).segments = p.segments.take (p.segments.length - k) ++ [n] := by
  cases k with
  | zero =>
    rw [append_plain (by simpa [ht] using hn), ht]
    simp
  | succ k => rw [append_collapse ht (.inl rfl), ht, ← append_assoc, collapse_up hp hk hn]

theorem isPrefixOf_iff {fold : UInt16 → UInt16} {p q : Path} : isPrefixOf fold p q = true ↔
    sameDevice fold p.device q.device = true ∧ p.segments <+: q.segments := by
  simp [isPrefixOf]

end Path

/-! ## Portable text -/

/-- The colons of a segment are doubled. -/
def escape : Text → Text
  | [] => []
  | c :: s => if c = 58 then c :: c :: escape s else c :: escape s

/-- The first of two colons is dropped. -/
def contract : Text → Text
  | [] => []
  | [c] => if c = 58 then [] else [c]
  | c :: d :: s => if c = 58 then d :: contract s else c :: contract (d :: s)

def Path.toPortableString (p : Path) : Text :=
  p.device.getD [] ++ p.leading.text ++ [47].intercalate (p.segments.map fun n => escape n.text)

def leadingOf (s : Text) : Leading :=
  if [47, 47].isPrefixOf s then .unc else if [47].isPrefixOf s then .slash else .none

def ofText (device : Option Text) (s : Text) : Path :=
  ⟨device, leadingOf s, collapse (leadingOf s != .none) (names s)⟩

def fromPortableString (s : Text) : Path :=
  match s.dropWhile (· ≠ 58) with
  | [] => ofText none s
  | colon :: rest =>
    if rest.head? = some 58 then ofText none (contract s)
    else ofText (some (s.takeWhile (· ≠ 58) ++ [colon])) (contract rest)

section
variable {a b s : Text}

theorem contract_cons {c : UInt16} (h : c ≠ 58) (s : Text) :
    contract (c :: s) = c :: contract s := by
  cases s with
  | nil => exact if_neg h
  | cons d s => rw [contract, if_neg h]

theorem contract_append (h : 58 ∉ a) (b : Text) : contract (a ++ b) = a ++ contract b := by
  induction a with
  | nil => rfl
  | cons c a ih =>
    rw [mem_cons, not_or] at h
    rw [cons_append, contract_cons (Ne.symm h.1), ih h.2, cons_append]

theorem length_contract_le (s : Text) : (contract s).length ≤ s.length := by
  fun_induction contract s with
  | case1 => exact Nat.le_refl 0
  | case2 => exact Nat.zero_le _
  | case3 => exact Nat.le_refl 1
  | case4 d s ih =>
    simp only [length_cons]
    omega
  | case5 c d s hc ih =>
    simp only [length_cons] at ih ⊢
    omega

theorem mem_of_mem_contract {c : UInt16} (h : c ∈ contract s) : c ∈ s := by
  fun_induction contract s with
  | case1 => exact h
  | case2 => cases h
  | case3 => exact h
  | case4 d s ih =>
    rcases mem_cons.1 h with rfl | h
    · simp
    · simp [ih h]
  | case5 e d s he ih =>
    rcases mem_cons.1 h with rfl | h
    · simp
    · exact mem_cons_of_mem e (ih h)

theorem contract_escape (s : Text) : contract (escape s) = s := by
  induction s with
  | nil => rfl
  | cons c s ih =>
    rw [escape]
    split
    · next h =>
      subst h
      rw [contract, if_pos rfl, ih]
    · next h => rw [contract_cons h, ih]

theorem escape_eq_self (h : 58 ∉ s) : escape s = s := by
  induction s with
  | nil => rfl
  | cons c s ih =>
    rw [mem_cons, not_or] at h
    rw [escape, if_neg (Ne.symm h.1), ih h.2]

theorem eq_colon_of_escape {k : Text} (h : escape s = k ++ s) : ∀ c ∈ k, c = 58 := by
  induction s generalizing k with
  | nil =>
    intro c hc
    rw [append_nil] at h
    rw [← h] at hc
    cases hc
  | cons d s ih =>
    cases k with
    | nil => simp
    | cons e k =>
      rw [escape] at h
      split at h
      · next hd =>
        obtain ⟨rfl, htail⟩ := List.cons.inj h
        subst hd
        cases k with
        | nil => simp
        | cons e' k =>
          obtain ⟨rfl, hrest⟩ := List.cons.inj htail
          have hall := ih (k := k ++ [58]) (hrest.trans (by simp))
          intro c hc
          simp only [mem_cons] at hc
          rcases hc with rfl | rfl | hc
          · rfl
          · rfl
          · exact hall c (mem_append_left _ hc)
      · next hd =>
        obtain ⟨rfl, htail⟩ := List.cons.inj h
        -- the character goes to the end of what is in front, so it would be a colon
        have hall := ih (k := k ++ [d]) (htail.trans (by simp))
        exact absurd (hall d (by simp)) hd

theorem escape_eq_self_iff : escape s = s ↔ 58 ∉ s := by
  refine ⟨?_, escape_eq_self⟩
  intro h
  induction s with
  | nil => simp
  | cons c s ih =>
    rw [escape] at h
    split at h
    · next hc =>
      have hlen := congrArg List.length (List.cons.inj h).2
      have hle : s.length ≤ (escape s).length := by
        have := length_contract_le (escape s)
        rwa [contract_escape] at this
      simp only [length_cons] at hlen
      omega
    · next hc =>
      rw [mem_cons, not_or]
      exact ⟨Ne.symm hc, ih (List.cons.inj h).2⟩

/-- One colon more in front, by luck. -/
theorem escape_eq_cons_iff {c : UInt16} :
    escape s = c :: s ↔ c = 58 ∧ ∃ q, s = 58 :: q ∧ 58 ∉ q := by
  constructor
  · intro h
    have hc : c = 58 := eq_colon_of_escape (k := [c]) h c mem_cons_self
    subst hc
    refine ⟨rfl, ?_⟩
    cases s with
    | nil => cases h
    | cons d q =>
      rw [escape] at h
      split at h
      · next hd =>
        subst hd
        exact ⟨q, rfl, escape_eq_self_iff.1 (List.cons.inj (List.cons.inj h).2).2⟩
      · next hd => exact absurd (List.cons.inj h).1 hd
  · rintro ⟨rfl, q, rfl, hq⟩
    rw [escape, if_pos rfl, escape_eq_self hq]

theorem escape_append (a b : Text) : escape (a ++ b) = escape a ++ escape b := by
  induction a with
  | nil => rfl
  | cons c a ih =>
    rw [cons_append, escape, escape, ih]
    split
    · rfl
    · rfl

/-- The text of a path is its escaped text behind the device. -/
theorem escape_join (l : List Name) :
    [47].intercalate (l.map fun n => escape n.text) = escape (join l) := by
  induction l with
  | nil => rfl
  | cons n l ih =>
    cases l with
    | nil => simp [List.intercalate]
    | cons m l =>
      have hslash : escape (47 :: join (m :: l)) = 47 :: escape (join (m :: l)) :=
        if_neg (by decide)
      rw [join_cons_cons, escape_append, hslash, ← ih]
      simp [List.intercalate]

theorem dropWhile_colon (h : 58 ∉ a) (b : Text) :
    (a ++ b).dropWhile (· ≠ 58) = b.dropWhile (· ≠ 58) ∧
      (a ++ b).takeWhile (· ≠ 58) = a ++ b.takeWhile (· ≠ 58) := by
  have ha : ∀ c ∈ a, decide (c ≠ 58) = true := by
    intro c hc
    rw [decide_eq_true_eq]
    rintro rfl
    exact h hc
  exact ⟨dropWhile_append_of_pos ha, takeWhile_append_of_pos ha⟩

theorem fromPortableString_noColon (h : 58 ∉ s) : fromPortableString s = ofText none s := by
  have hd := (dropWhile_colon h []).1
  rw [append_nil] at hd
  rw [fromPortableString, hd]
  rfl

theorem fromPortableString_double (h : 58 ∉ a) (b : Text) :
    fromPortableString (a ++ 58 :: 58 :: b) = ofText none (a ++ 58 :: contract b) := by
  have hd : (a ++ 58 :: 58 :: b).dropWhile (· ≠ 58) = 58 :: 58 :: b := (dropWhile_colon h _).1
  rw [fromPortableString, hd]
  show ofText none (contract _) = _
  rw [contract_append h]
  rfl

theorem fromPortableString_single (h : 58 ∉ a) (hb : b.head? ≠ some 58) :
    fromPortableString (a ++ 58 :: b) = ofText (some (a ++ [58])) (contract b) := by
  have hd : (a ++ 58 :: b).dropWhile (· ≠ 58) = 58 :: b := (dropWhile_colon h _).1
  have ht : (a ++ 58 :: b).takeWhile (· ≠ 58) = a := by
    rw [(dropWhile_colon h _).2]
    exact append_nil a
  rw [fromPortableString, hd, ht]
  exact if_neg hb

theorem fromPortableString_escape (s : Text) : fromPortableString (escape s) = ofText none s := by
  by_cases h : (58 : UInt16) ∈ s
  · obtain ⟨a, b, rfl, ha⟩ := eq_append_cons_of_mem h
    have hesc : escape (a ++ 58 :: b) = a ++ 58 :: 58 :: escape b := by
      rw [escape_append, escape_eq_self ha]
      rfl
    rw [hesc, fromPortableString_double ha, contract_escape]
  · rw [escape_eq_self h, fromPortableString_noColon h]

end

/-! ## Round trip -/

theorem Name.head_ne_slash (n : Name) : n.text.head? ≠ some 47 := by
  intro h
  exact n.noSlash (mem_of_head? h)

theorem join_head_ne_slash (l : List Name) : (join l).head? ≠ some 47 := by
  match l with
  | [] => simp
  | [n] => simpa using n.head_ne_slash
  | n :: m :: l =>
    rw [join_cons_cons, head?_append_of_ne_nil _ n.nonempty]
    exact n.head_ne_slash

theorem head?_toPortableString_slash (s : Text) :
    (ofText none (47 :: s)).toPortableString.head? = some 47 := by
  have hlead : leadingOf (47 :: s) = .unc ∨ leadingOf (47 :: s) = .slash := by
    unfold leadingOf
    split
    · exact .inl rfl
    · exact .inr (if_pos rfl)
  unfold ofText
  rcases hlead with h | h
  · rw [h]
    rfl
  · rw [h]
    rfl

theorem leadingOf_text (leading : Leading) {s : Text} (h : s.head? ≠ some 47) :
    leadingOf (leading.text ++ s) = leading := by
  cases s with
  | nil => cases leading <;> rfl
  | cons c s =>
    have hc : (47 == c) = false := by
      rw [beq_eq_false_iff_ne]
      rintro rfl
      exact h rfl
    cases leading <;> simp [leadingOf, Leading.text, List.isPrefixOf, hc]

theorem names_leading (leading : Leading) (s : Text) : names (leading.text ++ s) = names s := by
  cases leading with
  | none => rfl
  | slash => exact names_slash s
  | unc => exact (names_slash (47 :: s)).trans (names_slash s)

theorem ofText_join (h : ∀ n ∈ l, Plain n) (device : Option Text) (leading : Leading) :
    ofText device (leading.text ++ join l) = ⟨device, leading, l⟩ := by
  rw [ofText, leadingOf_text leading (join_head_ne_slash l), names_leading, names_join,
    collapse_plain h]

theorem ofText_join_relative (device : Option Text) (l : List Name) :
    ofText device (join l) = ⟨device, .none, collapse false l⟩ := by
  have hleading : leadingOf (join l) = .none := leadingOf_text .none (join_head_ne_slash l)
  rw [ofText, hleading, names_join]
  rfl

theorem ofText_trailing_relative (hne : l ≠ []) (device : Option Text) :
    ofText device (join l ++ [47]) = ⟨device, .none, collapse false l⟩ := by
  have hhead : (join l ++ [47]).head? ≠ some 47 := by
    rw [head?_append_of_ne_nil _ (join_ne_nil hne)]
    exact join_head_ne_slash l
  have hleading : leadingOf (join l ++ [47]) = .none := leadingOf_text .none hhead
  have hnames : names (join l ++ [47]) = l := by
    rw [names_append, names_join]
    exact append_nil l
  rw [ofText, hleading, hnames]
  rfl

theorem ofText_trailing (hne : l ≠ []) (h : ∀ n ∈ l, Plain n) (device : Option Text) :
    ofText device (join l ++ [47]) = ⟨device, .none, l⟩ := by
  rw [ofText_trailing_relative hne, collapse_plain h]

/-- What a path needs to be read back: its segments are plain, its device ends with its only colon,
and with a device it has a leading slash. -/
structure Path.Proper (p : Path) : Prop where
  plain : ∀ n ∈ p.segments, Plain n
  device : ∀ d, p.device = some d → p.leading ≠ .none ∧ ∃ e, d = e ++ [58] ∧ 58 ∉ e

theorem Leading.text_escape (leading : Leading) (s : Text) :
    leading.text ++ escape s = escape (leading.text ++ s) := by
  cases leading with
  | none | slash | unc => rfl

theorem fromPortableString_toPortableString {p : Path} (h : p.Proper) :
    fromPortableString p.toPortableString = p := by
  unfold Path.toPortableString
  rw [escape_join, append_assoc, Leading.text_escape]
  obtain ⟨device, leading, segments⟩ := p
  cases device with
  | none =>
    show fromPortableString (escape _) = _
    rw [fromPortableString_escape, ofText_join h.plain]
  | some d =>
    obtain ⟨hlead, e, rfl, he⟩ := h.device d rfl
    -- behind the colon of the device there is a slash
    have hslash : (escape (leading.text ++ join segments)).head? ≠ some 58 := by
      cases leading with
      | none => exact absurd rfl hlead
      | slash | unc => simp [Leading.text, escape]
    show fromPortableString (e ++ [58] ++ _) = _
    rw [append_assoc, singleton_append, fromPortableString_single he hslash,
      contract_escape, ofText_join h.plain]

end Paths
