import Mathlib.Algebra.GroupWithZero.Nat
import Mathlib.Data.List.Basic

/-!
# Walks over a tree of named entries

A tree is the list of the entries of a directory; an entry is a leaf, or has a tree below it.  A
walk goes through the entries one after the other and skips those that its filter does not accept;
it descends into a tree only when it is told to (`enter`), or always (`nextLeaf`).  What is still to
come is one list: the rest of the directory, then the rest of the one above it, and so on.

The filter of a path accepts the path, what is above it and what is below it.  In a tree with
distinct names it accepts at most one entry of each directory on the way:

    visited (pathFilter (dir ++ n :: q)) (t.entries dir) = the child `n` of `t`  (visited_entries)
    a walk that enters what it meets until it is at the path finds what is there  (find_eq_lookup)
    the first leaf is the one at the path; with none there, one above or one below (nextLeaf_cases)
-/

namespace TreeWalk

open List

/-- The entries of a directory; `below` are those of a tree in it. -/
inductive Tree (N D : Type)
  | nil
  | leaf (name : N) (data : D) (rest : Tree N D)
  | node (name : N) (data : D) (below rest : Tree N D)
  deriving DecidableEq, Repr

structure Entry (N D : Type) where
  path : List N
  data : D
  below : Option (Tree N D)
  deriving DecidableEq, Repr

section
variable {N D : Type}

/-! ## Trees -/

namespace Tree

def names : Tree N D → List N
  | nil => []
  | leaf n _ rest | node n _ _ rest => n :: rest.names

def Distinct : Tree N D → Prop
  | nil => True
  | leaf n _ rest => n ∉ rest.names ∧ rest.Distinct
  | node n _ below rest => n ∉ rest.names ∧ below.Distinct ∧ rest.Distinct

def entries (dir : List N) : Tree N D → List (Entry N D)
  | nil => []
  | leaf n d rest => ⟨dir ++ [n], d, none⟩ :: rest.entries dir
  | node n d below rest => ⟨dir ++ [n], d, some below⟩ :: rest.entries dir

def size : Tree N D → Nat
  | nil => 0
  | leaf _ _ rest => 1 + rest.size
  | node _ _ below rest => 1 + below.size + rest.size

def hasLeaf : Tree N D → Bool
  | nil => false
  | leaf _ _ _ => true
  | node _ _ below rest => below.hasLeaf || rest.hasLeaf

/-- The property holds of the data of every entry, at any depth. -/
def All (P : D → Prop) : Tree N D → Prop
  | nil => True
  | leaf _ d rest => P d ∧ rest.All P
  | node _ d below rest => P d ∧ below.All P ∧ rest.All P

/-- A first entry of either kind. -/
def cons (n : N) (d : D) (b : Option (Tree N D)) (rest : Tree N D) : Tree N D :=
  match b with
  | none => leaf n d rest
  | some below => node n d below rest

/-- Induction along one directory. -/
theorem directory_induction {motive : Tree N D → Prop} (nil : motive nil)
    (cons : ∀ n d b rest, motive rest → motive (cons n d b rest)) (t : Tree N D) : motive t := by
  induction t with
  | nil => exact nil
  | leaf n d rest ih => exact cons n d none rest ih
  | node n d below rest _ ih => exact cons n d (some below) rest ih

@[simp] theorem names_cons (n : N) (d : D) (b : Option (Tree N D)) (rest : Tree N D) :
    (cons n d b rest).names = n :: rest.names := by
  cases b <;> rfl

@[simp] theorem entries_cons (dir : List N) (n : N) (d : D) (b : Option (Tree N D))
    (rest : Tree N D) : (cons n d b rest).entries dir = ⟨dir ++ [n], d, b⟩ :: rest.entries dir := by
  cases b <;> rfl

variable {n : N} {d : D} {t : Tree N D} {q : List N}

theorem distinct_cons {b : Option (Tree N D)} {rest : Tree N D} :
    (cons n d b rest).Distinct ↔
      n ∉ rest.names ∧ (∀ below, b = some below → below.Distinct) ∧ rest.Distinct := by
  cases b <;> simp [cons, Distinct]

theorem All.of_mem_entries {P : D → Prop} (h : t.All P) {dir : List N} {e : Entry N D}
    (he : e ∈ t.entries dir) :
    P e.data ∧ ∀ below, e.below = some below → below.All P := by
  induction t with
  | nil => cases he
  | leaf n d rest ih =>
    rcases mem_cons.1 he with rfl | he
    · exact ⟨h.1, fun below hb => by cases hb⟩
    · exact ih h.2 he
  | node n d below rest _ ih =>
    rcases mem_cons.1 he with rfl | he
    · refine ⟨h.1, ?_⟩
      rintro below' ⟨⟩
      exact h.2.1
    · exact ih h.2.2 he

variable [DecidableEq N]

def decidableDistinct : (t : Tree N D) → Decidable t.Distinct
  | nil => .isTrue trivial
  | leaf n _ rest =>
    have := rest.decidableDistinct
    inferInstanceAs (Decidable (n ∉ rest.names ∧ rest.Distinct))
  | node n _ below rest =>
    have := below.decidableDistinct
    have := rest.decidableDistinct
    inferInstanceAs (Decidable (n ∉ rest.names ∧ below.Distinct ∧ rest.Distinct))

instance (t : Tree N D) : Decidable t.Distinct := t.decidableDistinct

/-- The entry of a name: its data, and the tree below it if it is one. -/
def child (n : N) : Tree N D → Option (D × Option (Tree N D))
  | nil => none
  | leaf m d rest => if m = n then some (d, none) else rest.child n
  | node m d below rest => if m = n then some (d, some below) else rest.child n

def lookup (t : Tree N D) : List N → Option (D × Option (Tree N D))
  | [] => none
  | [n] => t.child n
  | n :: m :: q =>
    match t.child n with
    | some (_, some below) => below.lookup (m :: q)
    | some (_, none) | none => none

@[simp] theorem child_cons (m n : N) (d : D) (b : Option (Tree N D)) (rest : Tree N D) :
    (cons n d b rest).child m = if n = m then some (d, b) else rest.child m := by
  cases b <;> rfl

def Blocked (t : Tree N D) (q : List N) : Prop :=
  ∃ p r d, q = p ++ r ∧ r ≠ [] ∧ t.lookup p = some (d, none)

theorem mem_names_iff : n ∈ t.names ↔ (t.child n).isSome = true := by
  induction t using directory_induction with
  | nil => simp [names, child]
  | cons m d b rest ih =>
    by_cases h : m = n
    · simp [h]
    · simp [h, ih, Ne.symm h]

theorem child_eq_none (h : n ∉ t.names) : t.child n = none := by
  simpa [mem_names_iff] using h

theorem Distinct.below {below : Tree N D} (h : t.Distinct) (hc : t.child n = some (d, some below)) :
    below.Distinct := by
  induction t using directory_induction with
  | nil => cases hc
  | cons m d' b rest ih =>
    obtain ⟨-, hb, hrest⟩ := distinct_cons.1 h
    rw [child_cons] at hc
    split at hc
    · cases hc
      exact hb below rfl
    · exact ih hrest hc

theorem Distinct.below_of_lookup {below : Tree N D} (h : t.Distinct)
    (hl : t.lookup q = some (d, some below)) : below.Distinct := by
  induction q generalizing t with
  | nil => cases hl
  | cons n q ih =>
    cases q with
    | nil => exact h.below hl
    | cons m q =>
      rw [lookup] at hl
      split at hl
      · next hc => exact ih (h.below hc) hl
      · cases hl
      · cases hl

theorem lookup_concat (hq : q ≠ []) (n : N) :
    t.lookup (q ++ [n]) = (t.lookup q).bind fun c => c.2.bind (child n) := by
  induction q generalizing t with
  | nil => exact absurd rfl hq
  | cons m q ih =>
    cases q with
    | nil =>
      show t.lookup [m, n] = (t.child m).bind _
      unfold lookup
      match t.child m with
      | none => rfl
      | some (_, none) => rfl
      | some (_, some below) => rfl
    | cons k q =>
      show t.lookup (m :: k :: (q ++ [n])) = _
      unfold lookup
      match t.child m with
      | none => rfl
      | some (_, none) => rfl
      | some (_, some below) => exact ih (by simp)

theorem mem_entries (ht : t.Distinct) {dir : List N} {e : Entry N D} :
    e ∈ t.entries dir ↔ ∃ n, e.path = dir ++ [n] ∧ t.child n = some (e.data, e.below) := by
  induction t using directory_induction with
  | nil => simp [entries, child]
  | cons m d b rest ih =>
    obtain ⟨hm, -, hrest⟩ := distinct_cons.1 ht
    rw [entries_cons, mem_cons, ih hrest]
    constructor
    · rintro (rfl | ⟨n, hp, hc⟩)
      · exact ⟨m, rfl, by simp⟩
      · refine ⟨n, hp, ?_⟩
        rw [child_cons, if_neg]
        · exact hc
        · rintro rfl
          rw [child_eq_none hm] at hc
          cases hc
    · rintro ⟨n, hp, hc⟩
      rw [child_cons] at hc
      split at hc
      · next h =>
        subst h
        obtain ⟨path, data, below⟩ := e
        cases hp
        cases hc
        exact .inl rfl
      · exact .inr ⟨n, hp, hc⟩

theorem All.of_lookup {P : D → Prop} (ht : t.Distinct) (h : t.All P) {b : Option (Tree N D)}
    (hl : t.lookup q = some (d, b)) : P d := by
  induction q generalizing t with
  | nil => cases hl
  | cons n q ih =>
    have hchild : ∀ {d b}, t.child n = some (d, b) →
        P d ∧ ∀ below, b = some below → below.All P := by
      intro d b hc
      have hmem : ⟨[n], d, b⟩ ∈ t.entries [] := (mem_entries ht).2 ⟨n, rfl, hc⟩
      exact h.of_mem_entries hmem
    cases q with
    | nil => exact (hchild hl).1
    | cons m q =>
      rw [lookup] at hl
      split at hl
      · next hc => exact ih (ht.below hc) ((hchild hc).2 _ rfl) hl
      · cases hl
      · cases hl

theorem blocked_cons {m : N} : t.Blocked (n :: m :: q) ↔
    (∃ d, t.child n = some (d, none)) ∨
      ∃ d below, t.child n = some (d, some below) ∧ below.Blocked (m :: q) := by
  constructor
  · rintro ⟨p, r, d, hq, hr, hl⟩
    match p with
    | [] => cases hl
    | [n'] =>
      cases hq
      exact .inl ⟨d, hl⟩
    | n' :: m' :: p' =>
      obtain ⟨rfl, rfl, rfl⟩ := hq
      simp only [lookup] at hl
      split at hl
      · next d' below hc => exact .inr ⟨d', below, hc, m :: p', r, d, rfl, hr, hl⟩
      · cases hl
      · cases hl
  · rintro (⟨d, hc⟩ | ⟨d, below, hc, p, r, d', hq, hr, hl⟩)
    · exact ⟨[n], m :: q, d, rfl, by simp, hc⟩
    · refine ⟨n :: p, r, d', by rw [hq]; rfl, hr, ?_⟩
      cases p with
      | nil => cases hl
      | cons a p => simpa [lookup, hc] using hl

theorem not_blocked_singleton (t : Tree N D) (n : N) : ¬ t.Blocked [n] := by
  rintro ⟨p, r, d, hq, hr, hl⟩
  cases p with
  | nil => cases hl
  | cons a p =>
    simp only [cons_append, List.cons.injEq] at hq
    exact hr (append_eq_nil_iff.1 hq.2.symm).2

theorem lookup_of_blocked (h : t.Blocked q) : t.lookup q = none := by
  induction q generalizing t with
  | nil => rfl
  | cons n q ih =>
    cases q with
    | nil => exact absurd h (not_blocked_singleton t n)
    | cons m q =>
      rcases blocked_cons.1 h with ⟨d, hc⟩ | ⟨d, below, hc, hb⟩
      · rw [lookup, hc]
      · rw [lookup, hc]
        exact ih hb

end Tree

/-! ## Walks -/

def Entry.size (e : Entry N D) : Nat := 1 + (e.below.map Tree.size).getD 0

def sizes (l : List (Entry N D)) : Nat := (l.map Entry.size).sum

theorem sizes_entries (t : Tree N D) (dir : List N) : sizes (t.entries dir) = t.size := by
  induction t with
  | nil => rfl
  | leaf _ _ _ ih | node _ _ _ _ _ ih =>
    simp only [Tree.entries, sizes, map_cons, sum_cons, Tree.size] at ih ⊢
    rw [ih]
    rfl

theorem sizes_append (l k : List (Entry N D)) : sizes (l ++ k) = sizes l + sizes k := by
  simp [sizes]

/-- The next entry that the filter accepts, and what is to come behind it. -/
def next (filter : List N → Bool) : List (Entry N D) → Option (Entry N D × List (Entry N D))
  | [] => none
  | e :: l => if filter e.path then some (e, l) else next filter l

/-- The entries of the tree at `e` come first; a leaf has none. -/
def enter (e : Entry N D) (l : List (Entry N D)) : List (Entry N D) :=
  match e.below with
  | some below => below.entries e.path ++ l
  | none => l

variable {filter : List N → Bool} {l l' : List (Entry N D)} {e : Entry N D}

theorem mem_of_next (h : next filter l = some (e, l')) : e ∈ l ∧ ∀ e' ∈ l', e' ∈ l := by
  induction l with
  | nil => cases h
  | cons e₁ l ih =>
    rw [next] at h
    split at h
    · cases h
      exact ⟨mem_cons_self, fun e' he => mem_cons_of_mem _ he⟩
    · obtain ⟨he, hl'⟩ := ih h
      exact ⟨mem_cons_of_mem _ he, fun e' he' => mem_cons_of_mem _ (hl' e' he')⟩

theorem sizes_next (h : next filter l = some (e, l')) : e.size + sizes l' ≤ sizes l := by
  induction l with
  | nil => cases h
  | cons e' l ih =>
    simp only [next] at h
    split at h
    · cases h
      simp [sizes]
    · have := ih h
      simp only [sizes, map_cons, sum_cons] at this ⊢
      omega

theorem sizes_enter (e : Entry N D) (l : List (Entry N D)) :
    sizes (enter e l) + 1 = e.size + sizes l := by
  unfold enter Entry.size
  cases e.below with
  | none =>
    simp only [Option.map_none, Option.getD_none]
    omega
  | some below =>
    simp only [Option.map_some, Option.getD_some, sizes_append, sizes_entries]
    omega

/-- The entries that the walk meets when it enters none of them. -/
def visited (filter : List N → Bool) (l : List (Entry N D)) : List (Entry N D) :=
  l.filter fun e => filter e.path

@[simp] theorem visited_nil (filter : List N → Bool) :
    visited filter ([] : List (Entry N D)) = [] := rfl

theorem visited_append (filter : List N → Bool) (l k : List (Entry N D)) :
    visited filter (l ++ k) = visited filter l ++ visited filter k :=
  filter_append ..

theorem next_of_visited_nil (h : visited filter l = []) : next filter l = none := by
  induction l with
  | nil => rfl
  | cons e l ih =>
    simp only [visited, filter_cons] at h
    split at h
    · cases h
    · next hf => simp [next, hf, ih h]

/-- What a walk does depends on the accepted entries only. -/
theorem next_of_visited_cons {k : List (Entry N D)} (h : visited filter l = e :: k) :
    ∃ l', next filter l = some (e, l') ∧ visited filter l' = k := by
  induction l with
  | nil => cases h
  | cons e' l ih =>
    simp only [visited, filter_cons] at h
    split at h
    · next hf =>
      cases h
      exact ⟨l, by simp [next, hf], rfl⟩
    · next hf =>
      obtain ⟨l', hn, hl'⟩ := ih h
      exact ⟨l', by simp [next, hf, hn], hl'⟩

theorem visited_enter {below : Tree N D} {p : List N} {d : D} (hl : visited filter l = []) :
    visited filter (enter ⟨p, d, some below⟩ l) = visited filter (below.entries p) := by
  show visited filter (below.entries p ++ l) = _
  rw [visited_append, hl, append_nil]

/-- The next leaf of a walk that always descends. -/
def nextLeaf (filter : List N → Bool) (l : List (Entry N D)) :
    Option (Entry N D × List (Entry N D)) :=
  match _h : next filter l with
  | none => none
  | some (e, l') => if e.below.isNone then some (e, l') else nextLeaf filter (enter e l')
termination_by sizes l
decreasing_by
  have h1 := sizes_next _h
  have h2 := sizes_enter e l'
  omega

theorem nextLeaf_of_visited_nil (h : visited filter l = []) : nextLeaf filter l = none := by
  unfold nextLeaf
  split
  · rfl
  · next e l' hn =>
    rw [next_of_visited_nil h] at hn
    cases hn

theorem nextLeaf_of_next (h : next filter l = some (e, l')) : nextLeaf filter l =
      if e.below.isNone then some (e, l') else nextLeaf filter (enter e l') := by
  rw [nextLeaf]
  split
  · next hn =>
    rw [h] at hn
    cases hn
  · next e' l'' hn =>
    rw [h] at hn
    cases hn
    rfl

theorem nextLeaf_all (P : D → Prop)
    (hl : ∀ e ∈ l, P e.data ∧ ∀ below, e.below = some below → below.All P)
    (h : nextLeaf filter l = some (e, l')) : P e.data := by
  fun_induction nextLeaf filter l with
  | case1 => cases h
  | case2 l e₁ l₁ hn hleaf =>
    cases h
    exact (hl e (mem_of_next hn).1).1
  | case3 l e₁ l₁ hn hleaf ih =>
    obtain ⟨he, hl₁⟩ := mem_of_next hn
    refine ih (fun e₂ he₂ => ?_) h
    unfold enter at he₂
    split at he₂
    · next below hb =>
      rcases mem_append.1 he₂ with he₂ | he₂
      · exact ((hl e₁ he).2 below hb).of_mem_entries he₂
      · exact hl e₂ (hl₁ e₂ he₂)
    · exact hl e₂ (hl₁ e₂ he₂)

section
variable [DecidableEq N]

/-- The walk goes on and enters what it meets, until it is at the path. -/
def find (filter : List N → Bool) (path : List N) (l : List (Entry N D)) : Option (Entry N D) :=
  match _h : next filter l with
  | none => none
  | some (e, l') => if e.path = path then some e else find filter path (enter e l')
termination_by sizes l
decreasing_by
  have h1 := sizes_next _h
  have h2 := sizes_enter e l'
  omega

variable {l : List (Entry N D)} {t : Tree N D}

theorem find_of_visited_nil {filter : List N → Bool} (path : List N) (h : visited filter l = []) :
    find filter path l = none := by
  unfold find
  split
  · rfl
  · next e l' hn =>
    rw [next_of_visited_nil h] at hn
    cases hn

theorem find_of_next {filter : List N → Bool} {path : List N} {l' : List (Entry N D)}
    {e : Entry N D} (h : next filter l = some (e, l')) :
    find filter path l = if e.path = path then some e else find filter path (enter e l') := by
  rw [find]
  split
  · next hn =>
    rw [h] at hn
    cases hn
  · next e' l'' hn =>
    rw [h] at hn
    cases hn
    rfl

/-! ## The filter of a path -/

def pathFilter (path p : List N) : Bool := p.isPrefixOf path || path.isPrefixOf p

theorem pathFilter_below (path q : List N) : pathFilter path (path ++ q) = true := by
  simp [pathFilter, isPrefixOf_iff_prefix]

theorem pathFilter_sibling (dir q : List N) (n m : N) :
    pathFilter (dir ++ n :: q) (dir ++ [m]) = decide (m = n) := by
  unfold pathFilter
  rw [Bool.eq_iff_iff]
  simp only [Bool.or_eq_true, isPrefixOf_iff_prefix, prefix_append_right_inj,
    decide_eq_true_eq, cons_prefix_cons, nil_prefix, and_true, prefix_nil]
  constructor
  · rintro (h | ⟨h, -⟩)
    · exact h
    · exact h.symm
  · exact .inl

/-- The one entry that the filter accepts in a directory above its path. -/
theorem visited_entries (ht : t.Distinct) (dir q : List N) (n : N) :
    visited (pathFilter (dir ++ n :: q)) (t.entries dir) =
      ((t.child n).map fun c => Entry.mk (dir ++ [n]) c.1 c.2).toList := by
  induction t using Tree.directory_induction with
  | nil => rfl
  | cons m d b rest ih =>
    obtain ⟨hm, -, hrest⟩ := Tree.distinct_cons.1 ht
    rw [Tree.entries_cons, visited, filter_cons, ← visited, ih hrest]
    simp only [pathFilter_sibling, Tree.child_cons, decide_eq_true_eq]
    split
    · next h =>
      -- behind an entry of the name there is no other one
      subst h
      rw [Tree.child_eq_none hm]
      rfl
    · rfl

theorem visited_below (t : Tree N D) (path q : List N) :
    visited (pathFilter path) (t.entries (path ++ q)) = t.entries (path ++ q) := by
  induction t using Tree.directory_induction with
  | nil => rfl
  | cons n d b rest ih =>
    rw [Tree.entries_cons, visited, filter_cons, ← visited, ih]
    simp [pathFilter_below]

/-! ## What a walk finds -/

section
variable {t : Tree N D} {dir q : List N} {n : N} {l : List (Entry N D)}

theorem visited_of_child_none (ht : t.Distinct)
    (hl : visited (pathFilter (dir ++ n :: q)) l =
      visited (pathFilter (dir ++ n :: q)) (t.entries dir))
    (hc : t.child n = none) : visited (pathFilter (dir ++ n :: q)) l = [] := by
  rw [hl, visited_entries ht, hc]
  rfl

/-- The walk gets to the child on the way to the path, and behind it nothing is accepted. -/
theorem next_of_child (ht : t.Distinct)
    (hl : visited (pathFilter (dir ++ n :: q)) l =
      visited (pathFilter (dir ++ n :: q)) (t.entries dir))
    {d : D} {b : Option (Tree N D)} (hc : t.child n = some (d, b)) :
    ∃ l', next (pathFilter (dir ++ n :: q)) l = some (⟨dir ++ [n], d, b⟩, l') ∧
      visited (pathFilter (dir ++ n :: q)) l' = [] := by
  apply next_of_visited_cons
  rw [hl, visited_entries ht, hc]
  rfl

end

theorem find_eq_lookup (ht : t.Distinct) (dir : List N) {q : List N} (hq : q ≠ [])
    (hl : visited (pathFilter (dir ++ q)) l = visited (pathFilter (dir ++ q)) (t.entries dir)) :
    find (pathFilter (dir ++ q)) (dir ++ q) l =
      (t.lookup q).map fun c => Entry.mk (dir ++ q) c.1 c.2 := by
  induction q generalizing t dir l with
  | nil => exact absurd rfl hq
  | cons n q ih =>
    match hc : t.child n, q with
    | none, q =>
      rw [find_of_visited_nil _ (visited_of_child_none ht hl hc)]
      cases q with
      | nil => rw [Tree.lookup, hc]; rfl
      | cons m q => rw [Tree.lookup, hc]; rfl
    | some (d, b), [] =>
      obtain ⟨l', hn, -⟩ := next_of_child ht hl hc
      rw [find_of_next hn, if_pos rfl, Tree.lookup, hc]
      rfl
    | some (d, none), m :: q =>
      obtain ⟨l', hn, hl'⟩ := next_of_child ht hl hc
      rw [find_of_next hn, if_neg (by simp), Tree.lookup, hc]
      exact find_of_visited_nil _ hl'
    | some (d, some below), m :: q =>
      obtain ⟨l', hn, hl'⟩ := next_of_child ht hl hc
      have happ : dir ++ n :: m :: q = dir ++ [n] ++ m :: q := by simp
      rw [find_of_next hn, if_neg (by simp), Tree.lookup, hc, happ]
      rw [happ] at hl'
      exact ih (ht.below hc) (dir ++ [n]) (by simp) (visited_enter hl')

theorem nextLeaf_below (t : Tree N D) (path q : List N) (l : List (Entry N D)) :
    nextLeaf (pathFilter path) (t.entries (path ++ q) ++ l) =
        nextLeaf (pathFilter path) l ∧ t.hasLeaf = false ∨
      t.hasLeaf = true ∧ ∃ e l', nextLeaf (pathFilter path) (t.entries (path ++ q) ++ l) =
        some (e, l') := by
  induction t generalizing q l with
  | nil => exact .inl ⟨rfl, rfl⟩
  | leaf n d rest _ =>
    have hn : next (pathFilter path) ((Tree.leaf n d rest).entries (path ++ q) ++ l) =
        some (⟨path ++ q ++ [n], d, none⟩, rest.entries (path ++ q) ++ l) := by
      simp [Tree.entries, next, pathFilter_below]
    exact .inr ⟨rfl, ⟨path ++ q ++ [n], d, none⟩, _, nextLeaf_of_next hn⟩
  | node n d below rest ihb ihr =>
    have hn : next (pathFilter path) ((Tree.node n d below rest).entries (path ++ q) ++ l) =
        some (⟨path ++ q ++ [n], d, some below⟩, rest.entries (path ++ q) ++ l) := by
      simp [Tree.entries, next, pathFilter_below]
    have hstep : nextLeaf (pathFilter path) ((Tree.node n d below rest).entries (path ++ q) ++ l) =
        nextLeaf (pathFilter path)
          (below.entries (path ++ (q ++ [n])) ++ (rest.entries (path ++ q) ++ l)) := by
      rw [nextLeaf_of_next hn, ← append_assoc path q [n]]
      rfl
    rw [hstep, Tree.hasLeaf]
    rcases ihb (q ++ [n]) (rest.entries (path ++ q) ++ l) with ⟨hb, hfalse⟩ | ⟨htrue, e, l', hb⟩
    · rw [hb, hfalse]
      exact ihr q l
    · exact .inr ⟨by rw [htrue, Bool.true_or], e, l', hb⟩

/-- The first leaf of a walk that always descends: the one at the path; without one there, a leaf
above the path or below it. -/
theorem nextLeaf_cases (ht : t.Distinct) (dir : List N) {q : List N} (hq : q ≠ [])
    (hl : visited (pathFilter (dir ++ q)) l = visited (pathFilter (dir ++ q)) (t.entries dir)) :
    (∃ d l', t.lookup q = some (d, none) ∧
        nextLeaf (pathFilter (dir ++ q)) l = some (⟨dir ++ q, d, none⟩, l')) ∨
      (∀ d, t.lookup q ≠ some (d, none)) ∧
        ((nextLeaf (pathFilter (dir ++ q)) l).isSome = true ↔
          t.Blocked q ∨ ∃ d below, t.lookup q = some (d, some below) ∧ below.hasLeaf = true) := by
  induction q generalizing t dir l with
  | nil => exact absurd rfl hq
  | cons n q ih =>
    match hc : t.child n, q with
    | none, q =>
      have hlook : t.lookup (n :: q) = none := by
        cases q with
        | nil => rw [Tree.lookup, hc]
        | cons m q => rw [Tree.lookup, hc]
      have hblock : ¬ t.Blocked (n :: q) := by
        cases q with
        | nil => exact Tree.not_blocked_singleton t n
        | cons m q => simp [Tree.blocked_cons, hc]
      right
      simp [nextLeaf_of_visited_nil (visited_of_child_none ht hl hc), hlook, hblock]
    | some (d, none), [] =>
      obtain ⟨l', hn, -⟩ := next_of_child ht hl hc
      exact .inl ⟨d, l', hc, nextLeaf_of_next hn⟩
    | some (d, some below), [] =>
      obtain ⟨l', hn, hl'⟩ := next_of_child ht hl hc
      have hlook : t.lookup [n] = some (d, some below) := hc
      have hblock := Tree.not_blocked_singleton t n
      have hstep : nextLeaf (pathFilter (dir ++ [n])) l =
          nextLeaf (pathFilter (dir ++ [n])) (below.entries (dir ++ [n] ++ []) ++ l') := by
        rw [append_nil]
        exact nextLeaf_of_next hn
      right
      rcases nextLeaf_below below (dir ++ [n]) [] l' with ⟨hb, hfalse⟩ | ⟨htrue, e, l'', hb⟩
      · simp [hstep.trans hb, hlook, hblock, hfalse, nextLeaf_of_visited_nil hl']
      · simp [hstep.trans hb, hlook, htrue]
    | some (d, none), m :: q =>
      obtain ⟨l', hn, -⟩ := next_of_child ht hl hc
      have hlook : t.lookup (n :: m :: q) = none := by rw [Tree.lookup, hc]
      have hblock : t.Blocked (n :: m :: q) := Tree.blocked_cons.2 (.inl ⟨d, hc⟩)
      right
      simp [nextLeaf_of_next hn, hlook, hblock]
    | some (d, some below), m :: q =>
      obtain ⟨l', hn, hl'⟩ := next_of_child ht hl hc
      have happ : dir ++ n :: m :: q = dir ++ [n] ++ m :: q := by simp
      have hlook : t.lookup (n :: m :: q) = below.lookup (m :: q) := by rw [Tree.lookup, hc]
      have hblock : t.Blocked (n :: m :: q) ↔ below.Blocked (m :: q) := by
        simp [Tree.blocked_cons, hc]
      have hstep := nextLeaf_of_next hn
      rw [happ] at hl' hstep
      rw [hlook, hblock, happ, hstep]
      exact ih (ht.below hc) (dir ++ [n]) (by simp) (visited_enter hl')

end

end

end TreeWalk
