import GitTest.Lib.Walk

/-!
# The kind of a change between two commits (GitSyncInfo.java)

`calculateKind` compares the trees of the source and of the destination commit at one path
and takes the direction of a change from the flags of the first commit that JGit's `RevWalk`
yields.  The walk starts from both commits, so this is always the newer of the two and never
another one: the direction follows the commit times, and no change is ever a conflict.
-/

namespace Egit.SyncInfo

open List Walk

/-! ## Trees -/

/-- The segments of a path; the root is empty. -/
abbrev Path := List String

section
variable {I : Type} [DecidableEq I] (zeroId : I)

/-- The files of a tree with mode and object id.  No file lies below another one. -/
structure Tree where
  paths : List Path
  entry : Path → Option (Nat × I)
  mem_paths : ∀ {p e}, entry p = some e → p ∈ paths
  leaf : ∀ {p q e e'}, entry p = some e → entry (p ++ q) = some e' → q = []
  root : entry [] = none
  nonzero : ∀ {p e}, entry p = some e → e.2 ≠ zeroId

variable {zeroId}

def Tree.getObjectId (t : Tree zeroId) (p : Path) : I := ((t.entry p).map Prod.snd).getD zeroId

def Tree.getRawMode (t : Tree zeroId) (p : Path) : Nat := ((t.entry p).map Prod.fst).getD 0

def anyDiff (src dst : Tree zeroId) (p : Path) : Bool :=
  decide (src.getRawMode p ≠ dst.getRawMode p) || decide (src.getObjectId p ≠ dst.getObjectId p)

/-- `PathFilter`: the path itself, what is above it and what is below it. -/
def pathFilter (path p : Path) : Bool := p.isPrefixOf path || path.isPrefixOf p

/-- What a recursive walk over both trees yields. -/
def diffs (src dst : Tree zeroId) (path : Path) : List Path :=
  (src.paths ++ dst.paths).filter fun p => anyDiff src dst p && pathFilter path p

/-- The first path of a walk over trees; the order is JGit's. -/
structure TreeOrder where
  first : List Path → Option Path
  mem : ∀ {l p}, first l = some p → p ∈ l
  nonempty : ∀ {l}, first l = none → l = []

end

/-! ## Kinds -/

def inSync : Nat := 0
def addition : Nat := 1
def change : Nat := 3
def outgoing : Nat := 4
def incoming : Nat := 8
def conflicting : Nat := 12

inductive Flag
  | source
  | destination
  deriving DecidableEq, Repr

/-- The variants of the resource: the path in the working tree if it exists there, and the
cache paths of the remote and the base variant. -/
structure Variants where
  existing : Option Path
  remote : Option Path
  base : Option Path

def Variants.localPath (v : Variants) : Option Path :=
  match v.existing, v.remote, v.base with
  | some p, _, _ => some p
  | none, some p, _ => some p
  | none, none, b => b

/-- The repository as `GitSyncInfo` sees it. -/
structure Repo (C I : Type) (zeroId : I) where
  graph : Graph C
  time : C → Int
  tree : C → Tree zeroId
  treesReadable : Bool
  commitsReadable : Bool

section
variable {C I : Type} [DecidableEq C] [DecidableEq I] {zeroId : I} (repo : Repo C I zeroId)
  (n : Newest repo.time) (order : TreeOrder)

/-- The flags added in `initializeRevWalk`. -/
def ownFlags (src dst c : C) : Flag → Bool
  | .source => decide (c = src)
  | .destination => decide (c = dst)

/-- `rw.next()` of the walk that `initializeRevWalk` has set up.  No commit has carried a flag to
the first one. -/
def firstCommit (src dst : C) : Option (C × (Flag → Bool)) :=
  (step repo.graph n [src, dst] []).map fun c => (c, ownFlags src dst c)

/-- `none` is the exception for a walk without commits; an error of the store is caught. -/
def calculateKindImpl (src dst : C) (p : Path) : Option Nat :=
  if (repo.tree src).getObjectId p = zeroId then some (incoming ||| addition)
  else if (repo.tree dst).getObjectId p = zeroId then some (outgoing ||| addition)
  else if (repo.tree src).getObjectId p ≠ (repo.tree dst).getObjectId p then
    if repo.commitsReadable then
      match firstCommit repo n src dst with
      | none => none
      | some (_, has) =>
        if has .source then some (outgoing ||| change)
        else if has .destination then some (incoming ||| change)
        else some (conflicting ||| change)
    else some inSync
  else some inSync

/-- `superKind` is what the implementation of the super class returns. -/
def calculateKind (superKind : Nat) (v : Variants) (src dst : C) : Option Nat :=
  match v.localPath with
  | none => some superKind
  | some [] => some inSync
  | some path =>
    if repo.treesReadable then
      match order.first (diffs (repo.tree src) (repo.tree dst) path) with
      | some p => calculateKindImpl repo n src dst p
      | none => some inSync
    else some inSync

end

/-! ## The path -/

section
variable {I : Type} {zeroId : I} {src dst : Tree zeroId} {p q : Path}

theorem Tree.getObjectId_eq {t : Tree zeroId} {e : Nat × I} (h : t.entry p = some e) :
    t.getObjectId p = e.2 := by
  unfold Tree.getObjectId
  rw [h]
  rfl

theorem Tree.eq_of_related {t : Tree zeroId} {e e' : Nat × I} (hp : t.entry p = some e)
    (hq : t.entry q = some e') (h : pathFilter p q = true) : q = p := by
  rcases Bool.or_eq_true _ _ ▸ h with h | h
  · obtain ⟨r, rfl⟩ := isPrefixOf_iff_prefix.1 h
    rw [t.leaf hq hp, append_nil]
  · obtain ⟨r, rfl⟩ := isPrefixOf_iff_prefix.1 h
    rw [t.leaf hp hq, append_nil]

variable [DecidableEq I]

theorem entry_of_anyDiff (h : anyDiff src dst p = true) :
    (∃ e, src.entry p = some e) ∨ ∃ e, dst.entry p = some e := by
  by_contra hnone
  have hs : src.entry p = none :=
    Option.eq_none_iff_forall_ne_some.2 fun e he => hnone (.inl ⟨e, he⟩)
  have hd : dst.entry p = none :=
    Option.eq_none_iff_forall_ne_some.2 fun e he => hnone (.inr ⟨e, he⟩)
  simp [anyDiff, Tree.getRawMode, Tree.getObjectId, hs, hd] at h

theorem eq_of_mem_diffs {e e' : Nat × I} (hs : src.entry p = some e) (hd : dst.entry p = some e')
    (hq : q ∈ diffs src dst p) : q = p := by
  obtain ⟨-, hq⟩ := mem_filter.1 hq
  obtain ⟨hdiff, hrel⟩ := Bool.and_eq_true _ _ ▸ hq
  rcases entry_of_anyDiff hdiff with ⟨_, h⟩ | ⟨_, h⟩
  · exact Tree.eq_of_related hs h hrel
  · exact Tree.eq_of_related hd h hrel

theorem mem_diffs {e e' : Nat × I} (hs : src.entry p = some e) (hd : dst.entry p = some e')
    (hne : e.2 ≠ e'.2) : p ∈ diffs src dst p := by
  refine mem_filter.2 ⟨mem_append_left _ (src.mem_paths hs), ?_⟩
  have hid : src.getObjectId p ≠ dst.getObjectId p := by
    rwa [Tree.getObjectId_eq hs, Tree.getObjectId_eq hd]
  simp [anyDiff, pathFilter, hid]

theorem TreeOrder.first_diffs (order : TreeOrder) {e e' : Nat × I} (hs : src.entry p = some e)
    (hd : dst.entry p = some e') (hne : e.2 ≠ e'.2) :
    order.first (diffs src dst p) = some p := by
  cases h : order.first (diffs src dst p) with
  | none =>
    have hmem := mem_diffs hs hd hne
    rw [order.nonempty h] at hmem
    cases hmem
  | some q => rw [eq_of_mem_diffs hs hd (order.mem h)]

end

/-! ## The direction -/

section
variable {C I : Type} [DecidableEq C] {zeroId : I} {repo : Repo C I zeroId}
  {n : Newest repo.time} {order : TreeOrder} {src dst : C}

variable (repo n) in
/-- The first commit is one of the two, with its own flag only. -/
theorem firstCommit_eq (hne : src ≠ dst) :
    (n.pick [src, dst] = some src ∧
      ∃ has, firstCommit repo n src dst = some (src, has) ∧ has .source = true) ∨
    (n.pick [src, dst] = some dst ∧ ∃ has, firstCommit repo n src dst = some (dst, has) ∧
      has .source = false ∧ has .destination = true) := by
  have hpending : pending repo.graph [src, dst] [] = [src, dst] := by simp [pending]
  unfold firstCommit step
  rw [hpending]
  cases h : n.pick [src, dst] with
  | none => exact absurd (n.nonempty h) (by simp)
  | some c =>
    rcases mem_pair.1 (n.mem h) with rfl | rfl
    · exact .inl ⟨rfl, _, rfl, by simp [ownFlags]⟩
    · exact .inr ⟨rfl, _, rfl, by simp [ownFlags, hne.symm], by simp [ownFlags]⟩

variable [DecidableEq I]

variable (repo src dst) in
/-- The kind of a change as it should be. -/
structure FollowsAncestry (kind : Option Nat) : Prop where
  ahead : repo.graph.Reach src dst → kind = some (outgoing ||| change)
  behind : repo.graph.Reach dst src → kind = some (incoming ||| change)
  diverged : ¬ repo.graph.Reach src dst → ¬ repo.graph.Reach dst src →
    kind = some (conflicting ||| change)

variable (n order) in
theorem calculateKind_eq (superKind : Nat) {v : Variants} {p : Path} {e e' : Nat × I}
    (hv : v.localPath = some p) (hs : (repo.tree src).entry p = some e)
    (hd : (repo.tree dst).entry p = some e') (hne : e.2 ≠ e'.2)
    (htrees : repo.treesReadable = true) (hcommits : repo.commitsReadable = true) :
    (n.pick [src, dst] = some src ∧
      calculateKind repo n order superKind v src dst = some (outgoing ||| change)) ∨
    (n.pick [src, dst] = some dst ∧
      calculateKind repo n order superKind v src dst = some (incoming ||| change)) := by
  have hids := hne
  rw [← Tree.getObjectId_eq hs, ← Tree.getObjectId_eq hd] at hids
  have hne' : src ≠ dst := by
    rintro rfl
    exact hids rfl
  have hkind : calculateKind repo n order superKind v src dst =
      calculateKindImpl repo n src dst p := by
    unfold calculateKind
    rw [hv]
    cases p with
    | nil => rw [(repo.tree src).root] at hs; cases hs
    | cons a q => simp only [htrees, if_true, order.first_diffs hs hd hne]
  have himpl : calculateKindImpl repo n src dst p =
      match firstCommit repo n src dst with
      | none => none
      | some (_, has) =>
        if has .source then some (outgoing ||| change)
        else if has .destination then some (incoming ||| change)
        else some (conflicting ||| change) := by
    unfold calculateKindImpl
    rw [if_neg (Tree.getObjectId_eq hs ▸ (repo.tree src).nonzero hs),
      if_neg (Tree.getObjectId_eq hd ▸ (repo.tree dst).nonzero hd), if_pos hids, if_pos hcommits]
  rw [hkind, himpl]
  rcases firstCommit_eq repo n hne' with ⟨hpick, has, h, hsrc⟩ |
    ⟨hpick, has, h, hsrc, hdst⟩
  · exact .inl ⟨hpick, by simp [h, hsrc]⟩
  · exact .inr ⟨hpick, by simp [h, hsrc, hdst]⟩

variable (n order) in
/-- The direction follows the ancestry exactly if one commit comes behind the other and the
walk yields the descendant first, that is, as the newer one. -/
theorem calculateKind_follows_iff (superKind : Nat) {v : Variants} {p : Path} {e e' : Nat × I}
    (hv : v.localPath = some p) (hs : (repo.tree src).entry p = some e)
    (hd : (repo.tree dst).entry p = some e') (hne : e.2 ≠ e'.2)
    (htrees : repo.treesReadable = true) (hcommits : repo.commitsReadable = true) :
    FollowsAncestry repo src dst (calculateKind repo n order superKind v src dst) ↔
      (repo.graph.Reach src dst ∧ ¬ repo.graph.Reach dst src ∧ n.pick [src, dst] = some src) ∨
      (repo.graph.Reach dst src ∧ ¬ repo.graph.Reach src dst ∧
        n.pick [src, dst] = some dst) := by
  have hne' : src ≠ dst := by
    rintro rfl
    rw [hs] at hd
    cases hd
    exact hne rfl
  rcases calculateKind_eq n order superKind hv hs hd hne htrees hcommits with
    ⟨hpick, hkind⟩ | ⟨hpick, hkind⟩
  · rw [hpick, hkind]
    constructor
    · intro h
      have hnot : ¬ repo.graph.Reach dst src := fun hr => absurd (h.behind hr) (by decide)
      refine .inl ⟨?_, hnot, rfl⟩
      by_contra hr
      exact absurd (h.diverged hr hnot) (by decide)
    · rintro (⟨hr, hnot, -⟩ | ⟨-, -, h⟩)
      · exact ⟨fun _ => rfl, fun h => absurd h hnot, fun h => absurd hr h⟩
      · exact absurd (Option.some.inj h) hne'
  · rw [hpick, hkind]
    constructor
    · intro h
      have hnot : ¬ repo.graph.Reach src dst := fun hr => absurd (h.ahead hr) (by decide)
      refine .inr ⟨?_, hnot, rfl⟩
      by_contra hr
      exact absurd (h.diverged hnot hr) (by decide)
    · rintro (⟨-, -, h⟩ | ⟨hr, hnot, -⟩)
      · exact absurd (Option.some.inj h).symm hne'
      · exact ⟨fun h => absurd h hnot, fun _ => rfl, fun _ h => absurd hr h⟩

end

/-! ## Directions that do not follow the ancestry -/

def oneFile (id : Nat) (h : id ≠ 0) : Tree (0 : Nat) where
  paths := [["file"]]
  entry := fun p => if p = ["file"] then some (100644, id) else none
  mem_paths := by
    intro p e hp
    by_cases heq : p = ["file"]
    · simp [heq]
    · simp [heq] at hp
  leaf := by
    intro p q e e' hp hq
    by_cases heq : p = ["file"]
    · subst heq
      by_contra hne
      simp [hne] at hq
    · simp [heq] at hp
  root := rfl
  nonzero := by
    intro p e hp
    by_cases heq : p = ["file"]
    · simp only [heq, if_true, Option.some.injEq] at hp
      rw [← hp]
      exact h
    · simp [heq] at hp

def TreeOrder.head : TreeOrder where
  first := List.head?
  mem := fun h => List.mem_of_mem_head? h
  nonempty := fun h => List.head?_eq_none_iff.1 h

/-- The commits 0 and 1 over 2, each with another content of the file; the clock was wrong
for 0. -/
def forked : Repo Nat Nat 0 where
  graph := { vertices := [0, 1, 2], next := fun c => if c < 2 then [2] else [], closed := by decide }
  time := fun c => if c = 0 then 5 else if c = 1 then 9 else 7
  tree := fun c => oneFile (c + 1) (Nat.succ_ne_zero c)
  treesReadable := true
  commitsReadable := true

def ownFile : Variants := ⟨some ["file"], none, none⟩

theorem forked_reach (a c : Nat) (ha : a < 3) :
    forked.graph.Reach a c ↔ c = a ∨ c = 2 := by
  have hmem : a ∈ forked.graph.vertices := by
    show a ∈ [0, 1, 2]
    simp only [mem_cons, not_mem_nil, or_false]
    omega
  rw [reach_iff_mem_order (Newest.first forked.time) hmem]
  obtain rfl | rfl | rfl : a = 0 ∨ a = 1 ∨ a = 2 := by omega
  · show c ∈ [0, 2] ↔ _
    simp
  · show c ∈ [1, 2] ↔ _
    simp
  · show c ∈ [2] ↔ _
    simp

theorem calculateKind_follows_later :
    FollowsAncestry forked 1 2
      (calculateKind forked (Newest.first forked.time) .head 0 ownFile 1 2) := by
  refine (calculateKind_follows_iff (Newest.first forked.time) .head 0 rfl rfl rfl (by decide)
    rfl rfl).2 (.inl ⟨?_, ?_, by decide⟩)
  · rw [forked_reach 1 2 (by decide)]
    decide
  · rw [forked_reach 2 1 (by decide)]
    decide

/-- Of the two commits over 2 neither is an ancestor of the other, and still the change is
incoming; and 2 is an ancestor of 0, and still the change is incoming. -/
theorem calculateKind_follows_time :
    (calculateKind forked (Newest.first forked.time) .head 0 ownFile 0 1 =
        some (incoming ||| change) ∧
      ¬ FollowsAncestry forked 0 1
        (calculateKind forked (Newest.first forked.time) .head 0 ownFile 0 1)) ∧
    (calculateKind forked (Newest.first forked.time) .head 0 ownFile 0 2 =
        some (incoming ||| change) ∧
      ¬ FollowsAncestry forked 0 2
        (calculateKind forked (Newest.first forked.time) .head 0 ownFile 0 2)) := by
  have h₁ : calculateKind forked (Newest.first forked.time) .head 0 ownFile 0 1 =
      some (incoming ||| change) := by decide
  have h₂ : calculateKind forked (Newest.first forked.time) .head 0 ownFile 0 2 =
      some (incoming ||| change) := by decide
  refine ⟨⟨h₁, ?_⟩, h₂, ?_⟩
  · intro h
    have hkind := h.diverged (by rw [forked_reach 0 1 (by decide)]; decide)
      (by rw [forked_reach 1 0 (by decide)]; decide)
    exact absurd hkind (by decide)
  · intro h
    have hkind := h.ahead (by rw [forked_reach 0 2 (by decide)]; decide)
    exact absurd hkind (by decide)

end Egit.SyncInfo
