import Mathlib.Logic.Function.Basic
import Mathlib.Algebra.GroupWithZero.Nat
import GitTest.Lib.TreeWalk

/-!
# Variants of resources in a commit (GitResourceVariantTree.java)

`fetchVariant` looks up a resource in the tree of a commit, with a walk that has the filter of its
path.  The filter lets the ancestors of the path and everything below it through as well.  For a
file the walk descends by itself and its first leaf is taken; for a container it is led down to the
path, and the id is read even if the walk has come to its end, when it is unspecified: such an id
(`stale`) is part of a call.  A variant that was found is kept in a cache, and the trees of a
synchronization have one commit for each repository as long as they live.

    all calls of a sequence return the tree entry of their resource ↔ each of them, for a file, has
      no leaf above or below its path, and for a container no leaf at its path, and an id zero from
      the walk that found nothing  (fetchVariants_iff)
-/

namespace Egit.VariantTree

open TreeWalk

section
variable {P N I : Type} [DecidableEq P] [DecidableEq N] [DecidableEq I] [Zero I]

/-! ## Algorithm -/

/-- A commit with its tree.  The names of a directory are distinct, and no id is `zeroId`. -/
structure RevCommit (N I : Type) [Zero I] where
  id : I
  treeId : I
  tree : Tree N I
  distinct : tree.Distinct
  ids : tree.All (· ≠ 0)

structure Resource (P N : Type) where
  project : P
  isFile : Bool
  /-- The path of its location in the work tree. -/
  location : Option (List N)
  deriving DecidableEq

inductive Variant (N I : Type)
  | gitRemoteFile (commit objectId : I) (path : List N)
  | gitRemoteFolder (commit objectId : I) (path : List N)
  deriving DecidableEq, Repr

abbrev Cache (P N I : Type) := Resource P N → Option (Variant N I)

def walkTree (c : RevCommit N I) (isFile : Bool) (path : List N) (stale : I) :
    Option (Variant N I) :=
  if isFile then
    match nextLeaf (pathFilter path) (c.tree.entries []) with
    | some (e, _) => if e.data ≠ 0 then some (.gitRemoteFile c.id e.data path) else none
    | none => none
  else
    let objectId :=
      match find (pathFilter path) path (c.tree.entries []) with
      | some e => e.data
      | none => stale
    if objectId ≠ 0 then some (.gitRemoteFolder c.id objectId path) else none

/-- `gsds` has the synchronization data of a project, if it has one, and its commit. -/
def fetchVariant (gsds : P → Option (Option (RevCommit N I))) (cache : Cache P N I)
    (resource : Resource P N) (stale : I) : Option (Variant N I) × Cache P N I :=
  match resource.location with
  | none => (none, cache)
  | some path =>
    match cache resource with
    | some variant => (some variant, cache)
    | none =>
      match gsds resource.project with
      | none | some none => (none, cache)
      | some (some c) =>
        -- handleRepositoryRoot
        if path = [] then (some (.gitRemoteFolder c.id c.treeId path), cache)
        else
          match walkTree c resource.isFile path stale with
          | some variant => (some variant, Function.update cache resource (some variant))
          | none => (none, cache)

/-- One call after the other, each with the id that a walk at its end would give. -/
def fetchVariants (gsds : P → Option (Option (RevCommit N I))) :
    Cache P N I → List (Resource P N × I) → List (Option (Variant N I))
  | _, [] => []
  | cache, (resource, stale) :: calls =>
    let (variant, cache') := fetchVariant gsds cache resource stale
    variant :: fetchVariants gsds cache' calls

/-! ## What it is for -/

/-- The entry of the commit's tree at the path, if it is of the kind of the resource. -/
def entryOf (c : RevCommit N I) (isFile : Bool) (path : List N) : Option (Variant N I) :=
  match isFile, c.tree.lookup path with
  | true, some (o, none) => some (.gitRemoteFile c.id o path)
  | false, some (o, some _) => some (.gitRemoteFolder c.id o path)
  | _, _ => none

def variantOf (gsds : P → Option (Option (RevCommit N I))) (resource : Resource P N) :
    Option (Variant N I) :=
  match resource.location, gsds resource.project with
  | some path, some (some c) =>
    if path = [] then some (.gitRemoteFolder c.id c.treeId path)
    else entryOf c resource.isFile path
  | _, _ => none

/-- The walk reads the entry of the resource and no other one. -/
def Readable (c : RevCommit N I) (isFile : Bool) (path : List N) (stale : I) : Prop :=
  if isFile then
    ¬ c.tree.Blocked path ∧ ∀ o below, c.tree.lookup path = some (o, some below) →
      below.hasLeaf = false
  else
    (∀ o, c.tree.lookup path ≠ some (o, none)) ∧ (c.tree.lookup path = none → stale = 0)

def Careful (gsds : P → Option (Option (RevCommit N I))) (call : Resource P N × I) : Prop :=
  ∀ path c, call.1.location = some path → gsds call.1.project = some (some c) → path ≠ [] →
    Readable c call.1.isFile path call.2

/-! ## Proof -/

section
variable {c : RevCommit N I} {path : List N}

omit [DecidableEq I] in
theorem entryOf_file_eq_none (h : ∀ o, c.tree.lookup path ≠ some (o, none)) :
    entryOf c true path = none := by
  unfold entryOf
  match hl : c.tree.lookup path with
  | none => rfl
  | some (o, none) => exact absurd hl (h o)
  | some (o, some below) => rfl

theorem walkTree_file_iff (hpath : path ≠ []) (stale : I) :
    walkTree c true path stale = entryOf c true path ↔ Readable c true path stale := by
  have hids : ∀ e l', nextLeaf (pathFilter path) (c.tree.entries []) = some (e, l') →
      e.data ≠ 0 := by
    intro e l' h
    exact nextLeaf_all (· ≠ 0) (fun e he => c.ids.of_mem_entries he) h
  have hcases := nextLeaf_cases c.distinct [] hpath rfl
  rw [List.nil_append] at hcases
  rcases hcases with ⟨o, l', hlook, hnext⟩ | ⟨hleaf, hsome⟩
  · have hblock : ¬ c.tree.Blocked path := by
      intro hb
      rw [Tree.lookup_of_blocked hb] at hlook
      cases hlook
    simp [walkTree, entryOf, Readable, hnext, hlook, hblock, hids _ _ hnext]
  · have hread : Readable c true path stale ↔
        nextLeaf (pathFilter path) (c.tree.entries []) = none := by
      rw [← Option.not_isSome_iff_eq_none, hsome]
      simp [Readable]
    rw [entryOf_file_eq_none hleaf, hread]
    unfold walkTree
    cases hnext : nextLeaf (pathFilter path) (c.tree.entries []) with
    | none => simp
    | some p => simp [hids _ _ hnext]

theorem walkTree_folder_iff (hpath : path ≠ []) (stale : I) :
    walkTree c false path stale = entryOf c false path ↔ Readable c false path stale := by
  have hfind := find_eq_lookup c.distinct [] hpath rfl
  rw [List.nil_append] at hfind
  unfold walkTree entryOf Readable
  simp only [Bool.false_eq_true, if_false, hfind]
  rcases hlook : c.tree.lookup path with _ | ⟨o, _ | below⟩
  · simp
  · simp [c.ids.of_lookup c.distinct hlook]
  · simp [c.ids.of_lookup c.distinct hlook]

theorem walkTree_iff (isFile : Bool) (hpath : path ≠ []) (stale : I) :
    walkTree c isFile path stale = entryOf c isFile path ↔ Readable c isFile path stale := by
  cases isFile with
  | true => exact walkTree_file_iff hpath stale
  | false => exact walkTree_folder_iff hpath stale

omit [DecidableEq I] in
theorem readable_of_entryOf {isFile : Bool} {v : Variant N I} (h : entryOf c isFile path = some v)
    (stale : I) : Readable c isFile path stale := by
  unfold entryOf at h
  match isFile, hlook : c.tree.lookup path with
  | true, none | true, some (_, some _) | false, none | false, some (_, none) =>
    rw [hlook] at h
    cases h
  | true, some (o, none) =>
    have hblock : ¬ c.tree.Blocked path := by
      intro hb
      rw [Tree.lookup_of_blocked hb] at hlook
      cases hlook
    simp [Readable, hlook, hblock]
  | false, some (o, some below) => simp [Readable, hlook]

end

section
variable {gsds : P → Option (Option (RevCommit N I))} {cache : Cache P N I}

def Sound (gsds : P → Option (Option (RevCommit N I))) (cache : Cache P N I) : Prop :=
  ∀ r v, cache r = some v → variantOf gsds r = some v

omit [DecidableEq P] [DecidableEq I] in
theorem careful_of_variantOf {r : Resource P N} {v : Variant N I}
    (h : variantOf gsds r = some v) (stale : I) : Careful gsds (r, stale) := by
  intro path c hloc hc hpath
  dsimp only at hloc hc
  simp only [variantOf, hloc, hc, if_neg hpath] at h
  exact readable_of_entryOf h stale

omit [DecidableEq P] [DecidableEq I] in
theorem careful_of_no_commit {r : Resource P N} (h : ∀ c, gsds r.project ≠ some (some c))
    (stale : I) : Careful gsds (r, stale) :=
  fun _ c _ hc _ => absurd hc (h c)

omit [DecidableEq I] in
theorem Sound.update (hs : Sound gsds cache) {r : Resource P N} {v : Variant N I}
    (hv : variantOf gsds r = some v) : Sound gsds (Function.update cache r (some v)) := by
  intro r' v' h
  by_cases hr : r' = r
  · subst hr
    rw [Function.update_self] at h
    cases h
    exact hv
  · rw [Function.update_of_ne hr] at h
    exact hs r' v' h

/-- One call: its result is the right one exactly if it is careful, and then the cache stays
sound. -/
theorem fetchVariant_iff (hs : Sound gsds cache) (r : Resource P N) (stale : I) :
    ((fetchVariant gsds cache r stale).1 = variantOf gsds r ↔ Careful gsds (r, stale)) ∧
      (Careful gsds (r, stale) → Sound gsds (fetchVariant gsds cache r stale).2) := by
  unfold fetchVariant
  cases hloc : r.location with
  | none =>
    have hcare : Careful gsds (r, stale) := by
      intro path c h
      rw [hloc] at h
      cases h
    simp [variantOf, hloc, hcare, hs]
  | some path =>
    cases hcache : cache r with
    | some v =>
      have hv := hs r v hcache
      simp [hv, careful_of_variantOf hv, hs]
    | none =>
      match hg : gsds r.project with
      | none | some none =>
        have hcare : Careful gsds (r, stale) := careful_of_no_commit (by simp [hg]) stale
        simp [variantOf, hloc, hg, hcare, hs]
      | some (some c) =>
        have hcare : Careful gsds (r, stale) ↔ (path ≠ [] → Readable c r.isFile path stale) := by
          simp [Careful, hloc, hg]
        by_cases hpath : path = []
        · simp [variantOf, hloc, hg, hpath, hcare, hs]
        · have hvar : variantOf gsds r = entryOf c r.isFile path := by
            simp only [variantOf, hloc, hg, if_neg hpath]
          have hwalk := walkTree_iff (c := c) r.isFile hpath stale
          rw [← hvar] at hwalk
          simp only [hcare, ne_eq, hpath, not_false_eq_true, forall_const, if_false, ← hwalk]
          cases hv : walkTree c r.isFile path stale with
          | none => exact ⟨Iff.rfl, fun _ => hs⟩
          | some v => exact ⟨Iff.rfl, fun h => hs.update h.symm⟩

theorem fetchVariants_of_sound (hs : Sound gsds cache) (calls : List (Resource P N × I)) :
    fetchVariants gsds cache calls = calls.map (fun call => variantOf gsds call.1) ↔
      ∀ call ∈ calls, Careful gsds call := by
  induction calls generalizing cache with
  | nil => simp [fetchVariants]
  | cons call calls ih =>
    obtain ⟨r, stale⟩ := call
    obtain ⟨hiff, hsound⟩ := fetchVariant_iff hs r stale
    simp only [fetchVariants, List.map_cons, List.cons.injEq, List.forall_mem_cons, hiff]
    -- the later calls use the cache that a right result has left
    exact and_congr_right fun hcare => ih (hsound hcare)

end

/-- **Variants of resources.**  In every sequence of calls on new trees, all of them return the entry
of the commit's tree at the path of their resource, if it is of its kind, and null else, if and only
if each call is careful. -/
theorem fetchVariants_iff (gsds : P → Option (Option (RevCommit N I)))
    (calls : List (Resource P N × I)) :
    fetchVariants gsds (fun _ => none) calls = calls.map (fun call => variantOf gsds call.1) ↔
      ∀ call ∈ calls, Careful gsds call :=
  fetchVariants_of_sound (fun _ _ h => by cases h) calls

end

def oneFile : RevCommit Nat Nat where
  id := 7
  treeId := 8
  tree := .node 0 1 (.leaf 1 2 .nil) .nil
  distinct := by decide
  ids := by simp [Tree.All]

/-- The file resource `0` gets the id of `0/1`; there is no file `0` in the commit. -/
theorem file_below_read :
    fetchVariants (fun _ : Unit => some (some oneFile)) (fun _ => none)
        [(⟨(), true, some [0]⟩, 0)] = [some (.gitRemoteFile 7 2 [0])] ∧
      variantOf (fun _ : Unit => some (some oneFile)) ⟨(), true, some [0]⟩ = none := by
  refine ⟨?_, by decide⟩
  have htop : next (pathFilter [0]) (oneFile.tree.entries []) =
      some (⟨[0], 1, some (.leaf 1 2 .nil)⟩, []) := by decide
  have hbelow : next (pathFilter [0]) (enter ⟨[0], 1, some (.leaf 1 2 .nil)⟩ []) =
      some (⟨[0, 1], 2, none⟩, []) := by decide
  have hleaf : nextLeaf (pathFilter [0]) (oneFile.tree.entries []) =
      some (⟨[0, 1], 2, none⟩, []) := by
    rw [nextLeaf_of_next htop, if_neg (by decide)]
    exact nextLeaf_of_next hbelow
  have hwalk : walkTree oneFile true [0] 0 = some (.gitRemoteFile 7 2 [0]) := by
    unfold walkTree
    rw [if_pos rfl, hleaf]
    rfl
  simp [fetchVariants, fetchVariant, hwalk]

end Egit.VariantTree
