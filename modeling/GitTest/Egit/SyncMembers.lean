import Mathlib.Data.List.Dedup
import Mathlib.Logic.Function.Iterate
import GitTest.Lib.Paths
import GitTest.Lib.TreeWalk

/-!
# Members of a container in a synchronization (GitResourceVariantTreeSubscriber.java)

`members` walks over the work tree with the filter of the container's path.  It first goes down
once per segment of the path (`enterFilteredPath`), and then matches the names of the entries that
it meets with the members that the workspace has.  The path of the work tree itself is the empty
string; it has no filter, and splitting it at the slashes gives one segment and not none.  What a
walk does behind its end is unspecified: the entries that it meets then (`ended`) are part of a call.

A work tree is a tree of names whose entries are ignored or not; it has no entry for `.git`.

    the result is the members with an entry that is not ignored ↔ the container is included (or has
      no such member), if it is the work tree itself, then to take the children of its first entry
      for this entry makes no difference, and a walk that ends above it meets no member
      (members_iff)
-/

namespace Egit.SyncMembers

open List TreeWalk
open Paths (Name Text join)

/-! ## Algorithm -/

abbrev Path := List Name

/-- The data of an entry is what `isEntryIgnored` says. -/
abbrev WorkTree := {t : Tree Name Bool // t.Distinct}

structure SyncData where
  workTree : Path
  /-- The locations of the included containers. -/
  includedPaths : Option (List Path)

inductive Resource
  | file
  /-- A container with its path in the work tree and the names of its members. -/
  | container (path : Path) (members : List Name)

def shouldBeIncluded (gsd : SyncData) (path : Path) : Bool :=
  match gsd.includedPaths with
  | none => true
  | some includedPaths =>
    includedPaths.any fun location => location.isPrefixOf (gsd.workTree ++ path)

/-- `none` is a walk that is at its end. -/
def nextAndEnter (filter : Path → Bool) (tw : List (Entry Name Bool)) :
    Option (List (Entry Name Bool)) :=
  (next filter tw).map fun (e, tw') => enter e tw'

/-- The path is the text that `stripWorkDir` gives. -/
def enterFilteredPath (filter : Path → Bool) (path : Text) (tw : List (Entry Name Bool)) :
    Option (List (Entry Name Bool)) :=
  let subtreesLen := (path.splitOn 47).length
  (Option.bind · (nextAndEnter filter))^[subtreesLen] (some tw)

def entriesMet (t : WorkTree) (ended : List (Entry Name Bool)) (path : Path) :
    List (Entry Name Bool) :=
  let filter := if 0 < (join path).length then pathFilter path else fun _ => true
  ((enterFilteredPath filter (join path) (t.1.entries [])).map (visited filter)).getD ended

def members (gsd : SyncData) (t : WorkTree) (ended : List (Entry Name Bool)) : Resource → List Name
  | .file => []
  | .container path allMembers =>
    if shouldBeIncluded gsd path = false then []
    else
      let gitMembers := (entriesMet t ended path).filterMap fun e =>
        if e.data then none
        else e.path.getLast?.bind fun name => allMembers.find? fun member => member = name
      gitMembers.dedup

/-! ## What it is for -/

/-- The work tree has an entry at the path that is not ignored. -/
def Shown (t : Tree Name Bool) (path : Path) : Prop := ∃ b, t.lookup path = some (false, b)

/-- To meet the children of the first entry instead of this entry makes no difference for the
members. -/
def FirstHarmless (t : Tree Name Bool) (allMembers : List Name) : Prop :=
  match t with
  | .nil => True
  | .leaf n ignored _ => n ∈ allMembers → ignored = true
  | .node n ignored below rest => ∀ m ∈ allMembers,
    (m = n → ignored = false → Shown below [m]) ∧
      (Shown below [m] → Shown (.node n ignored below rest) [m])

/-- The walk comes to its end on the way to the path. -/
def Ends (t : Tree Name Bool) (path : Path) : Prop :=
  if path = [] then t = .nil else t.lookup path = none

/-- An entry of this name that is not ignored is met. -/
def Takes (l : List (Entry Name Bool)) (m : Name) : Prop :=
  ∃ e ∈ l, e.data = false ∧ e.path.getLast? = some m

/-! ## Proof -/

section
variable {filter : Path → Bool} {tw : List (Entry Name Bool)}

theorem nextAndEnter_nil (h : visited filter tw = []) : nextAndEnter filter tw = none := by
  rw [nextAndEnter, next_of_visited_nil h]
  rfl

theorem iterate_none (k : Nat) : (Option.bind · (nextAndEnter filter))^[k] none = none :=
  Function.iterate_fixed rfl k

/-- Down one segment at a time the walk gets to the entries below the path. -/
theorem visited_nextAndEnter {t : Tree Name Bool} (ht : t.Distinct) (dir : Path) {q : Path}
    (hq : q ≠ [])
    (hl : visited (pathFilter (dir ++ q)) tw = visited (pathFilter (dir ++ q)) (t.entries dir)) :
    ((Option.bind · (nextAndEnter (pathFilter (dir ++ q))))^[q.length] (some tw)).map
        (visited (pathFilter (dir ++ q))) =
      match t.lookup q with
      | some (_, some below) => some (below.entries (dir ++ q))
      | some (_, none) => some []
      | none => none := by
  induction q generalizing t dir tw with
  | nil => exact absurd rfl hq
  | cons n q ih =>
    rw [length_cons, Function.iterate_succ_apply, Option.bind_some]
    match hc : t.child n, q with
    | none, q =>
      have hlook : t.lookup (n :: q) = none := by
        cases q with
        | nil => rw [Tree.lookup, hc]
        | cons m q => rw [Tree.lookup, hc]
      rw [hlook, nextAndEnter_nil (visited_of_child_none ht hl hc), iterate_none]
      rfl
    | some (d, none), [] =>
      obtain ⟨l', hn, hl'⟩ := next_of_child ht hl hc
      rw [nextAndEnter, hn, Tree.lookup, hc]
      show some (visited _ l') = some []
      rw [hl']
    | some (d, none), m :: q =>
      obtain ⟨l', hn, hl'⟩ := next_of_child ht hl hc
      -- the filter lets nothing through behind a file that stands for a folder of the path
      rw [nextAndEnter, hn, Tree.lookup, hc, length_cons, Function.iterate_succ_apply]
      show Option.map _ ((Option.bind · _)^[q.length] (nextAndEnter _ l')) = none
      rw [nextAndEnter_nil hl', iterate_none]
      rfl
    | some (d, some below), [] =>
      obtain ⟨l', hn, hl'⟩ := next_of_child ht hl hc
      rw [nextAndEnter, hn, Tree.lookup, hc]
      show some (visited _ (enter ⟨dir ++ [n], d, some below⟩ l')) = some (below.entries _)
      rw [visited_enter hl']
      simpa using visited_below below (dir ++ [n]) []
    | some (d, some below), m :: q =>
      obtain ⟨l', hn, hl'⟩ := next_of_child ht hl hc
      have happ : dir ++ n :: m :: q = dir ++ [n] ++ m :: q := by simp
      rw [nextAndEnter, hn, Tree.lookup, hc, happ]
      rw [happ] at hl'
      exact ih (ht.below hc) (dir ++ [n]) (by simp) (visited_enter hl')

end

variable {m : Name} {t : WorkTree} {ended : List (Entry Name Bool)}

theorem takes_append {l k : List (Entry Name Bool)} :
    Takes (l ++ k) m ↔ Takes l m ∨ Takes k m := by
  simp only [Takes, mem_append, or_and_right, exists_or]

theorem takes_entries {t : Tree Name Bool} (ht : t.Distinct) (dir : Path) :
    Takes (t.entries dir) m ↔ Shown t [m] := by
  constructor
  · rintro ⟨e, he, hd, hm⟩
    obtain ⟨n, hp, hc⟩ := (Tree.mem_entries ht).1 he
    rw [hp, getLast?_concat] at hm
    cases hm
    refine ⟨e.below, ?_⟩
    rw [← hd]
    exact hc
  · rintro ⟨b, hc⟩
    exact ⟨⟨dir ++ [m], false, b⟩, (Tree.mem_entries ht).2 ⟨m, rfl, hc⟩, rfl, getLast?_concat ..⟩

theorem mem_members {gsd : SyncData} {path : Path} {allMembers : List Name}
    (hinc : shouldBeIncluded gsd path = true) :
    m ∈ members gsd t ended (.container path allMembers) ↔
      m ∈ allMembers ∧ Takes (entriesMet t ended path) m := by
  rw [members, if_neg (by simp [hinc]), mem_dedup, mem_filterMap]
  constructor
  · rintro ⟨e, he, hm⟩
    split at hm
    · cases hm
    · next hd =>
      obtain ⟨name, hname, hfind⟩ := Option.bind_eq_some_iff.1 hm
      have heq : m = name := by simpa using find?_some hfind
      subst heq
      exact ⟨mem_of_find?_eq_some hfind, e, he, by simpa using hd, hname⟩
  · rintro ⟨hm, e, he, hd, hname⟩
    refine ⟨e, he, ?_⟩
    rw [if_neg (by simp [hd]), hname]
    show allMembers.find? _ = some m
    cases hfind : allMembers.find? fun member => member = m with
    | none => exact absurd (find?_eq_none.1 hfind m hm) (by simp)
    | some member =>
      have heq : member = m := by simpa using find?_some hfind
      rw [heq]

theorem takes_entriesMet {path : Path} (h : path ≠ []) :
    Takes (entriesMet t ended path) m ↔
      if t.1.lookup path = none then Takes ended m else Shown t.1 (path ++ [m]) := by
  have hmet : entriesMet t ended path =
      (match t.1.lookup path with
      | some (_, some below) => some (below.entries path)
      | some (_, none) => some []
      | none => none).getD ended := by
    have hpos : 0 < (join path).length := length_pos_iff.2 (Paths.join_ne_nil h)
    simp only [entriesMet, if_pos hpos, enterFilteredPath, Paths.splitOn_join h, length_map]
    exact congrArg (Option.getD · ended) (visited_nextAndEnter t.2 [] h rfl)
  rw [hmet, Shown, Tree.lookup_concat h]
  rcases hlook : t.1.lookup path with _ | ⟨d, _ | below⟩
  · rfl
  · simp [Takes]
  · exact takes_entries (t.2.below_of_lookup hlook) path

/-- At the work tree itself it meets the children of the first entry, and then the other entries. -/
theorem takes_entriesMet_root :
    Takes (entriesMet t ended []) m ↔
      match t.1 with
      | .nil => Takes ended m
      | .leaf _ _ rest => Shown rest [m]
      | .node _ _ below rest => Shown below [m] ∨ Shown rest [m] := by
  have hall : ∀ l : List (Entry Name Bool), visited (fun _ => true) l = l := by simp [visited]
  have hmet : entriesMet t ended [] =
      ((nextAndEnter (fun _ => true) (t.1.entries [])).map (visited fun _ => true)).getD ended := rfl
  obtain ⟨t, ht⟩ := t
  rw [hmet]
  cases t with
  | nil => rfl
  | leaf n d rest =>
    show Takes (visited (fun _ => true) (rest.entries [])) m ↔ Shown rest [m]
    rw [hall]
    exact takes_entries ht.2 []
  | node n d below rest =>
    show Takes (visited (fun _ => true) (below.entries [n] ++ rest.entries [])) m ↔ _
    rw [hall, takes_append, takes_entries ht.2.1, takes_entries ht.2.2]

theorem shown_cons {n : Name} {d : Bool} {b : Option (Tree Name Bool)} {rest : Tree Name Bool}
    (hn : n ∉ rest.names) : Shown (.cons n d b rest) [m] ↔ m = n ∧ d = false ∨ Shown rest [m] := by
  unfold Shown Tree.lookup
  rw [Tree.child_cons]
  split
  · next h =>
    subst h
    simp [Tree.child_eq_none hn]
  · next h => simp [Ne.symm h]

theorem not_shown {t : Tree Name Bool} {n : Name} (hn : n ∉ t.names) : ¬ Shown t [n] := by
  rintro ⟨b, hc⟩
  rw [Tree.lookup, Tree.child_eq_none hn] at hc
  cases hc

theorem root_iff {allMembers : List Name} :
    (∀ m ∈ allMembers, Takes (entriesMet t ended []) m ↔ Shown t.1 [m]) ↔
      FirstHarmless t.1 allMembers ∧ (t.1 = .nil → ∀ m ∈ allMembers, ¬ Takes ended m) := by
  simp only [takes_entriesMet_root]
  obtain ⟨t, ht⟩ := t
  cases t with
  | nil => simp [Shown, Tree.lookup, Tree.child, FirstHarmless]
  | leaf n ignored rest =>
    have hshown : ∀ m, Shown (.leaf n ignored rest) [m] ↔
        m = n ∧ ignored = false ∨ Shown rest [m] :=
      fun m => shown_cons (b := none) ht.1
    simp only [hshown, reduceCtorEq, false_implies, and_true]
    constructor
    · intro h hn
      cases ignored with
      | true => rfl
      | false => exact absurd ((h n hn).2 (.inl ⟨rfl, rfl⟩)) (not_shown ht.1)
    · intro h m hm
      refine ⟨.inr, ?_⟩
      rintro (⟨rfl, hd⟩ | hrest)
      · rw [h hm] at hd
        cases hd
      · exact hrest
  | node n ignored below rest =>
    have hshown : ∀ m, Shown (.node n ignored below rest) [m] ↔
        m = n ∧ ignored = false ∨ Shown rest [m] := fun m => shown_cons (b := some below) ht.1
    simp only [reduceCtorEq, false_implies, and_true]
    apply forall₂_congr
    intro m hm
    rw [hshown]
    constructor
    · intro h
      refine ⟨?_, fun hb => h.1 (.inl hb)⟩
      rintro rfl hd
      exact (h.2 (.inl ⟨rfl, hd⟩)).resolve_right (not_shown ht.1)
    · rintro ⟨hfirst, hbelow⟩
      constructor
      · rintro (hb | hr)
        · exact hbelow hb
        · exact .inr hr
      · rintro (⟨hm, hd⟩ | hr)
        · exact .inl (hfirst hm hd)
        · exact .inr hr

/-- `members` lists the members with an entry that is not ignored, if and only if the container is
included or has none of them, at the work tree itself the first entry does no harm, and a walk that
comes to its end above the container meets no member. -/
theorem members_iff (gsd : SyncData) (t : WorkTree) (ended : List (Entry Name Bool)) (path : Path)
    (allMembers : List Name) :
    (∀ m, m ∈ members gsd t ended (.container path allMembers) ↔
        m ∈ allMembers ∧ Shown t.1 (path ++ [m])) ↔
      if shouldBeIncluded gsd path then
        (path = [] → FirstHarmless t.1 allMembers) ∧
          (Ends t.1 path → ∀ m ∈ allMembers, ¬ Takes ended m)
      else ∀ m ∈ allMembers, ¬ Shown t.1 (path ++ [m]) := by
  split
  · next hinc =>
    simp only [mem_members hinc, and_congr_right_iff]
    by_cases hp : path = []
    · subst hp
      simpa [Ends] using root_iff
    · simp only [takes_entriesMet hp, hp, Ends, if_false, false_implies, true_and]
      by_cases hlook : t.1.lookup path = none
      · have hno : ∀ m, ¬ Shown t.1 (path ++ [m]) := by
          simp [Shown, Tree.lookup_concat hp, hlook]
        simp [hlook, hno]
      · simp [hlook]
  · next hinc =>
    have hnil : members gsd t ended (.container path allMembers) = [] := by
      rw [members, if_pos (by simpa using hinc)]
    simp [hnil]

/-- A work tree with a folder `a` that has the file `x` in it and with a file `b`. -/
def folderThenFile : WorkTree :=
  let a : Name := ⟨[97], by decide, by decide⟩
  let b : Name := ⟨[98], by decide, by decide⟩
  let x : Name := ⟨[120], by decide, by decide⟩
  ⟨.node a false (.leaf x false .nil) (.leaf b false .nil), by decide⟩

/-- The project at the work tree shows `b` only; the folder `a` is missing. -/
theorem first_entry_missing :
    let a : Name := ⟨[97], by decide, by decide⟩
    let b : Name := ⟨[98], by decide, by decide⟩
    members ⟨[], none⟩ folderThenFile [] (.container [] [a, b]) = [b] ∧
      Shown folderThenFile.1 [a] := by
  refine ⟨by decide, ?_⟩
  exact ⟨some (.leaf ⟨[120], by decide, by decide⟩ false .nil), by decide⟩

end Egit.SyncMembers
