import Mathlib.Algebra.GroupWithZero.Nat
import Mathlib.Algebra.Order.BigOperators.Group.List
import Mathlib.Algebra.Order.Group.Nat
import Mathlib.Data.List.Nodup

/-!
# The branch hierarchy of the repositories view (BranchHierarchyNode.java)

Legal ref names are split into segments without loss, so a path is the list of its segments. A
hierarchy node asks for the refs below its own path again.

    a complete expansion has the refs of the flat view, each once, which are those below the path
      that are not symbolic, and no two hierarchy nodes beside each other have one path
      (expand_perm)
-/

namespace Egit.BranchHierarchy

open List

/-! ## Algorithm -/

structure Ref (S : Type) where
  name : List S
  symbolic : Bool
  deriving DecidableEq, Repr

/-- A ref database, in the order of the map that `getRefs` returns. -/
structure RefDatabase (S : Type) where
  refs : List (Ref S)
  names : (refs.map (·.name)).Nodup

section
variable {S : Type} [DecidableEq S] (db : RefDatabase S) (path : List S)

/-- `getRefs(prefix)`: the refs whose name goes on behind `path` and a slash, each with the rest
of its name. -/
def RefDatabase.getRefs : List (List S × Ref S) :=
  (db.refs.filter fun r => path.isPrefixOf r.name && decide (path.length < r.name.length)).map
    fun r => (r.name.drop path.length, r)

def RefDatabase.getRef : Option (Ref S) := db.refs.find? fun r => r.name = path

def flatRefs : List (Ref S) :=
  ((db.getRefs path).filter fun entry => !entry.2.symbolic).map (·.2)

def getPathList : List (List S) :=
  ((db.getRefs path).filter fun entry => !entry.2.symbolic).map fun entry => path ++ entry.1

def addChildPath (result : List (List S)) (myPath : List S) : List (List S) :=
  if path.isPrefixOf myPath && decide (myPath.length - path.length > 1) then
    let newPath := path ++ myPath[path.length]?.toList
    if newPath ∈ result then result else result ++ [newPath]
  else result

def getChildPaths : List (List S) := (getPathList db path).foldl (addChildPath path) []

/-- A ref that is not found is added as `null`. -/
def getChildRefs : List (Option (Ref S)) :=
  ((getPathList db path).filter fun myPath =>
    path.isPrefixOf myPath && decide (myPath.length - path.length = 1)).map db.getRef

/-! ## Proof -/

variable {db path} {r : Ref S} {q : List S} {ls result : List (List S)}

theorem mem_flatRefs : r ∈ flatRefs db path ↔
    (r ∈ db.refs ∧ path <+: r.name ∧ path.length < r.name.length) ∧ r.symbolic = false := by
  simp only [flatRefs, RefDatabase.getRefs, filter_map, map_map, mem_map,
    mem_filter, Function.comp_apply, Bool.and_eq_true, isPrefixOf_iff_prefix,
    decide_eq_true_eq, Bool.not_eq_true', exists_eq_right]

theorem nodup_flatRefs : (flatRefs db path).Nodup := by
  simp only [flatRefs, RefDatabase.getRefs, filter_map, map_map]
  exact ((db.names.of_map _).filter _).filter _ |>.map fun _ _ h => h

theorem getPathList_eq : getPathList db path = (flatRefs db path).map (·.name) := by
  rw [flatRefs, map_map]
  refine map_congr_left fun entry he => ?_
  obtain ⟨r, hr, rfl⟩ := mem_map.1 (mem_filter.1 he).1
  obtain ⟨hp, -⟩ := Bool.and_eq_true_iff.1 (mem_filter.1 hr).2
  exact prefix_iff_eq_append.1 (List.isPrefixOf_iff_prefix.1 hp)

theorem getRef_name (hr : r ∈ db.refs) : db.getRef r.name = some r := by
  obtain ⟨r', h⟩ := Option.isSome_iff_exists.1
    (find?_isSome (p := fun x : Ref S => x.name = r.name) |>.2 ⟨r, hr, by simp⟩)
  have hname : r'.name = r.name := by simpa using find?_some h
  rw [← inj_on_of_nodup_map db.names (mem_of_find?_eq_some h) hr hname]
  exact hname ▸ h

theorem getChildRefs_eq : getChildRefs db path =
    ((flatRefs db path).filter fun r => r.name.length = path.length + 1).map some := by
  rw [getChildRefs, getPathList_eq, filter_map, map_map]
  have hfilter (r : Ref S) (hr : r ∈ flatRefs db path) :
      (path.isPrefixOf r.name && decide (r.name.length - path.length = 1)) =
        decide (r.name.length = path.length + 1) := by
    obtain ⟨⟨-, hp, hlt⟩, -⟩ := mem_flatRefs.1 hr
    rw [List.isPrefixOf_iff_prefix.2 hp]
    exact decide_eq_decide.2 (by omega)
  refine (congrArg (List.map _) (filter_congr hfilter)).trans ?_
  refine map_congr_left fun r hr => ?_
  exact getRef_name (mem_flatRefs.1 (mem_filter.1 hr).1).1.1

theorem addChildPath_foldl (hl : ∀ l ∈ ls, path <+: l) (hres : result.Nodup) :
    (ls.foldl (addChildPath path) result).Nodup ∧
      ∀ q, q ∈ ls.foldl (addChildPath path) result ↔
        q ∈ result ∨ ∃ l ∈ ls, path.length + 1 < l.length ∧ q = l.take (path.length + 1) := by
  induction ls generalizing result with
  | nil => simpa using hres
  | cons l ls ih =>
    obtain ⟨hp, hls⟩ := forall_mem_cons.1 hl
    have hnew : path ++ l[path.length]?.toList = l.take (path.length + 1) := by
      rw [take_add_one, prefix_iff_eq_take.1 hp]
      simp
    have hstep : (addChildPath path result l).Nodup ∧ ∀ q, q ∈ addChildPath path result l ↔
        q ∈ result ∨ path.length + 1 < l.length ∧ q = l.take (path.length + 1) := by
      simp only [addChildPath, isPrefixOf_iff_prefix.2 hp, Bool.true_and, hnew, decide_eq_true_eq]
      split
      · next hlt =>
        have hlt : path.length + 1 < l.length := by omega
        split
        · next hmem =>
          exact ⟨hres, fun q => ⟨.inl, fun h => h.elim id fun h => h.2 ▸ hmem⟩⟩
        · next hmem =>
          exact ⟨nodup_append'.2 ⟨hres, nodup_singleton _, by simpa using hmem⟩, by
            simp [hlt]⟩
      · next hlt =>
        have hlt : ¬path.length + 1 < l.length := by omega
        exact ⟨hres, by simp [hlt]⟩
    obtain ⟨hnodup, hmem⟩ := ih hls hstep.1
    refine ⟨hnodup, fun q => ?_⟩
    rw [foldl_cons, hmem, hstep.2, exists_mem_cons_iff, or_assoc]

theorem getChildPaths_spec : (getChildPaths db path).Nodup ∧ ∀ q, q ∈ getChildPaths db path ↔
    ∃ r ∈ flatRefs db path, path.length + 1 < r.name.length ∧
      q = r.name.take (path.length + 1) := by
  have hl : ∀ l ∈ getPathList db path, path <+: l := by
    rw [getPathList_eq, forall_mem_map]
    exact fun r hr => (mem_flatRefs.1 hr).1.2.1
  simpa [getChildPaths, getPathList_eq] using addChildPath_foldl hl nodup_nil

theorem length_of_mem_getChildPaths (h : q ∈ getChildPaths db path) :
    q.length = path.length + 1 ∧ path.length < (db.refs.map (·.name.length)).sum := by
  obtain ⟨r, hr, hlt, rfl⟩ := (getChildPaths_spec.2 q).1 h
  have hsum : r.name.length ≤ (db.refs.map (·.name.length)).sum :=
    le_sum_of_mem (mem_map_of_mem (mem_flatRefs.1 hr).1.1)
  simp only [length_take]
  omega

/-- The refs in the tree below a node, all hierarchy nodes expanded. -/
def expand (db : RefDatabase S) (path : List S) : List (Option (Ref S)) :=
  (getChildPaths db path).attach.flatMap (fun child => expand db child.1) ++ getChildRefs db path
termination_by (db.refs.map (·.name.length)).sum - path.length
decreasing_by
  have h := length_of_mem_getChildPaths child.2
  omega

/-- The refs that are more than one segment below `path` are those below its child paths. -/
theorem flatRefs_children : ((getChildPaths db path).flatMap (flatRefs db)).Perm
    ((flatRefs db path).filter fun r => !decide (r.name.length = path.length + 1)) := by
  refine (perm_ext_iff_of_nodup ?_ (nodup_flatRefs.filter _)).2 fun r => ?_
  · refine nodup_flatMap.2 ⟨fun _ _ => nodup_flatRefs, ?_⟩
    refine getChildPaths_spec.1.imp_of_mem fun {q q'} hq hq' hne r hr hr' => hne ?_
    -- a name has one first part of that length
    obtain ⟨hlen, -⟩ := length_of_mem_getChildPaths hq
    obtain ⟨hlen', -⟩ := length_of_mem_getChildPaths hq'
    rw [prefix_iff_eq_take.1 (mem_flatRefs.1 hr).1.2.1,
      prefix_iff_eq_take.1 (mem_flatRefs.1 hr').1.2.1, hlen, hlen']
  · simp only [mem_flatMap, mem_filter, Bool.not_eq_true', decide_eq_false_iff_not]
    constructor
    · rintro ⟨q, hq, hr⟩
      obtain ⟨hlen, -⟩ := length_of_mem_getChildPaths hq
      obtain ⟨r', hr', hlt', rfl⟩ := (getChildPaths_spec.2 q).1 hq
      obtain ⟨⟨hmem, hp, hlt⟩, hsym⟩ := mem_flatRefs.1 hr
      have hpath : path <+: r'.name.take (path.length + 1) :=
        prefix_take_iff.2 ⟨(mem_flatRefs.1 hr').1.2.1, by omega⟩
      exact ⟨mem_flatRefs.2 ⟨⟨hmem, hpath.trans hp, by omega⟩, hsym⟩, by omega⟩
    · rintro ⟨hr, hne⟩
      obtain ⟨⟨hmem, hp, hlt⟩, hsym⟩ := mem_flatRefs.1 hr
      have hlt : path.length + 1 < r.name.length := by omega
      refine ⟨r.name.take (path.length + 1), (getChildPaths_spec.2 _).2 ⟨r, hr, hlt, rfl⟩, ?_⟩
      refine mem_flatRefs.2 ⟨⟨hmem, take_prefix .., ?_⟩, hsym⟩
      rw [length_take]
      omega

theorem expand_perm_flatRefs (db : RefDatabase S) (path : List S) :
    (expand db path).Perm ((flatRefs db path).map some) := by
  induction path using expand.induct db with
  | case1 path ih =>
    rw [expand, flatMap_def, attach_map_val, ← flatMap_def, getChildRefs_eq]
    have hbelow : ((getChildPaths db path).flatMap (expand db)).Perm
        (((getChildPaths db path).flatMap (flatRefs db)).map some) := by
      rw [map_flatMap]
      exact List.Perm.flatMap_left _ fun q hq => ih ⟨q, hq⟩
    refine (hbelow.append_right _).trans ?_
    rw [← map_append]
    refine List.Perm.map _ ((flatRefs_children.append_right _).trans ?_)
    exact perm_append_comm.trans (filter_append_perm _ _)

/-- **Hierarchical and flat views.**  They have the same refs: each one below the path that is not
symbolic, once, and no other. -/
theorem expand_perm (db : RefDatabase S) (path : List S) :
    (expand db path).Perm ((flatRefs db path).map some) ∧ (flatRefs db path).Nodup ∧
      (getChildPaths db path).Nodup ∧
      ∀ r, some r ∈ expand db path ↔
        (r ∈ db.refs ∧ path <+: r.name ∧ path.length < r.name.length) ∧ r.symbolic = false := by
  have hperm := expand_perm_flatRefs db path
  refine ⟨hperm, nodup_flatRefs, getChildPaths_spec.1, fun r => ?_⟩
  rw [hperm.mem_iff, ← mem_flatRefs]
  simp

/-- `h/a`, `h/b/c` and `t/x`, with the symbolic `h/b/d`. -/
def nestedRefs : RefDatabase Char where
  refs := [⟨['h', 'a'], false⟩, ⟨['h', 'b', 'c'], false⟩, ⟨['h', 'b', 'd'], true⟩,
    ⟨['t', 'x'], false⟩]
  names := by decide

theorem expand_perm_nested :
    (expand nestedRefs ['h']).Perm [some ⟨['h', 'a'], false⟩, some ⟨['h', 'b', 'c'], false⟩] ∧
      getChildPaths nestedRefs ['h'] = [['h', 'b']] ∧
      some ⟨['h', 'b', 'd'], true⟩ ∉ expand nestedRefs ['h'] := by
  obtain ⟨hperm, -, -, hmem⟩ := expand_perm nestedRefs ['h']
  exact ⟨hperm, rfl, fun h => Bool.noConfusion ((hmem _).1 h).2⟩

end

end Egit.BranchHierarchy
