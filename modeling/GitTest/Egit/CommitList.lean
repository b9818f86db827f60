import GitTest.Lib.Walk
import Mathlib.Data.List.TakeWhile

/-!
# The commits of the synchronize view (GitModelRepository.java)

`getListOfCommit` walks the history from both commits, each with a flag of its own, lists
the commits that have one of the flags and stops at the first one that has both.  The walk
is JGit's `RevWalk`: it takes the newest pending commit.  `srcRev` is the local side (RIGHT,
outgoing).

How far `RevWalk` carries flags is not fixed here: a commit that is yielded has at least the flags
of the commits yielded before it that it is a parent of, and at most those of the commits that it
is reachable from (`Flags`).

What is listed is right if in the order of the walk the commits of one side come before the
common ones and the first common one is a parent of commits before it on both sides
(`CommonLast`).
-/

namespace Egit.CommitList

open List Walk

/-! ## Algorithm -/

inductive Flag
  | localFlag
  | remoteFlag
  deriving DecidableEq, Repr

inductive Direction
  | right
  | left
  deriving DecidableEq, Repr

/-- A child of the repository node.  The working tree is missing if it could not be read. -/
inductive Child (C : Type)
  | cache
  | workingTree (found : Bool)
  | commit (c : C) (direction : Direction)
  deriving DecidableEq, Repr

section
variable {C : Type}

/-- The commit that a flag is added to before the walk. -/
def root (srcRev dstRev : C) : Flag → C
  | .localFlag => srcRev
  | .remoteFlag => dstRev

/-- The flag goes over to a parent that is yielded after its child, and no further. -/
inductive Carried (g : Graph C) (srcRev dstRev : C) (order : List C) (k : Flag) : C → Prop
  | own : Carried g srcRev dstRev order k (root srcRev dstRev k)
  | parent {l₁ l₂ : List C} {u c : C} (ho : order = l₁ ++ c :: l₂) (hu : u ∈ l₁)
    (hc : c ∈ g.next u) (hk : Carried g srcRev dstRev order k u) :
    Carried g srcRev dstRev order k c

variable [DecidableEq C] (g : Graph C) {time : C → Int} (n : Newest time)

/-- The flags of the commits when `RevWalk` yields them. -/
structure Flags (srcRev dstRev : C) where
  has : C → Flag → Bool
  carried : ∀ {c k}, Carried g srcRev dstRev (order g n [srcRev, dstRev]) k c → has c k = true
  reach : ∀ {c k}, has c k = true → g.Reach (root srcRev dstRev k) c

/-- The loop over the walk. -/
def collect (has : C → Flag → Bool) : List C → List (Child C)
  | [] => []
  | nextCommit :: rest =>
    if has nextCommit .localFlag && has nextCommit .remoteFlag then []
    else if has nextCommit .localFlag then .commit nextCommit .right :: collect has rest
    else if has nextCommit .remoteFlag then .commit nextCommit .left :: collect has rest
    else collect has rest

def localChanges (gitCacheLen : Nat) (gitWorkingTree : Option Nat) : List (Child C) :=
  if gitCacheLen > 0 ∨ gitWorkingTree.getD 0 > 0 then
    [.cache, .workingTree gitWorkingTree.isSome]
  else []

/-- `included` are the counts for the local changes, if these are included; `readable` are the
commits that `parseCommit` can read. -/
def getListOfCommit {srcRev dstRev : C} (flags : Flags g n srcRev dstRev) (readable : C → Bool)
    (included : Option (Nat × Option Nat)) : List (Child C) :=
  if readable srcRev then
    (match included with
      | some (gitCacheLen, gitWorkingTree) => localChanges gitCacheLen gitWorkingTree
      | none => []) ++
    (if srcRev = dstRev then []
      else if readable dstRev then collect flags.has (order g n [srcRev, dstRev])
      else [])
  else []

/-- `getChildren`; without two commits only the working tree is shown. -/
def getChildren (flags : ∀ srcRev dstRev, Flags g n srcRev dstRev) (readable : C → Bool)
    (included : Option (Nat × Option Nat)) (gitWorkingTree : Option Nat) :
    Option C → Option C → List (Child C)
  | some srcRev, some dstRev => getListOfCommit g n (flags srcRev dstRev) readable included
  | none, _ | _, none => if gitWorkingTree.isSome then [.workingTree true] else []

end

/-! ## What is to be listed -/

section
variable {C : Type} (g : Graph C) (srcRev dstRev : C)

def Common (c : C) : Prop := g.Reach srcRev c ∧ g.Reach dstRev c

/-- Each commit of one side is listed once with its direction, and nothing else. -/
structure Exact (l : List (Child C)) : Prop where
  nodup : l.Nodup
  mem_iff : ∀ x, x ∈ l ↔
    (∃ c, g.Reach srcRev c ∧ ¬ g.Reach dstRev c ∧ x = .commit c .right) ∨
      (∃ c, g.Reach dstRev c ∧ ¬ g.Reach srcRev c ∧ x = .commit c .left)

/-- In the order of the walk the commits of one side come first, and the first common one is a
start or a parent of one of them, on each side. -/
def CommonLast (order : List C) : Prop :=
  ∃ l₁ l₂, order = l₁ ++ l₂ ∧ (∀ c ∈ l₁, ¬ Common g srcRev dstRev c) ∧
    (∀ c ∈ l₂, Common g srcRev dstRev c) ∧
    ∀ c ∈ l₂.head?, (c = srcRev ∨ ∃ u ∈ l₁, g.Reach srcRev u ∧ c ∈ g.next u) ∧
      (c = dstRev ∨ ∃ u ∈ l₁, g.Reach dstRev u ∧ c ∈ g.next u)

end

/-! ## The loop -/

section
variable {C : Type} (has : C → Flag → Bool)

/-- Not the commit that ends the loop. -/
def goesOn (c : C) : Bool := !(has c .localFlag && has c .remoteFlag)

def item (c : C) : Child C := .commit c (if has c .localFlag then .right else .left)

theorem collect_eq {l : List C} (h : ∀ c ∈ l, has c .localFlag = true ∨ has c .remoteFlag = true) :
    collect has l = (l.takeWhile (goesOn has)).map (item has) := by
  induction l with
  | nil => rfl
  | cons c l ih =>
    have ih := ih fun c hc => h c (mem_cons_of_mem _ hc)
    have hflag := h c mem_cons_self
    cases hl : has c .localFlag with
    | true =>
      cases hr : has c .remoteFlag with
      | true => simp [collect, goesOn, hl, hr]
      | false => simp [collect, goesOn, item, hl, hr, ih]
    | false =>
      have hr : has c .remoteFlag = true := by simpa [hl] using hflag
      simp [collect, goesOn, item, hl, hr, ih]

theorem item_inj {u v : C} (h : item has u = item has v) : u = v := (Child.commit.inj h).1

end

/-! ## The flags of the walk -/

section
variable {C : Type} {g : Graph C} {time : C → Int} {n : Newest time} {srcRev dstRev c : C}
  {k : Flag} {l₁ l₂ : List C}

theorem mem_pair_vertices (hs : srcRev ∈ g.vertices) (hd : dstRev ∈ g.vertices) :
    ∀ a ∈ [srcRev, dstRev], a ∈ g.vertices := by
  intro a ha
  rcases mem_pair.1 ha with rfl | rfl
  · exact hs
  · exact hd

theorem Carried.reach {o : List C} (h : Carried g srcRev dstRev o k c) :
    g.Reach (root srcRev dstRev k) c := by
  induction h with
  | own => exact .refl
  | parent _ _ hc _ ih => exact ih.tail hc

variable [DecidableEq C]

/-- Every commit of a walk has a flag from the commits before it. -/
theorem exists_carried {o : List C} (h : Walked g n [srcRev, dstRev] o) (hc : c ∈ o) :
    ∃ k, Carried g srcRev dstRev o k c := by
  -- by induction over how many commits come before `c`
  obtain ⟨l₁, l₂, ho⟩ := append_of_mem hc
  induction hlen : l₁.length using Nat.strong_induction_on generalizing c l₁ l₂ with
  | _ m ih =>
    rcases (mem_pending.1 (n.mem (h.split ho).2)).1 with hs | ⟨u, hu, hnext⟩
    · rcases mem_pair.1 hs with rfl | rfl
      · exact ⟨.localFlag, .own⟩
      · exact ⟨.remoteFlag, .own⟩
    · obtain ⟨s, t, rfl⟩ := append_of_mem hu
      rw [length_append, length_cons] at hlen
      obtain ⟨k, hk⟩ := ih s.length (by omega) (ho ▸ mem_append_left _ hu) s (t ++ c :: l₂)
        (by rw [ho, append_assoc, cons_append]) rfl
      exact ⟨k, .parent ho hu hnext hk⟩

/-- A commit of one side has the flag of that side. -/
theorem carried_of_oneSided {o : List C} (h : Walked g n [srcRev, dstRev] o) (hc : c ∈ o)
    (hone : ¬ Common g srcRev dstRev c) (hr : g.Reach (root srcRev dstRev k) c) :
    Carried g srcRev dstRev o k c := by
  obtain ⟨k', hk'⟩ := exists_carried h hc
  have hr' := hk'.reach
  cases k with
  | localFlag =>
    cases k' with
    | localFlag => exact hk'
    | remoteFlag => exact absurd ⟨hr, hr'⟩ hone
  | remoteFlag =>
    cases k' with
    | localFlag => exact absurd ⟨hr', hr⟩ hone
    | remoteFlag => exact hk'

theorem carried_of_entered {o : List C} (h : Walked g n [srcRev, dstRev] o)
    (ho : o = l₁ ++ c :: l₂) (hone : ∀ u ∈ l₁, ¬ Common g srcRev dstRev u)
    (hc : c = root srcRev dstRev k ∨ ∃ u ∈ l₁, g.Reach (root srcRev dstRev k) u ∧ c ∈ g.next u) :
    Carried g srcRev dstRev o k c := by
  rcases hc with rfl | ⟨u, hu, hr, hnext⟩
  · exact .own
  · have humem : u ∈ o := ho ▸ mem_append_left _ hu
    exact .parent ho hu hnext (carried_of_oneSided h humem (hone u hu) hr)

section
variable (flags : Flags g n srcRev dstRev)
include flags

theorem Flags.goesOn_of_oneSided (hone : ¬ Common g srcRev dstRev c) :
    goesOn flags.has c = true := by
  by_contra hstop
  simp only [goesOn, Bool.not_eq_true, Bool.not_eq_false', Bool.and_eq_true] at hstop
  exact hone ⟨flags.reach hstop.1, flags.reach hstop.2⟩

variable (hs : srcRev ∈ g.vertices) (hd : dstRev ∈ g.vertices)
include hs hd

theorem Flags.flagged (hc : c ∈ order g n [srcRev, dstRev]) :
    flags.has c .localFlag = true ∨ flags.has c .remoteFlag = true := by
  obtain ⟨k, hk⟩ := exists_carried (order_spec g n (mem_pair_vertices hs hd)).1 hc
  cases k with
  | localFlag => exact .inl (flags.carried hk)
  | remoteFlag => exact .inr (flags.carried hk)

theorem Flags.item_right (hr : g.Reach srcRev c) (hnot : ¬ g.Reach dstRev c) :
    item flags.has c = .commit c .right := by
  obtain ⟨h, hdone⟩ := order_spec g n (mem_pair_vertices hs hd)
  have hc := (h.mem_iff hdone).2 ⟨srcRev, by simp, hr⟩
  have hk : Carried g srcRev dstRev _ .localFlag c :=
    carried_of_oneSided h hc (fun hc => hnot hc.2) hr
  rw [item, if_pos (flags.carried hk)]

omit hs hd in
theorem Flags.item_left (hnot : ¬ g.Reach srcRev c) : item flags.has c = .commit c .left := by
  have hk : ¬ flags.has c .localFlag = true := fun hk => hnot (flags.reach hk)
  rw [item, if_neg hk]

/-- The commits of one side, in the order of a whole walk, are an exact list. -/
theorem Flags.exact_of_oneSided (ho : order g n [srcRev, dstRev] = l₁ ++ l₂)
    (hone : ∀ c ∈ l₁, ¬ Common g srcRev dstRev c) (hcommon : ∀ c ∈ l₂, Common g srcRev dstRev c) :
    Exact g srcRev dstRev (l₁.map (item flags.has)) := by
  obtain ⟨h, hdone⟩ := order_spec g n (mem_pair_vertices hs hd)
  have hfirst : ∀ a ∈ [srcRev, dstRev], ∀ c, g.Reach a c → ¬ Common g srcRev dstRev c →
      c ∈ l₁ := by
    intro a ha c hr hnot
    have hmem := (h.mem_iff hdone).2 ⟨a, ha, hr⟩
    rw [ho] at hmem
    rcases mem_append.1 hmem with hc | hc
    · exact hc
    · exact absurd (hcommon c hc) hnot
  constructor
  · have hnodup : l₁.Nodup := (nodup_append.1 (ho ▸ h.nodup)).1
    exact hnodup.map fun _ _ => item_inj flags.has
  · intro x
    constructor
    · intro hx
      obtain ⟨c, hc, rfl⟩ := mem_map.1 hx
      obtain ⟨a, ha, hr⟩ := h.reach (ho ▸ mem_append_left _ hc)
      rcases mem_pair.1 ha with rfl | rfl
      · have hnot : ¬ g.Reach dstRev c := fun hr' => hone c hc ⟨hr, hr'⟩
        exact .inl ⟨c, hr, hnot, flags.item_right hs hd hr hnot⟩
      · have hnot : ¬ g.Reach srcRev c := fun hr' => hone c hc ⟨hr', hr⟩
        exact .inr ⟨c, hr, hnot, flags.item_left hnot⟩
    · rintro (⟨c, hr, hnot, rfl⟩ | ⟨c, hr, hnot, rfl⟩)
      · have hc := hfirst srcRev (by simp) c hr fun hc => hnot hc.2
        exact mem_map.2 ⟨c, hc, flags.item_right hs hd hr hnot⟩
      · have hc := hfirst dstRev (by simp) c hr fun hc => hnot hc.1
        exact mem_map.2 ⟨c, hc, flags.item_left hnot⟩

theorem Flags.collect_exact (hlast : CommonLast g srcRev dstRev (order g n [srcRev, dstRev])) :
    Exact g srcRev dstRev (collect flags.has (order g n [srcRev, dstRev])) := by
  obtain ⟨h, -⟩ := order_spec g n (mem_pair_vertices hs hd)
  rw [collect_eq flags.has fun c hc => flags.flagged hs hd hc]
  obtain ⟨l₁, l₂, ho, hone, hcommon, hhead⟩ := hlast
  have hstop : l₂.takeWhile (goesOn flags.has) = [] := by
    cases l₂ with
    | nil => rfl
    | cons c s =>
      obtain ⟨hsrc, hdst⟩ := hhead c rfl
      have hl : Carried g srcRev dstRev _ .localFlag c := carried_of_entered h ho hone hsrc
      have hr : Carried g srcRev dstRev _ .remoteFlag c := carried_of_entered h ho hone hdst
      exact takeWhile_cons_of_neg (by simp [goesOn, flags.carried hl, flags.carried hr])
  have hgo : ∀ c ∈ l₁, goesOn flags.has c = true :=
    fun c hc => flags.goesOn_of_oneSided (hone c hc)
  have hexact := flags.exact_of_oneSided hs hd ho hone hcommon
  rw [ho, takeWhile_append_of_pos hgo, hstop, append_nil]
  exact hexact

end

/-! ## The list -/

/-- **The listed commits.**  Whatever `RevWalk` carries beyond the parents, each commit of one side
is listed once with its direction and nothing else is listed, if the walk takes the common commits
last and the first of them is entered from both sides. -/
theorem getListOfCommit_exact (flags : Flags g n srcRev dstRev) {readable : C → Bool}
    (hs : srcRev ∈ g.vertices) (hd : dstRev ∈ g.vertices) (hrs : readable srcRev = true)
    (hrd : readable dstRev = true)
    (hlast : CommonLast g srcRev dstRev (order g n [srcRev, dstRev])) :
    Exact g srcRev dstRev (getListOfCommit g n flags readable none) := by
  unfold getListOfCommit
  rw [if_pos hrs, nil_append]
  by_cases heq : srcRev = dstRev
  · -- one commit: nothing is listed, and no commit is only on one side
    subst heq
    rw [if_pos rfl]
    refine ⟨nodup_nil, fun x => iff_of_false not_mem_nil ?_⟩
    rintro (⟨c, hr, hnot, -⟩ | ⟨c, hr, hnot, -⟩) <;> exact hnot hr
  · rw [if_neg heq, if_pos hrd]
    exact flags.collect_exact hs hd hlast

/-- Flags that are carried to all that is reachable. -/
def Flags.toAll (g : Graph C) (n : Newest time) {srcRev dstRev : C} (hs : srcRev ∈ g.vertices)
    (hd : dstRev ∈ g.vertices) : Flags g n srcRev dstRev :=
  have hroot : ∀ k, root srcRev dstRev k ∈ g.vertices := by
    intro k
    cases k with
    | localFlag => exact hs
    | remoteFlag => exact hd
  { has := fun c k => decide (c ∈ order g n [root srcRev dstRev k])
    carried := fun h => decide_eq_true ((reach_iff_mem_order n (hroot _)).1 h.reach)
    reach := fun h => (reach_iff_mem_order n (hroot _)).2 (of_decide_eq_true h) }

end

/-- The commits 0 and 1 over 2. -/
def forked : Graph Nat where
  vertices := [0, 1, 2]
  next := fun c => if c = 2 then [] else [2]
  closed := by decide

theorem getListOfCommit_forked :
    let n := Newest.first fun c : Nat => -(c : Int)
    let flags : Flags forked n 0 1 := .toAll forked n (by decide) (by decide)
    getListOfCommit forked n flags (fun _ => true) none = [.commit 0 .right, .commit 1 .left] ∧
      Exact forked 0 1 (getListOfCommit forked n flags (fun _ => true) none) := by
  intro n flags
  have hreach : ∀ a ∈ forked.vertices, ∀ c, forked.Reach a c ↔ c ∈ order forked n [a] :=
    fun a ha c => reach_iff_mem_order n ha
  have hlast : CommonLast forked 0 1 (order forked n [0, 1]) := by
    refine ⟨[0, 1], [2], by decide, ?_, ?_, ?_⟩ <;>
      simp only [Common, hreach 0 (by decide), hreach 1 (by decide)] <;> decide
  exact ⟨by decide, getListOfCommit_exact flags (by decide) (by decide) rfl rfl hlast⟩

/-- The commits 0 and 1 over 2; 1 has merged the old commit 3 as well. -/
def mergedOld : Graph Nat where
  vertices := [0, 1, 2, 3]
  next := fun c => if c = 0 then [2] else if c = 1 then [2, 3] else []
  closed := by decide

/-- Every commit of `mergedOld` is newer than its parents. -/
def mergedOldTime (c : Nat) : Int :=
  if c = 0 then 20 else if c = 1 then 21 else if c = 2 then 10 else 5

/-- The walk stops at 2, whatever else is carried; the commit 3, which only 1 has, is not listed. -/
theorem getListOfCommit_misses_merged :
    mergedOld.Reach 1 3 ∧ ¬ mergedOld.Reach 0 3 ∧
      (∀ c ∈ mergedOld.vertices, ∀ p ∈ mergedOld.next c, mergedOldTime p < mergedOldTime c) ∧
      ∀ flags : Flags mergedOld (Newest.first mergedOldTime) 0 1,
        getListOfCommit mergedOld _ flags (fun _ => true) none =
            [.commit 1 .left, .commit 0 .right] ∧
          ¬ Exact mergedOld 0 1 (getListOfCommit mergedOld _ flags (fun _ => true) none) := by
  have hreach : ∀ a ∈ mergedOld.vertices, ∀ c, mergedOld.Reach a c ↔
      c ∈ order mergedOld (Newest.first mergedOldTime) [a] :=
    fun a ha c => reach_iff_mem_order _ ha
  have h₁ : mergedOld.Reach 1 3 := (hreach 1 (by decide) 3).2 (by decide)
  have h₀ : ¬ mergedOld.Reach 0 3 := fun h => absurd ((hreach 0 (by decide) 3).1 h) (by decide)
  refine ⟨h₁, h₀, by decide, fun flags => ?_⟩
  have horder : order mergedOld (Newest.first mergedOldTime) [0, 1] =
      [1, 0] ++ 2 :: [3] := by decide
  have hlocal : flags.has 0 .localFlag = true := flags.carried .own
  have hremote : flags.has 1 .remoteFlag = true := flags.carried .own
  have h01 : flags.has 0 .remoteFlag = false := by
    rw [← Bool.not_eq_true]
    exact fun h => absurd ((hreach 1 (by decide) 0).1 (flags.reach h)) (by decide)
  have h10 : flags.has 1 .localFlag = false := by
    rw [← Bool.not_eq_true]
    exact fun h => absurd ((hreach 0 (by decide) 1).1 (flags.reach h)) (by decide)
  have h2 : ∀ k, flags.has 2 k = true := by
    intro k
    have hmem : root 0 1 k ∈ [1, 0] := by cases k <;> decide
    have hnext : 2 ∈ mergedOld.next (root 0 1 k) := by cases k <;> decide
    exact flags.carried (.parent horder hmem hnext .own)
  have hlist : getListOfCommit mergedOld _ flags (fun _ => true) none =
      [.commit 1 .left, .commit 0 .right] := by
    simp [getListOfCommit, horder, collect, hlocal, hremote, h01, h10, h2]
  refine ⟨hlist, fun hex => ?_⟩
  have hmem := (hex.mem_iff (.commit 3 .left)).2 (.inr ⟨3, h₁, h₀, rfl⟩)
  rw [hlist] at hmem
  exact absurd hmem (by decide)

/-! ## Commit times -/

theorem exists_first {α : Type} (p : α → Prop) (l : List α) :
    ∃ s₁ s₂, l = s₁ ++ s₂ ∧ (∀ u ∈ s₁, ¬ p u) ∧ ∀ e ∈ s₂.head?, p e := by
  classical
  refine ⟨_, _, (takeWhile_append_dropWhile (p := fun u => !decide (p u))).symm, ?_, ?_⟩
  · intro u hu
    simpa using mem_takeWhile_imp hu
  · intro e he
    have hhead := head?_dropWhile_not (fun u => !decide (p u)) l
    rw [he] at hhead
    simpa using hhead

section
variable {C : Type} {g : Graph C} {time : C → Int} (n : Newest time)
  {srcRev dstRev : C}

theorem Common.trans {c d : C} (h : Common g srcRev dstRev c) (hr : g.Reach c d) :
    Common g srcRev dstRev d :=
  ⟨Relation.ReflTransGen.trans h.1 hr, Relation.ReflTransGen.trans h.2 hr⟩

/-- If the common commits are newer than their parents, they are newer than all that comes
behind them. -/
theorem Common.time_lt (hparent : ∀ c, Common g srcRev dstRev c → ∀ p ∈ g.next c, time p < time c)
    {c d : C} (h : Common g srcRev dstRev c) (hr : g.Reach c d) : c = d ∨ time d < time c := by
  induction hr with
  | refl => exact .inl rfl
  | @tail b d hcb hnext ih =>
    have hlt := hparent b (h.trans hcb) d hnext
    rcases ih with rfl | ih
    · exact .inr hlt
    · exact .inr (by omega)

variable [DecidableEq C]

/-- No clock skew among the common commits, and each commit of one side newer than all of
them: then the walk is as it should be. -/
theorem commonLast_of_times (hs : srcRev ∈ g.vertices) (hd : dstRev ∈ g.vertices)
    (hside : ∀ c d, g.Reach srcRev c ∨ g.Reach dstRev c → ¬ Common g srcRev dstRev c →
      Common g srcRev dstRev d → time d < time c)
    (hparent : ∀ c, Common g srcRev dstRev c → ∀ p ∈ g.next c, time p < time c) :
    CommonLast g srcRev dstRev (order g n [srcRev, dstRev]) := by
  obtain ⟨h, -⟩ := order_spec g n (mem_pair_vertices hs hd)
  obtain ⟨s₁, s₂, hl, hone, hfirst⟩ := exists_first (Common g srcRev dstRev)
    (order g n [srcRev, dstRev])
  rw [hl] at h ⊢
  cases s₂ with
  | nil => exact ⟨s₁, [], rfl, hone, by simp, by simp⟩
  | cons e s =>
    have he : Common g srcRev dstRev e := hfirst e rfl
    obtain ⟨-, hstep⟩ := Walked.split h rfl
    have hnewest := n.newest hstep
    -- a commit of one side that is left would be pending, and newer than `e`
    have hleft : ∀ a ∈ [srcRev, dstRev], ∀ c, g.Reach a c → c ∉ s₁ →
        Common g srcRev dstRev c := by
      intro a ha c hr hc
      by_contra hnot
      obtain ⟨w, hw, haw, hwc, -⟩ := exists_pending ha hr hc
      have hwone : ¬ Common g srcRev dstRev w := fun hcw => hnot (hcw.trans hwc)
      have hreach : g.Reach srcRev w ∨ g.Reach dstRev w := by
        rcases mem_pair.1 ha with rfl | rfl
        · exact .inl haw
        · exact .inr haw
      have hlt := hside w e hreach hwone he
      have hle := hnewest w hw
      omega
    have hentry : ∀ a ∈ [srcRev, dstRev], g.Reach a e →
        e = a ∨ ∃ u ∈ s₁, g.Reach a u ∧ e ∈ g.next u := by
      intro a ha hr
      obtain ⟨w, hw, haw, hwe, hcases⟩ := exists_pending ha hr (mem_pending.1 (n.mem hstep)).2
      have hcommon := hleft a ha w haw (mem_pending.1 hw).2
      have hle := hnewest w hw
      rcases hcommon.time_lt hparent hwe with rfl | hlt
      · exact hcases
      · omega
    refine ⟨s₁, e :: s, rfl, hone, ?_, ?_⟩
    · intro c hc
      obtain ⟨a, ha, hr⟩ := Walked.reach h (mem_append_right _ hc)
      exact hleft a ha c hr fun hc' => disjoint_of_nodup_append h.nodup hc' hc
    · intro c hc
      cases hc
      exact ⟨hentry srcRev (by simp) he.1, hentry dstRev (by simp) he.2⟩

end

end Egit.CommitList
