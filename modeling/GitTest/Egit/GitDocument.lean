import GitTest.Egit.CommitMessage

/-!
# The reference document of the quick diff (GitDocument.java)

`populate` stops early when the commit, the tree or the blob is the one it resolved last, and then
leaves the text and some of the three ids alone.  What an id names never changes; what the baseline
resolves to may change before every call.

    in every run, the text after a call is that of the baseline of the call  (populate_text)
-/

namespace Egit.GitDocument

open HardWrap (Text)
open CommitMessage (ObjectId)

/-! ## Algorithm -/

def zeroId : ObjectId := 0

/-- The objects: the tree of a commit (`none` if `parseCommit` fails), the entry of the document's
path in a tree, and the decoded content of a blob. -/
structure Objects where
  getTree : ObjectId → Option ObjectId
  forPath : ObjectId → Option ObjectId
  content : ObjectId → Text

structure Document where
  lastCommit : Option ObjectId
  lastTree : Option ObjectId
  lastBlob : Option ObjectId
  text : Text
  deriving DecidableEq, Repr

/-- `setResolved(null, null, null, "")`. -/
def unresolved : Document := ⟨none, none, none, []⟩

/-- What `populate` finds: no mapping of the resource, or what `resolve` returns. -/
inductive Baseline
  | unmapped
  | mapped (commitId : Option ObjectId)
  deriving DecidableEq, Repr

def populate (o : Objects) (d : Document) : Baseline → Document
  | .unmapped | .mapped none => unresolved
  | .mapped (some commitId) =>
    if d.lastCommit = some commitId then d
    else
      match o.getTree commitId with
      | none => unresolved
      | some treeId =>
        if d.lastTree = some treeId then d
        else
          match o.forPath treeId with
          | none => unresolved
          | some id =>
            if id = zeroId then unresolved
            else if d.lastBlob = some id then d
            else ⟨some commitId, some treeId, some id, o.content id⟩

/-- The calls on a new document, each with what it finds. -/
def populateAll (o : Objects) (calls : List Baseline) : Document :=
  calls.foldl (populate o) unresolved

/-! ## Specification -/

/-- The text of a tree at the path; an entry without an object is none. -/
def Objects.textAt (o : Objects) (treeId : ObjectId) : Text :=
  match o.forPath treeId with
  | none => []
  | some id => if id = zeroId then [] else o.content id

def Objects.reference (o : Objects) : Baseline → Text
  | .unmapped | .mapped none => []
  | .mapped (some commitId) => ((o.getTree commitId).map o.textAt).getD []

/-! ## Proof -/

/-- Every id that is kept leads to the blob whose content is the text. -/
structure Kept (o : Objects) (d : Document) : Prop where
  commit : ∀ c, d.lastCommit = some c → ∃ t, o.getTree c = some t ∧ d.lastTree = some t
  tree : ∀ t, d.lastTree = some t → ∃ id, o.forPath t = some id ∧ d.lastBlob = some id
  blob : ∀ id, d.lastBlob = some id → id ≠ zeroId ∧ d.text = o.content id

variable {o : Objects} {d : Document}

theorem kept_unresolved : Kept o unresolved := by
  refine ⟨?_, ?_, ?_⟩
  · intro c h
    cases h
  · intro t h
    cases h
  · intro id h
    cases h

theorem Kept.text_eq (h : Kept o d) {t : ObjectId} (ht : d.lastTree = some t) :
    d.text = o.textAt t := by
  obtain ⟨id, hid, hb⟩ := h.tree t ht
  obtain ⟨hne, htext⟩ := h.blob id hb
  simp only [Objects.textAt, hid, if_neg hne, htext]

theorem populate_spec (h : Kept o d) (b : Baseline) :
    Kept o (populate o d b) ∧ (populate o d b).text = o.reference b := by
  fun_cases populate o d b with
  | case1 | case2 => exact ⟨kept_unresolved, rfl⟩
  | case3 c hc =>
    obtain ⟨t, ht, hlast⟩ := h.commit c hc
    rw [Objects.reference, ht]
    exact ⟨h, h.text_eq hlast⟩
  | case4 c _ hc =>
    rw [Objects.reference, hc]
    exact ⟨kept_unresolved, rfl⟩
  | case5 c _ t hc hlast =>
    rw [Objects.reference, hc]
    exact ⟨h, h.text_eq hlast⟩
  | case6 c _ t hc _ hid | case7 c _ t hc _ hid =>
    rw [Objects.reference, hc, Option.map_some, Objects.textAt, hid]
    exact ⟨kept_unresolved, rfl⟩
  | case8 c _ t hc _ id hid hne hb =>
    -- an older commit and tree stay, with a blob that both trees have
    rw [Objects.reference, hc, Option.map_some, Objects.textAt, hid]
    exact ⟨h, (h.blob id hb).2.trans (if_neg hne).symm⟩
  | case9 c _ t hc _ id hid hne _ =>
    rw [Objects.reference, hc, Option.map_some, Objects.textAt, hid]
    refine ⟨⟨?_, ?_, ?_⟩, (if_neg hne).symm⟩
    · rintro _ ⟨⟩
      exact ⟨t, hc, rfl⟩
    · rintro _ ⟨⟩
      exact ⟨id, hid, rfl⟩
    · rintro _ ⟨⟩
      exact ⟨hne, rfl⟩

theorem kept_foldl (h : Kept o d) (calls : List Baseline) :
    Kept o (calls.foldl (populate o) d) := by
  induction calls generalizing d with
  | nil => exact h
  | cons b calls ih => exact ih (populate_spec h b).1

/-- **Quick diff.** -/
theorem populate_text (o : Objects) (calls : List Baseline) (b : Baseline) :
    (populateAll o (calls ++ [b])).text = o.reference b := by
  rw [populateAll, List.foldl_append]
  exact (populate_spec (kept_foldl kept_unresolved calls) b).2

end Egit.GitDocument
