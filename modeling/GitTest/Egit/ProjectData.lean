import Mathlib.Data.List.Induction
import GitTest.Egit.RepositoryMapping

/-!
# Saving the mappings of a project (GitProjectData.java, store)

`store` writes the mappings to a temporary file beside the property file, deletes the property file
and renames the temporary one.  Every operation on the files may fail.

    all or nothing, and no temporary file is left unless it could not be deleted ↔
      no temporary file could be made; or it could be opened and closed, and either the write
      failed, or an old property file could be deleted and replaced, and the mappings that are
      saved have different containers  (store_allOrNothing_iff)
-/

namespace Egit.ProjectData

open List Option Paths RepositoryMapping

section
variable {B : Type}

/-! ## Algorithm -/

/-- The file format of `java.util.Properties`: what is read has the properties that were stored. -/
structure Format (B : Type) where
  empty : B
  encode : Properties → B
  decode : B → Properties
  restored : ∀ p key, getProperty (decode (encode p)) key = getProperty p key

/-- How the operations on the files end. -/
structure Ops (B : Type) where
  createTempFile : Bool
  openStream : Bool
  /-- What is in the file, if the write fails. -/
  write : Option B
  close : Bool
  deleteTmp : Bool
  deleteDat : Bool
  renameTo : Bool

/-- The end of `store`. -/
structure Run (B : Type) where
  thrown : Bool
  dat : Option B
  tmp : Option B
  /-- The temporary file was to be deleted, and could not be. -/
  deleteFailed : Bool

/-- `if (tmp.exists()) FileUtils.delete(tmp)` -/
def discard (ops : Ops B) (r : Run B) : Run B :=
  if r.tmp.isSome then
    if ops.deleteTmp then { r with tmp := none } else { r with deleteFailed := true }
  else r

/-- The end of `store`, with the mappings in the temporary file. -/
def replace (ops : Ops B) (r : Run B) : Run B :=
  if r.dat.isSome && !ops.deleteDat then r
  else if ops.renameTo then ⟨false, r.tmp, none, r.deleteFailed⟩
  else discard ops { r with dat := none }

def store (format : Format B) (ops : Ops B) (mappings : List Mapping) (dat : Option B) : Run B :=
  if ops.createTempFile = false then ⟨true, dat, none, false⟩
  else if ops.openStream = false then ⟨true, dat, some format.empty, false⟩
  else
    match ops.write with
    | some part =>
      -- an exception of `close` comes before the temporary file is deleted
      if ops.close = false then ⟨true, dat, some part, false⟩
      else discard ops ⟨true, dat, some part, false⟩
    | none =>
      let written : Run B := ⟨true, dat, some (format.encode (storeAll mappings)), false⟩
      if ops.close = false then written else replace ops written

/-! ## What it is for -/

def Holds (format : Format B) (mappings : List Mapping) (content : B) : Prop :=
  ∀ m, m ∈ load (format.decode content) ↔ m ∈ mappings

structure AllOrNothing (format : Format B) (mappings : List Mapping) (dat : Option B) (r : Run B) :
    Prop where
  thrown : r.thrown = true → r.dat = dat
  returned : r.thrown = false → ∃ content, r.dat = some content ∧ Holds format mappings content
  tmp : r.tmp ≠ none → r.deleteFailed = true

/-- No two mappings have one container. -/
def Compatible (mappings : List Mapping) : Prop :=
  ∀ m ∈ mappings, ∀ m' ∈ mappings, m.containerPathString = m'.containerPathString → m = m'

def Safe (ops : Ops B) (mappings : List Mapping) (dat : Option B) : Prop :=
  ops.createTempFile = false ∨
    ops.openStream = true ∧ ops.close = true ∧
      (ops.write ≠ none ∨
        (dat ≠ none → ops.deleteDat = true ∧ ops.renameTo = true) ∧
          (ops.renameTo = true → Compatible mappings))

/-! ## The mappings in the file -/

theorem getProperty_setProperty_ne (p : Properties) {key key' : Text} (value : Text)
    (h : key' ≠ key) : getProperty (setProperty p key value) key' = getProperty p key' := by
  unfold getProperty setProperty
  rw [find?_cons_of_neg (by simpa using Ne.symm h), find?_filter]
  congr 2
  funext e
  by_cases he : e.1 = key'
  · simp [he, h]
  · simp [he]

theorem key_inj {m m' : Mapping} (h : m.key = m'.key) :
    m.containerPathString = m'.containerPathString :=
  append_cancel_right h

theorem storeAll_append (ms : List Mapping) (m : Mapping) :
    storeAll (ms ++ [m]) = setProperty (storeAll ms) m.key m.gitDirPathString := by
  simp [storeAll, Mapping.store]

theorem exists_of_getProperty {ms : List Mapping} {key value : Text}
    (h : getProperty (storeAll ms) key = some value) :
    ∃ m ∈ ms, m.key = key ∧ m.gitDirPathString = value := by
  induction ms using List.reverseRecOn with
  | nil => cases h
  | append_singleton ms m ih =>
    rw [storeAll_append] at h
    by_cases hkey : key = m.key
    · subst hkey
      rw [getProperty_setProperty] at h
      exact ⟨m, by simp, rfl, Option.some.inj h⟩
    · rw [getProperty_setProperty_ne _ _ hkey] at h
      obtain ⟨m', hm', hrest⟩ := ih h
      exact ⟨m', mem_append_left _ hm', hrest⟩

theorem getProperty_key {ms : List Mapping} {m : Mapping} (h : m ∈ ms) :
    ∃ value, getProperty (storeAll ms) m.key = some value := by
  induction ms using List.reverseRecOn with
  | nil => cases h
  | append_singleton ms m' ih =>
    rw [storeAll_append]
    by_cases hkey : m.key = m'.key
    · rw [hkey]
      exact ⟨_, getProperty_setProperty ..⟩
    · rw [getProperty_setProperty_ne _ _ hkey]
      rcases mem_append.1 h with h | h
      · exact ih h
      · rw [mem_singleton.1 h] at hkey
        exact absurd rfl hkey

theorem mem_of_getProperty {p : Properties} {key value : Text}
    (h : getProperty p key = some value) : (key, value) ∈ p := by
  obtain ⟨e, he, rfl⟩ := map_eq_some_iff.1 h
  have hkey : e.1 = key := by simpa using find?_some he
  rw [← hkey]
  exact mem_of_find?_eq_some he

theorem mem_load_iff {p : Properties} {m : Mapping} :
    m ∈ load p ↔ getProperty p m.key = some m.gitDirPathString := by
  unfold load
  rw [mem_filterMap]
  constructor
  · rintro ⟨e, -, he⟩
    split at he
    · next hinit =>
      obtain ⟨gitDir, hget, rfl⟩ := map_eq_some_iff.1 he
      obtain ⟨s, hs⟩ := isSuffixOf_iff_suffix.1 hinit
      rw [← hs] at hget ⊢
      show getProperty p (_ ++ gitdirSuffix) = some gitDir
      rw [before_last_dot]
      exact hget
    · cases he
  · intro hget
    refine ⟨(m.key, m.gitDirPathString), mem_of_getProperty hget, ?_⟩
    rw [if_pos (isInitialKey_key m), Mapping.ofProperties, hget, map_some, Mapping.key,
      before_last_dot]

theorem holds_encode_iff (format : Format B) (mappings : List Mapping) :
    Holds format mappings (format.encode (storeAll mappings)) ↔ Compatible mappings := by
  unfold Holds
  simp only [mem_load_iff, format.restored]
  constructor
  · intro h m hm m' hm' heq
    have hkey : m.key = m'.key := by rw [Mapping.key, heq]; rfl
    have hget := (h m).2 hm
    rw [hkey, (h m').2 hm'] at hget
    obtain ⟨container, gitDir⟩ := m
    cases heq
    cases hget
    rfl
  · intro h m
    constructor
    · intro hget
      obtain ⟨m', hm', hkey, hdir⟩ := exists_of_getProperty hget
      obtain ⟨container, gitDir⟩ := m
      cases key_inj hkey
      cases hdir
      exact hm'
    · intro hm
      obtain ⟨value, hvalue⟩ := getProperty_key hm
      obtain ⟨m', hm', hkey, hdir⟩ := exists_of_getProperty hvalue
      rw [h m hm m' hm' (key_inj hkey).symm] at hvalue ⊢
      rw [hvalue, hdir]

/-! ## Proof -/

section
variable {format : Format B} {ops : Ops B} {mappings : List Mapping} {dat : Option B} {r : Run B}

/-- An exception with the old property file and the temporary one. -/
theorem not_allOrNothing_left {content : B} :
    ¬ AllOrNothing format mappings dat ⟨true, dat, some content, false⟩ := by
  intro h
  cases h.tmp (by simp)

/-- After `discard` only the property file counts. -/
theorem allOrNothing_discard_iff (hr : r.thrown = true) :
    AllOrNothing format mappings dat (discard ops r) ↔ r.dat = dat := by
  have hdat : (discard ops r).dat = r.dat ∧ (discard ops r).thrown = true ∧
      ((discard ops r).tmp ≠ none → (discard ops r).deleteFailed = true) := by
    unfold discard
    split
    · split
      · exact ⟨rfl, hr, fun h => absurd rfl h⟩
      · exact ⟨rfl, hr, fun _ => rfl⟩
    · next htmp => exact ⟨rfl, hr, fun h => absurd (by simpa using htmp) h⟩
  obtain ⟨hdat, hthrown, htmp⟩ := hdat
  constructor
  · intro h
    rw [← hdat]
    exact h.thrown hthrown
  · intro h
    refine ⟨fun _ => hdat.trans h, fun hreturned => ?_, htmp⟩
    rw [hthrown] at hreturned
    cases hreturned

theorem allOrNothing_replace_iff :
    AllOrNothing format mappings dat
        (replace ops ⟨true, dat, some (format.encode (storeAll mappings)), false⟩) ↔
      (dat ≠ none → ops.deleteDat = true ∧ ops.renameTo = true) ∧
        (ops.renameTo = true → Compatible mappings) := by
  unfold replace
  dsimp only
  split
  · next hdel =>
    rw [Bool.and_eq_true] at hdel
    refine iff_of_false not_allOrNothing_left fun h => ?_
    have hsome : dat ≠ none := isSome_iff_ne_none.1 hdel.1
    rw [(h.1 hsome).1] at hdel
    cases hdel.2
  · next hdel =>
    have hdel : dat ≠ none → ops.deleteDat = true := by
      intro hsome
      rw [← isSome_iff_ne_none] at hsome
      simpa [hsome] using hdel
    split
    · next hren =>
      -- the new file is the temporary one
      constructor
      · intro h
        obtain ⟨content, hcontent, hholds⟩ := h.returned rfl
        cases hcontent
        exact ⟨fun hsome => ⟨hdel hsome, hren⟩, fun _ => (holds_encode_iff ..).1 hholds⟩
      · rintro ⟨-, hcompatible⟩
        refine ⟨by simp, fun _ => ⟨_, rfl, ?_⟩, fun h => absurd rfl h⟩
        exact (holds_encode_iff ..).2 (hcompatible hren)
    · next hren =>
      rw [allOrNothing_discard_iff rfl]
      constructor
      · rintro rfl
        exact ⟨fun h => absurd rfl h, fun h => absurd h hren⟩
      · rintro ⟨hold, -⟩
        by_contra hne
        exact hren (hold (Ne.symm hne)).2

/-- **Storing the mappings.**  An exception leaves the old file, a return the new one, and only a
temporary file that cannot be deleted stays, if and only if the operations are safe. -/
theorem store_allOrNothing_iff (format : Format B) (ops : Ops B) (mappings : List Mapping)
    (dat : Option B) :
    AllOrNothing format mappings dat (store format ops mappings dat) ↔ Safe ops mappings dat := by
  unfold store Safe
  split
  · next hcreate =>
    exact iff_of_true ⟨fun _ => rfl, by simp, fun h => absurd rfl h⟩ (.inl hcreate)
  · next hcreate =>
    rw [or_iff_right hcreate]
    split
    · next hopen => exact iff_of_false not_allOrNothing_left (by simp [hopen])
    · next hopen =>
      rw [and_iff_right (by simpa using hopen)]
      cases hwrite : ops.write with
      | some part =>
        dsimp only
        split
        · next hclose => exact iff_of_false not_allOrNothing_left (by simp [hclose])
        · next hclose =>
          exact iff_of_true ((allOrNothing_discard_iff rfl).2 rfl)
            ⟨by simpa using hclose, .inl (by simp)⟩
      | none =>
        dsimp only
        split
        · next hclose => exact iff_of_false not_allOrNothing_left (by simp [hclose])
        · next hclose =>
          have hclosed : ops.close = true := by simpa using hclose
          rw [allOrNothing_replace_iff, and_iff_right hclosed, or_iff_right (by simp)]

end

end

def plain : Format Properties := ⟨[], id, id, fun _ _ => rfl⟩

/-- The rename fails after the property file was deleted: `store` throws, and the file is gone. -/
theorem store_loses_dat :
    let ops : Ops Properties := ⟨true, true, none, true, true, true, false⟩
    let old : Properties := [([97], [98])]
    store plain ops [] (some old) = ⟨true, none, none, false⟩ ∧
      ¬ AllOrNothing plain [] (some old) (store plain ops [] (some old)) := by
  intro ops old
  refine ⟨rfl, fun h => ?_⟩
  cases h.thrown rfl

end Egit.ProjectData
