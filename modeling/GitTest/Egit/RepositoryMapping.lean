import Mathlib.Data.List.Nodup
import GitTest.Lib.Paths

/-!
# Repository mappings (RepositoryMapping.java, GitProjectData.java)

A mapping connects a container of a project with a git directory.  It keeps the directory as one
text: what is left of its path behind the container's, or `../` as often as needed and its name, or
its whole path.  `store` writes the text under a key made of the container's path, and what is read
back from there is appended to the location of the container.

    the mapping that is read back has the container's path, and its git directory is the original
      one ↔ both have the same leading slashes, and the directory is in the container, or its parent
      is above the container and its name has no colon (or by luck)  (restored_iff)
    containers with different paths → `load` gives the mappings that were stored  (load_storeAll)
-/

namespace Egit.RepositoryMapping

open List Paths

/-! ## Algorithm -/

/-- The location of a container or a file: absolute, with plain segments; a device ends with its
only colon. -/
structure Location where
  path : Path
  absolute : path.leading ≠ .none
  plain : ∀ n ∈ path.segments, Plain n
  device : ∀ d, path.device = some d → ∃ e, d = e ++ [58] ∧ 58 ∉ e

structure Container where
  location : Location
  /-- `getProjectRelativePath`; it is relative. -/
  projectRelativePath : List Name
  plain : ∀ n ∈ projectRelativePath, Plain n

def Container.relativePath (c : Container) : Path := ⟨none, .none, c.projectRelativePath⟩

structure Mapping where
  containerPathString : Text
  gitDirPathString : Text
  deriving DecidableEq

/-- How Java prints a missing segment. -/
def nullText : Text := [110, 117, 108, 108]

/-- `../` as often as it is needed. -/
def ups (cnt : Nat) : Text := (List.replicate cnt [46, 46, 47]).flatten

/-- The text that `RepositoryMapping(mappedContainer, gitDir)` keeps. -/
def gitDirText (fold : UInt16 → UInt16) (cLoc gLoc : Path) : Text :=
  let gLocParent := gLoc.removeLastSegments 1
  if Path.isPrefixOf fold cLoc gLoc then
    let remainder := gLoc.removeFirstSegments (gLoc.matchingFirstSegments cLoc)
    match remainder.device with
    | none => remainder.toPortableString
    | some device => remainder.toPortableString.drop device.length
  else if Path.isPrefixOf fold gLocParent cLoc then
    let cnt := cLoc.segments.length - cLoc.matchingFirstSegments gLocParent
    -- a root has no last segment
    ups cnt ++ ((gLoc.segment (gLoc.segments.length - 1)).map Name.text).getD nullText
  else gLoc.toPortableString

def Mapping.ofContainer (fold : UInt16 → UInt16) (mappedContainer : Container) (gitDir : Location) :
    Mapping :=
  ⟨mappedContainer.relativePath.toPortableString,
    gitDirText fold mappedContainer.location.path gitDir.path⟩

/-- Keys and values, with one value for each key. -/
abbrev Properties := List (Text × Text)

def setProperty (p : Properties) (key value : Text) : Properties :=
  (key, value) :: p.filter fun e => e.1 ≠ key

def getProperty (p : Properties) (key : Text) : Option Text :=
  (p.find? fun e => e.1 = key).map Prod.snd

/-- `.gitdir` -/
def gitdirSuffix : Text := [46, 103, 105, 116, 100, 105, 114]

def isInitialKey (key : Text) : Bool := gitdirSuffix.isSuffixOf key

def Mapping.key (m : Mapping) : Text := m.containerPathString ++ gitdirSuffix

def Mapping.store (m : Mapping) (p : Properties) : Properties :=
  setProperty p m.key m.gitDirPathString

/-- `RepositoryMapping(p, initialKey)`: the container's path ends at the last dot of the key. -/
def Mapping.ofProperties (p : Properties) (initialKey : Text) : Option Mapping :=
  (getProperty p initialKey).map fun gitDir =>
    ⟨((initialKey.reverse.dropWhile (· ≠ 46)).drop 1).reverse, gitDir⟩

def Mapping.getContainerPath (m : Mapping) : Path := fromPortableString m.containerPathString

def Mapping.getGitDirPath (m : Mapping) : Path := fromPortableString m.gitDirPathString

/-- The directory that `map` opens and `getGitDirAbsolutePath` returns. -/
def Mapping.getGitDirAbsolutePath (m : Mapping) (container : Location) : Path :=
  container.path.append m.getGitDirPath

/-- `GitProjectData.store` -/
def storeAll (mappings : List Mapping) : Properties :=
  mappings.foldl (fun p m => m.store p) []

/-- `GitProjectData.load` -/
def load (p : Properties) : List Mapping :=
  p.filterMap fun e => if isInitialKey e.1 then Mapping.ofProperties p e.1 else none

/-- `setRepository` keeps the location of the work tree with a slash at its end. -/
def workdirPrefix (workTree : Location) : Text :=
  let text := workTree.path.toString
  if text.getLast? = some 47 then text else text ++ [47]

def getRepoRelativePath (workTree : Location) (location : Option Location) : Option Text :=
  match location with
  | none => none
  | some location =>
    let pfxLen := (workdirPrefix workTree).length
    let p := location.path.toString
    if pfxLen < p.length then some (p.drop pfxLen)
    else if p.length + 1 = pfxLen then some []
    else none

/-! ## What it is for -/

/-- Two paths are the same up to the case of their devices. -/
def Denotes (fold : UInt16 → UInt16) (p q : Path) : Prop :=
  Path.sameDevice fold p.device q.device = true ∧ p.leading = q.leading ∧ p.segments = q.segments

/-- The name of a directory is read back as it was written without doubling its colons.  A name
such as `a:..` is read as a device and `..`, which is right by luck if the directory is the parent
of the container. -/
def NameReadable (cLoc gLoc : Path) (name : Name) : Prop :=
  58 ∉ name.text ∨
    (fromPortableString name.text).segments = [dotdot] ∧ cLoc.segments.dropLast = gLoc.segments

def Recoverable (fold : UInt16 → UInt16) (cLoc gLoc : Path) : Prop :=
  cLoc.leading = gLoc.leading ∧
    (Path.isPrefixOf fold cLoc gLoc = true ∨
      Path.isPrefixOf fold (gLoc.removeLastSegments 1) cLoc = true ∧
        ∃ name, gLoc.segments.getLast? = some name ∧ NameReadable cLoc gLoc name)

/-! ## The key -/

theorem getProperty_setProperty (p : Properties) (key value : Text) :
    getProperty (setProperty p key value) key = some value := by
  simp [getProperty, setProperty]

theorem before_last_dot (s : Text) :
    (((s ++ gitdirSuffix).reverse.dropWhile (· ≠ 46)).drop 1).reverse = s := by
  rw [reverse_append]
  show (s.reverse).reverse = s
  exact reverse_reverse s

theorem isInitialKey_key (m : Mapping) : isInitialKey m.key = true := by
  unfold isInitialKey
  rw [isSuffixOf_iff_suffix]
  exact suffix_append ..

theorem ofProperties_store (m : Mapping) (p : Properties) :
    Mapping.ofProperties (m.store p) m.key = some m := by
  unfold Mapping.ofProperties Mapping.store
  rw [getProperty_setProperty, Mapping.key, Option.map_some, before_last_dot]

theorem Location.proper (l : Location) : l.path.Proper :=
  ⟨l.plain, fun d hd => ⟨l.absolute, l.device d hd⟩⟩

theorem getContainerPath_ofContainer (fold : UInt16 → UInt16) (c : Container) (g : Location) :
    (Mapping.ofContainer fold c g).getContainerPath = c.relativePath :=
  fromPortableString_toPortableString ⟨c.plain, fun _ hd => nomatch hd⟩

/-! ## The git directory -/

section
variable {fold : UInt16 → UInt16} {c g : Location}

/-- The text has the leading slashes of a git directory in a root. -/
theorem read_inside (h : Path.isPrefixOf fold c.path g.path = true) :
    ∃ leading, fromPortableString (gitDirText fold c.path g.path) =
      ⟨none, leading, g.path.segments.drop c.path.segments.length⟩ := by
  obtain ⟨-, hpre⟩ := Path.isPrefixOf_iff.1 h
  obtain ⟨leading, hremainder⟩ :=
    g.path.removeFirstSegments_eq (g.path.matchingFirstSegments c.path)
  have htext : gitDirText fold c.path g.path =
      escape (leading.text ++ join (g.path.segments.drop c.path.segments.length)) := by
    unfold gitDirText
    rw [if_pos h, hremainder, Path.matchingFirstSegments, Path.commonLength_right hpre]
    unfold Path.toPortableString
    dsimp only
    rw [escape_join, ← Leading.text_escape]
    cases g.path.device with
    | none => rfl
    | some d =>
      show (d ++ leading.text ++ _).drop d.length = _
      rw [append_assoc, drop_left]
  have hplain : ∀ n ∈ g.path.segments.drop c.path.segments.length, Plain n :=
    fun n hn => g.plain n (mem_of_mem_drop hn)
  refine ⟨leading, ?_⟩
  rw [htext, fromPortableString_escape]
  exact ofText_join hplain none leading

theorem segments_inside (h : Path.isPrefixOf fold c.path g.path = true) :
    (c.path.append (fromPortableString (gitDirText fold c.path g.path))).segments =
      g.path.segments := by
  obtain ⟨-, r, hr⟩ := Path.isPrefixOf_iff.1 h
  obtain ⟨leading, hread⟩ := read_inside h
  rw [hread, Path.append_plain]
  · show c.path.segments ++ g.path.segments.drop c.path.segments.length = _
    rw [← hr, drop_left]
  · exact fun n hn => g.plain n (mem_of_mem_drop hn)

/-- An absolute text is appended as if it were relative. -/
theorem segments_elsewhere (h : Path.isPrefixOf fold c.path g.path = false)
    (hup : Path.isPrefixOf fold (g.path.removeLastSegments 1) c.path = false) :
    (c.path.append (fromPortableString (gitDirText fold c.path g.path))).segments =
      c.path.segments ++ g.path.segments := by
  have htext : gitDirText fold c.path g.path = g.path.toPortableString := by
    unfold gitDirText
    rw [if_neg (by simp [h])]
    exact if_neg (by simp [hup])
  rw [htext, fromPortableString_toPortableString g.proper, Path.append_plain g.plain]

theorem ups_append (k : Nat) (n : Name) :
    ups k ++ n.text = join (List.replicate k dotdot ++ [n]) := by
  induction k with
  | zero => simp [ups]
  | succ k ih =>
    have hstep : ups (k + 1) ++ n.text = dotdot.text ++ 47 :: (ups k ++ n.text) := by
      simp [ups, replicate_succ, dotdot]
    rw [hstep, ih]
    cases k with
    | zero => exact (join_cons_cons dotdot n []).symm
    | succ k => exact (join_cons_cons dotdot dotdot (List.replicate k dotdot ++ [n])).symm

theorem colon_notMem_ups (k : Nat) : 58 ∉ ups k := by
  simp [ups]

/-- A name behind `../` is appended to the parent, if its text is read as it is. -/
theorem segments_up {parent : List Name} (hpre : parent <+: c.path.segments) {n : Name}
    (hn : Plain n) {p : Path}
    (hp : p = ofText none (ups (c.path.segments.length - parent.length) ++ n.text)) :
    (c.path.append p).segments = parent ++ [n] := by
  have hsegs : p.segments =
      List.replicate (c.path.segments.length - parent.length) dotdot ++ [n] := by
    rw [hp, ups_append, ofText_join_relative]
    exact collapse_up_relative _ hn
  rw [Path.append_up c.plain (Nat.sub_le ..) hn hsegs, Nat.sub_sub_self hpre.length_le]
  congr 1
  exact (prefix_iff_eq_take.1 hpre).symm

/-- How a name with colons is read: another name, or a device and what is behind it. -/
theorem read_name {n : Name} (h : 58 ∈ n.text) :
    (∃ n' : Name, Plain n' ∧ n' ≠ n ∧
        ∀ u, 58 ∉ u → fromPortableString (u ++ n.text) = ofText none (u ++ n'.text)) ∨
      ∃ s : Text, 47 ∉ s ∧
        ∀ u, 58 ∉ u → ∃ d, fromPortableString (u ++ n.text) = ofText (some d) s := by
  obtain ⟨a, b, hab, ha⟩ := eq_append_cons_of_mem h
  have hu : ∀ u : Text, 58 ∉ u → 58 ∉ u ++ a := by
    intro u hu hmem
    rcases mem_append.1 hmem with hmem | hmem
    · exact hu hmem
    · exact ha hmem
  have hslash : 47 ∉ a ∧ 47 ∉ b := by
    have := n.noSlash
    rw [hab, mem_append, mem_cons] at this
    exact ⟨fun hm => this (.inl hm), fun hm => this (.inr (.inr hm))⟩
  by_cases hb : b.head? = some 58
  · -- the colon is doubled
    obtain ⟨b', rfl⟩ : ∃ b', b = 58 :: b' := by
      cases b with
      | nil => cases hb
      | cons x b' =>
        cases hb
        exact ⟨b', rfl⟩
    left
    have hnoslash : 47 ∉ a ++ 58 :: contract b' := by
      rw [mem_append, mem_cons]
      rintro (hm | hm | hm)
      · exact hslash.1 hm
      · exact absurd hm (by decide)
      · exact hslash.2 (mem_cons_of_mem _ (mem_of_mem_contract hm))
    refine ⟨⟨a ++ 58 :: contract b', by simp, hnoslash⟩, ?_, ?_, ?_⟩
    · exact plain_of_colon (by simp)
    · intro he
      have htext : a ++ 58 :: contract b' = n.text := congrArg Name.text he
      rw [hab] at htext
      have hlen := congrArg List.length htext
      have hle := length_contract_le b'
      simp at hlen
      omega
    · intro u hu'
      rw [hab, ← append_assoc, fromPortableString_double (hu u hu'), append_assoc]
  · right
    refine ⟨contract b, fun hm => hslash.2 (mem_of_mem_contract hm), fun u hu' => ?_⟩
    refine ⟨u ++ a ++ [58], ?_⟩
    rw [hab, ← append_assoc, fromPortableString_single (hu u hu') hb]

def nullName : Name := ⟨nullText, by decide, by decide⟩

theorem nullName_plain : Plain nullName := by
  constructor <;> decide

theorem segments_ofText {s : Text} (h : 47 ∉ s) (device : Option Text) :
    (ofText device s).segments = [] ∧ s = [] ∨ ∃ n : Name, (ofText device s).segments = [n] := by
  by_cases hs : s = []
  · subst hs
    exact .inl ⟨rfl, rfl⟩
  · have hread := ofText_join_relative device [⟨s, hs, h⟩]
    rw [join_singleton] at hread
    refine .inr ⟨⟨s, hs, h⟩, ?_⟩
    rw [hread]
    exact collapse_singleton _

/-- The name of a directory beside an ancestor of the container, behind `../`. -/
theorem segments_name {name : Name} {parent : List Name} (hg : g.path.segments = parent ++ [name])
    (hpre : parent <+: c.path.segments) (hnot : ¬ c.path.segments <+: g.path.segments) :
    (c.path.append (fromPortableString
        (ups (c.path.segments.length - parent.length) ++ name.text))).segments = g.path.segments ↔
      NameReadable c.path g.path name := by
  have hne : c.path.segments ≠ [] := by
    intro hnil
    rw [hnil] at hnot
    exact hnot nil_prefix
  have hself : c.path.segments ≠ g.path.segments := by
    intro he
    rw [he] at hnot
    exact hnot prefix_rfl
  have hplain : Plain name := g.plain name (by rw [hg]; simp)
  have hups := colon_notMem_ups (c.path.segments.length - parent.length)
  unfold NameReadable
  by_cases hcolon : 58 ∈ name.text
  · rcases read_name hcolon with ⟨n', hn', hdiff, hread⟩ | ⟨s, hs, hread⟩
    · -- another name: neither side holds
      have hsegs := segments_up hpre hn' (hread _ hups)
      have hone : (fromPortableString name.text).segments = [n'] := by
        have hfrom := hread [] (by simp)
        rw [nil_append, nil_append] at hfrom
        rw [hfrom, ← join_singleton n', ofText_join_relative]
        exact collapse_singleton n'
      rw [hsegs, hg, hone]
      simp [hcolon, hdiff, hn'.2]
    · -- a device: what is behind it is appended to the container
      obtain ⟨d, hd⟩ := hread _ hups
      obtain ⟨d', hd'⟩ := hread [] (by simp)
      rw [nil_append] at hd'
      have hsame : (ofText (some d) s).segments = (ofText (some d') s).segments := rfl
      rw [hd, hd', ← hsame]
      rcases segments_ofText hs (some d) with ⟨hnil, -⟩ | ⟨n, hn⟩
      · rw [Path.append_plain (by simp [hnil]), hnil]
        simp [hcolon, hself]
      · by_cases h2 : n = dotdot
        · subst h2
          rw [Path.append_collapse hn (.inl rfl), hn, collapse_parent c.plain hne]
          simp [hcolon]
        · by_cases h1 : n = dot
          · subst h1
            rw [Path.append_collapse hn (.inr rfl), hn, collapse_dot c.plain hne]
            simp [hcolon, hself, h2]
          · have happ : c.path.segments ++ [n] ≠ g.path.segments :=
              fun he => hnot ⟨[n], he⟩
            rw [Path.append_plain (by simpa [hn] using ⟨h1, h2⟩), hn]
            simp [hcolon, happ, h2]
  · have hall : 58 ∉ ups (c.path.segments.length - parent.length) ++ name.text := by
      simp [hups, hcolon]
    simp [segments_up hpre hplain (fromPortableString_noColon hall), hg, hcolon]

/-- A directory beside an ancestor of the container. -/
theorem segments_beside (h : Path.isPrefixOf fold c.path g.path = false)
    (hup : Path.isPrefixOf fold (g.path.removeLastSegments 1) c.path = true) :
    (c.path.append (fromPortableString (gitDirText fold c.path g.path))).segments =
        g.path.segments ↔
      ∃ name, g.path.segments.getLast? = some name ∧ NameReadable c.path g.path name := by
  obtain ⟨hdev, hpre⟩ := Path.isPrefixOf_iff.1 hup
  -- the container is not above the directory
  have hnot : ¬ c.path.segments <+: g.path.segments := by
    intro hc
    have : Path.isPrefixOf fold c.path g.path = true := by
      rw [Path.isPrefixOf_iff, Path.sameDevice_comm]
      exact ⟨hdev, hc⟩
    rw [h] at this
    cases this
  have htext : gitDirText fold c.path g.path = ups (c.path.segments.length -
      (g.path.removeLastSegments 1).segments.length) ++
        ((g.path.segment (g.path.segments.length - 1)).map Name.text).getD nullText := by
    unfold gitDirText
    rw [if_neg (by simp [h])]
    rw [if_pos hup, Path.matchingFirstSegments, Path.commonLength_right hpre]
  rw [htext]
  rcases eq_nil_or_concat' g.path.segments with hnil | ⟨parent, name, hg⟩
  · -- a root has no name
    have hparent : (g.path.removeLastSegments 1).segments = [] := by
      simp [Path.removeLastSegments, hnil]
    have hnull : 58 ∉ ups (c.path.segments.length - ([] : List Name).length) ++ nullName.text := by
      have := colon_notMem_ups (c.path.segments.length - ([] : List Name).length)
      simp only [mem_append, this, false_or]
      decide
    have hsegs := segments_up nil_prefix nullName_plain (fromPortableString_noColon hnull)
    rw [hparent]
    simp only [Paths.Path.segment, hnil, getElem?_nil, Option.map_none, Option.getD_none,
      getLast?_nil]
    constructor
    · intro he
      exact absurd (hsegs.symm.trans he) (by simp)
    · rintro ⟨name, hname, -⟩
      cases hname
  · have hparent : (g.path.removeLastSegments 1).segments = parent := by
      simp [Path.removeLastSegments, hg]
    have hlast : g.path.segment (g.path.segments.length - 1) = some name := by
      simp [Paths.Path.segment, hg]
    rw [hparent] at hpre ⊢
    rw [hlast]
    have hgetLast : g.path.segments.getLast? = some name := by simp [hg]
    rw [hgetLast]
    simpa using segments_name hg hpre hnot

theorem denotes_iff (fold : UInt16 → UInt16) (c g : Location) :
    Denotes fold (c.path.append (fromPortableString (gitDirText fold c.path g.path))) g.path ↔
      Recoverable fold c.path g.path := by
  unfold Denotes Recoverable
  rw [Path.append_device]
  cases h : Path.isPrefixOf fold c.path g.path with
  | true =>
    simp [segments_inside h, (Path.isPrefixOf_iff.1 h).1]
  | false =>
    cases hup : Path.isPrefixOf fold (g.path.removeLastSegments 1) c.path with
    | true =>
      have hdev : Path.sameDevice fold c.path.device g.path.device = true := by
        rw [Path.sameDevice_comm]
        exact (Path.isPrefixOf_iff.1 hup).1
      simp [segments_beside h hup, hdev]
    | false =>
      -- the same segments twice, or a path on another device
      have hnever : ¬ (Path.sameDevice fold c.path.device g.path.device = true ∧
          c.path.segments ++ g.path.segments = g.path.segments) := by
        rintro ⟨hdev, he⟩
        have hnil : c.path.segments = [] := append_left_eq_self.1 he
        have : Path.isPrefixOf fold c.path g.path = true := by
          rw [Path.isPrefixOf_iff, hnil]
          exact ⟨hdev, nil_prefix⟩
        rw [h] at this
        cases this
      rw [segments_elsewhere h hup]
      constructor
      · rintro ⟨hdev, -, he⟩
        exact absurd ⟨hdev, he⟩ hnever
      · rintro ⟨-, h' | ⟨h', -⟩⟩
        · cases h'
        · cases h'

end

/-! ## Top theorems -/

/-- **A restart.**  The mapping that was stored is read back with the path of its container, and its
git directory is the original one if and only if the locations are recoverable. -/
theorem restored_iff (fold : UInt16 → UInt16) (c : Container) (g : Location) (p : Properties) :
    (∃ m, Mapping.ofProperties ((Mapping.ofContainer fold c g).store p)
          (Mapping.ofContainer fold c g).key = some m ∧
        m.getContainerPath = c.relativePath ∧
        Denotes fold (m.getGitDirAbsolutePath c.location) g.path) ↔
      Recoverable fold c.location.path g.path := by
  rw [← denotes_iff, ofProperties_store]
  constructor
  · rintro ⟨m, hm, -, hden⟩
    cases hm
    exact hden
  · intro hden
    exact ⟨_, rfl, getContainerPath_ofContainer fold c g, hden⟩

def rooted (segments : List Name) (h : ∀ n ∈ segments, Plain n) : Location :=
  ⟨⟨none, .slash, segments⟩, by simp, h, fun _ hd => nomatch hd⟩

/-- The project `/a` with the git directory `/b/c`: after a restart it is `/a/b/c`. -/
theorem elsewhere_appended :
    let a : Name := ⟨[97], by decide, by decide⟩
    let b : Name := ⟨[98], by decide, by decide⟩
    let c : Name := ⟨[99], by decide, by decide⟩
    let container : Container := ⟨rooted [a] (by decide), [], by simp⟩
    let gitDir := rooted [b, c] (by decide)
    let m := Mapping.ofContainer id container gitDir
    Mapping.ofProperties (m.store []) m.key = some m ∧
      m.getGitDirAbsolutePath container.location = ⟨none, .slash, [a, b, c]⟩ ∧
      ¬ Denotes id (m.getGitDirAbsolutePath container.location) gitDir.path := by
  refine ⟨by decide, by decide, ?_⟩
  rintro ⟨-, -, hseg⟩
  exact absurd hseg (by decide)

/-! ## All mappings of a project -/

def Mapping.property (m : Mapping) : Text × Text := (m.key, m.gitDirPathString)

theorem foldl_store {ms : List Mapping} {p : Properties} (hms : (ms.map Mapping.key).Nodup)
    (hp : ∀ m ∈ ms, ∀ e ∈ p, e.1 ≠ m.key) :
    ms.foldl (fun p m => m.store p) p = (ms.map Mapping.property).reverse ++ p := by
  induction ms generalizing p with
  | nil => rfl
  | cons m ms ih =>
    obtain ⟨hm, hms⟩ := nodup_cons.1 hms
    have hstore : m.store p = m.property :: p := by
      have hfilter : p.filter (fun e => e.1 ≠ m.key) = p := by
        rw [filter_eq_self]
        intro e he
        simpa using hp m mem_cons_self e he
      rw [Mapping.store, setProperty, hfilter]
      rfl
    rw [foldl_cons, hstore, ih hms]
    · simp
    · intro m' hm' e he
      rcases mem_cons.1 he with rfl | he
      · intro hkey
        exact hm (mem_map.2 ⟨m', hm', hkey.symm⟩)
      · exact hp m' (mem_cons_of_mem m hm') e he

theorem getProperty_of_mem {p : Properties} (h : (p.map Prod.fst).Nodup) {e : Text × Text}
    (he : e ∈ p) : getProperty p e.1 = some e.2 := by
  induction p with
  | nil => cases he
  | cons e' p ih =>
    obtain ⟨hnot, hp⟩ := nodup_cons.1 h
    unfold getProperty at ih ⊢
    rw [find?_cons]
    rcases mem_cons.1 he with rfl | he
    · simp
    · have hne : e'.1 ≠ e.1 := by
        intro heq
        exact hnot (heq ▸ mem_map.2 ⟨e, he, rfl⟩)
      simp only [hne, decide_false]
      exact ih hp he

theorem load_properties {ms : List Mapping} (h : (ms.map Mapping.key).Nodup) :
    load (ms.map Mapping.property) = ms := by
  have hnodup : ((ms.map Mapping.property).map Prod.fst).Nodup := by
    rw [map_map]
    exact h
  have hread : ∀ m ∈ ms,
      (if isInitialKey m.key then Mapping.ofProperties (ms.map Mapping.property) m.key else none) =
        some m := by
    intro m hm
    have hget : getProperty (ms.map Mapping.property) m.key = some m.gitDirPathString :=
      getProperty_of_mem hnodup (mem_map.2 ⟨m, hm, rfl⟩)
    rw [isInitialKey_key, if_pos rfl, Mapping.ofProperties, hget, Mapping.key, Option.map_some,
      before_last_dot]
  unfold load
  rw [filterMap_map]
  exact (filterMap_congr hread).trans filterMap_some

/-- **All mappings.**  Mappings of different containers come back from the file as they were. -/
theorem load_storeAll {ms : List Mapping} (h : (ms.map Mapping.containerPathString).Nodup) :
    (load (storeAll ms)).Perm ms := by
  have hkeys : (ms.map Mapping.key).Nodup := by
    have hmap :
        ms.map Mapping.key = (ms.map Mapping.containerPathString).map (· ++ gitdirSuffix) := by
      simp [Mapping.key]
    rw [hmap]
    exact List.Nodup.map (fun a b hab => append_cancel_right hab) h
  have hrev : (ms.reverse.map Mapping.key).Nodup := by
    rw [map_reverse, nodup_reverse]
    exact hkeys
  have hstore : storeAll ms = ms.reverse.map Mapping.property := by
    rw [storeAll, foldl_store hkeys (by simp), append_nil, map_reverse]
  rw [hstore, load_properties hrev]
  exact reverse_perm ms

/-! ## Paths of resources -/

structure Below (workTree location : Location) (q : List Name) : Prop where
  device : location.path.device = workTree.path.device
  leading : location.path.leading = workTree.path.leading
  segments : location.path.segments = workTree.path.segments ++ q

theorem Below.toString_eq {workTree location : Location} {q : List Name}
    (h : Below workTree location q) (hw : workTree.path.segments ≠ []) (hq : q ≠ []) :
    location.path.toString = workTree.path.toString ++ [47] ++ join q := by
  unfold Path.toString
  rw [h.device, h.leading, h.segments, join_append hw hq]
  simp

end Egit.RepositoryMapping
