import Mathlib.Data.List.Basic

/-!
# File name patterns

A pattern is read into atoms: characters that stand for themselves, `?` for one character, `*` for
any characters, and bracket expressions for one of a set; a backslash makes the next character stand
for itself.  None of them takes a slash.  How brackets are read is a parameter, since `fnmatch` and
its descendants differ there.

A line of an ignore file is a pattern with spaces at its end, which are dropped unless a backslash
is before them, and with slashes and a `!` around it.

    the line `/name` ignores the entry `name` and no other entry ↔
      name has no `*`, `?`, backslash or bracket expression, and does not end with a space
      (ignoresOnly_iff)
-/

namespace Glob

abbrev Text := List UInt16

inductive Atom
  | lit (c : UInt16)
  | any
  | star
  | bracket (set : UInt16 → Bool)

/-- Atoms other than `*` take one character. -/
def Atom.takes : Atom → UInt16 → Bool
  | .lit c, d => d == c
  | .any, d => d != 47
  | .bracket set, d => d != 47 && set d
  | .star, _ => false

/-- How brackets are read. -/
structure Dialect where
  /-- The set behind a `[`, and how many characters it takes with its `]`. -/
  bracket : Text → Option ((UInt16 → Bool) × Nat)
  closed : ∀ s set k, bracket s = some (set, k) → 0 < k ∧ k ≤ s.length
  /-- A `[` without a set stands for itself; otherwise the pattern is invalid. -/
  literalBracket : Bool

/-- Sets that list their characters. -/
def listed (literalBracket : Bool) : Dialect where
  bracket s :=
    let set := s.takeWhile (· ≠ 93)
    if set ≠ [] ∧ set.length < s.length then some (fun c => set.contains c, set.length + 1)
    else none
  closed := by
    intro s set k h
    dsimp only at h
    split at h
    · next hset =>
      cases h
      exact ⟨Nat.succ_pos _, hset.2⟩
    · cases h
  literalBracket := literalBracket

/-- The atoms of a text behind its first `k` characters.  A backslash at the end is invalid. -/
def atoms (d : Dialect) : Nat → Text → Option (List Atom)
  | _, [] => some []
  | k + 1, _ :: s => atoms d k s
  | 0, c :: s =>
    if c = 92 then
      match s.head? with
      | none => none
      | some e => (atoms d 1 s).map (Atom.lit e :: ·)
    else if c = 42 then (atoms d 0 s).map (Atom.star :: ·)
    else if c = 63 then (atoms d 0 s).map (Atom.any :: ·)
    else if c = 91 then
      match d.bracket s with
      | some (set, k) => (atoms d k s).map (Atom.bracket set :: ·)
      | none => if d.literalBracket then (atoms d 0 s).map (Atom.lit c :: ·) else none
    else (atoms d 0 s).map (Atom.lit c :: ·)

def matchesAtoms : List Atom → Text → Bool
  | [], s => s.isEmpty
  | .star :: as, s =>
    (List.range (s.length + 1)).any fun k =>
      (s.take k).all (fun c => c != 47) && matchesAtoms as (s.drop k)
  | a :: as, s =>
    match s with
    | [] => false
    | c :: s => a.takes c && matchesAtoms as s

/-- An invalid pattern matches nothing. -/
def matchesText (d : Dialect) (pattern s : Text) : Bool :=
  match atoms d 0 pattern with
  | none => false
  | some as => matchesAtoms as s

/-! ## Matching -/

section
variable {a : Atom} {as bs : List Atom} {s t : Text}

theorem matchesAtoms_nil_iff : matchesAtoms [] s = true ↔ s = [] := by
  simp [matchesAtoms]

theorem matchesAtoms_star_iff : matchesAtoms (.star :: as) s = true ↔
    ∃ u w, s = u ++ w ∧ 47 ∉ u ∧ matchesAtoms as w = true := by
  have hslash : ∀ u : Text, (u.all fun c => c != 47) = true ↔ 47 ∉ u := by
    intro u
    rw [List.all_eq_true]
    constructor
    · intro h hmem
      exact absurd (h 47 hmem) (by simp)
    · rintro h c hc
      rw [bne_iff_ne]
      rintro rfl
      exact h hc
  rw [matchesAtoms, List.any_eq_true]
  constructor
  · rintro ⟨k, -, hk⟩
    rw [Bool.and_eq_true, hslash] at hk
    exact ⟨s.take k, s.drop k, (List.take_append_drop k s).symm, hk⟩
  · rintro ⟨u, w, rfl, hu, hw⟩
    refine ⟨u.length, List.mem_range.2 (by rw [List.length_append]; omega), ?_⟩
    rw [List.take_left, List.drop_left, Bool.and_eq_true, hslash]
    exact ⟨hu, hw⟩

theorem matchesAtoms_cons_iff (ha : a ≠ .star) : matchesAtoms (a :: as) s = true ↔
    ∃ c w, s = c :: w ∧ a.takes c = true ∧ matchesAtoms as w = true := by
  cases a with
  | star => exact absurd rfl ha
  | lit | any | bracket =>
    cases s with
    | nil => simp [matchesAtoms]
    | cons c s => simp [matchesAtoms]

theorem matchesAtoms_append_iff : matchesAtoms (as ++ bs) s = true ↔
    ∃ u w, s = u ++ w ∧ matchesAtoms as u = true ∧ matchesAtoms bs w = true := by
  induction as generalizing s with
  | nil => simp [matchesAtoms]
  | cons a as ih =>
    by_cases ha : a = .star
    · subst ha
      rw [List.cons_append, matchesAtoms_star_iff]
      constructor
      · rintro ⟨u, w, rfl, hu, hw⟩
        obtain ⟨v, w, rfl, hv, hw⟩ := ih.1 hw
        exact ⟨u ++ v, w, by simp, matchesAtoms_star_iff.2 ⟨u, v, rfl, hu, hv⟩, hw⟩
      · rintro ⟨_, w, rfl, h, hw⟩
        obtain ⟨u, v, rfl, hu, hv⟩ := matchesAtoms_star_iff.1 h
        exact ⟨u, v ++ w, by simp, hu, ih.2 ⟨v, w, rfl, hv, hw⟩⟩
    · rw [List.cons_append, matchesAtoms_cons_iff ha]
      constructor
      · rintro ⟨c, w, rfl, hc, hw⟩
        obtain ⟨v, w, rfl, hv, hw⟩ := ih.1 hw
        exact ⟨c :: v, w, rfl, (matchesAtoms_cons_iff ha).2 ⟨c, v, rfl, hc, hv⟩, hw⟩
      · rintro ⟨_, w, rfl, h, hw⟩
        obtain ⟨c, v, rfl, hc, hv⟩ := (matchesAtoms_cons_iff ha).1 h
        exact ⟨c, v ++ w, rfl, hc, ih.2 ⟨v, w, rfl, hv, hw⟩⟩

theorem length_of_matchesAtoms (hstar : .star ∉ as) (h : matchesAtoms as s = true) :
    s.length = as.length := by
  induction as generalizing s with
  | nil =>
    rw [matchesAtoms_nil_iff.1 h]
    rfl
  | cons a as ih =>
    rw [List.mem_cons, not_or] at hstar
    obtain ⟨c, w, rfl, -, hw⟩ := (matchesAtoms_cons_iff (Ne.symm hstar.1)).1 h
    rw [List.length_cons, List.length_cons, ih hstar.2 hw]

theorem matchesAtoms_lits_iff : matchesAtoms (t.map .lit) s = true ↔ s = t := by
  induction t generalizing s with
  | nil => exact matchesAtoms_nil_iff
  | cons c t ih =>
    rw [List.map_cons, matchesAtoms_cons_iff (by simp)]
    constructor
    · rintro ⟨e, w, rfl, he, hw⟩
      rw [ih.1 hw, beq_iff_eq.1 he]
    · rintro rfl
      exact ⟨c, t, rfl, beq_self_eq_true c, ih.2 rfl⟩

theorem matches_longer (hstar : .star ∈ as) (h : matchesAtoms as s = true) {c : UInt16}
    (hc : c ≠ 47) :
    ∃ u w, s = u ++ w ∧ matchesAtoms as (u ++ c :: w) = true := by
  obtain ⟨l, r, rfl⟩ := List.append_of_mem hstar
  obtain ⟨u, t, rfl, hl, ht⟩ := matchesAtoms_append_iff.1 h
  refine ⟨u, t, rfl, matchesAtoms_append_iff.2 ⟨u, c :: t, rfl, hl, ?_⟩⟩
  obtain ⟨v, w, rfl, hv, hw⟩ := matchesAtoms_star_iff.1 ht
  refine matchesAtoms_star_iff.2 ⟨c :: v, w, rfl, ?_, hw⟩
  rw [List.mem_cons, not_or]
  exact ⟨Ne.symm hc, hv⟩

theorem matches_other (hany : .any ∈ as) (h : matchesAtoms as s = true) :
    ∃ u e w, s = u ++ e :: w ∧ ∀ c, c ≠ 47 → matchesAtoms as (u ++ c :: w) = true := by
  obtain ⟨l, r, rfl⟩ := List.append_of_mem hany
  obtain ⟨u, t, rfl, hl, ht⟩ := matchesAtoms_append_iff.1 h
  obtain ⟨e, w, rfl, -, hw⟩ := (matchesAtoms_cons_iff (by simp)).1 ht
  refine ⟨u, e, w, rfl, fun c hc => ?_⟩
  refine matchesAtoms_append_iff.2 ⟨u, c :: w, rfl, hl, ?_⟩
  exact (matchesAtoms_cons_iff (by simp)).2 ⟨c, w, rfl, bne_iff_ne.2 hc, hw⟩

end

/-! ## Texts that stand for themselves -/

/-- No `*`, `?` or backslash, and no `[` of a bracket expression. -/
def Literal (d : Dialect) : Text → Prop
  | [] => True
  | c :: s => c ≠ 42 ∧ c ≠ 63 ∧ c ≠ 92 ∧ (c = 91 → d.literalBracket = true ∧ d.bracket s = none) ∧
      Literal d s

section
variable {d : Dialect} {as : List Atom} {s : Text}

theorem atoms_of_literal (h : Literal d s) : atoms d 0 s = some (s.map .lit) := by
  induction s with
  | nil => rfl
  | cons c s ih =>
    obtain ⟨hstar, hany, hback, hbracket, hs⟩ := h
    rw [atoms, if_neg hback, if_neg hstar, if_neg hany, ih hs]
    split
    · next hc => rw [(hbracket hc).2, (hbracket hc).1]; rfl
    · rfl

theorem Literal.backslash (h : Literal d s) : 92 ∉ s := by
  induction s with
  | nil => simp
  | cons c s ih =>
    obtain ⟨-, -, hback, -, hs⟩ := h
    rw [List.mem_cons, not_or]
    exact ⟨Ne.symm hback, ih hs⟩

/-- The first atom of a pattern: it takes more than its first character, or is `*`, `?` or this
character. -/
theorem atoms_cons {c : UInt16} (h : atoms d 0 (c :: s) = some as) :
    ∃ a k rest, as = a :: rest ∧ atoms d k s = some rest ∧
      (0 < k ∧ k ≤ s.length ∨ k = 0 ∧ (a = .star ∨ a = .any ∨ c ≠ 42 ∧ c ≠ 63 ∧ c ≠ 92 ∧
        (c = 91 → d.literalBracket = true ∧ d.bracket s = none))) := by
  rw [atoms] at h
  split at h
  · cases hs : s.head? with
    | none =>
      rw [hs] at h
      cases h
    | some e =>
      rw [hs] at h
      obtain ⟨rest, hrest, rfl⟩ := Option.map_eq_some_iff.1 h
      have hlen : 0 < s.length := List.length_pos_of_mem (List.mem_of_head? hs)
      exact ⟨_, 1, rest, rfl, hrest, .inl ⟨by omega, hlen⟩⟩
  · next hback =>
    split at h
    · obtain ⟨rest, hrest, rfl⟩ := Option.map_eq_some_iff.1 h
      exact ⟨_, 0, rest, rfl, hrest, .inr ⟨rfl, .inl rfl⟩⟩
    next hstar =>
    split at h
    · obtain ⟨rest, hrest, rfl⟩ := Option.map_eq_some_iff.1 h
      exact ⟨_, 0, rest, rfl, hrest, .inr ⟨rfl, .inr (.inl rfl)⟩⟩
    next hany =>
    split at h
    · cases hb : d.bracket s with
      | some r =>
        obtain ⟨set, k⟩ := r
        rw [hb] at h
        obtain ⟨rest, hrest, rfl⟩ := Option.map_eq_some_iff.1 h
        exact ⟨_, k, rest, rfl, hrest, .inl (d.closed s set k hb)⟩
      | none =>
        rw [hb] at h
        obtain ⟨hlit, h⟩ := Option.ite_none_right_eq_some.1 h
        obtain ⟨rest, hrest, rfl⟩ := Option.map_eq_some_iff.1 h
        exact ⟨_, 0, rest, rfl, hrest,
          .inr ⟨rfl, .inr (.inr ⟨hstar, hany, hback, fun _ => ⟨hlit, rfl⟩⟩)⟩⟩
    · next hbracket =>
      obtain ⟨rest, hrest, rfl⟩ := Option.map_eq_some_iff.1 h
      exact ⟨_, 0, rest, rfl, hrest,
        .inr ⟨rfl, .inr (.inr ⟨hstar, hany, hback, fun hc => absurd hc hbracket⟩)⟩⟩

theorem length_atoms {k : Nat} (h : atoms d k s = some as) : as.length ≤ s.length - k := by
  induction s generalizing k as with
  | nil =>
    have : as = [] := by
      cases k <;> exact (Option.some.inj h).symm
    simp [this]
  | cons c s ih =>
    cases k with
    | succ k =>
      have := ih h
      rw [List.length_cons]
      omega
    | zero =>
      obtain ⟨a, k, rest, rfl, hrest, hk⟩ := atoms_cons h
      have := ih hrest
      simp only [List.length_cons]
      omega

theorem literal_of_atoms (h : atoms d 0 s = some as) (hlen : as.length = s.length)
    (hstar : .star ∉ as) (hany : .any ∉ as) : Literal d s := by
  induction s generalizing as with
  | nil => trivial
  | cons c s ih =>
    obtain ⟨a, k, rest, rfl, hrest, hk⟩ := atoms_cons h
    have hle := length_atoms hrest
    rw [List.mem_cons, not_or] at hstar hany
    simp only [List.length_cons] at hlen
    rcases hk with hk | ⟨rfl, ha | ha | ⟨h1, h2, h3, h4⟩⟩
    · omega
    · exact absurd ha.symm hstar.1
    · exact absurd ha.symm hany.1
    · exact ⟨h1, h2, h3, h4, ih hrest (by omega) hstar.2 hany.2⟩

end

/-! ## Lines of ignore files -/

/-- Spaces at the end are dropped, unless a backslash is before them. -/
def trim : Text → Text
  | [] => []
  | [c] => if c = 32 then [] else [c]
  | c :: e :: s =>
    if c = 92 then c :: e :: trim s
    else if c = 32 ∧ (e :: s).all (fun x => x == 32) = true then []
    else c :: trim (e :: s)

structure Rule where
  negated : Bool
  directoryOnly : Bool
  pattern : Text

/-- A slash at the end is for directories; one in front only ties the pattern to the directory of
the file. -/
def Rule.ofBody (negated : Bool) (s : Text) : Rule :=
  let directoryOnly := s.getLast? == some 47
  let body := if directoryOnly then s.dropLast else s
  ⟨negated, directoryOnly, if body.head? = some 47 then body.tail else body⟩

/-- Empty lines and comments have no rule. -/
def Rule.ofLine (line : Text) : Option Rule :=
  match trim line with
  | [] => none
  | c :: s =>
    if c = 35 then none
    else if c = 33 then some (Rule.ofBody true s)
    else some (Rule.ofBody false (c :: s))

structure FileName where
  text : Text
  nonempty : text ≠ []
  noSlash : 47 ∉ text
  noNul : 0 ∉ text
  noDots : text ≠ [46] ∧ text ≠ [46, 46]

def ignores (d : Dialect) (line : Text) (entry : FileName) (directory : Bool) : Bool :=
  match Rule.ofLine line with
  | none => false
  | some r => !r.negated && (!r.directoryOnly || directory) && matchesText d r.pattern entry.text

def IgnoresOnly (d : Dialect) (line : Text) (entry : FileName) (directory : Bool) : Prop :=
  ignores d line entry directory = true ∧
    ∀ other : FileName, other.text ≠ entry.text → ∀ b, ignores d line other b = false

section
variable {d : Dialect} {s : Text}

theorem trim_isPrefix (s : Text) : trim s <+: s := by
  fun_induction trim s with
  | case1 => exact List.prefix_rfl
  | case2 => exact List.nil_prefix
  | case3 => exact List.prefix_rfl
  | case4 e s ih => simpa using ih
  | case5 => exact List.nil_prefix
  | case6 c e s _ _ ih => simpa using ih

theorem trim_eq_self (h : s.getLast? ≠ some 32) : trim s = s := by
  fun_induction trim s with
  | case1 => rfl
  | case2 => exact absurd rfl h
  | case3 => rfl
  | case4 e s ih =>
    cases s with
    | nil => rfl
    | cons c s => rw [ih (by simpa using h)]
  | case5 c e s _ hall =>
    have hlast : (e :: s).getLast? = some ((e :: s).getLast (by simp)) :=
      List.getLast?_eq_some_getLast _
    have hspace := List.all_eq_true.1 hall.2 _ (List.getLast_mem (by simp))
    rw [List.getLast?_cons_cons, hlast, beq_iff_eq.1 hspace] at h
    exact absurd rfl h
  | case6 c e s _ _ ih => rw [ih (by simpa using h)]

theorem trim_ne_self (hback : 92 ∉ s) (h : s.getLast? = some 32) : trim s ≠ s := by
  fun_induction trim s with
  | case1 => cases h
  | case2 => simp
  | case3 c hc => exact absurd (by simpa using h) hc
  | case4 e s => simp at hback
  | case5 => simp
  | case6 c e s _ _ ih =>
    rw [List.mem_cons, not_or] at hback
    intro heq
    exact ih hback.2 (by simpa using h) (List.cons.inj heq).2

theorem trim_slash (s : Text) : trim (47 :: s) = 47 :: trim s := by
  cases s with
  | nil => rfl
  | cons c s => rw [trim, if_neg (by decide), if_neg fun h => absurd h.1 (by decide)]

theorem ignores_slash {name : Text} (hslash : 47 ∉ name) (entry : FileName) (b : Bool) :
    ignores d (47 :: name) entry b = matchesText d (trim name) entry.text := by
  have htrim : 47 ∉ trim name := fun h => hslash ((trim_isPrefix name).subset h)
  have hline : Rule.ofLine (47 :: name) = some (Rule.ofBody false (47 :: trim name)) := by
    unfold Rule.ofLine
    rw [trim_slash]
    rfl
  unfold ignores
  rw [hline]
  cases hn : trim name with
  | nil =>
    -- only the slash is left, and no entry has the empty name
    have hempty : matchesText d [] entry.text = false := by
      show entry.text.isEmpty = false
      simpa using entry.nonempty
    show (!false && (!true || b) && matchesText d [] entry.text) = _
    rw [hempty, Bool.and_false]
  | cons c s =>
    have hlast : (47 :: c :: s).getLast? ≠ some 47 := by
      rw [List.getLast?_cons_cons, ← hn]
      exact fun h => htrim (List.mem_of_getLast? h)
    have hbody : Rule.ofBody false (47 :: c :: s) = ⟨false, false, c :: s⟩ := by
      unfold Rule.ofBody
      rw [beq_eq_false_iff_ne.2 hlast]
      rfl
    rw [hbody]
    rfl

theorem matchesText_literal_iff {t : Text} (h : Literal d t) :
    matchesText d t s = true ↔ s = t := by
  rw [matchesText, atoms_of_literal h]
  exact matchesAtoms_lits_iff

/-- With a letter in it, a text is the name of an entry. -/
theorem exists_fileName {t : Text} {c : UInt16} (hc : c ≠ 46) (hmem : c ∈ t) (hslash : 47 ∉ t)
    (hnul : 0 ∉ t) : ∃ other : FileName, other.text = t := by
  refine ⟨⟨t, List.ne_nil_of_mem hmem, hslash, hnul, ?_, ?_⟩, rfl⟩
  · rintro rfl
    exact hc (List.mem_singleton.1 hmem)
  · rintro rfl
    simp only [List.mem_cons, List.not_mem_nil, or_false, or_self] at hmem
    exact hc hmem

theorem notMem_insert {u w : Text} {c e : UInt16} (h : c ∉ u ++ w) (he : c ≠ e) :
    c ∉ u ++ e :: w := by
  simp only [List.mem_append, List.mem_cons, not_or] at h ⊢
  exact ⟨h.1, he, h.2⟩

section
variable {name : FileName} {as : List Atom}

/-- What a pattern needs to match no other entry. -/
theorem no_wildcard (hself : matchesAtoms as name.text = true)
    (honly : ∀ other : FileName, matchesAtoms as other.text = true → other.text = name.text) :
    .star ∉ as ∧ .any ∉ as := by
  constructor
  · intro hmem
    obtain ⟨u, w, hname, hlong⟩ := matches_longer (c := 97) hmem hself (by decide)
    obtain ⟨other, hother⟩ := exists_fileName (c := 97) (t := u ++ 97 :: w) (by decide) (by simp)
      (notMem_insert (hname ▸ name.noSlash) (by decide))
      (notMem_insert (hname ▸ name.noNul) (by decide))
    have hlen := congrArg List.length (honly other (hother ▸ hlong))
    rw [hother, hname] at hlen
    simp only [List.length_append, List.length_cons] at hlen
    omega
  · intro hmem
    obtain ⟨u, e, w, hname, hswap⟩ := matches_other hmem hself
    -- one of two letters is another one than the name has there
    obtain ⟨c, hc, hce⟩ : ∃ c : UInt16, (c ≠ 46 ∧ c ≠ 47 ∧ c ≠ 0) ∧ c ≠ e := by
      by_cases he : e = 97
      · exact ⟨98, by decide, by rw [he]; decide⟩
      · exact ⟨97, by decide, Ne.symm he⟩
    have hsub : ∀ x, x ∉ name.text → x ∉ u ++ w := by
      intro x hx hxuw
      rw [hname] at hx
      simp only [List.mem_append, List.mem_cons, not_or] at hx hxuw
      tauto
    obtain ⟨other, hother⟩ := exists_fileName hc.1 (by simp)
      (notMem_insert (hsub 47 name.noSlash) (Ne.symm hc.2.1))
      (notMem_insert (hsub 0 name.noNul) (Ne.symm hc.2.2))
    have heq := honly other (hother ▸ hswap c hc.2.1)
    rw [hother, hname] at heq
    exact hce (List.cons.inj (List.append_cancel_left heq)).1

theorem ignoresOnly_iff (directory : Bool) :
    IgnoresOnly d (47 :: name.text) name directory ↔
      Literal d name.text ∧ name.text.getLast? ≠ some 32 := by
  unfold IgnoresOnly
  simp only [ignores_slash name.noSlash]
  constructor
  · rintro ⟨hself, hother⟩
    unfold matchesText at hself hother
    cases has : atoms d 0 (trim name.text) with
    | none =>
      rw [has] at hself
      cases hself
    | some as =>
      rw [has] at hself hother
      dsimp only at hself hother
      obtain ⟨hstar, hany⟩ := no_wildcard hself fun other hmatch => by
        by_contra hne
        rw [hother other hne false] at hmatch
        cases hmatch
      -- every atom takes one character of the name, so the pattern is not shorter than the name
      have hlen := length_of_matchesAtoms hstar hself
      have hatoms := length_atoms has
      have hpre := trim_isPrefix name.text
      have htrim : trim name.text = name.text := hpre.eq_of_length (by
        have := hpre.length_le
        omega)
      rw [htrim] at has
      have hlit := literal_of_atoms has hlen.symm hstar hany
      refine ⟨hlit, fun hspace => ?_⟩
      exact trim_ne_self hlit.backslash hspace htrim
  · rintro ⟨hlit, hspace⟩
    rw [trim_eq_self hspace]
    refine ⟨(matchesText_literal_iff hlit).2 rfl, fun other hne _ => ?_⟩
    rw [← Bool.not_eq_true, matchesText_literal_iff hlit]
    exact hne

end

end

end Glob
