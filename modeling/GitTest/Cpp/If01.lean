import GitTest.Cpp.Block

/-!
# What `optimizeAll` does to a nested block list

`Group.out` is the result of `optimizeIf01` on a whole group, section by section.  It is nested
only if no section goes on with a constant `#elif` behind an arm that is kept (`foldable`): such
an arm takes the `#endif` of the section with it.  Then it is the group `fold`, which keeps the
same blocks as the given one only if behind every constant true arm that is followed by an
`#elif` the arms after that `#elif` keep nothing (`quiet`): they are kept as if the section
started there.

    nested blocks → (Preserves macros blocks ↔ Sound macros blocks)  (optimizeAll_preserves_iff)
-/

namespace Cpp

open Conditional List

abbrev BlockGroup := Group Plain (List Token) Expr

abbrev BlockTail := Tail Plain (List Token) Expr

/-! ## The loop on a group -/

def andThen (x y : Except Error (List Block)) : Except Error (List Block) := do
  let a ← x
  let b ← y
  .ok (a ++ b)

theorem andThen_assoc (x y z : Except Error (List Block)) :
    andThen (andThen x y) z = andThen x (andThen y z) := by
  cases x with
  | error e => rfl
  | ok a =>
    cases y with
    | error e => rfl
    | ok b =>
      cases z with
      | error e => rfl
      | ok c => exact congrArg Except.ok (append_assoc a b c)

theorem andThen_nil (x : Except Error (List Block)) : andThen x (.ok []) = x := by
  cases x with
  | error e => rfl
  | ok a => exact congrArg Except.ok (append_nil a)

theorem nil_andThen (x : Except Error (List Block)) : andThen (.ok []) x = x := by
  cases x with
  | error e => rfl
  | ok a => rfl

theorem map_cons_eq (b : Block) (x : Except Error (List Block)) :
    x.map (b :: ·) = andThen (.ok [b]) x := by
  cases x with
  | error e => rfl
  | ok a => rfl

/-- One arm with the condition `c`: what is left of it depends on whether `c` is a constant. -/
def arm (b : Block) (c : Expr) (body opened skipped after : Except Error (List Block)) :
    Except Error (List Block) := do
  match ← intNode c with
  | none => andThen (.ok [b]) (andThen body opened)
  | some r => if r = 0 then skipped else andThen body after

mutual

/-- What `optimizeIf01` makes of a group. -/
def out : BlockGroup → Except Error (List Block)
  | .nil => .ok []
  | .plain a rest => andThen (.ok [.plain a]) (out rest)
  | .sect t c body tail rest =>
    andThen (arm (.ifLine t c) c (out body) (outOpen tail) (outSkip tail) (outAfter tail)) (out rest)

/-- What it makes of the arms behind an arm whose line is kept. -/
def outOpen : BlockTail → Except Error (List Block)
  | .endif t => .ok [.endifLine t]
  | .els t body t' => andThen (.ok [.elseLine t]) (andThen (out body) (.ok [.endifLine t']))
  | .elif t c body tail =>
    arm (.elifLine t c) c (out body) (outOpen tail) (outSkip tail) (outAfter tail)

/-- The arms behind a constant 0: the next one starts the section. -/
def outSkip : BlockTail → Except Error (List Block)
  | .endif _ => .ok []
  | .els _ body _ => out body
  | .elif t c body tail =>
    arm (.ifLine t c) c (out body) (outOpen tail) (outSkip tail) (outAfter tail)

/-- The arms behind another constant: only the next one goes. -/
def outAfter : BlockTail → Except Error (List Block)
  | .endif _ | .els _ _ _ => .ok []
  | .elif _ _ _ tail => outSkip tail

end

mutual

theorem findMatchingEndif_group (g : BlockGroup) (depth : Nat) (l : List Block) :
    findMatchingEndif (depth + 1) (g.flat ++ l) =
      (findMatchingEndif (depth + 1) l).map (g.flat ++ ·) id := by
  cases g with
  | nil => rfl
  | plain a rest =>
    simp only [Group.flat, cons_append, findMatchingEndif]
    rw [findMatchingEndif_group rest]
    rfl
  | sect t c body tail rest =>
    simp only [Group.flat, cons_append, append_assoc, findMatchingEndif]
    rw [findMatchingEndif_group body, findMatchingEndif_tail tail, findMatchingEndif_group rest]
    simp [Prod.map]

theorem findMatchingEndif_tail (tail : BlockTail) (depth : Nat) (l : List Block) :
    findMatchingEndif (depth + 1 + 1) (tail.flat ++ l) =
      (findMatchingEndif (depth + 1) l).map (tail.flat ++ ·) id := by
  cases tail with
  | endif t => simp [Tail.flat, findMatchingEndif]
  | els t body t' =>
    simp only [Tail.flat, cons_append, append_assoc, findMatchingEndif]
    rw [if_neg (by omega), findMatchingEndif_group body]
    simp [findMatchingEndif, Prod.map]
  | elif t c body tail =>
    simp only [Tail.flat, cons_append, append_assoc, findMatchingEndif]
    rw [if_neg (by omega), findMatchingEndif_group body, findMatchingEndif_tail tail]
    simp [Prod.map]

end

/-- Where the search ends that starts in front of a tail. -/
def tailStop (l : List Block) : BlockTail → Stop
  | .endif t => .endif t l
  | .els t body t' => .els t (body.flat ++ .endifLine t' :: l)
  | .elif t c body tail => .elif t c (body.flat ++ (tail.flat ++ l))

theorem findMatchingEndif_stop (body : BlockGroup) (tail : BlockTail) (l : List Block) :
    findMatchingEndif 1 (body.flat ++ (tail.flat ++ l)) = (body.flat, tailStop l tail) := by
  rw [findMatchingEndif_group body 0]
  cases tail <;> simp [Tail.flat, findMatchingEndif, tailStop, Prod.map]

section
variable {b : Block} {c : Expr}

theorem optimizeIf01_other (hb : Block.expr b = none) (blocks : List Block) :
    optimizeIf01 (b :: blocks) = andThen (.ok [b]) (optimizeIf01 blocks) := by
  rw [optimizeIf01, hb]
  exact map_cons_eq b _

theorem optimizeIf01_error (hb : Block.expr b = some c) {x : Error} (hc : intNode c = .error x)
    (blocks : List Block) : optimizeIf01 (b :: blocks) = .error x := by
  rw [optimizeIf01, hb]
  simp only [hc]
  rfl

theorem optimizeIf01_open (hb : Block.expr b = some c) (hc : intNode c = .ok none)
    (blocks : List Block) :
    optimizeIf01 (b :: blocks) = andThen (.ok [b]) (optimizeIf01 blocks) := by
  rw [optimizeIf01, hb]
  simp only [hc]
  exact map_cons_eq b _

/-- How the loop goes on behind a group with the constant 0. -/
def resumeSkip (l : List Block) : BlockTail → Except Error (List Block)
  | .endif _ => optimizeIf01 l
  | .els t body t' => optimizeIf01 (.ifLine t (.int 1) :: (body.flat ++ .endifLine t' :: l))
  | .elif t c body tail => optimizeIf01 (.ifLine t c :: (body.flat ++ (tail.flat ++ l)))

/-- How it goes on behind a group with another constant. -/
def resumeAfter (l : List Block) : BlockTail → Except Error (List Block)
  | .endif _ => optimizeIf01 l
  | .els t body t' => optimizeIf01 (.ifLine t (.int 0) :: (body.flat ++ .endifLine t' :: l))
  | .elif t _ body tail => optimizeIf01 (.elifLine t (.int 0) :: (body.flat ++ (tail.flat ++ l)))

theorem optimizeIf01_const (hb : Block.expr b = some c) {r : Int} (hc : intNode c = .ok (some r))
    (body : BlockGroup) (tail : BlockTail) (l : List Block) :
    optimizeIf01 (b :: (body.flat ++ (tail.flat ++ l))) =
      if r = 0 then resumeSkip l tail
      else andThen (optimizeIf01 body.flat) (resumeAfter l tail) := by
  have hstop := findMatchingEndif_stop body tail l
  rw [optimizeIf01, hb]
  simp only [hc, bind, Except.bind]
  split <;> next hk => rw [hstop] at hk; cases tail <;> cases hk <;> rfl

/-- The loop on the group, then on what follows it. -/
def GroupSpec (g : BlockGroup) : Prop :=
  ∀ l, optimizeIf01 (g.flat ++ l) = andThen (out g) (optimizeIf01 l)

structure TailSpec (tail : BlockTail) : Prop where
  opened : ∀ l, optimizeIf01 (tail.flat ++ l) = andThen (outOpen tail) (optimizeIf01 l)
  skip : ∀ l, resumeSkip l tail = andThen (outSkip tail) (optimizeIf01 l)
  after : ∀ l, resumeAfter l tail = andThen (outAfter tail) (optimizeIf01 l)

theorem GroupSpec.alone {g : BlockGroup} (h : GroupSpec g) : optimizeIf01 g.flat = out g := by
  have hl := h []
  rwa [append_nil, optimizeIf01, andThen_nil] at hl

theorem optimizeIf01_arm (hb : Block.expr b = some c) {body : BlockGroup} {tail : BlockTail}
    (hbody : GroupSpec body) (htail : TailSpec tail) (l : List Block) :
    optimizeIf01 (b :: (body.flat ++ (tail.flat ++ l))) =
      andThen (arm b c (out body) (outOpen tail) (outSkip tail) (outAfter tail))
        (optimizeIf01 l) := by
  unfold arm
  cases hc : intNode c with
  | error x =>
    rw [optimizeIf01_error hb hc]
    rfl
  | ok li =>
    cases li with
    | none =>
      rw [optimizeIf01_open hb hc, hbody, htail.opened]
      simp only [bind, Except.bind, andThen_assoc]
    | some r =>
      rw [optimizeIf01_const hb hc, hbody.alone, htail.skip, htail.after]
      simp only [bind, Except.bind]
      split
      · rfl
      · rw [andThen_assoc]

/-- `#else` as the whole section: its group stays if it became `#if 1`. -/
theorem optimizeIf01_else {r : Int} {body : BlockGroup} (hbody : GroupSpec body)
    (t t' : List Token) (l : List Block) :
    optimizeIf01 (.ifLine t (.int r) :: (body.flat ++ .endifLine t' :: l)) =
      andThen (if r = 0 then .ok [] else out body) (optimizeIf01 l) := by
  have h := optimizeIf01_const (b := .ifLine t (.int r)) rfl rfl body (.endif t') l
  rw [Tail.flat, singleton_append] at h
  rw [h, hbody.alone]
  split
  · rw [nil_andThen]
    rfl
  · rfl

mutual

theorem group_spec (g : BlockGroup) : GroupSpec g := by
  intro l
  cases g with
  | nil =>
    rw [out, nil_andThen]
    rfl
  | plain a rest =>
    rw [Group.flat, cons_append, optimizeIf01_other rfl, group_spec rest, out, andThen_assoc]
  | sect t c body tail rest =>
    rw [Group.flat, cons_append, append_assoc, append_assoc,
      optimizeIf01_arm rfl (group_spec body) (tail_spec tail), group_spec rest, out, andThen_assoc]

theorem tail_spec (tail : BlockTail) : TailSpec tail := by
  cases tail with
  | endif t =>
    refine ⟨fun l => ?_, fun l => ?_, fun l => ?_⟩
    · exact optimizeIf01_other rfl l
    · rw [outSkip, nil_andThen, resumeSkip]
    · rw [outAfter, nil_andThen, resumeAfter]
  | els t body t' =>
    refine ⟨fun l => ?_, fun l => ?_, fun l => ?_⟩
    · rw [Tail.flat, cons_append, append_assoc, optimizeIf01_other rfl, group_spec body,
        singleton_append, optimizeIf01_other rfl, outOpen, andThen_assoc, andThen_assoc]
    · rw [resumeSkip, optimizeIf01_else (group_spec body)]
      rfl
    · rw [resumeAfter, optimizeIf01_else (group_spec body)]
      rfl
  | elif t c body tail =>
    have hbody := group_spec body
    have htail := tail_spec tail
    refine ⟨fun l => ?_, fun l => ?_, fun l => ?_⟩
    · rw [Tail.flat, cons_append, append_assoc, optimizeIf01_arm rfl hbody htail]
      rfl
    · rw [resumeSkip, optimizeIf01_arm rfl hbody htail]
      rfl
    · rw [resumeAfter, optimizeIf01_const (c := .int 0) rfl (r := 0) rfl, if_pos rfl, htail.skip]
      rfl

end

end

/-! ## When the result is nested -/

/-- The condition is not a constant. -/
def isOpen (c : Expr) : Bool :=
  match intNode c with
  | .ok none => true
  | .ok (some _) | .error _ => false

def armFoldable (c : Expr) (body opened skipped after : Bool) : Bool :=
  match intNode c with
  | .error _ => false
  | .ok none => body && opened
  | .ok (some r) => if r = 0 then skipped else body && after

mutual

/-- No condition makes `int_node` fail, and no section that is kept open has a constant behind
its first arm; what is dropped may have any form. -/
def foldable : BlockGroup → Bool
  | .nil => true
  | .plain _ rest => foldable rest
  | .sect _ c body tail rest =>
    armFoldable c (foldable body) (openFoldable tail) (skipFoldable tail) (afterFoldable tail) &&
      foldable rest

def openFoldable : BlockTail → Bool
  | .endif _ => true
  | .els _ body _ => foldable body
  | .elif _ c body tail => isOpen c && (foldable body && openFoldable tail)

def skipFoldable : BlockTail → Bool
  | .endif _ => true
  | .els _ body _ => foldable body
  | .elif _ c body tail =>
    armFoldable c (foldable body) (openFoldable tail) (skipFoldable tail) (afterFoldable tail)

def afterFoldable : BlockTail → Bool
  | .endif _ | .els _ _ _ => true
  | .elif _ _ _ tail => skipFoldable tail

end

def armFold (t : List Token) (c : Expr) (body : BlockGroup) (opened : BlockTail)
    (skipped after : BlockGroup) : BlockGroup :=
  match intNode c with
  | .error _ => .nil
  | .ok none => .sect t c body opened .nil
  | .ok (some r) => if r = 0 then skipped else body.append after

mutual

/-- What `out` makes of a foldable group, as a group. -/
def fold : BlockGroup → BlockGroup
  | .nil => .nil
  | .plain a rest => .plain a (fold rest)
  | .sect t c body tail rest =>
    (armFold t c (fold body) (foldOpen tail) (foldSkip tail) (foldAfter tail)).append (fold rest)

def foldOpen : BlockTail → BlockTail
  | .endif t => .endif t
  | .els t body t' => .els t (fold body) t'
  | .elif t c body tail => .elif t c (fold body) (foldOpen tail)

def foldSkip : BlockTail → BlockGroup
  | .endif _ => .nil
  | .els _ body _ => fold body
  | .elif t c body tail => armFold t c (fold body) (foldOpen tail) (foldSkip tail) (foldAfter tail)

def foldAfter : BlockTail → BlockGroup
  | .endif _ | .els _ _ _ => .nil
  | .elif _ _ _ tail => foldSkip tail

end

theorem andThen_ok (a b : List Block) : andThen (.ok a) (.ok b) = .ok (a ++ b) := rfl

structure TailFolds (tail : BlockTail) : Prop where
  opened : openFoldable tail = true → outOpen tail = .ok (foldOpen tail).flat
  skip : skipFoldable tail = true → outSkip tail = .ok (foldSkip tail).flat
  after : afterFoldable tail = true → outAfter tail = .ok (foldAfter tail).flat

variable {c : Expr} {body : BlockGroup} {t : List Token} {tail : BlockTail} {l : List Block}

theorem isOpen_iff : isOpen c = true ↔ intNode c = .ok none := by
  unfold isOpen
  split
  · next hc => simp [hc]
  · next hc => simp [hc]
  · next hc => simp [hc]

theorem arm_of_isOpen {b : Block} {body opened skipped after : Except Error (List Block)}
    (hc : isOpen c = true) :
    arm b c body opened skipped after = andThen (.ok [b]) (andThen body opened) := by
  unfold arm
  rw [isOpen_iff.1 hc]
  rfl

theorem armFoldable_cases {body opened skipped after : Bool}
    (h : armFoldable c body opened skipped after = true) :
    (intNode c = .ok none ∧ body = true ∧ opened = true) ∨
      (intNode c = .ok (some 0) ∧ skipped = true) ∨
      ∃ r, intNode c = .ok (some r) ∧ r ≠ 0 ∧ body = true ∧ after = true := by
  unfold armFoldable at h
  cases hc : intNode c with
  | error x =>
    rw [hc] at h
    cases h
  | ok li =>
    rw [hc] at h
    cases li with
    | none => exact .inl ⟨rfl, Bool.and_eq_true_iff.1 h⟩
    | some r =>
      dsimp only at h
      split at h
      · next hr => exact .inr (.inl ⟨by rw [hr], h⟩)
      · next hr => exact .inr (.inr ⟨r, rfl, hr, Bool.and_eq_true_iff.1 h⟩)

theorem arm_of_foldable (hbody : foldable body = true → out body = .ok (fold body).flat)
    (htail : TailFolds tail)
    (h : armFoldable c (foldable body) (openFoldable tail) (skipFoldable tail)
      (afterFoldable tail) = true) :
    arm (.ifLine t c) c (out body) (outOpen tail) (outSkip tail) (outAfter tail) =
      .ok (armFold t c (fold body) (foldOpen tail) (foldSkip tail) (foldAfter tail)).flat := by
  unfold arm armFold
  rcases armFoldable_cases h with ⟨hc, h1, h2⟩ | ⟨hc, h1⟩ | ⟨r, hc, hr, h1, h2⟩
  · rw [hc]
    simp only [bind, Except.bind, hbody h1, htail.opened h2, andThen_ok, Group.flat]
    simp
  · rw [hc]
    exact htail.skip h1
  · rw [hc]
    simp only [bind, Except.bind]
    rw [if_neg hr, if_neg hr, hbody h1, htail.after h2, andThen_ok, flat_append]

mutual

theorem out_of_foldable (g : BlockGroup) (h : foldable g = true) : out g = .ok (fold g).flat := by
  cases g with
  | nil => rfl
  | plain a rest =>
    rw [out, out_of_foldable rest h, andThen_ok]
    rfl
  | sect t c body tail rest =>
    obtain ⟨h1, h2⟩ := Bool.and_eq_true_iff.1 h
    rw [out, out_of_foldable rest h2,
      arm_of_foldable (fun hb => out_of_foldable body hb) (tail_of_foldable tail) h1, andThen_ok,
      fold, flat_append]

theorem tail_of_foldable (tail : BlockTail) : TailFolds tail := by
  cases tail with
  | endif t => exact ⟨fun _ => rfl, fun _ => rfl, fun _ => rfl⟩
  | els t body t' =>
    refine ⟨fun h => ?_, fun h => ?_, fun _ => rfl⟩
    · rw [outOpen, out_of_foldable body h, andThen_ok, andThen_ok]
      rfl
    · exact out_of_foldable body h
  | elif t c body tail =>
    have htail := tail_of_foldable tail
    refine ⟨fun h => ?_, fun h => ?_, fun h => ?_⟩
    · obtain ⟨hc, h⟩ := Bool.and_eq_true_iff.1 h
      obtain ⟨h1, h2⟩ := Bool.and_eq_true_iff.1 h
      rw [outOpen, arm_of_isOpen hc, out_of_foldable body h1, htail.opened h2, andThen_ok,
        andThen_ok]
      rfl
    · exact arm_of_foldable (fun hb => out_of_foldable body hb) htail h
    · exact htail.skip h

end

theorem andThen_eq_ok {x y : Except Error (List Block)} (h : andThen x y = .ok l) :
    ∃ a b, x = .ok a ∧ y = .ok b ∧ l = a ++ b := by
  obtain ⟨a, ha, h⟩ := bind_ok h
  obtain ⟨b, hb, h⟩ := bind_ok h
  cases h
  exact ⟨a, b, ha, hb, rfl⟩

/-- Every result has at least as many `#if` as `#endif`, and as many only if it is foldable. -/
def GroupCounts (g : BlockGroup) : Prop :=
  ∀ l, out g = .ok l → 0 ≤ excess l ∧ (excess l = 0 → foldable g = true)

structure TailCounts (tail : BlockTail) : Prop where
  opened : ∀ l, outOpen tail = .ok l → -1 ≤ excess l ∧ (excess l = -1 → openFoldable tail = true)
  skip : ∀ l, outSkip tail = .ok l → 0 ≤ excess l ∧ (excess l = 0 → skipFoldable tail = true)
  after : ∀ l, outAfter tail = .ok l → 0 ≤ excess l ∧ (excess l = 0 → afterFoldable tail = true)

/-- A list that `x` gives has at least `k` more `#if` than `#endif`, and just `k` only if `f`. -/
def Counts (x : Except Error (List Block)) (k : Int) (f : Bool) : Prop :=
  ∀ l, x = .ok l → k ≤ excess l ∧ (excess l = k → f = true)

namespace Counts
variable {x y : Except Error (List Block)} {k m : Int} {f g : Bool}

theorem ok (a : List Block) : Counts (.ok a) (excess a) true := by
  intro l h
  cases h
  exact ⟨Int.le_refl _, fun _ => rfl⟩

theorem error (e : Error) : Counts (.error e) k f := fun l h => by cases h

theorem andThen (hx : Counts x k f) (hy : Counts y m g) :
    Counts (andThen x y) (k + m) (f && g) := by
  intro l h
  obtain ⟨a, b, ha, hb, rfl⟩ := andThen_eq_ok h
  obtain ⟨ha0, haf⟩ := hx a ha
  obtain ⟨hb0, hbf⟩ := hy b hb
  rw [excess_append]
  refine ⟨by omega, fun he => ?_⟩
  rw [haf (by omega), hbf (by omega)]
  rfl

theorem above (h : Counts x k f) (hm : m < k) : Counts x m g := by
  intro l hl
  have hk := (h l hl).1
  exact ⟨by omega, fun he => by omega⟩

end Counts

theorem arm_counts (hbody : GroupCounts body) (htail : TailCounts tail) :
    Counts (arm (.ifLine t c) c (out body) (outOpen tail) (outSkip tail) (outAfter tail)) 0
      (armFoldable c (foldable body) (openFoldable tail) (skipFoldable tail)
        (afterFoldable tail)) := by
  unfold arm armFoldable
  cases intNode c with
  | error x => exact .error x
  | ok li =>
    cases li with
    | none => exact (Counts.ok [.ifLine t c]).andThen (Counts.andThen hbody htail.opened)
    | some r =>
      simp only [bind, Except.bind]
      split
      · exact htail.skip
      · exact Counts.andThen hbody htail.after

mutual

theorem group_counts (g : BlockGroup) : GroupCounts g := by
  cases g with
  | nil => exact Counts.ok []
  | plain a rest => exact (Counts.ok [.plain a]).andThen (group_counts rest)
  | sect t c body tail rest =>
    exact (arm_counts (group_counts body) (tail_counts tail)).andThen (group_counts rest)

theorem tail_counts (tail : BlockTail) : TailCounts tail := by
  cases tail with
  | endif t => exact ⟨Counts.ok [.endifLine t], Counts.ok [], Counts.ok []⟩
  | els t body t' =>
    have hbody := group_counts body
    refine ⟨?_, hbody, Counts.ok []⟩
    have h := (Counts.ok [.elseLine t]).andThen (Counts.andThen hbody (.ok [.endifLine t']))
    rw [Bool.and_true] at h
    exact h
  | elif t c body tail =>
    have hbody := group_counts body
    have htail := tail_counts tail
    refine ⟨?_, arm_counts hbody htail, htail.skip⟩
    show Counts (arm (.elifLine t c) c (out body) (outOpen tail) (outSkip tail) (outAfter tail)) (-1)
      (isOpen c && (foldable body && openFoldable tail))
    unfold arm isOpen
    cases intNode c with
    | error x => exact .error x
    | ok li =>
      cases li with
      | none => exact (Counts.ok [.elifLine t c]).andThen (Counts.andThen hbody htail.opened)
      | some r =>
        -- a constant has dropped the `#endif` of the section
        simp only [bind, Except.bind]
        split
        · exact Counts.above htail.skip (by decide)
        · exact (Counts.andThen hbody htail.after).above (by decide)

end

/-- The loop gives a nested list for the foldable groups and for no others. -/
theorem nested_optimizeIf01_iff (g : BlockGroup) :
    (∃ l, optimizeIf01 g.flat = .ok l ∧ nested l = true) ↔ foldable g = true := by
  rw [(group_spec g).alone]
  constructor
  · rintro ⟨l, hl, hn⟩
    exact (group_counts g l hl).2 (excess_of_nested hn)
  · intro h
    exact ⟨_, out_of_foldable g h, nested_iff.2 ⟨fold g, rfl⟩⟩

/-! ## When the result keeps the same blocks -/

/-- An arm under the truth `b` of its condition: if it is processed and its condition is a
constant, `after` has to hold too. -/
def armQuiet (c : Expr) (body skipped after : Prop) : Option Bool → Prop
  | none => True
  | some false => skipped
  | some true => body ∧ (isOpen c = false → after)

mutual

/-- Behind every constant true arm that is processed, the arms after the next `#elif` keep
nothing. -/
def quiet (truth : Expr → Option Bool) : BlockGroup → Prop
  | .nil => True
  | .plain _ rest => quiet truth rest
  | .sect _ c body tail rest =>
    armQuiet c (quiet truth body) (quietTail truth tail) (quietAfter truth tail) (truth c) ∧
      quiet truth rest

def quietTail (truth : Expr → Option Bool) : BlockTail → Prop
  | .endif _ => True
  | .els _ body _ => quiet truth body
  | .elif _ c body tail =>
    armQuiet c (quiet truth body) (quietTail truth tail) (quietAfter truth tail) (truth c)

def quietAfter (truth : Expr → Option Bool) : BlockTail → Prop
  | .endif _ | .els _ _ _ => True
  | .elif _ _ _ tail => tail.keep truth = some [] ∧ quietTail truth tail

end

/-- `k'` keeps at least what `k` keeps, and exactly that if `q` holds and only then. -/
structure Extends (k k' : Option (List Plain)) (q : Prop) : Prop where
  sublist : ∀ l', k' = some l' → ∃ l, k = some l ∧ l.Sublist l'
  same : ∀ l, k = some l → (k' = some l ↔ q)

def concat (k₁ k₂ : Option (List Plain)) : Option (List Plain) :=
  k₁.bind fun a => k₂.map (a ++ ·)

theorem concat_eq_some {k₁ k₂ : Option (List Plain)} {l : List Plain} :
    concat k₁ k₂ = some l ↔ ∃ a b, k₁ = some a ∧ k₂ = some b ∧ a ++ b = l := by
  simp [concat, Option.bind_eq_some_iff]

theorem Extends.concat {k₁ k₁' k₂ k₂' : Option (List Plain)} {q₁ q₂ : Prop}
    (h₁ : Extends k₁ k₁' q₁) (h₂ : Extends k₂ k₂' q₂) :
    Extends (concat k₁ k₂) (concat k₁' k₂') (q₁ ∧ q₂) := by
  constructor
  · intro l' hl'
    obtain ⟨a', b', ha', hb', rfl⟩ := concat_eq_some.1 hl'
    obtain ⟨a, ha, hsa⟩ := h₁.sublist a' ha'
    obtain ⟨b, hb, hsb⟩ := h₂.sublist b' hb'
    exact ⟨a ++ b, concat_eq_some.2 ⟨a, b, ha, hb, rfl⟩, hsa.append hsb⟩
  · intro l hl
    obtain ⟨a, b, ha, hb, rfl⟩ := concat_eq_some.1 hl
    constructor
    · intro hl'
      obtain ⟨a', b', ha', hb', heq⟩ := concat_eq_some.1 hl'
      -- two sublists whose lengths add up to the whole are the whole
      obtain ⟨a₀, ha₀, hsa⟩ := h₁.sublist a' ha'
      obtain ⟨b₀, hb₀, hsb⟩ := h₂.sublist b' hb'
      cases ha.symm.trans ha₀
      cases hb.symm.trans hb₀
      have hla := hsa.length_le
      have hlb := hsb.length_le
      have hlen := congrArg List.length heq
      simp only [length_append] at hlen
      cases hsa.eq_of_length (by omega)
      cases hsb.eq_of_length (by omega)
      exact ⟨(h₁.same a ha).1 ha', (h₂.same b hb).1 hb'⟩
    · rintro ⟨hq₁, hq₂⟩
      exact concat_eq_some.2 ⟨a, b, (h₁.same a ha).2 hq₁, (h₂.same b hb).2 hq₂, rfl⟩

structure TailExtends (truth : Expr → Option Bool) (tail : BlockTail) : Prop where
  opened : openFoldable tail = true →
    Extends (tail.keep truth) ((foldOpen tail).keep truth) (quietTail truth tail)
  skip : skipFoldable tail = true →
    Extends (tail.keep truth) ((foldSkip tail).keep truth) (quietTail truth tail)
  after : afterFoldable tail = true →
    Extends (some []) ((foldAfter tail).keep truth) (quietAfter truth tail)

theorem Extends.refl (l : List Plain) : Extends (some l) (some l) True :=
  ⟨fun l' h => ⟨l', h, .refl l'⟩, fun _ hl => iff_of_true hl trivial⟩

/-- Compared with nothing: the result is empty only if what it extends is, and nothing is added. -/
theorem Extends.silent {k k' : Option (List Plain)} {q : Prop} (h : Extends k k' q) :
    Extends (some []) k' (k = some [] ∧ q) := by
  refine ⟨fun l' _ => ⟨[], rfl, nil_sublist l'⟩, ?_⟩
  intro l hl
  cases hl
  constructor
  · intro hk'
    obtain ⟨l, hk, hsub⟩ := h.sublist [] hk'
    cases sublist_nil.1 hsub
    exact ⟨hk, (h.same [] hk).1 hk'⟩
  · rintro ⟨hk, hq⟩
    exact (h.same [] hk).2 hq

/-- What an arm and the arms behind it keep if no group before was processed. -/
def armKeep (truth : Expr → Option Bool) (c : Expr) (body : BlockGroup) (tail : BlockTail) :
    Option (List Plain) :=
  (truth c).bind fun b => if b then body.keep truth else tail.keep truth

theorem arm_extends {env : Env} (hbody : foldable body = true →
      Extends (body.keep (Expr.truth env)) ((fold body).keep (Expr.truth env))
        (quiet (Expr.truth env) body)) (htail : TailExtends (Expr.truth env) tail)
    (h : armFoldable c (foldable body) (openFoldable tail) (skipFoldable tail)
      (afterFoldable tail) = true) :
    Extends (armKeep (Expr.truth env) c body tail)
      ((armFold t c (fold body) (foldOpen tail) (foldSkip tail) (foldAfter tail)).keep
        (Expr.truth env))
      (armQuiet c (quiet (Expr.truth env) body) (quietTail (Expr.truth env) tail)
        (quietAfter (Expr.truth env) tail) (Expr.truth env c)) := by
  unfold armKeep armFold
  rcases armFoldable_cases h with ⟨hc, h1, h2⟩ | ⟨hc, h1⟩ | ⟨r, hc, hr, h1, h2⟩
  · rw [hc]
    have hopen : isOpen c = true := isOpen_iff.2 hc
    simp only [Group.keep]
    cases hT : Expr.truth env c with
    | none => exact ⟨fun _ hl' => (by cases hl'), fun _ hl => (by cases hl)⟩
    | some b =>
      cases b with
      | false => simpa [armQuiet] using htail.opened h2
      | true => simpa [armQuiet, hopen] using hbody h1
  · rw [hc]
    cases intNode_some hc
    simpa [Expr.truth, armQuiet] using htail.skip h1
  · rw [hc]
    have hopen : isOpen c = false := by simp [isOpen, hc]
    cases intNode_some hc
    have hcat := (hbody h1).concat (htail.after h2)
    simp only
    rw [if_neg hr, keep_append]
    simpa [hr, Expr.truth, armQuiet, hopen, concat] using hcat

mutual

theorem group_extends (env : Env) (g : BlockGroup) (h : foldable g = true) :
    Extends (g.keep (Expr.truth env)) ((fold g).keep (Expr.truth env))
      (quiet (Expr.truth env) g) := by
  cases g with
  | nil => exact .refl []
  | plain a rest =>
    have hrest := (Extends.refl [a]).concat (group_extends env rest h)
    simpa [concat, Group.keep, fold, quiet] using hrest
  | sect t c body tail rest =>
    obtain ⟨h1, h2⟩ := Bool.and_eq_true_iff.1 h
    have harm := arm_extends (t := t) (fun hb => group_extends env body hb)
      (tail_extends env tail) h1
    have hcat := harm.concat (group_extends env rest h2)
    rw [fold, keep_append, Group.keep, ← Option.bind_assoc]
    exact hcat

theorem tail_extends (env : Env) (tail : BlockTail) : TailExtends (Expr.truth env) tail := by
  cases tail with
  | endif t => exact ⟨fun _ => .refl [], fun _ => .refl [], fun _ => .refl []⟩
  | els t body t' =>
    refine ⟨fun h => ?_, fun h => ?_, fun _ => .refl []⟩
    · exact group_extends env body h
    · exact group_extends env body h
  | elif t c body tail =>
    have htail := tail_extends env tail
    refine ⟨fun h => ?_, fun h => ?_, fun h => ?_⟩
    · obtain ⟨hc, h⟩ := Bool.and_eq_true_iff.1 h
      obtain ⟨h1, h2⟩ := Bool.and_eq_true_iff.1 h
      have harm := arm_extends (t := t) (c := c) (fun hb => group_extends env body hb) htail
        (by rw [armFoldable, isOpen_iff.1 hc, h1, h2]; rfl)
      rw [armFold, isOpen_iff.1 hc] at harm
      simpa [Group.keep, foldOpen, Tail.keep, armKeep, quietTail] using harm
    · exact arm_extends (fun hb => group_extends env body hb) htail h
    · exact (htail.skip h).silent

end

/-! ## Both passes -/

section
variable {macros : String → Option String} {blocks blocks' : List Block}

theorem map_eq_ok {α β : Type} {x : Except Error α} {f : α → β} {b : β}
    (h : x.map f = .ok b) : ∃ a, x = .ok a ∧ f a = b := by
  cases x with
  | error e => cases h
  | ok a => exact ⟨a, rfl, Except.ok.inj h⟩

theorem optimizeMacros_changed (h : optimizeMacros macros blocks = .ok blocks') :
    List.Forall₂ (Line.Changed fun c c' => optimizeNode macros c = .ok c') blocks blocks' := by
  induction blocks generalizing blocks' with
  | nil =>
    cases h
    exact .nil
  | cons b blocks ih =>
    obtain ⟨b', hb, h⟩ := bind_ok h
    obtain ⟨r, hr, h⟩ := bind_ok h
    cases h
    refine .cons ?_ (ih hr)
    cases b with
    | plain | elseLine | endifLine =>
      cases hb
      constructor
    | ifLine t e =>
      obtain ⟨e', he, rfl⟩ := map_eq_ok hb
      exact .ifLine t he
    | elifLine t e =>
      obtain ⟨e', he, rfl⟩ := map_eq_ok hb
      exact .elifLine t he

theorem keep_optimizeMacros {env : Env} (hag : Agrees macros env) {g : BlockGroup}
    (h : optimizeMacros macros blocks = .ok g.flat) {kept : List Plain}
    (hk : keep (Expr.truth env) blocks = some kept) : g.keep (Expr.truth env) = some kept := by
  rw [← keep_flat]
  exact keepFrom_changed (optimizeMacros_changed h)
    (fun _ _ hc _ hb => optimizeNode_truth hag hc hb) [] hk

/-- The optimised list is there, it is nested, and under every environment that agrees with the
map it keeps what the given list keeps (whose conditions may have no value). -/
def Preserves (macros : String → Option String) (blocks : List Block) : Prop :=
  ∃ res, optimizeAll macros blocks = .ok res ∧ nested res = true ∧
    ∀ env, Agrees macros env → ∀ kept, keep (Expr.truth env) blocks = some kept →
      keep (Expr.truth env) res = some kept

/-- With the conditions folded, the list is a foldable group, quiet under every environment that
agrees with the map. -/
def Sound (macros : String → Option String) (blocks : List Block) : Prop :=
  ∃ g, optimizeMacros macros blocks = .ok g.flat ∧ foldable g = true ∧
    ∀ env, Agrees macros env → ∀ kept, keep (Expr.truth env) blocks = some kept →
      quiet (Expr.truth env) g

theorem optimizeAll_preserves_iff (macros : String → Option String) (blocks : List Block)
    (hn : nested blocks = true) : Preserves macros blocks ↔ Sound macros blocks := by
  constructor
  · rintro ⟨res, hres, hnest, hkeep⟩
    obtain ⟨blocks', hm, hres⟩ := bind_ok hres
    have hn' : nested blocks' = true := by
      rw [nested, nestedFrom_changed (optimizeMacros_changed hm)]
      exact hn
    obtain ⟨g, rfl⟩ := nested_iff.1 hn'
    have hf := (nested_optimizeIf01_iff g).1 ⟨res, hres, hnest⟩
    rw [(group_spec g).alone, out_of_foldable g hf] at hres
    cases hres
    refine ⟨g, hm, hf, ?_⟩
    intro env hag kept hk
    refine ((group_extends env g hf).same kept (keep_optimizeMacros hag hm hk)).1 ?_
    rw [← keep_flat]
    exact hkeep env hag kept hk
  · rintro ⟨g, hm, hf, hquiet⟩
    have hout : optimizeIf01 g.flat = .ok (fold g).flat := by
      rw [(group_spec g).alone, out_of_foldable g hf]
    refine ⟨(fold g).flat, ?_, nested_iff.2 ⟨fold g, rfl⟩, ?_⟩
    · rw [optimizeAll, hm]
      exact hout
    · intro env hag kept hk
      rw [keep_flat]
      exact ((group_extends env g hf).same kept (keep_optimizeMacros hag hm hk)).2
        (hquiet env hag kept hk)

end

def identText (name : String) : Plain := .text [⟨.ident, name, 1, 0⟩]

def noMacros : Env := ⟨fun _ => none, fun _ _ => none, fun _ => none⟩

/-- A constant behind an open arm loses the `#endif`, and a constant true arm in front of an
`#elif` lets the `#else` through. -/
theorem optimizeAll_breaks_sections :
    (∃ blocks res : List Block,
      blocks = [.ifLine [] (.defined "A"), .plain (identText "a"), .elifLine [] (.int 0),
        .plain (identText "b"), .endifLine []] ∧
      nested blocks = true ∧ optimizeAll (fun _ => none) blocks = .ok res ∧
      res = [.ifLine [] (.defined "A"), .plain (identText "a")] ∧ nested res = false) ∧
    ∃ blocks res : List Block,
      blocks = [.ifLine [] (.int 1), .plain (identText "a"), .elifLine [] (.defined "B"),
        .plain (identText "b"), .elseLine [], .plain (identText "c"), .endifLine []] ∧
      nested blocks = true ∧ optimizeAll (fun _ => none) blocks = .ok res ∧
      keep (Expr.truth noMacros) blocks = some [identText "a"] ∧
      keep (Expr.truth noMacros) res = some [identText "a", identText "c"] := by
  refine ⟨⟨_, _, rfl, ?_, ?_, rfl, ?_⟩, ⟨_, [.plain (identText "a"), .plain (identText "c")], rfl,
    ?_, ?_, ?_, ?_⟩⟩ <;> decide +kernel

/-- `__KERNEL__` is known to be undefined; the rest of the section stays. -/
theorem optimizeAll_preserves_kernel :
    Preserves (fun name => if name = "__KERNEL__" then some kCppUndefinedMacro else none)
      [.ifLine [] (.defined "__KERNEL__"), .plain (identText "a"), .elifLine [] (.defined "B"),
       .plain (identText "b"), .elseLine [], .plain (identText "c"), .endifLine []] := by
  refine (optimizeAll_preserves_iff _ _ (by decide +kernel)).2
    ⟨.sect [] (.int 0) (.plain (identText "a") .nil)
      (.elif [] (.defined "B") (.plain (identText "b") .nil)
        (.els [] (.plain (identText "c") .nil) [])) .nil, ?_, ?_, ?_⟩
  · decide +kernel
  · decide +kernel
  · intro env _ kept _
    refine ⟨?_, trivial⟩
    show armQuiet (.defined "B") True True True _
    cases Expr.truth env (.defined "B") with
    | none => trivial
    | some b =>
      cases b with
      | false => trivial
      | true => exact ⟨trivial, fun _ => trivial⟩

end Cpp
