import Mathlib.Algebra.Group.Int.Defs
import Mathlib.Data.List.Basic

/-!
# Conditional inclusion

Lines of a preprocessor file: plain lines and the lines `#if`, `#elif`, `#else`, `#endif`
of nested sections.  A line has a payload of type `α` or `τ`, a condition is a `γ`.

`keep truth` reads a file line by line with a stack of open sections and keeps the plain
lines of the groups that are processed; a condition is evaluated only where it decides, and
an evaluation may fail.  `nested` is the same walk without the conditions.  `Group` is the
grammar of nested files.

    nested l ↔ ∃ g, g.flat = l  (nested_iff)
    keep truth g.flat = g.keep truth  (keep_flat)
    nested l → excess l = 0  (excess_of_nested)
-/

namespace Conditional

open List Option

variable {α τ γ : Type}

/-! ## Lines -/

inductive Line (α τ γ : Type)
  | plain (a : α)
  | ifLine (t : τ) (c : γ)
  | elifLine (t : τ) (c : γ)
  | elseLine (t : τ)
  | endifLine (t : τ)
  deriving DecidableEq, Repr

/-- An open section: `on` if the current group is processed, `done` if no later group can be,
`last` behind its `#else`. -/
structure Frame where
  on : Bool
  done : Bool
  last : Bool

def processed : List Frame → Bool
  | [] => true
  | f :: _ => f.on

/-- What the lines keep when the sections of the stack are open; `none` if the lines are not
nested or an evaluation fails. -/
def keepFrom (truth : γ → Option Bool) : List Frame → List (Line α τ γ) → Option (List α)
  | [], [] => some []
  | _ :: _, [] => none
  | fs, .plain a :: l =>
    if processed fs then (keepFrom truth fs l).map (a :: ·) else keepFrom truth fs l
  | fs, .ifLine _ c :: l =>
    if processed fs then (truth c).bind fun b => keepFrom truth (⟨b, b, false⟩ :: fs) l
    else keepFrom truth (⟨false, true, false⟩ :: fs) l
  | f :: fs, .elifLine _ c :: l =>
    if f.last then none
    else if f.done then keepFrom truth (⟨false, true, false⟩ :: fs) l
    else (truth c).bind fun b => keepFrom truth (⟨b, b, false⟩ :: fs) l
  | f :: fs, .elseLine _ :: l =>
    if f.last then none else keepFrom truth (⟨!f.done, true, true⟩ :: fs) l
  | _ :: fs, .endifLine _ :: l => keepFrom truth fs l
  | [], .elifLine _ _ :: _ | [], .elseLine _ :: _ | [], .endifLine _ :: _ => none

def keep (truth : γ → Option Bool) (l : List (Line α τ γ)) : Option (List α) := keepFrom truth [] l

theorem keepFrom_map_plain (truth : γ → Option Bool) (fs : List Frame) (as : List α)
    (l : List (Line α τ γ)) : keepFrom truth fs (as.map .plain ++ l) =
      if processed fs then (keepFrom truth fs l).map (as ++ ·) else keepFrom truth fs l := by
  induction as with
  | nil => simp
  | cons a as ih =>
    rw [map_cons, cons_append, keepFrom, ih]
    split <;> simp [Function.comp_def]

/-- The stack has for each open section whether its `#else` was seen. -/
def nestedFrom : List Bool → List (Line α τ γ) → Bool
  | [], [] => true
  | _ :: _, [] => false
  | s, .plain _ :: l => nestedFrom s l
  | s, .ifLine _ _ :: l => nestedFrom (false :: s) l
  | b :: s, .elifLine _ _ :: l => !b && nestedFrom (false :: s) l
  | b :: s, .elseLine _ :: l => !b && nestedFrom (true :: s) l
  | _ :: s, .endifLine _ :: l => nestedFrom s l
  | [], .elifLine _ _ :: _ | [], .elseLine _ :: _ | [], .endifLine _ :: _ => false

def nested (l : List (Line α τ γ)) : Bool := nestedFrom [] l

theorem nestedFrom_plain (s : List Bool) (a : α) (l : List (Line α τ γ)) :
    nestedFrom s (.plain a :: l) = nestedFrom s l := by
  cases s <;> rfl

theorem nestedFrom_ifLine (s : List Bool) (t : τ) (c : γ) (l : List (Line α τ γ)) :
    nestedFrom s (.ifLine t c :: l) = nestedFrom (false :: s) l := by
  cases s <;> rfl

/-! ## Groups -/

mutual

/-- A nested file: plain lines and whole sections. -/
inductive Group (α τ γ : Type)
  | nil
  | plain (a : α) (rest : Group α τ γ)
  | sect (t : τ) (c : γ) (body : Group α τ γ) (tail : Tail α τ γ) (rest : Group α τ γ)

/-- The lines of a section behind one of its groups. -/
inductive Tail (α τ γ : Type)
  | endif (t : τ)
  | els (t : τ) (body : Group α τ γ) (t' : τ)
  | elif (t : τ) (c : γ) (body : Group α τ γ) (tail : Tail α τ γ)

end

mutual

def Group.flat : Group α τ γ → List (Line α τ γ)
  | .nil => []
  | .plain a rest => .plain a :: rest.flat
  | .sect t c body tail rest => .ifLine t c :: (body.flat ++ (tail.flat ++ rest.flat))

def Tail.flat : Tail α τ γ → List (Line α τ γ)
  | .endif t => [.endifLine t]
  | .els t body t' => .elseLine t :: (body.flat ++ [.endifLine t'])
  | .elif t c body tail => .elifLine t c :: (body.flat ++ tail.flat)

end

mutual

def Group.keep (truth : γ → Option Bool) : Group α τ γ → Option (List α)
  | .nil => some []
  | .plain a rest => (rest.keep truth).map (a :: ·)
  | .sect _ c body tail rest =>
    (truth c).bind fun b => (if b then body.keep truth else tail.keep truth).bind fun l =>
      (rest.keep truth).map (l ++ ·)

/-- What the lines behind a group keep if no group before was processed. -/
def Tail.keep (truth : γ → Option Bool) : Tail α τ γ → Option (List α)
  | .endif _ => some []
  | .els _ body _ => body.keep truth
  | .elif _ c body tail => (truth c).bind fun b => if b then body.keep truth else tail.keep truth

end

def Group.append : Group α τ γ → Group α τ γ → Group α τ γ
  | .nil, h => h
  | .plain a rest, h => .plain a (rest.append h)
  | .sect t c body tail rest, h => .sect t c body tail (rest.append h)

@[simp] theorem flat_append (g h : Group α τ γ) : (g.append h).flat = g.flat ++ h.flat := by
  fun_induction Group.append g h with
  | case1 => rfl
  | case2 a rest h ih => simp [Group.flat, ih]
  | case3 t c body tail rest h ih => simp [Group.flat, ih]

theorem keep_append (truth : γ → Option Bool) (g h : Group α τ γ) :
    (g.append h).keep truth = (g.keep truth).bind fun l => (h.keep truth).map (l ++ ·) := by
  fun_induction Group.append g h with
  | case1 => simp [Group.keep]
  | case2 a rest h ih =>
    simp only [Group.keep, ih]
    cases rest.keep truth <;> cases h.keep truth <;> simp
  | case3 t c body tail rest h ih =>
    simp only [Group.keep, ih]
    cases truth c with
    | none => rfl
    | some b =>
      simp only [bind_some]
      generalize (if b = true then body.keep truth else tail.keep truth) = o
      cases o <;> cases rest.keep truth <;> cases h.keep truth <;> simp

/-! ## Reading a group line by line -/

mutual

theorem keepFrom_skipped (truth : γ → Option Bool) (g : Group α τ γ) (fs : List Frame)
    (l : List (Line α τ γ)) (hfs : processed fs = false) :
    keepFrom truth fs (g.flat ++ l) = keepFrom truth fs l := by
  cases g with
  | nil => rfl
  | plain a rest =>
    simp only [Group.flat, cons_append, keepFrom, hfs]
    exact keepFrom_skipped truth rest fs l hfs
  | sect t c body tail rest =>
    simp only [Group.flat, cons_append, append_assoc, keepFrom, hfs]
    rw [if_neg Bool.false_ne_true, keepFrom_skipped truth body _ _ rfl, keepFrom_tail_done,
      keepFrom_skipped truth rest fs l hfs]

theorem keepFrom_tail_done (truth : γ → Option Bool) (tail : Tail α τ γ) (on : Bool)
    (fs : List Frame) (l : List (Line α τ γ)) :
    keepFrom truth (⟨on, true, false⟩ :: fs) (tail.flat ++ l) = keepFrom truth fs l := by
  cases tail with
  | endif t => rfl
  | els t body t' =>
    simp only [Tail.flat, cons_append, append_assoc, keepFrom]
    rw [if_neg Bool.false_ne_true, keepFrom_skipped truth body _ _ rfl]
    rfl
  | elif t c body tail =>
    simp only [Tail.flat, cons_append, append_assoc, keepFrom]
    rw [if_neg Bool.false_ne_true, if_pos trivial, keepFrom_skipped truth body _ _ rfl,
      keepFrom_tail_done]

end

mutual

theorem keepFrom_group (truth : γ → Option Bool) (g : Group α τ γ) (fs : List Frame)
    (l : List (Line α τ γ)) (hfs : processed fs = true) :
    keepFrom truth fs (g.flat ++ l) =
      (g.keep truth).bind fun a => (keepFrom truth fs l).map (a ++ ·) := by
  cases g with
  | nil => simp [Group.flat, Group.keep]
  | plain a rest =>
    simp only [Group.flat, cons_append, keepFrom, hfs, Group.keep, if_true]
    rw [keepFrom_group truth rest fs l hfs]
    cases rest.keep truth <;> cases keepFrom truth fs l <;> rfl
  | sect t c body tail rest =>
    simp only [Group.flat, cons_append, append_assoc, keepFrom, hfs, Group.keep, if_true]
    cases hc : truth c with
    | none => rfl
    | some b =>
      simp only [bind_some]
      cases b with
      | true =>
        rw [keepFrom_group truth body _ _ rfl, keepFrom_tail_done, if_pos rfl,
          keepFrom_group truth rest fs l hfs]
        cases body.keep truth <;> cases rest.keep truth <;> cases keepFrom truth fs l <;> simp
      | false =>
        rw [keepFrom_skipped truth body _ _ rfl, keepFrom_tail, if_neg Bool.false_ne_true,
          keepFrom_group truth rest fs l hfs]
        cases tail.keep truth <;> cases rest.keep truth <;> cases keepFrom truth fs l <;> simp

theorem keepFrom_tail (truth : γ → Option Bool) (tail : Tail α τ γ) (fs : List Frame)
    (l : List (Line α τ γ)) :
    keepFrom truth (⟨false, false, false⟩ :: fs) (tail.flat ++ l) =
      (tail.keep truth).bind fun a => (keepFrom truth fs l).map (a ++ ·) := by
  cases tail with
  | endif t => simp [Tail.flat, Tail.keep, keepFrom]
  | els t body t' =>
    simp only [Tail.flat, cons_append, append_assoc, keepFrom, Tail.keep]
    rw [if_neg Bool.false_ne_true, keepFrom_group truth body _ _ rfl]
    rfl
  | elif t c body tail =>
    simp only [Tail.flat, cons_append, append_assoc, keepFrom, Tail.keep]
    rw [if_neg Bool.false_ne_true, if_neg Bool.false_ne_true]
    cases hc : truth c with
    | none => rfl
    | some b =>
      simp only [bind_some]
      cases b with
      | true => rw [keepFrom_group truth body _ _ rfl, keepFrom_tail_done, if_pos rfl]
      | false =>
        rw [keepFrom_skipped truth body _ _ rfl, keepFrom_tail, if_neg Bool.false_ne_true]

end

theorem keep_flat (truth : γ → Option Bool) (g : Group α τ γ) :
    keep truth g.flat = g.keep truth := by
  have h := keepFrom_group truth g [] [] rfl
  rw [append_nil] at h
  rw [keep, h]
  simp [keepFrom]

/-! ## Changing conditions -/

/-- The same line with another condition, related to the first by `R`. -/
inductive Line.Changed (R : γ → γ → Prop) : Line α τ γ → Line α τ γ → Prop
  | plain (a : α) : Changed R (.plain a) (.plain a)
  | ifLine (t : τ) {c c' : γ} : R c c' → Changed R (.ifLine t c) (.ifLine t c')
  | elifLine (t : τ) {c c' : γ} : R c c' → Changed R (.elifLine t c) (.elifLine t c')
  | elseLine (t : τ) : Changed R (.elseLine t) (.elseLine t)
  | endifLine (t : τ) : Changed R (.endifLine t) (.endifLine t)

theorem nestedFrom_changed {R : γ → γ → Prop} {l l' : List (Line α τ γ)}
    (h : List.Forall₂ (Line.Changed R) l l') (s : List Bool) : nestedFrom s l' = nestedFrom s l := by
  induction h generalizing s with
  | nil => rfl
  | cons hb _ ih => cases hb <;> cases s <;> simp only [nestedFrom, ih]

theorem ite_eq_some_of {β : Type*} {p : Prop} [Decidable p] {o₁ o₂ o₁' o₂' : Option β} {k : β}
    (hk : (if p then o₁ else o₂) = some k) (h₁ : o₁ = some k → o₁' = some k)
    (h₂ : o₂ = some k → o₂' = some k) : (if p then o₁' else o₂') = some k := by
  split at hk
  · next hp => rw [if_pos hp, h₁ hk]
  · next hp => rw [if_neg hp, h₂ hk]

theorem keepFrom_changed {R : γ → γ → Prop} {truth : γ → Option Bool} {l l' : List (Line α τ γ)}
    (h : List.Forall₂ (Line.Changed R) l l')
    (hR : ∀ c c', R c c' → ∀ b, truth c = some b → truth c' = some b)
    (fs : List Frame) {k : List α} (hk : keepFrom truth fs l = some k) :
    keepFrom truth fs l' = some k := by
  induction h generalizing fs k with
  | nil => exact hk
  | cons hb _ ih =>
    cases hb with
    | plain a =>
      simp only [keepFrom] at hk ⊢
      refine ite_eq_some_of hk (fun hk => ?_) (ih fs)
      obtain ⟨k', hk', rfl⟩ := map_eq_some_iff.1 hk
      rw [ih fs hk']
      rfl
    | ifLine t hc =>
      simp only [keepFrom] at hk ⊢
      refine ite_eq_some_of hk (fun hk => ?_) (ih _)
      obtain ⟨b, hb, hk⟩ := bind_eq_some_iff.1 hk
      rw [hR _ _ hc b hb]
      exact ih _ hk
    | elifLine t hc =>
      cases fs with
      | nil => cases hk
      | cons f fs =>
        refine ite_eq_some_of hk nofun fun hk => ?_
        refine ite_eq_some_of hk (ih _) fun hk => ?_
        obtain ⟨b, hb, hk⟩ := bind_eq_some_iff.1 hk
        rw [hR _ _ hc b hb]
        exact ih _ hk
    | elseLine t =>
      cases fs with
      | nil => cases hk
      | cons f fs => exact ite_eq_some_of hk nofun (ih _)
    | endifLine t =>
      cases fs with
      | nil => cases hk
      | cons f fs => exact ih _ hk

/-! ## Nested lines are groups -/

mutual

theorem nestedFrom_group (g : Group α τ γ) (s : List Bool) (l : List (Line α τ γ)) :
    nestedFrom s (g.flat ++ l) = nestedFrom s l := by
  cases g with
  | nil => rfl
  | plain a rest =>
    simp only [Group.flat, cons_append, nestedFrom]
    exact nestedFrom_group rest s l
  | sect t c body tail rest =>
    simp only [Group.flat, cons_append, append_assoc, nestedFrom]
    rw [nestedFrom_group body, nestedFrom_tail tail, nestedFrom_group rest]

theorem nestedFrom_tail (tail : Tail α τ γ) (s : List Bool) (l : List (Line α τ γ)) :
    nestedFrom (false :: s) (tail.flat ++ l) = nestedFrom s l := by
  cases tail with
  | endif t => rfl
  | els t body t' =>
    simp only [Tail.flat, cons_append, append_assoc, nestedFrom, Bool.not_false, Bool.true_and]
    rw [nestedFrom_group body]
    rfl
  | elif t c body tail =>
    simp only [Tail.flat, cons_append, append_assoc, nestedFrom, Bool.not_false, Bool.true_and]
    rw [nestedFrom_group body, nestedFrom_tail tail]

end

/-- What follows the group at the front when the sections of the stack are open: each of them is
closed, and behind it comes the rest of the group around it. -/
def Closes : List Bool → List (Line α τ γ) → Prop
  | [], l => l = []
  | false :: s, l => ∃ (tail : Tail α τ γ) (g : Group α τ γ) (r : List (Line α τ γ)),
    l = tail.flat ++ (g.flat ++ r) ∧ Closes s r
  | true :: s, l => ∃ (t : τ) (g : Group α τ γ) (r : List (Line α τ γ)),
    l = .endifLine t :: (g.flat ++ r) ∧ Closes s r

/-- Each line is added in front of the groups and sections that the lines behind it are. -/
theorem exists_group {s : List Bool} {l : List (Line α τ γ)} (h : nestedFrom s l = true) :
    ∃ (g : Group α τ γ) (r : List (Line α τ γ)), l = g.flat ++ r ∧ Closes s r := by
  induction l generalizing s with
  | nil =>
    cases s with
    | nil => exact ⟨.nil, [], rfl, rfl⟩
    | cons b s => cases h
  | cons a l ih =>
    cases a with
    | plain a =>
      rw [nestedFrom_plain] at h
      obtain ⟨g, r, rfl, hr⟩ := ih h
      exact ⟨.plain a g, r, rfl, hr⟩
    | ifLine t c =>
      rw [nestedFrom_ifLine] at h
      obtain ⟨g, _, rfl, tail, g', r, rfl, hr⟩ := ih h
      exact ⟨.sect t c g tail g', r, by simp [Group.flat], hr⟩
    | elifLine t c =>
      rcases s with _ | ⟨_ | _, s⟩
      · cases h
      · obtain ⟨g, _, rfl, tail, g', r, rfl, hr⟩ := ih h
        exact ⟨.nil, _, rfl, .elif t c g tail, g', r, by simp [Tail.flat], hr⟩
      · cases h
    | elseLine t =>
      rcases s with _ | ⟨_ | _, s⟩
      · cases h
      · obtain ⟨g, _, rfl, t', g', r, rfl, hr⟩ := ih h
        exact ⟨.nil, _, rfl, .els t g t', g', r, by simp [Tail.flat], hr⟩
      · cases h
    | endifLine t =>
      rcases s with _ | ⟨_ | _, s⟩
      · cases h
      · obtain ⟨g, r, rfl, hr⟩ := ih h
        exact ⟨.nil, _, rfl, .endif t, g, r, rfl, hr⟩
      · obtain ⟨g, r, rfl, hr⟩ := ih h
        exact ⟨.nil, _, rfl, t, g, r, rfl, hr⟩

theorem nested_iff {l : List (Line α τ γ)} : nested l = true ↔ ∃ g : Group α τ γ, g.flat = l := by
  constructor
  · intro h
    obtain ⟨g, _, rfl, rfl⟩ := exists_group h
    exact ⟨g, (append_nil _).symm⟩
  · rintro ⟨g, rfl⟩
    have h := nestedFrom_group g [] []
    rw [append_nil] at h
    rw [nested, h]
    rfl

/-! ## Counting -/

def excess : List (Line α τ γ) → Int
  | [] => 0
  | .ifLine _ _ :: l => excess l + 1
  | .endifLine _ :: l => excess l - 1
  | .plain _ :: l | .elifLine _ _ :: l | .elseLine _ :: l => excess l

@[simp] theorem excess_append (l r : List (Line α τ γ)) :
    excess (l ++ r) = excess l + excess r := by
  induction l with
  | nil => simp [excess]
  | cons a l ih => cases a <;> simp only [cons_append, excess, ih] <;> omega

mutual

theorem excess_flat (g : Group α τ γ) : excess g.flat = 0 := by
  cases g with
  | nil => rfl
  | plain a rest => exact excess_flat rest
  | sect t c body tail rest =>
    simp only [Group.flat, excess, excess_append]
    rw [excess_flat body, excess_tail tail, excess_flat rest]
    rfl

theorem excess_tail (tail : Tail α τ γ) : excess tail.flat = -1 := by
  cases tail with
  | endif t => rfl
  | els t body t' =>
    simp only [Tail.flat, excess, excess_append]
    rw [excess_flat body]
    rfl
  | elif t c body tail =>
    simp only [Tail.flat, excess, excess_append]
    rw [excess_flat body, excess_tail tail]
    rfl

end

theorem excess_of_nested {l : List (Line α τ γ)} (h : nested l = true) : excess l = 0 := by
  obtain ⟨g, rfl⟩ := nested_iff.1 h
  exact excess_flat g

end Conditional
