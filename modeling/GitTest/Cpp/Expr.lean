import GitTest.Lib.CInt

/-!
# Conditions of `cpp.py`: expression trees and their folding

`Expr` are the tuples of `CppExpr`; `optimizeNode` folds `defined` of known macros through `!`,
`&&` and `||`, and `intNode` is the test for a constant.  `Expr.eval` is the C value of a tree
under an environment; not every tree has one.  `Expr.valueIn` is a value that every tree has, with
any meaning for names, calls and arithmetic.  Folding keeps the truth for both, by one induction
on the tree that uses the laws of `Truth` only.

    optimizeNode macros e = ok e' → Agrees macros env →
      e.truth env = some b → e'.truth env = some b  (optimizeNode_truth)
    optimizeNode macros e = ok e' → I.Agrees macros →
      (e'.valueIn I ≠ 0 ↔ e.valueIn I ≠ 0)  (optimizeNode_nonzero_iff)
-/

namespace Cpp

open CInt

/-! ## Tokens -/

inductive TokenId
  | eof
  | ln
  | space
  | defined
  | lparen
  | rparen
  | comma
  | number
  | ident
  | string
  | unary (op : UnaryOp)
  | binary (op : BinaryOp)
  | other (text : String)
  deriving DecidableEq, Repr

structure Token where
  id : TokenId
  value : String
  lineno : Nat
  colno : Nat
  deriving DecidableEq, Repr

def unaryText : UnaryOp → String
  | .not => "!"
  | .compl => "~"

def binaryText : BinaryOp → String
  | .add => "+"
  | .sub => "-"
  | .lt => "<"
  | .le => "<="
  | .ge => ">="
  | .gt => ">"
  | .land => "&&"
  | .lor => "||"
  | .mul => "*"
  | .div => "/"
  | .mod => "%"
  | .and => "&"
  | .or => "|"
  | .xor => "^"
  | .shl => "<<"
  | .shr => ">>"
  | .eq => "=="
  | .ne => "!="

/-- The string that stands for the id in the source. -/
def TokenId.text : TokenId → String
  | .eof => "\x00"
  | .ln => "\n"
  | .space => " "
  | .defined => "defined"
  | .lparen => "("
  | .rparen => ")"
  | .comma => ","
  | .number => "<number>"
  | .ident => "<ident>"
  | .string => "<string>"
  | .unary op => unaryText op
  | .binary op => binaryText op
  | .other text => text

/-! ## Trees -/

/-- What `throw` raises.  `BadExpectedToken` takes an argument that `throw` does not give. -/
inductive Thrown
  | badExpectedToken
  | cppInvalidExpression
  deriving DecidableEq, Repr

inductive Error
  /-- `int("hex", 16)`. -/
  | valueError
  /-- `CppConstantExpected` is not defined. -/
  | nameError
  | indexError
  /-- The first component of `None`. -/
  | typeError
  /-- `throw` prints the position of the token (nothing behind the last one) and the message. -/
  | thrown (exception : Thrown) (tok : Option Token) (msg : String)
  deriving DecidableEq, Repr

inductive Expr
  | int (n : Int)
  | hex (n : Int)
  | ident (name : String)
  | defined (name : String)
  | string (value : String)
  | call (name : String) (params : List (List Token))
  | unary (op : UnaryOp) (e : Expr)
  | binary (op : BinaryOp) (l r : Expr)
  deriving DecidableEq, Repr

/-- `int_node`: the second test compares the payload, not the kind, with `"hex"`. -/
def intNode : Expr → Except Error (Option Int)
  | .int n => .ok (some n)
  | .ident name | .defined name | .string name =>
    if name = "hex" then .error .valueError else .ok none
  | .hex _ | .call _ _ | .unary _ _ | .binary _ _ _ => .ok none

def kCppUndefinedMacro : String := "<<<undefined>>>"

def kernelRemoveConfigMacros : Bool := true

def optimizeNode (macros : String → Option String) : Expr → Except Error Expr
  | .defined name =>
    match macros name with
    | some v => if v = kCppUndefinedMacro then .ok (.int 0) else .ok (.int 1)
    | none =>
      if kernelRemoveConfigMacros ∧ "CONFIG_".isPrefixOf name then .ok (.int 0)
      else .ok (.defined name)
  | .unary .not e => do
    let v ← optimizeNode macros e
    match v with
    | .int n => if n = 0 then .ok (.int 1) else .ok (.int 0)
    | .hex _ | .ident _ | .defined _ | .string _ | .call _ _ | .unary _ _ | .binary _ _ _ =>
      .ok (.unary .not e)
  | .binary .land l r => do
    let l' ← optimizeNode macros l
    let r' ← optimizeNode macros r
    let li ← intNode l'
    let _ ← intNode r'
    match li with
    | some n => if n = 0 then .ok (.int 0) else .ok r'
    | none => .ok (.binary .land l r)
  | .binary .lor l r => do
    let l' ← optimizeNode macros l
    let r' ← optimizeNode macros r
    let li ← intNode l'
    let ri ← intNode r'
    match li, ri with
    | some n, _ => if n = 0 then .ok r' else .ok (.int 1)
    | none, some n => if n = 0 then .ok l' else .ok (.int 1)
    | none, none => .ok (.binary .lor l r)
  | e => .ok e

/-! ## The C value of a tree -/

structure Env where
  /-- The values of the macros that are defined. -/
  value : String → Option Value
  /-- The value of a use of a function-like macro. -/
  call : String → List (List Token) → Option Value
  character : String → Option Value

/-- The value of a constant that may be negative. -/
def signedConstant (decimal : Bool) (n : Int) : Option Value :=
  if 0 ≤ n then constant decimal false n.toNat else (constant decimal false (-n).toNat).map .neg

def Expr.eval (env : Env) : Expr → Option Value
  | .int n => signedConstant true n
  | .hex n => signedConstant false n
  | .ident name => some ((env.value name).getD (.ofBool false))
  | .defined name => some (.ofBool (env.value name).isSome)
  | .string value => env.character value
  | .call name params => env.call name params
  | .unary op e => (e.eval env).map op.apply
  | .binary op l r => op.apply (l.eval env) (r.eval env)

/-- Whether a condition holds.  A constant alone is compared with zero whatever its size. -/
def Expr.truth (env : Env) : Expr → Option Bool
  | .int n => some (n ≠ 0)
  | e => (e.eval env).map Value.truth

/-- The environment defines the macros that the map defines, and neither those that it undefines
nor other `CONFIG_` macros. -/
def Agrees (macros : String → Option String) (env : Env) : Prop :=
  ∀ name, match macros name with
    | some v => (env.value name).isSome = decide (v ≠ kCppUndefinedMacro)
    | none => "CONFIG_".isPrefixOf name = true → env.value name = none

/-! ## A value of every tree -/

/-- A meaning of names, strings, calls and of the operators that folding does not look at. -/
structure Interpretation where
  defined : String → Bool
  ident : String → Int
  string : String → Int
  call : String → List (List Token) → Int
  compl : Int → Int
  arithmetic : BinaryOp → Int → Int → Int

def Expr.valueIn (I : Interpretation) : Expr → Int
  | .int n | .hex n => n
  | .ident name => I.ident name
  | .defined name => if I.defined name then 1 else 0
  | .string value => I.string value
  | .call name params => I.call name params
  | .unary .not e => if e.valueIn I = 0 then 1 else 0
  | .unary .compl e => I.compl (e.valueIn I)
  | .binary .land l r => if l.valueIn I ≠ 0 ∧ r.valueIn I ≠ 0 then 1 else 0
  | .binary .lor l r => if l.valueIn I ≠ 0 ∨ r.valueIn I ≠ 0 then 1 else 0
  | .binary op l r => I.arithmetic op (l.valueIn I) (r.valueIn I)

def Interpretation.Agrees (macros : String → Option String) (I : Interpretation) : Prop :=
  ∀ name, match macros name with
    | some v => I.defined name = decide (v ≠ kCppUndefinedMacro)
    | none => "CONFIG_".isPrefixOf name = true → I.defined name = false

/-! ## Folding keeps the truth -/

/-- What folding relies on: how the truth of a tree, if it has one, comes from that of its parts,
and that the macros of the map are as defined as the map says. -/
structure Truth (macros : String → Option String) (truth : Expr → Option Bool) : Prop where
  int : ∀ n, truth (.int n) = some (decide (n ≠ 0))
  not : ∀ {e b}, truth (.unary .not e) = some b → truth e = some (!b)
  /-- `&&` is `d = false`, `||` is `d = true`. -/
  binary : ∀ d {l r b}, truth (.binary (if d then .lor else .land) l r) = some b →
    (truth l = some d ∧ b = d) ∨ (truth l = some (!d) ∧ truth r = some b)
  known : ∀ {name v b}, macros name = some v → truth (.defined name) = some b →
    b = decide (v ≠ kCppUndefinedMacro)
  config : ∀ {name b}, macros name = none → "CONFIG_".isPrefixOf name = true →
    truth (.defined name) = some b → b = false

theorem bind_ok {α β : Type} {x : Except Error α} {f : α → Except Error β} {b : β}
    (h : (x >>= f) = .ok b) : ∃ a, x = .ok a ∧ f a = .ok b := by
  cases x with
  | error e => cases h
  | ok a => exact ⟨a, rfl, h⟩

section
variable {macros : String → Option String} {env : Env} {e e' l r : Expr}

theorem intNode_some {n : Int} (h : intNode e = .ok (some n)) : e = .int n := by
  unfold intNode at h
  split at h
  · cases h
    rfl
  all_goals first | cases h | (split at h <;> cases h)

theorem ite_ok {c : Prop} [Decidable c] {x y z : Expr}
    (h : (if c then Except.ok x else Except.ok y : Except Error Expr) = .ok z) :
    z = if c then x else y :=
  (Except.ok.inj ((apply_ite Except.ok c x y).trans h)).symm

theorem optimizeNode_not (h : optimizeNode macros (.unary .not e) = .ok e') :
    e' = .unary .not e ∨
    ∃ n, optimizeNode macros e = .ok (.int n) ∧ e' = if n = 0 then .int 1 else .int 0 := by
  obtain ⟨v, hv, h⟩ := bind_ok h
  cases v with
  | int n => exact .inr ⟨n, hv, ite_ok h⟩
  | _ =>
    cases h
    exact .inl rfl

theorem optimizeNode_land (h : optimizeNode macros (.binary .land l r) = .ok e') :
    e' = .binary .land l r ∨
    ∃ n r', optimizeNode macros l = .ok (.int n) ∧ optimizeNode macros r = .ok r' ∧
      e' = if n = 0 then .int 0 else r' := by
  obtain ⟨l', hl, h⟩ := bind_ok h
  obtain ⟨r', hr, h⟩ := bind_ok h
  obtain ⟨li, hli, h⟩ := bind_ok h
  obtain ⟨ri, hri, hres⟩ := bind_ok h
  cases li with
  | some n =>
    cases intNode_some hli
    exact .inr ⟨n, r', hl, hr, ite_ok hres⟩
  | none =>
    cases hres
    exact .inl rfl

theorem optimizeNode_lor (h : optimizeNode macros (.binary .lor l r) = .ok e') :
    e' = .binary .lor l r ∨
    (∃ n r', optimizeNode macros l = .ok (.int n) ∧ optimizeNode macros r = .ok r' ∧
      e' = if n = 0 then r' else .int 1) ∨
    ∃ l' n, optimizeNode macros l = .ok l' ∧ optimizeNode macros r = .ok (.int n) ∧
      e' = if n = 0 then l' else .int 1 := by
  obtain ⟨l', hl, h⟩ := bind_ok h
  obtain ⟨r', hr, h⟩ := bind_ok h
  obtain ⟨li, hli, h⟩ := bind_ok h
  obtain ⟨ri, hri, hres⟩ := bind_ok h
  cases li with
  | some n =>
    cases intNode_some hli
    exact .inr (.inl ⟨n, r', hl, hr, ite_ok hres⟩)
  | none =>
    cases ri with
    | some n =>
      cases intNode_some hri
      exact .inr (.inr ⟨l', n, hl, hr, ite_ok hres⟩)
    | none =>
      cases hres
      exact .inl rfl

theorem truth_signedConstant {decimal : Bool} {n : Int} {v : Value}
    (h : signedConstant decimal n = some v) : v.truth = decide (n ≠ 0) := by
  unfold signedConstant at h
  split at h
  · rw [truth_constant h, decide_eq_decide]
    omega
  · obtain ⟨w, hw, rfl⟩ := Option.map_eq_some_iff.1 h
    have hneg : w.neg.truth = w.truth := by simp [Value.truth, Value.neg]
    rw [hneg, truth_constant hw, decide_eq_decide]
    omega

theorem truth_eq_eval (hn : ∀ n, e ≠ .int n) : e.truth env = (e.eval env).map Value.truth := by
  cases e with
  | int n => exact absurd rfl (hn n)
  | _ => rfl

theorem truth_of_eval {v : Value} (h : e.eval env = some v) : e.truth env = some v.truth := by
  by_cases hn : ∀ n, e ≠ .int n
  · rw [truth_eq_eval hn, h]
    rfl
  · simp only [not_forall, not_not] at hn
    obtain ⟨n, rfl⟩ := hn
    rw [Expr.truth, truth_signedConstant h]

theorem truth_not {b : Bool} (hb : (Expr.unary .not e).truth env = some b) :
    e.truth env = some (!b) := by
  obtain ⟨v, hv, rfl⟩ := Option.map_eq_some_iff.1 hb
  obtain ⟨w, hw, rfl⟩ := Option.map_eq_some_iff.1 hv
  rw [UnaryOp.apply, truth_ofBool, Bool.not_not]
  exact truth_of_eval hw

/-- `&&` is `d = false`, `||` is `d = true`. -/
theorem truth_binary (d : Bool) {b : Bool}
    (hb : (Expr.binary (if d then .lor else .land) l r).truth env = some b) :
    (l.truth env = some d ∧ b = d) ∨ (l.truth env = some (!d) ∧ r.truth env = some b) := by
  obtain ⟨v, hv, rfl⟩ := Option.map_eq_some_iff.1 hb
  obtain ⟨x, hx, hcase⟩ := truth_logical d hv
  rcases hcase with ⟨hxd, hvd⟩ | ⟨y, hy, hxd, hvy⟩
  · exact .inl ⟨hxd ▸ truth_of_eval hx, hvd⟩
  · exact .inr ⟨hxd ▸ truth_of_eval hx, hvy ▸ truth_of_eval hy⟩

theorem Agrees.laws (hag : Agrees macros env) : Truth macros fun e => e.truth env where
  int := fun _ => rfl
  not := truth_not
  binary := fun d _ _ _ => truth_binary d
  known := by
    intro name v b hv hb
    have hname := hag name
    rw [hv] at hname
    have hb' : (env.value name).isSome = b := by simpa [Expr.truth, Expr.eval] using hb
    exact hb'.symm.trans hname
  config := by
    intro name b hnone hc hb
    have hname := hag name
    rw [hnone] at hname
    have hb' : (env.value name).isSome = b := by simpa [Expr.truth, Expr.eval] using hb
    rw [← hb', hname hc]
    rfl

theorem Interpretation.Agrees.laws {I : Interpretation} (hag : I.Agrees macros) :
    Truth macros fun e => some (decide (e.valueIn I ≠ 0)) where
  int := fun _ => rfl
  not := by
    intro e b hb
    rw [← Option.some.inj hb, Expr.valueIn]
    by_cases he : e.valueIn I = 0 <;> simp [he]
  binary := by
    intro d l r b hb
    rw [← Option.some.inj hb]
    cases d with
    | false =>
      simp only [Bool.false_eq_true, if_false, Expr.valueIn]
      by_cases hl : l.valueIn I = 0 <;> by_cases hr : r.valueIn I = 0 <;> simp [hl, hr]
    | true =>
      simp only [if_true, Expr.valueIn]
      by_cases hl : l.valueIn I = 0 <;> by_cases hr : r.valueIn I = 0 <;> simp [hl, hr]
  known := by
    intro name v b hv hb
    have hname := hag name
    rw [hv] at hname
    rw [← hname, ← Option.some.inj hb, Expr.valueIn]
    cases I.defined name <;> rfl
  config := by
    intro name b hnone hc hb
    have hname := hag name
    rw [hnone] at hname
    rw [← Option.some.inj hb, Expr.valueIn, hname hc]
    rfl

end

section
variable {macros : String → Option String} {truth : Expr → Option Bool} {e e' l r : Expr}

theorem Truth.of_int (ht : Truth macros truth) {n : Int} {b : Bool}
    (h : truth (.int n) = some b) : b = decide (n ≠ 0) :=
  Option.some.inj (h.symm.trans (ht.int n))

theorem Truth.keeps_defined (ht : Truth macros truth) {name : String}
    (h : optimizeNode macros (.defined name) = .ok e') {b : Bool}
    (hb : truth (.defined name) = some b) : truth e' = some b := by
  unfold optimizeNode at h
  split at h
  · next v hv =>
    rw [ite_ok h, ht.known hv hb]
    by_cases hu : v = kCppUndefinedMacro <;> simp [hu, ht.int]
  · next hnone =>
    rw [ite_ok h]
    split
    · next hc =>
      rw [ht.config hnone hc.2 hb]
      exact ht.int 0
    · exact hb

/-- Folding keeps every truth that obeys the laws. -/
theorem Truth.keeps (ht : Truth macros truth) (h : optimizeNode macros e = .ok e')
    {b : Bool} (hb : truth e = some b) : truth e' = some b := by
  -- induction on the tree; a branch that returns the node itself has nothing to show
  induction e generalizing e' b with
  | int n | hex n | ident s | string s | call s p =>
    cases h
    exact hb
  | defined name => exact ht.keeps_defined h hb
  | unary op e ih =>
    cases op with
    | compl =>
      cases h
      exact hb
    | not =>
      rcases optimizeNode_not h with rfl | ⟨n, he, rfl⟩
      · exact hb
      · have hn := ht.of_int (ih he (ht.not hb))
        by_cases hz : n = 0
        · rw [if_pos hz, ht.int]
          simpa [hz] using hn.symm
        · rw [if_neg hz, ht.int]
          simpa [hz] using hn.symm
  | binary op l r ihl ihr =>
    cases op with
    | land =>
      rcases optimizeNode_land h with rfl | ⟨n, r', hl, hr, rfl⟩
      · exact hb
      · rcases ht.binary false hb with ⟨hlt, rfl⟩ | ⟨hlt, hrt⟩
        · have hz : n = 0 := by simpa using ht.of_int (ihl hl hlt)
          rw [if_pos hz]
          exact ht.int 0
        · have hz : n ≠ 0 := by simpa using ht.of_int (ihl hl hlt)
          rw [if_neg hz]
          exact ihr hr hrt
    | lor =>
      rcases optimizeNode_lor h with rfl | ⟨n, r', hl, hr, rfl⟩ | ⟨l', n, hl, hr, rfl⟩
      · exact hb
      · rcases ht.binary true hb with ⟨hlt, rfl⟩ | ⟨hlt, hrt⟩
        · have hz : n ≠ 0 := by simpa using ht.of_int (ihl hl hlt)
          rw [if_neg hz]
          exact ht.int 1
        · have hz : n = 0 := by simpa using ht.of_int (ihl hl hlt)
          rw [if_pos hz]
          exact ihr hr hrt
      · rcases ht.binary true hb with ⟨hlt, rfl⟩ | ⟨hlt, hrt⟩
        · -- the left operand decides, whatever the constant on the right is
          split
          · exact ihl hl hlt
          · exact ht.int 1
        · have hn := ht.of_int (ihr hr hrt)
          by_cases hz : n = 0
          · simpa [hn, hz] using ihl hl hlt
          · rw [if_neg hz, ht.int]
            simp [hn, hz]
    | _ =>
      cases h
      exact hb

theorem optimizeNode_truth {env : Env} (hag : Agrees macros env)
    (h : optimizeNode macros e = .ok e') {b : Bool} (hb : e.truth env = some b) :
    e'.truth env = some b := hag.laws.keeps h hb

/-- **Folding keeps the truth.**  If `optimize_node` returns, then whatever names, calls and
arithmetic mean, as long as the macros are as the map says, the result is non-zero exactly if the
tree is; and where the tree has a C value, so has the result, and the two are both zero or both
not. -/
theorem optimizeNode_nonzero_iff (h : optimizeNode macros e = .ok e') :
    (∀ I : Interpretation, I.Agrees macros → (e'.valueIn I ≠ 0 ↔ e.valueIn I ≠ 0)) ∧
    ∀ (env : Env) (b : Bool), Agrees macros env → e.truth env = some b → e'.truth env = some b := by
  constructor
  · intro I hag
    have hkeep := hag.laws.keeps h rfl
    exact decide_eq_decide.1 (Option.some.inj hkeep)
  · intro env b hag hb
    exact optimizeNode_truth hag h hb

/-- `defined(ABC) || defined(BINGO)` with BINGO undefined folds to `defined(ABC)`; here ABC is
defined. -/
theorem optimizeNode_nonzero_bingo : ∃ (macros : String → Option String) (I : Interpretation),
    macros "BINGO" = some kCppUndefinedMacro ∧ I.Agrees macros ∧
    optimizeNode macros (.binary .lor (.defined "ABC") (.defined "BINGO")) = .ok (.defined "ABC") ∧
    ((Expr.defined "ABC").valueIn I ≠ 0 ↔
      (Expr.binary .lor (.defined "ABC") (.defined "BINGO")).valueIn I ≠ 0) := by
  have hag : Interpretation.Agrees
      (fun name => if name = "BINGO" then some kCppUndefinedMacro else none)
      ⟨fun name => decide (name = "ABC"), fun _ => 0, fun _ => 0, fun _ _ => 0, fun _ => 0,
        fun _ _ _ => 0⟩ := by
    intro name
    by_cases hb : name = "BINGO"
    · subst hb
      rfl
    · simp only [hb, if_false]
      intro hc
      rw [decide_eq_false_iff_not]
      rintro rfl
      exact absurd hc (by decide)
  exact ⟨_, _, rfl, hag, rfl, (optimizeNode_nonzero_iff rfl).1 _ hag⟩

end

end Cpp
