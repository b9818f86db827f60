import GitTest.Lib.CInt

/-!
# C conditions: grammar, parser, value

The `#if` expressions of C without calls, `?:` and unary `+` and `-`: integer constants,
identifiers, `defined`, parentheses, `!`, `~` and the binary operators, which have ten levels of
precedence and group to the left.

`Tree` is a reading of a token list, parentheses included, and `Tree.Proper` says that it follows
the precedences: the left operand of an operator binds at least as tight, the right one tighter.
`parse` is an operator-precedence parser with an explicit stack.

    parse ts = some t ↔ t.Proper ∧ t.tokens = ts  (parse_iff)

So a token list has at most one reading, and `value` is its value.
-/

namespace CGrammar

open CInt List

/-! ## Tokens and trees -/

inductive Tok
  | num (text : String)
  | ident (name : String)
  | defined
  | lparen
  | rparen
  | unary (op : UnaryOp)
  | binary (op : BinaryOp)
  deriving DecidableEq, Repr

inductive Tree
  | num (text : String)
  | ident (name : String)
  | defined (parens : Bool) (name : String)
  | paren (t : Tree)
  | unary (op : UnaryOp) (t : Tree)
  | binary (op : BinaryOp) (l r : Tree)
  deriving DecidableEq, Repr

/-- The precedences of the binary operators, from `||` to `*`. -/
def prec : BinaryOp → Nat
  | .lor => 1
  | .land => 2
  | .or => 3
  | .xor => 4
  | .and => 5
  | .eq | .ne => 6
  | .lt | .le | .gt | .ge => 7
  | .shl | .shr => 8
  | .add | .sub => 9
  | .mul | .div | .mod => 10

theorem prec_le (op : BinaryOp) : prec op ≤ 10 := by
  cases op <;> decide

namespace Tree

def tokens : Tree → List Tok
  | .num text => [.num text]
  | .ident name => [.ident name]
  | .defined false name => [.defined, .ident name]
  | .defined true name => [.defined, .lparen, .ident name, .rparen]
  | .paren t => .lparen :: (t.tokens ++ [.rparen])
  | .unary op t => .unary op :: t.tokens
  | .binary op l r => l.tokens ++ .binary op :: r.tokens

/-- How tight the outermost operator binds: 11 for unary operators, 12 for a tree without one. -/
def rootPrec : Tree → Nat
  | .binary op _ _ => prec op
  | .unary _ _ => 11
  | .num _ | .ident _ | .defined _ _ | .paren _ => 12

def Proper : Tree → Prop
  | .num _ | .ident _ | .defined _ _ => True
  | .paren t => t.Proper
  | .unary _ t => 11 ≤ t.rootPrec ∧ t.Proper
  | .binary op l r => prec op ≤ l.rootPrec ∧ prec op < r.rootPrec ∧ l.Proper ∧ r.Proper

end Tree

/-! ## The parser -/

/-- What waits for an operand. -/
inductive Frame
  | paren
  | unary (op : UnaryOp)
  | left (op : BinaryOp) (l : Tree)

/-- Apply the operators on the stack that bind at least as tight as `p`. -/
def reduce (p : Nat) : List Frame → Tree → List Frame × Tree
  | .unary op :: fs, t => reduce p fs (.unary op t)
  | .left op l :: fs, t =>
    if p ≤ prec op then reduce p fs (.binary op l t) else (.left op l :: fs, t)
  | .paren :: fs, t => (.paren :: fs, t)
  | [], t => ([], t)

/-- The parser with a stack; in front of an operand (`none`) or behind one. -/
def run : List Frame → Option Tree → List Tok → Option Tree
  | fs, none, .num text :: ts => run fs (some (.num text)) ts
  | fs, none, .ident name :: ts => run fs (some (.ident name)) ts
  | fs, none, .defined :: .ident name :: ts => run fs (some (.defined false name)) ts
  | fs, none, .defined :: .lparen :: .ident name :: .rparen :: ts =>
    run fs (some (.defined true name)) ts
  | fs, none, .unary op :: ts => run (.unary op :: fs) none ts
  | fs, none, .lparen :: ts => run (.paren :: fs) none ts
  | fs, some t, .binary op :: ts =>
    run (.left op (reduce (prec op) fs t).2 :: (reduce (prec op) fs t).1) none ts
  | fs, some t, .rparen :: ts =>
    match reduce 0 fs t with
    | (.paren :: fs, t) => run fs (some (.paren t)) ts
    | (_, _) => none
  | fs, some t, [] =>
    match reduce 0 fs t with
    | ([], t) => some t
    | (_, _) => none
  | _, _, _ => none

def parse (ts : List Tok) : Option Tree := run [] none ts

/-! ## Every proper tree is read -/

/-- The top of the stack leaves an operator of precedence `p` alone. -/
def Below : List Frame → Nat → Prop
  | [], _ | .paren :: _, _ => True
  | .unary _ :: _, p => 11 ≤ p
  | .left op _ :: _, p => prec op < p

/-- The operators on the right side of a tree, as the parser stacks them. -/
def spine : Tree → List Frame
  | .unary op t => spine t ++ [.unary op]
  | .binary op l r => spine r ++ [.left op l]
  | .num _ | .ident _ | .defined _ _ | .paren _ => []

def last : Tree → Tree
  | .unary _ t => last t
  | .binary _ _ r => last r
  | .num text => .num text
  | .ident name => .ident name
  | .defined parens name => .defined parens name
  | .paren t => .paren t

variable {p : Nat} {t : Tree} {op : BinaryOp} {fs : List Frame} {ts a b : List Tok}

theorem reduce_spine (hp : p ≤ t.rootPrec) (ht : t.Proper) (fs : List Frame) :
    reduce p (spine t ++ fs) (last t) = reduce p fs t := by
  induction t generalizing p fs with
  | num text | ident name | defined parens name | paren t => rfl
  | unary op t ih =>
    obtain ⟨hr, ht⟩ := ht
    have hp : p ≤ 11 := hp
    rw [spine, last, append_assoc, ih (by omega) ht]
    rfl
  | binary op l r ihl ihr =>
    obtain ⟨-, hr, -, htr⟩ := ht
    have hp : p ≤ prec op := hp
    rw [spine, last, append_assoc, ihr (by omega) htr]
    exact if_pos hp

theorem reduce_below (h : Below fs (prec op)) (t : Tree) :
    reduce (prec op) fs t = (fs, t) := by
  have hop := prec_le op
  match fs with
  | [] => rfl
  | .paren :: fs => rfl
  | .unary op' :: fs =>
    have h : 11 ≤ prec op := h
    omega
  | .left op' l :: fs =>
    have h : prec op' < prec op := h
    exact if_neg (by omega)

theorem Below.mono {q : Nat} (h : Below fs p) (hpq : p ≤ q) : Below fs q := by
  match fs with
  | [] => trivial
  | .paren :: fs => trivial
  | .unary op :: fs => exact Nat.le_trans h hpq
  | .left op l :: fs => exact Nat.lt_of_lt_of_le h hpq

theorem run_tokens (ht : t.Proper) (fs : List Frame) (hfs : Below fs t.rootPrec) (ts : List Tok) :
    run fs none (t.tokens ++ ts) = run (spine t ++ fs) (some (last t)) ts := by
  -- induction on the tree; the stack below it is not touched before the tree is complete
  induction t generalizing fs ts with
  | num text | ident name => rfl
  | defined parens name => cases parens <;> rfl
  | paren t ih =>
    rw [Tree.tokens, cons_append, append_assoc, run, ih ht (.paren :: fs) trivial,
      singleton_append, run, reduce_spine (t := t) (Nat.zero_le _) ht]
    rfl
  | unary op t ih =>
    obtain ⟨hr, ht⟩ := ht
    rw [Tree.tokens, cons_append, run, ih ht (.unary op :: fs) hr, spine, last, append_assoc]
    rfl
  | binary op l r ihl ihr =>
    obtain ⟨hl, hr, htl, htr⟩ := ht
    rw [Tree.tokens, append_assoc, ihl htl fs (hfs.mono hl), cons_append, run,
      reduce_spine hl htl, reduce_below hfs, ihr htr (.left op l :: fs) hr, spine, last,
      append_assoc]
    rfl

theorem parse_tokens (ht : t.Proper) : parse t.tokens = some t := by
  have h := run_tokens ht [] trivial []
  rw [append_nil] at h
  rw [parse, h, run, reduce_spine (Nat.zero_le _) ht]
  rfl

/-! ## Only proper trees are read -/

/-- Every left operand on the stack fits its operator, and the operators above each other bind
tighter and tighter. -/
def StackOk : List Frame → Prop
  | [] => True
  | .paren :: fs | .unary _ :: fs => StackOk fs
  | .left op l :: fs => l.Proper ∧ prec op ≤ l.rootPrec ∧ Below fs (prec op) ∧ StackOk fs

/-- The tokens that the stack stands for, from the bottom up. -/
def stackTokens : List Frame → List Tok
  | [] => []
  | .paren :: fs => stackTokens fs ++ [.lparen]
  | .unary op :: fs => stackTokens fs ++ [.unary op]
  | .left op l :: fs => stackTokens fs ++ (l.tokens ++ [.binary op])

/-- The stack and the operand behind it are what the tokens read so far amount to. -/
structure StateOk (fs : List Frame) (t : Tree) : Prop where
  stack : StackOk fs
  proper : t.Proper
  below : Below fs t.rootPrec

theorem below_eleven (fs : List Frame) : Below fs 11 := by
  match fs with
  | [] => trivial
  | .paren :: fs => trivial
  | .unary op :: fs => exact Nat.le_refl 11
  | .left op l :: fs => exact Nat.lt_succ_of_le (prec_le op)

theorem reduce_spec (hp : p ≤ 11) (fs : List Frame) (t : Tree) (h : StateOk fs t)
    (ht : p ≤ t.rootPrec) :
    StackOk (reduce p fs t).1 ∧ (reduce p fs t).2.Proper ∧ p ≤ (reduce p fs t).2.rootPrec ∧
      Below (reduce p fs t).1 p ∧
      stackTokens (reduce p fs t).1 ++ (reduce p fs t).2.tokens = stackTokens fs ++ t.tokens := by
  fun_induction reduce p fs t with
  | case1 op fs t ih =>
    obtain ⟨hs, hpr, hb⟩ := h
    have h' := ih ⟨hs, ⟨hb, hpr⟩, below_eleven fs⟩ hp
    simpa [stackTokens, Tree.tokens] using h'
  | case2 op l fs t hle ih =>
    obtain ⟨⟨hl, hlp, hbelow, hs⟩, hpr, hb⟩ := h
    have h' := ih ⟨hs, ⟨hlp, hb, hl, hpr⟩, hbelow⟩ hle
    simpa [stackTokens, Tree.tokens] using h'
  | case3 op l fs t hlt => exact ⟨h.stack, h.proper, ht, Nat.lt_of_not_le hlt, rfl⟩
  | case4 fs t => exact ⟨h.stack, h.proper, ht, trivial, rfl⟩
  | case5 t => exact ⟨h.stack, h.proper, ht, trivial, rfl⟩

/-- What the parser has before it reads on. -/
def ParseOk (fs : List Frame) : Option Tree → Prop
  | none => StackOk fs
  | some t => StackOk fs ∧ t.Proper ∧ t.rootPrec = 12

def readTokens (fs : List Frame) : Option Tree → List Tok
  | none => stackTokens fs
  | some t => stackTokens fs ++ t.tokens

theorem ParseOk.state (h : ParseOk fs (some t)) : StateOk fs t :=
  ⟨h.1, h.2.1, (below_eleven fs).mono (by rw [h.2.2]; decide)⟩

theorem run_sound (fs : List Frame) (o : Option Tree) (ts : List Tok) (h : ParseOk fs o)
    (hrun : run fs o ts = some t) : t.Proper ∧ t.tokens = readTokens fs o ++ ts := by
  fun_induction run fs o ts with
  | case1 fs text ts ih | case2 fs name ts ih | case3 fs name ts ih | case4 fs name ts ih =>
    have h' := ih ⟨h, trivial, rfl⟩ hrun
    simpa [readTokens, Tree.tokens] using h'
  | case5 fs op ts ih | case6 fs ts ih =>
    have h' := ih h hrun
    simpa [readTokens, stackTokens] using h'
  | case7 fs t op ts ih =>
    have hop := prec_le op
    obtain ⟨hs, hp, hle, hb, htok⟩ :=
      reduce_spec (by omega) fs t h.state (p := prec op) (by rw [h.2.2]; omega)
    have h' := ih ⟨hp, hle, hb, hs⟩ hrun
    refine ⟨h'.1, ?_⟩
    rw [h'.2]
    simp only [readTokens, stackTokens]
    rw [← append_assoc, htok]
    simp
  | case8 fs t ts fs' t' hred ih =>
    obtain ⟨hs, hp, -, -, htok⟩ := reduce_spec (by omega) fs t h.state (Nat.zero_le _)
    rw [hred] at hs hp htok
    have h' := ih ⟨hs, hp, rfl⟩ hrun
    refine ⟨h'.1, ?_⟩
    rw [h'.2]
    simp only [readTokens, stackTokens, Tree.tokens] at htok ⊢
    rw [← htok]
    simp
  | case9 | case11 | case12 => cases hrun
  | case10 fs t t' hred =>
    obtain ⟨-, hp, -, -, htok⟩ := reduce_spec (by omega) fs t h.state (Nat.zero_le _)
    rw [hred] at hp htok
    cases hrun
    refine ⟨hp, ?_⟩
    rw [append_nil]
    exact htok

theorem parse_iff : parse ts = some t ↔ t.Proper ∧ t.tokens = ts := by
  constructor
  · intro h
    exact run_sound [] none ts trivial h
  · rintro ⟨ht, rfl⟩
    exact parse_tokens ht

theorem tokens_inj {t' : Tree} (ht : t.Proper) (ht' : t'.Proper) (h : t.tokens = t'.tokens) :
    t = t' := by
  have hparse := parse_tokens ht
  rw [h, parse_tokens ht'] at hparse
  exact (Option.some.inj hparse).symm

/-! ## Operators in a row -/

/-- Two trees with an operator between them that binds no tighter than either have a reading: the
operators of the right tree that bind just as tight move to the left. -/
theorem exists_binary {l r : Tree} (hl : l.Proper) (hr : r.Proper) (hle : prec op ≤ l.rootPrec)
    (hre : prec op ≤ r.rootPrec) :
    ∃ t : Tree, t.Proper ∧ t.rootPrec = prec op ∧ t.tokens = l.tokens ++ .binary op :: r.tokens := by
  have hop := prec_le op
  induction r with
  | binary op' r₁ r₂ ih₁ ih₂ =>
    by_cases hlt : prec op < prec op'
    · exact ⟨.binary op l (.binary op' r₁ r₂), ⟨hle, hlt, hl, hr⟩, rfl, rfl⟩
    · have hre : prec op ≤ prec op' := hre
      obtain ⟨h₁, h₂, hr₁, hr₂⟩ := hr
      obtain ⟨t, ht, htp, htoks⟩ := ih₁ hr₁ (by omega)
      refine ⟨.binary op' t r₂, ⟨by omega, h₂, ht, hr₂⟩, ?_, ?_⟩
      · show prec op' = prec op
        omega
      · rw [Tree.tokens, htoks, append_assoc]
        rfl
  | _ =>
    refine ⟨.binary op l _, ⟨hle, ?_, hl, hr⟩, rfl, rfl⟩
    simp only [Tree.rootPrec]
    omega

def Tok.isBinary : Tok → Bool
  | .binary _ => true
  | .num _ | .ident _ | .defined | .lparen | .rparen | .unary _ => false

def ops (ts : List Tok) : Nat := ts.countP Tok.isBinary

@[simp] theorem ops_nil : ops [] = 0 := rfl

@[simp] theorem ops_append (a b : List Tok) : ops (a ++ b) = ops a + ops b := countP_append

@[simp] theorem ops_cons_binary (op : BinaryOp) (ts : List Tok) :
    ops (.binary op :: ts) = ops ts + 1 := countP_cons_of_pos rfl

theorem ops_le_of_isPrefix (h : a <+: b) : ops a ≤ ops b := h.sublist.countP_le

/-- A list is split in one way at a binary operator that has a given number of them in front. -/
theorem split_unique {a' b' : List Tok} {op' : BinaryOp} (hops : ops a = ops a')
    (h : a ++ .binary op :: b = a' ++ .binary op' :: b') : a = a' ∧ b = b' := by
  induction a generalizing a' with
  | nil =>
    cases a' with
    | nil =>
      cases h
      exact ⟨rfl, rfl⟩
    | cons t a' =>
      cases h
      rw [ops_cons_binary, ops_nil] at hops
      omega
  | cons t a ih =>
    cases a' with
    | nil =>
      cases h
      rw [ops_cons_binary, ops_nil] at hops
      omega
    | cons t' a' =>
      obtain ⟨rfl, hrest⟩ := List.cons.inj h
      have hops' : ops a = ops a' := by
        have hone : ∀ x : List Tok, ops (t :: x) = ops [t] + ops x := fun x => ops_append [t] x
        rw [hone a, hone a'] at hops
        omega
      obtain ⟨rfl, rfl⟩ := ih hops' hrest
      exact ⟨rfl, rfl⟩

/-! ## Parentheses -/

/-- Every parenthesis is closed, and none before it is opened. -/
structure Balanced (ts : List Tok) : Prop where
  closed : ts.count .lparen = ts.count .rparen
  opened : ∀ p, p <+: ts → p.count .rparen ≤ p.count .lparen

theorem balanced_one {c : Tok} (hl : c ≠ .lparen) (hr : c ≠ .rparen) : Balanced [c] := by
  refine ⟨by simp [hl, hr], fun p hp => ?_⟩
  rcases prefix_cons_iff.1 hp with rfl | ⟨q, rfl, hq⟩
  · simp
  · rw [prefix_nil.1 hq]
    simp [hr]

theorem Balanced.append (ha : Balanced a) (hb : Balanced b) :
    Balanced (a ++ b) := by
  refine ⟨by rw [count_append, count_append, ha.closed, hb.closed], fun p hp => ?_⟩
  rcases prefix_or_prefix_of_prefix hp (prefix_append a b) with hpa | ⟨q, rfl⟩
  · exact ha.opened p hpa
  · have hq := hb.opened q ((prefix_append_right_inj a).1 hp)
    rw [count_append, count_append, ha.closed]
    omega

theorem Balanced.open_before_end (h : Balanced ts) {p : List Tok}
    (hp : p <+: .lparen :: (ts ++ [.rparen])) (hne : p ≠ [])
    (hall : p ≠ .lparen :: (ts ++ [.rparen])) :
    p.count .rparen < p.count .lparen := by
  rcases prefix_cons_iff.1 hp with rfl | ⟨q, rfl, hq⟩
  · exact absurd rfl hne
  · rcases prefix_concat_iff.1 hq with rfl | hq
    · exact absurd rfl hall
    · have hle := h.opened q hq
      simp
      omega

theorem Balanced.paren (h : Balanced ts) :
    Balanced (.lparen :: (ts ++ [.rparen])) := by
  refine ⟨by simp [h.closed], fun p hp => ?_⟩
  by_cases hne : p = []
  · simp [hne]
  · by_cases hall : p = .lparen :: (ts ++ [.rparen])
    · simp [hall, h.closed]
    · exact Nat.le_of_lt (h.open_before_end hp hne hall)

theorem balanced_tokens (t : Tree) : Balanced t.tokens := by
  induction t with
  | num text => exact balanced_one (by simp) (by simp)
  | ident name => exact balanced_one (by simp) (by simp)
  | defined parens name =>
    have hd : Balanced [.defined] := balanced_one (by simp) (by simp)
    have hn : Balanced [.ident name] := balanced_one (by simp) (by simp)
    cases parens with
    | false => exact hd.append hn
    | true => exact hd.append hn.paren
  | paren t ih => exact ih.paren
  | unary op t ih =>
    have hop : Balanced [.unary op] := balanced_one (by simp) (by simp)
    exact hop.append ih
  | binary op l r ihl ihr =>
    have hop : Balanced [.binary op] := balanced_one (by simp) (by simp)
    exact ihl.append (hop.append ihr)

end CGrammar
