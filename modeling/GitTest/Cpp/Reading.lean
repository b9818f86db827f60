import GitTest.Cpp.Parse

/-!
# What `CppExpr` makes of a C condition

`cTokens` are the C tokens of a token list without its spaces, `none` if one of them is no token
of the grammar or a constant without a value.  `nest` is the tree that the parser makes of a C tree:
the operands in their order, grouped to the right.

    cTokens tokens = some t.tokens → t.Proper → cppExpr tokens = ok (nest t none)  (cppExpr_eq)
-/

namespace Cpp

open CGrammar CInt List

/-! ## C tokens -/

def isIdentifier (s : String) : Bool :=
  s.toList ≠ [] ∧ s.toList.all isWordChar ∧ s.toList.head?.any Char.isDigit = false ∧ s ≠ "defined"

def cToken (t : Token) : Option Tok :=
  match t.id with
  | .number => if (constantValue t.value).isSome then some (.num t.value) else none
  | .ident => if isIdentifier t.value then some (.ident t.value) else none
  | .defined => some .defined
  | .lparen => some .lparen
  | .rparen => some .rparen
  | .unary op => some (.unary op)
  | .binary op => some (.binary op)
  | .eof | .ln | .space | .comma | .string | .other _ => none

def cTokens : List Token → Option (List Tok)
  | [] => some []
  | t :: toks =>
    if isSpaceToken t then cTokens toks
    else (cToken t).bind fun c => (cTokens toks).map (c :: ·)

theorem cTokens_skipSpaces (toks : List Token) : cTokens (skipSpaces toks) = cTokens toks := by
  induction toks with
  | nil => rfl
  | cons t toks ih =>
    by_cases h : isSpaceToken t = true
    · rw [skipSpaces, dropWhile_cons_of_pos h, cTokens, if_pos h]
      exact ih
    · rw [skipSpaces, dropWhile_cons_of_neg h]

variable {t : Token} {toks : List Token} {c : Tok} {ts : List Tok} {D : Tree}

/-- The first token is a space, or the first one that is read. -/
theorem cTokens_cons (h : cTokens (t :: toks) = some ts) :
    (isSpaceToken t = true ∧ cTokens toks = some ts) ∨
      ∃ c ts', isSpaceToken t ≠ true ∧ cToken t = some c ∧ cTokens toks = some ts' ∧
        ts = c :: ts' := by
  rw [cTokens] at h
  split at h
  · next hs => exact .inl ⟨hs, h⟩
  · next hs =>
    obtain ⟨c, hc, h⟩ := Option.bind_eq_some_iff.1 h
    obtain ⟨ts', hts, h⟩ := Option.map_eq_some_iff.1 h
    exact .inr ⟨c, ts', hs, hc, hts, h.symm⟩

theorem id_of_space (h : isSpaceToken t = true) : t.id ≠ .lparen ∧ t.id ≠ .rparen := by
  have hids : t.id = .space ∨ t.id = .ln := by simpa [isSpaceToken] using h
  rcases hids with h | h <;> simp [h]

theorem skipSpaces_of_cons (h : cTokens toks = some (c :: ts)) :
    ∃ t rest, skipSpaces toks = t :: rest ∧ cToken t = some c ∧ cTokens rest = some ts := by
  induction toks with
  | nil => cases h
  | cons t toks ih =>
    rcases cTokens_cons h with ⟨hs, h⟩ | ⟨c', ts', hs, hc, hts, h⟩
    · rw [skipSpaces, dropWhile_cons_of_pos hs]
      exact ih h
    · cases h
      exact ⟨t, toks, by rw [skipSpaces, dropWhile_cons_of_neg hs], hc, hts⟩

theorem skipSpaces_of_nil (h : cTokens toks = some []) :
    skipSpaces toks = [] := by
  induction toks with
  | nil => rfl
  | cons t toks ih =>
    rcases cTokens_cons h with ⟨hs, h⟩ | ⟨c', ts', hs, hc, hts, h⟩
    · rw [skipSpaces, dropWhile_cons_of_pos hs]
      exact ih h
    · cases h

theorem cTokens_length (h : cTokens toks = some ts) :
    ts.length ≤ toks.length := by
  induction toks generalizing ts with
  | nil =>
    cases h
    exact Nat.le_refl 0
  | cons t toks ih =>
    rcases cTokens_cons h with ⟨-, h⟩ | ⟨c, ts', -, -, hts, rfl⟩
    · exact Nat.le_succ_of_le (ih h)
    · exact Nat.succ_le_succ (ih hts)

theorem exists_cToken (h : cTokens toks = some ts) (hc : c ∈ ts) : ∃ t, cToken t = some c := by
  induction toks generalizing ts with
  | nil =>
    cases h
    cases hc
  | cons t toks ih =>
    rcases cTokens_cons h with ⟨-, h⟩ | ⟨c', ts', -, hc', hts, rfl⟩
    · exact ih h hc
    · rcases mem_cons.1 hc with rfl | hc
      · exact ⟨t, hc'⟩
      · exact ih hts hc

/-! ## Constants -/

def numExpr (text : String) : Expr :=
  match isDecimal text with
  | .ok (some e) => e
  | .ok none | .error _ => (isHexadecimal text).getD (.int 0)

theorem isDecimal_of_digits {text : String} {body : List Char}
    (hbody : text.toList.rdropWhile isSuffixChar = body) (hne : body ≠ [])
    (hd : ∀ c ∈ body, ∃ d < 10, digitVal c = some d) :
    ∃ m : Nat, readDigits 10 body = some m ∧ isDecimal text = .ok (some (.int m)) := by
  obtain ⟨m, hm⟩ := exists_readFrom hd
  have hall : body.all Char.isDigit = true := by
    rw [all_eq_true]
    intro c hc
    obtain ⟨d, hlt, hv⟩ := hd c hc
    exact isDigit_of_digitVal hv hlt
  have hread : readDigits 10 body = some m := hm
  refine ⟨m, hm, ?_⟩
  rw [isDecimal]
  simp only [hbody, hall, if_true, hne, if_false, hread, Option.map_some]

/-- A hexadecimal constant is read as one; any other as decimal, which gives its value unless it
is octal and 8 or more. -/
theorem number_cases {text : String} {c : Constant} (h : readConstant text.toList = some c) :
    (c.base = 16 ∧ isDecimal text = .ok none ∧ isHexadecimal text = some (.hex c.n)) ∨
    ((c.base = 8 ∨ c.base = 10) ∧ ∃ m : Nat, isDecimal text = .ok (some (.int m)) ∧
      ((c.base = 8 → c.n < 8) ↔ m = c.n)) := by
  obtain ⟨u, -, h⟩ := Option.bind_eq_some_iff.1 h
  rcases readBody_eq_some h with ⟨x, d, ds, n, hbody, hx, hn, rfl⟩ | ⟨ds, n, hbody, hn, rfl⟩ |
    ⟨d, ds, n, hbody, hd, hn, rfl⟩
  · refine .inl ⟨rfl, ?_, ?_⟩
    · have hxd : x.isDigit = false := by rcases hx with rfl | rfl <;> decide
      simp [isDecimal, hbody, hxd]
    · rw [isHexadecimal, hbody]
      rcases hx with rfl | rfl <;> simp only [hn, Option.map_some]
  · have hdig : ∀ c ∈ '0' :: ds, ∃ d < 10, digitVal c = some d := by
      refine forall_mem_cons.2 ⟨⟨0, by decide, by decide⟩, ?_⟩
      intro c hc
      obtain ⟨d, hlt, hv⟩ := digit_of_readFrom hn c hc
      exact ⟨d, by omega, hv⟩
    obtain ⟨m, hm, hdec⟩ := isDecimal_of_digits hbody (by simp) hdig
    have hm : readFrom 10 0 ds = some m := hm
    refine .inr ⟨.inl rfl, m, hdec, fun h8 => ?_, fun hmn _ => ?_⟩
    · rw [readFrom_ten_of_lt_eight hn (h8 rfl)] at hm
      exact (Option.some.inj hm).symm
    · have hlt := lt_of_readFrom_eight_ten hn hm (.inr ⟨rfl, by decide⟩)
      show n < 8
      have hmn : m = n := hmn
      omega
  · obtain ⟨m, hm, hdec⟩ := isDecimal_of_digits hbody (by simp) (digit_of_readFrom hn)
    rw [hn] at hm
    exact .inr ⟨.inr rfl, m, hdec, fun _ => (Option.some.inj hm).symm, fun _ h => by cases h⟩

theorem isInteger_of_constant {t : Token} (hid : t.id = .number)
    (h : (constantValue t.value).isSome) : isInteger t = .ok (some (numExpr t.value)) := by
  obtain ⟨v, hv⟩ := Option.isSome_iff_exists.1 h
  obtain ⟨c, hc, -⟩ := Option.bind_eq_some_iff.1 hv
  unfold isInteger numExpr
  rw [if_neg (not_not.2 hid)]
  rcases number_cases hc with ⟨-, hdec, hhex⟩ | ⟨-, m, hdec, -⟩
  · rw [hdec, hhex]
    rfl
  · rw [hdec]
    rfl

/-! ## Operands -/

/-- Put the operand in front of the operator and the rest that follow it. -/
def attach (e : Expr) : Option (BinaryOp × Expr) → Expr
  | none => e
  | some (op, rest) => .binary op e rest

/-- The tree of the parser for the operands of `t` and what follows them. -/
def nest : Tree → Option (BinaryOp × Expr) → Expr
  | .num text, k => attach (numExpr text) k
  | .ident name, k => attach (.ident name) k
  | .defined _ name, k => attach (.defined name) k
  | .paren t, k => attach (nest t none) k
  | .unary op t, k => attach (.unary op (nest t none)) k
  | .binary op l r, k => nest l (some (op, nest r k))

def tokenId : Tok → TokenId
  | .num _ => .number
  | .ident _ => .ident
  | .defined => .defined
  | .lparen => .lparen
  | .rparen => .rparen
  | .unary op => .unary op
  | .binary op => .binary op

section
variable {t : Token} {c : Tok} {toks rest : List Token} {ts : List Tok}

theorem id_of_cToken (h : cToken t = some c) : t.id = tokenId c := by
  revert h
  fun_cases cToken t with
  | case1 hid | case3 hid | case5 hid | case6 hid | case7 hid | case8 _ hid | case9 _ hid =>
    rintro ⟨⟩
    exact hid
  | _ => rintro ⟨⟩

theorem value_of_cToken_ident {name : String} (h : cToken t = some (.ident name)) :
    t.value = name ∧ isIdentifier name = true := by
  have hid : t.id = .ident := id_of_cToken h
  rw [cToken, hid] at h
  dsimp only at h
  split at h
  · next hi =>
    cases h
    exact ⟨rfl, hi⟩
  · cases h

theorem value_of_cToken_num {text : String} (h : cToken t = some (.num text)) :
    t.value = text ∧ (constantValue text).isSome = true := by
  have hid : t.id = .number := id_of_cToken h
  rw [cToken, hid] at h
  dsimp only at h
  split at h
  · next hc =>
    cases h
    exact ⟨rfl, hc⟩
  · cases h

theorem isSpaceToken_of_cToken (h : cToken t = some c) : isSpaceToken t = false := by
  have hid := id_of_cToken h
  cases c <;> simp [isSpaceToken, hid, tokenId]

theorem skipSpaces_cons (h : cToken t = some c) : skipSpaces (t :: rest) = t :: rest :=
  dropWhile_cons_of_neg (by simp [isSpaceToken_of_cToken h])

theorem isAtom_num {text : String} (inner : Bool) (h : cToken t = some (.num text)) :
    isAtom inner (t :: rest) = .ok (some (numExpr text, rest)) := by
  have hid : t.id = .number := id_of_cToken h
  obtain ⟨rfl, hc⟩ := value_of_cToken_num h
  have hint := isInteger_of_constant hid hc
  cases rest with
  | nil | cons => simp [isAtom, isNumber, hid, hint, bind, Except.bind, pure, Except.pure]

theorem isNumber_none (rest : List Token) (hn : t.id ≠ .number) (hs : t.id ≠ .binary .sub)
    (ha : t.id ≠ .binary .add) : isNumber t rest = .ok none := by
  cases rest with
  | nil => simp [isNumber, isInteger, hn, bind, Except.bind, pure, Except.pure]
  | cons t' rest => simp [isNumber, isInteger, hn, hs, ha, bind, Except.bind, pure, Except.pure]

theorem isAtom_ident {name : String} (inner : Bool) (h : cToken t = some (.ident name))
    (hrest : cTokens rest = some ts) (hts : ts.head? ≠ some .lparen) :
    ∃ rest', isAtom inner (t :: rest) = .ok (some (.ident name, rest')) ∧
      cTokens rest' = some ts := by
  have hid : t.id = .ident := id_of_cToken h
  obtain ⟨rfl, -⟩ := value_of_cToken_ident h
  refine ⟨skipSpaces rest, ?_, by rw [cTokens_skipSpaces, hrest]⟩
  have hnum := isNumber_none rest (t := t) (by simp [hid]) (by simp [hid]) (by simp [hid])
  have hcall : isCallOrIdent (t :: rest) = some (.ident t.value, skipSpaces rest) := by
    rw [isCallOrIdent, skipSpaces_cons h]
    cases ts with
    | nil => simp [hid, skipSpaces_of_nil hrest]
    | cons c ts =>
      obtain ⟨t', rest', hsk, hc, -⟩ := skipSpaces_of_cons hrest
      have hne : t'.id ≠ .lparen := by
        have hid' := id_of_cToken hc
        cases c <;> simp_all [tokenId]
      simp [hid, hsk, hne]
  simp [isAtom, hid, hnum, isDefined, hcall, bind, Except.bind, pure, Except.pure]

theorem isAtom_defined {name : String} (inner parens : Bool) (h : cToken t = some .defined)
    (hrest : cTokens rest = some ((Tree.defined parens name).tokens.tail ++ ts)) :
    ∃ rest', isAtom inner (t :: rest) = .ok (some (.defined name, rest')) ∧
      cTokens rest' = some ts := by
  have hid : t.id = .defined := id_of_cToken h
  have hnum := isNumber_none rest (t := t) (by simp [hid]) (by simp [hid]) (by simp [hid])
  obtain ⟨rest', hdef, hts⟩ : ∃ rest', isDefined inner t rest = .ok (some (.defined name, rest')) ∧
      cTokens rest' = some ts := by
    cases parens with
    | false =>
      obtain ⟨t₁, rest₁, hsk₁, hc₁, hr₁⟩ := skipSpaces_of_cons hrest
      have hid₁ : t₁.id = .ident := id_of_cToken hc₁
      obtain ⟨rfl, -⟩ := value_of_cToken_ident hc₁
      exact ⟨rest₁, by simp [isDefined, hid, hsk₁, hid₁], hr₁⟩
    | true =>
      obtain ⟨t₁, rest₁, hsk₁, hc₁, hr₁⟩ := skipSpaces_of_cons hrest
      obtain ⟨t₂, rest₂, hsk₂, hc₂, hr₂⟩ := skipSpaces_of_cons hr₁
      obtain ⟨t₃, rest₃, hsk₃, hc₃, hr₃⟩ := skipSpaces_of_cons hr₂
      have hid₁ : t₁.id = .lparen := id_of_cToken hc₁
      have hid₂ : t₂.id = .ident := id_of_cToken hc₂
      have hid₃ : t₃.id = .rparen := id_of_cToken hc₃
      obtain ⟨rfl, -⟩ := value_of_cToken_ident hc₂
      have hexpect : expectId inner rest₂ .rparen = .ok rest₃ := by
        simp [expectId, hsk₃, hid₃]
      exact ⟨rest₃, by simp [isDefined, hid, hsk₁, hid₁, hsk₂, hid₂, hexpect, bind, Except.bind],
        hr₃⟩
  exact ⟨rest', by simp [isAtom, hid, hnum, hdef, bind, Except.bind, pure, Except.pure], hts⟩

end

/-! ## Parentheses -/

def depthAfter : Tok → Nat → Nat
  | .lparen, k => k + 1
  | .rparen, k => k - 1
  | .num _, k | .ident _, k | .defined, k | .unary _, k | .binary _, k => k

/-- `matchParen` goes over the tokens `us` and comes to `toks'` at the depth `k'`. -/
def Scans (k : Nat) (toks : List Token) (us : List Tok) (k' : Nat) (toks' : List Token) : Prop :=
  ∃ a, cTokens a = some us ∧
    matchParen k toks = (matchParen k' toks').map (Prod.map (a ++ ·) id)

theorem cTokens_append {a b : List Token} {us vs : List Tok} (ha : cTokens a = some us)
    (hb : cTokens b = some vs) : cTokens (a ++ b) = some (us ++ vs) := by
  induction a generalizing us with
  | nil =>
    cases ha
    exact hb
  | cons t a ih =>
    rw [cons_append, cTokens]
    rcases cTokens_cons ha with ⟨hs, ha⟩ | ⟨c, us', hs, hc, hus, rfl⟩
    · rw [if_pos hs, ih ha]
    · rw [if_neg hs, hc, ih hus]
      rfl

theorem Scans.append {k₁ k₂ k₃ : Nat} {a b c : List Token} {us vs : List Tok}
    (h₁ : Scans k₁ a us k₂ b) (h₂ : Scans k₂ b vs k₃ c) : Scans k₁ a (us ++ vs) k₃ c := by
  obtain ⟨x, hx, hm⟩ := h₁
  obtain ⟨y, hy, hm'⟩ := h₂
  refine ⟨x ++ y, cTokens_append hx hy, ?_⟩
  rw [hm, hm', Option.map_map]
  congr 1
  funext p
  simp [Prod.map]

/-- One token; the parenthesis that closes the search is `matchParen_close`. -/
theorem scans_one {k : Nat} (h : cTokens toks = some (c :: ts)) (hk : c = .rparen → 1 < k) :
    ∃ toks', cTokens toks' = some ts ∧ Scans k toks [c] (depthAfter c k) toks' := by
  induction toks with
  | nil => cases h
  | cons t toks ih =>
    rcases cTokens_cons h with ⟨hs, h⟩ | ⟨c', ts', hs, hc, hts, h⟩
    · obtain ⟨toks', hts, a, ha, hm⟩ := ih h
      refine ⟨toks', hts, t :: a, by rw [cTokens, if_pos hs, ha], ?_⟩
      obtain ⟨hl, hr⟩ := id_of_space hs
      rw [matchParen, if_neg hl, if_neg hr, hm, Option.map_map]
      rfl
    · cases h
      have hid := id_of_cToken hc
      refine ⟨toks, hts, [t], by simp [cTokens, hs, hc], ?_⟩
      cases c with
      | lparen => simp [matchParen, hid, tokenId, depthAfter]
      | rparen =>
        have hk' : k - 1 ≠ 0 := by
          have := hk rfl
          omega
        simp [matchParen, hid, tokenId, depthAfter, hk']
      | _ =>
        simp [matchParen, hid, tokenId, depthAfter]

theorem scans_tree (D : Tree) (k : Nat) (h : cTokens toks = some (D.tokens ++ ts)) :
    ∃ toks', cTokens toks' = some ts ∧ Scans (k + 1) toks D.tokens (k + 1) toks' := by
  induction D generalizing k toks ts with
  | num text | ident name => exact scans_one h (by simp)
  | defined parens name =>
    cases parens with
    | false =>
      obtain ⟨toks₁, h₁, hs₁⟩ := scans_one h (by simp)
      obtain ⟨toks₂, h₂, hs₂⟩ := scans_one h₁ (by simp)
      exact ⟨toks₂, h₂, hs₁.append hs₂⟩
    | true =>
      obtain ⟨toks₁, h₁, hs₁⟩ := scans_one h (by simp)
      obtain ⟨toks₂, h₂, hs₂⟩ := scans_one h₁ (by simp)
      obtain ⟨toks₃, h₃, hs₃⟩ := scans_one h₂ (by simp)
      obtain ⟨toks₄, h₄, hs₄⟩ := scans_one h₃ (k := k + 2) (by simp)
      exact ⟨toks₄, h₄, hs₁.append (hs₂.append (hs₃.append hs₄))⟩
  | paren t ih =>
    rw [Tree.tokens, cons_append, append_assoc] at h
    obtain ⟨toks₁, h₁, hs₁⟩ := scans_one h (by simp)
    obtain ⟨toks₂, h₂, hs₂⟩ := ih (k + 1) h₁
    obtain ⟨toks₃, h₃, hs₃⟩ := scans_one h₂ (k := k + 2) (by simp)
    exact ⟨toks₃, h₃, hs₁.append (hs₂.append hs₃)⟩
  | unary op t ih =>
    obtain ⟨toks₁, h₁, hs₁⟩ := scans_one h (by simp)
    obtain ⟨toks₂, h₂, hs₂⟩ := ih k h₁
    exact ⟨toks₂, h₂, hs₁.append hs₂⟩
  | binary op l r ihl ihr =>
    rw [Tree.tokens, append_assoc] at h
    obtain ⟨toks₁, h₁, hs₁⟩ := ihl k h
    obtain ⟨toks₂, h₂, hs₂⟩ := scans_one h₁ (by simp)
    obtain ⟨toks₃, h₃, hs₃⟩ := ihr k h₂
    exact ⟨toks₃, h₃, hs₁.append (hs₂.append hs₃)⟩

theorem matchParen_close (h : cTokens toks = some (.rparen :: ts)) :
    ∃ spaces after, matchParen 1 toks = some (spaces, after) ∧ cTokens spaces = some [] ∧
      cTokens after = some ts := by
  induction toks with
  | nil => cases h
  | cons t toks ih =>
    rcases cTokens_cons h with ⟨hs, h⟩ | ⟨c', ts', hs, hc, hts, h⟩
    · obtain ⟨spaces, after, hm, hsp, hts⟩ := ih h
      obtain ⟨hl, hr⟩ := id_of_space hs
      refine ⟨t :: spaces, after, ?_, by rw [cTokens, if_pos hs, hsp], hts⟩
      rw [matchParen, if_neg hl, if_neg hr, hm]
      rfl
    · cases h
      have hid : t.id = .rparen := id_of_cToken hc
      exact ⟨[], toks, by simp [matchParen, hid], rfl, hts⟩

theorem matchParen_tree (D : Tree) (h : cTokens toks = some (D.tokens ++ .rparen :: ts)) :
    ∃ inside after, matchParen 1 toks = some (inside, after) ∧
      cTokens inside = some D.tokens ∧ cTokens after = some ts := by
  obtain ⟨toks', hts, a, ha, hm⟩ := scans_tree D 0 h
  obtain ⟨spaces, after, hm', hsp, hts'⟩ := matchParen_close hts
  refine ⟨a ++ spaces, after, by rw [hm, hm']; rfl, ?_, hts'⟩
  rw [cTokens_append ha hsp, append_nil]

/-! ## The parser on a tree -/

/-- What stands behind an operand: the end, or an operator and tokens that are read as `e`. -/
def Follows (inner : Bool) (ts : List Tok) : Option (BinaryOp × Expr) → Prop
  | none => ts = []
  | some (op, e) => ∃ ts', ts = .binary op :: ts' ∧ ∀ fuel toks, 3 * ts'.length + 1 ≤ fuel →
      cTokens toks = some ts' → ∃ rest, isBinary fuel inner toks = .ok (some (e, rest))

def ReadsUnary (D : Tree) : Prop :=
  ∀ inner fuel toks ts, cTokens toks = some (D.tokens ++ ts) → ts.head? ≠ some .lparen →
    3 * D.tokens.length ≤ fuel →
    ∃ rest, isUnary fuel inner toks = .ok (some (nest D none, rest)) ∧ cTokens rest = some ts

def ReadsBinary (D : Tree) : Prop :=
  ∀ inner fuel toks ts k, Follows inner ts k → cTokens toks = some (D.tokens ++ ts) →
    3 * (D.tokens.length + ts.length) + 1 ≤ fuel →
    ∃ rest, isBinary fuel inner toks = .ok (some (nest D k, rest))

theorem tokens_ne_nil (D : Tree) : D.tokens ≠ [] := by
  cases D with
  | num text | ident name | paren t | unary op t => simp [Tree.tokens]
  | defined parens name => cases parens <;> simp [Tree.tokens]
  | binary op l r => simp [Tree.tokens]

theorem nest_eq_attach (h : 11 ≤ D.rootPrec) (k : Option (BinaryOp × Expr)) :
    nest D k = attach (nest D none) k := by
  cases D with
  | binary op l r =>
    have := prec_le op
    simp only [Tree.rootPrec] at h
    omega
  | _ => rfl

theorem Follows.head?_ne {inner : Bool} {k : Option (BinaryOp × Expr)} (h : Follows inner ts k) :
    ts.head? ≠ some .lparen := by
  cases k with
  | none => rw [show ts = [] from h]; simp
  | some k =>
    obtain ⟨ts', rfl, -⟩ := h
    simp

theorem ReadsUnary.binary (hu : ReadsUnary D) (hp : 11 ≤ D.rootPrec) :
    ReadsBinary D := by
  intro inner fuel toks ts k hk htoks hfuel
  obtain ⟨c, cs, hD⟩ := exists_cons_of_ne_nil (tokens_ne_nil D)
  obtain ⟨t, rest, hsk, -, -⟩ := skipSpaces_of_cons (htoks.trans (by rw [hD]; rfl))
  obtain ⟨fuel, rfl⟩ : ∃ f, fuel = f + 1 := ⟨fuel - 1, by omega⟩
  have htoks' : cTokens (t :: rest) = some (D.tokens ++ ts) := by
    rw [← hsk, cTokens_skipSpaces, htoks]
  obtain ⟨rest₁, hone, hts⟩ := hu inner fuel (t :: rest) ts htoks' hk.head?_ne (by omega)
  rw [nest_eq_attach hp]
  cases k with
  | none =>
    have hend := skipSpaces_of_nil (hts.trans (congrArg some hk))
    exact ⟨rest₁, by simp [isBinary, hsk, hone, hend, attach, bind, Except.bind, pure, Except.pure]⟩
  | some k =>
    obtain ⟨op, e⟩ := k
    obtain ⟨ts', rfl, hread⟩ := hk
    obtain ⟨t₂, rest₂, hsk₂, hc₂, hts₂⟩ := skipSpaces_of_cons hts
    have hid₂ : t₂.id = .binary op := id_of_cToken hc₂
    obtain ⟨rest₃, hmore⟩ := hread fuel rest₂ (by simp at hfuel; omega) hts₂
    exact ⟨rest₃, by
      simp [isBinary, hsk, hone, hsk₂, hid₂, hmore, attach, bind, Except.bind, pure, Except.pure]⟩

theorem readsUnary_of_isAtom {cs : List Tok} (hD : D.tokens = c :: cs) (hc : ∀ op, c ≠ .unary op)
    (h : ∀ inner t rest ts, cToken t = some c → cTokens rest = some (cs ++ ts) →
      ts.head? ≠ some .lparen → ∃ rest', isAtom inner (t :: rest) =
        .ok (some (nest D none, rest')) ∧ cTokens rest' = some ts) : ReadsUnary D := by
  intro inner fuel toks ts htoks hts hfuel
  rw [hD] at htoks hfuel
  obtain ⟨t, rest, hsk, hct, hrest⟩ := skipSpaces_of_cons htoks
  obtain ⟨fuel, rfl⟩ : ∃ f, fuel = f + 2 := ⟨fuel - 2, by simp at hfuel; omega⟩
  obtain ⟨rest', hatom, hrest'⟩ := h inner t rest ts hct hrest hts
  refine ⟨rest', ?_, hrest'⟩
  have hid := id_of_cToken hct
  have hvalue : isValue (fuel + 1) inner (t :: rest) = .ok (some (nest D none, rest')) := by
    simp [isValue, hatom, bind, Except.bind, pure, Except.pure]
  rw [isUnary, hsk]
  dsimp only
  rw [hid]
  cases c with
  | unary op => exact absurd rfl (hc op)
  | _ => exact hvalue

theorem readsUnary_paren (h : ReadsBinary D) : ReadsUnary (.paren D) := by
  intro inner fuel toks ts htoks hts hfuel
  rw [Tree.tokens, cons_append, append_assoc] at htoks
  obtain ⟨t, rest, hsk, hct, hrest⟩ := skipSpaces_of_cons htoks
  have hid : t.id = .lparen := id_of_cToken hct
  obtain ⟨inside, after, hmatch, hin, hafter⟩ := matchParen_tree D hrest
  simp only [Tree.tokens, length_cons, length_append, length_nil] at hfuel
  obtain ⟨fuel, rfl⟩ : ∃ f, fuel = f + 2 := ⟨fuel - 2, by omega⟩
  have hfollows : Follows true [] none := rfl
  obtain ⟨rest', hinside⟩ := h true fuel inside [] none hfollows (by rw [hin, append_nil])
    (by simp; omega)
  have hatom : isAtom inner (t :: rest) = .ok none := by
    have hnum := isNumber_none rest (t := t) (by simp [hid]) (by simp [hid]) (by simp [hid])
    simp [isAtom, hid, hnum, isDefined, isCallOrIdent, skipSpaces_cons hct, bind, Except.bind,
      pure, Except.pure]
  refine ⟨after, ?_, hafter⟩
  have hvalue : isValue (fuel + 1) inner (t :: rest) = .ok (some (nest D none, after)) := by
    simp [isValue, hatom, skipSpaces_cons hct, hid, hmatch, hinside, bind, Except.bind, pure,
      Except.pure]
  simp [isUnary, hsk, hid, hvalue, nest, attach]

theorem readsUnary_unary (op : UnaryOp) (h : ReadsUnary D) :
    ReadsUnary (.unary op D) := by
  intro inner fuel toks ts htoks hts hfuel
  obtain ⟨t, rest, hsk, hct, hrest⟩ := skipSpaces_of_cons htoks
  have hid : t.id = .unary op := id_of_cToken hct
  simp only [Tree.tokens, length_cons] at hfuel
  obtain ⟨fuel, rfl⟩ : ∃ f, fuel = f + 1 := ⟨fuel - 1, by omega⟩
  obtain ⟨rest', hone, hrest'⟩ := h inner fuel rest ts hrest hts (by omega)
  exact ⟨rest', by simp [isUnary, hsk, hid, hone, nest, attach, bind, Except.bind, pure,
    Except.pure], hrest'⟩

theorem readsBinary_binary {l r : Tree} (op : BinaryOp) (hl : ReadsBinary l) (hr : ReadsBinary r) :
    ReadsBinary (.binary op l r) := by
  intro inner fuel toks ts k hk htoks hfuel
  rw [Tree.tokens, append_assoc] at htoks
  simp only [Tree.tokens, length_append, length_cons] at hfuel
  refine hl inner fuel toks _ (some (op, nest r k)) ⟨r.tokens ++ ts, rfl, ?_⟩ htoks ?_
  · intro fuel' toks' hfuel' htoks'
    exact hr inner fuel' toks' ts k hk htoks' (by simpa using hfuel')
  · simp only [length_cons, length_append]
    omega

/-- By induction on the tree: an operand is read whole, and a tree of binary operators is read
from its first operand on, whatever the precedences. -/
theorem reads (D : Tree) (hD : D.Proper) : (11 ≤ D.rootPrec → ReadsUnary D) ∧ ReadsBinary D := by
  have both {D : Tree} (h : ReadsUnary D) (hp : 11 ≤ D.rootPrec) :
      (11 ≤ D.rootPrec → ReadsUnary D) ∧ ReadsBinary D := ⟨fun _ => h, h.binary hp⟩
  induction D with
  | num text =>
    refine both (readsUnary_of_isAtom rfl (by simp) ?_) (by simp [Tree.rootPrec])
    intro inner t rest ts hc hrest _
    exact ⟨rest, isAtom_num inner hc, hrest⟩
  | ident name =>
    refine both (readsUnary_of_isAtom rfl (by simp) ?_) (by simp [Tree.rootPrec])
    intro inner t rest ts hc hrest hts
    exact isAtom_ident inner hc hrest hts
  | defined parens name =>
    have htokens : (Tree.defined parens name).tokens =
        .defined :: (Tree.defined parens name).tokens.tail := by cases parens <;> rfl
    refine both (readsUnary_of_isAtom htokens (by simp) ?_) (by simp [Tree.rootPrec])
    intro inner t rest ts hc hrest _
    exact isAtom_defined inner parens hc hrest
  | paren t ih => exact both (readsUnary_paren (ih hD).2) (by simp [Tree.rootPrec])
  | unary op t ih => exact both (readsUnary_unary op ((ih hD.2).1 hD.1)) (by simp [Tree.rootPrec])
  | binary op l r ihl ihr =>
    obtain ⟨-, -, hl, hr⟩ := hD
    refine ⟨fun h => ?_, readsBinary_binary op (ihl hl).2 (ihr hr).2⟩
    have := prec_le op
    simp only [Tree.rootPrec] at h
    omega

/-- The parser takes every C condition, and forgets how its operators group. -/
theorem cppExpr_eq {tokens : List Token} (h : cTokens tokens = some D.tokens) (hD : D.Proper) :
    cppExpr tokens = .ok (nest D none) := by
  have hlen := cTokens_length h
  have hfollows : Follows false [] none := rfl
  obtain ⟨rest, hread⟩ := (reads D hD).2 false (3 * tokens.length + 3) tokens [] none hfollows
    (by rw [h, append_nil]) (by simp; omega)
  rw [cppExpr, hread]
  rfl

end Cpp
