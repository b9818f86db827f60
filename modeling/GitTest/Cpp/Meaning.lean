import GitTest.Cpp.Print

/-!
# Parsing a condition and printing it back

Every tree of the parser is printed as a text that is a C condition (`exists_reading`).  It is the
condition that was parsed, up to layout, just if that is `Printable`:

  * a parenthesis that the printer adds takes operators from the operand in front of it;
  * a parenthesis that it leaves out gives a right operand's operators to the left.

The other direction is `Written` and `term_printed`.
-/

namespace Cpp

open CInt CGrammar

/-! ## The text is a condition -/

theorem parensIf_tokens (p : Prop) [Decidable p] (t : Tree) :
    parensIf p t.tokens = (if p then Tree.paren t else t).tokens := by
  unfold parensIf
  split <;> rfl

variable {t D T : Tree} {e : Expr} {op : BinaryOp}

theorem proper_parenIf {p : Prop} [Decidable p] (h : t.Proper) :
    (if p then Tree.paren t else t).Proper := by
  split
  · exact h
  · exact h

theorem term_parenIf (p : Prop) [Decidable p] (t : Tree) :
    (if p then Tree.paren t else t).term = t.term := by
  split <;> rfl

/-- `t` is what C reads in the text of `e`, and binds as tight. -/
structure Reading (t : Tree) (e : Expr) : Prop where
  proper : t.Proper
  tokens : t.tokens = sourceToks e
  root : ∀ p ≤ 11, t.rootPrec < p ↔ nodePrec e < p

theorem reading_atom (ht : t.Proper) (htoks : t.tokens = sourceToks e) (hroot : t.rootPrec = 12)
    (hnode : nodePrec e = 1000) : Reading t e :=
  ⟨ht, htoks, fun p hp => by omega⟩

theorem Reading.unary (h : Reading t e) (op : UnaryOp) :
    Reading (.unary .not (if nodePrec e < nodePrec (.unary op e) then .paren t else t))
      (.unary op e) := by
  have hthr : 11 ≤ nodePrec (.unary op e) := by cases op <;> simp [nodePrec]
  refine ⟨⟨?_, proper_parenIf h.proper⟩, ?_, fun p hp => ?_⟩
  · split
    · exact Nat.le_succ 11
    · have h11 := h.root 11 (Nat.le_refl 11)
      omega
  · rw [Tree.tokens, ← parensIf_tokens, h.tokens, sourceToks]
  · show 11 < p ↔ _
    omega

theorem Reading.side (h : Reading t e) (op : BinaryOp) :
    prec op ≤ (if nodePrec e < prec op then Tree.paren t else t).rootPrec := by
  have hop := prec_le op
  split
  · show prec op ≤ 12
    omega
  · have hp := h.root (prec op) (by omega)
    omega

theorem exists_reading (h : CExpr e) : ∃ t, Reading t e := by
  induction e with
  | int n => exact ⟨.num (formatInt 10 n), reading_atom trivial rfl rfl rfl⟩
  | hex n => exact ⟨.num ("0x" ++ formatInt 16 n), reading_atom trivial rfl rfl rfl⟩
  | ident name => exact ⟨.ident name, reading_atom trivial rfl rfl rfl⟩
  | defined name => exact ⟨.defined true name, reading_atom trivial rfl rfl rfl⟩
  | unary op e ih =>
    obtain ⟨t, ht⟩ := ih h
    exact ⟨_, ht.unary op⟩
  | binary op l r ihl ihr =>
    obtain ⟨tl, hl⟩ := ihl h.1
    obtain ⟨tr, hr⟩ := ihr h.2
    obtain ⟨t, ht, htp, htoks⟩ := exists_binary (proper_parenIf hl.proper) (proper_parenIf hr.proper)
      (hl.side op) (hr.side op)
    refine ⟨t, ht, ?_, fun p hp => ?_⟩
    · rw [htoks, ← parensIf_tokens, ← parensIf_tokens, hl.tokens, hr.tokens, sourceToks]
    · rw [htp, nodePrec, precedences_eq]
  | string value | call name params => exact absurd h id

/-! ## Operators in the text -/

theorem ops_parensIf (p : Prop) [Decidable p] (ts : List Tok) : ops (parensIf p ts) = ops ts := by
  unfold parensIf
  split
  · rw [show ops (.lparen :: (ts ++ [.rparen])) = ops (ts ++ [.rparen]) from rfl, ops_append]
    rfl
  · rfl

/-- The operators of what follows an operand. -/
def opsAfter : Option (BinaryOp × Expr) → Nat
  | none => 0
  | some (_, e) => ops (sourceToks e) + 1

theorem ops_attach (e : Expr) (k : Option (BinaryOp × Expr)) :
    ops (sourceToks (attach e k)) = ops (sourceToks e) + opsAfter k := by
  cases k with
  | none => rfl
  | some k =>
    rw [attach, sourceToks, ops_append, ops_cons_binary, ops_parensIf, ops_parensIf]
    rfl

theorem ops_nest (hv : Valid D) (k : Option (BinaryOp × Expr)) :
    ops (sourceToks (nest D k)) = D.term.ops + opsAfter k := by
  induction D generalizing k with
  | num text =>
    rw [nest, ops_attach]
    obtain ⟨n, hn | hn⟩ := exists_numExpr hv
    · rw [hn]; rfl
    · rw [hn]; rfl
  | ident name | defined parens name => exact ops_attach _ k
  | paren t ih =>
    rw [nest, ops_attach, ih hv none]
    rfl
  | unary op t ih =>
    have hone : ops (sourceToks (.unary op (nest t none))) = ops (sourceToks (nest t none)) :=
      ops_parensIf (nodePrec (nest t none) < nodePrec (.unary op (nest t none))) _
    rw [nest, ops_attach, hone, ih hv none]
    rfl
  | binary op l r ihl ihr =>
    rw [nest, ihl hv.1, opsAfter, ihr hv.2, Tree.term, Term.ops]
    omega

/-! ## A text with the same meaning is that of a printable condition -/

theorem tightest_operand (h : 11 ≤ D.rootPrec) : tightest D = 0 := by
  cases D with
  | binary op l r =>
    have hop := prec_le op
    have h : 11 ≤ prec op := h
    omega
  | _ => rfl

theorem term_binary {l r : Term} (h : T.term = .binary op l r) (hT : T.rootPrec < 12) :
    ∃ l' r', T = .binary op l' r' ∧ l'.term = l ∧ r'.term = r := by
  cases T with
  | binary op' l' r' =>
    cases h
    exact ⟨l', r', rfl, rfl, rfl⟩
  | paren t => exact absurd hT (Nat.lt_irrefl 12)
  | _ => cases h

/-- If the text is the condition, it is printable. -/
def Exact (D : Tree) : Prop :=
  ∀ T : Tree, T.Proper → T.term = D.term → T.tokens = sourceToks (nest D none) → Printable D

/-- If the text of a left operand up to the operator is the operand, it is printable, and no
operator in it binds tighter. -/
def ExactLeft (D : Tree) : Prop :=
  ∀ (T : Tree) (op : BinaryOp) (e : Expr) (us : List Tok), T.Proper → T.term = D.term →
    prec op ≤ D.rootPrec → CExpr e →
    T.tokens ++ .binary op :: us = sourceToks (nest D (some (op, e))) →
    Printable D ∧ tightest D ≤ prec op

theorem cExpr_nest_none (h : Valid D) : CExpr (nest D none) :=
  cExpr_nest h (by simp)

theorem exists_of_parensIf (he : CExpr e) {p : Prop} [Decidable p] (hT : T.Proper)
    (htoks : T.tokens = parensIf p (sourceToks e)) :
    ∃ t, Reading t e ∧ T = if p then .paren t else t := by
  obtain ⟨t, ht⟩ := exists_reading he
  refine ⟨t, ht, tokens_inj hT (proper_parenIf ht.proper) ?_⟩
  rw [htoks, ← ht.tokens, parensIf_tokens]

theorem Exact.left (h : Exact D) (hv : Valid D) (h11 : 11 ≤ D.rootPrec) :
    ExactLeft D := by
  intro T op e us hT hterm _ _ htoks
  refine ⟨?_, by rw [tightest_operand h11]; exact Nat.zero_le _⟩
  rw [nest_eq_attach h11, attach, sourceToks] at htoks
  have hops : ops T.tokens =
      ops (parensIf (nodePrec (nest D none) < prec op) (sourceToks (nest D none))) := by
    rw [ops_parensIf, ops_tokens, hterm, ops_nest hv]
    rfl
  obtain ⟨t, ht, hTt⟩ := exists_of_parensIf (cExpr_nest_none hv) hT (split_unique hops htoks).1
  refine h t ht.proper ?_ ht.tokens
  rw [← hterm, hTt, term_parenIf]

theorem exact_num {text : String} (hv : Valid (.num text)) : Exact (.num text) := by
  intro T hT hterm htoks
  have htoks' : T.tokens = (Tree.num (sourceNode (numExpr text))).tokens := by
    rw [htoks, nest, attach]
    obtain ⟨n, hn | hn⟩ := exists_numExpr hv
    · rw [hn]; rfl
    · rw [hn]; rfl
  have hproper : (Tree.num (sourceNode (numExpr text))).Proper := trivial
  rw [tokens_inj hT hproper htoks'] at hterm
  have hvalue : constantValue (sourceNode (numExpr text)) = constantValue text :=
    Term.const.inj hterm
  exact (constantValue_numExpr hv).1 hvalue

theorem exact_unary {op : UnaryOp} (hv : Valid t) (h : Exact t) :
    Exact (.unary op t) := by
  intro T hT hterm htoks
  obtain ⟨Q, hQ⟩ := exists_reading (cExpr_nest_none hv)
  have hU := hQ.unary op
  rw [tokens_inj hT hU.proper (htoks.trans hU.tokens.symm), Tree.term, term_parenIf] at hterm
  obtain ⟨hop, hterm⟩ := Term.unary.inj hterm
  exact ⟨hop.symm, h Q hQ.proper hterm hQ.tokens⟩

theorem exists_first (hv : Valid D) (op : BinaryOp) (e : Expr) :
    ∃ op₁ x y, nest D (some (op, e)) = .binary op₁ x y ∧ CExpr x ∧
      ops (sourceToks x) ≤ D.term.ops := by
  induction D generalizing op e with
  | binary op' l r ihl ihr =>
    obtain ⟨op₁, x, y, hnest, hx, hops⟩ := ihl hv.1 op' (nest r (some (op, e)))
    refine ⟨op₁, x, y, hnest, hx, ?_⟩
    rw [Tree.term, Term.ops]
    omega
  | _ =>
    refine ⟨op, _, e, rfl, cExpr_nest_none hv, Nat.le_of_eq ?_⟩
    exact ops_nest hv none

/-- A text that starts with an operand does not start with a parenthesis around more than that. -/
theorem not_paren_of_first {x y : Expr} (hx : CExpr x) {us : List Tok}
    (hops : ops (sourceToks x) < T.term.ops)
    (h : (Tree.paren T).tokens ++ us = sourceToks (.binary op x y)) : False := by
  obtain ⟨t, ht⟩ := exists_reading hx
  rw [sourceToks, ← ht.tokens, parensIf_tokens] at h
  have hops' : ops (if nodePrec x < prec op then Tree.paren t else t).tokens <
      ops (Tree.paren T).tokens := by
    rw [← parensIf_tokens, ops_parensIf, ht.tokens, ops_tokens]
    exact hops
  have hfirst := List.prefix_append (if nodePrec x < prec op then Tree.paren t else t).tokens
    (.binary op :: parensIf (nodePrec y < prec op) (sourceToks y))
  rw [← h] at hfirst
  rcases List.prefix_or_prefix_of_prefix (List.prefix_append _ us) hfirst with hp | hp
  · exact absurd hops' (Nat.not_lt.2 (ops_le_of_isPrefix hp))
  · have hopen := (balanced_tokens T).open_before_end hp (tokens_ne_nil _) (fun he => by
      rw [he] at hops'
      exact absurd hops' (Nat.lt_irrefl _))
    rw [(balanced_tokens _).closed] at hopen
    exact absurd hopen (Nat.lt_irrefl _)

theorem ExactLeft.split (h : ExactLeft D) (hv : Valid D) (hD : D.Proper) {us : List Tok}
    (hT : T.Proper) (hterm : T.term = D.term) (hle : prec op ≤ D.rootPrec) (he : CExpr e)
    (htoks : T.tokens ++ .binary op :: us = sourceToks (nest D (some (op, e)))) :
    Printable D ∧ tightest D ≤ prec op ∧ T = wrap (prec op) (printed D) ∧
      us = parensIf (nodePrec e < prec op) (sourceToks e) := by
  obtain ⟨hpr, ht⟩ := h T op e us hT hterm hle he htoks
  rw [(written hv hD hpr).left op e hle ht] at htoks
  have hops : ops T.tokens = ops (wrap (prec op) (printed D)).tokens := by
    rw [ops_tokens, ops_tokens, term_wrap, term_printed hv hpr, hterm]
  obtain ⟨hT', hus⟩ := split_unique hops htoks
  exact ⟨hpr, ht, tokens_inj hT (Proper.wrap (proper_printed hpr)) hT', hus⟩

theorem exact_binary {l r : Tree} (hv : Valid (.binary op l r)) (hD : (Tree.binary op l r).Proper)
    (hl : ExactLeft l) (hr : Exact r) :
    Exact (.binary op l r) := by
  intro T hT hterm htoks
  obtain ⟨hlp, hrp, hl', hr'⟩ := hD
  have hop := prec_le op
  have hT12 : T.rootPrec < 12 := by
    obtain ⟨op₁, x, y, hnest, -, -⟩ := exists_first hv.1 op (nest r none)
    obtain ⟨t, ht⟩ := exists_reading (cExpr_nest_none hv)
    have hroot := ht.root 11 (Nat.le_refl 11)
    rw [nest, hnest, nodePrec, precedences_eq] at hroot
    have hop₁ := prec_le op₁
    rw [tokens_inj hT ht.proper (htoks.trans ht.tokens.symm)]
    omega
  obtain ⟨l', r', rfl, hlt, hrt⟩ := term_binary hterm hT12
  obtain ⟨-, hrr, hTl, hTr⟩ := hT
  obtain ⟨hprl, htl, -, hright⟩ := hl.split hv.1 hl' hTl hlt hlp (cExpr_nest_none hv.2) htoks
  obtain ⟨t, ht, hr't⟩ := exists_of_parensIf (cExpr_nest_none hv.2) hTr hright
  have hprr : Printable r := by
    refine hr t ht.proper ?_ ht.tokens
    rw [← hrt, hr't, term_parenIf]
  refine ⟨htl, fun heq => ?_, hprl, hprr⟩
  -- written without parentheses, the right operand would not be one
  have hroot : (printed r).rootPrec = prec op := by rw [rootPrec_printed, heq]
  have hlt := nodePrec_lt_iff hv.2 hr' hprr (p := prec op) (by omega)
  have htr : t = printed r :=
    tokens_inj ht.proper (proper_printed hprr) (ht.tokens.trans (written hv.2 hr' hprr).alone)
  rw [if_neg (by omega), htr] at hr't
  rw [hr't] at hrr
  omega

theorem exactLeft_binary {l r : Tree} (hv : Valid (.binary op l r))
    (hD : (Tree.binary op l r).Proper) (hl : ExactLeft l) (hr : ExactLeft r) :
    ExactLeft (.binary op l r) := by
  intro T op' e us hT hterm hle he htoks
  obtain ⟨hlp, hrp, hl', hr'⟩ := hD
  have hle : prec op' ≤ prec op := hle
  have hrest : CExpr (nest r (some (op', e))) := cExpr_nest hv.2 (by simpa using he)
  have hT12 : T.rootPrec < 12 := by
    cases T with
    | paren t =>
      obtain ⟨op₁, x, y, hnest, hx, hops⟩ := exists_first hv.1 op (nest r (some (op', e)))
      rw [nest, hnest] at htoks
      refine absurd htoks fun h => not_paren_of_first hx ?_ h
      rw [show t.term = (Tree.binary op l r).term from hterm, Tree.term, Term.ops]
      omega
    | binary op₁ l₁ r₁ =>
      have hop₁ := prec_le op₁
      show prec op₁ < 12
      omega
    | _ => cases hterm
  obtain ⟨l', r', rfl, hlt, hrt⟩ := term_binary hterm hT12
  obtain ⟨-, hrr, hTl, hTr⟩ := hT
  rw [Tree.tokens, List.append_assoc, List.cons_append, nest] at htoks
  obtain ⟨hprl, htl, -, hright⟩ := hl.split hv.1 hl' hTl hlt hlp hrest htoks
  have hopen : ¬ nodePrec (nest r (some (op', e))) < prec op := by
    -- the right operand would end before the parenthesis in front of it is closed
    intro hlt
    obtain ⟨t, ht⟩ := exists_reading hrest
    rw [parensIf, if_pos hlt, ← ht.tokens] at hright
    have hall : r'.tokens ≠ .lparen :: (t.tokens ++ [.rparen]) := by
      rw [← hright]
      simp
    have hcount := (balanced_tokens t).open_before_end (hright ▸ List.prefix_append _ _)
      (tokens_ne_nil r') hall
    have hclosed := (balanced_tokens r').closed
    omega
  rw [parensIf, if_neg hopen] at hright
  obtain ⟨hprr, htr, hr'w, -⟩ := hr.split hv.2 hr' hTr hrt (by omega) he hright
  rw [nodePrec_nest hr' hprr (by omega) htr] at hopen
  have heq : prec op' = prec op := by omega
  refine ⟨⟨htl, fun hcore => ?_, hprl, hprr⟩, ?_⟩
  · have hroot : (printed r).rootPrec = prec op := by rw [rootPrec_printed, hcore]
    rw [hr'w, wrap, if_neg (by omega)] at hrr
    omega
  · simp only [tightest]
    omega

theorem exact (hv : Valid D) (hD : D.Proper) : Exact D ∧ ExactLeft D := by
  have both {D : Tree} (h : Exact D) (hv : Valid D) (h11 : 11 ≤ D.rootPrec) :
      Exact D ∧ ExactLeft D := ⟨h, h.left hv h11⟩
  induction D with
  | num text => exact both (exact_num hv) hv (by simp [Tree.rootPrec])
  | ident name | defined parens name =>
    exact both (fun _ _ _ _ => trivial) hv (by simp [Tree.rootPrec])
  | paren t ih => exact both (ih hv hD).1 hv (by simp [Tree.rootPrec])
  | unary op t ih => exact both (exact_unary hv (ih hv hD.2).1) hv (by simp [Tree.rootPrec])
  | binary op l r ihl ihr =>
    have hl := ihl hv.1 hD.2.2.1
    have hr := ihr hv.2 hD.2.2.2
    exact ⟨exact_binary hv hD hl.2 hr.1, exactLeft_binary hv hD hl.2 hr.2⟩

/-! ## Parsing and printing -/

/-- The printed text is the condition `D` with another layout. -/
def KeepsTerm (tokens : List Token) (D : Tree) : Prop :=
  ∃ text ts T, cppSource tokens = .ok text ∧ lex text = some ts ∧ parse ts = some T ∧
    T.term = D.term

/-- The printed text has the value of the condition `ts`, whatever the macros are. -/
def KeepsMeaning (tokens : List Token) (ts : List Tok) : Prop :=
  ∃ text ts', cppSource tokens = .ok text ∧ lex text = some ts' ∧
    ∀ env, value env ts' = value env ts

theorem cppSource_eq {tokens : List Token} (h : cTokens tokens = some D.tokens) (hD : D.Proper) :
    cppSource tokens = .ok (sourceNode (nest D none)) ∧
      lex (sourceNode (nest D none)) = some (sourceToks (nest D none)) := by
  have hv : Valid D := valid_of_cTokens h fun _ hc => hc
  refine ⟨by rw [cppSource, cppExpr_eq h hD]; rfl, ?_⟩
  have hlex := lexes_sourceNode (cExpr_nest_none hv) [] (by simp [Delimited])
  simpa [lex, lexFrom, flush] using hlex

def onLine (toks : List (TokenId × String)) : List Token := toks.map fun t => ⟨t.1, t.2, 1, 1⟩

/-- The tokens have one value without macros, and the text that is printed for them has another. -/
def ChangesValue (tokens : List Token) (text : String) (before after : Int) : Prop :=
  before ≠ after ∧ cppSource tokens = .ok text ∧
    (cTokens tokens).bind (value fun _ => none) = some ⟨false, BitVec.ofInt 64 before⟩ ∧
    (lex text).bind (value fun _ => none) = some ⟨false, BitVec.ofInt 64 after⟩

end Cpp
