import GitTest.Cpp.Reading

/-!
# What `source_node` writes

`sourceToks` are the C tokens of a printed tree, and the text is split into just these
(`lexes_sourceNode`).  A condition is `Printable` if

  * its constants keep their value when they are written without suffix, octal ones in decimal;
  * it has no `~`, which is written as `!`;
  * no operator in the left operand of an operator binds tighter;
  * no right operand is a parenthesised operator of the same precedence.

Then the text is read as the tree `printed`, which is the condition up to parentheses.
-/

namespace Cpp

open CGrammar CInt List

/-! ## The tokens of the text -/

theorem precedences_eq (op : BinaryOp) : precedences op = prec op := by
  cases op <;> rfl

def parensIf (p : Prop) [Decidable p] (ts : List Tok) : List Tok :=
  if p then .lparen :: (ts ++ [.rparen]) else ts

def sourceToks : Expr → List Tok
  | .int n => [.num (formatInt 10 n)]
  | .hex n => [.num ("0x" ++ formatInt 16 n)]
  | .ident name => [.ident name]
  | .defined name => [.defined, .lparen, .ident name, .rparen]
  | .unary op e => .unary .not :: parensIf (nodePrec e < nodePrec (.unary op e)) (sourceToks e)
  | .binary op l r =>
    parensIf (nodePrec l < prec op) (sourceToks l) ++
      .binary op :: parensIf (nodePrec r < prec op) (sourceToks r)
  | .string _ | .call _ _ => []

/-- The trees that the parser makes of C conditions. -/
def CExpr : Expr → Prop
  | .int n | .hex n => 0 ≤ n
  | .ident name | .defined name => isIdentifier name = true
  | .unary _ e => CExpr e
  | .binary _ l r => CExpr l ∧ CExpr r
  | .string _ | .call _ _ => False

variable {name s text : String} {ts : List Tok} {p : Nat} {e : Expr} {D : Tree} {toks : List Token}
  {op : BinaryOp}

theorem isIdentifier_iff : isIdentifier name = true ↔
    name.toList ≠ [] ∧ (∀ c ∈ name.toList, isWordChar c = true) ∧
      name.toList.head?.any Char.isDigit = false ∧ name ≠ "defined" := by
  simp [isIdentifier]

theorem lexes_identifier (h : isIdentifier name = true) :
    Lexes name.toList [.ident name] := by
  obtain ⟨hne, hw, hd, hdef⟩ := isIdentifier_iff.1 h
  have hword : word name.toList = .ident name := by
    have hne' : name.toList ≠ "defined".toList := fun he => hdef (String.toList_inj.1 he)
    rw [word, hd, if_neg Bool.false_ne_true, if_neg hne', String.ofList_toList]
  rw [← hword]
  exact lexes_word hne hw

theorem lexes_number {c : Char} {cs : List Char} (hs : s.toList = c :: cs) (hc : c.isDigit = true)
    (hall : ∀ x ∈ s.toList, isWordChar x = true) :
    Lexes s.toList [.num s] := by
  have hword : word s.toList = .num s := by
    rw [word, if_pos (by simp [hs, hc]), String.ofList_toList]
  rw [← hword]
  exact lexes_word (by simp [hs]) hall

section
variable {b : Nat} {n : Int} (h : 0 ≤ n)
include h

theorem formatInt_toList : (formatInt b n).toList = writeDigits b n.toNat := by
  rw [formatInt, if_pos h, String.toList_ofList]

theorem formatInt_ne_nil : (formatInt b n).toList ≠ [] := by
  rw [formatInt_toList h]
  exact writeDigits_ne_nil b _

theorem isWordChar_of_mem_formatInt (hb : 2 ≤ b) (hb' : b ≤ 16) :
    ∀ c ∈ (formatInt b n).toList, isWordChar c = true := by
  intro c hc
  rw [formatInt_toList h] at hc
  obtain ⟨d, hd, rfl⟩ := exists_digit_of_mem hb hb' hc
  exact isWordChar_digitChar d (by omega)

theorem lexes_int : Lexes (formatInt 10 n).toList [.num (formatInt 10 n)] := by
  obtain ⟨c, cs, hcs⟩ := exists_cons_of_ne_nil (formatInt_ne_nil h)
  have hc : c.isDigit = true := by
    have hall : ∀ d < 10, (Nat.digitChar d).isDigit = true := by decide
    have hmem : c ∈ writeDigits 10 n.toNat := by
      rw [← formatInt_toList h, hcs]
      exact mem_cons_self
    obtain ⟨d, hd, rfl⟩ := exists_digit_of_mem (by decide) (by decide) hmem
    exact hall d hd
  exact lexes_number hcs hc (isWordChar_of_mem_formatInt h (by decide) (by decide))

theorem lexes_hex : Lexes ("0x" ++ formatInt 16 n).toList [.num ("0x" ++ formatInt 16 n)] := by
  have hcs : ("0x" ++ formatInt 16 n).toList = '0' :: 'x' :: (formatInt 16 n).toList := by
    rw [String.toList_append]
    rfl
  refine lexes_number hcs (by decide) ?_
  rw [hcs]
  exact forall_mem_cons.2 ⟨by decide, forall_mem_cons.2 ⟨by decide,
    isWordChar_of_mem_formatInt h (by decide) (by decide)⟩⟩

end

theorem lexFrom_binaryText (op : BinaryOp) (cs : List Char) :
    lexFrom 0 [] (' ' :: ((binaryText op).toList ++ ' ' :: cs)) =
      (lexFrom 0 [] cs).map (.binary op :: ·) := by
  have hnil : flush [] = [] := rfl
  cases op <;> simp [binaryText, lexFrom, isWordChar, symbol, hnil, Function.comp_def]

theorem lexes_binary {s s' : List Char} {ts' : List Tok} (op : BinaryOp) (h : Lexes s ts)
    (h' : Lexes s' ts') :
    Lexes (s ++ ' ' :: ((binaryText op).toList ++ ' ' :: s')) (ts ++ .binary op :: ts') := by
  intro cs hcs
  rw [append_assoc, cons_append, append_assoc, cons_append,
    h _ (delimited_space _), lexFrom_binaryText, h' cs hcs]
  simp [Option.map_map, Function.comp_def]

theorem lexes_parensIf {p : Prop} [Decidable p] (h : Lexes s.toList ts) :
    Lexes (if p then "(" ++ s ++ ")" else s).toList (parensIf p ts) := by
  unfold parensIf
  split
  · simpa using h.paren
  · exact h

/-- No printed tree starts with `=`, which would turn a `!` in front of it into `!=`. -/
def Starts (s : String) : Prop := s.toList ≠ [] ∧ s.toList.head? ≠ some '='

theorem starts_word (hne : s.toList ≠ []) (hs : ∀ c ∈ s.toList, isWordChar c = true) :
    Starts s := by
  refine ⟨hne, fun h => ?_⟩
  have hw := hs '=' (mem_of_mem_head? h)
  revert hw
  decide

theorem Starts.append (h : Starts s) (s' : String) : Starts (s ++ s') := by
  rw [Starts, String.toList_append, head?_append_of_ne_nil _ h.1]
  exact ⟨by simp [h.1], h.2⟩

theorem Starts.parensIf {p : Prop} [Decidable p] (h : Starts s) :
    Starts (if p then "(" ++ s ++ ")" else s) := by
  split
  · have hparen : Starts "(" := by simp [Starts]
    exact (hparen.append s).append ")"
  · exact h

theorem starts_sourceNode (h : CExpr e) : Starts (sourceNode e) := by
  induction e with
  | int n =>
    exact starts_word (formatInt_ne_nil h) (isWordChar_of_mem_formatInt h (by decide) (by decide))
  | hex n =>
    have hzero : Starts "0x" := by simp [Starts]
    exact hzero.append _
  | ident name => exact starts_word (isIdentifier_iff.1 h).1 (isIdentifier_iff.1 h).2.1
  | defined name =>
    have hdefined : Starts "defined(" := by simp [Starts]
    exact (hdefined.append _).append _
  | unary op e ih =>
    have hnot : Starts "!" := by simp [Starts]
    have hnot' : Starts "!(" := by simp [Starts]
    rw [sourceNode]
    split
    · exact (hnot'.append _).append _
    · exact hnot.append _
  | binary op l r ihl ihr =>
    exact ((((ihl h.1).parensIf.append _).append _).append _).append _
  | string value | call name params => exact absurd h id

theorem lexes_sourceNode (h : CExpr e) : Lexes (sourceNode e).toList (sourceToks e) := by
  induction e with
  | int n => exact lexes_int h
  | hex n => exact lexes_hex h
  | ident name => exact lexes_identifier h
  | defined name =>
    have hword : "defined".toList.all isWordChar = true := by decide
    have hdefined : Lexes "defined".toList [.defined] :=
      lexes_word (by simp) (all_eq_true.1 hword)
    have happly := hdefined.apply (lexes_identifier h)
    simpa [sourceNode, sourceToks] using happly
  | unary op e ih =>
    have hsrc : (sourceNode (.unary op e)).toList = '!' :: (if nodePrec e < nodePrec (.unary op e)
        then "(" ++ sourceNode e ++ ")" else sourceNode e).toList := by
      rw [sourceNode]
      split <;> simp
    have hstarts := Starts.parensIf (p := nodePrec e < nodePrec (.unary op e))
      (starts_sourceNode (e := e) h)
    rw [hsrc]
    exact (lexes_parensIf (ih h)).not hstarts.1 hstarts.2
  | binary op l r ihl ihr =>
    have hboth := lexes_binary op (lexes_parensIf (ihl h.1) (p := nodePrec l < precedences op))
      (lexes_parensIf (ihr h.2) (p := nodePrec r < precedences op))
    simpa [sourceNode, sourceToks, precedences_eq] using hboth
  | string value | call name params => exact absurd h id

/-! ## Conditions that survive -/

/-- The tree without the parentheses around it. -/
def core : Tree → Tree
  | .paren t => core t
  | .num text => .num text
  | .ident name => .ident name
  | .defined parens name => .defined parens name
  | .unary op t => .unary op t
  | .binary op l r => .binary op l r

/-- The tightest binary operator outside parentheses, 0 without one. -/
def tightest : Tree → Nat
  | .binary op l r => max (prec op) (max (tightest l) (tightest r))
  | .num _ | .ident _ | .defined _ _ | .paren _ | .unary _ _ => 0

/-- A constant that has the same value when it is written back. -/
def KeepsValue (c : Constant) : Prop :=
  (c.base = 8 → c.n < 8) ∧ (c.u = true → c.base = 16 ∧ 2 ^ 63 ≤ c.n)

def Printable : Tree → Prop
  | .num text => ∀ c ∈ readConstant text.toList, KeepsValue c
  | .ident _ | .defined _ _ => True
  | .paren t => Printable t
  | .unary op t => op = .not ∧ Printable t
  | .binary op l r =>
    tightest l ≤ prec op ∧ (core r).rootPrec ≠ prec op ∧ Printable l ∧ Printable r

instance : DecidablePred KeepsValue := fun c =>
  inferInstanceAs (Decidable ((c.base = 8 → c.n < 8) ∧ (c.u = true → c.base = 16 ∧ 2 ^ 63 ≤ c.n)))

instance decidablePrintable : (t : Tree) → Decidable (Printable t)
  | .num text => inferInstanceAs (Decidable (∀ c ∈ readConstant text.toList, KeepsValue c))
  | .ident _ | .defined _ _ => inferInstanceAs (Decidable True)
  | .paren t => decidablePrintable t
  | .unary op t =>
    have := decidablePrintable t
    inferInstanceAs (Decidable (op = .not ∧ Printable t))
  | .binary op l r =>
    have := decidablePrintable l
    have := decidablePrintable r
    inferInstanceAs (Decidable (tightest l ≤ prec op ∧ (core r).rootPrec ≠ prec op ∧
      Printable l ∧ Printable r))

def wrap (p : Nat) (t : Tree) : Tree := if t.rootPrec < p then .paren t else t

/-- The tree of the text. -/
def printed : Tree → Tree
  | .num text => .num (sourceNode (numExpr text))
  | .ident name => .ident name
  | .defined _ name => .defined true name
  | .paren t => printed t
  | .unary _ t => .unary .not (wrap 11 (printed t))
  | .binary op l r => .binary op (wrap (prec op) (printed l)) (wrap (prec op) (printed r))

theorem rootPrec_printed (D : Tree) : (printed D).rootPrec = (core D).rootPrec := by
  induction D with
  | paren t ih => exact ih
  | _ => rfl

theorem le_rootPrec_wrap (hp : p ≤ 12) (t : Tree) : p ≤ (wrap p t).rootPrec := by
  unfold wrap
  split
  · exact hp
  · next h => exact Nat.le_of_not_lt h

theorem Proper.wrap {t : Tree} (h : t.Proper) : (wrap p t).Proper := by
  unfold Cpp.wrap
  split
  · exact h
  · exact h

theorem term_wrap (p : Nat) (t : Tree) : (wrap p t).term = t.term := by
  unfold wrap
  split <;> rfl

theorem tokens_wrap (p : Nat) (t : Tree) :
    (wrap p t).tokens = parensIf (t.rootPrec < p) t.tokens := by
  unfold wrap parensIf
  split <;> rfl

/-- The text is read as `printed`: a right operand of the same precedence would be taken from the
operator in front of it, but there is none. -/
theorem proper_printed (h : Printable D) : (printed D).Proper := by
  induction D with
  | num text | ident name | defined parens name => trivial
  | paren t ih => exact ih h
  | unary op t ih => exact ⟨le_rootPrec_wrap (by decide) _, Proper.wrap (ih h.2)⟩
  | binary op l r ihl ihr =>
    obtain ⟨-, hne, hl, hr⟩ := h
    have hop := prec_le op
    have hright := le_rootPrec_wrap (p := prec op) (by omega) (printed r)
    have hright' : (wrap (prec op) (printed r)).rootPrec ≠ prec op := by
      unfold wrap
      split
      · show 12 ≠ prec op
        omega
      · rwa [rootPrec_printed]
    exact ⟨le_rootPrec_wrap (by omega) _, by omega, Proper.wrap (ihl hl), Proper.wrap (ihr hr)⟩

/-! ## Constants -/

theorem constantValue_hex (n : Nat) :
    constantValue (sourceNode (.hex n)) = constant false false n := by
  have htext : (sourceNode (.hex n)).toList = '0' :: 'x' :: writeDigits 16 n := by
    rw [sourceNode, String.toList_append, formatInt_toList (Int.natCast_nonneg n)]
    rfl
  rw [constantValue, htext, readConstant_hexadecimal]
  rfl

theorem constantValue_int (n : Nat) :
    constantValue (sourceNode (.int n)) = constant true false n := by
  have htext : (sourceNode (.int n)).toList = writeDigits 10 n := by
    rw [sourceNode, formatInt_toList (Int.natCast_nonneg n), Int.toNat_natCast]
  rw [constantValue, htext, readConstant_decimal]
  split
  · next hn =>
    subst hn
    rfl
  · rfl

theorem constant_hex_iff {u : Bool} {n : Nat} (h : (constant false u n).isSome) :
    constant false false n = constant false u n ↔ (u = true → 2 ^ 63 ≤ n) := by
  cases u with
  | false => simp
  | true =>
    obtain ⟨hv, -⟩ := constant_unsigned h (.inl rfl)
    by_cases hn : n < 2 ^ 63
    · rw [hv, constant_signed hn]
      refine ⟨fun he => (by cases he), fun hle => ?_⟩
      have hle := hle rfl
      omega
    · refine ⟨fun _ _ => by omega, fun _ => ?_⟩
      unfold constant
      simp only [hn, false_and, if_false, Bool.true_eq_false, and_false, or_true]

theorem constant_dec_iff {decimal u : Bool} {n m : Nat} (h : (constant decimal u n).isSome)
    (hm : decimal = false → m = n → n < 8) :
    constant true false m = constant decimal u n ↔ u = false ∧ m = n := by
  have hnone {v : Value} (hv : constant true false m = some v) : m < 2 ^ 63 := by
    by_contra hge
    have := (constant_unsigned (by rw [hv]; rfl) (.inr (Nat.le_of_not_lt hge))).2
    simp at this
  by_cases hs : u = false ∧ n < 2 ^ 63
  · obtain ⟨rfl, hn⟩ := hs
    rw [constant_signed hn]
    constructor
    · intro he
      have hlt := hnone he
      rw [constant_signed hlt, Option.some.injEq, Value.mk.injEq] at he
      have hnat := congrArg BitVec.toNat he.2
      rw [BitVec.toNat_ofNat, BitVec.toNat_ofNat] at hnat
      exact ⟨rfl, by omega⟩
    · rintro ⟨-, rfl⟩
      exact constant_signed hn true
  · have hn : u = true ∨ 2 ^ 63 ≤ n := by
      cases u with
      | true => exact .inl rfl
      | false => exact .inr (Nat.le_of_not_lt fun hlt => hs ⟨rfl, hlt⟩)
    obtain ⟨hv, hd⟩ := constant_unsigned h hn
    rw [hv]
    constructor
    · intro he
      rw [constant_signed (hnone he)] at he
      cases he
    · rintro ⟨rfl, rfl⟩
      have := hm (by simpa using hd) rfl
      simp at hn
      omega

/-- A constant is written with the same value just if it keeps it. -/
theorem constantValue_numExpr (h : (constantValue text).isSome) :
    constantValue (sourceNode (numExpr text)) = constantValue text ↔
      ∀ c ∈ readConstant text.toList, KeepsValue c := by
  obtain ⟨v, hv⟩ := Option.isSome_iff_exists.1 h
  obtain ⟨c, hc, hcv⟩ := Option.bind_eq_some_iff.1 hv
  have hval : constantValue text = constant (c.base = 10) c.u c.n := by
    rw [constantValue, hc]
    rfl
  have hall : (∀ c ∈ readConstant text.toList, KeepsValue c) ↔ KeepsValue c := by
    rw [hc]
    simp
  rw [hval] at h
  rw [hval, hall]
  rcases number_cases hc with ⟨hb, hdec, hhex⟩ | ⟨hb, m, hdec, h8⟩
  · have hnum : numExpr text = .hex c.n := by
      rw [numExpr, hdec, hhex]
      rfl
    have hb10 : decide (c.base = 10) = false := by simp [hb]
    rw [hb10] at h ⊢
    rw [hnum, constantValue_hex, constant_hex_iff h]
    simp [KeepsValue, hb]
  · have hnum : numExpr text = .int m := by rw [numExpr, hdec]
    have hb16 : c.base ≠ 16 := by omega
    have hm : decide (c.base = 10) = false → m = c.n → c.n < 8 := by
      intro h10 hmn
      exact h8.2 hmn (by simp at h10; omega)
    rw [hnum, constantValue_int, constant_dec_iff h hm, ← h8]
    simp [KeepsValue, hb16, and_comm]

/-! ## The text of a tree of the parser -/

/-- Constants have a value, and names are identifiers. -/
def Valid : Tree → Prop
  | .num text => (constantValue text).isSome = true
  | .ident name | .defined _ name => isIdentifier name = true
  | .paren t | .unary _ t => Valid t
  | .binary _ l r => Valid l ∧ Valid r

theorem isSome_of_cTokens (h : cTokens toks = some ts) (hmem : .num text ∈ ts) :
    (constantValue text).isSome = true := by
  obtain ⟨t, ht⟩ := exists_cToken h hmem
  exact (value_of_cToken_num ht).2

theorem isIdentifier_of_cTokens (h : cTokens toks = some ts) (hmem : .ident name ∈ ts) :
    isIdentifier name = true := by
  obtain ⟨t, ht⟩ := exists_cToken h hmem
  exact (value_of_cToken_ident ht).2

theorem valid_of_cTokens (h : cTokens toks = some ts) (hD : ∀ c ∈ D.tokens, c ∈ ts) : Valid D := by
  induction D with
  | num text => exact isSome_of_cTokens h (hD _ (by simp [Tree.tokens]))
  | ident name => exact isIdentifier_of_cTokens h (hD _ (by simp [Tree.tokens]))
  | defined parens name =>
    refine isIdentifier_of_cTokens h (hD _ ?_)
    cases parens <;> simp [Tree.tokens]
  | paren _ ih | unary _ _ ih => exact ih fun c hc => hD c (by simp [Tree.tokens, hc])
  | binary op l r ihl ihr =>
    exact ⟨ihl fun c hc => hD c (by simp [Tree.tokens, hc]),
      ihr fun c hc => hD c (by simp [Tree.tokens, hc])⟩

theorem exists_numExpr (h : (constantValue text).isSome) :
    ∃ n : Nat, numExpr text = .hex n ∨ numExpr text = .int n := by
  obtain ⟨v, hv⟩ := Option.isSome_iff_exists.1 h
  obtain ⟨c, hc, -⟩ := Option.bind_eq_some_iff.1 hv
  rcases number_cases hc with ⟨-, hdec, hhex⟩ | ⟨-, m, hdec, -⟩
  · refine ⟨c.n, .inl ?_⟩
    rw [numExpr, hdec, hhex]
    rfl
  · refine ⟨m, .inr ?_⟩
    rw [numExpr, hdec]

theorem cExpr_attach {k : Option (BinaryOp × Expr)} (he : CExpr e) (hk : ∀ p ∈ k, CExpr p.2) :
    CExpr (attach e k) := by
  cases k with
  | none => exact he
  | some p => exact ⟨he, hk p rfl⟩

theorem cExpr_nest (h : Valid D) {k : Option (BinaryOp × Expr)} (hk : ∀ p ∈ k, CExpr p.2) :
    CExpr (nest D k) := by
  have hnone : ∀ p ∈ (none : Option (BinaryOp × Expr)), CExpr p.2 := by simp
  induction D generalizing k with
  | num text =>
    refine cExpr_attach ?_ hk
    obtain ⟨n, hn | hn⟩ := exists_numExpr h
    · rw [hn]
      exact Int.natCast_nonneg n
    · rw [hn]
      exact Int.natCast_nonneg n
  | ident name | defined parens name => exact cExpr_attach h hk
  | paren t ih => exact cExpr_attach (ih h hnone) hk
  | unary op t ih =>
    have ht : CExpr (nest t none) := ih h hnone
    exact cExpr_attach ht hk
  | binary op l r ihl ihr =>
    refine ihl h.1 ?_
    intro p hp
    cases hp
    exact ihr h.2 hk

/-- The operators of a left operand bind as tight as the one behind it, so the first of them is
that of the node. -/
theorem nodePrec_nest (hD : D.Proper) (hpr : Printable D) (hle : prec op ≤ D.rootPrec)
    (ht : tightest D ≤ prec op) :
    nodePrec (nest D (some (op, e))) = prec op := by
  induction D generalizing op e with
  | binary op' l r ihl ihr =>
    obtain ⟨hl, -, hpl, -⟩ := hD
    obtain ⟨htl, -, hprl, -⟩ := hpr
    simp only [Tree.rootPrec, tightest] at hle ht
    rw [nest, ihl hpl hprl hl htl]
    omega
  | _ => exact precedences_eq op

theorem nodePrec_lt_iff (hv : Valid D) (hD : D.Proper) (hpr : Printable D) (hp : p ≤ 11) :
    nodePrec (nest D none) < p ↔ (printed D).rootPrec < p := by
  induction D with
  | num text =>
    have h12 : ¬ (printed (.num text)).rootPrec < p := by
      show ¬ 12 < p
      omega
    obtain ⟨n, hn | hn⟩ := exists_numExpr hv <;>
    · simp only [nest, attach, hn, nodePrec, h12, iff_false]
      omega
  | ident name | defined parens name =>
    simp only [nest, attach, nodePrec, printed, Tree.rootPrec]
    omega
  | paren t ih => exact ih hv hD hpr
  | unary op t ih =>
    obtain ⟨rfl, -⟩ := hpr
    rfl
  | binary op l r ihl ihr =>
    obtain ⟨hl, -, hpl, -⟩ := hD
    obtain ⟨htl, -, hprl, -⟩ := hpr
    rw [nest, nodePrec_nest hpl hprl hl htl]
    rfl

theorem sourceToks_attach {e' : Expr} {t : Tree} (htoks : sourceToks e = t.tokens)
    (hlt : nodePrec e < prec op ↔ t.rootPrec < prec op) :
    sourceToks (attach e (some (op, e'))) = (wrap (prec op) t).tokens ++
      .binary op :: parensIf (nodePrec e' < prec op) (sourceToks e') := by
  rw [attach, sourceToks, tokens_wrap, htoks]
  simp only [parensIf, hlt]

/-- Alone the tree is written as `printed`; as the left operand of an operator it is followed by
that operator, with no parenthesis open. -/
structure Written (D : Tree) : Prop where
  alone : sourceToks (nest D none) = (printed D).tokens
  left : ∀ op e, prec op ≤ D.rootPrec → tightest D ≤ prec op →
    sourceToks (nest D (some (op, e))) = (wrap (prec op) (printed D)).tokens ++
      .binary op :: parensIf (nodePrec e < prec op) (sourceToks e)

theorem written_operand (hv : Valid D) (hD : D.Proper) (hpr : Printable D) (h11 : 11 ≤ D.rootPrec)
    (h : sourceToks (nest D none) = (printed D).tokens) : Written D := by
  refine ⟨h, fun op e _ _ => ?_⟩
  have hop := prec_le op
  rw [nest_eq_attach h11]
  exact sourceToks_attach h (nodePrec_lt_iff hv hD hpr (by omega))

theorem written_binary {l r : Tree} (hv : Valid r) (hD : (Tree.binary op l r).Proper)
    (hpr : Printable (.binary op l r)) (hwl : Written l) (hwr : Written r) :
    Written (.binary op l r) := by
  obtain ⟨hl, hr, -, hr'⟩ := hD
  obtain ⟨htl, -, -, hprr⟩ := hpr
  have hop := prec_le op
  refine ⟨?_, fun op' e hle ht => ?_⟩
  · have hlt := nodePrec_lt_iff hv hr' hprr (p := prec op) (by omega)
    rw [nest, hwl.left _ _ hl htl, hwr.alone, printed, Tree.tokens, tokens_wrap _ (printed r)]
    simp only [parensIf, hlt]
  · -- the operator behind the tree has its precedence, and the right operand has no operator
    simp only [Tree.rootPrec, tightest] at hle ht
    have heq : prec op = prec op' := by omega
    have hnode : ¬ nodePrec (nest r (some (op', e))) < prec op := by
      rw [nodePrec_nest hr' hprr (by omega) (by omega)]
      omega
    have hwrap : wrap (prec op') (printed (.binary op l r)) = printed (.binary op l r) := by
      rw [wrap, if_neg]
      show ¬ prec op < prec op'
      omega
    rw [nest, hwl.left _ _ hl htl, parensIf, if_neg hnode, hwr.left _ _ (by omega) (by omega), hwrap,
      printed, Tree.tokens, heq]
    simp

theorem written (hv : Valid D) (hD : D.Proper) (hpr : Printable D) : Written D := by
  induction D with
  | num text =>
    refine written_operand hv hD hpr (by simp [Tree.rootPrec]) ?_
    obtain ⟨n, hn | hn⟩ := exists_numExpr hv
    · simp [nest, attach, printed, Tree.tokens, hn, sourceToks, sourceNode]
    · simp [nest, attach, printed, Tree.tokens, hn, sourceToks, sourceNode]
  | ident name | defined parens name =>
    exact written_operand hv hD hpr (by simp [Tree.rootPrec]) rfl
  | paren t ih => exact written_operand hv hD hpr (by simp [Tree.rootPrec]) (ih hv hD hpr).alone
  | unary op t ih =>
    refine written_operand hv hD hpr (by simp [Tree.rootPrec]) ?_
    obtain ⟨rfl, hprt⟩ := hpr
    have hlt := nodePrec_lt_iff (D := t) hv hD.2 hprt (Nat.le_refl 11)
    have hnot : nodePrec (.unary .not (nest t none)) = 11 := rfl
    rw [nest, attach, sourceToks, (ih hv hD.2 hprt).alone, printed, Tree.tokens, tokens_wrap]
    simp only [parensIf, hnot, hlt]
  | binary op l r ihl ihr =>
    exact written_binary hv.2 hD hpr (ihl hv.1 hD.2.2.1 hpr.2.2.1) (ihr hv.2 hD.2.2.2 hpr.2.2.2)

theorem term_printed (hv : Valid D) (hpr : Printable D) : (printed D).term = D.term := by
  induction D with
  | num text => rw [printed, Tree.term, (constantValue_numExpr hv).2 hpr, Tree.term]
  | ident name | defined parens name => rfl
  | paren t ih => exact ih hv hpr
  | unary op t ih =>
    obtain ⟨rfl, hprt⟩ := hpr
    rw [printed, Tree.term, term_wrap, ih hv hprt, Tree.term]
  | binary op l r ihl ihr =>
    obtain ⟨-, -, hprl, hprr⟩ := hpr
    rw [printed, Tree.term, term_wrap, term_wrap, ihl hv.1 hprl, ihr hv.2 hprr, Tree.term]

end Cpp
