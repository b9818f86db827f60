import GitTest.Cpp.Parse
import GitTest.Cpp.Tokenizer

/-!
# When folding a condition raises

`int_node` asks whether the second component of a node is `"hex"`, and for a name it is the name.
`optimize_node` tests the folded operands of `&&` and `||`, so it raises where one of them is the
name `hex` itself; a fold never gives this name unless it was there already.

    `optimize_node` and `toInt` return ↔ no operand of `&&` or `||` that folding comes to is the
      name `hex` or an unknown `defined(hex)`, and the tree is neither  (fold_returns_iff)
-/

namespace Cpp

open CInt

/-! ## What it is for -/

/-- The second component is the text `hex`. -/
def NamesHex : Expr → Prop
  | .ident name | .defined name | .string name => name = "hex"
  | .int _ | .hex _ | .call _ _ | .unary _ _ | .binary _ _ _ => False

/-- A name `hex` that is not folded: the macro map does not know it. -/
def LeftHex (macros : String → Option String) (e : Expr) : Prop :=
  NamesHex e ∧ ∀ name, e = .defined name → macros name = none

/-- Folding goes into `!`, `&&` and `||`. -/
def Foldable (macros : String → Option String) : Expr → Prop
  | .unary .not e => Foldable macros e
  | .binary .land l r | .binary .lor l r =>
    (Foldable macros l ∧ ¬ LeftHex macros l) ∧ Foldable macros r ∧ ¬ LeftHex macros r
  | _ => True

/-! ## Proof -/

section
variable {macros : String → Option String} {e e' l r : Expr}

theorem intNode_returns_iff : (∃ n, intNode e = .ok n) ↔ ¬ NamesHex e := by
  cases e with
  | int n | hex n | call s p | unary op e | binary op l r => simp [intNode, NamesHex]
  | ident name | defined name | string name =>
    show (∃ n, (if name = "hex" then _ else _) = _) ↔ ¬ name = "hex"
    split
    · next h => simp [h]
    · next h => simp [h]

/-- `&&` and `||` fold if both operands do and the test of each result returns. -/
theorem optimizeNode_logical_iff {op : BinaryOp} (hop : op = .land ∨ op = .lor) :
    (∃ e', optimizeNode macros (.binary op l r) = .ok e') ↔
      (∃ l', optimizeNode macros l = .ok l' ∧ ¬ NamesHex l') ∧
      ∃ r', optimizeNode macros r = .ok r' ∧ ¬ NamesHex r' := by
  simp only [← intNode_returns_iff]
  constructor
  · rintro ⟨e', h⟩
    rcases hop with rfl | rfl <;>
    · obtain ⟨l', hl, h⟩ := bind_ok h
      obtain ⟨r', hr, h⟩ := bind_ok h
      obtain ⟨li, hli, h⟩ := bind_ok h
      obtain ⟨ri, hri, -⟩ := bind_ok h
      exact ⟨⟨l', hl, li, hli⟩, r', hr, ri, hri⟩
  · rintro ⟨⟨l', hl, li, hli⟩, r', hr, ri, hri⟩
    rcases hop with rfl | rfl
    · unfold optimizeNode
      rw [hl, hr]
      show ∃ e', (intNode l' >>= fun _ => _) = _
      rw [hli]
      show ∃ e', (intNode r' >>= fun _ => _) = _
      rw [hri]
      cases li with
      | none => exact ⟨_, rfl⟩
      | some n => exact ⟨_, (apply_ite Except.ok _ _ _).symm⟩
    · unfold optimizeNode
      rw [hl, hr]
      show ∃ e', (intNode l' >>= fun _ => _) = _
      rw [hli]
      show ∃ e', (intNode r' >>= fun _ => _) = _
      rw [hri]
      cases li with
      | none =>
        cases ri with
        | none => exact ⟨_, rfl⟩
        | some n => exact ⟨_, (apply_ite Except.ok _ _ _).symm⟩
      | some n => exact ⟨_, (apply_ite Except.ok _ _ _).symm⟩

/-- What folds to one of its parts has been tested, so it is not the name `hex`. -/
theorem optimizeNode_logical_not {op : BinaryOp} (hop : op = .land ∨ op = .lor)
    (h : optimizeNode macros (.binary op l r) = .ok e') : ¬ NamesHex e' := by
  obtain ⟨⟨l', hl, hlhex⟩, r', hr, hrhex⟩ := (optimizeNode_logical_iff hop).1 ⟨e', h⟩
  rcases hop with rfl | rfl
  · rcases optimizeNode_land h with rfl | ⟨n, r'', -, hr'', rfl⟩
    · exact id
    · cases hr.symm.trans hr''
      split
      · exact id
      · exact hrhex
  · rcases optimizeNode_lor h with rfl | ⟨n, r'', -, hr'', rfl⟩ | ⟨l'', n, hl'', -, rfl⟩
    · exact id
    · cases hr.symm.trans hr''
      split
      · exact hrhex
      · exact id
    · cases hl.symm.trans hl''
      split
      · exact hlhex
      · exact id

theorem optimizeNode_defined {name : String} (h : optimizeNode macros (.defined name) = .ok e') :
    NamesHex e' ↔ name = "hex" ∧ macros name = none := by
  unfold optimizeNode at h
  split at h
  · next v hv =>
    rw [ite_ok h, hv]
    split <;> simp [NamesHex]
  · next hnone =>
    rw [ite_ok h, hnone]
    split
    · next hc =>
      have hne : name ≠ "hex" := by
        rintro rfl
        exact absurd hc.2 (by decide)
      simp [NamesHex, hne]
    · simp [NamesHex]

/-- The result of a fold has the name `hex` only if the tree has it. -/
theorem optimizeNode_namesHex (h : optimizeNode macros e = .ok e') :
    NamesHex e' ↔ LeftHex macros e := by
  cases e with
  | int n | hex n | ident s | string s | call s p =>
    cases h
    simp [LeftHex]
  | defined name =>
    rw [optimizeNode_defined h]
    simp [LeftHex, NamesHex]
  | unary op e =>
    have hnot : ¬ NamesHex e' := by
      cases op with
      | compl =>
        cases h
        exact id
      | not =>
        rcases optimizeNode_not h with rfl | ⟨n, -, rfl⟩
        · exact id
        · split <;> exact id
    exact iff_of_false hnot fun hleft => hleft.1
  | binary op l r =>
    have hnot : ¬ NamesHex e' := by
      by_cases hop : op = .land ∨ op = .lor
      · exact optimizeNode_logical_not hop h
      · rw [not_or] at hop
        have hself : optimizeNode macros (.binary op l r) = .ok (.binary op l r) := by
          cases op <;> first | rfl | exact absurd rfl hop.1 | exact absurd rfl hop.2
        cases h.symm.trans hself
        exact id
    exact iff_of_false hnot fun hleft => hleft.1

theorem tested_iff (ih : (∃ e', optimizeNode macros e = .ok e') ↔ Foldable macros e) :
    (∃ e', optimizeNode macros e = .ok e' ∧ ¬ NamesHex e') ↔
      Foldable macros e ∧ ¬ LeftHex macros e := by
  rw [← ih]
  constructor
  · rintro ⟨e', h, hhex⟩
    exact ⟨⟨e', h⟩, fun hleft => hhex ((optimizeNode_namesHex h).2 hleft)⟩
  · rintro ⟨⟨e', h⟩, hleft⟩
    exact ⟨e', h, fun hhex => hleft ((optimizeNode_namesHex h).1 hhex)⟩

theorem optimizeNode_returns_iff :
    (∃ e', optimizeNode macros e = .ok e') ↔ Foldable macros e := by
  induction e with
  | int n | hex n | ident s | string s | call s p => exact iff_of_true ⟨_, rfl⟩ trivial
  | defined name =>
    refine iff_of_true ?_ trivial
    unfold optimizeNode
    split
    · exact ⟨_, (apply_ite Except.ok _ _ _).symm⟩
    · exact ⟨_, (apply_ite Except.ok _ _ _).symm⟩
  | unary op e ih =>
    cases op with
    | compl => exact iff_of_true ⟨_, rfl⟩ trivial
    | not =>
      show _ ↔ Foldable macros e
      rw [← ih]
      constructor
      · rintro ⟨e', h⟩
        obtain ⟨v, hv, -⟩ := bind_ok h
        exact ⟨v, hv⟩
      · rintro ⟨v, hv⟩
        unfold optimizeNode
        rw [hv]
        cases v with
        | int n => exact ⟨_, (apply_ite Except.ok _ _ _).symm⟩
        | _ =>
          exact ⟨_, rfl⟩
  | binary op l r ihl ihr =>
    cases op with
    | land =>
      rw [optimizeNode_logical_iff (.inl rfl), tested_iff ihl, tested_iff ihr]
      rfl
    | lor =>
      rw [optimizeNode_logical_iff (.inr rfl), tested_iff ihl, tested_iff ihr]
      rfl
    | _ =>
      exact iff_of_true ⟨_, rfl⟩ trivial

end

/-- **Folding returns.**  For every tree, those of the parser included, and every macro map,
`optimize_node` and `toInt` return, before and after folding, if and only if no operand of `&&` or
`||` that folding comes to is the name `hex`, or `defined(hex)` with no entry in the map, and the
tree itself is not such a name. -/
theorem fold_returns_iff (macros : String → Option String) (e : Expr) :
    (∃ e' n n', optimizeNode macros e = .ok e' ∧ intNode e = .ok n ∧ intNode e' = .ok n') ↔
      Foldable macros e ∧ ¬ NamesHex e := by
  constructor
  · rintro ⟨e', n, n', h, hn, -⟩
    exact ⟨optimizeNode_returns_iff.1 ⟨e', h⟩, intNode_returns_iff.1 ⟨n, hn⟩⟩
  · rintro ⟨hfold, hname⟩
    obtain ⟨e', h⟩ := optimizeNode_returns_iff.2 hfold
    obtain ⟨n, hn⟩ := intNode_returns_iff.2 hname
    have hname' : ¬ NamesHex e' := by
      rw [optimizeNode_namesHex h]
      exact fun hleft => hname hleft.1
    obtain ⟨n', hn'⟩ := intNode_returns_iff.2 hname'
    exact ⟨e', n, n', h, hn, hn'⟩

/-- The conditions `A && hex` and `hex`, from their text. -/
theorem fold_raises_hex :
    (∃ e, cppExpr (cppLinesTokenizer ["A && hex"]).toTokenList = .ok e ∧
      optimizeNode (fun _ => none) e = .error .valueError) ∧
    ∃ e, cppExpr (cppLinesTokenizer ["hex"]).toTokenList = .ok e ∧
      intNode e = .error .valueError :=
  ⟨⟨.binary .land (.ident "A") (.ident "hex"), by decide, by decide⟩,
    ⟨.ident "hex", by decide, by decide⟩⟩

end Cpp
