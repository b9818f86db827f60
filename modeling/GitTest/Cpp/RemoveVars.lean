import GitTest.Cpp.Block
import GitTest.Cpp.Tokenizer
import GitTest.Lib.Cutting

/-!
# `removeVarsAndFuncs`: the declarations that a cleaned header keeps

The machine goes through the tokens of the text blocks in one of three states: between
declarations, in one that is kept, and in one that is skipped.  The first word of a declaration
decides; for `static`, `extern` and `__KINLINE` it is the last identifier before the next
parenthesis or semicolon of the block.  Only a semicolon outside braces ends a declaration, so a
function definition goes on into the item behind it.

A header is a list of blanks and items, spread over text blocks in any way.  Tokens carry the number
of their item, so that it can be said which of them are kept.

    every item is kept or dropped as it should ↔ an item behind a function definition should be kept
      like the definition, and for the others the first word decides right  (removeVarsAndFuncs_iff)
-/

namespace Cpp

open Cutting List

/-! ## Algorithm -/

inductive Scan
  | normal
  /-- A type, or a known static. -/
  | keep
  /-- Variables or functions. -/
  | skip
  deriving DecidableEq, Repr

structure ScanState where
  state : Scan
  depth : Nat
  deriving DecidableEq, Repr

def lbrace : TokenId := .other "\x7b"
def rbrace : TokenId := .other "\x7d"
def semicolon : TokenId := .other ";"

def typeWords : List String := ["struct", "typedef", "enum", "union", "__extension__"]
def staticWords : List String := ["static", "extern", "__KINLINE"]

section
variable {α : Type} (view : α → Token) (knownStatics : String → Bool)

/-- The last identifier before the next `(` or `;`; nothing if the block has none of them. -/
def staticIdent : String → List α → Option String
  | _, [] => none
  | ident, t :: rest =>
    if (view t).id = .lparen ∨ (view t).id = semicolon then some ident
    else staticIdent (if (view t).id = .ident then (view t).value else ident) rest

/-- Whether a declaration that begins with `tok` is kept. -/
def startsKept (tok : Token) (rest : List α) : Bool :=
  typeWords.contains tok.value ||
    staticWords.contains tok.value && (staticIdent view "" rest).any knownStatics

def ScanState.advance (s : ScanState) (tok : Token) : ScanState :=
  if tok.id = lbrace then { s with depth := s.depth + 1 }
  else if tok.id = rbrace then { s with depth := s.depth - 1 }
  else if s.depth = 0 ∧ tok.id = semicolon then { s with state := .normal }
  else s

def scanStep : Step ScanState α := fun s t rest =>
  match s.state with
  | .normal =>
    if isSpaceToken (view t) then (true, s)
    else if startsKept view knownStatics (view t) rest then (true, { s with state := .keep })
    else (false, { s with state := .skip })
  | .keep => (true, s.advance (view t))
  | .skip => (false, s.advance (view t))

end

def Block.piece : Block → Piece Token Block
  | .plain (.text tokens) => .text tokens
  | b => .mark b

def ofPiece : Piece Token Block → Block
  | .text tokens => .plain (.text tokens)
  | .mark b => b

def removeVarsAndFuncs (knownStatics : String → Bool) (blocks : List Block) : List Block :=
  (clean (scanStep id knownStatics) ⟨.normal, 0⟩ (blocks.map Block.piece)).map ofPiece

/-! ## What it is for -/

/-- The depth of braces behind the tokens, if no brace closes that was not opened and there is no
semicolon outside braces. -/
def braceDepth : Nat → List Token → Option Nat
  | d, [] => some d
  | d, t :: ts =>
    if t.id = lbrace then braceDepth (d + 1) ts
    else if t.id = rbrace then if d = 0 then none else braceDepth (d - 1) ts
    else if d = 0 ∧ t.id = semicolon then none
    else braceDepth d ts

/-- How an item ends: a function definition with the brace of its body. -/
inductive Ending
  | declaration (semi : { t : Token // t.id = semicolon })
  | definition
  deriving DecidableEq

/-- A declaration or a function definition of the file level, with the name that it declares. -/
structure Item where
  first : Token
  body : List Token
  ending : Ending
  name : String
  starts : isSpaceToken first = false ∧ first.id ≠ lbrace ∧ first.id ≠ rbrace ∧ first.id ≠ semicolon
  balanced : braceDepth 0 body = some 0
  closed : ending = .definition → (body.getLast?.map Token.id) = some rbrace

def Item.tokens (X : Item) : List Token :=
  X.first :: (X.body ++ match X.ending with
    | .declaration semi => [semi.1]
    | .definition => [])

/-- A declaration of a type, or a known static. -/
def Item.keeps (knownStatics : String → Bool) (X : Item) : Bool :=
  (decide (X.ending ≠ .definition) && typeWords.contains X.first.value) ||
    (staticWords.contains X.first.value && knownStatics X.name)

def Item.asDefinition (X : Item) : Option Item := if X.ending = .definition then some X else none

inductive Part
  | blank (t : { t : Token // isSpaceToken t = true })
  | item (X : Item)

def Part.tokens : Part → List Token
  | .blank t => [t.1]
  | .item X => X.tokens

def items (parts : List Part) : List Item :=
  parts.filterMap fun
    | .blank _ => none
    | .item X => some X

/-- The tokens of a header with the numbers of their items, from `n` on. -/
def tag : Nat → List Part → List (Token × Option Nat)
  | _, [] => []
  | n, .blank t :: parts => (t.1, none) :: tag n parts
  | n, .item X :: parts => X.tokens.map (·, some n) ++ tag (n + 1) parts

/-- Whether the first word decides for keeping; each token is with those behind it in its block. -/
def wordKeeps (knownStatics : String → Bool) :
    List ((Token × Option Nat) × List (Token × Option Nat)) → Bool
  | [] => false
  | a :: _ => startsKept Prod.fst knownStatics a.1.1 a.2

/-- An item behind the function definition `behind` goes with it; the other ones with their first
word. -/
def Separated (knownStatics : String → Bool) : Option Item → List Part →
    List ((Token × Option Nat) × List (Token × Option Nat)) → Prop
  | _, [], _ => True
  | behind, .blank _ :: parts, as => Separated knownStatics behind parts (as.drop 1)
  | none, .item X :: parts, as =>
    wordKeeps knownStatics as = X.keeps knownStatics ∧
      Separated knownStatics X.asDefinition parts (as.drop X.tokens.length)
  | some F, .item X :: parts, as =>
    F.keeps knownStatics = X.keeps knownStatics ∧
      Separated knownStatics X.asDefinition parts (as.drop X.tokens.length)

/-- The blocks `out`, with numbered tokens, are those of a header that was cleaned as it should: all
directives, the items that are to be kept, and none of the others, all in their order. -/
structure Cleaned (knownStatics : String → Bool) (parts : List Part)
    (bs out : List (Piece (Token × Option Nat) Block)) : Prop where
  order : (flat out).Sublist (flat bs)
  directives : marks out = marks bs
  items : ∀ k X, (items parts)[k]? = some X →
    ((texts out).filter fun t => t.2 = some k).map Prod.fst =
      if X.keeps knownStatics then X.tokens else []

/-! ## Proof -/

section
variable {α : Type} {view : α → Token} {known : String → Bool}

def busy (b : Bool) : Scan := if b then .keep else .skip

theorem scanStep_busy (b : Bool) (d : Nat) (t : α) (rest : List α) :
    scanStep view known ⟨busy b, d⟩ t rest = (b, ScanState.advance ⟨busy b, d⟩ (view t)) := by
  cases b <;> rfl

theorem run_braces (known : String → Bool) (b : Bool) {d d' : Nat} {as : List (α × List α)}
    (h : braceDepth d (as.map fun a => view a.1) = some d') :
    final (scanStep view known) ⟨busy b, d⟩ as = ⟨busy b, d'⟩ ∧
      kept (scanStep view known) ⟨busy b, d⟩ as = if b then as.map Prod.fst else [] := by
  induction as generalizing d with
  | nil =>
    cases h
    exact ⟨rfl, by cases b <;> rfl⟩
  | cons a as ih =>
    rw [map_cons, braceDepth] at h
    rw [final, kept, scanStep_busy]
    obtain ⟨d₁, hd₁, hrest⟩ : ∃ d₁, ScanState.advance ⟨busy b, d⟩ (view a.1) = ⟨busy b, d₁⟩ ∧
        braceDepth d₁ (as.map fun a => view a.1) = some d' := by
      unfold ScanState.advance
      split at h
      · next hl => exact ⟨d + 1, if_pos hl, h⟩
      · next hl =>
        rw [if_neg hl]
        split at h
        · next hr =>
          split at h
          · cases h
          · exact ⟨d - 1, if_pos hr, h⟩
        · next hr =>
          rw [if_neg hr]
          split at h
          · cases h
          · next hs => exact ⟨d, if_neg hs, h⟩
    rw [hd₁]
    obtain ⟨hf, hk⟩ := ih hrest
    refine ⟨hf, ?_⟩
    rw [hk]
    cases b <;> rfl

/-- The state before an item: in a declaration that a function definition has left open, or not. -/
def entryState : Option Bool → ScanState
  | none => ⟨.normal, 0⟩
  | some b => ⟨busy b, 0⟩

/-- Whether an item is kept, from the state before it and its first token. -/
def decision (known : String → Bool) (view : α → Token) (entry : Option Bool) (t : α)
    (rest : List α) : Bool := entry.getD (startsKept view known (view t) rest)

def Item.exit (X : Item) (b : Bool) : Option Bool := X.asDefinition.map fun _ => b

theorem step_first (X : Item) (entry : Option Bool) {t : α} (ht : view t = X.first)
    (rest : List α) : scanStep view known (entryState entry) t rest =
      (decision known view entry t rest, ⟨busy (decision known view entry t rest), 0⟩) := by
  obtain ⟨hspace, hl, hr, hs⟩ := X.starts
  cases entry with
  | none =>
    show (if isSpaceToken (view t) then _ else _) = _
    rw [ht, hspace, ← ht]
    show (if startsKept view known (view t) rest then _ else _) =
      (startsKept view known (view t) rest,
        ScanState.mk (busy (startsKept view known (view t) rest)) 0)
    cases startsKept view known (view t) rest <;> rfl
  | some b =>
    rw [entryState, scanStep_busy, ScanState.advance, ht, if_neg hl, if_neg hr,
      if_neg fun h => hs h.2]
    rfl

theorem run_ending (known : String → Bool) (X : Item) (b : Bool) {as : List (α × List α)}
    (h : (as.map fun a => view a.1) = match X.ending with
      | .declaration semi => [semi.1]
      | .definition => []) :
    final (scanStep view known) ⟨busy b, 0⟩ as = entryState (X.exit b) ∧
      kept (scanStep view known) ⟨busy b, 0⟩ as = if b then as.map Prod.fst else [] := by
  unfold Item.exit Item.asDefinition
  cases hend : X.ending with
  | definition =>
    rw [hend] at h
    rw [map_eq_nil_iff.1 h]
    exact ⟨rfl, by cases b <;> rfl⟩
  | declaration semi =>
    rw [hend] at h
    obtain ⟨a, rfl, ha⟩ := map_eq_singleton_iff.1 h
    have hadv : ScanState.advance ⟨busy b, 0⟩ (view a.1) = ⟨.normal, 0⟩ := by
      rw [ScanState.advance, ha, semi.2, if_neg (by decide), if_neg (by decide), if_pos ⟨rfl, rfl⟩]
    rw [final, scanStep_busy, hadv]
    exact ⟨rfl, by cases b <;> rfl⟩

theorem run_item (known : String → Bool) (X : Item) (entry : Option Bool) {a : α × List α}
    {as : List (α × List α)} (h : ((a :: as).map fun a => view a.1) = X.tokens) :
    final (scanStep view known) (entryState entry) (a :: as) =
        entryState (X.exit (decision known view entry a.1 a.2)) ∧
      kept (scanStep view known) (entryState entry) (a :: as) =
        if decision known view entry a.1 a.2 then (a :: as).map Prod.fst else [] := by
  obtain ⟨hfirst, hrest⟩ := List.cons.inj h
  rw [final, kept, step_first X entry hfirst]
  generalize decision known view entry a.1 a.2 = b
  obtain ⟨as₁, as₂, rfl, h₁, h₂⟩ := map_eq_append_iff.1 hrest
  have hbody : braceDepth 0 (as₁.map fun a => view a.1) = some 0 := by
    rw [h₁]
    exact X.balanced
  obtain ⟨hf₁, hk₁⟩ := run_braces known b hbody
  obtain ⟨hf₂, hk₂⟩ := run_ending known X b h₂
  rw [final_append, kept_append, hf₁, hk₁, hf₂, hk₂]
  refine ⟨rfl, ?_⟩
  cases b with
  | false => rfl
  | true => simp

theorem run_blank (known : String → Bool) (entry : Option Bool) {a : α × List α}
    (h : isSpaceToken (view a.1) = true) :
    (scanStep view known (entryState entry) a.1 a.2).2 = entryState entry := by
  cases entry with
  | none =>
    show (if isSpaceToken (view a.1) then _ else _ : Bool × ScanState).2 = _
    rw [if_pos h]
  | some b =>
    have hid : (view a.1).id = .space ∨ (view a.1).id = .ln := by simpa [isSpaceToken] using h
    rw [entryState, scanStep_busy, ScanState.advance]
    rcases hid with hid | hid <;> rw [hid] <;> rfl

end

section
variable {known : String → Bool}

/-- What the machine does with the items. -/
def decisions (known : String → Bool) : Option Bool → List Part →
    List ((Token × Option Nat) × List (Token × Option Nat)) → List Bool
  | _, [], _ => []
  | entry, .blank _ :: parts, as => decisions known entry parts (as.drop 1)
  | entry, .item X :: parts, as =>
    let b := entry.getD (wordKeeps known as)
    b :: decisions known (X.exit b) parts (as.drop X.tokens.length)

theorem Item.tokens_ne_nil (X : Item) : X.tokens ≠ [] := cons_ne_nil _ _

variable {n : Nat} {parts : List Part} {X : Item}

theorem tag_ge {t : Token × Option Nat} (h : t ∈ tag n parts) {k : Nat} (hk : t.2 = some k) :
    n ≤ k := by
  induction parts generalizing n with
  | nil => cases h
  | cons part parts ih =>
    cases part with
    | blank b =>
      rcases mem_cons.1 h with rfl | h
      · cases hk
      · exact ih h
    | item X =>
      rcases mem_append.1 h with h | h
      · obtain ⟨u, -, rfl⟩ := mem_map.1 h
        exact Nat.le_of_eq (Option.some.inj hk)
      · exact Nat.le_of_succ_le (ih h)

theorem run_tagged (known : String → Bool) (X : Item) (entry : Option Bool)
    {as₁ : List ((Token × Option Nat) × List (Token × Option Nat))}
    (h : as₁.map Prod.fst = X.tokens.map (·, some n))
    (as₂ : List ((Token × Option Nat) × List (Token × Option Nat))) :
    let b := entry.getD (wordKeeps known (as₁ ++ as₂))
    final (scanStep Prod.fst known) (entryState entry) as₁ = entryState (X.exit b) ∧
      kept (scanStep Prod.fst known) (entryState entry) as₁ =
        if b then X.tokens.map (·, some n) else [] := by
  have htokens : (as₁.map fun a => a.1.1) = X.tokens := by
    have hfst := congrArg (List.map Prod.fst) h
    rw [map_map, map_map] at hfst
    exact hfst.trans (map_id _)
  cases as₁ with
  | nil => exact absurd htokens.symm X.tokens_ne_nil
  | cons a as₁ =>
    rw [← h]
    exact run_item known X entry htokens

theorem length_tagged {as₁ : List ((Token × Option Nat) × List (Token × Option Nat))}
    (h : as₁.map Prod.fst = X.tokens.map (·, some n)) : as₁.length = X.tokens.length := by
  have hlen := congrArg List.length h
  rwa [length_map, length_map] at hlen

theorem filter_tagged (X : Item) (b : Bool) (n m : Nat) :
    ((if b then X.tokens.map (·, some n) else []).filter fun t => t.2 = some m).map Prod.fst =
      if b = true ∧ n = m then X.tokens else [] := by
  cases b with
  | false => rfl
  | true => by_cases h : n = m <;> simp [h, filter_map, Function.comp_def]

theorem kept_items (entry : Option Bool)
    {as : List ((Token × Option Nat) × List (Token × Option Nat))}
    (h : as.map Prod.fst = tag n parts) {k : Nat} {b : Bool} (hX : (items parts)[k]? = some X)
    (hb : (decisions known entry parts as)[k]? = some b) :
    ((kept (scanStep Prod.fst known) (entryState entry) as).filter
      fun t => t.2 = some (n + k)).map Prod.fst = if b then X.tokens else [] := by
  induction parts generalizing n entry as k with
  | nil => cases hX
  | cons part parts ih =>
    cases part with
    | blank t =>
      obtain ⟨a, as, rfl, ha, hrest⟩ := map_eq_cons_iff.1 h
      have hspace : isSpaceToken a.1.1 = true := by
        rw [ha]
        exact t.2
      have hih := ih entry hrest hX hb
      rw [kept, run_blank known entry hspace]
      split
      · rw [filter_cons_of_neg (by simp [ha])]
        exact hih
      · exact hih
    | item Y =>
      obtain ⟨as₁, as₂, rfl, h₁, h₂⟩ := map_eq_append_iff.1 h
      obtain ⟨hfinal, hkept⟩ := run_tagged known Y entry h₁ as₂
      rw [decisions, drop_left' (length_tagged h₁)] at hb
      rw [kept_append, hfinal, hkept, filter_append, map_append, filter_tagged]
      generalize entry.getD (wordKeeps known (as₁ ++ as₂)) = b₀ at hb ⊢
      -- the tokens of this item have the number `n`, those of the later ones a larger one
      have hlater : ∀ t ∈ kept (scanStep Prod.fst known) (entryState (Y.exit b₀)) as₂,
          ¬ t.2 = some n := by
        intro t ht hn
        have hmem := (kept_sublist as₂).mem ht
        rw [h₂] at hmem
        exact absurd (tag_ge hmem hn) (Nat.not_succ_le_self n)
      cases k with
      | zero =>
        cases hX
        cases hb
        have hnone : (kept (scanStep Prod.fst known) (entryState (X.exit b)) as₂).filter
            (fun t => t.2 = some (n + 0)) = [] := by
          rw [filter_eq_nil_iff]
          intro t ht
          simpa using hlater t ht
        rw [hnone]
        simp
      | succ k =>
        have hother : ¬ (b₀ = true ∧ n = n + (k + 1)) := by omega
        have hsum : n + (k + 1) = n + 1 + k := by omega
        rw [if_neg hother, hsum]
        exact ih (Y.exit b₀) h₂ hX hb

theorem length_decisions (entry : Option Bool) (parts : List Part)
    (as : List ((Token × Option Nat) × List (Token × Option Nat))) :
    (decisions known entry parts as).length = (items parts).length := by
  induction parts generalizing entry as with
  | nil => rfl
  | cons part parts ih =>
    cases part with
    | blank t => exact ih entry _
    | item X => exact congrArg Nat.succ (ih _ _)

theorem Item.exit_keeps (X : Item) :
    X.exit (X.keeps known) = X.asDefinition.map (Item.keeps known) := by
  unfold exit asDefinition
  split <;> rfl

/-- The machine does what it should with all items. -/
theorem decisions_iff (behind : Option Item) (parts : List Part)
    (as : List ((Token × Option Nat) × List (Token × Option Nat))) :
    decisions known (behind.map (Item.keeps known)) parts as =
        (items parts).map (Item.keeps known) ↔ Separated known behind parts as := by
  induction parts generalizing behind as with
  | nil => exact iff_of_true rfl trivial
  | cons part parts ih =>
    cases part with
    | blank t => exact ih behind _
    | item X =>
      show _ :: _ = X.keeps known :: (items parts).map (Item.keeps known) ↔ _
      rw [List.cons.injEq]
      cases behind with
      | none | some =>
        refine and_congr_right fun hb => ?_
        rw [hb, X.exit_keeps]
        exact ih _ _

theorem tokens_of_decision {b b' : Bool}
    (h : (if b then X.tokens else []) = if b' then X.tokens else []) : b = b' := by
  have hne := X.tokens_ne_nil
  cases b <;> cases b' <;> simp_all

theorem items_iff {as : List ((Token × Option Nat) × List (Token × Option Nat))}
    (h : as.map Prod.fst = tag 0 parts) :
    (∀ k X, (items parts)[k]? = some X →
      ((kept (scanStep Prod.fst known) ⟨.normal, 0⟩ as).filter fun t => t.2 = some k).map Prod.fst =
        if X.keeps known then X.tokens else []) ↔
      decisions known none parts as = (items parts).map (Item.keeps known) := by
  have hkept : ∀ k X b, (items parts)[k]? = some X → (decisions known none parts as)[k]? = some b →
      ((kept (scanStep Prod.fst known) ⟨.normal, 0⟩ as).filter
        fun t => t.2 = some k).map Prod.fst = if b then X.tokens else [] := by
    intro k X b hX hb
    have hk := kept_items none h hX hb
    rwa [Nat.zero_add] at hk
  constructor
  · intro hall
    apply ext_getElem (by rw [length_decisions, length_map])
    intro k hk hk'
    rw [length_map] at hk'
    rw [getElem_map]
    have hX := getElem?_eq_getElem hk'
    have hdecision := hkept k _ _ hX (getElem?_eq_getElem hk)
    exact tokens_of_decision (hdecision.symm.trans (hall k _ hX))
  · intro heq k X hX
    apply hkept k X _ hX
    rw [heq, getElem?_map, hX]
    rfl

end

/-- The machine does not see the numbers of the tokens. -/
theorem scanStep_map {α : Type} {view : α → Token} {known : String → Bool} (s : ScanState) (t : α)
    (rest : List α) :
    scanStep view known s t rest = scanStep id known s (view t) (rest.map view) := by
  have hident : ∀ ident, staticIdent view ident rest = staticIdent id ident (rest.map view) := by
    induction rest with
    | nil => exact fun _ => rfl
    | cons u rest ih =>
      intro ident
      rw [staticIdent, ih]
      rfl
  have hstarts : startsKept view known (view t) rest =
      startsKept id known (view t) (rest.map view) := by
    rw [startsKept, startsKept, hident]
  unfold scanStep
  rw [hstarts]
  rfl

/-! ## Top theorems -/

/-- **Cleaning a header.**  For every list of blocks whose text is a sequence of blanks,
declarations and function definitions, spread over the blocks in any way, with any known statics:
the blocks that `removeVarsAndFuncs` returns have all directives, the items that are to be kept and
none of the others, if and only if every item behind a function definition is to be kept exactly if
the definition is, and for each other item the first word and, behind `static`, `extern` and
`__KINLINE`, the last identifier before the next parenthesis or semicolon of the block say rightly
whether it is to be kept. -/
theorem removeVarsAndFuncs_iff (known : String → Bool) {blocks : List Block}
    {bs : List (Piece (Token × Option Nat) Block)} {parts : List Part}
    (hblocks : bs.map (Piece.map Prod.fst) = blocks.map Block.piece)
    (hparts : texts bs = tag 0 parts) :
    let out := clean (scanStep Prod.fst known) ⟨.normal, 0⟩ bs
    removeVarsAndFuncs known blocks = (out.map (Piece.map Prod.fst)).map ofPiece ∧
      (Cleaned known parts bs out ↔ Separated known none parts (looks bs)) := by
  have hlooks : (looks bs).map Prod.fst = tag 0 parts := (map_fst_looks bs).trans hparts
  constructor
  · rw [removeVarsAndFuncs, ← hblocks, clean_map scanStep_map]
  · rw [← decisions_iff, Option.map_none, ← items_iff hlooks, ← texts_clean]
    constructor
    · intro h
      exact h.items
    · intro h
      exact ⟨flat_clean bs, marks_clean bs, h⟩

/-- `static int f(void) {return 0;}` on the first line. -/
def sampleFunction : Item where
  first := ⟨.ident, "static", 1, 0⟩
  body :=
    [⟨.space, " ", 1, 6⟩, ⟨.ident, "int", 1, 7⟩, ⟨.space, " ", 1, 10⟩, ⟨.ident, "f", 1, 11⟩,
      ⟨.lparen, "(", 1, 12⟩, ⟨.ident, "void", 1, 13⟩, ⟨.rparen, ")", 1, 17⟩,
      ⟨lbrace, "\x7b", 1, 18⟩, ⟨.ident, "return", 1, 19⟩, ⟨.space, " ", 1, 25⟩,
      ⟨.number, "0", 1, 26⟩, ⟨semicolon, ";", 1, 27⟩, ⟨rbrace, "\x7d", 1, 28⟩]
  ending := .definition
  name := "f"
  starts := by decide
  balanced := by decide
  closed := by decide

/-- `struct s {int a;};` on the second line. -/
def sampleStruct : Item where
  first := ⟨.ident, "struct", 2, 0⟩
  body :=
    [⟨.space, " ", 2, 6⟩, ⟨.ident, "s", 2, 7⟩, ⟨lbrace, "\x7b", 2, 8⟩, ⟨.ident, "int", 2, 9⟩,
      ⟨.space, " ", 2, 12⟩, ⟨.ident, "a", 2, 13⟩, ⟨semicolon, ";", 2, 14⟩,
      ⟨rbrace, "\x7d", 2, 15⟩]
  ending := .declaration ⟨⟨semicolon, ";", 2, 16⟩, rfl⟩
  name := "s"
  starts := by decide
  balanced := by decide
  closed := by decide

/-- Of a structure, a directive and a function the function is dropped. -/
theorem removeVarsAndFuncs_struct :
    let blocks : List Block := [.plain (.text sampleStruct.tokens), .elseLine [],
      .plain (.text sampleFunction.tokens)]
    let parts : List Part := [.item sampleStruct, .item sampleFunction]
    let bs := [.text (tag 0 [.item sampleStruct]), Piece.mark (Conditional.Line.elseLine []),
      .text (tag 1 [.item sampleFunction])]
    removeVarsAndFuncs (fun _ => false) blocks =
        [.plain (.text sampleStruct.tokens), .elseLine []] ∧
      Cleaned (fun _ => false) parts bs
        (clean (scanStep Prod.fst fun _ => false) ⟨.normal, 0⟩ bs) := by
  intro blocks parts bs
  have h := @removeVarsAndFuncs_iff (fun _ => false) blocks bs parts (by decide) (by decide)
  refine ⟨h.1.trans (by decide), h.2.2 ⟨?_, ?_, trivial⟩⟩
  · decide
  · decide

/-- A structure behind an inline function is lost with it; only the newline behind it is left. -/
theorem removeVarsAndFuncs_swallows :
    let newline (line col : Nat) : Token := ⟨.ln, "\n", line, col⟩
    let tokens := sampleFunction.tokens ++ newline 1 29 :: sampleStruct.tokens ++ [newline 2 17]
    (cppLinesTokenizer
      ["static int f(void)\x7breturn 0;\x7d", "struct s\x7bint a;\x7d;"]).toTokenList = tokens ∧
    sampleFunction.keeps (fun _ => false) = false ∧ sampleStruct.keeps (fun _ => false) = true ∧
    removeVarsAndFuncs (fun _ => false) [.plain (.text tokens)] =
      [.plain (.text [newline 2 17])] := by
  decide +kernel

end Cpp
