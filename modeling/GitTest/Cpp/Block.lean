import GitTest.Cpp.Reading
import GitTest.Lib.Conditional

/-!
# Block lists of `cpp.py` and their optimisation

A block is a text block or a directive; `#if` and `#elif` blocks carry the tree of their
condition.  `optimizeAll` folds the conditions (`optimizeMacros`) and then removes the groups
whose condition has become a constant (`optimizeIf01`).
-/

namespace Cpp

open Conditional

/-- Blocks that are not conditional directives. -/
inductive Plain
  | text (tokens : List Token)
  | directive (name : { s : String // s ∉ ["if", "ifdef", "ifndef", "else", "elif", "endif"] })
      (tokens : List Token)
  deriving DecidableEq, Repr

/-- A block with its tokens; there are no `#ifdef` and `#ifndef` blocks. -/
abbrev Block := Line Plain (List Token) Expr

/-- `tok.set(id)` on a new token. -/
def newToken (id : TokenId) : Token := ⟨id, id.text, 0, 0⟩

/-- The tokens that turn `#ifdef` and `#ifndef` into `#if`. -/
def ifTokens (directive : String) (tokens : List Token) : List Token :=
  if directive = "ifdef" then newToken .defined :: tokens
  else if directive = "ifndef" then newToken (.unary .not) :: newToken .defined :: tokens
  else tokens

/-- `Block(tokens, directive, lineno)`.  Without a line number that of the first token is taken. -/
def block (tokens : List Token) (directive : Option String) (lineno : Nat) : Except Error Block :=
  match directive with
  | none => if lineno = 0 ∧ tokens = [] then .error .indexError else .ok (.plain (.text tokens))
  | some d =>
    if lineno = 0 ∧ ifTokens d tokens = [] then .error .indexError
    else if hd : d ∉ ["if", "ifdef", "ifndef", "else", "elif", "endif"] then
      .ok (.plain (.directive ⟨d, hd⟩ tokens))
    else if d = "else" then .ok (.elseLine tokens)
    else if d = "endif" then .ok (.endifLine tokens)
    else if d = "elif" then (cppExpr tokens).map (.elifLine tokens)
    else (cppExpr (ifTokens d tokens)).map (.ifLine (ifTokens d tokens))

theorem block_ifdef {tokens : List Token} {name : String} (h : cTokens tokens = some [.ident name])
    (lineno : Nat) :
    block tokens (some "ifdef") lineno =
      .ok (.ifLine (newToken .defined :: tokens) (.defined name)) := by
  have hexpr : cppExpr (newToken .defined :: tokens) = .ok (.defined name) :=
    cppExpr_eq (D := .defined false name) (by simp [cTokens, newToken, isSpaceToken, cToken, h]; rfl)
      trivial
  simp [block, ifTokens, hexpr, Except.map]

theorem block_ifndef {tokens : List Token} {name : String} (h : cTokens tokens = some [.ident name])
    (lineno : Nat) :
    block tokens (some "ifndef") lineno =
      .ok (.ifLine (newToken (.unary .not) :: newToken .defined :: tokens)
        (.unary .not (.defined name))) := by
  have hexpr : cppExpr (newToken (.unary .not) :: newToken .defined :: tokens) =
      .ok (.unary .not (.defined name)) :=
    cppExpr_eq (D := .unary .not (.defined false name))
      (by simp [cTokens, newToken, isSpaceToken, cToken, h]; rfl) ⟨Nat.le_succ 11, trivial⟩
  simp [block, ifTokens, hexpr, Except.map]

/-- The condition of an `#if` or `#elif` block. -/
def Block.expr : Block → Option Expr
  | .ifLine _ e | .elifLine _ e => some e
  | .plain _ | .elseLine _ | .endifLine _ => none

def optimizeBlock (macros : String → Option String) : Block → Except Error Block
  | .ifLine tokens e => (optimizeNode macros e).map (.ifLine tokens)
  | .elifLine tokens e => (optimizeNode macros e).map (.elifLine tokens)
  | b => .ok b

def optimizeMacros (macros : String → Option String) : List Block → Except Error (List Block)
  | [] => .ok []
  | b :: blocks => do
    let b' ← optimizeBlock macros b
    let blocks' ← optimizeMacros macros blocks
    .ok (b' :: blocks')

/-- Where `find_matching_endif` stops, with the blocks behind it. -/
inductive Stop
  | unterminated
  | endif (tokens : List Token) (rest : List Block)
  | els (tokens : List Token) (rest : List Block)
  | elif (tokens : List Token) (e : Expr) (rest : List Block)

/-- The blocks that `find_matching_endif` passes and the block that it stops at: the `#endif` of
the section, or an `#else` or `#elif` of it. -/
def findMatchingEndif : Nat → List Block → List Block × Stop
  | _, [] => ([], .unterminated)
  | depth, .plain a :: blocks => (findMatchingEndif depth blocks).map (.plain a :: ·) id
  | depth, .ifLine t e :: blocks => (findMatchingEndif (depth + 1) blocks).map (.ifLine t e :: ·) id
  | depth, .elseLine t :: blocks =>
    if depth = 1 then ([], .els t blocks)
    else (findMatchingEndif depth blocks).map (.elseLine t :: ·) id
  | depth, .elifLine t e :: blocks =>
    if depth = 1 then ([], .elif t e blocks)
    else (findMatchingEndif depth blocks).map (.elifLine t e :: ·) id
  | depth, .endifLine t :: blocks =>
    if depth - 1 = 0 then ([], .endif t blocks)
    else (findMatchingEndif (depth - 1) blocks).map (.endifLine t :: ·) id

def Stop.length : Stop → Nat
  | .unterminated => 0
  | .endif _ rest | .els _ rest | .elif _ _ rest => rest.length + 1

theorem findMatchingEndif_length (depth : Nat) (blocks : List Block) :
    (findMatchingEndif depth blocks).1.length + (findMatchingEndif depth blocks).2.length =
      blocks.length := by
  fun_induction findMatchingEndif depth blocks <;>
    simp_all only [Prod.map, id, List.length_cons, List.length_nil, Stop.length] <;> omega

/-- `optimize_if01`.  The loop appends blocks up to the next `#if` or `#elif`; where that one has
a constant it goes on from the block that `find_matching_endif` stops at, changed in place. -/
def optimizeIf01 : List Block → Except Error (List Block)
  | [] => .ok []
  | b :: blocks =>
    match b.expr with
    | none => (optimizeIf01 blocks).map (b :: ·)
    | some e => do
      match ← intNode e with
      | none => (optimizeIf01 blocks).map (b :: ·)
      | some r =>
        match _hk : findMatchingEndif 1 blocks with
        | (passed, .unterminated) => if r = 0 then .ok [] else .ok passed
        | (passed, .endif _ rest) =>
          if r = 0 then optimizeIf01 rest
          else do
            let body ← optimizeIf01 passed
            let rest' ← optimizeIf01 rest
            .ok (body ++ rest')
        | (passed, .els t rest) =>
          if r = 0 then optimizeIf01 (.ifLine t (.int 1) :: rest)
          else do
            let body ← optimizeIf01 passed
            let rest' ← optimizeIf01 (.ifLine t (.int 0) :: rest)
            .ok (body ++ rest')
        | (passed, .elif t e rest) =>
          if r = 0 then optimizeIf01 (.ifLine t e :: rest)
          else do
            -- the directive stays `#elif`
            let body ← optimizeIf01 passed
            let rest' ← optimizeIf01 (.elifLine t (.int 0) :: rest)
            .ok (body ++ rest')
termination_by blocks => blocks.length
decreasing_by
  all_goals
    try have hl := findMatchingEndif_length 1 blocks
    try rw [_hk] at hl
    simp only [Stop.length, List.length_cons] at *
    omega

def optimizeAll (macros : String → Option String) (blocks : List Block) :
    Except Error (List Block) := do
  optimizeIf01 (← optimizeMacros macros blocks)

end Cpp
