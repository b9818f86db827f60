import GitTest.Cpp.Expr
import GitTest.Lib.CText

/-!
# `CppExpr`: the parser of conditions and the printer

The parser works on the tokens between the current position and the bound `n`, here a list; the
bound of a parenthesised part is its closing parenthesis (`inner`).  Binary operators group to
the right whatever their precedence.  `sourceNode` writes a tree back as text.
-/

namespace Cpp

open CInt CGrammar

/-! ## The parser -/

def isSpaceToken (t : Token) : Bool := t.id = .space ∨ t.id = .ln

def skipSpaces (toks : List Token) : List Token := toks.dropWhile isSpaceToken

def throw {α : Type} (exception : Thrown) (toks : List Token) (msg : String) : Except Error α :=
  .error (.thrown exception toks.head? msg)

/-- `expectId`.  The message names the token at the position even behind the bound. -/
def expectId (inner : Bool) (toks : List Token) (id : TokenId) : Except Error (List Token) :=
  let msg (got : TokenId) :=
    "### expecting '" ++ id.text ++ "' in expression, got '" ++ got.text ++ "'"
  match skipSpaces toks with
  | [] => if inner then throw .badExpectedToken [] (msg .rparen) else .error .indexError
  | t :: rest => if t.id = id then .ok rest else throw .badExpectedToken (t :: rest) (msg t.id)

def isDecimal (value : String) : Except Error (Option Expr) :=
  let v := value.toList.rdropWhile isSuffixChar
  if v.all Char.isDigit then
    if v = [] then .error .valueError else .ok ((readDigits 10 v).map fun n : Nat => .int n)
  else .ok none

def isHexadecimal (value : String) : Option Expr :=
  match value.toList.rdropWhile isSuffixChar with
  | '0' :: 'x' :: d :: ds | '0' :: 'X' :: d :: ds => (readDigits 16 (d :: ds)).map fun n : Nat => .hex n
  | _ => none

def isInteger (t : Token) : Except Error (Option Expr) :=
  if t.id ≠ .number then .ok none
  else do
    match ← isDecimal t.value with
    | some e => .ok (some e)
    | none => .ok (isHexadecimal t.value)

def negateConstant : Expr → Expr
  | .int n => .int (-n)
  | .hex n => .hex (-n)
  | e => e

/-- `is_number` at the token `t`: a sign has to stand right before its number. -/
def isNumber (t : Token) (rest : List Token) : Except Error (Option (Expr × List Token)) := do
  match rest with
  | t' :: rest' =>
    if t.id = .binary .sub then
      if let some e ← isInteger t' then return some (negateConstant e, rest')
    if t.id = .binary .add then
      if let some e ← isInteger t' then return some (e, rest')
  | [] => pure ()
  return (← isInteger t).map fun e => (e, rest)

def isDefined (inner : Bool) (t : Token) (rest : List Token) :
    Except Error (Option (Expr × List Token)) :=
  if t.id ≠ .defined then .ok none
  else
    match skipSpaces rest with
    | [] => .error .nameError
    | t :: rest =>
      if t.id = .lparen then
        match skipSpaces rest with
        | [] => .error .nameError
        | t :: rest =>
          if t.id = .ident then do
            let rest ← expectId inner rest .rparen
            .ok (some (.defined t.value, rest))
          else .error .nameError
      else if t.id = .ident then .ok (some (.defined t.value, rest))
      else .error .nameError

def trimParam (param : List Token) : List Token :=
  (param.dropWhile fun t => t.id = .space).rdropWhile fun t => t.id = .space

/-- The parameters of a call up to its closing parenthesis: `param` are the tokens of the current
one so far. -/
def scanParams : Nat → List Token → List Token → Option (List (List Token) × List Token)
  | _, _, [] => none
  | depth, param, t :: rest =>
    if t.id = .lparen then scanParams (depth + 1) (param ++ [t]) rest
    else if depth = 1 ∧ t.id = .rparen then some ([trimParam param], rest)
    else if depth = 1 ∧ t.id = .comma then
      (scanParams depth [] rest).map fun p => (trimParam param :: p.1, p.2)
    else if t.id = .rparen then scanParams (depth - 1) (param ++ [t]) rest
    else scanParams depth (param ++ [t]) rest

def isCallOrIdent (toks : List Token) : Option (Expr × List Token) :=
  match skipSpaces toks with
  | [] => none
  | t :: rest =>
    if t.id ≠ .ident then none
    else
      match skipSpaces rest with
      | [] => some (.ident t.value, [])
      | t' :: rest' =>
        if t'.id = .lparen then
          (scanParams 1 [] rest').map fun p => (.call t.value p.1, p.2)
        else some (.ident t.value, t' :: rest')

def matchParen : Nat → List Token → Option (List Token × List Token)
  | _, [] => none
  | popcount, t :: rest =>
    if t.id = .lparen then (matchParen (popcount + 1) rest).map (.map (t :: ·) id)
    else if t.id = .rparen then
      if popcount - 1 = 0 then some ([], rest)
      else (matchParen (popcount - 1) rest).map (.map (t :: ·) id)
    else (matchParen popcount rest).map (.map (t :: ·) id)

/-- What `isValue` tries before a parenthesis. -/
def isAtom (inner : Bool) (toks : List Token) : Except Error (Option (Expr × List Token)) :=
  match toks with
  | [] => .ok none
  | t :: rest =>
    if t.id = .string then .ok (some (.string t.value, rest))
    else do
      if let some c ← isNumber t rest then return some c
      if let some c ← isDefined inner t rest then return some c
      return isCallOrIdent toks

mutual

def isValue : Nat → Bool → List Token → Except Error (Option (Expr × List Token))
  | 0, _, _ => .ok none
  | fuel + 1, inner, toks => do
    if let some c ← isAtom inner toks then return some c
    match skipSpaces toks with
    | [] => return none
    | t :: rest =>
      if t.id ≠ .lparen then return none
      match matchParen 1 rest with
      | none => throw .cppInvalidExpression (t :: rest) "expression missing closing parenthesis"
      | some (inside, after) =>
        match ← isBinary fuel true inside with
        | none => throw .cppInvalidExpression (t :: rest) "invalid expression within parenthesis"
        | some (e, _) => return some (e, after)

def isUnary : Nat → Bool → List Token → Except Error (Option (Expr × List Token))
  | 0, _, _ => .ok none
  | fuel + 1, inner, toks =>
    match skipSpaces toks with
    | [] => .ok none
    | t :: rest =>
      match t.id with
      | .unary op => do
        match ← isUnary fuel inner rest with
        | none =>
          throw .cppInvalidExpression (t :: rest)
            (unaryText op ++ " operator must be followed by value")
        | some (e, rest') => return some (.unary op e, rest')
      | _ => isValue fuel inner (t :: rest)

def isBinary : Nat → Bool → List Token → Except Error (Option (Expr × List Token))
  | 0, _, _ => .ok none
  | fuel + 1, inner, toks =>
    match skipSpaces toks with
    | [] => .ok none
    | t :: rest => do
      match ← isUnary fuel inner (t :: rest) with
      | none => return none
      | some (e1, rest1) =>
        match skipSpaces rest1 with
        | [] => return some (e1, rest1)
        | t2 :: rest2 =>
          match t2.id with
          | .binary op =>
            match ← isBinary fuel inner rest2 with
            | none =>
              throw .cppInvalidExpression (t :: rest)
                ("### " ++ binaryText op ++ " operator must be followed by value")
            | some (e2, rest3) => return some (.binary op e1 e2, rest3)
          | _ => return none

end

/-- `CppExpr(tokens).expr`. -/
def cppExpr (tokens : List Token) : Except Error Expr := do
  match ← isBinary (3 * tokens.length + 3) false tokens with
  | none => .error .typeError
  | some (e, _) => .ok e

/-! ## The printer -/

def precedences : BinaryOp → Nat
  | .lor => 1
  | .land => 2
  | .or => 3
  | .xor => 4
  | .and => 5
  | .eq | .ne => 6
  | .lt | .le | .gt | .ge => 7
  | .shl | .shr => 8
  | .add | .sub => 9
  | .mul | .div | .mod => 10

/-- The precedence of the operator of a node, 1000 if it has none. -/
def nodePrec : Expr → Nat
  | .unary .not _ => 11
  | .unary .compl _ => 12
  | .binary op _ _ => precedences op
  | .int _ | .hex _ | .ident _ | .defined _ | .string _ | .call _ _ => 1000

/-- `"%d" % n` in base 10 and `"%x" % n` in base 16. -/
def formatInt (b : Nat) (n : Int) : String :=
  if 0 ≤ n then String.ofList (writeDigits b n.toNat)
  else "-" ++ String.ofList (writeDigits b (-n).toNat)

def sourceNode : Expr → String
  | .int n => formatInt 10 n
  | .hex n => "0x" ++ formatInt 16 n
  | .ident name => name
  | .defined name => "defined(" ++ name ++ ")"
  | .unary op e =>
    -- both unary operators are written as `!`
    if nodePrec e < nodePrec (.unary op e) then "!(" ++ sourceNode e ++ ")"
    else "!" ++ sourceNode e
  | .binary op l r =>
    let src (e : Expr) (s : String) := if nodePrec e < precedences op then "(" ++ s ++ ")" else s
    src l (sourceNode l) ++ " " ++ binaryText op ++ " " ++ src r (sourceNode r)
  | .string _ | .call _ _ => "???"

/-- `str(CppExpr(tokens))`. -/
def cppSource (tokens : List Token) : Except Error String := (cppExpr tokens).map sourceNode

end Cpp
