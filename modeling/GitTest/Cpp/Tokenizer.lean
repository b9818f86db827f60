import GitTest.Cpp.Expr
import GitTest.Lib.CText

/-!
# `CppTokenizer`: the tokens of a list of lines

The tokenizer holds the current line and a position in it, which is behind the last character at
the end of the line and one further when the next line has to be fetched.  `remaining` is the text
that it has not read yet: the rest of the line, a newline, and the lines that follow.  `nextChar`
takes the first character of it, and fetching a line takes nothing.
-/

namespace Cpp

open List

open CGrammar (isWordChar)

/-! ## Token ids and texts -/

def tokEOF : Char := '\x00'
def tokLN : Char := '\n'

/-- The ids with a name in the source. -/
def tokenIds : List TokenId :=
  [.eof, .ln, .space, .defined, .lparen, .rparen, .comma, .number, .ident, .string, .unary .not,
    .unary .compl, .binary .add, .binary .sub, .binary .lt, .binary .le, .binary .ge, .binary .gt,
    .binary .land, .binary .lor, .binary .mul, .binary .div, .binary .mod, .binary .and,
    .binary .or, .binary .xor, .binary .shl, .binary .shr, .binary .eq, .binary .ne]

def TokenId.ofText (s : String) : TokenId :=
  (tokenIds.find? fun id => id.text = s).getD (.other s)

def TokenId.str (id : TokenId) (value : String) : String :=
  match id with
  | .ident | .number | .string => value
  | .eof => "<EOF>"
  | .space => if value = "\\" then "\\\n" else value
  | id => id.text

def Token.str (tok : Token) : String := tok.id.str tok.value

/-! ## The tokenizer -/

structure Tokenizer where
  eof : Bool
  text : List Char
  line : Nat
  pos : Nat
  lines : List (List Char)
  index : Nat

namespace Tokenizer

def fillLineText (t : Tokenizer) : Tokenizer :=
  match t.lines[t.index]? with
  | some line => { t with text := line, pos := 0, index := t.index + 1 }
  | none => { t with eof := true }

def peekChar (t : Tokenizer) : Char × Tokenizer :=
  if t.eof then (tokEOF, t)
  else
    let t' :=
      if t.text.length < t.pos then fillLineText { t with pos := 0, line := t.line + 1 } else t
    if t'.eof then (tokEOF, t') else (t'.text[t'.pos]?.getD tokLN, t')

def skipChar (t : Tokenizer) : Tokenizer := if t.eof then t else { t with pos := t.pos + 1 }

def peekNChar (t : Tokenizer) (n : Nat) : Option (List Char) :=
  if t.text.length < t.pos + n then none else some ((t.text.drop t.pos).take n)

def skipNChars (t : Tokenizer) (n : Nat) : Tokenizer :=
  if t.pos + n ≤ t.text.length then { t with pos := t.pos + n } else skipChar^[n] t

def nextChar (t : Tokenizer) : Char × Tokenizer := (t.peekChar.1, t.peekChar.2.skipChar)

/-- The text that is left, each line with a newline. -/
def remaining (t : Tokenizer) : List Char :=
  if t.eof then []
  else (if t.pos ≤ t.text.length then t.text.drop t.pos ++ [tokLN] else []) ++
    (t.lines.drop t.index).flatMap (· ++ [tokLN])

/-- Enough for every loop: each turn takes a character. -/
def fuel (t : Tokenizer) : Nat := t.remaining.length + 1

def octalDigits : List Char := "01234567".toList

/-- There is no 9 in the source. -/
def hexDigits : List Char := "012345678abcdefABCDEF".toList

/-- The next `n` characters, if they are on the line and all of them digits. -/
def escapeDigits (n : Nat) (digits : List Char) (t : Tokenizer) : List Char × Tokenizer :=
  match t.peekNChar n with
  | none => ([], t)
  | some num => if num.all digits.contains then (num, t.skipNChars n) else ([], t)

def getEscape (t : Tokenizer) : List Char × Tokenizer :=
  let result := t.nextChar
  let num :=
    if result.1 = '0' then escapeDigits 3 octalDigits result.2
    else if result.1 = 'x' ∨ result.1 = 'X' then escapeDigits 2 hexDigits result.2
    else if result.1 = 'u' ∨ result.1 = 'U' then escapeDigits 4 hexDigits result.2
    else ([], result.2)
  (result.1 :: num.1, num.2)

/-- To the end of the line, which is taken as well. -/
def skipLine : Nat → Tokenizer → Tokenizer
  | 0, t => t
  | n + 1, t =>
    let c := t.nextChar
    if c.1 = tokEOF ∨ c.1 = tokLN then c.2 else skipLine n c.2

/-- The text of a comment, and whether it is closed. -/
def readComment : Nat → Tokenizer → Option Char → List Char → Bool × List Char × Tokenizer
  | 0, t, _, value => (false, value, t)
  | n + 1, t, prevC, value =>
    let c := t.nextChar
    if c.1 = tokEOF then (false, value, c.2)
    else if c.1 = '/' ∧ prevC = some '*' then (true, value ++ ['/'], c.2)
    else readComment n c.2 (some c.1) (value ++ [c.1])

/-- The loop of spaces, numbers and identifiers. -/
def readWhile (p : Char → Bool) : Nat → Tokenizer → List Char → List Char × Tokenizer
  | 0, t, c => (c, t)
  | n + 1, t, c =>
    let c2 := t.peekChar
    if c2.1 = tokLN ∨ p c2.1 = false then (c, c2.2)
    else readWhile p n c2.2.skipChar (c ++ [c2.1])

/-- The loop of character constants. -/
def readChars : Nat → Tokenizer → List Char → List Char × Tokenizer
  | 0, t, c => (c, t)
  | n + 1, t, c =>
    let c2 := t.nextChar
    if c2.1 = tokEOF then (c, c2.2)
    else if c2.1 = '\'' then (c ++ [c2.1], c2.2)
    else readChars n c2.2 (c ++ [c2.1])

def readString : Nat → Tokenizer → Bool → List Char → List Char × Tokenizer
  | 0, t, _, c => (c, t)
  | n + 1, t, quote, c =>
    let c2 := t.nextChar
    if c2.1 = tokEOF then (c, c2.2)
    else if quote then readString n c2.2 false (c ++ [c2.1])
    else if c2.1 = '"' then (c ++ [c2.1], c2.2)
    else readString n c2.2 (decide (c2.1 = '\\')) (c ++ [c2.1])

def isSpaceChar (c : Char) : Bool :=
  c = ' ' ∨ c = '\t' ∨ c = '\n' ∨ c = '\r' ∨ c = '\x0b' ∨ c = '\x0c'

def cppLongSymbols : List (List Char) :=
  ["##", "&&", "||", "<<", ">>", "...", "==", "!=", "<=", ">=", "->", "++", "--"].map String.toList

/-- The long symbol that begins with `c` and goes on at the position. -/
def longSymbol (c : Char) (t : Tokenizer) : Option (List Char) :=
  cppLongSymbols.find? fun sk =>
    sk.head? = some c ∧ t.pos + sk.tail.length ≤ t.text.length ∧
      (t.text.drop t.pos).take sk.tail.length = sk.tail

/-- `tok.set(id)` -/
def set (c : List Char) : TokenId × List Char := (TokenId.ofText (String.ofList c), c)

/-- An id with a value, and the tokenizer behind the token. -/
abbrev Read := (TokenId × List Char) × Tokenizer

def readSpace (c : Char) (t : Tokenizer) : Read :=
  let r := readWhile isSpaceChar t.fuel t [c]
  ((.space, r.1), r.2)

/-- Behind a backslash: a trailing one becomes a space with the value `\\`. -/
def readBackslash (t : Tokenizer) : Read :=
  let p := t.peekChar
  if p.1 = tokLN then ((.space, ['\\']), p.2.skipChar)
  else
    let r := p.2.getEscape
    (set ('\\' :: r.1), r.2)

/-- Behind a single quote: one character or escape is taken before the closing quote is looked
for. -/
def readCharConstant (t : Tokenizer) : Read :=
  let c2 := t.nextChar
  let r := if c2.1 = '\\' then c2.2.getEscape else ([], c2.2)
  let s := readChars r.2.fuel r.2 ('\'' :: c2.1 :: r.1)
  ((.string, s.1), s.2)

def readStringLiteral (t : Tokenizer) : Read :=
  let r := readString t.fuel t false ['"']
  ((.string, r.1), r.2)

def readWord (c : Char) (t : Tokenizer) : Read :=
  let r := readWhile isWordChar t.fuel t [c]
  if c.isDigit then ((.number, r.1), r.2)
  else if r.1 = "defined".toList then ((.defined, r.1), r.2)
  else ((.ident, r.1), r.2)

def readSymbol (c : Char) (t : Tokenizer) : Read :=
  match longSymbol c t with
  | some sk => (set sk, { t with pos := t.pos + sk.tail.length })
  | none => (set [c], t)

/-- The token that begins with `c`, which is no slash before a comment. -/
def tokenFrom (c : Char) (t : Tokenizer) : Read :=
  if isSpaceChar c then readSpace c t
  else if c = '\\' then readBackslash t
  else if c = '\'' then readCharConstant t
  else if c = '"' then readStringLiteral t
  else if isWordChar c then readWord c t
  else readSymbol c t

def nextRealToken (t : Tokenizer) : Read :=
  let c := t.nextChar
  if c.1 = tokEOF ∨ c.1 = tokLN then (set [c.1], c.2)
  else if c.1 = '/' then
    let p := c.2.peekChar
    if p.1 = '/' then (set [tokLN], skipLine p.2.skipChar.fuel p.2.skipChar)
    else if p.1 = '*' then
      let r := readComment p.2.skipChar.fuel p.2.skipChar none ['/', '*']
      if r.1 then ((.space, r.2.1), r.2.2) else ((.eof, r.2.1), r.2.2)
    else tokenFrom '/' p.2
  else tokenFrom c.1 c.2

def markPos (t : Tokenizer) : Nat × Nat :=
  if t.eof ∨ t.text.length < t.pos then (t.line + 1, 0) else (t.line, t.pos)

def nextToken (t : Tokenizer) : Token × Tokenizer :=
  let r := t.nextRealToken
  (⟨r.1.1, String.ofList r.1.2, t.markPos.1, t.markPos.2⟩, r.2)

def tokens : Nat → Tokenizer → List Token
  | 0, _ => []
  | n + 1, t => if t.nextToken.1.id = .eof then [] else t.nextToken.1 :: tokens n t.nextToken.2

def toTokenList (t : Tokenizer) : List Token := tokens t.fuel t

end Tokenizer

def cppLinesTokenizer (lines : List String) : Tokenizer :=
  let t : Tokenizer := ⟨false, [], 1, 0, lines.map String.toList, 0⟩
  if 0 < lines.length then t.fillLineText else { t with eof := true }

/-! ## What is left to read -/

namespace Tokenizer

variable {t : Tokenizer} {c : Char} {l : List Char}

theorem lt_fuel (t : Tokenizer) : t.remaining.length < t.fuel := Nat.lt_succ_self _

theorem remaining_eof (h : t.eof = true) : t.remaining = [] := by
  rw [remaining, if_pos h]

theorem remaining_at (he : t.eof = false) {n : Nat} (hn : n ≤ t.text.length) :
    ({ t with pos := n } : Tokenizer).remaining =
      t.text.drop n ++ tokLN :: (t.lines.drop t.index).flatMap (· ++ [tokLN]) := by
  simp [remaining, he, hn]

theorem remaining_of_pos (he : t.eof = false) (hp : t.pos ≤ t.text.length) :
    t.remaining = t.text.drop t.pos ++ tokLN :: (t.lines.drop t.index).flatMap (· ++ [tokLN]) :=
  remaining_at he hp

theorem remaining_fillLineText (he : t.eof = false) (hp : t.text.length < t.pos) (line : Nat) :
    ({ t with pos := 0, line := line } : Tokenizer).fillLineText.remaining = t.remaining := by
  have hleft : t.remaining = (t.lines.drop t.index).flatMap (· ++ [tokLN]) := by
    simp [remaining, he, Nat.not_le.2 hp]
  rw [hleft, fillLineText]
  cases hl : t.lines[t.index]? with
  | none =>
    rw [getElem?_eq_none_iff] at hl
    simp [remaining, drop_eq_nil_of_le hl]
  | some line =>
    obtain ⟨hlt, rfl⟩ := List.getElem?_eq_some_iff.1 hl
    rw [List.drop_eq_getElem_cons hlt, List.flatMap_cons]
    simp only [remaining, he, Bool.false_eq_true, if_false, Nat.zero_le, if_true, List.drop_zero]

theorem peekChar_spec (t : Tokenizer) : t.peekChar.2.remaining = t.remaining ∧
    (t.remaining = [] ∧ t.peekChar.1 = tokEOF ∧ t.peekChar.2.eof = true ∨
      t.peekChar.2.eof = false ∧ t.peekChar.2.pos ≤ t.peekChar.2.text.length ∧
      t.peekChar.1 = t.peekChar.2.text[t.peekChar.2.pos]?.getD tokLN) := by
  unfold peekChar
  by_cases he : t.eof = true
  · rw [if_pos he]
    exact ⟨rfl, .inl ⟨remaining_eof he, rfl, he⟩⟩
  · rw [if_neg he]
    rw [Bool.not_eq_true] at he
    by_cases hp : t.text.length < t.pos
    · rw [if_pos hp]
      have hrem := remaining_fillLineText he hp (t.line + 1)
      generalize hf : fillLineText { t with pos := 0, line := t.line + 1 } = t' at hrem ⊢
      by_cases he' : t'.eof = true
      · rw [if_pos he']
        exact ⟨hrem, .inl ⟨hrem ▸ remaining_eof he', rfl, he'⟩⟩
      · rw [if_neg he']
        rw [Bool.not_eq_true] at he'
        have hpos : t'.pos = 0 := by
          rw [← hf, fillLineText]
          split <;> rfl
        refine ⟨hrem, .inr ⟨he', ?_, rfl⟩⟩
        rw [hpos]
        exact Nat.zero_le _
    · rw [if_neg hp, if_neg (by simp [he])]
      exact ⟨rfl, .inr ⟨he, Nat.not_lt.1 hp, rfl⟩⟩

theorem peekChar_remaining (t : Tokenizer) : t.peekChar.2.remaining = t.remaining :=
  (peekChar_spec t).1

theorem peekChar_nil (h : t.remaining = []) : t.peekChar.1 = tokEOF ∧ t.peekChar.2.eof = true := by
  rcases (peekChar_spec t).2 with ⟨-, hc, he⟩ | ⟨he, hp, -⟩
  · exact ⟨hc, he⟩
  · have hrem := peekChar_remaining t
    rw [h, remaining_of_pos he hp] at hrem
    simp at hrem

theorem peekChar_cons (h : t.remaining = c :: l) :
    t.peekChar.1 = c ∧ t.peekChar.2.eof = false ∧ t.peekChar.2.skipChar.remaining = l := by
  rcases (peekChar_spec t).2 with ⟨hnil, -, -⟩ | ⟨he, hp, hc⟩
  · rw [h] at hnil
    cases hnil
  · have hrem := peekChar_remaining t
    generalize t.peekChar.2 = t' at he hp hc hrem ⊢
    rw [h, remaining_of_pos he hp] at hrem
    have hskip : t'.skipChar = { t' with pos := t'.pos + 1 } := by
      rw [skipChar, if_neg (by simp [he])]
    rcases Nat.lt_or_eq_of_le hp with hlt | heq
    · rw [List.drop_eq_getElem_cons hlt] at hrem
      obtain ⟨hc', hl⟩ := List.cons.inj hrem
      refine ⟨?_, he, ?_⟩
      · rw [hc, getElem?_eq_getElem hlt]
        exact hc'
      · rw [hskip, remaining_at he hlt]
        exact hl
    · rw [heq, drop_length] at hrem
      obtain ⟨hc', hl⟩ := List.cons.inj hrem
      refine ⟨?_, he, ?_⟩
      · rw [hc, heq, getElem?_eq_none (Nat.le_refl _)]
        exact hc'
      · rw [hskip, remaining, if_neg (by simp [he]), if_neg (by dsimp only; omega)]
        exact hl

theorem nextChar_nil (h : t.remaining = []) :
    t.nextChar.1 = tokEOF ∧ t.nextChar.2.remaining = [] := by
  obtain ⟨hc, he⟩ := peekChar_nil h
  refine ⟨hc, ?_⟩
  show t.peekChar.2.skipChar.remaining = []
  rw [skipChar, if_pos he, remaining_eof he]

theorem nextChar_cons (h : t.remaining = c :: l) :
    t.nextChar.1 = c ∧ t.nextChar.2.eof = false ∧ t.nextChar.2.remaining = l := by
  obtain ⟨hc, he, hl⟩ := peekChar_cons h
  refine ⟨hc, ?_, hl⟩
  show t.peekChar.2.skipChar.eof = false
  rw [skipChar, if_neg (by simp [he])]
  exact he

theorem remaining_advance (he : t.eof = false) {n : Nat} (hn : t.pos + n ≤ t.text.length) :
    t.remaining = (t.text.drop t.pos).take n ++
      ({ t with pos := t.pos + n } : Tokenizer).remaining := by
  rw [remaining_of_pos he (by omega), remaining_at he hn, ← append_assoc, ← drop_drop,
    take_append_drop]

end Tokenizer

end Cpp
