import GitTest.Lib.CGrammar
import Mathlib.Data.List.DropRight
import Mathlib.Data.Nat.Digits.Lemmas

/-!
# C conditions: constants, values, text

The value of an integer constant is read from its text: decimal, octal or hexadecimal digits and
a suffix of `U` and `L`.  `value` is the value of a token list under the values of the macros;
`lex` splits a text into tokens, the longest first.

    writeDigits b n is read back as n  (readDigits_writeDigits)
    a word in front of a delimiter is one token  (lexFrom_word)
-/

namespace CGrammar

open CInt List

/-! ## Constants -/

def isSuffixChar (c : Char) : Bool := c = 'u' ∨ c = 'U' ∨ c = 'l' ∨ c = 'L'

/-- Whether a suffix has a `U`; `none` if it is not one. -/
def suffixU (s : List Char) : Option Bool :=
  let long : List (List Char) := [[], ['l'], ['L'], ['l', 'l'], ['L', 'L']]
  let u : List Char := ['u', 'U']
  if s ∈ long then some false
  else if s.head?.any u.contains ∧ s.tail ∈ long then some true
  else if s.getLast?.any u.contains ∧ s.dropLast ∈ long then some true
  else none

def digitVal (c : Char) : Option Nat :=
  if '0' ≤ c ∧ c ≤ '9' then some (c.toNat - '0'.toNat)
  else if 'a' ≤ c ∧ c ≤ 'f' then some (c.toNat - 'a'.toNat + 10)
  else if 'A' ≤ c ∧ c ≤ 'F' then some (c.toNat - 'A'.toNat + 10)
  else none

/-- Read digits behind digits with the value `n`. -/
def readFrom (b n : Nat) (cs : List Char) : Option Nat :=
  cs.foldlM (fun n c => (digitVal c).bind fun d => if d < b then some (n * b + d) else none) n

def readDigits (b : Nat) (cs : List Char) : Option Nat := readFrom b 0 cs

structure Constant where
  base : Nat
  n : Nat
  u : Bool
  deriving DecidableEq, Repr

/-- The constant without its suffix. -/
def readBody (u : Bool) : List Char → Option Constant
  | '0' :: 'x' :: d :: ds | '0' :: 'X' :: d :: ds => (readDigits 16 (d :: ds)).map (⟨16, ·, u⟩)
  | '0' :: ds => (readDigits 8 ds).map (⟨8, ·, u⟩)
  | d :: ds => (readDigits 10 (d :: ds)).map (⟨10, ·, u⟩)
  | [] => none

def readConstant (s : List Char) : Option Constant :=
  (suffixU (s.rtakeWhile isSuffixChar)).bind fun u => readBody u (s.rdropWhile isSuffixChar)

def Constant.value (c : Constant) : Option Value := constant (c.base = 10) c.u c.n

def constantValue (text : String) : Option Value := (readConstant text.toList).bind Constant.value

/-! ## Values -/

/-- A macro that is not defined counts as 0. -/
def Tree.eval (env : String → Option Value) : Tree → Option Value
  | .num text => constantValue text
  | .ident name => some ((env name).getD (.ofBool false))
  | .defined _ name => some (.ofBool (env name).isSome)
  | .paren t => t.eval env
  | .unary op t => (t.eval env).map op.apply
  | .binary op l r => op.apply (l.eval env) (r.eval env)

def value (env : String → Option Value) (ts : List Tok) : Option Value :=
  (parse ts).bind (Tree.eval env)

/-- A condition without its layout: constants by value, no parentheses. -/
inductive Term
  | const (v : Option Value)
  | ident (name : String)
  | defined (name : String)
  | unary (op : UnaryOp) (t : Term)
  | binary (op : BinaryOp) (l r : Term)
  deriving DecidableEq, Repr

def Tree.term : Tree → Term
  | .num text => .const (constantValue text)
  | .ident name => .ident name
  | .defined _ name => .defined name
  | .paren t => t.term
  | .unary op t => .unary op t.term
  | .binary op l r => .binary op l.term r.term

def Term.eval (env : String → Option Value) : Term → Option Value
  | .const v => v
  | .ident name => some ((env name).getD (.ofBool false))
  | .defined name => some (.ofBool (env name).isSome)
  | .unary op t => (t.eval env).map op.apply
  | .binary op l r => op.apply (l.eval env) (r.eval env)

theorem Tree.eval_term (env : String → Option Value) (t : Tree) : t.term.eval env = t.eval env := by
  induction t with
  | num text | ident name | defined parens name => rfl
  | paren t ih => exact ih
  | unary op t ih => rw [Tree.term, Term.eval, Tree.eval, ih]
  | binary op l r ihl ihr => rw [Tree.term, Term.eval, Tree.eval, ihl, ihr]

def Term.ops : Term → Nat
  | .const _ | .ident _ | .defined _ => 0
  | .unary _ t => t.ops
  | .binary _ l r => l.ops + r.ops + 1

theorem ops_tokens (t : Tree) : ops t.tokens = t.term.ops := by
  induction t with
  | num text | ident name => rfl
  | defined parens name => cases parens <;> rfl
  | paren t ih =>
    rw [Tree.tokens, show ops (.lparen :: (t.tokens ++ [.rparen])) = ops (t.tokens ++ [.rparen])
      from rfl, ops_append, ih]
    rfl
  | unary op t ih => exact ih
  | binary op l r ihl ihr =>
    rw [Tree.tokens, ops_append, ops_cons_binary, ihl, ihr]
    rfl

/-! ## Text -/

def isWordChar (c : Char) : Bool := c.isAlphanum || c = '_'

def word (w : List Char) : Tok :=
  if w.head?.any Char.isDigit then .num (String.ofList w)
  else if w = "defined".toList then .defined
  else .ident (String.ofList w)

def flush (w : List Char) : List Tok := if w = [] then [] else [word w]

/-- The token that starts with `c`, and whether it takes the next character too. -/
def symbol (c : Char) (next : Option Char) : Option (Tok × Nat) :=
  let alone (t : Tok) : Option (Tok × Nat) := if next = some '=' then none else some (t, 0)
  if c = '(' then some (.lparen, 0)
  else if c = ')' then some (.rparen, 0)
  else if c = '~' then some (.unary .compl, 0)
  else if c = '!' then if next = some '=' then some (.binary .ne, 1) else some (.unary .not, 0)
  else if c = '=' then if next = some '=' then some (.binary .eq, 1) else none
  else if c = '<' then
    if next = some '<' then some (.binary .shl, 1)
    else if next = some '=' then some (.binary .le, 1) else some (.binary .lt, 0)
  else if c = '>' then
    if next = some '>' then some (.binary .shr, 1)
    else if next = some '=' then some (.binary .ge, 1) else some (.binary .gt, 0)
  else if c = '&' then if next = some '&' then some (.binary .land, 1) else alone (.binary .and)
  else if c = '|' then if next = some '|' then some (.binary .lor, 1) else alone (.binary .or)
  else if c = '+' then if next = some '+' then none else alone (.binary .add)
  else if c = '-' then
    if next = some '-' ∨ next = some '>' then none else alone (.binary .sub)
  else if c = '/' then
    if next = some '/' ∨ next = some '*' then none else alone (.binary .div)
  else if c = '^' then alone (.binary .xor)
  else if c = '*' then alone (.binary .mul)
  else if c = '%' then alone (.binary .mod)
  else none

/-- Split characters into tokens: the first `skip` of them are already taken, `w` are the
characters of the word in front. -/
def lexFrom : Nat → List Char → List Char → Option (List Tok)
  | _, w, [] => some (flush w)
  | skip + 1, w, _ :: cs => lexFrom skip w cs
  | 0, w, c :: cs =>
    if isWordChar c then lexFrom 0 (w ++ [c]) cs
    else if c.isWhitespace then (lexFrom 0 [] cs).map (flush w ++ ·)
    else (symbol c cs.head?).bind fun p => (lexFrom p.2 [] cs).map (flush w ++ p.1 :: ·)

def lex (text : String) : Option (List Tok) := lexFrom 0 [] text.toList

example : lex "!defined(A) && B>=0x10L" = some [.unary .not, .defined, .lparen, .ident "A", .rparen,
    .binary .land, .ident "B", .binary .ge, .num "0x10L"] := by decide +kernel

def Delimited (cs : List Char) : Prop := ∀ c ∈ cs.head?, isWordChar c = false

variable {w cs s : List Char} {ts : List Tok} {b n m : Nat}

theorem lexFrom_append {w' : List Char} (hw : ∀ c ∈ w', isWordChar c = true) (cs : List Char) :
    lexFrom 0 w (w' ++ cs) = lexFrom 0 (w ++ w') cs := by
  induction w' generalizing w with
  | nil => rw [append_nil, nil_append]
  | cons c w' ih =>
    obtain ⟨hc, hw⟩ := forall_mem_cons.1 hw
    rw [cons_append, lexFrom, if_pos hc, ih hw, append_assoc, singleton_append]

theorem lexFrom_flush (w : List Char) (hcs : Delimited cs) :
    lexFrom 0 w cs = (lexFrom 0 [] cs).map (flush w ++ ·) := by
  have hnil : flush [] = [] := rfl
  cases cs with
  | nil => simp [lexFrom, hnil]
  | cons c cs =>
    have hc : isWordChar c = false := hcs c rfl
    simp only [lexFrom, hc, hnil, nil_append]
    rw [if_neg Bool.false_ne_true]
    split
    · cases lexFrom 0 [] cs <;> rfl
    · cases symbol c cs.head? with
      | none => rfl
      | some p => cases h : lexFrom p.2 [] cs <;> simp [h]

theorem lexFrom_word (hne : w ≠ []) (hw : ∀ c ∈ w, isWordChar c = true) (hcs : Delimited cs) :
    lexFrom 0 [] (w ++ cs) = (lexFrom 0 [] cs).map (word w :: ·) := by
  rw [lexFrom_append hw, nil_append, lexFrom_flush w hcs, flush, if_neg hne]
  rfl

/-- The text `s` is split into `ts`, whatever follows it. -/
def Lexes (s : List Char) (ts : List Tok) : Prop :=
  ∀ cs, Delimited cs → lexFrom 0 [] (s ++ cs) = (lexFrom 0 [] cs).map (ts ++ ·)

theorem lexes_word (hne : w ≠ []) (hw : ∀ c ∈ w, isWordChar c = true) :
    Lexes w [word w] := fun _ hcs => lexFrom_word hne hw hcs

theorem lexFrom_lparen (cs : List Char) :
    lexFrom 0 [] ('(' :: cs) = (lexFrom 0 [] cs).map (.lparen :: ·) := rfl

theorem lexFrom_rparen (cs : List Char) :
    lexFrom 0 [] (')' :: cs) = (lexFrom 0 [] cs).map (.rparen :: ·) := rfl

theorem delimited_rparen (cs : List Char) : Delimited (')' :: cs) := by
  intro c hc
  cases hc
  decide

theorem delimited_space (cs : List Char) : Delimited (' ' :: cs) := by
  intro c hc
  cases hc
  decide

theorem lexFrom_not (h : cs.head? ≠ some '=') :
    lexFrom 0 [] ('!' :: cs) = (lexFrom 0 [] cs).map (.unary .not :: ·) := by
  have hword : isWordChar '!' = false := by decide
  have hspace : ('!' : Char).isWhitespace = false := by decide
  have hsymbol : symbol '!' cs.head? = some (.unary .not, 0) := by simp [symbol, h]
  simp [lexFrom, hword, hspace, hsymbol, flush]

theorem Lexes.paren (h : Lexes s ts) :
    Lexes ('(' :: (s ++ [')'])) (.lparen :: (ts ++ [.rparen])) := by
  intro cs _
  rw [cons_append, append_assoc, singleton_append, lexFrom_lparen,
    h _ (delimited_rparen cs), lexFrom_rparen]
  simp [Option.map_map, Function.comp_def]

theorem Lexes.apply {s' : List Char} {ts' : List Tok} (h : Lexes s ts) (h' : Lexes s' ts') :
    Lexes (s ++ '(' :: (s' ++ [')'])) (ts ++ .lparen :: (ts' ++ [.rparen])) := by
  intro cs hcs
  have hdelim : Delimited ('(' :: (s' ++ [')']) ++ cs) := by
    intro c hc
    cases hc
    decide
  rw [append_assoc, h _ hdelim, h'.paren cs hcs]
  simp [Option.map_map, Function.comp_def]

theorem Lexes.not (h : Lexes s ts) (hne : s ≠ []) (hs : s.head? ≠ some '=') :
    Lexes ('!' :: s) (.unary .not :: ts) := by
  intro cs hcs
  have hhead : (s ++ cs).head? ≠ some '=' := by rwa [head?_append_of_ne_nil s hne]
  rw [cons_append, lexFrom_not hhead, h cs hcs]
  simp [Option.map_map, Function.comp_def]

/-! ## Reading constants -/

theorem readFrom_cons {c : Char} :
    readFrom b n (c :: cs) = some m ↔
      ∃ d < b, digitVal c = some d ∧ readFrom b (n * b + d) cs = some m := by
  simp only [readFrom, foldlM_cons, Option.bind_eq_bind, Option.bind_eq_some_iff]
  constructor
  · rintro ⟨k, ⟨d, hd, hk⟩, h⟩
    split at hk
    · next hlt =>
      cases hk
      exact ⟨d, hlt, hd, h⟩
    · cases hk
  · rintro ⟨d, hlt, hd, h⟩
    exact ⟨n * b + d, ⟨d, hd, if_pos hlt⟩, h⟩

theorem digit_of_readFrom (h : readFrom b n cs = some m) :
    ∀ c ∈ cs, ∃ d < b, digitVal c = some d := by
  induction cs generalizing n with
  | nil => simp
  | cons c cs ih =>
    obtain ⟨d, hlt, hd, h⟩ := readFrom_cons.1 h
    exact forall_mem_cons.2 ⟨⟨d, hlt, hd⟩, ih h⟩

theorem exists_readFrom (h : ∀ c ∈ cs, ∃ d < b, digitVal c = some d) :
    ∃ m, readFrom b n cs = some m := by
  induction cs generalizing n with
  | nil => exact ⟨n, rfl⟩
  | cons c cs ih =>
    obtain ⟨⟨d, hlt, hd⟩, h⟩ := forall_mem_cons.1 h
    obtain ⟨m, hm⟩ := ih h
    exact ⟨m, readFrom_cons.2 ⟨d, hlt, hd, hm⟩⟩

theorem le_of_readFrom (hb : 0 < b) (h : readFrom b n cs = some m) :
    n ≤ m := by
  induction cs generalizing n with
  | nil => exact Nat.le_of_eq (Option.some.inj h)
  | cons c cs ih =>
    obtain ⟨d, -, -, h⟩ := readFrom_cons.1 h
    have hle := ih h
    have hmul := Nat.le_mul_of_pos_right n hb
    omega

/-- An octal number below 8 has only zeros in front of its last digit, so it is the same number
in decimal. -/
theorem readFrom_ten_of_lt_eight (h : readFrom 8 n cs = some m) (hm : m < 8) :
    readFrom 10 n cs = some m := by
  induction cs generalizing n with
  | nil => exact h
  | cons c cs ih =>
    obtain ⟨d, hlt, hd, h⟩ := readFrom_cons.1 h
    have hle := le_of_readFrom (by decide) h
    have hn : n = 0 := by omega
    subst hn
    exact readFrom_cons.2 ⟨d, by omega, hd, ih h⟩

/-- Any other octal number is less than the decimal number of its digits. -/
theorem lt_of_readFrom_eight_ten {a : Nat} (h8 : readFrom 8 a cs = some n)
    (h10 : readFrom 10 b cs = some m) (hab : a < b ∨ (a = b ∧ a < 8)) :
    n < m ∨ (n = m ∧ n < 8) := by
  induction cs generalizing a b with
  | nil =>
    cases h8
    cases h10
    exact hab
  | cons c cs ih =>
    obtain ⟨d, hlt, hd, h8⟩ := readFrom_cons.1 h8
    obtain ⟨d', -, hd', h10⟩ := readFrom_cons.1 h10
    have hdd : d = d' := Option.some.inj (hd.symm.trans hd')
    exact ih h8 h10 (by omega)

theorem isDigit_of_digitVal {c : Char} {d : Nat} (h : digitVal c = some d) (hd : d < 10) :
    c.isDigit = true := by
  revert h
  fun_cases digitVal c with
  | case1 hc =>
    intro
    simp only [Char.isDigit, Bool.and_eq_true, decide_eq_true_eq]
    exact ⟨hc.1, hc.2⟩
  | case2 | case3 =>
    rintro ⟨⟩
    omega
  | case4 => rintro ⟨⟩

theorem readBody_eq_some {u : Bool} {body : List Char} {c : Constant}
    (h : readBody u body = some c) :
    (∃ x d ds n, body = '0' :: x :: d :: ds ∧ (x = 'x' ∨ x = 'X') ∧
      readDigits 16 (d :: ds) = some n ∧ c = ⟨16, n, u⟩) ∨
    (∃ ds n, body = '0' :: ds ∧ readDigits 8 ds = some n ∧ c = ⟨8, n, u⟩) ∨
    ∃ d ds n, body = d :: ds ∧ d ≠ '0' ∧ readDigits 10 (d :: ds) = some n ∧ c = ⟨10, n, u⟩ := by
  unfold readBody at h
  split at h
  · next d ds =>
    obtain ⟨n, hn, rfl⟩ := Option.map_eq_some_iff.1 h
    exact .inl ⟨'x', d, ds, n, rfl, .inl rfl, hn, rfl⟩
  · next d ds =>
    obtain ⟨n, hn, rfl⟩ := Option.map_eq_some_iff.1 h
    exact .inl ⟨'X', d, ds, n, rfl, .inr rfl, hn, rfl⟩
  · next ds _ _ =>
    obtain ⟨n, hn, rfl⟩ := Option.map_eq_some_iff.1 h
    exact .inr (.inl ⟨ds, n, rfl, hn, rfl⟩)
  · next d ds _ _ hd =>
    obtain ⟨n, hn, rfl⟩ := Option.map_eq_some_iff.1 h
    exact .inr (.inr ⟨d, ds, n, rfl, hd, hn, rfl⟩)
  · cases h

/-! ## Writing constants -/

/-- The digits of `n`, the most significant first. -/
def writeDigits (b n : Nat) : List Char :=
  if n = 0 then ['0'] else ((Nat.digits b n).map Nat.digitChar).reverse

theorem digitVal_digitChar : ∀ d < 16, digitVal (Nat.digitChar d) = some d := by decide

theorem isWordChar_digitChar : ∀ d < 16, isWordChar (Nat.digitChar d) = true := by decide

theorem isSuffixChar_digitChar : ∀ d < 16, isSuffixChar (Nat.digitChar d) = false := by decide

theorem readFrom_append (b n : Nat) (cs ds : List Char) :
    readFrom b n (cs ++ ds) = (readFrom b n cs).bind fun m => readFrom b m ds :=
  foldlM_append

section
variable {b n : Nat} (hb : 2 ≤ b) (hb' : b ≤ 16)
include hb hb'

theorem readDigits_reverse (l : List Nat) (hl : ∀ d ∈ l, d < b) :
    readDigits b (l.map Nat.digitChar).reverse = some (Nat.ofDigits b l) := by
  induction l with
  | nil => rfl
  | cons d l ih =>
    obtain ⟨hd, hl⟩ := forall_mem_cons.1 hl
    have hv := digitVal_digitChar d (by omega)
    have ih : readFrom b 0 (l.map Nat.digitChar).reverse = some (Nat.ofDigits b l) := ih hl
    show readFrom b 0 _ = _
    rw [map_cons, reverse_cons, readFrom_append, ih]
    simp only [readFrom, List.foldlM, hv, Option.bind_some, if_pos hd, Nat.ofDigits_cons]
    simp [Nat.mul_comm, Nat.add_comm]

theorem readDigits_writeDigits : readDigits b (writeDigits b n) = some n := by
  unfold writeDigits
  split
  · next hn =>
    have h0 : digitVal '0' = some 0 := by decide
    simp [readDigits, readFrom, h0, hn, show 0 < b by omega]
  · rw [readDigits_reverse hb hb' _ (fun d hd => Nat.digits_lt_base (by omega) hd),
      Nat.ofDigits_digits]

theorem exists_digit_of_mem {c : Char} (hc : c ∈ writeDigits b n) :
    ∃ d < b, c = Nat.digitChar d := by
  unfold writeDigits at hc
  split at hc
  · exact ⟨0, by omega, mem_singleton.1 hc⟩
  · rw [mem_reverse, mem_map] at hc
    obtain ⟨d, hd, rfl⟩ := hc
    exact ⟨d, Nat.digits_lt_base (by omega) hd, rfl⟩

end

theorem writeDigits_ne_nil (b n : Nat) : writeDigits b n ≠ [] := by
  unfold writeDigits
  split
  · simp
  · next hn => simp [Nat.digits_ne_nil_iff_ne_zero, hn]

theorem readConstant_of_getLast (hne : s ≠ []) (h : isSuffixChar (s.getLast hne) = false) :
    readConstant s = readBody false s := by
  have ht : s.rtakeWhile isSuffixChar = [] := by
    rw [rtakeWhile_eq_nil_iff]
    intro _
    simp [h]
  have hd : s.rdropWhile isSuffixChar = s := by
    rw [rdropWhile_eq_self_iff]
    intro _
    simp [h]
  rw [readConstant, ht, hd]
  rfl

theorem readBody_of_ne {u : Bool} {d : Char} (hd : d ≠ '0') (ds : List Char) :
    readBody u (d :: ds) = (readDigits 10 (d :: ds)).map (⟨10, ·, u⟩) := by
  unfold readBody
  all_goals simp_all

theorem isSuffixChar_getLast (hb : 2 ≤ b) (hb' : b ≤ 16) :
    isSuffixChar ((writeDigits b n).getLast (writeDigits_ne_nil b n)) = false := by
  obtain ⟨d, hd, he⟩ := exists_digit_of_mem hb hb' (getLast_mem (writeDigits_ne_nil b n))
  rw [he]
  exact isSuffixChar_digitChar d (by omega)

theorem exists_writeDigits_cons (hb : 2 ≤ b) (hb' : b ≤ 16) (hn : n ≠ 0) :
    ∃ c cs, writeDigits b n = c :: cs ∧ c ≠ '0' := by
  have hne : Nat.digits b n ≠ [] := Nat.digits_ne_nil_iff_ne_zero.2 hn
  have hlast := Nat.getLast_digit_ne_zero b hn
  have hlt := Nat.digits_lt_base (by omega : 1 < b) (getLast_mem hne)
  refine ⟨Nat.digitChar ((Nat.digits b n).getLast hne),
    (((Nat.digits b n).dropLast).map Nat.digitChar).reverse, ?_, ?_⟩
  · rw [writeDigits, if_neg hn]
    conv_lhs => rw [← dropLast_append_getLast hne]
    simp
  · have hz : ∀ d < 16, d ≠ 0 → Nat.digitChar d ≠ '0' := by decide
    exact hz _ (by omega) hlast

theorem readConstant_decimal (n : Nat) :
    readConstant (writeDigits 10 n) = some ⟨if n = 0 then 8 else 10, n, false⟩ := by
  rw [readConstant_of_getLast (writeDigits_ne_nil 10 n)
    (isSuffixChar_getLast (by decide) (by decide))]
  by_cases hn : n = 0
  · subst hn
    rfl
  · have hread := readDigits_writeDigits (b := 10) (n := n) (by decide) (by decide)
    obtain ⟨c, cs, hc, hne⟩ := exists_writeDigits_cons (b := 10) (by decide) (by decide) hn
    rw [hc] at hread
    rw [hc, readBody_of_ne hne, hread, if_neg hn]
    rfl

theorem readConstant_hexadecimal (n : Nat) :
    readConstant ('0' :: 'x' :: writeDigits 16 n) = some ⟨16, n, false⟩ := by
  have hlast : ('0' :: 'x' :: writeDigits 16 n).getLast (by simp) =
      (writeDigits 16 n).getLast (writeDigits_ne_nil 16 n) := by
    rw [getLast_cons (by simp), getLast_cons (writeDigits_ne_nil 16 n)]
  rw [readConstant_of_getLast (by simp)
    (by rw [hlast]; exact isSuffixChar_getLast (by decide) (by decide))]
  have hread := readDigits_writeDigits (b := 16) (n := n) (by decide) (by decide)
  obtain ⟨c, cs, hc⟩ := exists_cons_of_ne_nil (writeDigits_ne_nil 16 n)
  rw [hc] at hread ⊢
  rw [readBody, hread]
  rfl

end CGrammar
