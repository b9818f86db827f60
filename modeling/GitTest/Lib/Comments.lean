import Mathlib.Data.List.Basic

/-!
# Comments in C text

A reading of a text goes through it character by character in one of the modes of `Mode`, and has
nowhere to go at a `//`.  Readers differ in what they take for the end of a literal; all that is
said of them here is `Reader.plain`: there is no `//` comment, and no comment is left open at the
end.  `cReading` is the one of the C standard, for a text whose lines have been spliced.
-/

namespace Comments

inductive Mode
  | code
  | slash
  /-- Behind a backslash that is in no literal. -/
  | escape
  | string
  | stringEscape
  /-- Right behind the quote that opens a character constant. -/
  | charFirst
  | char
  | charEscape
  | comment
  /-- In a comment, behind a star. -/
  | star
  deriving DecidableEq, Repr

abbrev Reader := Mode → Char → Option Mode

/-- No `//` is met from this mode on, and no comment is open at the end. -/
def Reader.plain (R : Reader) : Mode → List Char → Bool
  | m, [] => decide (m ≠ .comment ∧ m ≠ .star)
  | m, c :: l =>
    match R m c with
    | none => false
    | some m' => R.plain m' l

/-- The step of all readings outside literals. -/
def codeStep (c : Char) : Mode :=
  if c = '/' then .slash
  else if c = '\\' then .escape
  else if c = '"' then .string
  else if c = '\'' then .charFirst
  else .code

/-- The step of all readings in and before comments. -/
def slashStep (c : Char) : Option Mode :=
  if c = '/' then none else if c = '*' then some .comment else some (codeStep c)

def commentStep (c : Char) : Mode := if c = '*' then .star else .comment

def starStep (c : Char) : Mode := if c = '/' then .code else commentStep c

/-- A backslash and the newline behind it are dropped. -/
def splice : List Char → List Char
  | [] => []
  | [c] => [c]
  | c :: d :: l => if c = '\\' ∧ d = '\n' then splice l else c :: splice (d :: l)

/-- A backslash takes the next character with it in every place of a literal and nowhere else, and
no literal goes on behind the end of its line. -/
def cReading : Reader
  | .code, c => some (codeStep c)
  | .escape, c => some (codeStep c)
  | .slash, c => slashStep c
  | .string, c =>
    if c = '\\' then some .stringEscape
    else if c = '"' ∨ c = '\n' then some .code
    else some .string
  | .stringEscape, _ => some .string
  | .charFirst, c | .char, c =>
    if c = '\\' then some .charEscape
    else if c = '\'' ∨ c = '\n' then some .code
    else some .char
  | .charEscape, _ => some .char
  | .comment, c => some (commentStep c)
  | .star, c => some (starStep c)

section
variable {R : Reader} {m m' : Mode} {c : Char} {l : List Char}

theorem Reader.plain_cons (h : R m c = some m') : R.plain m (c :: l) = R.plain m' l := by
  rw [plain, h]

theorem Reader.plain_stop (h : R m c = none) : R.plain m (c :: l) = false := by
  rw [plain, h]

theorem Reader.plain_append {w : List Char} (h : ∀ c ∈ w, R m c = some m) (l : List Char) :
    R.plain m (w ++ l) = R.plain m l := by
  induction w with
  | nil => rfl
  | cons c w ih =>
    rw [List.cons_append, plain_cons (h c List.mem_cons_self)]
    exact ih fun d hd => h d (List.mem_cons_of_mem c hd)

theorem codeStep_of_ne (h1 : c ≠ '/') (h2 : c ≠ '\\') (h3 : c ≠ '"') (h4 : c ≠ '\'') :
    codeStep c = .code := by
  rw [codeStep, if_neg h1, if_neg h2, if_neg h3, if_neg h4]

end

end Comments
