import GitTest.Lib.Split

/-!
# Hard wrapping of a commit message (SpellcheckableMessageArea.java)

`calculateWrapEdits` goes through the words of every line of the text and collects the
spaces that are to become line breaks, as offsets into the text with the earlier edits
applied.  Text is a list of UTF-16 code units.

The offsets miss a space where a word of at least `maxLineLength` characters follows the
single space that a line begins with (`Clean` says that no break comes after such a place).
A text is seen here as its words, each with what stands before it; wrapping turns some of
the spaces between them into line breaks (`fill`).

    Clean m d text → wrap m d text = text with its words filled  (wrap_eq)
-/

namespace Egit.HardWrap

open List Split

/-! ## Algorithm -/

abbrev CodeUnit := UInt16
abbrev Text := List CodeUnit

def space : CodeUnit := 32

inductive LineDelimiter
  | lf
  | crlf
  deriving DecidableEq, Repr

def LineDelimiter.text : LineDelimiter → Text
  | .lf => [10]
  | .crlf => [13, 10]

/-- `SpellcheckableMessageArea.MAX_LINE_WIDTH`. -/
def maxLineWidth : Nat := 72

structure WrapEdit where
  start : Nat
  length : Nat
  deriving DecidableEq, Repr

/-- The variables of `calculateWrapEdits`. -/
structure Cursor where
  offset : Nat
  lineLength : Nat
  wrapEdits : List WrapEdit
  deriving DecidableEq, Repr

section
variable (maxLineLength : Nat) (lineDelimiter : LineDelimiter)

/-- The body of the loop over the words. -/
def wordStep (wordIndex : Nat) (c : Cursor) (word : Text) : Cursor :=
  if c.lineLength + word.length + 1 > maxLineLength then
    if c.lineLength ≠ 0 then
      ⟨c.offset + lineDelimiter.text.length + word.length, word.length,
        c.wrapEdits ++ [⟨c.offset, 1⟩]⟩
    else ⟨c.offset + word.length, word.length, c.wrapEdits⟩
  else if wordIndex ≠ 0 then
    ⟨c.offset + 1 + word.length, c.lineLength + 1 + word.length, c.wrapEdits⟩
  else ⟨c.offset + word.length, c.lineLength + word.length, c.wrapEdits⟩

def wordLoop (wordIndex : Nat) (c : Cursor) : List Text → Cursor
  | [] => c
  | word :: words =>
    wordLoop (wordIndex + 1) (wordStep maxLineLength lineDelimiter wordIndex c word) words

def chunkStep (c : Cursor) (chunk : Text) : Cursor :=
  wordLoop maxLineLength lineDelimiter 0 { c with lineLength := 0 } (split [space] chunk)

/-- The offset moves over the delimiter between two chunks. -/
def nextChunk (c : Cursor) : Cursor :=
  { c with offset := c.offset + lineDelimiter.text.length }

def chunkLoop (c : Cursor) : List Text → Cursor
  | [] => c
  | [chunk] => chunkStep maxLineLength lineDelimiter c chunk
  | chunk :: chunks =>
    chunkLoop (nextChunk lineDelimiter (chunkStep maxLineLength lineDelimiter c chunk)) chunks

def calculateWrapEdits (text : Text) : List WrapEdit :=
  (chunkLoop maxLineLength lineDelimiter ⟨0, 0, []⟩ (split lineDelimiter.text text)).wrapEdits

end

def replaceTextRange (lineDelimiter : LineDelimiter) (text : Text) (edit : WrapEdit) : Text :=
  text.take edit.start ++ lineDelimiter.text ++ text.drop (edit.start + edit.length)

def applyEdits (lineDelimiter : LineDelimiter) (text : Text) (edits : List WrapEdit) : Text :=
  edits.foldl (replaceTextRange lineDelimiter) text

def wrap (maxLineLength : Nat) (lineDelimiter : LineDelimiter) (text : Text) : Text :=
  applyEdits lineDelimiter text (calculateWrapEdits maxLineLength lineDelimiter text)

def modifyText (lineDelimiter : LineDelimiter) (text : Text) : Text :=
  wrap maxLineWidth lineDelimiter text

/-! ## What wrapping may do -/

/-- Some spaces are replaced by the delimiter, everything else is kept. -/
inductive Broken (lineDelimiter : LineDelimiter) : Text → Text → Prop
  | nil : Broken lineDelimiter [] []
  | keep {t r : Text} (c : CodeUnit) (h : Broken lineDelimiter t r) :
    Broken lineDelimiter (c :: t) (c :: r)
  | brk {t r : Text} (h : Broken lineDelimiter t r) :
    Broken lineDelimiter (space :: t) (lineDelimiter.text ++ r)

def OneWord (line : Text) : Prop :=
  ∃ a word b, space ∉ word ∧ line = List.replicate a space ++ word ++ List.replicate b space

def Fits (maxLineLength : Nat) (line : Text) : Prop :=
  line.length ≤ maxLineLength ∨ OneWord line

/-! ## Texts as words -/

/-- What stands before a word. -/
inductive Sep
  | space
  | newline
  deriving DecidableEq, Repr

abbrev Token := Sep × Text

def Token.text (lineDelimiter : LineDelimiter) : Token → Text
  | (.space, word) => HardWrap.space :: word
  | (.newline, word) => lineDelimiter.text ++ word

def render (lineDelimiter : LineDelimiter) (tokens : List Token) : Text :=
  tokens.flatMap (Token.text lineDelimiter)

/-- The words of the chunks behind the first one. -/
def chunkTokens : List (List Text) → List Token
  | [] => []
  | [] :: chunks => chunkTokens chunks
  | (word :: words) :: chunks =>
    (.newline, word) :: (words.map fun w => (.space, w)) ++ chunkTokens chunks

def layout (lineDelimiter : LineDelimiter) (text : Text) : Text × List Token :=
  match (split lineDelimiter.text text).map (split [space]) with
  | (word :: words) :: chunks => (word, (words.map fun w => (.space, w)) ++ chunkTokens chunks)
  | _ => ([], [])

/-- The lines, where `line` is the first one as far as it is known. -/
def linesOf (line : Text) : List Token → List Text
  | [] => [line]
  | (.space, word) :: tokens => linesOf (line ++ space :: word) tokens
  | (.newline, word) :: tokens => line :: linesOf word tokens

section
variable (m : Nat)

/-- Fill the lines: a word that does not fit behind `n` characters gets a new line, unless
the line is empty. -/
def fill : Nat → List Token → List Token
  | _, [] => []
  | _, (.newline, word) :: tokens => (.newline, word) :: fill word.length tokens
  | n, (.space, word) :: tokens =>
    if n + word.length + 1 > m ∧ n ≠ 0 then (.newline, word) :: fill word.length tokens
    else (.space, word) :: fill (n + 1 + word.length) tokens

/-- Nothing is wrapped after a space whose place was missed. -/
def CleanFrom : Nat → List Token → Prop
  | _, [] => True
  | _, (.newline, word) :: tokens => CleanFrom word.length tokens
  | n, (.space, word) :: tokens =>
    if n + word.length + 1 > m then
      if n ≠ 0 then CleanFrom word.length tokens
      else fill m (1 + word.length) tokens = tokens
    else CleanFrom (n + 1 + word.length) tokens

end

def Clean (m : Nat) (lineDelimiter : LineDelimiter) (text : Text) : Prop :=
  CleanFrom m (layout lineDelimiter text).1.length (layout lineDelimiter text).2

/-! ## The loops go through the words -/

section
variable {m : Nat} {d : LineDelimiter}

theorem delimiter_ne_nil (d : LineDelimiter) : d.text ≠ [] := by
  cases d <;> decide

theorem space_ne_nil : [space] ≠ [] := cons_ne_nil _ _

def tokenStep (m : Nat) (d : LineDelimiter) (c : Cursor) : Token → Cursor
  | (.space, word) => wordStep m d 1 c word
  | (.newline, word) => wordStep m d 0 { nextChunk d c with lineLength := 0 } word

theorem wordLoop_eq (i : Nat) (c : Cursor) (words : List Text) :
    wordLoop m d (i + 1) c words =
      (words.map fun w => (Sep.space, w)).foldl (tokenStep m d) c := by
  induction words generalizing i c with
  | nil => rfl
  | cons w ws ih =>
    unfold wordLoop
    rw [ih]
    rfl

theorem chunkLoop_eq (c : Cursor) (chunk : Text) (chunks : List Text) :
    chunkLoop m d c (chunk :: chunks) =
      (chunkTokens (chunks.map (split [space]))).foldl (tokenStep m d) (chunkStep m d c chunk) := by
  induction chunks generalizing c chunk with
  | nil => rfl
  | cons next chunks ih =>
    show chunkLoop m d (nextChunk d (chunkStep m d c chunk)) (next :: chunks) = _
    rw [ih]
    obtain ⟨w, ws, hw⟩ := exists_cons_of_ne_nil (split_ne_nil space_ne_nil next)
    rw [map_cons, hw, chunkTokens, cons_append, foldl_cons, foldl_append, chunkStep, hw]
    rw [wordLoop, wordLoop_eq]
    rfl

theorem wordStep_first (o : Nat) (edits : List WrapEdit) (word : Text) :
    wordStep m d 0 ⟨o, 0, edits⟩ word = ⟨o + word.length, word.length, edits⟩ := by
  unfold wordStep
  split
  · rfl
  · show Cursor.mk _ _ _ = _
    simp

theorem layout_eq (d : LineDelimiter) (text : Text) : ∃ word words chunk chunks,
    split d.text text = chunk :: chunks ∧ split [space] chunk = word :: words ∧
      layout d text = (word, (words.map fun w => (.space, w)) ++
        chunkTokens (chunks.map (split [space]))) := by
  obtain ⟨chunk, chunks, hc⟩ := exists_cons_of_ne_nil (split_ne_nil (delimiter_ne_nil d) text)
  obtain ⟨word, words, hw⟩ := exists_cons_of_ne_nil (split_ne_nil space_ne_nil chunk)
  refine ⟨word, words, chunk, chunks, hc, hw, ?_⟩
  unfold layout
  rw [hc, map_cons, hw]

theorem calculateWrapEdits_eq (text : Text) : calculateWrapEdits m d text =
    ((layout d text).2.foldl (tokenStep m d)
      ⟨(layout d text).1.length, (layout d text).1.length, []⟩).wrapEdits := by
  obtain ⟨word, words, chunk, chunks, hc, hw, hl⟩ := layout_eq d text
  unfold calculateWrapEdits
  rw [hl, hc, chunkLoop_eq, chunkStep, hw, wordLoop, wordLoop_eq, foldl_append,
    wordStep_first, Nat.zero_add]

end

/-! ## One step -/

section
variable {m : Nat} {d : LineDelimiter} {o n : Nat} {edits : List WrapEdit}

/-- `lineLength` for a line of `n` characters: a missed space at its start is not counted. -/
def Tracks (m n lineLength : Nat) : Prop :=
  lineLength = n ∨ (n = lineLength + 1 ∧ m ≤ lineLength)

theorem tokenStep_newline (o l : Nat) (edits : List WrapEdit) (word : Text) :
    tokenStep m d ⟨o, l, edits⟩ (.newline, word) =
      ⟨o + d.text.length + word.length, word.length, edits⟩ :=
  wordStep_first _ _ _

theorem tokenStep_wrap {l : Nat} {word : Text} (hm : 1 ≤ m) (ht : Tracks m n l)
    (hw : n + word.length + 1 > m ∧ n ≠ 0) :
    tokenStep m d ⟨o, l, edits⟩ (.space, word) =
      ⟨o + d.text.length + word.length, word.length, edits ++ [⟨o, 1⟩]⟩ := by
  have hl : l + word.length + 1 > m ∧ l ≠ 0 := by
    unfold Tracks at ht
    omega
  show wordStep m d 1 ⟨o, l, edits⟩ word = _
  unfold wordStep
  rw [if_pos hl.1, if_pos hl.2]

theorem tokenStep_missed {word : Text} (hw : 0 + word.length + 1 > m) :
    tokenStep m d ⟨o, 0, edits⟩ (.space, word) = ⟨o + word.length, word.length, edits⟩ := by
  show wordStep m d 1 ⟨o, 0, edits⟩ word = _
  unfold wordStep
  rw [if_pos hw]
  rfl

theorem tokenStep_fit {word : Text} (hw : ¬ n + word.length + 1 > m) :
    tokenStep m d ⟨o, n, edits⟩ (.space, word) =
      ⟨o + 1 + word.length, n + 1 + word.length, edits⟩ := by
  show wordStep m d 1 ⟨o, n, edits⟩ word = _
  unfold wordStep
  rw [if_neg hw]
  rfl

theorem tokenStep_stay {l : Nat} {word : Text} (ht : Tracks m n l)
    (hw : ¬ (n + word.length + 1 > m ∧ n ≠ 0)) : ∃ o' l',
    tokenStep m d ⟨o, l, edits⟩ (.space, word) = ⟨o', l', edits⟩ ∧
      o' ≤ o + 1 + word.length ∧ Tracks m (n + 1 + word.length) l' := by
  unfold Tracks at ht
  by_cases hlong : n + word.length + 1 > m
  · obtain rfl : n = 0 := by omega
    obtain rfl : l = 0 := by omega
    exact ⟨_, _, tokenStep_missed hlong, by omega, .inr ⟨by omega, by omega⟩⟩
  · obtain rfl : l = n := by omega
    exact ⟨_, _, tokenStep_fit hlong, Nat.le_refl _, .inl rfl⟩

theorem tokenStep_edits (l : Nat) (token : Token) :
    tokenStep m d ⟨o, l, edits⟩ token =
      { tokenStep m d ⟨o, l, []⟩ token with
        wrapEdits := edits ++ (tokenStep m d ⟨o, l, []⟩ token).wrapEdits } := by
  have hword : ∀ i o l word, wordStep m d i ⟨o, l, edits⟩ word =
      { wordStep m d i ⟨o, l, []⟩ word with
        wrapEdits := edits ++ (wordStep m d i ⟨o, l, []⟩ word).wrapEdits } := by
    intro i o l word
    unfold wordStep
    split
    · split
      · rfl
      · simp
    · split
      · simp
      · simp
  obtain ⟨sep, word⟩ := token
  cases sep with
  | space => exact hword 1 o l word
  | newline => exact hword 0 (o + d.text.length) 0 word

theorem foldl_edits (c : Cursor) (tokens : List Token) :
    (tokens.foldl (tokenStep m d) c).wrapEdits =
      c.wrapEdits ++ (tokens.foldl (tokenStep m d) ⟨c.offset, c.lineLength, []⟩).wrapEdits := by
  induction tokens generalizing c with
  | nil => exact (append_nil _).symm
  | cons token tokens ih =>
    rw [foldl_cons, foldl_cons, ih, ih (tokenStep m d ⟨_, _, []⟩ token), tokenStep_edits]
    exact append_assoc ..

end

/-! ## The edits -/

section
variable (m : Nat) (d : LineDelimiter)

/-- The edits that fill a text, from the offset `o` in the result on. -/
def fillEdits : Nat → Nat → List Token → List WrapEdit
  | _, _, [] => []
  | o, _, (.newline, word) :: tokens =>
    fillEdits (o + d.text.length + word.length) word.length tokens
  | o, n, (.space, word) :: tokens =>
    if n + word.length + 1 > m ∧ n ≠ 0 then
      ⟨o, 1⟩ :: fillEdits (o + d.text.length + word.length) word.length tokens
    else fillEdits (o + 1 + word.length) (n + 1 + word.length) tokens

end

section
variable {m : Nat} {d : LineDelimiter}

theorem replaceTextRange_space (pre rest : Text) :
    replaceTextRange d (pre ++ space :: rest) ⟨pre.length, 1⟩ = pre ++ (d.text ++ rest) := by
  show (pre ++ space :: rest).take pre.length ++ d.text ++
    (pre ++ space :: rest).drop (pre.length + 1) = _
  rw [take_left, ← drop_drop, drop_left, append_assoc]
  rfl

/-- The edits turn the text into the filled one: `pre` is the result so far, and behind it
stands the rest of the text as it was. -/
theorem applyEdits_fillEdits (pre : Text) (n : Nat) (tokens : List Token) :
    applyEdits d (pre ++ render d tokens) (fillEdits m d pre.length n tokens) =
      pre ++ render d (fill m n tokens) := by
  induction tokens generalizing pre n with
  | nil => rfl
  | cons token tokens ih =>
    obtain ⟨sep, word⟩ := token
    have hbreak := ih (pre ++ (d.text ++ word)) word.length
    have hstay := ih (pre ++ space :: word) (n + 1 + word.length)
    rw [append_assoc pre, append_assoc pre, length_append, length_append, ← Nat.add_assoc] at hbreak
    rw [append_assoc pre, append_assoc pre, length_append, length_cons,
      ← Nat.add_assoc, Nat.add_right_comm] at hstay
    cases sep with
    | newline =>
      exact hbreak
    | space =>
      by_cases hw : n + word.length + 1 > m ∧ n ≠ 0
      · rw [fillEdits, fill, if_pos hw, if_pos hw]
        show applyEdits d (replaceTextRange d (pre ++ space :: (word ++ render d tokens)) _) _ = _
        rw [replaceTextRange_space, ← append_assoc d.text]
        exact hbreak
      · rw [fillEdits, fill, if_neg hw, if_neg hw]
        exact hstay

theorem edits_of_fill_eq {tokens : List Token} {n : Nat} (hfill : fill m n tokens = tokens)
    (o p : Nat) {l : Nat} (ht : Tracks m n l) :
    (tokens.foldl (tokenStep m d) ⟨o, l, []⟩).wrapEdits = fillEdits m d p n tokens := by
  induction n, tokens using fill.induct m generalizing o p l with
  | case1 => rfl
  | case2 n word tokens ih =>
    rw [fill, List.cons.injEq] at hfill
    rw [foldl_cons, tokenStep_newline]
    exact ih hfill.2 _ _ (.inl rfl)
  | case3 n word tokens hw ih =>
    rw [fill, if_pos hw, List.cons.injEq] at hfill
    exact absurd hfill.1 (by simp)
  | case4 n word tokens hw ih =>
    rw [fill, if_neg hw, List.cons.injEq] at hfill
    obtain ⟨o', l', hstep, -, ht'⟩ := tokenStep_stay ht hw
    rw [foldl_cons, hstep, fillEdits, if_neg hw]
    exact ih hfill.2 _ _ ht'

/-- Once a space is missed, the next edit comes too early. -/
theorem edits_ne_of_lt (hm : 1 ≤ m) {tokens : List Token} {n : Nat}
    (hfill : fill m n tokens ≠ tokens) {o p l : Nat} (ho : o < p) (ht : Tracks m n l) :
    (tokens.foldl (tokenStep m d) ⟨o, l, []⟩).wrapEdits ≠ fillEdits m d p n tokens := by
  induction n, tokens using fill.induct m generalizing o p l with
  | case1 => exact absurd rfl hfill
  | case2 n word tokens ih =>
    rw [foldl_cons, tokenStep_newline]
    refine ih (fun h => hfill ?_) (by omega) (.inl rfl)
    rw [fill, h]
  | case3 n word tokens hw ih =>
    rw [foldl_cons, tokenStep_wrap hm ht hw, foldl_edits, fillEdits, if_pos hw]
    intro h
    have hstart : o = p := (WrapEdit.mk.inj (List.cons.inj h).1).1
    omega
  | case4 n word tokens hw ih =>
    obtain ⟨o', l', hstep, ho', ht'⟩ := tokenStep_stay ht hw
    rw [foldl_cons, hstep, fillEdits, if_neg hw]
    refine ih (fun h => hfill ?_) (by omega) ht'
    rw [fill, if_neg hw, h]

theorem edits_eq_iff (hm : 1 ≤ m) (o n : Nat) (tokens : List Token) :
    (tokens.foldl (tokenStep m d) ⟨o, n, []⟩).wrapEdits = fillEdits m d o n tokens ↔
      CleanFrom m n tokens := by
  induction n, tokens using CleanFrom.induct m generalizing o with
  | case1 => exact ⟨fun _ => trivial, fun _ => rfl⟩
  | case2 n word tokens ih =>
    rw [foldl_cons, tokenStep_newline]
    exact ih _
  | case3 n word tokens hlong hn ih =>
    rw [foldl_cons, tokenStep_wrap hm (.inl rfl) ⟨hlong, hn⟩, foldl_edits, fillEdits,
      if_pos ⟨hlong, hn⟩, CleanFrom, if_pos hlong, if_pos hn, ← ih]
    exact cons_inj_right _
  | case4 n word tokens hlong hn =>
    obtain rfl := not_not.1 hn
    have ht : Tracks m (0 + 1 + word.length) word.length := .inr ⟨by omega, by omega⟩
    rw [foldl_cons, tokenStep_missed hlong, fillEdits, if_neg (fun h => h.2 rfl), CleanFrom,
      if_pos hlong]
    constructor
    · intro h
      by_contra hfill
      exact edits_ne_of_lt hm hfill (by omega) ht h
    · intro hfill
      exact edits_of_fill_eq hfill _ _ ht
  | case5 n word tokens hlong ih =>
    rw [foldl_cons, tokenStep_fit hlong, fillEdits, if_neg (fun h => hlong h.1), CleanFrom,
      if_neg hlong]
    exact ih _

/-- The edits are those that fill the text exactly if nothing is wrapped after a missed space. -/
theorem calculateWrapEdits_eq_iff (hm : 1 ≤ m) (text : Text) :
    calculateWrapEdits m d text =
        fillEdits m d (layout d text).1.length (layout d text).1.length (layout d text).2 ↔
      Clean m d text := by
  rw [calculateWrapEdits_eq]
  exact edits_eq_iff hm _ _ _

end

/-! ## Lines -/

section
variable {m : Nat} {d : LineDelimiter}

theorem linesOf_eq (line : Text) (tokens : List Token) :
    ∃ rest lines, linesOf line tokens = (line ++ rest) :: lines := by
  fun_induction linesOf line tokens with
  | case1 line => exact ⟨[], [], by rw [append_nil]⟩
  | case2 line word tokens ih =>
    obtain ⟨rest, lines, h⟩ := ih
    refine ⟨space :: word ++ rest, lines, ?_⟩
    rw [h, append_assoc]
  | case3 line word tokens => exact ⟨[], linesOf word tokens, by rw [append_nil]⟩

theorem linesOf_ne_nil (line : Text) (tokens : List Token) : linesOf line tokens ≠ [] := by
  obtain ⟨rest, lines, h⟩ := linesOf_eq line tokens
  rw [h]
  exact cons_ne_nil _ _

theorem intercalate_linesOf (line : Text) (tokens : List Token) :
    d.text.intercalate (linesOf line tokens) = line ++ render d tokens := by
  fun_induction linesOf line tokens with
  | case1 line =>
    rw [intercalate_singleton]
    exact (append_nil line).symm
  | case2 line word tokens ih =>
    rw [ih, append_assoc]
    rfl
  | case3 line word tokens ih =>
    obtain ⟨rest, lines, h⟩ := linesOf_eq word tokens
    rw [h] at ih
    rw [h, intercalate_cons_cons, ih, append_assoc]
    show _ = line ++ (d.text ++ word ++ render d tokens)
    rw [append_assoc]

theorem linesOf_space (line : Text) (words : List Text) (tokens : List Token) :
    linesOf line ((words.map fun w => (Sep.space, w)) ++ tokens) =
      linesOf ([space].intercalate (line :: words)) tokens := by
  induction words generalizing line with
  | nil => rw [intercalate_singleton]; rfl
  | cons w ws ih =>
    show linesOf (line ++ space :: w) ((ws.map fun w => (Sep.space, w)) ++ tokens) = _
    rw [ih, intercalate_cons_cons]
    cases ws with
    | nil => rw [intercalate_singleton, intercalate_singleton, append_assoc]; rfl
    | cons v vs =>
      simp [append_assoc]

theorem linesOf_chunkTokens (line : Text) (chunks : List Text) :
    linesOf line (chunkTokens (chunks.map (split [space]))) = line :: chunks := by
  induction chunks generalizing line with
  | nil => rfl
  | cons chunk chunks ih =>
    obtain ⟨w, ws, hw⟩ := exists_cons_of_ne_nil (split_ne_nil space_ne_nil chunk)
    have hchunk := intercalate_split space_ne_nil chunk
    rw [hw] at hchunk
    rw [map_cons, hw, chunkTokens, cons_append, linesOf, linesOf_space, hchunk, ih]

theorem linesOf_layout (text : Text) :
    linesOf (layout d text).1 (layout d text).2 = split d.text text := by
  obtain ⟨word, words, chunk, chunks, hc, hw, hl⟩ := layout_eq d text
  have hchunk := intercalate_split space_ne_nil chunk
  rw [hw] at hchunk
  rw [hl, hc, linesOf_space, hchunk, linesOf_chunkTokens]

theorem layout_text (text : Text) :
    (layout d text).1 ++ render d (layout d text).2 = text := by
  rw [← intercalate_linesOf, linesOf_layout, intercalate_split (delimiter_ne_nil d)]

theorem space_notMem_of_free {w : Text} (h : Free [space] w) : space ∉ w := by
  intro hmem
  obtain ⟨a, b, rfl⟩ := append_of_mem hmem
  exact h ⟨a, b, by simp⟩

theorem chunkTokens_words {chunks : List (List Text)}
    (h : ∀ words ∈ chunks, ∀ w ∈ words, space ∉ w) : ∀ t ∈ chunkTokens chunks, space ∉ t.2 := by
  induction chunks with
  | nil => intro t ht; cases ht
  | cons words chunks ih =>
    have ih := ih fun ws hws => h ws (mem_cons_of_mem _ hws)
    have hwords := h words mem_cons_self
    cases words with
    | nil => exact ih
    | cons w ws =>
      intro t ht
      rcases mem_append.1 ht with ht | ht
      · rcases mem_cons.1 ht with rfl | ht
        · exact hwords w mem_cons_self
        · obtain ⟨v, hv, rfl⟩ := mem_map.1 ht
          exact hwords v (mem_cons_of_mem _ hv)
      · exact ih t ht

theorem layout_words (text : Text) :
    space ∉ (layout d text).1 ∧ ∀ t ∈ (layout d text).2, space ∉ t.2 := by
  obtain ⟨word, words, chunk, chunks, -, hw, hl⟩ := layout_eq d text
  have hword : ∀ c : Text, ∀ w ∈ split [space] c, space ∉ w := fun c w h =>
    space_notMem_of_free (free_of_mem_split space_ne_nil c w h)
  have hfirst := hword chunk
  rw [hw] at hfirst
  rw [hl]
  refine ⟨hfirst word mem_cons_self, ?_⟩
  intro t ht
  rcases mem_append.1 ht with ht | ht
  · obtain ⟨v, hv, rfl⟩ := mem_map.1 ht
    exact hfirst v (mem_cons_of_mem _ hv)
  · refine chunkTokens_words ?_ t ht
    intro ws hws
    obtain ⟨c, -, rfl⟩ := mem_map.1 hws
    exact hword c

end

/-! ## The filled text -/

section
variable {m : Nat} {d : LineDelimiter}

theorem Broken.append_left (pre : Text) {t r : Text} (h : Broken d t r) :
    Broken d (pre ++ t) (pre ++ r) := by
  induction pre with
  | nil => exact h
  | cons c pre ih => exact .keep c ih

theorem broken_fill (n : Nat) (tokens : List Token) :
    Broken d (render d tokens) (render d (fill m n tokens)) := by
  fun_induction fill m n tokens with
  | case1 => exact .nil
  | case2 n word tokens ih =>
    exact ih.append_left _
  | case3 n word tokens hw ih =>
    show Broken d (space :: (word ++ render d tokens)) (d.text ++ word ++ render d _)
    rw [append_assoc]
    exact .brk (ih.append_left word)
  | case4 n word tokens hw ih =>
    exact ih.append_left _

theorem oneWord_of_notMem {word : Text} (h : space ∉ word) : OneWord word :=
  ⟨0, word, 0, h, by simp⟩

theorem fits_fill {tokens : List Token} (hwords : ∀ t ∈ tokens, space ∉ t.2) {line : Text}
    (hline : Fits m line) : ∀ l ∈ linesOf line (fill m line.length tokens), Fits m l := by
  induction tokens generalizing line with
  | nil =>
    intro l hl
    rw [mem_singleton.1 hl]
    exact hline
  | cons token tokens ih =>
    obtain ⟨sep, word⟩ := token
    have hword : space ∉ word := hwords (sep, word) mem_cons_self
    have ih := @ih fun t ht => hwords t (mem_cons_of_mem _ ht)
    have hbreak : ∀ l ∈ line :: linesOf word (fill m word.length tokens), Fits m l := by
      intro l hl
      rcases mem_cons.1 hl with rfl | hl
      · exact hline
      · exact ih (.inr (oneWord_of_notMem hword)) l hl
    cases sep with
    | newline => exact hbreak
    | space =>
      by_cases hw : line.length + word.length + 1 > m ∧ line.length ≠ 0
      · rw [fill, if_pos hw]
        exact hbreak
      · rw [fill, if_neg hw]
        have hlen : (line ++ space :: word).length = line.length + 1 + word.length := by
          rw [length_append, length_cons]
          omega
        rw [← hlen]
        apply ih
        by_cases hlong : line.length + word.length + 1 > m
        · -- the line was empty, so it holds this word alone
          have hnil : line = [] := length_eq_zero_iff.1 (by omega)
          rw [hnil]
          exact .inr ⟨1, word, 0, hword, by simp⟩
        · exact .inl (by omega)

/-- The lines of the filled text are parts of the lines of the text. -/
theorem free_fill {tokens : List Token} (pre : Text) {line : Text} (n : Nat)
    (h : ∀ l ∈ linesOf (pre ++ line) tokens, Free d.text l) :
    ∀ l ∈ linesOf line (fill m n tokens), Free d.text l := by
  induction tokens generalizing pre line n with
  | nil =>
    intro l hl
    rw [mem_singleton.1 hl]
    exact (h _ mem_cons_self).of_piece (suffix_append pre line).isInfix
  | cons token tokens ih =>
    obtain ⟨sep, word⟩ := token
    -- the first line goes on behind `line`
    have hline : Free d.text line := by
      obtain ⟨rest, lines, heq⟩ := linesOf_eq (pre ++ line) ((sep, word) :: tokens)
      rw [heq] at h
      exact (h _ mem_cons_self).of_piece ⟨pre, rest, rfl⟩
    cases sep with
    | newline =>
      intro l hl
      rcases mem_cons.1 hl with rfl | hl
      · exact hline
      · exact ih [] word.length (fun l hl => h l (mem_cons_of_mem _ hl)) l hl
    | space =>
      by_cases hw : n + word.length + 1 > m ∧ n ≠ 0
      · rw [fill, if_pos hw]
        intro l hl
        rcases mem_cons.1 hl with rfl | hl
        · exact hline
        · refine ih (pre ++ line ++ [space]) word.length ?_ l hl
          rwa [append_assoc (pre ++ line), singleton_append]
      · rw [fill, if_neg hw]
        refine ih pre _ ?_
        rwa [← append_assoc]

theorem unbordered (d : LineDelimiter) : Unbordered d.text := by
  intro s hp hs
  have hmem := (mem_inits s _).2 hp
  cases d with
  | lf =>
    have hmem : s ∈ [[], [10]] := hmem
    simp only [mem_cons, not_mem_nil, or_false] at hmem
    rcases hmem with rfl | rfl
    · exact .inl rfl
    · exact .inr rfl
  | crlf =>
    have hmem : s ∈ [[], [13], [13, 10]] := hmem
    simp only [mem_cons, not_mem_nil, or_false] at hmem
    rcases hmem with rfl | rfl | rfl
    · exact .inl rfl
    · exact absurd hs (by decide)
    · exact .inr rfl

/-! ## Wrapping -/

theorem wrap_eq (hm : 1 ≤ m) {text : Text} (h : Clean m d text) :
    wrap m d text =
      (layout d text).1 ++ render d (fill m (layout d text).1.length (layout d text).2) := by
  have hedits := applyEdits_fillEdits (m := m) (d := d) (layout d text).1
    (layout d text).1.length (layout d text).2
  rw [layout_text] at hedits
  unfold wrap
  rw [(calculateWrapEdits_eq_iff hm text).2 h, hedits]

/-- **Hard wrapping.**  If nothing is wrapped after a missed space, wrapping only turns spaces
into line breaks, and every line is short enough or one word. -/
theorem wrap_breaks_spaces (hm : 1 ≤ m) {text : Text} (h : Clean m d text) :
    Broken d text (wrap m d text) ∧ ∀ line ∈ split d.text (wrap m d text), Fits m line := by
  obtain ⟨hfirst, hwords⟩ := layout_words text
  rw [wrap_eq hm h]
  constructor
  · have hbroken := broken_fill (d := d) (m := m) (layout d text).1.length (layout d text).2
    have := hbroken.append_left (layout d text).1
    rwa [layout_text] at this
  · have hfree : ∀ l ∈ linesOf (layout d text).1
        (fill m (layout d text).1.length (layout d text).2), Free d.text l := by
      apply free_fill []
      rw [nil_append, linesOf_layout]
      exact free_of_mem_split (delimiter_ne_nil d) text
    rw [← intercalate_linesOf, split_intercalate (delimiter_ne_nil d) (unbordered d)
      (linesOf_ne_nil _ _) hfree]
    exact fits_fill hwords (.inr (oneWord_of_notMem hfirst))

/-- "ab cd" with lines of four. -/
theorem wrap_breaks_spaces_once :
    wrap 4 .crlf [97, 98, 32, 99, 100] = [97, 98, 13, 10, 99, 100] ∧
      Broken .crlf [97, 98, 32, 99, 100] [97, 98, 13, 10, 99, 100] ∧
      ∀ line ∈ split LineDelimiter.crlf.text [97, 98, 13, 10, 99, 100], Fits 4 line := by
  have hclean : Clean 4 .crlf [97, 98, 32, 99, 100] := trivial
  have hwrap : wrap 4 .crlf [97, 98, 32, 99, 100] = [97, 98, 13, 10, 99, 100] := by decide
  have h := wrap_breaks_spaces (by decide) hclean
  exact ⟨hwrap, h⟩

theorem Broken.count_eq {t r : Text} (h : Broken d t r) {c : CodeUnit} (hc : c ≠ space)
    (hd : c ∉ d.text) : r.count c = t.count c := by
  induction h with
  | nil => rfl
  | keep a _ ih => rw [count_cons, count_cons, ih]
  | brk _ ih =>
    rw [count_append, count_eq_zero_of_not_mem hd, Nat.zero_add, ih, count_cons_of_ne hc.symm]

/-- " abcdef gh" with lines of five: the "f" is overwritten, and the space stays. -/
theorem wrap_overwrites_letter :
    wrap 5 .lf [32, 97, 98, 99, 100, 101, 102, 32, 103, 104] =
        [32, 97, 98, 99, 100, 101, 10, 32, 103, 104] ∧
      ¬ Broken .lf [32, 97, 98, 99, 100, 101, 102, 32, 103, 104]
        (wrap 5 .lf [32, 97, 98, 99, 100, 101, 102, 32, 103, 104]) := by
  have hwrap : wrap 5 .lf [32, 97, 98, 99, 100, 101, 102, 32, 103, 104] =
      [32, 97, 98, 99, 100, 101, 10, 32, 103, 104] := by decide
  refine ⟨hwrap, fun h => ?_⟩
  have hcount := h.count_eq (c := 102) (by decide) (by decide)
  exact absurd hcount (by decide)

/-- A wrong offset may hit another space: " abc", a line break and "a  cd", with lines of
three, is wrapped at the space before the one meant, and all lines are short enough. -/
example : ¬ Clean 3 .lf [32, 97, 98, 99, 10, 97, 32, 32, 99, 100] ∧
    wrap 3 .lf [32, 97, 98, 99, 10, 97, 32, 32, 99, 100] =
      [32, 97, 98, 99, 10, 97, 10, 32, 99, 100] := by
  constructor
  · intro h
    have hfill : fill 3 4 [(.newline, [97]), (.space, []), (.space, [99, 100])] =
        [(.newline, [97]), (.space, []), (.space, [99, 100])] := h
    exact absurd hfill (by decide)
  · decide

end

end Egit.HardWrap
