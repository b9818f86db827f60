import Mathlib.Data.Bool.AllAny
import GitTest.Cpp.Tokenizer
import GitTest.Lib.Comments

/-!
# The tokens keep the text

Every token takes its own text from what is left to read, with two exceptions: of a `//` comment
only the newline is kept, and a comment that is not closed is read as the end.

    no NUL in the lines → (the tokens' texts make up the lines ↔
      `tokenReading` meets no `//` comment and no open one)  (toTokenList_lossless_iff)

`tokenReading` differs from C in its literals: a character constant ends at the first quote behind
its first character or escape, whether a backslash is before it or not, and literals go on over the
end of a line.
-/

namespace Cpp

open Comments List
open CGrammar (isWordChar)

/-! ## What it is for -/

def tokenReading : Reader
  | .code, c => some (codeStep c)
  | .slash, c => slashStep c
  | .escape, _ => some .code
  | .string, c =>
    if c = '\\' then some .stringEscape else if c = '"' then some .code else some .string
  | .stringEscape, _ => some .string
  | .charFirst, c => if c = '\\' then some .charEscape else some .char
  | .charEscape, _ => some .char
  | .char, c => if c = '\'' then some .code else some .char
  | .comment, c => some (commentStep c)
  | .star, c => some (starStep c)

def sourceOf (lines : List String) : List Char := lines.flatMap fun line => line.toList ++ [tokLN]

def textOf (toks : List Token) : List Char := toks.flatMap fun tok => tok.str.toList

namespace Tokenizer

variable {t : Tokenizer} {c : Char} {l : List Char}

/-! ## What the loops take -/

/-- The tokenizer has taken `w`, and what comes is read in another mode. -/
structure Takes (t : Tokenizer) (m : Mode) (w : List Char) (t' : Tokenizer) (m' : Mode) : Prop where
  text : t.remaining = w ++ t'.remaining
  plain : tokenReading.plain m t.remaining = tokenReading.plain m' t'.remaining

variable {t' t₀ : Tokenizer} {w : List Char}

theorem Takes.trans {t t'' : Tokenizer} {m m' m'' : Mode} {w' : List Char} (h : Takes t m w t' m')
    (h' : Takes t' m' w' t'' m'') : Takes t m (w ++ w') t'' m'' :=
  ⟨by rw [h.text, h'.text, append_assoc], h.plain.trans h'.plain⟩

theorem Takes.noNul {t : Tokenizer} {m m' : Mode} (h : Takes t m w t' m')
    (hn : tokEOF ∉ t.remaining) : tokEOF ∉ t'.remaining := by
  rw [h.text, mem_append, not_or] at hn
  exact hn.2

section
variable {m m' : Mode} {n : Nat}

theorem takes_nextChar (h : t.remaining = c :: l) (hm : tokenReading m c = some m') :
    Takes t m [c] t.nextChar.2 m' := by
  obtain ⟨-, -, hl⟩ := nextChar_cons h
  constructor
  · rw [h, hl]
    rfl
  · rw [h, hl, Reader.plain_cons hm]

theorem takes_peekChar (t : Tokenizer) (m : Mode) : Takes t m [] t.peekChar.2 m := by
  constructor <;> rw [peekChar_remaining t]
  rfl

theorem head_ne_eof (h : t.remaining = c :: l) (hnul : tokEOF ∉ t.remaining) : c ≠ tokEOF := by
  rintro rfl
  exact hnul (h ▸ mem_cons_self)

theorem nextChar_lt (h : t.remaining = c :: l) (hn : t.remaining.length < n + 1) :
    t.nextChar.2.remaining.length < n := by
  obtain ⟨-, -, hl⟩ := nextChar_cons h
  rw [h, length_cons] at hn
  rw [hl]
  omega

/-- At the end of the text all modes but those of a comment are the same. -/
theorem takes_end (h : t.remaining = []) (hm : m ≠ .comment ∧ m ≠ .star) :
    Takes t m [] t.nextChar.2 .code := by
  obtain ⟨-, hl⟩ := nextChar_nil h
  constructor
  · rw [h, hl]
    rfl
  · rw [h, hl]
    simpa [Reader.plain] using hm

/-- A loop has added to `acc` what it has taken. -/
def Reads (t : Tokenizer) (m : Mode) (acc : List Char) (r : List Char × Tokenizer) : Prop :=
  ∃ w, r.1 = acc ++ w ∧ Takes t m w r.2 .code

section
variable {acc : List Char} {r : List Char × Tokenizer}

theorem Reads.none (h : Takes t m [] t' .code) : Reads t m acc (acc, t') :=
  ⟨[], (append_nil acc).symm, h⟩

theorem Reads.cons (hstep : Takes t m [c] t' m') (h : Reads t' m' (acc ++ [c]) r) :
    Reads t m acc r := by
  obtain ⟨w, hw, ht⟩ := h
  exact ⟨c :: w, by rw [hw, append_assoc]; rfl, hstep.trans ht⟩

theorem Reads.takes (h : Reads t m acc r) (hacc : Takes t₀ .code acc t m) :
    Takes t₀ .code r.1 r.2 .code := by
  obtain ⟨w, hw, ht⟩ := h
  rw [hw]
  exact hacc.trans ht

theorem Reads.ne_nil (h : Reads t m (c :: acc) r) : r.1 ≠ [] := by
  obtain ⟨w, hw, -⟩ := h
  rw [hw]
  exact cons_ne_nil c _

end

theorem readWhile_takes {p : Char → Bool} (hp : ∀ c, p c = true → codeStep c = .code)
    (heof : p tokEOF = false) (hn : t.remaining.length < n) (acc : List Char) :
    Reads t .code acc (readWhile p n t acc) := by
  induction n generalizing t acc with
  | zero => omega
  | succ n ih =>
    rw [readWhile]
    split
    · exact .none (takes_peekChar t .code)
    · next hgo =>
      rw [not_or, Bool.not_eq_false] at hgo
      cases hr : t.remaining with
      | nil => exact absurd hgo.2 (by rw [(peekChar_nil hr).1, heof]; exact Bool.false_ne_true)
      | cons c l =>
        have hc := (peekChar_cons hr).1
        have hstep := takes_nextChar hr (m := .code) (congrArg some (hp c (hc ▸ hgo.2)))
        rw [hc]
        exact .cons hstep (ih (nextChar_lt hr hn) (acc ++ [c]))

theorem readChars_takes (hnul : tokEOF ∉ t.remaining) (hn : t.remaining.length < n)
    (acc : List Char) : Reads t .char acc (readChars n t acc) := by
  induction n generalizing t acc with
  | zero => omega
  | succ n ih =>
    rw [readChars]
    cases hr : t.remaining with
    | nil =>
      rw [if_pos (nextChar_nil hr).1]
      exact .none (takes_end hr ⟨by decide, by decide⟩)
    | cons c l =>
      rw [(nextChar_cons hr).1, if_neg (head_ne_eof hr hnul)]
      by_cases hq : c = '\''
      · rw [if_pos hq]
        exact ⟨[c], rfl, takes_nextChar hr (if_pos hq)⟩
      · rw [if_neg hq]
        have hstep := takes_nextChar hr (m := .char) (if_neg hq)
        exact .cons hstep (ih (hstep.noNul hnul) (nextChar_lt hr hn) (acc ++ [c]))

theorem readString_takes (hnul : tokEOF ∉ t.remaining) (hn : t.remaining.length < n) (quote : Bool)
    (acc : List Char) :
    Reads t (if quote then .stringEscape else .string) acc (readString n t quote acc) := by
  induction n generalizing t acc quote with
  | zero => omega
  | succ n ih =>
    rw [readString]
    cases hr : t.remaining with
    | nil =>
      rw [if_pos (nextChar_nil hr).1]
      exact .none (takes_end hr (by cases quote <;> decide))
    | cons c l =>
      have hlen := nextChar_lt hr hn
      rw [(nextChar_cons hr).1, if_neg (head_ne_eof hr hnul)]
      cases quote with
      | true =>
        have hstep := takes_nextChar hr (m := .stringEscape) rfl
        exact .cons hstep (ih (hstep.noNul hnul) hlen false (acc ++ [c]))
      | false =>
        by_cases hq : c = '"'
        · subst hq
          exact ⟨['"'], rfl, takes_nextChar hr rfl⟩
        · rw [if_neg hq]
          have hstep : Takes t .string [c] t.nextChar.2
              (if decide (c = '\\') then .stringEscape else .string) := by
            apply takes_nextChar hr
            by_cases hb : c = '\\' <;> simp [tokenReading, hb, hq]
          exact .cons hstep (ih (hstep.noNul hnul) hlen (decide (c = '\\')) (acc ++ [c]))

/-- A comment is taken whole, or it is open and there is nothing behind it. -/
theorem readComment_takes (hnul : tokEOF ∉ t.remaining) (hn : t.remaining.length < n)
    (prevC : Option Char) (acc : List Char) :
    let m := if prevC = some '*' then Mode.star else Mode.comment
    let r := readComment n t prevC acc
    r.1 = true ∧ Reads t m acc r.2 ∨ r.1 = false ∧ tokenReading.plain m t.remaining = false := by
  induction n generalizing t acc prevC with
  | zero => omega
  | succ n ih =>
    rw [readComment]
    cases hr : t.remaining with
    | nil =>
      rw [if_pos (nextChar_nil hr).1]
      refine .inr ⟨rfl, ?_⟩
      split <;> rfl
    | cons c l =>
      rw [(nextChar_cons hr).1, if_neg (head_ne_eof hr hnul)]
      by_cases hq : c = '/' ∧ prevC = some '*'
      · obtain ⟨rfl, rfl⟩ := hq
        exact .inl ⟨rfl, ['/'], rfl, takes_nextChar hr rfl⟩
      · rw [if_neg hq]
        have hstep : Takes t (if prevC = some '*' then .star else .comment) [c] t.nextChar.2
            (if some c = some '*' then .star else .comment) := by
          apply takes_nextChar hr
          by_cases hp : prevC = some '*'
          · have hc' : c ≠ '/' := fun he => hq ⟨he, hp⟩
            by_cases hs : c = '*' <;> simp [hp, tokenReading, starStep, commentStep, hc', hs]
          · by_cases hs : c = '*' <;> simp [hp, tokenReading, commentStep, hs]
        rcases ih (hstep.noNul hnul) (nextChar_lt hr hn) (some c) (acc ++ [c]) with
          ⟨h1, hread⟩ | ⟨h1, hp⟩
        · exact .inl ⟨h1, .cons hstep hread⟩
        · refine .inr ⟨h1, ?_⟩
          rw [← hr, hstep.plain]
          exact hp

theorem skipLine_suffix (n : Nat) (t : Tokenizer) :
    (skipLine n t).remaining <:+ t.remaining := by
  induction n generalizing t with
  | zero => exact suffix_rfl
  | succ n ih =>
    have hnext : t.nextChar.2.remaining <:+ t.remaining := by
      cases hr : t.remaining with
      | nil => rw [(nextChar_nil hr).2]
      | cons c l =>
        rw [(nextChar_cons hr).2.2]
        exact suffix_cons c l
    rw [skipLine]
    split
    · exact hnext
    · exact (ih _).trans hnext

theorem escapeDigits_takes {digits : List Char} (he : t.eof = false)
    (hd : ∀ c ∈ digits, tokenReading m c = some m) (k : Nat) :
    Takes t m (escapeDigits k digits t).1 (escapeDigits k digits t).2 m := by
  have hstay : Takes t m [] t m := ⟨rfl, rfl⟩
  rw [escapeDigits, peekNChar]
  by_cases hk : t.text.length < t.pos + k
  · rw [if_pos hk]
    exact hstay
  · rw [if_neg hk]
    dsimp only
    split
    · next hall =>
      have hadv := remaining_advance he (Nat.not_lt.1 hk)
      rw [skipNChars, if_pos (Nat.not_lt.1 hk)]
      refine ⟨hadv, ?_⟩
      rw [hadv]
      apply Reader.plain_append
      intro c hc
      apply hd
      have := all_eq_true.1 hall c hc
      simpa using this
    · exact hstay

/-- A digit of an escape keeps its reading, in a character constant and outside of it. -/
theorem tokenReading_digits (hm : m = .code ∨ m = .char) :
    (∀ d ∈ octalDigits, tokenReading m d = some m) ∧
      ∀ d ∈ hexDigits, tokenReading m d = some m := by
  rw [← List.all_iff_forall_prop, ← List.all_iff_forall_prop]
  obtain rfl | rfl := hm <;> decide

theorem getEscape_takes (h : t.remaining = c :: l) (hm : tokenReading m c = some m')
    (hm' : m' = .code ∨ m' = .char) :
    Takes t m t.getEscape.1 t.getEscape.2 m' := by
  obtain ⟨hc, he, -⟩ := nextChar_cons h
  obtain ⟨hoct, hhex⟩ := tokenReading_digits hm'
  have hstep := takes_nextChar h hm
  rw [getEscape]
  rw [hc]
  split
  · exact hstep.trans (escapeDigits_takes he hoct 3)
  · split
    · exact hstep.trans (escapeDigits_takes he hhex 2)
    · split
      · exact hstep.trans (escapeDigits_takes he hhex 4)
      · exact hstep

end

/-! ## What a token takes -/

theorem text_ofText (s : String) : (TokenId.ofText s).text = s := by
  rw [TokenId.ofText]
  cases h : tokenIds.find? fun id => id.text = s with
  | none => rfl
  | some id => simpa using find?_some h

def strOf (p : TokenId × List Char) : List Char := (p.1.str (String.ofList p.2)).toList

theorem strOf_set (h : w ≠ [tokEOF]) : (set w).1 ≠ .eof ∧ strOf (set w) = w := by
  have htext := text_ofText (String.ofList w)
  show TokenId.ofText _ ≠ _ ∧ ((TokenId.ofText _).str (String.ofList w)).toList = w
  generalize TokenId.ofText (String.ofList w) = id at htext ⊢
  have hw : (String.ofList w).toList = w := String.toList_ofList
  cases id with
  | eof =>
    refine absurd ?_ h
    rw [← hw, ← htext]
    rfl
  | space =>
    refine ⟨by simp, ?_⟩
    rw [← htext] at hw ⊢
    exact hw
  | _ =>
    refine ⟨by simp, ?_⟩
    first
    | exact hw
    | exact (congrArg String.toList htext).trans hw

theorem strOf_space (h : w ≠ ['\\']) : strOf (.space, w) = w := by
  have hne : String.ofList w ≠ "\\" := by
    intro he
    apply h
    rw [← String.toList_ofList (l := w), he]
    rfl
  simp [strOf, TokenId.str, hne]

theorem strOf_trailing : strOf (.space, ['\\']) = ['\\', tokLN] := by decide

theorem codeStep_space (c : Char) (h : isSpaceChar c = true) : codeStep c = .code := by
  apply codeStep_of_ne <;>
    · rintro rfl
      exact absurd h (by decide)

theorem codeStep_word (c : Char) (h : isWordChar c = true) : codeStep c = .code := by
  apply codeStep_of_ne <;>
    · rintro rfl
      exact absurd h (by decide)

theorem remaining_last (h : t.remaining ≠ []) : ∃ k, t.remaining = k ++ [tokLN] := by
  have hlines : ∀ ls : List (List Char), ls.flatMap (· ++ [tokLN]) = [] ∨
      ∃ k, ls.flatMap (· ++ [tokLN]) = k ++ [tokLN] := by
    intro ls
    induction ls with
    | nil => exact .inl rfl
    | cons line ls ih =>
      right
      rw [flatMap_cons]
      rcases ih with hnil | ⟨k, hk⟩
      · exact ⟨line, by rw [hnil, append_nil]⟩
      · exact ⟨line ++ [tokLN] ++ k, by rw [hk]; simp only [append_assoc]⟩
  have he : t.eof = false := by
    rw [← Bool.not_eq_true]
    exact fun he => h (remaining_eof he)
  rw [remaining, if_neg (by simp [he])] at h ⊢
  rcases hlines (t.lines.drop t.index) with hnil | ⟨k, hk⟩
  · rw [hnil, append_nil] at h ⊢
    split at h
    · next hp =>
      rw [if_pos hp]
      exact ⟨_, rfl⟩
    · exact absurd rfl h
  · rw [hk]
    exact ⟨_ ++ k, (append_assoc ..).symm⟩

theorem exists_next (h : t.remaining = c :: l) (hc : c ≠ tokLN) : ∃ d k, l = d :: k := by
  obtain ⟨k, hk⟩ := remaining_last (by rw [h]; exact cons_ne_nil c l)
  rw [h] at hk
  cases l with
  | nil =>
    cases k with
    | nil => exact absurd (List.cons.inj hk).1 hc
    | cons d k => simp at hk
  | cons d l => exact ⟨d, l, rfl⟩

section
variable {t₀ : Tokenizer} (h₀ : t₀.remaining = c :: t.remaining)
include h₀

theorem takes_first : Takes t₀ .code [c] t (codeStep c) :=
  ⟨h₀, by rw [h₀, Reader.plain_cons rfl]⟩

theorem takes_neutral (hc : codeStep c = .code) : Takes t₀ .code [c] t .code :=
  hc ▸ takes_first h₀

theorem takes_slash (hc : c = '/') (hs : ∀ d ∈ t.remaining.head?, d ≠ '/' ∧ d ≠ '*') :
    Takes t₀ .code [c] t .code := by
  refine ⟨h₀, (takes_first h₀).plain.trans ?_⟩
  subst hc
  show tokenReading.plain .slash t.remaining = _
  cases hr : t.remaining with
  | nil => rfl
  | cons d l =>
    have hd := hs d (by rw [hr]; rfl)
    have hstep : tokenReading .slash d = some (codeStep d) := by
      show slashStep d = _
      rw [slashStep, if_neg hd.1, if_neg hd.2]
    rw [Reader.plain_cons hstep, Reader.plain_cons rfl]

theorem longSymbol_takes (he : t.eof = false) (hcode : codeStep c = .code) {sk : List Char}
    (h : longSymbol c t = some sk) :
    Takes t₀ .code sk { t with pos := t.pos + sk.tail.length } .code := by
  have hmem := mem_of_find?_eq_some h
  have hfound := find?_some h
  rw [decide_eq_true_eq] at hfound
  obtain ⟨hhead, hlen, htail⟩ := hfound
  have hneutral : ∀ sk ∈ cppLongSymbols, ∀ d ∈ sk.tail, codeStep d = .code := by
    simp_rw [← all_iff_forall_prop]
    decide
  have hadv := remaining_advance he hlen
  rw [htail] at hadv
  have htake : Takes t .code sk.tail { t with pos := t.pos + sk.tail.length } .code := by
    refine ⟨hadv, ?_⟩
    rw [hadv]
    exact Reader.plain_append (fun d hd => congrArg some (hneutral sk hmem d hd)) _
  have hsk : [c] ++ sk.tail = sk := cons_head?_tail hhead
  have htakes := (takes_neutral h₀ hcode).trans htake
  rwa [hsk] at htakes

end

/-- A token that takes just its own text. -/
structure Own (t₀ : Tokenizer) (r : Read) : Prop where
  id : r.1.1 ≠ .eof
  nonempty : strOf r.1 ≠ []
  takes : Takes t₀ .code (strOf r.1) r.2 .code

theorem Own.of_text {r : Read} (hid : r.1.1 ≠ .eof) (hstr : strOf r.1 = w) (hne : w ≠ [])
    (ht : Takes t₀ .code w r.2 .code) : Own t₀ r := by
  subst hstr
  exact ⟨hid, hne, ht⟩

theorem own_set (h : w ≠ [tokEOF]) (hne : w ≠ []) (ht : Takes t₀ .code w t' .code) :
    Own t₀ (set w, t') := by
  obtain ⟨hid, hstr⟩ := strOf_set h
  exact .of_text hid hstr hne ht

theorem own_value {id : TokenId} (hid : id = .string ∨ id = .number ∨ id = .ident) (hne : w ≠ [])
    (ht : Takes t₀ .code w t' .code) : Own t₀ ((id, w), t') := by
  refine .of_text ?_ ?_ hne ht
  · rcases hid with rfl | rfl | rfl <;> simp
  · rcases hid with rfl | rfl | rfl <;> exact String.toList_ofList

section
variable {t₀ : Tokenizer} (h₀ : t₀.remaining = c :: t.remaining)
include h₀

theorem own_space (hc : isSpaceChar c = true) : Own t₀ (readSpace c t) := by
  have hread := readWhile_takes codeStep_space (by decide) (lt_fuel t) [c]
  refine .of_text (by simp [readSpace]) (strOf_space ?_) hread.ne_nil
    (hread.takes (takes_neutral h₀ (codeStep_space c hc)))
  obtain ⟨w, hw, -⟩ := hread
  rw [hw]
  intro heq
  rw [(List.cons.inj heq).1] at hc
  exact absurd hc (by decide)

theorem own_word (hc : isWordChar c = true) : Own t₀ (readWord c t) := by
  have hread := readWhile_takes codeStep_word (by decide) (lt_fuel t) [c]
  have htakes := hread.takes (takes_neutral h₀ (codeStep_word c hc))
  have hne := hread.ne_nil
  rw [readWord]
  split
  · exact own_value (.inr (.inl rfl)) hne htakes
  · split
    · next hdef =>
      rw [hdef] at htakes ⊢
      have hstr : strOf (.defined, "defined".toList) ≠ [] := by decide
      exact ⟨by simp, hstr, htakes⟩
    · exact own_value (.inr (.inr rfl)) hne htakes

theorem own_backslash (hc : c = '\\') : Own t₀ (readBackslash t) := by
  subst hc
  obtain ⟨d, k, hd⟩ := exists_next h₀ (by decide)
  have hfirst : Takes t₀ .code ['\\'] t .escape := takes_first h₀
  rw [readBackslash]
  rw [(peekChar_cons hd).1]
  split
  · next hln =>
    subst hln
    have hnext : Takes t .escape [tokLN] t.nextChar.2 .code := takes_nextChar hd rfl
    exact .of_text (by simp) strOf_trailing (cons_ne_nil _ _) (hfirst.trans hnext)
  · have hd' : t.peekChar.2.remaining = d :: k := by rw [peekChar_remaining, hd]
    have hesc : Takes t.peekChar.2 .escape _ _ .code :=
      getEscape_takes hd' rfl (.inl rfl)
    exact own_set (by simp [tokEOF]) (cons_ne_nil _ _)
      ((hfirst.trans (takes_peekChar t .escape)).trans hesc)

theorem own_charConstant (hc : c = '\'') (hnul : tokEOF ∉ t.remaining) :
    Own t₀ (readCharConstant t) := by
  subst hc
  obtain ⟨d, k, hd⟩ := exists_next h₀ (by decide)
  have hfirst : Takes t₀ .code ['\''] t .charFirst := takes_first h₀
  rw [readCharConstant]
  obtain ⟨hnext, -, hk⟩ := nextChar_cons hd
  rw [hnext]
  generalize hr : (if d = '\\' then t.nextChar.2.getEscape else ([], t.nextChar.2)) = r
  have hbody : Takes t .charFirst (d :: r.1) r.2 .char := by
    by_cases hb : d = '\\'
    · subst hb hr
      obtain ⟨e, k', rfl⟩ := exists_next hd (by decide)
      have hesc : Takes t.nextChar.2 .charEscape _ _ .char :=
        getEscape_takes hk rfl (.inr rfl)
      exact (takes_nextChar hd rfl).trans hesc
    · rw [if_neg hb] at hr
      subst hr
      exact takes_nextChar hd (if_neg hb)
  have hread := readChars_takes (hbody.noNul hnul) (lt_fuel r.2) ('\'' :: d :: r.1)
  exact own_value (.inl rfl) hread.ne_nil (hread.takes (hfirst.trans hbody))

theorem own_stringLiteral (hc : c = '"') (hnul : tokEOF ∉ t.remaining) :
    Own t₀ (readStringLiteral t) := by
  subst hc
  have hfirst : Takes t₀ .code ['"'] t .string := takes_first h₀
  have hread := readString_takes hnul (lt_fuel t) false ['"']
  exact own_value (.inl rfl) hread.ne_nil (hread.takes hfirst)

theorem own_symbol (he : t.eof = false) (hc : c ≠ tokEOF)
    (hs : codeStep c = .code ∨ c = '/' ∧ ∀ d ∈ t.remaining.head?, d ≠ '/' ∧ d ≠ '*') :
    Own t₀ (readSymbol c t) := by
  have hone : Takes t₀ .code [c] t .code := by
    rcases hs with hcode | ⟨hslash, hnext⟩
    · exact takes_neutral h₀ hcode
    · exact takes_slash h₀ hslash hnext
  have hset : [c] ≠ [tokEOF] := fun heq => hc (List.cons.inj heq).1
  rw [readSymbol]
  cases hsym : longSymbol c t with
  | none => exact own_set hset (cons_ne_nil c []) hone
  | some sk =>
    have hmem := mem_of_find?_eq_some hsym
    have hnoslash : ∀ sk ∈ cppLongSymbols, sk.head? ≠ some '/' ∧ sk ≠ [tokEOF] ∧ sk ≠ [] := by
      decide
    have hhead : sk.head? = some c := by
      have hfound := find?_some hsym
      rw [decide_eq_true_eq] at hfound
      exact hfound.1
    apply own_set (hnoslash sk hmem).2.1 (hnoslash sk hmem).2.2
    rcases hs with hcode | ⟨rfl, -⟩
    · exact longSymbol_takes h₀ he hcode hsym
    · exact absurd hhead (hnoslash sk hmem).1

theorem own_tokenFrom (he : t.eof = false) (hnul : tokEOF ∉ t₀.remaining)
    (hs : c = '/' → ∀ d ∈ t.remaining.head?, d ≠ '/' ∧ d ≠ '*') : Own t₀ (tokenFrom c t) := by
  rw [h₀, mem_cons, not_or] at hnul
  rw [tokenFrom]
  split
  · next hc => exact own_space h₀ hc
  split
  · next hc => exact own_backslash h₀ hc
  split
  · next hc => exact own_charConstant h₀ hc hnul.2
  split
  · next hc => exact own_stringLiteral h₀ hc hnul.2
  split
  · next hc => exact own_word h₀ hc
  · next hb hq hdq _ =>
    apply own_symbol h₀ he (Ne.symm hnul.1)
    by_cases hslash : c = '/'
    · exact .inr ⟨hslash, hs hslash⟩
    · exact .inl (codeStep_of_ne hslash hb hdq hq)

end

theorem comment_cases (h₀ : t₀.remaining = '/' :: '*' :: t.remaining)
    (hnul : tokEOF ∉ t₀.remaining) :
    let r := readComment t.fuel t none ['/', '*']
    r.1 = true ∧ Own t₀ ((.space, r.2.1), r.2.2) ∨
      r.1 = false ∧ tokenReading.plain .code t₀.remaining = false := by
  intro r
  have hopen : Takes t₀ .code ['/', '*'] t .comment := by
    have hslash : tokenReading .code '/' = some .slash := rfl
    have hstar : tokenReading .slash '*' = some .comment := rfl
    exact ⟨h₀, by rw [h₀, Reader.plain_cons hslash, Reader.plain_cons hstar]⟩
  rcases readComment_takes (hopen.noNul hnul) (lt_fuel t) none ['/', '*'] with
    ⟨hclosed, hread⟩ | ⟨hclosed, hplain⟩
  · refine .inl ⟨hclosed, .of_text (by simp) (strOf_space ?_) hread.ne_nil (hread.takes hopen)⟩
    obtain ⟨w, hw, -⟩ := hread
    show (readComment t.fuel t none ['/', '*']).2.1 ≠ ['\\']
    simp [hw]
  · exact .inr ⟨hclosed, hopen.plain.trans hplain⟩

/-- A token that begins with a slash: a line comment, a comment or a symbol. -/
theorem nextRealToken_slash {k : List Char} {d : Char} (h : t.remaining = '/' :: d :: k)
    (hnul : tokEOF ∉ t.remaining) :
    Own t t.nextRealToken ∨
    tokenReading.plain .code t.remaining = false ∧
      (t.nextRealToken.1.1 = .eof ∨ t.nextRealToken.1 = set [tokLN] ∧
        d = '/' ∧ t.nextRealToken.2.remaining <:+ k) := by
  obtain ⟨hc, -, hd⟩ := nextChar_cons h
  obtain ⟨hpc, hpe, hk⟩ := peekChar_cons hd
  have hpeek := peekChar_remaining t.nextChar.2
  rw [nextRealToken]
  dsimp only
  rw [hc, if_neg (by decide), if_pos rfl, hpc]
  by_cases hds : d = '/'
  · right
    subst hds
    refine ⟨?_, .inr ⟨rfl, rfl, ?_⟩⟩
    · have hslash : tokenReading .code '/' = some .slash := rfl
      rw [h, Reader.plain_cons hslash]
      exact Reader.plain_stop rfl
    · rw [← hk]
      exact skipLine_suffix _ _
  rw [if_neg hds]
  by_cases hstar : d = '*'
  · rw [if_pos hstar]
    subst hstar
    rw [← hk] at h
    rcases comment_cases h hnul with ⟨hclosed, hown⟩ | ⟨hclosed, hplain⟩
    · left
      rw [if_pos hclosed]
      exact hown
    · right
      rw [if_neg (by rw [hclosed]; exact Bool.false_ne_true)]
      exact ⟨hplain, .inl rfl⟩
  · rw [if_neg hstar]
    left
    apply own_tokenFrom (by rw [h, hpeek, hd]) hpe hnul
    intro _ e hmem
    rw [hpeek, hd, head?_cons, Option.mem_some_iff] at hmem
    subst hmem
    exact ⟨hds, hstar⟩

/-- What the next token takes, unless the text is read to its end: its own text, or a comment that
is not printed. -/
theorem nextRealToken_cases (h : t.remaining = c :: l) (hnul : tokEOF ∉ t.remaining) :
    Own t t.nextRealToken ∨
    tokenReading.plain .code t.remaining = false ∧
      (t.nextRealToken.1.1 = .eof ∨ t.nextRealToken.1 = set [tokLN] ∧
        ∃ k, l = '/' :: k ∧ t.nextRealToken.2.remaining <:+ k) := by
  by_cases hslash : c = '/'
  · subst hslash
    obtain ⟨d, k, rfl⟩ := exists_next h (by decide)
    rcases nextRealToken_slash h hnul with hown | ⟨hplain, heof | ⟨hset, rfl, hsuf⟩⟩
    · exact .inl hown
    · exact .inr ⟨hplain, .inl heof⟩
    · exact .inr ⟨hplain, .inr ⟨hset, k, rfl, hsuf⟩⟩
  · left
    obtain ⟨hc, he, hl⟩ := nextChar_cons h
    have h₀ : t.remaining = c :: t.nextChar.2.remaining := by rw [hl, h]
    rw [nextRealToken]
    rw [hc]
    by_cases hln : c = tokLN
    · subst hln
      exact own_set (by decide) (by decide) (takes_first h₀)
    · rw [if_neg (by rw [not_or]; exact ⟨head_ne_eof h hnul, hln⟩), if_neg hslash]
      exact own_tokenFrom h₀ he hnul fun h => absurd h hslash

/-! ## The whole text -/

theorem tokens_nil (h : t.remaining = []) (n : Nat) : tokens n t = [] := by
  cases n with
  | zero => rfl
  | succ n =>
    have hid : t.nextToken.1.id = .eof := by
      show t.nextRealToken.1.1 = .eof
      rw [nextRealToken]
      rw [(nextChar_nil h).1]
      rfl
    rw [tokens, if_pos hid]

theorem textOf_tokens_succ {n : Nat} (h : t.nextRealToken.1.1 ≠ .eof) :
    textOf (tokens (n + 1) t) = strOf t.nextRealToken.1 ++ textOf (tokens n t.nextRealToken.2) := by
  have hid : ¬ t.nextToken.1.id = .eof := h
  rw [tokens, if_neg hid]
  rfl

/-- The tokens have as many characters as the text only if nothing is lost. -/
theorem textOf_tokens {n : Nat} (hnul : tokEOF ∉ t.remaining) (hn : t.remaining.length < n) :
    (textOf (tokens n t)).length ≤ t.remaining.length ∧
      (textOf (tokens n t) = t.remaining ↔ tokenReading.plain .code t.remaining = true) := by
  induction n generalizing t with
  | zero => omega
  | succ n ih =>
    cases hr : t.remaining with
    | nil =>
      rw [tokens_nil hr]
      exact ⟨Nat.le_refl 0, by simp [textOf, Reader.plain]⟩
    | cons c l =>
      rcases nextRealToken_cases hr hnul with hown | ⟨hplain, heof | ⟨hset, k, hk, hsuf⟩⟩
      · have htext := hown.takes.text
        have hlen : t.nextRealToken.2.remaining.length < n := by
          have hpos := length_pos_iff.2 hown.nonempty
          rw [htext, length_append] at hn
          omega
        obtain ⟨hle, hiff⟩ := ih (hown.takes.noNul hnul) hlen
        rw [textOf_tokens_succ hown.id, ← hr, hown.takes.plain, ← hiff, htext]
        constructor
        · rw [length_append, length_append]
          omega
        · exact append_right_inj _
      · have hid : t.nextToken.1.id = .eof := heof
        rw [tokens, if_pos hid, ← hr, hplain, hr]
        simp [textOf]
      · have hnul' : tokEOF ∉ t.nextRealToken.2.remaining := by
          intro hmem
          apply hnul
          rw [hr, hk]
          exact mem_cons_of_mem _ (mem_cons_of_mem _ (hsuf.mem hmem))
        have hle := hsuf.length_le
        rw [hr, hk, length_cons, length_cons] at hn
        obtain ⟨hle', -⟩ := ih hnul' (by omega)
        -- a newline for the two slashes at least
        have hshort : (textOf (tokens (n + 1) t)).length < (c :: l).length := by
          have hid : (set [tokLN]).1 ≠ .eof := by decide
          have hstr : (strOf (set [tokLN])).length = 1 := by decide
          rw [← hset] at hid hstr
          rw [textOf_tokens_succ hid, length_append, hk, length_cons, length_cons]
          omega
        refine ⟨Nat.le_of_lt hshort, ?_⟩
        rw [← hr, hplain, hr]
        constructor
        · intro heq
          rw [heq] at hshort
          exact absurd hshort (Nat.lt_irrefl _)
        · intro h
          cases h

end Tokenizer

/-! ## Top theorems -/

theorem remaining_cppLinesTokenizer (lines : List String) :
    (cppLinesTokenizer lines).remaining = sourceOf lines := by
  cases lines with
  | nil => rfl
  | cons line lines =>
    simp [cppLinesTokenizer, Tokenizer.fillLineText, Tokenizer.remaining, sourceOf, flatMap_map]

/-- **The tokens keep the text.**  For lines without NUL the texts of the tokens make up the lines,
each with a newline, if and only if the tokenizer's reading of the text meets no `//` comment and no
comment that is not closed. -/
theorem toTokenList_lossless_iff (lines : List String)
    (hnul : ∀ line ∈ lines, tokEOF ∉ line.toList) :
    textOf (cppLinesTokenizer lines).toTokenList = sourceOf lines ↔
      tokenReading.plain .code (sourceOf lines) = true := by
  have hrem := remaining_cppLinesTokenizer lines
  have hnul' : tokEOF ∉ sourceOf lines := by
    simp only [sourceOf, mem_flatMap, mem_append, mem_singleton, not_exists, not_and, not_or]
    exact fun line hline => ⟨hnul line hline, by decide⟩
  have h := Tokenizer.textOf_tokens (hrem ▸ hnul') (Tokenizer.lt_fuel (cppLinesTokenizer lines))
  rw [hrem] at h
  exact h.2

/-- A comment over two lines, and a continued line. -/
theorem toTokenList_lossless_comment :
    textOf (cppLinesTokenizer ["boo /* what the", "hell */ an \\", " example"]).toTokenList =
      sourceOf ["boo /* what the", "hell */ an \\", " example"] :=
  (toTokenList_lossless_iff _ (by decide)).2 (by decide)

/-- A C constant with an escaped quote behind its first character: the text has no comment in C,
and what is behind the quote is dropped. -/
theorem toTokenList_drops_constant :
    cReading.plain .code (splice (sourceOf ["'a\\'//'"])) = true ∧
    (∀ line ∈ ["'a\\'//'"], tokEOF ∉ line.toList) ∧
    textOf (cppLinesTokenizer ["'a\\'//'"]).toTokenList = "'a\\'\n".toList ∧
    sourceOf ["'a\\'//'"] = "'a\\'//'\n".toList := by
  decide

end Cpp
