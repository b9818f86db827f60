import GitTest.Lib.Split

/-!
# Searching a text for lines

`indexOf` gives the first place of a pattern.  The lines of a text are its pieces between
delimiters.  With a delimiter in front, a pattern is found at the first line that begins with it,
the very first line apart; with a delimiter behind, at the first line that ends with it.

    split d text = first :: before ++ (tag ++ x) :: after, no line of `before` begins with `tag` →
      indexOf text (d ++ tag) 0 = some (the end of `before`)  (indexOf_begin)
    split d text = pre ++ (p ++ s) :: post, no line of `pre` ends with `s` →
      indexOf (terminated d text) (s ++ d) 0 = some (the end of `p`)  (indexOf_end)
-/

namespace Search

open List Split

section
variable {α : Type}

theorem first_line (P : List α → Prop) (ls : List (List α)) :
    (∀ l ∈ ls, ¬ P l) ∨ ∃ pre l post, ls = pre ++ l :: post ∧ P l ∧ ∀ l ∈ pre, ¬ P l := by
  induction ls with
  | nil => exact .inl (by simp)
  | cons l ls ih =>
    by_cases hl : P l
    · exact .inr ⟨[], l, ls, rfl, hl, by simp⟩
    · rcases ih with hnone | ⟨pre, x, post, rfl, hx, hpre⟩
      · left
        simpa [hl] using hnone
      · refine .inr ⟨l :: pre, x, post, rfl, hx, ?_⟩
        simpa [hl] using hpre

theorem infix_of_append {s text x : List α} (hs : ∀ c ∈ s, c ∉ x) (h : s <:+: text ++ x) :
    s <:+: text := by
  obtain ⟨a, b, hab⟩ := h
  rcases append_eq_append_iff.1 hab with ⟨y, hy, -⟩ | ⟨y, hy, hx⟩
  · exact ⟨a, y, hy.symm⟩
  · -- `y` is empty, or its last character is the last one of `s`
    rcases eq_nil_or_concat' y with rfl | ⟨y, e, rfl⟩
    · exact ⟨a, [], by simpa using hy⟩
    · rcases eq_nil_or_concat' s with rfl | ⟨s, e', rfl⟩
      · exact nil_infix
      · rw [← append_assoc, ← append_assoc] at hy
        have he : e' = e := singleton_inj.1 (append_inj_right' hy rfl)
        refine absurd ?_ (hs e' (by simp))
        rw [he, hx]
        simp

theorem length_intercalate_le (d : List α) (xs : List (List α)) (hx : xs ≠ [])
    (ys : List (List α)) :
    (d.intercalate xs).length ≤ (d.intercalate (xs ++ ys)).length := by
  by_cases hy : ys = []
  · rw [hy, append_nil]
  · rw [intercalate_append hx hy, length_append]
    omega

variable [DecidableEq α]

def indexOf (text pattern : List α) (start : Nat) : Option Nat :=
  (List.range' start (text.length + 1 - start)).find? fun i => pattern.isPrefixOf (text.drop i)

/-- A delimiter is put at the end if there is none. -/
def terminated (d text : List α) : List α := if d.isSuffixOf text then text else text ++ d

/-! ## Places -/

section
variable {text pattern : List α}

theorem indexOf_eq_none_iff : indexOf text pattern 0 = none ↔ ¬ pattern <:+: text := by
  unfold indexOf
  rw [find?_eq_none]
  constructor
  · rintro h ⟨a, b, hab⟩
    refine h a.length ?_ ?_
    · rw [mem_range'_1, ← hab]
      simp only [length_append]
      omega
    · rw [List.isPrefixOf_iff_prefix, ← hab, append_assoc, drop_left]
      exact prefix_append ..
  · intro h i _ hpre
    exact h ((List.isPrefixOf_iff_prefix.1 hpre).isInfix.trans (drop_suffix i text).isInfix)

theorem indexOf_of_first {a b : List α} (h : text = a ++ (pattern ++ b))
    (hfirst : ∀ a' b', text = a' ++ (pattern ++ b') → a.length ≤ a'.length) :
    indexOf text pattern 0 = some a.length := by
  unfold indexOf
  rw [find?_range'_eq_some]
  refine ⟨?_, ?_, ?_⟩
  · rw [List.isPrefixOf_iff_prefix, h, drop_left]
    exact prefix_append ..
  · rw [mem_range'_1, h]
    simp only [length_append]
    omega
  · intro j _ hj
    rw [Bool.not_eq_true', ← Bool.not_eq_true, isPrefixOf_iff_prefix]
    rintro ⟨b', hb'⟩
    have hle := hfirst (text.take j) b' (by rw [hb', take_append_drop])
    rw [length_take] at hle
    omega

theorem indexOf_append (k text pattern : List α) :
    indexOf (k ++ text) pattern k.length = (indexOf text pattern 0).map (k.length + ·) := by
  have hrange : List.range' k.length ((k ++ text).length + 1 - k.length) =
      (List.range' 0 (text.length + 1 - 0)).map (k.length + ·) := by
    have hlen : (k ++ text).length + 1 - k.length = text.length + 1 - 0 := by
      rw [length_append]
      omega
    rw [hlen, map_add_range']
    rfl
  unfold indexOf
  rw [hrange, find?_map]
  congr 2
  funext i
  show pattern.isPrefixOf ((k ++ text).drop (k.length + i)) = _
  rw [drop_append, drop_eq_nil_of_le (by omega), nil_append]
  congr 2
  omega

end

/-! ## Lines -/

theorem same_line {β : Type} {pre post pre' post' : List β} {x y x' y' : β}
    (hx : pre ++ x :: post = pre' ++ x' :: post') (hy : pre ++ y :: post = pre' ++ y' :: post')
    (hne : x ≠ y) : pre = pre' ∧ x = x' ∧ y = y' := by
  induction pre generalizing pre' with
  | nil =>
    cases pre' with
    | nil => exact ⟨rfl, (List.cons.inj hx).1, (List.cons.inj hy).1⟩
    | cons b pre' => exact absurd ((List.cons.inj hx).1.trans (List.cons.inj hy).1.symm) hne
  | cons a pre ih =>
    cases pre' with
    | nil =>
      have htail := (List.cons.inj hx).2.trans (List.cons.inj hy).2.symm
      exact absurd (List.cons.inj (append_cancel_left htail)).1 hne
    | cons b pre' =>
      obtain ⟨hab, hx⟩ := List.cons.inj hx
      obtain ⟨rfl, hrest⟩ := ih hx (List.cons.inj hy).2
      exact ⟨by rw [hab], hrest⟩

section
variable {d : List α}

omit [DecidableEq α] in
theorem intercalate_text_cons (x y : List α) (ys : List (List α)) :
    d.intercalate ((x ++ y) :: ys) = x ++ d.intercalate (y :: ys) := by
  cases ys with
  | nil => rw [intercalate_singleton, intercalate_singleton]
  | cons z ys => rw [intercalate_cons_cons]; simp

omit [DecidableEq α] in
theorem intercalate_concat_text (xs : List (List α)) (x y : List α) :
    d.intercalate (xs ++ [x ++ y]) = d.intercalate (xs ++ [x]) ++ y := by
  by_cases hx : xs = []
  · subst hx
    simp
  · rw [intercalate_append hx (by simp), intercalate_append hx (by simp)]
    simp

omit [DecidableEq α] in
theorem intercalate_line (pre post : List (List α)) (p : List α) :
    ∃ rest, ∀ s, d.intercalate (pre ++ (p ++ s) :: post) =
      d.intercalate (pre ++ [p]) ++ (s ++ rest) := by
  by_cases hpost : post = []
  · refine ⟨[], fun s => ?_⟩
    rw [hpost, intercalate_concat_text, append_nil]
  · refine ⟨d ++ d.intercalate post, fun s => ?_⟩
    rw [append_cons, intercalate_append (by simp) hpost, intercalate_concat_text,
      append_assoc]

variable {text l tag s : List α} {after pre post : List (List α)}

theorem infix_of_mem_split (hd : d ≠ []) (h : l ∈ split d text) :
    l <:+: text := by
  obtain ⟨pre, post, hsplit⟩ := append_of_mem h
  obtain ⟨rest, hrest⟩ := intercalate_line pre post []
  have htext := intercalate_split hd text
  rw [hsplit, show l = [] ++ l from rfl, hrest] at htext
  exact ⟨_, rest, by rw [append_assoc]; exact htext⟩

variable (hd : d ≠ []) (hu : Unbordered d)
include hd hu

theorem split_begin {a b : List α} (htag : ∀ c ∈ tag, c ∉ d) :
    ∃ x after, split d (a ++ (d ++ tag ++ b)) = split d a ++ (tag ++ x) :: after := by
  obtain ⟨x, after, hb⟩ := exists_cons_of_ne_nil (split_ne_nil hd b)
  refine ⟨x, after, ?_⟩
  rw [append_assoc, split_append_append hd hu, split_text_append hd htag, hb]
  rfl

theorem split_end {a b : List α} (hs : ∀ c ∈ s, c ∉ d) :
    ∃ pre p, split d a = pre ++ [p] ∧
      split d (a ++ (s ++ d ++ b)) = pre ++ (p ++ s) :: split d b := by
  obtain ⟨pre, p, ha, has⟩ := split_append_text hd hs a
  refine ⟨pre, p, ha, ?_⟩
  rw [append_assoc, ← append_assoc a, split_append_append hd hu, has]
  simp

omit hu in
theorem text_begin {x : List α} {xs : List (List α)} (hx : xs ≠ [])
    (h : split d text = xs ++ (tag ++ x) :: after) :
    text = d.intercalate xs ++ (d ++ tag ++ d.intercalate (x :: after)) := by
  have htext := intercalate_split hd text
  rw [h, intercalate_append hx (by simp), intercalate_text_cons] at htext
  rw [← htext]
  simp

theorem indexOf_begin {first x : List α} {before : List (List α)} (htag : ∀ c ∈ tag, c ∉ d)
    (h : split d text = first :: before ++ (tag ++ x) :: after)
    (hfirst : ∀ l ∈ before, ¬ tag <+: l) :
    indexOf text (d ++ tag) 0 = some (d.intercalate (first :: before)).length := by
  refine indexOf_of_first (text_begin hd (by simp) h) fun a b hab => ?_
  obtain ⟨y, ys, hy⟩ := split_begin hd hu htag
  rw [← hab, h] at hy
  rcases append_eq_append_iff.1 hy with ⟨zs, hz, -⟩ | ⟨zs, hz, hzs⟩
  · rw [← intercalate_split hd a, hz]
    exact length_intercalate_le d _ (by simp) zs
  · cases zs with
    | nil =>
      rw [append_nil] at hz
      rw [hz, intercalate_split hd]
    | cons z zs =>
      -- the line is one of those before
      obtain ⟨w, ws, hw⟩ := exists_cons_of_ne_nil (split_ne_nil hd a)
      rw [hw] at hz
      have hmem : z ∈ before := by
        rw [(List.cons.inj hz).2]
        simp
      have hz' : tag ++ y = z := (List.cons.inj hzs).1
      exact absurd (hz' ▸ prefix_append tag y) (hfirst z hmem)

theorem indexOf_begin_eq_none_iff {first : List α} {rest : List (List α)} (htag : ∀ c ∈ tag, c ∉ d)
    (h : split d text = first :: rest) :
    indexOf text (d ++ tag) 0 = none ↔ ∀ l ∈ rest, ¬ tag <+: l := by
  rw [indexOf_eq_none_iff]
  constructor
  · rintro hnot l hl ⟨x, rfl⟩
    obtain ⟨before, after, rfl⟩ := append_of_mem hl
    apply hnot
    rw [← cons_append] at h
    rw [text_begin hd (by simp) h]
    exact ⟨_, _, append_assoc ..⟩
  · rintro hnone ⟨a, b, hab⟩
    obtain ⟨x, after, hx⟩ := split_begin hd hu htag
    rw [← append_assoc, hab, h] at hx
    obtain ⟨w, ws, hw⟩ := exists_cons_of_ne_nil (split_ne_nil hd a)
    rw [hw] at hx
    refine hnone (tag ++ x) ?_ (prefix_append ..)
    rw [(List.cons.inj hx).2]
    simp

omit [DecidableEq α] in
theorem free_tail_append (hl : Free d l) : Free d (d.tail ++ l) := by
  rintro ⟨p, q, hpq⟩
  rw [append_assoc] at hpq
  rcases append_eq_append_iff.1 hpq with ⟨s, hs, hdq⟩ | ⟨s, -, hl'⟩
  · -- `s` is the end of one delimiter and the beginning of the other
    have hsuffix : s <:+ d := (suffix_append p s).trans (hs ▸ tail_suffix d)
    have hlen : s.length ≤ d.tail.length := by
      rw [hs, length_append]
      omega
    rw [length_tail] at hlen
    have hprefix : s <+: d := by
      refine prefix_of_prefix_length_le ?_ (prefix_append d q) (by omega)
      rw [hdq]
      exact prefix_append ..
    rcases hu s hprefix hsuffix with rfl | rfl
    · exact hl ⟨[], q, hdq⟩
    · have := length_pos_iff.2 hd
      omega
  · exact hl ⟨s, q, by rw [hl', append_assoc]⟩

theorem indexOf_free (hl : Free d l) (rest : List α) :
    indexOf (l ++ (d ++ rest)) d 0 = some l.length := by
  refine indexOf_of_first rfl fun a b hab => ?_
  have hsplit := split_append hd hu hl rest
  rw [hab, split_append_append hd hu] at hsplit
  obtain ⟨w, ws, hw⟩ := exists_cons_of_ne_nil (split_ne_nil hd a)
  rw [hw] at hsplit
  rw [← intercalate_split hd a, hw, (List.cons.inj hsplit).1]
  have := length_intercalate_le d [l] (by simp) ws
  rwa [intercalate_singleton] at this

theorem indexOf_next {xs : List (List α)} (hx : xs ≠ []) (h : split d text = xs ++ l :: after) :
    indexOf text d ((d.intercalate xs).length + 1) =
      if after = [] then none else some ((d.intercalate xs).length + d.length + l.length) := by
  have hl : Free d l := free_of_mem_split hd text l (by rw [h]; simp)
  have hfree := free_tail_append hd hu hl
  have htext := intercalate_split hd text
  rw [h, intercalate_append hx (by simp)] at htext
  obtain ⟨e, t, rfl⟩ := exists_cons_of_ne_nil hd
  rw [tail_cons] at hfree
  -- the search begins behind the first character of the delimiter
  have hcut : text = (List.intercalate (e :: t) xs ++ [e]) ++
      (t ++ List.intercalate (e :: t) (l :: after)) := by
    rw [← htext]
    simp
  have hlen : (List.intercalate (e :: t) xs ++ [e]).length =
      (List.intercalate (e :: t) xs).length + 1 := by simp
  rw [hcut, ← hlen, indexOf_append]
  cases after with
  | nil =>
    rw [intercalate_singleton, indexOf_eq_none_iff.2 hfree]
    rfl
  | cons y ys =>
    rw [intercalate_cons_cons, append_assoc l, ← append_assoc t, indexOf_free hd hu hfree]
    simp only [Option.map_some, length_append, length_cons, length_nil]
    congr 1
    omega

theorem split_terminated (text : List α) : ∃ ls, split d (terminated d text) = ls ++ [[]] ∧
    (split d text = ls ∨ split d text = ls ++ [[]]) := by
  have hend : ∀ u, split d (u ++ d) = split d u ++ [[]] := by
    intro u
    have := split_append_append hd hu u []
    rwa [append_nil] at this
  unfold terminated
  split
  · next hsuffix =>
    obtain ⟨u, rfl⟩ := isSuffixOf_iff_suffix.1 hsuffix
    exact ⟨split d u, hend u, .inr (hend u)⟩
  · exact ⟨split d text, hend text, .inl rfl⟩

/-- Behind a line that is not empty there is a delimiter then. -/
theorem split_terminated_append (h : split d text = pre ++ l :: post) (hl : l ≠ []) :
    ∃ post', post' ≠ [] ∧ split d (terminated d text) = pre ++ l :: post' := by
  obtain ⟨ls, hls, htext⟩ := split_terminated hd hu text
  rcases htext with htext | htext
  · refine ⟨post ++ [[]], by simp, ?_⟩
    rw [hls, ← htext, h]
    simp
  · refine ⟨post, ?_, by rw [hls, ← htext, h]⟩
    rintro rfl
    rw [h] at htext
    exact hl (append_inj_right' htext rfl |> singleton_inj.1)

theorem mem_split_terminated_iff (hl : l ≠ []) :
    l ∈ split d (terminated d text) ↔ l ∈ split d text := by
  obtain ⟨ls, hls, htext⟩ := split_terminated hd hu text
  rcases htext with htext | htext
  · rw [hls, htext]
    simp [hl]
  · rw [hls, htext]

omit hu in
theorem text_end {p : List α} (hpost : post ≠ []) (h : split d text = pre ++ (p ++ s) :: post) :
    text = d.intercalate (pre ++ [p]) ++ (s ++ d ++ d.intercalate post) := by
  have htext := intercalate_split hd text
  rw [h, append_cons, intercalate_append (by simp) hpost, intercalate_concat_text] at htext
  rw [← htext]
  simp

theorem indexOf_end {p : List α} (hs : ∀ c ∈ s, c ∉ d) (hne : s ≠ [])
    (h : split d text = pre ++ (p ++ s) :: post) (hfirst : ∀ l ∈ pre, ¬ s <:+ l) :
    indexOf (terminated d text) (s ++ d) 0 = some (d.intercalate (pre ++ [p])).length := by
  obtain ⟨post', hpost', h'⟩ := split_terminated_append hd hu h (by simp [hne])
  refine indexOf_of_first (text_end hd hpost' h') fun a b hab => ?_
  obtain ⟨ys, y, ha, hy⟩ := split_end hd hu hs
  rw [← hab, h'] at hy
  rw [← intercalate_split hd a, ha]
  rcases append_eq_append_iff.1 hy with ⟨zs, hz, hzs⟩ | ⟨zs, hz, hzs⟩
  · cases zs with
    | nil =>
      -- the same line
      have hline : p ++ s = y ++ s := (List.cons.inj hzs).1
      rw [hz, append_nil, append_cancel_right hline]
    | cons z zs =>
      have hz' : p ++ s = z := (List.cons.inj hzs).1
      have hle := length_intercalate_le d (pre ++ [p ++ s]) (by simp) (zs ++ [y])
      rw [intercalate_concat_text, length_append] at hle
      have hys : ys ++ [y] = pre ++ [p ++ s] ++ (zs ++ [y]) := by
        rw [hz, hz']
        simp
      rw [hys]
      omega
  · cases zs with
    | nil =>
      have hline : y ++ s = p ++ s := (List.cons.inj hzs).1
      rw [hz, append_nil, append_cancel_right hline]
    | cons z zs =>
      have hz' : y ++ s = z := (List.cons.inj hzs).1
      refine absurd ?_ (hfirst z (by rw [hz]; simp))
      rw [← hz']
      exact suffix_append ..

theorem indexOf_end_eq_none_iff (hs : ∀ c ∈ s, c ∉ d) (hne : s ≠ []) :
    indexOf (terminated d text) (s ++ d) 0 = none ↔ ∀ l ∈ split d text, ¬ s <:+ l := by
  rw [indexOf_eq_none_iff]
  constructor
  · rintro hnot l hl ⟨p, rfl⟩
    obtain ⟨pre, post, h⟩ := append_of_mem hl
    obtain ⟨post', hpost', h'⟩ := split_terminated_append hd hu h (by simp [hne])
    apply hnot
    rw [text_end hd hpost' h']
    exact ⟨_, _, append_assoc ..⟩
  · rintro hnone ⟨a, b, hab⟩
    obtain ⟨pre, p, -, hp⟩ := split_end hd hu hs
    rw [← append_assoc, hab] at hp
    have hmem : p ++ s ∈ split d text := by
      rw [← mem_split_terminated_iff hd hu (by simp [hne]), hp]
      simp
    exact hnone (p ++ s) hmem (suffix_append ..)

end

end

end Search
