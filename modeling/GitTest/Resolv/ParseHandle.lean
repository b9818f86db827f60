import GitTest.Lib.Transition
import GitTest.Resolv.Answer

/-!
# The parse handle (ns_parse.c, ns_name.c)

A handle keeps where the record that was read last ends, and `ns_parserr` goes on from there, to
any record of any section.

    nsInitparse msg = some h → sect < nsSMax → k < h.counts sect →
      (nsParserr (h.calls cs) sect k).2 = h.recordAt sect k      (nsParserr_calls)

A name that can be read is as long as `ns_name_skip` says, and `ns_initparse` has skipped all
records: so after any calls the handle is in front of a record (`Cursor`).
-/

namespace Resolv

/-- The handle in front of record `k`. -/
def NsMsg.seek (h : NsMsg) (sect k : Nat) : NsMsg :=
  { h with sect := sect, rrnum := k, msgPtr := (h.sections sect).bind (skiprrLoop h.msg sect k) }

/-- The fields behind a name, without a look at the end of the message. -/
def fieldsAt (msg : Bytes) (sect : Nat) (name : Bytes) (p : Nat) : NsRr :=
  if sect = nsSQd then ⟨name, be16 msg p, be16 msg (p + 2), 0, 0, none⟩
  else ⟨name, be16 msg p, be16 msg (p + 2), nsGet32 msg (p + 4), be16 msg (p + 8), some (p + 10)⟩

/-- Record `k` of a section, if its name can be read. -/
def NsMsg.recordAt (h : NsMsg) (sect k : Nat) : Option NsRr :=
  (h.seek sect k).msgPtr.bind fun ptr =>
    (dnExpand h.msg ptr nsMaxdname).map fun n => fieldsAt h.msg sect n.2 (ptr + n.1)

/-- The handle after calls of `ns_parserr`, each with a section and a number. -/
def NsMsg.calls (h : NsMsg) (cs : List (Nat × Int)) : NsMsg :=
  cs.foldl (fun h c => (nsParserr h c.1 c.2).1) h

/-! ## Names -/

section Names

variable {msg dst u : Bytes} {dstsiz src fuel srcp checked n : Nat}

/-- The rounds of `ns_name_unpack` that do not fail: the end, a label or a pointer. -/
theorem unpackLoop_cases {len : Option Nat} {r : Nat × Bytes}
    (h : unpackLoop msg dstsiz src (fuel + 1) srcp dst len checked = some r) :
    (byte msg srcp = 0 ∧ r = (len.getD (srcp + 1 - src), dst ++ [0])) ∨
    (∃ l, labellen (msg.drop srcp) = some l ∧ byte msg srcp ≠ 0 ∧
      (byte msg srcp &&& nsCmprsflgs = 0 ∨ byte msg srcp &&& nsCmprsflgs = nsTypeElt) ∧
      dst.length + l + 1 < dstsiz ∧ srcp + 1 + l < msg.length ∧
      unpackLoop msg dstsiz src fuel (srcp + 1 + l)
        (dst ++ byte msg srcp :: (msg.drop (srcp + 1)).take l) len (checked + (l + 1)) = some r) ∨
    (byte msg srcp ≠ 0 ∧ byte msg srcp &&& nsCmprsflgs = nsCmprsflgs ∧ srcp + 1 < msg.length ∧
      ∃ srcp', unpackLoop msg dstsiz src fuel srcp' dst (some (len.getD (srcp + 1 - src + 1)))
        (checked + 2) = some r) := by
  rw [unpackLoop] at h
  grind

theorem unpackLoop_some {k : Nat}
    (h : unpackLoop msg dstsiz src fuel srcp dst (some k) checked = some (n, u)) : n = k := by
  induction fuel generalizing srcp dst checked with
  | zero => cases h
  | succ fuel ih =>
    obtain ⟨-, hr⟩ | ⟨l, -, -, -, -, -, hrest⟩ | ⟨-, -, -, _, hrest⟩ := unpackLoop_cases h
    · cases hr; rfl
    · exact ih hrest
    · exact ih hrest

theorem length_unpackLoop {len : Option Nat} (hdst : dst.length < dstsiz)
    (h : unpackLoop msg dstsiz src fuel srcp dst len checked = some (n, u)) :
    u.length ≤ dstsiz := by
  induction fuel generalizing srcp dst checked len with
  | zero => cases h
  | succ fuel ih =>
    obtain ⟨-, hr⟩ | ⟨l, -, -, -, hroom, -, hrest⟩ | ⟨-, -, -, _, hrest⟩ := unpackLoop_cases h
    · cases hr
      rwa [List.length_append]
    · refine ih ?_ hrest
      have htake := List.length_take_le l (msg.drop (srcp + 1))
      rw [List.length_append, List.length_cons]
      omega
    · exact ih hdst hrest

theorem labellen_drop {i : Nat} (h : byte msg i &&& nsCmprsflgs = 0) :
    labellen (msg.drop i) = some (byte msg i).toNat := by
  have hb : byte (msg.drop i) 0 = byte msg i := by simp [byte]
  simp only [labellen, hb, h]
  rfl

/-- Up to its first pointer a name is read and skipped in the same rounds. -/
theorem skipLoop_of_unpackLoop {f : Nat}
    (h : unpackLoop msg dstsiz src fuel srcp dst none checked = some (n, u))
    (hsrc : src ≤ srcp) (hlt : srcp < msg.length) (hf : msg.length - srcp ≤ f) :
    nsNameSkipLoop msg f srcp = some (src + n) ∧ src + n ≤ msg.length := by
  induction fuel generalizing srcp dst checked f with
  | zero => cases h
  | succ fuel ih =>
    obtain ⟨f, rfl⟩ : ∃ m, f = m + 1 := ⟨f - 1, by omega⟩
    rw [nsNameSkipLoop, if_pos hlt]
    obtain ⟨hzero, hr⟩ | ⟨l, hl, hzero, hflags, -, hend, hrest⟩ | ⟨hzero, hflags, hend, _, hrest⟩ :=
      unpackLoop_cases h
    · cases hr
      simp only [hzero, if_true, Option.getD_none]
      exact ⟨congrArg some (by omega), by omega⟩
    · have hskip := ih (f := f) hrest (by omega) (by omega) (by omega)
      grind [labellen_drop]
    · have hn := unpackLoop_some hrest
      rw [Option.getD_none] at hn
      simp only [hzero, hflags, if_false]
      exact ⟨congrArg some (by omega), by omega⟩

theorem nsNameSkip_of_nsNameUnpack (h : nsNameUnpack msg src dstsiz = some (n, u)) :
    nsNameSkip msg src = some (src + n) := by
  rw [nsNameUnpack] at h
  split at h
  · cases h
  · obtain ⟨hskip, hle⟩ := skipLoop_of_unpackLoop h (Nat.le_refl _) (by omega) (Nat.le_refl _)
    simp only [nsNameSkip, hskip, if_neg (Nat.not_lt.mpr hle)]

/-- **Reading and skipping.**  What `ns_name_unpack` accepts fits the buffer, and is as long as
`ns_name_skip` says. -/
theorem nsNameUnpack_agrees (hsiz : 0 < dstsiz) (h : nsNameUnpack msg src dstsiz = some (n, u)) :
    u.length ≤ dstsiz ∧ nsNameSkip msg src = some (src + n) := by
  refine ⟨?_, nsNameSkip_of_nsNameUnpack h⟩
  rw [nsNameUnpack] at h
  split at h
  · cases h
  · have hdst : ([] : Bytes).length < dstsiz := hsiz
    exact length_unpackLoop hdst h

theorem nsNameUnpack_agrees_pointer :
    nsNameUnpack exampleAnswer 19 255 = some (2, [1, 97, 0]) ∧
      ([1, 97, 0] : Bytes).length ≤ 255 ∧ nsNameSkip exampleAnswer 19 = some 21 := by
  have h : nsNameUnpack exampleAnswer 19 255 = some (2, [1, 97, 0]) := by decide +kernel
  exact ⟨h, nsNameUnpack_agrees (by decide) h⟩

theorem dnSkipname_of_dnExpand {r : Nat × Bytes} (h : dnExpand msg src dstsiz = some r) :
    dnSkipname msg src = some r.1 := by
  simp only [dnExpand, nsNameUncompress, Option.map_eq_some_iff, Option.bind_eq_some_iff] at h
  obtain ⟨_, ⟨_, hu, _, _, rfl⟩, rfl⟩ := h
  simp [dnSkipname, nsNameSkip_of_nsNameUnpack hu]

end Names

/-! ## Records -/

theorem skiprrLoop_add {msg : Bytes} {sect j k ptr : Nat} : skiprrLoop msg sect (j + k) ptr =
    (skiprrLoop msg sect j ptr).bind (skiprrLoop msg sect k) := by
  induction j generalizing ptr with
  | zero => rw [Nat.zero_add]; rfl
  | succ j ih =>
    rw [Nat.succ_add, skiprrLoop, skiprrLoop]
    cases dnSkipname msg ptr with
    | none => rfl
    | some b =>
      simp only [ih]
      split
      · split <;> rfl
      · rfl

theorem le_of_skiprrLoop {msg : Bytes} {sect k ptr p : Nat}
    (h : skiprrLoop msg sect k ptr = some p) : ptr ≤ p := by
  induction k generalizing ptr with
  | zero => cases h; exact Nat.le_refl _
  | succ k ih =>
    rw [skiprrLoop] at h
    grind

/-- A record that was skipped has its fields in the message. -/
theorem parseFields_eq {h : NsMsg} {sect ptr q b : Nat} (name : Bytes)
    (hskip : skiprrLoop h.msg sect 1 ptr = some q) (hq : q ≤ h.msg.length)
    (hb : dnSkipname h.msg ptr = some b) :
    parseFields h sect name (ptr + b) = (q, some (fieldsAt h.msg sect name (ptr + b))) := by
  simp only [skiprrLoop, hb] at hskip
  unfold parseFields fieldsAt
  grind

/-- All records can be skipped, up to a place in the message. -/
structure Parsed (h : NsMsg) : Prop where
  sect : h.sect = nsSMax
  skips : ∀ i < nsSMax, h.counts i ≠ 0 → ∃ p q, h.sections i = some p ∧
    skiprrLoop h.msg i (h.counts i) p = some q ∧ q ≤ h.msg.length

theorem initSections_spec {msg : Bytes} {counts : Nat → Nat} {l : List Nat} {ptr ptr' : Nat}
    {sections sections' : Nat → Option Nat} (hl : l.Nodup)
    (h : initSections msg counts l ptr sections = some (ptr', sections')) (i : Nat) :
    (i ∉ l → sections' i = sections i) ∧ (i ∈ l → counts i ≠ 0 → ∃ p q, sections' i = some p ∧
      skiprrLoop msg i (counts i) p = some q ∧ q ≤ msg.length) := by
  induction l generalizing ptr sections with
  | nil => cases h; simp
  | cons j l ih =>
    rw [List.nodup_cons] at hl
    rw [initSections] at h
    split at h
    · have hrest := ih hl.2 h
      grind [Function.update]
    · split at h
      · cases h
      · next b hb =>
        have hrest := ih hl.2 h
        rw [nsSkiprr] at hb
        grind [Function.update]

theorem parsed_of_nsInitparse {msg : Bytes} {h : NsMsg} (hi : nsInitparse msg = some h) :
    Parsed h := by
  rw [nsInitparse] at hi
  split at hi
  · cases hi
  · dsimp only at hi
    split at hi
    · cases hi
    · next heq =>
      split at hi
      · cases hi
      · cases hi
        exact ⟨rfl, fun i hlt => (initSections_spec (by decide) heq i).2 (List.mem_range.mpr hlt)⟩

/-! ## The handle -/

variable {h h' : NsMsg} {sect j k : Nat}

/-- Skipping moves the handle from record `j` to a later one, or to the end of the section. -/
theorem Parsed.skip (hp : Parsed h) (hs : sect < nsSMax) (hk : j + k ≤ h.counts sect)
    (hc : h.counts sect ≠ 0) : ∃ p q, (h.seek sect j).msgPtr = some p ∧
      skiprrLoop h.msg sect k p = some q ∧ p ≤ q ∧ q ≤ h.msg.length ∧
      (h.seek sect (j + k)).msgPtr = some q := by
  obtain ⟨start, stop, hsec, hall, hstop⟩ := hp.skips sect hs hc
  obtain ⟨n, hn⟩ := Nat.exists_eq_add_of_le hk
  rw [hn, skiprrLoop_add, skiprrLoop_add] at hall
  simp only [Option.bind_eq_some_iff] at hall
  obtain ⟨q, ⟨p, hj, hq⟩, hrest⟩ := hall
  refine ⟨p, q, ?_, hq, le_of_skiprrLoop hq, Nat.le_trans (le_of_skiprrLoop hrest) hstop, ?_⟩
  · simp [NsMsg.seek, hsec, hj]
  · simp [NsMsg.seek, hsec, skiprrLoop_add, hj, hq]

/-- Where calls leave the handle: as it was, or in front of a record. -/
inductive Cursor (h : NsMsg) : NsMsg → Prop
  | fresh : Cursor h h
  | before (sect k : Nat) : Cursor h (h.seek sect k)

theorem setsection_cursor (hc : Cursor h h') (hs : sect < nsSMax) :
    setsection h' sect = h.seek sect 0 := by
  have hskip : skiprrLoop h.msg sect 0 = some := rfl
  rw [setsection, if_neg (Nat.ne_of_lt hs), NsMsg.seek, hskip, Option.bind_fun_some]
  cases hc <;> rfl

theorem parseRecord_seek (hp : Parsed h) (hs : sect < nsSMax) (hk : k < h.counts sect) :
    Cursor h (parseRecord (h.seek sect k) sect).1 ∧
      (parseRecord (h.seek sect k) sect).2 = h.recordAt sect k := by
  obtain ⟨p, q, hpk, hskip, -, hle, hq⟩ := hp.skip hs (k := 1) hk (by omega)
  have hmsg : (h.seek sect k).msg = h.msg := rfl
  simp only [parseRecord, NsMsg.recordAt, hpk, hmsg, Option.bind_some]
  cases hn : dnExpand h.msg p nsMaxdname with
  | none => exact ⟨.before sect k, rfl⟩
  | some n =>
    have hfields := parseFields_eq (h := h.seek sect k) n.2 hskip hle (dnSkipname_of_dnExpand hn)
    -- the last record leaves the handle at the end of the section, and not in the next one
    have hcount : ¬ (h.seek sect k).rrnum + 1 > (h.seek sect k).counts sect :=
      Int.not_lt.mpr (Int.ofNat_le.mpr hk)
    simp only [hfields, hcount, if_false]
    rw [← hq]
    exact ⟨.before sect (k + 1), rfl⟩

/-- What a call does: it refuses the number, or parses a record in front of which it puts the
handle. -/
theorem nsParserr_cases (hp : Parsed h) (hc : Cursor h h') (hs : sect < nsSMax) (rrnum : Int) :
    (∃ j, nsParserr h' sect rrnum = (h.seek sect j, none) ∧ ¬ ∃ k < h.counts sect, rrnum = k) ∨
      ∃ k < h.counts sect, (rrnum = -1 ∨ rrnum = k) ∧
        nsParserr h' sect rrnum = parseRecord (h.seek sect k) sect := by
  obtain ⟨j, hj⟩ : ∃ j, (if sect ≠ h'.sect then setsection h' sect else h') = h.seek sect j := by
    rw [setsection_cursor hc hs]
    cases hc with
    | fresh => exact ⟨0, if_pos (hp.sect ▸ Nat.ne_of_lt hs)⟩
    | before s j =>
      by_cases hne : sect = s
      · exact ⟨j, by rw [hne]; exact if_neg fun hne => hne rfl⟩
      · exact ⟨0, if_pos hne⟩
  have hcounts : (h.seek sect j).counts = h.counts := rfl
  rw [nsParserr, if_neg (Nat.not_le.mpr hs)]
  simp only [hj, hcounts]
  generalize hr : (if rrnum = -1 then (h.seek sect j).rrnum else rrnum) = r
  split
  · next hrange =>
    refine .inl ⟨j, rfl, ?_⟩
    rintro ⟨k, hk, rfl⟩
    rw [if_neg (by omega)] at hr
    omega
  · next hrange =>
    obtain ⟨k, rfl⟩ := Int.eq_ofNat_of_zero_le (a := r) (by omega)
    have hk : k < h.counts sect := by omega
    refine .inr ⟨k, hk, by grind, ?_⟩
    obtain ⟨i, n, rfl, hi⟩ : ∃ i n, k = i + n ∧ (if (k : Int) < (h.seek sect j).rrnum
        then setsection (h.seek sect j) sect else h.seek sect j) = h.seek sect i := by
      rw [setsection_cursor (.before sect j) hs]
      split
      · exact ⟨0, k, (Nat.zero_add k).symm, rfl⟩
      · next hle =>
        obtain ⟨n, hn⟩ := Nat.exists_eq_add_of_le (Int.ofNat_le.mp (Int.not_lt.mp hle))
        exact ⟨j, n, hn, rfl⟩
    obtain ⟨p, q, hpi, hskip, hpq, hle, hq⟩ := hp.skip hs (Nat.le_of_lt hk) (by omega)
    have hmsg : (h.seek sect i).msg = h.msg := rfl
    have hnum : (((i + n : Nat) : Int) - (h.seek sect i).rrnum).toNat = n := by
      simp only [NsMsg.seek]
      omega
    have hb : nsSkiprr h.msg p sect n = some (q - p) := by
      simp only [nsSkiprr, hskip, if_neg (Nat.not_lt.mpr hle)]
    simp only [hi, hpi, hmsg, hnum, hb, Nat.add_sub_cancel' hpq]
    split
    · rw [← hq]
      rfl
    · next hlt =>
      have hn : n = 0 := by
        simp only [NsMsg.seek] at hlt
        omega
      rw [hn, Nat.add_zero]

theorem cursor_nsParserr (hp : Parsed h) (hc : Cursor h h') (rrnum : Int) :
    Cursor h (nsParserr h' sect rrnum).1 := by
  by_cases hs : sect < nsSMax
  · obtain ⟨j, hj, -⟩ | ⟨k, hk, -, heq⟩ := nsParserr_cases hp hc hs rrnum
    · rw [hj]
      exact .before sect j
    · rw [heq]
      exact (parseRecord_seek hp hs hk).1
  · rw [nsParserr, if_pos (Nat.le_of_not_lt hs)]
    exact hc

theorem cursor_calls (hp : Parsed h) (cs : List (Nat × Int)) (hc : Cursor h h') :
    Cursor h (h'.calls cs) := by
  induction cs generalizing h' with
  | nil => exact hc
  | cons c cs ih => exact ih (cursor_nsParserr hp hc c.2)

/-- **The parse handle.**  Whatever was asked before, `ns_parserr` returns record `k`; that one can
be reached, and so only its name can fail. -/
theorem nsParserr_calls {msg : Bytes} (hi : nsInitparse msg = some h) (cs : List (Nat × Int))
    (hs : sect < nsSMax) (hk : k < h.counts sect) :
    (nsParserr (h.calls cs) sect k).2 = h.recordAt sect k ∧
      ∃ ptr, (h.seek sect k).msgPtr = some ptr := by
  have hp := parsed_of_nsInitparse hi
  obtain ⟨_, _, hne⟩ | ⟨m, hm, heq, hparse⟩ :=
    nsParserr_cases hp (cursor_calls hp cs .fresh) hs k
  · exact absurd ⟨k, hk, rfl⟩ hne
  · have hmk : m = k := by omega
    obtain ⟨ptr, -, hptr, -⟩ := hp.skip hs (k := 1) hk (by omega)
    rw [hparse, hmk]
    exact ⟨(parseRecord_seek hp hs hk).2, ptr, hptr⟩

theorem nsParserr_calls_example : ∃ h, nsInitparse exampleAnswer = some h ∧
    (nsParserr (h.calls [(nsSAn, 5), (nsSQd, -1)]) nsSAn 0).2 = h.recordAt nsSAn 0 ∧
      ∃ ptr, (h.seek nsSAn 0).msgPtr = some ptr := by
  obtain ⟨h, hi, hk⟩ := Machines.Machine.exists_end (P := fun h => 0 < h.counts nsSAn)
    (o := nsInitparse exampleAnswer) (by decide +kernel)
  exact ⟨h, hi, nsParserr_calls hi _ (by decide) hk⟩

end Resolv
