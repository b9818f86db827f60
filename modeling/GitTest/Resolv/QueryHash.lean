import GitTest.Resolv.Lru

/-!
# Equal queries and their hashes (res_cache.c)

`_dnsPacket_hashBytes` does not count its bytes down, so the hash of a query runs over
everything behind the first name, to the end of the packet; the comparison stops behind the
last question.  Equal queries of one length have equal hashes if nothing follows the
questions, and otherwise some do not:

    checkQuery q → (FoundAgain q ↔ EndsWithQuestions q)  (foundAgain_iff)

`FoundAgain q` says that the hashes are equal and that a lookup of an equal query finds what
was added for `q`, in every run that spares the entry.
-/

namespace Resolv

open List Machines Recognise

/-! ## The hash of a checked query -/

theorem DomainName.length_pos {name : Bytes} (h : DomainName name) : 0 < name.length := by
  cases h with
  | root => exact Nat.one_pos
  | label => exact Nat.succ_pos _

/-- The loop over a name stops behind it, and hashes its labels. -/
theorem hashQNameLoop_name {name : Bytes} (h : DomainName name) :
    ∃ f : UInt32 → UInt32, ∀ fuel tail hash, name.length ≤ fuel →
      hashQNameLoop fuel (name ++ tail) hash = (tail, f hash) := by
  induction h with
  | root =>
    refine ⟨id, fun fuel tail hash hf => ?_⟩
    cases fuel with
    | zero => cases hf
    | succ fuel => rfl
  | @label c l rest h1 h63 hl hrest ih =>
    obtain ⟨f, hf⟩ := ih
    refine ⟨fun hash => f (l.foldl hashByte hash), fun fuel tail hash hfuel => ?_⟩
    cases fuel with
    | zero => cases hfuel
    | succ fuel =>
      have hpos := hrest.length_pos
      simp only [length_cons, length_append] at hfuel
      have hroom : ¬ c.toNat ≥ (l ++ rest ++ tail).length := by
        simp only [length_append]
        omega
      have htake : (l ++ rest ++ tail).take c.toNat = l := by
        rw [append_assoc, ← hl, take_left]
      have hdrop : (l ++ rest ++ tail).drop c.toNat = rest ++ tail := by
        rw [append_assoc, ← hl, drop_left]
      rw [cons_append, hashQNameLoop, if_neg (ne_zero_of_one_le h1), if_neg (not_ge_64 h63),
        if_neg hroom, htake, hdrop]
      exact hf fuel tail _ (by omega)

theorem hashQRs_nil (n : Nat) (hash : UInt32) : hashQRs n [] hash = hash := by
  induction n with
  | zero => rfl
  | succ n ih => exact ih

variable {ts : List Nat} {w q : Bytes} {a : Addr} {e : Entry}

/-- The first question takes the rest of the packet with it. -/
theorem hashQRs_section (h : Sequence Question ts w) (hne : ts ≠ []) :
    ∃ g : UInt32 → UInt32, ∀ rest hash,
      hashQRs ts.length (w ++ rest) hash = rest.foldl hashByte (g hash) := by
  cases h with
  | nil => exact absurd rfl hne
  | @cons t ts u v hu _ =>
    obtain ⟨name, hi, lo, hname, -, rfl⟩ := hu
    obtain ⟨f, hf⟩ := hashQNameLoop_name hname
    refine ⟨fun hash => ([hi, lo, 0, 1] ++ v).foldl hashByte (f hash), fun rest hash => ?_⟩
    have hqr : hashQR (name ++ ([hi, lo, 0, 1] ++ v ++ rest)) hash =
        ([], ([hi, lo, 0, 1] ++ v ++ rest).foldl hashByte (f hash)) := by
      have hqname := hf (name ++ ([hi, lo, 0, 1] ++ v ++ rest)).length
        ([hi, lo, 0, 1] ++ v ++ rest) hash (by rw [length_append]; omega)
      unfold hashQR hashQName
      rw [hqname]
      rfl
    have happ : name ++ [hi, lo, 0, 1] ++ v ++ rest = name ++ ([hi, lo, 0, 1] ++ v ++ rest) := by
      simp only [append_assoc]
    rw [happ, length_cons, hashQRs, hqr, hashQRs_nil, foldl_append]

/-- The hash of a query with the section `w`: what is hashed behind the section is the rest of the
packet. -/
theorem exists_sectionHash (h : Sequence Question ts w) (hne : ts ≠ []) :
    ∃ g : UInt8 → UInt32, ∀ q rest, 12 ≤ q.length → ts.length = qdCount q →
      q.drop 12 = w ++ rest → hashQuery q = rest.foldl hashByte (g (rd q)) := by
  obtain ⟨g, hg⟩ := hashQRs_section h hne
  refine ⟨fun b => g (hashByte fnvBasis b), fun q rest hsize hlen hrest => ?_⟩
  obtain ⟨hc, hd⟩ := readInt16_header hsize
  show hashQRs (readInt16 (q.drop 4)).1.toNat ((readInt16 (q.drop 4)).2.drop 6) _ = _
  rw [hc, hd, hrest, ← hlen]
  exact hg rest _

theorem ne_nil_of_header (h : QueryHeader q) (hlen : ts.length = qdCount q) : ts ≠ [] := by
  rintro rfl
  have hpos := h.qdcount
  rw [← hlen] at hpos
  cases hpos

def EndsWithQuestions (q : Bytes) : Prop := ∃ ts, QuestionsAre q ts (q.drop 12)

theorem hash_eq_of_ends {q' : Bytes} (hq : checkQuery q = true) (hends : EndsWithQuestions q)
    (hlen : q'.length = q.length) (hq' : checkQuery q' = true) (heq : isEqualQuery q q' = true) :
    hashQuery q' = hashQuery q := by
  have hh := ((checkQuery_iff q).1 hq).1
  have hh' := ((checkQuery_iff q').1 hq').1
  obtain ⟨hrd, hqd, ts, w, hsec, hsec'⟩ := (isEqualQuery_iff hq hq').1 heq
  obtain ⟨ts₀, hall⟩ := hends
  -- the section is all that follows the header, in both packets
  have hw : w = q.drop 12 := (hsec.unique hall).2
  obtain ⟨hts, hseq, -⟩ := hsec
  obtain ⟨hts', -, rest', hrest'⟩ := hsec'
  have hnil : rest' = [] := by
    have hsize := congrArg List.length hrest'
    rw [hw, length_append, length_drop, length_drop] at hsize
    exact length_eq_zero_iff.1 (by omega)
  obtain ⟨g, hg⟩ := exists_sectionHash hseq (ne_nil_of_header hh hts)
  rw [hg q [] hh.size hts (by rw [hw, append_nil]), hg q' rest' hh'.size hts' hrest', hnil, hrd]

/-! ### Other bytes behind the questions -/

theorem byte_header {x : Bytes} (h : 12 ≤ q.length) {i : Nat} (hi : i < 12) :
    byte (q.take 12 ++ x) i = byte q i := by
  have hlen : i < (q.take 12).length := by
    rw [length_take]
    omega
  simp only [byte, getD_eq_getElem?_getD]
  rw [getElem?_append_left hlen, getElem?_take_of_lt hi]

theorem be16_header {x : Bytes} (h : 12 ≤ q.length) {i : Nat} (hi : i + 1 < 12) :
    be16 (q.take 12 ++ x) i = be16 q i := by
  unfold be16
  rw [byte_header h (by omega), byte_header h hi]

theorem QueryHeader.replace (h : QueryHeader q) (x : Bytes) :
    QueryHeader (q.take 12 ++ x) := by
  have hsize := h.size
  constructor
  · rw [length_append, length_take]
    omega
  · rw [byte_header hsize (by omega)]; exact h.qr
  · rw [byte_header hsize (by omega)]; exact h.opcode
  · rw [byte_header hsize (by omega)]; exact h.aa
  · rw [byte_header hsize (by omega)]; exact h.ra
  · rw [byte_header hsize (by omega)]; exact h.z
  · rw [byte_header hsize (by omega)]; exact h.rcode
  · rw [be16_header hsize (by omega)]; exact h.ancount
  · rw [be16_header hsize (by omega)]; exact h.nscount
  · rw [be16_header hsize (by omega)]; exact h.arcount
  · rw [qdCount, be16_header hsize (by omega)]; exact h.qdcount

/-- The bytes behind the questions do not matter for the check and the comparison. -/
theorem replace_rest (hq : checkQuery q = true) (hsec : QuestionsAre q ts w) (rest : Bytes) :
    checkQuery (q.take 12 ++ (w ++ rest)) = true ∧
      SameQuestions q (q.take 12 ++ (w ++ rest)) ∧
      (q.take 12 ++ (w ++ rest)).drop 12 = w ++ rest := by
  obtain ⟨hh, ts', w', hsec', htypes⟩ := (checkQuery_iff q).1 hq
  obtain ⟨rfl, rfl⟩ := hsec.unique hsec'
  obtain ⟨hlen, hw, -⟩ := hsec
  have hsize := hh.size
  have hdrop : (q.take 12 ++ (w ++ rest)).drop 12 = w ++ rest := by
    rw [drop_append_of_le_length (by rw [length_take]; omega),
      drop_eq_nil_of_le (by rw [length_take]; omega), nil_append]
  have hqd : qdCount (q.take 12 ++ (w ++ rest)) = qdCount q := be16_header hsize (by omega)
  have hrd : rd (q.take 12 ++ (w ++ rest)) = rd q := by
    unfold rd
    rw [byte_header hsize (by omega)]
  have hsec₂ : QuestionsAre (q.take 12 ++ (w ++ rest)) ts w := ⟨by rw [hqd, hlen], hw, rest, hdrop⟩
  refine ⟨(checkQuery_iff _).2 ⟨hh.replace _, ts, w, hsec₂, htypes⟩, ?_, hdrop⟩
  exact ⟨hrd.symm, hqd.symm, ts, w, hsec', hsec₂⟩

theorem hashByte_inj {hash : UInt32} {a b : UInt8} (h : hashByte hash a = hashByte hash b) :
    a = b := by
  have hx : a.toUInt32 = b.toUInt32 := by
    simpa [hashByte] using h
  apply UInt8.toNat_inj.1
  simpa using congrArg UInt32.toNat hx

/-- If something follows the questions, a query that differs in its last byte is equal and has
another hash. -/
theorem exists_other_hash (hq : checkQuery q = true) (hends : ¬ EndsWithQuestions q) :
    ∃ q', q'.length = q.length ∧ checkQuery q' = true ∧ isEqualQuery q q' = true ∧
      hashQuery q' ≠ hashQuery q := by
  obtain ⟨hh, ts, w, hsec, -⟩ := (checkQuery_iff q).1 hq
  obtain ⟨hts, hw, rest, hrest⟩ := hsec
  rcases eq_nil_or_concat rest with rfl | ⟨pre, b, rfl⟩
  · rw [append_nil] at hrest
    rw [← hrest] at hw
    exact absurd ⟨ts, hts, hw, [], (append_nil _).symm⟩ hends
  · rw [concat_eq_append] at hrest
    obtain ⟨hcheck, hsame, hdrop⟩ := replace_rest hq ⟨hts, hw, _, hrest⟩ (pre ++ [b + 1])
    refine ⟨_, ?_, hcheck, (isEqualQuery_iff hq hcheck).2 hsame, ?_⟩
    · have hsize := congrArg List.length hrest
      simp only [length_append, length_drop, length_cons, length_nil, length_take] at hsize ⊢
      omega
    · obtain ⟨g, hg⟩ := exists_sectionHash hw (ne_nil_of_header hh hts)
      have hhash := hg q _ hh.size hts hrest
      have hhash' := hg _ _ (hh.replace _).size (hsame.2.1 ▸ hts) hdrop
      rw [hhash, hhash', ← hsame.1, foldl_append, foldl_append]
      intro heq
      have hb : b + 1 = b := hashByte_inj heq
      simp at hb

/-! ## Runs that spare an entry -/

/-- The call does not empty the cache or evict the entry `e` at `a`, and comes before `e` expires. -/
def Spares (a : Addr) (e : Entry) (s : State) : Call → Prop
  | .lookup _ _ now => now.toInt < e.expires.toInt
  | .add _ _ _ _ => s.cache.numEntries < s.cache.maxEntries ∨ s.cache.mruPrev .header ≠ .entry a
  | .flush => False
  | .reset generation => s.cache.generation = generation

theorem Spares.keeps {s s' : State} {call : Call} (h : Spares a e s call) (hinv : Inv s)
    (hs : step s call = some s') (ha : s.cache.node a = some e) :
    s'.cache.node a = some e := by
  obtain ⟨⟨ring, chain, hwf⟩, -⟩ := hinv
  obtain ⟨ring', chain', -, heff⟩ := step_effect hwf hs
  generalize s'.cache = c' at heff ⊢
  cases heff with
  | lookup _ heff =>
    cases heff with
    | refused | missing | short => exact ha
    | found _ _ _ _ hnode => exact hnode ▸ ha
    | @stale b e' _ _ hit hold hnode =>
      refine hnode ▸ node_removed.2 ⟨ha, ?_⟩
      rintro rfl
      cases hit.1.symm.trans ha
      have hfresh : _ < e.expires.toInt := h
      omega
  | add heff =>
    by_contra hgone
    obtain ⟨hfull, l, rfl⟩ := heff.evicted ha hgone
    rcases h with hroom | hlast
    · omega
    · exact hlast hwf.oldest
  | flush => exact absurd h not_false
  | reset hne => exact absurd h hne
  | sameGeneration => exact ha

def Sparing (a : Addr) (e : Entry) (s₀ s : State) : Prop :=
  (Machine.mk (fun s => s = s₀) step).ReachableIf (Spares a e) s

theorem Sparing.keeps {s₀ s : State} (h : Sparing a e s₀ s) (hinv : Inv s₀)
    (ha : s₀.cache.node a = some e) : Inv s ∧ s.cache.node a = some e := by
  refine Machine.ReachableIf.invariant
    (I := fun s => Inv s ∧ s.cache.node a = some e) ?_ ?_ h
  · rintro s rfl
    exact ⟨hinv, ha⟩
  · rintro s call s' ⟨hi, hnode⟩ hg hs
    exact ⟨inv_step s call s' hi hs, hg.keeps hi hs hnode⟩

/-- The answer of the entry, or its length if the buffer is too short for it. -/
def Answers (e : Entry) (answersize : Int) (r : LookupResult) : Prop :=
  ((e.answer.length : Int) ≤ answersize →
    r = ⟨.found, some e.answer.length, some e.answer⟩) ∧
  ((e.answer.length : Int) > answersize → r = ⟨.unsupported, some e.answer.length, none⟩)

theorem WellFormed.lookup_hit {c : Cache} {ring : List Addr} {chain : Nat → List Addr}
    (h : WellFormed c ring chain) {query : Bytes} (hcheck : checkQuery query = true)
    (hit : HitAt c query a e) (answersize : Int) {now : TimeT}
    (hfresh : now.toInt < e.expires.toInt) :
    ∃ c' r, resolvCacheLookup c query answersize now = some (c', r) ∧ Answers e answersize r := by
  obtain ⟨c', ring', -, r, hrun, -, heff⟩ := h.lookup_effect query answersize now
  refine ⟨c', r, hrun, ?_⟩
  cases heff with
  | refused hno =>
    rw [hcheck] at hno
    cases hno
  | missing _ hmiss => exact absurd hit.2 (hmiss a e hit.1)
  | stale _ hit' hold =>
    obtain ⟨-, rfl⟩ := h.hit_unique hcheck hit hit'
    omega
  | short _ hit' _ hlong =>
    obtain ⟨-, rfl⟩ := h.hit_unique hcheck hit hit'
    exact ⟨fun hfits => absurd hlong (by omega), fun _ => rfl⟩
  | found _ hit' _ hfits =>
    obtain ⟨-, rfl⟩ := h.hit_unique hcheck hit hit'
    exact ⟨fun _ => rfl, fun hlong => absurd hlong (by omega)⟩

/-- What the cache owes to a query `q` and to the queries equal to it. -/
structure FoundAgain (q : Bytes) : Prop where
  hash : ∀ q', q'.length = q.length → checkQuery q' = true → isEqualQuery q q' = true →
    hashQuery q' = hashQuery q
  /-- what was added for `q` is found for `q'` in every run that spares the entry -/
  found : ∀ s s₀ s₁ answer time a, machine.Reachable s →
    step s (.add q answer time (some a)) = some s₀ →
    s₀.cache.node a = some (newEntry q answer time) →
    Sparing a (newEntry q answer time) s₀ s₁ →
    ∀ q', q'.length = q.length → checkQuery q' = true → isEqualQuery q q' = true →
    ∀ answersize now, now.toInt < (newEntry q answer time).expires.toInt →
      ∃ c' r, resolvCacheLookup s₁.cache q' answersize now = some (c', r) ∧
        Answers (newEntry q answer time) answersize r

/-- An accepted query and its equals have one hash, and are found again, exactly if nothing follows
the questions. -/
theorem foundAgain_iff {q : Bytes} (hq : checkQuery q = true) :
    FoundAgain q ↔ EndsWithQuestions q := by
  constructor
  · intro h
    by_contra hends
    obtain ⟨q', hlen, hq', heq, hne⟩ := exists_other_hash hq hends
    exact hne (h.hash q' hlen hq' heq)
  · intro hends
    have hhash : ∀ q', q'.length = q.length → checkQuery q' = true → isEqualQuery q q' = true →
        hashQuery q' = hashQuery q := fun _ hlen hq' heq => hash_eq_of_ends hq hends hlen hq' heq
    refine ⟨hhash, ?_⟩
    intro s s₀ s₁ answer time a hr hs hadded hspared q' hlen hq' heq answersize now hfresh
    have hinv := inv_step s _ s₀ (hr.invariant inv_init inv_step) hs
    obtain ⟨⟨⟨ring, chain, hwf⟩, -⟩, hnode⟩ := hspared.keeps hinv hadded
    refine hwf.lookup_hit hq' ⟨hnode, (hhash q' hlen hq' heq).symm, ?_⟩ answersize hfresh
    exact entryEquals_iff.2 ⟨hlen.symm, heq⟩

/-- `exampleQuery` with another ID finds what was added for it. -/
theorem foundAgain_other_id : EndsWithQuestions exampleQuery ∧
    ∃ s₀ c' r, step ⟨resolvCacheCreate none, [], false⟩
        (.add exampleQuery exampleAnswer 100 (some 7)) = some s₀ ∧
      resolvCacheLookup s₀.cache (exampleQuery.set 0 9) 512 200 = some (c', r) ∧
      r.answer = some exampleAnswer := by
  have hends : EndsWithQuestions exampleQuery := ⟨_, (exampleQuery_type 1).2⟩
  have hfound : FoundAgain exampleQuery := (foundAgain_iff (by decide +kernel)).2 hends
  have hadd : ((step ⟨resolvCacheCreate none, [], false⟩
      (.add exampleQuery exampleAnswer 100 (some 7))).map fun s => s.cache.node 7) =
      some (some (newEntry exampleQuery exampleAnswer 100)) := by decide +kernel
  obtain ⟨s₀, hs, hnode⟩ := Option.map_eq_some_iff.1 hadd
  obtain ⟨c', r, hrun, hanswers, -⟩ := hfound.found _ s₀ s₀ exampleAnswer 100 7
    (.init ⟨⟨none, rfl⟩, rfl, rfl⟩) hs hnode (.init rfl) (exampleQuery.set 0 9) rfl
    (by decide +kernel) (by decide +kernel) 512 200 (by decide +kernel)
  refine ⟨hends, s₀, c', r, hs, hrun, ?_⟩
  rw [hanswers (by decide)]
  rfl

/-- Two equal queries of one length with different bytes behind the question: the hashes differ, and
the second one is not found one second after the first was added. -/
theorem trailing_byte_not_found :
    (exampleQuery ++ [0]).length = (exampleQuery ++ [1]).length ∧
    checkQuery (exampleQuery ++ [0]) = true ∧ checkQuery (exampleQuery ++ [1]) = true ∧
    isEqualQuery (exampleQuery ++ [0]) (exampleQuery ++ [1]) = true ∧
    hashQuery (exampleQuery ++ [0]) ≠ hashQuery (exampleQuery ++ [1]) ∧
    ((step ⟨resolvCacheCreate none, [], false⟩
        (.add (exampleQuery ++ [0]) exampleAnswer 100 (some 7))).bind fun s =>
      (resolvCacheLookup s.cache (exampleQuery ++ [1]) 512 101).map fun r =>
        (s.cache.numEntries, r.2.status)) = some (1, .notfound) := by
  decide +kernel

end Resolv
