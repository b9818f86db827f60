import GitTest.Lib.Recognise
import GitTest.Resolv.Answer

/-!
# Which queries are checked, and when two of them are equal (res_cache.c)

The grammar of a query: a header, and as many question records as it counts, each a domain
name of labels with 1 to 63 bytes, a type and the class IN.  `checkQName`, `checkQR` and
`checkQRs` are exact recognisers of it, but for the types: the literal for ALL has the bytes
0 and 31.

    checkQuery q ↔ CachedTypes [1, 12, 15, 28, 31] q  (checkQuery_iff)

`compareQuery` is `isEqualQuery` with the branches that log `INTERNAL_ERROR` told apart.  On
words of the grammar it takes the same words off both packets or none:

    DomainName u → DomainName v → compareDomainName (u ++ r) (v ++ s) =
      ok (if u = v then some (r, s) else none)  (compareDomainName_eq)
-/

namespace Resolv

open List Recognise

/-! ## The grammar -/

inductive DomainName : Bytes → Prop
  | root : DomainName [0]
  | label {c : UInt8} {l rest : Bytes} : 1 ≤ c.toNat → c.toNat ≤ 63 → l.length = c.toNat →
      DomainName rest → DomainName (c :: (l ++ rest))

/-- A question record of the type with number `t` and the class IN. -/
def Question (t : Nat) (w : Bytes) : Prop :=
  ∃ name hi lo, DomainName name ∧ t = hi.toNat * 256 + lo.toNat ∧ w = name ++ [hi, lo, 0, 1]

/-- The header of a query: only the TC and the RD bit are free. -/
structure QueryHeader (q : Bytes) : Prop where
  size : 12 ≤ q.length
  qr : (byte q 2).toNat / 128 = 0
  opcode : (byte q 2).toNat / 8 % 16 = 0
  aa : (byte q 2).toNat / 4 % 2 = 0
  ra : (byte q 3).toNat / 128 = 0
  z : (byte q 3).toNat / 16 % 8 = 0
  rcode : (byte q 3).toNat % 16 = 0
  ancount : be16 q 6 = 0
  nscount : be16 q 8 = 0
  arcount : be16 q 10 = 0
  qdcount : 0 < qdCount q

/-- `w` is the question section of `q`, and `ts` are the types of its questions. -/
def QuestionsAre (q : Bytes) (ts : List Nat) (w : Bytes) : Prop :=
  ts.length = qdCount q ∧ Sequence Question ts w ∧ ∃ rest, q.drop 12 = w ++ rest

/-- A query whose questions all have one of the given types. -/
def CachedTypes (types : List Nat) (q : Bytes) : Prop :=
  QueryHeader q ∧ ∃ ts w, QuestionsAre q ts w ∧ ∀ t ∈ ts, t ∈ types

/-- A, PTR, MX, AAAA and ALL. -/
def cacheableTypes : List Nat := [1, 12, 15, 28, 255]

/-- The types of the literals as the compiler reads them. -/
def literalTypes : List Nat := [1, 12, 15, 28, 31]

/-! ## The checks are exact -/

variable {c : UInt8} {fuel : Nat} {w u v : Bytes} {ts : List Nat}

theorem ne_zero_of_one_le (h : 1 ≤ c.toNat) : c ≠ 0 := by
  rintro rfl
  exact absurd h (by decide)

theorem not_ge_64 (h : c.toNat ≤ 63) : ¬ c ≥ 64 := by
  intro hge
  have : (64 : UInt8).toNat ≤ c.toNat := UInt8.le_iff_toNat_le.1 hge
  have h64 : (64 : UInt8).toNat = 64 := rfl
  omega

theorem toNat_le_63 (h : ¬ c ≥ 64) : c.toNat ≤ 63 := by
  have hlt : ¬ (64 : UInt8).toNat ≤ c.toNat := fun hle => h (UInt8.le_iff_toNat_le.2 hle)
  have h64 : (64 : UInt8).toNat = 64 := rfl
  omega

theorem one_le_toNat (h : c ≠ 0) : 1 ≤ c.toNat := by
  have hne : c.toNat ≠ 0 := fun h0 => h (UInt8.toNat_inj.1 h0)
  omega

theorem checkQNameLoop_sound {p r : Bytes} (h : checkQNameLoop fuel p = some r) :
    ∃ w, DomainName w ∧ p = w ++ r := by
  fun_induction checkQNameLoop fuel p with
  | case3 fuel p =>
    cases h
    exact ⟨[0], .root, rfl⟩
  | case5 fuel c p h0 h64 ih =>
    obtain ⟨w, hw, hp⟩ := ih h
    -- the walk went on behind the label, so the label is inside the packet
    have hlen : c.toNat ≤ p.length := by
      by_contra hlong
      rw [drop_eq_nil_of_le (by omega)] at hp
      cases hw with
      | root => cases hp
      | label => cases hp
    refine ⟨c :: (p.take c.toNat ++ w),
      .label (one_le_toNat h0) (toNat_le_63 h64) (length_take_of_le hlen) hw, ?_⟩
    rw [cons_append, append_assoc, ← hp, take_append_drop]
  | _ => cases h

theorem checkQNameLoop_complete (hw : DomainName w) (hf : w.length ≤ fuel) (r : Bytes) :
    checkQNameLoop fuel (w ++ r) = some r := by
  induction hw generalizing fuel with
  | root =>
    cases fuel with
    | zero => cases hf
    | succ fuel => rfl
  | @label c l rest h1 h63 hl hrest ih =>
    cases fuel with
    | zero => cases hf
    | succ fuel =>
      simp only [length_cons, length_append] at hf
      rw [cons_append, checkQNameLoop, if_neg (ne_zero_of_one_le h1), if_neg (not_ge_64 h63),
        append_assoc, drop_left' hl]
      exact ih (by omega)

theorem checkQName_exact : Exact checkQName DomainName := by
  intro s r
  constructor
  · exact checkQNameLoop_sound
  · rintro ⟨w, hw, rfl⟩
    refine checkQNameLoop_complete hw ?_ r
    rw [length_append]
    omega

theorem checkBytes_two {s r : Bytes} {a b : UInt8} :
    checkBytes s 2 [a, b] = some r ↔ s = a :: b :: r := by
  constructor
  · intro h
    simp only [checkBytes, Option.ite_none_left_eq_some, Option.some.injEq] at h
    obtain ⟨-, htake, rfl⟩ := h
    rw [← take_append_drop 2 s, not_not.1 htake]
    rfl
  · rintro rfl
    simp [checkBytes]

theorem checkType_exact : Exact checkType fun w =>
    ∃ t ∈ literalTypes, ∃ hi lo : UInt8, t = hi.toNat * 256 + lo.toNat ∧ w = [hi, lo] := by
  intro s r
  simp only [checkType, Option.or_eq_some_iff]
  constructor
  · rintro (h | ⟨-, h | ⟨-, h | ⟨-, h | ⟨-, h⟩⟩⟩⟩)
    · exact ⟨[0, 1], ⟨1, by decide, 0, 1, rfl, rfl⟩, checkBytes_two.1 h⟩
    · exact ⟨[0, 12], ⟨12, by decide, 0, 12, rfl, rfl⟩, checkBytes_two.1 h⟩
    · exact ⟨[0, 15], ⟨15, by decide, 0, 15, rfl, rfl⟩, checkBytes_two.1 h⟩
    · exact ⟨[0, 28], ⟨28, by decide, 0, 28, rfl, rfl⟩, checkBytes_two.1 h⟩
    · exact ⟨[0, 31], ⟨31, by decide, 0, 31, rfl, rfl⟩, checkBytes_two.1 h⟩
  · rintro ⟨w, ⟨t, ht, hi, lo, rfl, rfl⟩, rfl⟩
    have hzero : hi = 0 := by
      simp only [literalTypes, mem_cons, not_mem_nil, or_false] at ht
      apply UInt8.toNat_inj.1
      have h0 : (0 : UInt8).toNat = 0 := rfl
      omega
    subst hzero
    have hcode : lo = 1 ∨ lo = 12 ∨ lo = 15 ∨ lo = 28 ∨ lo = 31 := by
      have h0 : (0 : UInt8).toNat = 0 := rfl
      simpa [literalTypes, h0, ← UInt8.toNat_inj] using ht
    rcases hcode with rfl | rfl | rfl | rfl | rfl <;>
      simp [checkBytes, dnsTypeA, dnsTypePtr, dnsTypeMx, dnsTypeAaaa, dnsTypeAll]

theorem checkQR_exact : Exact checkQR fun w => ∃ t, t ∈ literalTypes ∧ Question t w := by
  have hclass : Exact (fun s => checkBytes s 2 dnsClassIn) (fun w => w = [0, 1]) := by
    intro s r
    rw [dnsClassIn, checkBytes_two]
    constructor
    · rintro rfl
      exact ⟨[0, 1], rfl, rfl⟩
    · rintro ⟨w, rfl, rfl⟩
      rfl
  refine (checkQName_exact.bind (checkType_exact.bind hclass)).congr fun w => ?_
  constructor
  · rintro ⟨name, v, hname, ⟨w, c, ⟨t, ht, hi, lo, hcode, rfl⟩, rfl, rfl⟩, rfl⟩
    exact ⟨t, ht, name, hi, lo, hname, hcode, rfl⟩
  · rintro ⟨t, ht, name, hi, lo, hname, hcode, rfl⟩
    exact ⟨name, [hi, lo, 0, 1], hname, ⟨[hi, lo], [0, 1], ⟨t, ht, hi, lo, hcode, rfl⟩, rfl, rfl⟩, rfl⟩

theorem checkQRs_exact (n : Nat) : Exact (checkQRs n) fun w =>
    ∃ ts : List Nat, ts.length = n ∧ (∀ t ∈ ts, t ∈ literalTypes) ∧ Sequence Question ts w :=
  checkQR_exact.repeat (fun _ => rfl) (fun _ _ => rfl) n

theorem question_unambiguous : Unambiguous Question := by
  rintro t t' u u' r r' ⟨name, hi, lo, hname, rfl, rfl⟩ ⟨name', hi', lo', hname', rfl, rfl⟩ heq
  rw [append_assoc, append_assoc] at heq
  obtain ⟨rfl, hrest⟩ := checkQName_exact.unique hname hname' heq
  obtain ⟨rfl, htail⟩ := List.cons.inj hrest
  obtain ⟨rfl, -⟩ := List.cons.inj htail
  exact ⟨rfl, rfl⟩

theorem QuestionsAre.unique {q : Bytes} {ts' : List Nat} {w' : Bytes} (h : QuestionsAre q ts w)
    (h' : QuestionsAre q ts' w') : ts = ts' ∧ w = w' := by
  obtain ⟨hlen, hw, rest, heq⟩ := h
  obtain ⟨hlen', hw', rest', heq'⟩ := h'
  exact question_unambiguous.sequence hw hw' (hlen.trans hlen'.symm) (heq.symm.trans heq')

/-! ### The header -/

theorem flags_iff (b : UInt8) : b &&& 0xFC = 0 ↔
    b.toNat / 128 = 0 ∧ b.toNat / 8 % 16 = 0 ∧ b.toNat / 4 % 2 = 0 := by
  have hall : ∀ n < 256, UInt8.ofNat n &&& 0xFC = 0 ↔
      (UInt8.ofNat n).toNat / 128 = 0 ∧ (UInt8.ofNat n).toNat / 8 % 16 = 0 ∧
        (UInt8.ofNat n).toNat / 4 % 2 = 0 := by decide +kernel
  have h := hall b.toNat b.toNat_lt
  rwa [UInt8.ofNat_toNat] at h

theorem eq_zero_iff (b : UInt8) :
    b = 0 ↔ b.toNat / 128 = 0 ∧ b.toNat / 16 % 8 = 0 ∧ b.toNat % 16 = 0 := by
  rw [← UInt8.toNat_inj]
  have h0 : (0 : UInt8).toNat = 0 := rfl
  omega

theorem checkQuery_eq (q : Bytes) : checkQuery q = true ↔
    QueryHeader q ∧ ∃ r, checkQRs (qdCount q) (q.drop 12) = some r := by
  have hiff : QueryHeader q ↔ ¬ q.length < dnsHeaderSize ∧
      ¬ (byte q 2 &&& 0xFC ≠ 0 ∨ byte q 3 ≠ 0) ∧
      ¬ (be16 q 6 ≠ 0 ∨ be16 q 8 ≠ 0 ∨ be16 q 10 ≠ 0) ∧ ¬ qdCount q = 0 := by
    simp only [not_or, not_not, ne_eq, flags_iff, eq_zero_iff (byte q 3), dnsHeaderSize]
    constructor
    · rintro ⟨hsize, hqr, hop, haa, hra, hz, hrc, han, hns, har, hqd⟩
      exact ⟨by omega, ⟨⟨hqr, hop, haa⟩, hra, hz, hrc⟩, ⟨han, hns, har⟩, by omega⟩
    · rintro ⟨hsize, ⟨⟨hqr, hop, haa⟩, hra, hz, hrc⟩, ⟨han, hns, har⟩, hqd⟩
      exact ⟨by omega, hqr, hop, haa, hra, hz, hrc, han, hns, har, by omega⟩
  rw [hiff, ← Option.isSome_iff_exists]
  simp only [checkQuery, Bool.if_false_left, Bool.and_eq_true, Bool.not_eq_true',
    decide_eq_false_iff_not, and_assoc]
  rfl

theorem checkQuery_iff (q : Bytes) : checkQuery q = true ↔ CachedTypes literalTypes q := by
  rw [checkQuery_eq]
  apply and_congr_right
  intro _
  simp only [checkQRs_exact (qdCount q) (q.drop 12)]
  constructor
  · rintro ⟨r, w, ⟨ts, hlen, hts, hw⟩, heq⟩
    exact ⟨ts, w, ⟨hlen, hw, r, heq⟩, hts⟩
  · rintro ⟨ts, w, ⟨hlen, hw, r, heq⟩, hts⟩
    exact ⟨r, w, ⟨ts, hlen, hts, hw⟩, heq⟩

/-- The supported types and the two that the literal confuses. -/
def knownTypes : List Nat := [1, 12, 15, 28, 31, 255]

theorem forall_types_iff {types : List Nat} {x : Nat}
    (hmem : ∀ t, t ∈ types ↔ t ∈ knownTypes ∧ t ≠ x) :
    (∀ t ∈ ts, t ∈ types) ↔ (∀ t ∈ ts, t ∈ knownTypes) ∧ x ∉ ts := by
  simp only [hmem]
  constructor
  · intro h
    exact ⟨fun t ht => (h t ht).1, fun hx => (h x hx).2 rfl⟩
  · rintro ⟨h, hx⟩ t ht
    exact ⟨h t ht, fun he => hx (he ▸ ht)⟩

theorem mem_literalTypes (t : Nat) : t ∈ literalTypes ↔ t ∈ knownTypes ∧ t ≠ 255 := by
  simp only [literalTypes, knownTypes, mem_cons, not_mem_nil, or_false]
  omega

theorem mem_cacheableTypes (t : Nat) : t ∈ cacheableTypes ↔ t ∈ knownTypes ∧ t ≠ 31 := by
  simp only [cacheableTypes, knownTypes, mem_cons, not_mem_nil, or_false]
  omega

theorem cachedTypes_iff {q : Bytes} {types : List Nat} (hh : QueryHeader q)
    (hq : QuestionsAre q ts w) : CachedTypes types q ↔ ∀ t ∈ ts, t ∈ types := by
  constructor
  · rintro ⟨-, ts', w', hq', hts⟩
    rw [(hq.unique hq').1]
    exact hts
  · exact fun hts => ⟨hh, ts, w, hq, hts⟩

/-- The check accepts exactly the cacheable queries, unless a packet that is well formed but for
its types has a question of type ALL and none of type 31, or the other way round. -/
theorem checkQuery_cacheable_iff (q : Bytes) :
    (checkQuery q = true ↔ CachedTypes cacheableTypes q) ↔
    ∀ ts w, QueryHeader q → QuestionsAre q ts w → (∀ t ∈ ts, t ∈ knownTypes) →
      (31 ∈ ts ↔ 255 ∈ ts) := by
  rw [checkQuery_iff]
  by_cases hsec : QueryHeader q ∧ ∃ ts w, QuestionsAre q ts w
  · obtain ⟨hh, ts, w, hq⟩ := hsec
    rw [cachedTypes_iff hh hq, cachedTypes_iff hh hq, forall_types_iff mem_literalTypes,
      forall_types_iff mem_cacheableTypes]
    constructor
    · intro h ts' w' _ hq' hknown
      rw [← (hq.unique hq').1] at hknown ⊢
      tauto
    · intro h
      have := h ts w hh hq
      tauto
  · -- no section: both sides refuse
    have hnone : ∀ types, ¬ CachedTypes types q := by
      rintro types ⟨hh, ts, w, hq, -⟩
      exact hsec ⟨hh, ts, w, hq⟩
    constructor
    · intro _ ts w hh hq
      exact absurd ⟨hh, ts, w, hq⟩ hsec
    · intro _
      exact ⟨fun h => absurd h (hnone _), fun h => absurd h (hnone _)⟩

theorem exampleQuery_type (t : UInt8) : QueryHeader (exampleQuery.set 16 t) ∧
    QuestionsAre (exampleQuery.set 16 t) [t.toNat] [1, 97, 0, 0, t, 0, 1] := by
  have hname : DomainName [1, 97, 0] := .label (l := [97]) (by decide) (by decide) rfl .root
  have hquestion : Question t.toNat [1, 97, 0, 0, t, 0, 1] :=
    ⟨[1, 97, 0], 0, t, hname, by simp, rfl⟩
  refine ⟨?_, ?_, .cons hquestion .nil, [], rfl⟩
  · constructor <;> simp [exampleQuery, byte, be16, qdCount]
  · simp [exampleQuery, byte, be16, qdCount]

/-- A query of type ALL is refused, and one of type 31 is accepted. -/
theorem checkQuery_refuses_all :
    checkQuery (exampleQuery.set 16 255) = false ∧
      CachedTypes cacheableTypes (exampleQuery.set 16 255) ∧
    checkQuery (exampleQuery.set 16 31) = true ∧
      ¬ CachedTypes cacheableTypes (exampleQuery.set 16 31) := by
  obtain ⟨hall, hallq⟩ := exampleQuery_type 255
  obtain ⟨h31, h31q⟩ := exampleQuery_type 31
  refine ⟨by decide +kernel, (cachedTypes_iff hall hallq).2 (by decide), by decide +kernel, ?_⟩
  rw [cachedTypes_iff h31 h31q]
  decide

/-! ## Comparison -/

/-- The branches of the comparison that a checked packet should not reach. -/
inductive InternalError
  | readOverflow
  | malformedDomain
  | labelReadOverflow
  deriving DecidableEq, Repr

/-- The label loop of `_dnsPacket_isEqualDomainName`, with what it logs.  The fuel is at least the
number of bytes left in the first packet, so without fuel that packet is at its end. -/
def compareDomainNameLoop : Nat → Bytes → Bytes → Except InternalError (Option (Bytes × Bytes))
  | 0, _, _ => .error .readOverflow
  | _ + 1, [], _ => .error .readOverflow
  | _ + 1, _ :: _, [] => .error .readOverflow
  | fuel + 1, c1 :: p1, c2 :: p2 =>
    if c1 ≠ c2 then .ok none
    else if c1 = 0 then .ok (some (p1, p2))
    else if c1 ≥ 64 then .error .malformedDomain
    else if c1.toNat > p1.length ∨ c1.toNat > p2.length then .error .labelReadOverflow
    else if p1.take c1.toNat ≠ p2.take c1.toNat then .ok none
    else compareDomainNameLoop fuel (p1.drop c1.toNat) (p2.drop c1.toNat)

def compareDomainName (p1 p2 : Bytes) : Except InternalError (Option (Bytes × Bytes)) :=
  compareDomainNameLoop p1.length p1 p2

def compareQR (p1 p2 : Bytes) : Except InternalError (Option (Bytes × Bytes)) :=
  (compareDomainName p1 p2).map fun r => r.bind fun p => isEqualBytes p.1 p.2 (2 + 2)

def compareQRs : Nat → Bytes → Bytes → Except InternalError (Option (Bytes × Bytes))
  | 0, p1, p2 => .ok (some (p1, p2))
  | n + 1, p1, p2 =>
    match compareQR p1 p2 with
    | .error e => .error e
    | .ok none => .ok none
    | .ok (some p) => compareQRs n p.1 p.2

def compareQuery (q1 q2 : Bytes) : Except InternalError Bool :=
  if rd q1 ≠ rd q2 then .ok false
  else
    let count1 := readInt16 (q1.drop 4)
    let count2 := readInt16 (q2.drop 4)
    if count1.1 ≠ count2.1 ∨ count1.1 < 0 then .ok false
    else (compareQRs count1.1.toNat (count1.2.drop 6) (count2.2.drop 6)).map Option.isSome

/-! ### The return value

The C functions return 0 for a difference and for an internal error. -/

def returned {α : Type} (r : Except InternalError (Option α)) : Option α := r.toOption.join

theorem returned_compareDomainNameLoop (fuel : Nat) (p1 p2 : Bytes) :
    returned (compareDomainNameLoop fuel p1 p2) = isEqualDomainNameLoop fuel p1 p2 := by
  induction fuel generalizing p1 p2 with
  | zero => rfl
  | succ fuel ih =>
    cases p1 with
    | nil => rfl
    | cons c1 p1 =>
      cases p2 with
      | nil => rfl
      | cons c2 p2 =>
        simp only [compareDomainNameLoop, isEqualDomainNameLoop, ← ih, apply_ite returned]
        rfl

theorem returned_compareQR (p1 p2 : Bytes) : returned (compareQR p1 p2) = isEqualQR p1 p2 := by
  unfold isEqualQR isEqualDomainName
  rw [← returned_compareDomainNameLoop]
  show returned ((compareDomainName p1 p2).map _) = (returned (compareDomainName p1 p2)).bind _
  cases compareDomainName p1 p2 with
  | error e => rfl
  | ok r => rfl

theorem returned_compareQRs (n : Nat) (p1 p2 : Bytes) :
    returned (compareQRs n p1 p2) = isEqualQRs n p1 p2 := by
  induction n generalizing p1 p2 with
  | zero => rfl
  | succ n ih =>
    simp only [isEqualQRs, compareQRs, ← returned_compareQR]
    cases compareQR p1 p2 with
    | error e => rfl
    | ok r =>
      cases r with
      | none => rfl
      | some p => exact ih p.1 p.2

/-- `isEqualQuery` is what is left of `compareQuery` without the log. -/
theorem isEqualQuery_eq_compare (q1 q2 : Bytes) :
    isEqualQuery q1 q2 = (compareQuery q1 q2).toOption.getD false := by
  unfold isEqualQuery compareQuery
  split
  · rfl
  · dsimp only
    split
    · rfl
    · rw [← returned_compareQRs]
      cases compareQRs (readInt16 (q1.drop 4)).1.toNat ((readInt16 (q1.drop 4)).2.drop 6)
          ((readInt16 (q2.drop 4)).2.drop 6) with
      | error e => rfl
      | ok r => rfl

/-! ### On checked packets -/

/-- Two names: the same name goes off both packets, and nothing is wrong with either. -/
theorem compareDomainNameLoop_eq (hu : DomainName u) (hv : DomainName v) (hf : u.length ≤ fuel)
    (r s : Bytes) : compareDomainNameLoop fuel (u ++ r) (v ++ s) =
      .ok (if u = v then some (r, s) else none) := by
  induction hu generalizing v fuel with
  | root =>
    cases fuel with
    | zero => cases hf
    | succ fuel =>
      cases hv with
      | root => rfl
      | @label c l rest h1 _ _ _ =>
        have hne := ne_zero_of_one_le h1
        simp [compareDomainNameLoop, hne.symm]
  | @label c l rest h1 h63 hl _ ih =>
    cases fuel with
    | zero => cases hf
    | succ fuel =>
      have hne := ne_zero_of_one_le h1
      cases hv with
      | root => simp [compareDomainNameLoop, hne]
      | @label c' l' rest' h1' _ hl' hrest' =>
        simp only [length_cons, length_append] at hf
        by_cases hc : c = c'
        · subst hc
          have hroom : ¬ (c.toNat > (l ++ rest ++ r).length ∨
              c.toNat > (l' ++ rest' ++ s).length) := by
            simp only [length_append]
            omega
          rw [cons_append, cons_append, compareDomainNameLoop, if_neg hne, if_neg (not_ge_64 h63),
            if_neg hroom, append_assoc, append_assoc, take_left' hl, take_left' hl', drop_left' hl,
            drop_left' hl']
          by_cases hll : l = l'
          · subst hll
            rw [ih hrest' (by omega)]
            simp
          · have happ : ¬ l ++ rest = l' ++ rest' := fun he =>
              hll (append_inj_left he (hl.trans hl'.symm))
            rw [if_pos hll]
            simp [happ]
        · simp [compareDomainNameLoop, hc]

theorem compareDomainName_eq (hu : DomainName u) (hv : DomainName v) (r s : Bytes) :
    compareDomainName (u ++ r) (v ++ s) = .ok (if u = v then some (r, s) else none) := by
  refine compareDomainNameLoop_eq hu hv ?_ r s
  rw [length_append]
  omega

theorem isEqualBytes_eq {n : Nat} (hu : u.length = n) (hv : v.length = n) (r s : Bytes) :
    isEqualBytes (u ++ r) (v ++ s) n = if u = v then some (r, s) else none := by
  subst hu
  have hroom : ¬ (u.length > (u ++ r).length ∨ u.length > (v ++ s).length) := by
    simp only [length_append]
    omega
  rw [isEqualBytes, if_neg hroom, take_left, drop_left, take_left' hv, drop_left' hv]
  by_cases huv : u = v
  · rw [if_neg (not_not.2 huv), if_pos huv]
  · rw [if_pos huv, if_neg huv]

theorem compareQR_eq {t t' : Nat} (hu : Question t u) (hv : Question t' v) (r s : Bytes) :
    compareQR (u ++ r) (v ++ s) = .ok (if u = v then some (r, s) else none) := by
  obtain ⟨name, hi, lo, hname, -, rfl⟩ := hu
  obtain ⟨name', hi', lo', hname', -, rfl⟩ := hv
  rw [compareQR, append_assoc, append_assoc, compareDomainName_eq hname hname']
  by_cases hn : name = name'
  · subst hn
    rw [if_pos rfl]
    show Except.ok (isEqualBytes ([hi, lo, 0, 1] ++ r) ([hi', lo', 0, 1] ++ s) 4) = _
    rw [isEqualBytes_eq (n := 4) rfl rfl]
    simp
  · rw [if_neg hn, if_neg]
    · rfl
    · intro he
      exact hn (append_inj_left' he rfl)

theorem compareQRs_eq {ts' : List Nat} (hu : Sequence Question ts u) (hv : Sequence Question ts' v)
    (hlen : ts.length = ts'.length) (r s : Bytes) :
    compareQRs ts.length (u ++ r) (v ++ s) = .ok (if u = v then some (r, s) else none) := by
  induction hu generalizing ts' v with
  | nil =>
    cases length_eq_zero_iff.1 hlen.symm
    rw [sequence_nil_iff.1 hv]
    rfl
  | @cons t ts u₁ u₂ hu₁ _ ih =>
    cases hv with
    | nil => cases hlen
    | @cons t' ts' v₁ v₂ hv₁ hv₂ =>
      rw [append_assoc, append_assoc, length_cons, compareQRs, compareQR_eq hu₁ hv₁]
      by_cases h₁ : u₁ = v₁
      · subst h₁
        rw [if_pos rfl]
        show compareQRs ts.length (u₂ ++ r) (v₂ ++ s) = _
        rw [ih hv₂ (Nat.succ.inj hlen)]
        simp
      · rw [if_neg h₁, if_neg]
        intro he
        have heq : u₁ ++ (u₂ ++ r) = v₁ ++ (v₂ ++ r) := by
          rw [← append_assoc, ← append_assoc, he]
        exact h₁ (question_unambiguous hu₁ hv₁ heq).2

/-- A query that the cache may hold. -/
abbrev CheckedQuery := { q : Bytes // checkQuery q = true }

theorem CheckedQuery.questions (q : CheckedQuery) :
    12 ≤ q.val.length ∧ ∃ ts w, QuestionsAre q.val ts w := by
  obtain ⟨hh, ts, w, hq, -⟩ := (checkQuery_iff q.val).1 q.property
  exact ⟨hh.size, ts, w, hq⟩

/-- Two queries ask the same: one RD bit, one QDCOUNT, and the same bytes in the question
section. -/
def SameQuestions (q1 q2 : Bytes) : Prop :=
  rd q1 = rd q2 ∧ qdCount q1 = qdCount q2 ∧
    ∃ ts w, QuestionsAre q1 ts w ∧ QuestionsAre q2 ts w

theorem compareQuery_eq (q1 q2 : CheckedQuery) :
    ∃ b, compareQuery q1.val q2.val = .ok b ∧ (b = true ↔ SameQuestions q1.val q2.val) := by
  obtain ⟨hsize1, ts1, w1, hq1⟩ := q1.questions
  obtain ⟨hsize2, ts2, w2, hq2⟩ := q2.questions
  obtain ⟨hc1, hd1⟩ := readInt16_header hsize1
  obtain ⟨hc2, hd2⟩ := readInt16_header hsize2
  unfold compareQuery
  split
  · next hrd => exact ⟨false, rfl, by simp [SameQuestions, hrd]⟩
  · next hrd =>
    simp only [hc1, hc2, hd1, hd2]
    split
    · next hcount =>
      have hne : qdCount q1.val ≠ qdCount q2.val := by omega
      exact ⟨false, rfl, by simp [SameQuestions, hne]⟩
    · next hcount =>
      have heq : qdCount q1.val = qdCount q2.val := by omega
      obtain ⟨hlen1, hw1, r1, hr1⟩ := hq1
      obtain ⟨hlen2, hw2, r2, hr2⟩ := hq2
      rw [hr1, hr2, Int.toNat_natCast, ← hlen1, compareQRs_eq hw1 hw2 (by rw [hlen1, hlen2, heq])]
      refine ⟨_, rfl, ?_⟩
      constructor
      · intro hsome
        have hw : w1 = w2 := by
          by_contra hne
          rw [if_neg hne] at hsome
          cases hsome
        subst hw
        have hts := (question_unambiguous.sequence hw1 hw2 (by rw [hlen1, hlen2, heq])
          (rfl : w1 ++ [] = w1 ++ [])).1
        subst hts
        exact ⟨not_not.1 hrd, heq, ts1, w1, ⟨hlen1, hw1, r1, hr1⟩, hlen2, hw2, r2, hr2⟩
      · rintro ⟨-, -, ts, w, h1, h2⟩
        have hw : w1 = w2 :=
          (QuestionsAre.unique ⟨hlen1, hw1, r1, hr1⟩ h1).2.trans
            (QuestionsAre.unique ⟨hlen2, hw2, r2, hr2⟩ h2).2.symm
        rw [if_pos hw]
        rfl

theorem isEqualQuery_iff {q1 q2 : Bytes} (h1 : checkQuery q1 = true) (h2 : checkQuery q2 = true) :
    isEqualQuery q1 q2 = true ↔ SameQuestions q1 q2 := by
  obtain ⟨b, hb, hiff⟩ := compareQuery_eq ⟨q1, h1⟩ ⟨q2, h2⟩
  rw [isEqualQuery_eq_compare, hb]
  exact hiff

theorem SameQuestions.trans {q1 q2 q3 : Bytes} (h12 : SameQuestions q1 q2)
    (h23 : SameQuestions q2 q3) : SameQuestions q1 q3 := by
  obtain ⟨hrd, hqd, ts, w, h1, h2⟩ := h12
  obtain ⟨hrd', hqd', ts', w', h2', h3⟩ := h23
  obtain ⟨rfl, rfl⟩ := h2.unique h2'
  exact ⟨hrd.trans hrd', hqd.trans hqd', ts, w, h1, h3⟩

/-- The comparison of checked packets: exact, an equivalence relation, and without internal
errors. -/
theorem isEqualQuery_exact :
    (∀ q1 q2 : CheckedQuery,
      (isEqualQuery q1.val q2.val = true ↔ SameQuestions q1.val q2.val) ∧
      ∃ b, compareQuery q1.val q2.val = .ok b) ∧
    Equivalence fun q1 q2 : CheckedQuery => isEqualQuery q1.val q2.val = true := by
  refine ⟨?_, ?_, ?_, ?_⟩
  · intro q1 q2
    obtain ⟨b, hb, -⟩ := compareQuery_eq q1 q2
    exact ⟨isEqualQuery_iff q1.property q2.property, b, hb⟩
  · intro q
    exact isEqualQuery_refl q.property
  · intro q1 q2 h
    rw [isEqualQuery_comm]
    exact h
  · intro q1 q2 q3 h12 h23
    have hsame := ((isEqualQuery_iff q1.property q2.property).1 h12).trans
      ((isEqualQuery_iff q2.property q3.property).1 h23)
    exact (isEqualQuery_iff q1.property q3.property).2 hsame

/-- Another ID, the TC bit and a byte behind the question make no difference. -/
example : isEqualQuery exampleQuery ((exampleQuery.set 0 7).set 2 3 ++ [9]) = true := by
  decide +kernel

end Resolv
