import Mathlib.Data.List.Basic

/-!
# DNS query packets (libc/netbsd/resolv/res_cache.c)

The query side of the resolver cache: which packets are accepted (`checkQuery`), their hash
(`hashQuery`) and when two of them count as the same query (`isEqualQuery`).  A cursor is
the list of bytes from it to the end of the packet.  A loop over labels takes the number of
bytes left as fuel; every round consumes a byte, so the fuel is enough.  A read of a header
byte outside the buffer, possible before the packet is checked, reads 0 here.

    checkQuery q → isEqualQuery q q  (isEqualQuery_refl)
    isEqualQuery q₁ q₂ = isEqualQuery q₂ q₁  (isEqualQuery_comm)
    isEqualQuery q₁ q₂ → both have one RD bit and one question section
      (isEqualQuery_sound)
-/

namespace Resolv

open List

abbrev Bytes := List UInt8

/-! ## Algorithm -/

def dnsHeaderSize : Nat := 12

def dnsTypeA : Bytes := [0, 1]
def dnsTypePtr : Bytes := [0, 12]
def dnsTypeMx : Bytes := [0, 15]
def dnsTypeAaaa : Bytes := [0, 28]
/-- The first two bytes of `"\00\0377"`: an octal escape has at most three digits. -/
def dnsTypeAll : Bytes := [0, 31]
def dnsClassIn : Bytes := [0, 1]

def byte (q : Bytes) (i : Nat) : UInt8 := q.getD i 0

/-- `(p[i] << 8) | p[i+1]` -/
def be16 (q : Bytes) (i : Nat) : Nat := (byte q i).toNat * 256 + (byte q (i + 1)).toNat

/-- `_dnsPacket_readInt16`; -1 and no advance at the end of the packet. -/
def readInt16 : Bytes → Int × Bytes
  | a :: b :: p => (a.toNat * 256 + b.toNat, p)
  | p => (-1, p)

def checkBytes (p : Bytes) (numBytes : Nat) (bytes : Bytes) : Option Bytes :=
  if p.length < numBytes then none
  else if p.take numBytes ≠ bytes then none
  else some (p.drop numBytes)

/-- The label loop of `_dnsPacket_checkQName`; returns the cursor behind the name. -/
def checkQNameLoop : Nat → Bytes → Option Bytes
  | 0, _ => none
  | _ + 1, [] => none
  | fuel + 1, c :: p =>
    if c = 0 then some p
    else if c ≥ 64 then none
    else checkQNameLoop fuel (p.drop c.toNat)

def checkQName (p : Bytes) : Option Bytes := checkQNameLoop p.length p

/-- TYPE must be one of the supported ones. -/
def checkType (p : Bytes) : Option Bytes :=
  (checkBytes p 2 dnsTypeA).or <| (checkBytes p 2 dnsTypePtr).or <|
    (checkBytes p 2 dnsTypeMx).or <| (checkBytes p 2 dnsTypeAaaa).or <| checkBytes p 2 dnsTypeAll

def checkQR (p : Bytes) : Option Bytes :=
  (checkQName p).bind fun p => (checkType p).bind fun p => checkBytes p 2 dnsClassIn

def checkQRs : Nat → Bytes → Option Bytes
  | 0, p => some p
  | n + 1, p => (checkQR p).bind (checkQRs n)

def qdCount (q : Bytes) : Nat := be16 q 4

def checkQuery (q : Bytes) : Bool :=
  if q.length < dnsHeaderSize then false
  else if byte q 2 &&& 0xFC ≠ 0 ∨ byte q 3 ≠ 0 then false
  else if be16 q 6 ≠ 0 ∨ be16 q 8 ≠ 0 ∨ be16 q 10 ≠ 0 then false
  else if qdCount q = 0 then false
  else (checkQRs (qdCount q) (q.drop dnsHeaderSize)).isSome

/-! ### Hashing -/

def fnvMult : UInt32 := 16777619
def fnvBasis : UInt32 := 2166136261

def hashByte (hash : UInt32) (b : UInt8) : UInt32 := (hash * fnvMult) ^^^ b.toUInt32

/-- `_dnsPacket_hashBytes`: the loop never counts `numBytes` down, so it hashes to the end. -/
def hashBytes (p : Bytes) (numBytes : Nat) (hash : UInt32) : Bytes × UInt32 :=
  if numBytes > 0 then ([], p.foldl hashByte hash) else (p, hash)

def hashQNameLoop : Nat → Bytes → UInt32 → Bytes × UInt32
  | 0, p, hash => (p, hash)
  | _ + 1, [], hash => ([], hash)
  | fuel + 1, c :: p, hash =>
    if c = 0 then (p, hash)
    else if c ≥ 64 then (p, hash)
    else if c.toNat ≥ p.length then (p, hash)
    else hashQNameLoop fuel (p.drop c.toNat) ((p.take c.toNat).foldl hashByte hash)

def hashQName (p : Bytes) (hash : UInt32) : Bytes × UInt32 := hashQNameLoop p.length p hash

/-- The name, then TYPE and CLASS. -/
def hashQR (p : Bytes) (hash : UInt32) : Bytes × UInt32 :=
  let r := hashQName p hash
  hashBytes r.1 4 r.2

def hashQRs : Nat → Bytes → UInt32 → UInt32
  | 0, _, hash => hash
  | n + 1, p, hash => hashQRs n (hashQR p hash).1 (hashQR p hash).2

/-- `packet->base[2] & 1` -/
def rd (q : Bytes) : UInt8 := byte q 2 &&& 1

def hashQuery (q : Bytes) : UInt32 :=
  let count := readInt16 (q.drop 4)
  hashQRs count.1.toNat (count.2.drop 6) (hashByte fnvBasis (rd q))

/-! ### Comparison -/

/-- The label loop of `_dnsPacket_isEqualDomainName`; returns the two cursors behind the name. -/
def isEqualDomainNameLoop : Nat → Bytes → Bytes → Option (Bytes × Bytes)
  | 0, _, _ => none
  | _ + 1, [], _ => none
  | _ + 1, _ :: _, [] => none
  | fuel + 1, c1 :: p1, c2 :: p2 =>
    if c1 ≠ c2 then none
    else if c1 = 0 then some (p1, p2)
    else if c1 ≥ 64 then none
    else if c1.toNat > p1.length ∨ c1.toNat > p2.length then none
    else if p1.take c1.toNat ≠ p2.take c1.toNat then none
    else isEqualDomainNameLoop fuel (p1.drop c1.toNat) (p2.drop c1.toNat)

def isEqualDomainName (p1 p2 : Bytes) : Option (Bytes × Bytes) :=
  isEqualDomainNameLoop p1.length p1 p2

def isEqualBytes (p1 p2 : Bytes) (numBytes : Nat) : Option (Bytes × Bytes) :=
  if numBytes > p1.length ∨ numBytes > p2.length then none
  else if p1.take numBytes ≠ p2.take numBytes then none
  else some (p1.drop numBytes, p2.drop numBytes)

def isEqualQR (p1 p2 : Bytes) : Option (Bytes × Bytes) :=
  (isEqualDomainName p1 p2).bind fun p => isEqualBytes p.1 p.2 (2 + 2)

def isEqualQRs : Nat → Bytes → Bytes → Option (Bytes × Bytes)
  | 0, p1, p2 => some (p1, p2)
  | n + 1, p1, p2 => (isEqualQR p1 p2).bind fun p => isEqualQRs n p.1 p.2

def isEqualQuery (q1 q2 : Bytes) : Bool :=
  if rd q1 ≠ rd q2 then false
  else
    let count1 := readInt16 (q1.drop 4)
    let count2 := readInt16 (q2.drop 4)
    if count1.1 ≠ count2.1 ∨ count1.1 < 0 then false
    else (isEqualQRs count1.1.toNat (count1.2.drop 6) (count2.2.drop 6)).isSome

/-! ## Lemmas -/

variable {fuel n : Nat} {p r q p1 p2 r1 r2 : Bytes}

/-- A loop that more fuel does not change has its value from the least fuel on. -/
theorem eq_of_enough_fuel {α : Type} {f : Nat → α} {k : Nat}
    (h : ∀ n, k ≤ n → f (n + 1) = f n) (hn : k ≤ n) : f n = f k := by
  induction hn with
  | refl => rfl
  | step hn ih => rw [h _ hn, ih]

theorem checkQNameLoop_succ (h : p.length ≤ fuel) :
    checkQNameLoop (fuel + 1) p = checkQNameLoop fuel p := by
  induction fuel generalizing p with
  | zero =>
    have hp : p = [] := length_eq_zero_iff.1 (by omega)
    rw [hp]
    rfl
  | succ fuel ih =>
    cases p with
    | nil => rfl
    | cons c p =>
      have hlen : (p.drop c.toNat).length ≤ fuel := by
        rw [length_drop]
        simp only [length_cons] at h
        omega
      simp only [checkQNameLoop]
      rw [← ih hlen]

theorem checkQNameLoop_eq (h : p.length ≤ fuel) :
    checkQNameLoop fuel p = checkQName p :=
  eq_of_enough_fuel (f := fun n => checkQNameLoop n p) (fun _ => checkQNameLoop_succ) h

/-- The two loops over labels agree when a packet is compared with itself. -/
theorem isEqualDomainNameLoop_self (fuel : Nat) (p : Bytes) :
    isEqualDomainNameLoop fuel p p = (checkQNameLoop fuel p).map fun r => (r, r) := by
  induction fuel, p using checkQNameLoop.induct with
  | case1 | case2 => rfl
  | case3 fuel p => simp [isEqualDomainNameLoop, checkQNameLoop]
  | case4 fuel c p h0 h64 => simp [isEqualDomainNameLoop, checkQNameLoop, h0, h64]
  | case5 fuel c p h0 h64 ih =>
    simp only [isEqualDomainNameLoop, checkQNameLoop, ne_eq, not_true_eq_false, if_false, or_self,
      h0, h64]
    split
    · next hlong =>
      -- a label past the end: the check finds the packet at its end
      have hnil : p.drop c.toNat = [] := drop_eq_nil_of_le (by omega)
      rw [hnil]
      cases fuel <;> rfl
    · exact ih

theorem isEqualDomainName_self (p : Bytes) :
    isEqualDomainName p p = (checkQName p).map fun r => (r, r) :=
  isEqualDomainNameLoop_self p.length p

theorem checkBytes_eq {bytes : Bytes} (h : checkBytes p n bytes = some r) :
    n ≤ p.length ∧ r = p.drop n := by
  simp only [checkBytes, Option.ite_none_left_eq_some, Option.some.injEq] at h
  obtain ⟨hlen, -, rfl⟩ := h
  exact ⟨by omega, rfl⟩

theorem checkType_eq (h : checkType p = some r) : 2 ≤ p.length ∧ r = p.drop 2 := by
  simp only [checkType, Option.or_eq_some_iff] at h
  rcases h with h | ⟨-, h | ⟨-, h | ⟨-, h | ⟨-, h⟩⟩⟩⟩ <;> exact checkBytes_eq h

theorem checkQR_eq (h : checkQR p = some r) :
    ∃ p', checkQName p = some p' ∧ 4 ≤ p'.length ∧ r = p'.drop 4 := by
  simp only [checkQR, Option.bind_eq_some_iff] at h
  obtain ⟨p', hname, p'', htype, hclass⟩ := h
  obtain ⟨h2, rfl⟩ := checkType_eq htype
  obtain ⟨h4, rfl⟩ := checkBytes_eq hclass
  rw [length_drop] at h4
  exact ⟨p', hname, by omega, by rw [drop_drop]⟩

theorem isEqualQR_self (h : checkQR p = some r) : isEqualQR p p = some (r, r) := by
  obtain ⟨p', hname, h4, rfl⟩ := checkQR_eq h
  have hlt : ¬ p'.length < 2 + 2 := by omega
  simp [isEqualQR, isEqualDomainName_self, hname, isEqualBytes, hlt]

theorem isEqualQRs_self (h : checkQRs n p = some r) :
    isEqualQRs n p p = some (r, r) := by
  induction n generalizing p with
  | zero =>
    cases h
    rfl
  | succ n ih =>
    simp only [checkQRs, Option.bind_eq_some_iff] at h
    obtain ⟨p', hqr, h⟩ := h
    simp only [isEqualQRs, isEqualQR_self hqr, Option.bind_some]
    exact ih h

/-- What an accepted packet has: a whole header, and its questions. -/
theorem checkQuery_spec (h : checkQuery q = true) :
    12 ≤ q.length ∧ ∃ r, checkQRs (qdCount q) (q.drop 12) = some r := by
  revert h
  fun_cases checkQuery q with
  | case5 hlen =>
    intro h
    unfold dnsHeaderSize at hlen
    exact ⟨by omega, Option.isSome_iff_exists.1 h⟩
  | _ => rintro ⟨⟩

theorem readInt16_header (h : 12 ≤ q.length) :
    (readInt16 (q.drop 4)).1 = qdCount q ∧ (readInt16 (q.drop 4)).2.drop 6 = q.drop 12 := by
  obtain ⟨a, b, p, hp⟩ : ∃ a b p, q.drop 4 = a :: b :: p := by
    have hlen : (q.drop 4).length = q.length - 4 := length_drop
    cases hq : q.drop 4 with
    | nil =>
      rw [hq] at hlen
      simp only [length_nil] at hlen
      omega
    | cons a p =>
      cases p with
      | nil =>
        rw [hq] at hlen
        simp only [length_cons, length_nil] at hlen
        omega
      | cons b p => exact ⟨a, b, p, rfl⟩
  have ha : byte q 4 = a := by
    have := congrArg (fun l => l.getD 0 0) hp
    simpa [byte] using this
  have hb : byte q 5 = b := by
    have := congrArg (fun l => l.getD 1 0) hp
    simpa [byte] using this
  have hd : q.drop 12 = p.drop 6 := by
    rw [show 12 = 4 + 8 by rfl, ← drop_drop, hp]
    rfl
  rw [hp, hd]
  simp [readInt16, qdCount, be16, ha, hb]

theorem isEqualQuery_refl (h : checkQuery q = true) : isEqualQuery q q = true := by
  obtain ⟨hlen, r, hr⟩ := checkQuery_spec h
  obtain ⟨hc, hd⟩ := readInt16_header hlen
  have hneg : ¬ ((qdCount q : Nat) : Int) < 0 := by omega
  simp [isEqualQuery, hc, hd, isEqualQRs_self hr, hneg]

/-! ### Symmetry -/

theorem isEqualDomainNameLoop_swap (fuel : Nat) (p1 p2 : Bytes) :
    isEqualDomainNameLoop fuel p2 p1 = (isEqualDomainNameLoop fuel p1 p2).map Prod.swap := by
  induction fuel generalizing p1 p2 with
  | zero => rfl
  | succ fuel ih =>
    cases p1 with
    | nil => cases p2 <;> rfl
    | cons c1 p1 =>
      cases p2 with
      | nil => rfl
      | cons c2 p2 =>
        by_cases hc : c1 = c2
        · subst hc
          simp only [isEqualDomainNameLoop, ← ih, apply_ite (Option.map Prod.swap), or_comm,
            ne_comm]
          rfl
        · rw [isEqualDomainNameLoop, isEqualDomainNameLoop, if_pos hc, if_pos (Ne.symm hc)]
          rfl

theorem isEqualDomainNameLoop_succ (h : p1.length ≤ fuel ∨ p2.length ≤ fuel) :
    isEqualDomainNameLoop (fuel + 1) p1 p2 = isEqualDomainNameLoop fuel p1 p2 := by
  induction fuel generalizing p1 p2 with
  | zero =>
    cases p1 with
    | nil => rfl
    | cons c1 p1 =>
      cases p2 with
      | nil => rfl
      | cons c2 p2 =>
        simp only [length_cons] at h
        omega
  | succ fuel ih =>
    cases p1 with
    | nil => rfl
    | cons c1 p1 =>
      cases p2 with
      | nil => rfl
      | cons c2 p2 =>
        have hlen : (p1.drop c1.toNat).length ≤ fuel ∨ (p2.drop c1.toNat).length ≤ fuel := by
          rw [length_drop, length_drop]
          simp only [length_cons] at h
          omega
        simp only [isEqualDomainNameLoop]
        rw [← ih hlen]

theorem isEqualDomainNameLoop_eq (h : p1.length ≤ fuel) :
    isEqualDomainNameLoop fuel p1 p2 = isEqualDomainName p1 p2 :=
  eq_of_enough_fuel (f := fun n => isEqualDomainNameLoop n p1 p2)
    (fun _ h => isEqualDomainNameLoop_succ (.inl h)) h

theorem isEqualDomainName_swap (p1 p2 : Bytes) :
    isEqualDomainName p2 p1 = (isEqualDomainName p1 p2).map Prod.swap := by
  have h1 : p1.length ≤ max p1.length p2.length := Nat.le_max_left _ _
  have h2 : p2.length ≤ max p1.length p2.length := Nat.le_max_right _ _
  rw [← isEqualDomainNameLoop_eq h1, ← isEqualDomainNameLoop_eq h2, isEqualDomainNameLoop_swap]

theorem isEqualBytes_swap (p1 p2 : Bytes) (n : Nat) :
    isEqualBytes p2 p1 n = (isEqualBytes p1 p2 n).map Prod.swap := by
  unfold isEqualBytes
  by_cases hlong : n > p1.length ∨ n > p2.length
  · rw [if_pos hlong, if_pos hlong.symm]
    rfl
  · rw [if_neg hlong, if_neg (fun h => hlong h.symm)]
    by_cases ht : p1.take n = p2.take n
    · rw [if_neg (not_not.2 ht), if_neg (not_not.2 ht.symm)]
      rfl
    · rw [if_pos ht, if_pos (Ne.symm ht)]
      rfl

theorem isEqualQR_swap (p1 p2 : Bytes) :
    isEqualQR p2 p1 = (isEqualQR p1 p2).map Prod.swap := by
  unfold isEqualQR
  rw [isEqualDomainName_swap]
  cases isEqualDomainName p1 p2 with
  | none => rfl
  | some p => exact isEqualBytes_swap p.1 p.2 (2 + 2)

theorem isEqualQRs_swap (n : Nat) (p1 p2 : Bytes) :
    isEqualQRs n p2 p1 = (isEqualQRs n p1 p2).map Prod.swap := by
  induction n generalizing p1 p2 with
  | zero => rfl
  | succ n ih =>
    simp only [isEqualQRs]
    rw [isEqualQR_swap]
    cases isEqualQR p1 p2 with
    | none => rfl
    | some p => exact ih p.1 p.2

theorem isEqualQuery_comm (q1 q2 : Bytes) : isEqualQuery q1 q2 = isEqualQuery q2 q1 := by
  unfold isEqualQuery
  by_cases hrd : rd q1 = rd q2
  · rw [if_neg (not_not.2 hrd), if_neg (not_not.2 hrd.symm)]
    by_cases hc : (readInt16 (q1.drop 4)).1 = (readInt16 (q2.drop 4)).1
    · simp only [hc, ne_eq, not_true_eq_false, false_or]
      rw [isEqualQRs_swap]
      simp
    · simp [hc, Ne.symm hc]
  · rw [if_pos hrd, if_pos (Ne.symm hrd)]

/-! ### What equality means -/

/-- Equal names are one run of bytes, and the same bytes that the check skips. -/
theorem isEqualDomainNameLoop_sound (h : isEqualDomainNameLoop fuel p1 p2 = some (r1, r2)) :
    checkQNameLoop fuel p1 = some r1 ∧ ∃ pre, p1 = pre ++ r1 ∧ p2 = pre ++ r2 := by
  fun_induction isEqualDomainNameLoop fuel p1 p2 with
  | case5 fuel p1 c2 p2 hc =>
    obtain rfl := not_not.1 hc
    cases h
    exact ⟨rfl, [0], rfl, rfl⟩
  | case9 fuel c1 p1 c2 p2 hc h0 h64 hlong htake ih =>
    obtain rfl := not_not.1 hc
    have htake := not_not.1 htake
    obtain ⟨hcheck, pre, he1, he2⟩ := ih h
    rw [checkQNameLoop, if_neg h0, if_neg h64]
    refine ⟨hcheck, c1 :: p1.take c1.toNat ++ pre, ?_, ?_⟩
    · rw [append_assoc, ← he1, cons_append, take_append_drop]
    · rw [append_assoc, ← he2, htake, cons_append, take_append_drop]
  | _ => cases h

theorem isEqualBytes_sound (h : isEqualBytes p1 p2 n = some (r1, r2)) :
    r1 = p1.drop n ∧ ∃ pre, p1 = pre ++ r1 ∧ p2 = pre ++ r2 := by
  simp only [isEqualBytes, Option.ite_none_left_eq_some, Option.some.injEq, Prod.mk.injEq] at h
  obtain ⟨-, htake, rfl, rfl⟩ := h
  refine ⟨rfl, p1.take n, ?_, ?_⟩
  · rw [take_append_drop]
  · rw [not_not.1 htake, take_append_drop]

theorem isEqualQR_sound (h : isEqualQR p1 p2 = some (r1, r2)) (hcheck : checkQR p1 = some r) :
    r1 = r ∧ ∃ pre, p1 = pre ++ r1 ∧ p2 = pre ++ r2 := by
  simp only [isEqualQR, Option.bind_eq_some_iff] at h
  obtain ⟨⟨s1, s2⟩, hname, hbytes⟩ := h
  obtain ⟨hc, pre, he1, he2⟩ := isEqualDomainNameLoop_sound hname
  obtain ⟨hr, pre', he1', he2'⟩ := isEqualBytes_sound hbytes
  obtain ⟨p', hname', -, rfl⟩ := checkQR_eq hcheck
  have hs : s1 = p' := Option.some.inj (hc.symm.trans hname')
  refine ⟨by rw [hr, hs], pre ++ pre', ?_, ?_⟩
  · rw [append_assoc, ← he1', ← he1]
  · rw [append_assoc, ← he2', ← he2]

theorem isEqualQRs_sound (h : isEqualQRs n p1 p2 = some (r1, r2))
    (hcheck : checkQRs n p1 = some r) :
    r1 = r ∧ ∃ pre, p1 = pre ++ r1 ∧ p2 = pre ++ r2 := by
  induction n generalizing p1 p2 with
  | zero =>
    cases h
    cases hcheck
    exact ⟨rfl, [], rfl, rfl⟩
  | succ n ih =>
    simp only [isEqualQRs, Option.bind_eq_some_iff] at h
    simp only [checkQRs, Option.bind_eq_some_iff] at hcheck
    obtain ⟨⟨s1, s2⟩, hqr, h⟩ := h
    obtain ⟨s, hqr', hcheck⟩ := hcheck
    obtain ⟨rfl, pre, he1, he2⟩ := isEqualQR_sound hqr hqr'
    obtain ⟨hr, pre', he1', he2'⟩ := ih h hcheck
    refine ⟨hr, pre ++ pre', ?_, ?_⟩
    · rw [append_assoc, ← he1', ← he1]
    · rw [append_assoc, ← he2', ← he2]

def questionSection (q : Bytes) : Option Bytes :=
  (checkQRs (qdCount q) (q.drop dnsHeaderSize)).map fun r =>
    (q.drop dnsHeaderSize).take ((q.drop dnsHeaderSize).length - r.length)

/-- Two accepted queries that compare equal agree on the RD bit, the number of questions and
the bytes of the question section. -/
theorem isEqualQuery_sound {q1 q2 : Bytes} (h : isEqualQuery q1 q2 = true)
    (h1 : checkQuery q1 = true) (h2 : checkQuery q2 = true) :
    rd q1 = rd q2 ∧ qdCount q1 = qdCount q2 ∧
      ∃ sec, questionSection q1 = some sec ∧ questionSection q2 = some sec := by
  obtain ⟨hlen1, r1, hr1⟩ := checkQuery_spec h1
  obtain ⟨hlen2, r2, hr2⟩ := checkQuery_spec h2
  obtain ⟨hc1, hd1⟩ := readInt16_header hlen1
  obtain ⟨hc2, hd2⟩ := readInt16_header hlen2
  unfold isEqualQuery at h
  split at h
  · cases h
  · next hrd =>
    simp only [hc1, hc2, hd1, hd2] at h
    split at h
    · cases h
    · next hcount =>
      have hcount : qdCount q1 = qdCount q2 := by
        by_contra hne
        exact hcount (.inl (by exact_mod_cast hne))
      obtain ⟨⟨s1, s2⟩, hs⟩ := Option.isSome_iff_exists.1 h
      rw [Int.toNat_natCast] at hs
      obtain ⟨rfl, pre, he1, he2⟩ := isEqualQRs_sound hs hr1
      -- the other packet's check ends at the other cursor
      have hswap : isEqualQRs (qdCount q2) (q2.drop 12) (q1.drop 12) = some (s2, s1) := by
        rw [isEqualQRs_swap, ← hcount, hs]
        rfl
      obtain ⟨rfl, -⟩ := isEqualQRs_sound hswap hr2
      refine ⟨not_not.1 hrd, hcount, pre, ?_, ?_⟩
      · unfold questionSection
        rw [show dnsHeaderSize = 12 from rfl, hr1, he1]
        simp
      · unfold questionSection
        rw [show dnsHeaderSize = 12 from rfl, hr2, he2]
        simp

end Resolv
