import GitTest.Lib.Traced
import GitTest.Resolv.Cache

/-!
# Which bytes of a query are read (res_cache.c)

`entry_init_key` hashes the query before it checks it, although the hashing code is meant for
checked packets.  Here the cursors are offsets into the buffer and every read is recorded.
The functions compute what those of `GitTest.Resolv.Packet` compute, and read inside the
buffer, but for one read: the RD bit is in byte 2, and no length is compared before it.

    (∀ i ∈ (entryInitKeyAt q).reads, i < q.length) ↔ 3 ≤ q.length  (entryInitKey_reads_iff)
-/

namespace Resolv

open List Traced

/-! ## Algorithm -/

section
variable (q : Bytes)

/-- `*p` -/
def readAt (p : Nat) : Traced UInt8 := read 0 q p

/-- `(p[0] << 8) | p[1]` -/
def read16At (p : Nat) : Traced Nat := do
  let a ← readAt q p
  let b ← readAt q (p + 1)
  pure (a.toNat * 256 + b.toNat)

def skipAt (cursor count : Nat) : Nat :=
  if cursor + count > q.length then q.length else cursor + count

def readInt16At (cursor : Nat) : Traced (Int × Nat) :=
  if cursor + 2 > q.length then pure (-1, cursor)
  else do
    let v ← read16At q cursor
    pure (v, cursor + 2)

/-- `_dnsPacket_checkBytes`; `memcmp` may read all the bytes. -/
def checkBytesAt (cursor numBytes : Nat) (bytes : Bytes) : Traced (Option Nat) :=
  if cursor + numBytes > q.length then pure none
  else do
    let p ← readRange 0 q cursor numBytes
    if p ≠ bytes then pure none else pure (some (cursor + numBytes))

/-- The label loop of `_dnsPacket_checkQName`. -/
def checkQNameAt (p : Nat) : Traced (Option Nat) :=
  if _h : p ≥ q.length then pure none
  else do
    let c ← readAt q p
    if c = 0 then pure (some (p + 1))
    else if c ≥ 64 then pure none
    else checkQNameAt (p + 1 + c.toNat)
termination_by q.length - p

/-- The first of the types that is there. -/
def checkTypeAt (cursor : Nat) : List Bytes → Traced (Option Nat)
  | [] => pure none
  | type :: types => do
    let r ← checkBytesAt q cursor 2 type
    match r with
    | some p => pure (some p)
    | none => checkTypeAt cursor types

def checkQRAt (cursor : Nat) : Traced (Option Nat) := do
  let r ← checkQNameAt q cursor
  match r with
  | none => pure none
  | some p =>
    let r ← checkTypeAt q p [dnsTypeA, dnsTypePtr, dnsTypeMx, dnsTypeAaaa, dnsTypeAll]
    match r with
    | none => pure none
    | some p => checkBytesAt q p 2 dnsClassIn

def checkQRsAt : Nat → Nat → Traced (Option Nat)
  | 0, cursor => pure (some cursor)
  | n + 1, cursor => do
    let r ← checkQRAt q cursor
    match r with
    | none => pure none
    | some p => checkQRsAt n p

def checkQueryAt : Traced Bool :=
  if dnsHeaderSize > q.length then pure false
  else do
    let flags ← readAt q 2
    if flags &&& 0xFC ≠ 0 then pure false
    else
      let flags' ← readAt q 3
      if flags' ≠ 0 then pure false
      else
        let qdCount ← read16At q 4
        let anCount ← read16At q 6
        let dnCount ← read16At q 8
        let arCount ← read16At q 10
        if anCount ≠ 0 ∨ dnCount ≠ 0 ∨ arCount ≠ 0 then pure false
        else if qdCount = 0 then pure false
        else
          let r ← checkQRsAt q qdCount dnsHeaderSize
          pure r.isSome

def hashRangeAt (p n : Nat) (hash : UInt32) : Traced UInt32 := do
  let bytes ← readRange 0 q p n
  pure (bytes.foldl hashByte hash)

/-- `_dnsPacket_hashBytes`: to the end of the packet if any bytes are asked for. -/
def hashBytesAt (cursor numBytes : Nat) (hash : UInt32) : Traced (Nat × UInt32) :=
  if numBytes > 0 then do
    let hash ← hashRangeAt q cursor (q.length - cursor) hash
    pure (max cursor q.length, hash)
  else pure (cursor, hash)

/-- The label loop of `_dnsPacket_hashQName`. -/
def hashQNameAt (p : Nat) (hash : UInt32) : Traced (Nat × UInt32) :=
  if _h : p ≥ q.length then pure (p, hash)
  else do
    let c ← readAt q p
    if c = 0 then pure (p + 1, hash)
    else if c ≥ 64 then pure (p + 1, hash)
    else if p + 1 + c.toNat ≥ q.length then pure (p + 1, hash)
    else
      let hash ← hashRangeAt q (p + 1) c.toNat hash
      hashQNameAt (p + 1 + c.toNat) hash
termination_by q.length - p

def hashQRAt (cursor : Nat) (hash : UInt32) : Traced (Nat × UInt32) := do
  let r ← hashQNameAt q cursor hash
  hashBytesAt q r.1 4 r.2

def hashQRsAt : Nat → Nat → UInt32 → Traced UInt32
  | 0, _, hash => pure hash
  | n + 1, cursor, hash => do
    let r ← hashQRAt q cursor hash
    hashQRsAt n r.1 r.2

/-- `_dnsPacket_hashQuery` behind the read of the RD bit. -/
def hashQuestionsAt (rd : UInt8) : Traced UInt32 := do
  let count ← readInt16At q (skipAt q 0 4)
  hashQRsAt q count.1.toNat (skipAt q count.2 6) (hashByte fnvBasis rd)

def hashQueryAt : Traced UInt32 := do
  let flags ← readAt q 2
  hashQuestionsAt q (flags &&& 1)

/-- `entry_init_key`: the hash first, then the check. -/
def entryInitKeyAt : Traced (Option Entry) := do
  let hash ← hashQueryAt q
  let ok ← checkQueryAt q
  pure (if ok then some ⟨hash, q, [], 0⟩ else none)

end

/-! ## The checks read inside the packet -/

section
variable {q : Bytes} {p : Nat}

theorem gives_readAt (h : p < q.length) : Gives q.length (readAt q p) (byte q p) := gives_read h

theorem gives_read16At (h : p + 1 < q.length) : Gives q.length (read16At q p) (be16 q p) :=
  (gives_readAt (by omega)).bind ((gives_readAt h).bind (gives_pure _))

theorem drop_eq_byte_cons (h : p < q.length) : q.drop p = byte q p :: q.drop (p + 1) :=
  drop_eq_getD_cons h

/-- `x` reads inside the packet, and the offset it gives is the cursor `c` of the list model. -/
def Checks (q : Bytes) (x : Traced (Option Nat)) (c : Option Bytes) : Prop :=
  ∃ v, Gives q.length x v ∧ c = v.map fun p => q.drop p

theorem checks_none : Checks q (pure none) none := ⟨none, gives_pure _, rfl⟩

theorem checks_some (p : Nat) : Checks q (pure (some p)) (some (q.drop p)) :=
  ⟨some p, gives_pure _, rfl⟩

/-- A check that fails ends the whole, one that succeeds hands its cursor on. -/
theorem Checks.bind {x : Traced (Option Nat)} {c : Option Bytes} (hx : Checks q x c)
    {f : Option Nat → Traced (Option Nat)} (hnone : Checks q (f none) none)
    {g : Bytes → Option Bytes} (hf : ∀ p, Checks q (f (some p)) (g (q.drop p))) :
    Checks q (x >>= f) (c.bind g) := by
  obtain ⟨v, hv, rfl⟩ := hx
  cases v with
  | none => exact hv.after hnone
  | some p => exact hv.after (hf p)

theorem checkBytesAt_checks {n : Nat} (hn : 0 < n) (bytes : Bytes) :
    Checks q (checkBytesAt q p n bytes) (checkBytes (q.drop p) n bytes) := by
  unfold checkBytesAt checkBytes
  rw [length_drop]
  by_cases hlen : p + n > q.length
  · rw [if_pos hlen, if_pos (by omega)]
    exact checks_none
  · rw [if_neg hlen, if_neg (by omega)]
    refine Gives.after (gives_readRange (by omega)) ?_
    split
    · exact checks_none
    · rw [drop_drop]
      exact checks_some (p + n)

/-- Fuel for the bytes that are left is enough. -/
theorem checkQNameAt_checks {fuel : Nat} (h : q.length - p ≤ fuel) :
    Checks q (checkQNameAt q p) (checkQNameLoop fuel (q.drop p)) := by
  induction fuel generalizing p with
  | zero =>
    rw [checkQNameAt, dif_pos (by omega)]
    exact checks_none
  | succ fuel ih =>
    rw [checkQNameAt]
    by_cases hp : p ≥ q.length
    · rw [dif_pos hp, drop_eq_nil_of_le hp]
      exact checks_none
    · have hlt : p < q.length := by omega
      rw [dif_neg hp, drop_eq_byte_cons hlt]
      refine Gives.after (gives_readAt hlt) ?_
      simp only [checkQNameLoop]
      split
      · exact checks_some (p + 1)
      · split
        · exact checks_none
        · rw [drop_drop]
          exact ih (by omega)

/-- The types are tried in turn, each from the same cursor. -/
theorem checkTypeAt_checks (types : List Bytes) :
    Checks q (checkTypeAt q p types)
      (types.foldr (fun type r => (checkBytes (q.drop p) 2 type).or r) none) := by
  induction types with
  | nil => exact checks_none
  | cons type types ih =>
    obtain ⟨v, hv, he⟩ := checkBytesAt_checks (n := 2) (by decide) type
    rw [foldr_cons, he]
    refine hv.after ?_
    cases v with
    | none => exact ih
    | some p' => exact checks_some p'

theorem checkQRAt_checks : Checks q (checkQRAt q p) (checkQR (q.drop p)) := by
  have hname : q.length - p ≤ (q.drop p).length := Nat.le_of_eq length_drop.symm
  refine Checks.bind (checkQNameAt_checks hname) ?_ ?_
  · exact checks_none
  intro p'
  have htype := checkTypeAt_checks (q := q) (p := p')
    [dnsTypeA, dnsTypePtr, dnsTypeMx, dnsTypeAaaa, dnsTypeAll]
  simp only [foldr_cons, foldr_nil, Option.or_none] at htype
  refine Checks.bind htype ?_ ?_
  · exact checks_none
  intro p''
  exact checkBytesAt_checks (by decide) dnsClassIn

theorem checkQRsAt_checks (n : Nat) : Checks q (checkQRsAt q n p) (checkQRs n (q.drop p)) := by
  induction n generalizing p with
  | zero => exact checks_some p
  | succ n ih =>
    refine Checks.bind checkQRAt_checks ?_ ?_
    · exact checks_none
    · intro p'
      exact ih

/-- The length is compared before anything is read. -/
theorem checkQueryAt_gives : Gives q.length (checkQueryAt q) (checkQuery q) := by
  unfold checkQueryAt checkQuery
  by_cases hlen : q.length < dnsHeaderSize
  · rw [if_pos hlen, if_pos hlen]
    exact gives_pure false
  · have h12 : 12 ≤ q.length := by
      unfold dnsHeaderSize at hlen
      omega
    rw [if_neg hlen, if_neg hlen]
    refine (gives_readAt (by omega)).bind ?_
    by_cases h2 : byte q 2 &&& 0xFC ≠ 0
    · rw [if_pos h2, if_pos (.inl h2)]
      exact gives_pure false
    rw [if_neg h2]
    refine (gives_readAt (by omega)).bind ?_
    by_cases h3 : byte q 3 ≠ 0
    · rw [if_pos h3, if_pos (.inr h3)]
      exact gives_pure false
    rw [if_neg h3, if_neg (by rintro (h | h); exacts [h2 h, h3 h])]
    refine (gives_read16At (by omega)).bind ((gives_read16At (by omega)).bind
      ((gives_read16At (by omega)).bind ((gives_read16At (by omega)).bind ?_)))
    split
    · exact gives_pure false
    · unfold qdCount
      split
      · exact gives_pure false
      · obtain ⟨v, hv, he⟩ := checkQRsAt_checks (be16 q 4)
        rw [he, Option.isSome_map]
        exact hv.bind (gives_pure _)

end

/-! ## The hash reads inside the packet, behind its first read -/

section
variable {q : Bytes} {p : Nat}

/-- `x` reads inside the packet, and gives the hash and the cursor of the list model. -/
def Hashes (q : Bytes) (x : Traced (Nat × UInt32)) (c : Bytes × UInt32) : Prop :=
  ∃ v, Gives q.length x v ∧ c = (q.drop v.1, v.2)

theorem hashes_pure (p : Nat) (hash : UInt32) : Hashes q (pure (p, hash)) (q.drop p, hash) :=
  ⟨(p, hash), gives_pure _, rfl⟩

theorem hashRangeAt_gives {n : Nat} (h : n ≤ q.length - p) (hash : UInt32) :
    Gives q.length (hashRangeAt q p n hash) (((q.drop p).take n).foldl hashByte hash) :=
  (gives_readRange h).bind (gives_pure _)

theorem hashBytesAt_hashes (n : Nat) (hash : UInt32) :
    Hashes q (hashBytesAt q p n hash) (hashBytes (q.drop p) n hash) := by
  unfold hashBytesAt hashBytes
  split
  · have hall : (q.drop p).take (q.length - p) = q.drop p := by
      rw [← length_drop, take_length]
    have hread := hashRangeAt_gives (q := q) (p := p) (Nat.le_refl _) hash
    rw [hall] at hread
    have hend := hashes_pure (q := q) (max p q.length) ((q.drop p).foldl hashByte hash)
    rw [drop_eq_nil_of_le (Nat.le_max_right p q.length)] at hend
    exact hread.after hend
  · exact hashes_pure p hash

theorem hashQNameAt_hashes {fuel : Nat} (h : q.length - p ≤ fuel) (hash : UInt32) :
    Hashes q (hashQNameAt q p hash) (hashQNameLoop fuel (q.drop p) hash) := by
  induction fuel generalizing p hash with
  | zero =>
    rw [hashQNameAt, dif_pos (by omega)]
    exact hashes_pure p hash
  | succ fuel ih =>
    rw [hashQNameAt]
    by_cases hp : p ≥ q.length
    · rw [dif_pos hp]
      have hend := hashes_pure (q := q) p hash
      rw [drop_eq_nil_of_le hp] at hend ⊢
      exact hend
    · have hlt : p < q.length := by omega
      rw [dif_neg hp, drop_eq_byte_cons hlt]
      refine Gives.after (gives_readAt hlt) ?_
      simp only [hashQNameLoop, length_drop]
      split
      · exact hashes_pure (p + 1) hash
      · split
        · exact hashes_pure (p + 1) hash
        · by_cases hlong : p + 1 + (byte q p).toNat ≥ q.length
          · rw [if_pos hlong, if_pos (by omega)]
            exact hashes_pure (p + 1) hash
          · rw [if_neg hlong, if_neg (by omega), drop_drop]
            exact Gives.after (hashRangeAt_gives (by omega) hash) (ih (by omega) _)

theorem hashQRAt_hashes (hash : UInt32) :
    Hashes q (hashQRAt q p hash) (hashQR (q.drop p) hash) := by
  have hname : q.length - p ≤ (q.drop p).length := Nat.le_of_eq length_drop.symm
  obtain ⟨v, hv, he⟩ := hashQNameAt_hashes hname hash
  unfold hashQR hashQName
  rw [he]
  exact hv.after (hashBytesAt_hashes 4 v.2)

theorem hashQRsAt_gives (n : Nat) (hash : UInt32) :
    Gives q.length (hashQRsAt q n p hash) (hashQRs n (q.drop p) hash) := by
  induction n generalizing p hash with
  | zero => exact gives_pure hash
  | succ n ih =>
    obtain ⟨v, hv, he⟩ := hashQRAt_hashes (q := q) (p := p) hash
    simp only [hashQRs, he]
    exact hv.bind (ih v.2)

theorem drop_skipAt (cursor count : Nat) :
    q.drop (skipAt q cursor count) = (q.drop cursor).drop count := by
  unfold skipAt
  rw [drop_drop]
  split
  · rw [drop_length, drop_eq_nil_of_le (by omega)]
  · rfl

theorem readInt16At_gives (hp : p ≤ q.length) :
    ∃ v, Gives q.length (readInt16At q p) v ∧ readInt16 (q.drop p) = (v.1, q.drop v.2) := by
  unfold readInt16At
  split
  · next hshort =>
    refine ⟨(-1, p), gives_pure _, ?_⟩
    -- fewer than two bytes are left
    by_cases hend : p = q.length
    · rw [hend, drop_length]
      rfl
    · rw [drop_eq_byte_cons (by omega), drop_eq_nil_of_le (by omega : q.length ≤ p + 1)]
      rfl
  · next hlong =>
    refine ⟨(be16 q p, p + 2), (gives_read16At (by omega)).bind (gives_pure _), ?_⟩
    rw [drop_eq_byte_cons (by omega), drop_eq_byte_cons (by omega)]
    simp [readInt16, be16]

theorem hashQuestionsAt_gives : Gives q.length (hashQuestionsAt q (rd q)) (hashQuery q) := by
  have hskip : skipAt q 0 4 ≤ q.length := by
    unfold skipAt
    split <;> omega
  obtain ⟨v, hv, he⟩ := readInt16At_gives hskip
  rw [drop_skipAt, drop_zero] at he
  unfold hashQuery
  simp only [he]
  rw [← drop_skipAt]
  exact hv.bind (hashQRsAt_gives _ _)

end

/-! ## The key -/

section
variable (q : Bytes)

/-- The key is the one of the list model; nothing is read behind the packet and its byte 2. -/
theorem entryInitKeyAt_gives : Gives (max 3 q.length) (entryInitKeyAt q) (entryInitKey q) := by
  have hle : q.length ≤ max 3 q.length := Nat.le_max_right _ _
  have hflags : Gives (max 3 q.length) (readAt q 2) (byte q 2) := by
    refine ⟨rfl, ?_⟩
    intro i hi
    rw [mem_singleton.1 hi]
    omega
  have hhash : Gives (max 3 q.length) (hashQueryAt q) (hashQuery q) :=
    hflags.bind (hashQuestionsAt_gives.mono hle)
  exact hhash.bind ((checkQueryAt_gives.mono hle).bind (gives_pure _))

/-- No length is compared before the RD bit is read. -/
theorem mem_reads_two : 2 ∈ (entryInitKeyAt q).reads :=
  mem_reads_bind (mem_reads_bind (mem_singleton.2 rfl))

/-- Building a key stays inside the query exactly when the query has its RD bit. -/
theorem entryInitKey_reads_iff :
    (∀ i ∈ (entryInitKeyAt q).reads, i < q.length) ↔ 3 ≤ q.length := by
  constructor
  · intro h
    exact h 2 (mem_reads_two q)
  · intro h
    have hreads := (entryInitKeyAt_gives q).2
    rw [Nat.max_eq_right h] at hreads
    exact hreads

/-- An empty query: byte 2 is read. -/
theorem empty_query_read : ¬ ∀ i ∈ (entryInitKeyAt []).reads, i < ([] : Bytes).length :=
  fun h => absurd (h 2 (mem_reads_two [])) (by decide)

end

end Resolv
