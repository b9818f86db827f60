import GitTest.Resolv.Packet

/-!
# The TTL of a DNS answer (res_cache.c, ns_parse.c, ns_name.c, res_comp.c)

`answerGetTTL` and the parser below it.  A pointer into the message is an offset, `eom` is
the length of the message, and a parser that returns -1 is `none`.  `nsParserr` changes its
handle also when it fails, so it returns the handle next to the record.  `char` is
unsigned.

The loops over names take fuel; `nsNameSkipLoop_eq` and `unpackLoop_eq` say that the fuel
they are given is enough.
-/

namespace Resolv

/-! ## Names (ns_name.c, res_comp.c) -/

def nsCmprsflgs : UInt8 := 0xc0
def nsTypeElt : UInt8 := 0x40
def dnsLabeltypeBitstring : UInt8 := 0x41
def nsMaxdname : Nat := 1025
def nsMaxcdname : Nat := 255

/-- `labellen`: the length of the label whose length byte is the first of `lp`. -/
def labellen (lp : Bytes) : Option Nat :=
  let l := byte lp 0
  if l &&& nsCmprsflgs = nsCmprsflgs then none
  else if l &&& nsCmprsflgs = nsTypeElt then
    if l = dnsLabeltypeBitstring then
      let bitlen := if byte lp 1 = 0 then 256 else (byte lp 1).toNat
      some ((bitlen + 7) / 8 + 1)
    else none
  else some l.toNat

/-- The loop of `ns_name_skip`; returns `cp` at its end. -/
def nsNameSkipLoop (msg : Bytes) : Nat → Nat → Option Nat
  | 0, cp => some cp
  | fuel + 1, cp =>
    if cp < msg.length then
      let n := byte msg cp
      if n = 0 then some (cp + 1)
      else if n &&& nsCmprsflgs = 0 then nsNameSkipLoop msg fuel (cp + 1 + n.toNat)
      else if n &&& nsCmprsflgs = nsTypeElt then
        match labellen (msg.drop cp) with
        | none => none
        | some l => nsNameSkipLoop msg fuel (cp + 1 + l)
      else if n &&& nsCmprsflgs = nsCmprsflgs then some (cp + 2)
      else none
    else some cp

def nsNameSkip (msg : Bytes) (ptr : Nat) : Option Nat :=
  match nsNameSkipLoop msg (msg.length - ptr) ptr with
  | none => none
  | some cp => if cp > msg.length then none else some cp

def dnSkipname (msg : Bytes) (ptr : Nat) : Option Nat := (nsNameSkip msg ptr).map fun cp => cp - ptr

/-- The loop of `ns_name_unpack`: `dst` is what was written, `len` the size of the name in the
message once a compression pointer was followed. -/
def unpackLoop (msg : Bytes) (dstsiz src : Nat) :
    Nat → Nat → Bytes → Option Nat → Nat → Option (Nat × Bytes)
  | 0, _, _, _, _ => none
  | fuel + 1, srcp, dst, len, checked =>
    let n := byte msg srcp
    if n = 0 then some (len.getD (srcp + 1 - src), dst ++ [0])
    else if n &&& nsCmprsflgs = 0 ∨ n &&& nsCmprsflgs = nsTypeElt then
      match labellen (msg.drop srcp) with
      | none => none
      | some l =>
        if dst.length + l + 1 ≥ dstsiz ∨ srcp + 1 + l ≥ msg.length then none
        else unpackLoop msg dstsiz src fuel (srcp + 1 + l)
          (dst ++ n :: (msg.drop (srcp + 1)).take l) len (checked + (l + 1))
    else if n &&& nsCmprsflgs = nsCmprsflgs then
      if srcp + 1 ≥ msg.length then none
      else
        let srcp' := (n &&& 0x3f).toNat * 256 + (byte msg (srcp + 1)).toNat
        if srcp' ≥ msg.length then none
        else if checked + 2 ≥ msg.length then none
        else unpackLoop msg dstsiz src fuel srcp' dst (some (len.getD (srcp + 1 - src + 1)))
          (checked + 2)
    else none

def nsNameUnpack (msg : Bytes) (src dstsiz : Nat) : Option (Nat × Bytes) :=
  if src ≥ msg.length then none
  else unpackLoop msg dstsiz src (dstsiz + msg.length + 1) src [] none 0

/-- Characters that `ns_name_ntop` escapes. -/
def special (ch : UInt8) : Bool :=
  ch = 0x22 ∨ ch = 0x2E ∨ ch = 0x3B ∨ ch = 0x5C ∨ ch = 0x28 ∨ ch = 0x29 ∨ ch = 0x40 ∨ ch = 0x24

def printable (ch : UInt8) : Bool := ch > 0x20 ∧ ch < 0x7f

/-- A digit of `%x` or `%d`. -/
def hexDigit (n : Nat) : UInt8 := if n < 10 then UInt8.ofNat (48 + n) else UInt8.ofNat (87 + n)

/-- `%02x` of a byte. -/
def hex2 (n : Nat) : Bytes := [hexDigit (n / 16), hexDigit (n % 16)]

/-- `%d` of a number up to 256. -/
def decimal (n : Nat) : Bytes :=
  if n > 99 then [hexDigit (n / 100), hexDigit (n / 10 % 10), hexDigit (n % 10)]
  else if n > 9 then [hexDigit (n / 10), hexDigit (n % 10)]
  else [hexDigit n]

/-- The text of the last, partial byte of a bit string with `b < 8` bits left. -/
def lastBits (tc : UInt8) (b : Nat) : Bytes :=
  if b > 4 then hex2 (tc.toNat &&& (0xff <<< (8 - b)))
  else if b > 0 then [hexDigit (tc.toNat >>> 4 &&& 0x0f &&& (0x0f <<< (4 - b)))]
  else []

/-- `decode_bitstring`: the text and the bytes after the label, if `dn` characters leave room. -/
def decodeBitstring (cp : Bytes) (dn eom : Nat) : Option (Bytes × Bytes) :=
  let blen := if byte cp 0 = 0 then 256 else (byte cp 0).toNat
  let plen := (blen + 3) / 4 + 6 + (if blen > 99 then 3 else if blen > 9 then 2 else 1)
  if dn + plen ≥ eom then none
  else
    let bits := cp.drop 1
    let whole := (bits.take (blen / 8)).flatMap fun c => hex2 c.toNat
    let text := [0x5C, 0x5B, 0x78] ++ whole ++ lastBits (byte bits (blen / 8)) (blen % 8) ++
      [0x2F] ++ decimal blen ++ [0x5D]
    some (text, bits.drop ((blen + 7) / 8))

/-- The text of one character of a label, if `dn` characters leave room for it. -/
def escape (c : UInt8) (dn eom : Nat) : Option Bytes :=
  if special c then if dn + 1 ≥ eom then none else some [0x5C, c]
  else if !printable c then
    if dn + 3 ≥ eom then none
    else some [0x5C, hexDigit (c.toNat / 100), hexDigit (c.toNat % 100 / 10), hexDigit (c.toNat % 10)]
  else if dn ≥ eom then none
  else some [c]

def escapeAll (eom : Nat) : Bytes → Bytes → Option Bytes
  | [], dst => some dst
  | c :: cs, dst => (escape c dst.length eom).bind fun t => escapeAll eom cs (dst ++ t)

/-- The loop of `ns_name_ntop` over the labels of an unpacked name. -/
def ntopLoop (eom : Nat) : Nat → Bytes → Bytes → Option Bytes
  | 0, _, _ => none
  | _ + 1, [], _ => none
  | fuel + 1, n :: cp, dst =>
    if n = 0 then some dst
    else if n &&& nsCmprsflgs = nsCmprsflgs then none
    else if dst ≠ [] ∧ dst.length ≥ eom then none
    else
      let dst := if dst = [] then dst else dst ++ [0x2E]
      match labellen (n :: cp) with
      | none => none
      | some l =>
        if dst.length + l ≥ eom then none
        else if n &&& nsCmprsflgs = nsTypeElt then
          if n ≠ dnsLabeltypeBitstring then none
          else (decodeBitstring cp dst.length eom).bind fun t => ntopLoop eom fuel t.2 (dst ++ t.1)
        else (escapeAll eom (cp.take l) dst).bind fun dst => ntopLoop eom fuel (cp.drop l) dst

/-- `ns_name_ntop`: the text without its final zero. -/
def nsNameNtop (src : Bytes) (dstsiz : Nat) : Option Bytes :=
  (ntopLoop dstsiz src.length src []).bind fun dst =>
    let dst := if dst = [] then [0x2E] else dst
    if dst.length ≥ dstsiz then none else some dst

def nsNameUncompress (msg : Bytes) (src dstsiz : Nat) : Option (Nat × Bytes) :=
  (nsNameUnpack msg src nsMaxcdname).bind fun u =>
    (nsNameNtop u.2 dstsiz).map fun dst => (u.1, dst)

/-- `dn_expand`: the root name becomes the empty string. -/
def dnExpand (msg : Bytes) (src dstsiz : Nat) : Option (Nat × Bytes) :=
  (nsNameUncompress msg src dstsiz).map fun r =>
    (r.1, if r.1 > 0 ∧ byte r.2 0 = 0x2E then [] else r.2)

/-! ## Messages (ns_parse.c) -/

/-- The sections by number, as `ns_sect`. -/
def nsSQd : Nat := 0
def nsSAn : Nat := 1
def nsSMax : Nat := 4

structure NsMsg where
  msg : Bytes
  counts : Nat → Nat
  sections : Nat → Option Nat
  sect : Nat
  rrnum : Int
  msgPtr : Option Nat

structure NsRr where
  name : Bytes
  type : Nat
  rrClass : Nat
  ttl : UInt32
  rdlength : Nat
  rdata : Option Nat

def nsGet32 (msg : Bytes) (i : Nat) : UInt32 :=
  UInt32.ofNat (be16 msg i * 65536 + be16 msg (i + 2))

/-- The loop of `ns_skiprr`; returns `ptr` at its end. -/
def skiprrLoop (msg : Bytes) (sect : Nat) : Nat → Nat → Option Nat
  | 0, ptr => some ptr
  | count + 1, ptr =>
    match dnSkipname msg ptr with
    | none => none
    | some b =>
      let ptr := ptr + b + 2 + 2
      if sect ≠ nsSQd then
        if ptr + 4 + 2 > msg.length then none
        else skiprrLoop msg sect count (ptr + 4 + 2 + be16 msg (ptr + 4))
      else skiprrLoop msg sect count ptr

/-- `ns_skiprr`: the size of `count` records. -/
def nsSkiprr (msg : Bytes) (ptr sect count : Nat) : Option Nat :=
  match skiprrLoop msg sect count ptr with
  | none => none
  | some p => if p > msg.length then none else some (p - ptr)

def setsection (h : NsMsg) (sect : Nat) : NsMsg :=
  if sect = nsSMax then { h with sect := sect, rrnum := -1, msgPtr := none }
  else { h with sect := sect, rrnum := 0, msgPtr := h.sections sect }

/-- The second loop of `ns_initparse`: where each section starts, from section `i` on. -/
def initSections (msg : Bytes) (counts : Nat → Nat) :
    List Nat → Nat → (Nat → Option Nat) → Option (Nat × (Nat → Option Nat))
  | [], ptr, sections => some (ptr, sections)
  | i :: rest, ptr, sections =>
    if counts i = 0 then initSections msg counts rest ptr (Function.update sections i none)
    else
      match nsSkiprr msg ptr i (counts i) with
      | none => none
      | some b => initSections msg counts rest (ptr + b) (Function.update sections i (some ptr))

/-- `ns_initparse`; the message has to be consumed exactly. -/
def nsInitparse (msg : Bytes) : Option NsMsg :=
  if msg.length < 12 then none
  else
    let counts := fun i => be16 msg (4 + 2 * i)
    match initSections msg counts [0, 1, 2, 3] 12 (fun _ => none) with
    | none => none
    | some (ptr, sections) =>
      if ptr ≠ msg.length then none
      else some (setsection ⟨msg, counts, sections, nsSMax, -1, none⟩ nsSMax)

/-- The fields of a record behind its name at `p`; the end of the record next to it. -/
def parseFields (h : NsMsg) (sect : Nat) (name : Bytes) (p : Nat) : Nat × Option NsRr :=
  if p + 2 + 2 > h.msg.length then (p, none)
  else
    let type := be16 h.msg p
    let rrClass := be16 h.msg (p + 2)
    if sect = nsSQd then (p + 4, some ⟨name, type, rrClass, 0, 0, none⟩)
    else if p + 4 + 4 + 2 > h.msg.length then (p + 4, none)
    else
      let rdlength := be16 h.msg (p + 8)
      if p + 10 + rdlength > h.msg.length then (p + 10, none)
      else (p + 10 + rdlength,
        some ⟨name, type, rrClass, nsGet32 h.msg (p + 4), rdlength, some (p + 10)⟩)

/-- The parse of the record at `_msg_ptr`; `ns_name_unpack` refuses a `NULL`. -/
def parseRecord (h : NsMsg) (sect : Nat) : NsMsg × Option NsRr :=
  match h.msgPtr with
  | none => (h, none)
  | some ptr =>
    match dnExpand h.msg ptr nsMaxdname with
    | none => (h, none)
    | some (b, name) =>
      match parseFields h sect name (ptr + b) with
      | (p, none) => ({ h with msgPtr := some p }, none)
      | (p, some rr) =>
        let h := { h with msgPtr := some p, rrnum := h.rrnum + 1 }
        (if h.rrnum > h.counts sect then setsection h (sect + 1) else h, some rr)

/-- `ns_parserr`: the handle afterwards, and the record if it returned 0. -/
def nsParserr (h : NsMsg) (sect : Nat) (rrnum : Int) : NsMsg × Option NsRr :=
  if sect ≥ nsSMax then (h, none)
  else
    let h := if sect ≠ h.sect then setsection h sect else h
    let rrnum := if rrnum = -1 then h.rrnum else rrnum
    if rrnum < 0 ∨ rrnum ≥ h.counts sect then (h, none)
    else
      let h := if rrnum < h.rrnum then setsection h sect else h
      if rrnum > h.rrnum then
        match h.msgPtr with
        | none => (h, none)
        | some ptr =>
          match nsSkiprr h.msg ptr sect (rrnum - h.rrnum).toNat with
          | none => (h, none)
          | some b => parseRecord { h with msgPtr := some (ptr + b), rrnum := rrnum } sect
      else parseRecord h sect

/-! ## The smallest TTL (res_cache.c) -/

/-- The loop over the answer records from record `n` on. -/
def ttlLoop : Nat → Nat → NsMsg → UInt32 → UInt32
  | 0, _, _, result => result
  | left + 1, n, handle, result =>
    match nsParserr handle nsSAn n with
    | (handle, some rr) =>
      ttlLoop left (n + 1) handle (if n = 0 ∨ rr.ttl < result then rr.ttl else result)
    | (handle, none) => ttlLoop left (n + 1) handle result

/-- `answer_getTTL`; 0 says not to cache. -/
def answerGetTTL (answer : Bytes) : UInt32 :=
  match nsInitparse answer with
  | none => 0
  | some handle => ttlLoop (handle.counts nsSAn) 0 handle 0

/-- A query for `a.` of type A. -/
def exampleQuery : Bytes := [0, 0, 1, 0, 0, 1, 0, 0, 0, 0, 0, 0, 1, 97, 0, 0, 1, 0, 1]

/-- Its answer, with one record of TTL 300. -/
def exampleAnswer : Bytes :=
  [0, 0, 0x81, 0x80, 0, 1, 0, 1, 0, 0, 0, 0, 1, 97, 0, 0, 1, 0, 1,
   0xc0, 12, 0, 1, 0, 1, 0, 0, 1, 44, 0, 4, 127, 0, 0, 1]

example : checkQuery exampleQuery = true ∧ answerGetTTL exampleAnswer = 300 := by decide +kernel

/-! ## The fuel is enough -/

/-- Every round of `ns_name_skip` moves forward, and behind the end the loop stops. -/
theorem nsNameSkipLoop_succ {msg : Bytes} {fuel cp : Nat} (h : msg.length - cp ≤ fuel) :
    nsNameSkipLoop msg (fuel + 1) cp = nsNameSkipLoop msg fuel cp := by
  induction fuel generalizing cp with
  | zero =>
    have hlt : ¬ cp < msg.length := by omega
    simp [nsNameSkipLoop, hlt]
  | succ fuel ih =>
    rw [nsNameSkipLoop, nsNameSkipLoop]
    dsimp only
    split
    · next hlt =>
      have hpointer := @ih (cp + 1 + (byte msg cp).toNat) (by omega)
      rw [hpointer]
      cases labellen (msg.drop cp) with
      | none => rfl
      | some l =>
        simp only
        have hlabel := @ih (cp + 1 + l) (by omega)
        rw [hlabel]
    · rfl

theorem nsNameSkipLoop_eq {msg : Bytes} {fuel cp : Nat} (h : msg.length - cp ≤ fuel) :
    nsNameSkipLoop msg fuel cp = nsNameSkipLoop msg (msg.length - cp) cp :=
  eq_of_enough_fuel (f := fun n => nsNameSkipLoop msg n cp) (fun _ => nsNameSkipLoop_succ) h

/-- What is left to write and what is left to check bound the rounds of `ns_name_unpack`: a label
writes at least one byte, a pointer counts two bytes as checked. -/
theorem unpackLoop_succ {msg : Bytes} {dstsiz src fuel srcp checked : Nat} {dst : Bytes}
    {len : Option Nat} (h : (dstsiz - dst.length) + (msg.length - checked) < fuel) :
    unpackLoop msg dstsiz src (fuel + 1) srcp dst len checked =
      unpackLoop msg dstsiz src fuel srcp dst len checked := by
  induction fuel generalizing srcp dst len checked with
  | zero => omega
  | succ fuel ih =>
    rw [unpackLoop, unpackLoop]
    dsimp only
    split
    · rfl
    · split
      · cases labellen (msg.drop srcp) with
        | none => rfl
        | some l =>
          simp only
          split
          · rfl
          · next hroom =>
            refine ih ?_
            rw [List.length_append, List.length_cons]
            omega
      · split
        · split
          · rfl
          · split
            · rfl
            · split
              · rfl
              · next hchecked =>
                refine ih ?_
                omega
        · rfl

theorem unpackLoop_eq {msg : Bytes} {dstsiz src fuel srcp : Nat}
    (h : dstsiz + msg.length + 1 ≤ fuel) :
    unpackLoop msg dstsiz src fuel srcp [] none 0 =
      unpackLoop msg dstsiz src (dstsiz + msg.length + 1) srcp [] none 0 := by
  refine eq_of_enough_fuel (f := fun n => unpackLoop msg dstsiz src n srcp [] none 0)
    (fun n hn => unpackLoop_succ ?_) h
  omega

end Resolv
