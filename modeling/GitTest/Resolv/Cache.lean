import GitTest.Lib.Links
import GitTest.Lib.Transition
import GitTest.Resolv.Answer

/-!
# The resolver cache (libc/netbsd/resolv/res_cache.c)

The hash table with collision chains, the MRU ring and the four calls on one cache, on a
heap of entries.  Each link field of an entry is a map of its own, so a store to one field
changes no other; an entry is allocated while `node` has it, and an access to one that is
not, or to `NULL`, has no result (`none`).  A walk along a chain takes `num_entries` nodes
as fuel.  The calls are atomic: the code runs them under `cache->lock`.  `time_t` and
`u_long` have 32 bits.  `id` and `last_id`, which are only logged, are left out.

Ghosts of the machine: `adds`, the add calls since the last flush, newest first, and
`oldestMissing`, whether "OLDEST NOT IN HTABLE" was ever reached.
-/

namespace Resolv

open Links Machines

/-! ## Algorithm -/

abbrev Addr := Nat

abbrev TimeT := BitVec 32

/-- An `Entry*` in the MRU ring; `header` is `&cache->mru_list`. -/
inductive Ref
  | null
  | header
  | entry (a : Addr)
  deriving DecidableEq, Repr

/-- The fields of an entry that are not links. -/
structure Entry where
  hash : UInt32
  query : Bytes
  answer : Bytes
  expires : TimeT
  deriving DecidableEq, Repr

structure Cache where
  maxEntries : Nat
  numEntries : Nat
  generation : UInt32
  entries : Nat → Option Addr
  node : Addr → Option Entry
  hlink : Addr → Option Addr
  mruNext : Ref → Ref
  mruPrev : Ref → Ref

/-- `entry_init_key`: the key of a query that can be cached. -/
def entryInitKey (query : Bytes) : Option Entry :=
  if checkQuery query then some ⟨hashQuery query, query, [], 0⟩ else none

def entryAlloc (init : Entry) (answer : Bytes) : Entry := ⟨init.hash, init.query, answer, 0⟩

def entryEquals (e1 e2 : Entry) : Bool :=
  if e1.query.length ≠ e2.query.length then false else isEqualQuery e1.query e2.query

/-! ### Memory -/

def Cache.allocated (c : Cache) (a : Addr) : Bool := (c.node a).isSome

/-- The slot exists: a head, or the link field of an allocated entry. -/
def Cache.validSlot (c : Cache) : Slot Nat Addr → Bool
  | .head _ => true
  | .link a => c.allocated a

def Cache.validRef (c : Cache) : Ref → Bool
  | .null => false
  | .header => true
  | .entry a => c.allocated a

/-- `*pnode` -/
def loadSlot (c : Cache) (pnode : Slot Nat Addr) : Option (Option Addr) :=
  if c.validSlot pnode then some (load c.entries c.hlink pnode) else none

/-- `*pnode = v` -/
def storeSlot (c : Cache) (pnode : Slot Nat Addr) (v : Option Addr) : Option Cache :=
  if c.validSlot pnode then
    some { c with entries := storeHead c.entries v pnode, hlink := storeLink c.hlink v pnode }
  else none

/-- `r->mru_next = v` -/
def setNext (c : Cache) (r v : Ref) : Option Cache :=
  if c.validRef r then some { c with mruNext := Function.update c.mruNext r v } else none

/-- `r->mru_prev = v` -/
def setPrev (c : Cache) (r v : Ref) : Option Cache :=
  if c.validRef r then some { c with mruPrev := Function.update c.mruPrev r v } else none

/-- `calloc`, with the fields that are not links already filled in. -/
def calloc (c : Cache) (a : Addr) (e : Entry) : Cache :=
  { c with
    node := Function.update c.node a (some e)
    hlink := Function.update c.hlink a none
    mruNext := Function.update c.mruNext (.entry a) .null
    mruPrev := Function.update c.mruPrev (.entry a) .null }

def entryFree (c : Cache) (a : Addr) : Cache := { c with node := Function.update c.node a none }

/-! ### The MRU ring -/

/-- `e->mru_prev->mru_next = e->mru_next; e->mru_next->mru_prev = e->mru_prev;` -/
def entryMruRemove (c : Cache) (e : Ref) : Option Cache :=
  (setNext c (c.mruPrev e) (c.mruNext e)).bind fun c => setPrev c (c.mruNext e) (c.mruPrev e)

def entryMruAdd (c : Cache) (e : Ref) : Option Cache :=
  let first := c.mruNext .header
  (setNext c e first).bind fun c => (setPrev c e .header).bind fun c =>
    (setNext c .header e).bind fun c => setPrev c first e

/-! ### The hash table -/

/-- The walk of `_cache_lookup_p` along a chain. -/
def lookupLoop (c : Cache) (key : Entry) : Nat → Slot Nat Addr → Option (Slot Nat Addr)
  | 0, _ => none
  | fuel + 1, pnode =>
    match loadSlot c pnode with
    | none => none
    | some none => some pnode
    | some (some a) =>
      match c.node a with
      | none => none
      | some e =>
        if e.hash = key.hash ∧ entryEquals e key = true then some pnode
        else lookupLoop c key fuel (.link a)

/-- `_cache_lookup_p`: the slot of the entry, or of the `NULL` at the end of its chain. -/
def cacheLookupP (c : Cache) (key : Entry) : Option (Slot Nat Addr) :=
  lookupLoop c key (c.numEntries + 1) (.head (key.hash.toNat % c.maxEntries))

def cacheAddP (c : Cache) (lookup : Slot Nat Addr) (a : Addr) : Option Cache :=
  (storeSlot c lookup (some a)).bind fun c => (entryMruAdd c (.entry a)).map fun c =>
    { c with numEntries := c.numEntries + 1 }

def cacheRemoveP (c : Cache) (lookup : Slot Nat Addr) : Option Cache :=
  match loadSlot c lookup with
  | none | some none => none
  | some (some a) =>
    (entryMruRemove c (.entry a)).bind fun c => (storeSlot c lookup (c.hlink a)).map fun c =>
      { entryFree c a with numEntries := c.numEntries - 1 }

/-- The entry a ring pointer points to; the fields of the header that are not links are 0. -/
def refEntry (c : Cache) : Ref → Option Entry
  | .null => none
  | .header => some ⟨0, [], [], 0⟩
  | .entry a => c.node a

/-- `_cache_remove_oldest`; `true` if the oldest entry was not in the table. -/
def cacheRemoveOldest (c : Cache) : Option (Cache × Bool) :=
  (refEntry c (c.mruPrev .header)).bind fun oldest => (cacheLookupP c oldest).bind fun lookup =>
    match loadSlot c lookup with
    | none => none
    | some none => some (c, true)
    | some (some _) => (cacheRemoveP c lookup).map fun c => (c, false)

/-- The loop over one chain of `_cache_flush_locked`. -/
def flushChain : Nat → Nat → Cache → Option Cache
  | 0, nn, c => if c.entries nn = none then some c else none
  | fuel + 1, nn, c =>
    match c.entries nn with
    | none => some c
    | some a =>
      if c.allocated a then
        flushChain fuel nn
          (entryFree { c with entries := Function.update c.entries nn (c.hlink a) } a)
      else none

/-- The loop over the chains from `nn` on. -/
def flushChains (fuel : Nat) : List Nat → Cache → Option Cache
  | [], c => some c
  | nn :: rest, c => (flushChain fuel nn c).bind (flushChains fuel rest)

def cacheFlushLocked (c : Cache) : Option Cache :=
  (flushChains c.numEntries (List.range c.maxEntries) c).map fun c =>
    { c with
      mruNext := Function.update c.mruNext .header .header
      mruPrev := Function.update c.mruPrev .header .header
      numEntries := 0 }

/-! ### The calls -/

/-- `_res_cache_get_max_entries`; `prop` is the number in the system property, if it is set. -/
def resCacheGetMaxEntries (prop : Option Int) : Nat :=
  let result := prop.getD (-1)
  if result ≤ 0 then 64 else result.toNat

def resolvCacheCreate (prop : Option Int) : Cache where
  maxEntries := resCacheGetMaxEntries prop
  numEntries := 0
  generation := 0xFFFFFFFF
  entries := fun _ => none
  node := fun _ => none
  hlink := fun _ => none
  mruNext := fun r => if r = .header then .header else .null
  mruPrev := fun r => if r = .header then .header else .null

inductive Status
  | unsupported
  | notfound
  | found
  deriving DecidableEq, Repr

/-- What a lookup returns: the status, `*answerlen` if it was written, the bytes it copied out. -/
structure LookupResult where
  status : Status
  answerlen : Option Nat
  answer : Option Bytes
  deriving DecidableEq, Repr

def bump (c : Cache) (a : Addr) : Option Cache :=
  if Ref.entry a ≠ c.mruNext .header then
    (entryMruRemove c (.entry a)).bind fun c => entryMruAdd c (.entry a)
  else some c

/-- The part of a lookup that has found the entry `e` at `a`. -/
def lookupHit (c : Cache) (lookup : Slot Nat Addr) (a : Addr) (e : Entry) (answersize : Int)
    (now : TimeT) : Option (Cache × LookupResult) :=
  if now.toInt ≥ e.expires.toInt then
    (cacheRemoveP c lookup).map fun c => (c, ⟨.notfound, none, none⟩)
  else if (e.answer.length : Int) > answersize then
    some (c, ⟨.unsupported, some e.answer.length, none⟩)
  else (bump c a).map fun c => (c, ⟨.found, some e.answer.length, some e.answer⟩)

def resolvCacheLookup (c : Cache) (query : Bytes) (answersize : Int) (now : TimeT) :
    Option (Cache × LookupResult) :=
  match entryInitKey query with
  | none => some (c, ⟨.unsupported, none, none⟩)
  | some key =>
    (cacheLookupP c key).bind fun lookup =>
      match loadSlot c lookup with
      | none => none
      | some none => some (c, ⟨.notfound, none, none⟩)
      | some (some a) =>
        match c.node a with
        | none => none
        | some e => lookupHit c lookup a e answersize now

/-- The end of an add: `alloc` is the address that `entry_alloc` gets, if any. -/
def insertAnswer (c : Cache) (lookup : Slot Nat Addr) (key : Entry) (answer : Bytes) (now : TimeT)
    (alloc : Option Addr) : Option Cache :=
  let ttl := answerGetTTL answer
  if ttl > 0 then
    match alloc with
    | none => some c
    | some a =>
      if c.allocated a then none
      else
        cacheAddP (calloc c a { entryAlloc key answer with expires := ttl.toBitVec + now }) lookup a
  else some c

/-- `_resolv_cache_add`; `true` if `_cache_remove_oldest` did not find the oldest entry. -/
def resolvCacheAdd (c : Cache) (query answer : Bytes) (now : TimeT) (alloc : Option Addr) :
    Option (Cache × Bool) :=
  match entryInitKey query with
  | none => some (c, false)
  | some key =>
    (cacheLookupP c key).bind fun lookup =>
      match loadSlot c lookup with
      | none => none
      | some (some _) => some (c, false)
      | some none =>
        if c.numEntries ≥ c.maxEntries then
          (cacheRemoveOldest c).bind fun r => (cacheLookupP r.1 key).bind fun lookup =>
            match loadSlot r.1 lookup with
            | none => none
            | some (some _) => some r
            | some none => (insertAnswer r.1 lookup key answer now alloc).map fun c => (c, r.2)
        else (insertAnswer c lookup key answer now alloc).map fun c => (c, false)

/-- The part of `_resolv_cache_reset` on the cache of the interface. -/
def resolvCacheReset (c : Cache) (generation : UInt32) : Option Cache :=
  if c.generation ≠ generation then
    (cacheFlushLocked c).map fun c => { c with generation := generation }
  else some c

/-! ### Runs -/

structure Added where
  query : Bytes
  answer : Bytes
  time : TimeT
  deriving DecidableEq, Repr

structure State where
  cache : Cache
  adds : List Added
  oldestMissing : Bool

inductive Call
  | lookup (query : Bytes) (answersize : Int) (now : TimeT)
  | add (query answer : Bytes) (now : TimeT) (alloc : Option Addr)
  | flush
  | reset (generation : UInt32)

def step (s : State) : Call → Option State
  | .lookup query answersize now =>
    (resolvCacheLookup s.cache query answersize now).map fun r => { s with cache := r.1 }
  | .add query answer now alloc =>
    (resolvCacheAdd s.cache query answer now alloc).map fun r =>
      ⟨r.1, ⟨query, answer, now⟩ :: s.adds, s.oldestMissing || r.2⟩
  | .flush => (cacheFlushLocked s.cache).map fun c => { s with cache := c, adds := [] }
  | .reset generation =>
    (resolvCacheReset s.cache generation).map fun c =>
      { s with cache := c, adds := if s.cache.generation ≠ generation then [] else s.adds }

def init (s : State) : Prop :=
  (∃ prop, s.cache = resolvCacheCreate prop) ∧ s.adds = [] ∧ s.oldestMissing = false

def machine : Machine State Call := ⟨init, step⟩

/-- `calloc` returns memory that is not in use. -/
def Call.fresh (c : Cache) : Call → Prop
  | .add _ _ _ (some a) => c.node a = none
  | .add _ _ _ none | .lookup _ _ _ | .flush | .reset _ => True

def Call.clockOk : Call → Prop
  | .lookup _ _ now | .add _ _ now _ => 0 ≤ now.toInt
  | .flush | .reset _ => True

end Resolv
