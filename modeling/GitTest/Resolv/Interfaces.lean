import GitTest.Resolv.CacheInv

/-!
# The caches of the interfaces (res_cache.c)

A list of `resolv_cache_info` records, one per interface name, each with its own cache, and
the name of the default interface.  Every function here runs under `_res_cache_list_lock`.

`__get_res_cache` and `_resolv_cache_reset` take the cache of the default interface, and if
none is set, of the last record with a name; `_resolv_flush_cache_for_default_iface` looks
for a record with the default name in both cases.  The caches are those of
`GitTest.Resolv.Cache`, and they stay well-formed (`inv_step`).
-/

open Machines

namespace Resolv.Iface

open Function List Option

/-! ## Algorithm -/

/-- The bytes of a C string before its NUL. -/
abbrev Name := Bytes

def ifNameSize : Nat := 16

def maxNs : Nat := 3

/-- `strncpy` into a buffer of `IF_NAMESIZE + 1` bytes. -/
def copyName (ifname : Name) : Name := ifname.take ifNameSize

structure CacheInfo where
  ifname : Name
  ifaddr : UInt32
  cache : Addr
  /-- `nameservers` and `nsaddrinfo` up to the first unused place -/
  nameservers : List (Name × Bytes)

def CacheInfo.named (i : CacheInfo) : Bool := decide (i.ifname ≠ [])

structure Interfaces where
  infos : List CacheInfo
  defaultIfname : Name
  caches : Addr → Option Resolv.State

/-- `calloc` for a record and `_resolv_cache_create`: the address of the cache and the property
it is created with, or `none` if one of them fails. -/
abbrev Alloc := Option (Addr × Option Int)

namespace Interfaces
variable (s : Interfaces)

/-- `_find_cache_info_locked`; `none` is NULL. -/
def findCacheInfo : Option Name → Option CacheInfo
  | none => none
  | some ifname => s.infos.find? fun i => decide (i.ifname = ifname)

def findNamedCache (ifname : Option Name) : Option Addr :=
  (s.findCacheInfo ifname).map CacheInfo.cache

/-- `_insert_cache_info_locked` of a record with a new cache. -/
def insertCacheInfo (ifname : Name) (cache : Addr) (prop : Option Int) : Interfaces where
  infos := s.infos ++ [⟨copyName ifname, 0, cache, []⟩]
  defaultIfname := s.defaultIfname
  caches := Function.update s.caches cache (some ⟨resolvCacheCreate prop, [], false⟩)

/-- `_get_res_cache_for_iface_locked`.  Memory that is in use already is not returned by
`calloc`, so there is no step for it. -/
def getResCacheForIface (ifname : Option Name) (alloc : Alloc) :
    Option (Interfaces × Option Addr) :=
  match ifname with
  | none => some (s, none)
  | some name =>
    match s.findNamedCache (some name), alloc with
    | some cache, _ => some (s, some cache)
    | none, none => some (s, none)
    | none, some (cache, prop) =>
      if (s.caches cache).isSome then none
      else some (s.insertCacheInfo name cache prop, some cache)

/-- The loop over the records that `__get_res_cache` and `_resolv_cache_reset` both have. -/
def selectIfname : Name → List CacheInfo → Name
  | ifname, [] => ifname
  | ifname, i :: infos => selectIfname (if i.named then i.ifname else ifname) infos

/-- The name of which both take the cache. -/
def usedIfname : Name :=
  if s.defaultIfname = [] then selectIfname s.defaultIfname s.infos else s.defaultIfname

def getResCache (alloc : Alloc) : Option (Interfaces × Option Addr) :=
  s.getResCacheForIface (some s.usedIfname) alloc

def onCache (cache : Addr) (call : Resolv.Call) : Option Interfaces :=
  (s.caches cache).bind fun c => (Resolv.step c call).map fun c' =>
    { s with caches := Function.update s.caches cache (some c') }

def resetTarget (alloc : Alloc) : Option (Interfaces × Option Addr) :=
  s.getResCacheForIface (some s.usedIfname) alloc

def cacheReset (generation : UInt32) (alloc : Alloc) : Option Interfaces :=
  (s.resetTarget alloc).bind fun r =>
    match r.2 with
    | none => some r.1
    | some cache => r.1.onCache cache (.reset generation)

def flushCacheForIface (ifname : Option Name) : Option Interfaces :=
  match s.findNamedCache ifname with
  | none => some s
  | some cache => s.onCache cache .flush

def flushTarget : Option Addr := s.findNamedCache (some s.defaultIfname)

def flushCacheForDefaultIface : Option Interfaces :=
  s.flushCacheForIface (some s.defaultIfname)

def setDefaultIface (ifname : Name) : Interfaces := { s with defaultIfname := copyName ifname }

/-- Change the record that `_find_cache_info_locked` finds. -/
def updateInfo (ifname : Name) (f : CacheInfo → CacheInfo) : List CacheInfo → List CacheInfo
  | [] => []
  | i :: infos => if i.ifname = ifname then f i :: infos else i :: updateInfo ifname f infos

def update (ifname : Option Name) (f : CacheInfo → CacheInfo) : Interfaces :=
  match ifname with
  | none => s
  | some name => { s with infos := updateInfo name f s.infos }

/-- `_resolv_set_nameservers_for_iface`; each server comes with what `getaddrinfo` makes of
it. -/
def setNameservers (ifname : Option Name) (servers : List (Name × Option Bytes))
    (alloc : Alloc) : Option Interfaces :=
  (s.getResCacheForIface ifname alloc).map fun r =>
    r.1.update ifname fun i =>
      { i with nameservers :=
          (servers.take maxNs).filterMap fun x => x.2.map fun addr => (x.1, addr) }

def setAddr (ifname : Option Name) (addr : UInt32) : Interfaces :=
  s.update ifname fun i => { i with ifaddr := addr }

end Interfaces

/-! ### Runs -/

inductive Request
  | setDefaultIface (ifname : Name)
  | setNameservers (ifname : Option Name) (servers : List (Name × Option Bytes)) (alloc : Alloc)
  | setAddr (ifname : Option Name) (addr : UInt32)
  | getResCache (alloc : Alloc)
  | access (cache : Addr) (call : Resolv.Call)
  | reset (generation : UInt32) (alloc : Alloc)
  | flushDefault
  | flushIface (ifname : Option Name)

def step (s : Interfaces) : Request → Option Interfaces
  | .setDefaultIface ifname => some (s.setDefaultIface ifname)
  | .setNameservers ifname servers alloc => s.setNameservers ifname servers alloc
  | .setAddr ifname addr => some (s.setAddr ifname addr)
  | .getResCache alloc => (s.getResCache alloc).map Prod.fst
  | .access cache call => s.onCache cache call
  | .reset generation alloc => s.cacheReset generation alloc
  | .flushDefault => s.flushCacheForDefaultIface
  | .flushIface ifname => s.flushCacheForIface ifname

def start : Interfaces := ⟨[], [], fun _ => none⟩

def machine : Machine Interfaces Request := ⟨fun s => s = start, step⟩

/-! ## Invariant -/

/-- Every record has a cache of its own, and every cache is well-formed. -/
structure Inv (s : Interfaces) : Prop where
  nodup : (s.infos.map CacheInfo.cache).Nodup
  allocated : ∀ i ∈ s.infos, (s.caches i.cache).isSome = true
  sound : ∀ {a c}, s.caches a = some c → Resolv.Inv c

theorem inv_start : Inv start where
  nodup := nodup_nil
  allocated := fun _ h => nomatch h
  sound := fun h => nomatch h

section
variable {s s' : Interfaces}

theorem CacheInfo.named_iff {i : CacheInfo} : i.named = true ↔ i.ifname ≠ [] :=
  decide_eq_true_iff

theorem findNamedCache_eq_some {ifname : Name} {a : Addr}
    (h : s.findNamedCache (some ifname) = some a) :
    ∃ i ∈ s.infos, i.ifname = ifname ∧ i.cache = a := by
  obtain ⟨i, hi, rfl⟩ := map_eq_some_iff.1 h
  have hname := find?_some hi
  exact ⟨i, mem_of_find?_eq_some hi, of_decide_eq_true hname, rfl⟩

theorem findNamedCache_isSome {i : CacheInfo} (h : i ∈ s.infos) :
    (s.findNamedCache (some i.ifname)).isSome = true := by
  show ((s.infos.find? fun j => decide (j.ifname = i.ifname)).map CacheInfo.cache).isSome = true
  rw [isSome_map, find?_isSome]
  exact ⟨i, h, decide_eq_true rfl⟩

/-- What `_get_res_cache_for_iface_locked` does: it finds the record or has no memory for one, or
it creates one. -/
theorem getResCacheForIface_cases {ifname : Option Name} {alloc : Alloc} {r : Option Addr}
    (h : s.getResCacheForIface ifname alloc = some (s', r)) :
    (s' = s ∧ r = s.findNamedCache ifname ∧ (r.isSome = true ∨ ifname = none ∨ alloc = none)) ∨
    ∃ name cache prop, ifname = some name ∧ alloc = some (cache, prop) ∧
      s.findNamedCache (some name) = none ∧ s.caches cache = none ∧ r = some cache ∧
      s' = s.insertCacheInfo name cache prop := by
  revert h
  fun_cases Interfaces.getResCacheForIface s ifname alloc with
  | case1 =>
    rintro ⟨⟩
    exact .inl ⟨rfl, rfl, .inr (.inl rfl)⟩
  | case2 _ _ _ hfind =>
    rintro ⟨⟩
    exact .inl ⟨rfl, hfind.symm, .inl rfl⟩
  | case3 _ hfind =>
    rintro ⟨⟩
    exact .inl ⟨rfl, hfind.symm, .inr (.inr rfl)⟩
  | case4 => rintro ⟨⟩
  | case5 name cache prop hfind hfree =>
    rintro ⟨⟩
    exact .inr ⟨name, cache, prop, rfl, rfl, hfind, by simpa using hfree, rfl, rfl⟩

theorem Inv.insert (hi : Inv s) (ifname : Name) {cache : Addr} (prop : Option Int)
    (hfree : s.caches cache = none) : Inv (s.insertCacheInfo ifname cache prop) where
  nodup := by
    show ((s.infos ++ [_]).map CacheInfo.cache).Nodup
    rw [map_append]
    refine List.Nodup.append hi.nodup (nodup_singleton _) ?_
    intro a ha hb
    obtain rfl : a = cache := mem_singleton.1 hb
    obtain ⟨i, hmem, hcache⟩ := mem_map.1 ha
    have halloc := hi.allocated i hmem
    rw [hcache, hfree] at halloc
    cases halloc
  allocated := by
    intro i hmem
    show (update s.caches cache _ i.cache).isSome = true
    by_cases heq : i.cache = cache
    · rw [heq, update_self]
      rfl
    · rw [update_of_ne heq]
      rcases mem_append.1 hmem with hmem | hmem
      · exact hi.allocated i hmem
      · rw [mem_singleton.1 hmem] at heq
        exact absurd rfl heq
  sound := by
    intro a c hc
    change update s.caches cache _ a = some c at hc
    by_cases heq : a = cache
    · rw [heq, update_self] at hc
      cases hc
      exact Resolv.inv_init _ ⟨⟨prop, rfl⟩, rfl, rfl⟩
    · rw [update_of_ne heq] at hc
      exact hi.sound hc

theorem Inv.getResCacheForIface (hi : Inv s) {ifname : Option Name} {alloc : Alloc}
    {r : Option Addr} (h : s.getResCacheForIface ifname alloc = some (s', r)) : Inv s' := by
  rcases getResCacheForIface_cases h with ⟨rfl, -⟩ | ⟨name, cache, prop, -, -, -, hfree, -, rfl⟩
  · exact hi
  · exact hi.insert name prop hfree

theorem Inv.onCache (hi : Inv s) {cache : Addr} {call : Resolv.Call}
    (h : s.onCache cache call = some s') : Inv s' := by
  obtain ⟨c, hc, h⟩ := bind_eq_some_iff.1 h
  obtain ⟨c', hstep, rfl⟩ := map_eq_some_iff.1 h
  refine ⟨hi.nodup, ?_, ?_⟩
  · intro i hmem
    show (update s.caches cache (some c') i.cache).isSome = true
    by_cases heq : i.cache = cache
    · rw [heq, update_self]
      rfl
    · rw [update_of_ne heq]
      exact hi.allocated i hmem
  · intro a c₁ hc₁
    change update s.caches cache (some c') a = some c₁ at hc₁
    by_cases heq : a = cache
    · rw [heq, update_self] at hc₁
      cases hc₁
      exact Resolv.inv_step c call c' (hi.sound hc) hstep
    · rw [update_of_ne heq] at hc₁
      exact hi.sound hc₁

theorem updateInfo_caches (ifname : Name) {f : CacheInfo → CacheInfo}
    (hf : ∀ i, (f i).cache = i.cache) (infos : List CacheInfo) :
    (Interfaces.updateInfo ifname f infos).map CacheInfo.cache = infos.map CacheInfo.cache := by
  induction infos with
  | nil => rfl
  | cons i infos ih =>
    unfold Interfaces.updateInfo
    split
    · rw [map_cons, map_cons, hf]
    · rw [map_cons, map_cons, ih]

theorem Inv.update (hi : Inv s) (ifname : Option Name) {f : CacheInfo → CacheInfo}
    (hf : ∀ i, (f i).cache = i.cache) : Inv (s.update ifname f) := by
  cases ifname with
  | none => exact hi
  | some name =>
    have hcaches := updateInfo_caches name hf s.infos
    refine ⟨?_, ?_, hi.sound⟩
    · show ((Interfaces.updateInfo name f s.infos).map CacheInfo.cache).Nodup
      rw [hcaches]
      exact hi.nodup
    · intro i hmem
      have hcache : i.cache ∈ s.infos.map CacheInfo.cache := by
        rw [← hcaches]
        exact mem_map_of_mem hmem
      obtain ⟨j, hj, heq⟩ := mem_map.1 hcache
      have halloc := hi.allocated j hj
      rwa [heq] at halloc

theorem Inv.flushCacheForIface (hi : Inv s) {ifname : Option Name}
    (h : s.flushCacheForIface ifname = some s') : Inv s' := by
  unfold Interfaces.flushCacheForIface at h
  split at h
  · cases h
    exact hi
  · exact hi.onCache h

theorem inv_step (r : Request) (hi : Inv s) (h : step s r = some s') : Inv s' := by
  cases r with
  | setDefaultIface ifname =>
    cases h
    exact ⟨hi.nodup, hi.allocated, hi.sound⟩
  | setNameservers ifname servers alloc =>
    obtain ⟨⟨t, r⟩, ht, rfl⟩ := map_eq_some_iff.1 h
    exact (hi.getResCacheForIface ht).update ifname fun _ => rfl
  | setAddr ifname addr =>
    cases h
    exact hi.update ifname fun _ => rfl
  | getResCache alloc =>
    obtain ⟨⟨t, r⟩, ht, rfl⟩ := map_eq_some_iff.1 h
    exact hi.getResCacheForIface ht
  | access cache call => exact hi.onCache h
  | reset generation alloc =>
    obtain ⟨⟨t, r⟩, ht, h⟩ := bind_eq_some_iff.1 h
    have hi' := hi.getResCacheForIface ht
    cases r with
    | none =>
      cases h
      exact hi'
    | some cache => exact hi'.onCache h
  | flushDefault => exact hi.flushCacheForIface h
  | flushIface ifname => exact hi.flushCacheForIface h

theorem reachable_inv (h : machine.Reachable s) : Inv s := by
  refine Machine.Reachable.invariant ?_ ?_ h
  · rintro _ rfl
    exact inv_start
  · intro _ r _ hi hs
    exact inv_step r hi hs

theorem Inv.eq_of_cache (hi : Inv s) {i j : CacheInfo} (hmi : i ∈ s.infos) (hmj : j ∈ s.infos)
    (h : i.cache = j.cache) : i = j :=
  inj_on_of_nodup_map hi.nodup hmi hmj h

end

/-! ## Which cache is used -/

section
variable {s s' : Interfaces}

theorem selectIfname_eq (ifname : Name) (infos : List CacheInfo) :
    Interfaces.selectIfname ifname infos =
      ((infos.reverse.find? CacheInfo.named).map CacheInfo.ifname).getD ifname := by
  induction infos generalizing ifname with
  | nil => rfl
  | cons i infos ih =>
    rw [Interfaces.selectIfname, ih, reverse_cons, find?_append]
    cases h : infos.reverse.find? CacheInfo.named with
    | some j => rfl
    | none =>
      show _ = ((List.find? CacheInfo.named [i]).map CacheInfo.ifname).getD ifname
      by_cases hi : i.named = true
      · rw [find?_cons_of_pos hi, if_pos hi]
        rfl
      · rw [find?_cons_of_neg hi, if_neg hi]
        rfl

theorem usedIfname_of_last {i : CacheInfo} (hd : s.defaultIfname = [])
    (h : s.infos.reverse.find? CacheInfo.named = some i) : s.usedIfname = i.ifname := by
  unfold Interfaces.usedIfname
  rw [if_pos hd, selectIfname_eq, h]
  rfl

theorem usedIfname_of_default (h : s.defaultIfname ≠ [] ∨ ∀ i ∈ s.infos, i.ifname = []) :
    s.usedIfname = s.defaultIfname := by
  unfold Interfaces.usedIfname
  by_cases hd : s.defaultIfname = []
  · have hnone : s.infos.reverse.find? CacheInfo.named = none := by
      rw [find?_eq_none]
      intro i hi
      have hname := (h.resolve_left (fun hne => hne hd)) i (mem_reverse.1 hi)
      simp [CacheInfo.named, hname]
    rw [if_pos hd, selectIfname_eq, hnone]
    rfl
  · rw [if_neg hd]

theorem getResCache_found {a : Addr} (h : s.findNamedCache (some s.usedIfname) = some a)
    (alloc : Alloc) : s.getResCache alloc = some (s, some a) := by
  unfold Interfaces.getResCache Interfaces.getResCacheForIface
  simp only [h]

/-- The three functions agree in a state. -/
structure Agree (s : Interfaces) : Prop where
  /-- the cache that is reset is the one that is used -/
  reset : ∀ alloc, s.resetTarget alloc = s.getResCache alloc
  /-- the cache that is emptied is the one that is used, unless that is created just now -/
  flush : ∀ alloc s' a, s.getResCache alloc = some (s', some a) →
    s.flushTarget = if (s.caches a).isSome then some a else none
  /-- without a default interface this is the cache of the first record with a name -/
  first : s.defaultIfname = [] → ∀ i, s.infos.find? CacheInfo.named = some i →
    ∀ alloc, s.getResCache alloc = some (s, some i.cache)

/-- In every reachable state the three functions agree exactly if a default interface is set or
no record has a name. -/
theorem agree_iff (h : machine.Reachable s) :
    Agree s ↔ s.defaultIfname ≠ [] ∨ ∀ i ∈ s.infos, i.ifname = [] := by
  have hinv := reachable_inv h
  constructor
  · intro hagree
    by_contra hnot
    rw [not_or, not_not] at hnot
    obtain ⟨hd, hnamed⟩ := hnot
    -- the last record with a name is used, and the flush looks for one without a name
    cases hlast : s.infos.reverse.find? CacheInfo.named with
    | none =>
      rw [find?_eq_none] at hlast
      refine hnamed fun i hi => ?_
      simpa [CacheInfo.named] using hlast i (mem_reverse.2 hi)
    | some i =>
      have hi : i ∈ s.infos := mem_reverse.1 (mem_of_find?_eq_some hlast)
      have hname : i.ifname ≠ [] := CacheInfo.named_iff.1 (find?_some hlast)
      have hused := usedIfname_of_last hd hlast
      obtain ⟨a, ha⟩ := isSome_iff_exists.1 (findNamedCache_isSome hi)
      rw [← hused] at ha
      obtain ⟨j, hj, hjname, hjcache⟩ := findNamedCache_eq_some ha
      have hflush := hagree.flush none s a (getResCache_found ha none)
      have halloc := hinv.allocated j hj
      rw [hjcache] at halloc
      rw [if_pos halloc, Interfaces.flushTarget, hd] at hflush
      obtain ⟨k, hk, hkname, hkcache⟩ := findNamedCache_eq_some hflush
      have heq := hinv.eq_of_cache hj hk (hjcache.trans hkcache.symm)
      rw [← heq, hjname, hused] at hkname
      exact hname hkname
  · intro hcond
    have hused := usedIfname_of_default hcond
    refine ⟨fun _ => rfl, ?_, ?_⟩
    · intro alloc t a hget
      rcases getResCacheForIface_cases hget with
        ⟨rfl, hfound, -⟩ | ⟨name, cache, prop, hname, -, hnone, hfree, ha, -⟩
      · have hfind := hfound.symm
        obtain ⟨i, hi, -, rfl⟩ := findNamedCache_eq_some hfind
        rw [if_pos (hinv.allocated i hi), Interfaces.flushTarget, ← hused, hfind]
      · cases ha
        cases hname
        rw [hfree, Interfaces.flushTarget, ← hused, hnone]
        rfl
    · intro hd i hi
      have hnone := (hcond.resolve_left fun hne => hne hd) i (mem_of_find?_eq_some hi)
      exact absurd hnone (CacheInfo.named_iff.1 (find?_some hi))

/-- "wlan0" is the default interface and gets its name servers. -/
theorem agree_with_default : ∃ s, machine.Reachable s ∧ s.flushTarget = some 1 ∧ Agree s := by
  obtain ⟨s, hrun, hdefault, hflush⟩ : ∃ s, machine.run start
      [.setDefaultIface [119, 108, 97, 110, 48],
        .setNameservers (some [119, 108, 97, 110, 48]) [] (some (1, none))] = some s ∧
      s.defaultIfname = [119, 108, 97, 110, 48] ∧ s.flushTarget = some 1 := ⟨_, rfl, rfl, rfl⟩
  have hreach : machine.Reachable s := Machine.Reachable.run (.init rfl) _ hrun
  refine ⟨s, hreach, hflush, (agree_iff hreach).2 (.inl ?_)⟩
  rw [hdefault]
  exact cons_ne_nil _ _

/-- "wlan0" and then "eth0" get name servers, and no default interface is set.  The cache that is
used is that of "eth0", the second one, and a flush for the default interface empties none. -/
theorem used_cache_not_flushed : ∃ s, machine.Reachable s ∧ s.defaultIfname = [] ∧
    (∃ i, s.infos.find? CacheInfo.named = some i ∧ i.cache = 1) ∧
    (∀ alloc, s.getResCache alloc = some (s, some 2)) ∧ s.flushTarget = none ∧
    (s.caches 2).isSome = true ∧ ¬ Agree s := by
  obtain ⟨s, hrun, hdefault, hfirst, hfind, hflush, hcache⟩ : ∃ s, machine.run start
      [.setNameservers (some [119, 108, 97, 110, 48]) [] (some (1, none)),
        .setNameservers (some [101, 116, 104, 48]) [] (some (2, none))] = some s ∧
      s.defaultIfname = [] ∧ (∃ i, s.infos.find? CacheInfo.named = some i ∧ i.cache = 1) ∧
      s.findNamedCache (some s.usedIfname) = some 2 ∧ s.flushTarget = none ∧
      (s.caches 2).isSome = true := ⟨_, rfl, rfl, ⟨_, rfl, rfl⟩, rfl, rfl, rfl⟩
  have hused := getResCache_found hfind
  refine ⟨s, Machine.Reachable.run (.init rfl) _ hrun, hdefault, hfirst, hused, hflush, hcache, ?_⟩
  intro hagree
  have heq := hagree.flush none s 2 (hused none)
  rw [hflush, if_pos hcache] at heq
  cases heq

/-- Without a default interface the first record with a name is used exactly if the last one has
the same name. -/
theorem getResCache_first_iff (h : machine.Reachable s) (hd : s.defaultIfname = [])
    {i j : CacheInfo} (hfirst : s.infos.find? CacheInfo.named = some i)
    (hlast : s.infos.reverse.find? CacheInfo.named = some j) (alloc : Alloc) :
    s.getResCache alloc = some (s, some i.cache) ↔ j.ifname = i.ifname := by
  have hinv := reachable_inv h
  have hi := mem_of_find?_eq_some hfirst
  have hused := usedIfname_of_last hd hlast
  obtain ⟨a, ha⟩ := isSome_iff_exists.1
    (findNamedCache_isSome (mem_reverse.1 (mem_of_find?_eq_some hlast)))
  rw [← hused] at ha
  rw [getResCache_found ha]
  obtain ⟨k, hk, hkname, hkcache⟩ := findNamedCache_eq_some ha
  constructor
  · intro heq
    have hcache : a = i.cache := by simpa using heq
    rw [← hinv.eq_of_cache hk hi (hkcache.trans hcache), hkname, hused]
  · intro hname
    -- no record before the first one with a name has this name
    have hfind : s.findNamedCache (some s.usedIfname) = some i.cache := by
      obtain ⟨l₁, l₂, hl, hbefore⟩ := (find?_eq_some_iff_append.1 hfirst).2
      show (s.infos.find? _).map _ = _
      rw [hused, hname, hl, find?_append]
      have hnone : l₁.find? (fun k => decide (k.ifname = i.ifname)) = none := by
        rw [find?_eq_none]
        intro k hk hkname
        have hnamed : k.named = true := by
          rw [CacheInfo.named_iff, of_decide_eq_true hkname]
          exact CacheInfo.named_iff.1 (find?_some hfirst)
        simpa [hnamed] using hbefore k hk
      have hself : decide (i.ifname = i.ifname) = true := decide_eq_true rfl
      rw [hnone, find?_cons, hself]
      rfl
    rw [ha] at hfind
    rw [Option.some.inj hfind]

end

end Resolv.Iface
