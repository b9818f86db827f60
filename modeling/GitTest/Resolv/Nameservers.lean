import GitTest.Resolv.Interfaces

/-!
# The name servers of an interface (res_cache.c)

`_resolv_set_nameservers_for_iface` frees the two arrays of a record and fills them again, one
place per server that `getaddrinfo` accepts; `_resolv_cache_get_nameserver` reads one place of
the record of the default interface.  On the arrays this is what `Interfaces.setNameservers`
does on a list (`fill_free_table`).

A record holds at most `IF_NAMESIZE` bytes of its name and is looked up by the whole name.  So
a longer name gets a new record with every call, of one and the same name, and never servers.

    the records have names of their own ↔ no step collides  (settings_found_iff)
    the servers are found again ↔
      the name fits and has a record or gets one, or they were there already
-/

open Machines

namespace Resolv.Iface

open List Option

/-! ## Algorithm -/

/-- `nameservers` and `nsaddrinfo`, both of `MAXNS + 1` places; `none` is NULL. -/
@[ext] structure NsTable where
  nameservers : Nat → Option Name
  nsaddrinfo : Nat → Option Bytes

namespace NsTable

/-- One place of both arrays. -/
def put (t : NsTable) (i : Nat) (ns : Option Name) (addr : Option Bytes) : NsTable :=
  ⟨Function.update t.nameservers i ns, Function.update t.nsaddrinfo i addr⟩

/-- The loop of `_free_nameservers_locked`, `n` places from `i` on. -/
def freeFrom : Nat → Nat → NsTable → NsTable
  | 0, _, t => t
  | n + 1, i, t => freeFrom n (i + 1) (t.put i none none)

/-- `_free_nameservers_locked`: `i` from 0 to `MAXNS`. -/
def free (t : NsTable) : NsTable := freeFrom (maxNs + 1) 0 t

/-- The loop of `_resolv_set_nameservers_for_iface`: a server that is not accepted leaves
`index` where it is. -/
def fill : List (Name × Option Bytes) → Nat → NsTable → NsTable
  | [], _, t => t
  | (server, some addr) :: servers, index, t =>
    fill servers (index + 1) (t.put index (some server) (some addr))
  | (_, none) :: servers, index, t =>
    fill servers index { t with nsaddrinfo := Function.update t.nsaddrinfo index none }

/-- The arrays that hold a list, from place 0 on. -/
def ofList (l : List (Name × Bytes)) : NsTable where
  nameservers := fun n => (l[n]?).map Prod.fst
  nsaddrinfo := fun n => (l[n]?).map Prod.snd

end NsTable

def CacheInfo.table (i : CacheInfo) : NsTable := .ofList i.nameservers

/-- What is returned for a server, and what is written to `addr` if anything. -/
def copyServer (ns : Option Name) (addrLen : Int) : Nat × Option Name :=
  match ns with
  | none => (0, none)
  | some ns => if (ns.length : Int) < addrLen then (ns.length, some ns) else (0, none)

namespace Interfaces
variable (s : Interfaces)

/-- `_get_nameserver_locked`; `addr` says that the buffer is not NULL. -/
def getNameserverLocked (ifname : Name) (n : Int) (addr : Bool) (addrLen : Int) :
    Nat × Option Name :=
  if n < 1 ∨ n > maxNs ∨ addr = false then (0, none)
  else
    match s.findCacheInfo (some ifname) with
    | none => (0, none)
    | some info => copyServer (info.table.nameservers (n - 1).toNat) addrLen

def cacheGetNameserver (n : Int) (addr : Bool) (addrLen : Int) : Nat × Option Name :=
  s.getNameserverLocked s.defaultIfname n addr addrLen

end Interfaces

/-- The servers among the first `MAXNS` that `getaddrinfo` accepts. -/
def accepted (servers : List (Name × Option Bytes)) : List (Name × Bytes) :=
  (servers.take maxNs).filterMap fun x => x.2.map fun addr => (x.1, addr)

/-! ## The arrays -/

section
open NsTable

theorem accepted_length (servers : List (Name × Option Bytes)) :
    (accepted servers).length ≤ maxNs :=
  Nat.le_trans (length_filterMap_le _ _) (length_take_le _ _)

theorem freeFrom_apply (n i : Nat) (t : NsTable) (j : Nat) :
    (freeFrom n i t).nameservers j = (if i ≤ j ∧ j < i + n then none else t.nameservers j) ∧
    (freeFrom n i t).nsaddrinfo j = if i ≤ j ∧ j < i + n then none else t.nsaddrinfo j := by
  induction n generalizing i t with
  | zero =>
    rw [if_neg (by omega), if_neg (by omega)]
    exact ⟨rfl, rfl⟩
  | succ n ih =>
    obtain ⟨hns, haddr⟩ := ih (i + 1) (t.put i none none)
    rw [freeFrom, hns, haddr]
    simp only [put, Function.update_apply]
    by_cases hj : j = i
    · subst hj
      simp
    · by_cases hin : i + 1 ≤ j ∧ j < i + 1 + n
      · rw [if_pos hin, if_pos hin, if_pos (by omega), if_pos (by omega)]
        exact ⟨rfl, rfl⟩
      · rw [if_neg hin, if_neg hin, if_neg hj, if_neg hj, if_neg (by omega), if_neg (by omega)]
        exact ⟨rfl, rfl⟩

theorem free_ofList {l : List (Name × Bytes)} (h : l.length ≤ maxNs) :
    (ofList l).free = ofList [] := by
  have hplace : ∀ {β : Type} (f : Name × Bytes → β) (j : Nat),
      (if 0 ≤ j ∧ j < 0 + (maxNs + 1) then none else (l[j]?).map f) = none := by
    intro β f j
    split
    · rfl
    · rw [getElem?_eq_none (by omega)]
      rfl
  ext1
  · funext j
    exact (freeFrom_apply _ _ _ j).1.trans (hplace Prod.fst j)
  · funext j
    exact (freeFrom_apply _ _ _ j).2.trans (hplace Prod.snd j)

theorem update_map_getElem? {β : Type} (f : Name × Bytes → β) (l : List (Name × Bytes))
    (x : Name × Bytes) :
    Function.update (fun n => (l[n]?).map f) l.length (some (f x)) =
      fun n => ((l ++ [x])[n]?).map f := by
  funext j
  rw [Function.update_apply]
  by_cases hj : j = l.length
  · rw [if_pos hj, hj, getElem?_concat_length]
    rfl
  · rw [if_neg hj]
    by_cases hlt : j < l.length
    · rw [getElem?_append_left hlt]
    · have hlen : (l ++ [x]).length = l.length + 1 := length_append
      rw [getElem?_eq_none (by omega), getElem?_eq_none (by omega)]

theorem put_ofList (l : List (Name × Bytes)) (server : Name) (addr : Bytes) :
    (ofList l).put l.length (some server) (some addr) = ofList (l ++ [(server, addr)]) := by
  ext1
  · exact update_map_getElem? Prod.fst l (server, addr)
  · exact update_map_getElem? Prod.snd l (server, addr)

theorem fill_ofList (servers : List (Name × Option Bytes)) (l : List (Name × Bytes)) :
    fill servers l.length (ofList l) =
      ofList (l ++ servers.filterMap fun x => x.2.map fun addr => (x.1, addr)) := by
  induction servers generalizing l with
  | nil => rw [fill, filterMap_nil, append_nil]
  | cons x servers ih =>
    obtain ⟨server, addr⟩ := x
    cases addr with
    | some addr =>
      have hlen : (l ++ [(server, addr)]).length = l.length + 1 := length_append
      rw [fill, put_ofList, ← hlen, ih, append_assoc]
      rfl
    | none =>
      -- the place is unused, and NULL already
      have hnull : Function.update (ofList l).nsaddrinfo l.length none = (ofList l).nsaddrinfo := by
        rw [Function.update_eq_self_iff]
        show none = (l[l.length]?).map Prod.snd
        rw [getElem?_eq_none (Nat.le_refl _)]
        rfl
      rw [fill, hnull]
      exact ih l

theorem fill_free_table {i : CacheInfo} (h : i.nameservers.length ≤ maxNs)
    (servers : List (Name × Option Bytes)) :
    fill (servers.take maxNs) 0 i.table.free =
      CacheInfo.table { i with nameservers := accepted servers } := by
  unfold CacheInfo.table
  rw [free_ofList h]
  exact fill_ofList (servers.take maxNs) []

end

/-! ## The records -/

section
variable {s s' : Interfaces}

def Interfaces.names (s : Interfaces) : List Name := s.infos.map CacheInfo.ifname

theorem copyName_length (name : Name) : (copyName name).length ≤ ifNameSize :=
  length_take_le _ _

variable {name : Name} {ifname : Option Name} {alloc : Alloc}

theorem copyName_of_fits (h : name.length ≤ ifNameSize) : copyName name = name :=
  take_of_length_le h

theorem findCacheInfo_isSome_iff :
    (s.findCacheInfo (some name)).isSome = true ↔ name ∈ s.names := by
  show (s.infos.find? fun i => decide (i.ifname = name)).isSome = true ↔ _
  rw [find?_isSome]
  constructor
  · rintro ⟨i, hi, hname⟩
    exact mem_map.2 ⟨i, hi, of_decide_eq_true hname⟩
  · intro h
    obtain ⟨i, hi, hname⟩ := mem_map.1 h
    exact ⟨i, hi, decide_eq_true hname⟩

theorem findCacheInfo_mem {i : CacheInfo} (h : s.findCacheInfo (some name) = some i) :
    i ∈ s.infos := mem_of_find?_eq_some h

/-- What the arrays of a record have room for. -/
structure Fits (s : Interfaces) : Prop where
  default : s.defaultIfname.length ≤ ifNameSize
  ifname : ∀ i ∈ s.infos, i.ifname.length ≤ ifNameSize
  servers : ∀ i ∈ s.infos, i.nameservers.length ≤ maxNs

theorem fits_start : Fits start where
  default := Nat.zero_le _
  ifname := fun _ h => absurd h not_mem_nil
  servers := fun _ h => absurd h not_mem_nil

theorem Fits.insert (hf : Fits s) (name : Name) (cache : Addr) (prop : Option Int) :
    Fits (s.insertCacheInfo name cache prop) := by
  refine ⟨hf.default, ?_, ?_⟩
  · intro i hi
    rcases mem_append.1 hi with hi | hi
    · exact hf.ifname i hi
    · rw [mem_singleton.1 hi]
      exact copyName_length name
  · intro i hi
    rcases mem_append.1 hi with hi | hi
    · exact hf.servers i hi
    · rw [mem_singleton.1 hi]
      exact Nat.zero_le _

theorem Fits.getResCacheForIface (hf : Fits s) {r : Option Addr}
    (h : s.getResCacheForIface ifname alloc = some (s', r)) : Fits s' := by
  rcases getResCacheForIface_cases h with ⟨rfl, -⟩ | ⟨name, cache, prop, -, -, -, -, -, rfl⟩
  · exact hf
  · exact hf.insert name cache prop

theorem mem_updateInfo {f : CacheInfo → CacheInfo} {i : CacheInfo} {infos : List CacheInfo}
    (h : i ∈ Interfaces.updateInfo name f infos) :
    ∃ j ∈ infos, i = j ∨ i = f j := by
  induction infos with
  | nil => exact absurd h not_mem_nil
  | cons j infos ih =>
    unfold Interfaces.updateInfo at h
    split at h
    · rcases mem_cons.1 h with rfl | h
      · exact ⟨j, mem_cons_self, .inr rfl⟩
      · exact ⟨i, mem_cons_of_mem j h, .inl rfl⟩
    · rcases mem_cons.1 h with rfl | h
      · exact ⟨i, mem_cons_self, .inl rfl⟩
      · obtain ⟨k, hk, hik⟩ := ih h
        exact ⟨k, mem_cons_of_mem j hk, hik⟩

theorem Fits.update (hf : Fits s) (ifname : Option Name) {f : CacheInfo → CacheInfo}
    (hname : ∀ i, (f i).ifname = i.ifname)
    (hservers : ∀ i, i.nameservers.length ≤ maxNs → (f i).nameservers.length ≤ maxNs) :
    Fits (s.update ifname f) := by
  cases ifname with
  | none => exact hf
  | some name =>
    refine ⟨hf.default, ?_, ?_⟩
    · intro i hi
      obtain ⟨j, hj, rfl | rfl⟩ := mem_updateInfo hi
      · exact hf.ifname i hj
      · rw [hname]
        exact hf.ifname j hj
    · intro i hi
      obtain ⟨j, hj, rfl | rfl⟩ := mem_updateInfo hi
      · exact hf.servers i hj
      · exact hservers j (hf.servers j hj)

theorem onCache_eq {cache : Addr} {call : Resolv.Call} (h : s.onCache cache call = some s') :
    s'.infos = s.infos ∧ s'.defaultIfname = s.defaultIfname := by
  obtain ⟨c, hc, h⟩ := bind_eq_some_iff.1 h
  obtain ⟨c', hstep, rfl⟩ := map_eq_some_iff.1 h
  exact ⟨rfl, rfl⟩

theorem flushCacheForIface_eq (h : s.flushCacheForIface ifname = some s') :
    s'.infos = s.infos ∧ s'.defaultIfname = s.defaultIfname := by
  unfold Interfaces.flushCacheForIface at h
  split at h
  · cases h
    exact ⟨rfl, rfl⟩
  · exact onCache_eq h

theorem Fits.congr (hf : Fits s) (h : s'.infos = s.infos ∧ s'.defaultIfname = s.defaultIfname) :
    Fits s' := by
  refine ⟨?_, ?_, ?_⟩
  · rw [h.2]
    exact hf.default
  · rw [h.1]
    exact hf.ifname
  · rw [h.1]
    exact hf.servers

theorem Fits.name_of_mem (hf : Fits s) (h : name ∈ s.names) :
    name.length ≤ ifNameSize := by
  obtain ⟨i, hi, rfl⟩ := mem_map.1 h
  exact hf.ifname i hi

theorem getResCacheForIface_effect {r : Option Addr}
    (h : s.getResCacheForIface (some name) alloc = some (s', r)) :
    (s' = s ∧ (name ∈ s.names ∨ alloc = none)) ∨
    ∃ cache prop, name ∉ s.names ∧ alloc = some (cache, prop) ∧
      s' = s.insertCacheInfo name cache prop := by
  have hmem : name ∈ s.names ↔ (s.findNamedCache (some name)).isSome = true := by
    rw [← findCacheInfo_isSome_iff, Interfaces.findNamedCache, isSome_map]
  rcases getResCacheForIface_cases h with
    ⟨rfl, rfl, hfound | hnull | hfail⟩ | ⟨_, cache, prop, hname, halloc, hnone, -, -, rfl⟩
  · exact .inl ⟨rfl, .inl (hmem.2 hfound)⟩
  · cases hnull
  · exact .inl ⟨rfl, .inr hfail⟩
  · cases hname
    refine .inr ⟨cache, prop, ?_, halloc, rfl⟩
    rw [hmem, hnone]
    exact Bool.false_ne_true

/-- The names that `__get_res_cache` and `_resolv_cache_reset` use are stored ones. -/
theorem Fits.usedIfname (hf : Fits s) : s.usedIfname.length ≤ ifNameSize := by
  unfold Interfaces.usedIfname
  split
  · rw [selectIfname_eq]
    cases hlast : s.infos.reverse.find? CacheInfo.named with
    | none => exact hf.default
    | some i => exact hf.ifname i (mem_reverse.1 (mem_of_find?_eq_some hlast))
  · exact hf.default

/-- `_resolv_cache_reset` changes the records as `__get_res_cache` does. -/
theorem cacheReset_eq {generation : UInt32} (h : s.cacheReset generation alloc = some s') :
    ∃ t r, s.getResCacheForIface (some s.usedIfname) alloc = some (t, r) ∧
      s'.infos = t.infos ∧ s'.defaultIfname = t.defaultIfname := by
  obtain ⟨⟨t, r⟩, ht, h⟩ := bind_eq_some_iff.1 h
  refine ⟨t, r, ht, ?_⟩
  cases r with
  | none =>
    cases h
    exact ⟨rfl, rfl⟩
  | some cache => exact onCache_eq h

def CacheInfo.withServers (servers : List (Name × Option Bytes)) (i : CacheInfo) : CacheInfo :=
  { i with nameservers := accepted servers }

theorem setNameservers_eq {servers : List (Name × Option Bytes)}
    (h : s.setNameservers ifname servers alloc = some s') :
    ∃ t r, s.getResCacheForIface ifname alloc = some (t, r) ∧
      s' = t.update ifname (CacheInfo.withServers servers) := by
  obtain ⟨⟨t, r⟩, ht, rfl⟩ := map_eq_some_iff.1 h
  exact ⟨t, r, ht, rfl⟩

theorem fits_step (s : Interfaces) (r : Request) (s' : Interfaces) (hf : Fits s)
    (h : step s r = some s') : Fits s' := by
  cases r with
  | setDefaultIface ifname =>
    cases h
    exact ⟨copyName_length ifname, hf.ifname, hf.servers⟩
  | setNameservers ifname servers alloc =>
    obtain ⟨t, r, ht, rfl⟩ := setNameservers_eq h
    exact (hf.getResCacheForIface ht).update ifname (fun _ => rfl)
      fun _ _ => accepted_length servers
  | setAddr ifname addr =>
    cases h
    exact hf.update ifname (fun _ => rfl) fun _ h => h
  | getResCache alloc =>
    obtain ⟨⟨t, r⟩, ht, rfl⟩ := map_eq_some_iff.1 h
    exact hf.getResCacheForIface ht
  | access cache call => exact hf.congr (onCache_eq h)
  | reset generation alloc =>
    obtain ⟨t, r, ht, heq⟩ := cacheReset_eq h
    exact (hf.getResCacheForIface ht).congr heq
  | flushDefault | flushIface => exact hf.congr (flushCacheForIface_eq h)

end

/-! ## Names of records -/

/-- The step creates a record for a name that does not fit and whose beginning is the name of
a record. -/
def collides (s : Interfaces) : Request → Bool
  | .setNameservers (some name) _ (some _) =>
    decide (ifNameSize < name.length) && (s.findCacheInfo (some (copyName name))).isSome
  | _ => false

section
variable {s s' : Interfaces}

theorem names_update (ifname : Option Name) {f : CacheInfo → CacheInfo}
    (hf : ∀ i, (f i).ifname = i.ifname) : (s.update ifname f).names = s.names := by
  cases ifname with
  | none => rfl
  | some name =>
    show (Interfaces.updateInfo name f s.infos).map CacheInfo.ifname = s.infos.map CacheInfo.ifname
    induction s.infos with
    | nil => rfl
    | cons i infos ih =>
      unfold Interfaces.updateInfo
      split
      · rw [map_cons, map_cons, hf]
      · rw [map_cons, map_cons, ih]

theorem names_insert (name : Name) (cache : Addr) (prop : Option Int) :
    (s.insertCacheInfo name cache prop).names = s.names ++ [copyName name] := map_append

theorem names_eq (h : s'.infos = s.infos) : s'.names = s.names := by
  unfold Interfaces.names
  rw [h]

/-- What one step does to the names: at most one is added, and it is one of those before exactly
if the step collides. -/
inductive NamesEffect (s : Interfaces) (r : Request) (s' : Interfaces) : Prop
  | same : s'.names = s.names → collides s r = false → NamesEffect s r s'
  | added (name : Name) : s'.names = s.names ++ [name] →
      (name ∈ s.names ↔ collides s r = true) → NamesEffect s r s'

/-- A name in use fits, so it is added as it is if it is not there. -/
theorem namesEffect_used (hf : Fits s) {t : Interfaces} {alloc : Alloc} {o : Option Addr}
    (ht : s.getResCacheForIface (some s.usedIfname) alloc = some (t, o)) (h : s'.infos = t.infos)
    {r : Request} (hc : collides s r = false) : NamesEffect s r s' := by
  have heq : s'.names = t.names := names_eq h
  rcases getResCacheForIface_effect ht with ⟨rfl, -⟩ | ⟨cache, prop, hnew, -, rfl⟩
  · exact .same heq hc
  · rw [names_insert, copyName_of_fits hf.usedIfname] at heq
    refine .added s.usedIfname heq ?_
    rw [hc]
    exact ⟨fun h => absurd h hnew, fun h => absurd h Bool.false_ne_true⟩

theorem namesEffect_setNameservers (hf : Fits s) {ifname : Option Name}
    {servers : List (Name × Option Bytes)} {alloc : Alloc}
    (h : s.setNameservers ifname servers alloc = some s') :
    NamesEffect s (.setNameservers ifname servers alloc) s' := by
  obtain ⟨t, o, ht, rfl⟩ := setNameservers_eq h
  have hnames : (t.update ifname (CacheInfo.withServers servers)).names = t.names :=
    names_update ifname fun _ => rfl
  cases ifname with
  | none =>
    cases ht
    exact .same hnames rfl
  | some name =>
    rcases getResCacheForIface_effect ht with ⟨rfl, hcond⟩ | ⟨cache, prop, hnew, rfl, rfl⟩
    · refine .same hnames ?_
      cases alloc with
      | none => rfl
      | some _ =>
        have hfit := hf.name_of_mem (hcond.resolve_right (some_ne_none _))
        unfold collides
        rw [Bool.and_eq_false_iff, decide_eq_false_iff_not]
        exact .inl (by omega)
    · rw [names_insert] at hnames
      refine .added (copyName name) hnames ?_
      unfold collides
      rw [Bool.and_eq_true, decide_eq_true_iff, findCacheInfo_isSome_iff]
      constructor
      · intro hmem
        refine ⟨?_, hmem⟩
        -- a name that fits was looked up as it is stored
        by_contra hfit
        rw [copyName_of_fits (by omega)] at hmem
        exact hnew hmem
      · exact fun h => h.2

theorem step_names (hf : Fits s) {r : Request} (h : step s r = some s') : NamesEffect s r s' := by
  cases r with
  | setDefaultIface ifname =>
    cases h
    exact .same rfl rfl
  | setNameservers ifname servers alloc => exact namesEffect_setNameservers hf h
  | setAddr ifname addr =>
    cases h
    exact .same (names_update ifname fun _ => rfl) rfl
  | getResCache alloc =>
    obtain ⟨⟨t, o⟩, ht, rfl⟩ := map_eq_some_iff.1 h
    exact namesEffect_used hf ht rfl rfl
  | access cache call => exact .same (names_eq (onCache_eq h).1) rfl
  | reset generation alloc =>
    obtain ⟨t, o, ht, heq, -⟩ := cacheReset_eq h
    exact namesEffect_used hf ht heq rfl
  | flushDefault | flushIface => exact .same (names_eq (flushCacheForIface_eq h).1) rfl

theorem run_names_nodup_iff {rs : List Request} (h : machine.run start rs = some s) :
    s.names.Nodup ↔ machine.runIf (fun s r => collides s r = false) start rs = some s := by
  refine Machine.run_keeps_iff (I := Fits) (P := fun s => s.names.Nodup) fits_step ?_ ?_
    fits_start nodup_nil h
  · intro s r s' hf hnodup hs
    rcases step_names hf hs with ⟨heq, hc⟩ | ⟨name, heq, hc⟩
    · show s'.names.Nodup ↔ collides s r = false
      rw [heq, hc]
      exact ⟨fun _ => rfl, fun _ => hnodup⟩
    · show s'.names.Nodup ↔ collides s r = false
      rw [heq, nodup_append, ← Bool.not_eq_true, ← hc]
      constructor
      · rintro ⟨-, -, hdis⟩ hmem
        exact hdis name hmem name (mem_singleton.2 rfl) rfl
      · intro hnew
        refine ⟨hnodup, nodup_singleton _, ?_⟩
        rintro a ha b hb rfl
        rw [mem_singleton.1 hb] at ha
        exact hnew ha
  · intro s r s' hf hs hnodup
    rcases step_names hf hs with ⟨heq, -⟩ | ⟨name, heq, -⟩
    · rw [heq] at hnodup
      exact hnodup
    · rw [heq] at hnodup
      exact (nodup_append.1 hnodup).1

end

/-! ## Servers of the default interface -/

def serversUnder (s : Interfaces) (name : Name) : List (Name × Bytes) :=
  ((s.findCacheInfo (some name)).map CacheInfo.nameservers).getD []

/-- `_resolv_cache_get_nameserver` gives these servers, the first for 1 and so on. -/
def Yields (s : Interfaces) (servers : List (Name × Bytes)) : Prop :=
  ∀ (k : Nat) (addrLen : Int), s.cacheGetNameserver (k + 1) true addrLen =
    copyServer ((servers[k]?).map Prod.fst) addrLen

section
variable {s s' : Interfaces}

theorem copyServer_injective {a b : Option Name}
    (h : ∀ addrLen, copyServer a addrLen = copyServer b addrLen) : a = b := by
  have hroom : ∀ (o : Option Name) (n : Int), (∀ ns, o = some ns → (ns.length : Int) < n) →
      (copyServer o n).2 = o := by
    intro o n hn
    cases o with
    | none => rfl
    | some ns =>
      rw [copyServer, if_pos (hn ns rfl)]
  have hlen : ∃ n : Int, (∀ ns, a = some ns → (ns.length : Int) < n) ∧
      ∀ ns, b = some ns → (ns.length : Int) < n := by
    refine ⟨(a.getD []).length + (b.getD []).length + 1, ?_, ?_⟩
    · rintro ns rfl
      simp only [getD_some]
      omega
    · rintro ns rfl
      simp only [getD_some]
      omega
  obtain ⟨n, ha, hb⟩ := hlen
  rw [← hroom a n ha, ← hroom b n hb, h n]

theorem Fits.serversUnder (hf : Fits s) (name : Name) : (serversUnder s name).length ≤ maxNs := by
  unfold Iface.serversUnder
  cases hfind : s.findCacheInfo (some name) with
  | none => exact Nat.zero_le _
  | some i => exact hf.servers i (findCacheInfo_mem hfind)

theorem cacheGetNameserver_eq (hf : Fits s) (k : Nat) (addrLen : Int) :
    s.cacheGetNameserver (k + 1) true addrLen =
      copyServer (((serversUnder s s.defaultIfname)[k]?).map Prod.fst) addrLen := by
  have hlen := hf.serversUnder s.defaultIfname
  unfold Interfaces.cacheGetNameserver Interfaces.getNameserverLocked
  by_cases hk : maxNs ≤ k
  · rw [if_pos (.inr (.inl (by omega))), getElem?_eq_none (by omega)]
    rfl
  · rw [if_neg (by simp only [Bool.true_eq_false, or_false]; omega)]
    unfold Iface.serversUnder
    have hindex : ((k : Int) + 1 - 1).toNat = k := by omega
    rw [hindex]
    cases s.findCacheInfo (some s.defaultIfname) with
    | none => rfl
    | some i => rfl

theorem yields_iff (hf : Fits s) (servers : List (Name × Bytes)) :
    Yields s servers ↔
      (serversUnder s s.defaultIfname).map Prod.fst = servers.map Prod.fst := by
  unfold Yields
  simp only [cacheGetNameserver_eq hf, ← getElem?_map]
  constructor
  · intro h
    apply ext_getElem?
    intro k
    exact copyServer_injective (h k)
  · intro h k addrLen
    rw [h]

theorem find?_updateInfo {f : CacheInfo → CacheInfo} (hf : ∀ i, (f i).ifname = i.ifname)
    (name n : Name) (infos : List CacheInfo) :
    (Interfaces.updateInfo name f infos).find? (fun i => decide (i.ifname = n)) =
      (infos.find? fun i => decide (i.ifname = n)).map fun i => if n = name then f i else i := by
  induction infos with
  | nil => rfl
  | cons i infos ih =>
    unfold Interfaces.updateInfo
    by_cases hname : i.ifname = name
    · rw [if_pos hname, find?_cons, hf i]
      by_cases hn : i.ifname = n
      · simp [hn, hn.symm.trans hname]
      · -- the record that changes is not the one that is looked for
        have hne : n ≠ name := fun h => hn (hname.trans h.symm)
        simp [hn, hne]
    · rw [if_neg hname]
      by_cases hn : i.ifname = n
      · have hne : n ≠ name := fun h => hname (hn.trans h)
        simp [hn, hne]
      · simpa [hn] using ih

theorem findCacheInfo_withServers (name : Name) (servers : List (Name × Option Bytes)) (n : Name) :
    (s.update (some name) (CacheInfo.withServers servers)).findCacheInfo (some n) =
      (s.findCacheInfo (some n)).map fun i => if n = name then i.withServers servers else i :=
  find?_updateInfo (f := CacheInfo.withServers servers) (fun _ => rfl) name n s.infos

variable {name : Name} {alloc : Alloc}

theorem serversUnder_update_self (h : name ∈ s.names) (servers : List (Name × Option Bytes)) :
    serversUnder (s.update (some name) (CacheInfo.withServers servers)) name =
      accepted servers := by
  obtain ⟨i, hi⟩ := isSome_iff_exists.1 (findCacheInfo_isSome_iff.2 h)
  unfold Iface.serversUnder
  rw [findCacheInfo_withServers, hi]
  simp [CacheInfo.withServers]

theorem serversUnder_update_other {n : Name} (h : ¬ (n = name ∧ name ∈ s.names))
    (servers : List (Name × Option Bytes)) :
    serversUnder (s.update (some name) (CacheInfo.withServers servers)) n = serversUnder s n := by
  unfold Iface.serversUnder
  rw [findCacheInfo_withServers]
  by_cases hn : n = name
  · subst hn
    have hnone : s.findCacheInfo (some n) = none := by
      rw [← not_isSome_iff_eq_none, findCacheInfo_isSome_iff]
      exact fun hmem => h ⟨rfl, hmem⟩
    rw [hnone]
    rfl
  · simp [hn]

theorem serversUnder_insert (name : Name) (cache : Addr) (prop : Option Int) (n : Name) :
    serversUnder (s.insertCacheInfo name cache prop) n = serversUnder s n := by
  unfold Iface.serversUnder Interfaces.findCacheInfo Interfaces.insertCacheInfo
  simp only [find?_append]
  cases s.infos.find? fun i => decide (i.ifname = n) with
  | some i => rfl
  | none =>
    rw [find?_singleton]
    split <;> rfl

theorem getResCacheForIface_serversUnder {r : Option Addr}
    (h : s.getResCacheForIface (some name) alloc = some (s', r)) (n : Name) :
    serversUnder s' n = serversUnder s n := by
  rcases getResCacheForIface_effect h with ⟨rfl, -⟩ | ⟨cache, prop, -, -, rfl⟩
  · rfl
  · exact serversUnder_insert name cache prop n

/-- The call has a record to store the servers in. -/
def Stores (s : Interfaces) (name : Name) (alloc : Alloc) : Prop :=
  name.length ≤ ifNameSize ∧ ((s.findCacheInfo (some name)).isSome = true ∨ alloc.isSome = true)

theorem mem_names_getResCacheForIface (hf : Fits s) {r : Option Addr}
    (h : s.getResCacheForIface (some name) alloc = some (s', r)) :
    (copyName name = name ∧ name ∈ s'.names) ↔ Stores s name alloc := by
  unfold Stores
  rw [findCacheInfo_isSome_iff]
  rcases getResCacheForIface_effect h with ⟨rfl, hcond⟩ | ⟨cache, prop, hnew, rfl, rfl⟩
  · constructor
    · rintro ⟨-, hmem⟩
      exact ⟨hf.name_of_mem hmem, .inl hmem⟩
    · rintro ⟨hfit, hmem | halloc⟩
      · exact ⟨copyName_of_fits hfit, hmem⟩
      · refine ⟨copyName_of_fits hfit, hcond.resolve_right ?_⟩
        rintro rfl
        exact Bool.false_ne_true halloc
  · rw [names_insert]
    constructor
    · rintro ⟨heq, -⟩
      refine ⟨?_, .inr rfl⟩
      rw [← heq]
      exact copyName_length name
    · rintro ⟨hfit, -⟩
      refine ⟨copyName_of_fits hfit, ?_⟩
      rw [copyName_of_fits hfit]
      exact mem_append_right _ (mem_singleton.2 rfl)

/-- The servers of a call are the ones the default interface has afterwards. -/
theorem yields_setNameservers_iff (hf : Fits s) {servers : List (Name × Option Bytes)}
    (h : s.setNameservers (some name) servers alloc = some s') :
    Yields (s'.setDefaultIface name) (accepted servers) ↔
      Stores s name alloc ∨
        (serversUnder s (copyName name)).map Prod.fst = (accepted servers).map Prod.fst := by
  have hf' : Fits (s'.setDefaultIface name) :=
    fits_step s' (.setDefaultIface name) _
      (fits_step s (.setNameservers (some name) servers alloc) s' hf h) rfl
  rw [yields_iff hf']
  show (serversUnder s' (copyName name)).map Prod.fst = _ ↔ _
  obtain ⟨t, r, ht, rfl⟩ := setNameservers_eq h
  rw [← mem_names_getResCacheForIface hf ht]
  by_cases hstored : copyName name = name ∧ name ∈ t.names
  · rw [hstored.1, serversUnder_update_self hstored.2]
    exact ⟨fun _ => .inl ⟨rfl, hstored.2⟩, fun _ => rfl⟩
  · rw [serversUnder_update_other hstored, getResCacheForIface_serversUnder ht]
    exact ⟨.inr, fun h => h.resolve_left hstored⟩

/-- In every run the records have names of their own exactly if no step created a record for a
name that does not fit beside one of the same beginning; and the servers of a call are found
again exactly if the name fits and has a record or gets one, or if the record with the beginning
of the name had these servers before. -/
theorem settings_found_iff {rs : List Request} (h : machine.run start rs = some s) :
    ((s.infos.map CacheInfo.ifname).Nodup ↔
      machine.runIf (fun s r => collides s r = false) start rs = some s) ∧
    ∀ name servers alloc s', s.setNameservers (some name) servers alloc = some s' →
      (Yields (s'.setDefaultIface name) (accepted servers) ↔
        (name.length ≤ ifNameSize ∧
          ((s.findCacheInfo (some name)).isSome = true ∨ alloc.isSome = true)) ∨
        (serversUnder s (copyName name)).map Prod.fst = (accepted servers).map Prod.fst) := by
  refine ⟨run_names_nodup_iff h, ?_⟩
  intro name servers alloc s' hset
  exact yields_setNameservers_iff (Machine.run_invariant fits_step fits_start h) hset

def wlan0 : Name := [119, 108, 97, 110, 48]

/-- "wlan0" gets its servers, and then others of which the first is not accepted. -/
theorem settings_found_wlan0 : ∃ s s', machine.run start
      [.setNameservers (some wlan0) [([49], some [1])] (some (1, none))] = some s ∧
    (s.infos.map CacheInfo.ifname).Nodup ∧
    s.setNameservers (some wlan0) [([120], none), ([50], some [2])] none = some s' ∧
    Yields (s'.setDefaultIface wlan0) [([50], [2])] := by
  obtain ⟨s, s', hrun, hrunIf, hset, hfound⟩ : ∃ s s', machine.run start
        [.setNameservers (some wlan0) [([49], some [1])] (some (1, none))] = some s ∧
      machine.runIf (fun s r => collides s r = false) start
        [.setNameservers (some wlan0) [([49], some [1])] (some (1, none))] = some s ∧
      s.setNameservers (some wlan0) [([120], none), ([50], some [2])] none = some s' ∧
      (s.findCacheInfo (some wlan0)).isSome = true := ⟨_, _, rfl, rfl, rfl, rfl⟩
  obtain ⟨hnames, hservers⟩ := settings_found_iff hrun
  exact ⟨s, s', hrun, hnames.2 hrunIf, hset,
    (hservers _ _ _ _ hset).2 (.inl ⟨by decide, .inl hfound⟩)⟩

/-- A name of 17 bytes gets servers twice: there are two records with its first 16 bytes, and
the accepted server is not found. -/
theorem long_name_twice : ∃ s s', machine.run start
      [.setNameservers (some (List.replicate 17 97)) [([49], some [1])] (some (1, none))] = some s ∧
    s.setNameservers (some (List.replicate 17 97)) [([49], some [1])] (some (2, none)) = some s' ∧
    s'.infos.map CacheInfo.ifname = [List.replicate 16 97, List.replicate 16 97] ∧
    ¬ (s'.infos.map CacheInfo.ifname).Nodup ∧
    (s'.setDefaultIface (List.replicate 17 97)).cacheGetNameserver 1 true 16 = (0, none) ∧
    ¬ Yields (s'.setDefaultIface (List.replicate 17 97)) (accepted [([49], some [1])]) := by
  refine ⟨_, _, rfl, rfl, rfl, by decide, rfl, ?_⟩
  intro h
  exact absurd (h 0 16) (by decide)

end

end Resolv.Iface
