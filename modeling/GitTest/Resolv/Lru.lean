import GitTest.Lib.Recency
import GitTest.Resolv.CacheInv
import GitTest.Resolv.Query

/-!
# The resolver cache evicts what was not used for longest (res_cache.c)

The machine of the cache with a clock that counts the calls, and for each address the reading
of the clock at the last use of the entry there.  A use is the add that inserted the entry,
or a lookup that returned `RESOLV_CACHE_FOUND` for it.  The MRU ring is in the order of last
use in every reachable state; so an add that evicts takes the entry whose last use is the
oldest (`lru_order`).

An add evicts before it knows whether there is anything to store.  `add_frame_iff` says when
an add that stores nothing leaves the cache as it was.
-/

namespace Resolv

open Function Links List Machines Option Recency

/-! ## Which entry a query finds -/

theorem entryEquals_iff {e1 e2 : Entry} : entryEquals e1 e2 = true ↔
    e1.query.length = e2.query.length ∧ isEqualQuery e1.query e2.query = true := by
  unfold entryEquals
  by_cases h : e1.query.length = e2.query.length
  · simp [h]
  · simp [h]

section
variable {c : Cache} {ring : List Addr} {chain : Nat → List Addr} {query : Bytes} {a b : Addr}
  {e e' : Entry}

/-- Entries that match one query are equal queries, so there is at most one. -/
theorem WellFormed.hit_unique (h : WellFormed c ring chain) (hcheck : checkQuery query = true)
    (ha : HitAt c query a e) (hb : HitAt c query b e') : a = b ∧ e = e' := by
  obtain ⟨ha, hash, hequal⟩ := ha
  obtain ⟨hb, hash', hequal'⟩ := hb
  obtain ⟨hlen, heq⟩ := entryEquals_iff.1 hequal
  obtain ⟨hlen', heq'⟩ := entryEquals_iff.1 hequal'
  have hacc := (h.accepted a e ha).1
  have hacc' := (h.accepted b e' hb).1
  rw [isEqualQuery_comm] at heq'
  have hq := ((isEqualQuery_iff hacc hcheck).1 heq).trans ((isEqualQuery_iff hcheck hacc').1 heq')
  have hsame : entryEquals e e' = true :=
    entryEquals_iff.2 ⟨hlen.trans hlen'.symm, (isEqualQuery_iff hacc hacc').2 hq⟩
  have hab : a = b := h.distinct a b e e' ha hb (hash.trans hash'.symm) hsame
  subst hab
  exact ⟨rfl, Option.some.inj (ha.symm.trans hb)⟩

/-- The address in the slot that `_cache_lookup_p` returns for a query. -/
def entryAt (c : Cache) (query : Bytes) : Option Addr :=
  (entryInitKey query).bind fun key => (cacheLookupP c key).bind fun lookup =>
    (loadSlot c lookup).join

theorem WellFormed.entryAt_eq (h : WellFormed c ring chain) (hcheck : checkQuery query = true)
    (ha : HitAt c query a e) : entryAt c query = some a := by
  unfold entryAt entryInitKey
  rw [if_pos hcheck]
  show (cacheLookupP c (queryKey query)).bind _ = _
  rcases h.lookupP_spec (queryKey query) with ⟨pre, b, post, e', hc, hb, hm, hl⟩ | ⟨hmiss, -⟩
  · have hba := (h.hit_unique hcheck ⟨hb, hm⟩ ha).1
    have hload := h.loadSlot_after (h.index_lt (queryKey query)) hc
    rw [hl, bind_some, hload, hba]
    rfl
  · exact absurd ha.2 (hmiss a e ha.1)

end

/-! ## The clock -/

structure Timed where
  state : State
  lastUse : Addr → Nat
  clock : Nat

/-- The entry that a call uses: the one that a lookup returns `RESOLV_CACHE_FOUND` for, or the one
that an add inserts. -/
def usedBy (c c' : Cache) : Call → Option Addr
  | .lookup query answersize now =>
    if ((resolvCacheLookup c query answersize now).map fun r => r.2.status) = some .found then
      entryAt c query
    else none
  | .add _ _ _ (some a) => if (c'.node a).isSome ∧ c'.node a ≠ c.node a then some a else none
  | .add _ _ _ none | .flush | .reset _ => none

/-- The stamps after a call that used the entry at an address, or none. -/
def stamp (lastUse : Addr → Nat) (clock : Nat) : Option Addr → Addr → Nat
  | none => lastUse
  | some a => Function.update lastUse a clock

def timedStep (t : Timed) (call : Call) : Option Timed :=
  (step t.state call).map fun s =>
    ⟨s, stamp t.lastUse t.clock (usedBy t.state.cache s.cache call), t.clock + 1⟩

def timedMachine : Machine Timed Call := ⟨fun t => init t.state, timedStep⟩

/-- The clock changes nothing: every state of the cache is reached with it. -/
theorem exists_timed {s : State} (h : machine.Reachable s) :
    ∃ t, timedMachine.Reachable t ∧ t.state = s := by
  refine Machine.Reachable.invariant
    (I := fun s => ∃ t, timedMachine.Reachable t ∧ t.state = s) ?_ ?_ h
  · intro s hs
    exact ⟨⟨s, fun _ => 0, 0⟩, .init hs, rfl⟩
  · rintro s call s' ⟨t, ht, rfl⟩ hs
    have hstep : timedStep t call = some _ := congrArg (Option.map _) hs
    exact ⟨_, ht.step hstep, rfl⟩

/-! ## The order of the ring -/

section
variable {c c' : Cache} {ring ring' : List Addr} {chain : Nat → List Addr} {query : Bytes}
  {lastUse : Addr → Nat} {clock : Nat}

variable {now : TimeT} {answer : Bytes}

theorem LookupEffect.ordered {answersize : Int} {r : LookupResult} (h : WellFormed c ring chain)
    (hrun : resolvCacheLookup c query answersize now = some (c', r))
    (heff : LookupEffect c ring query answersize now c' ring' r) (ho : Ordered lastUse clock ring) :
    Ordered (stamp lastUse clock (usedBy c c' (.lookup query answersize now))) (clock + 1)
      ring' := by
  rw [usedBy, hrun]
  cases heff with
  | refused | missing | short => exact ho.later
  | stale => exact (ho.sublist erase_sublist).later
  | found hcheck hit =>
    rw [h.entryAt_eq hcheck hit]
    exact (ho.sublist erase_sublist).use
      fun hm => ((List.Nodup.mem_erase_iff h.ring_nodup).1 hm).1 rfl

theorem usedBy_add_same {alloc : Option Addr}
    (hsame : ∀ a, (c'.node a).isSome = true → c'.node a = c.node a) :
    usedBy c c' (.add query answer now alloc) = none := by
  cases alloc with
  | none => rfl
  | some a =>
    rw [usedBy, if_neg]
    rintro ⟨hsome, hne⟩
    exact hne (hsame a hsome)

theorem usedBy_add_new {a : Addr} {e : Entry} (hnew : c'.node a = some e)
    (hold : c.node a ≠ some e) :
    usedBy c c' (.add query answer now (some a)) = some a := by
  rw [usedBy, if_pos]
  rw [hnew]
  exact ⟨rfl, Ne.symm hold⟩

theorem Misses.ne_newEntry (hcheck : checkQuery query = true) (hmiss : Misses c query) {a : Addr} :
    c.node a ≠ some (newEntry query answer now) := by
  intro ha
  exact hmiss a _ ha ⟨rfl, entryEquals_iff.2 ⟨rfl, isEqualQuery_refl hcheck⟩⟩

theorem AddEffect.ordered {alloc : Option Addr} (h' : ring'.Nodup)
    (heff : AddEffect c ring query answer now alloc c' ring') (ho : Ordered lastUse clock ring) :
    Ordered (stamp lastUse clock (usedBy c c' (.add query answer now alloc))) (clock + 1)
      ring' := by
  have hinsert : ∀ {c₁ : Cache} {l : List Addr}, checkQuery query = true → Misses c query →
      (∀ a, (c₁.node a).isSome = true → c₁.node a = c.node a) → Ordered lastUse clock l →
      InsertEffect c₁ l query answer now alloc c' ring' →
      Ordered (stamp lastUse clock (usedBy c c' (.add query answer now alloc))) (clock + 1)
        ring' := by
    intro c₁ l hcheck hmiss hsub hol hins
    cases hins with
    | declined =>
      rw [usedBy_add_same hsub]
      exact hol.later
    | stored _ halloc _ hnode =>
      subst halloc
      rw [usedBy_add_new (by rw [hnode, update_self])
        (hmiss.ne_newEntry hcheck)]
      exact hol.use (nodup_cons.1 h').1
  cases heff with
  | refused | present =>
    rw [usedBy_add_same fun _ _ => rfl]
    exact ho.later
  | room hcheck hmiss _ hins => exact hinsert hcheck hmiss (fun _ _ => rfl) ho hins
  | @full l x c₁ _ _ hcheck hmiss _ hring hnode hins =>
    subst hring
    refine hinsert hcheck hmiss ?_ (ho.sublist (sublist_append_left l [x])) hins
    intro a ha
    obtain ⟨e, he⟩ := isSome_iff_exists.1 ha
    rw [he]
    exact (node_removed.1 (hnode ▸ he)).1.symm

end

def Ordering (t : Timed) : Prop :=
  ∃ ring chain, WellFormed t.state.cache ring chain ∧ Ordered t.lastUse t.clock ring

theorem ordering_step {t t' : Timed} {call : Call} (h : Ordering t)
    (hs : timedStep t call = some t') : Ordering t' := by
  obtain ⟨ring, chain, hwf, ho⟩ := h
  obtain ⟨s', hs', rfl⟩ := map_eq_some_iff.1 hs
  obtain ⟨ring', chain', hwf', heff⟩ := step_effect hwf hs'
  refine ⟨ring', chain', hwf', ?_⟩
  show Ordered (stamp _ _ (usedBy _ s'.cache _)) _ ring'
  have hnodup := hwf'.ring_nodup
  generalize s'.cache = c' at heff ⊢
  cases heff with
  | lookup hrun heff => exact heff.ordered hwf hrun ho
  | add heff => exact heff.ordered hnodup ho
  | flush | reset => exact ordered_nil
  | sameGeneration => exact ho.later

theorem ordering {t : Timed} (h : timedMachine.Reachable t) : Ordering t := by
  refine h.invariant ?_ (fun _ _ _ => ordering_step)
  rintro t ⟨⟨prop, hc⟩, -⟩
  exact ⟨[], fun _ => [], hc ▸ wellFormed_create prop, ordered_nil⟩

/-! ### Eviction -/

section
variable {c c' : Cache} {ring ring' : List Addr} {query answer : Bytes} {now : TimeT}
  {alloc : Option Addr}

theorem InsertEffect.keeps (h : InsertEffect c ring query answer now alloc c' ring') {a : Addr}
    {e : Entry} (he : c.node a = some e) : c'.node a = some e := by
  cases h with
  | declined => exact he
  | @stored b _ _ _ hfree hnode =>
    have hab : a ≠ b := by
      rintro rfl
      cases hfree.symm.trans he
    rw [hnode, update_of_ne hab]
    exact he

theorem AddEffect.evicted (h : AddEffect c ring query answer now alloc c' ring') {x : Addr}
    {e : Entry} (hx : c.node x = some e) (hgone : c'.node x ≠ some e) :
    c.numEntries ≥ c.maxEntries ∧ ∃ l, ring = l ++ [x] := by
  cases h with
  | refused | present => exact absurd hx hgone
  | room _ _ _ hins => exact absurd (hins.keeps hx) hgone
  | @full l y c₁ _ _ _ _ hfull hring hnode hins =>
    by_cases hxy : x = y
    · subst hxy
      exact ⟨hfull, l, hring⟩
    · refine absurd (hins.keeps ?_) hgone
      rw [hnode, update_of_ne hxy]
      exact hx

end

/-- In every run the ring lists the entries in the order of their last use, and an entry that an
add removes is the one whose last use is the oldest. -/
theorem lru_order {t : Timed} (h : timedMachine.Reachable t) :
    (∃ ring : List Addr,
      Ring Ref.header t.state.cache.mruNext t.state.cache.mruPrev (ring.map Ref.entry) ∧
      (∀ a, a ∈ ring ↔ ∃ e, t.state.cache.node a = some e) ∧
      ring.Pairwise fun a b => t.lastUse b < t.lastUse a) ∧
    ∀ query answer now alloc t', timedStep t (.add query answer now alloc) = some t' →
      ∀ x e, t.state.cache.node x = some e → t'.state.cache.node x ≠ some e →
        ∀ b e', t.state.cache.node b = some e' → b ≠ x → t.lastUse x < t.lastUse b := by
  obtain ⟨ring, chain, hwf, ho⟩ := ordering h
  refine ⟨⟨ring, hwf.ring_ok, hwf.ring_mem, ho.sorted⟩, ?_⟩
  intro query answer now alloc t' hs x e hx hgone b e' hb hbx
  obtain ⟨s', hs', rfl⟩ := map_eq_some_iff.1 hs
  obtain ⟨ring', chain', -, heff⟩ := step_effect hwf hs'
  cases heff with
  | add heff =>
    obtain ⟨-, l, rfl⟩ := heff.evicted hx hgone
    refine ho.oldest ?_
    have hmem := (hwf.ring_mem b).2 ⟨e', hb⟩
    rcases mem_append.1 hmem with hmem | hmem
    · exact hmem
    · exact absurd (mem_singleton.1 hmem) hbx

/-- Two entries fit.  The first one is used again by a lookup, so the third add evicts the second. -/
theorem lru_order_second_evicted :
    ∃ t t', timedMachine.run ⟨⟨resolvCacheCreate (some 2), [], false⟩, fun _ => 0, 0⟩
        [.add exampleQuery exampleAnswer 100 (some 7),
         .add (exampleQuery.set 13 98) exampleAnswer 101 (some 8),
         .lookup exampleQuery 512 102] = some t ∧
      timedStep t (.add (exampleQuery.set 13 99) exampleAnswer 103 (some 9)) = some t' ∧
      t'.state.cache.node 8 = none ∧ t.lastUse 8 < t.lastUse 7 := by
  have hrun : ((timedMachine.run ⟨⟨resolvCacheCreate (some 2), [], false⟩, fun _ => 0, 0⟩
        [.add exampleQuery exampleAnswer 100 (some 7),
         .add (exampleQuery.set 13 98) exampleAnswer 101 (some 8),
         .lookup exampleQuery 512 102]).bind fun t =>
      (timedStep t (.add (exampleQuery.set 13 99) exampleAnswer 103 (some 9))).map fun t' =>
        ((t.state.cache.node 7).isSome, (t.state.cache.node 8).isSome, t'.state.cache.node 8)) =
      some (true, true, none) := by decide +kernel
  obtain ⟨t, ht, hstep⟩ := bind_eq_some_iff.1 hrun
  obtain ⟨t', ht', hnodes⟩ := map_eq_some_iff.1 hstep
  obtain ⟨h7, h8, hgone⟩ : (t.state.cache.node 7).isSome = true ∧
      (t.state.cache.node 8).isSome = true ∧ t'.state.cache.node 8 = none := by
    simpa only [Prod.mk.injEq] using hnodes
  obtain ⟨e7, h7⟩ := isSome_iff_exists.1 h7
  obtain ⟨e8, h8⟩ := isSome_iff_exists.1 h8
  have hr : timedMachine.Reachable t :=
    Machine.Reachable.run (.init ⟨⟨some 2, rfl⟩, rfl, rfl⟩) _ ht
  refine ⟨t, t', ht, ht', hgone, ?_⟩
  exact (lru_order hr).2 _ _ _ _ t' ht' 8 e8 h8 (by rw [hgone]; exact nofun) 7 e7 h7 (by decide)

/-! ## An add that stores nothing -/

/-- The entries with their answers and times, and the order of the ring. -/
structure SameContents (c c' : Cache) : Prop where
  entries : ∀ a, c'.node a = c.node a
  order : ∀ ring, Ring Ref.header c'.mruNext c'.mruPrev ring ↔
    Ring Ref.header c.mruNext c.mruPrev ring

theorem SameContents.refl (c : Cache) : SameContents c c := ⟨fun _ => rfl, fun _ => Iff.rfl⟩

def Inserts (c c' : Cache) : Prop := ∃ a e, c'.node a = some e ∧ c.node a ≠ some e

/-- A full cache is about to lose its oldest entry for an answer that is not stored. -/
def EvictsForNothing (c : Cache) (query answer : Bytes) (alloc : Option Addr) : Prop :=
  checkQuery query = true ∧ Misses c query ∧ c.numEntries ≥ c.maxEntries ∧
    (answerGetTTL answer = 0 ∨ alloc = none)

theorem Misses.inserts {c c' : Cache} {query answer : Bytes} {now : TimeT}
    {node : Addr → Option Entry} {a : Addr} (hmiss : Misses c query)
    (hcheck : checkQuery query = true)
    (hnode : c'.node = update node a (some (newEntry query answer now))) :
    Inserts c c' := by
  refine ⟨a, newEntry query answer now, ?_, hmiss.ne_newEntry hcheck⟩
  rw [hnode, update_self]

/-- In every reachable state: an add that inserts no entry leaves the cache as it was, exactly if
it does not evict an entry for nothing. -/
theorem add_frame_iff {s s' : State} (h : machine.Reachable s) {query answer : Bytes} {now : TimeT}
    {alloc : Option Addr} (hs : step s (.add query answer now alloc) = some s') :
    (¬ Inserts s.cache s'.cache → SameContents s.cache s'.cache) ↔
      ¬ EvictsForNothing s.cache query answer alloc := by
  obtain ⟨⟨ring, chain, hwf⟩, -⟩ := h.invariant inv_init inv_step
  obtain ⟨ring', chain', -, heff⟩ := step_effect hwf hs
  generalize s'.cache = c' at heff
  cases heff with
  | add heff =>
    cases heff with
    | refused hcheck =>
      refine iff_of_true (fun _ => .refl _) ?_
      rintro ⟨hcheck', -⟩
      rw [hcheck] at hcheck'
      cases hcheck'
    | present _ hit =>
      refine iff_of_true (fun _ => .refl _) ?_
      rintro ⟨-, hmiss, -⟩
      exact hmiss _ _ hit.1 hit.2
    | room hcheck hmiss hroom hins =>
      refine iff_of_true ?_ (fun hnothing => absurd hnothing.2.2.1 (by omega))
      intro hno
      cases hins with
      | declined => exact .refl _
      | stored _ _ _ hnode => exact absurd (hmiss.inserts hcheck hnode) hno
    | @full l x c₁ _ _ hcheck hmiss hfull hring hnode hins =>
      cases hins with
      | declined hnothing =>
        -- the oldest entry is gone, and nothing is new
        refine iff_of_false ?_ (not_not.2 ⟨hcheck, hmiss, hfull, hnothing⟩)
        intro hsame
        have hno : ¬ Inserts s.cache c' := by
          rintro ⟨a, e, he, hne⟩
          exact hne (node_removed.1 (hnode ▸ he)).1
        obtain ⟨e, he⟩ := (hwf.ring_mem x).1 (by rw [hring]; simp)
        have hkept := (hsame hno).entries x
        rw [hnode, update_self, he] at hkept
        cases hkept
      | stored httl halloc _ hnode' =>
        refine iff_of_true (fun hno => absurd (hmiss.inserts hcheck hnode') hno) ?_
        rintro ⟨-, -, -, hzero | hnone⟩
        · rw [hzero] at httl
          exact absurd httl (by decide)
        · rw [hnone] at halloc
          cases halloc

/-- A cache of one entry that is left alone: the second answer has no records to keep it for, but
the cache has room. -/
theorem add_frame_with_room :
    ∃ s s', machine.run ⟨resolvCacheCreate (some 2), [], false⟩
        [.add exampleQuery exampleAnswer 100 (some 7)] = some s ∧
      step s (.add (exampleQuery.set 13 98) [] 101 (some 8)) = some s' ∧
      (¬ Inserts s.cache s'.cache → SameContents s.cache s'.cache) := by
  have hrun : ((machine.run ⟨resolvCacheCreate (some 2), [], false⟩
        [.add exampleQuery exampleAnswer 100 (some 7)]).bind fun s =>
      (step s (.add (exampleQuery.set 13 98) [] 101 (some 8))).map fun _ =>
        (s.cache.numEntries, s.cache.maxEntries)) = some (1, 2) := by decide +kernel
  obtain ⟨s, hs, hstep⟩ := bind_eq_some_iff.1 hrun
  obtain ⟨s', hs', hcount⟩ := map_eq_some_iff.1 hstep
  obtain ⟨hnum, hmax⟩ : s.cache.numEntries = 1 ∧ s.cache.maxEntries = 2 := by
    simpa only [Prod.mk.injEq] using hcount
  have hr : machine.Reachable s := Machine.Reachable.run (.init ⟨⟨some 2, rfl⟩, rfl, rfl⟩) _ hs
  refine ⟨s, s', hs, hs', (add_frame_iff hr hs').2 ?_⟩
  rintro ⟨-, -, hfull, -⟩
  omega

/-- A full cache of one entry.  The answer to another query has TTL 0: it is not stored, and the
entry is gone. -/
theorem add_evicts_for_nothing :
    ∃ s s', machine.run ⟨resolvCacheCreate (some 1), [], false⟩
        [.add exampleQuery exampleAnswer 100 (some 7)] = some s ∧
      step s (.add (exampleQuery.set 13 98) ((exampleAnswer.set 27 0).set 28 0) 101 (some 8)) =
        some s' ∧
      s.cache.numEntries = 1 ∧ s'.cache.numEntries = 0 ∧
      ¬ (¬ Inserts s.cache s'.cache → SameContents s.cache s'.cache) := by
  have hrun : ((machine.run ⟨resolvCacheCreate (some 1), [], false⟩
        [.add exampleQuery exampleAnswer 100 (some 7)]).bind fun s =>
      (step s (.add (exampleQuery.set 13 98) ((exampleAnswer.set 27 0).set 28 0) 101
        (some 8))).map fun s' => (s.cache.numEntries, s'.cache.numEntries)) = some (1, 0) := by
    decide +kernel
  obtain ⟨s, hs, hstep⟩ := bind_eq_some_iff.1 hrun
  obtain ⟨s', hs', hcount⟩ := map_eq_some_iff.1 hstep
  obtain ⟨hnum, hnum'⟩ : s.cache.numEntries = 1 ∧ s'.cache.numEntries = 0 := by
    simpa only [Prod.mk.injEq] using hcount
  have hr : machine.Reachable s := Machine.Reachable.run (.init ⟨⟨some 1, rfl⟩, rfl, rfl⟩) _ hs
  have hinv : Inv s := hr.invariant inv_init inv_step
  obtain ⟨⟨ring', chain', hwf'⟩, -⟩ := inv_step s _ s' hinv hs'
  obtain ⟨⟨ring, chain, hwf⟩, -⟩ := hinv
  refine ⟨s, s', hs, hs', hnum, hnum', ?_⟩
  -- no entry is left, so none is new, and the one that was there is gone
  have hempty : ∀ a e, s'.cache.node a ≠ some e := by
    intro a e he
    have hmem := (hwf'.ring_mem a).2 ⟨e, he⟩
    rw [length_eq_zero_iff.1 (hwf'.count.symm.trans hnum')] at hmem
    cases hmem
  intro hframe
  have hsame := hframe fun ⟨a, e, he, _⟩ => hempty a e he
  have hne : ring ≠ [] := by
    rintro rfl
    have hzero : s.cache.numEntries = 0 := hwf.count
    omega
  obtain ⟨a, ha⟩ := exists_mem_of_ne_nil ring hne
  obtain ⟨e, he⟩ := (hwf.ring_mem a).1 ha
  exact hempty a e ((hsame.entries a).trans he)

end Resolv
