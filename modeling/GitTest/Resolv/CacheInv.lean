import GitTest.Resolv.Cache
import Mathlib.Data.List.Perm.Subperm

/-!
# The representation invariant of the resolver cache

`WellFormed c ring chain`: the MRU ring of `c` is `ring`, the collision chain of bucket `i`
is `chain i`, and both hold exactly the allocated entries, each once and in the bucket of
its hash; no two entries are equal queries.  Each operation has one lemma that gives its
result and the ring and chains afterwards; so no call fails, no walk runs out of fuel, and
every reachable state is well formed.

    Reachable s → ∃ ring chain, WellFormed s.cache ring chain  (cache_invariant)
-/

namespace Resolv

open Function Links List Machines Option

/-! ## The invariant -/

structure WellFormed (c : Cache) (ring : List Addr) (chain : Nat → List Addr) : Prop where
  max_pos : 0 < c.maxEntries
  ring_ok : Ring Ref.header c.mruNext c.mruPrev (ring.map Ref.entry)
  ring_mem : ∀ a, a ∈ ring ↔ ∃ e, c.node a = some e
  chain_ok : ∀ i < c.maxEntries, Seg c.hlink (c.entries i) (chain i) none
  chain_nodup : ∀ i < c.maxEntries, (chain i).Nodup
  chain_mem : ∀ i < c.maxEntries, ∀ a,
    a ∈ chain i ↔ ∃ e, c.node a = some e ∧ e.hash.toNat % c.maxEntries = i
  count : c.numEntries = ring.length
  bound : c.numEntries ≤ c.maxEntries
  distinct : ∀ a b e e', c.node a = some e → c.node b = some e' → e.hash = e'.hash →
    entryEquals e e' = true → a = b
  accepted : ∀ a e, c.node a = some e → checkQuery e.query = true ∧ e.hash = hashQuery e.query

def Matches (key e : Entry) : Prop := e.hash = key.hash ∧ entryEquals e key = true

theorem entryEquals_refl {e : Entry} (h : checkQuery e.query = true) : entryEquals e e = true := by
  simp [entryEquals, isEqualQuery_refl h]

theorem entryEquals_comm (e1 e2 : Entry) : entryEquals e1 e2 = entryEquals e2 e1 := by
  unfold entryEquals
  rw [isEqualQuery_comm]
  by_cases h : e1.query.length = e2.query.length
  · rw [if_neg (not_not.2 h), if_neg (not_not.2 h.symm)]
  · rw [if_pos h, if_pos (Ne.symm h)]

section
variable {c : Cache} {ring : List Addr} {chain : Nat → List Addr}

theorem WellFormed.ring_nodup (h : WellFormed c ring chain) : ring.Nodup :=
  List.Nodup.of_map _ (nodup_cons.1 h.ring_ok.nodup).2

variable {a : Addr} {i : Nat} {pre post : List Addr} {r : Ref} {c : Cache} {e : Entry}

section
variable (h : WellFormed c ring chain)
include h

theorem WellFormed.allocated_of_ring (ha : a ∈ ring) :
    c.allocated a = true := by
  obtain ⟨e, he⟩ := (h.ring_mem a).1 ha
  simp [Cache.allocated, he]

theorem WellFormed.allocated_of_chain (hi : i < c.maxEntries) (ha : a ∈ chain i) :
    c.allocated a = true := by
  obtain ⟨e, he, -⟩ := (h.chain_mem i hi a).1 ha
  simp [Cache.allocated, he]

theorem WellFormed.chain_subset (hi : i < c.maxEntries) :
    chain i ⊆ ring := by
  intro a ha
  obtain ⟨e, he, -⟩ := (h.chain_mem i hi a).1 ha
  exact (h.ring_mem a).2 ⟨e, he⟩

theorem WellFormed.chain_length_le (hi : i < c.maxEntries) :
    (chain i).length ≤ c.numEntries := by
  rw [h.count]
  exact (List.Nodup.subperm (h.chain_nodup i hi) (h.chain_subset hi)).length_le

theorem WellFormed.chain_disjoint {j : Nat} (hi : i < c.maxEntries) (hj : j < c.maxEntries)
    (hij : j ≠ i) (ha : a ∈ chain i) : a ∉ chain j := by
  intro ha'
  obtain ⟨e, he, hei⟩ := (h.chain_mem i hi a).1 ha
  obtain ⟨e', he', hej⟩ := (h.chain_mem j hj a).1 ha'
  rw [he] at he'
  cases he'
  exact hij (hej.symm.trans hei)

theorem WellFormed.chains :
    Chains (· < c.maxEntries) c.entries c.hlink chain :=
  ⟨h.chain_ok, h.chain_nodup, fun _ _ hi hj hij _ ha => h.chain_disjoint hi hj hij ha⟩

theorem WellFormed.index_lt (key : Entry) :
    key.hash.toNat % c.maxEntries < c.maxEntries := Nat.mod_lt _ h.max_pos

/-! ## Walks -/

theorem WellFormed.validSlot_after (hi : i < c.maxEntries) (hc : chain i = pre ++ post) :
    c.validSlot (slotAfter i pre) = true := by
  rcases eq_nil_or_concat pre with rfl | ⟨l, a, rfl⟩
  · rfl
  · rw [concat_eq_append, slotAfter_append]
    refine h.allocated_of_chain hi ?_
    rw [hc]
    simp

theorem WellFormed.loadSlot_after (hi : i < c.maxEntries) (hc : chain i = pre ++ post) :
    loadSlot c (slotAfter i pre) = some post.head? := by
  have hseg := h.chain_ok i hi
  rw [hc] at hseg
  obtain ⟨q, hpre, hpost⟩ := seg_append.1 hseg
  rw [loadSlot, if_pos (h.validSlot_after hi hc), load_slotAfter hpre]
  cases post with
  | nil => rw [show q = none from hpost]; rfl
  | cons a post => rw [hpost.1]; rfl

/-- The walk stops at the first entry that matches, or at the end of the chain. -/
theorem WellFormed.lookupLoop_spec (key : Entry) (hi : i < c.maxEntries) (fuel : Nat)
    (pre post : List Addr) (hc : chain i = pre ++ post) (hf : post.length < fuel) :
    (∃ pre' a post' e, chain i = pre' ++ a :: post' ∧ c.node a = some e ∧ Matches key e ∧
      lookupLoop c key fuel (slotAfter i pre) = some (slotAfter i pre')) ∨
    ((∀ b ∈ post, ∀ e, c.node b = some e → ¬ Matches key e) ∧
      lookupLoop c key fuel (slotAfter i pre) = some (slotAfter i (chain i))) := by
  induction fuel generalizing pre post with
  | zero => omega
  | succ fuel ih =>
    have hload := h.loadSlot_after hi hc
    cases post with
    | nil =>
      refine .inr ⟨fun b hb => (by cases hb), ?_⟩
      rw [append_nil] at hc
      simp only [lookupLoop, hload, head?_nil]
      rw [hc]
    | cons a post =>
      obtain ⟨e, he, -⟩ := (h.chain_mem i hi a).1 (by rw [hc]; simp)
      by_cases hm : Matches key e
      · refine .inl ⟨pre, a, post, e, hc, he, hm, ?_⟩
        have hm' : e.hash = key.hash ∧ entryEquals e key = true := hm
        simp only [lookupLoop, hload, head?_cons, he, if_pos hm']
      · have hm' : ¬ (e.hash = key.hash ∧ entryEquals e key = true) := hm
        have hstep : lookupLoop c key (fuel + 1) (slotAfter i pre) =
            lookupLoop c key fuel (slotAfter i (pre ++ [a])) := by
          simp only [lookupLoop, hload, head?_cons, he, if_neg hm', slotAfter_append]
        rw [hstep]
        simp only [length_cons] at hf
        rcases ih (pre ++ [a]) post (by rw [hc]; simp) (by omega) with hfound | ⟨hnone, hend⟩
        · exact .inl hfound
        · refine .inr ⟨?_, hend⟩
          intro b hb e' he'
          rcases mem_cons.1 hb with rfl | hb
          · rw [he] at he'
            cases he'
            exact hm
          · exact hnone b hb e' he'

/-- `_cache_lookup_p` finds an entry that matches the key, or the end of the key's chain and then
there is none in the whole table. -/
theorem WellFormed.lookupP_spec (key : Entry) :
    (∃ pre a post e, chain (key.hash.toNat % c.maxEntries) = pre ++ a :: post ∧
      c.node a = some e ∧ Matches key e ∧
      cacheLookupP c key = some (slotAfter (key.hash.toNat % c.maxEntries) pre)) ∨
    ((∀ b e, c.node b = some e → ¬ Matches key e) ∧
      cacheLookupP c key = some (slotAfter (key.hash.toNat % c.maxEntries)
        (chain (key.hash.toNat % c.maxEntries)))) := by
  have hi := h.index_lt key
  have hlen := h.chain_length_le hi
  rcases h.lookupLoop_spec key hi (c.numEntries + 1) [] _ rfl (by omega) with hf | ⟨hnone, he⟩
  · exact .inl hf
  · refine .inr ⟨?_, he⟩
    intro b e hb hm
    refine hnone b ?_ e hb hm
    exact (h.chain_mem _ hi b).2 ⟨e, hb, by rw [hm.1]⟩

/-! ## The ring operations -/

theorem WellFormed.validRef_next (hr : r ∈ ring.map Ref.entry ∨ r = .header) :
    c.validRef r = true := by
  rcases hr with hr | rfl
  · obtain ⟨a, ha, rfl⟩ := mem_map.1 hr
    exact h.allocated_of_ring ha
  · rfl

end

theorem setNext_eq {v : Ref} (h : c.validRef r = true) :
    setNext c r v = some { c with mruNext := update c.mruNext r v } := if_pos h

theorem setPrev_eq {v : Ref} (h : c.validRef r = true) :
    setPrev c r v = some { c with mruPrev := update c.mruPrev r v } := if_pos h

theorem WellFormed.mruRemove_spec (h : WellFormed c ring chain) (ha : a ∈ ring) :
    ∃ next prev, entryMruRemove c (.entry a) = some { c with mruNext := next, mruPrev := prev } ∧
      Ring Ref.header next prev ((ring.erase a).map Ref.entry) := by
  have hmem : Ref.entry a ∈ ring.map Ref.entry := mem_map_of_mem ha
  obtain ⟨l₁, l₂, hl⟩ := append_of_mem hmem
  have hpath := h.ring_ok.path
  rw [hl] at hpath
  obtain ⟨h₁, h₂⟩ := path_append.1 hpath
  have hprev : c.validRef (c.mruPrev (.entry a)) = true := by
    refine h.validRef_next ?_
    rw [h₁.prev_end]
    rcases mem_cons.1 (getLast_mem (cons_ne_nil Ref.header l₁)) with he | hm
    · exact .inr he
    · exact .inl (by rw [hl]; exact mem_append_left _ hm)
  have hnext : c.validRef (c.mruNext (.entry a)) = true := by
    refine h.validRef_next ?_
    rcases h₂.next_start with hm | he
    · exact .inl (by rw [hl]; exact mem_append_right _ (mem_cons_of_mem _ hm))
    · exact .inr he
  have hr := h.ring_ok.remove hmem
  rw [← map_erase (fun _ _ he => by cases he; rfl)] at hr
  refine ⟨_, _, ?_, hr⟩
  -- the second store reads `e->mru_next` again, which the first one left as it was
  have hsame : update c.mruNext (c.mruPrev (.entry a)) (c.mruNext (.entry a))
      (.entry a) = c.mruNext (.entry a) := by
    rw [update_apply]
    split <;> rfl
  rw [entryMruRemove, setNext_eq hprev, bind_some]
  dsimp only
  rw [hsame, setPrev_eq]
  exact hnext

theorem mruAdd_spec (hr : Ring Ref.header c.mruNext c.mruPrev (ring.map Ref.entry))
    (hlive : ∀ b ∈ ring, c.allocated b = true) (ha : a ∉ ring) (hal : c.allocated a = true) :
    ∃ next prev, entryMruAdd c (.entry a) = some { c with mruNext := next, mruPrev := prev } ∧
      Ring Ref.header next prev ((a :: ring).map Ref.entry) := by
  have hnot : Ref.entry a ∉ Ref.header :: ring.map Ref.entry := by
    intro hm
    rcases mem_cons.1 hm with he | hm
    · cases he
    · obtain ⟨b, hb, he⟩ := mem_map.1 hm
      cases he
      exact ha hb
  have hfirst : c.validRef (c.mruNext .header) = true := by
    rcases hr.path.next_start with hm | he
    · obtain ⟨b, hb, he⟩ := mem_map.1 hm
      rw [← he]
      exact hlive b hb
    · rw [he]
      rfl
  have hent : c.validRef (.entry a) = true := hal
  refine ⟨_, _, ?_, hr.add hnot⟩
  rw [entryMruAdd, setNext_eq hent, bind_some, setPrev_eq, bind_some, setNext_eq,
    bind_some, setPrev_eq]
  · exact hfirst
  · rfl
  · exact hent

/-! ## The table operations -/

theorem storeSlot_eq {pnode : Slot Nat Addr} {v : Option Addr} (h : c.validSlot pnode = true) :
    storeSlot c pnode v = some
      { c with entries := storeHead c.entries v pnode, hlink := storeLink c.hlink v pnode } := if_pos h

theorem node_removed {node : Addr → Option Entry} {b : Addr} :
    update node a none b = some e ↔ node b = some e ∧ b ≠ a := by
  by_cases hba : b = a
  · simp [hba]
  · simp [hba]

theorem node_added {node : Addr → Option Entry} {b : Addr} {e' : Entry} :
    update node a (some e) b = some e' ↔ b = a ∧ e = e' ∨ b ≠ a ∧ node b = some e' := by
  by_cases hba : b = a
  · simp [hba]
  · simp [hba]

section
variable (h : WellFormed c ring chain)
include h

theorem WellFormed.removeP_spec (hi : i < c.maxEntries) (hc : chain i = pre ++ a :: post) :
    ∃ c', cacheRemoveP c (slotAfter i pre) = some c' ∧
      WellFormed c' (ring.erase a) (update chain i (pre ++ post)) ∧
      c'.node = update c.node a none ∧ c'.maxEntries = c.maxEntries ∧
      c'.numEntries = c.numEntries - 1 := by
  have hain : a ∈ chain i := by
    rw [hc]
    simp
  have haring := h.chain_subset hi hain
  have hload := h.loadSlot_after hi hc
  have hvalid := h.validSlot_after hi hc
  obtain ⟨next, prev, hmru, hring⟩ := h.mruRemove_spec haring
  have hrun : cacheRemoveP c (slotAfter i pre) = some { entryFree { c with
        mruNext := next
        mruPrev := prev
        entries := storeHead c.entries (c.hlink a) (slotAfter i pre)
        hlink := storeLink c.hlink (c.hlink a) (slotAfter i pre) } a with
      numEntries := c.numEntries - 1 } := by
    have hstore := storeSlot_eq (c := { c with mruNext := next, mruPrev := prev })
      (v := c.hlink a) hvalid
    simp only [cacheRemoveP, hload, head?_cons, hmru, bind_some, hstore, map_some]
  have hchains := h.chains.remove hi hc
  refine ⟨_, hrun, ⟨h.max_pos, hring, ?_, hchains.seg, hchains.nodup, ?_, ?_, ?_, ?_, ?_⟩,
    rfl, rfl, rfl⟩
  · intro b
    rw [List.Nodup.mem_erase_iff h.ring_nodup, h.ring_mem b]
    simp only [entryFree, node_removed]
    tauto
  · intro j hj b
    rw [h.chains.mem_remove hi hj hc, h.chain_mem j hj b]
    simp only [entryFree, node_removed]
    tauto
  · rw [h.count, length_erase_of_mem haring]
  · have := h.bound
    change c.numEntries - 1 ≤ c.maxEntries
    omega
  · intro b b' e e' hb hb'
    exact h.distinct b b' e e' (node_removed.1 hb).1 (node_removed.1 hb').1
  · intro b e hb
    exact h.accepted b e (node_removed.1 hb).1

theorem WellFormed.ring_calloc (ha : a ∉ ring) (e : Entry) :
    Ring Ref.header (calloc c a e).mruNext (calloc c a e).mruPrev
      (ring.map Ref.entry) := by
  have hnot : Ref.entry a ∉ ring.map Ref.entry := by
    intro hm
    obtain ⟨b, hb, he⟩ := mem_map.1 hm
    cases he
    exact ha hb
  refine ⟨(h.ring_ok.path.frame_next ?_ _).frame_prev hnot (fun he => by cases he) _,
    h.ring_ok.nodup⟩
  intro hm
  rcases mem_cons.1 hm with he | hm
  · cases he
  · exact hnot hm

theorem WellFormed.notMem_ring (hfresh : c.node a = none) :
    a ∉ ring := by
  intro hm
  obtain ⟨e', he'⟩ := (h.ring_mem a).1 hm
  rw [hfresh] at he'
  cases he'

/-- The stores of `_cache_add_p` for a freshly allocated entry. -/
theorem WellFormed.addP_run (e : Entry) (hfresh : c.node a = none) (hi : i < c.maxEntries) :
    ∃ next prev, cacheAddP (calloc c a e) (slotAfter i (chain i)) a = some { calloc c a e with
        mruNext := next
        mruPrev := prev
        entries := storeHead c.entries (some a) (slotAfter i (chain i))
        hlink := storeLink (calloc c a e).hlink (some a) (slotAfter i (chain i))
        numEntries := c.numEntries + 1 } ∧
      Ring Ref.header next prev ((a :: ring).map Ref.entry) := by
  have haring := h.notMem_ring hfresh
  have halloc : ∀ b, b ∈ ring → (calloc c a e).allocated b = true := by
    intro b hb
    have hba : b ≠ a := fun he => haring (he ▸ hb)
    have := h.allocated_of_ring hb
    simpa [Cache.allocated, calloc, hba] using this
  have hvalid : (calloc c a e).validSlot (slotAfter i (chain i)) = true := by
    rcases eq_nil_or_concat (chain i) with hnil | ⟨l, b, hl⟩
    · rw [hnil]
      rfl
    · rw [hl, concat_eq_append, slotAfter_append]
      refine halloc b (h.chain_subset hi ?_)
      rw [hl]
      simp
  obtain ⟨next, prev, hmru, hring⟩ := mruAdd_spec
    (c := { calloc c a e with
      entries := storeHead c.entries (some a) (slotAfter i (chain i))
      hlink := storeLink (calloc c a e).hlink (some a) (slotAfter i (chain i)) })
    (h.ring_calloc haring e) halloc haring (by simp [Cache.allocated, calloc])
  refine ⟨next, prev, ?_, hring⟩
  rw [cacheAddP, storeSlot_eq hvalid]
  exact congrArg (Option.map fun c => { c with numEntries := c.numEntries + 1 }) hmru

theorem WellFormed.addP_spec (hfresh : c.node a = none) (hroom : c.numEntries < c.maxEntries)
    (hnone : ∀ b e', c.node b = some e' → ¬ Matches e e')
    (hacc : checkQuery e.query = true ∧ e.hash = hashQuery e.query) :
    ∃ c', cacheAddP (calloc c a e) (slotAfter (e.hash.toNat % c.maxEntries)
        (chain (e.hash.toNat % c.maxEntries))) a = some c' ∧
      WellFormed c' (a :: ring) (update chain (e.hash.toNat % c.maxEntries)
        (chain (e.hash.toNat % c.maxEntries) ++ [a])) ∧
      c'.node = update c.node a (some e) := by
  have hi := h.index_lt e
  generalize hidx : e.hash.toNat % c.maxEntries = i at hi ⊢
  have hachain : ∀ j, j < c.maxEntries → a ∉ chain j := fun j hj hm =>
    h.notMem_ring hfresh (h.chain_subset hj hm)
  obtain ⟨next, prev, hrun, hring⟩ := h.addP_run e hfresh hi
  -- `calloc` has cleared the link of the new entry
  have hchains := (h.chains.frame hachain none).append hi hachain (update_self ..)
  refine ⟨_, hrun, ⟨h.max_pos, hring, ?_, hchains.seg, hchains.nodup, ?_, ?_, ?_, ?_, ?_⟩, rfl⟩
  · intro b
    rw [mem_cons, h.ring_mem b]
    simp only [calloc, node_added]
    by_cases hb : b = a
    · simp [hb]
    · simp [hb]
  · intro j hj b
    rw [mem_update_append, h.chain_mem j hj b]
    simp only [calloc, node_added]
    by_cases hb : b = a
    · subst hb
      simp [hfresh, hidx, eq_comm]
    · simp [hb]
  · rw [h.count, length_cons]
  · change c.numEntries + 1 ≤ c.maxEntries
    omega
  · intro b b' e₁ e₂ hb hb' hhash heq
    rcases node_added.1 hb with ⟨rfl, rfl⟩ | ⟨-, h1⟩
    · rcases node_added.1 hb' with ⟨rfl, -⟩ | ⟨-, h2⟩
      · rfl
      · rw [entryEquals_comm] at heq
        exact absurd ⟨hhash.symm, heq⟩ (hnone b' e₂ h2)
    · rcases node_added.1 hb' with ⟨rfl, rfl⟩ | ⟨-, h2⟩
      · exact absurd ⟨hhash, heq⟩ (hnone b e₁ h1)
      · exact h.distinct b b' e₁ e₂ h1 h2 hhash heq
  · intro b e' hb
    rcases node_added.1 hb with ⟨-, rfl⟩ | ⟨-, h1⟩
    · exact hacc
    · exact h.accepted b e' h1

theorem WellFormed.reorder {ring' : List Addr} {next prev : Ref → Ref}
    (hr : Ring Ref.header next prev (ring'.map Ref.entry)) (hp : ring'.Perm ring) :
    WellFormed { c with mruNext := next, mruPrev := prev } ring' chain :=
  { h with
    ring_ok := hr
    ring_mem := fun a => by rw [hp.mem_iff]; exact h.ring_mem a
    count := by rw [hp.length_eq]; exact h.count }

theorem WellFormed.bump_spec (ha : a ∈ ring) :
    ∃ c', bump c a = some c' ∧ WellFormed c' (a :: ring.erase a) chain ∧ c'.node = c.node := by
  unfold bump
  split
  · obtain ⟨next, prev, hrem, hring⟩ := h.mruRemove_spec ha
    have hnot : a ∉ ring.erase a := fun hm => ((List.Nodup.mem_erase_iff h.ring_nodup).1 hm).1 rfl
    obtain ⟨next', prev', hadd, hring'⟩ :=
      mruAdd_spec (c := { c with mruNext := next, mruPrev := prev }) hring
        (fun b hb => h.allocated_of_ring (mem_of_mem_erase hb)) hnot (h.allocated_of_ring ha)
    refine ⟨_, ?_, h.reorder hring' (perm_cons_erase ha).symm, rfl⟩
    rw [hrem]
    exact hadd
  · next hfirst =>
    -- the entry is the first one already
    cases ring with
    | nil => cases ha
    | cons b ring =>
      have hnext : c.mruNext .header = .entry b := h.ring_ok.path.1.1
      rw [hnext, not_not] at hfirst
      cases hfirst
      rw [erase_cons_head]
      exact ⟨c, rfl, h, rfl⟩

end

/-! ### Eviction -/

theorem WellFormed.oldest {l : List Addr} (h : WellFormed c (l ++ [a]) chain) :
    c.mruPrev .header = .entry a := by
  rw [h.ring_ok.path.prev_end]
  simp

/-- The walk for an entry that is in the table finds this entry: its packet equals itself and no
other entry does. -/
theorem WellFormed.lookupP_self (h : WellFormed c ring chain) (ha : c.node a = some e) :
    ∃ pre post, chain (e.hash.toNat % c.maxEntries) = pre ++ a :: post ∧
      cacheLookupP c e = some (slotAfter (e.hash.toNat % c.maxEntries) pre) := by
  rcases h.lookupP_spec e with ⟨pre, b, post, e', hc, hb, hm, hl⟩ | ⟨hnone, -⟩
  · have hba : b = a := h.distinct b a e' e hb ha hm.1 hm.2
    subst hba
    exact ⟨pre, post, hc, hl⟩
  · exact absurd ⟨rfl, entryEquals_refl (h.accepted a e ha).1⟩ (hnone a e ha)

theorem WellFormed.removeOldest_spec {l : List Addr} (h : WellFormed c (l ++ [a]) chain) :
    ∃ c' chain', cacheRemoveOldest c = some (c', false) ∧ WellFormed c' l chain' ∧
      c'.node = update c.node a none ∧ c'.maxEntries = c.maxEntries ∧
      c'.numEntries = c.numEntries - 1 := by
  obtain ⟨e, ha⟩ := (h.ring_mem a).1 (mem_append_right l mem_cons_self)
  obtain ⟨pre, post, hc, hl⟩ := h.lookupP_self ha
  have hi := h.index_lt e
  have hload := h.loadSlot_after hi hc
  obtain ⟨c', hrem, hwf, hnode, hmax, hnum⟩ := h.removeP_spec hi hc
  have hnot : a ∉ l := by
    intro hm
    exact (nodup_append.1 h.ring_nodup).2.2 a hm a mem_cons_self rfl
  rw [erase_append_right _ hnot, erase_cons_head, append_nil] at hwf
  refine ⟨c', _, ?_, hwf, hnode, hmax, hnum⟩
  simp [cacheRemoveOldest, h.oldest, refEntry, ha, hl, hload, hrem]

/-! ### The calls

The effect of a call is told on the ring and the map of the entries. -/

/-- The key that `entry_init_key` makes. -/
def queryKey (query : Bytes) : Entry := ⟨hashQuery query, query, [], 0⟩

def HitAt (c : Cache) (query : Bytes) (a : Addr) (e : Entry) : Prop :=
  c.node a = some e ∧ Matches (queryKey query) e

def Misses (c : Cache) (query : Bytes) : Prop :=
  ∀ a e, c.node a = some e → ¬ Matches (queryKey query) e

/-- What a lookup does: the cache and the ring afterwards, and the result. -/
inductive LookupEffect (c : Cache) (ring : List Addr) (query : Bytes) (answersize : Int)
    (now : TimeT) : Cache → List Addr → LookupResult → Prop
  | refused : checkQuery query = false →
      LookupEffect c ring query answersize now c ring ⟨.unsupported, none, none⟩
  | missing : checkQuery query = true → Misses c query →
      LookupEffect c ring query answersize now c ring ⟨.notfound, none, none⟩
  | stale {a : Addr} {e : Entry} {c' : Cache} : checkQuery query = true → HitAt c query a e →
      now.toInt ≥ e.expires.toInt → c'.node = Function.update c.node a none →
      LookupEffect c ring query answersize now c' (ring.erase a) ⟨.notfound, none, none⟩
  | short {a : Addr} {e : Entry} : checkQuery query = true → HitAt c query a e →
      now.toInt < e.expires.toInt → (e.answer.length : Int) > answersize →
      LookupEffect c ring query answersize now c ring ⟨.unsupported, some e.answer.length, none⟩
  | found {a : Addr} {e : Entry} {c' : Cache} : checkQuery query = true → HitAt c query a e →
      now.toInt < e.expires.toInt → (e.answer.length : Int) ≤ answersize → c'.node = c.node →
      LookupEffect c ring query answersize now c' (a :: ring.erase a)
        ⟨.found, some e.answer.length, some e.answer⟩

theorem WellFormed.lookup_effect (h : WellFormed c ring chain) (query : Bytes) (answersize : Int)
    (now : TimeT) :
    ∃ c' ring' chain' r, resolvCacheLookup c query answersize now = some (c', r) ∧
      WellFormed c' ring' chain' ∧ LookupEffect c ring query answersize now c' ring' r := by
  unfold resolvCacheLookup entryInitKey
  by_cases hcheck : checkQuery query = true
  · rw [if_pos hcheck]
    have hi := h.index_lt (queryKey query)
    rcases h.lookupP_spec (queryKey query) with ⟨pre, a, post, e, hc, ha, hm, hl⟩ | ⟨hmiss, hl⟩
    · have hload := h.loadSlot_after hi hc
      unfold queryKey at hl hload
      simp only [hl, bind_some, hload, head?_cons, ha, lookupHit]
      split
      · next hold =>
        obtain ⟨c', hrem, hwf, hnode, -⟩ := h.removeP_spec hi hc
        unfold queryKey at hrem
        exact ⟨c', _, _, _, by rw [hrem]; rfl, hwf, .stale hcheck ⟨ha, hm⟩ hold hnode⟩
      · next hfresh =>
        split
        · next hlong =>
          exact ⟨c, ring, chain, _, rfl, h, .short hcheck ⟨ha, hm⟩ (by omega) hlong⟩
        · next hfits =>
          obtain ⟨c', hb, hwf, hnode⟩ := h.bump_spec ((h.ring_mem a).2 ⟨e, ha⟩)
          exact ⟨c', _, chain, _, by rw [hb]; rfl, hwf,
            .found hcheck ⟨ha, hm⟩ (by omega) (by omega) hnode⟩
    · have hload := h.loadSlot_after hi (append_nil _).symm
      unfold queryKey at hl hload
      simp only [hl, bind_some, hload, head?_nil]
      exact ⟨c, ring, chain, _, rfl, h, .missing hcheck hmiss⟩
  · rw [if_neg hcheck]
    exact ⟨c, ring, chain, _, rfl, h, .refused (Bool.eq_false_iff.2 hcheck)⟩

section
variable {query : Bytes} {answersize : Int} {now : TimeT} {c' : Cache} {ring' : List Addr}
  {r : LookupResult}

theorem LookupEffect.node_of (h : LookupEffect c ring query answersize now c' ring' r) {a : Addr}
    {e : Entry} (he : c'.node a = some e) : c.node a = some e := by
  cases h with
  | refused | missing | short => exact he
  | stale _ _ _ hnode => exact (node_removed.1 (hnode ▸ he)).1
  | found _ _ _ _ hnode => exact hnode ▸ he

theorem LookupEffect.of_found (h : LookupEffect c ring query answersize now c' ring' r)
    (hr : r.status = .found) : checkQuery query = true ∧ ∃ a e, HitAt c query a e ∧
      now.toInt < e.expires.toInt ∧ r.answerlen = some e.answer.length ∧
      r.answer = some e.answer := by
  cases h with
  | refused | missing | stale | short => cases hr
  | found hcheck hit hfresh => exact ⟨hcheck, _, _, hit, hfresh, rfl, rfl⟩

end

def newEntry (query answer : Bytes) (now : TimeT) : Entry :=
  ⟨hashQuery query, query, answer, (answerGetTTL answer).toBitVec + now⟩

/-- What the end of an add does: nothing, or a new entry at the front. -/
inductive InsertEffect (c : Cache) (ring : List Addr) (query answer : Bytes) (now : TimeT)
    (alloc : Option Addr) : Cache → List Addr → Prop
  | declined : answerGetTTL answer = 0 ∨ alloc = none →
      InsertEffect c ring query answer now alloc c ring
  | stored {a : Addr} {c' : Cache} : answerGetTTL answer > 0 → alloc = some a → c.node a = none →
      c'.node = Function.update c.node a (some (newEntry query answer now)) →
      InsertEffect c ring query answer now alloc c' (a :: ring)

/-- What an add does: nothing, or the end of the add, after it evicted the last entry of the ring
if the cache was full. -/
inductive AddEffect (c : Cache) (ring : List Addr) (query answer : Bytes) (now : TimeT)
    (alloc : Option Addr) : Cache → List Addr → Prop
  | refused : checkQuery query = false → AddEffect c ring query answer now alloc c ring
  | present {a : Addr} {e : Entry} : checkQuery query = true → HitAt c query a e →
      AddEffect c ring query answer now alloc c ring
  | room {c' : Cache} {ring' : List Addr} : checkQuery query = true → Misses c query →
      c.numEntries < c.maxEntries → InsertEffect c ring query answer now alloc c' ring' →
      AddEffect c ring query answer now alloc c' ring'
  | full {l : List Addr} {x : Addr} {c₁ c' : Cache} {ring' : List Addr} : checkQuery query = true →
      Misses c query → c.numEntries ≥ c.maxEntries → ring = l ++ [x] →
      c₁.node = Function.update c.node x none →
      InsertEffect c₁ l query answer now alloc c' ring' →
      AddEffect c ring query answer now alloc c' ring'

/-- The end of an add, with room for an entry: it fails only if `calloc` gives memory in use. -/
theorem WellFormed.insertAnswer_effect (h : WellFormed c ring chain) {query : Bytes}
    (answer : Bytes) (now : TimeT) (alloc : Option Addr) (hcheck : checkQuery query = true)
    (hmiss : Misses c query) (hroom : c.numEntries < c.maxEntries) :
    let run := insertAnswer c (slotAfter ((queryKey query).hash.toNat % c.maxEntries)
      (chain ((queryKey query).hash.toNat % c.maxEntries))) (queryKey query) answer now alloc
    (run = none ∧ ∃ a, alloc = some a ∧ c.allocated a = true) ∨
    ∃ c' ring' chain', run = some c' ∧ WellFormed c' ring' chain' ∧
      InsertEffect c ring query answer now alloc c' ring' := by
  simp only [insertAnswer]
  split
  · next httl =>
    cases alloc with
    | none => exact .inr ⟨c, ring, chain, rfl, h, .declined (.inr rfl)⟩
    | some a =>
      by_cases hused : c.allocated a = true
      · exact .inl ⟨if_pos hused, a, rfl, hused⟩
      · have hfree : c.node a = none := by simpa [Cache.allocated] using hused
        simp only [hused]
        obtain ⟨c', hadd, hwf, hnode⟩ := h.addP_spec (e := newEntry query answer now) hfree hroom
          (fun b e hb hm => hmiss b e hb hm) ⟨hcheck, rfl⟩
        exact .inr ⟨c', _, _, hadd, hwf, .stored httl rfl hfree hnode⟩
  · next httl =>
    have hzero : answerGetTTL answer = 0 := by
      apply UInt32.toNat_inj.1
      have hle : ¬ (0 : UInt32).toNat < (answerGetTTL answer).toNat := httl
      have h0 : (0 : UInt32).toNat = 0 := rfl
      omega
    exact .inr ⟨c, ring, chain, rfl, h, .declined (.inl hzero)⟩

theorem WellFormed.exists_last (h : WellFormed c ring chain)
    (hfull : c.numEntries ≥ c.maxEntries) : ∃ l x, ring = l ++ [x] := by
  have hpos := h.max_pos
  rcases eq_nil_or_concat ring with rfl | ⟨l, x, rfl⟩
  · have hzero : c.numEntries = 0 := h.count
    omega
  · exact ⟨l, x, concat_eq_append⟩

/-- An add fails only if `calloc` gives memory in use.  It finds the oldest entry when it evicts
and keeps the invariant. -/
theorem WellFormed.add_effect (h : WellFormed c ring chain) (query answer : Bytes) (now : TimeT)
    (alloc : Option Addr) :
    (resolvCacheAdd c query answer now alloc = none ∧ ∃ a, alloc = some a ∧ c.allocated a = true) ∨
    ∃ c' ring' chain', resolvCacheAdd c query answer now alloc = some (c', false) ∧
      WellFormed c' ring' chain' ∧ AddEffect c ring query answer now alloc c' ring' := by
  unfold resolvCacheAdd entryInitKey
  by_cases hcheck : checkQuery query = true
  swap
  · rw [if_neg hcheck]
    exact .inr ⟨c, ring, chain, rfl, h, .refused (Bool.eq_false_iff.2 hcheck)⟩
  rw [if_pos hcheck]
  show (Option.bind (cacheLookupP c (queryKey query)) _ = none ∧ _) ∨
    ∃ c' ring' chain', Option.bind (cacheLookupP c (queryKey query)) _ = some (c', false) ∧ _
  have hi := h.index_lt (queryKey query)
  rcases h.lookupP_spec (queryKey query) with ⟨pre, a, post, e, hc, ha, hm, hl⟩ | ⟨hmiss, hl⟩
  · have hload := h.loadSlot_after hi hc
    simp only [hl, bind_some, hload, head?_cons]
    exact .inr ⟨c, ring, chain, rfl, h, .present hcheck ⟨ha, hm⟩⟩
  · have hload := h.loadSlot_after hi (append_nil _).symm
    simp only [hl, bind_some, hload, head?_nil]
    split
    · next hfull =>
      -- full: the oldest entry goes, and the key is still not there
      obtain ⟨l, x, rfl⟩ := h.exists_last hfull
      have hbound := h.bound
      obtain ⟨c₁, chain₁, hrem, h₁, hnode, hmax, hnum⟩ := h.removeOldest_spec
      have hsub : ∀ b e, c₁.node b = some e → c.node b = some e :=
        fun b e hb => (node_removed.1 (hnode ▸ hb)).1
      have hmiss₁ : Misses c₁ query := fun b e hb => hmiss b e (hsub b e hb)
      rcases h₁.lookupP_spec (queryKey query) with ⟨pre, b, post, e, -, hb, hm, -⟩ | ⟨-, hl₁⟩
      · exact absurd hm (hmiss₁ b e hb)
      · have hload₁ := h₁.loadSlot_after (h₁.index_lt (queryKey query)) (append_nil _).symm
        simp only [hrem, bind_some]
        show (Option.bind (cacheLookupP c₁ (queryKey query)) _ = none ∧ _) ∨
          ∃ c' ring' chain', Option.bind (cacheLookupP c₁ (queryKey query)) _ = some (c', false) ∧ _
        simp only [hl₁, bind_some, hload₁, head?_nil]
        rcases h₁.insertAnswer_effect answer now alloc hcheck hmiss₁ (by omega) with
          ⟨hins, b, rfl, hb⟩ | ⟨c', ring', chain', hins, hwf, heff⟩
        · refine .inl ⟨congrArg (Option.map _) hins, b, rfl, ?_⟩
          obtain ⟨e, he⟩ := isSome_iff_exists.1 hb
          exact isSome_iff_exists.2 ⟨e, hsub b e he⟩
        · exact .inr ⟨c', ring', chain', congrArg (Option.map _) hins, hwf,
            .full hcheck hmiss hfull rfl hnode heff⟩
    · next hroom =>
      rcases h.insertAnswer_effect answer now alloc hcheck hmiss (by omega) with
        ⟨hins, hb⟩ | ⟨c', ring', chain', hins, hwf, heff⟩
      · exact .inl ⟨congrArg (Option.map _) hins, hb⟩
      · exact .inr ⟨c', ring', chain', congrArg (Option.map _) hins, hwf,
          .room hcheck hmiss (by omega) heff⟩

section
variable {query answer : Bytes} {now : TimeT} {alloc : Option Addr} {c' : Cache}
  {ring' : List Addr}

theorem InsertEffect.node_of (h : InsertEffect c ring query answer now alloc c' ring') {a : Addr}
    {e : Entry} (he : c'.node a = some e) :
    c.node a = some e ∨ (e = newEntry query answer now ∧ answerGetTTL answer > 0) := by
  cases h with
  | declined => exact .inl he
  | stored httl _ _ hnode =>
    rcases node_added.1 (hnode ▸ he) with ⟨-, rfl⟩ | ⟨-, he⟩
    · exact .inr ⟨rfl, httl⟩
    · exact .inl he

theorem AddEffect.node_of (h : AddEffect c ring query answer now alloc c' ring') {a : Addr}
    {e : Entry} (he : c'.node a = some e) :
    c.node a = some e ∨ (e = newEntry query answer now ∧ answerGetTTL answer > 0) := by
  cases h with
  | refused | present => exact .inl he
  | room _ _ _ heff => exact heff.node_of he
  | full _ _ _ _ hnode heff =>
    exact (heff.node_of he).imp_left fun he => (node_removed.1 (hnode ▸ he)).1

end

/-! ### Flushing -/

theorem flushChain_spec (fuel nn : Nat) (l : List Addr) (c : Cache)
    (hseg : Seg c.hlink (c.entries nn) l none) (hn : l.Nodup)
    (hal : ∀ a ∈ l, c.allocated a = true) (hf : l.length ≤ fuel) :
    ∃ c', flushChain fuel nn c = some c' ∧ c'.entries nn = none ∧
      (∀ j, j ≠ nn → c'.entries j = c.entries j) ∧ c'.hlink = c.hlink ∧
      (∀ a, c'.node a = if a ∈ l then none else c.node a) ∧ c'.maxEntries = c.maxEntries := by
  induction l generalizing fuel c with
  | nil =>
    have hnone : c.entries nn = none := hseg
    cases fuel with
    | zero => simp [flushChain, hnone]
    | succ fuel => simp [flushChain, hnone]
  | cons a l ih =>
    obtain ⟨hhead, hseg⟩ := hseg
    obtain ⟨hal', hn⟩ := nodup_cons.1 hn
    cases fuel with
    | zero => simp at hf
    | succ fuel =>
      simp only [length_cons] at hf
      have ha := hal a mem_cons_self
      obtain ⟨c', hrun, hnn, hj, hlink, hnode, hmax⟩ := ih fuel
        (entryFree { c with entries := update c.entries nn (c.hlink a) } a)
        (by simpa [entryFree] using hseg) hn (by
          intro b hb
          have hba : b ≠ a := fun he => hal' (he ▸ hb)
          have := hal b (mem_cons_of_mem a hb)
          simpa [Cache.allocated, entryFree, hba] using this) (by omega)
      refine ⟨c', ?_, hnn, ?_, hlink, ?_, hmax⟩
      · simp only [flushChain, hhead, ha, if_true]
        exact hrun
      · intro j hne
        rw [hj j hne]
        simp [entryFree, hne]
      · intro b
        rw [hnode b]
        by_cases hba : b = a
        · simp [entryFree, hba]
        · simp [entryFree, hba]

/-- The loop over the buckets `is`, whose chains are disjoint. -/
theorem flushChains_spec (fuel : Nat) (is : List Nat) (chain : Nat → List Addr) (c : Cache)
    (hnd : is.Nodup)
    (hdisj : ∀ i ∈ is, ∀ j ∈ is, j ≠ i → ∀ a ∈ chain i, a ∉ chain j)
    (hc : ∀ i ∈ is, Seg c.hlink (c.entries i) (chain i) none ∧ (chain i).Nodup ∧
      (∀ a ∈ chain i, c.allocated a = true) ∧ (chain i).length ≤ fuel) :
    ∃ c', flushChains fuel is c = some c' ∧ (∀ i ∈ is, c'.entries i = none) ∧
      (∀ j, j ∉ is → c'.entries j = c.entries j) ∧
      (∀ i ∈ is, ∀ a ∈ chain i, c'.node a = none) ∧
      (∀ a, c.node a = none → c'.node a = none) ∧ c'.maxEntries = c.maxEntries := by
  induction is generalizing c with
  | nil => exact ⟨c, rfl, fun i hi => (by cases hi), fun _ _ => rfl, fun i hi => (by cases hi),
      fun _ ha => ha, rfl⟩
  | cons i is ih =>
    obtain ⟨hi, hnd⟩ := nodup_cons.1 hnd
    obtain ⟨hseg, hn, hal, hf⟩ := hc i mem_cons_self
    obtain ⟨c₁, hrun, hnn, hj, hlink, hnode, hmax⟩ := flushChain_spec fuel i (chain i) c hseg hn hal hf
    have hc₁ : ∀ j ∈ is, Seg c₁.hlink (c₁.entries j) (chain j) none ∧ (chain j).Nodup ∧
        (∀ a ∈ chain j, c₁.allocated a = true) ∧ (chain j).length ≤ fuel := by
      intro j hjs
      have hji : j ≠ i := fun he => hi (he ▸ hjs)
      obtain ⟨hseg, hn, hal, hf⟩ := hc j (mem_cons_of_mem i hjs)
      refine ⟨?_, hn, ?_, hf⟩
      · rw [hlink, hj j hji]
        exact hseg
      · intro a ha
        have hai := hdisj j (mem_cons_of_mem i hjs) i mem_cons_self hji.symm a ha
        have := hal a ha
        rwa [Cache.allocated, hnode a, if_neg hai]
    obtain ⟨c', hrun', hnone, hout, hfreed, hkeep, hmax'⟩ := ih c₁ hnd
      (fun j hj k hk => hdisj j (mem_cons_of_mem i hj) k (mem_cons_of_mem i hk)) hc₁
    have hi' : c'.entries i = none := by rw [hout i hi, hnn]
    refine ⟨c', ?_, ?_, ?_, ?_, ?_, hmax'.trans hmax⟩
    · rw [flushChains, hrun]
      exact hrun'
    · exact forall_mem_cons.2 ⟨hi', hnone⟩
    · intro j hjs
      rw [mem_cons, not_or] at hjs
      rw [hout j hjs.2, hj j hjs.1]
    · refine forall_mem_cons.2 ⟨fun a ha => hkeep a ?_, hfreed⟩
      rw [hnode a, if_pos ha]
    · intro a ha
      refine hkeep a ?_
      rw [hnode a, ha, ite_self]

theorem WellFormed.flush_spec (h : WellFormed c ring chain) :
    ∃ c', cacheFlushLocked c = some c' ∧ WellFormed c' [] (fun _ => []) ∧
      ∀ a, c'.node a = none := by
  obtain ⟨c₁, hrun, hnone, -, hfreed, hkeep, hmax⟩ := flushChains_spec c.numEntries
    (List.range c.maxEntries) chain c nodup_range
    (fun i hi j hj hij a ha =>
      h.chain_disjoint (mem_range.1 hi) (mem_range.1 hj) hij ha)
    (fun i hi => ⟨h.chain_ok i (mem_range.1 hi), h.chain_nodup i (mem_range.1 hi),
      fun a ha => h.allocated_of_chain (mem_range.1 hi) ha,
      h.chain_length_le (mem_range.1 hi)⟩)
  -- every entry is in some chain, so every entry is freed
  have hall : ∀ a, c₁.node a = none := by
    intro a
    cases ha : c.node a with
    | none => exact hkeep a ha
    | some e =>
      have hi := h.index_lt e
      exact hfreed _ (mem_range.2 hi) a ((h.chain_mem _ hi a).2 ⟨e, ha, rfl⟩)
  have hflush : cacheFlushLocked c = some { c₁ with
      mruNext := update c₁.mruNext .header .header
      mruPrev := update c₁.mruPrev .header .header
      numEntries := 0 } := by
    rw [cacheFlushLocked, hrun]
    rfl
  refine ⟨_, hflush, ?_, hall⟩
  constructor
  · exact hmax ▸ h.max_pos
  · exact ring_nil (by simp) (by simp)
  · intro a
    simp [hall a]
  · intro i hi
    exact hnone i (mem_range.2 (hmax ▸ hi))
  · intro i _
    exact nodup_nil
  · intro i _ a
    simp [hall a]
  · rfl
  · exact Nat.zero_le _
  · intro a b e e' ha
    simp [hall a] at ha
  · intro a e ha
    simp [hall a] at ha

/-- `_resolv_cache_reset` with the generation of the cache does nothing, with another one it empties
the cache. -/
theorem WellFormed.reset_spec (h : WellFormed c ring chain) (generation : UInt32) :
    (c.generation = generation ∧ resolvCacheReset c generation = some c) ∨
    ∃ c', c.generation ≠ generation ∧ resolvCacheReset c generation = some c' ∧
      WellFormed c' [] (fun _ => []) ∧ ∀ a, c'.node a = none := by
  unfold resolvCacheReset
  split
  · next hg =>
    obtain ⟨c', hrun, hwf, hnone⟩ := h.flush_spec
    refine .inr ⟨{ c' with generation := generation }, hg, by rw [hrun]; rfl, ?_, hnone⟩
    exact ⟨hwf.max_pos, hwf.ring_ok, hwf.ring_mem, hwf.chain_ok, hwf.chain_nodup, hwf.chain_mem,
      hwf.count, hwf.bound, hwf.distinct, hwf.accepted⟩
  · next hg => exact .inl ⟨not_not.1 hg, rfl⟩

end

/-! ## Runs -/

/-- Where an entry of the state after a call comes from: the call left it there and forgot no
add, or the call is the add of this entry. -/
def Origin (s : State) (call : Call) (s' : State) (a : Addr) (e : Entry) : Prop :=
  (s.cache.node a = some e ∧ ∀ x ∈ s.adds, x ∈ s'.adds) ∨
  ∃ query answer now alloc, call = .add query answer now alloc ∧ e = newEntry query answer now ∧
    answerGetTTL answer > 0 ∧ ⟨query, answer, now⟩ ∈ s'.adds

/-- What a call can do to a well-formed cache. -/
structure Moved (s : State) (call : Call) (s' : State) : Prop where
  wellFormed : ∃ ring chain, WellFormed s'.cache ring chain
  oldestMissing : s'.oldestMissing = s.oldestMissing
  origin : ∀ a e, s'.cache.node a = some e → Origin s call s' a e

variable {s : State} {ring : List Addr} {chain : Nat → List Addr}

inductive StepEffect (c : Cache) (ring : List Addr) : Call → Cache → List Addr → Prop
  | lookup {query : Bytes} {answersize : Int} {now : TimeT} {c' : Cache} {ring' : List Addr}
      {r : LookupResult} : resolvCacheLookup c query answersize now = some (c', r) →
      LookupEffect c ring query answersize now c' ring' r →
      StepEffect c ring (.lookup query answersize now) c' ring'
  | add {query answer : Bytes} {now : TimeT} {alloc : Option Addr} {c' : Cache}
      {ring' : List Addr} : AddEffect c ring query answer now alloc c' ring' →
      StepEffect c ring (.add query answer now alloc) c' ring'
  | flush {c' : Cache} : (∀ a, c'.node a = none) → StepEffect c ring .flush c' []
  | reset {generation : UInt32} {c' : Cache} : c.generation ≠ generation →
      (∀ a, c'.node a = none) → StepEffect c ring (.reset generation) c' []
  | sameGeneration {generation : UInt32} : c.generation = generation →
      StepEffect c ring (.reset generation) c ring

/-- Every call whose memory is fresh returns, and what a call that returns has done. -/
theorem step_spec (h : WellFormed s.cache ring chain) (call : Call) :
    (step s call = none ∧ ¬ call.fresh s.cache) ∨
    ∃ s' ring' chain', step s call = some s' ∧ WellFormed s'.cache ring' chain' ∧
      StepEffect s.cache ring call s'.cache ring' ∧ s'.oldestMissing = s.oldestMissing ∧
      ∀ a e, s'.cache.node a = some e → Origin s call s' a e := by
  cases call with
  | lookup query answersize now =>
    obtain ⟨c', ring', chain', r, hrun, hwf, heff⟩ := h.lookup_effect query answersize now
    rw [step, hrun]
    exact .inr ⟨_, ring', chain', rfl, hwf, .lookup hrun heff, rfl,
      fun a e he => .inl ⟨heff.node_of he, fun _ hx => hx⟩⟩
  | add query answer now alloc =>
    rcases h.add_effect query answer now alloc with
      ⟨hrun, a, rfl, ha⟩ | ⟨c', ring', chain', hrun, hwf, heff⟩
    · refine .inl ⟨by rw [step, hrun]; rfl, ?_⟩
      intro hf
      have hf : s.cache.node a = none := hf
      simp [Cache.allocated, hf] at ha
    · rw [step, hrun]
      refine .inr ⟨_, ring', chain', rfl, hwf, .add heff, Bool.or_false _, ?_⟩
      intro a e he
      rcases heff.node_of he with he | ⟨he, httl⟩
      · exact .inl ⟨he, fun x hx => mem_cons_of_mem _ hx⟩
      · exact .inr ⟨query, answer, now, alloc, rfl, he, httl, mem_cons_self⟩
  | flush =>
    obtain ⟨c', hrun, hwf, hnone⟩ := h.flush_spec
    rw [step, hrun]
    refine .inr ⟨_, _, _, rfl, hwf, .flush hnone, rfl, ?_⟩
    intro a e he
    cases (hnone a).symm.trans he
  | reset generation =>
    rcases h.reset_spec generation with ⟨hg, hrun⟩ | ⟨c', hg, hrun, hwf, hnone⟩
    · rw [step, hrun]
      refine .inr ⟨_, ring, chain, rfl, h, .sameGeneration hg, rfl, ?_⟩
      intro a e he
      refine .inl ⟨he, ?_⟩
      simp [hg]
    · rw [step, hrun]
      refine .inr ⟨_, _, _, rfl, hwf, .reset hg hnone, rfl, ?_⟩
      intro a e he
      cases (hnone a).symm.trans he

theorem step_effect {s' : State} (h : WellFormed s.cache ring chain) {call : Call}
    (hs : step s call = some s') :
    ∃ ring' chain', WellFormed s'.cache ring' chain' ∧
      StepEffect s.cache ring call s'.cache ring' := by
  rcases step_spec h call with ⟨hnone, -⟩ | ⟨s'', ring', chain', hsome, hwf, heff, -⟩
  · cases hnone.symm.trans hs
  · cases hsome.symm.trans hs
    exact ⟨ring', chain', hwf, heff⟩

/-- The representation invariant, and that the oldest entry was always found. -/
def Inv (s : State) : Prop :=
  (∃ ring chain, WellFormed s.cache ring chain) ∧ s.oldestMissing = false

theorem resCacheGetMaxEntries_pos (prop : Option Int) : 0 < resCacheGetMaxEntries prop := by
  unfold resCacheGetMaxEntries
  dsimp only
  split <;> omega

theorem wellFormed_create (prop : Option Int) :
    WellFormed (resolvCacheCreate prop) [] (fun _ => []) where
  max_pos := resCacheGetMaxEntries_pos prop
  ring_ok := ring_nil rfl rfl
  ring_mem := fun a => by simp [resolvCacheCreate]
  chain_ok := fun _ _ => rfl
  chain_nodup := fun _ _ => nodup_nil
  chain_mem := fun _ _ a => by simp [resolvCacheCreate]
  count := rfl
  bound := Nat.zero_le _
  distinct := fun a b e e' ha => by cases ha
  accepted := fun a e ha => by cases ha

theorem inv_init (s : State) (h : init s) : Inv s := by
  obtain ⟨⟨prop, hc⟩, -, hm⟩ := h
  exact ⟨⟨[], fun _ => [], hc ▸ wellFormed_create prop⟩, hm⟩

theorem Inv.moved {s' : State} {call : Call} (hi : Inv s) (hs : step s call = some s') :
    Moved s call s' := by
  obtain ⟨⟨ring, chain, h⟩, -⟩ := hi
  rcases step_spec h call with ⟨hnone, -⟩ | ⟨s'', _, _, hsome, hwf, -, hold, horigin⟩
  · cases hnone.symm.trans hs
  · cases hsome.symm.trans hs
    exact ⟨⟨_, _, hwf⟩, hold, horigin⟩

theorem inv_step (s : State) (call : Call) (s' : State) (hi : Inv s) (hs : step s call = some s') :
    Inv s' :=
  have hm := hi.moved hs
  ⟨hm.wellFormed, hm.oldestMissing.trans hi.2⟩

theorem WellFormed.flatMap_perm {c : Cache} (h : WellFormed c ring chain) :
    ((List.range c.maxEntries).flatMap chain).Perm ring := by
  have hn : ((List.range c.maxEntries).flatMap chain).Nodup := by
    rw [nodup_flatMap]
    refine ⟨fun i hi => h.chain_nodup i (mem_range.1 hi), ?_⟩
    refine nodup_range.pairwise_of_forall_ne ?_
    intro i hi j hj hij a ha
    exact h.chain_disjoint (mem_range.1 hi) (mem_range.1 hj) hij.symm ha
  refine (perm_ext_iff_of_nodup hn h.ring_nodup).2 ?_
  intro a
  rw [mem_flatMap, h.ring_mem]
  constructor
  · rintro ⟨i, hi, ha⟩
    obtain ⟨e, he, -⟩ := (h.chain_mem i (mem_range.1 hi) a).1 ha
    exact ⟨e, he⟩
  · rintro ⟨e, he⟩
    have hi := h.index_lt e
    exact ⟨_, mem_range.2 hi, (h.chain_mem _ hi a).2 ⟨e, he, rfl⟩⟩

/-- The representation invariant of every reachable state.  `ring` is the MRU ring and `chain i`
the collision chain of bucket `i`, as the links give them. -/
theorem cache_invariant {s : State} (h : machine.Reachable s) :
    (∃ ring chain,
      -- both structures hold the same entries, each once
      Ring Ref.header s.cache.mruNext s.cache.mruPrev (ring.map Ref.entry) ∧
      (∀ i < s.cache.maxEntries, Seg s.cache.hlink (s.cache.entries i) (chain i) none) ∧
      ((List.range s.cache.maxEntries).flatMap chain).Perm ring ∧ ring.Nodup ∧
      -- each entry is memory in use and in the bucket of its hash
      (∀ i < s.cache.maxEntries, ∀ a ∈ chain i, ∃ e, s.cache.node a = some e ∧
        e.hash.toNat % s.cache.maxEntries = i) ∧
      (∀ a e, s.cache.node a = some e → a ∈ ring) ∧
      s.cache.numEntries = ring.length ∧ s.cache.numEntries ≤ s.cache.maxEntries ∧
      (∀ a ∈ ring, ∀ b ∈ ring, ∀ e e', s.cache.node a = some e → s.cache.node b = some e' →
        e.hash = e'.hash → entryEquals e e' = true → a = b)) ∧
    s.oldestMissing = false ∧
    ∀ call : Call, call.fresh s.cache → ∃ s', step s call = some s' := by
  obtain ⟨⟨ring, chain, hw⟩, hmissing⟩ := h.invariant inv_init inv_step
  refine ⟨?_, hmissing, ?_⟩
  · exact ⟨ring, chain, hw.ring_ok, hw.chain_ok, hw.flatMap_perm, hw.ring_nodup,
      fun i hi a ha => (hw.chain_mem i hi a).1 ha, fun a e he => (hw.ring_mem a).2 ⟨e, he⟩,
      hw.count, hw.bound, fun a _ b _ e e' => hw.distinct a b e e'⟩
  · intro call hf
    rcases step_spec hw call with ⟨-, hn⟩ | ⟨s', -, -, hs, -⟩
    · exact absurd hf hn
    · exact ⟨s', hs⟩

/-- A cache of one entry in which the second add evicts the first. -/
theorem cache_invariant_evicts :
    ∃ s, machine.run ⟨resolvCacheCreate (some 1), [], false⟩
        [.add exampleQuery exampleAnswer 100 (some 7),
         .add (exampleQuery.set 13 98) exampleAnswer 101 (some 8)] = some s ∧
      s.cache.numEntries = 1 ∧ s.cache.node 7 = none ∧ s.oldestMissing = false := by
  have hrun : ((machine.run ⟨resolvCacheCreate (some 1), [], false⟩
      [.add exampleQuery exampleAnswer 100 (some 7),
       .add (exampleQuery.set 13 98) exampleAnswer 101 (some 8)]).map fun s =>
        (s.cache.numEntries, s.cache.node 7)) = some (1, none) := by decide +kernel
  obtain ⟨s, hs, hn⟩ := map_eq_some_iff.1 hrun
  have hr : machine.Reachable s :=
    Machine.Reachable.run (.init ⟨⟨some 1, rfl⟩, rfl, rfl⟩) _ hs
  exact ⟨s, hs, congrArg Prod.fst hn, congrArg Prod.snd hn, (cache_invariant hr).2.1⟩

end Resolv
