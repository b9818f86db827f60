import GitTest.Resolv.CacheInv

/-!
# The resolver cache returns what was added, and only while it is fresh

Every entry comes from an add since the last flush, and its `expires` is the time of that
add plus the TTL of the answer, in 32-bit arithmetic.  The sum may wrap, but only down: for
clock readings that are not negative, an entry that has not expired by the wrapped sum has
not expired by the exact one.

    0 ≤ now → 0 ≤ t → now < (ttl + t : 32 bit) → now < t + ttl  (lt_of_lt_expires)
-/

namespace Resolv

open Machines

structure Entry.MadeBy (e : Entry) (x : Added) : Prop where
  eq : e = newEntry x.query x.answer x.time
  ttl_pos : answerGetTTL x.answer > 0
  time_nonneg : 0 ≤ x.time.toInt

/-- Every entry was made by an add since the last flush. -/
def Backed (s : State) : Prop :=
  ∀ a e, s.cache.node a = some e → ∃ x ∈ s.adds, e.MadeBy x

theorem backed_init (s : State) (h : init s) : Backed s := by
  obtain ⟨⟨prop, hc⟩, -⟩ := h
  intro a e he
  rw [hc] at he
  cases he

theorem Moved.backed {s s' : State} {call : Call} (hm : Moved s call s') (hb : Backed s)
    (hclock : call.clockOk) : Backed s' := by
  intro a e he
  rcases hm.origin a e he with ⟨he, hadds⟩ | ⟨query, answer, now, alloc, rfl, heq, httl, hx⟩
  · obtain ⟨x, hx, hmade⟩ := hb a e he
    exact ⟨x, hadds x hx, hmade⟩
  · exact ⟨_, hx, heq, httl, hclock⟩

/-- The direction of the wrap: `ttl + t` as a 32-bit number is at most the exact sum. -/
theorem lt_of_lt_expires {ttl : UInt32} {t now : TimeT} (ht : 0 ≤ t.toInt) (hnow : 0 ≤ now.toInt)
    (h : now.toInt < (ttl.toBitVec + t).toInt) : now.toInt < t.toInt + ttl.toNat := by
  have hsum : (ttl.toBitVec + t).toNat = (ttl.toNat + t.toNat) % 2 ^ 32 := BitVec.toNat_add ..
  -- no wrap, into the sign bit (then negative, so nothing is found), or past 2 ^ 32
  simp only [BitVec.toInt_eq_toNat_cond, hsum] at ht hnow h ⊢
  split at h <;> split at h <;> omega

theorem sound_invariant {s : State} (h : machine.ReachableIf (fun _ call => call.clockOk) s) :
    Inv s ∧ Backed s := by
  refine h.invariant (I := fun s => Inv s ∧ Backed s) (fun s h => ⟨inv_init s h, backed_init s h⟩) ?_
  intro s call s' hi hclock hs
  exact ⟨inv_step s call s' hi.1 hs, (hi.1.moved hs).backed hi.2 hclock⟩

/-- Soundness and freshness: what a lookup finds was added, for an equal query, since the last
flush, and is still fresh by the exact clock. -/
theorem lookup_sound {s : State} (h : machine.ReachableIf (fun _ call => call.clockOk) s)
    {query : Bytes} {answersize : Int} {now : TimeT} (hnow : 0 ≤ now.toInt) {c' : Cache}
    {r : LookupResult} (hrun : resolvCacheLookup s.cache query answersize now = some (c', r))
    (hfound : r.status = .found) :
    ∃ x ∈ s.adds, r.answer = some x.answer ∧ r.answerlen = some x.answer.length ∧
      x.query.length = query.length ∧ rd x.query = rd query ∧ qdCount x.query = qdCount query ∧
      (∃ sec, questionSection x.query = some sec ∧ questionSection query = some sec) ∧
      0 < (answerGetTTL x.answer).toNat ∧
      now.toInt < x.time.toInt + (answerGetTTL x.answer).toNat := by
  obtain ⟨⟨⟨ring, chain, hw⟩, -⟩, hb⟩ := sound_invariant h
  obtain ⟨c'', ring', -, r', hrun', -, heff⟩ := hw.lookup_effect query answersize now
  obtain ⟨rfl, rfl⟩ := Prod.mk.inj (Option.some.inj (hrun.symm.trans hrun'))
  obtain ⟨hcheck, a, e, ⟨he, hm⟩, hfresh, hlen, hans⟩ := heff.of_found hfound
  obtain ⟨x, hx, rfl, httl, htime⟩ := hb a e he
  have heq := hm.2
  unfold entryEquals at heq
  split at heq
  · cases heq
  · next hl =>
    obtain ⟨hrd, hqd, hsec⟩ := isEqualQuery_sound heq (hw.accepted a _ he).1 hcheck
    exact ⟨x, hx, hans, hlen, not_not.1 hl, hrd, hqd, hsec, httl,
      lt_of_lt_expires htime hnow hfresh⟩

/-- Added at 100 with TTL 300, found at 399. -/
theorem lookup_sound_last_second :
    ∃ s c' r, step ⟨resolvCacheCreate none, [], false⟩
        (.add exampleQuery exampleAnswer 100 (some 7)) = some s ∧
      resolvCacheLookup s.cache exampleQuery 512 399 = some (c', r) ∧ r.status = .found ∧
      ∃ x ∈ s.adds, r.answer = some x.answer ∧
        (399 : Int) < x.time.toInt + (answerGetTTL x.answer).toNat := by
  have hrun : ((step ⟨resolvCacheCreate none, [], false⟩
      (.add exampleQuery exampleAnswer 100 (some 7))).bind fun s =>
        (resolvCacheLookup s.cache exampleQuery 512 399).map fun p => p.2.status) =
      some .found := by decide +kernel
  obtain ⟨s, hs, hl⟩ := Option.bind_eq_some_iff.1 hrun
  obtain ⟨⟨c', r⟩, hl, hfound⟩ := Option.map_eq_some_iff.1 hl
  have hstart : machine.init ⟨resolvCacheCreate none, [], false⟩ := ⟨⟨none, rfl⟩, rfl, rfl⟩
  have hclock : (Call.add exampleQuery exampleAnswer 100 (some 7)).clockOk :=
    show (0 : Int) ≤ (100 : TimeT).toInt by decide
  have hr : machine.ReachableIf (fun _ call => call.clockOk) s := .step (.init hstart) hclock hs
  obtain ⟨x, hx, hans, -, -, -, -, -, -, hlt⟩ :=
    lookup_sound hr (show (0 : Int) ≤ (399 : TimeT).toInt by decide) hl hfound
  exact ⟨s, c', r, hs, hl, hfound, x, hx, hans, hlt⟩

end Resolv
