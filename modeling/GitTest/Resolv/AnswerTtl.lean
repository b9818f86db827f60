import GitTest.Resolv.Lru

/-!
# The TTL of an answer that does not parse (res_cache.c)

`answer_getTTL` calls `ns_parserr` for one answer record after the other and goes on when a
call fails.  `answerRecords` are the results of these calls.  The first result is taken, later
ones only if they are smaller; so a failure makes the TTL 0 only if it is the first, or if a
record that did parse has TTL 0 (`ttlPromise_iff`).
-/

namespace Resolv

open List Machines

/-- What `ns_parserr` returns for the records from `n` on, with the handle it leaves. -/
def answerRecordsFrom : Nat → Nat → NsMsg → List (Option NsRr)
  | 0, _, _ => []
  | left + 1, n, handle =>
    (nsParserr handle nsSAn n).2 :: answerRecordsFrom left (n + 1) (nsParserr handle nsSAn n).1

/-- The results for the answer records of a message that `ns_initparse` accepts. -/
def answerRecords (answer : Bytes) : Option (List (Option NsRr)) :=
  (nsInitparse answer).map fun handle => answerRecordsFrom (handle.counts nsSAn) 0 handle

/-! ## The loop -/

def laterTtl (result : UInt32) : Option NsRr → UInt32
  | some rr => if rr.ttl < result then rr.ttl else result
  | none => result

theorem ttlLoop_later {left n : Nat} (hn : n ≠ 0) (handle : NsMsg) (result : UInt32) :
    ttlLoop left n handle result = (answerRecordsFrom left n handle).foldl laterTtl result := by
  induction left generalizing n handle result with
  | zero => rfl
  | succ left ih =>
    rw [ttlLoop, answerRecordsFrom]
    obtain ⟨handle', rr⟩ := nsParserr handle nsSAn n
    cases rr with
    | none => exact ih (Nat.succ_ne_zero n) handle' result
    | some rr =>
      simp only [hn, false_or]
      exact ih (Nat.succ_ne_zero n) handle' _

def firstTtl : List (Option NsRr) → UInt32
  | [] => 0
  | some rr :: rs => rs.foldl laterTtl rr.ttl
  | none :: rs => rs.foldl laterTtl 0

theorem answerGetTTL_eq {answer : Bytes} {rs : List (Option NsRr)}
    (h : answerRecords answer = some rs) : answerGetTTL answer = firstTtl rs := by
  obtain ⟨handle, hinit, rfl⟩ := Option.map_eq_some_iff.1 h
  unfold answerGetTTL
  rw [hinit]
  show ttlLoop (handle.counts nsSAn) 0 handle 0 = _
  cases handle.counts nsSAn with
  | zero => rfl
  | succ left =>
    rw [ttlLoop, answerRecordsFrom]
    obtain ⟨handle', rr⟩ := nsParserr handle nsSAn (0 : Nat)
    cases rr with
    | none => exact ttlLoop_later Nat.one_ne_zero handle' 0
    | some rr =>
      exact ttlLoop_later Nat.one_ne_zero handle' rr.ttl

/-- The fold takes the smallest of the start and the TTLs that did parse. -/
theorem foldl_laterTtl (rs : List (Option NsRr)) (result : UInt32) :
    (rs.foldl laterTtl result = result ∨ ∃ rr, some rr ∈ rs ∧ rs.foldl laterTtl result = rr.ttl) ∧
    rs.foldl laterTtl result ≤ result ∧
    ∀ rr, some rr ∈ rs → rs.foldl laterTtl result ≤ rr.ttl := by
  induction rs generalizing result with
  | nil => exact ⟨.inl rfl, UInt32.le_refl _, fun _ h => absurd h not_mem_nil⟩
  | cons r rs ih =>
    obtain ⟨hfrom, hle, hall⟩ := ih (laterTtl result r)
    -- the new start is the old one or the TTL of `r`, and at most both
    have hstart : (laterTtl result r = result ∨ ∃ rr, r = some rr ∧ laterTtl result r = rr.ttl) ∧
        laterTtl result r ≤ result ∧ ∀ rr, r = some rr → laterTtl result r ≤ rr.ttl := by
      cases r with
      | none => exact ⟨.inl rfl, UInt32.le_refl _, fun _ h => nomatch h⟩
      | some rr =>
        by_cases hlt : rr.ttl < result
        · have heq : laterTtl result (some rr) = rr.ttl := if_pos hlt
          rw [heq]
          refine ⟨.inr ⟨rr, rfl, rfl⟩, UInt32.le_of_lt hlt, ?_⟩
          rintro _ ⟨⟩
          exact UInt32.le_refl _
        · have heq : laterTtl result (some rr) = result := if_neg hlt
          rw [heq]
          refine ⟨.inl rfl, UInt32.le_refl _, ?_⟩
          rintro _ ⟨⟩
          exact UInt32.not_lt.1 hlt
    obtain ⟨hsfrom, hsle, hsall⟩ := hstart
    refine ⟨?_, UInt32.le_trans hle hsle, ?_⟩
    · rcases hfrom with hsame | ⟨rr, hmem, heq⟩
      · rcases hsfrom with hs | ⟨rr, rfl, hs⟩
        · exact .inl (hsame.trans hs)
        · exact .inr ⟨rr, mem_cons_self, hsame.trans hs⟩
      · exact .inr ⟨rr, mem_cons_of_mem r hmem, heq⟩
    · intro rr hmem
      rcases mem_cons.1 hmem with heq | hmem
      · exact UInt32.le_trans hle (hsall rr heq.symm)
      · exact hall rr hmem

theorem foldl_laterTtl_zero (rs : List (Option NsRr)) : rs.foldl laterTtl 0 = 0 := by
  have hle := (foldl_laterTtl rs 0).2.1
  exact UInt32.le_antisymm hle (UInt32.zero_le)

/-! ## The promise -/

/-- `t` is the smallest TTL of the records, and 0 if there are none. -/
def Smallest (rs : List NsRr) (t : UInt32) : Prop :=
  (rs = [] → t = 0) ∧ (rs ≠ [] → ∃ rr ∈ rs, rr.ttl = t) ∧ ∀ rr ∈ rs, t ≤ rr.ttl

theorem smallest_firstTtl (rs : List NsRr) : Smallest rs (firstTtl (rs.map some)) := by
  cases rs with
  | nil => exact ⟨fun _ => rfl, fun h => absurd rfl h, fun _ h => absurd h not_mem_nil⟩
  | cons rr rs =>
    show Smallest (rr :: rs) ((rs.map some).foldl laterTtl rr.ttl)
    obtain ⟨hfrom, hle, hall⟩ := foldl_laterTtl (rs.map some) rr.ttl
    refine ⟨fun h => absurd h (cons_ne_nil _ _), fun _ => ?_, ?_⟩
    · rcases hfrom with hsame | ⟨rr', hmem, heq⟩
      · exact ⟨rr, mem_cons_self, hsame.symm⟩
      · obtain ⟨rr'', hmem, h⟩ := mem_map.1 hmem
        cases h
        exact ⟨rr', mem_cons_of_mem rr hmem, heq.symm⟩
    · intro rr' hmem
      rcases mem_cons.1 hmem with rfl | hmem
      · exact hle
      · exact hall rr' (mem_map_of_mem hmem)

theorem firstTtl_eq_zero_iff {rs : List (Option NsRr)} (hfail : none ∈ rs) :
    firstTtl rs = 0 ↔ rs.head? = some none ∨ ∃ rr, some rr ∈ rs ∧ rr.ttl = 0 := by
  cases rs with
  | nil => exact absurd hfail not_mem_nil
  | cons r rs =>
    cases r with
    | none => exact iff_of_true (foldl_laterTtl_zero rs) (.inl rfl)
    | some rr =>
      obtain ⟨hfrom, hle, hall⟩ := foldl_laterTtl rs rr.ttl
      constructor
      · intro hzero
        rcases hfrom with hsame | ⟨rr', hmem, heq⟩
        · exact .inr ⟨rr, mem_cons_self, hsame.symm.trans hzero⟩
        · exact .inr ⟨rr', mem_cons_of_mem _ hmem, heq.symm.trans hzero⟩
      · rintro (hhead | ⟨rr', hmem, hzero⟩)
        · cases hhead
        · refine UInt32.le_antisymm ?_ UInt32.zero_le
          show rs.foldl laterTtl rr.ttl ≤ 0
          rw [← hzero]
          rcases mem_cons.1 hmem with heq | hmem
          · cases heq
            exact hle
          · exact hall rr' hmem

/-- What the comment of `answer_getTTL` promises, and what follows for the cache. -/
structure TtlPromise (answer : Bytes) : Prop where
  unparsable : nsInitparse answer = none → answerGetTTL answer = 0
  smallest : ∀ rs : List NsRr, answerRecords answer = some (rs.map some) →
    Smallest rs (answerGetTTL answer)
  refuses : ∀ rs, answerRecords answer = some rs → none ∈ rs → answerGetTTL answer = 0
  /-- an answer with a record that does not parse is never cached -/
  uncached : ∀ rs, answerRecords answer = some rs → none ∈ rs →
    ∀ s s' query now alloc, machine.Reachable s →
      step s (.add query answer now alloc) = some s' → ¬ Inserts s.cache s'.cache

theorem not_inserts_of_ttl {s s' : State} {query answer : Bytes} {now : TimeT} {alloc : Option Addr}
    (hr : machine.Reachable s) (hs : step s (.add query answer now alloc) = some s')
    (hzero : answerGetTTL answer = 0) : ¬ Inserts s.cache s'.cache := by
  rintro ⟨a, e, he, hne⟩
  obtain ⟨⟨ring, chain, hwf⟩, -⟩ := hr.invariant inv_init inv_step
  obtain ⟨ring', chain', -, heff⟩ := step_effect hwf hs
  cases heff with
  | add heff =>
    rcases heff.node_of he with hold | ⟨-, httl⟩
    · exact hne hold
    · rw [hzero] at httl
      exact absurd httl (by decide)

/-- The promise is kept exactly for the answers in which a failure comes first or next to a TTL of
0, if there is one. -/
theorem ttlPromise_iff (answer : Bytes) :
    TtlPromise answer ↔ ∀ rs, answerRecords answer = some rs → none ∈ rs →
      rs.head? = some none ∨ ∃ rr, some rr ∈ rs ∧ rr.ttl = 0 := by
  constructor
  · intro h rs hrs hfail
    rw [← firstTtl_eq_zero_iff hfail, ← answerGetTTL_eq hrs]
    exact h.refuses rs hrs hfail
  · intro h
    have hzero : ∀ rs, answerRecords answer = some rs → none ∈ rs → answerGetTTL answer = 0 := by
      intro rs hrs hfail
      rw [answerGetTTL_eq hrs, firstTtl_eq_zero_iff hfail]
      exact h rs hrs hfail
    refine ⟨?_, ?_, hzero, ?_⟩
    · intro hinit
      unfold answerGetTTL
      rw [hinit]
    · intro rs hrs
      rw [answerGetTTL_eq hrs]
      exact smallest_firstTtl rs
    · intro rs hrs hfail s s' query now alloc hr hs
      exact not_inserts_of_ttl hr hs (hzero rs hrs hfail)

/-- `exampleAnswer` with a second record whose name points behind the message. -/
def tornAnswer : Bytes :=
  exampleAnswer.set 7 2 ++ [0xc0, 0xff, 0, 1, 0, 1, 0, 0, 0, 60, 0, 4, 127, 0, 0, 1]

/-- The second record does not parse, the TTL is that of the first, and the answer is cached. -/
theorem tornAnswer_cached :
    ((answerRecords tornAnswer).map fun rs => rs.map Option.isSome) = some [true, false] ∧
    answerGetTTL tornAnswer = 300 ∧
    ((step ⟨resolvCacheCreate none, [], false⟩
        (.add exampleQuery tornAnswer 100 (some 7))).bind fun s =>
      (resolvCacheLookup s.cache exampleQuery 512 101).map fun r => (r.2.status, r.2.answer)) =
      some (.found, some tornAnswer) ∧
    ¬ TtlPromise tornAnswer := by
  have hrecords : ((answerRecords tornAnswer).map fun rs => rs.map Option.isSome) =
      some [true, false] := by decide +kernel
  have httl : answerGetTTL tornAnswer = 300 := by decide +kernel
  refine ⟨hrecords, httl, by decide +kernel, ?_⟩
  intro h
  obtain ⟨rs, hrs, hparsed⟩ := Option.map_eq_some_iff.1 hrecords
  have hfail : none ∈ rs := by
    have hmem : false ∈ rs.map Option.isSome := by
      rw [hparsed]
      decide
    obtain ⟨r, hr, hnone⟩ := mem_map.1 hmem
    rwa [Option.isSome_eq_false_iff.1 hnone |> Option.isNone_iff_eq_none.1] at hr
  have hzero := h.refuses rs hrs hfail
  exact absurd hzero (by decide)

end Resolv
