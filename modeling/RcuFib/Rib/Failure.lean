import RcuFib.Fib.Failure
import RcuFib.Rib.Synchroniser

/-! A flush whose `apply` throws.

    By then the whole batch is off the dirty set, and `flush` puts nothing back. What the table holds
    afterwards are the updates before the one that threw, and that one too where it threw on handing an
    old value to the reclaimer. -/

namespace RcuFib
open RadixTrie

namespace Synchroniser

variable {w : Width} {rib : Rib w} {fib fib' : RcuFib w} {s s' : Synchroniser w}
  {fuel limit batchSize k a b : Nat} {f : Fault}

/-- `flush(limit)` where `apply` throws at update `k` of the batch. -/
def flushThrows (fuel : Nat) (f : Fault) (k : Nat) (rib : Rib w) (fib : RcuFib w) (s : Synchroniser w)
    (limit : Nat) : Option (RcuFib w × Synchroniser w) :=
  if s.dirty.isEmpty then none
  else
    let s := { s with stats := { s.stats with flushes := s.stats.flushes + 1 } }
    let (s, batch) := drain rib (s.takes limit) s []
    (applyThrows fuel f k fib.trie batch).map fun t => (⟨t⟩, s)

/-- The prefixes such a flush takes off the dirty set and does not program. -/
def lost (s : Synchroniser w) (f : Fault) (k limit : Nat) : List (Prefix w) :=
  (s.dirty.take (s.takes limit)).drop (k + f.done)

theorem flushThrows_written (h : fib.trie.InOrder)
    (hthrow : flushThrows fuel f k rib fib s limit = some (fib', s')) :
    fib'.trie.InOrder ∧ Written rib fib ((s.dirty.take (s.takes limit)).take (k + f.done)) fib' ∧
      s'.dirty = s.dirty.drop (s.takes limit) := by
  unfold flushThrows at hthrow
  split at hthrow
  · cases hthrow
  · obtain ⟨us, hbatch, hus, hall, hdrop⟩ := drain_spec rib (s.takes limit)
      { s with stats := { s.stats with flushes := s.stats.flushes + 1 } } []
    rw [List.nil_append] at hbatch
    simp only [takes] at hthrow hbatch hus hdrop ⊢
    obtain ⟨t, happly, heq⟩ := Option.map_eq_some_iff.mp hthrow
    cases heq
    rw [hbatch] at happly
    obtain ⟨hin, hC⟩ := applyThrows_spec k h happly
    refine ⟨hin, fun p => ?_, hdrop⟩
    have hC : (Fib.trie (⟨t⟩ : RcuFib w)).contents =
        (FibCall.apply (us.take (k + f.done))).effect (Fib.trie fib).contents := hC
    rw [hC, effect_batch fun u hu => (hall u (List.mem_of_mem_take hu)).programs, List.map_take, hus]

/-! ### The flushes after it -/

theorem flush_recount (h : Fib.AtRest fib) :
    flush fuel rib (⟨fib.trie.recount a b⟩ : RcuFib w) s limit =
      (flush fuel rib fib s limit).map fun x => (⟨x.1.trie.recount a b⟩, x.2) := by
  unfold flush
  split
  · rfl
  · have happly : ∀ batch, Fib.apply fuel (⟨fib.trie.recount a b⟩ : RcuFib w) batch =
        (Fib.apply fuel fib batch).map fun x => (⟨x.1.trie.recount a b⟩, x.2) := by
      intro batch
      change (applyLoop fuel (fib.trie.recount a b) batch 0).map _ =
        ((applyLoop fuel fib.trie batch 0).map _).map _
      rw [applyLoop_recount h, Option.map_map, Option.map_map]
      rfl
    simp only [happly, Option.map_map]
    rfl

theorem flushAll_recount : ∀ {rounds : Nat} {fib : RcuFib w} {s : Synchroniser w} {total : Nat},
    Fib.AtRest fib → flushAll fuel rib batchSize rounds (⟨fib.trie.recount a b⟩ : RcuFib w) s total =
      (flushAll fuel rib batchSize rounds fib s total).map
        fun x => (⟨x.1.trie.recount a b⟩, x.2) := by
  intro rounds
  induction rounds with
  | zero => intro fib s total _; rfl
  | succ rounds ih =>
    intro fib s total h
    rw [flushAll, flushAll]
    split
    · rfl
    · rw [flush_recount h]
      cases hflush : flush fuel rib fib s batchSize with
      | none => rfl
      | some x =>
        obtain ⟨left, hflushed⟩ := flush_flushed h hflush
        exact ih hflushed.rest

/-- `flush_all` ends and writes the dirty set, whatever the counters say. -/
theorem flushAll_inOrder (rib : Rib w) (batchSize : Nat) (s : Synchroniser w) (h : fib.trie.InOrder) :
    ∃ fib' s' n fuel₀, Written rib fib s.dirty fib' ∧ ∀ fuel > fuel₀, ∀ rounds > s.dirty.length,
      flushAll fuel rib batchSize rounds fib s 0 = some (fib', s', n) := by
  obtain ⟨t, a, b, ht, heq⟩ := h
  have ht : Fib.AtRest (⟨t⟩ : RcuFib w) := ht
  obtain ⟨fib', s', n, fuel₀, -, hwritten, -, hrun⟩ :=
    flushAll_written rib batchSize s.dirty.length 0 ht le_rfl
  have hfib : fib = ⟨t.recount a b⟩ := by cases fib; exact congrArg RcuFib.mk heq
  refine ⟨⟨fib'.trie.recount a b⟩, s', n, fuel₀, ?_, fun fuel hf rounds hr => ?_⟩
  · rw [hfib]
    exact hwritten
  · rw [hfib, flushAll_recount ht, hrun fuel hf rounds hr]
    rfl

/-! ### What is lost -/

/-- What is up to date after the failure, for any prefixes that are not to be programmed again. -/
theorem kept_iff (hnodup : s.dirty.Nodup)
    (h : Written rib fib ((s.dirty.take (s.takes limit)).take (k + f.done)) fib') :
    UpToDate rib fib' (fun p => p ∉ s.dirty.drop (s.takes limit)) ↔
      UpToDate rib fib fun p => p ∉ s.dirty ∨ p ∈ s.lost f k limit := by
  have hsplit : ∀ p, p ∈ s.dirty ↔ p ∈ (s.dirty.take (s.takes limit)).take (k + f.done) ∨
      p ∈ s.lost f k limit ∨ p ∈ s.dirty.drop (s.takes limit) := by
    intro p
    rw [lost, ← or_assoc, ← List.mem_append, List.take_append_drop, ← List.mem_append,
      List.take_append_drop]
  -- the dirty set holds no prefix twice, so what is lost is neither programmed nor left
  have hdirty := (List.take_append_drop (s.takes limit) s.dirty).symm ▸ hnodup
  obtain ⟨hbatch, -, hleft⟩ := List.nodup_append'.mp hdirty
  have hbatch := (List.take_append_drop (k + f.done) (s.dirty.take (s.takes limit))).symm ▸ hbatch
  obtain ⟨-, -, hdone⟩ := List.nodup_append'.mp hbatch
  constructor
  · intro hup p hp
    have hnot : p ∉ (s.dirty.take (s.takes limit)).take (k + f.done) := by
      intro hmem
      rcases hp with hout | hlost
      · exact hout ((hsplit p).mpr (.inl hmem))
      · exact hdone hmem hlost
    have hkept : p ∉ s.dirty.drop (s.takes limit) := by
      intro hmem
      rcases hp with hout | hlost
      · exact hout ((hsplit p).mpr (.inr (.inr hmem)))
      · exact hleft (List.mem_of_mem_drop hlost) hmem
    have hdecision := hup p hkept
    rwa [h p, if_neg hnot] at hdecision
  · intro hup p hp
    rw [h p]
    split
    · rfl
    · next hnot =>
      refine hup p ?_
      by_cases hmem : p ∈ s.dirty
      · exact .inr ((((hsplit p).mp hmem).resolve_left hnot).resolve_right hp)
      · exact .inl hmem

/-- After a flush that has thrown, every prefix on which the table and the RIB disagree is still dirty,
    and a `flush_all` restores agreement, exactly if they agreed before on the prefixes that were not
    dirty and on those that are lost. -/
theorem failed_flush (hfib : fib.trie.InOrder) (hnodup : s.dirty.Nodup)
    (hthrow : flushThrows fuel f k rib fib s limit = some (fib', s')) (batchSize : Nat) :
    (UpToDate rib fib' (fun p => p ∉ s'.dirty) ↔
      UpToDate rib fib fun p => p ∉ s.dirty ∨ p ∈ s.lost f k limit) ∧
    ∃ fib'' s'' n fuel₀, (∀ fuel > fuel₀, ∀ rounds > s'.dirty.length,
        flushAll fuel rib batchSize rounds fib' s' 0 = some (fib'', s'', n)) ∧
      (UpToDate rib fib'' (fun _ => True) ↔
        UpToDate rib fib fun p => p ∉ s.dirty ∨ p ∈ s.lost f k limit) := by
  obtain ⟨hfib', hwritten, hdirty⟩ := flushThrows_written hfib hthrow
  have hkept := kept_iff hnodup hwritten
  rw [← hdirty] at hkept
  obtain ⟨fib'', s'', n, fuel₀, hall, hrun⟩ := flushAll_inOrder rib batchSize s' hfib'
  refine ⟨hkept, fib'', s'', n, fuel₀, hrun, ?_⟩
  rw [← hkept]
  constructor
  · intro hup p hp
    have hdecision := hup p trivial
    rwa [hall p, if_neg hp] at hdecision
  · intro hup p _
    rw [hall p]
    split
    · rfl
    · next hp => exact hup p hp

/-! ### One route that never arrives -/

def announced : Route .ipv4 := ⟨.make (.fromV4 0x0A000000) 8 Width.eight_le_ipv4, ⟨1, 1, 0, 0⟩, .bgp, 5⟩

def announcedRib : Rib .ipv4 := (Rib.empty.add announced).1

def announcedSync : Synchroniser .ipv4 := ⟨[announced.pfx], ⟨1, 0, 0, 0, 0, 0⟩, 0⟩

theorem upToDate_announced :
    UpToDate announcedRib (Fib.empty : RcuFib .ipv4) fun p => p ∉ announcedSync.dirty := by
  intro p hp
  have hne : p ≠ announced.pfx := fun heq => hp (List.mem_singleton.mpr heq)
  have hbest : announcedRib.best p = none := by
    have hlookup : announcedRib.table.lookup p = (∅ : AList fun _ => RibEntry .ipv4).lookup p :=
      AList.lookup_insert_ne hne
    rw [Rib.best, hlookup]
    rfl
  rw [Fib.empty_spec.2, hbest]
  rfl

/-- The first allocation of its `insert` fails. -/
theorem failed_flush_announced :
    UpToDate announcedRib (Fib.empty : RcuFib .ipv4) (fun p => p ∉ ([] : List (Prefix .ipv4))) ↔
      UpToDate announcedRib (Fib.empty : RcuFib .ipv4)
        fun p => p ∉ announcedSync.dirty ∨ p ∈ announcedSync.lost (.new 0) 0 0 := by
  have hthrow : flushThrows 1 (.new 0) 0 announcedRib Fib.empty announcedSync 0 =
      some (Fib.empty, ⟨[], ⟨1, 0, 1, 0, 1, 0⟩, 1⟩) := by rfl
  have hfib : (Fib.empty : RcuFib .ipv4).trie.InOrder :=
    WriterInv.inOrder (Fib.empty_spec (F := RcuFib)).1
  exact (failed_flush hfib (List.nodup_singleton _) hthrow 1024).1

theorem flush_loses_announced :
    ¬∀ (rib : Rib .ipv4) (fib fib' : RcuFib .ipv4) (s s' : Synchroniser .ipv4) (fuel limit k : Nat)
      (f : Fault), Fib.AtRest fib → s.dirty.Nodup → UpToDate rib fib (fun p => p ∉ s.dirty) →
        flushThrows fuel f k rib fib s limit = some (fib', s') →
          UpToDate rib fib' fun p => p ∉ s'.dirty := by
  intro h
  have hkept := h announcedRib Fib.empty Fib.empty announcedSync ⟨[], ⟨1, 0, 1, 0, 1, 0⟩, 1⟩ 1 0 0
    (.new 0) Fib.empty_spec.1 (List.nodup_singleton _) upToDate_announced (by rfl)
  have hdecision := hkept announced.pfx List.not_mem_nil
  rw [Fib.empty_spec.2] at hdecision
  cases hdecision

end Synchroniser

end RcuFib
