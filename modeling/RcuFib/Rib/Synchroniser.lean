import RcuFib.Rib.Rib
import RcuFib.Fib.Variants

/-! `fib_synchroniser` (`include/rcufib/rib.hpp`): which prefixes changed, resolved once at flush time.

    The dirty set is the list of its elements in the order an iteration would meet them. Inserting may
    rehash, so `mark_dirty` is told the order it leaves, which may be any; erasing keeps the order of
    the rest. `Programs` says of a batch that it brings the table up to date with the RIB. -/

namespace RcuFib
open Routine RadixTrie

variable {F : Width → Type} {w : Width}

structure SyncStats where
  /-- prefixes marked dirty -/
  marked : Nat
  /-- marks absorbed by an already-dirty prefix -/
  coalesced : Nat
  flushes : Nat
  updatesProgrammed : Nat
  adds : Nat
  removes : Nat
  deriving DecidableEq

structure Synchroniser (w : Width) where
  dirty : List (Prefix w)
  stats : SyncStats
  generation : UInt64

def FibEntry.decision (e : FibEntry) : NextHop × Protocol := (e.hop, e.source)

namespace Synchroniser

def fresh : Synchroniser w := ⟨[], ⟨0, 0, 0, 0, 0, 0⟩, 0⟩

def pending (s : Synchroniser w) : Nat := s.dirty.length

/-- `mark_dirty(prefix)`, with the order of the set after an insertion. -/
def markDirty (s : Synchroniser w) (p : Prefix w) (order : List (Prefix w)) :
    Option (Synchroniser w) :=
  if p ∈ s.dirty then
    some { s with stats := { s.stats with coalesced := s.stats.coalesced + 1 } }
  else if order.Perm (p :: s.dirty) then
    some { s with dirty := order, stats := { s.stats with marked := s.stats.marked + 1 } }
  else none

/-- Resolve a prefix once, against whatever the RIB says now. -/
def resolve (rib : Rib w) (s : Synchroniser w) (p : Prefix w) : Synchroniser w × FibUpdate w :=
  match rib.best p with
  | some best =>
    let generation := s.generation + 1
    ({ s with generation, stats := { s.stats with adds := s.stats.adds + 1 } },
      ⟨p, ⟨best.hop, best.source, generation⟩, .add⟩)
  | none =>
    ({ s with stats := { s.stats with removes := s.stats.removes + 1 } }, ⟨p, .zero, .remove⟩)

/-- The loop of `flush`: take prefixes off the set and fill the batch. -/
def drain (rib : Rib w) :
    Nat → Synchroniser w → List (FibUpdate w) → Synchroniser w × List (FibUpdate w)
  | 0, s, batch => (s, batch)
  | take + 1, s, batch =>
    match s.dirty with
    | [] => (s, batch)
    | p :: rest =>
      let (s, u) := resolve rib { s with dirty := rest } p
      drain rib take s (batch ++ [u])

/-- How many prefixes `flush(limit)` takes; no limit is written 0. -/
def takes (s : Synchroniser w) (limit : Nat) : Nat :=
  if limit = 0 then s.dirty.length else min limit s.dirty.length

/-- `flush(limit)`. -/
def flush [Fib F] (fuel : Nat) (rib : Rib w) (fib : F w) (s : Synchroniser w) (limit : Nat) :
    Option (F w × Synchroniser w × Nat) :=
  if s.dirty.isEmpty then some (fib, s, 0)
  else
    let s := { s with stats := { s.stats with flushes := s.stats.flushes + 1 } }
    let (s, batch) := drain rib (s.takes limit) s []
    (Fib.apply fuel fib batch).map fun x =>
      (x.1, { s with stats := { s.stats with
        updatesProgrammed := s.stats.updatesProgrammed + batch.length } }, batch.length)

/-- What `flush(limit)` does besides its call of `fib_.apply`, and the batch it calls it with. -/
def flushBatch (rib : Rib w) (s : Synchroniser w) (limit : Nat) :
    Synchroniser w × Option (List (FibUpdate w)) :=
  if s.dirty.isEmpty then (s, none)
  else
    let s := { s with stats := { s.stats with flushes := s.stats.flushes + 1 } }
    let (s, batch) := drain rib (s.takes limit) s []
    ({ s with stats := { s.stats with
      updatesProgrammed := s.stats.updatesProgrammed + batch.length } }, some batch)

theorem flush_eq [Fib F] (fuel : Nat) (rib : Rib w) (fib : F w) (s : Synchroniser w) (limit : Nat) :
    flush fuel rib fib s limit = match flushBatch rib s limit with
      | (s, none) => some (fib, s, 0)
      | (s, some batch) => (Fib.apply fuel fib batch).map fun x => (x.1, s, batch.length) := by
  unfold flush flushBatch
  split <;> rfl

/-- The loop of `flush_all(batch_size)`. -/
def flushAll [Fib F] (fuel : Nat) (rib : Rib w) (batchSize : Nat) :
    Nat → F w → Synchroniser w → Nat → Option (F w × Synchroniser w × Nat)
  | 0, _, _, _ => none
  | rounds + 1, fib, s, total =>
    if s.dirty.isEmpty then some (fib, s, total)
    else (flush fuel rib fib s batchSize).bind fun x =>
      flushAll fuel rib batchSize rounds x.1 x.2.1 (total + x.2.2)

end Synchroniser

/-! ### A batch -/

/-- The update puts at its prefix what the RIB says, whatever was there. -/
def Programs (rib : Rib w) (u : FibUpdate w) : Prop :=
  ∀ C, (u.update.effect C u.pfx).map FibEntry.decision = (rib.best u.pfx).map Route.decision

/-- The update carries the RIB's best route for its prefix, or removes it where there is none. -/
def Resolves (rib : Rib w) (u : FibUpdate w) : Prop :=
  match rib.best u.pfx with
  | some best => u.kind = .add ∧ u.entry.hop = best.hop ∧ u.entry.source = best.source
  | none => u.kind = .remove

theorem Resolves.programs {rib : Rib w} {u : FibUpdate w} (h : Resolves rib u) : Programs rib u := by
  obtain ⟨p, entry, kind⟩ := u
  intro C
  unfold Resolves at h
  cases hbest : rib.best p with
  | some best =>
    simp only [hbest] at h
    obtain ⟨rfl, hhop, hsource⟩ := h
    simp [FibUpdate.update, Update.effect, FibEntry.decision, Route.decision, hhop, hsource]
  | none =>
    simp only [hbest] at h
    obtain rfl := h
    simp [FibUpdate.update, Update.effect]

theorem effect_of_ne {C : Prefix w → Option FibEntry} {u : FibUpdate w} {p : Prefix w}
    (hp : p ≠ u.pfx) : u.update.effect C p = C p := by
  obtain ⟨q, entry, kind⟩ := u
  cases kind with
  | add => exact Function.update_of_ne hp _ _
  | remove => exact Function.update_of_ne hp _ _

/-- Prefixes in the batch get what the RIB says, others keep what they had. -/
theorem effect_batch {rib : Rib w} {batch : List (FibUpdate w)} (h : ∀ u ∈ batch, Programs rib u)
    (p : Prefix w) : ∀ C : Prefix w → Option FibEntry,
      ((FibCall.apply batch).effect C p).map FibEntry.decision =
        if p ∈ batch.map FibUpdate.pfx then (rib.best p).map Route.decision
        else (C p).map FibEntry.decision := by
  induction batch with
  | nil => exact fun C => rfl
  | cons u batch ih =>
    intro C
    have hrest := ih (fun v hv => h v (List.mem_cons_of_mem _ hv)) (u.update.effect C)
    have hcons : (FibCall.apply (u :: batch)).effect C =
        (FibCall.apply batch).effect (u.update.effect C) := rfl
    rw [hcons, hrest, List.map_cons]
    by_cases hp : p ∈ batch.map FibUpdate.pfx
    · rw [if_pos hp, if_pos (List.mem_cons_of_mem _ hp)]
    · rw [if_neg hp]
      rcases eq_or_ne p u.pfx with rfl | hne
      · rw [if_pos List.mem_cons_self]
        exact h u List.mem_cons_self C
      · rw [if_neg, effect_of_ne hne]
        rintro (_ | ⟨_, hmem⟩)
        · exact hne rfl
        · exact hp hmem

namespace Synchroniser

variable {rib : Rib w}

theorem resolve_spec (rib : Rib w) (s : Synchroniser w) (p : Prefix w) :
    (resolve rib s p).1.dirty = s.dirty ∧ (resolve rib s p).2.pfx = p ∧
      Resolves rib (resolve rib s p).2 := by
  unfold resolve
  cases hbest : rib.best p with
  | some best => exact ⟨rfl, rfl, by simp [Resolves, hbest]⟩
  | none => exact ⟨rfl, rfl, by simp [Resolves, hbest]⟩

/-- The batch resolves the prefixes taken off the set. -/
theorem drain_spec (rib : Rib w) (take : Nat) : ∀ (s : Synchroniser w) (batch : List (FibUpdate w)),
    ∃ us : List (FibUpdate w), (drain rib take s batch).2 = batch ++ us ∧
      us.map FibUpdate.pfx = s.dirty.take take ∧ (∀ u ∈ us, Resolves rib u) ∧
      (drain rib take s batch).1.dirty = s.dirty.drop take := by
  induction take with
  | zero =>
    intro s batch
    exact ⟨[], by simp [drain]⟩
  | succ take ih =>
    intro s batch
    cases hdirty : s.dirty with
    | nil => exact ⟨[], by simp [drain, hdirty]⟩
    | cons p rest =>
      obtain ⟨hrest, hpfx, hprog⟩ := resolve_spec rib { s with dirty := rest } p
      obtain ⟨us, hbatch, hus, hall, hdrop⟩ := ih (resolve rib { s with dirty := rest } p).1
        (batch ++ [(resolve rib { s with dirty := rest } p).2])
      simp only [drain, hdirty]
      refine ⟨(resolve rib { s with dirty := rest } p).2 :: us, ?_, ?_, ?_, ?_⟩
      · rw [hbatch, List.append_assoc, List.singleton_append]
      · rw [List.map_cons, hus, hpfx, hrest, List.take_succ_cons]
      · exact List.forall_mem_cons.mpr ⟨hprog, hall⟩
      · rw [hdrop, hrest, List.drop_succ_cons]

/-- A flush hands over what it takes off the set, resolved. -/
theorem flushBatch_spec (rib : Rib w) (s : Synchroniser w) (limit : Nat) :
    (flushBatch rib s limit).1.dirty = s.dirty.drop (s.takes limit) ∧
    ((flushBatch rib s limit).2.getD []).map FibUpdate.pfx = s.dirty.take (s.takes limit) ∧
    ∀ u ∈ (flushBatch rib s limit).2.getD [], Resolves rib u := by
  unfold flushBatch
  split
  · next hnil =>
    rw [List.isEmpty_iff] at hnil
    rw [hnil, List.drop_nil, List.take_nil]
    exact ⟨rfl, rfl, fun u hu => absurd hu List.not_mem_nil⟩
  · obtain ⟨us, hbatch, hus, hall, hdrop⟩ := drain_spec rib (s.takes limit)
      { s with stats := { s.stats with flushes := s.stats.flushes + 1 } } []
    rw [List.nil_append] at hbatch
    subst hbatch
    exact ⟨hdrop, hus, hall⟩

theorem markDirty_spec {s s' : Synchroniser w} {p : Prefix w} {order : List (Prefix w)}
    (h : s.markDirty p order = some s') : (∀ q ∈ s.dirty, q ∈ s'.dirty) ∧ p ∈ s'.dirty := by
  unfold markDirty at h
  split at h
  · next hmem =>
    obtain rfl := Option.some.inj h
    exact ⟨fun _ hq => hq, hmem⟩
  · split at h
    · next hperm =>
      obtain rfl := Option.some.inj h
      exact ⟨fun q hq => hperm.mem_iff.mpr (List.mem_cons_of_mem _ hq),
        hperm.mem_iff.mpr List.mem_cons_self⟩
    · cases h

/-! ### What a flush guarantees -/

variable [Fib F] {fib fib' : F w} {s s' : Synchroniser w}

/-- The table agrees with the RIB on the prefixes in `P`. -/
def UpToDate (rib : Rib w) (fib : F w) (P : Prefix w → Prop) : Prop :=
  ∀ p, P p → ((Fib.trie fib).contents p).map FibEntry.decision = (rib.best p).map Route.decision

/-- From `fib` to a table in which the prefixes `taken` have what the RIB says and the others what they
    had. -/
def Written (rib : Rib w) (fib : F w) (taken : List (Prefix w)) (fib' : F w) : Prop :=
  ∀ p, ((Fib.trie fib').contents p).map FibEntry.decision =
    if p ∈ taken then (rib.best p).map Route.decision
    else ((Fib.trie fib).contents p).map FibEntry.decision

/-- From `fib` and `s`, with every prefix outside `X` and outside the dirty set up to date, to the
    same, with fewer prefixes dirty. -/
structure Flushed (rib : Rib w) (fib : F w) (s : Synchroniser w) (fib' : F w) (s' : Synchroniser w)
    (left : List (Prefix w)) : Prop where
  rest : Fib.AtRest fib'
  dirty : s'.dirty = left
  upToDate : ∀ X : Prefix w → Prop, UpToDate rib fib (fun p => p ∉ s.dirty ∧ X p) →
    UpToDate rib fib' (fun p => p ∉ s'.dirty ∧ X p)

/-- A table that has been written for the prefixes gone from the dirty set. -/
theorem Written.flushed {taken left : List (Prefix w)} (h : Written rib fib taken fib')
    (hrest : Fib.AtRest fib') (hdirty : s'.dirty = left)
    (hall : ∀ p ∈ s.dirty, p ∈ taken ∨ p ∈ left) : Flushed rib fib s fib' s' left := by
  refine ⟨hrest, hdirty, fun X hup p hp => ?_⟩
  rw [h p]
  split
  · rfl
  · next htaken =>
    refine hup p ⟨fun hmem => ?_, hp.2⟩
    rcases hall p hmem with hin | hleft
    · exact htaken hin
    · exact hp.1 (hdirty ▸ hleft)

theorem flush_written (rib : Rib w) (h : Fib.AtRest fib) (s : Synchroniser w) (limit : Nat) :
    ∃ fib' s' n fuel₀, Fib.AtRest fib' ∧ Written rib fib (s.dirty.take (s.takes limit)) fib' ∧
      s'.dirty = s.dirty.drop (s.takes limit) ∧
      ∀ fuel > fuel₀, flush fuel rib fib s limit = some (fib', s', n) := by
  by_cases hnil : s.dirty.isEmpty
  · refine ⟨fib, s, 0, 0, h, fun p => ?_, ?_, fun fuel _ => by rw [flush, if_pos hnil]⟩
    · rw [List.isEmpty_iff.mp hnil, List.take_nil, if_neg List.not_mem_nil]
    · rw [List.isEmpty_iff.mp hnil, List.drop_nil]
  · obtain ⟨us, hbatch, hus, hall, hdrop⟩ := drain_spec rib (s.takes limit)
      { s with stats := { s.stats with flushes := s.stats.flushes + 1 } } []
    rw [List.nil_append] at hbatch
    generalize hd : drain rib (s.takes limit) _ [] = d at hbatch hdrop
    obtain ⟨fib', applied, fuel₀, hrest, hC, hrun⟩ := Fib.apply_spec h us
    refine ⟨fib', { d.1 with stats := { d.1.stats with
      updatesProgrammed := d.1.stats.updatesProgrammed + us.length } }, us.length, fuel₀, hrest,
      fun p => ?_, hdrop, fun fuel hf => ?_⟩
    · rw [hC, effect_batch fun u hu => (hall u hu).programs, hus]
    · simp only [flush, if_neg hnil]
      simp only [takes] at hd ⊢
      rw [hd, hbatch, hrun fuel hf]
      rfl

theorem flush_spec (rib : Rib w) (h : Fib.AtRest fib) (s : Synchroniser w) (limit : Nat) :
    ∃ fib' s' n fuel₀, Flushed rib fib s fib' s' (s.dirty.drop (s.takes limit)) ∧
      ∀ fuel > fuel₀, flush fuel rib fib s limit = some (fib', s', n) := by
  obtain ⟨fib', s', n, fuel₀, hrest, hwritten, hdirty, hrun⟩ := flush_written rib h s limit
  refine ⟨fib', s', n, fuel₀, hwritten.flushed hrest hdirty fun p hp => ?_, hrun⟩
  rwa [← List.mem_append, List.take_append_drop]

/-- `flush_all` writes the whole dirty set, in rounds. -/
theorem flushAll_written (rib : Rib w) (batchSize : Nat) : ∀ (n : Nat) {fib : F w}
    {s : Synchroniser w} (total : Nat), Fib.AtRest fib → s.dirty.length ≤ n →
      ∃ fib' s' m fuel₀, Fib.AtRest fib' ∧ Written rib fib s.dirty fib' ∧ s'.dirty = [] ∧
        ∀ fuel > fuel₀, ∀ rounds > n,
          flushAll fuel rib batchSize rounds fib s total = some (fib', s', m) := by
  have hdone : ∀ {n : Nat} {fib : F w} {s : Synchroniser w} (total : Nat), Fib.AtRest fib →
      s.dirty = [] → ∃ fib' s' m fuel₀, Fib.AtRest fib' ∧ Written rib fib s.dirty fib' ∧
        s'.dirty = [] ∧ ∀ fuel > fuel₀, ∀ rounds > n,
          flushAll fuel rib batchSize rounds fib s total = some (fib', s', m) := by
    intro n fib s total h hnil
    refine ⟨fib, s, total, 0, h, fun p => ?_, hnil, fun fuel _ rounds hr => ?_⟩
    · rw [hnil, if_neg List.not_mem_nil]
    · obtain ⟨rounds, rfl⟩ := Nat.exists_eq_succ_of_ne_zero (Nat.ne_zero_of_lt hr)
      rw [flushAll, hnil]
      rfl
  intro n
  induction n with
  | zero =>
    intro fib s total h hn
    exact hdone total h (List.eq_nil_of_length_eq_zero (Nat.le_zero.mp hn))
  | succ n ih =>
    intro fib s total h hn
    by_cases hnil : s.dirty = []
    · exact hdone total h hnil
    · obtain ⟨fib₁, s₁, k, f₁, hrest₁, h₁, hdirty₁, hrun₁⟩ := flush_written rib h s batchSize
      have hlen : s₁.dirty.length ≤ n := by
        have hpos := List.length_pos_iff.mpr hnil
        rw [hdirty₁, List.length_drop, takes]
        split <;> omega
      obtain ⟨fib₂, s₂, m, f₂, hrest₂, h₂, hdirty₂, hrun₂⟩ := ih (total + k) hrest₁ hlen
      refine ⟨fib₂, s₂, m, max f₁ f₂, hrest₂, fun p => ?_, hdirty₂, fun fuel hf rounds hr => ?_⟩
      · rw [h₂ p, h₁ p, hdirty₁]
        by_cases hp : p ∈ s.dirty
        · rw [if_pos hp]
          rw [← List.take_append_drop (s.takes batchSize) s.dirty, List.mem_append] at hp
          split
          · rfl
          · next hdrop => rw [if_pos (hp.resolve_right hdrop)]
        · rw [if_neg hp, if_neg fun h => hp (List.mem_of_mem_drop h),
            if_neg fun h => hp (List.mem_of_mem_take h)]
      · obtain ⟨hf₁, hf₂⟩ := max_lt_iff.mp hf
        obtain ⟨rounds, rfl⟩ := Nat.exists_eq_succ_of_ne_zero (Nat.ne_zero_of_lt hr)
        rw [flushAll, if_neg (by simpa using hnil), hrun₁ fuel hf₁, Option.bind_some]
        exact hrun₂ fuel hf₂ rounds (Nat.lt_of_succ_lt_succ hr)

/-- `flush_all` ends with nothing pending. -/
theorem flushAll_spec (rib : Rib w) (batchSize : Nat) (n : Nat) {fib : F w} {s : Synchroniser w}
    (total : Nat) (h : Fib.AtRest fib) (hn : s.dirty.length ≤ n) :
    ∃ fib' s' m fuel₀, Flushed rib fib s fib' s' [] ∧ ∀ fuel > fuel₀, ∀ rounds > n,
      flushAll fuel rib batchSize rounds fib s total = some (fib', s', m) := by
  obtain ⟨fib', s', m, fuel₀, hrest, hwritten, hdirty, hrun⟩ :=
    flushAll_written rib batchSize n total h hn
  exact ⟨fib', s', m, fuel₀, hwritten.flushed hrest hdirty fun _ hp => .inl hp, hrun⟩

/-! ### Whatever the fuel -/

variable {fuel fuel' limit batchSize n : Nat}

theorem flush_mono {x : F w × Synchroniser w × Nat} (hle : fuel ≤ fuel')
    (h : flush fuel rib fib s limit = some x) : flush fuel' rib fib s limit = some x := by
  unfold flush at h ⊢
  split at h
  · next hnil => rw [if_pos hnil]; exact h
  · next hnil =>
    rw [if_neg hnil]
    obtain ⟨y, hy, rfl⟩ := Option.map_eq_some_iff.mp h
    exact Option.map_eq_some_iff.mpr ⟨y, Fib.apply_mono hle hy, rfl⟩

theorem flushAll_mono {x : F w × Synchroniser w × Nat} (hle : fuel ≤ fuel') :
    ∀ {rounds rounds' : Nat} {fib : F w} {s : Synchroniser w} {total : Nat}, rounds ≤ rounds' →
      flushAll fuel rib batchSize rounds fib s total = some x →
        flushAll fuel' rib batchSize rounds' fib s total = some x := by
  intro rounds
  induction rounds with
  | zero => intro rounds' fib s total _ h; cases h
  | succ rounds ih =>
    rintro (_ | rounds') fib s total hr h
    · exact absurd hr (Nat.not_succ_le_zero _)
    · rw [flushAll] at h ⊢
      split at h
      · next hnil => rw [if_pos hnil]; exact h
      · next hnil =>
        rw [if_neg hnil]
        obtain ⟨y, hy, hrest⟩ := Option.bind_eq_some_iff.mp h
        rw [flush_mono hle hy, Option.bind_some]
        exact ih (Nat.le_of_succ_le_succ hr) hrest

theorem flush_flushed (h : Fib.AtRest fib) (hrun : flush fuel rib fib s limit = some (fib', s', n)) :
    ∃ left, Flushed rib fib s fib' s' left := by
  obtain ⟨fib₁, s₁, k, fuel₀, h₁, hspec⟩ := flush_spec rib h s limit
  cases eq_of_fuel (fun _ hle => flush_mono hle hrun) hspec
  exact ⟨_, h₁⟩

theorem flushAll_flushed (h : Fib.AtRest fib)
    (hrun : flushAll fuel rib batchSize fuel fib s 0 = some (fib', s', n)) :
    Flushed rib fib s fib' s' [] := by
  obtain ⟨fib₁, s₁, k, fuel₀, h₁, hspec⟩ := flushAll_spec rib batchSize s.dirty.length 0 h le_rfl
  have hspec : ∀ fuel > max fuel₀ s.dirty.length,
      flushAll fuel rib batchSize fuel fib s 0 = some (fib₁, s₁, k) := fun fuel hf =>
    hspec fuel (max_lt_iff.mp hf).1 fuel (max_lt_iff.mp hf).2
  cases eq_of_fuel (fun _ hle => flushAll_mono hle hle hrun) hspec
  exact h₁

end Synchroniser

end RcuFib
