import RcuFib.Rib.Convergence

/-! What a synchroniser writes to its table, and what its counters say of it.

    The table records every update of every batch it is given. `Booked` ties the counters to that
    record: the generations handed out are 1, 2, 3 and so on along its additions. Unlike the control
    plane, nothing is asked here of who marks what and when: the RIB changes as it likes. -/

namespace RcuFib
open Routine RadixTrie Trace Synchroniser

variable {F : Width → Type} {w : Width}

/-- A table and the updates it was given, in order. -/
structure Recorded (F : Width → Type) (w : Width) where
  fib : F w
  log : List (FibUpdate w)

instance [Fib F] : Fib (Recorded F) where
  trie r := Fib.trie r.fib
  AtRest r := Fib.AtRest r.fib
  empty := ⟨Fib.empty, []⟩
  apply fuel r updates :=
    (Fib.apply fuel r.fib updates).map fun x => (⟨x.1, r.log ++ updates⟩, x.2)
  lookup fuel r a := Fib.lookup fuel r.fib a
  empty_spec := Fib.empty_spec
  apply_spec := fun {w r} h updates => by
    obtain ⟨fib', applied, fuel₀, hrest, hC, hrun⟩ := Fib.apply_spec h updates
    refine ⟨⟨fib', r.log ++ updates⟩, applied, fuel₀, hrest, hC, fun fuel hf => ?_⟩
    rw [hrun fuel hf]
    rfl
  apply_mono := by
    intro w r updates x fuel fuel' hle h
    obtain ⟨y, hy, rfl⟩ := Option.map_eq_some_iff.mp h
    exact Option.map_eq_some_iff.mpr ⟨y, Fib.apply_mono hle hy, rfl⟩
  lookup_spec := Fib.lookup_spec

/-- The contents of an empty table after the updates. -/
def contentsAfter (log : List (FibUpdate w)) : Prefix w → Option FibEntry :=
  (FibCall.apply log).effect fun _ => none

theorem contentsAfter_append (log us : List (FibUpdate w)) :
    contentsAfter (log ++ us) = (FibCall.apply us).effect (contentsAfter log) := by
  simp only [contentsAfter, FibCall.effect, FibCall.updates, List.map_append, List.foldl_append]

/-- The generations of the additions among the updates. -/
def generations (log : List (FibUpdate w)) : List UInt64 :=
  (log.filter fun u => u.kind = .add).map fun u => u.entry.generation

/-! ### The counters and the record -/

namespace Synchroniser
variable {rib : Rib w} {s s' : Synchroniser w} {log us : List (FibUpdate w)}

/-- `adds`, `removes` and `generation` say what the record says. -/
structure Booked (s : Synchroniser w) (log : List (FibUpdate w)) : Prop where
  programmed : s.stats.adds + s.stats.removes = log.length
  generation : s.generation = UInt64.ofNat s.stats.adds
  generations : generations log = (List.range' 1 s.stats.adds).map UInt64.ofNat

theorem booked_fresh : (fresh : Synchroniser w).Booked [] := ⟨rfl, rfl, rfl⟩

theorem Booked.resolve (h : s.Booked log) (rib : Rib w) (p : Prefix w) :
    (resolve rib s p).1.Booked (log ++ [(resolve rib s p).2]) := by
  have hlen := h.programmed
  unfold Synchroniser.resolve
  cases rib.best p with
  | some best =>
    have hgen : s.generation + 1 = UInt64.ofNat (s.stats.adds + 1) := by
      rw [h.generation, UInt64.ofNat_add]
      rfl
    refine ⟨?_, hgen, ?_⟩
    · simp only [List.length_append, List.length_singleton]
      omega
    · have hprior := h.generations
      rw [RcuFib.generations] at hprior
      rw [RcuFib.generations, List.filter_append, List.map_append, hprior, List.range'_concat,
        List.map_append]
      simp [hgen, Nat.add_comm]
  | none =>
    refine ⟨?_, h.generation, ?_⟩
    · simp only [List.length_append, List.length_singleton]
      omega
    · have hprior := h.generations
      rw [RcuFib.generations] at hprior ⊢
      rw [List.filter_append, List.map_append, hprior]
      simp

/-- The counters that `drain` leaves to its callers. -/
structure Aside (s s' : Synchroniser w) : Prop where
  marked : s'.stats.marked = s.stats.marked
  coalesced : s'.stats.coalesced = s.stats.coalesced
  updatesProgrammed : s'.stats.updatesProgrammed = s.stats.updatesProgrammed

theorem aside_resolve (rib : Rib w) (s : Synchroniser w) (p : Prefix w) : s.Aside (resolve rib s p).1 := by
  unfold resolve
  cases rib.best p with
  | some best => exact ⟨rfl, rfl, rfl⟩
  | none => exact ⟨rfl, rfl, rfl⟩

/-- A batch is booked as it is filled. -/
theorem booked_drain (rib : Rib w) (take : Nat) :
    ∀ (s : Synchroniser w) (batch : List (FibUpdate w)), s.Aside (drain rib take s batch).1 ∧
      ∀ log, s.Booked (log ++ batch) →
        (drain rib take s batch).1.Booked (log ++ (drain rib take s batch).2) := by
  induction take with
  | zero =>
    intro s batch
    exact ⟨⟨rfl, rfl, rfl⟩, fun log h => h⟩
  | succ take ih =>
    intro s batch
    cases hdirty : s.dirty with
    | nil =>
      simp only [drain, hdirty]
      exact ⟨⟨rfl, rfl, rfl⟩, fun log h => h⟩
    | cons p rest =>
      simp only [drain, hdirty]
      obtain ⟨haside, hbooked⟩ := ih (resolve rib { s with dirty := rest } p).1
        (batch ++ [(resolve rib { s with dirty := rest } p).2])
      have hfirst := aside_resolve rib { s with dirty := rest } p
      refine ⟨⟨haside.marked.trans hfirst.marked, haside.coalesced.trans hfirst.coalesced,
        haside.updatesProgrammed.trans hfirst.updatesProgrammed⟩, fun log h => hbooked log ?_⟩
      rw [← List.append_assoc]
      exact Booked.resolve (s := { s with dirty := rest }) ⟨h.programmed, h.generation, h.generations⟩ rib p

/-! ### A flush -/

variable [Fib F] {fib fib' : Recorded F w} {fuel limit n : Nat}

/-- `us` is a batch that takes the table and the synchroniser to what they are after a flush. -/
structure Writes (rib : Rib w) (s : Synchroniser w) (limit : Nat) (us : List (FibUpdate w)) : Prop where
  prefixes : us.map FibUpdate.pfx = s.dirty.take (s.takes limit)
  resolves : ∀ u ∈ us, Resolves rib u

theorem Writes.length_eq (h : Writes rib s limit us) : us.length = s.takes limit := by
  have hlen := congrArg List.length h.prefixes
  rw [List.length_map, List.length_take] at hlen
  rw [hlen, takes]
  split <;> omega

/-- What a flush does to the record and the counters, given the batch it writes. -/
structure Flushes (s : Synchroniser w) (fib : Recorded F w) (limit : Nat) (us : List (FibUpdate w))
    (s' : Synchroniser w) (fib' : Recorded F w) : Prop where
  dirty : s'.dirty = s.dirty.drop (s.takes limit)
  marked : s'.stats.marked = s.stats.marked
  coalesced : s'.stats.coalesced = s.stats.coalesced
  updatesProgrammed : s'.stats.updatesProgrammed = s.stats.updatesProgrammed + us.length
  log : fib'.log = fib.log ++ us
  booked : s.Booked fib.log → s'.Booked fib'.log
  rest : Fib.AtRest fib → Fib.AtRest fib' ∧
    (Fib.trie fib').contents = (FibCall.apply us).effect (Fib.trie fib).contents

/-- The batch a flush writes does not depend on the table. -/
theorem flush_writes (rib : Rib w) (s : Synchroniser w) (limit : Nat) : ∃ us, Writes rib s limit us ∧
    ∀ {fuel : Nat} {fib fib' : Recorded F w} {s' : Synchroniser w} {n : Nat},
      flush fuel rib fib s limit = some (fib', s', n) → n = us.length ∧ s.Flushes fib limit us s' fib' := by
  by_cases hnil : s.dirty.isEmpty
  · have hnil' := List.isEmpty_iff.mp hnil
    refine ⟨[], ⟨by rw [hnil', List.take_nil, List.map_nil], nofun⟩, fun {fuel fib fib' s' n} hrun => ?_⟩
    rw [flush, if_pos hnil] at hrun
    cases hrun
    refine ⟨rfl, by rw [hnil', List.drop_nil], rfl, rfl, rfl, (List.append_nil _).symm, id, fun h => ⟨h, rfl⟩⟩
  · obtain ⟨us, hbatch, hus, hall, hdrop⟩ := drain_spec rib (s.takes limit)
      { s with stats := { s.stats with flushes := s.stats.flushes + 1 } } []
    obtain ⟨haside, hbooked⟩ := booked_drain rib (s.takes limit)
      { s with stats := { s.stats with flushes := s.stats.flushes + 1 } } []
    rw [List.nil_append] at hbatch
    rw [hbatch] at hbooked
    refine ⟨us, ⟨hus, hall⟩, fun {fuel fib fib' s' n} hrun => ?_⟩
    simp only [flush, if_neg hnil] at hrun
    simp only [takes] at hrun hbatch hdrop haside hbooked
    rw [hbatch] at hrun
    obtain ⟨⟨fib₁, applied⟩, happly, hx⟩ := Option.map_eq_some_iff.mp hrun
    cases hx
    obtain ⟨x, hinner, hlog⟩ := Option.map_eq_some_iff.mp happly
    have hfib : fib₁ = ⟨x.1, fib.log ++ us⟩ := (Prod.mk.inj hlog).1.symm
    refine ⟨rfl, hdrop, haside.marked, haside.coalesced, ?_, by rw [hfib], fun h => ?_, fun h => ?_⟩
    · dsimp only
      rw [haside.updatesProgrammed]
    · rw [hfib]
      rw [← List.append_nil fib.log] at h
      have hb := hbooked fib.log ⟨h.programmed, h.generation, h.generations⟩
      exact ⟨hb.programmed, hb.generation, hb.generations⟩
    · obtain ⟨fib₂, applied', fuel₀, hrest, hC, hspec⟩ := Fib.apply_spec h us
      cases eq_of_fuel (fun _ hle => Fib.apply_mono hle happly) hspec
      exact ⟨hrest, hC⟩

end Synchroniser
/-! ### A synchroniser in use -/

structure SyncSystem (F : Width → Type) (w : Width) where
  rib : Rib w
  fib : F w
  sync : Synchroniser w
  /-- calls of `mark_dirty` -/
  marks : Nat

namespace SyncSystem
open ControlPlane (Action)

variable [Fib F]

def init : SyncSystem F w := ⟨.empty, Fib.empty, .fresh, 0⟩

/-- RIB operations, marks and flushes in any order. -/
def act (s : SyncSystem F w) : Action w → Option (SyncSystem F w)
  | .add candidate => some { s with rib := (s.rib.add candidate).1 }
  | .remove p source => some { s with rib := (s.rib.remove p source).1 }
  | .markDirty p order =>
    (s.sync.markDirty p order).map fun sync => { s with sync, marks := s.marks + 1 }
  | .flush fuel limit =>
    (s.sync.flush fuel s.rib s.fib limit).map fun x => { s with fib := x.1, sync := x.2.1 }
  | .flushAll fuel batchSize =>
    (s.sync.flushAll fuel s.rib batchSize fuel s.fib 0).map fun x =>
      { s with fib := x.1, sync := x.2.1 }

/-- The invariant: the record is what was written, and the counters agree with it. -/
structure Inv (s : SyncSystem (Recorded F) w) : Prop where
  rest : Fib.AtRest s.fib
  nodup : s.sync.dirty.Nodup
  booked : s.sync.Booked s.fib.log
  contents : (Fib.trie s.fib).contents = contentsAfter s.fib.log
  marks : s.sync.stats.marked + s.sync.stats.coalesced = s.marks
  marked : s.sync.stats.marked = s.sync.stats.updatesProgrammed + s.sync.pending
  programmed : s.sync.stats.updatesProgrammed = s.fib.log.length

variable {s s' : SyncSystem (Recorded F) w} {fuel limit batchSize : Nat} {p : Prefix w}

theorem inv_init : (init : SyncSystem (Recorded F) w).Inv := by
  obtain ⟨hrest, hempty⟩ := Fib.empty_spec (F := Recorded F) (w := w)
  exact ⟨hrest, List.nodup_nil, booked_fresh, hempty, rfl, rfl, rfl⟩

theorem Inv.flush (h : s.Inv) (hx : act s (.flush fuel limit) = some s') : s'.Inv := by
  obtain ⟨⟨fib', sync', n⟩, hrun, rfl⟩ := Option.map_eq_some_iff.mp hx
  obtain ⟨us, hwrites, hflush⟩ := flush_writes (F := F) s.rib s.sync limit
  obtain ⟨-, hf⟩ := hflush hrun
  obtain ⟨hrest, hC⟩ := hf.rest h.rest
  have hmarks := h.marks
  have hmarked := h.marked
  have hprogrammed := h.programmed
  have hlen := hwrites.length_eq
  have hle : s.sync.takes limit ≤ s.sync.dirty.length := by
    rw [takes]
    split <;> omega
  refine ⟨hrest, ?_, hf.booked h.booked, ?_, ?_, ?_, ?_⟩
  · rw [hf.dirty]
    exact h.nodup.sublist (List.drop_sublist _ _)
  · rw [hC, h.contents, hf.log, contentsAfter_append]
  · rw [hf.marked, hf.coalesced]
    exact hmarks
  · rw [pending] at hmarked ⊢
    rw [hf.marked, hf.updatesProgrammed, hf.dirty, List.length_drop]
    omega
  · rw [hf.updatesProgrammed, hf.log, List.length_append]
    omega

/-- `flush_all` is some number of flushes, one after the other, and counts what they write. -/
theorem flushAll_exec {rib : Rib w} (marks : Nat) : ∀ (rounds : Nat) {fib fib' : Recorded F w}
    {sync sync' : Synchroniser w} {total n : Nat},
    flushAll fuel rib batchSize rounds fib sync total = some (fib', sync', n) →
      n = total + sync.pending ∧ sync'.pending = 0 ∧
      ∃ k, Trace.exec act ⟨rib, fib, sync, marks⟩ (List.replicate k (.flush fuel batchSize)) =
        some ⟨rib, fib', sync', marks⟩ := by
  intro rounds
  induction rounds with
  | zero =>
    intro fib fib' sync sync' total n h
    cases h
  | succ rounds ih =>
    intro fib fib' sync sync' total n h
    rw [flushAll] at h
    split at h
    · next hnil =>
      cases h
      have hlen : sync.pending = 0 := by
        rw [pending, List.isEmpty_iff.mp hnil, List.length_nil]
      exact ⟨by rw [hlen, Nat.add_zero], hlen, 0, rfl⟩
    · obtain ⟨⟨fib₁, sync₁, k₁⟩, hrun, hrest⟩ := Option.bind_eq_some_iff.mp h
      obtain ⟨hn, hzero, k, hk⟩ := ih hrest
      obtain ⟨us, hwrites, hflush⟩ := flush_writes (F := F) rib sync batchSize
      obtain ⟨hk₁, hf⟩ := hflush hrun
      have hle : sync.takes batchSize ≤ sync.dirty.length := by
        rw [takes]
        split <;> omega
      refine ⟨?_, hzero, k + 1, ?_⟩
      · rw [hn, pending, pending, hf.dirty, List.length_drop]
        dsimp only
        rw [hk₁, hwrites.length_eq]
        omega
      · rw [List.replicate_succ, Trace.exec]
        have hact : act (⟨rib, fib, sync, marks⟩ : SyncSystem (Recorded F) w) (.flush fuel batchSize) =
            some ⟨rib, fib₁, sync₁, marks⟩ := by
          rw [act, hrun]
          rfl
        rw [hact, Option.bind_some]
        exact hk

/-- What every flush preserves, `flush_all` preserves. -/
theorem flushAll_invariant {P : SyncSystem (Recorded F) w → Prop}
    (hflush : ∀ s s' : SyncSystem (Recorded F) w, P s → act s (.flush fuel batchSize) = some s' → P s')
    (h : P s) (hx : act s (.flushAll fuel batchSize) = some s') : P s' := by
  obtain ⟨⟨fib', sync', n⟩, hrun, rfl⟩ := Option.map_eq_some_iff.mp hx
  obtain ⟨-, -, k, hk⟩ := flushAll_exec s.marks fuel hrun
  refine exec_invariant (fun s₁ a ha s₂ h₁ h₂ => ?_) h hk
  obtain rfl := List.eq_of_mem_replicate ha
  exact hflush s₁ s₂ h₁ h₂

theorem Inv.act (h : s.Inv) {a : Action w} (hx : act s a = some s') : s'.Inv := by
  cases a with
  | add candidate =>
    cases hx
    exact ⟨h.rest, h.nodup, h.booked, h.contents, h.marks, h.marked, h.programmed⟩
  | remove p source =>
    cases hx
    exact ⟨h.rest, h.nodup, h.booked, h.contents, h.marks, h.marked, h.programmed⟩
  | flush fuel limit => exact h.flush hx
  | flushAll fuel batchSize => exact flushAll_invariant (fun _ _ h₁ h₂ => h₁.flush h₂) h hx
  | markDirty p order =>
    obtain ⟨sync, hsync, rfl⟩ := Option.map_eq_some_iff.mp hx
    have hmarks := h.marks
    have hmarked := h.marked
    unfold markDirty at hsync
    split at hsync
    · obtain rfl := Option.some.inj hsync
      refine ⟨h.rest, h.nodup, ⟨h.booked.programmed, h.booked.generation, h.booked.generations⟩,
        h.contents, ?_, hmarked, h.programmed⟩
      dsimp only
      omega
    · next hp =>
      split at hsync
      · next hperm =>
        obtain rfl := Option.some.inj hsync
        refine ⟨h.rest, ?_, ⟨h.booked.programmed, h.booked.generation, h.booked.generations⟩,
          h.contents, ?_, ?_, h.programmed⟩
        · exact hperm.nodup_iff.mpr (List.nodup_cons.mpr ⟨hp, h.nodup⟩)
        · dsimp only
          omega
        · simp only [pending, hperm.length_eq, List.length_cons] at hmarked ⊢
          omega
      · cases hsync

theorem inv_run {r : Nat → SyncSystem (Recorded F) w} {n : Nat} (h : Run act init r n) :
    ∀ i ≤ n, (r i).Inv :=
  h.invariant inv_init fun _ _ _ hs hx => hs.act hx

/-! ### What a prefix costs -/

/-- The updates written for a prefix, and the one it is pending for. -/
def cost (p : Prefix w) (s : SyncSystem (Recorded F) w) : Nat :=
  (s.fib.log.map FibUpdate.pfx).count p + s.sync.dirty.count p

theorem cost_flush (p : Prefix w) (hx : act s (.flush fuel limit) = some s') : cost p s' = cost p s := by
  obtain ⟨⟨fib', sync', n⟩, hrun, rfl⟩ := Option.map_eq_some_iff.mp hx
  obtain ⟨us, hwrites, hflush⟩ := flush_writes (F := F) s.rib s.sync limit
  obtain ⟨-, hf⟩ := hflush hrun
  have hsplit := List.take_append_drop (s.sync.takes limit) s.sync.dirty
  calc (fib'.log.map FibUpdate.pfx).count p + sync'.dirty.count p
      = (s.fib.log.map FibUpdate.pfx).count p + ((s.sync.dirty.take (s.sync.takes limit)).count p +
          (s.sync.dirty.drop (s.sync.takes limit)).count p) := by
        rw [hf.log, hf.dirty, List.map_append, List.count_append, hwrites.prefixes, Nat.add_assoc]
    _ = cost p s := by rw [← List.count_append, hsplit, cost]

/-- Only a mark of the prefix itself adds to its cost, and only if it was not dirty. -/
theorem cost_act {a : Action w} (hx : act s a = some s') : cost p s' = cost p s ∨
    (cost p s' = cost p s + 1 ∧ p ∉ s.sync.dirty ∧ p ∈ s'.sync.dirty ∧ ∃ order, a = .markDirty p order) := by
  cases a with
  | add candidate => cases hx; exact .inl rfl
  | remove q source => cases hx; exact .inl rfl
  | flush fuel limit => exact .inl (cost_flush p hx)
  | flushAll fuel batchSize =>
    refine .inl (flushAll_invariant (P := fun s₁ => cost p s₁ = cost p s) (fun s₁ s₂ h₁ h₂ => ?_) rfl hx)
    exact (cost_flush p h₂).trans h₁
  | markDirty q order =>
    obtain ⟨sync, hsync, rfl⟩ := Option.map_eq_some_iff.mp hx
    unfold markDirty at hsync
    split at hsync
    · obtain rfl := Option.some.inj hsync
      exact .inl rfl
    · next hq =>
      split at hsync
      · next hperm =>
        obtain rfl := Option.some.inj hsync
        simp only [cost, hperm.count_eq, List.count_cons]
        by_cases hqp : q = p
        · subst hqp
          refine .inr ⟨?_, hq, hperm.mem_iff.mpr List.mem_cons_self, order, rfl⟩
          rw [if_pos (beq_self_eq_true q), Nat.add_assoc]
        · rw [if_neg (by simpa using hqp)]
          exact .inl rfl
      · cases hsync

/-- Some action other than a flush leads from one state to the other. -/
def Quiet (s s' : SyncSystem (Recorded F) w) : Prop :=
  ∃ a, act s a = some s' ∧ (∀ fuel limit, a ≠ .flush fuel limit) ∧ ∀ fuel batch, a ≠ .flushAll fuel batch

theorem dirty_quiet (h : Quiet s s') (hp : p ∈ s.sync.dirty) : p ∈ s'.sync.dirty := by
  obtain ⟨a, hx, hflush, hall⟩ := h
  cases a with
  | add candidate => cases hx; exact hp
  | remove q source => cases hx; exact hp
  | flush fuel limit => exact absurd rfl (hflush fuel limit)
  | flushAll fuel batchSize => exact absurd rfl (hall fuel batchSize)
  | markDirty q order =>
    obtain ⟨sync, hsync, rfl⟩ := Option.map_eq_some_iff.mp hx
    exact (markDirty_spec hsync).1 p hp

section run
variable {r : Nat → SyncSystem (Recorded F) w} {n i j : Nat}

/-- Between two flushes a prefix comes to cost one update more at most. -/
theorem cost_between (hij : i ≤ j) (hquiet : ∀ m, i ≤ m → m < j → Quiet (r m) (r (m + 1))) :
    cost p (r j) = cost p (r i) ∨ (cost p (r j) = cost p (r i) + 1 ∧ p ∈ (r j).sync.dirty) := by
  induction j, hij using Nat.le_induction with
  | base => exact .inl rfl
  | succ j hij ih =>
    have hstep := hquiet j hij (Nat.lt_succ_self j)
    have ih := ih fun m h₁ h₂ => hquiet m h₁ (Nat.lt_succ_of_lt h₂)
    have ⟨a, hx, _⟩ := hstep
    rcases cost_act (p := p) hx with hsame | ⟨hmore, hnot, hnow, -⟩
    · rw [hsame]
      exact ih.imp id fun h => ⟨h.1, dirty_quiet hstep h.2⟩
    · rcases ih with ih | ih
      · exact .inr ⟨by rw [hmore, ih], hnow⟩
      · exact absurd ih.2 hnot

/-- A prefix that is not marked costs nothing more. -/
theorem cost_unmarked (hij : i ≤ j) (hunmarked : ∀ m, i ≤ m → m < j →
    ∃ a, act (r m) a = some (r (m + 1)) ∧ ∀ order, a ≠ .markDirty p order) :
    cost p (r j) = cost p (r i) := by
  induction j, hij using Nat.le_induction with
  | base => rfl
  | succ j hij ih =>
    have ih := ih fun m h₁ h₂ => hunmarked m h₁ (Nat.lt_succ_of_lt h₂)
    obtain ⟨a, hx, ha⟩ := hunmarked j hij (Nat.lt_succ_self j)
    rcases cost_act (p := p) hx with hsame | ⟨-, -, -, order, hmark⟩
    · exact hsame.trans ih
    · exact absurd hmark (ha order)

/-- The counters add up at every moment. A flush writes as many prefixes as it may, each once and as
    the RIB says then; `flush_all` ends and is a number of flushes that write all that was pending. So
    between two flushes any number of marks of a prefix costs one update at most. -/
theorem coalescing_accounting (h : Run act init r n) (hi : i ≤ n) :
    ((r i).sync.stats.marked + (r i).sync.stats.coalesced = (r i).marks ∧
      (r i).sync.stats.marked = (r i).sync.stats.updatesProgrammed + (r i).sync.pending ∧
      (r i).sync.stats.updatesProgrammed = (r i).sync.stats.adds + (r i).sync.stats.removes ∧
      (r i).sync.generation = UInt64.ofNat (r i).sync.stats.adds) ∧
    (∀ limit, ∃ us fuel₀, us.length = (if limit = 0 then (r i).sync.pending
        else min limit (r i).sync.pending) ∧ (us.map FibUpdate.pfx).Nodup ∧
      (∀ u ∈ us, u.pfx ∈ (r i).sync.dirty ∧ Resolves (r i).rib u) ∧
      ∀ fuel > fuel₀, ∃ fib' sync',
        (r i).sync.flush fuel (r i).rib (r i).fib limit = some (fib', sync', us.length) ∧
        fib'.log = (r i).fib.log ++ us) ∧
    (∀ batchSize, ∃ fuel₀, ∀ fuel > fuel₀, ∃ fib' sync' k,
      (r i).sync.flushAll fuel (r i).rib batchSize fuel (r i).fib 0 =
        some (fib', sync', (r i).sync.pending) ∧ sync'.pending = 0 ∧
      Trace.exec act (r i) (List.replicate k (.flush fuel batchSize)) =
        some { r i with fib := fib', sync := sync' }) ∧
    ∀ p j, i ≤ j →
      ((∀ m, i ≤ m → m < j → Quiet (r m) (r (m + 1))) → cost p (r j) ≤ cost p (r i) + 1) ∧
      ((∀ m, i ≤ m → m < j → ∃ a, act (r m) a = some (r (m + 1)) ∧ ∀ order, a ≠ .markDirty p order) →
        cost p (r j) = cost p (r i)) := by
  have hinv := inv_run h i hi
  refine ⟨⟨hinv.marks, hinv.marked, ?_, hinv.booked.generation⟩, fun limit => ?_, fun batchSize => ?_,
    fun p j hij => ⟨fun hquiet => ?_, cost_unmarked hij⟩⟩
  · rw [hinv.programmed, hinv.booked.programmed]
  · obtain ⟨us, hwrites, hflush⟩ := flush_writes (F := F) (r i).rib (r i).sync limit
    obtain ⟨fib', sync', k, fuel₀, -, hrun⟩ := flush_spec (r i).rib hinv.rest (r i).sync limit
    refine ⟨us, fuel₀, hwrites.length_eq, ?_, fun u hu => ⟨?_, hwrites.resolves u hu⟩, fun fuel hf => ?_⟩
    · rw [hwrites.prefixes]
      exact hinv.nodup.sublist (List.take_sublist _ _)
    · have hmem : u.pfx ∈ us.map FibUpdate.pfx := List.mem_map_of_mem hu
      rw [hwrites.prefixes] at hmem
      exact List.mem_of_mem_take hmem
    · obtain ⟨hk, hf⟩ := hflush (hrun fuel hf)
      exact ⟨fib', sync', by rw [← hk]; exact hrun fuel ‹_›, hf.log⟩
  · obtain ⟨fib', sync', m, fuel₀, -, hrun⟩ :=
      flushAll_spec (r i).rib batchSize (r i).sync.dirty.length 0 hinv.rest le_rfl
    refine ⟨max fuel₀ (r i).sync.dirty.length, fun fuel hf => ?_⟩
    obtain ⟨hf₁, hf₂⟩ := max_lt_iff.mp hf
    have hall := hrun fuel hf₁ fuel hf₂
    obtain ⟨hm, hzero, k, hk⟩ := flushAll_exec (r i).marks fuel hall
    rw [Nat.zero_add] at hm
    exact ⟨fib', sync', k, by rw [← hm]; exact hall, hzero, hk⟩
  · rcases cost_between (p := p) hij hquiet with hcost | ⟨hcost, -⟩
    · omega
    · omega

/-! ### Generations -/

omit [Fib F] in
/-- An entry in the table was put there by an addition for its prefix. -/
theorem added_of_contentsAfter {log : List (FibUpdate w)} {e : FibEntry}
    (h : contentsAfter log p = some e) : ∃ u ∈ log, u.kind = .add ∧ u.pfx = p ∧ u.entry = e := by
  induction log using List.reverseRecOn with
  | nil => cases h
  | append_singleton log u ih =>
    rw [contentsAfter_append] at h
    rcases eq_or_ne p u.pfx with rfl | hp
    · obtain ⟨q, entry, kind⟩ := u
      cases kind with
      | add =>
        have hentry : (some entry : Option FibEntry) = some e := (Function.update_self q _ _).symm.trans h
        exact ⟨_, List.mem_append_right _ List.mem_cons_self, rfl, rfl, Option.some.inj hentry⟩
      | remove =>
        have hnone : (none : Option FibEntry) = some e := (Function.update_self q _ _).symm.trans h
        cases hnone
    · have hprior : contentsAfter log p = some e := (effect_of_ne hp).symm.trans h
      obtain ⟨v, hv, hadd⟩ := ih hprior
      exact ⟨v, List.mem_append_left _ hv, hadd⟩

omit [Fib F] in
/-- While the counter has not wrapped round, generations increase along the record. -/
theorem generations_increase {s : Synchroniser w} {log : List (FibUpdate w)} (h : s.Booked log)
    (hadds : s.stats.adds < 2 ^ 64) : (generations log).Pairwise (· < ·) := by
  have hsize : s.stats.adds < UInt64.size := hadds
  rw [h.generations, List.pairwise_map]
  refine (List.pairwise_lt_range' (s := 1) (n := s.stats.adds)).imp_of_mem fun {a b} _ hb hab => ?_
  have hb := (List.mem_range'_1.mp hb).2
  rw [UInt64.ofNat_lt_iff_lt (by omega) (by omega)]
  exact hab

/-- The entries in the table have different generations, between 1 and `generation()`, and an addition
    has a greater one than any entry the table held before, however often its prefix came and went. -/
theorem generations_identify (h : Run act init r n) (hi : i ≤ n)
    (hadds : (r i).sync.stats.adds < 2 ^ 64) :
    (Fib.trie (r i).fib).contents = contentsAfter (r i).fib.log ∧
    (∀ p q e e', contentsAfter (r i).fib.log p = some e → contentsAfter (r i).fib.log q = some e' →
      e.generation = e'.generation → p = q) ∧
    (∀ p e, contentsAfter (r i).fib.log p = some e →
      1 ≤ e.generation ∧ e.generation ≤ (r i).sync.generation) ∧
    ∀ before u after, (r i).fib.log = before ++ u :: after → u.kind = .add →
      ∀ earlier, earlier <+: before → ∀ q e, contentsAfter earlier q = some e →
        e.generation < u.entry.generation := by
  have hinv := inv_run h i hi
  have hincrease := generations_increase hinv.booked hadds
  have hmem : ∀ {log : List (FibUpdate w)} {u}, u ∈ log → u.kind = .add →
      u.entry.generation ∈ generations log := by
    intro log u hu hadd
    exact List.mem_map_of_mem (List.mem_filter.mpr ⟨hu, decide_eq_true hadd⟩)
  refine ⟨hinv.contents, fun p q e e' he he' hgen => ?_, fun p e he => ?_,
    fun before u after hlog hadd earlier hearlier q e he => ?_⟩
  · obtain ⟨u, hu, hadd, rfl, rfl⟩ := added_of_contentsAfter he
    obtain ⟨v, hv, hadd', rfl, rfl⟩ := added_of_contentsAfter he'
    have hnodup : (generations (r i).fib.log).Nodup := hincrease.imp fun hlt => UInt64.ne_of_lt hlt
    rw [List.inj_on_of_nodup_map hnodup (List.mem_filter.mpr ⟨hu, decide_eq_true hadd⟩)
      (List.mem_filter.mpr ⟨hv, decide_eq_true hadd'⟩) hgen]
  · obtain ⟨u, hu, hadd, rfl, rfl⟩ := added_of_contentsAfter he
    have hgen := hmem hu hadd
    rw [hinv.booked.generations, List.mem_map] at hgen
    obtain ⟨m, hm, hm'⟩ := hgen
    obtain ⟨hlow, hhigh⟩ := List.mem_range'_1.mp hm
    have hsize : (r i).sync.stats.adds < UInt64.size := hadds
    rw [← hm', hinv.booked.generation]
    constructor
    · exact (UInt64.ofNat_le_iff_le (by decide) (by omega)).mpr hlow
    · exact (UInt64.ofNat_le_iff_le (by omega) (by omega)).mpr (by omega)
  · obtain ⟨v, hv, hadd', rfl, rfl⟩ := added_of_contentsAfter he
    rw [hlog, generations, List.filter_append, List.map_append,
      List.filter_cons_of_pos (p := fun u : FibUpdate w => decide (u.kind = .add)) (decide_eq_true hadd),
      List.map_cons, List.pairwise_append] at hincrease
    exact hincrease.2.2 _ (hmem (hearlier.subset hv) hadd') _ List.mem_cons_self

end run

/-- A prefix is programmed, marked twice and removed, then programmed again beside another. -/
def churn : List (Action .ipv4) :=
  let p : Prefix .ipv4 := .make (.fromV4 0x0A000000) 8 Width.eight_le_ipv4
  let q : Prefix .ipv4 := .make (.fromV4 0x0A010000) 16 Width.sixteen_le_ipv4
  [.add ⟨p, ⟨1, 1, 0, 0⟩, .bgp, 5⟩, .markDirty p [p], .flush 100 0, .remove p .bgp, .markDirty p [p],
    .markDirty p [p], .flush 100 1, .add ⟨p, ⟨2, 1, 0, 0⟩, .isis, 0⟩, .markDirty p [p],
    .add ⟨q, ⟨3, 1, 0, 0⟩, .ospf, 0⟩, .markDirty q [q, p], .flushAll 100 1]

theorem run_churn : Run act (init : SyncSystem (Recorded RcuFib) .ipv4) (play act init churn) 12 :=
  run_play (by rfl)

/-- Two prefixes are pending at 11, and between the flushes before 4 and after 6 one was marked twice. -/
theorem coalescing_accounting_churn :
    let p : Prefix .ipv4 := .make (.fromV4 0x0A000000) 8 Width.eight_le_ipv4
    let q : Prefix .ipv4 := .make (.fromV4 0x0A010000) 16 Width.sixteen_le_ipv4
    let r : Nat → SyncSystem (Recorded RcuFib) .ipv4 := play act init churn
    (((r 11).sync.stats.marked + (r 11).sync.stats.coalesced = (r 11).marks ∧
        (r 11).sync.stats.marked = (r 11).sync.stats.updatesProgrammed + (r 11).sync.pending ∧
        (r 11).sync.stats.updatesProgrammed = (r 11).sync.stats.adds + (r 11).sync.stats.removes ∧
        (r 11).sync.generation = UInt64.ofNat (r 11).sync.stats.adds) ∧
      (r 11).marks = 5 ∧ (r 11).sync.stats.coalesced = 1) ∧
    (∃ us fuel₀, us.length = 1 ∧ (us.map FibUpdate.pfx).Nodup ∧
      (∀ u ∈ us, u.pfx ∈ [q, p] ∧ Resolves (r 11).rib u) ∧
      ∀ fuel > fuel₀, ∃ fib' sync',
        (r 11).sync.flush fuel (r 11).rib (r 11).fib 1 = some (fib', sync', us.length) ∧
        fib'.log = (r 11).fib.log ++ us) ∧
    (∃ fuel₀, ∀ fuel > fuel₀, ∃ fib' sync' k,
      (r 11).sync.flushAll fuel (r 11).rib 1 fuel (r 11).fib 0 = some (fib', sync', 2) ∧
      sync'.pending = 0 ∧
      Trace.exec act (r 11) (List.replicate k (.flush fuel 1)) =
        some { r 11 with fib := fib', sync := sync' }) ∧
    cost p (r 6) ≤ cost p (r 4) + 1 ∧ cost q (r 6) = cost q (r 4) := by
  intro p q r
  obtain ⟨hcounters, hflush, hall, -⟩ := coalescing_accounting run_churn (i := 11) (by decide)
  obtain ⟨-, -, -, hcost⟩ := coalescing_accounting run_churn (i := 4) (by decide)
  have hmarks : ∀ m, 4 ≤ m → m < 6 → act (r m) (.markDirty p [p]) = some (r (m + 1)) := by
    intro m hlo hhi
    interval_cases m <;> rfl
  refine ⟨⟨hcounters, by rfl, by rfl⟩, hflush 1, hall 1, (hcost p 6 (by decide)).1 fun m hlo hhi => ?_,
    (hcost q 6 (by decide)).2 fun m hlo hhi => ?_⟩
  · exact ⟨_, hmarks m hlo hhi, fun _ _ h => (by cases h), fun _ _ h => (by cases h)⟩
  · refine ⟨_, hmarks m hlo hhi, fun order h => ?_⟩
    exact absurd (congrArg Prefix.length (Action.markDirty.inj h).1) (by decide)

theorem generations_identify_churn :
    let s : SyncSystem (Recorded RcuFib) .ipv4 := play act init churn 12
    (∀ p e, contentsAfter s.fib.log p = some e → 1 ≤ e.generation ∧ e.generation ≤ s.sync.generation) ∧
      s.sync.generation = 3 :=
  ⟨(generations_identify run_churn (i := 12) (by decide) (by decide +kernel)).2.2.1, by rfl⟩

end SyncSystem

end RcuFib
