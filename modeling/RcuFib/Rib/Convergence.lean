import RcuFib.Rib.Synchroniser
import RcuFib.Library.Trace

/-! The control plane as a whole: a RIB, a forwarding table of any variant and the synchroniser between
    them, driven by one thread.

    The thread keeps one rule: after an `add` or a `remove` that returned true it marks the prefix
    before it touches the RIB again. `owed` is the mark it owes. The invariant is that every prefix
    neither dirty nor owed is up to date. -/

namespace RcuFib
open RadixTrie Trace Synchroniser

variable {F : Width → Type} {w : Width}

structure ControlPlane (F : Width → Type) (w : Width) where
  rib : Rib w
  fib : F w
  sync : Synchroniser w
  /-- The prefix a RIB operation has reported and nobody has marked yet. -/
  owed : Option (Prefix w)

namespace ControlPlane

inductive Action (w : Width) where
  | add (candidate : Route w)
  | remove (p : Prefix w) (source : Protocol)
  /-- `order` is how the set is enumerated after an insertion. -/
  | markDirty (p : Prefix w) (order : List (Prefix w))
  | flush (fuel limit : Nat)
  | flushAll (fuel batchSize : Nat)

variable [Fib F]

def init : ControlPlane F w := ⟨.empty, Fib.empty, .fresh, none⟩

/-- What the thread owes after a RIB operation on `p`. -/
def owes (p : Prefix w) (changed : Bool) : Option (Prefix w) := if changed then some p else none

def act (s : ControlPlane F w) : Action w → Option (ControlPlane F w)
  | .add candidate =>
    if s.owed.isNone then
      let (rib, changed) := s.rib.add candidate
      some { s with rib, owed := owes candidate.pfx changed }
    else none
  | .remove p source =>
    if s.owed.isNone then
      let (rib, changed) := s.rib.remove p source
      some { s with rib, owed := owes p changed }
    else none
  | .markDirty p order =>
    (s.sync.markDirty p order).map fun sync =>
      { s with sync, owed := if s.owed = some p then none else s.owed }
  | .flush fuel limit =>
    (s.sync.flush fuel s.rib s.fib limit).map fun x => { s with fib := x.1, sync := x.2.1 }
  | .flushAll fuel batchSize =>
    (s.sync.flushAll fuel s.rib batchSize fuel s.fib 0).map fun x =>
      { s with fib := x.1, sync := x.2.1 }

/-! ### The invariant -/

/-- No call is under way, and a prefix neither dirty nor owed is up to date. -/
structure Inv (s : ControlPlane F w) : Prop where
  rest : Fib.AtRest s.fib
  kept : s.rib.Kept
  upToDate : UpToDate s.rib s.fib fun p => p ∉ s.sync.dirty ∧ s.owed ≠ some p

variable {s s' : ControlPlane F w} {rib : Rib w} {p : Prefix w} {changed : Bool}

theorem inv_init : (init : ControlPlane F w).Inv := by
  obtain ⟨hrest, hempty⟩ := Fib.empty_spec (F := F) (w := w)
  refine ⟨hrest, Rib.kept_empty, fun p _ => ?_⟩
  rw [init, hempty]
  rfl

/-- A RIB operation that reports no change leaves the table up to date, one that does leaves a mark
    owed. -/
theorem Inv.reports (h : s.Inv) (hnone : s.owed = none) (hr : s.rib.Reports rib p changed) :
    UpToDate rib s.fib fun q => q ∉ s.sync.dirty ∧ owes p changed ≠ some q := by
  rintro q ⟨hq, howes⟩
  rw [h.upToDate q ⟨hq, by rw [hnone]; nofun⟩]
  rcases eq_or_ne q p with rfl | hne
  · cases changed with
    | true => exact absurd rfl howes
    | false => exact (not_not.mp (of_decide_eq_false hr.own.symm)).symm
  · rw [Rib.best, Rib.best, hr.others q hne]

theorem inv_act (h : s.Inv) {x : Action w} (hx : act s x = some s') : s'.Inv := by
  cases x with
  | add candidate =>
    simp only [act] at hx
    split at hx
    · next hn =>
      cases hx
      exact ⟨h.rest, h.kept.add candidate,
        h.reports (Option.isNone_iff_eq_none.mp hn) (s.rib.add_reports candidate)⟩
    · cases hx
  | remove p source =>
    simp only [act] at hx
    split at hx
    · next hn =>
      cases hx
      exact ⟨h.rest, h.kept.remove p source,
        h.reports (Option.isNone_iff_eq_none.mp hn) (s.rib.remove_reports p source)⟩
    · cases hx
  | markDirty p order =>
    obtain ⟨sync, hsync, rfl⟩ := Option.map_eq_some_iff.mp hx
    obtain ⟨hsub, hmem⟩ := Synchroniser.markDirty_spec hsync
    refine ⟨h.rest, h.kept, fun q hq => h.upToDate q ⟨fun hd => hq.1 (hsub q hd), fun ho => ?_⟩⟩
    -- `q` was owed, so it is not `p`, and is owed still
    have hqp : q ≠ p := by
      rintro rfl
      exact hq.1 hmem
    refine hq.2 ?_
    dsimp only
    rw [if_neg fun hp => hqp (Option.some.inj (ho.symm.trans hp)), ho]
  | flush fuel limit =>
    obtain ⟨⟨fib, sync, n⟩, hrun, rfl⟩ := Option.map_eq_some_iff.mp hx
    obtain ⟨left, hf⟩ := Synchroniser.flush_flushed h.rest hrun
    exact ⟨hf.rest, h.kept, hf.upToDate (fun p => s.owed ≠ some p) h.upToDate⟩
  | flushAll fuel batchSize =>
    obtain ⟨⟨fib, sync, n⟩, hrun, rfl⟩ := Option.map_eq_some_iff.mp hx
    have hf := Synchroniser.flushAll_flushed h.rest hrun
    exact ⟨hf.rest, h.kept, hf.upToDate (fun p => s.owed ≠ some p) h.upToDate⟩

theorem inv_run {r : Nat → ControlPlane F w} {n : Nat} (h : Run act init r n) :
    ∀ i ≤ n, (r i).Inv :=
  h.invariant inv_init fun _ _ _ hs hx => inv_act hs hx

/-! ### Convergence -/

/-- What forwarding of `a` has to come to: the RIB's winner for the longest prefix in it. -/
def Resolved (rib : Rib w) (a : Address w) : Option FibEntry → Prop
  | none => ∀ p : Prefix w, p.contains a → p ∉ rib.table
  | some entry => ∃ (q : Prefix w) (best : Route w), rib.best q = some best ∧ q.contains a ∧
      (∀ p : Prefix w, p.contains a → p ∈ rib.table → p.length ≤ q.length) ∧
      entry.hop = best.hop ∧ entry.source = best.source

/-- A table that agrees with the RIB on the prefixes of `a` forwards `a` as the RIB says. -/
theorem resolved_of_decisions {C : Prefix w → Option FibEntry} {a : Address w} {result : Option FibEntry}
    (hkept : rib.Kept)
    (hup : ∀ p : Prefix w, p.contains a →
      (C p).map FibEntry.decision = (rib.best p).map Route.decision)
    (h : Matched C a result) : Resolved rib a result := by
  have hnone : ∀ p : Prefix w, p.contains a → (C p = none ↔ p ∉ rib.table) := by
    intro p hpa
    have hp := hup p hpa
    rw [hkept.mem_iff, not_not]
    constructor
    · intro hc
      rw [hc] at hp
      exact Option.map_eq_none_iff.mp hp.symm
    · intro hb
      rw [hb] at hp
      exact Option.map_eq_none_iff.mp hp
  cases result with
  | none => exact fun p hp => (hnone p hp).mp (h p hp)
  | some entry =>
    obtain ⟨q, hq, hqa, hmax⟩ := h
    have hdec := hup q hqa
    rw [hq, Option.map_some] at hdec
    obtain ⟨best, hbest, heq⟩ := Option.map_eq_some_iff.mp hdec.symm
    obtain ⟨hhop, hsource⟩ := Prod.mk.inj heq
    exact ⟨q, best, hbest, hqa, fun p hp hmem => hmax p hp fun hn => (hnone p hp).mp hn hmem,
      hhop.symm, hsource.symm⟩

theorem resolved_of_matched {fib : F w} {a : Address w} {result : Option FibEntry}
    (hkept : rib.Kept) (hup : UpToDate rib fib fun _ => True)
    (h : Matched (Fib.trie fib).contents a result) : Resolved rib a result :=
  resolved_of_decisions hkept (fun p _ => hup p trivial) h

/-- Whenever no mark is owed, the table agrees with the RIB on every prefix that is not dirty, and with
    nothing pending every address is forwarded as the RIB's winner for its longest prefix says. Flushes
    always end. -/
theorem convergence {r : Nat → ControlPlane F w} {n : Nat} (h : Run act init r n) {i : Nat}
    (hi : i ≤ n) (howed : (r i).owed = none) :
    (∀ p, p ∉ (r i).sync.dirty → ((Fib.trie (r i).fib).contents p).map FibEntry.decision =
      ((r i).rib.best p).map Route.decision) ∧
    ((r i).sync.pending = 0 → ∀ a, ∃ result fuel₀, Resolved (r i).rib a result ∧
      ∀ fuel > fuel₀, Fib.lookup fuel (r i).fib a = some result) ∧
    ∀ limit, ∃ fuel₀, ∀ fuel > fuel₀, (act (r i) (.flush fuel limit)).isSome ∧
      (act (r i) (.flushAll fuel limit)).isSome := by
  have hinv := inv_run h i hi
  have hup : ∀ p, p ∉ (r i).sync.dirty → ((Fib.trie (r i).fib).contents p).map FibEntry.decision =
      ((r i).rib.best p).map Route.decision := by
    intro p hp
    exact hinv.upToDate p ⟨hp, by rw [howed]; nofun⟩
  refine ⟨hup, fun hpending a => ?_, fun limit => ?_⟩
  · obtain ⟨result, fuel₀, hmatch, hrun⟩ := Fib.lookup_spec hinv.rest a
    have hnil := List.eq_nil_of_length_eq_zero hpending
    refine ⟨result, fuel₀, resolved_of_matched hinv.kept (fun p _ => hup p ?_) hmatch, hrun⟩
    rw [hnil]
    exact List.not_mem_nil
  · obtain ⟨fib₁, s₁, n₁, f₁, -, h₁⟩ := Synchroniser.flush_spec (r i).rib hinv.rest (r i).sync limit
    obtain ⟨fib₂, s₂, n₂, f₂, -, h₂⟩ :=
      Synchroniser.flushAll_spec (r i).rib limit (r i).sync.dirty.length 0 hinv.rest le_rfl
    refine ⟨max f₁ (max f₂ (r i).sync.dirty.length), fun fuel hf => ?_⟩
    obtain ⟨hf₁, hf⟩ := max_lt_iff.mp hf
    obtain ⟨hf₂, hf₃⟩ := max_lt_iff.mp hf
    simp only [act, h₁ fuel hf₁, h₂ fuel hf₂ fuel hf₃]
    exact ⟨rfl, rfl⟩

/-- A BGP route is programmed, loses to a static one, and comes back when that is withdrawn. -/
def fallback : List (Action .ipv4) :=
  let p : Prefix .ipv4 := .make (.fromV4 0x0A000000) 8 Width.eight_le_ipv4
  [.add ⟨p, ⟨1, 1, 0, 0⟩, .bgp, 5⟩, .markDirty p [p], .flush 100 1,
    .add ⟨p, ⟨2, 1, 0, 0⟩, .staticRoute, 0⟩, .markDirty p [p], .flush 100 0,
    .remove p .staticRoute, .markDirty p [p], .markDirty p [p], .flushAll 100 1024]

theorem convergence_fallback :
    let s : ControlPlane RcuFib .ipv4 := play act init fallback 10
    (∀ p, p ∉ s.sync.dirty → ((Fib.trie s.fib).contents p).map FibEntry.decision =
      (s.rib.best p).map Route.decision) ∧
    (s.sync.pending = 0 → ∀ a, ∃ result fuel₀, Resolved s.rib a result ∧
      ∀ fuel > fuel₀, Fib.lookup fuel s.fib a = some result) ∧
    ∀ limit, ∃ fuel₀, ∀ fuel > fuel₀, (act s (.flush fuel limit)).isSome ∧
      (act s (.flushAll fuel limit)).isSome := by
  have hrun : Run act (init : ControlPlane RcuFib .ipv4) (play act init fallback) fallback.length :=
    run_play (by rfl)
  have howed : (play act (init : ControlPlane RcuFib .ipv4) fallback 10).owed = none := by rfl
  exact convergence hrun (i := 10) (by decide) howed

end ControlPlane

end RcuFib
