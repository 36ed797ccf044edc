import RcuFib.Rib.Synchroniser
import RcuFib.Rib.Offers

/-! The workload of the benchmark (`bench/workload.hpp`): what its threads do to the table.

    The writer re-advertises routes of the loaded table in batches and withdraws none. Its choice of
    prefixes is read from the dataset; how the dirty set is enumerated is given with each step. -/

namespace RcuFib
open RadixTrie Synchroniser

/-- `dataset`: prefixes, lookup keys and a churn sequence. -/
structure Dataset where
  prefixes : List (Prefix .ipv4)
  traffic : List (Address .ipv4)
  churn : List Nat

namespace Dataset

/-- The batch of `preload`: one entry per prefix. -/
def preload (data : Dataset) : List (FibUpdate .ipv4) :=
  data.prefixes.mapIdx fun i p =>
    ⟨p, ⟨⟨UInt32.ofNat i, UInt32.ofNat (i &&& 0xFF), 0, 0⟩, .bgp, 1⟩, .add⟩

/-- The prefix that the writer turns to at `index`. -/
def pick (data : Dataset) (index : UInt64) : Option (Prefix .ipv4) :=
  (data.churn[index.toNat % data.churn.length]?).bind fun which =>
    data.prefixes[which % data.prefixes.length]?

end Dataset

/-- The state of the writer's loop. -/
structure Churner where
  source : Rib .ipv4
  sync : Synchroniser .ipv4
  index : UInt64
  revision : UInt32

namespace Churner

def init : Churner := ⟨.empty, .fresh, 0, 2⟩

/-- The route that is offered. -/
def route (p : Prefix .ipv4) (revision : UInt32) : Route .ipv4 := ⟨p, ⟨revision, 1, 0, 0⟩, .bgp, 0⟩

/-- One prefix of a batch. -/
def touch (data : Dataset) (s : Churner) (order : List (Prefix .ipv4)) : Option Churner :=
  (data.pick s.index).bind fun p =>
    (s.sync.markDirty p order).map fun sync =>
      { source := (s.source.add (route p s.revision)).1
        sync
        index := s.index + 1
        revision := s.revision + 1 }

/-- The inner loop, with the order of the dirty set after each mark. -/
def touches (data : Dataset) (s : Churner) : List (List (Prefix .ipv4)) → Option Churner
  | [] => some s
  | order :: orders => (s.touch data order).bind fun s => touches data s orders

/-- One round of the loop: the batch of its `flush()`, if there is one. -/
def turn (data : Dataset) (s : Churner) (orders : List (List (Prefix .ipv4))) :
    Option (Churner × Option (List (FibUpdate .ipv4))) :=
  (s.touches data orders).map fun s =>
    let (sync, batch) := flushBatch s.source s.sync 0
    ({ s with sync }, batch)

/-- The loop: the batches of so many rounds. -/
def churn (data : Dataset) (s : Churner) :
    List (List (List (Prefix .ipv4))) → Option (Churner × List (List (FibUpdate .ipv4)))
  | [] => some (s, [])
  | orders :: rounds => (s.turn data orders).bind fun x =>
    (churn data x.1 rounds).map fun y => (y.1, x.2.toList ++ y.2)

/-! ### One round -/

/-- Of the first `k` picks from `s` on, the one at `i` is the last of `p`. -/
structure Last (data : Dataset) (s : Churner) (k : Nat) (p : Prefix .ipv4) (i : Nat) : Prop where
  lt : i < k
  pick : data.pick (s.index + .ofNat i) = some p
  later : ∀ j, i < j → j < k → data.pick (s.index + .ofNat j) ≠ some p

variable {data : Dataset} {s s₀ s' : Churner} {k i : Nat} {p q : Prefix .ipv4}
  {order : List (Prefix .ipv4)} {orders : List (List (Prefix .ipv4))}

theorem Last.exists (h : i < k) (hpick : data.pick (s.index + .ofNat i) = some p) :
    ∃ i, Last data s k p i := by
  induction k with
  | zero => exact absurd h (Nat.not_lt_zero i)
  | succ k ih =>
    by_cases hk : data.pick (s.index + .ofNat k) = some p
    · exact ⟨k, k.lt_succ_self, hk, fun j hlt hle => absurd hle (by omega)⟩
    · have hlt : i < k := by
        rcases Nat.lt_succ_iff_lt_or_eq.mp h with hlt | rfl
        · exact hlt
        · exact absurd hpick hk
      obtain ⟨l, hl⟩ := ih hlt
      refine ⟨l, hl.lt.trans k.lt_succ_self, hl.pick, fun j hlj hj => ?_⟩
      rcases Nat.lt_succ_iff_lt_or_eq.mp hj with hj | rfl
      · exact hl.later j hlj hj
      · exact hk

theorem last_succ (hpick : data.pick (s.index + .ofNat k) = some p) :
    Last data s (k + 1) q i ↔ q = p ∧ i = k ∨ q ≠ p ∧ Last data s k q i := by
  constructor
  · rintro ⟨hlt, hi, hlater⟩
    rcases Nat.lt_succ_iff_lt_or_eq.mp hlt with hlt | rfl
    · have hne : q ≠ p := by
        rintro rfl
        exact hlater k hlt k.lt_succ_self hpick
      exact .inr ⟨hne, hlt, hi, fun j hij hj => hlater j hij (hj.trans k.lt_succ_self)⟩
    · exact .inl ⟨Option.some.inj (hi.symm.trans hpick), rfl⟩
  · rintro (⟨rfl, rfl⟩ | ⟨hne, hlt, hi, hlater⟩)
    · exact ⟨i.lt_succ_self, hpick, fun j hij hj => absurd hj (by omega)⟩
    · refine ⟨hlt.trans k.lt_succ_self, hi, fun j hij hj => ?_⟩
      rcases Nat.lt_succ_iff_lt_or_eq.mp hj with hj | rfl
      · exact hlater j hij hj
      · exact fun hq => hne (Option.some.inj (hq.symm.trans hpick))

/-- The only routes on offer are BGP's. -/
def Solo (r : Rib .ipv4) : Prop :=
  ∃ M, r.Refines M ∧ ∀ (p : Prefix .ipv4) (source : Protocol) (c : Route .ipv4),
    M p source = some c → source = .bgp

/-- An offer replaces the one there was, and wins. -/
theorem Solo.add {r : Rib .ipv4} (h : Solo r) (p : Prefix .ipv4) (revision : UInt32) :
    Solo (r.add (route p revision)).1 ∧
      (r.add (route p revision)).1.best p = some (route p revision) := by
  obtain ⟨M, hM, hbgp⟩ := h
  have hnext := hM.act (.add (route p revision))
  have hentry := hnext.entries p
  have hbgp' : ∀ q source c, (RibOp.add (route p revision)).effect M q source = some c →
      source = .bgp := by
    intro q source c hc
    rcases eq_or_ne q p with rfl | hq
    · by_contra hsource
      rw [RibOp.effect, RibOp.pfx, route, Function.update_self] at hc
      rw [RibOp.revise, Function.update_of_ne hsource] at hc
      exact hsource (hbgp q source c hc)
    · rw [RibOp.effect, RibOp.pfx, route, Function.update_of_ne hq] at hc
      exact hbgp q source c hc
  have hoffer : (RibOp.add (route p revision)).effect M p .bgp = some (route p revision) := by
    rw [RibOp.effect, RibOp.pfx, route, Function.update_self]
    rw [RibOp.revise, Function.update_self]
  refine ⟨⟨_, hnext, hbgp'⟩, ?_⟩
  rw [Rib.best_entry]
  change ((r.act (.add (route p revision))).1.entry p).best = _
  cases hb : ((r.act (.add (route p revision))).1.entry p).best with
  | none =>
    have hnone := hentry.best_none.mp hb .bgp
    rw [hoffer] at hnone
    cases hnone
  | some b =>
    have hself := (hentry.best_some hb).1
    rw [hbgp' p _ b hself, hoffer] at hself
    exact hself.symm

/-- After `k` picks of a round that began at `s₀`. -/
structure Round (data : Dataset) (s₀ : Churner) (k : Nat) (s : Churner) : Prop where
  index : s.index = s₀.index + .ofNat k
  revision : s.revision = s₀.revision + .ofNat k
  solo : Solo s.source
  nodup : s.sync.dirty.Nodup
  dirty : ∀ p, p ∈ s.sync.dirty ↔ ∃ i, Last data s₀ k p i
  best : ∀ p i, Last data s₀ k p i → s.source.best p = some (route p (s₀.revision + .ofNat i))

theorem round_start (hsolo : Solo s.source) (hclean : s.sync.dirty = []) : Round data s 0 s := by
  refine ⟨(UInt64.add_zero _).symm, (UInt32.add_zero _).symm, hsolo, ?_, fun p => ?_, ?_⟩
  · rw [hclean]
    exact List.nodup_nil
  · rw [hclean]
    exact ⟨fun h => absurd h List.not_mem_nil, fun ⟨i, hi⟩ => absurd hi.lt (Nat.not_lt_zero i)⟩
  · exact fun p i hi => absurd hi.lt (Nat.not_lt_zero i)

theorem markDirty_nodup {sync sync' : Synchroniser .ipv4} (h : sync.dirty.Nodup)
    (hmark : sync.markDirty p order = some sync') :
    sync'.dirty.Nodup ∧ ∀ q, q ∈ sync'.dirty ↔ q = p ∨ q ∈ sync.dirty := by
  unfold markDirty at hmark
  split at hmark
  · next hmem =>
    obtain rfl := Option.some.inj hmark
    exact ⟨h, fun q => ⟨.inr, fun hq => hq.elim (fun he => he ▸ hmem) id⟩⟩
  · next hmem =>
    split at hmark
    · next hperm =>
      obtain rfl := Option.some.inj hmark
      exact ⟨hperm.nodup_iff.mpr (List.nodup_cons.mpr ⟨hmem, h⟩),
        fun q => hperm.mem_iff.trans List.mem_cons⟩
    · cases hmark

theorem Round.touch (h : Round data s₀ k s) (ht : s.touch data order = some s') :
    Round data s₀ (k + 1) s' := by
  obtain ⟨p, hpick, ht⟩ := Option.bind_eq_some_iff.mp ht
  obtain ⟨sync, hmark, rfl⟩ := Option.map_eq_some_iff.mp ht
  obtain ⟨hnodup, hmem⟩ := markDirty_nodup h.nodup hmark
  obtain ⟨hsolo, hbest⟩ := h.solo.add p s.revision
  rw [h.index] at hpick
  refine ⟨?_, ?_, hsolo, hnodup, fun q => ?_, fun q i hq => ?_⟩
  · simp only [h.index, UInt64.ofNat_add, UInt64.add_assoc]
    rfl
  · simp only [h.revision, UInt32.ofNat_add, UInt32.add_assoc]
    rfl
  · rw [hmem, h.dirty]
    simp only [last_succ hpick, exists_or, exists_and_left, exists_eq, and_true]
    by_cases hq : q = p
    · simp only [hq, true_or, not_true, ne_eq, false_and, or_false]
    · simp only [hq, false_or, ne_eq, not_false_eq_true, true_and]
  · rcases (last_succ hpick).mp hq with ⟨rfl, rfl⟩ | ⟨hne, hlast⟩
    · rw [hbest, h.revision]
    · have hother := (s.source.add_reports (route p s.revision)).others q hne
      change (s.source.add (route p s.revision)).1.best q = _
      rw [Rib.best, hother]
      exact h.best q i hlast

theorem Round.touches (h : Round data s₀ k s) (ht : s.touches data orders = some s') :
    Round data s₀ (k + orders.length) s' := by
  induction orders generalizing k s with
  | nil =>
    obtain rfl := Option.some.inj ht
    exact h
  | cons order orders ih =>
    obtain ⟨s₁, hs₁, ht⟩ := Option.bind_eq_some_iff.mp ht
    have hnext := ih (h.touch hs₁) ht
    rwa [Nat.add_assoc, Nat.add_comm 1] at hnext

/-- The writer reads nothing of the dataset but its picks. -/
theorem churn_congr {data data' : Dataset} (h : ∀ index, data.pick index = data'.pick index)
    (rounds : List (List (List (Prefix .ipv4)))) (s : Churner) :
    s.churn data rounds = s.churn data' rounds := by
  have htouches : ∀ (orders : List (List (Prefix .ipv4))) (s : Churner),
      s.touches data orders = s.touches data' orders := by
    intro orders
    induction orders with
    | nil => exact fun s => rfl
    | cons order orders ih =>
      intro s
      simp only [touches, touch, h, ih]
  induction rounds generalizing s with
  | nil => rfl
  | cons orders rounds ih => simp only [churn, turn, htouches, ih]

/-! ### The batches -/

/-- Between two rounds. -/
structure Standing (s : Churner) : Prop where
  solo : Solo s.source
  clean : s.sync.dirty = []

theorem standing_init : init.Standing :=
  ⟨⟨_, Rib.refines_empty, fun _ _ _ hc => by cases hc⟩, rfl⟩

theorem Standing.turn {batch : Option (List (FibUpdate .ipv4))} (h : s.Standing)
    (ht : s.turn data orders = some (s', batch)) : s'.Standing ∧
    ((batch.getD []).map FibUpdate.pfx).Nodup ∧
    (∀ p, p ∈ (batch.getD []).map FibUpdate.pfx ↔ ∃ i, Last data s orders.length p i) ∧
    ∀ u ∈ batch.getD [], u.kind = .add ∧ u.entry.source = .bgp ∧
      ∃ i, Last data s orders.length u.pfx i ∧ u.entry.hop = ⟨s.revision + .ofNat i, 1, 0, 0⟩ := by
  obtain ⟨s₁, hs₁, heq⟩ := Option.map_eq_some_iff.mp ht
  have hround := (round_start h.solo h.clean).touches hs₁
  rw [Nat.zero_add] at hround
  obtain ⟨hclean, hpfx, hresolves⟩ := flushBatch_spec s₁.source s₁.sync 0
  have htakes : s₁.sync.takes 0 = s₁.sync.dirty.length := rfl
  rw [htakes, List.drop_length] at hclean
  rw [htakes, List.take_length] at hpfx
  have heq : ({ s₁ with sync := (flushBatch s₁.source s₁.sync 0).1 },
    (flushBatch s₁.source s₁.sync 0).2) = (s', batch) := heq
  generalize flushBatch s₁.source s₁.sync 0 = f at hclean hpfx hresolves heq
  obtain ⟨rfl, rfl⟩ := Prod.mk.inj heq
  refine ⟨⟨hround.solo, hclean⟩, hpfx ▸ hround.nodup, fun p => by rw [hpfx, hround.dirty], fun u hu => ?_⟩
  have hmem := List.mem_map_of_mem (f := FibUpdate.pfx) hu
  rw [hpfx, hround.dirty] at hmem
  obtain ⟨i, hi⟩ := hmem
  have hres := hresolves u hu
  unfold Resolves at hres
  rw [hround.best _ i hi] at hres
  exact ⟨hres.1, hres.2.2, i, hi, hres.2.1⟩

theorem Standing.churn {rounds : List (List (List (Prefix .ipv4)))}
    {batches : List (List (FibUpdate .ipv4))} (h : s.Standing)
    (hc : s.churn data rounds = some (s', batches)) : s'.Standing ∧
    ∀ batch ∈ batches, ∀ u ∈ batch, u.kind = .add ∧ u.pfx ∈ data.prefixes := by
  induction rounds generalizing s batches with
  | nil =>
    obtain ⟨rfl, rfl⟩ := Prod.mk.inj (Option.some.inj hc)
    exact ⟨h, fun batch hb => absurd hb List.not_mem_nil⟩
  | cons orders rounds ih =>
    obtain ⟨⟨s₁, first⟩, hturn, hc⟩ := Option.bind_eq_some_iff.mp hc
    obtain ⟨⟨s₂, rest⟩, hrest, heq⟩ := Option.map_eq_some_iff.mp hc
    obtain ⟨rfl, rfl⟩ := Prod.mk.inj heq
    obtain ⟨hs₁, -, -, hfirst⟩ := h.turn hturn
    obtain ⟨hs₂, hall⟩ := ih hs₁ hrest
    refine ⟨hs₂, fun batch hb => ?_⟩
    rcases List.mem_append.mp hb with hb | hb
    · intro u hu
      obtain rfl := Option.mem_toList.mp hb
      obtain ⟨hkind, -, i, hi, -⟩ := hfirst u hu
      refine ⟨hkind, ?_⟩
      obtain ⟨which, -, hwhich⟩ := Option.bind_eq_some_iff.mp hi.pick
      exact List.mem_of_getElem? hwhich
    · exact hall batch hb

/-- Each batch of the benchmark's writer holds one update for each prefix picked in its round, an
    announcement with the last of the next hops the prefix was given there. -/
theorem batch_coalesces {rounds : List (List (List (Prefix .ipv4)))}
    {batches : List (List (FibUpdate .ipv4))} {batch : Option (List (FibUpdate .ipv4))}
    (hreach : init.churn data rounds = some (s, batches)) (ht : s.turn data orders = some (s', batch)) :
    ((batch.getD []).map FibUpdate.pfx).Nodup ∧
    (∀ p, p ∈ (batch.getD []).map FibUpdate.pfx ↔
      ∃ i < orders.length, data.pick (s.index + .ofNat i) = some p) ∧
    ∀ u ∈ batch.getD [], u.kind = .add ∧ u.entry.source = .bgp ∧
      ∃ i, Last data s orders.length u.pfx i ∧ u.entry.hop = ⟨s.revision + .ofNat i, 1, 0, 0⟩ := by
  obtain ⟨-, hnodup, hmem, hall⟩ := (standing_init.churn hreach).1.turn ht
  refine ⟨hnodup, fun p => (hmem p).trans ⟨?_, ?_⟩, hall⟩
  · rintro ⟨i, hi⟩
    exact ⟨i, hi.lt, hi.pick⟩
  · rintro ⟨i, hlt, hpick⟩
    exact Last.exists hlt hpick

/-- One prefix, picked twice in a round. -/
def lone : Dataset :=
  ⟨[.make (.fromV4 0x0A000000) 8 Width.eight_le_ipv4], [.fromV4 0x0A000001, .fromV4 0x0B000001], [0]⟩

theorem batch_coalesces_lone : ∃ s' batch,
    init.turn lone [lone.prefixes, lone.prefixes] = some (s', batch) ∧
    ((batch.getD []).map FibUpdate.pfx).Nodup ∧
    (∀ p, p ∈ (batch.getD []).map FibUpdate.pfx ↔
      ∃ i < 2, lone.pick (init.index + .ofNat i) = some p) ∧
    ∀ u ∈ batch.getD [], u.kind = .add ∧ u.entry.source = .bgp ∧
      ∃ i, Last lone init 2 u.pfx i ∧ u.entry.hop = ⟨init.revision + .ofNat i, 1, 0, 0⟩ := by
  have hreach : init.churn lone [] = some (init, []) := rfl
  have hturn : init.turn lone [lone.prefixes, lone.prefixes] = some (_, _) := rfl
  exact ⟨_, _, hturn, batch_coalesces hreach hturn⟩

end Churner

end RcuFib
