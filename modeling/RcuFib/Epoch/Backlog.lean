import RcuFib.Epoch.Residents
import RcuFib.Epoch.Reclaim
import RcuFib.Epoch.Synchronize
import Mathlib.Tactic.IntervalCases

/-! The backlog of a single writer.

    One thread retires and reclaims, and nobody is pinned while it scans, so every attempt advances the
    epoch. Between two calls its bags hold what it has retired in the current epoch, no more than
    `since_attempt` counts, and in the one before, no more than an interval; the third bag is empty. -/

namespace RcuFib

open Trace

namespace EpochDomain
variable {T α : Type*} {s s' : EpochDomain T α} {τ σ : T} {rec : Nat} {pc : Pc α}

/-! ### The ring -/

theorem ringIndex_val (e : Nat) : (ringIndex e).val = e % 3 := rfl

theorem ringIndex_succ_ne (e : Nat) : ringIndex (e + 1) ≠ ringIndex e := by
  intro h
  have := congrArg Fin.val h
  rw [ringIndex_val, ringIndex_val] at this
  omega

theorem ringIndex_add_two_ne (e : Nat) : ringIndex (e + 2) ≠ ringIndex e := by
  intro h
  have := congrArg Fin.val h
  rw [ringIndex_val, ringIndex_val] at this
  omega

theorem ringIndex_add_three (e : Nat) : ringIndex (e + 3) = ringIndex e := by
  refine Fin.ext ?_
  rw [ringIndex_val, ringIndex_val]
  omega

theorem sum_ring (f : Fin 3 → Nat) (e : Nat) : ((List.finRange 3).map f).sum =
    f (ringIndex e) + f (ringIndex (e + 1)) + f (ringIndex (e + 2)) := by
  have hrange : List.finRange 3 = [0, 1, 2] := by decide
  have hcases : (ringIndex e = 0 ∧ ringIndex (e + 1) = 1 ∧ ringIndex (e + 2) = 2) ∨
      (ringIndex e = 1 ∧ ringIndex (e + 1) = 2 ∧ ringIndex (e + 2) = 0) ∨
      (ringIndex e = 2 ∧ ringIndex (e + 1) = 0 ∧ ringIndex (e + 2) = 1) := by
    simp only [Fin.ext_iff, ringIndex_val]
    omega
  rw [hrange]
  rcases hcases with ⟨h₀, h₁, h₂⟩ | ⟨h₀, h₁, h₂⟩ | ⟨h₀, h₁, h₂⟩ <;>
    simp [h₀, h₁, h₂] <;> omega

/-! ### What the writer holds -/

/-- The bags of `τ` hold at most `new` objects of the current epoch and `old` of the one before. -/
structure Stocked (s : EpochDomain T α) (τ : T) (new old : Nat) : Prop where
  new : ∀ r, s.slot τ = some r → ((s.record r).bags (ringIndex s.globalEpoch)).length ≤ new
  old : ∀ r, s.slot τ = some r → ((s.record r).bags (ringIndex (s.globalEpoch + 2))).length ≤ old
  third : ∀ r, s.slot τ = some r → (s.record r).bags (ringIndex (s.globalEpoch + 1)) = []

/-- The epoch has moved on, and the bag whose turn it is has still to be freed. -/
structure Rotated (s : EpochDomain T α) (τ : T) : Prop where
  new : ∀ r, s.slot τ = some r → (s.record r).bags (ringIndex s.globalEpoch) = []
  old : ∀ r, s.slot τ = some r →
    ((s.record r).bags (ringIndex (s.globalEpoch + 2))).length ≤ reclaimInterval

/-- The epoch and the bags of `τ` are as they were. -/
structure SameBags (s s' : EpochDomain T α) (τ : T) : Prop where
  epoch : s'.globalEpoch = s.globalEpoch
  slot : s'.slot τ = s.slot τ
  bags : ∀ r, s.slot τ = some r → (s'.record r).bags = (s.record r).bags

theorem Stocked.mono {n o n' o' : Nat} (h : s.Stocked τ n o) (hs : s.SameBags s' τ) (hn : n ≤ n')
    (ho : o ≤ o') : s'.Stocked τ n' o' := by
  refine ⟨fun r hr => ?_, fun r hr => ?_, fun r hr => ?_⟩
  · rw [hs.slot] at hr
    rw [hs.epoch, hs.bags r hr]
    exact (h.new r hr).trans hn
  · rw [hs.slot] at hr
    rw [hs.epoch, hs.bags r hr]
    exact (h.old r hr).trans ho
  · rw [hs.slot] at hr
    rw [hs.epoch, hs.bags r hr]
    exact h.third r hr

theorem Rotated.mono (h : s.Rotated τ) (hs : s.SameBags s' τ) : s'.Rotated τ := by
  refine ⟨fun r hr => ?_, fun r hr => ?_⟩
  · rw [hs.slot] at hr
    rw [hs.epoch, hs.bags r hr]
    exact h.new r hr
  · rw [hs.slot] at hr
    rw [hs.epoch, hs.bags r hr]
    exact h.old r hr

/-- A thread with nothing in its bags. -/
theorem stocked_of_empty {n o : Nat} (h : ∀ r, s.slot τ = some r → ∀ k, (s.record r).bags k = []) :
    s.Stocked τ n o := by
  refine ⟨fun r hr => ?_, fun r hr => ?_, fun r hr => h r hr _⟩
  · rw [h r hr, List.length_nil]
    exact Nat.zero_le _
  · rw [h r hr, List.length_nil]
    exact Nat.zero_le _

theorem rotated_of_empty (h : ∀ r, s.slot τ = some r → ∀ k, (s.record r).bags k = []) :
    s.Rotated τ :=
  ⟨fun r hr => h r hr _, (stocked_of_empty (n := 0) h).old⟩

/-- An advance makes the current epoch the one before. -/
theorem Stocked.advance {n o : Nat} (h : s.Stocked τ n o) (hn : n ≤ reclaimInterval)
    (hslot : s'.slot = s.slot) (hr : s'.record = s.record) (he : s'.globalEpoch = s.globalEpoch + 1) :
    s'.Rotated τ := by
  refine ⟨fun r hs => ?_, fun r hs => ?_⟩
  · rw [hslot] at hs
    rw [he, hr]
    exact h.third r hs
  · rw [hslot] at hs
    rw [he, hr, Nat.add_assoc, ringIndex_add_three]
    exact (h.new r hs).trans hn

/-- What is known of the bags at each position of the writer. -/
def Stock (s : EpochDomain T α) (τ : T) : Option (Pc α) → Prop
  | none | some (.enter _) | some (.announce _ _) | some (.retire _ _) =>
    s.Stocked τ s.sinceAttempt reclaimInterval
  | some (.pushBag _ _ e) => e = s.globalEpoch ∧ s.Stocked τ s.sinceAttempt reclaimInterval
  | some (.countRetired _) | some (.countAttempt _) =>
    s.Stocked τ (s.sinceAttempt + 1) reclaimInterval
  | some (.resetAttempt _) | some (.tryAdvance (.reclaim _)) =>
    s.Stocked τ reclaimInterval reclaimInterval
  | some (.scanHead (.reclaim _) e) | some (.scan (.reclaim _) e _) =>
    e = s.globalEpoch ∧ s.Stocked τ reclaimInterval reclaimInterval
  | some (.countFailed (.reclaim _)) => False
  | some (.countAdvance (.reclaim _)) | some (.reclaimEpoch _ _) => s.Rotated τ
  | some (.free (.reclaim _) _ (.bag k) _ _) => k = ringIndex (s.globalEpoch + 1) ∧ s.Rotated τ
  | some (.free (.reclaim _) _ .adopted _ _) | some (.countReclaimed (.reclaim _) _ _ _)
  | some (.lockOrphans (.reclaim _) _) | some (.swapOrphans (.reclaim _) _)
  | some (.unlockOrphans (.reclaim _) _ _) => s.Stocked τ s.sinceAttempt reclaimInterval
  | _ => True

/-- The invariant of the writer: `since_attempt` reaches the interval only to be reset. -/
structure Bounded (s : EpochDomain T α) (τ : T) (x : Option (Pc α)) : Prop where
  counter : (∃ stamp, x = some (.resetAttempt stamp)) ∨ s.sinceAttempt < reclaimInterval
  stock : s.Stock τ x

theorem Stock.mono {x : Option (Pc α)} (h : s.Stock τ x) (hs : s.SameBags s' τ)
    (hc : s'.sinceAttempt = s.sinceAttempt) : s'.Stock τ x := by
  unfold Stock at h ⊢
  rw [hc, hs.epoch]
  split at h
  all_goals first
    | exact h.mono hs le_rfl le_rfl
    | exact ⟨h.1, h.2.mono hs le_rfl le_rfl⟩
    | exact h.mono hs
    | exact ⟨h.1, h.2.mono hs⟩
    | exact h

theorem Bounded.mono {x : Option (Pc α)} (h : s.Bounded τ x) (hs : s.SameBags s' τ)
    (hc : s'.sinceAttempt = s.sinceAttempt) : s'.Bounded τ x :=
  ⟨by rw [hc]; exact h.counter, h.stock.mono hs hc⟩

theorem SameBags.record [DecidableEq T] {y : ThreadRecord T α} (he : s'.globalEpoch = s.globalEpoch)
    (hs : s'.slot = s.slot) (hr : s'.record = Function.update s.record rec y)
    (hy : y.bags = (s.record rec).bags) : s.SameBags s' τ := by
  refine ⟨he, congrFun hs τ, fun r _ => ?_⟩
  rw [hr]
  rcases eq_or_ne r rec with rfl | hne
  · rw [Function.update_self, hy]
  · rw [Function.update_of_ne hne]

theorem SameBags.finish (h : s.SameBags s' τ) (task : Task) : s.SameBags (s'.finish task) τ := by
  unfold EpochDomain.finish
  split
  · exact ⟨h.epoch, h.slot, h.bags⟩
  · exact h

theorem sinceAttempt_finish (s : EpochDomain T α) (task : Task) :
    (s.finish task).sinceAttempt = s.sinceAttempt := by
  unfold finish
  split <;> rfl

/-- A thread that has just got hold of a record has nothing in its bags. -/
theorem stock_resume (hs : s.slot τ = some rec) (hb : ∀ k, (s.record rec).bags k = [])
    (k : After α) : s.Stock τ (some (s.resume rec k)) := by
  have hempty : ∀ r, s.slot τ = some r → ∀ k, (s.record r).bags k = [] := by
    intro r hr
    obtain rfl := Option.some.inj (hs.symm.trans hr)
    exact hb
  cases k with
  | enter => exact stocked_of_empty hempty
  | retire x => exact stocked_of_empty hempty
  | task task =>
    cases task with
    | reclaim within => exact rotated_of_empty hempty
    | synchronize before rotation => trivial

theorem Rotated.localRecord (h : s.Rotated τ) (within : Option Nat) :
    s.Stock τ (some (s.localRecord τ (.task (.reclaim within)))) := by
  unfold EpochDomain.localRecord
  split
  · exact h
  · trivial

theorem Stocked.localRecord (h : s.Stocked τ s.sinceAttempt reclaimInterval) {k : After α}
    (hk : ∀ task, k ≠ .task task) : s.Stock τ (some (s.localRecord τ k)) := by
  unfold EpochDomain.localRecord
  split
  · cases k with
    | enter => exact h
    | retire x => exact h
    | task task => exact absurd rfl (hk task)
  · trivial

/-- After the bag whose turn it is has been freed, what is left is what was new and what was old. -/
theorem Rotated.clear [DecidableEq T] (h : s.Rotated τ) (hs : s.slot τ = some rec) (n : Nat)
    (he : s'.globalEpoch = s.globalEpoch) (hslot : s'.slot = s.slot)
    (hr : s'.record = (s.setBag rec (ringIndex (s.globalEpoch + 1)) []).record) :
    s'.Stocked τ n reclaimInterval := by
  have hbag : ∀ r, s.slot τ = some r → ∀ k, (s'.record r).bags k =
      if k = ringIndex (s.globalEpoch + 1) then [] else (s.record r).bags k := by
    intro r hr' k
    obtain rfl := Option.some.inj (hs.symm.trans hr')
    simp [hr, setBag, setRecord, Function.update_apply]
  refine ⟨fun r hr' => ?_, fun r hr' => ?_, fun r hr' => ?_⟩
  · rw [hslot] at hr'
    rw [he, hbag r hr', if_neg (ringIndex_succ_ne s.globalEpoch).symm, h.new r hr', List.length_nil]
    exact Nat.zero_le n
  · rw [hslot] at hr'
    rw [he, hbag r hr']
    split
    · exact Nat.zero_le _
    · exact h.old r hr'
  · rw [hslot] at hr'
    rw [he, hbag r hr', if_pos rfl]

/-- An object is pushed on the bag of the current epoch. -/
theorem Stocked.push [DecidableEq T] (h : s.Stocked τ s.sinceAttempt reclaimInterval) (x : Retiree α)
    (hs : s.slot τ = some rec) (he : s'.globalEpoch = s.globalEpoch) (hslot : s'.slot = s.slot)
    (hr : s'.record = (s.setBag rec (ringIndex s.globalEpoch)
      ((s.record rec).bags (ringIndex s.globalEpoch) ++ [x])).record) :
    s'.Stocked τ (s.sinceAttempt + 1) reclaimInterval := by
  have hbag : ∀ r, s.slot τ = some r → ∀ k, (s'.record r).bags k =
      if k = ringIndex s.globalEpoch then (s.record r).bags k ++ [x] else (s.record r).bags k := by
    intro r hr' k
    obtain rfl := Option.some.inj (hs.symm.trans hr')
    rcases eq_or_ne k (ringIndex s.globalEpoch) with rfl | hk
    · simp [hr, setBag, setRecord]
    · simp [hr, setBag, setRecord, hk]
  refine ⟨fun r hr' => ?_, fun r hr' => ?_, fun r hr' => ?_⟩
  · rw [hslot] at hr'
    rw [he, hbag r hr', if_pos rfl, List.length_append, List.length_singleton]
    exact Nat.succ_le_succ (h.new r hr')
  · rw [hslot] at hr'
    rw [he, hbag r hr', if_neg (ringIndex_add_two_ne s.globalEpoch)]
    exact h.old r hr'
  · rw [hslot] at hr'
    rw [he, hbag r hr', if_neg (ringIndex_succ_ne s.globalEpoch)]
    exact h.third r hr'

section step
variable [DecidableEq T]

omit [DecidableEq T] in
theorem counters_afterFree (s : EpochDomain T α) (r : Nat) (task : Task) (source : Source) :
    (s.afterFree r task source).1.globalEpoch = s.globalEpoch ∧
      (s.afterFree r task source).1.sinceAttempt = s.sinceAttempt := by
  cases source with
  | adopted =>
    simp only [afterFree, finish]
    split <;> exact ⟨rfl, rfl⟩
  | bag k => cases task <;> exact ⟨rfl, rfl⟩

/-- `since_attempt` is the business of `retire` alone, and the epoch that of the end of a scan. -/
theorem counters_step (s : EpochDomain T α) (τ : T) (weak : Bool) (pc : Pc α) : ((∀ stamp, pc ≠ .countAttempt stamp) →
      (∀ stamp, pc ≠ .resetAttempt stamp) → (s.step τ weak pc).1.sinceAttempt = s.sinceAttempt) ∧
    ((∀ task e, pc ≠ .scan task e []) → (s.step τ weak pc).1.globalEpoch = s.globalEpoch) := by
  cases pc with
  | claim k cs =>
    cases cs with
    | nil => exact ⟨fun _ _ => rfl, fun _ => rfl⟩
    | cons c rest => simp only [step]; split <;> exact ⟨fun _ _ => rfl, fun _ => rfl⟩
  | publish => simp only [step]; split <;> exact ⟨fun _ _ => rfl, fun _ => rfl⟩
  | enter => simp only [step]; split <;> exact ⟨fun _ _ => rfl, fun _ => rfl⟩
  | countAttempt stamp =>
    refine ⟨fun h => absurd rfl (h stamp), fun _ => ?_⟩
    simp only [step, finish]
    split <;> rfl
  | resetAttempt stamp => exact ⟨fun _ h => absurd rfl (h stamp), fun _ => rfl⟩
  | scan task e rest =>
    cases rest with
    | nil =>
      refine ⟨fun _ _ => ?_, fun h => absurd rfl (h task e)⟩
      simp only [step]
      split <;> rfl
    | cons c rest =>
      simp only [step]
      split
      · exact ⟨fun _ _ => rfl, fun _ => rfl⟩
      · split <;> exact ⟨fun _ _ => rfl, fun _ => rfl⟩
  | countFailed task =>
    cases task with
    | reclaim within =>
      simp only [step, finish]
      split <;> exact ⟨fun _ _ => rfl, fun _ => rfl⟩
    | synchronize => exact ⟨fun _ _ => rfl, fun _ => rfl⟩
  | free task r source bag i =>
    have hclear : (s.clear r source).sinceAttempt = s.sinceAttempt ∧
        (s.clear r source).globalEpoch = s.globalEpoch := by
      cases source <;> exact ⟨rfl, rfl⟩
    simp only [step]
    split
    · exact ⟨fun _ _ => rfl, fun _ => rfl⟩
    · split
      · exact ⟨fun _ _ => hclear.1, fun _ => hclear.2⟩
      · obtain ⟨he, hc⟩ := counters_afterFree (s.clear r source) r task source
        exact ⟨fun _ _ => hc.trans hclear.1, fun _ => he.trans hclear.2⟩
  | countReclaimed task r source count =>
    obtain ⟨he, hc⟩ := counters_afterFree { s with reclaimed := s.reclaimed + count } r task source
    exact ⟨fun _ _ => hc, fun _ => he⟩
  | lockOrphans => simp only [step]; split <;> exact ⟨fun _ _ => rfl, fun _ => rfl⟩
  | unlockOrphans =>
    simp only [step, finish]
    split
    · split <;> exact ⟨fun _ _ => rfl, fun _ => rfl⟩
    · exact ⟨fun _ _ => rfl, fun _ => rfl⟩
  | exitLock => simp only [step]; split <;> exact ⟨fun _ _ => rfl, fun _ => rfl⟩
  | _ => exact ⟨fun _ _ => rfl, fun _ => rfl⟩

theorem counter_step {x : Option (Pc α)} (hc : (∃ stamp, some pc = some (.resetAttempt stamp)) ∨
    s.sinceAttempt < reclaimInterval) (weak : Bool) (hx : x = (s.step τ weak pc).2) :
    (∃ stamp, x = some (.resetAttempt stamp)) ∨
      (s.step τ weak pc).1.sinceAttempt < reclaimInterval := by
  by_cases hreset : ∃ stamp, pc = .resetAttempt stamp
  · obtain ⟨stamp, rfl⟩ := hreset
    exact .inr (by simp only [step]; decide)
  · have hlt : s.sinceAttempt < reclaimInterval := by
      rcases hc with ⟨stamp, hstamp⟩ | hlt
      · exact absurd ⟨stamp, Option.some.inj hstamp⟩ hreset
      · exact hlt
    by_cases hcount : ∃ stamp, pc = .countAttempt stamp
    · obtain ⟨stamp, rfl⟩ := hcount
      simp only [step] at hx ⊢
      split at hx
      · exact .inl ⟨stamp, hx⟩
      · next hless =>
        rw [if_neg hless]
        refine .inr ?_
        rw [sinceAttempt_finish]
        exact Nat.lt_of_not_le hless
    · refine .inr ?_
      rw [(s.counters_step τ weak pc).1 (fun stamp h => hcount ⟨stamp, h⟩) fun stamp h => hreset ⟨stamp, h⟩]
      exact hlt

omit [DecidableEq T] in
/-- While `synchronize` is under way its bags are nobody's concern. -/
theorem stock_of_synchronize {before : List Nat} (hk : pc.before = some before) :
    s.Stock τ (some pc) := by
  cases pc with
  | tryAdvance task | scanHead task | scan task | countFailed task | countAdvance task
  | lockOrphans task | swapOrphans task | unlockOrphans task | countReclaimed task =>
    cases task with
    | reclaim => exact absurd hk Task.not_before
    | synchronize => trivial
  | free task r source =>
    cases task with
    | reclaim => exact absurd hk Task.not_before
    | synchronize => trivial
  | reclaimEpoch => exact absurd hk Task.not_before
  | loadRecords | claim | newRecord | publish | countThread => trivial
  | _ => cases hk

/-- When `synchronize` returns, its bags are empty. -/
theorem stock_synchronized (hok : s.Ok τ pc) {before : List Nat} (hk : pc.before = some before)
    (weak : Bool) : (s.step τ weak pc).1.Stock τ (s.step τ weak pc).2 := by
  cases hx : (s.step τ weak pc).2 with
  | some pc' =>
    have hk' : pc'.before = some before := by
      rw [Pc.before, ((s.noted_step τ weak pc).goes pc' hx).1]
      exact hk
    exact stock_of_synchronize hk'
  | none =>
    obtain ⟨hswapped, -⟩ := (s.draining_step τ weak hk).returns hx
    have hall : ∀ {r}, s.slot τ = some r → (∀ k, (s.record r).bags k = []) →
        ∀ r', s.slot τ = some r' → ∀ k, (s.record r').bags k = [] := by
      intro r hs hb r' hr'
      obtain rfl := Option.some.inj (hs.symm.trans hr')
      exact hb
    have hempty : (∀ r, s.slot τ = some r → ∀ k, (s.record r).bags k = []) ∧
        s.SameBags (s.step τ weak pc).1 τ := by
      cases pc with
      | unlockOrphans task r adopted =>
        cases task with
        | reclaim => exact absurd hk Task.not_before
        | synchronize b n =>
          refine ⟨hall hok.1 hok.2.2, ?_⟩
          simp only [step]
          split <;> exact ⟨rfl, rfl, fun _ _ => rfl⟩
      | free task r source bag i =>
        cases source with
        | bag => exact hswapped.elim
        | adopted =>
          cases task with
          | reclaim => exact absurd hk Task.not_before
          | synchronize b n =>
            refine ⟨hall hok.1 hok.2.2, ?_⟩
            simp only [step]
            split
            · exact ⟨rfl, rfl, fun _ _ => rfl⟩
            · split <;> exact ⟨rfl, rfl, fun _ _ => rfl⟩
      | countReclaimed task r source count =>
        cases source with
        | bag => exact hswapped.elim
        | adopted =>
          cases task with
          | reclaim => exact absurd hk Task.not_before
          | synchronize b n =>
            exact ⟨hall hok.1 hok.2.2, rfl, rfl, fun _ _ => rfl⟩
      | _ => exact hswapped.elim
    exact (stocked_of_empty hempty.1).mono hempty.2 (Nat.zero_le _) (Nat.zero_le _)

omit [DecidableEq T] in
/-- `free_bag` has returned in a `try_reclaim`, or the whole call. -/
theorem stock_afterFree {within : Option Nat} {source : Source} {n : Nat}
    (h : s'.Stocked τ n reclaimInterval) (hn : n ≤ s'.sinceAttempt) :
    (s'.afterFree rec (.reclaim within) source).1.Stock τ
      (s'.afterFree rec (.reclaim within) source).2 := by
  have hsame : s'.SameBags s' τ := ⟨rfl, rfl, fun _ _ => rfl⟩
  cases source with
  | adopted =>
    refine h.mono (hsame.finish (.reclaim within)) ?_ le_rfl
    simp only [afterFree, sinceAttempt_finish]
    exact hn
  | bag k => exact h.mono hsame hn le_rfl

/-- A step of the writer keeps the bounds, if nobody is pinned while it scans. -/
theorem stock_step (h : s.Inv) (hok : s.Ok τ pc)
    (hc : (∃ stamp, some pc = some (.resetAttempt stamp)) ∨ s.sinceAttempt < reclaimInterval)
    (hstock : s.Stock τ (some pc)) (weak : Bool)
    (hquiet : ∀ within e rest, pc = .scan (.reclaim within) e rest → ∀ r, (s.record r).state = none)
    (hexit : pc.kind ≠ .exit) : (s.step τ weak pc).1.Stock τ (s.step τ weak pc).2 := by
  have hle : (∀ stamp, pc ≠ .resetAttempt stamp) → s.sinceAttempt < reclaimInterval := by
    intro hne
    rcases hc with ⟨stamp, hstamp⟩ | hlt
    · exact absurd (Option.some.inj hstamp) (hne stamp)
    · exact hlt
  cases hb : pc.before with
  | some before => exact stock_synchronized hok hb weak
  | none =>
    cases pc with
    | loadRecords | newRecord => trivial
    | publish =>
      simp only [step]
      split <;> trivial
    | claim k cs =>
      cases cs with
      | nil => trivial
      | cons c rest =>
        simp only [step]
        split
        · trivial
        · next hu =>
          refine stock_resume (Function.update_self ..) (fun j => ?_) k
          simp only [setRecord, Function.update_self]
          exact (h.free hu).2.2 j
    | countThread k r =>
      exact stock_resume (s := { s with threads := s.threads + 1, slot := Function.update s.slot τ (some r) })
        (Function.update_self ..) hok.2.2.1.bags k
    | enter r =>
      have hstocked : s.Stocked τ s.sinceAttempt reclaimInterval := hstock
      simp only [step]
      split
      · exact hstocked
      · exact hstocked.mono (.record rfl rfl rfl rfl) le_rfl le_rfl
    | announce r e =>
      have hstocked : s.Stocked τ s.sinceAttempt reclaimInterval := hstock
      have hsame : s.SameBags (s.step τ weak (.announce r e)).1 τ := by
        refine ⟨rfl, rfl, fun r' _ => ?_⟩
        rcases eq_or_ne r' r with rfl | hne
        · simp [step, openGuard, setRecord]
        · simp [step, openGuard, setRecord, hne]
      exact hstocked.mono hsame le_rfl le_rfl
    | retire x r => exact ⟨rfl, hstock⟩
    | pushBag x r e =>
      obtain ⟨rfl, hstocked⟩ := hstock
      exact hstocked.push x hok.1 rfl rfl rfl
    | countRetired stamp =>
      have hstocked : s.Stocked τ (s.sinceAttempt + 1) reclaimInterval := hstock
      exact hstocked.mono ⟨rfl, rfl, fun _ _ => rfl⟩ le_rfl le_rfl
    | countAttempt stamp =>
      have hstocked : s.Stocked τ (s.sinceAttempt + 1) reclaimInterval := hstock
      have hlt := hle nofun
      simp only [step]
      split
      · exact hstocked.mono ⟨rfl, rfl, fun _ _ => rfl⟩ hlt le_rfl
      · refine hstocked.mono ⟨rfl, rfl, fun _ _ => rfl⟩ ?_ le_rfl
        rw [sinceAttempt_finish]
    | resetAttempt stamp =>
      have hstocked : s.Stocked τ reclaimInterval reclaimInterval := hstock
      exact hstocked.mono ⟨rfl, rfl, fun _ _ => rfl⟩ le_rfl le_rfl
    | tryAdvance task =>
      cases task with
      | synchronize => cases hb
      | reclaim within => exact ⟨rfl, hstock⟩
    | scanHead task e =>
      cases task with
      | synchronize => cases hb
      | reclaim within => exact hstock
    | scan task e rest =>
      cases task with
      | synchronize => cases hb
      | reclaim within =>
        obtain ⟨rfl, hstocked⟩ := hstock
        cases rest with
        | nil =>
          simp only [step, if_true]
          exact hstocked.advance le_rfl rfl rfl rfl
        | cons c rest =>
          simp only [step, hquiet within _ _ rfl c]
          exact ⟨rfl, hstocked⟩
    | countFailed task =>
      cases task with
      | synchronize => cases hb
      | reclaim within => exact hstock.elim
    | countAdvance task =>
      cases task with
      | synchronize => cases hb
      | reclaim within =>
        have hrotated : s.Rotated τ := hstock
        have hcounted : Rotated { s with advances := s.advances + 1 } τ :=
          hrotated.mono ⟨rfl, rfl, fun _ _ => rfl⟩
        exact hcounted.localRecord within
    | reclaimEpoch within r => exact ⟨rfl, hstock⟩
    | free task r source bag i =>
      cases task with
      | synchronize => cases hb
      | reclaim within =>
        cases source with
        | bag k =>
          obtain ⟨rfl, hrotated⟩ := hstock
          simp only [step]
          split
          · exact ⟨rfl, hrotated.mono ⟨rfl, rfl, fun _ _ => rfl⟩⟩
          · have hcleared : (s.clear r (.bag (ringIndex (s.globalEpoch + 1)))).Stocked τ
                s.sinceAttempt reclaimInterval :=
              hrotated.clear hok.1 s.sinceAttempt rfl rfl rfl
            split
            · exact hcleared
            · exact stock_afterFree hcleared le_rfl
        | adopted =>
          have hstocked : s.Stocked τ s.sinceAttempt reclaimInterval := hstock
          simp only [step]
          split
          · exact hstocked.mono ⟨rfl, rfl, fun _ _ => rfl⟩ le_rfl le_rfl
          · split
            · exact hstocked
            · exact stock_afterFree hstocked le_rfl
    | countReclaimed task r source count =>
      cases task with
      | synchronize => cases hb
      | reclaim within =>
        have hstocked : s.Stocked τ s.sinceAttempt reclaimInterval := hstock
        have hcounted : Stocked { s with reclaimed := s.reclaimed + count } τ s.sinceAttempt
            reclaimInterval := hstocked.mono ⟨rfl, rfl, fun _ _ => rfl⟩ le_rfl le_rfl
        exact stock_afterFree hcounted le_rfl
    | lockOrphans task r =>
      cases task with
      | synchronize => cases hb
      | reclaim within =>
        have hstocked : s.Stocked τ s.sinceAttempt reclaimInterval := hstock
        simp only [step]
        split
        · exact hstocked
        · exact hstocked.mono ⟨rfl, rfl, fun _ _ => rfl⟩ le_rfl le_rfl
    | swapOrphans task r =>
      cases task with
      | synchronize => cases hb
      | reclaim within =>
        have hstocked : s.Stocked τ s.sinceAttempt reclaimInterval := hstock
        exact hstocked.mono ⟨rfl, rfl, fun _ _ => rfl⟩ le_rfl le_rfl
    | unlockOrphans task r adopted =>
      cases task with
      | synchronize => cases hb
      | reclaim within =>
        have hstocked : s.Stocked τ s.sinceAttempt reclaimInterval := hstock
        have hunlocked : Stocked { s with orphanMutex := none } τ s.sinceAttempt reclaimInterval :=
          hstocked.mono ⟨rfl, rfl, fun _ _ => rfl⟩ le_rfl le_rfl
        simp only [step]
        split
        · have hafter : ({ s with orphanMutex := none }.afterFree r (.reclaim within) .adopted).1.Stock τ
              ({ s with orphanMutex := none }.afterFree r (.reclaim within) .adopted).2 :=
            stock_afterFree hunlocked le_rfl
          exact hafter
        · exact hunlocked
    | exitLock | exitMove | exitUnlock | exitState | exitInUse => exact absurd rfl hexit

/-! ### Calls -/

theorem counters_call {c : Call α} {x : EpochDomain T α × Option (Pc α)} (hc : s.call τ c = some x) :
    x.1.globalEpoch = s.globalEpoch ∧ x.1.sinceAttempt = s.sinceAttempt := by
  cases c with
  | enter | tryReclaim | synchronize => cases hc; exact ⟨rfl, rfl⟩
  | leave =>
    simp only [call] at hc
    split at hc
    · cases hc
      exact ⟨rfl, rfl⟩
    · cases hc
  | retire p => cases p <;> cases hc <;> exact ⟨rfl, rfl⟩
  | exit =>
    simp only [call] at hc
    split at hc
    · split at hc <;> · cases hc; exact ⟨rfl, rfl⟩
    · cases hc

/-- The writer starts a call with its bounds. -/
theorem bounded_call {c : Call α} {x : EpochDomain T α × Option (Pc α)} (hc : s.call τ c = some x)
    (hb : s.Bounded τ (none : Option (Pc α))) (hexit : c ≠ .exit) : x.1.Bounded τ x.2 := by
  obtain ⟨hcounter, hstock⟩ := hb
  have hstocked : s.Stocked τ s.sinceAttempt reclaimInterval := hstock
  have hlt : s.sinceAttempt < reclaimInterval := by
    rcases hcounter with ⟨stamp, hstamp⟩ | hlt
    · cases hstamp
    · exact hlt
  have hbags := (moved_call hc).2
  have hslot := (steady_call hc).slot
  obtain ⟨he, hcount⟩ := counters_call hc
  have hsame : s.SameBags x.1 τ := ⟨he, congrFun hslot τ, fun r _ => (hbags r).1⟩
  refine ⟨.inr (hcount ▸ hlt), ?_⟩
  cases c with
  | enter =>
    cases hc
    exact hstocked.localRecord nofun
  | leave =>
    simp only [call] at hc
    split at hc
    · cases hc
      exact hstocked.mono hsame le_rfl le_rfl
    · cases hc
  | retire p =>
    cases p with
    | none =>
      cases hc
      exact hstocked
    | some p =>
      cases hc
      exact (hstocked.mono hsame le_rfl le_rfl).localRecord nofun
  | tryReclaim =>
    cases hc
    exact hstocked.mono hsame hlt.le le_rfl
  | synchronize =>
    cases hc
    trivial
  | exit => exact absurd rfl hexit

/-! ### What is pending -/

omit [DecidableEq T] in
/-- Nothing is pending but what is in the bags of the writer. -/
theorem pending_le {n o : Nat} (hnodup : s.records.Nodup) (horphans : s.orphans = [])
    (hsole : ∀ r k, (s.record r).bags k ≠ [] → s.slot τ = some r) (h : s.Stocked τ n o) :
    s.pending ≤ n + o := by
  have hrecord : ∀ r, ((List.finRange 3).map fun k => ((s.record r).bags k).length).sum ≤
      if s.slot τ = some r then n + o else 0 := by
    intro r
    rw [sum_ring _ s.globalEpoch]
    split
    · next hr =>
      have hnew := h.new r hr
      have hold := h.old r hr
      rw [h.third r hr, List.length_nil]
      omega
    · next hr =>
      have hnil : ∀ k, (s.record r).bags k = [] := by
        intro k
        by_contra hne
        exact hr (hsole r k hne)
      simp [hnil]
  have hsum : ∀ l : List Nat, l.Nodup →
      (l.map fun r => ((List.finRange 3).map fun k => ((s.record r).bags k).length).sum).sum ≤ n + o ∧
      ((∀ r ∈ l, s.slot τ ≠ some r) →
        (l.map fun r => ((List.finRange 3).map fun k => ((s.record r).bags k).length).sum).sum = 0) := by
    intro l hl
    induction l with
    | nil => exact ⟨Nat.zero_le _, fun _ => rfl⟩
    | cons r l ih =>
      obtain ⟨hr, hl⟩ := List.nodup_cons.mp hl
      obtain ⟨hle, hzero⟩ := ih hl
      have hone := hrecord r
      rw [List.map_cons, List.sum_cons]
      constructor
      · split at hone
        · next hs =>
          rw [hzero fun r' hr' hs' => hr (Option.some.inj (hs.symm.trans hs') ▸ hr')]
          exact hone
        · omega
      · intro hnone
        rw [if_neg (hnone r List.mem_cons_self)] at hone
        rw [hzero fun r' hr' => hnone r' (List.mem_cons_of_mem _ hr')]
        omega
  rw [pending, horphans, List.length_nil, Nat.add_zero]
  exact (hsum s.records hnodup).1

end step

end EpochDomain

namespace EpochSystem
variable {T α : Type*} [DecidableEq T] {s s' : EpochSystem T α} {a : Action T α} {τ : T}

/-- Only `τ` retires and reclaims, and it does not end. -/
def Lone (τ : T) : Action T α → Prop
  | .call σ (.retire (some _)) | .call σ .tryReclaim | .call σ .synchronize => σ = τ
  | .call σ .exit => σ ≠ τ
  | _ => True

instance (τ : T) : DecidablePred (Lone (α := α) τ)
  | .call σ (.retire (some _)) | .call σ .tryReclaim | .call σ .synchronize =>
    inferInstanceAs (Decidable (σ = τ))
  | .call σ .exit => inferInstanceAs (Decidable (σ ≠ τ))
  | .call _ .enter | .call _ .leave | .call _ (.retire none) | .step _ _ => .isTrue trivial

/-- One writer, and everybody else opening and closing guards. -/
structure SoleWriter (s : EpochSystem T α) (τ : T) : Prop where
  inv : s.Inv
  residents : s.Residents (· = τ)
  sole : ∀ r k, (s.dom.record r).bags k ≠ [] → s.dom.slot τ = some r
  bystanders : ∀ σ pc, σ ≠ τ → s.pc σ = some pc → pc.kind = .enter ∨ pc.kind = .exit
  bounded : s.dom.Bounded τ (s.pc τ)

omit [DecidableEq T] in
theorem soleWriter_init (τ : T) : (init : EpochSystem T α).SoleWriter τ := by
  refine ⟨inv_init, ⟨nofun, nofun, nofun, rfl, nofun⟩, ?_, nofun, .inr (Nat.zero_lt_succ _), ?_⟩
  · intro r k hne
    exact absurd rfl hne
  · exact EpochDomain.stocked_of_empty nofun

/-- The start of a call. -/
theorem soleWriter_call {σ : T} {c : Call α} {x : EpochDomain T α × Option (Pc α)} (h : s.SoleWriter τ)
    (hinv : Inv (⟨x.1, Function.update s.pc σ x.2⟩ : EpochSystem T α)) (hpc : s.pc σ = none)
    (hres : Residents (⟨x.1, Function.update s.pc σ x.2⟩ : EpochSystem T α) (· = τ))
    (hc : s.dom.call σ c = some x) (hlone : Lone τ (.call σ c)) :
    SoleWriter (⟨x.1, Function.update s.pc σ x.2⟩ : EpochSystem T α) τ := by
  have hbags := (EpochDomain.moved_call hc).2
  have hslot := (EpochDomain.steady_call hc).slot
  refine ⟨hinv, hres, fun r k hne => ?_, fun ρ pc hρ hpc' => ?_, ?_⟩
  · rw [(hbags r).1] at hne
    rw [hslot]
    exact h.sole r k hne
  · rcases eq_or_ne ρ σ with rfl | hne
    · simp only [Function.update_self] at hpc'
      have hkind := (EpochDomain.called hc).kind pc hpc'
      cases c with
      | enter => exact .inl (Option.some.inj hkind).symm
      | exit => exact .inr (Option.some.inj hkind).symm
      | leave => cases hkind
      | retire p =>
        cases p with
        | none => cases hkind
        | some p => exact absurd hlone hρ
      | tryReclaim | synchronize => exact absurd hlone hρ
    · simp only [Function.update_of_ne hne] at hpc'
      exact h.bystanders ρ pc hρ hpc'
  · rcases eq_or_ne τ σ with rfl | hne
    · simp only [Function.update_self]
      refine EpochDomain.bounded_call hc (hpc ▸ h.bounded) ?_
      rintro rfl
      exact hlone rfl
    · simp only [Function.update_of_ne hne]
      obtain ⟨he, hcount⟩ := EpochDomain.counters_call hc
      exact h.bounded.mono ⟨he, congrFun hslot τ, fun r _ => (hbags r).1⟩ hcount

/-- A step of a call; while the writer scans nobody is pinned. -/
theorem soleWriter_step {σ : T} {pc : Pc α} {weak : Bool} (h : s.SoleWriter τ)
    (hinv : Inv (⟨(s.dom.step σ weak pc).1, Function.update s.pc σ (s.dom.step σ weak pc).2⟩ :
      EpochSystem T α))
    (hres : Residents (⟨(s.dom.step σ weak pc).1, Function.update s.pc σ (s.dom.step σ weak pc).2⟩ :
      EpochSystem T α) (· = τ))
    (hpc : s.pc σ = some pc)
    (hquiet : ∀ within e rest, s.pc τ = some (.scan (.reclaim within) e rest) →
      ∀ ρ, s.dom.guards ρ = []) :
    SoleWriter (⟨(s.dom.step σ weak pc).1, Function.update s.pc σ (s.dom.step σ weak pc).2⟩ :
      EpochSystem T α) τ := by
  have hok := h.inv.ok σ pc hpc
  have hnoted := s.dom.noted_step σ weak pc
  -- the writer stays with the record it has
  have hkept : ∀ r, s.dom.slot τ = some r → (s.dom.step σ weak pc).1.slot τ = some r := by
    intro r hs
    rcases eq_or_ne τ σ with rfl | hne
    · have hexit : pc.kind ≠ .exit := fun hk => h.residents.exit τ pc hpc hk rfl
      rw [EpochDomain.slot_kept hok hs (fun c he => hexit (he ▸ rfl)) weak]
      exact hs
    · have hstep : s.dom.StepOk σ (s.dom.step σ weak pc) := EpochDomain.step_ok h.inv.dom hok
      exact (hstep.1.rely τ hne).slot.trans hs
  refine ⟨hinv, hres, fun r k hne => ?_, fun ρ pc' hρ hpc' => ?_, ?_⟩
  · obtain ⟨y, hy⟩ := List.exists_mem_of_ne_nil _ hne
    rcases (EpochDomain.moved_step h.inv.dom σ weak pc).bags r k y hy with hy | ⟨e, rfl⟩
    · exact hkept r (h.sole r k (List.ne_nil_of_mem hy))
    · obtain rfl := h.residents.retire σ _ y.stamp hpc rfl
      exact hkept r hok.1
  · rcases eq_or_ne ρ σ with rfl | hne
    · simp only [Function.update_self] at hpc'
      rw [(hnoted.goes pc' hpc').1]
      exact h.bystanders ρ pc hρ hpc
    · simp only [Function.update_of_ne hne] at hpc'
      exact h.bystanders ρ pc' hρ hpc'
  · rcases eq_or_ne τ σ with rfl | hne
    · simp only [Function.update_self]
      have hbounded := h.bounded
      rw [hpc] at hbounded
      refine ⟨EpochDomain.counter_step hbounded.counter weak rfl,
        EpochDomain.stock_step h.inv.dom hok hbounded.counter hbounded.stock weak ?_ ?_⟩
      · rintro within e rest rfl r
        cases hstate : (s.dom.record r).state with
        | none => rfl
        | some a =>
          obtain ⟨-, -, -, ρ, -, hguards⟩ := h.inv.dom.pinned r a hstate
          exact absurd (hquiet within e rest hpc ρ) hguards
      · exact fun hk => h.residents.exit τ pc hpc hk rfl
    · simp only [Function.update_of_ne hne]
      have hstep : s.dom.StepOk σ (s.dom.step σ weak pc) := EpochDomain.step_ok h.inv.dom hok
      have hrely := hstep.1.rely τ hne
      have hkind := h.bystanders σ pc hne.symm hpc
      obtain ⟨hcount, hepoch⟩ := s.dom.counters_step σ weak pc
      refine h.bounded.mono ⟨hepoch ?_, hrely.slot, fun r hs => ?_⟩ (hcount ?_ ?_)
      · rintro task e rfl
        rcases task with ⟨_ | stamp⟩ | _ <;> rcases hkind with hk | hk <;> cases hk
      · rw [hrely.record r (h.inv.dom.slot τ r hs).1]
      · rintro stamp rfl
        rcases hkind with hk | hk <;> cases hk
      · rintro stamp rfl
        rcases hkind with hk | hk <;> cases hk

theorem soleWriter_act (h : s.SoleWriter τ) (ha : act s a = some s') (hlone : Lone τ a)
    (hquiet : ∀ within e rest, s.pc τ = some (.scan (.reclaim within) e rest) →
      ∀ ρ, s.dom.guards ρ = []) : s'.SoleWriter τ := by
  have hinv := inv_act h.inv ha
  have hres : s'.Residents (· = τ) := by
    refine residents_act h.residents h.inv ha ?_ (fun _ => id) ?_ fun _ => .inl
    · rintro σ rfl
      exact hlone
    · rintro σ p rfl
      exact hlone
  obtain ⟨σ, x, rfl, ⟨c, rfl, hpc, hc⟩ | ⟨weak, pc, -, hpc, rfl⟩⟩ := act_cases ha
  · exact soleWriter_call h hinv hpc hres hc hlone
  · exact soleWriter_step h hinv hres hpc hquiet

section backlog
variable {r : Nat → EpochSystem T α} {n i : Nat}

/-- Where one thread does all the retiring and reclaiming, and nobody is pinned while it attempts to
    reclaim, no more than an interval of the current epoch and one of the epoch before is ever pending
    between its calls. -/
theorem backlog_bounded (h : Run act init r n)
    (hlone : ∀ m < n, ∃ a, act (r m) a = some (r (m + 1)) ∧ Lone τ a)
    (hquiet : ∀ m ≤ n, ∀ within e rest, (r m).pc τ = some (.scan (.reclaim within) e rest) →
      ∀ σ, (r m).dom.guards σ = [])
    (hi : i ≤ n) (hidle : (r i).pc τ = none) : (r i).dom.pending ≤ 127 := by
  have hsole : ∀ m ≤ n, (r m).SoleWriter τ := by
    intro m hm
    induction m with
    | zero => exact h.start ▸ soleWriter_init τ
    | succ m ih =>
      obtain ⟨a, ha, hl⟩ := hlone m hm
      exact soleWriter_act (ih (Nat.le_of_succ_le hm)) ha hl (hquiet m (Nat.le_of_succ_le hm))
  have hs := hsole i hi
  obtain ⟨hcounter, hstock⟩ := hs.bounded
  rw [hidle] at hcounter hstock
  have hlt : (r i).dom.sinceAttempt < reclaimInterval := by
    rcases hcounter with ⟨stamp, hstamp⟩ | hlt
    · cases hstamp
    · exact hlt
  have hpending := EpochDomain.pending_le hs.inv.dom.nodup hs.residents.orphans hs.sole hstock
  calc (r i).dom.pending ≤ (r i).dom.sinceAttempt + reclaimInterval := hpending
    _ ≤ 63 + 64 := Nat.add_le_add (Nat.le_of_lt_succ hlt) le_rfl

/-- The writer retires, reclaims, retires again and reclaims twice, and a reader looks in between. -/
def lookIn : List (Action Bool Nat) := List.flatten [
  [.call false (.retire (some 7))], List.replicate 9 (.step false false),
  [.call true .enter], List.replicate 8 (.step true false), [.call true .leave],
  [.call false .tryReclaim], List.replicate 11 (.step false false),
  [.call false (.retire (some 8))], List.replicate 4 (.step false false),
  [.call false .tryReclaim], List.replicate 13 (.step false false)]

theorem backlog_bounded_look_in : (play act init lookIn 51).dom.freed.length = 1 ∧
    (play act init lookIn 51).dom.pending ≤ 127 := by
  have hsome : (exec act init lookIn).isSome := by rfl
  have hall : ∀ a ∈ lookIn, Lone false a := by decide
  refine ⟨by rfl, ?_⟩
  refine backlog_bounded (run_play hsome) (τ := false) ?_ ?_ le_rfl (by rfl)
  · intro m hm
    exact ⟨lookIn[m], act_play hsome hm, hall _ (List.getElem_mem hm)⟩
  · intro m hm within e rest hpc σ
    -- the reader's guard is open at one moment only, between two calls of the writer
    rcases eq_or_ne m 19 with rfl | hne
    · cases hpc
    · have hlt : m < 52 := Nat.lt_succ_of_le hm
      clear hm
      interval_cases m
      all_goals first
        | exact absurd rfl hne
        | cases σ <;> rfl

end backlog

end EpochSystem

end RcuFib
