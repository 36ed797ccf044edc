import RcuFib.Epoch.Domain
import Mathlib.Order.Basic

/-! The grace-period argument.

    A reader announces the epoch it loaded, which may be stale, but the epoch of the moment it does
    (`since`) is a bound on what it can hold back: a scan that starts once the global epoch has left
    that moment finds the announcement and fails, so the epoch gets at most one ahead of it
    (`Inv.pinned` and the annotation of `scan`). An object retired at epoch `tag` is therefore out of
    every reader's sight when the epoch has reached `tag + 2`. `Settled` is what is known of an
    object on its way, `Safe` what must hold when its deleter runs. -/

namespace RcuFib

namespace EpochDomain
variable {T α : Type*}

/-- No guard that was open when the object's retirement began is still open. -/
def Safe (s : EpochDomain T α) (x : Retiree α) : Prop :=
  x.born ≤ s.nextGuard ∧ ∀ τ, ∀ g ∈ s.guards τ, x.born ≤ g.number

/-- The guards that do hold the object back were announced by the epoch it is tagged with. -/
structure Settled (s : EpochDomain T α) (x : Retiree α) : Prop where
  tag_le : x.tag ≤ s.globalEpoch
  born_le : x.born ≤ s.nextGuard
  since_le : ∀ τ r, s.slot τ = some r → ∀ g ∈ s.guards τ, g.number < x.born →
    (s.record r).since ≤ x.tag

/-- Only the last guard to close is the outermost. -/
def Nested : List ReadGuard → Prop
  | [] => True
  | g :: rest => (g.outermost = true ↔ rest = []) ∧ Nested rest

structure Inv (s : EpochDomain T α) : Prop where
  records_lt : ∀ r ∈ s.records, r < s.nextRecord
  nodup : s.records.Nodup
  slot : ∀ τ r, s.slot τ = some r → (s.record r).owner = some τ ∧ r ∈ s.records
  owner_lt : ∀ r τ, (s.record r).owner = some τ → r < s.nextRecord
  in_use : ∀ r τ, (s.record r).owner = some τ → (s.record r).inUse = true
  idle : ∀ r, (s.record r).owner = none → ∀ k, (s.record r).bags k = []
  pinned : ∀ r a, (s.record r).state = some a → a ≤ (s.record r).since ∧
    (s.record r).since ≤ s.globalEpoch ∧ s.globalEpoch ≤ (s.record r).since + 1 ∧
    ∃ τ, s.slot τ = some r ∧ s.guards τ ≠ []
  guarded : ∀ τ, s.guards τ ≠ [] → ∃ r a, s.slot τ = some r ∧ (s.record r).state = some a
  nesting : ∀ τ r, s.slot τ = some r → (s.record r).nesting = (s.guards τ).length
  nested : ∀ τ, Nested (s.guards τ)
  guard_lt : ∀ τ, ∀ g ∈ s.guards τ, g.number < s.nextGuard
  bags : ∀ r k, ∀ x ∈ (s.record r).bags k, s.Settled x ∧ ringIndex x.tag = k
  orphans : ∀ x ∈ s.orphans, s.Settled x

variable {s s' : EpochDomain T α} {τ σ : T} {r : Nat} {x : Retiree α} {k : Fin 3}

/-- Two epochs after its tag an object is out of every reader's sight. -/
theorem Settled.safe (h : s.Inv) (hx : s.Settled x) (hg : x.tag + 2 ≤ s.globalEpoch) : s.Safe x := by
  refine ⟨hx.born_le, fun τ g hg' => not_lt.mp fun hlt => ?_⟩
  obtain ⟨r, a, hslot, ha⟩ := h.guarded τ (List.ne_nil_of_mem hg')
  have hsince := hx.since_le τ r hslot g hg' hlt
  have := (h.pinned r a ha).2.2.1
  omega

/-- So it is when every announced epoch is later than its tag. -/
theorem Settled.safe_of_later (h : s.Inv) (hx : s.Settled x)
    (hl : ∀ r a, (s.record r).state = some a → x.tag < a) : s.Safe x := by
  refine ⟨hx.born_le, fun τ g hg' => not_lt.mp fun hlt => ?_⟩
  obtain ⟨r, a, hslot, ha⟩ := h.guarded τ (List.ne_nil_of_mem hg')
  have hsince := hx.since_le τ r hslot g hg' hlt
  have := (h.pinned r a ha).1
  have := hl r a ha
  omega

/-- A record that is not in use belongs to nobody and has been left clean. -/
theorem Inv.free (h : s.Inv) (hu : ¬(s.record r).inUse) : (s.record r).owner = none ∧
    (s.record r).state = none ∧ ∀ k, (s.record r).bags k = [] := by
  have howner : (s.record r).owner = none := by
    cases ho : (s.record r).owner with
    | none => rfl
    | some τ => exact absurd (h.in_use r τ ho) hu
  refine ⟨howner, ?_, h.idle r howner⟩
  cases hstate : (s.record r).state with
  | none => rfl
  | some a =>
    obtain ⟨-, -, -, τ, hslot, -⟩ := h.pinned r a hstate
    rw [(h.slot τ r hslot).1] at howner
    cases howner

/-! ### What a thread knows at each position -/

/-- The record is in the thread's hands and holds nothing. -/
structure Clean (s : EpochDomain T α) (τ : T) (r : Nat) : Prop where
  owner : (s.record r).owner = some τ
  state : (s.record r).state = none
  nesting : (s.record r).nesting = 0
  bags : ∀ k, (s.record r).bags k = []

def AfterOk (s : EpochDomain T α) : After α → Prop
  | .retire x => x.born ≤ s.nextGuard
  | _ => True

/-- The thread's own garbage lags `n` epochs behind `e`. -/
def Aged (s : EpochDomain T α) (τ : T) (n e : Nat) : Prop :=
  ∀ r, s.slot τ = some r → ∀ k, ∀ x ∈ (s.record r).bags k, x.tag + n ≤ e

/-- Every rotation of `synchronize` makes the thread's garbage one epoch older. -/
def TaskOk (s : EpochDomain T α) (τ : T) (e extra : Nat) : Task → Prop
  | .reclaim _ => True
  | .synchronize _ rotation => s.Aged τ (rotation + extra) e

/-- `synchronize` empties its bags in order; those to come are safe to free. -/
def Emptying (s : EpochDomain T α) (r : Nat) : Task → Source → Prop
  | .synchronize _ _, .bag k => (∀ j < k, (s.record r).bags j = []) ∧
      ∀ j, k < j → ∀ x ∈ (s.record r).bags j, s.Safe x
  | .synchronize _ _, .adopted => ∀ j, (s.record r).bags j = []
  | _, _ => True

/-- `synchronize` has emptied its bags. -/
def Emptied (s : EpochDomain T α) (r : Nat) : Task → Prop
  | .synchronize _ _ => ∀ j, (s.record r).bags j = []
  | _ => True

def Ok (s : EpochDomain T α) (τ : T) : Pc α → Prop
  | .loadRecords k => s.slot τ = none ∧ s.AfterOk k
  | .claim k candidates => s.slot τ = none ∧ s.AfterOk k ∧ ∀ c ∈ candidates, c ∈ s.records
  | .newRecord k => s.slot τ = none ∧ s.AfterOk k
  | .publish k r _ => s.slot τ = none ∧ s.AfterOk k ∧ s.Clean τ r ∧ r ∉ s.records
  | .countThread k r => s.slot τ = none ∧ s.AfterOk k ∧ s.Clean τ r ∧ r ∈ s.records
  | .enter r => s.slot τ = some r
  | .announce r e => s.slot τ = some r ∧ s.guards τ = [] ∧ e ≤ s.globalEpoch
  | .retire x r => s.slot τ = some r ∧ x.born ≤ s.nextGuard
  | .pushBag x r e => s.slot τ = some r ∧ s.Settled x ∧ x.tag = e
  | .countRetired _ | .countAttempt _ | .resetAttempt _ => True
  | .tryAdvance task => s.TaskOk τ s.globalEpoch 0 task
  | .scanHead task e => e ≤ s.globalEpoch ∧ s.TaskOk τ e 0 task
  | .scan task e rest => e ≤ s.globalEpoch ∧ s.TaskOk τ e 0 task ∧
      ∀ r a, (s.record r).state = some a → (s.record r).since < e → r ∈ rest
  | .countFailed task => s.TaskOk τ s.globalEpoch 0 task
  | .countAdvance task => s.TaskOk τ s.globalEpoch 1 task
  | .reclaimEpoch _ r => s.slot τ = some r
  | .free task r source bag i => s.slot τ = some r ∧
      (∀ k, source = .bag k → bag = (s.record r).bags k ∧ (∀ x ∈ bag.drop i, s.Safe x) ∧
        ∀ x ∈ bag.take i, x ∈ s.freed) ∧ s.Emptying r task source
  | .countReclaimed task r source _ => s.slot τ = some r ∧
      (∀ k, source = .bag k → (s.record r).bags k = []) ∧ s.Emptying r task source
  | .lockOrphans task r => s.slot τ = some r ∧ s.Emptied r task
  | .swapOrphans task r => s.slot τ = some r ∧ s.orphanMutex = some τ ∧ s.Emptied r task
  | .unlockOrphans task r _ => s.slot τ = some r ∧ s.orphanMutex = some τ ∧ s.Emptied r task
  | .exitLock r => s.slot τ = some r ∧ s.guards τ = []
  | .exitMove r k => s.slot τ = some r ∧ s.guards τ = [] ∧ s.orphanMutex = some τ ∧
      ∀ j < k, (s.record r).bags j = []
  | .exitUnlock r => s.slot τ = some r ∧ s.guards τ = [] ∧ s.orphanMutex = some τ ∧
      ∀ j, (s.record r).bags j = []
  | .exitState r => s.slot τ = some r ∧ s.guards τ = [] ∧ ∀ j, (s.record r).bags j = []
  | .exitInUse r => s.slot τ = some r ∧ s.guards τ = [] ∧ (∀ j, (s.record r).bags j = []) ∧
      (s.record r).state = none

/-! ### What the steps of the others leave alone -/

/-- A step of another thread, as `τ` sees it. -/
structure Rely (s s' : EpochDomain T α) (τ : T) : Prop where
  epoch : s.globalEpoch ≤ s'.globalEpoch
  guard : s.nextGuard ≤ s'.nextGuard
  slot : s'.slot τ = s.slot τ
  guards : s'.guards τ = s.guards τ
  record : ∀ r, (s.record r).owner = some τ → s'.record r = s.record r
  members : ∀ r, (s.record r).owner = some τ → (r ∈ s'.records ↔ r ∈ s.records)
  records : ∀ r ∈ s.records, r ∈ s'.records
  pinned : ∀ r a, (s'.record r).state = some a →
    (∃ a', (s.record r).state = some a') ∧ (s'.record r).since = (s.record r).since ∨
      s.globalEpoch ≤ (s'.record r).since
  mutex : s.orphanMutex = some τ → s'.orphanMutex = some τ

/-- What every step does to objects on their way and to the log of deleters. -/
structure Keeps (s s' : EpochDomain T α) : Prop where
  settled : ∀ x, s.Settled x → s'.Settled x
  safe : ∀ x, s.Safe x → s'.Safe x
  freed : ∀ x ∈ s.freed, x ∈ s'.freed

theorem AfterOk.mono (hg : s.nextGuard ≤ s'.nextGuard) {k : After α} (h : s.AfterOk k) :
    s'.AfterOk k := by
  cases k with
  | retire x => exact le_trans h hg
  | _ => trivial

theorem Ok.mono (h : s.Inv) (hk : s.Keeps s') (hr : s.Rely s' τ) {pc : Pc α} (hok : s.Ok τ pc) :
    s'.Ok τ pc := by
  have hrec : ∀ {r}, s.slot τ = some r → s'.record r = s.record r := fun {r} hs =>
    hr.record r (h.slot τ r hs).1
  have htask : ∀ {e e' n task}, e ≤ e' → s.TaskOk τ e n task → s'.TaskOk τ e' n task := by
    intro e e' n task he ht
    cases task with
    | reclaim => trivial
    | synchronize b rot =>
      intro r hs k x hx
      rw [hr.slot] at hs
      rw [hrec hs] at hx
      exact (ht r hs k x hx).trans he
  have hclean : ∀ {r}, s.Clean τ r → s'.Clean τ r := fun {r} hc => by
    have := hr.record r hc.owner
    exact ⟨by rw [this]; exact hc.owner, by rw [this]; exact hc.state,
      by rw [this]; exact hc.nesting, by rw [this]; exact hc.bags⟩
  have hempty : ∀ {r task source}, s.slot τ = some r → s.Emptying r task source →
      s'.Emptying r task source := by
    intro r task source hs he
    cases task with
    | reclaim => trivial
    | synchronize b rot =>
      cases source with
      | bag k =>
        simp only [Emptying, hrec hs]
        exact ⟨he.1, fun j hj x hx => hk.safe x (he.2 j hj x hx)⟩
      | adopted => simp only [Emptying, hrec hs]; exact he
  have hemptied : ∀ {r task}, s.slot τ = some r → s.Emptied r task → s'.Emptied r task := by
    intro r task hs he
    cases task with
    | reclaim => trivial
    | synchronize b rot => simp only [Emptied, hrec hs]; exact he
  cases pc with
  | loadRecords k => exact ⟨hr.slot.trans hok.1, hok.2.mono hr.guard⟩
  | claim k c => exact ⟨hr.slot.trans hok.1, hok.2.1.mono hr.guard, fun x hx => hr.records x (hok.2.2 x hx)⟩
  | newRecord k => exact ⟨hr.slot.trans hok.1, hok.2.mono hr.guard⟩
  | publish k r head =>
    obtain ⟨hs, ha, hc, hn⟩ := hok
    exact ⟨hr.slot.trans hs, ha.mono hr.guard, hclean hc, fun hm => hn ((hr.members r hc.owner).mp hm)⟩
  | countThread k r =>
    obtain ⟨hs, ha, hc, hn⟩ := hok
    exact ⟨hr.slot.trans hs, ha.mono hr.guard, hclean hc, hr.records r hn⟩
  | enter r => exact hr.slot.trans hok
  | announce r e => exact ⟨hr.slot.trans hok.1, hr.guards.trans hok.2.1, hok.2.2.trans hr.epoch⟩
  | retire x r => exact ⟨hr.slot.trans hok.1, hok.2.trans hr.guard⟩
  | pushBag x r e => exact ⟨hr.slot.trans hok.1, hk.settled x hok.2.1, hok.2.2⟩
  | countRetired | countAttempt | resetAttempt => trivial
  | tryAdvance task => exact htask hr.epoch hok
  | scanHead task e => exact ⟨hok.1.trans hr.epoch, htask le_rfl hok.2⟩
  | scan task e rest =>
    refine ⟨hok.1.trans hr.epoch, htask le_rfl hok.2.1, fun r a ha hlt => ?_⟩
    rcases hr.pinned r a ha with ⟨⟨a', ha'⟩, hsince⟩ | hle
    · exact hok.2.2 r a' ha' (hsince ▸ hlt)
    · exact absurd (hok.1.trans hle) (not_le.mpr hlt)
  | countFailed task => exact htask hr.epoch hok
  | countAdvance task => exact htask hr.epoch hok
  | reclaimEpoch w r => exact hr.slot.trans hok
  | free task r source bag i =>
    obtain ⟨hs, hbag, he⟩ := hok
    refine ⟨hr.slot.trans hs, fun k hk' => ?_, hempty hs he⟩
    rw [hrec hs]
    obtain ⟨hb, hsafe, hfreed⟩ := hbag k hk'
    exact ⟨hb, fun x hx => hk.safe x (hsafe x hx), fun x hx => hk.freed x (hfreed x hx)⟩
  | countReclaimed task r source count =>
    obtain ⟨hs, hbag, he⟩ := hok
    exact ⟨hr.slot.trans hs, by rw [hrec hs]; exact hbag, hempty hs he⟩
  | lockOrphans task r => exact ⟨hr.slot.trans hok.1, hemptied hok.1 hok.2⟩
  | swapOrphans task r =>
    obtain ⟨hs, hm, he⟩ := hok
    exact ⟨hr.slot.trans hs, hr.mutex hm, hemptied hs he⟩
  | unlockOrphans task r adopted =>
    obtain ⟨hs, hm, he⟩ := hok
    exact ⟨hr.slot.trans hs, hr.mutex hm, hemptied hs he⟩
  | exitLock r => exact ⟨hr.slot.trans hok.1, hr.guards.trans hok.2⟩
  | exitMove r k =>
    obtain ⟨hs, hg, hm, hb⟩ := hok
    exact ⟨hr.slot.trans hs, hr.guards.trans hg, hr.mutex hm, by rw [hrec hs]; exact hb⟩
  | exitUnlock r =>
    obtain ⟨hs, hg, hm, hb⟩ := hok
    exact ⟨hr.slot.trans hs, hr.guards.trans hg, hr.mutex hm, by rw [hrec hs]; exact hb⟩
  | exitState r =>
    obtain ⟨hs, hg, hb⟩ := hok
    exact ⟨hr.slot.trans hs, hr.guards.trans hg, by rw [hrec hs]; exact hb⟩
  | exitInUse r =>
    obtain ⟨hs, hg, hb, hst⟩ := hok
    exact ⟨hr.slot.trans hs, hr.guards.trans hg, by rw [hrec hs]; exact hb, by rw [hrec hs]; exact hst⟩

end EpochDomain

end RcuFib
