import RcuFib.Epoch.Steps
import Mathlib.Tactic.IntervalCases

/-! The invariant of the domain and its threads over whole runs. -/

namespace RcuFib

open Trace

namespace EpochSystem
variable {T α : Type*} [DecidableEq T] {s s' : EpochSystem T α} {a : Action T α}

structure Inv (s : EpochSystem T α) : Prop where
  dom : s.dom.Inv
  ok : ∀ τ pc, s.pc τ = some pc → s.dom.Ok τ pc

/-- An action is the start of a call or a step of one. -/
theorem act_cases (h : act s a = some s') : ∃ τ x, s' = ⟨x.1, Function.update s.pc τ x.2⟩ ∧
    ((∃ c, a = .call τ c ∧ s.pc τ = none ∧ s.dom.call τ c = some x) ∨
      ∃ weak pc, a = .step τ weak ∧ s.pc τ = some pc ∧ x = s.dom.step τ weak pc) := by
  cases a with
  | call τ c =>
    simp only [act] at h
    split at h
    · cases h
    · next hpc =>
      obtain ⟨x, hx, rfl⟩ := Option.map_eq_some_iff.mp h
      exact ⟨τ, x, rfl, .inl ⟨c, rfl, hpc, hx⟩⟩
  | step τ weak =>
    obtain ⟨pc, hpc, rfl⟩ := Option.map_eq_some_iff.mp h
    exact ⟨τ, _, rfl, .inr ⟨weak, pc, rfl, hpc, rfl⟩⟩

omit [DecidableEq T] in
theorem inv_init : Inv (init : EpochSystem T α) := by
  refine ⟨⟨nofun, List.nodup_nil, nofun, nofun, nofun, fun _ _ _ => rfl, nofun, ?_, nofun,
    fun _ => trivial, nofun, nofun, nofun⟩, nofun⟩
  exact fun τ hg => absurd rfl hg

theorem Inv.after {τ : T} {x : EpochDomain T α × Option (Pc α)} (h : s.Inv)
    (hx : s.dom.StepOk τ x) : Inv (⟨x.1, Function.update s.pc τ x.2⟩ : EpochSystem T α) := by
  refine ⟨hx.1.inv, fun σ pc hpc => ?_⟩
  rcases eq_or_ne σ τ with rfl | hσ
  · simp only [Function.update_self] at hpc
    exact hx.2 pc hpc
  · simp only [Function.update_of_ne hσ] at hpc
    exact (h.ok σ pc hpc).mono h.dom hx.1.keeps (hx.1.rely σ hσ)

theorem inv_act (h : s.Inv) (ha : act s a = some s') : s'.Inv := by
  obtain ⟨τ, x, rfl, ⟨c, -, -, hc⟩ | ⟨weak, pc, -, hpc, rfl⟩⟩ := act_cases ha
  · exact h.after (EpochDomain.call_ok h.dom hc)
  · exact h.after (EpochDomain.step_ok h.dom (h.ok τ pc hpc))

theorem inv_run {r : Nat → EpochSystem T α} {n : Nat} (h : Run act init r n) :
    ∀ i ≤ n, (r i).Inv :=
  h.invariant inv_init fun _ _ _ hs ha => inv_act hs ha

/-! ### The epoch under a guard -/

end EpochSystem

namespace EpochDomain
variable {T α : Type*} {s s' : EpochDomain T α} {τ : T} {r : Nat} {pc : Pc α}

/-- Every thread keeps its record, and every record the moment of its announcement. -/
structure Steady (s s' : EpochDomain T α) : Prop where
  slot : s'.slot = s.slot
  since : ∀ r, (s'.record r).since = (s.record r).since

theorem Steady.setRecord {y : ThreadRecord T α} (hslot : s'.slot = s.slot)
    (hr : s'.record = Function.update s.record r y) (hy : y.since = (s.record r).since) :
    s.Steady s' := by
  refine ⟨hslot, fun k => ?_⟩
  rcases eq_or_ne k r with rfl | hne
  · rw [hr, Function.update_self, hy]
  · rw [hr, Function.update_of_ne hne]

theorem Steady.finish {task : Task} (h : s.Steady s') : s.Steady (s'.finish task) := by
  unfold EpochDomain.finish
  split <;> exact ⟨h.slot, h.since⟩

theorem slot_finish (s : EpochDomain T α) (task : Task) : (s.finish task).slot = s.slot := by
  have h : s.Steady s := ⟨rfl, fun _ => rfl⟩
  exact h.finish.slot

theorem Steady.afterFree {task : Task} {source : Source} (h : s.Steady s') :
    s.Steady (s'.afterFree r task source).1 := by
  cases source with
  | adopted => exact h.finish
  | bag k => cases task <;> exact h

/-- A thread under a guard stays with its record and its announcement. -/
theorem steady_step [DecidableEq T] (hok : s.Ok τ pc) (hslot : s.slot τ = some r)
    (hg : s.guards τ ≠ []) (weak : Bool) : s.Steady (s.step τ weak pc).1 := by
  have hsame : s.Steady s := ⟨rfl, fun _ => rfl⟩
  cases pc with
  | loadRecords | claim | newRecord | publish | countThread =>
    have hnone := hok.1
    rw [hslot] at hnone
    cases hnone
  | exitLock => exact absurd hok.2 hg
  | announce | exitMove | exitUnlock | exitState | exitInUse => exact absurd hok.2.1 hg
  | enter k =>
    simp only [step]
    split
    · exact hsame
    · exact .setRecord rfl rfl rfl
  | pushBag => exact .setRecord rfl rfl rfl
  | free task k source bag i =>
    have hclear : s.Steady (s.clear k source) := by
      cases source with
      | bag => exact .setRecord rfl rfl rfl
      | adopted => exact hsame
    simp only [step]
    split
    · exact ⟨rfl, fun _ => rfl⟩
    · split
      · exact hclear
      · exact hclear.afterFree
  | countReclaimed =>
    refine Steady.afterFree ?_
    exact ⟨rfl, fun _ => rfl⟩
  | unlockOrphans =>
    simp only [step]
    split
    · refine Steady.finish ?_
      exact ⟨rfl, fun _ => rfl⟩
    · exact ⟨rfl, fun _ => rfl⟩
  | countFailed task =>
    cases task with
    | reclaim =>
      refine Steady.finish ?_
      exact ⟨rfl, fun _ => rfl⟩
    | synchronize => exact ⟨rfl, fun _ => rfl⟩
  | scan task e rest =>
    cases rest with
    | nil => simp only [step]; split <;> exact ⟨rfl, fun _ => rfl⟩
    | cons c rest =>
      simp only [step]
      split
      · exact hsame
      · split <;> exact hsame
  | countAttempt | lockOrphans => simp only [step]; split <;> exact ⟨rfl, fun _ => rfl⟩
  | _ => exact ⟨rfl, fun _ => rfl⟩

theorem slot_afterFree (s : EpochDomain T α) (r : Nat) (task : Task) (source : Source) :
    (s.afterFree r task source).1.slot = s.slot := by
  have h : s.Steady s := ⟨rfl, fun _ => rfl⟩
  exact h.afterFree.slot

/-- Only `local_record` and the end of a thread change what record a thread has. -/
theorem slot_cases [DecidableEq T] (s : EpochDomain T α) (τ : T) (weak : Bool) (pc : Pc α) :
    (s.step τ weak pc).1.slot = s.slot ∨
    (∃ k c rest, pc = .claim k (c :: rest) ∧ ¬(s.record c).inUse ∧
      (s.step τ weak pc).1.slot = Function.update s.slot τ (some c)) ∨
    (∃ k c, pc = .countThread k c ∧
      (s.step τ weak pc).1.slot = Function.update s.slot τ (some c)) ∨
    ∃ c, pc = .exitInUse c ∧ (s.step τ weak pc).1.slot = Function.update s.slot τ none := by
  cases pc with
  | claim k cs =>
    cases cs with
    | nil => exact .inl rfl
    | cons c rest =>
      cases hu : (s.record c).inUse with
      | true => exact .inl (by simp [step, hu])
      | false => exact .inr (.inl ⟨k, c, rest, rfl, by simp [hu], by simp [step, hu]⟩)
  | countThread k c => exact .inr (.inr (.inl ⟨k, c, rfl, rfl⟩))
  | exitInUse c => exact .inr (.inr (.inr ⟨c, rfl, rfl⟩))
  | publish | lockOrphans | exitLock | enter => left; simp only [step]; split <;> rfl
  | countAttempt =>
    left
    simp only [step]
    split
    · rfl
    · rw [slot_finish]
  | scan task e rest =>
    left
    cases rest with
    | nil => simp only [step]; split <;> rfl
    | cons c rest =>
      simp only [step]
      split
      · rfl
      · split <;> rfl
  | countFailed task =>
    left
    cases task with
    | reclaim => rw [step, slot_finish]
    | synchronize => rfl
  | free task c source bag i =>
    left
    have hclear : (s.clear c source).slot = s.slot := by cases source <;> rfl
    simp only [step]
    split
    · rfl
    · split
      · exact hclear
      · rw [slot_afterFree, hclear]
  | countReclaimed => left; rw [step, slot_afterFree]
  | unlockOrphans =>
    left
    simp only [step]
    split
    · rw [slot_finish]
    · rfl
  | _ => exact .inl rfl

/-- A thread keeps its record until it ends. -/
theorem slot_kept [DecidableEq T] (hok : s.Ok τ pc) (hs : s.slot τ = some r)
    (hexit : ∀ c, pc ≠ .exitInUse c) (weak : Bool) : (s.step τ weak pc).1.slot = s.slot := by
  rcases s.slot_cases τ weak pc with he | ⟨k, c, rest, rfl, -, -⟩ | ⟨k, c, rfl, -⟩ | ⟨c, rfl, -⟩
  · exact he
  · cases hs.symm.trans hok.1
  · cases hs.symm.trans hok.1
  · exact absurd rfl (hexit c)

theorem steady_call [DecidableEq T] {c : Call α} {x : EpochDomain T α × Option (Pc α)}
    (hc : s.call τ c = some x) : s.Steady x.1 := by
  cases c with
  | enter | tryReclaim | synchronize => cases hc; exact ⟨rfl, fun _ => rfl⟩
  | leave =>
    simp only [call] at hc
    split at hc
    · cases hc
      exact .setRecord rfl rfl rfl
    · cases hc
  | retire p => cases p <;> cases hc <;> exact ⟨rfl, fun _ => rfl⟩
  | exit =>
    simp only [call] at hc
    split at hc
    · split at hc <;> · cases hc; exact ⟨rfl, fun _ => rfl⟩
    · cases hc

end EpochDomain

namespace EpochSystem
variable {T α : Type*} [DecidableEq T] {s s' : EpochSystem T α} {a : Action T α} {τ : T} {r : Nat}

/-- While a thread has a guard open, the record it uses and the moment of its announcement stay. -/
theorem held_act (h : s.Inv) (ha : act s a = some s') (hslot : s.dom.slot τ = some r)
    (hg : s.dom.guards τ ≠ []) :
    s'.dom.slot τ = some r ∧ (s'.dom.record r).since = (s.dom.record r).since := by
  have howner := (h.dom.slot τ r hslot).1
  obtain ⟨σ, x, rfl, ⟨c, -, -, hc⟩ | ⟨weak, pc, -, hpc, rfl⟩⟩ := act_cases ha
  · have hst := EpochDomain.steady_call hc
    exact ⟨(congrFun hst.slot τ).trans hslot, hst.since r⟩
  · rcases eq_or_ne τ σ with rfl | hne
    · have hst := EpochDomain.steady_step (h.ok τ pc hpc) hslot hg weak
      exact ⟨(congrFun hst.slot τ).trans hslot, hst.since r⟩
    · have hok : s.dom.StepOk σ (s.dom.step σ weak pc) := EpochDomain.step_ok h.dom (h.ok σ pc hpc)
      have hrely := hok.1.rely τ hne
      exact ⟨hrely.slot.trans hslot, by rw [hrely.record r howner]⟩

section guard
variable {r : Nat → EpochSystem T α} {n i j : Nat} {weak : Bool} {record epoch : Nat}

/-- From the announcement of an outermost guard to its end the epoch advances at most once, however
    old the announced epoch is and whatever guards open and close inside it. -/
theorem epoch_under_guard (h : Run act init r n) (hpc : (r i).pc τ = some (.announce record epoch))
    (ha : act (r i) (.step τ weak) = some (r (i + 1))) (hij : i < j) (hj : j ≤ n)
    (hg : ∀ k, i < k → k ≤ j → ⟨(r i).dom.nextGuard, true⟩ ∈ (r k).dom.guards τ) :
    (r j).dom.globalEpoch ≤ (r i).dom.globalEpoch + 1 := by
  have hstart : (r (i + 1)).dom.slot τ = some record ∧
      ((r (i + 1)).dom.record record).since = (r i).dom.globalEpoch := by
    have hslot := ((inv_run h i (hij.le.trans hj)).ok τ _ hpc).1
    simp only [act, hpc, Option.map_some, Option.some.injEq] at ha
    rw [← ha]
    exact ⟨hslot, by simp [EpochDomain.step, EpochDomain.openGuard, EpochDomain.setRecord]⟩
  have hheld : ∀ k, i + 1 ≤ k → k ≤ n → k ≤ j → (r k).dom.slot τ = some record ∧
      ((r k).dom.record record).since = (r i).dom.globalEpoch := by
    refine h.along (Q := fun k s => k ≤ j → s.dom.slot τ = some record ∧
      (s.dom.record record).since = (r i).dom.globalEpoch) (fun _ => hstart) ?_
    intro k a hk hkn hs hstep hkj
    obtain ⟨hslot, hsince⟩ := hs (Nat.le_of_succ_le hkj)
    obtain ⟨hslot', hsince'⟩ := held_act (inv_run h k hkn.le) hstep hslot
      (List.ne_nil_of_mem (hg k hk (Nat.le_of_succ_le hkj)))
    exact ⟨hslot', hsince'.trans hsince⟩
  obtain ⟨hslot, hsince⟩ := hheld j hij hj le_rfl
  -- the guard keeps the record pinned, and a pinned record is at most one epoch behind
  have hinv := (inv_run h j hj).dom
  obtain ⟨k, a, hk, hstate⟩ := hinv.guarded τ (List.ne_nil_of_mem (hg j hij le_rfl))
  obtain rfl := Option.some.inj (hslot.symm.trans hk)
  rw [← hsince]
  exact (hinv.pinned record a hstate).2.2.1

/-- Thread 0 announces epoch 0 in epoch 1, behind the back of a scan that then advances to 2, and opens
    and closes a second guard. -/
def lateAnnouncement : List (Action Nat Nat) :=
  .call 0 .enter :: List.replicate 6 (.step 0 false) ++
    .call 1 .tryReclaim :: List.replicate 16 (.step 1 false) ++
    .call 1 .tryReclaim :: List.replicate 4 (.step 1 false) ++
    [.step 0 false, .step 1 false, .call 0 .enter, .step 0 false, .call 0 .leave]

theorem epoch_under_guard_late : (play act init lateAnnouncement 34).dom.globalEpoch ≤
    (play act init lateAnnouncement 29).dom.globalEpoch + 1 := by
  have hrun : Run act init (play act init lateAnnouncement) lateAnnouncement.length := run_play (by rfl)
  have hact : act (play act init lateAnnouncement 29) (.step 0 false) =
      some (play act init lateAnnouncement 30) := by rfl
  have hpc : (play act init lateAnnouncement 29).pc 0 = some (.announce 0 0) := by rfl
  refine epoch_under_guard hrun hpc hact (by decide) (by decide) fun k hk hkj => ?_
  interval_cases k <;> decide

end guard

end EpochSystem

end RcuFib
