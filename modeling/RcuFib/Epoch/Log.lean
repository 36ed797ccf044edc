import RcuFib.Epoch.System

/-! What a step does to the logs: the `retire` calls issued and completed, the objects freed, the
    batches adopted. -/

namespace RcuFib

open Trace

variable {T α : Type*}

/-! ### Which call a thread is in -/

/-- A call in progress: `retire` with its number, `synchronize` with the `retire` calls it waits for. -/
inductive Kind where
  | enter
  | retire (stamp : Nat)
  | reclaim
  | synchronize (before : List Nat)
  | exit
  deriving DecidableEq

def Kind.number : Kind → Option Nat
  | .retire stamp => some stamp
  | _ => none

def Kind.before : Kind → Option (List Nat)
  | .synchronize before => some before
  | _ => none

def Task.kind : Task → Kind
  | .reclaim (some stamp) => .retire stamp
  | .reclaim none => .reclaim
  | .synchronize before _ => .synchronize before

def After.kind : After α → Kind
  | .enter => .enter
  | .retire x => .retire x.stamp
  | .task t => t.kind

def Pc.kind : Pc α → Kind
  | .loadRecords k | .claim k _ | .newRecord k | .publish k _ _ | .countThread k _ => k.kind
  | .enter _ | .announce _ _ => .enter
  | .retire x _ | .pushBag x _ _ => .retire x.stamp
  | .countRetired stamp | .countAttempt stamp | .resetAttempt stamp => .retire stamp
  | .tryAdvance task | .scanHead task _ | .scan task _ _ | .countFailed task | .countAdvance task
  | .free task _ _ _ _ | .countReclaimed task _ _ _ | .lockOrphans task _ | .swapOrphans task _
  | .unlockOrphans task _ _ => task.kind
  | .reclaimEpoch within _ => (Task.reclaim within).kind
  | .exitLock _ | .exitMove _ _ | .exitUnlock _ | .exitState _ | .exitInUse _ => .exit

/-- The number of the `retire` call in progress. -/
def Pc.number (pc : Pc α) : Option Nat := pc.kind.number

/-- What `synchronize` waits for. -/
def Pc.before (pc : Pc α) : Option (List Nat) := pc.kind.before

def Call.kind (s : EpochDomain T α) : Call α → Option Kind
  | .enter => some .enter
  | .retire (some _) => some (.retire s.issued.length)
  | .tryReclaim => some .reclaim
  | .synchronize => some (.synchronize s.completed)
  | .exit => some .exit
  | .leave | .retire none => none

/-- Only `synchronize` waits. -/
theorem Task.not_before {within : Option Nat} {before : List Nat} :
    (Task.reclaim within).kind.before ≠ some before := by
  cases within <;> exact nofun

/-- The rest of the batch a thread has adopted. -/
def Pc.adopted : Pc α → List (Retiree α)
  | .unlockOrphans _ _ adopted => adopted
  | .free _ _ .adopted bag i => bag.drop i
  | _ => []

/-- The object whose deleter runs next. -/
def Pc.next : Pc α → Option (Retiree α)
  | .free _ _ _ bag i => bag[i]?
  | _ => none

namespace EpochDomain

/-- A step keeps the call it is part of; a guard opens when the call of its constructor returns. -/
structure Noted (s : EpochDomain T α) [DecidableEq T] (τ : T) (pc : Pc α)
    (x : EpochDomain T α × Option (Pc α)) : Prop where
  issued : x.1.issued = s.issued
  freed : x.1.freed = s.freed ∨ ∃ y, pc.next = some y ∧ x.1.freed = y :: s.freed
  adopted : ∀ pc' ∈ x.2, ∀ y ∈ pc'.adopted,
    y ∈ pc.adopted ∨ (∃ task r, pc = .swapOrphans task r) ∧ y ∈ s.orphans
  goes : ∀ pc' ∈ x.2, pc'.kind = pc.kind ∧ x.1.completed = s.completed
  returns : x.2 = none → x.1.completed = pc.number.toList ++ s.completed
  guards : x.1.guards = s.guards ∧ x.1.nextGuard = s.nextGuard ∧ (x.2 = none → pc.kind ≠ .enter) ∨
    x.2 = none ∧ pc.kind = .enter ∧ x.1.nextGuard = s.nextGuard + 1 ∧
      ∃ o, x.1.guards = Function.update s.guards τ (⟨s.nextGuard, o⟩ :: s.guards τ)

variable [DecidableEq T] {s s' : EpochDomain T α} {τ : T} {r : Nat} {pc pc' : Pc α}

theorem Noted.go (hi : s'.issued = s.issued) (hf : s'.freed = s.freed)
    (hc : s'.completed = s.completed) (hg : s'.guards = s.guards) (hn : s'.nextGuard = s.nextGuard)
    (hk : pc'.kind = pc.kind) (ha : pc'.adopted = []) : s.Noted τ pc (s', some pc') where
  issued := hi
  freed := .inl hf
  adopted _ hp y hy := by cases hp; rw [ha] at hy; cases hy
  goes _ hp := by cases hp; exact ⟨hk, hc⟩
  returns := nofun
  guards := .inl ⟨hg, hn, nofun⟩

theorem Noted.done (hi : s'.issued = s.issued) (hf : s'.freed = s.freed)
    (hc : s'.completed = pc.number.toList ++ s.completed) (hg : s'.guards = s.guards)
    (hn : s'.nextGuard = s.nextGuard) (hk : pc.kind ≠ .enter) : s.Noted τ pc (s', none) :=
  ⟨hi, .inl hf, nofun, nofun, fun _ => hc, .inl ⟨hg, hn, fun _ => hk⟩⟩

/-- The constructor of a guard returns. -/
theorem Noted.opens (hk : pc.kind = .enter) (hi : s'.issued = s.issued) (hf : s'.freed = s.freed)
    (hc : s'.completed = s.completed) {o : Bool} (hn : s'.nextGuard = s.nextGuard + 1)
    (hg : s'.guards = Function.update s.guards τ (⟨s.nextGuard, o⟩ :: s.guards τ)) :
    s.Noted τ pc (s', none) := by
  refine ⟨hi, .inl hf, nofun, nofun, fun _ => ?_, .inr ⟨rfl, hk, hn, o, hg⟩⟩
  rw [Pc.number, hk]
  exact hc

theorem Noted.finish {task : Task} (hi : s'.issued = s.issued) (hf : s'.freed = s.freed)
    (hc : s'.completed = s.completed) (hg : s'.guards = s.guards) (hn : s'.nextGuard = s.nextGuard)
    (hk : pc.kind = task.kind) : s.Noted τ pc (s'.finish task, none) := by
  have hne : task.kind ≠ .enter := by
    cases task with
    | reclaim within => cases within <;> exact nofun
    | synchronize => exact nofun
  have hlog : (s'.finish task).issued = s'.issued ∧ (s'.finish task).freed = s'.freed ∧
      (s'.finish task).completed = task.kind.number.toList ++ s'.completed ∧
      (s'.finish task).guards = s'.guards ∧ (s'.finish task).nextGuard = s'.nextGuard := by
    unfold EpochDomain.finish
    split
    · exact ⟨rfl, rfl, rfl, rfl, rfl⟩
    · next hne =>
      cases task with
      | reclaim within =>
        cases within with
        | none => exact ⟨rfl, rfl, rfl, rfl, rfl⟩
        | some stamp => exact absurd rfl (hne stamp)
      | synchronize => exact ⟨rfl, rfl, rfl, rfl, rfl⟩
  obtain ⟨h₁, h₂, h₃, h₄, h₅⟩ := hlog
  exact .done (h₁.trans hi) (h₂.trans hf) (by rw [h₃, hc, Pc.number, hk]) (h₄.trans hg)
    (h₅.trans hn) (hk ▸ hne)

omit [DecidableEq T] in
theorem resume_log (s : EpochDomain T α) (r : Nat) (k : After α) :
    (s.resume r k).kind = k.kind ∧ (s.resume r k).adopted = [] := by
  cases k with
  | task task => cases task <;> exact ⟨rfl, rfl⟩
  | _ => exact ⟨rfl, rfl⟩

omit [DecidableEq T] in
theorem localRecord_log (s : EpochDomain T α) (τ : T) (k : After α) :
    (s.localRecord τ k).kind = k.kind ∧ (s.localRecord τ k).adopted = [] := by
  unfold localRecord
  split
  · exact resume_log s _ k
  · exact ⟨rfl, rfl⟩

omit [DecidableEq T] in
theorem advanced_log (s : EpochDomain T α) (τ : T) (task : Task) :
    (s.advanced τ task).kind = task.kind ∧ (s.advanced τ task).adopted = [] := by
  cases task with
  | reclaim => exact localRecord_log s τ _
  | synchronize =>
    simp only [advanced]
    split
    · exact ⟨rfl, rfl⟩
    · exact localRecord_log s τ _

theorem Noted.afterFree {task : Task} {source : Source} (hi : s'.issued = s.issued)
    (hf : s'.freed = s.freed) (hc : s'.completed = s.completed) (hg : s'.guards = s.guards)
    (hn : s'.nextGuard = s.nextGuard) (hk : pc.kind = task.kind) :
    s.Noted τ pc (s'.afterFree r task source) := by
  cases source with
  | adopted => exact .finish hi hf hc hg hn hk
  | bag k =>
    cases task with
    | reclaim => exact .go hi hf hc hg hn hk.symm rfl
    | synchronize =>
      simp only [EpochDomain.afterFree]
      split <;> exact .go hi hf hc hg hn hk.symm rfl

theorem noted_free {task : Task} {source : Source} {bag : List (Retiree α)} {i : Nat} {weak : Bool} :
    s.Noted τ (.free task r source bag i) (s.step τ weak (.free task r source bag i)) := by
  simp only [step]
  split
  · next x hx =>
    refine ⟨by rfl, .inr ⟨x, hx, rfl⟩, fun pc' hp y hy => .inl ?_, fun pc' hp => ?_, nofun,
      .inl ⟨by rfl, by rfl, nofun⟩⟩
    · cases hp
      cases source with
      | bag => cases hy
      | adopted =>
        simp only [Pc.adopted] at hy ⊢
        rw [← List.drop_drop] at hy
        exact List.mem_of_mem_drop hy
    · cases hp
      exact ⟨rfl, rfl⟩
  · have hclear : (s.clear r source).issued = s.issued ∧ (s.clear r source).freed = s.freed ∧
        (s.clear r source).completed = s.completed ∧ (s.clear r source).guards = s.guards ∧
        (s.clear r source).nextGuard = s.nextGuard := by
      cases source <;> exact ⟨rfl, rfl, rfl, rfl, rfl⟩
    obtain ⟨h₁, h₂, h₃, h₄, h₅⟩ := hclear
    split
    · exact .go h₁ h₂ h₃ h₄ h₅ rfl rfl
    · exact .afterFree h₁ h₂ h₃ h₄ h₅ rfl

theorem noted_step (s : EpochDomain T α) (τ : T) (weak : Bool) (pc : Pc α) :
    s.Noted τ pc (s.step τ weak pc) := by
  cases pc with
  | claim k cs =>
    cases cs with
    | nil => exact .go rfl rfl rfl rfl rfl rfl rfl
    | cons c rest =>
      simp only [step]
      split
      · exact .go rfl rfl rfl rfl rfl rfl rfl
      · obtain ⟨hk, ha⟩ := resume_log _ c k
        exact .go rfl rfl rfl rfl rfl hk ha
  | publish => simp only [step]; split <;> exact .go rfl rfl rfl rfl rfl rfl rfl
  | countThread k r =>
    obtain ⟨hk, ha⟩ := resume_log _ r k
    exact .go rfl rfl rfl rfl rfl hk ha
  | enter r =>
    simp only [step]
    split
    · exact .go rfl rfl rfl rfl rfl rfl rfl
    · exact .opens rfl rfl rfl rfl rfl rfl
  | announce => exact .opens rfl rfl rfl rfl rfl rfl
  | countAttempt stamp =>
    simp only [step]
    split
    · exact .go rfl rfl rfl rfl rfl rfl rfl
    · exact .done rfl rfl rfl rfl rfl nofun
  | scan task e rest =>
    cases rest with
    | nil =>
      simp only [step]
      split
      · exact .go rfl rfl rfl rfl rfl rfl rfl
      · obtain ⟨hk, ha⟩ := advanced_log _ τ task
        exact .go rfl rfl rfl rfl rfl hk ha
    | cons c rest =>
      simp only [step]
      split
      · exact .go rfl rfl rfl rfl rfl rfl rfl
      · split <;> exact .go rfl rfl rfl rfl rfl rfl rfl
  | countFailed task =>
    cases task with
    | reclaim within => exact .finish rfl rfl rfl rfl rfl rfl
    | synchronize => exact .go rfl rfl rfl rfl rfl rfl rfl
  | countAdvance task =>
    obtain ⟨hk, ha⟩ := advanced_log _ τ task
    exact .go rfl rfl rfl rfl rfl hk ha
  | free => exact noted_free
  | countReclaimed => exact .afterFree rfl rfl rfl rfl rfl rfl
  | lockOrphans => simp only [step]; split <;> exact .go rfl rfl rfl rfl rfl rfl rfl
  | swapOrphans task r =>
    refine ⟨rfl, .inl rfl, fun pc' hp y hy => .inr ⟨⟨task, r, rfl⟩, ?_⟩, fun pc' hp => ?_, nofun,
      .inl ⟨rfl, rfl, nofun⟩⟩
    · cases hp
      exact hy
    · cases hp
      exact ⟨rfl, rfl⟩
  | unlockOrphans task r adopted =>
    simp only [step]
    split
    · exact .finish rfl rfl rfl rfl rfl rfl
    · refine ⟨rfl, .inl rfl, fun pc' hp y hy => .inl ?_, fun pc' hp => ?_, nofun,
        .inl ⟨rfl, rfl, nofun⟩⟩
      · cases hp
        simpa [Pc.adopted] using hy
      · cases hp
        exact ⟨rfl, rfl⟩
  | exitLock => simp only [step]; split <;> exact .go rfl rfl rfl rfl rfl rfl rfl
  | exitMove r k =>
    simp only [step]
    split <;> exact .go rfl rfl rfl rfl rfl rfl rfl
  | exitInUse => exact .done rfl rfl rfl rfl rfl nofun
  | _ => exact .go rfl rfl rfl rfl rfl rfl rfl

/-! ### Where garbage comes from -/

structure Moved (s : EpochDomain T α) (pc : Pc α) (s' : EpochDomain T α) : Prop where
  bags : ∀ r k, ∀ y ∈ (s'.record r).bags k, y ∈ (s.record r).bags k ∨ ∃ e, pc = .pushBag y r e
  orphans : ∀ y ∈ s'.orphans, y ∈ s.orphans ∨
    ∃ r k, pc = .exitMove r k ∧ y ∈ (s.record r).bags k
  owner : ∀ r, (s'.record r).owner = (s.record r).owner ∨ (s.record r).owner = none ∨
    (s'.record r).owner = none

omit [DecidableEq T] in
theorem Moved.same (hr : s'.record = s.record) (ho : s'.orphans = s.orphans) : s.Moved pc s' :=
  ⟨fun r k y hy => .inl (by rwa [hr] at hy), fun y hy => .inl (by rwa [ho] at hy),
    fun r => .inl (by rw [hr])⟩

omit [DecidableEq T] in
/-- One record changes. -/
theorem Moved.record {y : ThreadRecord T α} (hr : s'.record = Function.update s.record r y)
    (ho : s'.orphans = s.orphans)
    (hb : ∀ k, ∀ z ∈ y.bags k, z ∈ (s.record r).bags k ∨ ∃ e, pc = .pushBag z r e)
    (hown : y.owner = (s.record r).owner ∨ (s.record r).owner = none ∨ y.owner = none) :
    s.Moved pc s' := by
  refine ⟨fun r' k z hz => ?_, fun z hz => .inl (by rwa [ho] at hz), fun r' => ?_⟩
  · rcases eq_or_ne r' r with rfl | hne
    · rw [hr, Function.update_self] at hz
      exact hb k z hz
    · rw [hr, Function.update_of_ne hne] at hz
      exact .inl hz
  · rcases eq_or_ne r' r with rfl | hne
    · rw [hr, Function.update_self]
      exact hown
    · rw [hr, Function.update_of_ne hne]
      exact .inl rfl

omit [DecidableEq T] in
theorem Moved.setBag {bag : List (Retiree α)} {k : Fin 3}
    (hr : s'.record = (s.setBag r k bag).record) (ho : s'.orphans = s.orphans)
    (hb : ∀ z ∈ bag, z ∈ (s.record r).bags k ∨ ∃ e, pc = .pushBag z r e) : s.Moved pc s' := by
  refine .record hr ho (fun j z hz => ?_) (.inl rfl)
  rcases eq_or_ne j k with rfl | hne
  · simp only [Function.update_self] at hz
    exact hb z hz
  · simp only [Function.update_of_ne hne] at hz
    exact .inl hz

omit [DecidableEq T] in
theorem Moved.finish {task : Task} (h : s.Moved pc s') : s.Moved pc (s'.finish task) := by
  unfold EpochDomain.finish
  split <;> exact ⟨h.bags, h.orphans, h.owner⟩

omit [DecidableEq T] in
theorem Moved.afterFree {task : Task} {source : Source} (h : s.Moved pc s') :
    s.Moved pc (s'.afterFree r task source).1 := by
  cases source with
  | adopted => exact h.finish
  | bag k => cases task <;> exact h

theorem moved_step (h : s.Inv) (τ : T) (weak : Bool) (pc : Pc α) :
    s.Moved pc (s.step τ weak pc).1 := by
  cases pc with
  | claim k cs =>
    cases cs with
    | nil => exact .same rfl rfl
    | cons c rest =>
      simp only [step]
      split
      · exact .same rfl rfl
      · next hu =>
        exact .record rfl rfl (fun _ _ hz => .inl hz) (.inr (.inl (h.free hu).1))
  | newRecord k =>
    have hfree : (s.record s.nextRecord).owner = none := by
      cases ho : (s.record s.nextRecord).owner with
      | none => rfl
      | some τ' => exact absurd (h.owner_lt _ τ' ho) (lt_irrefl _)
    exact .record rfl rfl nofun (.inr (.inl hfree))
  | publish | lockOrphans | exitLock | countAttempt => simp only [step]; split <;> exact .same rfl rfl
  | enter r =>
    simp only [step]
    split
    · exact .same rfl rfl
    · exact .record (y := { s.record r with nesting := (s.record r).nesting + 1 }) rfl rfl
        (fun _ _ hz => .inl hz) (.inl rfl)
  | announce r e =>
    have hrec : ((s.setRecord r { s.record r with
        state := some e, since := s.globalEpoch }).openGuard τ r true).record =
          Function.update s.record r { s.record r with
            state := some e, since := s.globalEpoch, nesting := (s.record r).nesting + 1 } := by
      simp [openGuard, setRecord]
    exact .record hrec rfl (fun _ _ hz => .inl hz) (.inl rfl)
  | pushBag x r e =>
    refine .setBag rfl rfl fun z hz => ?_
    rcases List.mem_append.mp hz with hz | hz
    · exact .inl hz
    · rw [List.mem_singleton.mp hz]
      exact .inr ⟨e, rfl⟩
  | scan task e rest =>
    cases rest with
    | nil => simp only [step]; split <;> exact .same rfl rfl
    | cons c rest =>
      simp only [step]
      split
      · exact .same rfl rfl
      · split <;> exact .same rfl rfl
  | countFailed task =>
    cases task with
    | reclaim =>
      refine Moved.finish ?_
      exact .same rfl rfl
    | synchronize => exact .same rfl rfl
  | free task r source bag i =>
    have hclear : s.Moved (.free task r source bag i) (s.clear r source) := by
      cases source with
      | adopted => exact .same rfl rfl
      | bag k => exact .setBag rfl rfl nofun
    simp only [step]
    split
    · exact .same rfl rfl
    · split
      · exact hclear
      · exact hclear.afterFree
  | countReclaimed =>
    refine Moved.afterFree ?_
    exact .same rfl rfl
  | swapOrphans => exact ⟨fun _ _ _ hz => .inl hz, nofun, fun _ => .inl rfl⟩
  | unlockOrphans =>
    simp only [step]
    split
    · refine Moved.finish ?_
      exact .same rfl rfl
    · exact .same rfl rfl
  | exitMove r k =>
    have hset : s.Moved (.exitMove r k) (s.setBag r k []) := .setBag rfl rfl nofun
    refine ⟨hset.bags, fun z hz => ?_, hset.owner⟩
    rcases List.mem_append.mp hz with hz | hz
    · exact .inl hz
    · exact .inr ⟨r, k, rfl, hz⟩
  | exitState r => exact .record rfl rfl (fun _ _ hz => .inl hz) (.inl rfl)
  | exitInUse r => exact .record rfl rfl (fun _ _ hz => .inl hz) (.inr (.inr rfl))
  | _ => exact .same rfl rfl

theorem moved_call {c : Call α} {x : EpochDomain T α × Option (Pc α)} (hc : s.call τ c = some x) :
    x.1.orphans = s.orphans ∧ ∀ r, (x.1.record r).bags = (s.record r).bags ∧
      (x.1.record r).owner = (s.record r).owner := by
  cases c with
  | enter | tryReclaim | synchronize => cases hc; exact ⟨rfl, fun _ => ⟨rfl, rfl⟩⟩
  | leave =>
    simp only [call] at hc
    split at hc
    · next g rest r hg hs =>
      cases hc
      refine ⟨rfl, fun r' => ?_⟩
      rcases eq_or_ne r' r with rfl | hne
      · simp [EpochDomain.leave, setRecord]
      · simp [EpochDomain.leave, setRecord, hne]
    · cases hc
  | retire p => cases p <;> cases hc <;> exact ⟨rfl, fun _ => ⟨rfl, rfl⟩⟩
  | exit =>
    simp only [call] at hc
    split at hc
    · split at hc <;> · cases hc; exact ⟨rfl, fun _ => ⟨rfl, rfl⟩⟩
    · cases hc

/-- What the start of a call does to the logs. The `retire` calls are numbered in order. -/
structure Called (s : EpochDomain T α) (τ : T) (c : Call α) (x : EpochDomain T α × Option (Pc α)) :
    Prop where
  freed : x.1.freed = s.freed
  completed : x.1.completed = s.completed
  adopted : ∀ pc' ∈ x.2, pc'.adopted = []
  kind : ∀ pc' ∈ x.2, c.kind s = some pc'.kind
  issued : x.1.issued = s.issued ∧ (∀ p, c ≠ .retire (some p)) ∨
    ∃ p, c = .retire (some p) ∧ x.1.issued = ⟨p, s.issued.length, s.nextGuard, 0⟩ :: s.issued
  guards : x.1.nextGuard = s.nextGuard ∧ (x.1.guards = s.guards ∧ c ≠ .leave ∨
    c = .leave ∧ ∃ g rest, s.guards τ = g :: rest ∧ x.1.guards = Function.update s.guards τ rest)

theorem called {c : Call α} {x : EpochDomain T α × Option (Pc α)} (hc : s.call τ c = some x) :
    s.Called τ c x := by
  cases c with
  | enter =>
    obtain ⟨hk, ha⟩ := localRecord_log s τ .enter
    cases hc
    exact ⟨rfl, rfl, fun _ hp => by cases hp; exact ha,
      fun _ hp => by cases hp; exact congrArg some hk.symm, .inl ⟨rfl, nofun⟩,
      rfl, .inl ⟨rfl, nofun⟩⟩
  | leave =>
    simp only [call] at hc
    split at hc
    · next g rest r hg hs =>
      cases hc
      exact ⟨rfl, rfl, nofun, nofun, .inl ⟨rfl, nofun⟩, rfl, .inr ⟨rfl, g, rest, hg, rfl⟩⟩
    · cases hc
  | retire p =>
    cases p with
    | none =>
      cases hc
      exact ⟨rfl, rfl, nofun, nofun, .inl ⟨rfl, nofun⟩, rfl, .inl ⟨rfl, nofun⟩⟩
    | some p =>
      cases hc
      obtain ⟨hk, ha⟩ := localRecord_log
        { s with issued := ⟨p, s.issued.length, s.nextGuard, 0⟩ :: s.issued } τ
        (.retire ⟨p, s.issued.length, s.nextGuard, 0⟩)
      exact ⟨rfl, rfl, fun _ hp => by cases hp; exact ha,
        fun _ hp => by cases hp; exact congrArg some hk.symm, .inr ⟨p, rfl, rfl⟩,
        rfl, .inl ⟨rfl, nofun⟩⟩
  | tryReclaim | synchronize =>
    cases hc
    exact ⟨rfl, rfl, fun _ hp => by cases hp; rfl, fun _ hp => by cases hp; rfl,
      .inl ⟨rfl, nofun⟩, rfl, .inl ⟨rfl, nofun⟩⟩
  | exit =>
    simp only [call] at hc
    split at hc
    · split at hc
      · cases hc
        exact ⟨rfl, rfl, nofun, nofun, .inl ⟨rfl, nofun⟩, rfl, .inl ⟨rfl, nofun⟩⟩
      · cases hc
        exact ⟨rfl, rfl, fun _ hp => by cases hp; rfl, fun _ hp => by cases hp; rfl,
          .inl ⟨rfl, nofun⟩, rfl, .inl ⟨rfl, nofun⟩⟩
    · cases hc

end EpochDomain

namespace EpochSystem
variable [DecidableEq T] {s s' : EpochSystem T α} {a : Action T α} {r : Nat → EpochSystem T α}
  {n : Nat}

theorem issued_act (h : act s a = some s') : s'.dom.issued = s.dom.issued ∨ ∃ p,
    s'.dom.issued = ⟨p, s.dom.issued.length, s.dom.nextGuard, 0⟩ :: s.dom.issued := by
  obtain ⟨τ, x, rfl, ⟨c, -, -, hc⟩ | ⟨weak, pc, -, -, rfl⟩⟩ := act_cases h
  · rcases (EpochDomain.called hc).issued with ⟨he, -⟩ | ⟨p, -, he⟩
    · exact .inl he
    · exact .inr ⟨p, he⟩
  · exact .inl (s.dom.noted_step τ weak pc).issued

/-- A deleter runs in a step of `free_bag`. -/
theorem freed_act (h : act s a = some s') : s'.dom.freed = s.dom.freed ∨
    ∃ τ pc y, s.pc τ = some pc ∧ pc.next = some y ∧ s'.dom.freed = y :: s.dom.freed := by
  obtain ⟨τ, x, rfl, ⟨c, -, -, hc⟩ | ⟨weak, pc, -, hpc, rfl⟩⟩ := act_cases h
  · exact .inl (EpochDomain.called hc).freed
  · rcases (s.dom.noted_step τ weak pc).freed with he | ⟨y, hy, he⟩
    · exact .inl he
    · exact .inr ⟨τ, pc, y, hpc, hy, he⟩

/-- The calls are numbered in order, without gaps. -/
structure Numbered (s : EpochSystem T α) : Prop where
  stamp_lt : ∀ x ∈ s.dom.issued, x.stamp < s.dom.issued.length
  nodup : (s.dom.issued.map Retiree.stamp).Nodup
  all : ∀ b < s.dom.issued.length, ∃ x ∈ s.dom.issued, x.stamp = b

theorem numbered_run (h : Run act init r n) : ∀ i ≤ n, Numbered (r i) := by
  refine h.invariant ⟨nofun, List.nodup_nil, nofun⟩ fun s a s' hs ha => ?_
  rcases issued_act ha with he | ⟨p, he⟩
  · exact ⟨by rw [he]; exact hs.stamp_lt, by rw [he]; exact hs.nodup, by rw [he]; exact hs.all⟩
  · refine ⟨fun x hx => ?_, ?_, fun b hb => ?_⟩
    · rw [he] at hx ⊢
      rcases List.mem_cons.mp hx with rfl | hx
      · exact Nat.lt_succ_self _
      · exact (hs.stamp_lt x hx).trans (Nat.lt_succ_self _)
    · rw [he]
      refine List.nodup_cons.mpr ⟨fun hm => ?_, hs.nodup⟩
      obtain ⟨x, hx, hxs⟩ := List.mem_map.mp hm
      exact (hs.stamp_lt x hx).ne hxs
    · rw [he] at hb ⊢
      rcases Nat.lt_succ_iff_lt_or_eq.mp hb with hb | rfl
      · obtain ⟨x, hx, hxb⟩ := hs.all b hb
        exact ⟨x, List.mem_cons_of_mem _ hx, hxb⟩
      · exact ⟨_, List.mem_cons_self .., rfl⟩

/-- A number belongs to one call in progress, or to one that has returned. -/
structure Calls (s : EpochSystem T α) : Prop where
  completed_lt : ∀ b ∈ s.dom.completed, b < s.dom.issued.length
  number : ∀ τ pc b, s.pc τ = some pc → pc.number = some b →
    b < s.dom.issued.length ∧ b ∉ s.dom.completed
  unique : ∀ τ σ pc pc' b, s.pc τ = some pc → s.pc σ = some pc' → pc.number = some b →
    pc'.number = some b → τ = σ

/-- A call starts, with the next number or none. -/
theorem Calls.call {τ : T} {c : Call α} {x : EpochDomain T α × Option (Pc α)} (h : s.Calls)
    (hc : s.dom.Called τ c x) : Calls (⟨x.1, Function.update s.pc τ x.2⟩ : EpochSystem T α) := by
  have hlen : s.dom.issued.length ≤ x.1.issued.length := by
    rcases hc.issued with ⟨he, -⟩ | ⟨p, -, he⟩
    · rw [he]
    · rw [he]; exact Nat.le_succ _
  have hnew : ∀ pc', x.2 = some pc' → ∀ b, pc'.number = some b →
      b = s.dom.issued.length ∧ b < x.1.issued.length := by
    intro pc' hpc' b hb
    have hk := hc.kind pc' hpc'
    rcases hc.issued with ⟨-, hne⟩ | ⟨p, rfl, he⟩
    · cases c with
      | retire p =>
        cases p with
        | none => cases hk
        | some p => exact absurd rfl (hne p)
      | leave => cases hk
      | enter | tryReclaim | synchronize | exit =>
        rw [Pc.number, ← Option.some.inj hk] at hb
        cases hb
    · rw [Pc.number, ← Option.some.inj hk] at hb
      obtain rfl := Option.some.inj hb
      rw [he]
      exact ⟨rfl, Nat.lt_succ_self _⟩
  refine ⟨fun b hb => ?_, fun σ pc b hpc hb => ?_, fun σ σ' pc pc' b hpc hpc' hb hb' => ?_⟩
  · rw [hc.completed] at hb
    exact (h.completed_lt b hb).trans_le hlen
  · simp only [hc.completed]
    rcases eq_or_ne σ τ with rfl | hσ
    · simp only [Function.update_self] at hpc
      obtain ⟨rfl, hlt⟩ := hnew pc hpc b hb
      exact ⟨hlt, fun hm => lt_irrefl _ (h.completed_lt _ hm)⟩
    · simp only [Function.update_of_ne hσ] at hpc
      obtain ⟨hlt, hm⟩ := h.number σ pc b hpc hb
      exact ⟨hlt.trans_le hlen, hm⟩
  · rcases eq_or_ne σ τ with rfl | hσ
    · rcases eq_or_ne σ' σ with rfl | hσ'
      · rfl
      · simp only [Function.update_self] at hpc
        simp only [Function.update_of_ne hσ'] at hpc'
        obtain ⟨rfl, -⟩ := hnew pc hpc b hb
        exact absurd (h.number σ' pc' _ hpc' hb').1 (lt_irrefl _)
    · simp only [Function.update_of_ne hσ] at hpc
      rcases eq_or_ne σ' τ with rfl | hσ'
      · simp only [Function.update_self] at hpc'
        obtain ⟨rfl, -⟩ := hnew pc' hpc' b hb'
        exact absurd (h.number σ pc _ hpc hb).1 (lt_irrefl _)
      · simp only [Function.update_of_ne hσ'] at hpc'
        exact h.unique σ σ' pc pc' b hpc hpc' hb hb'

/-- A call goes on under its number, or returns and notes it. -/
theorem Calls.step {τ : T} {pc : Pc α} {x : EpochDomain T α × Option (Pc α)} (h : s.Calls)
    (hpc : s.pc τ = some pc) (hx : s.dom.Noted τ pc x) :
    Calls (⟨x.1, Function.update s.pc τ x.2⟩ : EpochSystem T α) := by
  have hcompleted : ∀ b ∈ x.1.completed, b ∈ s.dom.completed ∨ x.2 = none ∧ pc.number = some b := by
    intro b hb
    cases hx2 : x.2 with
    | none =>
      rw [hx.returns hx2] at hb
      rcases List.mem_append.mp hb with hb | hb
      · exact .inr ⟨rfl, Option.mem_toList.mp hb⟩
      · exact .inl hb
    | some pc' =>
      rw [(hx.goes pc' hx2).2] at hb
      exact .inl hb
  -- where a call is, it was with the same number
  have hold : ∀ σ pc' b, Function.update s.pc τ x.2 σ = some pc' → pc'.number = some b →
      ∃ pc'', s.pc σ = some pc'' ∧ pc''.number = some b := by
    intro σ pc' b hpc' hb
    rcases eq_or_ne σ τ with rfl | hσ
    · rw [Function.update_self] at hpc'
      rw [Pc.number, (hx.goes pc' hpc').1] at hb
      exact ⟨pc, hpc, hb⟩
    · rw [Function.update_of_ne hσ] at hpc'
      exact ⟨pc', hpc', hb⟩
  refine ⟨fun b hb => ?_, fun σ pc' b hpc' hb => ?_, fun σ σ' pc₁ pc₂ b h₁ h₂ hb₁ hb₂ => ?_⟩
  · simp only [hx.issued]
    rcases hcompleted b hb with hb | ⟨-, hb⟩
    · exact h.completed_lt b hb
    · exact (h.number τ pc b hpc hb).1
  · obtain ⟨pc'', hpc'', hb''⟩ := hold σ pc' b hpc' hb
    simp only [hx.issued]
    obtain ⟨hlt, hm⟩ := h.number σ pc'' b hpc'' hb''
    refine ⟨hlt, fun hb => ?_⟩
    rcases hcompleted b hb with hb | ⟨hret, hb⟩
    · exact hm hb
    · obtain rfl := h.unique σ τ pc'' pc b hpc'' hpc hb'' hb
      simp only [Function.update_self, hret] at hpc'
      cases hpc'
  · obtain ⟨pc₁', h₁', hb₁'⟩ := hold σ pc₁ b h₁ hb₁
    obtain ⟨pc₂', h₂', hb₂'⟩ := hold σ' pc₂ b h₂ hb₂
    exact h.unique σ σ' pc₁' pc₂' b h₁' h₂' hb₁' hb₂'

theorem calls_act (hs : s.Calls) (ha : act s a = some s') : s'.Calls := by
  obtain ⟨τ, x, rfl, ⟨c, -, -, hc⟩ | ⟨weak, pc, -, hpc, rfl⟩⟩ := act_cases ha
  · exact hs.call (EpochDomain.called hc)
  · exact hs.step hpc (s.dom.noted_step τ weak pc)

omit [DecidableEq T] in
theorem calls_init : Calls (init : EpochSystem T α) := by
  refine ⟨fun b hb => ?_, fun τ pc b hpc => ?_, fun τ σ pc pc' b hpc => ?_⟩
  · cases hb
  · cases hpc
  · cases hpc

theorem calls_run (h : Run act init r n) : ∀ i ≤ n, Calls (r i) :=
  h.invariant calls_init fun _ _ _ hs ha => calls_act hs ha

end EpochSystem

end RcuFib
