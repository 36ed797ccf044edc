import RcuFib.Epoch.Domain
import RcuFib.Library.Trace
import Mathlib.Data.List.FinRange
import Mathlib.Logic.Function.Basic
import Mathlib.Tactic.IntervalCases

/-! The process-wide table of domain slots and the threads' caches of records
    (`src/epoch.cpp`: `acquire_slot`, `release_slot`, `slot_is_live`, `thread_slots`).

    Many domains come and go here, and the memory of one may be used again by the next, so a pointer
    to a domain is only an address. Each function of the table runs under `slot_mutex` and is one step.
    A destructor and the exit of a thread are several: the exit asks `slot_is_live` in one step, and each
    access of the call of `release_thread_record` that follows is another. What is in the bags of a
    record and what it announces is left to `EpochDomain`. The instance a thread registered with is
    noted beside its cache entry; no step reads it. -/

namespace RcuFib

open Trace

/-- `max_epoch_domains` -/
abbrev maxEpochDomains : Nat := 8

abbrev SlotIndex := Fin maxEpochDomains

structure SlotState where
  taken : Bool
  generation : Nat
  deriving DecidableEq

/-- `thread_slots::entry` -/
structure SlotEntry where
  /-- The address of the domain, if any. -/
  domain : Option Nat
  record : Option Nat
  generation : Nat
  /-- Ghost: the instance that was at the address. -/
  registered : Nat
  deriving DecidableEq

inductive DomainPhase where
  | alive
  /-- `release_slot` has run. -/
  | released
  /-- The records have been deleted. -/
  | tornDown
  /-- The destructor has returned and the memory is free. -/
  | gone
  deriving DecidableEq

/-- One `epoch_domain` object. -/
structure DomainInstance where
  address : Nat
  id : SlotIndex
  generation : Nat

/-- The next access of a call of `release_thread_record`: the lock, the three bags, the unlock, the two
    stores. After the last of them it has returned. -/
inductive ReleasePc where
  | lock
  | move (bag : Nat)
  | unlock
  | state
  | inUse
  deriving DecidableEq

/-- Where a thread is. -/
inductive SlotTask where
  | idle
  /-- in `~epoch_domain`, before the loop over the records -/
  | tearing (d : Nat)
  /-- in `~epoch_domain`, before the check of its own cache -/
  | clearing (d : Nat)
  /-- in `~thread_slots`, at the head of the loop -/
  | visiting (i : Nat)
  /-- in `~thread_slots`, past the check, until `release_thread_record` has returned -/
  | releasing (i : SlotIndex) (pc : ReleasePc)
  | exited
  deriving DecidableEq

/-- The instance whose destructor a thread is in. -/
def SlotTask.destroying : SlotTask → Option Nat
  | .tearing d | .clearing d => some d
  | _ => none

/-- The loop of `~thread_slots` goes on once the call has returned. -/
def SlotTask.after (i : SlotIndex) : Option ReleasePc → SlotTask
  | some pc => .releasing i pc
  | none => .visiting (i + 1)

structure Registry (T : Type*) where
  slots : SlotIndex → SlotState
  /-- The instances constructed so far, by number. -/
  domain : Nat → DomainInstance
  count : Nat
  phase : Nat → DomainPhase
  /-- `in_use` of each record of an instance. -/
  inUse : Nat → List Bool
  /-- `orphan_mutex_` of an instance, with its owner. -/
  orphanMutex : Nat → Option T
  /-- The instance that occupies an address. -/
  memory : Nat → Option Nat
  entries : T → SlotIndex → SlotEntry
  task : T → SlotTask

/-- What threads do. `register` is a first use by `local_record`: it claims the record `reuse`, or
    allocates one. `step` goes on with a destructor or an exit. -/
inductive SlotAction (T : Type*) where
  | construct (τ : T) (address : Nat)
  | register (τ : T) (d : Nat) (reuse : Option Nat)
  | destroy (τ : T) (d : Nat)
  | exit (τ : T)
  | step (τ : T)

/-- The first slot that is not taken, with its next generation, a 64-bit number. -/
def acquireSlot (slots : SlotIndex → SlotState) :
    Option (SlotIndex × Nat × (SlotIndex → SlotState)) :=
  ((List.finRange maxEpochDomains).find? fun i => !(slots i).taken).map fun i =>
    let generation := ((slots i).generation + 1) % 2 ^ 64
    (i, generation, Function.update slots i ⟨true, generation⟩)

def releaseSlot (slots : SlotIndex → SlotState) (index : SlotIndex) : SlotIndex → SlotState :=
  Function.update slots index { slots index with taken := false }

def slotIsLive (slots : SlotIndex → SlotState) (index : SlotIndex) (generation : Nat) : Bool :=
  (slots index).taken && (slots index).generation == generation

namespace Registry
variable {T : Type*}

def emptyEntry : SlotEntry := ⟨none, none, 0, 0⟩

def init : Registry T where
  slots := fun _ => ⟨false, 0⟩
  domain := fun _ => ⟨0, ⟨0, by decide⟩, 0⟩
  count := 0
  phase := fun _ => .gone
  inUse := fun _ => []
  orphanMutex := fun _ => none
  memory := fun _ => none
  entries := fun _ _ => emptyEntry
  task := fun _ => .idle

variable [DecidableEq T]

def setPhase (s : Registry T) (d : Nat) (x : DomainPhase) : Registry T :=
  { s with phase := Function.update s.phase d x }

def setInUse (s : Registry T) (d : Nat) (x : List Bool) : Registry T :=
  { s with inUse := Function.update s.inUse d x }

def setOrphanMutex (s : Registry T) (d : Nat) (x : Option T) : Registry T :=
  { s with orphanMutex := Function.update s.orphanMutex d x }

def setTask (s : Registry T) (τ : T) (x : SlotTask) : Registry T :=
  { s with task := Function.update s.task τ x }

def setEntry (s : Registry T) (τ : T) (i : SlotIndex) (e : SlotEntry) : Registry T :=
  { s with entries := Function.update s.entries τ (Function.update (s.entries τ) i e) }

/-- `epoch_domain()` at a free address; it throws when all slots are taken. -/
def construct (s : Registry T) (address : Nat) : Option (Registry T) :=
  (acquireSlot s.slots).map fun x =>
    { s with
      slots := x.2.2
      domain := Function.update s.domain s.count ⟨address, x.1, x.2.1⟩
      count := s.count + 1
      phase := Function.update s.phase s.count .alive
      inUse := Function.update s.inUse s.count []
      orphanMutex := Function.update s.orphanMutex s.count none
      memory := Function.update s.memory address (some s.count) }

/-- `local_record()` of instance `d`. -/
def localRecord (s : Registry T) (τ : T) (d : Nat) (reuse : Option Nat) : Option (Registry T) :=
  let this := s.domain d
  let slot := s.entries τ this.id
  if slot.domain = some this.address ∧ slot.generation = this.generation ∧ slot.record.isSome then
    some s
  else
    match reuse with
    | some r =>
      if (s.inUse d)[r]? = some false then
        some ((s.setInUse d ((s.inUse d).set r true)).setEntry τ this.id
          ⟨some this.address, some r, this.generation, d⟩)
      else none
    | none =>
      some ((s.setInUse d (s.inUse d ++ [true])).setEntry τ this.id
        ⟨some this.address, some (s.inUse d).length, this.generation, d⟩)

/-- An access of `release_thread_record(record)`, to whatever is at the address, and the next one. -/
def releaseThreadRecord (s : Registry T) (τ : T) (address record : Nat) :
    ReleasePc → Registry T × Option ReleasePc
  | .lock =>
    match s.memory address with
    | none => (s, some (.move 0))
    | some d =>
      if (s.orphanMutex d).isSome then (s, some .lock)
      else (s.setOrphanMutex d (some τ), some (.move 0))
  | .move bag => (s, some (if bag + 1 < 3 then .move (bag + 1) else .unlock))
  | .unlock =>
    match s.memory address with
    | none => (s, some .state)
    | some d => (s.setOrphanMutex d none, some .state)
  | .state => (s, some .inUse)
  | .inUse =>
    match s.memory address with
    | none => (s, none)
    | some d => (s.setInUse d ((s.inUse d).set record false), none)

/-- One iteration of the loop of `~thread_slots`, up to the check. -/
def visit (s : Registry T) (τ : T) (i : Nat) : SlotTask :=
  if h : i < maxEpochDomains then
    let slot := s.entries τ ⟨i, h⟩
    if slot.domain.isNone || slot.record.isNone then .visiting (i + 1)
    else if !slotIsLive s.slots ⟨i, h⟩ slot.generation then .visiting (i + 1)
    else .releasing ⟨i, h⟩ .lock
  else .exited

/-- The tail of `~epoch_domain`, and the object is gone. -/
def leave (s : Registry T) (τ : T) (d : Nat) : Registry T :=
  let this := s.domain d
  let s := if (s.entries τ this.id).domain = some this.address then s.setEntry τ this.id emptyEntry
    else s
  { s with memory := Function.update s.memory this.address none }.setPhase d .gone

/-- The next step of a destructor or an exit. -/
def step (s : Registry T) (τ : T) : Option (Registry T) :=
  match s.task τ with
  | .tearing d => some (((s.setPhase d .tornDown).setInUse d []).setTask τ (.clearing d))
  | .clearing d => some ((s.leave τ d).setTask τ .idle)
  | .visiting i => some (s.setTask τ (s.visit τ i))
  | .releasing i pc =>
    match (s.entries τ i).domain, (s.entries τ i).record with
    | some address, some record =>
      let (s, pc) := s.releaseThreadRecord τ address record pc
      some (s.setTask τ (.after i pc))
    | _, _ => none
  | .idle | .exited => none

/-- A domain is used and destroyed by its address, so only while it is there. -/
def act (s : Registry T) : SlotAction T → Option (Registry T)
  | .construct τ address =>
    if s.task τ = .idle ∧ s.memory address = none then s.construct address else none
  | .register τ d reuse =>
    if s.task τ = .idle ∧ d < s.count ∧ s.phase d = .alive then s.localRecord τ d reuse else none
  | .destroy τ d =>
    if s.task τ = .idle ∧ d < s.count ∧ s.phase d = .alive then
      some (({ s with slots := releaseSlot s.slots (s.domain d).id }.setPhase d .released).setTask τ
        (.tearing d))
    else none
  | .exit τ => if s.task τ = .idle then some (s.setTask τ (.visiting 0)) else none
  | .step τ => s.step τ

/-- What `τ` accesses next for slot `i` is the instance it registered with, and that instance still has its
    records. -/
structure Touchable (s : Registry T) (τ : T) (i : SlotIndex) : Prop where
  same : ∃ a, (s.entries τ i).domain = some a ∧ s.memory a = some (s.entries τ i).registered
  intact : s.phase (s.entries τ i).registered = .alive ∨ s.phase (s.entries τ i).registered = .released

/-- No exiting thread is between its check of the instance that loses its records and the return of its
    call, and no generation wraps around. -/
def Settled (s : Registry T) : SlotAction T → Prop
  | .step τ => ∀ d, s.task τ = .tearing d → ∀ σ i pc, s.task σ = .releasing i pc →
      (s.entries σ i).registered ≠ d
  | .construct _ _ => ∀ x ∈ acquireSlot s.slots, (s.slots x.1).generation + 1 < 2 ^ 64
  | _ => True

/-- The entry speaks of an instance that took slot `i`. -/
structure Registered (s : Registry T) (i : SlotIndex) (e : SlotEntry) : Prop where
  lt : e.registered < s.count
  id : (s.domain e.registered).id = i
  generation : (s.domain e.registered).generation = e.generation
  address : e.domain = some (s.domain e.registered).address

structure Inv (s : Registry T) : Prop where
  current : ∀ d < s.count, s.phase d = .alive →
    s.slots (s.domain d).id = ⟨true, (s.domain d).generation⟩
  le : ∀ d < s.count, (s.domain d).generation ≤ (s.slots (s.domain d).id).generation
  unique : ∀ d < s.count, ∀ d' < s.count, (s.domain d).id = (s.domain d').id →
    (s.domain d).generation = (s.domain d').generation → d = d'
  holder : ∀ i, (s.slots i).taken = true → ∃ d < s.count, s.phase d = .alive ∧ (s.domain d).id = i
  memory : ∀ d < s.count, s.phase d ≠ .gone → s.memory (s.domain d).address = some d
  entry : ∀ τ i, (s.entries τ i).domain ≠ none → s.Registered i (s.entries τ i)
  tearing : ∀ τ d, s.task τ = .tearing d → d < s.count ∧ s.phase d = .released
  clearing : ∀ τ d, s.task τ = .clearing d → d < s.count ∧ s.phase d = .tornDown
  single : ∀ τ σ d, (s.task τ).destroying = some d → (s.task σ).destroying = some d → τ = σ
  releasing : ∀ τ i pc, s.task τ = .releasing i pc → (s.entries τ i).domain ≠ none ∧
    (s.phase (s.entries τ i).registered = .alive ∨ s.phase (s.entries τ i).registered = .released)

variable {s s' : Registry T} {τ : T} {d : Nat}

omit [DecidableEq T] in
theorem Registered.of_same {i : SlotIndex} {e : SlotEntry} (h : s.Registered i e)
    (hc : s'.count = s.count) (hd : s'.domain = s.domain) : s'.Registered i e :=
  ⟨by rw [hc]; exact h.lt, by rw [hd]; exact h.id, by rw [hd]; exact h.generation,
    by rw [hd]; exact h.address⟩

/-! ### What the check is worth -/

omit [DecidableEq T] in
/-- A positive `slot_is_live` means the instance has not been released. -/
theorem Inv.alive_of_live (h : s.Inv) {i : SlotIndex} {e : SlotEntry} (he : s.Registered i e)
    (hl : slotIsLive s.slots i e.generation = true) : s.phase e.registered = .alive := by
  obtain ⟨htaken, hgen⟩ := Bool.and_eq_true_iff.mp hl
  obtain ⟨d, hd, halive, hid⟩ := h.holder i htaken
  have hslot := h.current d hd halive
  rw [hid] at hslot
  rw [hslot, beq_iff_eq] at hgen
  have hde : d = e.registered :=
    h.unique d hd _ he.lt (hid.trans he.id.symm) (hgen.trans he.generation.symm)
  rw [← hde, halive]

omit [DecidableEq T] in
theorem Inv.touchable (h : s.Inv) {i : SlotIndex} {pc : ReleasePc} (hr : s.task τ = .releasing i pc) :
    s.Touchable τ i := by
  obtain ⟨hd, hp⟩ := h.releasing τ i pc hr
  have he := h.entry τ i hd
  refine ⟨⟨_, he.address, h.memory _ he.lt ?_⟩, hp⟩
  rcases hp with hp | hp <;> rw [hp] <;> decide

/-! ### Every step -/

theorem acquireSlot_spec {slots slots' : SlotIndex → SlotState} {i : SlotIndex} {g : Nat}
    (hx : acquireSlot slots = some (i, g, slots')) : (slots i).taken = false ∧
      g = ((slots i).generation + 1) % 2 ^ 64 ∧ slots' = Function.update slots i ⟨true, g⟩ := by
  obtain ⟨j, hj, he⟩ := Option.map_eq_some_iff.mp hx
  cases he
  have := List.find?_some hj
  exact ⟨by simpa using this, rfl, rfl⟩

/-- A step of one thread that leaves the domains alone. -/
theorem Inv.setTask (h : s.Inv) {x : SlotTask} (hx : x.destroying = none)
    (hr : ∀ i pc, x = .releasing i pc → (s.entries τ i).domain ≠ none ∧
      (s.phase (s.entries τ i).registered = .alive ∨ s.phase (s.entries τ i).registered = .released)) :
    (s.setTask τ x).Inv := by
  have htask : ∀ σ y, (s.setTask τ x).task σ = y → σ = τ ∧ y = x ∨ s.task σ = y := by
    intro σ y hy
    rcases eq_or_ne σ τ with rfl | hσ
    · exact .inl ⟨rfl, by rw [← hy]; exact Function.update_self ..⟩
    · exact .inr (by rw [← hy]; exact (Function.update_of_ne hσ ..).symm)
  have hdest : ∀ σ d, ((s.setTask τ x).task σ).destroying = some d →
      (s.task σ).destroying = some d := by
    intro σ d hd
    rcases htask σ _ rfl with ⟨-, he⟩ | he
    · rw [he, hx] at hd; cases hd
    · rwa [he]
  refine ⟨h.current, h.le, h.unique, h.holder, h.memory,
    fun σ i hd => (h.entry σ i hd).of_same rfl rfl, fun σ d hd => ?_, fun σ d hd => ?_,
    fun σ σ' d hd hd' => h.single σ σ' d (hdest σ d hd) (hdest σ' d hd'), fun σ i pc hi => ?_⟩
  · rcases htask σ _ hd with ⟨-, rfl⟩ | he
    · cases hx
    · exact h.tearing σ d he
  · rcases htask σ _ hd with ⟨-, rfl⟩ | he
    · cases hx
    · exact h.clearing σ d he
  · rcases htask σ _ hi with ⟨rfl, he⟩ | he
    · exact hr i pc he.symm
    · exact h.releasing σ i pc he

omit [DecidableEq T] in
/-- Flags of records are nobody's business here. -/
theorem Inv.setInUse (h : s.Inv) (d : Nat) (x : List Bool) : (s.setInUse d x).Inv :=
  ⟨h.current, h.le, h.unique, h.holder, h.memory,
    fun τ i hd => (h.entry τ i hd).of_same rfl rfl,
    h.tearing, h.clearing, h.single, h.releasing⟩

omit [DecidableEq T] in
/-- Nor who holds a mutex. -/
theorem Inv.setOrphanMutex (h : s.Inv) (d : Nat) (x : Option T) : (s.setOrphanMutex d x).Inv :=
  ⟨h.current, h.le, h.unique, h.holder, h.memory,
    fun τ i hd => (h.entry τ i hd).of_same rfl rfl,
    h.tearing, h.clearing, h.single, h.releasing⟩

/-- An idle thread's cache entry changes. -/
theorem Inv.setEntry (h : s.Inv) {i : SlotIndex} {e : SlotEntry}
    (hτ : ∀ j pc, s.task τ ≠ .releasing j pc)
    (he : e.domain ≠ none → s.Registered i e) : (s.setEntry τ i e).Inv := by
  have hentry : ∀ σ j, (s.setEntry τ i e).entries σ j = if σ = τ ∧ j = i then e else s.entries σ j := by
    intro σ j
    rcases eq_or_ne σ τ with rfl | hσ
    · rcases eq_or_ne j i with rfl | hj
      · simp [Registry.setEntry]
      · simp [Registry.setEntry, hj]
    · simp [Registry.setEntry, hσ]
  refine ⟨h.current, h.le, h.unique, h.holder, h.memory, fun σ j hd => ?_, h.tearing, h.clearing,
    h.single, fun σ j pc hj => ?_⟩
  · rw [hentry] at hd ⊢
    split at hd
    · next hc =>
      rw [if_pos hc, hc.2]
      exact (he hd).of_same rfl rfl
    · next hc =>
      rw [if_neg hc]
      exact (h.entry σ j hd).of_same rfl rfl
  · have hne : ¬ (σ = τ ∧ j = i) := fun hc => hτ j pc (hc.1 ▸ hj)
    rw [hentry, if_neg hne]
    exact h.releasing σ j pc hj

omit [DecidableEq T] in
theorem inv_construct (h : s.Inv) {a : Nat} (hm : s.memory a = none) (hc : s.construct a = some s')
    (hwrap : ∀ x ∈ acquireSlot s.slots, (s.slots x.1).generation + 1 < 2 ^ 64) : s'.Inv := by
  obtain ⟨⟨i, g, slots⟩, hx, rfl⟩ := Option.map_eq_some_iff.mp hc
  obtain ⟨hfree, hg, rfl⟩ := acquireSlot_spec hx
  have hg : g = (s.slots i).generation + 1 := hg.trans (Nat.mod_eq_of_lt (hwrap _ hx))
  have hnot : ∀ d < s.count, s.phase d = .alive → (s.domain d).id ≠ i := by
    rintro d hd halive rfl
    have := h.current d hd halive
    rw [this] at hfree
    cases hfree
  have hle : ∀ d < s.count, (s.domain d).id = i → (s.domain d).generation < g := by
    rintro d hd rfl
    have := h.le d hd
    omega
  have hcases : ∀ d, d < s.count + 1 → d < s.count ∨ d = s.count := fun d hd => by omega
  refine ⟨fun d hd halive => ?_, fun d hd => ?_, fun d hd d' hd' hid hgen => ?_, fun j hj => ?_,
    fun d hd hp => ?_, fun σ j hd => ?_, fun σ d hd => ?_, fun σ d hd => ?_, h.single,
    fun σ j pc hj => ?_⟩
  · rcases hcases d hd with hd | rfl
    · simp only [Function.update_of_ne hd.ne] at halive ⊢
      rw [Function.update_of_ne (hnot d hd halive)]
      exact h.current d hd halive
    · simp
  · rcases hcases d hd with hd | rfl
    · simp only [Function.update_of_ne hd.ne]
      rcases eq_or_ne (s.domain d).id i with hid | hid
      · rw [hid, Function.update_self]
        exact (hle d hd hid).le
      · rw [Function.update_of_ne hid]
        exact h.le d hd
    · simp
  · rcases hcases d hd with hd | rfl
    · rcases hcases d' hd' with hd' | rfl
      · simp only [Function.update_of_ne hd.ne, Function.update_of_ne hd'.ne] at hid hgen
        exact h.unique d hd d' hd' hid hgen
      · simp only [Function.update_of_ne hd.ne, Function.update_self] at hid hgen
        exact absurd hgen (hle d hd hid).ne
    · rcases hcases d' hd' with hd' | rfl
      · simp only [Function.update_of_ne hd'.ne, Function.update_self] at hid hgen
        exact absurd hgen.symm (hle d' hd' hid.symm).ne
      · rfl
  · rcases eq_or_ne j i with rfl | hji
    · exact ⟨s.count, Nat.lt_succ_self _, by simp, by simp⟩
    · simp only [Function.update_of_ne hji] at hj
      obtain ⟨d, hd, halive, hid⟩ := h.holder j hj
      exact ⟨d, Nat.lt_succ_of_lt hd, by simpa [hd.ne] using halive, by simpa [hd.ne] using hid⟩
  · rcases hcases d hd with hd | rfl
    · simp only [Function.update_of_ne hd.ne] at hp ⊢
      have hmem := h.memory d hd hp
      rw [Function.update_of_ne]
      · exact hmem
      · rintro he
        rw [he, hm] at hmem
        cases hmem
    · simp
  · have he := h.entry σ j hd
    exact ⟨Nat.lt_succ_of_lt he.1, by simpa [he.1.ne] using he.2, by simpa [he.1.ne] using he.3,
      by simpa [he.1.ne] using he.4⟩
  · obtain ⟨hlt, hp⟩ := h.tearing σ d hd
    exact ⟨Nat.lt_succ_of_lt hlt, by simpa [hlt.ne] using hp⟩
  · obtain ⟨hlt, hp⟩ := h.clearing σ d hd
    exact ⟨Nat.lt_succ_of_lt hlt, by simpa [hlt.ne] using hp⟩
  · obtain ⟨hd, hp⟩ := h.releasing σ j pc hj
    have hlt := (h.entry σ j hd).1
    exact ⟨hd, by simpa [hlt.ne] using hp⟩

theorem inv_register (h : s.Inv) (hτ : s.task τ = .idle) (hd : d < s.count) {reuse : Option Nat}
    (hr : s.localRecord τ d reuse = some s') : s'.Inv := by
  have hne : ∀ j pc, s.task τ ≠ .releasing j pc := fun j pc hj => by rw [hτ] at hj; cases hj
  have hnew : ∀ r x, ((s.setInUse d x).setEntry τ (s.domain d).id
      ⟨some (s.domain d).address, some r, (s.domain d).generation, d⟩).Inv :=
    fun r x => (h.setInUse d x).setEntry hne fun _ => ⟨hd, rfl, rfl, rfl⟩
  simp only [localRecord] at hr
  split at hr
  · cases hr; exact h
  · cases reuse with
    | none => cases hr; exact hnew _ _
    | some r =>
      simp only at hr
      split at hr
      · cases hr; exact hnew _ _
      · cases hr

omit [DecidableEq T] in
/-- Two instances are never alive on one slot. -/
theorem Inv.alone (h : s.Inv) {e : Nat} (hd : d < s.count) (he : e < s.count) (hda : s.phase d = .alive)
    (hea : s.phase e = .alive) (hid : (s.domain e).id = (s.domain d).id) : e = d := by
  have hs := h.current d hd hda
  have hs' := h.current e he hea
  rw [hid, hs] at hs'
  exact h.unique e he d hd hid (SlotState.mk.inj hs').2.symm

theorem task_setTask {σ : T} {x y : SlotTask} (h : (s.setTask τ x).task σ = y) :
    σ = τ ∧ y = x ∨ σ ≠ τ ∧ s.task σ = y := by
  rcases eq_or_ne σ τ with rfl | hσ
  · exact .inl ⟨rfl, by rw [← h]; exact Function.update_self ..⟩
  · exact .inr ⟨hσ, by rw [← h]; exact (Function.update_of_ne hσ ..).symm⟩

/-- A destructor still has one thread when no other thread is in the same one. -/
theorem Inv.single_setTask (h : s.Inv) {x : SlotTask}
    (hother : ∀ σ ≠ τ, ∀ d, x.destroying = some d → (s.task σ).destroying ≠ some d) (σ σ' : T) (e : Nat)
    (hσ : ((s.setTask τ x).task σ).destroying = some e)
    (hσ' : ((s.setTask τ x).task σ').destroying = some e) : σ = σ' := by
  have hself : (s.setTask τ x).task τ = x := Function.update_self ..
  have hne : ∀ ρ ≠ τ, (s.setTask τ x).task ρ = s.task ρ := fun ρ hρ => Function.update_of_ne hρ ..
  rcases eq_or_ne σ τ with rfl | h₁ <;> rcases eq_or_ne σ' σ with rfl | h₂
  · rfl
  · rw [hself] at hσ
    rw [hne σ' h₂] at hσ'
    exact absurd hσ' (hother σ' h₂ e hσ)
  · rfl
  · rw [hne σ h₁] at hσ
    rcases eq_or_ne σ' τ with rfl | h₃
    · rw [hself] at hσ'
      exact absurd hσ (hother σ h₁ e hσ')
    · rw [hne σ' h₃] at hσ'
      exact h.single σ σ' e hσ hσ'

omit [DecidableEq T] in
/-- An instance that is alive is in no destructor. -/
theorem Inv.not_destroying (h : s.Inv) (ha : s.phase d = .alive) (σ : T) :
    (s.task σ).destroying ≠ some d := by
  intro hσ
  cases ht : s.task σ with
  | tearing e =>
    rw [ht] at hσ
    cases hσ
    rw [(h.tearing σ d ht).2] at ha
    cases ha
  | clearing e =>
    rw [ht] at hσ
    cases hσ
    rw [(h.clearing σ d ht).2] at ha
    cases ha
  | idle | visiting | releasing | exited => rw [ht] at hσ; cases hσ

/-- A destructor moves instance `d` on: what its steps have in common. -/
structure Advance (s s' : Registry T) (τ : T) (d : Nat) (x : DomainPhase) (y : SlotTask) : Prop where
  count : s'.count = s.count
  domain : s'.domain = s.domain
  entries : s'.entries = s.entries
  phase : s'.phase = Function.update s.phase d x
  task : s'.task = Function.update s.task τ y
  generation : ∀ i, (s'.slots i).generation = (s.slots i).generation
  /-- The slot of `d` is free from its first step on. -/
  freed : s.phase d = .alive → (s'.slots (s.domain d).id).taken = false
  taken : ∀ i, i ≠ (s.domain d).id ∨ s.phase d ≠ .alive → s'.slots i = s.slots i
  memory : ∀ a, a ≠ (s.domain d).address ∨ x ≠ .gone → s'.memory a = s.memory a

theorem Advance.phase_of_ne {x : DomainPhase} {y : SlotTask} (hv : s.Advance s' τ d x y) {e : Nat}
    (he : e ≠ d) : s'.phase e = s.phase e := by rw [hv.phase, Function.update_of_ne he]

theorem Advance.phase_self {x : DomainPhase} {y : SlotTask} (hv : s.Advance s' τ d x y) :
    s'.phase d = x := by rw [hv.phase, Function.update_self]

/-- A step of a destructor keeps the invariant, unless it takes the records from an exiting thread. -/
theorem Inv.advance {x : DomainPhase} {y : SlotTask} (h : s.Inv) (hv : s.Advance s' τ d x y)
    (hd : d < s.count) (hp : s.phase d ≠ .gone) (hx : x ≠ .alive)
    (hother : ∀ σ ≠ τ, (s.task σ).destroying ≠ some d)
    (hy : y = .tearing d ∧ x = .released ∨ y = .clearing d ∧ x = .tornDown ∨ y = .idle)
    (hr : x = .released ∨ ∀ σ i pc, s.task σ = .releasing i pc → (s.entries σ i).registered ≠ d) :
    s'.Inv := by
  have htask : ∀ σ z, s'.task σ = z → σ = τ ∧ z = y ∨ σ ≠ τ ∧ s.task σ = z := fun σ z hz => by
    rw [hv.task] at hz
    exact task_setTask (s := s) hz
  have hdest : ∀ σ ≠ τ, ∀ e, (s.task σ).destroying = some e → e ≠ d := by
    rintro σ hσ e he rfl
    exact hother σ hσ he
  have halive : ∀ e, s'.phase e = .alive → e ≠ d ∧ s.phase e = .alive := by
    intro e he
    rcases eq_or_ne e d with rfl | hne
    · rw [hv.phase_self] at he
      exact absurd he hx
    · exact ⟨hne, hv.phase_of_ne hne ▸ he⟩
  refine ⟨fun e he hea => ?_, fun e he => ?_, ?_, fun j hj => ?_, fun e he hg => ?_, fun σ i hi => ?_,
    fun σ e ht => ?_, fun σ e ht => ?_, ?_, fun σ i pc ht => ?_⟩
  · rw [hv.count] at he
    obtain ⟨hne, hea⟩ := halive e hea
    rw [hv.domain, hv.taken, h.current e he hea]
    by_cases hda : s.phase d = .alive
    · exact .inl fun hid => hne (h.alone hd he hda hea hid)
    · exact .inr hda
  · rw [hv.count] at he
    rw [hv.domain, hv.generation]
    exact h.le e he
  · rw [hv.count, hv.domain]
    exact h.unique
  · rw [hv.count, hv.domain]
    have hda : j ≠ (s.domain d).id ∨ s.phase d ≠ .alive := by
      rw [← not_and_or]
      rintro ⟨rfl, hda⟩
      rw [hv.freed hda] at hj
      cases hj
    rw [hv.taken j hda] at hj
    obtain ⟨e, he, hea, hid⟩ := h.holder j hj
    refine ⟨e, he, (hv.phase_of_ne ?_).trans hea, hid⟩
    rintro rfl
    exact hda.elim (fun hne => hne hid.symm) fun hna => hna hea
  · rw [hv.count] at he
    rw [hv.domain]
    rcases eq_or_ne e d with rfl | hne
    · rw [hv.memory _ (.inr (hv.phase_self ▸ hg))]
      exact h.memory e he hp
    · have hmem := h.memory e he (hv.phase_of_ne hne ▸ hg)
      rw [hv.memory _ (.inl fun ha => ?_), hmem]
      rw [ha, h.memory d hd hp] at hmem
      exact hne (Option.some.inj hmem).symm
  · rw [hv.entries] at hi ⊢
    exact (h.entry σ i hi).of_same hv.count hv.domain
  · rw [hv.count]
    rcases htask σ _ ht with ⟨-, rfl⟩ | ⟨hσ, ht⟩
    · rcases hy with ⟨he, hx⟩ | ⟨he, -⟩ | he <;> cases he
      exact ⟨hd, hv.phase_self.trans hx⟩
    · obtain ⟨hlt, hpe⟩ := h.tearing σ e ht
      exact ⟨hlt, (hv.phase_of_ne (hdest σ hσ e (congrArg SlotTask.destroying ht))).trans hpe⟩
  · rw [hv.count]
    rcases htask σ _ ht with ⟨-, rfl⟩ | ⟨hσ, ht⟩
    · rcases hy with ⟨he, -⟩ | ⟨he, hx⟩ | he <;> cases he
      exact ⟨hd, hv.phase_self.trans hx⟩
    · obtain ⟨hlt, hpe⟩ := h.clearing σ e ht
      exact ⟨hlt, (hv.phase_of_ne (hdest σ hσ e (congrArg SlotTask.destroying ht))).trans hpe⟩
  · rw [hv.task]
    refine h.single_setTask fun σ hσ e he => ?_
    rcases hy with ⟨rfl, -⟩ | ⟨rfl, -⟩ | rfl <;> cases he <;> exact hother σ hσ
  · rw [hv.entries]
    rcases htask σ _ ht with ⟨-, rfl⟩ | ⟨-, ht⟩
    · rcases hy with ⟨he, -⟩ | ⟨he, -⟩ | he <;> cases he
    · obtain ⟨hne, hpe⟩ := h.releasing σ i pc ht
      refine ⟨hne, ?_⟩
      rcases eq_or_ne (s.entries σ i).registered d with he | he
      · rw [he, hv.phase_self]
        exact .inr (hr.resolve_right fun hr => hr σ i pc ht he)
      · rwa [hv.phase_of_ne he]

theorem inv_destroy (h : s.Inv) (hd : d < s.count) (ha : s.phase d = .alive) :
    (({ s with slots := releaseSlot s.slots (s.domain d).id }.setPhase d .released).setTask τ
      (.tearing d)).Inv := by
  refine h.advance (d := d) (τ := τ) ⟨rfl, rfl, rfl, rfl, rfl, fun i => ?_, fun _ => ?_,
    fun i hi => ?_, fun _ _ => rfl⟩ hd (by rw [ha]; decide) (by decide)
    (fun σ _ => h.not_destroying ha σ) (.inl ⟨rfl, rfl⟩) (.inl rfl)
  · show (releaseSlot s.slots (s.domain d).id i).generation = _
    unfold releaseSlot
    rcases eq_or_ne i (s.domain d).id with rfl | hi
    · rw [Function.update_self]
    · rw [Function.update_of_ne hi]
  · show (releaseSlot s.slots (s.domain d).id (s.domain d).id).taken = false
    rw [releaseSlot, Function.update_self]
  · exact Function.update_of_ne (hi.resolve_right (not_not.mpr ha)) ..

theorem inv_tearing (h : s.Inv) (hτ : s.task τ = .tearing d)
    (hs : ∀ σ i pc, s.task σ = .releasing i pc → (s.entries σ i).registered ≠ d) :
    (((s.setPhase d .tornDown).setInUse d []).setTask τ (.clearing d)).Inv := by
  obtain ⟨hd, hp⟩ := h.tearing τ d hτ
  refine h.advance (d := d) (τ := τ) ⟨rfl, rfl, rfl, rfl, rfl, fun _ => rfl, fun ha => ?_,
    fun _ _ => rfl, fun _ _ => rfl⟩ hd (by rw [hp]; decide) (by decide)
    (fun σ hσ he => hσ (h.single σ τ d he (by rw [hτ]; rfl))) (.inr (.inl ⟨rfl, rfl⟩)) (.inr hs)
  rw [hp] at ha
  cases ha

theorem inv_clearing (h : s.Inv) (hτ : s.task τ = .clearing d) :
    ((s.leave τ d).setTask τ .idle).Inv := by
  have hidle : ∀ j pc, s.task τ ≠ .releasing j pc := fun j pc hj => by rw [hτ] at hj; cases hj
  -- first the cache, then the memory
  have hfree : ∀ s₁ : Registry T, s₁.Inv → s₁.task τ = .clearing d → s₁.domain = s.domain →
      ((({ s₁ with memory := Function.update s₁.memory (s.domain d).address none } :
        Registry T).setPhase d .gone).setTask τ .idle).Inv := by
    intro s₁ h hτ hdom
    obtain ⟨hd, hp⟩ := h.clearing τ d hτ
    refine h.advance (d := d) (τ := τ) ⟨rfl, rfl, rfl, rfl, rfl, fun _ => rfl, fun ha => ?_,
      fun _ _ => rfl, fun a ha => ?_⟩ hd (by rw [hp]; decide) (by decide)
      (fun σ hσ he => hσ (h.single σ τ d he (by rw [hτ]; rfl))) (.inr (.inr rfl))
      (.inr fun σ i pc ht hr => ?_)
    · rw [hp] at ha
      cases ha
    · rw [hdom] at ha
      exact Function.update_of_ne (ha.resolve_right fun hn => hn rfl) ..
    · have hpr := (h.releasing σ i pc ht).2
      rw [hr, hp] at hpr
      rcases hpr with hpr | hpr <;> cases hpr
  simp only [leave]
  split
  · exact hfree _ (h.setEntry hidle fun he => absurd rfl he) hτ rfl
  · exact hfree s h hτ rfl

theorem inv_visiting (h : s.Inv) (i : Nat) : (s.setTask τ (s.visit τ i)).Inv := by
  unfold visit
  split
  · next hi =>
    simp only
    split
    · exact h.setTask rfl nofun
    · next hnull =>
      simp only [Bool.or_eq_true, not_or, Option.isNone_iff_eq_none] at hnull
      split
      · exact h.setTask rfl nofun
      · next hlive =>
        refine h.setTask rfl fun j pc hj => ?_
        cases hj
        refine ⟨hnull.1, .inl ?_⟩
        exact h.alive_of_live (h.entry τ _ hnull.1) (by simpa using hlive)
  · exact h.setTask rfl nofun

omit [DecidableEq T] in
/-- The call changes a flag and a mutex. -/
theorem Inv.releaseThreadRecord (h : s.Inv) (τ : T) (a r : Nat) (pc : ReleasePc) :
    (s.releaseThreadRecord τ a r pc).1.Inv ∧ (s.releaseThreadRecord τ a r pc).1.entries = s.entries ∧
      (s.releaseThreadRecord τ a r pc).1.phase = s.phase := by
  have hlock : ∀ d x, (s.setOrphanMutex d x).Inv ∧ (s.setOrphanMutex d x).entries = s.entries ∧
      (s.setOrphanMutex d x).phase = s.phase := fun d x => ⟨h.setOrphanMutex d x, rfl, rfl⟩
  cases pc with
  | lock =>
    simp only [Registry.releaseThreadRecord]
    split
    · exact ⟨h, rfl, rfl⟩
    · split
      · exact ⟨h, rfl, rfl⟩
      · exact hlock _ _
  | move => exact ⟨h, rfl, rfl⟩
  | unlock =>
    simp only [Registry.releaseThreadRecord]
    split
    · exact ⟨h, rfl, rfl⟩
    · exact hlock _ _
  | state => exact ⟨h, rfl, rfl⟩
  | inUse =>
    simp only [Registry.releaseThreadRecord]
    split
    · exact ⟨h, rfl, rfl⟩
    · exact ⟨h.setInUse _ _, rfl, rfl⟩

/-- Until the call has returned it is on the same entry. -/
theorem inv_releasing (h : s.Inv) {i : SlotIndex} {pc : ReleasePc} (hτ : s.task τ = .releasing i pc)
    (a r : Nat) : ((s.releaseThreadRecord τ a r pc).1.setTask τ
      (.after i (s.releaseThreadRecord τ a r pc).2)).Inv := by
  obtain ⟨hinv, hentries, hphase⟩ := h.releaseThreadRecord τ a r pc
  have hdest : ∀ pc', (SlotTask.after i pc').destroying = none := by
    intro pc'
    cases pc' <;> rfl
  refine hinv.setTask (hdest _) fun j pc' hj => ?_
  generalize (s.releaseThreadRecord τ a r pc).2 = next at hj
  cases next with
  | none => cases hj
  | some =>
    cases hj
    rw [hentries, hphase]
    exact h.releasing τ i pc hτ

theorem inv_step (h : s.Inv) (hs : s.Settled (.step τ)) (ha : s.step τ = some s') : s'.Inv := by
  simp only [step] at ha
  split at ha
  · next hτ => cases ha; exact inv_tearing h hτ (hs _ hτ)
  · next hτ => cases ha; exact inv_clearing h hτ
  · cases ha; exact inv_visiting h _
  · next hτ =>
    split at ha
    · cases ha
      exact inv_releasing h hτ _ _
    · cases ha
  · cases ha
  · cases ha

theorem inv_act {a : SlotAction T} (h : s.Inv) (hs : s.Settled a) (ha : s.act a = some s') : s'.Inv := by
  cases a with
  | construct τ address =>
    simp only [act] at ha
    split at ha
    · next hc => exact inv_construct h hc.2 ha hs
    · cases ha
  | register τ d reuse =>
    simp only [act] at ha
    split at ha
    · next hc => exact inv_register h hc.1 hc.2.1 ha
    · cases ha
  | destroy τ d =>
    simp only [act] at ha
    split at ha
    · next hc => cases ha; exact inv_destroy h hc.2.1 hc.2.2
    · cases ha
  | exit τ =>
    simp only [act] at ha
    split at ha
    · cases ha; exact h.setTask rfl nofun
    · cases ha
  | step τ => exact inv_step h hs ha

omit [DecidableEq T] in
theorem inv_init : (init : Registry T).Inv :=
  ⟨nofun, nofun, nofun, nofun, nofun, fun _ _ hd => absurd rfl hd, nofun, nofun, nofun, nofun⟩

/-! ### Whole runs -/

variable {r : Nat → Registry T} {n : Nat}

/-- In a run whose destructors take the records of no instance while an exiting thread is between its check
    and the return of its call, every access of such a call is on the instance the thread registered
    with, before its records go. -/
theorem exit_hook_touches_live (h : Run act init r n)
    (hsettled : ∀ m < n, ∃ a, (r m).act a = some (r (m + 1)) ∧ (r m).Settled a) :
    ∀ m ≤ n, ∀ τ i pc, (r m).task τ = .releasing i pc → (r m).Touchable τ i := by
  have hinv : ∀ m ≤ n, (r m).Inv := by
    intro m
    induction m with
    | zero => intro _; rw [h.start]; exact inv_init
    | succ m ih =>
      intro hm
      obtain ⟨a, ha, hs⟩ := hsettled m hm
      exact inv_act (ih (Nat.le_of_succ_le hm)) hs ha
  exact fun m hm τ i pc hτ => (hinv m hm).touchable hτ

/-- Where the condition fails a destructor does take the records from under a call, pending or begun. -/
theorem teardown_exposes {σ : T} {i : SlotIndex} {pc : ReleasePc} (hτ : s.task τ = .tearing d)
    (hσ : s.task σ = .releasing i pc) (hr : (s.entries σ i).registered = d) (ha : s.step τ = some s') :
    s'.task σ = .releasing i pc ∧ ¬ s'.Touchable σ i := by
  simp only [step, hτ] at ha
  cases ha
  have hne : σ ≠ τ := by
    rintro rfl
    rw [hτ] at hσ
    cases hσ
  refine ⟨?_, fun ht => ?_⟩
  · exact (Function.update_of_ne hne ..).trans hσ
  · have hi := ht.intact
    have hphase : (((s.setPhase d .tornDown).setInUse d []).setTask τ (.clearing d)).phase
        (s.entries σ i).registered = .tornDown := by
      rw [hr]
      exact Function.update_self ..
    rcases hi with hi | hi <;> exact absurd (hphase.symm.trans hi) (by decide)

inductive Party where
  | owner
  | late
  | early
  deriving DecidableEq

/-- A thread exits after the domain it used is gone and another one has taken its slot and its memory. That
    one goes as soon as the call of another exiting thread has returned. -/
def lateExit : List (SlotAction Party) :=
  [.construct .owner 100, .register .late 0 none, .destroy .owner 0, .step .owner, .step .owner,
    .construct .owner 100, .register .early 1 none, .exit .early, .step .early] ++
  List.replicate 7 (.step .early) ++ [.exit .late, .step .late, .destroy .owner 1, .step .owner]

theorem exit_hook_touches_live_late :
    (play act init lateExit 9).task .early = .releasing 0 .lock ∧
      (play act init lateExit 9).Touchable .early 0 ∧
      (play act init lateExit 15).task .early = .releasing 0 .inUse ∧
      (play act init lateExit 15).Touchable .early 0 ∧
      (play act init lateExit 20).task .late = .visiting 1 ∧
      (play act init lateExit 20).phase 1 = .tornDown := by
  have hstep : ∀ m (hm : m < lateExit.length), act (play act init lateExit m) lateExit[m] =
      some (play act init lateExit (m + 1)) := fun m hm => act_play (by rfl) hm
  have hsettled : ∀ m (hm : m < lateExit.length), (play act init lateExit m).Settled lateExit[m] := by
    intro m hm
    have hlt : m < 20 := hm
    have hnone : ∀ m d, (∀ σ, (play act init lateExit m).task σ ∈
        [.idle, .tearing d, .visiting 1]) → ∀ (σ : Party) (i : SlotIndex) (pc : ReleasePc),
        (play act init lateExit m).task σ ≠ .releasing i pc := by
      intro m d htasks σ i pc hσ
      have htask := htasks σ
      rw [hσ] at htask
      simp at htask
    interval_cases m
    · rintro x ⟨⟩; decide
    · trivial
    · trivial
    · exact fun d _ σ i pc hσ => absurd hσ (hnone 3 0 (by rintro ⟨⟩ <;> decide) σ i pc)
    · rintro d ⟨⟩
    · rintro x ⟨⟩; decide
    · trivial
    · trivial
    · rintro d ⟨⟩
    · rintro d ⟨⟩
    · rintro d ⟨⟩
    · rintro d ⟨⟩
    · rintro d ⟨⟩
    · rintro d ⟨⟩
    · rintro d ⟨⟩
    · rintro d ⟨⟩
    · trivial
    · rintro d ⟨⟩
    · trivial
    · exact fun d _ σ i pc hσ => absurd hσ (hnone 19 1 (by rintro ⟨⟩ <;> decide) σ i pc)
  have hlive := exit_hook_touches_live (run_play (by rfl))
    (fun m hm => ⟨_, hstep m hm, hsettled m hm⟩)
  exact ⟨by rfl, hlive 9 (by decide) .early 0 .lock (by rfl), by rfl,
    hlive 15 (by decide) .early 0 .inUse (by rfl), by rfl, by rfl⟩

/-- A thread passes the check, and the domain goes before it makes its call. -/
def racingExit : List (SlotAction Nat) :=
  [.construct 0 100, .register 1 0 none, .exit 1, .step 1, .destroy 0 0, .step 0, .step 0,
    .construct 0 100]

theorem exit_hook_touches_dead : Run act init (play act init racingExit) 8 ∧
    (play act init racingExit 8).task 1 = .releasing 0 .lock ∧
    (∃ s, act (play act init racingExit 8) (.step 1) = some s) ∧
    ¬ (play act init racingExit 8).Touchable 1 0 := by
  have hrun : Run act init (play act init racingExit) racingExit.length := run_play (by rfl)
  refine ⟨hrun, by rfl, ⟨_, rfl⟩, fun h => ?_⟩
  rcases h.intact with hi | hi <;> exact absurd hi (by decide)

end Registry

end RcuFib
