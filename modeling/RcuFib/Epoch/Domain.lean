import Mathlib.Algebra.GroupWithZero.Nat
import Mathlib.Logic.Function.Basic
import Mathlib.Data.List.FinRange

/-! `epoch_domain` (`include/rcufib/epoch.hpp`, `src/epoch.cpp`), one atomic step at a time.

    Threads are the elements of `T`. A thread is between two calls or at a position `Pc` just before
    its next access to shared memory, with the locals that are live there. A pointer into the record
    list is modelled by the list from that record on: `next` is written before a record is published
    and never again. Ghost fields number the guards and the `retire` calls and log the deleters that
    have run; no branch depends on them. -/

namespace RcuFib

/-- `retired_object`. The payload stands for the pointer and its deleter. -/
structure Retiree (α : Type*) where
  payload : α
  /-- ghost: the number of the `retire` call -/
  stamp : Nat
  /-- ghost: how many guards had been opened when the call began -/
  born : Nat
  /-- ghost: the epoch the call loaded, 0 before it does -/
  tag : Nat

/-- A `read_guard`; `number` is a ghost, guards are numbered in the order they open. -/
structure ReadGuard where
  number : Nat
  outermost : Bool
  deriving DecidableEq

/-- `thread_record`. `state` is `none` for 0 and `some e` for `e | pinned_bit`. -/
structure ThreadRecord (T α : Type*) where
  state : Option Nat
  inUse : Bool
  nesting : Nat
  bags : Fin 3 → List (Retiree α)
  /-- ghost: the global epoch when `state` was announced -/
  since : Nat
  /-- ghost: the thread that took the record into use -/
  owner : Option T

/-- `new thread_record()`. -/
def ThreadRecord.fresh {T α : Type*} (τ : T) : ThreadRecord T α where
  state := none
  inUse := true
  nesting := 0
  bags := fun _ => []
  since := 0
  owner := some τ

structure EpochDomain (T α : Type*) where
  globalEpoch : Nat
  records : List Nat
  record : Nat → ThreadRecord T α
  nextRecord : Nat
  orphans : List (Retiree α)
  orphanMutex : Option T
  retired : Nat
  reclaimed : Nat
  advances : Nat
  failedAdvances : Nat
  threads : Nat
  sinceAttempt : Nat
  /-- `tls_slots`: the record of each thread -/
  slot : T → Option Nat
  /-- the open guards of each thread, innermost first -/
  guards : T → List ReadGuard
  /-- ghost -/
  nextGuard : Nat
  /-- ghost: the objects handed to `retire`, latest first -/
  issued : List (Retiree α)
  /-- ghost: the `retire` calls that have returned -/
  completed : List Nat
  /-- ghost: the objects whose deleter has run, latest first -/
  freed : List (Retiree α)

/-- `reclaim_interval` -/
def reclaimInterval : Nat := 64

/-- The call that `try_advance`, `free_bag` and `take_orphans` work for. -/
inductive Task where
  /-- `try_reclaim`, called by the `retire` call of that number or directly -/
  | reclaim (within : Option Nat)
  /-- `synchronize`, with the rotations done; ghost: the `retire` calls that had returned -/
  | synchronize (before : List Nat) (rotation : Nat)

/-- What the caller of `local_record` does with the record. -/
inductive After (α : Type*) where
  | enter
  | retire (x : Retiree α)
  | task (task : Task)

/-- The vector `free_bag` is called with. -/
inductive Source where
  | bag (k : Fin 3)
  | adopted
  deriving DecidableEq

inductive Pc (α : Type*) where
  /-- `local_record`: `records_.load(acquire)` -/
  | loadRecords (k : After α)
  /-- `candidate->in_use.compare_exchange_strong` -/
  | claim (k : After α) (candidates : List Nat)
  /-- `new thread_record()`, `records_.load(relaxed)` -/
  | newRecord (k : After α)
  /-- `record->next.store(head)`, `records_.compare_exchange_weak` -/
  | publish (k : After α) (record : Nat) (head : List Nat)
  | countThread (k : After α) (record : Nat)
  /-- `read_guard`: the nesting test, `pin`: `global_epoch_.load` -/
  | enter (record : Nat)
  /-- `record.state.store(epoch | pinned_bit)` -/
  | announce (record epoch : Nat)
  /-- `retire_raw`: `global_epoch_.load` -/
  | retire (x : Retiree α) (record : Nat)
  /-- `bags[epoch % epoch_ring_size].push_back` -/
  | pushBag (x : Retiree α) (record epoch : Nat)
  | countRetired (stamp : Nat)
  | countAttempt (stamp : Nat)
  | resetAttempt (stamp : Nat)
  /-- `try_advance`: `global_epoch_.load` -/
  | tryAdvance (task : Task)
  | scanHead (task : Task) (epoch : Nat)
  /-- `record->state.load`; at the end of the list `global_epoch_.compare_exchange_strong` -/
  | scan (task : Task) (epoch : Nat) (rest : List Nat)
  | countFailed (task : Task)
  | countAdvance (task : Task)
  /-- `try_reclaim` after the advance: `global_epoch_.load` -/
  | reclaimEpoch (within : Option Nat) (record : Nat)
  /-- `free_bag`: the next deleter, `bag.clear()` after the last -/
  | free (task : Task) (record : Nat) (source : Source) (bag : List (Retiree α)) (i : Nat)
  | countReclaimed (task : Task) (record : Nat) (source : Source) (count : Nat)
  /-- `take_orphans`: the lock, the swap, the unlock -/
  | lockOrphans (task : Task) (record : Nat)
  | swapOrphans (task : Task) (record : Nat)
  | unlockOrphans (task : Task) (record : Nat) (adopted : List (Retiree α))
  /-- `release_thread_record`: the lock, the bags from `k` on, the unlock, the two stores -/
  | exitLock (record : Nat)
  | exitMove (record : Nat) (k : Fin 3)
  | exitUnlock (record : Nat)
  | exitState (record : Nat)
  | exitInUse (record : Nat)

/-- What a thread may call between two calls. -/
inductive Call (α : Type*) where
  /-- the constructor and the destructor of `read_guard` -/
  | enter
  | leave
  /-- `retire_raw(pointer, deleter)`, with `none` for the null pointer -/
  | retire (pointer : Option α)
  | tryReclaim
  | synchronize
  /-- the thread ends; `release_thread_record` runs for its record -/
  | exit

namespace EpochDomain
variable {T α : Type*} [DecidableEq T]

def init : EpochDomain T α where
  globalEpoch := 0
  records := []
  record := fun _ =>
    { state := none, inUse := false, nesting := 0, bags := fun _ => [], since := 0, owner := none }
  nextRecord := 0
  orphans := []
  orphanMutex := none
  retired := 0
  reclaimed := 0
  advances := 0
  failedAdvances := 0
  threads := 0
  sinceAttempt := 0
  slot := fun _ => none
  guards := fun _ => []
  nextGuard := 0
  issued := []
  completed := []
  freed := []

def setRecord (s : EpochDomain T α) (r : Nat) (x : ThreadRecord T α) : EpochDomain T α :=
  { s with record := Function.update s.record r x }

/-- `epoch % epoch_ring_size` -/
def ringIndex (epoch : Nat) : Fin 3 := Fin.ofNat 3 epoch

def setBag (s : EpochDomain T α) (r : Nat) (k : Fin 3) (bag : List (Retiree α)) :
    EpochDomain T α :=
  s.setRecord r { s.record r with bags := Function.update (s.record r).bags k bag }

/-- `free_bag(record.bags[k])` -/
def freeBag (s : EpochDomain T α) (task : Task) (r : Nat) (k : Fin 3) : Pc α :=
  .free task r (.bag k) ((s.record r).bags k) 0

/-- What follows once `local_record` has returned `record`. -/
def resume (s : EpochDomain T α) (record : Nat) : After α → Pc α
  | .enter => .enter record
  | .retire x => .retire x record
  | .task (.reclaim within) => .reclaimEpoch within record
  | .task (.synchronize before rotation) => s.freeBag (.synchronize before rotation) record 0

/-- `local_record()`: the cached record, or else the search for one. -/
def localRecord (s : EpochDomain T α) (τ : T) (k : After α) : Pc α :=
  match s.slot τ with
  | some record => s.resume record k
  | none => .loadRecords k

/-- `++record.nesting` at the end of the constructor of `read_guard`. -/
def openGuard (s : EpochDomain T α) (τ : T) (r : Nat) (outermost : Bool) : EpochDomain T α :=
  { s.setRecord r { s.record r with nesting := (s.record r).nesting + 1 } with
    guards := Function.update s.guards τ (⟨s.nextGuard, outermost⟩ :: s.guards τ)
    nextGuard := s.nextGuard + 1 }

/-- The call returns; ghost: a `retire` call is noted. -/
def finish (s : EpochDomain T α) : Task → EpochDomain T α
  | .reclaim (some stamp) => { s with completed := stamp :: s.completed }
  | _ => s

/-- `try_advance` has returned true. `synchronize` asks for `epoch_ring_size + 1` of them. -/
def advanced (s : EpochDomain T α) (τ : T) : Task → Pc α
  | .reclaim within => s.localRecord τ (.task (.reclaim within))
  | .synchronize before rotation =>
    if rotation + 1 < 4 then .tryAdvance (.synchronize before (rotation + 1))
    else s.localRecord τ (.task (.synchronize before (rotation + 1)))

/-- `bag.clear()` on the vector `free_bag` was called with. -/
def clear (s : EpochDomain T α) (r : Nat) : Source → EpochDomain T α
  | .bag k => s.setBag r k []
  | .adopted => s

/-- `free_bag` has returned. -/
def afterFree (s : EpochDomain T α) (r : Nat) :
    Task → Source → EpochDomain T α × Option (Pc α)
  | task, .adopted => (s.finish task, none)
  | .reclaim within, .bag _ => (s, some (.lockOrphans (.reclaim within) r))
  | .synchronize before rotation, .bag k =>
    (s, some (if k = 2 then .lockOrphans (.synchronize before rotation) r
      else s.freeBag (.synchronize before rotation) r (k + 1)))

/-- One step of thread `τ`. `weak` is a spurious failure of `compare_exchange_weak`. -/
def step (s : EpochDomain T α) (τ : T) (weak : Bool) : Pc α → EpochDomain T α × Option (Pc α)
  | .loadRecords k => (s, some (.claim k s.records))
  | .claim k [] => (s, some (.newRecord k))
  | .claim k (candidate :: rest) =>
    if (s.record candidate).inUse then (s, some (.claim k rest))
    else
      let s := { s.setRecord candidate
          { s.record candidate with inUse := true, nesting := 0, owner := some τ } with
        slot := Function.update s.slot τ (some candidate) }
      (s, some (s.resume candidate k))
  | .newRecord k =>
    ({ s.setRecord s.nextRecord (.fresh τ) with nextRecord := s.nextRecord + 1 },
      some (.publish k s.nextRecord s.records))
  | .publish k record head =>
    if s.records = head ∧ weak = false then
      ({ s with records := record :: head }, some (.countThread k record))
    else (s, some (.publish k record s.records))
  | .countThread k record =>
    let s := { s with threads := s.threads + 1, slot := Function.update s.slot τ (some record) }
    (s, some (s.resume record k))
  | .enter record =>
    if (s.record record).nesting = 0 then (s, some (.announce record s.globalEpoch))
    else (s.openGuard τ record false, none)
  | .announce record epoch =>
    ((s.setRecord record { s.record record with state := some epoch, since := s.globalEpoch }).openGuard
      τ record true, none)
  | .retire x record =>
    (s, some (.pushBag { x with tag := s.globalEpoch } record s.globalEpoch))
  | .pushBag x record epoch =>
    (s.setBag record (ringIndex epoch) ((s.record record).bags (ringIndex epoch) ++ [x]),
      some (.countRetired x.stamp))
  | .countRetired stamp => ({ s with retired := s.retired + 1 }, some (.countAttempt stamp))
  | .countAttempt stamp =>
    let s' := { s with sinceAttempt := s.sinceAttempt + 1 }
    if s.sinceAttempt + 1 ≥ reclaimInterval then (s', some (.resetAttempt stamp))
    else (s'.finish (.reclaim (some stamp)), none)
  | .resetAttempt stamp => ({ s with sinceAttempt := 0 }, some (.tryAdvance (.reclaim (some stamp))))
  | .tryAdvance task => (s, some (.scanHead task s.globalEpoch))
  | .scanHead task epoch => (s, some (.scan task epoch s.records))
  | .scan task epoch (r :: rest) =>
    match (s.record r).state with
    | none => (s, some (.scan task epoch rest))
    | some announced =>
      if announced ≠ epoch then (s, some (.countFailed task)) else (s, some (.scan task epoch rest))
  | .scan task epoch [] =>
    if s.globalEpoch = epoch then ({ s with globalEpoch := epoch + 1 }, some (.countAdvance task))
    else (s, some (s.advanced τ task))
  | .countFailed task =>
    let s := { s with failedAdvances := s.failedAdvances + 1 }
    match task with
    | .reclaim within => (s.finish (.reclaim within), none)
    | .synchronize before rotation => (s, some (.tryAdvance (.synchronize before rotation)))
  | .countAdvance task =>
    let s := { s with advances := s.advances + 1 }
    (s, some (s.advanced τ task))
  | .reclaimEpoch within record =>
    (s, some (s.freeBag (.reclaim within) record (ringIndex (s.globalEpoch + 1))))
  | .free task record source bag i =>
    match bag[i]? with
    | some x => ({ s with freed := x :: s.freed }, some (.free task record source bag (i + 1)))
    | none =>
      let s := s.clear record source
      if bag.length ≠ 0 then (s, some (.countReclaimed task record source bag.length))
      else s.afterFree record task source
  | .countReclaimed task record source count =>
    { s with reclaimed := s.reclaimed + count }.afterFree record task source
  | .lockOrphans task record =>
    if s.orphanMutex.isSome then (s, some (.lockOrphans task record))
    else ({ s with orphanMutex := some τ }, some (.swapOrphans task record))
  | .swapOrphans task record =>
    ({ s with orphans := [] }, some (.unlockOrphans task record s.orphans))
  | .unlockOrphans task record adopted =>
    let s := { s with orphanMutex := none }
    if adopted.isEmpty then (s.finish task, none)
    else (s, some (.free task record .adopted adopted 0))
  | .exitLock record =>
    if s.orphanMutex.isSome then (s, some (.exitLock record))
    else ({ s with orphanMutex := some τ }, some (.exitMove record 0))
  | .exitMove record k =>
    ({ s.setBag record k [] with orphans := s.orphans ++ (s.record record).bags k },
      some (if k = 2 then .exitUnlock record else .exitMove record (k + 1)))
  | .exitUnlock record => ({ s with orphanMutex := none }, some (.exitState record))
  | .exitState record =>
    (s.setRecord record { s.record record with state := none }, some (.exitInUse record))
  | .exitInUse record =>
    ({ s.setRecord record { s.record record with inUse := false, owner := none } with
      slot := Function.update s.slot τ none }, none)

/-- The destructor of the innermost guard of `τ`: `--nesting` and, for the outermost, `unpin`. -/
def leave (s : EpochDomain T α) (τ : T) (r : Nat) (g : ReadGuard) (rest : List ReadGuard) :
    EpochDomain T α :=
  { s.setRecord r { s.record r with
      nesting := (s.record r).nesting - 1
      state := if g.outermost then none else (s.record r).state } with
    guards := Function.update s.guards τ rest }

/-- Thread `τ`, between two calls, makes one. Guards are scoped: the innermost is left first, and a
    thread ends with none open. -/
def call (s : EpochDomain T α) (τ : T) : Call α → Option (EpochDomain T α × Option (Pc α))
  | .enter => some (s, some (s.localRecord τ .enter))
  | .leave =>
    match s.guards τ, s.slot τ with
    | g :: rest, some r => some (s.leave τ r g rest, none)
    | _, _ => none
  | .retire none => some (s, none)
  | .retire (some pointer) =>
    let x := { payload := pointer, stamp := s.issued.length, born := s.nextGuard, tag := 0 }
    let s := { s with issued := x :: s.issued }
    some (s, some (s.localRecord τ (.retire x)))
  | .tryReclaim => some (s, some (.tryAdvance (.reclaim none)))
  | .synchronize => some (s, some (.tryAdvance (.synchronize s.completed 0)))
  | .exit =>
    if s.guards τ = [] then
      match s.slot τ with
      | none => some (s, none)
      | some r => some (s, some (.exitLock r))
    else none

/-- The deleters `~epoch_domain` runs. -/
def destroy (s : EpochDomain T α) : List (Retiree α) :=
  (s.records.flatMap fun r => (List.finRange 3).flatMap (s.record r).bags) ++ s.orphans

/-- `pending()` -/
def pending (s : EpochDomain T α) : Nat :=
  (s.records.map fun r => ((List.finRange 3).map fun k => ((s.record r).bags k).length).sum).sum +
    s.orphans.length

-- the equations of the steps, made once for all the proofs that take a step apart
attribute [local simp] setRecord setBag openGuard leave step call

end EpochDomain

/-- The domain and where its threads are. -/
structure EpochSystem (T α : Type*) where
  dom : EpochDomain T α
  pc : T → Option (Pc α)

namespace EpochSystem
variable {T α : Type*} [DecidableEq T]

inductive Action (T α : Type*) where
  | call (τ : T) (c : Call α)
  | step (τ : T) (weak : Bool)

def init : EpochSystem T α := ⟨.init, fun _ => none⟩

/-- A thread that has ended leaves its place to a new one. -/
def act (s : EpochSystem T α) : Action T α → Option (EpochSystem T α)
  | .call τ c =>
    match s.pc τ with
    | some _ => none
    | none => (s.dom.call τ c).map fun x => ⟨x.1, Function.update s.pc τ x.2⟩
  | .step τ weak => (s.pc τ).map fun pc =>
      let x := s.dom.step τ weak pc
      ⟨x.1, Function.update s.pc τ x.2⟩

end EpochSystem

end RcuFib
