import RcuFib.Epoch.System
import RcuFib.Library.LinkedList

/-! The list of thread records, pointer by pointer.

    `EpochDomain` models a pointer into the list by the list from that record on. Here the list is
    `records_` and the `next` of every record, and whoever walks it, in `local_record` or in
    `try_advance`, loads one pointer at a time. A push is an allocation, a load of the head, and a loop of
    a store to `next` and a CAS. Every state that is reached this way `Refines` one that `EpochSystem`
    reaches, so a record has one owner and is clean when it gets one; what is added is that the pointers
    never lose a record. -/

namespace RcuFib

open Trace LinkedList

/-- `epoch_domain` with its list of records. -/
structure LinkedDomain (T α : Type*) where
  /-- all but the links; here its `records` is a ghost, the records pushed so far -/
  core : EpochDomain T α
  /-- `records_` -/
  head : Option Nat
  /-- `thread_record::next` of each record -/
  next : Nat → Option Nat

inductive LinkedPc (α : Type*) where
  /-- `local_record`: `records_.load(acquire)` -/
  | loadRecords (k : After α)
  /-- `candidate->in_use.compare_exchange_strong`, unless `candidate` is null -/
  | claim (k : After α) (candidate : Option Nat)
  /-- `candidate->next.load` -/
  | follow (k : After α) (candidate : Nat)
  /-- `new thread_record()` -/
  | newRecord (k : After α)
  /-- `records_.load(relaxed)` -/
  | loadHead (k : After α) (record : Nat)
  /-- `record->next.store(head)` -/
  | storeNext (k : After α) (record : Nat) (head : Option Nat)
  /-- `records_.compare_exchange_weak(head, record)` -/
  | publish (k : After α) (record : Nat) (head : Option Nat)
  /-- `try_advance`: `records_.load(acquire)` -/
  | scanHead (task : Task) (epoch : Nat)
  /-- `record->state.load`, or the CAS on the epoch where `record` is null -/
  | scan (task : Task) (epoch : Nat) (record : Option Nat)
  /-- `record->next.load` -/
  | scanNext (task : Task) (epoch : Nat) (record : Nat)
  /-- a position away from the list -/
  | body (pc : Pc α)

/-- The position a call or a step leads to; a list is cut down to the pointer to it. -/
def LinkedPc.ofPc {α : Type*} : Pc α → LinkedPc α
  | .loadRecords k => .loadRecords k
  | .claim k candidates => .claim k candidates.head?
  | .newRecord k => .newRecord k
  | .publish k record head => .storeNext k record head.head?
  | .scanHead task epoch => .scanHead task epoch
  | .scan task epoch rest => .scan task epoch rest.head?
  | pc => .body pc

namespace LinkedDomain
variable {T α : Type*} [DecidableEq T]

def init : LinkedDomain T α := ⟨.init, none, fun _ => none⟩

/-- What happens away from the list. -/
def lift (s : LinkedDomain T α) (x : EpochDomain T α × Option (Pc α)) :
    LinkedDomain T α × Option (LinkedPc α) :=
  ({ s with core := x.1 }, x.2.map .ofPc)

/-- One step of thread `τ`. `weak` is a spurious failure of `compare_exchange_weak`. -/
def step (s : LinkedDomain T α) (τ : T) (weak : Bool) :
    LinkedPc α → LinkedDomain T α × Option (LinkedPc α)
  | .loadRecords k => (s, some (.claim k s.head))
  | .claim k none => (s, some (.newRecord k))
  | .claim k (some candidate) =>
    if (s.core.record candidate).inUse then (s, some (.follow k candidate))
    else
      let core := { s.core.setRecord candidate
          { s.core.record candidate with inUse := true, nesting := 0, owner := some τ } with
        slot := Function.update s.core.slot τ (some candidate) }
      s.lift (core, some (core.resume candidate k))
  | .follow k candidate => (s, some (.claim k (s.next candidate)))
  | .newRecord k =>
    let record := s.core.nextRecord
    ({ s with
        core := { s.core.setRecord record (.fresh τ) with nextRecord := record + 1 }
        next := Function.update s.next record none },
      some (.loadHead k record))
  | .loadHead k record => (s, some (.storeNext k record s.head))
  | .storeNext k record head =>
    ({ s with next := Function.update s.next record head }, some (.publish k record head))
  | .publish k record head =>
    if s.head = head ∧ weak = false then
      ({ s with head := some record, core := { s.core with records := record :: s.core.records } },
        some (.body (.countThread k record)))
    else (s, some (.storeNext k record s.head))
  | .scanHead task epoch => (s, some (.scan task epoch s.head))
  | .scan task epoch (some record) =>
    match (s.core.record record).state with
    | none => (s, some (.scanNext task epoch record))
    | some announced =>
      if announced ≠ epoch then (s, some (.body (.countFailed task)))
      else (s, some (.scanNext task epoch record))
  | .scan task epoch none =>
    if s.core.globalEpoch = epoch then
      s.lift ({ s.core with globalEpoch := epoch + 1 }, some (.countAdvance task))
    else s.lift (s.core, some (s.core.advanced τ task))
  | .scanNext task epoch record => (s, some (.scan task epoch (s.next record)))
  | .body pc => s.lift (s.core.step τ weak pc)

end LinkedDomain

/-- The domain, with its list, and where its threads are. -/
structure LinkedSystem (T α : Type*) where
  dom : LinkedDomain T α
  pc : T → Option (LinkedPc α)

namespace LinkedSystem
variable {T α : Type*} [DecidableEq T]

def init : LinkedSystem T α := ⟨.init, fun _ => none⟩

def act (s : LinkedSystem T α) : EpochSystem.Action T α → Option (LinkedSystem T α)
  | .call τ c =>
    match s.pc τ with
    | some _ => none
    | none => (s.dom.core.call τ c).map fun x =>
      ⟨(s.dom.lift x).1, Function.update s.pc τ (s.dom.lift x).2⟩
  | .step τ weak => (s.pc τ).map fun pc =>
      let x := s.dom.step τ weak pc
      ⟨x.1, Function.update s.pc τ x.2⟩

end LinkedSystem

/-! ### Positions away from the list -/

/-- The position reads or changes the list, or holds a pointer into it. -/
def Pc.AtList {α : Type*} : Pc α → Prop
  | .loadRecords _ | .claim _ _ | .newRecord _ | .publish _ _ _ | .scanHead _ _ | .scan _ _ _ => True
  | _ => False

/-- The position holds a pointer into the list. -/
def Pc.InList {α : Type*} : Pc α → Prop
  | .claim _ _ | .publish _ _ _ | .scan _ _ _ => True
  | _ => False

namespace EpochDomain
variable {T α : Type*} {s : EpochDomain T α} {τ : T} {rec : Nat} {pc : Pc α}

/-- The list and the allocator are left alone, and the way into the list is from its head. -/
structure Outside (s : EpochDomain T α) (x : EpochDomain T α × Option (Pc α)) : Prop where
  records : x.1.records = s.records
  nextRecord : x.1.nextRecord = s.nextRecord
  pc : ∀ pc ∈ x.2, ¬pc.InList

theorem Outside.go {s' : EpochDomain T α} (hr : s'.records = s.records)
    (hn : s'.nextRecord = s.nextRecord) (hpc : ¬pc.InList) : s.Outside (s', some pc) :=
  ⟨hr, hn, fun _ hp => by cases hp; exact hpc⟩

theorem Outside.returns {s' : EpochDomain T α} (hr : s'.records = s.records)
    (hn : s'.nextRecord = s.nextRecord) : s.Outside (s', none) := ⟨hr, hn, nofun⟩

theorem resume_outside (s : EpochDomain T α) (rec : Nat) (k : After α) :
    ¬(s.resume rec k).InList ∧ ¬(s.resume rec k).AtList := by
  cases k with
  | enter | retire => exact ⟨id, id⟩
  | task task => cases task <;> exact ⟨id, id⟩

theorem localRecord_outside (s : EpochDomain T α) (τ : T) (k : After α) :
    ¬(s.localRecord τ k).InList := by
  unfold localRecord
  split
  · exact (s.resume_outside _ k).1
  · exact id

theorem advanced_outside (s : EpochDomain T α) (τ : T) (task : Task) :
    ¬(s.advanced τ task).InList := by
  cases task with
  | reclaim within => exact s.localRecord_outside τ _
  | synchronize before rotation =>
    simp only [advanced]
    split
    · exact id
    · exact s.localRecord_outside τ _

theorem finish_outside (s : EpochDomain T α) (task : Task) :
    (s.finish task).records = s.records ∧ (s.finish task).nextRecord = s.nextRecord := by
  unfold finish
  split <;> exact ⟨rfl, rfl⟩

theorem afterFree_outside (s : EpochDomain T α) (r : Nat) (task : Task) (source : Source) :
    s.Outside (s.afterFree r task source) := by
  cases source with
  | adopted =>
    obtain ⟨hr, hn⟩ := s.finish_outside task
    exact .returns hr hn
  | bag k =>
    cases task with
    | reclaim within => exact .go rfl rfl id
    | synchronize before rotation =>
      simp only [afterFree]
      split <;> exact .go rfl rfl id

theorem Outside.after {s' : EpochDomain T α} {x : EpochDomain T α × Option (Pc α)}
    (hr : s'.records = s.records) (hn : s'.nextRecord = s.nextRecord) (h : s'.Outside x) :
    s.Outside x := ⟨h.records.trans hr, h.nextRecord.trans hn, h.pc⟩

variable [DecidableEq T]

theorem step_outside (s : EpochDomain T α) (τ : T) (weak : Bool) (hpc : ¬pc.AtList) :
    s.Outside (s.step τ weak pc) := by
  cases pc with
  | loadRecords | claim | newRecord | publish | scanHead | scan => exact absurd trivial hpc
  | countThread k r => exact .go rfl rfl (resume_outside _ r k).1
  | enter r =>
    simp only [step]
    split
    · exact .go rfl rfl id
    · exact .returns rfl rfl
  | countAttempt stamp =>
    simp only [step]
    split
    · exact .go rfl rfl id
    · exact .returns rfl rfl
  | countFailed task =>
    cases task with
    | reclaim within =>
      obtain ⟨hr, hn⟩ := finish_outside { s with failedAdvances := s.failedAdvances + 1 } (.reclaim within)
      exact .returns hr hn
    | synchronize => exact .go rfl rfl id
  | countAdvance task => exact .go rfl rfl (advanced_outside _ τ task)
  | free task r source bag i =>
    have hclear : (s.clear r source).records = s.records ∧
        (s.clear r source).nextRecord = s.nextRecord := by
      cases source <;> exact ⟨rfl, rfl⟩
    simp only [step]
    split
    · exact .go rfl rfl id
    · split
      · exact .go hclear.1 hclear.2 id
      · exact .after hclear.1 hclear.2 (afterFree_outside _ r task source)
  | countReclaimed task r source count =>
    have hcounted := afterFree_outside { s with reclaimed := s.reclaimed + count } r task source
    exact ⟨hcounted.records, hcounted.nextRecord, hcounted.pc⟩
  | lockOrphans | exitLock =>
    simp only [step]
    split <;> exact .go rfl rfl id
  | unlockOrphans task r adopted =>
    simp only [step]
    split
    · obtain ⟨hr, hn⟩ := finish_outside { s with orphanMutex := none } task
      exact .returns hr hn
    · exact .go rfl rfl id
  | exitMove r k =>
    simp only [step]
    split <;> exact .go rfl rfl id
  | announce | exitInUse => exact .returns rfl rfl
  | _ => exact .go rfl rfl id

theorem call_outside {c : Call α} {x : EpochDomain T α × Option (Pc α)} (hc : s.call τ c = some x) :
    s.Outside x := by
  cases c with
  | enter => cases hc; exact .go rfl rfl (s.localRecord_outside τ .enter)
  | leave =>
    simp only [call] at hc
    split at hc
    · cases hc
      exact .returns rfl rfl
    · cases hc
  | retire p =>
    cases p with
    | none => cases hc; exact .returns rfl rfl
    | some p => cases hc; exact .go rfl rfl (localRecord_outside _ τ _)
  | tryReclaim | synchronize => cases hc; exact .go rfl rfl id
  | exit =>
    simp only [call] at hc
    split at hc
    · split at hc
      · cases hc
        exact .returns rfl rfl
      · cases hc
        exact .go rfl rfl id
    · cases hc

end EpochDomain

/-! ### Pointers and lists -/

/-- The record the thread has allocated and not yet pushed. -/
def LinkedPc.pushing {α : Type*} : LinkedPc α → Option Nat
  | .loadHead _ record | .storeNext _ record _ | .publish _ record _ => some record
  | _ => none

/-- The record of a thread that has none in its slot yet. -/
def LinkedPc.holding {α : Type*} : LinkedPc α → Option Nat
  | .body (.countThread _ record) => some record
  | pc => pc.pushing

namespace LinkedDomain
variable {T α : Type*} {s s' : LinkedDomain T α} {τ : T} {p : Option Nat} {l : List Nat}

/-- The pointer heads this list, and the records of it have been pushed. -/
structure Points (s : LinkedDomain T α) (p : Option Nat) (l : List Nat) : Prop where
  chain : Chain s.next p l
  pushed : ∀ rec ∈ l, rec ∈ s.core.records

/-- A position, and what it is where pointers are lists. The load of the head and the store to `next`
    belong to the attempts to publish; what list the next attempt goes by is open before the load. -/
inductive At (s : LinkedDomain T α) : LinkedPc α → Pc α → Prop where
  | loadRecords (k) : At s (.loadRecords k) (.loadRecords k)
  | claim (k) {p l} : s.Points p l → At s (.claim k p) (.claim k l)
  | follow (k) {c l} : c ∈ s.core.records → s.Points (s.next c) l → At s (.follow k c) (.claim k l)
  | newRecord (k) : At s (.newRecord k) (.newRecord k)
  | loadHead (k rec l) : At s (.loadHead k rec) (.publish k rec l)
  | storeNext (k rec) {p l} : s.Points p l → At s (.storeNext k rec p) (.publish k rec l)
  | publish (k rec) {p l} : s.Points p l → s.next rec = p → At s (.publish k rec p) (.publish k rec l)
  | scanHead (task e) : At s (.scanHead task e) (.scanHead task e)
  | scan (task e) {p l} : s.Points p l → At s (.scan task e p) (.scan task e l)
  | scanNext (task e) {c l} : c ∈ s.core.records → s.Points (s.next c) l →
    At s (.scanNext task e c) (.scan task e l)
  | body {pc} : ¬pc.AtList → At s (.body pc) pc

theorem Points.mono (h : s.Points p l) (hn : ∀ rec ∈ s.core.records, s'.next rec = s.next rec)
    (hr : ∀ rec ∈ s.core.records, rec ∈ s'.core.records) : s'.Points p l :=
  ⟨h.chain.congr fun rec hrec => hn rec (h.pushed rec hrec), fun rec hrec => hr rec (h.pushed rec hrec)⟩

/-- What follows a record of the list. -/
theorem Points.uncons {c : Nat} (h : s.Points (some c) l) : ∃ rest, l = c :: rest ∧
    c ∈ s.core.records ∧ s.Points (s.next c) rest := by
  obtain ⟨rest, rfl, hrest⟩ := h.chain.uncons
  exact ⟨rest, rfl, h.pushed c List.mem_cons_self, hrest,
    fun rec hrec => h.pushed rec (List.mem_cons_of_mem _ hrec)⟩

/-- A way into the list from its head is the same position in both. -/
theorem at_ofPc (s : LinkedDomain T α) {pc : Pc α} (hpc : ¬pc.InList) : s.At (.ofPc pc) pc := by
  cases pc with
  | claim | publish | scan => exact absurd trivial hpc
  | loadRecords k => exact .loadRecords k
  | newRecord k => exact .newRecord k
  | scanHead task e => exact .scanHead task e
  | _ => exact .body id

theorem rel_ofPc (s : LinkedDomain T α) {q : Option (Pc α)} (hq : ∀ pc ∈ q, ¬pc.InList) :
    Option.Rel s.At (q.map .ofPc) q := by
  cases q with
  | none => exact .none
  | some pc => exact .some (s.at_ofPc (hq pc rfl))

/-- A position outlives what others do: they push records and write to the `next` of their own. -/
theorem At.mono {pc : LinkedPc α} {pc' : Pc α} (h : s.At pc pc')
    (hn : ∀ rec, rec ∈ s.core.records ∨ pc.pushing = some rec → s'.next rec = s.next rec)
    (hr : ∀ rec ∈ s.core.records, rec ∈ s'.core.records) : s'.At pc pc' := by
  have hpoints : ∀ {p l}, s.Points p l → s'.Points p l := fun hp =>
    hp.mono (fun rec hrec => hn rec (.inl hrec)) hr
  cases h with
  | loadRecords k => exact .loadRecords k
  | claim k hp => exact .claim k (hpoints hp)
  | follow k hc hp =>
    rw [← hn _ (.inl hc)] at hp
    exact .follow k (hr _ hc) (hpoints hp)
  | newRecord k => exact .newRecord k
  | loadHead k rec l => exact .loadHead k rec l
  | storeNext k rec hp => exact .storeNext k rec (hpoints hp)
  | publish k rec hp hnext => exact .publish k rec (hpoints hp) ((hn rec (.inr rfl)).trans hnext)
  | scanHead task e => exact .scanHead task e
  | scan task e hp => exact .scan task e (hpoints hp)
  | scanNext task e hc hp =>
    rw [← hn _ (.inl hc)] at hp
    exact .scanNext task e (hr _ hc) (hpoints hp)
  | body hpc => exact .body hpc

/-- A record about to be pushed is one about to be published. -/
theorem At.pushing {pc : LinkedPc α} {pc' : Pc α} {rec : Nat} (h : s.At pc pc')
    (hp : pc.pushing = some rec) : ∃ k l, pc' = .publish k rec l := by
  cases h with
  | loadHead k r l | storeNext k r | publish k r =>
    obtain rfl := Option.some.inj hp
    exact ⟨k, _, rfl⟩
  | _ => cases hp

theorem At.holding {pc : LinkedPc α} {pc' : Pc α} {rec : Nat} (h : s.At pc pc')
    (hp : pc.holding = some rec) : (∃ k l, pc' = .publish k rec l) ∨ ∃ k, pc' = .countThread k rec := by
  cases h with
  | loadHead k r l | storeNext k r | publish k r =>
    obtain rfl := Option.some.inj hp
    exact .inl ⟨k, _, rfl⟩
  | body =>
    cases pc' with
    | countThread k r =>
      obtain rfl := Option.some.inj hp
      exact .inr ⟨k, rfl⟩
    | _ => cases hp
  | _ => cases hp

/-! ### One step -/

/-- A step of `τ` from a position that is `pc'` in the model without pointers. -/
structure Tracked [DecidableEq T] (s : LinkedDomain T α) (τ : T) (pc' : Pc α)
    (x : LinkedDomain T α × Option (LinkedPc α)) : Prop where
  list : x.1.Points x.1.head x.1.core.records
  pushed : ∀ rec ∈ s.core.records, rec ∈ x.1.core.records
  next : ∀ rec, x.1.next rec = s.next rec ∨
    rec ∉ s.core.records ∧ ∀ σ ≠ τ, (s.core.record rec).owner ≠ some σ
  sim : (x.1.core = s.core ∧ ∃ pc, x.2 = some pc ∧ x.1.At pc pc') ∨
    ∃ weak, x.1.core = (s.core.step τ weak pc').1 ∧
      Option.Rel x.1.At x.2 (s.core.step τ weak pc').2

variable [DecidableEq T]

/-- The thread moves within the list. -/
theorem Tracked.walk {pc : LinkedPc α} {pc' : Pc α} (hlist : s.Points s.head s.core.records)
    (h : s.At pc pc') : s.Tracked τ pc' (s, some pc) :=
  ⟨hlist, fun _ => id, fun _ => .inl rfl, .inl ⟨rfl, pc, rfl, h⟩⟩

/-- The thread does what it does without pointers, and the links stay. -/
theorem Tracked.same {pc' : Pc α} (weak : Bool) {x : EpochDomain T α × Option (Pc α)}
    {q : Option (LinkedPc α)} (hlist : s.Points s.head s.core.records)
    (hx : x = s.core.step τ weak pc') (hr : x.1.records = s.core.records)
    (hq : Option.Rel (At { s with core := x.1 }) q x.2) :
    s.Tracked τ pc' ({ s with core := x.1 }, q) := by
  subst hx
  refine ⟨?_, fun rec hrec => ?_, fun _ => .inl rfl, .inr ⟨weak, rfl, hq⟩⟩
  · rw [hr]
    exact hlist.mono (fun _ _ => rfl) fun rec hrec => hr ▸ hrec
  · exact hr ▸ hrec

/-- So it is with everything away from the list. -/
theorem Tracked.lift {pc' : Pc α} (weak : Bool) {x : EpochDomain T α × Option (Pc α)}
    (hlist : s.Points s.head s.core.records) (hx : x = s.core.step τ weak pc')
    (hout : s.core.Outside x) : s.Tracked τ pc' (s.lift x) :=
  .same weak hlist hx hout.records (rel_ofPc _ hout.pc)

theorem tracked_step {pc : LinkedPc α} {pc' : Pc α} (h : s.core.Inv)
    (hlist : s.Points s.head s.core.records) (hok : s.core.Ok τ pc') (hat : s.At pc pc')
    (weak : Bool) : s.Tracked τ pc' (s.step τ weak pc) := by
  cases hat with
  | loadRecords k => exact .same weak hlist rfl rfl (.some (.claim k hlist))
  | @claim k p l hp =>
    cases p with
    | none =>
      obtain rfl := hp.chain.eq_nil
      exact .same weak hlist rfl rfl (.some (.newRecord k))
    | some c =>
      obtain ⟨rest, rfl, hc, hrest⟩ := hp.uncons
      simp only [step]
      split
      · next hu =>
        refine .same weak hlist (x := (s.core, some (.claim k rest))) ?_ rfl (.some (.follow k hc hrest))
        simp [EpochDomain.step, hu]
      · next hu =>
        refine .lift weak hlist ?_ (.go rfl rfl (EpochDomain.resume_outside _ c k).1)
        simp [EpochDomain.step, hu]
  | follow k hc hp => exact .walk hlist (.claim k hp)
  | newRecord k =>
    have hfresh : s.core.nextRecord ∉ s.core.records := fun hrec => lt_irrefl _ (h.records_lt _ hrec)
    refine ⟨hlist.mono (fun rec hrec => ?_) fun _ => id, fun _ => id, fun rec => ?_,
      .inr ⟨weak, rfl, .some (.loadHead k _ _)⟩⟩
    · exact Function.update_of_ne (ne_of_mem_of_not_mem hrec hfresh) ..
    · rcases eq_or_ne rec s.core.nextRecord with rfl | hne
      · exact .inr ⟨hfresh, fun σ _ ho => lt_irrefl _ (h.owner_lt _ σ ho)⟩
      · exact .inl (Function.update_of_ne hne ..)
  | loadHead k rec l =>
    -- as if a first attempt to publish had failed
    refine .same true hlist (x := (s.core, some (.publish k rec s.core.records))) ?_ rfl
      (.some (.storeNext k rec hlist))
    simp [EpochDomain.step]
  | @storeNext k rec p l hp =>
    obtain ⟨-, -, hclean, hnew⟩ := hok
    have hkept : ∀ r ∈ s.core.records, Function.update s.next rec p r = s.next r := by
      intro r hr
      exact Function.update_of_ne (ne_of_mem_of_not_mem hr hnew) ..
    have hpoints : Points { s with next := Function.update s.next rec p } p l :=
      hp.mono hkept fun _ => id
    refine ⟨hlist.mono hkept fun _ => id, fun _ => id, fun r => ?_,
      .inl ⟨rfl, _, rfl, .publish k rec hpoints (Function.update_self ..)⟩⟩
    rcases eq_or_ne r rec with rfl | hne
    · refine .inr ⟨hnew, fun σ hσ ho => hσ ?_⟩
      exact Option.some.inj (ho.symm.trans hclean.owner)
    · exact .inl (Function.update_of_ne hne ..)
  | @publish k rec p l hp hnext =>
    have hptr : s.head = p ↔ s.core.records = l := hlist.chain.ptr_eq_iff hp.chain
    simp only [step]
    split
    · next hcas =>
      obtain ⟨rfl, rfl⟩ := hcas
      obtain rfl := hptr.mp rfl
      refine ⟨⟨?_, fun _ => id⟩, fun _ hr => List.mem_cons_of_mem _ hr, fun _ => .inl rfl,
        .inr ⟨false, ?_⟩⟩
      · refine .cons ?_
        rw [hnext]
        exact hlist.chain
      · have hpush : s.core.step τ false (.publish k rec s.core.records) =
            ({ s.core with records := rec :: s.core.records }, some (.countThread k rec)) := by
          simp [EpochDomain.step]
        rw [hpush]
        exact ⟨rfl, .some (.body id)⟩
    · next hcas =>
      rw [hptr] at hcas
      refine .same weak hlist (x := (s.core, some (.publish k rec s.core.records))) ?_ rfl
        (.some (.storeNext k rec hlist))
      simp [EpochDomain.step, hcas]
  | scanHead task e => exact .same weak hlist rfl rfl (.some (.scan task e hlist))
  | @scan task e p l hp =>
    cases p with
    | none =>
      obtain rfl := hp.chain.eq_nil
      simp only [step]
      split
      · next he =>
        refine .lift weak hlist ?_ (.go rfl rfl id)
        simp [EpochDomain.step, he]
      · next he =>
        refine .lift weak hlist ?_ (.go rfl rfl (EpochDomain.advanced_outside _ τ task))
        simp [EpochDomain.step, he]
    | some c =>
      obtain ⟨rest, rfl, hc, hrest⟩ := hp.uncons
      have hgoes : ∀ {q : LinkedPc α} {q' : Pc α}, s.core.step τ weak (.scan task e (c :: rest)) =
          (s.core, some q') → s.At q q' → s.Tracked τ (.scan task e (c :: rest)) (s, some q) :=
        fun hx hq => .same weak hlist hx.symm rfl (.some hq)
      simp only [step]
      split
      · next hstate => exact hgoes (by simp [EpochDomain.step, hstate]) (.scanNext task e hc hrest)
      · next announced hstate =>
        split
        · next hne => exact hgoes (by simp [EpochDomain.step, hstate, hne]) (.body id)
        · next heq => exact hgoes (by simp [EpochDomain.step, hstate, heq]) (.scanNext task e hc hrest)
  | scanNext task e hc hp => exact .walk hlist (.scan task e hp)
  | body hpc => exact .lift weak hlist rfl (s.core.step_outside τ weak hpc)

end LinkedDomain

/-! ### Where the records are -/

namespace EpochDomain
variable {T α : Type*} [DecidableEq T] {s : EpochDomain T α} {τ σ : T} {rec : Nat} {pc : Pc α}

/-- A record is allocated in one step and pushed in another, and no other step concerns the list. -/
theorem list_cases (s : EpochDomain T α) (τ : T) (weak : Bool) (pc : Pc α) :
    ((s.step τ weak pc).1.records = s.records ∧ (s.step τ weak pc).1.nextRecord = s.nextRecord ∧
      ∀ k rec l, pc ≠ .publish k rec l) ∨
    (∃ k, pc = .newRecord k ∧ (s.step τ weak pc).1.records = s.records ∧
      (s.step τ weak pc).1.nextRecord = s.nextRecord + 1 ∧
      (s.step τ weak pc).2 = some (.publish k s.nextRecord s.records)) ∨
    ∃ k rec l, pc = .publish k rec l ∧ (s.step τ weak pc).1.nextRecord = s.nextRecord ∧
      ((s.step τ weak pc).1.records = rec :: s.records ∨ (s.step τ weak pc).1.records = s.records ∧
        (s.step τ weak pc).2 = some (.publish k rec s.records)) := by
  by_cases hlist : pc.AtList
  · cases pc with
    | newRecord k => exact .inr (.inl ⟨k, rfl, rfl, rfl, rfl⟩)
    | publish k rec l =>
      refine .inr (.inr ⟨k, rec, l, rfl, ?_⟩)
      simp only [step]
      split
      · next hcas => exact ⟨rfl, .inl (by rw [hcas.1])⟩
      · exact ⟨rfl, .inr ⟨rfl, rfl⟩⟩
    | claim k cs =>
      left
      cases cs with
      | nil => exact ⟨rfl, rfl, nofun⟩
      | cons c rest => simp only [step]; split <;> exact ⟨rfl, rfl, nofun⟩
    | scan task e rest =>
      left
      cases rest with
      | nil => simp only [step]; split <;> exact ⟨rfl, rfl, nofun⟩
      | cons c rest =>
        simp only [step]
        split
        · exact ⟨rfl, rfl, nofun⟩
        · split <;> exact ⟨rfl, rfl, nofun⟩
    | loadRecords | scanHead => exact .inl ⟨rfl, rfl, nofun⟩
    | _ => exact hlist.elim
  · have hout := s.step_outside τ weak hlist
    refine .inl ⟨hout.records, hout.nextRecord, ?_⟩
    rintro k rec l rfl
    exact hlist trivial

/-- A thread that gets hold of a record finds it clean. -/
theorem obtained_step (h : s.Inv) (hok : s.Ok τ pc) (weak : Bool) (hne : s.slot σ ≠ some rec)
    (hs : (s.step τ weak pc).1.slot σ = some rec) : (s.step τ weak pc).1.Clean σ rec := by
  rcases s.slot_cases τ weak pc with he | ⟨k, c, rest, rfl, hfree, he⟩ | ⟨k, c, rfl, he⟩ | ⟨c, -, he⟩
  · exact absurd (he ▸ hs) hne
  · rw [he, Function.update_apply] at hs
    split at hs
    · next hσ =>
      obtain rfl := Option.some.inj hs
      obtain ⟨-, hstate, hbags⟩ := h.free hfree
      simp only [step, if_neg hfree]
      refine ⟨?_, ?_, ?_, ?_⟩ <;> simp [setRecord, hσ, hstate, hbags]
    · exact absurd hs hne
  · rw [he, Function.update_apply] at hs
    split at hs
    · next hσ =>
      obtain rfl := Option.some.inj hs
      have hclean := hok.2.2.1
      exact ⟨hσ ▸ hclean.owner, hclean.state, hclean.nesting, hclean.bags⟩
    · exact absurd hs hne
  · rw [he, Function.update_apply] at hs
    split at hs
    · cases hs
    · exact absurd hs hne

end EpochDomain

namespace EpochSystem
variable {T α : Type*} [DecidableEq T] {s s' : EpochSystem T α} {a : Action T α} {τ : T} {rec : Nat}

/-- Every record that has been allocated is in the list or about to be pushed. -/
def Enlisted (s : EpochSystem T α) : Prop := ∀ rec < s.dom.nextRecord,
  rec ∈ s.dom.records ∨ ∃ τ k l, s.pc τ = some (.publish k rec l)

theorem enlisted_act (h : s.Enlisted) (ha : act s a = some s') : s'.Enlisted := by
  obtain ⟨τ, x, rfl, ⟨c, -, hpc, hc⟩ | ⟨weak, pc, -, hpc, rfl⟩⟩ := act_cases ha
  · have hout := EpochDomain.call_outside hc
    intro rec hrec
    rw [hout.nextRecord] at hrec
    rcases h rec hrec with hin | ⟨σ, k, l, hσ⟩
    · exact .inl (hout.records ▸ hin)
    · refine .inr ⟨σ, k, l, ?_⟩
      rcases eq_or_ne σ τ with rfl | hne
      · cases hpc.symm.trans hσ
      · exact (Function.update_of_ne hne ..).trans hσ
  · -- the others still are where they were
    have hother : ∀ {σ k rec l}, s.pc σ = some (.publish k rec l) → σ ≠ τ →
        ∃ σ k l, Function.update s.pc τ (s.dom.step τ weak pc).2 σ = some (.publish k rec l) :=
      fun {σ k rec l} hσ hne => ⟨σ, k, l, (Function.update_of_ne hne ..).trans hσ⟩
    intro rec hrec
    rcases s.dom.list_cases τ weak pc with ⟨hr, hn, hno⟩ | ⟨k, rfl, hr, hn, hx⟩ |
      ⟨k, new, l, rfl, hn, hpush⟩
    · rw [hn] at hrec
      rcases h rec hrec with hin | ⟨σ, k, l, hσ⟩
      · exact .inl (hr ▸ hin)
      · refine .inr (hother hσ ?_)
        rintro rfl
        exact hno k rec l (Option.some.inj (hpc.symm.trans hσ))
    · rw [hn] at hrec
      rcases Nat.lt_succ_iff_lt_or_eq.mp hrec with hlt | rfl
      · rcases h rec hlt with hin | ⟨σ, k', l, hσ⟩
        · exact .inl (hr ▸ hin)
        · refine .inr (hother hσ ?_)
          rintro rfl
          cases hpc.symm.trans hσ
      · exact .inr ⟨τ, k, s.dom.records, (Function.update_self ..).trans hx⟩
    · rw [hn] at hrec
      rcases h rec hrec with hin | ⟨σ, k', l', hσ⟩
      · rcases hpush with hr | ⟨hr, -⟩
        · exact .inl (hr ▸ List.mem_cons_of_mem _ hin)
        · exact .inl (hr ▸ hin)
      · rcases eq_or_ne σ τ with rfl | hne
        · cases hpc.symm.trans hσ
          rcases hpush with hr | ⟨-, hx⟩
          · exact .inl (hr ▸ List.mem_cons_self)
          · exact .inr ⟨σ, k, s.dom.records, (Function.update_self ..).trans hx⟩
        · exact .inr (hother hσ hne)

/-- The list grows by a push at the front. -/
theorem records_act (ha : act s a = some s') : ∃ new, s'.dom.records = new ++ s.dom.records := by
  obtain ⟨τ, x, rfl, ⟨c, -, -, hc⟩ | ⟨weak, pc, -, -, rfl⟩⟩ := act_cases ha
  · exact ⟨[], (EpochDomain.call_outside hc).records⟩
  · rcases s.dom.list_cases τ weak pc with ⟨hr, -⟩ | ⟨k, -, hr, -⟩ | ⟨k, rec, l, -, -, hr | ⟨hr, -⟩⟩
    · exact ⟨[], hr⟩
    · exact ⟨[], hr⟩
    · exact ⟨[rec], hr⟩
    · exact ⟨[], hr⟩

theorem obtained_act (h : s.Inv) (ha : act s a = some s') (hne : s.dom.slot τ ≠ some rec)
    (hs : s'.dom.slot τ = some rec) : s'.dom.Clean τ rec := by
  obtain ⟨σ, x, rfl, ⟨c, -, -, hc⟩ | ⟨weak, pc, -, hpc, rfl⟩⟩ := act_cases ha
  · rw [(EpochDomain.steady_call hc).slot] at hs
    exact absurd hs hne
  · exact EpochDomain.obtained_step h.dom (h.ok σ pc hpc) weak hne hs

end EpochSystem

/-! ### The refinement -/

namespace LinkedSystem
variable {T α : Type*} [DecidableEq T] {c c' : LinkedSystem T α} {s : EpochSystem T α}
  {a : EpochSystem.Action T α}

/-- The domain without pointers is in the same state, every thread at the same place. -/
structure Refines (c : LinkedSystem T α) (s : EpochSystem T α) : Prop where
  core : c.dom.core = s.dom
  list : c.dom.Points c.dom.head c.dom.core.records
  pc : ∀ τ, Option.Rel c.dom.At (c.pc τ) (s.pc τ)

omit [DecidableEq T] in
theorem refines_init : (init : LinkedSystem T α).Refines .init :=
  ⟨rfl, ⟨.nil, nofun⟩, fun _ => .none⟩

omit [DecidableEq T] in
theorem Refines.idle {τ : T} (h : c.Refines s) (hpc : c.pc τ = none) : s.pc τ = none := by
  have hτ := h.pc τ
  rw [hpc] at hτ
  cases hs : s.pc τ with
  | none => rfl
  | some pc' => rw [hs] at hτ; cases hτ

omit [DecidableEq T] in
theorem Refines.busy {τ : T} {pc : LinkedPc α} (h : c.Refines s) (hpc : c.pc τ = some pc) :
    ∃ pc', s.pc τ = some pc' ∧ c.dom.At pc pc' := by
  have hτ := h.pc τ
  rw [hpc] at hτ
  cases hs : s.pc τ with
  | none => rw [hs] at hτ; cases hτ
  | some pc' =>
    rw [hs] at hτ
    cases hτ with
    | some hat => exact ⟨pc', rfl, hat⟩

/-- What is left to show when one thread moves: that the links are in order and it is in its place. -/
theorem Refines.after {τ : T} {y : LinkedDomain T α × Option (LinkedPc α)} {core : EpochDomain T α}
    {q : Option (Pc α)} (h : c.Refines s) (hinv : s.Inv) (hcore : y.1.core = core)
    (hlist : y.1.Points y.1.head y.1.core.records)
    (hpushed : ∀ rec ∈ c.dom.core.records, rec ∈ y.1.core.records)
    (hnext : ∀ rec, y.1.next rec = c.dom.next rec ∨
      rec ∉ c.dom.core.records ∧ ∀ σ ≠ τ, (c.dom.core.record rec).owner ≠ some σ)
    (hq : Option.Rel y.1.At y.2 q) :
    Refines ⟨y.1, Function.update c.pc τ y.2⟩ ⟨core, Function.update s.pc τ q⟩ := by
  refine ⟨hcore, hlist, fun σ => ?_⟩
  rcases eq_or_ne σ τ with rfl | hne
  · simpa using hq
  · simp only [Function.update_of_ne hne]
    cases hpc : c.pc σ with
    | none =>
      rw [h.idle hpc]
      exact .none
    | some pc =>
      obtain ⟨pc', hpc', hat⟩ := h.busy hpc
      rw [hpc']
      refine .some (hat.mono (fun rec hrec => ?_) hpushed)
      rcases hnext rec with hsame | ⟨hnew, hforeign⟩
      · exact hsame
      · -- the record another thread is about to push is its own
        rcases hrec with hin | hpushing
        · exact absurd hin hnew
        · obtain ⟨k, l, rfl⟩ := hat.pushing hpushing
          have howner := (hinv.ok σ _ hpc').2.2.1.owner
          rw [← h.core] at howner
          exact absurd howner (hforeign σ hne)

/-- A linked domain does in one action what the domain does in one or none. -/
theorem refines_act (h : c.Refines s) (hinv : s.Inv) (ha : act c a = some c') :
    ∃ s', (s' = s ∨ Step EpochSystem.act s s') ∧ c'.Refines s' := by
  cases a with
  | call τ call =>
    simp only [act] at ha
    split at ha
    · cases ha
    · next hpc =>
      obtain ⟨x, hx, rfl⟩ := Option.map_eq_some_iff.mp ha
      have hout := EpochDomain.call_outside hx
      have hidle := h.idle hpc
      have hrecords : ∀ rec ∈ c.dom.core.records, rec ∈ x.1.records := fun rec hrec =>
        hout.records ▸ hrec
      refine ⟨⟨x.1, Function.update s.pc τ x.2⟩, .inr ⟨.call τ call, ?_⟩, ?_⟩
      · rw [h.core] at hx
        simp [EpochSystem.act, hidle, hx]
      · have hlist : (c.dom.lift x).1.Points c.dom.head x.1.records := by
          rw [hout.records]
          exact h.list.mono (fun _ _ => rfl) hrecords
        refine h.after hinv rfl hlist hrecords (fun _ => .inl rfl) ?_
        exact LinkedDomain.rel_ofPc _ hout.pc
  | step τ weak =>
    obtain ⟨pc, hpc, rfl⟩ := Option.map_eq_some_iff.mp ha
    obtain ⟨pc', hpc', hat⟩ := h.busy hpc
    have hok := hinv.ok τ pc' hpc'
    rw [← h.core] at hok
    have ht : c.dom.Tracked τ pc' (c.dom.step τ weak pc) :=
      LinkedDomain.tracked_step (h.core ▸ hinv.dom) h.list hok hat weak
    rcases ht.sim with ⟨hcore, q, hq, hat'⟩ | ⟨weak', hcore, hrel⟩
    · refine ⟨s, .inl rfl, ?_⟩
      have hstay : s = ⟨s.dom, Function.update s.pc τ (some pc')⟩ := by
        rw [← hpc', Function.update_eq_self]
      rw [hstay]
      refine h.after hinv (hcore.trans h.core) ht.list ht.pushed ht.next ?_
      rw [hq]
      exact .some hat'
    · rw [h.core] at hcore hrel
      refine ⟨_, .inr ⟨.step τ weak', ?_⟩, h.after hinv hcore ht.list ht.pushed ht.next hrel⟩
      simp [EpochSystem.act, hpc']

/-- The thread has the record, in its slot or about to be put there. -/
def Owns (c : LinkedSystem T α) (τ : T) (rec : Nat) : Prop :=
  c.dom.core.slot τ = some rec ∨ ∃ pc, c.pc τ = some pc ∧ pc.holding = some rec

/-- The thread is in the push loop with the record. -/
def Pushing (c : LinkedSystem T α) (τ : T) (rec : Nat) : Prop :=
  ∃ pc, c.pc τ = some pc ∧ pc.pushing = some rec

omit [DecidableEq T] in
theorem Refines.owner {τ : T} {rec : Nat} (h : c.Refines s) (hinv : s.Inv) (ho : c.Owns τ rec) :
    (s.dom.record rec).owner = some τ := by
  rcases ho with hslot | ⟨pc, hpc, hholding⟩
  · rw [h.core] at hslot
    exact (hinv.dom.slot τ rec hslot).1
  · obtain ⟨pc', hpc', hat⟩ := h.busy hpc
    have hok := hinv.ok τ pc' hpc'
    rcases hat.holding hholding with ⟨k, l, rfl⟩ | ⟨k, rfl⟩
    · exact hok.2.2.1.owner
    · exact hok.2.2.1.owner

omit [DecidableEq T] in
theorem Refines.pushing_iff {rec : Nat} (h : c.Refines s) :
    (∃ τ, c.Pushing τ rec) ↔ ∃ τ k l, s.pc τ = some (.publish k rec l) := by
  constructor
  · rintro ⟨τ, pc, hpc, hpushing⟩
    obtain ⟨pc', hpc', hat⟩ := h.busy hpc
    obtain ⟨k, l, rfl⟩ := hat.pushing hpushing
    exact ⟨τ, k, l, hpc'⟩
  · rintro ⟨τ, k, l, hpc'⟩
    cases hpc : c.pc τ with
    | none =>
      rw [h.idle hpc] at hpc'
      cases hpc'
    | some pc =>
      obtain ⟨pc'', hpc'', hat⟩ := h.busy hpc
      obtain rfl := Option.some.inj (hpc'.symm.trans hpc'')
      refine ⟨τ, pc, hpc, ?_⟩
      cases hat with
      | loadHead | storeNext | publish => rfl
      | body hbody => exact absurd trivial hbody

/-! ### Runs of the linked domain -/

variable {r : Nat → LinkedSystem T α} {n i j : Nat}

/-- Whatever the linked domain comes to, the domain comes to by some schedule. -/
theorem refines_run (h : Run act init r n) : ∀ i ≤ n, ∃ as s,
    Trace.exec EpochSystem.act .init as = some s ∧ (r i).Refines s := by
  refine h.invariant (P := fun c => ∃ as s, Trace.exec EpochSystem.act .init as = some s ∧ c.Refines s)
    ⟨[], .init, rfl, refines_init⟩ ?_
  rintro c a c' ⟨as, s, has, hs⟩ ha
  have hinv : s.Inv :=
    exec_invariant (fun _ _ _ _ hs ha => EpochSystem.inv_act hs ha) EpochSystem.inv_init has
  obtain ⟨s', rfl | ⟨b, hb⟩, hs'⟩ := refines_act hs hinv ha
  · exact ⟨as, _, has, hs'⟩
  · refine ⟨as ++ [b], s', ?_, hs'⟩
    rw [exec_snoc, has]
    exact hb

/-- So what survives every action of the domain is known of every state of the linked domain. -/
theorem shadow_run (h : Run act init r n) (hi : i ≤ n) : ∃ s : EpochSystem T α,
    s.Inv ∧ s.Enlisted ∧ (r i).Refines s := by
  obtain ⟨as, s, has, hs⟩ := refines_run h i hi
  have hboth : s.Inv ∧ s.Enlisted := by
    refine exec_invariant (P := fun s => s.Inv ∧ s.Enlisted) (fun s a _ s' hs ha => ?_)
      ⟨EpochSystem.inv_init, nofun⟩ has
    exact ⟨EpochSystem.inv_act hs.1 ha, EpochSystem.enlisted_act hs.2 ha⟩
  exact ⟨s, hboth.1, hboth.2, hs⟩

/-- One step of a run, in the domain without pointers. -/
theorem shadow_step (h : Run act init r n) (hi : i < n) : ∃ s s' : EpochSystem T α, s.Inv ∧
    (r i).dom.core = s.dom ∧ (r (i + 1)).dom.core = s'.dom ∧
      (s' = s ∨ Step EpochSystem.act s s') := by
  obtain ⟨s, hinv, -, hs⟩ := shadow_run h hi.le
  obtain ⟨a, ha⟩ := h.step i hi
  obtain ⟨s', hstep, hs'⟩ := refines_act hs hinv ha
  exact ⟨s, s', hinv, hs.core, hs'.core, hstep⟩

/-- The list only grows, at its front. -/
theorem records_run (h : Run act init r n) (hij : i ≤ j) (hj : j ≤ n) :
    ∃ new, (r j).dom.core.records = new ++ (r i).dom.core.records := by
  refine h.along (Q := fun _ c => ∃ new, c.dom.core.records = new ++ (r i).dom.core.records)
    ⟨[], rfl⟩ ?_ j hij hj
  rintro k a - hk ⟨new, hnew⟩ -
  obtain ⟨s, s', -, hcore, hcore', rfl | ⟨b, hb⟩⟩ := shadow_step h hk
  · exact ⟨new, by rw [hcore', ← hcore, hnew]⟩
  · obtain ⟨more, hmore⟩ := EpochSystem.records_act hb
    exact ⟨more ++ new, by rw [hcore', hmore, ← hcore, hnew, List.append_assoc]⟩

/-- Whatever registrations, pushes and exits interleave, a record has one owner, the pointers from the
    head lead once to every record that has been pushed, then and ever after, all others are still in
    a push loop, and whoever gets a record finds it clean. -/
theorem exclusive_records (h : Run act init r n) (hi : i ≤ n) :
    (∀ τ σ rec, (r i).Owns τ rec → (r i).Owns σ rec → τ = σ) ∧
    (∃ l, Chain (r i).dom.next (r i).dom.head l ∧ l.Nodup ∧
      (∀ rec, rec < (r i).dom.core.nextRecord ↔ rec ∈ l ∨ ∃ τ, (r i).Pushing τ rec) ∧
      (∀ rec ∈ l, ¬∃ τ, (r i).Pushing τ rec) ∧
      ∀ j, i ≤ j → j ≤ n → ∃ new, Chain (r j).dom.next (r j).dom.head (new ++ l)) ∧
    ∀ τ rec, i < n → (r i).dom.core.slot τ ≠ some rec → (r (i + 1)).dom.core.slot τ = some rec →
      (r (i + 1)).dom.core.Clean τ rec := by
  obtain ⟨s, hinv, hall, hs⟩ := shadow_run h hi
  refine ⟨?_, ⟨(r i).dom.core.records, hs.list.chain, ?_, ?_, ?_, ?_⟩, ?_⟩
  · intro τ σ rec hτ hσ
    exact Option.some.inj ((hs.owner hinv hτ).symm.trans (hs.owner hinv hσ))
  · rw [hs.core]
    exact hinv.dom.nodup
  · intro rec
    rw [hs.pushing_iff, hs.core]
    constructor
    · exact hall rec
    · rintro (hin | ⟨τ, k, l, hpc⟩)
      · exact hinv.dom.records_lt rec hin
      · exact hinv.dom.owner_lt rec τ (hinv.ok τ _ hpc).2.2.1.owner
  · intro rec hin hpushing
    obtain ⟨τ, k, l, hpc⟩ := hs.pushing_iff.mp hpushing
    rw [hs.core] at hin
    exact (hinv.ok τ _ hpc).2.2.2 hin
  · intro j hij hj
    obtain ⟨s', -, -, hs'⟩ := shadow_run h hj
    obtain ⟨new, hnew⟩ := records_run h hij hj
    exact ⟨new, hnew ▸ hs'.list.chain⟩
  · intro τ rec hlt hne hslot
    obtain ⟨s, s', hinv, hcore, hcore', rfl | ⟨b, hb⟩⟩ := shadow_step h hlt
    · rw [hcore', ← hcore] at hslot
      exact absurd hslot hne
    · rw [hcore] at hne
      rw [hcore'] at hslot ⊢
      exact EpochSystem.obtained_act hinv hb hne hslot

/-- Threads 0 and 1 register together and race for the head; thread 1 has to try again. Thread 0 retires
    an object and ends, and thread 2 gets its record. -/
def relay : List (EpochSystem.Action Nat Nat) := List.flatten [
  [.call 0 .enter, .call 1 .enter], (List.replicate 5 [.step 0 false, .step 1 false]).flatten,
  [.step 0 false, .step 1 false, .step 1 false, .step 1 false], List.replicate 3 (.step 0 false),
  [.call 0 .leave, .call 0 (.retire (some 7))], List.replicate 4 (.step 0 false),
  [.call 0 .exit], List.replicate 7 (.step 0 false), [.call 2 .enter], List.replicate 4 (.step 2 false)]

theorem exclusive_records_relay : (((play act init relay 25).dom.core.record 0).bags 0).length = 1 ∧
    (play act init relay 38).dom.core.Clean 2 0 := by
  have hrun : Run act init (play act init relay) relay.length := run_play (by decide +kernel)
  have hslot : (play act init relay 37).dom.core.slot 2 = none := by decide +kernel
  obtain ⟨-, -, hclean⟩ := exclusive_records (i := 37) hrun (by decide)
  exact ⟨by decide +kernel, hclean 2 0 (by decide) (by simp [hslot]) (by decide +kernel)⟩

end LinkedSystem

end RcuFib
