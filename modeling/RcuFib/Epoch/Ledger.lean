import RcuFib.Epoch.Log
import RcuFib.Library.Tally

/-! The books of the domain.

    An object is in one place at a time: with the thread that retires it, in a bag, among the
    orphans, with the thread that adopted it, or freed. Objects are counted by an arbitrary valuation
    that does not look at the tag; with the indicator of one object this counts that object, with
    the constant 1 it counts them all. -/

namespace RcuFib

open Trace Tally

variable {T α : Type*}

/-! ### What a thread has in hand -/

def After.held : After α → List (Retiree α)
  | .retire x => [x]
  | _ => []

def Pc.held : Pc α → List (Retiree α)
  | .loadRecords k | .claim k _ | .newRecord k | .publish k _ _ | .countThread k _ => k.held
  | .retire x _ | .pushBag x _ _ => [x]
  | .unlockOrphans _ _ adopted => adopted
  | .free _ _ .adopted bag i => bag.drop i
  | _ => []

theorem Pc.held_cases {pc : Pc α} {x : Retiree α} (hx : x ∈ pc.held) :
    x ∈ pc.adopted ∨ pc.number = some x.stamp := by
  have hafter : ∀ {k : After α}, x ∈ k.held → k.kind.number = some x.stamp := fun {k} hx => by
    cases k with
    | retire y => rw [After.held, List.mem_singleton] at hx; rw [hx]; rfl
    | _ => cases hx
  cases pc with
  | loadRecords | claim | newRecord | publish | countThread => exact .inr (hafter hx)
  | retire | pushBag => rw [Pc.held, List.mem_singleton] at hx; rw [hx]; exact .inr rfl
  | unlockOrphans => exact .inl hx
  | free task r source bag i =>
    cases source with
    | bag => cases hx
    | adopted => exact .inl hx
  | _ => cases hx

/-- The objects `free_bag` has freed and not yet removed from the bag. -/
def Pc.passed : Pc α → List (Retiree α)
  | .free _ _ (.bag _) bag i => bag.take i
  | _ => []

/-- The objects retired and not yet counted. -/
def Pc.uncounted : Pc α → ℤ
  | .loadRecords k | .claim k _ | .newRecord k | .publish k _ _ | .countThread k _ => k.held.length
  | .retire _ _ | .pushBag _ _ _ | .countRetired _ => 1
  | _ => 0

/-- The objects freed and not yet counted. -/
def Pc.unreported : Pc α → ℤ
  | .free _ _ _ bag i => (bag.take i).length
  | .countReclaimed _ _ _ count => count
  | _ => 0

namespace EpochDomain

/-- The worth of some objects under a valuation. -/
def worth (f : Retiree α → ℤ) (l : List (Retiree α)) : ℤ := (l.map f).sum

variable {f : Retiree α → ℤ} {s s' : EpochDomain T α} {τ : T} {r : Nat} {k : Fin 3}

@[simp] theorem worth_nil : worth f [] = 0 := rfl

@[simp] theorem worth_cons (x : Retiree α) (l : List (Retiree α)) :
    worth f (x :: l) = f x + worth f l := by simp [worth]

@[simp] theorem worth_append (l l' : List (Retiree α)) :
    worth f (l ++ l') = worth f l + worth f l' := by simp [worth]

theorem worth_one (l : List (Retiree α)) : worth (fun _ => 1) l = l.length := by simp [worth]

/-- What was retired, less what was freed and what the domain still holds. -/
def stock (f : Retiree α → ℤ) (s : EpochDomain T α) : ℤ :=
  worth f s.issued - worth f s.freed - worth f s.destroy

def share (f : Retiree α → ℤ) (pc : Pc α) : ℤ := worth f pc.passed - worth f pc.held

theorem destroy_congr (hrs : s'.records = s.records)
    (hb : ∀ r ∈ s.records, (s'.record r).bags = (s.record r).bags) (ho : s'.orphans = s.orphans) :
    s'.destroy = s.destroy := by
  unfold destroy
  rw [hrs, ho]
  congr 1
  exact List.flatMap_congr fun r hr => by rw [hb r hr]

theorem destroy_setRecord [DecidableEq T] {y : ThreadRecord T α}
    (hy : y.bags = (s.record r).bags) : (s.setRecord r y).destroy = s.destroy := by
  refine destroy_congr rfl (fun r' _ => ?_) rfl
  rcases eq_or_ne r' r with rfl | hne
  · simp [setRecord, hy]
  · simp [setRecord, hne]

/-- One bag of the domain changes. -/
theorem worth_setBag (h : s.Inv) (hr : r ∈ s.records) (bag : List (Retiree α)) :
    worth f (s.setBag r k bag).destroy + worth f ((s.record r).bags k) =
      worth f s.destroy + worth f bag := by
  obtain ⟨l₁, l₂, hl⟩ := List.append_of_mem hr
  have hnodup := h.nodup
  rw [hl] at hnodup
  have hne₁ : ∀ r' ∈ l₁, r' ≠ r := by
    rintro r' hr' rfl
    exact (List.nodup_append.mp hnodup).2.2 _ hr' _ (List.mem_cons_self ..) rfl
  have hne₂ : ∀ r' ∈ l₂, r' ≠ r := by
    rintro r' hr' rfl
    exact (List.nodup_cons.mp (List.nodup_append.mp hnodup).2.1).1 hr'
  have hsame : ∀ l : List Nat, (∀ r' ∈ l, r' ≠ r) →
      (l.flatMap fun r' => (List.finRange 3).flatMap ((s.setBag r k bag).record r').bags) =
        l.flatMap fun r' => (List.finRange 3).flatMap (s.record r').bags := fun l hl =>
    List.flatMap_congr fun r' hr' => by simp [setBag, setRecord, hl r' hr']
  have hown : worth f ((List.finRange 3).flatMap ((s.setBag r k bag).record r).bags) +
      worth f ((s.record r).bags k) =
        worth f ((List.finRange 3).flatMap (s.record r).bags) + worth f bag := by
    have hrange : List.finRange 3 = [0, 1, 2] := by decide
    have hcases : ∀ k : Fin 3, k = 0 ∨ k = 1 ∨ k = 2 := by decide
    rw [hrange]
    rcases hcases k with rfl | rfl | rfl <;> simp [setBag, setRecord] <;> omega
  have hrs : (s.setBag r k bag).records = l₁ ++ r :: l₂ := hl
  unfold destroy
  rw [hrs, hl]
  simp only [List.flatMap_append, List.flatMap_cons, worth_append, hsame l₁ hne₁, hsame l₂ hne₂]
  have horph : (s.setBag r k bag).orphans = s.orphans := rfl
  rw [horph]
  omega

/-! ### Each step moves worth between the domain and the thread that takes it -/

theorem stock_congr (hi : s'.issued = s.issued) (hf : s'.freed = s.freed)
    (hd : s'.destroy = s.destroy) : s'.stock f = s.stock f := by
  unfold stock
  rw [hi, hf, hd]

theorem tally_congr {x x' : Option (Pc α)} (hi : s'.issued = s.issued) (hf : s'.freed = s.freed)
    (hd : s'.destroy = s.destroy) (hx : shareOf (share f) x' = shareOf (share f) x) :
    s'.stock f + shareOf (share f) x' = s.stock f + shareOf (share f) x := by
  rw [stock_congr hi hf hd, hx]

theorem stock_finish (task : Task) : (s.finish task).stock f = s.stock f := by
  unfold finish
  split <;> rfl

theorem share_freeBag (task : Task) : share f (s.freeBag task r k) = 0 := by
  simp [freeBag, share, Pc.passed, Pc.held]

theorem share_resume (k : After α) : share f (s.resume r k) = -worth f k.held := by
  cases k with
  | task task =>
    cases task with
    | reclaim => rfl
    | synchronize => exact share_freeBag _
  | _ => simp [resume, share, Pc.passed, Pc.held, After.held]

theorem share_localRecord (k : After α) : share f (s.localRecord τ k) = -worth f k.held := by
  unfold localRecord
  split
  · exact share_resume k
  · simp [share, Pc.passed, Pc.held]

theorem share_advanced (task : Task) : share f (s.advanced τ task) = 0 := by
  cases task with
  | reclaim => exact share_localRecord _
  | synchronize =>
    simp only [advanced]
    split
    · rfl
    · exact share_localRecord _

theorem tally_afterFree (task : Task) (source : Source) :
    (s.afterFree r task source).1.stock f + shareOf (share f) (s.afterFree r task source).2 =
      s.stock f + shareOf (share f) none := by
  cases source with
  | adopted => simp [afterFree, stock_finish]
  | bag k =>
    cases task with
    | reclaim => simp [afterFree, share, Pc.passed, Pc.held]
    | synchronize =>
      simp only [afterFree, shareOf_some]
      split
      · simp [share, Pc.passed, Pc.held]
      · simp [share_freeBag]

variable [DecidableEq T]

theorem destroy_openGuard (r : Nat) (outermost : Bool) :
    (s.openGuard τ r outermost).destroy = s.destroy :=
  destroy_setRecord (y := { s.record r with nesting := (s.record r).nesting + 1 }) rfl

theorem tally_free (h : s.Inv) {task : Task} {source : Source} {bag : List (Retiree α)} {i : Nat}
    {weak : Bool} (hok : s.Ok τ (.free task r source bag i)) :
    (s.step τ weak (.free task r source bag i)).1.stock f +
        shareOf (share f) (s.step τ weak (.free task r source bag i)).2 =
      s.stock f + shareOf (share f) (some (.free task r source bag i)) := by
  obtain ⟨hs, hbag, -⟩ := hok
  simp only [step]
  split
  · next x hx =>
    obtain ⟨hi, rfl⟩ := List.getElem?_eq_some_iff.mp hx
    have hdestroy : destroy { s with freed := bag[i] :: s.freed } = s.destroy := rfl
    cases source with
    | adopted =>
      have hdrop := List.drop_eq_getElem_cons hi
      simp only [shareOf_some, share, stock, hdestroy, Pc.passed, Pc.held, hdrop, worth_cons]
      omega
    | bag k =>
      have htake := List.take_succ_eq_append_getElem hi
      simp only [shareOf_some, share, stock, hdestroy, Pc.passed, Pc.held, htake, worth_cons,
        worth_append, worth_nil]
      omega
  · next hx =>
    have hlen := List.getElem?_eq_none_iff.mp hx
    have hclear : (s.clear r source).stock f = s.stock f + share f (.free task r source bag i) := by
      cases source with
      | adopted => simp [clear, share, Pc.passed, Pc.held, List.drop_eq_nil_of_le hlen]
      | bag k =>
        have hset := worth_setBag (f := f) (k := k) h (h.slot τ r hs).2 []
        have hissued : (s.setBag r k []).issued = s.issued := rfl
        have hfreed : (s.setBag r k []).freed = s.freed := rfl
        rw [← (hbag k rfl).1, worth_nil] at hset
        simp only [clear, stock, share, Pc.passed, Pc.held, List.take_of_length_le hlen, worth_nil,
          hissued, hfreed]
        omega
    rw [shareOf_some, ← hclear]
    split
    · simp [share, Pc.passed, Pc.held]
    · simpa using tally_afterFree task source

theorem tally_exitMove (h : s.Inv) (hs : s.slot τ = some r) {weak : Bool} :
    (s.step τ weak (.exitMove r k)).1.stock f +
        shareOf (share f) (s.step τ weak (.exitMove r k)).2 =
      s.stock f + shareOf (share f) (some (.exitMove r k)) := by
  have hset := worth_setBag (f := f) (k := k) h (h.slot τ r hs).2 []
  have hmove : worth f (destroy { s.setBag r k [] with
      orphans := s.orphans ++ (s.record r).bags k }) =
        worth f (s.setBag r k []).destroy + worth f ((s.record r).bags k) := by
    have horph : (s.setBag r k []).orphans = s.orphans := rfl
    simp only [destroy, worth_append, horph]
    omega
  have hshare : shareOf (share f) (s.step τ weak (.exitMove r k)).2 = 0 := by
    simp only [step, shareOf_some]
    split <;> rfl
  have hshare' : shareOf (share f) (some (.exitMove r k)) = 0 := rfl
  rw [hshare, hshare']
  simp only [step, stock, hmove]
  rw [worth_nil] at hset
  have hissued : (s.setBag r k []).issued = s.issued := rfl
  have hfreed : (s.setBag r k []).freed = s.freed := rfl
  rw [hissued, hfreed]
  omega

theorem tally_step (hf : ∀ x e, f { x with tag := e } = f x) (h : s.Inv) {weak : Bool} {pc : Pc α}
    (hok : s.Ok τ pc) :
    (s.step τ weak pc).1.stock f + shareOf (share f) (s.step τ weak pc).2 =
      s.stock f + shareOf (share f) (some pc) := by
  cases pc with
  | claim k cs =>
    cases cs with
    | nil => rfl
    | cons c rest =>
      simp only [step]
      split
      · rfl
      · have hd : destroy (s.setRecord c { s.record c with
            inUse := true, nesting := 0, owner := some τ }) = s.destroy := destroy_setRecord rfl
        have hstock : stock f { s.setRecord c { s.record c with
            inUse := true, nesting := 0, owner := some τ } with
              slot := Function.update s.slot τ (some c) } = s.stock f := stock_congr rfl rfl hd
        rw [hstock, shareOf_some, share_resume]
        simp [share, Pc.passed, Pc.held]
  | newRecord k =>
    have hd : destroy { s.setRecord s.nextRecord (.fresh τ) with nextRecord := s.nextRecord + 1 } =
        s.destroy := by
      refine destroy_congr rfl (fun r hr => ?_) rfl
      have hne : r ≠ s.nextRecord := (h.records_lt r hr).ne
      simp [setRecord, hne]
    have hstock : stock f { s.setRecord s.nextRecord (.fresh τ) with
        nextRecord := s.nextRecord + 1 } = s.stock f := stock_congr rfl rfl hd
    simp [step, hstock, share, Pc.passed, Pc.held]
  | publish k r head =>
    obtain ⟨-, -, hc, -⟩ := hok
    simp only [step]
    split
    · next he =>
      have hd : destroy { s with records := r :: head } = s.destroy := by
        simp [destroy, he.1, hc.bags]
      have hstock : stock f { s with records := r :: head } = s.stock f := stock_congr rfl rfl hd
      simp [hstock, share, Pc.passed, Pc.held]
    · rfl
  | countThread k r =>
    have hstock : stock f { s with
        threads := s.threads + 1, slot := Function.update s.slot τ (some r) } = s.stock f := rfl
    simp only [step]
    rw [hstock, shareOf_some, share_resume]
    simp [share, Pc.passed, Pc.held]
  | enter r =>
    simp only [step]
    split
    · rfl
    · exact tally_congr rfl rfl (destroy_openGuard r false) rfl
  | announce r e =>
    have hd : destroy ((s.setRecord r { s.record r with
        state := some e, since := s.globalEpoch }).openGuard τ r true) = s.destroy :=
      (destroy_openGuard r true).trans (destroy_setRecord rfl)
    exact tally_congr rfl rfl hd rfl
  | retire x r =>
    simp [step, share, Pc.passed, Pc.held, hf]
  | pushBag x r e =>
    have hset := worth_setBag (f := f) (k := ringIndex e) h (h.slot τ r hok.1).2
      ((s.record r).bags (ringIndex e) ++ [x])
    simp only [worth_append, worth_cons, worth_nil] at hset
    have hissued : (s.setBag r (ringIndex e) ((s.record r).bags (ringIndex e) ++ [x])).issued =
      s.issued := rfl
    have hfreed : (s.setBag r (ringIndex e) ((s.record r).bags (ringIndex e) ++ [x])).freed =
      s.freed := rfl
    simp only [step, stock, share, shareOf_some, Pc.passed, Pc.held, worth_cons, worth_nil, hissued,
      hfreed]
    omega
  | scan task e rest =>
    cases rest with
    | nil =>
      simp only [step]
      split
      · rfl
      · rw [shareOf_some, share_advanced]; rfl
    | cons c rest =>
      simp only [step]
      split
      · rfl
      · split <;> rfl
  | free => exact tally_free h hok
  | countReclaimed task r source count => exact tally_afterFree task source
  | lockOrphans =>
    simp only [step]
    split <;> rfl
  | swapOrphans task r =>
    have hswap : worth f (destroy { s with orphans := [] }) + worth f s.orphans =
        worth f s.destroy := by
      simp [destroy]
    simp only [step, stock, share, shareOf_some, Pc.passed, Pc.held, worth_nil]
    omega
  | unlockOrphans task r adopted =>
    simp only [step]
    split
    · next he =>
      rw [List.isEmpty_iff] at he
      subst he
      exact congrArg (· + 0) (stock_finish task)
    · rfl
  | exitLock =>
    simp only [step]
    split <;> rfl
  | exitMove r k => exact tally_exitMove h hok.1
  | exitState r =>
    have hd : destroy (s.setRecord r { s.record r with state := none }) = s.destroy :=
      destroy_setRecord rfl
    exact tally_congr rfl rfl hd rfl
  | exitInUse r =>
    have hd : destroy (s.setRecord r { s.record r with inUse := false, owner := none }) =
      s.destroy := destroy_setRecord rfl
    exact tally_congr rfl rfl hd rfl
  | countFailed task =>
    cases task with
    | reclaim within => exact congrArg (· + 0) (stock_finish _)
    | synchronize => rfl
  | countAdvance task =>
    simp only [step]
    rw [shareOf_some, share_advanced]
    rfl
  | countAttempt stamp =>
    simp only [step]
    split <;> rfl
  | reclaimEpoch within r =>
    simp only [step]
    rw [shareOf_some, share_freeBag]
    rfl
  | tryAdvance | scanHead | countRetired | resetAttempt | loadRecords | exitUnlock => rfl

omit [DecidableEq T] in
theorem destroy_leave [DecidableEq T] {g : ReadGuard} {rest : List ReadGuard} :
    (s.leave τ r g rest).destroy = s.destroy :=
  destroy_setRecord (y := { s.record r with
    nesting := (s.record r).nesting - 1
    state := if g.outermost then none else (s.record r).state }) rfl

theorem tally_call {c : Call α} {x : EpochDomain T α × Option (Pc α)} (hc : s.call τ c = some x) :
    x.1.stock f + shareOf (share f) x.2 = s.stock f + shareOf (share f) none := by
  cases c with
  | enter =>
    cases hc
    rw [shareOf_some, share_localRecord]
    rfl
  | leave =>
    simp only [call] at hc
    split at hc
    · cases hc
      exact tally_congr rfl rfl destroy_leave rfl
    · cases hc
  | retire p =>
    cases p with
    | none => cases hc; rfl
    | some p =>
      cases hc
      rw [shareOf_some, share_localRecord]
      have hd : destroy { s with issued := ⟨p, s.issued.length, s.nextGuard, 0⟩ :: s.issued } =
        s.destroy := rfl
      simp only [stock, hd, After.held, worth_cons, worth_nil, shareOf_none]
      omega
  | tryReclaim | synchronize => cases hc; rfl
  | exit =>
    simp only [call] at hc
    split at hc
    · split at hc <;> · cases hc; rfl
    · cases hc

/-! ### The counters -/

/-- The counters lag behind the calls and the deleters by what the threads have yet to add. -/
def retiredLag (s : EpochDomain T α) : ℤ := s.retired - s.issued.length

def reclaimedLag (s : EpochDomain T α) : ℤ := s.reclaimed - s.freed.length

structure Counted (s : EpochDomain T α) (pc : Option (Pc α)) (x : EpochDomain T α × Option (Pc α)) :
    Prop where
  retired : x.1.retiredLag + shareOf Pc.uncounted x.2 = s.retiredLag + shareOf Pc.uncounted pc
  reclaimed : x.1.reclaimedLag + shareOf Pc.unreported x.2 =
    s.reclaimedLag + shareOf Pc.unreported pc

omit [DecidableEq T] in
theorem Counted.same {pc x : Option (Pc α)} (h₁ : s'.retired = s.retired)
    (h₂ : s'.issued = s.issued) (h₃ : s'.reclaimed = s.reclaimed) (h₄ : s'.freed = s.freed)
    (hu : shareOf Pc.uncounted x = shareOf Pc.uncounted pc)
    (hr : shareOf Pc.unreported x = shareOf Pc.unreported pc) : s.Counted pc (s', x) :=
  ⟨by simp only [retiredLag, h₁, h₂, hu], by simp only [reclaimedLag, h₃, h₄, hr]⟩

omit [DecidableEq T] in
theorem Counted.finish {pc : Option (Pc α)} (h : s.Counted pc (s', none)) (task : Task) :
    s.Counted pc (s'.finish task, none) := by
  unfold EpochDomain.finish
  split <;> exact ⟨h.retired, h.reclaimed⟩

omit [DecidableEq T] in
theorem shares_resume (k : After α) :
    (s.resume r k).uncounted = k.held.length ∧ (s.resume r k).unreported = 0 := by
  cases k with
  | task task => cases task <;> simp [resume, freeBag, Pc.uncounted, Pc.unreported, After.held]
  | _ => simp [resume, Pc.uncounted, Pc.unreported, After.held]

omit [DecidableEq T] in
theorem shares_localRecord (k : After α) :
    (s.localRecord τ k).uncounted = k.held.length ∧ (s.localRecord τ k).unreported = 0 := by
  unfold localRecord
  split
  · exact shares_resume k
  · simp [Pc.uncounted, Pc.unreported]

omit [DecidableEq T] in
theorem shares_advanced (task : Task) :
    (s.advanced τ task).uncounted = 0 ∧ (s.advanced τ task).unreported = 0 := by
  cases task with
  | reclaim => exact shares_localRecord _
  | synchronize =>
    simp only [advanced]
    split
    · exact ⟨rfl, rfl⟩
    · exact shares_localRecord _

omit [DecidableEq T] in
theorem Counted.afterFree {pc : Option (Pc α)} (h : s.Counted pc (s', none)) (task : Task)
    (source : Source) : s.Counted pc (s'.afterFree r task source) := by
  cases source with
  | adopted => exact h.finish task
  | bag k =>
    cases task with
    | reclaim => exact ⟨h.retired, h.reclaimed⟩
    | synchronize =>
      simp only [EpochDomain.afterFree]
      split
      · exact ⟨h.retired, h.reclaimed⟩
      · exact ⟨by simpa [freeBag, Pc.uncounted] using h.retired,
          by simpa [freeBag, Pc.unreported] using h.reclaimed⟩

theorem counted_free {task : Task} {source : Source} {bag : List (Retiree α)} {i : Nat}
    {weak : Bool} : s.Counted (some (.free task r source bag i))
      (s.step τ weak (.free task r source bag i)) := by
  simp only [step]
  split
  · next x hx =>
    obtain ⟨hi, rfl⟩ := List.getElem?_eq_some_iff.mp hx
    refine ⟨by rfl, ?_⟩
    have htake := List.take_succ_eq_append_getElem hi
    simp only [reclaimedLag, shareOf_some, Pc.unreported, htake, List.length_append,
      List.length_cons, List.length_nil]
    omega
  · next hx =>
    have htake := List.take_of_length_le (List.getElem?_eq_none_iff.mp hx)
    split
    · refine .same ?_ ?_ ?_ ?_ rfl (by simp [Pc.unreported, htake]) <;> cases source <;> rfl
    · next hz =>
      refine Counted.afterFree ?_ task source
      refine .same ?_ ?_ ?_ ?_ rfl ?_
      · cases source <;> rfl
      · cases source <;> rfl
      · cases source <;> rfl
      · cases source <;> rfl
      · simp [Pc.unreported, htake, not_not.mp hz]

theorem counted_step {weak : Bool} {pc : Pc α} : s.Counted (some pc) (s.step τ weak pc) := by
  cases pc with
  | claim k cs =>
    cases cs with
    | nil => exact .same rfl rfl rfl rfl rfl rfl
    | cons c rest =>
      simp only [step]
      split
      · exact .same rfl rfl rfl rfl rfl rfl
      · exact .same rfl rfl rfl rfl (shares_resume k).1 (shares_resume k).2
  | publish k r head => simp only [step]; split <;> exact .same rfl rfl rfl rfl rfl rfl
  | countThread k r => exact .same rfl rfl rfl rfl (shares_resume k).1 (shares_resume k).2
  | enter r => simp only [step]; split <;> exact .same rfl rfl rfl rfl rfl rfl
  | countRetired stamp =>
    refine ⟨?_, by rfl⟩
    simp only [step, retiredLag, shareOf_some, Pc.uncounted]
    omega
  | countAttempt stamp =>
    simp only [step]
    split <;> exact .same rfl rfl rfl rfl rfl rfl
  | scan task e rest =>
    cases rest with
    | nil =>
      simp only [step]
      split
      · exact .same rfl rfl rfl rfl rfl rfl
      · exact .same rfl rfl rfl rfl (shares_advanced task).1 (shares_advanced task).2
    | cons c rest =>
      simp only [step]
      split
      · exact .same rfl rfl rfl rfl rfl rfl
      · split <;> exact .same rfl rfl rfl rfl rfl rfl
  | countFailed task =>
    cases task with
    | reclaim within =>
      refine Counted.finish ?_ _
      exact .same rfl rfl rfl rfl rfl rfl
    | synchronize => exact .same rfl rfl rfl rfl rfl rfl
  | countAdvance task =>
    exact .same rfl rfl rfl rfl (shares_advanced task).1 (shares_advanced task).2
  | reclaimEpoch within r => exact .same rfl rfl rfl rfl rfl (by simp [freeBag, Pc.unreported])
  | free => exact counted_free
  | countReclaimed task r source count =>
    refine Counted.afterFree ⟨by rfl, ?_⟩ task source
    simp only [reclaimedLag, shareOf_some, shareOf_none, Pc.unreported]
    omega
  | lockOrphans task r => simp only [step]; split <;> exact .same rfl rfl rfl rfl rfl rfl
  | unlockOrphans task r adopted =>
    simp only [step]
    split
    · refine Counted.finish ?_ task
      exact .same rfl rfl rfl rfl rfl rfl
    · exact .same rfl rfl rfl rfl rfl (by simp [Pc.unreported])
  | exitLock r => simp only [step]; split <;> exact .same rfl rfl rfl rfl rfl rfl
  | exitMove r k => refine .same rfl rfl rfl rfl ?_ ?_ <;> split <;> rfl
  | _ => exact .same rfl rfl rfl rfl rfl rfl

theorem counted_call {c : Call α} {x : EpochDomain T α × Option (Pc α)}
    (hc : s.call τ c = some x) : s.Counted none x := by
  cases c with
  | enter =>
    cases hc
    exact .same rfl rfl rfl rfl (shares_localRecord _).1 (shares_localRecord _).2
  | leave =>
    simp only [call] at hc
    split at hc
    · cases hc
      exact .same rfl rfl rfl rfl rfl rfl
    · cases hc
  | retire p =>
    cases p with
    | none => cases hc; exact .same rfl rfl rfl rfl rfl rfl
    | some p =>
      cases hc
      refine ⟨?_, congrArg _ (shares_localRecord _).2⟩
      simp only [shareOf_some, (shares_localRecord _).1, retiredLag, After.held, shareOf_none,
        List.length_cons, List.length_nil]
      omega
  | tryReclaim | synchronize => cases hc; exact .same rfl rfl rfl rfl rfl rfl
  | exit =>
    simp only [call] at hc
    split at hc
    · split at hc <;> · cases hc; exact .same rfl rfl rfl rfl rfl rfl
    · cases hc

end EpochDomain

namespace EpochSystem
variable [DecidableEq T] {s s' : EpochSystem T α} {a : Action T α} {r : Nat → EpochSystem T α}
  {n : Nat}

/-- The books balance in every state of every run. -/
theorem balanced_run (h : Run act init r n) {f : Retiree α → ℤ}
    (hf : ∀ x e, f { x with tag := e } = f x) : ∀ i ≤ n,
    Balanced (EpochDomain.stock f) (EpochDomain.share f) (r i).dom (r i).pc := by
  refine fun i hi => (h.invariant (P := fun s => s.Inv ∧ Balanced (EpochDomain.stock f)
    (EpochDomain.share f) s.dom s.pc) ⟨inv_init, balanced_idle rfl fun _ => rfl⟩
    (fun s a s' hs ha => ⟨inv_act hs.1 ha, ?_⟩) i hi).2
  obtain ⟨τ, x, rfl, ⟨c, -, hpc, hc⟩ | ⟨weak, pc, -, hpc, rfl⟩⟩ := act_cases ha
  · exact hs.2.step (by rw [hpc]; exact EpochDomain.tally_call hc)
  · exact hs.2.step (by rw [hpc]; exact EpochDomain.tally_step hf hs.1.dom (hs.1.ok τ pc hpc))

theorem counters_run (h : Run act init r n) : ∀ i ≤ n,
    Balanced EpochDomain.retiredLag Pc.uncounted (r i).dom (r i).pc ∧
      Balanced EpochDomain.reclaimedLag Pc.unreported (r i).dom (r i).pc := by
  refine h.invariant (P := fun s => Balanced EpochDomain.retiredLag Pc.uncounted s.dom s.pc ∧
    Balanced EpochDomain.reclaimedLag Pc.unreported s.dom s.pc) ⟨balanced_idle rfl fun _ => rfl, balanced_idle rfl fun _ => rfl⟩
    fun s a s' hs ha => ?_
  obtain ⟨τ, x, rfl, ⟨c, -, hpc, hc⟩ | ⟨weak, pc, -, hpc, rfl⟩⟩ := act_cases ha
  · have hcount := EpochDomain.counted_call hc
    exact ⟨hs.1.step (by rw [hpc]; exact hcount.retired),
      hs.2.step (by rw [hpc]; exact hcount.reclaimed)⟩
  · have hcount : s.dom.Counted (some pc) (s.dom.step τ weak pc) := EpochDomain.counted_step
    exact ⟨hs.1.step (by rw [hpc]; exact hcount.retired),
      hs.2.step (by rw [hpc]; exact hcount.reclaimed)⟩

omit [DecidableEq T] in
theorem pending_eq (s : EpochDomain T α) : s.pending = s.destroy.length := by
  simp [EpochDomain.pending, EpochDomain.destroy, List.length_flatMap]

/-- Between operations every deleter owed has run once or will be run once by the destructor, and the
    statistics agree with what is pending. -/
theorem garbage_accounted (h : Run act init r n) (hidle : ∀ τ, (r n).pc τ = none) :
    (((r n).dom.freed ++ (r n).dom.destroy).map fun x => (x.stamp, x.payload)).Perm
        ((r n).dom.issued.map fun x => (x.stamp, x.payload)) ∧
      ((r n).dom.issued.map Retiree.stamp).Nodup ∧
      (r n).dom.retired = (r n).dom.reclaimed + (r n).dom.pending := by
  classical
  have hstock : ∀ f : Retiree α → ℤ, (∀ x e, f { x with tag := e } = f x) →
      (r n).dom.stock f = 0 := fun f hf => (balanced_run h hf n le_rfl).idle hidle
  refine ⟨List.perm_iff_count.mpr fun c => ?_, (numbered_run h n le_rfl).nodup, ?_⟩
  · have hcount : ∀ l : List (Retiree α),
        EpochDomain.worth (fun x => if (x.stamp, x.payload) = c then 1 else 0) l =
          (l.map fun x => (x.stamp, x.payload)).count c := fun l => by
      induction l with
      | nil => rfl
      | cons x l ih =>
        rw [EpochDomain.worth_cons, ih, List.map_cons, List.count_cons]
        simp only [beq_iff_eq, Nat.cast_add, Nat.cast_ite, Nat.cast_one, Nat.cast_zero]
        omega
    have hzero := hstock (fun x => if (x.stamp, x.payload) = c then 1 else 0) fun _ _ => rfl
    simp only [EpochDomain.stock, hcount] at hzero
    rw [List.map_append, List.count_append]
    omega
  · have hzero := hstock (fun _ => 1) fun _ _ => rfl
    obtain ⟨hret, hrec⟩ := counters_run h n le_rfl
    have hret := hret.idle hidle
    have hrec := hrec.idle hidle
    simp only [EpochDomain.stock, EpochDomain.worth_one] at hzero
    simp only [EpochDomain.retiredLag] at hret
    simp only [EpochDomain.reclaimedLag] at hrec
    rw [pending_eq]
    omega

/-- One thread retires an object and ends, another adopts it. -/
def handover : List (Action Bool Nat) :=
  .call false (.retire (some 7)) :: List.replicate 9 (.step false false) ++
    .call false .exit :: List.replicate 7 (.step false false) ++
    .call true .tryReclaim :: List.replicate 15 (.step true false)

theorem garbage_accounted_handover :
    (((play act init handover handover.length).dom.freed ++
        (play act init handover handover.length).dom.destroy).map fun x => (x.stamp, x.payload)).Perm
        ((play act init handover handover.length).dom.issued.map fun x => (x.stamp, x.payload)) ∧
      ((play act init handover handover.length).dom.issued.map Retiree.stamp).Nodup ∧
      (play act init handover handover.length).dom.retired =
        (play act init handover handover.length).dom.reclaimed +
          (play act init handover handover.length).dom.pending :=
  garbage_accounted (run_play (by rfl)) (by rintro (_ | _) <;> rfl)

end EpochSystem

end RcuFib
