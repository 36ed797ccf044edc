import RcuFib.Epoch.Moves
import RcuFib.Library.Trace

/-! Every step of every call keeps the invariant and the annotations. -/

namespace RcuFib

namespace EpochDomain
variable {T α : Type*} [DecidableEq T] {s s' : EpochDomain T α} {τ : T} {r : Nat} {x : Retiree α}
  {k : After α}

/-- What a step of `τ` leaves behind: a state the others can live with and the next annotation. -/
def StepOk (s : EpochDomain T α) (τ : T) (x : EpochDomain T α × Option (Pc α)) : Prop :=
  s.Move x.1 τ ∧ ∀ pc ∈ x.2, x.1.Ok τ pc

omit [DecidableEq T] in
theorem StepOk.go {pc : Pc α} (hm : s.Move s' τ) (h : s'.Ok τ pc) : s.StepOk τ (s', some pc) :=
  ⟨hm, fun _ hp => by cases hp; exact h⟩

omit [DecidableEq T] in
theorem StepOk.returns (hm : s.Move s' τ) : s.StepOk τ (s', none) := ⟨hm, nofun⟩

omit [DecidableEq T] in
theorem StepOk.after {x : EpochDomain T α × Option (Pc α)} (hm : s.Move s' τ) (h : s'.StepOk τ x) :
    s.StepOk τ x := ⟨hm.trans h.1, h.2⟩

omit [DecidableEq T] in
theorem Move.refl (h : s.Inv) : s.Move s τ :=
  .quiet h rfl rfl rfl rfl rfl rfl rfl (fun _ hx => hx) h.orphans fun _ _ hm => hm

omit [DecidableEq T] in
theorem Move.finish (h : s.Inv) (task : Task) : s.Move (s.finish task) τ := by
  cases task with
  | reclaim within =>
    cases within with
    | none => exact .refl h
    | some stamp => exact .quiet h rfl rfl rfl rfl rfl rfl rfl (fun _ hx => hx) h.orphans fun _ _ hm => hm
  | synchronize => exact .refl h

/-! ### `local_record` and what follows it -/

/-- The garbage that `synchronize` is about to free is safe to free. -/
def Freeable (s : EpochDomain T α) (r : Nat) : After α → Prop
  | .task (.synchronize _ _) => ∀ j, ∀ x ∈ (s.record r).bags j, s.Safe x
  | _ => True

omit [DecidableEq T] in
theorem resume_ok (hs : s.slot τ = some r) (ha : s.AfterOk k) (hf : s.Freeable r k) :
    s.Ok τ (s.resume r k) := by
  cases k with
  | enter => exact hs
  | retire x => exact ⟨hs, ha⟩
  | task task =>
    cases task with
    | reclaim => exact hs
    | synchronize b n =>
      refine ⟨hs, fun k hk => ?_, ?_, ?_⟩
      · cases hk
        exact ⟨rfl, fun x hx => hf 0 x (by simpa using hx), nofun⟩
      · exact fun j hj => absurd hj (Fin.not_lt_zero j)
      · exact fun j _ => hf j

omit [DecidableEq T] in
theorem localRecord_ok (ha : s.AfterOk k) (hf : ∀ r, s.slot τ = some r → s.Freeable r k) :
    s.Ok τ (s.localRecord τ k) := by
  unfold localRecord
  split
  · next r hs => exact resume_ok hs ha (hf r hs)
  · next hs => exact ⟨hs, ha⟩

omit [DecidableEq T] in
theorem Clean.freeable (hc : s.Clean τ r) (k : After α) : s.Freeable r k := by
  cases k with
  | task task =>
    cases task with
    | reclaim => trivial
    | synchronize b n => intro j x hx; rw [hc.bags j] at hx; cases hx
  | _ => trivial

omit [DecidableEq T] in
/-- One rotation done: either the next begins, or four have made everything freeable. -/
theorem advanced_ok (h : s.Inv) {task : Task} (ht : s.TaskOk τ s.globalEpoch 1 task) :
    s.Ok τ (s.advanced τ task) := by
  cases task with
  | reclaim within => exact localRecord_ok trivial fun _ _ => trivial
  | synchronize b n =>
    simp only [advanced]
    split
    · exact ht
    · next hn =>
      refine localRecord_ok trivial fun r hs j x hx => ?_
      have := ht r hs j x hx
      exact (h.bags r j x hx).1.safe h (by omega)

omit [DecidableEq T] in
theorem afterFree_ok (h : s.Inv) (hs : s.slot τ = some r) {task : Task} {source : Source}
    (hb : ∀ k, source = .bag k → (s.record r).bags k = []) (he : s.Emptying r task source) :
    s.StepOk τ (s.afterFree r task source) := by
  have hfin : ∀ k j : Fin 3, k ≠ 2 → k < k + 1 ∧ (j < k + 1 → j < k ∨ j = k) := by decide
  have hlast : ∀ j : Fin 3, j < 2 ∨ j = 2 := by decide
  cases source with
  | adopted => exact .returns (.finish h task)
  | bag k =>
    have hk := hb k rfl
    cases task with
    | reclaim => exact .go (.refl h) ⟨hs, trivial⟩
    | synchronize b n =>
      simp only [afterFree]
      split
      · next h2 =>
        subst h2
        refine .go (.refl h) ⟨hs, fun j => ?_⟩
        rcases hlast j with hj | rfl
        · exact he.1 j hj
        · exact hk
      · next h2 =>
        have hlt := (hfin k k h2).1
        refine .go (.refl h) ⟨hs, fun j hj => ?_, fun j hj => ?_, fun j hj => ?_⟩
        · cases hj
          exact ⟨rfl, fun x hx => he.2 _ hlt x (by simpa using hx), nofun⟩
        · rcases (hfin k j h2).2 hj with hj | rfl
          · exact he.1 j hj
          · exact hk
        · exact he.2 j (hlt.trans hj)

/-! ### Starting a call -/

theorem call_ok (h : s.Inv) {c : Call α} {y : EpochDomain T α × Option (Pc α)}
    (hc : s.call τ c = some y) : s.StepOk τ y := by
  cases c with
  | enter =>
    cases hc
    exact .go (.refl h) (localRecord_ok trivial fun _ _ => trivial)
  | leave =>
    simp only [call] at hc
    split at hc
    · next g rest r hg hs => cases hc; exact .returns (.leave h hs hg)
    · cases hc
  | retire p =>
    cases p with
    | none => cases hc; exact .returns (.refl h)
    | some p =>
      cases hc
      exact .go (.quiet h rfl rfl rfl rfl rfl rfl rfl (fun _ hx => hx) h.orphans fun _ _ hm => hm)
        (localRecord_ok le_rfl fun _ _ => trivial)
  | tryReclaim => cases hc; exact .go (.refl h) trivial
  | synchronize =>
    cases hc
    exact .go (.refl h) fun r _ k x hx => (h.bags r k x hx).1.tag_le
  | exit =>
    simp only [call] at hc
    split at hc
    · next hg =>
      split at hc
      · cases hc; exact .returns (.refl h)
      · next r hs => cases hc; exact .go (.refl h) ⟨hs, hg⟩
    · cases hc

/-! ### Registration and guards -/

theorem claim_ok (h : s.Inv) {weak : Bool} {cs : List Nat} (hok : s.Ok τ (.claim k cs)) :
    s.StepOk τ (s.step τ weak (.claim k cs)) := by
  obtain ⟨hs, ha, hcs⟩ := hok
  cases cs with
  | nil => exact .go (.refl h) ⟨hs, ha⟩
  | cons c rest =>
    simp only [step]
    split
    · exact .go (.refl h) ⟨hs, ha, fun x hx => hcs x (List.mem_cons_of_mem _ hx)⟩
    · next hu =>
      obtain ⟨hfree, hst, -⟩ := h.free hu
      have hc := hcs c (List.mem_cons_self ..)
      have htake : s.Move (s.setRecord c { s.record c with
          inUse := true, nesting := 0, owner := some τ }) τ :=
        .take (y := { s.record c with inUse := true, nesting := 0, owner := some τ }) h hfree
          ⟨rfl, rfl, hst, h.idle c hfree⟩ rfl (h.records_lt c hc) le_rfl rfl rfl rfl rfl rfl rfl rfl rfl
      have hclean : Clean (s.setRecord c { s.record c with
          inUse := true, nesting := 0, owner := some τ }) τ c := by
        refine ⟨?_, ?_, ?_, ?_⟩ <;> simp only [setRecord, Function.update_self]
        · exact hst
        · exact h.idle c hfree
      have hbind : Move _ { s.setRecord c { s.record c with
          inUse := true, nesting := 0, owner := some τ } with
        slot := Function.update s.slot τ (some c) } τ :=
        .bind htake.inv hs hclean hc rfl rfl rfl rfl rfl rfl rfl rfl rfl rfl
      exact .go (htake.trans hbind) (resume_ok (Function.update_self ..) ha (hclean.freeable k))

theorem publish_ok (h : s.Inv) {weak : Bool} {head : List Nat} (hok : s.Ok τ (.publish k r head)) :
    s.StepOk τ (s.step τ weak (.publish k r head)) := by
  obtain ⟨hs, ha, hc, hr⟩ := hok
  simp only [step]
  split
  · next he =>
    obtain ⟨rfl, -⟩ := he
    exact .go (.publish h hc hr) ⟨hs, ha, ⟨hc.1, hc.2, hc.3, hc.4⟩, List.mem_cons_self ..⟩
  · exact .go (.refl h) ⟨hs, ha, hc, hr⟩

theorem newRecord_ok (h : s.Inv) {weak : Bool} (hok : s.Ok τ (.newRecord k)) :
    s.StepOk τ (s.step τ weak (.newRecord k)) := by
  obtain ⟨hs, ha⟩ := hok
  have hfree : (s.record s.nextRecord).owner = none := by
    cases ho : (s.record s.nextRecord).owner with
    | none => rfl
    | some τ' => exact absurd (h.owner_lt _ τ' ho) (lt_irrefl _)
  refine .go (.take h hfree ⟨rfl, rfl, rfl, fun _ => rfl⟩ rfl (Nat.lt_succ_self _) (Nat.le_succ _)
    rfl rfl rfl rfl rfl rfl rfl rfl) ⟨hs, ha, ?_, fun hm => absurd (h.records_lt _ hm) (lt_irrefl _)⟩
  refine ⟨?_, ?_, ?_, ?_⟩ <;> simp [setRecord, ThreadRecord.fresh]

theorem countThread_ok (h : s.Inv) {weak : Bool} (hok : s.Ok τ (.countThread k r)) :
    s.StepOk τ (s.step τ weak (.countThread k r)) := by
  obtain ⟨hs, ha, hc, hr⟩ := hok
  exact .go (.bind h hs hc hr rfl rfl rfl rfl rfl rfl rfl rfl rfl rfl)
    (resume_ok (Function.update_self ..) ha (hc.freeable k))

theorem enter_ok (h : s.Inv) {weak : Bool} (hs : s.Ok τ (.enter r)) :
    s.StepOk τ (s.step τ weak (.enter r)) := by
  simp only [step]
  split
  · next hn =>
    have hlen := h.nesting τ r hs
    rw [hn] at hlen
    exact .go (.refl h) ⟨hs, List.length_eq_zero_iff.mp hlen.symm, le_rfl⟩
  · next hn => exact .returns (.openInner h hs hn)

/-! ### `retire_raw` and `try_advance` -/

theorem pushBag_ok (h : s.Inv) {weak : Bool} {e : Nat} (hok : s.Ok τ (.pushBag x r e)) :
    s.StepOk τ (s.step τ weak (.pushBag x r e)) := by
  obtain ⟨hs, hx, rfl⟩ := hok
  refine .go (.setBag h hs fun y hy => ?_) trivial
  rcases List.mem_append.mp hy with hy | hy
  · exact h.bags r _ y hy
  · rw [List.mem_singleton.mp hy]; exact ⟨hx, rfl⟩

theorem retire_ok (h : s.Inv) {weak : Bool} (hok : s.Ok τ (.retire x r)) :
    s.StepOk τ (s.step τ weak (.retire x r)) := by
  obtain ⟨hs, hb⟩ := hok
  refine .go (.refl h) ⟨hs, ⟨le_rfl, hb, fun τ' r' hs' g hg _ => ?_⟩, rfl⟩
  obtain ⟨r'', a, hs'', ha⟩ := h.guarded τ' (List.ne_nil_of_mem hg)
  obtain rfl := Option.some.inj (hs'.symm.trans hs'')
  exact (h.pinned r' a ha).2.1

omit [DecidableEq T] in
theorem TaskOk.mono {task : Task} {e e' n m : Nat} (ht : s.TaskOk τ e n task)
    (hle : e + m ≤ e' + n) : s.TaskOk τ e' m task := by
  cases task with
  | reclaim => trivial
  | synchronize b rot =>
    intro r hs j x hx
    have := ht r hs j x hx
    omega

theorem scan_ok (h : s.Inv) {weak : Bool} {task : Task} {e : Nat} {rest : List Nat}
    (hok : s.Ok τ (.scan task e rest)) : s.StepOk τ (s.step τ weak (.scan task e rest)) := by
  obtain ⟨he, ht, hscan⟩ := hok
  cases rest with
  | nil =>
    have hall : ∀ r a, (s.record r).state = some a → e ≤ (s.record r).since := fun r a ha =>
      not_lt.mp fun hlt => List.not_mem_nil (hscan r a ha hlt)
    simp only [step]
    split
    · next hcas =>
      subst hcas
      exact .go (.advance h hall) (ht.mono (by simp))
    · next hcas => exact .go (.refl h) (advanced_ok h (ht.mono (by omega)))
  | cons c rest =>
    have hnext : (∀ a, (s.record c).state = some a → e ≤ (s.record c).since) →
        s.Ok τ (.scan task e rest) := fun hc => by
      refine ⟨he, ht, fun r a ha hlt => (List.mem_cons.mp (hscan r a ha hlt)).resolve_left ?_⟩
      rintro rfl
      exact absurd hlt (not_lt.mpr (hc a ha))
    simp only [step]
    split
    · next hst => exact .go (.refl h) (hnext fun a ha => by rw [hst] at ha; cases ha)
    · next a hst =>
      split
      · exact .go (.refl h) (ht.mono (by omega))
      · next hae =>
        have hae := not_not.mp hae
        exact .go (.refl h) (hnext fun a' _ => hae ▸ (h.pinned c a hst).1)

theorem countFailed_ok (h : s.Inv) {weak : Bool} {task : Task} (hok : s.Ok τ (.countFailed task)) :
    s.StepOk τ (s.step τ weak (.countFailed task)) := by
  have hm : s.Move { s with failedAdvances := s.failedAdvances + 1 } τ :=
    .quiet h rfl rfl rfl rfl rfl rfl rfl (fun _ hx => hx) h.orphans fun _ _ hm => hm
  cases task with
  | reclaim within => exact .returns (hm.trans (.finish hm.inv _))
  | synchronize b n => exact .go hm hok

/-! ### `free_bag` and `take_orphans` -/

/-- Two epochs on, the ring comes round to the bag of that epoch. -/
theorem ring_distance {t e : Nat} (h : t ≤ e) (hr : ringIndex t = ringIndex (e + 1)) : t + 2 ≤ e := by
  have hmod := congrArg Fin.val hr
  simp only [ringIndex, Fin.ofNat] at hmod
  omega

theorem reclaimEpoch_ok (h : s.Inv) {weak : Bool} {within : Option Nat}
    (hs : s.Ok τ (.reclaimEpoch within r)) :
    s.StepOk τ (s.step τ weak (.reclaimEpoch within r)) := by
  refine .go (.refl h) ⟨hs, fun k hk => ?_, trivial⟩
  cases hk
  refine ⟨rfl, fun x hx => ?_, nofun⟩
  obtain ⟨hx, hr⟩ := h.bags r _ x (by simpa using hx)
  exact hx.safe h (ring_distance hx.tag_le hr)

/-- The end of the loop in `free_bag`. -/
theorem clear_ok (h : s.Inv) (hs : s.slot τ = some r) {task : Task} {source : Source}
    (he : s.Emptying r task source) :
    s.Move (s.clear r source) τ ∧ (s.clear r source).slot τ = some r ∧
      (∀ k, source = .bag k → ((s.clear r source).record r).bags k = []) ∧
      (s.clear r source).Emptying r task source := by
  cases source with
  | adopted => exact ⟨.refl h, hs, nofun, he⟩
  | bag k =>
    have hm : s.Move (s.setBag r k []) τ := .setBag h hs nofun
    have hbag : ∀ j, ((s.clear r (.bag k)).record r).bags j =
        if j = k then [] else (s.record r).bags j := fun j => by
      simp [clear, setBag, setRecord, Function.update_apply]
    refine ⟨hm, hs, fun j hj => by cases hj; rw [hbag, if_pos rfl], ?_⟩
    cases task with
    | reclaim => trivial
    | synchronize b n =>
      refine ⟨fun j hj => ?_, fun j hj x hx => hm.keeps.safe x ?_⟩
      · rw [hbag, if_neg hj.ne]; exact he.1 j hj
      · rw [hbag, if_neg hj.ne'] at hx; exact he.2 j hj x hx

theorem free_ok (h : s.Inv) {weak : Bool} {task : Task} {source : Source}
    {bag : List (Retiree α)} {i : Nat} (hok : s.Ok τ (.free task r source bag i)) :
    s.StepOk τ (s.step τ weak (.free task r source bag i)) := by
  obtain ⟨hs, hbag, he⟩ := hok
  simp only [step]
  split
  · next x hx =>
    refine .go (.quiet h rfl rfl rfl rfl rfl rfl rfl (fun _ => List.mem_cons_of_mem _) h.orphans
      fun _ _ hm => hm) ⟨hs, fun k hk => ?_, ?_⟩
    · obtain ⟨hi, rfl⟩ := List.getElem?_eq_some_iff.mp hx
      obtain ⟨hb, hsafe, hfreed⟩ := hbag k hk
      refine ⟨hb, fun y hy => hsafe y ?_, fun y hy => ?_⟩
      · rw [← List.drop_drop] at hy
        exact List.mem_of_mem_drop hy
      · rw [List.take_succ_eq_append_getElem hi] at hy
        rcases List.mem_append.mp hy with hy | hy
        · exact List.mem_cons_of_mem _ (hfreed y hy)
        · exact List.mem_cons.mpr (.inl (List.mem_singleton.mp hy))
    · cases task <;> cases source <;> exact he
  · obtain ⟨hm, hs', hb', he'⟩ := clear_ok h hs he
    split
    · exact .go hm ⟨hs', hb', he'⟩
    · exact .after hm (afterFree_ok hm.inv hs' hb' he')

theorem countReclaimed_ok (h : s.Inv) {weak : Bool} {task : Task} {source : Source} {count : Nat}
    (hok : s.Ok τ (.countReclaimed task r source count)) :
    s.StepOk τ (s.step τ weak (.countReclaimed task r source count)) := by
  obtain ⟨hs, hb, he⟩ := hok
  have hm : s.Move { s with reclaimed := s.reclaimed + count } τ :=
    .quiet h rfl rfl rfl rfl rfl rfl rfl (fun _ hx => hx) h.orphans fun _ _ hm => hm
  exact .after hm (afterFree_ok hm.inv hs hb (by cases task <;> cases source <;> exact he))

omit [DecidableEq T] in
theorem Move.lock (h : s.Inv) (hl : s.orphanMutex = none) :
    s.Move { s with orphanMutex := some τ } τ :=
  .quiet h rfl rfl rfl rfl rfl rfl rfl (fun _ hx => hx) h.orphans fun _ _ hm => by rw [hl] at hm; cases hm

omit [DecidableEq T] in
theorem Move.unlock (h : s.Inv) (hl : s.orphanMutex = some τ) :
    s.Move { s with orphanMutex := none } τ :=
  .quiet h rfl rfl rfl rfl rfl rfl rfl (fun _ hx => hx) h.orphans fun _ hσ hm =>
    absurd (Option.some.inj (hm.symm.trans hl)) hσ

theorem lockOrphans_ok (h : s.Inv) {weak : Bool} {task : Task} (hok : s.Ok τ (.lockOrphans task r)) :
    s.StepOk τ (s.step τ weak (.lockOrphans task r)) := by
  simp only [step]
  split
  · exact .go (.refl h) hok
  · next hl =>
    exact .go (.lock h (by simpa using hl)) ⟨hok.1, rfl, by cases task <;> exact hok.2⟩

theorem swapOrphans_ok (h : s.Inv) {weak : Bool} {task : Task}
    (hok : s.Ok τ (.swapOrphans task r)) : s.StepOk τ (s.step τ weak (.swapOrphans task r)) := by
  obtain ⟨hs, hl, he⟩ := hok
  exact .go (.quiet h rfl rfl rfl rfl rfl rfl rfl (fun _ hx => hx) nofun
    fun _ _ hm => hm)
    ⟨hs, hl, by cases task <;> exact he⟩

theorem unlockOrphans_ok (h : s.Inv) {weak : Bool} {task : Task} {adopted : List (Retiree α)}
    (hok : s.Ok τ (.unlockOrphans task r adopted)) :
    s.StepOk τ (s.step τ weak (.unlockOrphans task r adopted)) := by
  obtain ⟨hs, hl, he⟩ := hok
  have hm := Move.unlock h hl
  simp only [step]
  split
  · exact .returns (hm.trans (.finish hm.inv _))
  · exact .go hm ⟨hs, nofun, by cases task <;> exact he⟩

/-! ### `release_thread_record` -/

theorem exitMove_ok (h : s.Inv) {weak : Bool} {k : Fin 3} (hok : s.Ok τ (.exitMove r k)) :
    s.StepOk τ (s.step τ weak (.exitMove r k)) := by
  obtain ⟨hs, hg, hl, hb⟩ := hok
  have hfin : ∀ k j : Fin 3, k ≠ 2 → j < k + 1 → j < k ∨ j = k := by decide
  have hlast : ∀ j : Fin 3, j < 2 ∨ j = 2 := by decide
  have hset : s.Move (s.setBag r k []) τ := .setBag h hs nofun
  have hm : s.Move { s.setBag r k [] with orphans := s.orphans ++ (s.record r).bags k } τ := by
    refine hset.trans (.quiet hset.inv rfl rfl rfl rfl rfl rfl rfl (fun _ hx => hx) (fun x hx => ?_)
      fun _ _ hm => hm)
    rcases List.mem_append.mp hx with hx | hx
    · exact hset.keeps.settled x (h.orphans x hx)
    · exact hset.keeps.settled x (h.bags r k x hx).1
  have hbag : ∀ j, j < k ∨ j = k → ((s.setBag r k []).record r).bags j = [] := fun j hj => by
    simp only [setBag, setRecord, Function.update_self, Function.update_apply]
    split
    · rfl
    · next hne => exact hb j (hj.resolve_right hne)
  simp only [step]
  split
  · next h2 =>
    subst h2
    exact .go hm ⟨hs, hg, hl, fun j => hbag j (hlast j)⟩
  · next h2 => exact .go hm ⟨hs, hg, hl, fun j hj => hbag j (hfin k j h2 hj)⟩

theorem exitState_ok (h : s.Inv) {weak : Bool} (hok : s.Ok τ (.exitState r)) :
    s.StepOk τ (s.step τ weak (.exitState r)) := by
  obtain ⟨hs, hg, hb⟩ := hok
  refine .go (.exitState h hs hg) ⟨hs, hg, ?_, ?_⟩
  · simpa [setRecord] using hb
  · simp [setRecord]

/-! ### One step of a thread -/

theorem step_ok (h : s.Inv) {weak : Bool} {pc : Pc α} (hok : s.Ok τ pc) :
    s.StepOk τ (s.step τ weak pc) := by
  have hquiet : ∀ {s' : EpochDomain T α}, s'.globalEpoch = s.globalEpoch → s'.records = s.records →
      s'.record = s.record → s'.nextRecord = s.nextRecord → s'.slot = s.slot →
      s'.guards = s.guards → s'.nextGuard = s.nextGuard → (∀ x ∈ s.freed, x ∈ s'.freed) →
      s'.orphans = s.orphans → s'.orphanMutex = s.orphanMutex → s.Move s' τ :=
    fun h₁ h₂ h₃ h₄ h₅ h₆ h₇ h₀ h₈ h₉ =>
      .quiet h h₁ h₂ h₃ h₄ h₅ h₆ h₇ h₀ (h₈ ▸ h.orphans) fun _ _ hm => h₉ ▸ hm
  cases pc with
  | loadRecords k => exact .go (.refl h) ⟨hok.1, hok.2, fun _ hc => hc⟩
  | claim => exact claim_ok h hok
  | newRecord => exact newRecord_ok h hok
  | publish => exact publish_ok h hok
  | countThread => exact countThread_ok h hok
  | enter => exact enter_ok h hok
  | announce => exact .returns (.announce h hok.1 hok.2.1 hok.2.2)
  | retire => exact retire_ok h hok
  | pushBag => exact pushBag_ok h hok
  | countRetired => exact .go (hquiet rfl rfl rfl rfl rfl rfl rfl (fun _ hx => hx) rfl rfl) trivial
  | countAttempt stamp =>
    simp only [step]
    split
    · exact .go (hquiet rfl rfl rfl rfl rfl rfl rfl (fun _ hx => hx) rfl rfl) trivial
    · exact .returns (hquiet rfl rfl rfl rfl rfl rfl rfl (fun _ hx => hx) rfl rfl)
  | resetAttempt => exact .go (hquiet rfl rfl rfl rfl rfl rfl rfl (fun _ hx => hx) rfl rfl) trivial
  | tryAdvance => exact .go (.refl h) ⟨le_rfl, hok⟩
  | scanHead task e =>
    refine .go (.refl h) ⟨hok.1, hok.2, fun r a ha _ => ?_⟩
    obtain ⟨-, -, -, σ, hs, -⟩ := h.pinned r a ha
    exact (h.slot σ r hs).2
  | scan => exact scan_ok h hok
  | countFailed => exact countFailed_ok h hok
  | countAdvance task =>
    have hm : s.Move { s with advances := s.advances + 1 } τ :=
      hquiet rfl rfl rfl rfl rfl rfl rfl (fun _ hx => hx) rfl rfl
    exact .go hm (advanced_ok hm.inv (by cases task <;> exact hok))
  | reclaimEpoch => exact reclaimEpoch_ok h hok
  | free => exact free_ok h hok
  | countReclaimed => exact countReclaimed_ok h hok
  | lockOrphans => exact lockOrphans_ok h hok
  | swapOrphans => exact swapOrphans_ok h hok
  | unlockOrphans => exact unlockOrphans_ok h hok
  | exitLock r =>
    simp only [step]
    split
    · exact .go (.refl h) hok
    · next hl => exact .go (.lock h (by simpa using hl)) ⟨hok.1, hok.2, rfl, nofun⟩
  | exitMove => exact exitMove_ok h hok
  | exitUnlock r => exact .go (.unlock h hok.2.2.1) ⟨hok.1, hok.2.1, hok.2.2.2⟩
  | exitState => exact exitState_ok h hok
  | exitInUse r => exact .returns (.release h hok.1 hok.2.1 hok.2.2.1 hok.2.2.2)

end EpochDomain

end RcuFib
