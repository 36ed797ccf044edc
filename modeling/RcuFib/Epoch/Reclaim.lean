import RcuFib.Epoch.Residents

/-! What one `try_reclaim` leaves behind.

    The call frees the bag of epoch `E - 2`, where `E` is the epoch it reads after its advance. Other
    threads may have taken the epoch past the turn of the two other bags: what is in them stays, however
    old it is. A bag's turn comes when its thread reads an epoch that asks for it, in `synchronize`, or
    when the thread ends, and between its turns nothing leaves it. So a call leaves nothing that is safe
    to free exactly if the turn of everything that old has come since it was retired. -/

namespace RcuFib

open Trace

namespace EpochDomain
variable {T α : Type*} [DecidableEq T] {s : EpochDomain T α} {τ : T} {rec : Nat} {k : Fin 3}
  {B : Fin 3 → List (Retiree α)} {pc : Pc α}

/-- The rest of a `try_reclaim` that frees bag `k`; `B` are the bags of the thread when it starts. -/
def Sweep (s : EpochDomain T α) (rec : Nat) (k : Fin 3) (B : Fin 3 → List (Retiree α)) :
    Option (Pc α) → Prop
  | some (.free (.reclaim _) r (.bag j) _ _) => r = rec ∧ j = k ∧ (s.record rec).bags = B
  | some (.free (.reclaim _) r .adopted _ _) | some (.countReclaimed (.reclaim _) r _ _)
  | some (.lockOrphans (.reclaim _) r) | some (.swapOrphans (.reclaim _) r)
  | some (.unlockOrphans (.reclaim _) r _) => r = rec ∧ (s.record rec).bags = Function.update B k []
  | none => (s.record rec).bags = Function.update B k []
  | _ => False

omit [DecidableEq T] in
theorem Sweep.congr {s' : EpochDomain T α} {x : Option (Pc α)} (h : s.Sweep rec k B x)
    (hr : s'.record rec = s.record rec) : s'.Sweep rec k B x := by
  unfold Sweep at h ⊢
  rw [hr]
  exact h

omit [DecidableEq T] in
theorem record_finish (s : EpochDomain T α) (task : Task) : (s.finish task).record = s.record := by
  unfold finish
  split <;> rfl

omit [DecidableEq T] in
theorem record_afterFree (s : EpochDomain T α) (r : Nat) (task : Task) (source : Source) :
    (s.afterFree r task source).1.record = s.record := by
  cases source with
  | adopted => exact s.record_finish task
  | bag k => cases task <;> rfl

/-- Until it returns, the call does nothing to the bags but clear bag `k`. -/
theorem sweep_step (h : s.Sweep rec k B (some pc)) (weak : Bool) :
    (s.step τ weak pc).1.slot = s.slot ∧ (s.step τ weak pc).1.Sweep rec k B (s.step τ weak pc).2 := by
  cases pc with
  | free task r source bag i =>
    cases task with
    | synchronize => exact h.elim
    | reclaim within =>
      cases source with
      | bag j =>
        obtain ⟨rfl, rfl, hbags⟩ := h
        simp only [step]
        split
        · exact ⟨rfl, rfl, rfl, hbags⟩
        · have hclear : ((s.clear r (.bag j)).record r).bags = Function.update B j [] := by
            simp [clear, setBag, setRecord, hbags]
          split
          · exact ⟨rfl, rfl, hclear⟩
          · exact ⟨rfl, rfl, hclear⟩
      | adopted =>
        obtain ⟨rfl, hbags⟩ := h
        simp only [step]
        split
        · exact ⟨rfl, rfl, hbags⟩
        · split
          · exact ⟨rfl, rfl, hbags⟩
          · refine ⟨slot_finish s _, ?_⟩
            simp only [clear, afterFree, Sweep, record_finish]
            exact hbags
  | countReclaimed task r source count =>
    cases task with
    | synchronize => exact h.elim
    | reclaim within =>
      obtain ⟨rfl, hbags⟩ := h
      cases source with
      | bag j => exact ⟨rfl, rfl, hbags⟩
      | adopted =>
        refine ⟨slot_finish _ _, ?_⟩
        simp only [step, afterFree, Sweep, record_finish]
        exact hbags
  | lockOrphans task r =>
    cases task with
    | synchronize => exact h.elim
    | reclaim within =>
      simp only [step]
      split
      · exact ⟨rfl, h⟩
      · exact ⟨rfl, h⟩
  | swapOrphans task r =>
    cases task with
    | synchronize => exact h.elim
    | reclaim within => exact ⟨rfl, h⟩
  | unlockOrphans task r adopted =>
    cases task with
    | synchronize => exact h.elim
    | reclaim within =>
      obtain ⟨rfl, hbags⟩ := h
      simp only [step]
      split
      · refine ⟨slot_finish _ _, ?_⟩
        simp only [Sweep, record_finish]
        exact hbags
      · exact ⟨rfl, rfl, hbags⟩
  | _ => exact h.elim

/-! ### The turns of a bag -/

/-- It is the turn of bag `k`: the thread is about to free it, in `try_reclaim` by the epoch it reads, or
    hands it over as it ends. -/
def Empties (s : EpochDomain T α) (k : Fin 3) : Pc α → Prop
  | .reclaimEpoch _ _ => ringIndex (s.globalEpoch + 1) = k
  | .free (.synchronize _ _) _ (.bag j) _ _ => j = k
  | .exitMove _ j => j = k
  | _ => False

/-- `free_bag` is at work on bag `k`. -/
def Freeing (k : Fin 3) : Option (Pc α) → Prop
  | some (.free _ _ (.bag j) _ _) => j = k
  | _ => False

/-- Bag `k` has not had its turn yet. -/
def Spares (k : Fin 3) : Option (Pc α) → Prop
  | some (.free (.reclaim _) _ (.bag j) _ _) => j ≠ k
  | some (.exitMove _ j) => j ≤ k
  | some (.exitUnlock _) | some (.exitState _) | some (.exitInUse _) => False
  | _ => True

/-- The thread neither carries an object to a bag nor has begun a bag's turn. -/
def Apart : Option (Pc α) → Prop
  | some (.pushBag _ _ _) | some (.free (.reclaim _) _ (.bag _) _ _) | some (.exitMove _ _)
  | some (.exitUnlock _) | some (.exitState _) | some (.exitInUse _) => False
  | _ => True

theorem Apart.spares {x : Option (Pc α)} (h : Apart x) : Spares k x := by
  cases x with
  | none => trivial
  | some pc =>
    cases pc with
    | free task r source => cases task <;> cases source <;> trivial
    | exitMove | exitUnlock | exitState | exitInUse => exact h.elim
    | _ => trivial

omit [DecidableEq T] in
theorem apart_resume (s : EpochDomain T α) (c : After α) : Apart (some (s.resume rec c)) := by
  cases c with
  | task task => cases task <;> trivial
  | _ => trivial

omit [DecidableEq T] in
theorem apart_localRecord (s : EpochDomain T α) (c : After α) : Apart (some (s.localRecord τ c)) := by
  unfold localRecord
  split
  · exact apart_resume s c
  · trivial

omit [DecidableEq T] in
theorem apart_advanced (s : EpochDomain T α) (task : Task) : Apart (some (s.advanced τ task)) := by
  cases task with
  | reclaim within => exact apart_localRecord s _
  | synchronize before rotation =>
    simp only [advanced]
    split
    · trivial
    · exact apart_localRecord s _

omit [DecidableEq T] in
theorem apart_afterFree (s : EpochDomain T α) (task : Task) (source : Source) :
    Apart (s.afterFree rec task source).2 := by
  cases source with
  | adopted => trivial
  | bag j =>
    cases task with
    | reclaim within => trivial
    | synchronize before rotation =>
      simp only [afterFree]
      split <;> trivial

theorem apart_call {c : Call α} {x : EpochDomain T α × Option (Pc α)} (hc : s.call τ c = some x) :
    Apart x.2 := by
  cases c with
  | enter => cases hc; exact apart_localRecord s _
  | leave =>
    simp only [call] at hc
    split at hc
    · cases hc
      trivial
    · cases hc
  | retire p =>
    cases p with
    | none => cases hc; trivial
    | some p => cases hc; exact apart_localRecord _ _
  | tryReclaim | synchronize => cases hc; trivial
  | exit =>
    simp only [call] at hc
    split at hc
    · split at hc <;> · cases hc; trivial
    · cases hc

omit [DecidableEq T] in
theorem Apart.not_push {y : Option (Pc α)} {x : Retiree α} {e : Nat} (h : Apart y) :
    y ≠ some (.pushBag x rec e) := by
  rintro rfl
  exact h

/-- Before it pushes an object, a thread reads the epoch it is to be pushed under. -/
theorem retire_of_push {weak : Bool} {x : Retiree α} {e : Nat}
    (h : (s.step τ weak pc).2 = some (.pushBag x rec e)) :
    ∃ y, pc = .retire y rec ∧ s.globalEpoch = e := by
  cases pc with
  | retire y r =>
    cases h
    exact ⟨y, rfl, rfl⟩
  | claim c cs =>
    cases cs with
    | nil => cases h
    | cons c' cs =>
      simp only [step] at h
      split at h
      · cases h
      · exact absurd h (apart_resume _ c).not_push
  | countThread c => exact absurd h (apart_resume _ _).not_push
  | publish | enter | countAttempt | lockOrphans | exitLock | unlockOrphans =>
    simp only [step] at h
    split at h <;> cases h
  | scan task e' rest =>
    cases rest with
    | nil =>
      simp only [step] at h
      split at h
      · cases h
      · exact absurd h (apart_advanced s task).not_push
    | cons c rest =>
      simp only [step] at h
      split at h
      · cases h
      · split at h <;> cases h
  | countFailed task => cases task <;> cases h
  | countAdvance task => exact absurd h (apart_advanced _ task).not_push
  | free task r source bag i =>
    simp only [step] at h
    split at h
    · cases h
    · split at h
      · cases h
      · exact absurd h (apart_afterFree _ task source).not_push
  | countReclaimed task r source => exact absurd h (apart_afterFree _ task source).not_push
  | exitMove r j =>
    simp only [step] at h
    split at h <;> cases h
  | _ => cases h

/-- A step of the thread at a bag's turn takes it somewhere else. -/
theorem Empties.moves (h : s.Empties k pc) (weak : Bool) : (s.step τ weak pc).2 ≠ some pc := by
  cases pc with
  | reclaimEpoch => simp [step, freeBag]
  | free task r source bag i =>
    simp only [step]
    split
    · simp
    · split
      · simp
      · cases source with
        | adopted => simp [afterFree]
        | bag j => cases task <;> simp only [afterFree, freeBag] <;> grind
  | exitMove r j => simp only [step]; grind
  | _ => exact h.elim

omit [DecidableEq T] in
theorem mem_bags_update {s' : EpochDomain T α} {r : Nat} {y : ThreadRecord T α} {x : Retiree α}
    (hr : s'.record = Function.update s.record r y) (hy : y.bags = (s.record r).bags)
    (hx : x ∈ (s.record rec).bags k) : x ∈ (s'.record rec).bags k := by
  rw [hr]
  rcases eq_or_ne rec r with rfl | hne
  · rwa [Function.update_self, hy]
  · rwa [Function.update_of_ne hne]

omit [DecidableEq T] in
theorem mem_setBag {r : Nat} {j : Fin 3} {bag : List (Retiree α)} {x : Retiree α}
    (hbag : r = rec → j = k → x ∈ bag) (hx : x ∈ (s.record rec).bags k) :
    x ∈ ((s.setBag r j bag).record rec).bags k := by
  rcases eq_or_ne rec r with rfl | hr
  · rcases eq_or_ne k j with rfl | hj
    · simpa [setBag, setRecord] using hbag rfl rfl
    · simpa [setBag, setRecord, hj] using hx
  · simpa [setBag, setRecord, hr] using hx

/-- Until its turn comes nothing leaves a bag. -/
theorem spares_step (hok : s.Ok τ pc) (hs : s.slot τ = some rec) (hk : Spares k (some pc))
    (he : ¬s.Empties k pc) (weak : Bool) :
    (∀ x ∈ (s.record rec).bags k, x ∈ ((s.step τ weak pc).1.record rec).bags k) ∧
      Spares k (s.step τ weak pc).2 := by
  cases pc with
  | loadRecords | claim | newRecord | publish | countThread => cases hs.symm.trans hok.1
  | exitUnlock | exitState | exitInUse => exact hk.elim
  | enter r =>
    simp only [step]
    split
    · exact ⟨fun _ hx => hx, trivial⟩
    · exact ⟨fun x hx => mem_bags_update rfl rfl hx, trivial⟩
  | announce r e =>
    have hpin : ∀ x ∈ (s.record rec).bags k, x ∈ ((s.setRecord r { s.record r with
        state := some e, since := s.globalEpoch }).record rec).bags k :=
      fun x hx => mem_bags_update rfl rfl hx
    exact ⟨fun x hx => mem_bags_update rfl rfl (hpin x hx), trivial⟩
  | pushBag x r e =>
    refine ⟨fun y hy => mem_setBag ?_ hy, trivial⟩
    rintro rfl rfl
    exact List.mem_append_left _ hy
  | countAttempt stamp =>
    simp only [step]
    split
    · exact ⟨fun _ hx => hx, trivial⟩
    · exact ⟨fun _ hx => hx, trivial⟩
  | scan task e rest =>
    cases rest with
    | nil =>
      simp only [step]
      split
      · exact ⟨fun _ hx => hx, trivial⟩
      · exact ⟨fun _ hx => hx, (apart_advanced s task).spares⟩
    | cons c rest =>
      simp only [step]
      split
      · exact ⟨fun _ hx => hx, trivial⟩
      · split <;> exact ⟨fun _ hx => hx, trivial⟩
  | countFailed task =>
    cases task with
    | reclaim within => exact ⟨fun _ hx => by rwa [step, record_finish], trivial⟩
    | synchronize => exact ⟨fun _ hx => hx, trivial⟩
  | countAdvance task => exact ⟨fun _ hx => hx, (apart_advanced _ task).spares⟩
  | reclaimEpoch within r => exact ⟨fun _ hx => hx, he⟩
  | free task r source bag i =>
    have hne : ∀ j, source = .bag j → j ≠ k := by
      rintro j rfl
      cases task with
      | reclaim => exact hk
      | synchronize => exact he
    have hclear : ∀ x ∈ (s.record rec).bags k, x ∈ ((s.clear r source).record rec).bags k := by
      intro x hx
      cases source with
      | bag j => exact mem_setBag (fun _ hj => absurd hj (hne j rfl)) hx
      | adopted => exact hx
    simp only [step]
    split
    · refine ⟨fun _ hx => hx, ?_⟩
      cases task with
      | reclaim => cases source <;> exact hk
      | synchronize => cases source <;> trivial
    · split
      · exact ⟨hclear, trivial⟩
      · exact ⟨fun x hx => by rw [record_afterFree]; exact hclear x hx, (apart_afterFree _ task source).spares⟩
  | countReclaimed task r source count =>
    exact ⟨fun _ hx => by rwa [step, record_afterFree], (apart_afterFree _ task source).spares⟩
  | lockOrphans task r =>
    simp only [step]
    split <;> exact ⟨fun _ hx => hx, trivial⟩
  | unlockOrphans task r adopted =>
    simp only [step]
    split
    · exact ⟨fun _ hx => by rwa [record_finish], trivial⟩
    · refine ⟨fun _ hx => hx, ?_⟩
      cases task <;> trivial
  | exitLock r =>
    simp only [step]
    split
    · exact ⟨fun _ hx => hx, trivial⟩
    · exact ⟨fun _ hx => hx, Fin.zero_le k⟩
  | exitMove r j =>
    have hlt : j < k := lt_of_le_of_ne hk he
    refine ⟨fun x hx => mem_setBag (fun _ hj => absurd hj hlt.ne) hx, ?_⟩
    simp only [step]
    split
    · omega
    · exact Fin.add_one_le_of_lt hlt
  | _ => exact ⟨fun _ hx => hx, trivial⟩

/-- Once `free_bag` is at work on a bag it goes on until the bag is empty. -/
theorem freeing_step (hok : s.Ok τ pc) (hs : s.slot τ = some rec) (hk : Freeing k (some pc))
    (weak : Bool) :
    Freeing k (s.step τ weak pc).2 ∨ ((s.step τ weak pc).1.record rec).bags k = [] := by
  cases pc with
  | free task r source bag i =>
    cases source with
    | adopted => exact hk.elim
    | bag j =>
      obtain rfl : j = k := hk
      obtain rfl : r = rec := Option.some.inj (hok.1.symm.trans hs)
      have hclear : ((s.clear r (.bag j)).record r).bags j = [] := by
        simp [clear, setBag, setRecord]
      simp only [step]
      split
      · exact .inl rfl
      · right
        split
        · exact hclear
        · rw [record_afterFree]
          exact hclear
  | _ => exact hk.elim

/-- A bag's turn empties it. -/
theorem Empties.turn (h : s.Empties k pc) (hok : s.Ok τ pc) (hs : s.slot τ = some rec)
    (weak : Bool) :
    Freeing k (s.step τ weak pc).2 ∨ ((s.step τ weak pc).1.record rec).bags k = [] := by
  cases pc with
  | reclaimEpoch within r => exact .inl h
  | free task r source bag i =>
    refine freeing_step hok hs ?_ weak
    cases task <;> cases source <;> first | exact h | exact h.elim
  | exitMove r j =>
    obtain rfl : j = k := h
    obtain rfl : r = rec := Option.some.inj (hok.1.symm.trans hs)
    right
    simp [step, setBag, setRecord]
  | _ => exact h.elim

end EpochDomain

namespace EpochSystem
variable {T α : Type*} [DecidableEq T] {s s' : EpochSystem T α} {a : Action T α}

/-- An action, as thread `τ` sees it: another's, a step of its own, or a call of its own. -/
theorem turn_act (h : s.Inv) (ha : act s a = some s') (τ : T) :
    (s.dom.Rely s'.dom τ ∧ s'.pc τ = s.pc τ) ∨
    (∃ weak pc, a = .step τ weak ∧ s.pc τ = some pc ∧ s'.dom = (s.dom.step τ weak pc).1 ∧
      s'.pc τ = (s.dom.step τ weak pc).2) ∨
    ∃ c x, a = .call τ c ∧ s.pc τ = none ∧ s.dom.call τ c = some x ∧ s'.dom = x.1 ∧ s'.pc τ = x.2 := by
  obtain ⟨σ, x, rfl, ⟨c, rfl, hpc, hc⟩ | ⟨weak, pc, rfl, hpc, rfl⟩⟩ := act_cases ha
  · rcases eq_or_ne τ σ with rfl | hne
    · exact .inr (.inr ⟨c, x, rfl, hpc, hc, rfl, by simp⟩)
    · exact .inl ⟨(EpochDomain.call_ok h.dom hc).1.rely τ hne, by simp [hne]⟩
  · rcases eq_or_ne τ σ with rfl | hne
    · exact .inr (.inl ⟨weak, pc, rfl, hpc, rfl, by simp⟩)
    · have hok : s.dom.StepOk σ (s.dom.step σ weak pc) := EpochDomain.step_ok h.dom (h.ok σ pc hpc)
      exact .inl ⟨hok.1.rely τ hne, by simp [hne]⟩

section turns
variable {r : Nat → EpochSystem T α} {n i m : Nat} {τ : T} {k : Fin 3} {rec e : Nat}

/-- In its step at `m` thread `τ` reads epoch `e` to retire an object under. -/
def RetiresAt (r : Nat → EpochSystem T α) (τ : T) (e m : Nat) : Prop :=
  ∃ x rec weak, (r m).pc τ = some (.retire x rec) ∧ act (r m) (.step τ weak) = some (r (m + 1)) ∧
    (r m).dom.globalEpoch = e

/-- In its step at `l` thread `τ` comes to bag `k`. -/
def TurnAt (r : Nat → EpochSystem T α) (τ : T) (k : Fin 3) (l : Nat) : Prop :=
  ∃ pc weak, (r l).pc τ = some pc ∧ act (r l) (.step τ weak) = some (r (l + 1)) ∧
    (r l).dom.Empties k pc

/-- Something was retired at epoch `e`, and the turn of its bag has not come since. -/
def Waiting (r : Nat → EpochSystem T α) (τ : T) (e : Nat) : Nat → Prop :=
  Since (RetiresAt r τ e) (TurnAt r τ (EpochDomain.ringIndex e))

theorem TurnAt.moves (h : TurnAt r τ k i) : (r (i + 1)).pc τ ≠ (r i).pc τ := by
  obtain ⟨pc, weak, hpc, ha, hturn⟩ := h
  simp only [act, hpc, Option.map_some, Option.some.injEq] at ha
  rw [← ha, hpc]
  simp only [Function.update_self]
  exact hturn.moves weak

/-- Where the objects in the bags of a thread come from. -/
structure Dated (r : Nat → EpochSystem T α) (τ : T) (i : Nat) (s : EpochSystem T α) : Prop where
  bags : ∀ rec, s.dom.slot τ = some rec → ∀ k, ∀ x ∈ (s.dom.record rec).bags k,
    EpochDomain.Freeing k (s.pc τ) ∨ Waiting r τ x.tag i
  push : ∀ x rec e, s.pc τ = some (.pushBag x rec e) → Waiting r τ e i

theorem dated_step (hinv : (r i).Inv) (hd : Dated r τ i (r i)) (ha : act (r i) a = some (r (i + 1))) :
    Dated r τ (i + 1) (r (i + 1)) := by
  rcases turn_act hinv ha τ with ⟨hrely, hsame⟩ | ⟨weak, pc, rfl, hpc, hdom, hnext⟩ |
    ⟨c, x, -, hidle, hc, hdom, hnext⟩
  · have hlater : ∀ e, Waiting r τ e i → Waiting r τ e (i + 1) := by
      intro e hw
      exact hw.later fun hturn => hturn.moves hsame
    refine ⟨fun rec hs k x hx => ?_, fun x rec e hp => ?_⟩
    · rw [hrely.slot] at hs
      rw [hrely.record rec (hinv.dom.slot τ rec hs).1] at hx
      rw [hsame]
      exact (hd.bags rec hs k x hx).imp_right (hlater _)
    · rw [hsame] at hp
      exact hlater e (hd.push x rec e hp)
  · have hok := hinv.ok τ pc hpc
    have hlater : ∀ e, ¬(r i).dom.Empties (EpochDomain.ringIndex e) pc → Waiting r τ e i →
        Waiting r τ e (i + 1) := by
      rintro e hturn hw
      refine hw.later ?_
      rintro ⟨pc', weak', hpc', -, hturn'⟩
      obtain rfl := Option.some.inj (hpc.symm.trans hpc')
      exact hturn hturn'
    refine ⟨fun rec hs k x hx => ?_, fun x rec e hp => ?_⟩
    · rw [hdom] at hs hx
      rw [hnext]
      have hcome := (EpochDomain.moved_step hinv.dom τ weak pc).bags rec k x hx
      rcases hcome with hold | ⟨e, rfl⟩
      · rcases EpochDomain.slot_step hinv.dom hok weak hs with hslot | hempty
        · have hturned : EpochDomain.Freeing k ((r i).dom.step τ weak pc).2 ∨
              (((r i).dom.step τ weak pc).1.record rec).bags k = [] →
              EpochDomain.Freeing k ((r i).dom.step τ weak pc).2 := by
            intro hor
            refine hor.resolve_right fun hnil => ?_
            rw [hnil] at hx
            cases hx
          rcases hd.bags rec hslot k x hold with hfree | hw
          · rw [hpc] at hfree
            exact .inl (hturned (EpochDomain.freeing_step hok hslot hfree weak))
          · obtain rfl := (hinv.dom.bags rec k x hold).2
            by_cases hturn : (r i).dom.Empties (EpochDomain.ringIndex x.tag) pc
            · exact .inl (hturned (hturn.turn hok hslot weak))
            · exact .inr (hlater x.tag hturn hw)
        · rw [hempty k] at hold
          cases hold
      · right
        rw [hok.2.2]
        exact hlater e id (hd.push x rec e hpc)
    · rw [hnext] at hp
      obtain ⟨y, rfl, rfl⟩ := EpochDomain.retire_of_push hp
      exact .now ⟨y, rec, weak, hpc, ha, rfl⟩
  · have hmoved := (EpochDomain.moved_call hc).2
    refine ⟨fun rec hs k x hx => ?_, fun x rec e hp => ?_⟩
    · rw [hdom, (EpochDomain.steady_call hc).slot] at hs
      rw [hdom, (hmoved rec).1] at hx
      rcases hd.bags rec hs k x hx with hfree | hw
      · rw [hidle] at hfree
        exact hfree.elim
      · refine .inr (hw.later ?_)
        rintro ⟨pc, -, hpc, -⟩
        cases hidle.symm.trans hpc
    · rw [hnext] at hp
      exact absurd hp (EpochDomain.apart_call hc).not_push

/-- Every object in a bag of a thread was retired by it since the last turn of that bag. -/
theorem dated_run (h : Run act init r n) : ∀ i ≤ n, Dated r τ i (r i) := by
  intro i
  refine h.along (Q := Dated r τ) ?_ (fun m a _ hm hd ha => dated_step (inv_run h m hm.le) hd ha) i
    (Nat.zero_le i)
  rw [h.start]
  refine ⟨?_, ?_⟩
  · intro rec hs
    cases hs
  · intro x rec e hp
    cases hp

/-- What was retired at epoch `e` is on its way to its bag or in it, and the turn of the bag is to come. -/
def Kept (s : EpochSystem T α) (τ : T) (e : Nat) : Prop :=
  ∃ rec, s.dom.slot τ = some rec ∧ ((∃ x, s.pc τ = some (.pushBag x rec e)) ∨
    (∃ x ∈ (s.dom.record rec).bags (EpochDomain.ringIndex e), x.tag = e) ∧
      EpochDomain.Spares (EpochDomain.ringIndex e) (s.pc τ))

theorem kept_step (hinv : s.Inv) (hk : s.Kept τ e) (ha : act s a = some s')
    (hturn : ∀ pc weak, a = .step τ weak → s.pc τ = some pc →
      ¬s.dom.Empties (EpochDomain.ringIndex e) pc) : s'.Kept τ e := by
  obtain ⟨rec, hslot, hplace⟩ := hk
  rcases turn_act hinv ha τ with ⟨hrely, hsame⟩ | ⟨weak, pc, rfl, hpc, hdom, hnext⟩ |
    ⟨c, x, -, hidle, hc, hdom, hnext⟩
  · refine ⟨rec, hrely.slot.trans hslot, ?_⟩
    rw [hsame, hrely.record rec (hinv.dom.slot τ rec hslot).1]
    exact hplace
  · have hok := hinv.ok τ pc hpc
    refine ⟨rec, ?_, ?_⟩
    · rw [hdom, EpochDomain.slot_kept hok hslot ?_ weak]
      · exact hslot
      · rintro c rfl
        rcases hplace with ⟨x, hp⟩ | ⟨-, hspares⟩
        · cases hpc.symm.trans hp
        · rw [hpc] at hspares
          exact hspares
    · rw [hdom, hnext]
      right
      rcases hplace with ⟨x, hp⟩ | ⟨⟨x, hx, htag⟩, hspares⟩
      · obtain rfl := Option.some.inj (hpc.symm.trans hp)
        refine ⟨⟨x, ?_, hok.2.2⟩, trivial⟩
        simp [EpochDomain.step, EpochDomain.setBag, EpochDomain.setRecord]
      · rw [hpc] at hspares
        obtain ⟨hbags, hspares'⟩ :=
          EpochDomain.spares_step hok hslot hspares (hturn pc weak rfl hpc) weak
        exact ⟨⟨x, hbags x hx, htag⟩, hspares'⟩
  · refine ⟨rec, ?_, .inr ⟨?_, ?_⟩⟩
    · rw [hdom, (EpochDomain.steady_call hc).slot]
      exact hslot
    · rcases hplace with ⟨x, hp⟩ | ⟨hx, -⟩
      · cases hidle.symm.trans hp
      · rw [hdom, ((EpochDomain.moved_call hc).2 rec).1]
        exact hx
    · rw [hnext]
      exact (EpochDomain.apart_call hc).spares

/-- Until the turn of its bag comes a retired object is kept. -/
theorem kept_run (h : Run act init r n) (hm : RetiresAt r τ e m) (hmi : m < i) (hi : i ≤ n)
    (hturn : ∀ l, m < l → l < i → ¬TurnAt r τ (EpochDomain.ringIndex e) l) : (r i).Kept τ e := by
  have hinv := inv_run h
  have hstart : (r (m + 1)).Kept τ e := by
    obtain ⟨x, rec, weak, hpc, ha, rfl⟩ := hm
    have hslot : (r m).dom.slot τ = some rec := ((hinv m (by omega)).ok τ _ hpc).1
    simp only [act, hpc, Option.map_some, Option.some.injEq] at ha
    rw [← ha]
    exact ⟨rec, hslot, .inl ⟨_, Function.update_self ..⟩⟩
  refine h.along (Q := fun l s => l ≤ i → s.Kept τ e) (fun _ => hstart) ?_ i hmi hi le_rfl
  intro l a hl hln hprev ha hli
  refine kept_step (hinv l hln.le) (hprev (Nat.le_of_succ_le hli)) ha ?_
  rintro pc weak rfl hpc hempties
  exact hturn l hl hli ⟨pc, weak, hpc, ha, hempties⟩

end turns

section reclaim
variable {r : Nat → EpochSystem T α} {n i j : Nat} {τ : T} {weak : Bool} {within : Option Nat} {rec : Nat}

/-- When the call returns, the bag of epoch `E - 2` is empty and the two others are as they were. -/
theorem bags_reclaimed (h : Run act init r n) (hpc : (r i).pc τ = some (.reclaimEpoch within rec))
    (ha : act (r i) (.step τ weak) = some (r (i + 1))) (hij : i < j) (hj : j ≤ n)
    (hcall : ∀ m, i < m → m < j → (r m).pc τ ≠ none) (hret : (r j).pc τ = none) :
    (r j).dom.slot τ = some rec ∧ ((r j).dom.record rec).bags =
      Function.update ((r i).dom.record rec).bags
        (EpochDomain.ringIndex ((r i).dom.globalEpoch + 1)) [] := by
  have hinv := inv_run h
  have hrun : ∀ m, i + 1 ≤ m → m ≤ n → m ≤ j → (r m).dom.slot τ = some rec ∧
      (r m).dom.Sweep rec (EpochDomain.ringIndex ((r i).dom.globalEpoch + 1))
        ((r i).dom.record rec).bags ((r m).pc τ) := by
    refine h.along (Q := fun m s => m ≤ j → s.dom.slot τ = some rec ∧
      s.dom.Sweep rec (EpochDomain.ringIndex ((r i).dom.globalEpoch + 1))
        ((r i).dom.record rec).bags (s.pc τ)) (fun _ => ?_) fun m a hm hmn hprev hstep hmj => ?_
    · have hslot : (r i).dom.slot τ = some rec := (hinv i (by omega)).ok τ _ hpc
      simp only [act, hpc, Option.map_some, Option.some.injEq] at ha
      rw [← ha]
      simp only [Function.update_self]
      exact ⟨hslot, rfl, rfl, rfl⟩
    · obtain ⟨hslot, hsweep⟩ := hprev (Nat.le_of_succ_le hmj)
      rcases turn_act (hinv m hmn.le) hstep τ with ⟨hrely, hsame⟩ | ⟨weak', pc, -, hpc', hdom, hnext⟩ |
        ⟨c, x, -, hidle, -⟩
      · have howner := ((hinv m hmn.le).dom.slot τ rec hslot).1
        rw [hsame]
        exact ⟨hrely.slot.trans hslot, hsweep.congr (hrely.record rec howner)⟩
      · rw [hpc'] at hsweep
        obtain ⟨hslots, hsweep⟩ := EpochDomain.sweep_step (τ := τ) hsweep weak'
        rw [hdom, hnext]
        exact ⟨(congrFun hslots τ).trans hslot, hsweep⟩
      · exact absurd hidle (hcall m hm hmj)
  obtain ⟨hslot, hsweep⟩ := hrun j hij hj le_rfl
  rw [hret] at hsweep
  exact ⟨hslot, hsweep⟩

/-- The call leaves nothing that old exactly if it finds nothing that old in the two bags it does not
    free. -/
theorem leaves_iff_found (h : Run act init r n) (hpc : (r i).pc τ = some (.reclaimEpoch within rec))
    (ha : act (r i) (.step τ weak) = some (r (i + 1))) (hij : i < j) (hj : j ≤ n)
    (hcall : ∀ m, i < m → m < j → (r m).pc τ ≠ none) (hret : (r j).pc τ = none) :
    (∀ b, (r j).dom.slot τ = some b → ∀ k, ∀ x ∈ ((r j).dom.record b).bags k,
      ¬x.tag + 2 ≤ (r i).dom.globalEpoch) ↔
    ∀ k ≠ EpochDomain.ringIndex ((r i).dom.globalEpoch + 1), ∀ x ∈ ((r i).dom.record rec).bags k,
      ¬x.tag + 2 ≤ (r i).dom.globalEpoch := by
  obtain ⟨hslot, hbags⟩ := bags_reclaimed h hpc ha hij hj hcall hret
  constructor
  · intro hnone k hk x hx
    refine hnone rec hslot k x ?_
    rw [hbags, Function.update_of_ne hk]
    exact hx
  · intro hrest b hb k x hx
    obtain rfl := Option.some.inj (hslot.symm.trans hb)
    rw [hbags] at hx
    rcases eq_or_ne k (EpochDomain.ringIndex ((r i).dom.globalEpoch + 1)) with rfl | hk
    · rw [Function.update_self] at hx
      cases hx
    · rw [Function.update_of_ne hk] at hx
      exact hrest k hk x hx

/-- A `try_reclaim` that reads epoch `E` leaves nothing its thread retired by epoch `E - 2` exactly if
    for everything it retired by then the turn of the bag has come since. -/
theorem try_reclaim_frees (h : Run act init r n) (hpc : (r i).pc τ = some (.reclaimEpoch within rec))
    (ha : act (r i) (.step τ weak) = some (r (i + 1))) (hij : i < j) (hj : j ≤ n)
    (hcall : ∀ m, i < m → m < j → (r m).pc τ ≠ none) (hret : (r j).pc τ = none) :
    (∀ b, (r j).dom.slot τ = some b → ∀ k, ∀ x ∈ ((r j).dom.record b).bags k,
      ¬x.tag + 2 ≤ (r i).dom.globalEpoch) ↔
    ∀ m < i, ∀ e, RetiresAt r τ e m → e + 2 ≤ (r i).dom.globalEpoch →
      ∃ l, m < l ∧ l ≤ i ∧ TurnAt r τ (EpochDomain.ringIndex e) l := by
  have hin : i ≤ n := hij.le.trans hj
  have hslot : (r i).dom.slot τ = some rec := (inv_run h i hin).ok τ _ hpc
  rw [leaves_iff_found h hpc ha hij hj hcall hret]
  constructor
  · intro hrest m hm e hretire hold
    by_contra hnone
    have hturn : ∀ l, m < l → l ≤ i → ¬TurnAt r τ (EpochDomain.ringIndex e) l :=
      fun l hml hli ht => hnone ⟨l, hml, hli, ht⟩
    obtain ⟨b, hb, hplace⟩ := kept_run h hretire hm hin fun l hml hli => hturn l hml hli.le
    obtain rfl := Option.some.inj (hslot.symm.trans hb)
    rcases hplace with ⟨x, hp⟩ | ⟨⟨x, hx, rfl⟩, -⟩
    · cases hpc.symm.trans hp
    · -- the call itself is no turn of that bag
      refine hrest (EpochDomain.ringIndex x.tag) (fun he => ?_) x hx hold
      exact hturn i hm le_rfl ⟨_, weak, hpc, ha, he.symm⟩
  · intro hturns k hk x hx hold
    have hinv := inv_run h i hin
    obtain rfl := (hinv.dom.bags rec k x hx).2
    rcases (dated_run h i hin).bags rec hslot _ x hx with hfree | ⟨m, hm, hretire, hnone⟩
    · rw [hpc] at hfree
      exact hfree
    · obtain ⟨l, hml, hli, hturn⟩ := hturns m hm x.tag hretire hold
      rcases hli.lt_or_eq with hlt | rfl
      · exact hnone l hml hlt hturn
      · obtain ⟨pc, -, hpc', -, he⟩ := hturn
        obtain rfl := Option.some.inj (hpc.symm.trans hpc')
        exact hk he.symm

/-- A thread alone retires an object and reclaims twice. -/
def aloneReclaim : List (Action Bool Nat) := List.flatten [
  [.call false (.retire (some 7))], List.replicate 9 (.step false false),
  [.call false .tryReclaim], List.replicate 10 (.step false false),
  [.call false .tryReclaim], List.replicate 12 (.step false false)]

theorem try_reclaim_frees_alone : (play act init aloneReclaim 27).dom.globalEpoch = 2 ∧
    ∀ b, (play act init aloneReclaim 34).dom.slot false = some b → ∀ k : Fin 3,
      ∀ x ∈ ((play act init aloneReclaim 34).dom.record b).bags k,
        ¬x.tag + 2 ≤ (play act init aloneReclaim 27).dom.globalEpoch := by
  have hrun : Run act init (play act init aloneReclaim) aloneReclaim.length := run_play (by rfl)
  have hpc : (play act init aloneReclaim 27).pc false = some (.reclaimEpoch none 0) := by rfl
  have ha : act (play act init aloneReclaim 27) (.step false false) =
      some (play act init aloneReclaim 28) := by rfl
  have hbusy : ∀ m < 34, 27 < m → ((play act init aloneReclaim m).pc false).isSome := by
    decide +kernel
  refine ⟨by rfl, ?_⟩
  refine (try_reclaim_frees (j := 34) hrun hpc ha (by decide) (by decide) ?_ (by rfl)).mpr ?_
  · exact fun m h₁ h₂ => Option.isSome_iff_ne_none.mp (hbusy m h₂ h₁)
  · intro m hm e _ hold
    have hepoch : (play act init aloneReclaim 27).dom.globalEpoch = 2 := by rfl
    obtain rfl : e = 0 := by omega
    exact ⟨27, hm, le_rfl, _, false, hpc, ha, by rfl⟩

/-- A thread retires an object at epoch 0, another takes the epoch to 2, and the first reclaims: it
    reads epoch 3 and frees the bag of epoch 1. -/
def skippedBag : List (Action Bool Nat) := List.flatten [
  [.call false (.retire (some 7))], List.replicate 9 (.step false false),
  [.call true .tryReclaim], List.replicate 16 (.step true false),
  [.call true .tryReclaim], List.replicate 11 (.step true false),
  [.call false .tryReclaim], List.replicate 11 (.step false false)]

theorem try_reclaim_leaves : Run act init (play act init skippedBag) 51 ∧
    (play act init skippedBag 46).pc false = some (.reclaimEpoch none 0) ∧
    act (play act init skippedBag 46) (.step false false) = some (play act init skippedBag 47) ∧
    (∀ m, 46 < m → m < 51 → (play act init skippedBag m).pc false ≠ none) ∧
    (play act init skippedBag 51).pc false = none ∧
    ¬∀ b, (play act init skippedBag 51).dom.slot false = some b → ∀ k : Fin 3,
      ∀ x ∈ ((play act init skippedBag 51).dom.record b).bags k,
        ¬x.tag + 2 ≤ (play act init skippedBag 46).dom.globalEpoch := by
  have hrun : Run act init (play act init skippedBag) skippedBag.length := run_play (by rfl)
  have hbusy : ∀ m < 51, 46 < m → ((play act init skippedBag m).pc false).isSome := by
    decide +kernel
  refine ⟨hrun, by rfl, by rfl, ?_, by rfl, ?_⟩
  · exact fun m h₁ h₂ => Option.isSome_iff_ne_none.mp (hbusy m h₂ h₁)
  · intro hall
    exact hall 0 (by rfl) 0 ⟨7, 0, 0, 0⟩ (by exact List.mem_cons_self) (by decide)

end reclaim

end EpochSystem

end RcuFib
