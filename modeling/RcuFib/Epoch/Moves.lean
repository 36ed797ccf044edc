import RcuFib.Epoch.Invariant

/-! The changes a thread can make to the domain, each with what it keeps: the invariant, the
    objects on their way, and the view of every other thread. -/

namespace RcuFib

namespace EpochDomain
variable {T α : Type*}

/-- A change by thread `τ` that the rest of the system can live with. -/
structure Move (s s' : EpochDomain T α) (τ : T) : Prop where
  inv : s'.Inv
  keeps : s.Keeps s'
  rely : ∀ σ, σ ≠ τ → s.Rely s' σ

variable {s s' s'' : EpochDomain T α} {τ σ : T} {r : Nat} {x : Retiree α} {k : Fin 3}

theorem Rely.trans (h : s.Rely s' σ) (h' : s'.Rely s'' σ) : s.Rely s'' σ where
  epoch := h.epoch.trans h'.epoch
  guard := h.guard.trans h'.guard
  slot := h'.slot.trans h.slot
  guards := h'.guards.trans h.guards
  record r hr := (h'.record r (by rw [h.record r hr]; exact hr)).trans (h.record r hr)
  members r hr := (h'.members r (by rw [h.record r hr]; exact hr)).trans (h.members r hr)
  records r hr := h'.records r (h.records r hr)
  pinned r a ha := by
    rcases h'.pinned r a ha with ⟨⟨a', ha'⟩, hs⟩ | hle
    · rcases h.pinned r a' ha' with ⟨hex, hs'⟩ | hle
      · exact .inl ⟨hex, hs.trans hs'⟩
      · exact .inr (hs ▸ hle)
    · exact .inr (h.epoch.trans hle)
  mutex hm := h'.mutex (h.mutex hm)

theorem Move.trans (h : s.Move s' τ) (h' : s'.Move s'' τ) : s.Move s'' τ where
  inv := h'.inv
  keeps := ⟨fun x hx => h'.keeps.settled x (h.keeps.settled x hx),
    fun x hx => h'.keeps.safe x (h.keeps.safe x hx),
    fun x hx => h'.keeps.freed x (h.keeps.freed x hx)⟩
  rely σ hσ := (h.rely σ hσ).trans (h'.rely σ hσ)

/-- Counters, logs, the mutex and the orphan list. -/
theorem Move.quiet (h : s.Inv) (he : s'.globalEpoch = s.globalEpoch) (hrs : s'.records = s.records)
    (hr : s'.record = s.record) (hn : s'.nextRecord = s.nextRecord) (hs : s'.slot = s.slot)
    (hg : s'.guards = s.guards) (hng : s'.nextGuard = s.nextGuard)
    (hf : ∀ x ∈ s.freed, x ∈ s'.freed) (ho : ∀ x ∈ s'.orphans, s.Settled x)
    (hm : ∀ σ, σ ≠ τ → s.orphanMutex = some σ → s'.orphanMutex = some σ) : s.Move s' τ := by
  have hset : ∀ x, s.Settled x → s'.Settled x := fun x hx =>
    ⟨he ▸ hx.tag_le, hng ▸ hx.born_le, by rw [hs, hg, hr]; exact hx.since_le⟩
  refine ⟨⟨?_, ?_, ?_, ?_, ?_, ?_, ?_, ?_, ?_, ?_, ?_, ?_, fun x hx => hset x (ho x hx)⟩,
    ⟨hset, fun x hx => ⟨hng ▸ hx.1, by rw [hg]; exact hx.2⟩, hf⟩, fun σ hσ => ?_⟩
  · rw [hrs, hn]; exact h.records_lt
  · rw [hrs]; exact h.nodup
  · rw [hs, hr, hrs]; exact h.slot
  · rw [hr, hn]; exact h.owner_lt
  · rw [hr]; exact h.in_use
  · rw [hr]; exact h.idle
  · rw [hr, he, hs, hg]; exact h.pinned
  · rw [hg, hs, hr]; exact h.guarded
  · rw [hs, hr, hg]; exact h.nesting
  · rw [hg]; exact h.nested
  · rw [hg, hng]; exact h.guard_lt
  · rw [hr]; exact fun r k x hx => ⟨hset x (h.bags r k x hx).1, (h.bags r k x hx).2⟩
  · exact ⟨he.ge, hng.ge, by rw [hs], by rw [hg], fun _ _ => by rw [hr], fun _ _ => by rw [hrs],
      by rw [hrs]; exact fun _ hx => hx, fun r a ha => .inl ⟨⟨a, by rwa [hr] at ha⟩, by rw [hr]⟩,
      hm σ hσ⟩

/-! ### The thread's own record and guards -/

section own
variable [DecidableEq T]

/-- What thread `τ` may turn its record and its guards into. -/
structure OwnChange (s : EpochDomain T α) (τ : T) (r : Nat) (y : ThreadRecord T α)
    (gs : List ReadGuard) (n : Nat) : Prop where
  slot : s.slot τ = some r
  owner : y.owner = some τ
  in_use : y.inUse = true
  bags : ∀ k, ∀ x ∈ y.bags k, s.Settled x ∧ ringIndex x.tag = k
  nesting : y.nesting = gs.length
  nested : Nested gs
  guard_lt : ∀ g ∈ gs, g.number < n
  next_le : s.nextGuard ≤ n
  /-- The state announces an epoch exactly while guards are open. -/
  pinned : ∀ a, y.state = some a → a ≤ y.since ∧ y.since ≤ s.globalEpoch ∧
    s.globalEpoch ≤ y.since + 1 ∧ gs ≠ []
  guarded : gs ≠ [] → ∃ a, y.state = some a
  /-- Guards that stay keep the announcement they were opened under. -/
  stay : ∀ g ∈ gs, g ∈ s.guards τ ∧ y.since = (s.record r).since ∨ s.nextGuard ≤ g.number
  view : ∀ a, y.state = some a → (∃ a', (s.record r).state = some a') ∧
    y.since = (s.record r).since ∨ s.globalEpoch ≤ y.since

theorem Move.own (h : s.Inv) {y : ThreadRecord T α} {l : List ReadGuard}
    (hc : s.OwnChange τ r y l s'.nextGuard) (hrec : s'.record = Function.update s.record r y)
    (hgs : s'.guards = Function.update s.guards τ l) (he : s'.globalEpoch = s.globalEpoch)
    (hrs : s'.records = s.records) (hn : s'.nextRecord = s.nextRecord) (hs : s'.slot = s.slot)
    (ho : s'.orphans = s.orphans) (hm : s'.orphanMutex = s.orphanMutex)
    (hf : s'.freed = s.freed) : s.Move s' τ := by
  have hown := (h.slot τ r hc.slot).1
  -- the record belongs to no other thread
  have hne : ∀ {τ' r'}, τ' ≠ τ → s.slot τ' = some r' → r' ≠ r := by
    rintro τ' r' hτ hs' rfl
    exact hτ (Option.some.inj ((h.slot τ' r' hs').1.symm.trans hown))
  have hset : ∀ x, s.Settled x → s'.Settled x := by
    intro x hx
    refine ⟨he ▸ hx.tag_le, hx.born_le.trans hc.next_le, fun τ' r' hs' g hg hlt => ?_⟩
    rw [hs] at hs'
    by_cases hτ : τ' = τ
    · subst hτ
      obtain rfl := Option.some.inj (hs'.symm.trans hc.slot)
      rw [hgs, Function.update_self] at hg
      rw [hrec, Function.update_self]
      rcases hc.stay g hg with ⟨hold, hsince⟩ | hnew
      · rw [hsince]; exact hx.since_le τ' r' hs' g hold hlt
      · exact absurd (hlt.trans_le hx.born_le) (not_lt.mpr hnew)
    · rw [hgs, Function.update_of_ne hτ] at hg
      rw [hrec, Function.update_of_ne (hne hτ hs')]
      exact hx.since_le τ' r' hs' g hg hlt
  have hsafe : ∀ x, s.Safe x → s'.Safe x := by
    refine fun x hx => ⟨hx.1.trans hc.next_le, fun τ' g hg => ?_⟩
    by_cases hτ : τ' = τ
    · subst hτ
      rw [hgs, Function.update_self] at hg
      rcases hc.stay g hg with ⟨hold, -⟩ | hnew
      · exact hx.2 τ' g hold
      · exact hx.1.trans hnew
    · rw [hgs, Function.update_of_ne hτ] at hg
      exact hx.2 τ' g hg
  refine ⟨⟨by rw [hrs, hn]; exact h.records_lt, by rw [hrs]; exact h.nodup, fun τ' r' hs' => ?_,
    fun r' τ' hr' => ?_, fun r' τ' hr' => ?_, fun r' hr' k => ?_, fun r' a ha => ?_,
    fun τ' hg => ?_, fun τ' r' hs' => ?_, fun τ' => ?_, fun τ' g hg => ?_, fun r' k x hx => ?_,
    fun x hx => hset x (h.orphans x (ho ▸ hx))⟩, ⟨hset, hsafe, by rw [hf]; exact fun _ hx => hx⟩, fun σ hσ => ?_⟩
  · rw [hs] at hs'
    refine ⟨?_, by rw [hrs]; exact (h.slot τ' r' hs').2⟩
    rw [hrec]
    by_cases hr' : r' = r
    · subst hr'
      rw [Function.update_self, hc.owner, ← hown]
      exact (h.slot τ' r' hs').1
    · rw [Function.update_of_ne hr']; exact (h.slot τ' r' hs').1
  · rw [hn]
    by_cases hrr : r' = r
    · subst hrr; exact h.owner_lt r' τ hown
    · rw [hrec, Function.update_of_ne hrr] at hr'; exact h.owner_lt r' τ' hr'
  · by_cases hrr : r' = r
    · subst hrr; rw [hrec, Function.update_self]; exact hc.in_use
    · rw [hrec, Function.update_of_ne hrr] at hr' ⊢; exact h.in_use r' τ' hr'
  · by_cases hrr : r' = r
    · subst hrr; rw [hrec, Function.update_self, hc.owner] at hr'; cases hr'
    · rw [hrec, Function.update_of_ne hrr] at hr' ⊢; exact h.idle r' hr' k
  · rw [he, hs]
    by_cases hrr : r' = r
    · subst hrr
      rw [hrec, Function.update_self] at ha ⊢
      obtain ⟨h₁, h₂, h₃, h₄⟩ := hc.pinned a ha
      exact ⟨h₁, h₂, h₃, τ, hc.slot, by rw [hgs, Function.update_self]; exact h₄⟩
    · rw [hrec, Function.update_of_ne hrr] at ha ⊢
      obtain ⟨h₁, h₂, h₃, τ', hs', hg'⟩ := h.pinned r' a ha
      have hτ : τ' ≠ τ := by
        rintro rfl; exact hrr (Option.some.inj (hs'.symm.trans hc.slot))
      exact ⟨h₁, h₂, h₃, τ', hs', by rwa [hgs, Function.update_of_ne hτ]⟩
  · rw [hs]
    by_cases hτ : τ' = τ
    · subst hτ
      rw [hgs, Function.update_self] at hg
      obtain ⟨a, ha⟩ := hc.guarded hg
      exact ⟨r, a, hc.slot, by rw [hrec, Function.update_self]; exact ha⟩
    · rw [hgs, Function.update_of_ne hτ] at hg
      obtain ⟨r', a, hs', ha⟩ := h.guarded τ' hg
      exact ⟨r', a, hs', by rw [hrec, Function.update_of_ne (hne hτ hs')]; exact ha⟩
  · rw [hs] at hs'
    by_cases hτ : τ' = τ
    · subst hτ
      obtain rfl := Option.some.inj (hs'.symm.trans hc.slot)
      rw [hrec, hgs, Function.update_self, Function.update_self]
      exact hc.nesting
    · rw [hrec, hgs, Function.update_of_ne (hne hτ hs'), Function.update_of_ne hτ]
      exact h.nesting τ' r' hs'
  · rw [hgs]
    by_cases hτ : τ' = τ
    · subst hτ; rw [Function.update_self]; exact hc.nested
    · rw [Function.update_of_ne hτ]; exact h.nested τ'
  · by_cases hτ : τ' = τ
    · subst hτ; rw [hgs, Function.update_self] at hg; exact hc.guard_lt g hg
    · rw [hgs, Function.update_of_ne hτ] at hg
      exact (h.guard_lt τ' g hg).trans_le hc.next_le
  · by_cases hrr : r' = r
    · subst hrr
      rw [hrec, Function.update_self] at hx
      exact ⟨hset x (hc.bags k x hx).1, (hc.bags k x hx).2⟩
    · rw [hrec, Function.update_of_ne hrr] at hx
      exact ⟨hset x (h.bags r' k x hx).1, (h.bags r' k x hx).2⟩
  · have hother : ∀ r', (s.record r').owner = some σ → s'.record r' = s.record r' := by
      intro r' hr'
      rw [hrec, Function.update_of_ne]
      rintro rfl
      exact hσ (Option.some.inj (hr'.symm.trans hown))
    refine ⟨he.ge, hc.next_le, by rw [hs], by rw [hgs, Function.update_of_ne hσ], hother,
      fun _ _ => by rw [hrs], by rw [hrs]; exact fun _ hx => hx, fun r' a ha => ?_,
      by rw [hm]; exact id⟩
    by_cases hrr : r' = r
    · subst hrr
      rw [hrec, Function.update_self] at ha ⊢
      exact hc.view a ha
    · rw [hrec, Function.update_of_ne hrr] at ha ⊢
      exact .inl ⟨⟨a, ha⟩, rfl⟩

variable (h : s.Inv) (hslot : s.slot τ = some r)
include h hslot

omit [DecidableEq T] in
/-- A change of the record that leaves the guards as they are. -/
theorem OwnChange.keep {y : ThreadRecord T α} (ho : y.owner = (s.record r).owner)
    (hu : y.inUse = (s.record r).inUse) (hn : y.nesting = (s.record r).nesting)
    (hst : y.state = (s.record r).state) (hsi : y.since = (s.record r).since)
    (hb : ∀ k, ∀ x ∈ y.bags k, s.Settled x ∧ ringIndex x.tag = k) :
    s.OwnChange τ r y (s.guards τ) s.nextGuard where
  slot := hslot
  owner := ho.trans (h.slot τ r hslot).1
  in_use := hu.trans (h.in_use r τ (h.slot τ r hslot).1)
  bags := hb
  nesting := hn.trans (h.nesting τ r hslot)
  nested := h.nested τ
  guard_lt := h.guard_lt τ
  next_le := le_rfl
  pinned a ha := by
    rw [hst] at ha
    obtain ⟨h₁, h₂, h₃, τ', hs', hg⟩ := h.pinned r a ha
    obtain rfl : τ' = τ :=
      Option.some.inj ((h.slot τ' r hs').1.symm.trans (h.slot τ r hslot).1)
    rw [hsi]
    exact ⟨h₁, h₂, h₃, hg⟩
  guarded hg := by
    obtain ⟨r', a, hs', ha⟩ := h.guarded τ hg
    obtain rfl := Option.some.inj (hs'.symm.trans hslot)
    exact ⟨a, hst.trans ha⟩
  stay g hg := .inl ⟨hg, hsi⟩
  view a ha := .inl ⟨⟨a, hst ▸ ha⟩, hsi⟩

/-- The bags of the thread's own record. -/
theorem Move.setBag {bag : List (Retiree α)}
    (hb : ∀ x ∈ bag, s.Settled x ∧ ringIndex x.tag = k) : s.Move (s.setBag r k bag) τ := by
  refine .own h (.keep (y := { s.record r with bags := Function.update (s.record r).bags k bag })
    h hslot rfl rfl rfl rfl rfl fun j x hx => ?_)
    rfl (Function.update_eq_self ..).symm rfl rfl rfl rfl rfl rfl rfl
  by_cases hj : j = k
  · subst hj
    simp only [Function.update_self] at hx
    exact hb x hx
  · simp only [Function.update_of_ne hj] at hx
    exact h.bags r j x hx

/-- A guard inside another. -/
theorem Move.openInner (hn : (s.record r).nesting ≠ 0) : s.Move (s.openGuard τ r false) τ := by
  have hlen := h.nesting τ r hslot
  have hg : s.guards τ ≠ [] := by
    intro he; rw [he] at hlen; exact hn hlen
  obtain ⟨r', a, hs', ha⟩ := h.guarded τ hg
  obtain rfl := Option.some.inj (hs'.symm.trans hslot)
  obtain ⟨h₁, h₂, h₃, -⟩ := h.pinned r' a ha
  obtain ⟨hown, -⟩ := h.slot τ r' hslot
  refine .own h (y := { s.record r' with nesting := (s.record r').nesting + 1 })
    (l := ⟨s.nextGuard, false⟩ :: s.guards τ)
    ⟨hslot, hown, h.in_use r' τ hown, h.bags r', ?_, ⟨by simp [hg], h.nested τ⟩, ?_,
      Nat.le_succ _, fun a ha => ?_, fun _ => ⟨a, ha⟩, fun g hg => ?_, fun a ha => .inl ⟨⟨a, ha⟩, rfl⟩⟩
    rfl rfl rfl rfl rfl rfl rfl rfl rfl
  · simp [hlen]
  · intro g hg
    rcases List.mem_cons.mp hg with rfl | hg
    · exact Nat.lt_succ_self _
    · exact Nat.lt_succ_of_lt (h.guard_lt τ g hg)
  · obtain ⟨h₁, h₂, h₃, -⟩ := h.pinned r' a ha
    exact ⟨h₁, h₂, h₃, List.cons_ne_nil _ _⟩
  · rcases List.mem_cons.mp hg with rfl | hg
    · exact .inr le_rfl
    · exact .inl ⟨hg, rfl⟩

/-- The outermost guard: the announcement. -/
theorem Move.announce {e : Nat} (hg : s.guards τ = []) (he : e ≤ s.globalEpoch) :
    s.Move ((s.setRecord r { s.record r with state := some e, since := s.globalEpoch }).openGuard
      τ r true) τ := by
  have hlen := h.nesting τ r hslot
  obtain ⟨hown, -⟩ := h.slot τ r hslot
  refine .own h (y := { s.record r with
      state := some e, since := s.globalEpoch, nesting := (s.record r).nesting + 1 })
    (l := [⟨s.nextGuard, true⟩])
    ⟨hslot, hown, h.in_use r τ hown, h.bags r, by simp [hlen, hg], ⟨by simp, trivial⟩, ?_,
      Nat.le_succ _, fun a ha => ?_, fun _ => ⟨e, rfl⟩, fun g hg => ?_, fun _ _ => .inr le_rfl⟩
    ?_ ?_ rfl rfl rfl rfl rfl rfl rfl
  · intro g hg
    rw [List.mem_singleton.mp hg]
    exact Nat.lt_succ_self _
  · obtain rfl := Option.some.inj ha
    exact ⟨he, le_rfl, Nat.le_succ _, List.cons_ne_nil _ _⟩
  · rw [List.mem_singleton.mp hg]
    exact .inr le_rfl
  · simp [openGuard, setRecord]
  · simp [openGuard, setRecord, hg]

/-- The innermost guard is left. -/
theorem Move.leave {g : ReadGuard} {rest : List ReadGuard} (hg : s.guards τ = g :: rest) :
    s.Move (s.leave τ r g rest) τ := by
  have hlen := h.nesting τ r hslot
  obtain ⟨hown, -⟩ := h.slot τ r hslot
  have hnest : (g.outermost = true ↔ rest = []) ∧ Nested rest := by
    have := h.nested τ; rwa [hg] at this
  obtain ⟨r', a, hs', ha⟩ := h.guarded τ (by rw [hg]; exact List.cons_ne_nil _ _)
  obtain rfl := Option.some.inj (hs'.symm.trans hslot)
  refine .own h (y := { s.record r' with
      nesting := (s.record r').nesting - 1
      state := if g.outermost then none else (s.record r').state })
    (l := rest)
    ⟨hslot, hown, h.in_use r' τ hown, h.bags r', ?_, hnest.2, fun g' hg' => ?_, le_rfl,
      fun a ha => ?_, fun hr => ⟨a, ?_⟩, fun g' hg' => ?_, fun a ha => ?_⟩
    rfl rfl rfl rfl rfl rfl rfl rfl rfl
  · simp [hlen, hg]
  · exact h.guard_lt τ g' (by rw [hg]; exact List.mem_cons_of_mem _ hg')
  · dsimp only at ha
    split at ha
    · cases ha
    · next ho =>
      obtain ⟨h₁, h₂, h₃, -⟩ := h.pinned r' a ha
      exact ⟨h₁, h₂, h₃, fun hr => ho (hnest.1.mpr hr)⟩
  · dsimp only
    rw [if_neg (fun ho => hr (hnest.1.mp ho))]; exact ha
  · exact .inl ⟨by rw [hg]; exact List.mem_cons_of_mem _ hg', rfl⟩
  · dsimp only at ha
    split at ha
    · cases ha
    · exact .inl ⟨⟨a, ha⟩, rfl⟩

/-- `release_thread_record` unpins. -/
theorem Move.exitState (hg : s.guards τ = []) :
    s.Move (s.setRecord r { s.record r with state := none }) τ := by
  obtain ⟨hown, -⟩ := h.slot τ r hslot
  have hlen := h.nesting τ r hslot
  exact .own h (y := { s.record r with state := none }) (l := [])
    ⟨hslot, hown, h.in_use r τ hown, h.bags r, by simpa [hg] using hlen, trivial, nofun, le_rfl,
      nofun, fun hn => absurd rfl hn, nofun, nofun⟩
    rfl (by rw [← hg, Function.update_eq_self]; rfl) rfl rfl rfl rfl rfl rfl rfl

end own

/-! ### Records change hands -/

section hands
variable [DecidableEq T]

omit [DecidableEq T] in
/-- A record nobody owns becomes the thread's. -/
theorem Move.take (h : s.Inv) {y : ThreadRecord T α} (hfree : (s.record r).owner = none)
    (hy : y.owner = some τ ∧ y.inUse = true ∧ y.state = none ∧ ∀ k, y.bags k = [])
    (hrec : s'.record = Function.update s.record r y) (hlt : r < s'.nextRecord)
    (hn : s.nextRecord ≤ s'.nextRecord) (he : s'.globalEpoch = s.globalEpoch)
    (hrs : s'.records = s.records) (hs : s'.slot = s.slot) (hgs : s'.guards = s.guards)
    (hng : s'.nextGuard = s.nextGuard) (ho : s'.orphans = s.orphans)
    (hm : s'.orphanMutex = s.orphanMutex) (hf : s'.freed = s.freed) : s.Move s' τ := by
  have hne : ∀ {τ' r'}, s.slot τ' = some r' → r' ≠ r := by
    rintro τ' r' hs' rfl
    have := (h.slot τ' r' hs').1
    rw [hfree] at this; cases this
  have hset : ∀ x, s.Settled x → s'.Settled x := fun x hx => by
    refine ⟨he ▸ hx.tag_le, hng ▸ hx.born_le, fun τ' r' hs' g hg hlt => ?_⟩
    rw [hs] at hs'
    rw [hrec, Function.update_of_ne (hne hs')]
    exact hx.since_le τ' r' hs' g (by rwa [hgs] at hg) hlt
  refine ⟨⟨by rw [hrs]; exact fun r' hr' => (h.records_lt r' hr').trans_le hn,
    by rw [hrs]; exact h.nodup, fun τ' r' hs' => ?_, fun r' τ' hr' => ?_, fun r' τ' hr' => ?_,
    fun r' hr' k => ?_, fun r' a ha => ?_, fun τ' hg => ?_, fun τ' r' hs' => ?_,
    by rw [hgs]; exact h.nested, by rw [hgs, hng]; exact h.guard_lt, fun r' k x hx => ?_,
    fun x hx => hset x (h.orphans x (ho ▸ hx))⟩,
    ⟨hset, fun x hx => ⟨hng ▸ hx.1, by rw [hgs]; exact hx.2⟩, by rw [hf]; exact fun _ hx => hx⟩,
    fun σ hσ => ?_⟩
  · rw [hs] at hs'
    rw [hrec, Function.update_of_ne (hne hs'), hrs]
    exact h.slot τ' r' hs'
  · by_cases hrr : r' = r
    · exact hrr ▸ hlt
    · rw [hrec, Function.update_of_ne hrr] at hr'
      exact (h.owner_lt r' τ' hr').trans_le hn
  · by_cases hrr : r' = r
    · subst hrr; rw [hrec, Function.update_self]; exact hy.2.1
    · rw [hrec, Function.update_of_ne hrr] at hr' ⊢; exact h.in_use r' τ' hr'
  · by_cases hrr : r' = r
    · subst hrr; rw [hrec, Function.update_self]; exact hy.2.2.2 k
    · rw [hrec, Function.update_of_ne hrr] at hr' ⊢; exact h.idle r' hr' k
  · by_cases hrr : r' = r
    · subst hrr; rw [hrec, Function.update_self, hy.2.2.1] at ha; cases ha
    · rw [hrec, Function.update_of_ne hrr] at ha ⊢
      rw [he, hs, hgs]
      exact h.pinned r' a ha
  · rw [hgs] at hg
    obtain ⟨r', a, hs', ha⟩ := h.guarded τ' hg
    exact ⟨r', a, by rw [hs]; exact hs', by rw [hrec, Function.update_of_ne (hne hs')]; exact ha⟩
  · rw [hs] at hs'
    rw [hrec, Function.update_of_ne (hne hs'), hgs]
    exact h.nesting τ' r' hs'
  · by_cases hrr : r' = r
    · subst hrr
      rw [hrec, Function.update_self, hy.2.2.2 k] at hx
      cases hx
    · rw [hrec, Function.update_of_ne hrr] at hx
      exact ⟨hset x (h.bags r' k x hx).1, (h.bags r' k x hx).2⟩
  · refine ⟨he.ge, hng.ge, by rw [hs], by rw [hgs], fun r' hr' => ?_, fun _ _ => by rw [hrs],
      by rw [hrs]; exact fun _ hx => hx, fun r' a ha => ?_, by rw [hm]; exact id⟩
    · rw [hrec, Function.update_of_ne]
      rintro rfl
      rw [hfree] at hr'; cases hr'
    · by_cases hrr : r' = r
      · subst hrr; rw [hrec, Function.update_self, hy.2.2.1] at ha; cases ha
      · rw [hrec, Function.update_of_ne hrr] at ha ⊢
        exact .inl ⟨⟨a, ha⟩, rfl⟩

/-- `local_record` remembers the record in the thread's slot. -/
theorem Move.bind (h : s.Inv) (hslot : s.slot τ = none) (hc : s.Clean τ r) (hr : r ∈ s.records)
    (hs : s'.slot = Function.update s.slot τ (some r)) (he : s'.globalEpoch = s.globalEpoch)
    (hrs : s'.records = s.records) (hrec : s'.record = s.record) (hn : s'.nextRecord = s.nextRecord)
    (hgs : s'.guards = s.guards) (hng : s'.nextGuard = s.nextGuard) (ho : s'.orphans = s.orphans)
    (hm : s'.orphanMutex = s.orphanMutex) (hf : s'.freed = s.freed) : s.Move s' τ := by
  have hg : s.guards τ = [] := by
    by_contra hne
    obtain ⟨r', a, hs', -⟩ := h.guarded τ hne
    rw [hslot] at hs'; cases hs'
  have hset : ∀ x, s.Settled x → s'.Settled x := fun x hx => by
    refine ⟨he ▸ hx.tag_le, hng ▸ hx.born_le, fun τ' r' hs' g hg' hlt => ?_⟩
    rw [hgs] at hg'
    by_cases hτ : τ' = τ
    · subst hτ; rw [hg] at hg'; cases hg'
    · rw [hs, Function.update_of_ne hτ] at hs'
      rw [hrec]; exact hx.since_le τ' r' hs' g hg' hlt
  refine ⟨⟨by rw [hrs, hn]; exact h.records_lt, by rw [hrs]; exact h.nodup, fun τ' r' hs' => ?_,
    by rw [hrec, hn]; exact h.owner_lt, by rw [hrec]; exact h.in_use, by rw [hrec]; exact h.idle,
    fun r' a ha => ?_, fun τ' hg' => ?_, fun τ' r' hs' => ?_, by rw [hgs]; exact h.nested,
    by rw [hgs, hng]; exact h.guard_lt,
    by rw [hrec]; exact fun r k x hx => ⟨hset x (h.bags r k x hx).1, (h.bags r k x hx).2⟩,
    fun x hx => hset x (h.orphans x (ho ▸ hx))⟩,
    ⟨hset, fun x hx => ⟨hng ▸ hx.1, by rw [hgs]; exact hx.2⟩, by rw [hf]; exact fun _ hx => hx⟩,
    fun σ hσ => ?_⟩
  · rw [hrec, hrs]
    by_cases hτ : τ' = τ
    · subst hτ
      rw [hs, Function.update_self] at hs'
      obtain rfl := Option.some.inj hs'
      exact ⟨hc.owner, hr⟩
    · rw [hs, Function.update_of_ne hτ] at hs'; exact h.slot τ' r' hs'
  · rw [hrec] at ha ⊢
    rw [he, hgs]
    obtain ⟨h₁, h₂, h₃, τ', hs', hg'⟩ := h.pinned r' a ha
    have hτ : τ' ≠ τ := by rintro rfl; rw [hslot] at hs'; cases hs'
    exact ⟨h₁, h₂, h₃, τ', by rw [hs, Function.update_of_ne hτ]; exact hs', hg'⟩
  · rw [hgs] at hg'
    obtain ⟨r', a, hs', ha⟩ := h.guarded τ' hg'
    have hτ : τ' ≠ τ := by rintro rfl; exact hg' hg
    exact ⟨r', a, by rw [hs, Function.update_of_ne hτ]; exact hs', by rw [hrec]; exact ha⟩
  · rw [hrec, hgs]
    by_cases hτ : τ' = τ
    · subst hτ
      rw [hs, Function.update_self] at hs'
      obtain rfl := Option.some.inj hs'
      rw [hc.nesting, hg]; rfl
    · rw [hs, Function.update_of_ne hτ] at hs'; exact h.nesting τ' r' hs'
  · exact ⟨he.ge, hng.ge, by rw [hs, Function.update_of_ne hσ], by rw [hgs], fun _ _ => by rw [hrec],
      fun _ _ => by rw [hrs], by rw [hrs]; exact fun _ hx => hx,
      fun r' a ha => .inl ⟨⟨a, by rwa [hrec] at ha⟩, by rw [hrec]⟩, by rw [hm]; exact id⟩

omit [DecidableEq T] in
/-- A new record goes to the head of the list. -/
theorem Move.publish (h : s.Inv) (hc : s.Clean τ r) (hr : r ∉ s.records) :
    s.Move { s with records := r :: s.records } τ := by
  refine ⟨⟨fun r' hr' => ?_, List.nodup_cons.mpr ⟨hr, h.nodup⟩, fun τ' r' hs' => ?_, h.owner_lt,
    h.in_use, h.idle, h.pinned, h.guarded, h.nesting, h.nested, h.guard_lt,
    fun r' k x hx => ⟨⟨(h.bags r' k x hx).1.1, (h.bags r' k x hx).1.2, (h.bags r' k x hx).1.3⟩,
      (h.bags r' k x hx).2⟩,
    fun x hx => ⟨(h.orphans x hx).1, (h.orphans x hx).2, (h.orphans x hx).3⟩⟩,
    ⟨fun x hx => ⟨hx.1, hx.2, hx.3⟩, fun x hx => hx, fun _ hx => hx⟩, fun σ hσ => ?_⟩
  · rcases List.mem_cons.mp hr' with rfl | hr'
    · exact h.owner_lt r' τ hc.owner
    · exact h.records_lt r' hr'
  · exact ⟨(h.slot τ' r' hs').1, List.mem_cons_of_mem _ (h.slot τ' r' hs').2⟩
  · refine ⟨le_rfl, le_rfl, rfl, rfl, fun _ _ => rfl, fun r' hr' => ?_,
      fun r' hr' => List.mem_cons_of_mem _ hr', fun r' a ha => .inl ⟨⟨a, ha⟩, rfl⟩, id⟩
    refine ⟨fun hm => (List.mem_cons.mp hm).resolve_left ?_, List.mem_cons_of_mem _⟩
    rintro rfl
    exact hσ (Option.some.inj (hr'.symm.trans hc.owner))

/-- The record of a thread that has ended goes back to the pool. -/
theorem Move.release (h : s.Inv) (hslot : s.slot τ = some r) (hg : s.guards τ = [])
    (hb : ∀ k, (s.record r).bags k = []) (hst : (s.record r).state = none) :
    s.Move { s.setRecord r { s.record r with inUse := false, owner := none } with
      slot := Function.update s.slot τ none } τ := by
  have hown := (h.slot τ r hslot).1
  have hne : ∀ {τ' r'}, τ' ≠ τ → s.slot τ' = some r' → r' ≠ r := by
    rintro τ' r' hτ hs' rfl
    exact hτ (Option.some.inj ((h.slot τ' r' hs').1.symm.trans hown))
  have hset : ∀ x, s.Settled x → Settled { s.setRecord r { s.record r with
      inUse := false, owner := none } with slot := Function.update s.slot τ none } x := by
    intro x hx
    refine ⟨hx.tag_le, hx.born_le, fun τ' r' hs' g hg' hlt => ?_⟩
    by_cases hτ : τ' = τ
    · subst hτ; simp only [Function.update_self] at hs'; cases hs'
    · simp only [Function.update_of_ne hτ] at hs'
      simp only [setRecord, Function.update_of_ne (hne hτ hs')]
      exact hx.since_le τ' r' hs' g hg' hlt
  refine ⟨⟨h.records_lt, h.nodup, fun τ' r' hs' => ?_, fun r' τ' hr' => ?_, fun r' τ' hr' => ?_,
    fun r' hr' k => ?_, fun r' a ha => ?_, fun τ' hg' => ?_, fun τ' r' hs' => ?_, h.nested,
    h.guard_lt, fun r' k x hx => ?_, fun x hx => hset x (h.orphans x hx)⟩,
    ⟨hset, fun x hx => hx, fun _ hx => hx⟩, fun σ hσ => ?_⟩
  · by_cases hτ : τ' = τ
    · subst hτ; simp only [Function.update_self] at hs'; cases hs'
    · simp only [Function.update_of_ne hτ] at hs'
      simp only [setRecord, Function.update_of_ne (hne hτ hs')]
      exact h.slot τ' r' hs'
  · by_cases hrr : r' = r
    · subst hrr; simp only [setRecord, Function.update_self] at hr'; cases hr'
    · simp only [setRecord, Function.update_of_ne hrr] at hr'; exact h.owner_lt r' τ' hr'
  · by_cases hrr : r' = r
    · subst hrr; simp only [setRecord, Function.update_self] at hr'; cases hr'
    · simp only [setRecord, Function.update_of_ne hrr] at hr' ⊢; exact h.in_use r' τ' hr'
  · by_cases hrr : r' = r
    · subst hrr; simp only [setRecord, Function.update_self]; exact hb k
    · simp only [setRecord, Function.update_of_ne hrr] at hr' ⊢; exact h.idle r' hr' k
  · by_cases hrr : r' = r
    · subst hrr; simp only [setRecord, Function.update_self, hst] at ha; cases ha
    · simp only [setRecord, Function.update_of_ne hrr] at ha ⊢
      obtain ⟨h₁, h₂, h₃, τ', hs', hg'⟩ := h.pinned r' a ha
      have hτ : τ' ≠ τ := by rintro rfl; exact hg' hg
      exact ⟨h₁, h₂, h₃, τ', by rwa [Function.update_of_ne hτ], hg'⟩
  · obtain ⟨r', a, hs', ha⟩ := h.guarded τ' hg'
    have hτ : τ' ≠ τ := by rintro rfl; exact hg' hg
    refine ⟨r', a, by simp only [Function.update_of_ne hτ]; exact hs', ?_⟩
    simp only [setRecord, Function.update_of_ne (hne hτ hs')]; exact ha
  · by_cases hτ : τ' = τ
    · subst hτ; simp only [Function.update_self] at hs'; cases hs'
    · simp only [Function.update_of_ne hτ] at hs'
      simp only [setRecord, Function.update_of_ne (hne hτ hs')]
      exact h.nesting τ' r' hs'
  · by_cases hrr : r' = r
    · subst hrr; simp only [setRecord, Function.update_self, hb k] at hx; cases hx
    · simp only [setRecord, Function.update_of_ne hrr] at hx
      exact ⟨hset x (h.bags r' k x hx).1, (h.bags r' k x hx).2⟩
  · refine ⟨le_rfl, le_rfl, by simp only [Function.update_of_ne hσ], rfl, fun r' hr' => ?_,
      fun _ _ => .rfl, fun _ hx => hx, fun r' a ha => ?_, id⟩
    · simp only [setRecord]
      rw [Function.update_of_ne]
      rintro rfl
      exact hσ (Option.some.inj (hr'.symm.trans hown))
    · by_cases hrr : r' = r
      · subst hrr; simp only [setRecord, Function.update_self, hst] at ha; cases ha
      · simp only [setRecord, Function.update_of_ne hrr] at ha ⊢
        exact .inl ⟨⟨a, ha⟩, trivial⟩

end hands

/-! ### The epoch -/

/-- The epoch moves on once a scan has met nobody who announced before it. -/
theorem Move.advance (h : s.Inv)
    (hscan : ∀ r a, (s.record r).state = some a → s.globalEpoch ≤ (s.record r).since) :
    s.Move { s with globalEpoch := s.globalEpoch + 1 } τ := by
  have hset : ∀ x, s.Settled x → Settled { s with globalEpoch := s.globalEpoch + 1 } x :=
    fun x hx => ⟨Nat.le_succ_of_le hx.tag_le, hx.born_le, hx.since_le⟩
  refine ⟨⟨h.records_lt, h.nodup, h.slot, h.owner_lt, h.in_use, h.idle, fun r a ha => ?_, h.guarded,
    h.nesting, h.nested, h.guard_lt,
    fun r k x hx => ⟨hset x (h.bags r k x hx).1, (h.bags r k x hx).2⟩,
    fun x hx => hset x (h.orphans x hx)⟩, ⟨hset, fun x hx => hx, fun _ hx => hx⟩,
    fun σ _ => ?_⟩
  · obtain ⟨h₁, h₂, h₃, h₄⟩ := h.pinned r a ha
    exact ⟨h₁, Nat.le_succ_of_le h₂, Nat.succ_le_succ (hscan r a ha), h₄⟩
  · exact ⟨Nat.le_succ _, le_rfl, rfl, rfl, fun _ _ => rfl, fun _ _ => .rfl, fun _ hx => hx,
      fun r a ha => .inl ⟨⟨a, ha⟩, rfl⟩, id⟩

end EpochDomain

end RcuFib
