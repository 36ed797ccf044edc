import RcuFib.Epoch.Grace

/-! Runs in which no thread that has retired memory ends.

    Then there never are orphans: a thread that ends has nothing in its bags. With them goes the one
    way an object can be freed before its grace period is over. -/

namespace RcuFib

open Trace

variable {T α : Type*}

namespace EpochDomain
variable [DecidableEq T] {s : EpochDomain T α} {τ σ : T} {r : Nat} {pc : Pc α}

/-- A thread gets hold of a record with its bags empty. -/
theorem slot_step (h : s.Inv) (hok : s.Ok τ pc) (weak : Bool)
    (hs : (s.step τ weak pc).1.slot σ = some r) :
    s.slot σ = some r ∨ ∀ k, (s.record r).bags k = [] := by
  rcases s.slot_cases τ weak pc with he | ⟨k, c, rest, rfl, hfree, he⟩ | ⟨k, c, rfl, he⟩ | ⟨c, -, he⟩
  · exact .inl (by rwa [he] at hs)
  · rw [he, Function.update_apply] at hs
    split at hs
    · obtain rfl := Option.some.inj hs
      exact .inr (h.free hfree).2.2
    · exact .inl hs
  · rw [he, Function.update_apply] at hs
    split at hs
    · obtain rfl := Option.some.inj hs
      exact .inr hok.2.2.1.bags
    · exact .inl hs
  · rw [he, Function.update_apply] at hs
    split at hs
    · cases hs
    · exact .inl hs

end EpochDomain

namespace EpochSystem
variable [DecidableEq T] {s s' : EpochSystem T α} {a : Action T α} {R R' : T → Prop}

/-- The threads in `R` have retired memory and stay. -/
structure Residents (s : EpochSystem T α) (R : T → Prop) : Prop where
  bags : ∀ τ r, s.dom.slot τ = some r → ¬ R τ → ∀ k, (s.dom.record r).bags k = []
  retire : ∀ τ pc b, s.pc τ = some pc → pc.kind = .retire b → R τ
  exit : ∀ τ pc, s.pc τ = some pc → pc.kind = .exit → ¬ R τ
  orphans : s.dom.orphans = []
  adopted : ∀ τ pc, s.pc τ = some pc → pc.adopted = []

omit [DecidableEq T] in
theorem residents_init : (init : EpochSystem T α).Residents fun _ => False := by
  refine ⟨?_, ?_, ?_, rfl, ?_⟩
  · intro τ r hs
    cases hs
  · intro τ pc b hpc
    cases hpc
  · intro τ pc hpc
    cases hpc
  · intro τ pc hpc
    cases hpc

theorem residents_call {τ : T} {c : Call α} {x : EpochDomain T α × Option (Pc α)}
    (hr : s.Residents R) (hc : s.dom.call τ c = some x) (hexit : c = .exit → ¬ R τ)
    (hmono : ∀ σ, R σ → R' σ) (hretire : ∀ p, c = .retire (some p) → R' τ)
    (hnew : ∀ σ, R' σ → R σ ∨ σ = τ ∧ ∃ p, c = .retire (some p)) :
    Residents (⟨x.1, Function.update s.pc τ x.2⟩ : EpochSystem T α) R' := by
  obtain ⟨horphans, hmoved⟩ := EpochDomain.moved_call hc
  have hslot := (EpochDomain.steady_call hc).slot
  have hcalled := EpochDomain.called hc
  refine ⟨fun σ r hs hR k => ?_, fun σ pc b hpc hk => ?_, fun σ pc hpc hk => ?_,
    horphans.trans hr.orphans, fun σ pc hpc => ?_⟩
  · rw [(hmoved r).1]
    exact hr.bags σ r (hslot ▸ hs) (fun hσ => hR (hmono σ hσ)) k
  · rcases eq_or_ne σ τ with rfl | hne
    · simp only [Function.update_self] at hpc
      have hkind := hcalled.kind pc hpc
      rw [hk] at hkind
      cases c with
      | retire p =>
        cases p with
        | none => cases hkind
        | some p => exact hretire p rfl
      | _ => cases hkind
    · simp only [Function.update_of_ne hne] at hpc
      exact hmono σ (hr.retire σ pc b hpc hk)
  · rcases eq_or_ne σ τ with rfl | hne
    · simp only [Function.update_self] at hpc
      have hkind := hcalled.kind pc hpc
      rw [hk] at hkind
      cases c with
      | exit =>
        intro hR
        rcases hnew σ hR with hold | ⟨-, p, hp⟩
        · exact hexit rfl hold
        · cases hp
      | retire p => cases p <;> cases hkind
      | _ => cases hkind
    · simp only [Function.update_of_ne hne] at hpc
      intro hR
      rcases hnew σ hR with hold | ⟨heq, -⟩
      · exact hr.exit σ pc hpc hk hold
      · exact hne heq
  · rcases eq_or_ne σ τ with rfl | hne
    · simp only [Function.update_self] at hpc
      exact hcalled.adopted pc hpc
    · simp only [Function.update_of_ne hne] at hpc
      exact hr.adopted σ pc hpc

theorem residents_step {τ : T} {pc : Pc α} (hr : s.Residents R) (h : s.Inv)
    (hpc : s.pc τ = some pc) (weak : Bool) :
    Residents (⟨(s.dom.step τ weak pc).1, Function.update s.pc τ (s.dom.step τ weak pc).2⟩ :
      EpochSystem T α) R := by
  have hok := h.ok τ pc hpc
  have hmoved := EpochDomain.moved_step h.dom τ weak pc
  have hnoted := s.dom.noted_step τ weak pc
  -- a thread keeps the call it is in
  have hkind : ∀ σ pc', Function.update s.pc τ (s.dom.step τ weak pc).2 σ = some pc' →
      ∃ pc₀, s.pc σ = some pc₀ ∧ pc'.kind = pc₀.kind := by
    intro σ pc' hσ
    rcases eq_or_ne σ τ with rfl | hne
    · rw [Function.update_self] at hσ
      exact ⟨pc, hpc, (hnoted.goes pc' hσ).1⟩
    · rw [Function.update_of_ne hne] at hσ
      exact ⟨pc', hσ, rfl⟩
  refine ⟨fun σ r hs hR k => ?_, fun σ pc' b hσ hk => ?_, fun σ pc' hσ hk => ?_, ?_,
    fun σ pc' hσ => ?_⟩
  · refine List.eq_nil_iff_forall_not_mem.mpr fun y hy => ?_
    rcases hmoved.bags r k y hy with hy | ⟨e, rfl⟩
    · have hnil : (s.dom.record r).bags k = [] := by
        rcases EpochDomain.slot_step h.dom hok weak hs with hs | hempty
        · exact hr.bags σ r hs hR k
        · exact hempty k
      rw [hnil] at hy
      cases hy
    · -- the thread that pushes has retired
      have howner := (h.dom.slot τ r hok.1).1
      obtain rfl := Option.some.inj (howner.symm.trans (h.dom.slot σ r hs).1)
      exact hR (hr.retire τ _ y.stamp hpc rfl)
  · obtain ⟨pc₀, h₀, heq⟩ := hkind σ pc' hσ
    exact hr.retire σ pc₀ b h₀ (heq ▸ hk)
  · obtain ⟨pc₀, h₀, heq⟩ := hkind σ pc' hσ
    exact hr.exit σ pc₀ h₀ (heq ▸ hk)
  · refine List.eq_nil_iff_forall_not_mem.mpr fun y hy => ?_
    rcases hmoved.orphans y hy with hold | ⟨r, k, rfl, hbag⟩
    · rw [hr.orphans] at hold
      cases hold
    · rw [hr.bags τ r hok.1 (hr.exit τ _ hpc rfl) k] at hbag
      cases hbag
  · rcases eq_or_ne σ τ with rfl | hne
    · simp only [Function.update_self] at hσ
      refine List.eq_nil_iff_forall_not_mem.mpr fun y hy => ?_
      rcases hnoted.adopted pc' hσ y hy with hy | ⟨-, hy⟩
      · rw [hr.adopted σ pc hpc] at hy
        cases hy
      · rw [hr.orphans] at hy
        cases hy
    · simp only [Function.update_of_ne hne] at hσ
      exact hr.adopted σ pc' hσ

theorem residents_act (hr : s.Residents R) (h : s.Inv) (ha : act s a = some s')
    (hexit : ∀ τ, a = .call τ .exit → ¬ R τ) (hmono : ∀ τ, R τ → R' τ)
    (hretire : ∀ τ p, a = .call τ (.retire (some p)) → R' τ)
    (hnew : ∀ τ, R' τ → R τ ∨ ∃ p, a = .call τ (.retire (some p))) : s'.Residents R' := by
  obtain ⟨τ, x, rfl, ⟨c, rfl, -, hc⟩ | ⟨weak, pc, rfl, hpc, rfl⟩⟩ := act_cases ha
  · refine residents_call hr hc (fun he => hexit τ (by rw [he])) hmono
      (fun p he => hretire τ p (by rw [he])) fun σ hσ => ?_
    rcases hnew σ hσ with hold | ⟨p, he⟩
    · exact .inl hold
    · cases he
      exact .inr ⟨rfl, p, rfl⟩
  · have heq : R' = R := by
      funext σ
      refine propext ⟨fun hσ => ?_, hmono σ⟩
      rcases hnew σ hσ with hold | ⟨p, he⟩
      · exact hold
      · cases he
    rw [heq]
    exact residents_step hr h hpc weak

/-- What has been freed no reader can see. -/
def Spent (s : EpochSystem T α) : Prop := ∀ x ∈ s.dom.freed, s.dom.Safe x

theorem spent_act (hs : s.Spent) (hr : s.Residents R) (h : s.Inv) (ha : act s a = some s') :
    s'.Spent := by
  obtain ⟨τ, x, rfl, ⟨c, -, -, hc⟩ | ⟨weak, pc, -, hpc, rfl⟩⟩ := act_cases ha
  · intro y hy
    rw [(EpochDomain.called hc).freed] at hy
    exact (EpochDomain.call_ok h.dom hc).1.keeps.safe y (hs y hy)
  · intro y hy
    have hok := h.ok τ pc hpc
    have hkeeps : s.dom.Keeps (s.dom.step τ weak pc).1 := (EpochDomain.step_ok h.dom hok).1.keeps
    refine hkeeps.safe y ?_
    rcases (s.dom.noted_step τ weak pc).freed with he | ⟨z, hz, he⟩
    · exact hs y (he ▸ hy)
    · rw [he] at hy
      rcases List.mem_cons.mp hy with rfl | hy
      · rcases EpochDomain.next_cases h.dom hok hz with hadopted | ⟨-, hsafe⟩
        · rw [hr.adopted τ pc hpc] at hadopted
          cases hadopted
        · exact hsafe
      · exact hs y hy

/-! ### What holds in every state of such a run -/

/-- The object is as it was handed to `retire`, up to its tag. -/
def Issued (s : EpochSystem T α) (x : Retiree α) : Prop :=
  ∃ y ∈ s.dom.issued, y.payload = x.payload ∧ y.born = x.born

structure Orderly (s : EpochSystem T α) (R : T → Prop) : Prop where
  inv : s.Inv
  residents : s.Residents R
  spent : s.Spent
  issued : s.Throughout s.Issued

omit [DecidableEq T] in
theorem orderly_init : (init : EpochSystem T α).Orderly fun _ => False := by
  refine ⟨inv_init, residents_init, ?_, ⟨?_, ?_, ?_⟩⟩
  · intro x hx
    cases hx
  · intro x hx
    cases hx
  · intro x hx
    cases hx
  · intro τ pc hpc
    cases hpc

theorem orderly_act (h : s.Orderly R) (ha : act s a = some s')
    (hexit : ∀ τ, a = .call τ .exit → ¬ R τ) (hmono : ∀ τ, R τ → R' τ)
    (hretire : ∀ τ p, a = .call τ (.retire (some p)) → R' τ)
    (hnew : ∀ τ, R' τ → R τ ∨ ∃ p, a = .call τ (.retire (some p))) : s'.Orderly R' := by
  refine ⟨inv_act h.inv ha, residents_act h.residents h.inv ha hexit hmono hretire hnew,
    spent_act h.spent h.residents h.inv ha, ?_⟩
  refine throughout_act h.issued h.inv ha ?_ (fun _ _ => .rfl) (fun y hy => ⟨y, hy, rfl, rfl⟩)
    fun y hy => ⟨y, hy, rfl, rfl⟩
  rintro x ⟨y, hy, hyx⟩
  exact ⟨y, issued_mono ha y hy, hyx⟩

omit [DecidableEq T] in
/-- Whatever has been freed was retired before any of the open guards was opened. -/
theorem Orderly.freed (h : s.Orderly R) {x : Retiree α} (hx : x ∈ s.dom.freed) :
    ∃ y ∈ s.dom.issued, y.payload = x.payload ∧ ∀ τ, ∀ g ∈ s.dom.guards τ, y.born ≤ g.number := by
  obtain ⟨y, hy, hp, hb⟩ := h.issued.freed x hx
  refine ⟨y, hy, hp, ?_⟩
  intro τ g hg
  rw [hb]
  exact (h.spent x hx).2 τ g hg

/-- What is newly issued is what is retired, and it is later than every open guard. -/
theorem issued_new (h : s.Inv) (ha : act s a = some s') {x : Retiree α} (hx : x ∈ s'.dom.issued) :
    x ∈ s.dom.issued ∨ (∃ τ, a = .call τ (.retire (some x.payload))) ∧
      ∀ τ, ∀ g ∈ s'.dom.guards τ, g.number < x.born := by
  obtain ⟨σ, y, rfl, ⟨c, rfl, -, hc⟩ | ⟨weak, pc, -, -, rfl⟩⟩ := act_cases ha
  · have hcalled := EpochDomain.called hc
    rcases hcalled.issued with ⟨he, -⟩ | ⟨p, rfl, he⟩
    · exact .inl (he ▸ hx)
    · rw [he] at hx
      rcases List.mem_cons.mp hx with rfl | hx
      · refine .inr ⟨⟨σ, rfl⟩, ?_⟩
        intro τ g hg
        rcases hcalled.guards.2 with ⟨hguards, -⟩ | ⟨hleave, -⟩
        · exact h.dom.guard_lt τ g (hguards ▸ hg)
        · cases hleave
      · exact .inl hx
  · exact .inl ((s.dom.noted_step σ weak pc).issued ▸ hx)

/-- How the guards of a thread change: one opens inside the others, or the innermost is closed. -/
theorem guards_act (ha : act s a = some s') (τ : T) : s'.dom.guards τ = s.dom.guards τ ∨
    (∃ g, s'.dom.guards τ = g :: s.dom.guards τ) ∨
    a = .call τ .leave ∧ ∃ g, s.dom.guards τ = g :: s'.dom.guards τ := by
  obtain ⟨σ, x, rfl, ⟨c, rfl, -, hc⟩ | ⟨weak, pc, -, -, rfl⟩⟩ := act_cases ha
  · rcases (EpochDomain.called hc).guards.2 with ⟨he, -⟩ | ⟨rfl, g, rest, hg, he⟩
    · exact .inl (congrFun he τ)
    · rcases eq_or_ne τ σ with rfl | hne
      · refine .inr (.inr ⟨rfl, g, ?_⟩)
        rw [hg, he, Function.update_self]
      · exact .inl (by rw [he, Function.update_of_ne hne])
  · rcases (s.dom.noted_step σ weak pc).guards with ⟨he, -⟩ | ⟨-, -, -, o, he⟩
    · exact .inl (congrFun he τ)
    · rcases eq_or_ne τ σ with rfl | hne
      · exact .inr (.inl ⟨⟨s.dom.nextGuard, o⟩, by rw [he, Function.update_self]⟩)
      · exact .inl (by rw [he, Function.update_of_ne hne])

/-- No thread opens or closes a guard of another. -/
theorem guards_of_ne {τ σ : T} (ha : act s a = some s')
    (hτ : (∃ c, a = .call τ c) ∨ ∃ weak, a = .step τ weak) (hne : σ ≠ τ) :
    s'.dom.guards σ = s.dom.guards σ := by
  obtain ⟨τ', x, rfl, ⟨c, rfl, -, hc⟩ | ⟨weak, pc, rfl, -, rfl⟩⟩ := act_cases ha
  · obtain rfl : τ' = τ := by
      rcases hτ with ⟨c', h⟩ | ⟨weak, h⟩ <;> cases h
      rfl
    rcases (EpochDomain.called hc).guards.2 with ⟨he, -⟩ | ⟨rfl, g, rest, hg, he⟩
    · exact congrFun he σ
    · rw [he, Function.update_of_ne hne]
  · obtain rfl : τ' = τ := by
      rcases hτ with ⟨c', h⟩ | ⟨weak', h⟩ <;> cases h
      rfl
    rcases (s.dom.noted_step τ' weak pc).guards with ⟨he, -⟩ | ⟨-, -, -, o, he⟩
    · exact congrFun he σ
    · rw [he, Function.update_of_ne hne]

end EpochSystem

end RcuFib
