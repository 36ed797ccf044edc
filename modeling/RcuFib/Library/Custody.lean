import RcuFib.Library.Routine

/-! Things a routine hands over, each of them once.

    An effect may hand things over to the surroundings, and what it hands over may depend on the state
    it happens in. `Kept` says what is still in the routine's keeping at each position. When a step only
    gives up what it hands over, and only hands over what it still kept, the books of a whole run are
    in order: a thing is kept and was never handed over, or it was handed over once. -/

namespace Routine

variable {σ ι ε ρ α : Type*}

/-- The effects of a run, each with the state it happens in. -/
def calls (step : σ → ι → Outcome σ ι ε ρ) : Nat → σ → ι → List (σ × ε)
  | 0, _, _ => []
  | fuel + 1, s, i =>
    match step s i with
    | .next s' i' => calls step fuel s' i'
    | .call s' e i' => (s', e) :: calls step fuel s' i'
    | .done _ _ => []

/-- How often `x` has been handed over. -/
def handed (hands : σ → ε → α → Bool) (log : List (σ × ε)) (x : α) : Nat :=
  log.countP fun c => hands c.1 c.2 x

/-- Kept and never handed over, or handed over once. -/
def Accounted (kept : Prop) (count : Nat) : Prop := kept ∧ count = 0 ∨ ¬ kept ∧ count = 1

/-- What was `kept` before the step is kept after it or handed over by it. -/
def Outcome.Conserves (hands : σ → ε → α → Bool) (Kept : σ → ι → α → Prop) (Rest : σ → α → Prop)
    (kept : α → Prop) : Outcome σ ι ε ρ → Prop
  | .next s i => ∀ x, Kept s i x ↔ kept x
  | .call s e i => ∀ x, (hands s e x = true → kept x) ∧ (Kept s i x ↔ kept x ∧ hands s e x = false)
  | .done s _ => ∀ x, Rest s x ↔ kept x

variable {step : σ → ι → Outcome σ ι ε ρ} {hands : σ → ε → α → Bool} {Kept : σ → ι → α → Prop}
  {Rest : σ → α → Prop} {P : σ → ι → Prop}

@[simp] theorem handed_nil (x : α) : handed hands [] x = 0 := rfl

theorem Outcome.conserves_map {κ : Type*} {f : ι → κ} {Kept : σ → κ → α → Prop} {kept : α → Prop}
    {o : Outcome σ ι ε ρ} : (o.map f).Conserves hands Kept Rest kept ↔
      o.Conserves hands (fun s i => Kept s (f i)) Rest kept := by cases o <;> rfl

theorem handed_append (log log' : List (σ × ε)) (x : α) :
    handed hands (log ++ log') x = handed hands log x + handed hands log' x :=
  List.countP_append ..

/-- Handing over what was kept. -/
theorem Accounted.hand {kept kept' : Prop} {b : Bool} {count : Nat} (h : Accounted kept count)
    (hb : b = true → kept) (hk : kept' ↔ kept ∧ b = false) :
    Accounted kept' (count + if b then 1 else 0) := by
  cases b with
  | false => simpa [hk] using h
  | true =>
    rcases h with ⟨-, rfl⟩ | ⟨hn, -⟩
    · exact .inr ⟨fun h' => Bool.noConfusion (hk.mp h').2, by simp⟩
    · exact absurd (hb rfl) hn

theorem Accounted.congr {kept kept' : Prop} {count : Nat} (h : Accounted kept count)
    (hk : kept' ↔ kept) : Accounted kept' count := by rwa [Accounted, hk]

theorem Accounted.le_one {kept : Prop} {count : Nat} (h : Accounted kept count) : count ≤ 1 := by
  rcases h with ⟨-, rfl⟩ | ⟨-, rfl⟩
  · exact Nat.zero_le 1
  · exact Nat.le_refl 1

/-- What is still kept has not been handed over. -/
theorem Accounted.not_handed {kept : Prop} {count : Nat} (h : Accounted kept count) (hk : kept) :
    count = 0 := by
  rcases h with ⟨-, hc⟩ | ⟨hn, -⟩
  · exact hc
  · exact absurd hk hn

/-- The books of a run whose steps conserve. -/
theorem run_accounted (hstep : ∀ s i, P s i → (step s i).Sat P (fun _ _ => True))
    (hcons : ∀ s i, P s i → (step s i).Conserves hands Kept Rest (Kept s i)) :
    ∀ {fuel : Nat} {s : σ} {i : ι} {es : List ε} {s' : σ} {r : ρ}, P s i →
      run step fuel s i = some (s', es, r) → ∀ {x : α} {count : Nat}, Accounted (Kept s i x) count →
        Accounted (Rest s' x) (count + handed hands (calls step fuel s i) x) := by
  intro fuel
  induction fuel with
  | zero => intro s i es s' r _ h; cases h
  | succ fuel ih =>
    intro s i es s' r hp h x count hx
    have hs := hstep s i hp
    have hc := hcons s i hp
    simp only [run] at h
    simp only [calls]
    cases ho : step s i with
    | next s₁ i₁ =>
      rw [ho] at hs hc h
      refine ih hs h ?_
      rwa [Accounted, hc x]
    | call s₁ e i₁ =>
      rw [ho] at hs hc h
      obtain ⟨⟨s₂, es₂, r₂⟩, hr, heq⟩ := Option.map_eq_some_iff.mp h
      cases heq
      have := ih hs hr (hx.hand (hc x).1 (hc x).2)
      rw [handed, List.countP_cons, Nat.add_comm (List.countP ..), ← Nat.add_assoc]
      exact this
    | done s₁ r₁ =>
      rw [ho] at hc h
      cases h
      rwa [handed_nil, Nat.add_zero, Accounted, hc x]

/-- What holds of each effect when it happens holds of all effects of a run. -/
theorem calls_forall {C : σ → ε → Prop}
    (hstep : ∀ s i, P s i → (step s i).Sat P (fun _ _ => True))
    (hcall : ∀ s i s' e i', P s i → step s i = .call s' e i' → C s' e) :
    ∀ {fuel : Nat} {s : σ} {i : ι}, P s i → ∀ c ∈ calls step fuel s i, C c.1 c.2 := by
  intro fuel
  induction fuel with
  | zero => intro s i _ c hc; cases hc
  | succ fuel ih =>
    intro s i hp c hc
    have hs := hstep s i hp
    simp only [calls] at hc
    cases ho : step s i with
    | next s₁ i₁ => rw [ho] at hs hc; exact ih hs c hc
    | call s₁ e i₁ =>
      rw [ho] at hs hc
      rcases List.mem_cons.mp hc with rfl | hc
      · exact hcall s i s₁ e i₁ hp ho
      · exact ih hs c hc
    | done s₁ r₁ => rw [ho] at hc; cases hc

theorem map_snd_calls : ∀ {fuel : Nat} {s : σ} {i : ι} {es : List ε} {s' : σ} {r : ρ},
    run step fuel s i = some (s', es, r) → (calls step fuel s i).map Prod.snd = es := by
  intro fuel
  induction fuel with
  | zero => intro s i es s' r h; cases h
  | succ fuel ih =>
    intro s i es s' r h
    simp only [run] at h
    simp only [calls]
    cases ho : step s i with
    | next s₁ i₁ =>
      rw [ho] at h
      exact ih h
    | call s₁ e i₁ =>
      rw [ho] at h
      obtain ⟨⟨s₂, es₂, r₂⟩, hr, heq⟩ := Option.map_eq_some_iff.mp h
      cases heq
      rw [List.map_cons, ih hr]
    | done s₁ r₁ =>
      rw [ho] at h
      cases h
      rfl

/-- A run that leaves the state alone. -/
theorem handed_eq {s₀ : σ} {log : List (σ × ε)} (h : ∀ c ∈ log, c.1 = s₀) (x : α) :
    handed hands log x = (log.map Prod.snd).countP fun e => hands s₀ e x := by
  rw [handed, List.countP_map]
  refine List.countP_congr fun c hc => ?_
  rw [Function.comp_apply, h c hc]

end Routine
