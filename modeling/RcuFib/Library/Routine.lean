import Mathlib.Logic.Basic

/-! Routines that run one atomic step at a time.

    A routine is a step function on a shared state `σ` and a position `ι` (its program counter and
    locals). A step moves on, hands an effect `ε` to the surroundings and moves on, or returns a
    result `ρ`. The same step function serves two readings: interleaved with other threads a step is
    one transition; alone, `run` iterates it. `run_of_measure` is the total-correctness rule for the
    second reading: an invariant and a decreasing measure give the result, with enough fuel. -/

namespace Routine

variable {σ ι ε ρ : Type*}

/-- What one step does. -/
inductive Outcome (σ ι ε ρ : Type*) where
  | next (s : σ) (i : ι)
  | call (s : σ) (e : ε) (i : ι)
  | done (s : σ) (r : ρ)

namespace Outcome

/-- `P` holds where the routine goes on and `Q` where it returns. -/
def Sat (P : σ → ι → Prop) (Q : σ → ρ → Prop) : Outcome σ ι ε ρ → Prop
  | next s i => P s i
  | call s _ i => P s i
  | done s r => Q s r

/-- The same step seen from a larger set of positions. -/
def map {κ : Type*} (f : ι → κ) : Outcome σ ι ε ρ → Outcome σ κ ε ρ
  | next s i => next s (f i)
  | call s e i => call s e (f i)
  | done s r => done s r

/-- The same step on the states that stand for others. -/
def mapState {τ : Type*} (g : σ → τ) : Outcome σ ι ε ρ → Outcome τ ι ε ρ
  | next s i => next (g s) i
  | call s e i => call (g s) e i
  | done s r => done (g s) r

variable {P P' : σ → ι → Prop} {Q Q' : σ → ρ → Prop}

@[simp] theorem sat_next {s : σ} {i : ι} : (next s i : Outcome σ ι ε ρ).Sat P Q ↔ P s i := .rfl
@[simp] theorem sat_call {s : σ} {e : ε} {i : ι} :
    (call s e i : Outcome σ ι ε ρ).Sat P Q ↔ P s i := .rfl
@[simp] theorem sat_done {s : σ} {r : ρ} : (done s r : Outcome σ ι ε ρ).Sat P Q ↔ Q s r := .rfl

@[simp] theorem sat_map {κ : Type*} {f : ι → κ} {R : σ → κ → Prop} {o : Outcome σ ι ε ρ} :
    (o.map f).Sat R Q ↔ o.Sat (fun s i => R s (f i)) Q := by cases o <;> rfl

theorem Sat.and {o : Outcome σ ι ε ρ} (h : o.Sat P Q) (h' : o.Sat P' Q') :
    o.Sat (fun s i => P s i ∧ P' s i) (fun s r => Q s r ∧ Q' s r) := by
  cases o <;> exact ⟨h, h'⟩

theorem Sat.mono {o : Outcome σ ι ε ρ} (h : o.Sat P Q) (hP : ∀ s i, P s i → P' s i)
    (hQ : ∀ s r, Q s r → Q' s r) : o.Sat P' Q' := by
  cases o with
  | next s i => exact hP s i h
  | call s e i => exact hP s i h
  | done s r => exact hQ s r h

/-- The effect a step hands out, if any. -/
def effects : Outcome σ ι ε ρ → List ε
  | next _ _ => []
  | call _ e _ => [e]
  | done _ _ => []

end Outcome

variable (step : σ → ι → Outcome σ ι ε ρ)

/-- Runs the routine alone. The result carries the effects it handed out, in order. -/
def run : Nat → σ → ι → Option (σ × List ε × ρ)
  | 0, _, _ => none
  | fuel + 1, s, i =>
    match step s i with
    | .next s' i' => run fuel s' i'
    | .call s' e i' => (run fuel s' i').map fun x => (x.1, e :: x.2.1, x.2.2)
    | .done s' r => some (s', [], r)

variable {step} {P : σ → ι → Prop} {Q : σ → ρ → Prop} {μ : σ → ι → Nat}

/-- More fuel does not change the result. -/
theorem run_mono {x : σ × List ε × ρ} {fuel' : Nat} :
    ∀ {fuel : Nat} {s : σ} {i : ι}, run step fuel s i = some x → fuel ≤ fuel' →
      run step fuel' s i = some x := by
  induction fuel' generalizing x with
  | zero =>
    intro fuel s i h hle
    rw [Nat.le_zero.mp hle] at h
    exact h
  | succ fuel' ih =>
    rintro (_ | fuel) s i h hle
    · cases h
    · have hle := Nat.le_of_succ_le_succ hle
      simp only [run] at h ⊢
      cases ho : step s i with
      | next s' i' => rw [ho] at h; exact ih h hle
      | call s' e i' =>
        rw [ho] at h
        obtain ⟨y, hy, rfl⟩ := Option.map_eq_some_iff.mp h
        simp only [ih hy hle, Option.map_some]
      | done s' r => rw [ho] at h; exact h

/-- The partial-correctness rule: an invariant of the steps, of the state and of the effects handed out
    so far, holds of what the routine returns. -/
theorem run_log {P : List ε → σ → ι → Prop} {Q : List ε → σ → ρ → Prop}
    (hstep : ∀ log s i, P log s i → (step s i).Sat
      (fun s' i' => P (log ++ (step s i).effects) s' i') (fun s' r => Q (log ++ (step s i).effects) s' r)) :
    ∀ (log : List ε) {fuel : Nat} {s : σ} {i : ι} {es : List ε} {s' : σ} {r : ρ}, P log s i →
      run step fuel s i = some (s', es, r) → Q (log ++ es) s' r := by
  intro log fuel
  induction fuel generalizing log with
  | zero => intro s i es s' r _ h; cases h
  | succ fuel ih =>
    intro s i es s' r hp h
    have hs := hstep log s i hp
    simp only [run] at h
    cases ho : step s i with
    | next s₁ i₁ =>
      rw [ho] at hs h
      exact ih log (by simpa [Outcome.effects] using hs) h
    | call s₁ e i₁ =>
      rw [ho] at hs h
      obtain ⟨⟨s₂, es₂, r₂⟩, hr, heq⟩ := Option.map_eq_some_iff.mp h
      cases heq
      have := ih _ hs hr
      rwa [Outcome.effects, List.append_assoc, List.singleton_append] at this
    | done s₁ r₁ =>
      rw [ho] at hs h
      cases h
      exact hs

/-- The same rule without the log. -/
theorem run_sat (hstep : ∀ s i, P s i → (step s i).Sat P Q) {fuel : Nat} {s s' : σ} {i : ι}
    {es : List ε} {r : ρ} (hp : P s i) (h : run step fuel s i = some (s', es, r)) : Q s' r :=
  run_log (P := fun _ => P) (Q := fun _ => Q) (fun _ => hstep) [] hp h

/-- An invariant of the steps that a measure bounds holds of the result, and there is one. -/
theorem exists_run
    (hstep : ∀ s i, P s i → (step s i).Sat (fun s' i' => P s' i' ∧ μ s' i' < μ s i) Q) :
    ∀ {fuel : Nat} {s : σ} {i : ι}, P s i → μ s i < fuel →
      ∃ s' es r, run step fuel s i = some (s', es, r) ∧ Q s' r
  | 0, _, _, _, h => absurd h (Nat.not_lt_zero _)
  | fuel + 1, s, i, hp, h => by
    have hs := hstep s i hp
    simp only [run]
    cases ho : step s i with
    | next s' i' =>
      rw [ho] at hs
      exact exists_run hstep hs.1 (by have := hs.2; omega)
    | call s' e i' =>
      rw [ho] at hs
      have hlt : μ s' i' < fuel := by have := hs.2; omega
      obtain ⟨t, es, r, hr, hq⟩ := exists_run hstep hs.1 hlt
      exact ⟨t, e :: es, r, by simp [hr], hq⟩
    | done s' r =>
      rw [ho] at hs
      exact ⟨s', [], r, rfl, hs⟩

/-- The total-correctness rule: one result, whatever fuel above the measure it is run with. -/
theorem run_of_measure
    (hstep : ∀ s i, P s i → (step s i).Sat (fun s' i' => P s' i' ∧ μ s' i' < μ s i) Q)
    {s : σ} {i : ι} (h : P s i) :
    ∃ s' es r, Q s' r ∧ ∀ fuel > μ s i, run step fuel s i = some (s', es, r) := by
  obtain ⟨s', es, r, hr, hq⟩ := exists_run hstep h (Nat.lt_succ_self _)
  exact ⟨s', es, r, hq, fun fuel hf => run_mono hr hf⟩

/-- What a computation yields that more fuel does not change, it yields with any fuel that is enough. -/
theorem eq_of_fuel {α : Type*} {f : Nat → Option α} {x y : α} {fuel fuel₀ : Nat}
    (hmono : ∀ fuel', fuel ≤ fuel' → f fuel' = some x) (hy : ∀ fuel > fuel₀, f fuel = some y) :
    x = y := by
  have hle : fuel ≤ max fuel (fuel₀ + 1) := Nat.le_max_left _ _
  have hgt : fuel₀ < max fuel (fuel₀ + 1) := Nat.le_max_right _ _
  exact Option.some.inj ((hmono _ hle).symm.trans (hy _ hgt))

/-! ### Stopping on the way -/

/-- Where a routine is left that stops at number `n`, from 0, of the positions at which `stop` holds;
    nothing if it returns before. -/
def haltAt (step : σ → ι → Outcome σ ι ε ρ) (stop : ι → Bool) : (fuel n : Nat) → σ → ι → Option (σ × ι)
  | 0, _, _, _ => none
  | fuel + 1, n, s, i =>
    if stop i ∧ n = 0 then some (s, i)
    else
      let n := if stop i then n - 1 else n
      match step s i with
      | .next s' i' => haltAt step stop fuel n s' i'
      | .call s' _ i' => haltAt step stop fuel n s' i'
      | .done _ _ => none

/-- A routine that stops on the way leaves its invariant behind. -/
theorem haltAt_sat {stop : ι → Bool} (hstep : ∀ s i, P s i → (step s i).Sat P fun _ _ => True) :
    ∀ {fuel n : Nat} {s s' : σ} {i i' : ι}, P s i → haltAt step stop fuel n s i = some (s', i') →
      P s' i' ∧ stop i' = true := by
  intro fuel
  induction fuel with
  | zero => intro n s s' i i' _ h; cases h
  | succ fuel ih =>
    intro n s s' i i' hp h
    have hs := hstep s i hp
    rw [haltAt] at h
    split at h
    · next hstop =>
      cases h
      exact ⟨hp, hstop.1⟩
    · cases ho : step s i with
      | next s₁ i₁ =>
        rw [ho] at hs
        simp only [ho] at h
        exact ih hs h
      | call s₁ e i₁ =>
        rw [ho] at hs
        simp only [ho] at h
        exact ih hs h
      | done s₁ r₁ =>
        simp only [ho] at h
        cases h

/-! ### Step by step the same -/

section simulation
variable {τ : Type*} {step' : τ → ι → Outcome τ ι ε ρ} {g : σ → τ}

/-- Where `g` takes every step of a routine to a step of another, it takes runs to runs. -/
theorem run_mapState (hstep : ∀ s i, P s i → (step s i).Sat P fun _ _ => True)
    (hsim : ∀ s i, P s i → step' (g s) i = (step s i).mapState g) : ∀ {fuel : Nat} {s : σ} {i : ι},
      P s i → run step' fuel (g s) i = (run step fuel s i).map fun x => (g x.1, x.2) := by
  intro fuel
  induction fuel with
  | zero => intro s i _; rfl
  | succ fuel ih =>
    intro s i hp
    have hs := hstep s i hp
    rw [run, run, hsim s i hp]
    cases ho : step s i with
    | next s₁ i₁ =>
      rw [ho] at hs
      exact ih hs
    | call s₁ e i₁ =>
      rw [ho] at hs
      simp only [Outcome.mapState, ih hs, Option.map_map]
      rfl
    | done s₁ r₁ => rfl

/-- It takes the places where the one stops on the way to where the other stops. -/
theorem haltAt_mapState {stop : ι → Bool} (hstep : ∀ s i, P s i → (step s i).Sat P fun _ _ => True)
    (hsim : ∀ s i, P s i → step' (g s) i = (step s i).mapState g) : ∀ {fuel n : Nat} {s : σ} {i : ι},
      P s i → haltAt step' stop fuel n (g s) i =
        (haltAt step stop fuel n s i).map fun x => (g x.1, x.2) := by
  intro fuel
  induction fuel with
  | zero => intro n s i _; rfl
  | succ fuel ih =>
    intro n s i hp
    have hs := hstep s i hp
    rw [haltAt, haltAt, hsim s i hp]
    split
    · rfl
    · cases ho : step s i with
      | next s₁ i₁ =>
        rw [ho] at hs
        exact ih hs
      | call s₁ e i₁ =>
        rw [ho] at hs
        exact ih hs
      | done s₁ r₁ => rfl

end simulation

/-! ### The states on the way -/

section states

/-- The states the steps of a run leave behind, one for each step. -/
def states (step : σ → ι → Outcome σ ι ε ρ) : Nat → σ → ι → List σ
  | 0, _, _ => []
  | fuel + 1, s, i =>
    match step s i with
    | .next s' i' => s' :: states step fuel s' i'
    | .call s' _ i' => s' :: states step fuel s' i'
    | .done s' _ => [s']

/-- The positions a run comes by, the one it starts from included. -/
def positions (step : σ → ι → Outcome σ ι ε ρ) : Nat → σ → ι → List ι
  | 0, _, _ => []
  | fuel + 1, s, i => i :: match step s i with
    | .next s' i' => positions step fuel s' i'
    | .call s' _ i' => positions step fuel s' i'
    | .done _ _ => []

variable {β : Type*} {B : σ → Prop} {A : β → σ → Prop}

theorem run_next {s s' : σ} {i i' : ι} (h : step s i = .next s' i') (fuel : Nat) :
    run step (fuel + 1) s i = run step fuel s' i' ∧
      positions step (fuel + 1) s i = i :: positions step fuel s' i' := by
  simp only [run, positions, h, and_self]

theorem run_done {s s' : σ} {i : ι} {r : ρ} (h : step s i = .done s' r) (fuel : Nat) :
    run step (fuel + 1) s i = some (s', [], r) ∧ positions step (fuel + 1) s i = [i] := by
  simp only [run, positions, h, and_self]

/-- What holds from some step on holds of every later state and of the last one. -/
theorem states_after {b : β} {Q : σ → ι → Prop}
    (hstep : ∀ s i, Q s i → (step s i).Sat (fun s' i' => Q s' i' ∧ A b s') (fun s' _ => A b s')) :
    ∀ {fuel : Nat} {s : σ} {i : ι} {es : List ε} {s' : σ} {r : ρ}, Q s i →
      run step fuel s i = some (s', es, r) →
      (∀ x ∈ states step fuel s i, A b x) ∧ s' ∈ states step fuel s i := by
  intro fuel
  induction fuel with
  | zero => intro s i es s' r _ h; cases h
  | succ fuel ih =>
    intro s i es s' r hq h
    have hs := hstep s i hq
    simp only [run] at h
    simp only [states]
    cases ho : step s i with
    | next s₁ i₁ =>
      rw [ho] at hs h
      obtain ⟨hall, hlast⟩ := ih hs.1 h
      exact ⟨List.forall_mem_cons.mpr ⟨hs.2, hall⟩, List.mem_cons_of_mem _ hlast⟩
    | call s₁ e i₁ =>
      rw [ho] at hs h
      obtain ⟨⟨s₂, es₂, r₂⟩, hr, heq⟩ := Option.map_eq_some_iff.mp h
      cases heq
      obtain ⟨hall, hlast⟩ := ih hs.1 hr
      exact ⟨List.forall_mem_cons.mpr ⟨hs.2, hall⟩, List.mem_cons_of_mem _ hlast⟩
    | done s₁ r₁ =>
      rw [ho] at hs h
      cases h
      exact ⟨by simpa using hs, List.mem_singleton_self _⟩

/-- The rule of the single switch: while `P` holds the states satisfy `B`; one step goes over to `Q`,
    for good, and from that step on they satisfy `A`. -/
theorem states_switch {P : σ → ι → Prop} {Q : β → σ → ι → Prop}
    (hbefore : ∀ s i, P s i → (step s i).Sat
      (fun s' i' => P s' i' ∧ B s' ∨ ∃ b, Q b s' i' ∧ A b s') (fun _ _ => False))
    (hafter : ∀ b s i, Q b s i →
      (step s i).Sat (fun s' i' => Q b s' i' ∧ A b s') (fun s' _ => A b s')) :
    ∀ {fuel : Nat} {s : σ} {i : ι} {es : List ε} {s' : σ} {r : ρ}, P s i →
      run step fuel s i = some (s', es, r) →
      ∃ (b : β) (before after : List σ), states step fuel s i = before ++ after ∧
        (∀ x ∈ before, B x) ∧ (∀ x ∈ after, A b x) ∧ s' ∈ after := by
  intro fuel
  induction fuel with
  | zero => intro s i es s' r _ h; cases h
  | succ fuel ih =>
    intro s i es s' r hp h
    have hs := hbefore s i hp
    have hgo : ∀ {s₁ i₁ es₁}, (P s₁ i₁ ∧ B s₁ ∨ ∃ b, Q b s₁ i₁ ∧ A b s₁) →
        run step fuel s₁ i₁ = some (s', es₁, r) →
        ∃ (b : β) (before after : List σ), s₁ :: states step fuel s₁ i₁ = before ++ after ∧
          (∀ x ∈ before, B x) ∧ (∀ x ∈ after, A b x) ∧ s' ∈ after := by
      rintro s₁ i₁ es₁ (⟨hp, hb⟩ | ⟨b, hq, ha⟩) hr
      · obtain ⟨b, before, after, heq, hbs, has, hlast⟩ := ih hp hr
        exact ⟨b, s₁ :: before, after, by rw [heq]; rfl, List.forall_mem_cons.mpr ⟨hb, hbs⟩, has, hlast⟩
      · obtain ⟨hall, hlast⟩ := states_after (hafter b) hq hr
        exact ⟨b, [], _, rfl, nofun, List.forall_mem_cons.mpr ⟨ha, hall⟩,
          List.mem_cons_of_mem _ hlast⟩
    simp only [run] at h
    simp only [states]
    cases ho : step s i with
    | next s₁ i₁ => rw [ho] at hs h; exact hgo hs h
    | call s₁ e i₁ =>
      rw [ho] at hs h
      obtain ⟨⟨s₂, es₂, r₂⟩, hr, heq⟩ := Option.map_eq_some_iff.mp h
      cases heq
      exact hgo hs hr
    | done s₁ r₁ => rw [ho] at hs; exact hs.elim

end states

/-! ### Two routines in lock step -/

section lockstep
variable {σ' ι' ε' ρ' : Type*} {step' : σ' → ι' → Outcome σ' ι' ε' ρ'} {R : σ → ι → σ' → ι' → Prop}

/-- Both steps go on without an effect, at related positions, or both return. -/
def Outcome.Paired (R : σ → ι → σ' → ι' → Prop) : Outcome σ ι ε ρ → Outcome σ' ι' ε' ρ' → Prop
  | .next s i, .next s' i' => R s i s' i'
  | .done _ _, .done _ _ => True
  | _, _ => False

/-- Routines in lock step take the same number of steps. -/
theorem run_lockstep
    (hstep : ∀ s i s' i', R s i s' i' → Outcome.Paired R (step s i) (step' s' i')) :
    ∀ (fuel : Nat) {s : σ} {i : ι} {s' : σ'} {i' : ι'}, R s i s' i' →
      (run step fuel s i).isSome = (run step' fuel s' i').isSome := by
  intro fuel
  induction fuel with
  | zero => intro s i s' i' _; rfl
  | succ fuel ih =>
    intro s i s' i' h
    have hs := hstep s i s' i' h
    simp only [run]
    cases ho : step s i with
    | next s₁ i₁ =>
      cases ho' : step' s' i' with
      | next s₁' i₁' => rw [ho, ho'] at hs; exact ih hs
      | call => rw [ho, ho'] at hs; exact hs.elim
      | done => rw [ho, ho'] at hs; exact hs.elim
    | call => rw [ho] at hs; exact hs.elim
    | done s₁ r₁ =>
      cases ho' : step' s' i' with
      | next => rw [ho, ho'] at hs; exact hs.elim
      | call => rw [ho, ho'] at hs; exact hs.elim
      | done => rfl

end lockstep

end Routine
