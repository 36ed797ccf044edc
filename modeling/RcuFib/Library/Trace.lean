import Mathlib.Data.Nat.Init

/-! Finite runs of a system whose steps are labelled with actions.

    `act s a` is the state after action `a`, or nothing where the action is not enabled. A run is a
    sequence of states indexed by time, so that statements can speak of every moment between two
    others; `play` is the run of a given schedule. -/

namespace Trace

variable {σ α : Type*}

/-- Some action leads from one state to the other. -/
def Step (act : σ → α → Option σ) (s s' : σ) : Prop := ∃ a, act s a = some s'

/-- The first `n` steps of `r` are steps of the system, from `init`. -/
structure Run (act : σ → α → Option σ) (init : σ) (r : Nat → σ) (n : Nat) : Prop where
  start : r 0 = init
  step : ∀ i < n, Step act (r i) (r (i + 1))

variable {act : σ → α → Option σ} {init : σ} {r : Nat → σ} {n : Nat}

/-- A run stopped early. -/
theorem Run.take {k : Nat} (h : Run act init r n) (hk : k ≤ n) : Run act init r k :=
  ⟨h.start, fun i hi => h.step i (Nat.lt_of_lt_of_le hi hk)⟩

/-- What holds at the start and survives every step holds throughout. -/
theorem Run.invariant {P : σ → Prop} (h : Run act init r n) (hinit : P init)
    (hstep : ∀ s a s', P s → act s a = some s' → P s') : ∀ i ≤ n, P (r i)
  | 0, _ => h.start ▸ hinit
  | i + 1, hi => by
    obtain ⟨a, ha⟩ := h.step i hi
    exact hstep _ a _ (h.invariant hinit hstep i (Nat.le_of_succ_le hi)) ha

/-- Induction along a stretch of a run. -/
theorem Run.along {Q : Nat → σ → Prop} {i₀ : Nat} (h : Run act init r n) (h₀ : Q i₀ (r i₀))
    (hstep : ∀ i a, i₀ ≤ i → i < n → Q i (r i) → act (r i) a = some (r (i + 1)) →
      Q (i + 1) (r (i + 1))) : ∀ i, i₀ ≤ i → i ≤ n → Q i (r i) := by
  intro i hi
  induction i, hi using Nat.le_induction with
  | base => exact fun _ => h₀
  | succ i hi ih =>
    intro hn
    obtain ⟨a, ha⟩ := h.step i hn
    exact hstep i a hi hn (ih (Nat.le_of_succ_le hn)) ha

/-- A counter that no step lowers is not lower later. -/
theorem Run.monotone {f : σ → Nat} (h : Run act init r n)
    (hstep : ∀ i a, i < n → act (r i) a = some (r (i + 1)) → f (r i) ≤ f (r (i + 1))) {i j : Nat}
    (hij : i ≤ j) (hj : j ≤ n) : f (r i) ≤ f (r j) := by
  refine h.along (Q := fun _ s => f (r i) ≤ f s) (Nat.le_refl _) ?_ j hij hj
  intro k a _ hk hle ha
  exact Nat.le_trans hle (hstep k a hk ha)

/-! ### What has happened since -/

/-- `p` happened before time `i`, and `q` has not happened after it. -/
def Since (p q : Nat → Prop) (i : Nat) : Prop := ∃ m < i, p m ∧ ∀ l, m < l → l < i → ¬ q l

theorem Since.now {p q : Nat → Prop} {i : Nat} (h : p i) : Since p q (i + 1) := by
  refine ⟨i, Nat.lt_succ_self i, h, fun l hl hli => ?_⟩
  exact absurd (Nat.le_of_lt_succ hli) (Nat.not_le_of_lt hl)

theorem Since.later {p q : Nat → Prop} {i : Nat} (h : Since p q i) (hq : ¬ q i) :
    Since p q (i + 1) := by
  obtain ⟨m, hm, hp, hnone⟩ := h
  refine ⟨m, Nat.lt_succ_of_lt hm, hp, fun l hl hli => ?_⟩
  rcases Nat.lt_succ_iff_lt_or_eq.mp hli with hlt | rfl
  · exact hnone l hl hlt
  · exact hq

/-! ### Schedules -/

/-- The state after the actions of a schedule. -/
def exec (act : σ → α → Option σ) (s : σ) : List α → Option σ
  | [] => some s
  | a :: as => (act s a).bind fun s' => exec act s' as

/-- The run of a schedule. -/
def play (act : σ → α → Option σ) (s : σ) (as : List α) (i : Nat) : σ :=
  (exec act s (as.take i)).getD s

theorem exec_snoc (as : List α) (a : α) : ∀ s : σ,
    exec act s (as ++ [a]) = (exec act s as).bind fun s' => act s' a := by
  induction as with
  | nil => intro s; simp [exec]
  | cons b as ih =>
    intro s
    rw [List.cons_append, exec, exec, Option.bind_assoc]
    exact congrArg _ (funext ih)

theorem exec_append (as bs : List α) : ∀ s : σ,
    exec act s (as ++ bs) = (exec act s as).bind fun s' => exec act s' bs := by
  induction as with
  | nil => intro s; rfl
  | cons a as ih =>
    intro s
    rw [List.cons_append, exec, exec, Option.bind_assoc]
    exact congrArg _ (funext ih)

/-- What survives every action of a schedule survives the schedule. -/
theorem exec_invariant {P : σ → Prop} {as : List α}
    (hstep : ∀ s, ∀ a ∈ as, ∀ s', P s → act s a = some s' → P s') :
    ∀ {s s' : σ}, P s → exec act s as = some s' → P s' := by
  induction as with
  | nil =>
    intro s s' hs h
    obtain rfl := Option.some.inj h
    exact hs
  | cons a as ih =>
    intro s s' hs h
    obtain ⟨s₁, h₁, h⟩ := Option.bind_eq_some_iff.mp h
    exact ih (fun s b hb => hstep s b (List.mem_cons_of_mem _ hb))
      (hstep s a List.mem_cons_self s₁ hs h₁) h

/-- The progress rule. A stretch of work at which the actions `own` lower a measure, and which the others
    leave where it is, is over once the own actions outnumber the measure; an own action ends it. The
    others may put an end to it for good by what is not so in the end. -/
theorem exec_ends_unless {P B X : σ → Prop} {f : σ → Nat} {own : α → Bool}
    (hP : ∀ s a s', P s → act s a = some s' → P s')
    (hX : ∀ s a s', P s → X s → act s a = some s' → X s')
    (hown : ∀ s a s', P s → B s → own a = true → act s a = some s' → B s' → f s' < f s)
    (hother : ∀ s a s', P s → B s → own a = false → act s a = some s' → X s' ∨ B s' ∧ f s' ≤ f s) :
    ∀ {as : List α} {s s' : σ}, P s → B s → exec act s as = some s' → ¬ X s' → f s < as.countP own →
      ∃ as₁ a as₂ s₁ s₂, as = as₁ ++ a :: as₂ ∧ exec act s as₁ = some s₁ ∧ P s₁ ∧ B s₁ ∧
        own a = true ∧ act s₁ a = some s₂ ∧ ¬ B s₂ := by
  intro as
  induction as with
  | nil => intro s s' _ _ _ _ hlt; cases hlt
  | cons a as ih =>
    intro s s' hs hb h hx hlt
    obtain ⟨s₁, ha, h⟩ := Option.bind_eq_some_iff.mp h
    have hs₁ := hP s a s₁ hs ha
    have hgo : B s₁ → f s₁ < as.countP own → ∃ as₁ b as₂ s₂ s₃, a :: as = as₁ ++ b :: as₂ ∧
        exec act s as₁ = some s₂ ∧ P s₂ ∧ B s₂ ∧ own b = true ∧ act s₂ b = some s₃ ∧ ¬ B s₃ := by
      intro hb₁ hlt₁
      obtain ⟨as₁, b, as₂, s₂, s₃, rfl, hexec, hrest⟩ := ih hs₁ hb₁ h hx hlt₁
      exact ⟨a :: as₁, b, as₂, s₂, s₃, rfl, by rw [exec, ha]; exact hexec, hrest⟩
    cases ho : own a with
    | true =>
      rw [List.countP_cons_of_pos ho] at hlt
      rcases Classical.em (B s₁) with hb₁ | hb₁
      · have hdown := hown s a s₁ hs hb ho ha hb₁
        exact hgo hb₁ (by omega)
      · exact ⟨[], a, as, s, s₁, rfl, rfl, hs, hb, ho, ha, hb₁⟩
    | false =>
      rw [List.countP_cons_of_neg (by simp [ho])] at hlt
      rcases hother s a s₁ hs hb ho ha with hx₁ | ⟨hb₁, hle⟩
      · have hboth : P s' ∧ X s' := exec_invariant (P := fun s => P s ∧ X s)
          (fun s b _ s' hs hb => ⟨hP s b s' hs.1 hb, hX s b s' hs.1 hs.2 hb⟩) ⟨hs₁, hx₁⟩ h
        exact absurd hboth.2 hx
      · exact hgo hb₁ (by omega)

theorem exec_ends {P B : σ → Prop} {f : σ → Nat} {own : α → Bool}
    (hP : ∀ s a s', P s → act s a = some s' → P s')
    (hown : ∀ s a s', P s → B s → own a = true → act s a = some s' → B s' → f s' < f s)
    (hother : ∀ s a s', P s → B s → own a = false → act s a = some s' → B s' ∧ f s' ≤ f s)
    {as : List α} {s s' : σ} (hs : P s) (hb : B s) (h : exec act s as = some s')
    (hlt : f s < as.countP own) : ∃ as₁ a as₂ s₁ s₂, as = as₁ ++ a :: as₂ ∧
      exec act s as₁ = some s₁ ∧ P s₁ ∧ B s₁ ∧ own a = true ∧ act s₁ a = some s₂ ∧ ¬ B s₂ :=
  exec_ends_unless (X := fun _ => False) hP (fun _ _ _ _ hx _ => hx) hown
    (fun s a s' hs hb ho ha => .inr (hother s a s' hs hb ho ha)) hs hb h (fun hx => hx) hlt

/-- The same where the own actions are all paid for in advance. -/
theorem exec_paid {P : σ → Prop} {f : σ → Nat} {own : α → Bool}
    (hstep : ∀ s a s', P s → act s a = some s' → P s' ∧ f s' + (if own a then 1 else 0) ≤ f s) :
    ∀ {as : List α} {s s' : σ}, P s → exec act s as = some s' →
      P s' ∧ as.countP own + f s' ≤ f s := by
  intro as
  induction as with
  | nil =>
    intro s s' hs h
    obtain rfl := Option.some.inj h
    exact ⟨hs, by simp⟩
  | cons a as ih =>
    intro s s' hs h
    obtain ⟨s₁, ha, h⟩ := Option.bind_eq_some_iff.mp h
    obtain ⟨hs₁, hpaid⟩ := hstep s a s₁ hs ha
    obtain ⟨hs', hrest⟩ := ih hs₁ h
    refine ⟨hs', ?_⟩
    rw [List.countP_cons]
    omega

theorem exec_take {s : σ} {as : List α} (h : (exec act s as).isSome) (i : Nat) :
    exec act s (as.take i) = some (play act s as i) := by
  have hsome : (exec act s (as.take i)).isSome := by
    induction as generalizing s i with
    | nil => simp [exec]
    | cons a as ih =>
      cases i with
      | zero => simp [exec]
      | succ i =>
        rw [exec] at h
        rw [List.take_succ_cons, exec]
        cases ha : act s a with
        | none => rw [ha] at h; cases h
        | some s' => rw [ha] at h; exact ih h i
  obtain ⟨s', hs'⟩ := Option.isSome_iff_exists.mp hsome
  rw [play, hs', Option.getD_some]

theorem act_play {s : σ} {as : List α} (h : (exec act s as).isSome) {i : Nat}
    (hi : i < as.length) : act (play act s as i) as[i] = some (play act s as (i + 1)) := by
  have hnext := exec_take h (i + 1)
  rwa [List.take_succ_eq_append_getElem hi, exec_snoc, exec_take h i, Option.bind_some] at hnext

/-- A schedule whose every action is enabled is a run. -/
theorem run_play {s : σ} {as : List α} (h : (exec act s as).isSome) :
    Run act s (play act s as) as.length :=
  ⟨rfl, fun i hi => ⟨as[i], act_play h hi⟩⟩

end Trace
