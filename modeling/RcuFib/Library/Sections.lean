import RcuFib.Library.Monitor
import Mathlib.Data.List.Perm.Subperm

/-! What happens inside the lock of a monitor.

    Two things a caller wants to know besides the results. What the calls give away is given away once,
    and nobody inside still has to do with it (`Keeping`). And a section is as long as its routine, so
    that a thread that waits gets the lock as soon as those before it are through (`drain`). -/

namespace Monitor
open Routine Trace

variable {T κ σ ι ε ρ α β : Type*} {O : Calls κ σ ι ε ρ} {K : Contract O α}

/-- What each call keeps of the things it may hand over, and what its result still refers to. -/
structure Keeping (K : Contract O α) (hands : σ → ε → β → Bool) where
  Kept : κ → σ → ι → β → Prop
  Rest : σ → β → Prop
  Refers : κ → ρ → β → Prop
  start : ∀ {c a s}, K.Rep s a → ∀ x, Kept c s (O.start c) x ↔ Rest s x
  conserves : ∀ {c a s i}, K.At c a s i → (O.step c s i).Conserves hands (Kept c) Rest (Kept c s i)
  shared : ∀ {c a s i}, O.shares c = true → K.At c a s i → ∀ x, Kept c s i x ↔ Rest s x
  refers : ∀ {c a s i s' r}, K.At c a s i → O.step c s i = .done s' r → ∀ x, Refers c r x → Rest s' x

namespace System

variable [DecidableEq T] {hands : σ → ε → β → Bool} {k : Keeping K hands} {a₀ : α}
  {s s' : System T κ σ ι ε ρ} {a : Action T κ} {as : List (Action T κ)} {τ τ' : T} {c c' : κ} {i : ι}

/-! ### What has been given away -/

/-- Everything is kept or was given away once, and no result refers to what was given away. -/
structure Books (k : Keeping K hands) (s : System T κ σ ι ε ρ) : Prop where
  rest : ¬ s.Writing O → ∀ x, Accounted (k.Rest s.object x) (handed hands s.effects x)
  inside : ∀ τ c i, s.client τ = .inside c i →
    ∀ x, Accounted (k.Kept c s.object i x) (handed hands s.effects x)
  leaving : ∀ τ c r, s.client τ = .leaving c r → ∀ x, k.Refers c r x → k.Rest s.object x

theorem leaving_setClient {x : Client κ ι ρ} {P : κ → ρ → Prop} (hx : ∀ c r, x = .leaving c r → P c r)
    (hother : ∀ τ', τ' ≠ τ → ∀ c r, s.client τ' = .leaving c r → P c r) (τ' : T) (c : κ) (r : ρ)
    (hc : (s.setClient τ x).client τ' = .leaving c r) : P c r := by
  rcases eq_or_ne τ' τ with rfl | hne
  · rw [setClient_self] at hc
    exact hx c r hc
  · rw [setClient_ne x hne] at hc
    exact hother τ' hne c r hc

omit [DecidableEq T] in
theorem not_writing_of_owner (h : s.Held O) (ho : s.owner = none) : ¬ s.Writing O := by
  rintro ⟨τ, c, i, hc, hs⟩
  have := (h.owner τ).mpr ⟨c, by rw [hc]; rfl, hs⟩
  rw [ho] at this
  cases this

theorem Books.step (h : s.Books k) (hi : s.Inv K a₀) (ha : act O s a = some s') : s'.Books k := by
  have hwriting : ∀ {τ x}, (∀ c i, s.client τ = .inside c i → O.shares c = true) →
      s.Writing O → (s.setClient τ x).Writing O := by
    rintro τ x hτ ⟨σ, c, i, hc, hs⟩
    rcases eq_or_ne σ τ with rfl | hne
    · rw [hτ c i hc] at hs
      cases hs
    · exact ⟨σ, c, i, by rw [setClient_ne x hne]; exact hc, hs⟩
  cases move_of_act ha with
  | @call τ c hc =>
    refine ⟨fun hw => h.rest (mt (hwriting ?_) hw), ?_, ?_⟩
    · intro c' i' hin
      rcases hc with hc | ⟨c'', r, hc⟩
      · rw [hin] at hc
        cases hc
      · rw [hin] at hc
        cases hc
    · exact inside_setClient (by rintro _ _ ⟨⟩) fun τ' _ => h.inside τ'
    · exact leaving_setClient (by rintro _ _ ⟨⟩) fun τ' _ => h.leaving τ'
  | @share τ c hc ho hs =>
    have hnot := not_writing_of_owner hi.held ho
    refine ⟨fun _ => h.rest hnot, inside_setClient ?_ fun τ' _ => h.inside τ',
      leaving_setClient (by rintro _ _ ⟨⟩) fun τ' _ => h.leaving τ'⟩
    rintro c' i' ⟨⟩ x
    exact (h.rest hnot x).congr (k.start (hi.rep hnot) x)
  | @own τ c hc ho hs hempty =>
    have hnot := not_writing_of_owner hi.held ho
    refine ⟨fun _ => h.rest hnot, inside_setClient ?_ fun τ' _ => h.inside τ',
      leaving_setClient (by rintro _ _ ⟨⟩) fun τ' _ => h.leaving τ'⟩
    rintro c' i' ⟨⟩ x
    exact (h.rest hnot x).congr (k.start (hi.rep hnot) x)
  | @next τ c i o i' hc ho =>
    have hat := hi.inside τ c i hc
    have hcons := k.conserves hat
    rw [ho] at hcons
    have hτ : ∀ x, Accounted (k.Kept c o i' x) (handed hands s.effects x) :=
      fun x => (h.inside τ c i hc x).congr (hcons x)
    cases hs : O.shares c with
    | true =>
      obtain ⟨-, -, -, hsame⟩ := K.shared hs hat
      rw [ho] at hsame
      obtain rfl := hsame
      refine ⟨fun _ => h.rest (hi.rep_of_shares hc hs), inside_setClient ?_ fun τ' _ => h.inside τ',
        leaving_setClient (by rintro _ _ ⟨⟩) fun τ' _ => h.leaving τ'⟩
      rintro c' j ⟨⟩
      exact hτ
    | false =>
      refine ⟨fun hw => absurd ⟨τ, c, i', setClient_self _, hs⟩ hw, inside_setClient ?_ ?_,
        leaving_setClient (by rintro _ _ ⟨⟩) ?_⟩
      · rintro c' j ⟨⟩
        exact hτ
      · intro τ' hne c' j hc'
        exact absurd (hi.held.only hc hs hc') hne
      · intro τ' hne c' r hc'
        exact absurd (hi.held.alone (by rw [hc]; rfl) hs (by rw [hc']; rfl)) hne
  | @effect τ c i o e i' hc ho =>
    have hat := hi.inside τ c i hc
    have hcons := k.conserves hat
    rw [ho] at hcons
    cases hs : O.shares c with
    | true =>
      obtain ⟨-, -, hnone, -⟩ := K.shared hs hat
      rw [ho] at hnone
      cases hnone
    | false =>
      refine ⟨fun hw => absurd ⟨τ, c, i', setClient_self _, hs⟩ hw, inside_setClient ?_ ?_,
        leaving_setClient (by rintro _ _ ⟨⟩) ?_⟩
      · rintro c' j ⟨⟩ x
        have hgive := (h.inside τ c i hc x).hand (hcons x).1 (hcons x).2
        rw [handed_append]
        simpa [handed, List.countP_cons] using hgive
      · intro τ' hne c' j hc'
        exact absurd (hi.held.only hc hs hc') hne
      · intro τ' hne c' r hc'
        exact absurd (hi.held.alone (by rw [hc]; rfl) hs (by rw [hc']; rfl)) hne
  | @done τ c i o r hc ho =>
    have hat := hi.inside τ c i hc
    have hcons := k.conserves hat
    have hrefers := k.refers hat ho
    rw [ho] at hcons
    have hrest : ∀ x, Accounted (k.Rest o x) (handed hands s.effects x) :=
      fun x => (h.inside τ c i hc x).congr (hcons x)
    refine ⟨fun _ => hrest, inside_setClient (by rintro _ _ ⟨⟩) ?_, leaving_setClient ?_ ?_⟩
    · intro τ' hne c' j hc'
      cases hs : O.shares c with
      | true =>
        obtain ⟨-, -, -, hsame⟩ := K.shared hs hat
        rw [ho] at hsame
        obtain rfl := hsame
        exact h.inside τ' c' j hc'
      | false => exact absurd (hi.held.only hc hs hc') hne
    · rintro c' r' ⟨⟩
      exact hrefers
    · intro τ' hne c' r' hc'
      cases hs : O.shares c with
      | true =>
        obtain ⟨-, -, -, hsame⟩ := K.shared hs hat
        rw [ho] at hsame
        obtain rfl := hsame
        exact h.leaving τ' c' r' hc'
      | false => exact absurd (hi.held.alone (by rw [hc]; rfl) hs (by rw [hc']; rfl)) hne
  | @unlock τ c r hc =>
    refine ⟨fun hw => h.rest (mt (hwriting ?_) hw), ?_, ?_⟩
    · intro c' i' hin
      rw [hin] at hc
      cases hc
    · exact inside_setClient (by rintro _ _ ⟨⟩) fun τ' _ => h.inside τ'
    · exact leaving_setClient (by rintro _ _ ⟨⟩) fun τ' _ => h.leaving τ'

omit [DecidableEq T] in
theorem books_init {o : σ} (h : ∀ x, k.Rest o x) : (init o : System T κ σ ι ε ρ).Books k := by
  refine ⟨fun _ x => .inl ⟨h x, rfl⟩, ?_, ?_⟩
  · rintro τ c i ⟨⟩
  · rintro τ c r ⟨⟩

section run
variable {o : σ} {r : Nat → System T κ σ ι ε ρ} {n : Nat}

theorem books_run (h : Run (act O) (init o) r n) (h₀ : K.Rep o a₀) (hrest : ∀ x, k.Rest o x) :
    ∀ i ≤ n, (r i).Books k := by
  have hrun := h.invariant (P := fun s => s.Inv K a₀ ∧ s.Books k) ⟨inv_init h₀, books_init hrest⟩
    fun s a s' hs ha => ⟨hs.1.step ha, hs.2.step hs.1 ha⟩
  exact fun i hi => (hrun i hi).2

/-- Nothing is given away twice, what a thread inside keeps has not been given away, nor has anything
    that a result refers to while the lock is held. -/
theorem given_once (h : Run (act O) (init o) r n) (h₀ : K.Rep o a₀) (hrest : ∀ x, k.Rest o x) {i : Nat}
    (hi : i ≤ n) : (∀ x, handed hands (r i).effects x ≤ 1) ∧
    (∀ τ c j, (r i).client τ = .inside c j → ∀ x, k.Kept c (r i).object j x →
      handed hands (r i).effects x = 0) ∧
    ∀ τ c y, (r i).client τ = .leaving c y → ∀ x, k.Refers c y x →
      handed hands (r i).effects x = 0 := by
  have hinv := inv_run h h₀ i hi
  have hbooks := books_run (k := k) h h₀ hrest i hi
  refine ⟨fun x => ?_, fun τ c j hc x hk => (hbooks.inside τ c j hc x).not_handed hk, ?_⟩
  · by_cases hw : (r i).Writing O
    · obtain ⟨τ, c, j, hc, -⟩ := hw
      exact Accounted.le_one (hbooks.inside τ c j hc x)
    · exact Accounted.le_one (hbooks.rest hw x)
  · intro τ c y hc x hx
    -- whoever else is inside shares the lock with this thread
    have hnot : ¬ (r i).Writing O := by
      rintro ⟨τ', c', j, hc', hs⟩
      obtain rfl := hinv.held.alone (by rw [hc']; rfl) hs (by rw [hc]; rfl)
      rw [hc] at hc'
      cases hc'
    exact Accounted.not_handed (hbooks.rest hnot x) (hbooks.leaving τ c y hc x hx)

end run

/-! ### How long a section is -/

/-- Bounds the steps each call has left. -/
structure Measure (K : Contract O α) where
  steps : κ → σ → ι → Nat
  step : ∀ {c a s i}, K.At c a s i →
    (O.step c s i).Sat (fun s' i' => steps c s' i' < steps c s i) (fun _ _ => True)

variable (m : Measure K)

/-- The actions a thread has left until it lets the lock go. -/
def left (s : System T κ σ ι ε ρ) (τ : T) : Nat :=
  match s.client τ with
  | .inside c i => m.steps c s.object i + 2
  | .leaving _ _ => 1
  | _ => 0

variable {m}

/-- A thread that holds the lock can go on. -/
theorem holder_goes_on (hc : (s.client τ).held = some c) :
    ∃ a, a.thread = τ ∧ (act O s a).isSome := by
  cases hτ : s.client τ with
  | inside c' i =>
    refine ⟨.step τ, rfl, ?_⟩
    simp only [act, hτ]
    cases O.step c' s.object i <;> rfl
  | leaving c' r =>
    refine ⟨.unlock τ, rfl, ?_⟩
    simp only [act, hτ]
    rfl
  | idle | waiting | returned => rw [hτ] at hc; cases hc

/-- Every action of a thread that holds the lock brings it nearer to the end of its section. -/
theorem left_own (h : s.Inv K a₀) (ha : act O s a = some s') (hτ : a.thread = τ)
    (hc : (s.client τ).held = some c) : s'.left m τ < s.left m τ := by
  subst hτ
  cases move_of_act ha with
  | @call τ c' hcl =>
    rcases hcl with hcl | ⟨c'', r, hcl⟩
    · rw [Action.thread, hcl] at hc
      cases hc
    · rw [Action.thread, hcl] at hc
      cases hc
  | @share τ c' hcl _ _ => rw [Action.thread, hcl] at hc; cases hc
  | @own τ c' hcl _ _ _ => rw [Action.thread, hcl] at hc; cases hc
  | @next τ c' i o i' hcl ho =>
    have hlt := m.step (h.inside τ c' i hcl)
    rw [ho] at hlt
    simp only [left, Action.thread, setClient_self, hcl]
    exact Nat.add_lt_add_right hlt 2
  | @effect τ c' i o e i' hcl ho =>
    have hlt := m.step (h.inside τ c' i hcl)
    rw [ho] at hlt
    simp only [left, Action.thread, setClient_self, hcl]
    exact Nat.add_lt_add_right hlt 2
  | @done τ c' i o r hcl ho =>
    simp only [left, Action.thread, setClient_self, hcl]
    exact Nat.lt_add_left _ (Nat.lt_succ_self 1)
  | @unlock τ c' r hcl =>
    simp only [left, Action.thread, setClient_self, hcl]
    exact Nat.zero_lt_one

/-- No action of another thread touches a thread that holds the lock, nor what it works on. -/
theorem left_other (h : s.Inv K a₀) (ha : act O s a = some s') (hτ : a.thread ≠ τ)
    (hc : (s.client τ).held = some c) : s'.client τ = s.client τ ∧ s'.left m τ = s.left m τ := by
  have hkeep : ∀ {s' : System T κ σ ι ε ρ}, s'.client τ = s.client τ → s'.object = s.object →
      s'.client τ = s.client τ ∧ s'.left m τ = s.left m τ := by
    intro s' hclient hobject
    exact ⟨hclient, by rw [left, left, hclient, hobject]⟩
  have hobject : ∀ {τ' c' i}, τ' ≠ τ → s.client τ' = .inside c' i →
      (O.step c' s.object i).Sat (fun o _ => o = s.object) (fun o _ => o = s.object) := by
    intro τ' c' i hne hcl
    cases hs : O.shares c' with
    | true => exact (K.shared hs (h.inside τ' c' i hcl)).2.2.2
    | false => exact absurd (h.held.alone (by rw [hcl]; rfl) hs hc).symm hne
  cases move_of_act ha with
  | @call τ' c' hcl => exact hkeep (setClient_ne _ (Ne.symm hτ)) rfl
  | @share τ' c' hcl _ _ => exact hkeep (setClient_ne _ (Ne.symm hτ)) rfl
  | @own τ' c' hcl _ _ _ => exact hkeep (setClient_ne _ (Ne.symm hτ)) rfl
  | @next τ' c' i o i' hcl ho =>
    have hsame := hobject hτ hcl
    rw [ho] at hsame
    exact hkeep (setClient_ne _ (Ne.symm hτ)) hsame
  | @effect τ' c' i o e i' hcl ho =>
    have hsame := hobject hτ hcl
    rw [ho] at hsame
    exact hkeep (setClient_ne _ (Ne.symm hτ)) hsame
  | @done τ' c' i o r hcl ho =>
    have hsame := hobject hτ hcl
    rw [ho] at hsame
    exact hkeep (setClient_ne _ (Ne.symm hτ)) hsame
  | @unlock τ' c' r hcl => exact hkeep (setClient_ne _ (Ne.symm hτ)) rfl

/-- An action of a thread that holds the lock keeps it in its section or ends the section. -/
theorem held_own (ha : act O s a = some s') (hτ : a.thread = τ) (hc : (s.client τ).held = some c) :
    (s'.client τ).held = some c ∨ ∃ x, s'.client τ = .returned c x := by
  subst hτ
  cases move_of_act ha with
  | @call τ c' hcl =>
    rcases hcl with hcl | ⟨c'', r, hcl⟩
    · rw [Action.thread, hcl] at hc
      cases hc
    · rw [Action.thread, hcl] at hc
      cases hc
  | @share τ c' hcl _ _ => rw [Action.thread, hcl] at hc; cases hc
  | @own τ c' hcl _ _ _ => rw [Action.thread, hcl] at hc; cases hc
  | @next τ c' i o i' hcl _ =>
    rw [Action.thread, hcl] at hc
    exact .inl (by rw [Action.thread, setClient_self]; exact hc)
  | @effect τ c' i o e i' hcl _ =>
    rw [Action.thread, hcl] at hc
    exact .inl (by rw [Action.thread, setClient_self]; exact hc)
  | @done τ c' i o r hcl _ =>
    rw [Action.thread, hcl] at hc
    exact .inl (by rw [Action.thread, setClient_self]; exact hc)
  | @unlock τ c' r hcl =>
    rw [Action.thread, hcl] at hc
    obtain rfl := Option.some.inj hc
    exact .inr ⟨r, setClient_self _⟩

/-- However the threads take turns, a thread that holds the lock has returned from its call once it has
    taken the steps it had left. -/
theorem section_ends (h : s.Inv K a₀) (hc : (s.client τ).held = some c)
    (hexec : exec (act O) s as = some s') (hle : s.left m τ ≤ as.countP fun a => a.thread = τ) :
    ∃ as₁ as₂ s₁ x, as = as₁ ++ as₂ ∧ exec (act O) s as₁ = some s₁ ∧
      s₁.client τ = .returned c x := by
  have hpos : ∀ {s : System T κ σ ι ε ρ}, (s.client τ).held = some c → 0 < s.left m τ := by
    intro s hc
    cases hτ : s.client τ with
    | inside => simp only [left, hτ]; omega
    | leaving => simp only [left, hτ]; omega
    | idle | waiting | returned => rw [hτ] at hc; cases hc
  have hfew : s.left m τ - 1 < as.countP fun a => a.thread = τ := by
    have := hpos hc
    omega
  obtain ⟨as₁, a, as₂, s₁, s₂, rfl, hexec₁, -, hc₁, hown, ha, hout⟩ :=
    exec_ends (P := fun s => s.Inv K a₀) (B := fun s => (s.client τ).held = some c)
      (f := fun s => s.left m τ - 1)
      (fun _ _ _ hs ha => hs.step ha)
      (fun s a s' hs hb ho ha hb' => by
        have hlt := left_own (m := m) hs ha (of_decide_eq_true ho) hb
        have := hpos hb'
        omega)
      (fun s a s' hs hb ho ha => by
        obtain ⟨hsame, hleft⟩ := left_other (m := m) hs ha (of_decide_eq_false ho) hb
        exact ⟨by rw [hsame]; exact hb, hleft ▸ Nat.le_refl _⟩) h hc hexec hfew
  obtain ⟨x, hret⟩ := (held_own ha (of_decide_eq_true hown) hc₁).resolve_left hout
  refine ⟨as₁ ++ [a], as₂, s₂, x, by simp, ?_, hret⟩
  rw [exec_snoc, hexec₁]
  exact ha

/-! ### Getting the lock -/

/-- The threads that hold the lock. -/
def holders (s : System T κ σ ι ε ρ) : List T := s.owner.toList ++ s.sharers

omit [DecidableEq T] in
theorem Held.mem_holders (h : s.Held O) : τ ∈ s.holders ↔ ∃ c, (s.client τ).held = some c := by
  rw [holders, List.mem_append, Option.mem_toList, h.owner, h.sharers]
  constructor
  · rintro (⟨c, hc, -⟩ | ⟨c, hc, -⟩) <;> exact ⟨c, hc⟩
  · rintro ⟨c, hc⟩
    cases hs : O.shares c with
    | false => exact .inl ⟨c, hc, hs⟩
    | true => exact .inr ⟨c, hc, hs⟩

omit [DecidableEq T] in
theorem Held.nodup_holders (h : s.Held O) : s.holders.Nodup := by
  cases ho : s.owner with
  | none => simpa [holders, ho] using h.nodup
  | some τ => simp [holders, ho, h.apart (by rw [ho]; simp)]

/-- A thread that holds the lock comes to the end of its section by itself. -/
theorem run_out (m : Measure K) : ∀ (n : Nat) {s : System T κ σ ι ε ρ}, s.left m τ ≤ n → s.Inv K a₀ →
    (s.client τ).held = some c → ∃ as s' x, exec (act O) s as = some s' ∧ s'.Inv K a₀ ∧
      s'.client τ = .returned c x ∧ (∀ a ∈ as, a.thread = τ) ∧
      ∀ τ', τ' ≠ τ → s'.client τ' = s.client τ' := by
  intro n
  induction n with
  | zero =>
    intro s hle _ hc
    cases hτ : s.client τ with
    | inside => simp [left, hτ] at hle
    | leaving => simp [left, hτ] at hle
    | idle | waiting | returned => rw [hτ] at hc; cases hc
  | succ n ih =>
    intro s hle h hc
    obtain ⟨a, hτ, ha⟩ := holder_goes_on (O := O) hc
    obtain ⟨s₁, ha⟩ := Option.isSome_iff_exists.mp ha
    have hlt := left_own (m := m) h ha hτ hc
    have hothers : ∀ τ', τ' ≠ τ → s₁.client τ' = s.client τ' := by
      intro τ' hne
      subst hτ
      cases move_of_act ha <;> exact setClient_ne _ hne
    rcases held_own ha hτ hc with hc₁ | ⟨x, hret⟩
    · obtain ⟨as, s₂, x, hexec, h₂, hret, hown, hsame⟩ := ih (by omega) (h.step ha) hc₁
      refine ⟨a :: as, s₂, x, by rw [exec, ha]; exact hexec, h₂, hret,
        List.forall_mem_cons.mpr ⟨hτ, hown⟩, fun τ' hne => (hsame τ' hne).trans (hothers τ' hne)⟩
    · exact ⟨[a], s₁, x, by simp [exec, ha], h.step ha, hret, by simpa using hτ, hothers⟩

/-- No call is stuck: those that hold the lock let it go by themselves, and then a thread that waits can
    take it and come to its end. -/
theorem drain (m : Measure K) : ∀ (n : Nat) {s : System T κ σ ι ε ρ}, s.holders.length ≤ n →
    s.Inv K a₀ → s.client τ = .waiting c → ∃ as s' x, exec (act O) s as = some s' ∧
      s'.client τ = .returned c x ∧ ∀ a ∈ as, a.thread = τ ∨ a.thread ∈ s.holders := by
  intro n
  induction n with
  | zero =>
    intro s hle h hc
    have hnil : s.holders = [] := List.length_eq_zero_iff.mp (Nat.le_zero.mp hle)
    obtain ⟨howner, hsharers⟩ := List.append_eq_nil_iff.mp hnil
    have howner : s.owner = none := by simpa using howner
    have hlock : ∃ s₁, act O s (.lock τ) = some s₁ ∧ (s₁.client τ).held = some c := by
      simp only [act, hc, howner, hsharers, Option.isSome_none, Bool.false_eq_true, if_false,
        List.isEmpty_nil, if_true]
      split
      · exact ⟨_, rfl, by rw [setClient_self]; rfl⟩
      · exact ⟨_, rfl, by rw [setClient_self]; rfl⟩
    obtain ⟨s₁, ha, hc₁⟩ := hlock
    obtain ⟨as, s₂, x, hexec, -, hret, hown, -⟩ := run_out m _ (Nat.le_refl _) (h.step ha) hc₁
    refine ⟨.lock τ :: as, s₂, x, by rw [exec, ha]; exact hexec, hret, ?_⟩
    exact List.forall_mem_cons.mpr ⟨.inl rfl, fun a ha => .inl (hown a ha)⟩
  | succ n ih =>
    intro s hle h hc
    cases hh : s.holders with
    | nil => exact hh ▸ ih (by rw [hh]; exact Nat.zero_le n) h hc
    | cons σ rest =>
      have hmem : σ ∈ s.holders := by rw [hh]; exact List.mem_cons_self ..
      obtain ⟨c', hc'⟩ := h.held.mem_holders.mp hmem
      have hne : τ ≠ σ := by
        rintro rfl
        rw [hc] at hc'
        cases hc'
      obtain ⟨as, s₁, x, hexec, h₁, hret, hown, hsame⟩ := run_out m _ (Nat.le_refl _) h hc'
      have hsub : ∀ τ', τ' ∈ s₁.holders → τ' ∈ rest := by
        intro τ' hτ'
        obtain ⟨c'', hc''⟩ := h₁.held.mem_holders.mp hτ'
        have hne' : τ' ≠ σ := by
          rintro rfl
          rw [hret] at hc''
          cases hc''
        rw [hsame τ' hne'] at hc''
        have hmem' := h.held.mem_holders.mpr ⟨c'', hc''⟩
        rw [hh] at hmem'
        exact (List.mem_cons.mp hmem').resolve_left hne'
      have hlen : s₁.holders.length ≤ rest.length :=
        (h₁.held.nodup_holders.subperm hsub).length_le
      have hle' : rest.length ≤ n := by
        rw [hh] at hle
        exact Nat.le_of_succ_le_succ hle
      obtain ⟨as', s₂, x', hexec', hret', hown'⟩ :=
        ih (Nat.le_trans hlen hle') h₁ (by rw [hsame τ hne]; exact hc)
      refine ⟨as ++ as', s₂, x', ?_, hret', fun a ha => ?_⟩
      · rw [exec_append, hexec]
        exact hexec'
      · rcases List.mem_append.mp ha with ha | ha
        · rw [hown a ha]
          exact .inr (List.mem_cons_self ..)
        · rcases hown' a ha with heq | hin
          · exact .inl heq
          · exact .inr (List.mem_cons_of_mem _ (hsub _ hin))

end System
end Monitor
