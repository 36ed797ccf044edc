import RcuFib.Library.Custody
import RcuFib.Library.Trace
import Mathlib.Data.List.Nodup
import Mathlib.Tactic.ByContra

/-! Objects behind one lock.

    Any number of threads call an object. Every call is a routine that runs inside the lock, one step at
    a time, and its result is handed on before the lock is let go; a call that only reads may share the
    lock with others of its kind. The log is the order in which the calls got their results. By the
    contract of the calls, each taken alone, the log is a sequential history of the object, and every
    call enters it once, between its start and its return (`linearization_point`). -/

namespace Monitor
open Routine Trace

variable {T κ σ ι ε ρ : Type*}

/-- The calls of an object: the routine of each, and whether it shares the lock. -/
structure Calls (κ σ ι ε ρ : Type*) where
  start : κ → ι
  step : κ → σ → ι → Outcome σ ι ε ρ
  shares : κ → Bool

inductive Client (κ ι ρ : Type*) where
  | idle
  | waiting (c : κ)
  | inside (c : κ) (i : ι)
  /-- The call has its result, and the lock is still held. -/
  | leaving (c : κ) (r : ρ)
  | returned (c : κ) (r : ρ)

/-- The call a thread holds the lock for. -/
def Client.held : Client κ ι ρ → Option κ
  | inside c _ | leaving c _ => some c
  | _ => none

def Client.isReturned : Client κ ι ρ → Bool
  | returned _ _ => true
  | _ => false

structure System (T κ σ ι ε ρ : Type*) where
  object : σ
  /-- Who holds the lock alone. -/
  owner : Option T
  /-- Who shares it. -/
  sharers : List T
  client : T → Client κ ι ρ
  /-- The effects so far, each with the state it happened in. Ghost. -/
  effects : List (σ × ε)
  /-- The calls in the order in which they got their results. Ghost. -/
  log : List (T × κ × ρ)

inductive Action (T κ : Type*) where
  | call (τ : T) (c : κ)
  | lock (τ : T)
  | step (τ : T)
  | unlock (τ : T)

def Action.thread : Action T κ → T
  | call τ _ | lock τ | step τ | unlock τ => τ

namespace System

def init (o : σ) : System T κ σ ι ε ρ := ⟨o, none, [], fun _ => .idle, [], []⟩

variable [DecidableEq T]

def setClient (s : System T κ σ ι ε ρ) (τ : T) (x : Client κ ι ρ) : System T κ σ ι ε ρ :=
  { s with client := Function.update s.client τ x }

def act (O : Calls κ σ ι ε ρ) (s : System T κ σ ι ε ρ) :
    Action T κ → Option (System T κ σ ι ε ρ)
  | .call τ c =>
    match s.client τ with
    | .idle | .returned _ _ => some (s.setClient τ (.waiting c))
    | _ => none
  | .lock τ =>
    match s.client τ with
    | .waiting c =>
      if s.owner.isSome then none
      else if O.shares c then
        some { s.setClient τ (.inside c (O.start c)) with sharers := τ :: s.sharers }
      else if s.sharers.isEmpty then
        some { s.setClient τ (.inside c (O.start c)) with owner := some τ }
      else none
    | _ => none
  | .step τ =>
    match s.client τ with
    | .inside c i =>
      match O.step c s.object i with
      | .next o i' => some { s.setClient τ (.inside c i') with object := o }
      | .call o e i' =>
        some { s.setClient τ (.inside c i') with object := o, effects := s.effects ++ [(o, e)] }
      | .done o r =>
        some { s.setClient τ (.leaving c r) with object := o, log := s.log ++ [(τ, c, r)] }
    | _ => none
  | .unlock τ =>
    match s.client τ with
    | .leaving c r =>
      some { s.setClient τ (.returned c r) with
        owner := if O.shares c then s.owner else none
        sharers := if O.shares c then s.sharers.erase τ else s.sharers }
    | _ => none

/-- What an action does. -/
inductive Move (O : Calls κ σ ι ε ρ) (s : System T κ σ ι ε ρ) :
    Action T κ → System T κ σ ι ε ρ → Prop
  | call {τ c} : (s.client τ = .idle ∨ ∃ c' r, s.client τ = .returned c' r) →
      Move O s (.call τ c) (s.setClient τ (.waiting c))
  | share {τ c} : s.client τ = .waiting c → s.owner = none → O.shares c = true →
      Move O s (.lock τ) { s.setClient τ (.inside c (O.start c)) with sharers := τ :: s.sharers }
  | own {τ c} : s.client τ = .waiting c → s.owner = none → O.shares c = false → s.sharers = [] →
      Move O s (.lock τ) { s.setClient τ (.inside c (O.start c)) with owner := some τ }
  | next {τ c i o i'} : s.client τ = .inside c i → O.step c s.object i = .next o i' →
      Move O s (.step τ) { s.setClient τ (.inside c i') with object := o }
  | effect {τ c i o e i'} : s.client τ = .inside c i → O.step c s.object i = .call o e i' →
      Move O s (.step τ)
        { s.setClient τ (.inside c i') with object := o, effects := s.effects ++ [(o, e)] }
  | done {τ c i o r} : s.client τ = .inside c i → O.step c s.object i = .done o r →
      Move O s (.step τ)
        { s.setClient τ (.leaving c r) with object := o, log := s.log ++ [(τ, c, r)] }
  | unlock {τ c r} : s.client τ = .leaving c r →
      Move O s (.unlock τ) { s.setClient τ (.returned c r) with
        owner := if O.shares c then s.owner else none
        sharers := if O.shares c then s.sharers.erase τ else s.sharers }

variable {O : Calls κ σ ι ε ρ} {s s' : System T κ σ ι ε ρ} {a : Action T κ} {τ τ' : T} {c c' : κ}

theorem move_of_act (h : act O s a = some s') : s.Move O a s' := by
  cases a with
  | call τ c =>
    simp only [act] at h
    cases hc : s.client τ with
    | idle =>
      rw [hc] at h
      obtain rfl := Option.some.inj h
      exact .call (.inl hc)
    | returned c' r =>
      rw [hc] at h
      obtain rfl := Option.some.inj h
      exact .call (.inr ⟨c', r, hc⟩)
    | waiting | inside | leaving => rw [hc] at h; cases h
  | lock τ =>
    simp only [act] at h
    cases hc : s.client τ with
    | waiting c =>
      simp only [hc] at h
      split at h
      · cases h
      · next ho =>
        have ho : s.owner = none := by simpa using ho
        split at h
        · next hs =>
          obtain rfl := Option.some.inj h
          exact .share hc ho hs
        · next hs =>
          split at h
          · next hempty =>
            obtain rfl := Option.some.inj h
            exact .own hc ho (by simpa using hs) (by simpa using hempty)
          · cases h
    | idle | inside | leaving | returned => rw [hc] at h; cases h
  | step τ =>
    simp only [act] at h
    cases hc : s.client τ with
    | inside c i =>
      simp only [hc] at h
      cases ho : O.step c s.object i with
      | next o i' =>
        rw [ho] at h
        obtain rfl := Option.some.inj h
        exact .next hc ho
      | call o e i' =>
        rw [ho] at h
        obtain rfl := Option.some.inj h
        exact .effect hc ho
      | done o r =>
        rw [ho] at h
        obtain rfl := Option.some.inj h
        exact .done hc ho
    | idle | waiting | leaving | returned => rw [hc] at h; cases h
  | unlock τ =>
    simp only [act] at h
    cases hc : s.client τ with
    | leaving c r =>
      simp only [hc] at h
      obtain rfl := Option.some.inj h
      exact .unlock hc
    | idle | waiting | inside | returned => rw [hc] at h; cases h

omit [DecidableEq T] in
@[simp] theorem client_init (o : σ) (τ : T) :
    (init o : System T κ σ ι ε ρ).client τ = .idle := rfl

@[simp] theorem setClient_self (x : Client κ ι ρ) : (s.setClient τ x).client τ = x :=
  Function.update_self ..

theorem setClient_ne (x : Client κ ι ρ) (h : τ' ≠ τ) :
    (s.setClient τ x).client τ' = s.client τ' := Function.update_of_ne h ..

/-! ### Who is inside -/

/-- The lock knows who is inside: one thread, or threads that share it. -/
structure Held (O : Calls κ σ ι ε ρ) (s : System T κ σ ι ε ρ) : Prop where
  owner : ∀ τ, s.owner = some τ ↔ ∃ c, (s.client τ).held = some c ∧ O.shares c = false
  sharers : ∀ τ, τ ∈ s.sharers ↔ ∃ c, (s.client τ).held = some c ∧ O.shares c = true
  apart : s.owner ≠ none → s.sharers = []
  nodup : s.sharers.Nodup

omit [DecidableEq T] in
theorem held_init (o : σ) : (init o : System T κ σ ι ε ρ).Held O :=
  ⟨fun _ => by simp [init, Client.held], fun _ => by simp [init, Client.held], fun h => absurd rfl h, .nil⟩

omit [DecidableEq T] in
/-- A thread that holds the lock alone is alone. -/
theorem Held.alone (h : s.Held O) (hc : (s.client τ).held = some c) (hs : O.shares c = false)
    (hc' : (s.client τ').held = some c') : τ' = τ := by
  have hown := (h.owner τ).mpr ⟨c, hc, hs⟩
  cases hs' : O.shares c' with
  | false =>
    have hown' := (h.owner τ').mpr ⟨c', hc', hs'⟩
    rw [hown] at hown'
    exact (Option.some.inj hown').symm
  | true =>
    have hmem := (h.sharers τ').mpr ⟨c', hc', hs'⟩
    rw [h.apart (by rw [hown]; simp)] at hmem
    cases hmem

omit [DecidableEq T] in
/-- A change that leaves everyone's hold on the lock as it is. -/
theorem Held.same (h : s.Held O) (howner : s'.owner = s.owner) (hsharers : s'.sharers = s.sharers)
    (hheld : ∀ τ, (s'.client τ).held = (s.client τ).held) : s'.Held O := by
  refine ⟨fun τ => ?_, fun τ => ?_, ?_, hsharers ▸ h.nodup⟩
  · rw [howner, hheld]; exact h.owner τ
  · rw [hsharers, hheld]; exact h.sharers τ
  · rw [howner, hsharers]; exact h.apart

theorem held_setClient (x : Client κ ι ρ) (hx : x.held = (s.client τ).held) (τ' : T) :
    ((s.setClient τ x).client τ').held = (s.client τ').held := by
  rcases eq_or_ne τ' τ with rfl | hne
  · rw [setClient_self, hx]
  · rw [setClient_ne x hne]

theorem Held.step (h : s.Held O) (ha : act O s a = some s') : s'.Held O := by
  cases move_of_act ha with
  | @call τ c hc =>
    refine h.same rfl rfl (held_setClient _ ?_)
    rcases hc with hc | ⟨c', r, hc⟩ <;> rw [hc] <;> rfl
  | @next τ c i o i' hc _ => exact h.same rfl rfl (held_setClient _ (by rw [hc]; rfl))
  | @effect τ c i o e i' hc _ => exact h.same rfl rfl (held_setClient _ (by rw [hc]; rfl))
  | @done τ c i o r hc _ => exact h.same rfl rfl (held_setClient _ (by rw [hc]; rfl))
  | @share τ c hc ho hs =>
    refine ⟨fun σ => ?_, fun σ => ?_, fun hne => absurd ho hne, ?_⟩
    · rcases eq_or_ne σ τ with rfl | hne
      · simp [setClient, Client.held, ho, hs]
      · simpa [setClient, hne] using h.owner σ
    · rcases eq_or_ne σ τ with rfl | hne
      · simp [setClient, Client.held, hs]
      · simpa [setClient, hne] using h.sharers σ
    · refine List.nodup_cons.mpr ⟨fun hmem => ?_, h.nodup⟩
      obtain ⟨c', hc', -⟩ := (h.sharers τ).mp hmem
      rw [hc] at hc'
      cases hc'
  | @own τ c hc ho hs hempty =>
    refine ⟨fun σ => ?_, fun σ => ?_, fun _ => hempty, h.nodup⟩
    · rcases eq_or_ne σ τ with rfl | hne
      · simp [setClient, Client.held, hs]
      · have := h.owner σ
        rw [ho] at this
        simpa [setClient, hne, hne.symm] using this
    · rcases eq_or_ne σ τ with rfl | hne
      · simp [setClient, Client.held, hs, hempty]
      · simpa [setClient, hne] using h.sharers σ
  | @unlock τ c r hc =>
    have hheld : (s.client τ).held = some c := by rw [hc]; rfl
    cases hs : O.shares c with
    | true =>
      have hmem := (h.sharers τ).mpr ⟨c, hheld, hs⟩
      have hown : s.owner = none := by
        by_contra hne
        rw [h.apart hne] at hmem
        cases hmem
      refine ⟨fun σ => ?_, fun σ => ?_, fun hne => absurd hown hne, h.nodup.erase τ⟩
      · rcases eq_or_ne σ τ with rfl | hne
        · simp [setClient, Client.held, hown]
        · simpa [setClient, hne] using h.owner σ
      · rcases eq_or_ne σ τ with rfl | hne
        · simp [setClient, Client.held, h.nodup.not_mem_erase]
        · simpa [setClient, hne, List.mem_erase_of_ne hne] using h.sharers σ
    | false =>
      refine ⟨fun σ => ?_, fun σ => ?_, fun hne => absurd rfl hne, h.nodup⟩
      · rcases eq_or_ne σ τ with rfl | hne
        · simp [setClient, Client.held]
        · simp only [Bool.false_eq_true, if_false, setClient, Function.update_of_ne hne, reduceCtorEq,
            false_iff]
          rintro ⟨c', hc', -⟩
          exact hne (h.alone hheld hs hc')
      · have hnil := h.apart (by rw [(h.owner τ).mpr ⟨c, hheld, hs⟩]; simp)
        simp only [Bool.false_eq_true, if_false, hnil, List.not_mem_nil, false_iff]
        rintro ⟨c', hc', hs'⟩
        rcases eq_or_ne σ τ with rfl | hne
        · rw [setClient_self] at hc'
          cases hc'
        · rw [setClient_ne _ hne] at hc'
          exact hne (h.alone hheld hs hc')

end System

/-! ### What the calls are to do -/

/-- Each call alone: `Rep` relates the object to the value it stands for, and `At c a` annotates the
    positions of the call `c` that was begun at the value `a`, which it takes to `post c a`. -/
structure Contract (O : Calls κ σ ι ε ρ) (α : Type*) where
  Rep : σ → α → Prop
  At : κ → α → σ → ι → Prop
  post : κ → α → α
  answers : κ → α → ρ → Prop
  start : ∀ {c a s}, Rep s a → At c a s (O.start c)
  step : ∀ {c a s i}, At c a s i →
    (O.step c s i).Sat (At c a) (fun s' r => Rep s' (post c a) ∧ answers c a r)
  /-- A call that shares the lock changes nothing and has no effects. -/
  shared : ∀ {c a s i}, O.shares c = true → At c a s i → Rep s a ∧ post c a = a ∧
    (O.step c s i).effects = [] ∧ (O.step c s i).Sat (fun s' _ => s' = s) (fun s' _ => s' = s)

namespace Contract

variable {α : Type*} {O : Calls κ σ ι ε ρ} (K : Contract O α) {a₀ : α} {log : List (T × κ × ρ)}

/-- The value after the calls of the log, one after the other. -/
def value (a₀ : α) (log : List (T × κ × ρ)) : α := log.foldl (fun a e => K.post e.2.1 a) a₀

/-- Each call of the log has answered as it does alone, at its place. -/
def Legal : α → List (T × κ × ρ) → Prop
  | _, [] => True
  | a, (_, c, r) :: log => K.answers c a r ∧ Legal (K.post c a) log

theorem value_snoc (e : T × κ × ρ) :
    K.value a₀ (log ++ [e]) = K.post e.2.1 (K.value a₀ log) := by
  rw [value, List.foldl_append]
  rfl

theorem legal_snoc {τ : T} {c : κ} {r : ρ} : ∀ {a₀ : α} {log : List (T × κ × ρ)},
    K.Legal a₀ (log ++ [(τ, c, r)]) ↔ K.Legal a₀ log ∧ K.answers c (K.value a₀ log) r := by
  intro a₀ log
  induction log generalizing a₀ with
  | nil => simp [Legal, value]
  | cons e log ih =>
    obtain ⟨τ', c', r'⟩ := e
    rw [List.cons_append, Legal, Legal, ih, and_assoc]
    rfl

end Contract

namespace System

variable [DecidableEq T] {α : Type*} {O : Calls κ σ ι ε ρ} {K : Contract O α} {a₀ : α}
  {s s' : System T κ σ ι ε ρ} {a : Action T κ} {τ τ' : T} {c c' : κ} {i : ι}

/-- A call that does not share the lock is at work on the object. -/
def Writing (O : Calls κ σ ι ε ρ) (s : System T κ σ ι ε ρ) : Prop :=
  ∃ τ c i, s.client τ = .inside c i ∧ O.shares c = false

/-- The log is legal. The object stands for the value after it, save while a call is at work on it, and
    whoever is inside is where a call begun at this value can be. -/
structure Inv (K : Contract O α) (a₀ : α) (s : System T κ σ ι ε ρ) : Prop where
  held : s.Held O
  legal : K.Legal a₀ s.log
  rep : ¬ s.Writing O → K.Rep s.object (K.value a₀ s.log)
  inside : ∀ τ c i, s.client τ = .inside c i → K.At c (K.value a₀ s.log) s.object i

omit [DecidableEq T] in
theorem inv_init {o : σ} (h : K.Rep o a₀) : (init o : System T κ σ ι ε ρ).Inv K a₀ := by
  refine ⟨held_init o, trivial, fun _ => h, ?_⟩
  rintro τ c i ⟨⟩

omit [DecidableEq T] in
/-- Nobody else is inside while a call that does not share the lock is. -/
theorem Held.only (h : s.Held O) (hc : s.client τ = .inside c i) (hs : O.shares c = false) {j : ι}
    (hc' : s.client τ' = .inside c' j) : τ' = τ :=
  h.alone (by rw [hc]; rfl) hs (by rw [hc']; rfl)

omit [DecidableEq T] in
theorem Inv.rep_of_shares (h : s.Inv K a₀) (hc : s.client τ = .inside c i) (hs : O.shares c = true) :
    ¬ s.Writing O := by
  rintro ⟨τ', c', j, hc', hs'⟩
  obtain rfl := h.held.only hc' hs' hc
  rw [hc] at hc'
  cases hc'
  rw [hs] at hs'
  cases hs'

/-- Only the thread that moves changes its place. -/
theorem inside_setClient {x : Client κ ι ρ} {P : κ → ι → Prop} (hx : ∀ c i, x = .inside c i → P c i)
    (hother : ∀ τ', τ' ≠ τ → ∀ c i, s.client τ' = .inside c i → P c i) (τ' : T) (c : κ) (i : ι)
    (hc : (s.setClient τ x).client τ' = .inside c i) : P c i := by
  rcases eq_or_ne τ' τ with rfl | hne
  · rw [setClient_self] at hc
    exact hx c i hc
  · rw [setClient_ne x hne] at hc
    exact hother τ' hne c i hc

theorem Inv.step (h : s.Inv K a₀) (ha : act O s a = some s') : s'.Inv K a₀ := by
  have hheld := h.held.step ha
  -- a thread that is outside does not write
  have hwriting : ∀ {τ x}, (∀ c i, s.client τ = .inside c i → O.shares c = true) →
      s.Writing O → (s.setClient τ x).Writing O := by
    rintro τ x hτ ⟨σ, c, i, hc, hs⟩
    rcases eq_or_ne σ τ with rfl | hne
    · rw [hτ c i hc] at hs
      cases hs
    · exact ⟨σ, c, i, by rw [setClient_ne x hne]; exact hc, hs⟩
  cases move_of_act ha with
  | @call τ c hc =>
    refine ⟨hheld, h.legal, fun hw => h.rep (mt (hwriting ?_) hw), ?_⟩
    · intro c' i' hi
      rcases hc with hc | ⟨c'', r, hc⟩
      · rw [hi] at hc
        cases hc
      · rw [hi] at hc
        cases hc
    · exact inside_setClient (fun _ _ => nofun) fun τ' _ => h.inside τ'
  | @share τ c hc ho hs =>
    have hnot : ¬ s.Writing O := by
      rintro ⟨σ, c', i', hc', hs'⟩
      have := (h.held.owner σ).mpr ⟨c', by rw [hc']; rfl, hs'⟩
      rw [ho] at this
      cases this
    refine ⟨hheld, h.legal, fun _ => h.rep hnot, inside_setClient ?_ fun τ' _ => h.inside τ'⟩
    rintro c' i' ⟨⟩
    exact K.start (h.rep hnot)
  | @own τ c hc ho hs hempty =>
    have hnot : ¬ s.Writing O := by
      rintro ⟨σ, c', i', hc', hs'⟩
      have := (h.held.owner σ).mpr ⟨c', by rw [hc']; rfl, hs'⟩
      rw [ho] at this
      cases this
    refine ⟨hheld, h.legal, fun _ => h.rep hnot, inside_setClient ?_ fun τ' _ => h.inside τ'⟩
    rintro c' i' ⟨⟩
    exact K.start (h.rep hnot)
  | @next τ c i o i' hc ho =>
    have hat := h.inside τ c i hc
    have hsat := K.step hat
    rw [ho] at hsat
    cases hs : O.shares c with
    | true =>
      obtain ⟨-, -, -, hsame⟩ := K.shared hs hat
      rw [ho] at hsame
      obtain rfl := hsame
      refine ⟨hheld, h.legal, fun _ => h.rep (h.rep_of_shares hc hs), inside_setClient ?_ fun τ' _ => h.inside τ'⟩
      rintro c' j ⟨⟩
      exact hsat
    | false =>
      refine ⟨hheld, h.legal, fun hw => absurd ⟨τ, c, i', setClient_self _, hs⟩ hw, inside_setClient ?_ ?_⟩
      · rintro c' j ⟨⟩
        exact hsat
      · intro τ' hne c' j hc'
        exact absurd (h.held.only hc hs hc') hne
  | @effect τ c i o e i' hc ho =>
    have hat := h.inside τ c i hc
    have hsat := K.step hat
    rw [ho] at hsat
    cases hs : O.shares c with
    | true =>
      obtain ⟨-, -, hnone, -⟩ := K.shared hs hat
      rw [ho] at hnone
      cases hnone
    | false =>
      refine ⟨hheld, h.legal, fun hw => absurd ⟨τ, c, i', setClient_self _, hs⟩ hw, inside_setClient ?_ ?_⟩
      · rintro c' j ⟨⟩
        exact hsat
      · intro τ' hne c' j hc'
        exact absurd (h.held.only hc hs hc') hne
  | @done τ c i o r hc ho =>
    have hat := h.inside τ c i hc
    have hsat := K.step hat
    rw [ho] at hsat
    obtain ⟨hrep, hanswers⟩ := hsat
    refine ⟨hheld, K.legal_snoc.mpr ⟨h.legal, hanswers⟩, fun _ => by rw [K.value_snoc]; exact hrep, ?_⟩
    refine inside_setClient (fun _ _ => nofun) fun τ' hne c' j hc' => ?_
    rw [K.value_snoc]
    cases hs : O.shares c with
    | true =>
      obtain ⟨-, hpost, -, hsame⟩ := K.shared hs hat
      rw [ho] at hsame
      obtain rfl := hsame
      rw [hpost]
      exact h.inside τ' c' j hc'
    | false => exact absurd (h.held.only hc hs hc') hne
  | @unlock τ c r hc =>
    refine ⟨hheld, h.legal, fun hw => h.rep (mt (hwriting ?_) hw), ?_⟩
    · intro c' i' hi
      rw [hi] at hc
      cases hc
    · exact inside_setClient (fun _ _ => nofun) fun τ' _ => h.inside τ'

/-! ### Runs -/

section run
variable {o : σ} {r : Nat → System T κ σ ι ε ρ} {n : Nat}

theorem inv_run (h : Run (act O) (init o) r n) (h₀ : K.Rep o a₀) : ∀ i ≤ n, (r i).Inv K a₀ :=
  h.invariant (inv_init h₀) fun _ _ _ hs ha => hs.step ha

/-- What a step does to the log and to one thread: the thread enters the log when its call gets its
    result, and at no other step. -/
theorem log_step (ha : act O s a = some s') (τ : T) :
    (∀ c x, s'.log ≠ s.log ++ [(τ, c, x)]) ∧
      (s'.client τ = s.client τ ∨ (s.client τ = .idle ∨ ∃ c x, s.client τ = .returned c x) ∨
        (∃ c i, s'.client τ = .inside c i ∧ (s.client τ = .waiting c ∨ ∃ j, s.client τ = .inside c j)) ∨
        ∃ c x, s.client τ = .leaving c x ∧ s'.client τ = .returned c x) ∨
    ∃ c i x, s.client τ = .inside c i ∧ s'.client τ = .leaving c x ∧ s'.log = s.log ++ [(τ, c, x)] := by
  have hsame : ∀ c x, s.log ≠ s.log ++ [(τ, c, x)] := fun c x he => by simp at he
  have hother : ∀ {σ : T} (x : Client κ ι ρ), σ ≠ τ → (s.setClient σ x).client τ = s.client τ :=
    fun x hne => setClient_ne x hne.symm
  cases move_of_act ha with
  | @call σ c hc =>
    refine .inl ⟨hsame, ?_⟩
    rcases eq_or_ne σ τ with rfl | hne
    · exact .inr (.inl hc)
    · exact .inl (hother _ hne)
  | @share σ c hc _ _ =>
    refine .inl ⟨hsame, ?_⟩
    rcases eq_or_ne σ τ with rfl | hne
    · exact .inr (.inr (.inl ⟨c, _, setClient_self _, .inl hc⟩))
    · exact .inl (hother _ hne)
  | @own σ c hc _ _ _ =>
    refine .inl ⟨hsame, ?_⟩
    rcases eq_or_ne σ τ with rfl | hne
    · exact .inr (.inr (.inl ⟨c, _, setClient_self _, .inl hc⟩))
    · exact .inl (hother _ hne)
  | @next σ c i o i' hc _ =>
    refine .inl ⟨hsame, ?_⟩
    rcases eq_or_ne σ τ with rfl | hne
    · exact .inr (.inr (.inl ⟨c, _, setClient_self _, .inr ⟨i, hc⟩⟩))
    · exact .inl (hother _ hne)
  | @effect σ c i o e i' hc _ =>
    refine .inl ⟨hsame, ?_⟩
    rcases eq_or_ne σ τ with rfl | hne
    · exact .inr (.inr (.inl ⟨c, _, setClient_self _, .inr ⟨i, hc⟩⟩))
    · exact .inl (hother _ hne)
  | @done σ c i o x hc _ =>
    rcases eq_or_ne σ τ with rfl | hne
    · exact .inr ⟨c, i, x, hc, setClient_self _, rfl⟩
    · refine .inl ⟨fun c' x' he => ?_, .inl (hother _ hne)⟩
      have hcons := List.append_cancel_left he
      simp only [List.cons.injEq, Prod.mk.injEq] at hcons
      exact hne hcons.1.1
  | @unlock σ c x hc =>
    refine .inl ⟨hsame, ?_⟩
    rcases eq_or_ne σ τ with rfl | hne
    · exact .inr (.inr (.inr ⟨c, x, hc, setClient_self _⟩))
    · exact .inl (hother _ hne)

/-- The call `c` of a thread that starts at `i₀` and returns `x` at `n`. -/
structure CallSpan (r : Nat → System T κ σ ι ε ρ) (τ : T) (c : κ) (x : ρ) (i₀ n : Nat) : Prop where
  le : i₀ ≤ n
  start : (r i₀).client τ = .waiting c
  during : ∀ i, i₀ ≤ i → i < n → ((r i).client τ).isReturned = false
  finish : (r n).client τ = .returned c x

/-- At time `k` the thread enters the log. -/
def Enters (r : Nat → System T κ σ ι ε ρ) (τ : T) (k : Nat) : Prop :=
  ∃ c x, (r (k + 1)).log = (r k).log ++ [(τ, c, x)]

/-- Where the call can be, and whether it has entered the log since `i₀`. -/
def Underway (r : Nat → System T κ σ ι ε ρ) (τ : T) (c : κ) (i₀ i : Nat) : Client κ ι ρ → Prop
  | .idle => False
  | .waiting c' | .inside c' _ => c' = c ∧ ∀ k, i₀ ≤ k → k < i → ¬ Enters r τ k
  | .leaving c' x | .returned c' x => c' = c ∧ ∃ k, i₀ ≤ k ∧ k < i ∧
      (r (k + 1)).log = (r k).log ++ [(τ, c, x)] ∧ ∀ j, i₀ ≤ j → j < i → Enters r τ j → j = k

theorem underway_run (h : Run (act O) (init o) r n) {x : ρ} {i₀ : Nat} (hs : CallSpan r τ c x i₀ n) :
    ∀ i, i₀ ≤ i → i ≤ n → Underway r τ c i₀ i ((r i).client τ) := by
  refine h.along (Q := fun i s => Underway r τ c i₀ i (s.client τ)) ?_ fun i a h₀ hi hQ ha => ?_
  · rw [hs.start]
    exact ⟨rfl, fun k hk hlt => absurd hk (Nat.not_le_of_lt hlt)⟩
  have hnot : ∀ c' x', (r i).client τ ≠ .returned c' x' := by
    intro c' x' hret
    have hdur := hs.during i h₀ hi
    rw [hret] at hdur
    cases hdur
  have hmore : (∀ k, i₀ ≤ k → k < i → ¬ Enters r τ k) → ¬ Enters r τ i →
      ∀ k, i₀ ≤ k → k < i + 1 → ¬ Enters r τ k := by
    intro hnone hnow k hk hlt
    rcases Nat.lt_succ_iff_lt_or_eq.mp hlt with hlt | rfl
    exacts [hnone k hk hlt, hnow]
  have honce : ∀ x, (∃ k, i₀ ≤ k ∧ k < i ∧ (r (k + 1)).log = (r k).log ++ [(τ, c, x)] ∧
      ∀ j, i₀ ≤ j → j < i → Enters r τ j → j = k) → ¬ Enters r τ i →
      ∃ k, i₀ ≤ k ∧ k < i + 1 ∧ (r (k + 1)).log = (r k).log ++ [(τ, c, x)] ∧
        ∀ j, i₀ ≤ j → j < i + 1 → Enters r τ j → j = k := by
    rintro x ⟨k, hk, hlt, hlog, huniq⟩ hnow
    refine ⟨k, hk, Nat.lt_succ_of_lt hlt, hlog, fun j hj hjlt he => ?_⟩
    rcases Nat.lt_succ_iff_lt_or_eq.mp hjlt with hjlt | rfl
    exacts [huniq j hj hjlt he, absurd he hnow]
  rcases log_step ha τ with ⟨hlog, hcase⟩ | ⟨c', j, x', hin, hout, hlog⟩
  · have hnow : ¬ Enters r τ i := fun ⟨c', x', he⟩ => hlog c' x' he
    rcases hcase with hsame | hout | ⟨c', j, hnew, hold⟩ | ⟨c', x', hold, hnew⟩
    · rw [hsame]
      cases hc : (r i).client τ with
      | idle => rw [hc] at hQ; exact hQ
      | waiting => rw [hc] at hQ; exact ⟨hQ.1, hmore hQ.2 hnow⟩
      | inside => rw [hc] at hQ; exact ⟨hQ.1, hmore hQ.2 hnow⟩
      | leaving => rw [hc] at hQ; exact ⟨hQ.1, honce _ hQ.2 hnow⟩
      | returned c' x' => exact absurd hc (hnot c' x')
    · rcases hout with hidle | ⟨c', x', hret⟩
      · rw [hidle] at hQ
        exact hQ.elim
      · exact absurd hret (hnot c' x')
    · rw [hnew]
      rcases hold with hold | ⟨j', hold⟩
      · rw [hold] at hQ; exact ⟨hQ.1, hmore hQ.2 hnow⟩
      · rw [hold] at hQ; exact ⟨hQ.1, hmore hQ.2 hnow⟩
    · rw [hold] at hQ
      rw [hnew]
      exact ⟨hQ.1, honce _ hQ.2 hnow⟩
  · rw [hin] at hQ
    rw [hout]
    obtain ⟨rfl, hnone⟩ := hQ
    refine ⟨rfl, i, h₀, Nat.lt_succ_self i, hlog, fun j hj hlt he => ?_⟩
    rcases Nat.lt_succ_iff_lt_or_eq.mp hlt with hlt | rfl
    exacts [absurd he (hnone j hj hlt), rfl]

/-- Calls behind a lock are linearizable. The logs are legal histories, each the beginning of the next,
    and a call enters them once, at a moment between its start and its return, with its result. -/
theorem linearization_point (h : Run (act O) (init o) r n) (h₀ : K.Rep o a₀) {x : ρ} {i₀ : Nat}
    (hs : CallSpan r τ c x i₀ n) : K.Legal a₀ (r n).log ∧ ∃ k, i₀ ≤ k ∧ k < n ∧
      (r (k + 1)).log = (r k).log ++ [(τ, c, x)] ∧ K.answers c (K.value a₀ (r k).log) x ∧
      ∀ j, i₀ ≤ j → j < n → Enters r τ j → j = k := by
  have hunder := underway_run h hs n hs.le (Nat.le_refl n)
  rw [hs.finish] at hunder
  obtain ⟨-, k, hk, hkn, hlog, huniq⟩ := hunder
  have hlegal := (inv_run h h₀ (k + 1) hkn).legal
  rw [hlog] at hlegal
  exact ⟨(inv_run h h₀ n (Nat.le_refl n)).legal, k, hk, hkn, hlog, (K.legal_snoc.mp hlegal).2, huniq⟩

theorem log_grows (ha : act O s a = some s') : s.log <+: s'.log := by
  cases move_of_act ha with
  | done => exact List.prefix_append ..
  | _ => exact List.prefix_refl _

theorem log_prefix (h : Run (act O) (init o) r n) {i j : Nat} (hij : i ≤ j) (hj : j ≤ n) :
    (r i).log <+: (r j).log := by
  refine h.along (Q := fun _ s => (r i).log <+: s.log) (List.prefix_refl _) ?_ j hij hj
  intro k a _ _ hpre ha
  exact hpre.trans (log_grows ha)

end run

end System
end Monitor
