import RcuFib.Fib.Reclamation
import RcuFib.Fib.Seqlock
import RcuFib.Trie.Standing

/-! How long a read takes (`include/rcufib/fib.hpp`).

    A reader of `rcu_fib` is through after a number of its own accesses that depends on the width of the
    addresses alone, whatever the other threads do in between: the writer moves pointers, but the keys
    on the reader's way get longer with every node (`lookupMeasure`). A reader of `seqlock_fib` is not:
    while a write section is open it cannot return, and it gives up a walk for each section that gets in
    its way. -/

namespace RcuFib
open SearchGraph Routine Trace RadixTrie

variable {T : Type*} {w : Width}

namespace Rcu
variable [DecidableEq T]

/-- The thread an action is of. -/
def actor (s : Rcu T w) : Action T w → Option T
  | .domain τ _ | .step τ _ | .lookup τ _ | .read τ | .call τ _ | .lock τ => some τ
  | .write => s.writer.map Prod.fst

variable {s s' : Rcu T w} {a : Action T w} {τ σ : T} {addr : Address w} {lpc : LookupPc FibEntry}

/-- Nothing another thread does moves a thread. -/
theorem bystander (ha : s.act a = some s') (hne : s.actor a ≠ some σ) :
    s'.client σ = s.client σ ∧ s'.epoch.pc σ = s.epoch.pc σ := by
  have hset : ∀ {τ : T} {s₁ : Rcu T w} {c : Client w}, τ ≠ σ →
      (s₁.setClient τ c).client σ = s₁.client σ :=
    fun hτ => Function.update_of_ne hτ.symm ..
  have hsettle : ∀ {τ : T} {s₁ : Rcu T w}, τ ≠ σ →
      (s₁.settle τ).client σ = s₁.client σ ∧ (s₁.settle τ).epoch = s₁.epoch := by
    intro τ s₁ hτ
    unfold settle
    split
    · exact ⟨rfl, rfl⟩
    · exact ⟨hset hτ, rfl⟩
  cases move_of_act ha with
  | @domain τ c e _ _ he =>
    have hτ : τ ≠ σ := fun h => hne (by rw [actor, h])
    obtain ⟨hclient, hepoch⟩ := @hsettle _ ((s.moved e).setClient τ .domain) hτ
    rw [hclient, hset hτ, hepoch]
    exact ⟨rfl, pc_act he (.inl ⟨_, rfl⟩) σ hτ.symm⟩
  | @step τ weak e he =>
    have hτ : τ ≠ σ := fun h => hne (by rw [actor, h])
    obtain ⟨hclient, hepoch⟩ := @hsettle _ (s.moved e) hτ
    rw [hclient, hepoch]
    exact ⟨rfl, pc_act he (.inr ⟨_, rfl⟩) σ hτ.symm⟩
  | @lookup τ _ _ _ => exact ⟨hset fun h => hne (by rw [actor, h]), rfl⟩
  | @read τ _ _ _ _ _ _ => exact ⟨hset fun h => hne (by rw [actor, h]), rfl⟩
  | @found τ _ _ _ _ _ _ => exact ⟨hset fun h => hne (by rw [actor, h]), rfl⟩
  | @call τ _ _ => exact ⟨hset fun h => hne (by rw [actor, h]), rfl⟩
  | @lock τ _ _ _ => exact ⟨hset fun h => hne (by rw [actor, h]), rfl⟩
  | @write τ _ _ _ _ _ _ _ => exact ⟨rfl, rfl⟩
  | @retire τ _ _ _ _ _ _ e hw _ he =>
    have hτ : τ ≠ σ := fun h => hne (by rw [actor, hw, Option.map_some, h])
    exact ⟨rfl, pc_act he (.inl ⟨_, rfl⟩) σ hτ.symm⟩
  | @updated τ _ _ _ _ _ _ _ => exact ⟨rfl, rfl⟩
  | @unlock τ _ hw => exact ⟨hset fun h => hne (by rw [actor, hw, Option.map_some, h]), rfl⟩

/-- A thread outside its own call under the mutex is not the writer. -/
theorem AllPlaced.not_writer (h : s.AllPlaced) (hc : s.client τ ≠ .writing) :
    s.actor .write ≠ some τ := by
  intro hw
  obtain ⟨⟨τ', cpc⟩, hx, rfl⟩ := Option.map_eq_some_iff.mp hw
  have hplace := h τ'
  rw [position_eq.mpr hx] at hplace
  generalize s.client τ' = c, s.epoch.pc τ' = dpc at hplace hc
  cases hplace <;> exact hc rfl

/-! ### The lookup -/

/-- The threads are where they can be, the writer is on its way, and every lookup is on a node that has
    been published. -/
structure Walks (s : Rcu T w) : Prop where
  placed : s.AllPlaced
  writer : WriterInv s.trie s.update
  silent : s.trie.Silent (privOf s.update)
  known : ∀ τ, ∀ n ∈ (s.client τ).walk.bind LookupPc.node, s.trie.Known (privOf s.update) n

theorem walks_init : (init : Rcu T w).Walks := by
  refine ⟨placed_init, ⟨_, rep_of_root_none inv_empty rfl⟩, fun _ _ _ => rfl, ?_⟩
  rintro τ n ⟨⟩

theorem update_settle (s : Rcu T w) (τ : T) : (s.settle τ).update = s.update := by
  unfold settle
  split
  · rfl
  · rw [update, update, Option.bind_map]
    refine congrArg (Option.bind s.writer) (funext fun x => ?_)
    rw [Function.comp_apply]
    split
    · exact x.2.current_resume
    · rfl

theorem trie_settle (s : Rcu T w) (τ : T) : (s.settle τ).trie = s.trie := by
  unfold settle
  split <;> rfl

theorem walk_settle (s : Rcu T w) (τ σ : T) : ((s.settle τ).client σ).walk = (s.client σ).walk := by
  unfold settle
  split
  · rfl
  · rcases eq_or_ne σ τ with rfl | hne
    · simp only [setClient, Function.update_self, Client.walk_resume]
    · simp only [setClient, Function.update_of_ne hne]

/-- An action is a turn of the writer, or leaves the trie and the writer as they are. -/
theorem Walks.turn (h : s.Walks) (ha : s.act a = some s') :
    s.trie.Turn s.update s'.trie s'.update := by
  have hrefl : ∀ {s₁ : Rcu T w}, s₁.trie = s.trie → s₁.update = s.update →
      s.trie.Turn s.update s₁.trie s₁.update := by
    intro s₁ ht hu
    rw [ht, hu]
    exact .refl h.writer
  have hload : ∀ {addr lpc}, (lookupStep addr s.trie lpc).Sat (fun t _ => t = s.trie)
      (fun t _ => t = s.trie) := fun {_ lpc} => lookup_trie lpc
  have hstep : ∀ {τ pc rest applied}, s.writer = some (τ, .update pc rest applied) →
      s.update = some pc ∧ (writerStep s.trie pc).Sat
        (fun t' pc' => s.trie.Turn (some pc) t' (some pc')) (fun t' _ => s.trie.Turn (some pc) t' none) := by
    intro τ pc rest applied hw
    have hupdate : s.update = some pc := by
      rw [update, hw]
      rfl
    exact ⟨hupdate, turn_step (hupdate ▸ h.writer)⟩
  cases move_of_act ha with
  | domain => exact hrefl (trie_settle _ _) (update_settle _ _)
  | step => exact hrefl (trie_settle _ _) (update_settle _ _)
  | lookup => exact hrefl rfl rfl
  | @read τ addr lpc t lpc' _ ho =>
    have hsame := @hload addr lpc
    rw [ho] at hsame
    exact hrefl hsame rfl
  | @found τ addr lpc t entry _ ho =>
    have hsame := @hload addr lpc
    rw [ho] at hsame
    exact hrefl hsame rfl
  | call => exact hrefl rfl rfl
  | @lock τ c _ hw =>
    have hnone : s.update = none := by
      rw [update, hw]
      rfl
    have hidle := h.writer
    rw [hnone] at hidle ⊢
    exact proceed_turn (.refl hidle) c.updates 0
  | @write τ pc rest applied t pc' hw ho =>
    obtain ⟨hupdate, hturn⟩ := hstep hw
    rw [ho] at hturn
    rw [hupdate]
    exact hturn
  | @retire τ pc rest applied t x pc' e hw ho he =>
    obtain ⟨hupdate, hturn⟩ := hstep hw
    rw [ho] at hturn
    rw [hupdate]
    exact hturn
  | @updated τ pc rest applied t r hw ho =>
    obtain ⟨hupdate, hturn⟩ := hstep hw
    rw [ho] at hturn
    rw [hupdate]
    exact proceed_turn hturn rest _
  | @unlock τ applied hw =>
    have hnone : s.update = none := by
      rw [update, hw]
      rfl
    have hidle := h.writer
    rw [hnone] at hidle ⊢
    exact .refl hidle

theorem Walks.step (h : s.Walks) (ha : s.act a = some s') : s'.Walks := by
  have hturn := h.turn ha
  refine ⟨placed_act h.placed ha, hturn.inv, hturn.evolves.silent h.silent, ?_⟩
  have hold : ∀ {τ} {walk : Option (LookupPc FibEntry)}, walk = (s.client τ).walk →
      ∀ n ∈ walk.bind LookupPc.node, s'.trie.Known (privOf s'.update) n := by
    rintro τ walk rfl n hn
    exact hturn.evolves.known n (h.known τ n hn)
  intro σ
  by_cases hσ : s.actor a = some σ
  · cases move_of_act ha with
    | @domain τ c e _ _ _ =>
      obtain rfl := Option.some.inj hσ
      rw [walk_settle]
      simp only [setClient, Function.update_self]
      rintro n ⟨⟩
    | @step τ weak e _ => exact hold (walk_settle _ τ σ)
    | @lookup τ addr _ _ =>
      obtain rfl := Option.some.inj hσ
      simp only [setClient, Function.update_self]
      rintro n ⟨⟩
    | @read τ addr lpc t lpc' hc ho =>
      obtain rfl := Option.some.inj hσ
      have hk := h.known τ
      rw [hc] at hk
      have hnode := node_step (a := addr) (h.writer.inv.visible_known h.silent) hk
      rw [ho] at hnode
      simp only [setClient, Function.update_self]
      exact fun n hn => hturn.evolves.known n (hnode n hn)
    | @found τ addr lpc t entry _ _ =>
      obtain rfl := Option.some.inj hσ
      simp only [setClient, Function.update_self]
      rintro n ⟨⟩
    | @call τ c _ =>
      obtain rfl := Option.some.inj hσ
      simp only [setClient, Function.update_self]
      rintro n ⟨⟩
    | @lock τ c _ _ =>
      obtain rfl := Option.some.inj hσ
      simp only [setClient, Function.update_self]
      rintro n ⟨⟩
    | write => exact hold rfl
    | retire => exact hold rfl
    | updated => exact hold rfl
    | @unlock τ applied hw =>
      obtain rfl : τ = σ := by
        rw [actor, hw] at hσ
        exact Option.some.inj hσ
      simp only [setClient, Function.update_self]
      rintro n ⟨⟩
  · rw [(bystander ha hσ).1]
    exact hold rfl

theorem walks_run {r : Nat → Rcu T w} {n : Nat} (h : Run act init r n) : ∀ i ≤ n, (r i).Walks :=
  h.invariant walks_init fun _ _ _ hs ha => hs.step ha

/-- The loads a lookup has left. -/
def loads (s : Rcu T w) (τ : T) : Nat :=
  match s.client τ with
  | .walking _ lpc => lookupMeasure s.trie lpc
  | _ => 0

/-- The writer does not move a lookup away from its end: the keys of published nodes stay. -/
theorem Walks.loads_bystander (h : s.Walks) (ha : s.act a = some s') (hne : s.actor a ≠ some τ) :
    s'.loads τ = s.loads τ := by
  have hclient := (bystander ha hne).1
  have hturn := h.turn ha
  have hk := h.known τ
  unfold loads
  rw [hclient]
  cases hc : s.client τ with
  | walking addr lpc =>
    rw [hc] at hk
    cases lpc with
    | root => rfl
    | value n best => simp only [lookupMeasure, Node.keyLength, hturn.evolves.pfx n (hk n rfl)]
    | child n best => simp only [lookupMeasure, Node.keyLength, hturn.evolves.pfx n (hk n rfl)]
  | idle | domain | locking | writing => rfl

theorem loads_read (h : s.Walks) (ha : s.act (.read τ) = some s') (hc : s.client τ = .walking addr lpc) :
    (∃ lpc', s'.client τ = .walking addr lpc') ∧ s'.loads τ < s.loads τ ∨ s'.client τ = .idle := by
  have hmeas : (lookupStep addr s.trie lpc).Sat _ _ := lookup_measure h.writer.inv
  simp only [act, hc] at ha
  cases ho : lookupStep addr s.trie lpc with
  | next t lpc' =>
    rw [ho] at ha hmeas
    obtain rfl := Option.some.inj ha
    left
    refine ⟨⟨lpc', by simp [setClient]⟩, ?_⟩
    simp only [loads, setClient, Function.update_self, hc]
    exact hmeas
  | call t x => exact x.elim
  | done t entry =>
    rw [ho] at ha
    obtain rfl := Option.some.inj ha
    exact .inr (by simp [setClient])

/-! ### The guard -/

/-- The thread is in the constructor of `read_guard`, with its record at hand. -/
def Pinning (s : Rcu T w) (τ : T) : Prop :=
  s.client τ = .domain ∧ ((∃ k, s.epoch.pc τ = some (.enter k)) ∨ ∃ k e, s.epoch.pc τ = some (.announce k e))

def pins (s : Rcu T w) (τ : T) : Nat :=
  match s.epoch.pc τ with
  | some (.enter _) => 1
  | _ => 0

/-- A step of the constructor announces the epoch or opens the guard, inside those that are open. -/
theorem pinning_step {weak : Bool} (h : s.Pinning τ) (ha : s.act (.step τ weak) = some s') :
    s'.Pinning τ ∧ s'.pins τ < s.pins τ ∧ s'.epoch.dom.guards τ = s.epoch.dom.guards τ ∨
      s'.client τ = .idle ∧ ∃ g, s'.epoch.dom.guards τ = g :: s.epoch.dom.guards τ := by
  obtain ⟨hc, hpc⟩ := h
  obtain ⟨e, he, rfl⟩ := Option.map_eq_some_iff.mp ha
  obtain ⟨pc, hd, rfl⟩ := Option.map_eq_some_iff.mp he
  have hopen : ∀ (d : EpochDomain T (Retired FibEntry)) k b,
      (d.openGuard τ k b).guards τ = ⟨d.nextGuard, b⟩ :: d.guards τ := by
    intro d k b
    exact Function.update_self ..
  have hback : ∀ {d : EpochDomain T (Retired FibEntry)} {g}, d.guards τ = g :: s.epoch.dom.guards τ →
      ((s.moved ⟨d, Function.update s.epoch.pc τ none⟩).settle τ).client τ = .idle ∧
        ∃ g, ((s.moved ⟨d, Function.update s.epoch.pc τ none⟩).settle τ).epoch.dom.guards τ =
          g :: s.epoch.dom.guards τ := by
    intro d g hd
    simp only [settle, moved, Function.update_self, Option.isSome_none, Bool.false_eq_true, if_false,
      setClient, hc]
    exact ⟨rfl, g, hd⟩
  rcases hpc with ⟨k, hk⟩ | ⟨k, epoch, hk⟩
  · rw [hk] at hd
    obtain rfl := Option.some.inj hd
    simp only [EpochDomain.step]
    split
    · left
      simp only [Pinning, pins, settle, moved, Function.update_self, Option.isSome_some, if_true, hc, hk]
      exact ⟨⟨trivial, .inr ⟨_, _, rfl⟩⟩, Nat.zero_lt_one, trivial⟩
    · exact .inr (hback (hopen _ _ _))
  · rw [hk] at hd
    obtain rfl := Option.some.inj hd
    exact .inr (hback (hopen _ _ _))

theorem epoch_settle (s : Rcu T w) (τ : T) : (s.settle τ).epoch = s.epoch := by
  unfold settle
  split <;> rfl

/-- The domain moves by a call or a step of the thread whose action it is, if at all. -/
theorem epoch_act (ha : s.act a = some s') : s'.epoch = s.epoch ∨ ∃ τ x, s.actor a = some τ ∧
    ((∃ c, x = .call τ c) ∨ ∃ weak, x = .step τ weak) ∧ EpochSystem.act s.epoch x = some s'.epoch := by
  cases move_of_act ha with
  | @domain τ c e _ _ he => exact .inr ⟨τ, _, rfl, .inl ⟨c, rfl⟩, by rw [epoch_settle]; exact he⟩
  | @step τ weak e he => exact .inr ⟨τ, _, rfl, .inr ⟨weak, rfl⟩, by rw [epoch_settle]; exact he⟩
  | @retire τ _ _ _ _ x _ e hw _ he =>
    exact .inr ⟨τ, _, by rw [actor, hw, Option.map_some], .inl ⟨.retire (some x), rfl⟩, he⟩
  | lookup | read | found | call | lock | write | updated | unlock => exact .inl rfl

theorem guards_bystander (ha : s.act a = some s') (hne : s.actor a ≠ some σ) :
    s'.epoch.dom.guards σ = s.epoch.dom.guards σ := by
  rcases epoch_act ha with hsame | ⟨τ, x, hτ, hx, he⟩
  · rw [hsame]
  · exact EpochSystem.guards_of_ne he hx fun h => hne (by rw [hτ, h])

theorem epoch_inv (h : s.epoch.Inv) (ha : s.act a = some s') : s'.epoch.Inv := by
  rcases epoch_act ha with hsame | ⟨τ, x, -, -, he⟩
  · rwa [hsame]
  · exact EpochSystem.inv_act h he

/-! ### The visit -/

/-- Where a thread is in `visit`. -/
inductive VisitPhase where
  /-- in the constructor of `read_guard` -/
  | entering
  /-- before `trie_.lookup(address)` -/
  | ready
  | walking
  /-- in the callback, before the destructor of `read_guard` -/
  | returned
  | left
  deriving DecidableEq

namespace VisitPhase

/-- The action that `visit(a, fn)` goes on with. -/
def allows (τ : T) (a : Address w) : VisitPhase → Action T w → Bool
  | entering, .step σ _ => σ = τ
  | ready, .lookup σ b => σ = τ ∧ b = a
  | walking, .read σ => σ = τ
  | returned, .domain σ .leave => σ = τ
  | _, _ => false

/-- Whether the constructor or the lookup has returned is seen from the thread. -/
def next (idle : Bool) : VisitPhase → VisitPhase
  | entering => if idle then ready else entering
  | ready => walking
  | walking => if idle then returned else walking
  | returned | left => left

end VisitPhase

/-- The action is one of the thread, outside the mutex. -/
def own (τ : T) : Action T w → Bool
  | .domain σ _ | .step σ _ | .lookup σ _ | .read σ | .call σ _ | .lock σ => σ = τ
  | .write => false

def isIdle : Client w → Bool
  | .idle => true
  | _ => false

/-- The system while `τ` is in a visit of `a`: the others do what they like. -/
def visitAct (τ : T) (a : Address w) (x : Rcu T w × VisitPhase) (y : Action T w) :
    Option (Rcu T w × VisitPhase) :=
  if own τ y then
    if x.2.allows τ a y then (x.1.act y).map fun s => (s, x.2.next (isIdle (s.client τ))) else none
  else (x.1.act y).map fun s => (s, x.2)

/-- The thread is there, with one guard more open than before, `outer`, from the constructor to the
    destructor. -/
def Visiting (τ : T) (a : Address w) (outer : List ReadGuard) (s : Rcu T w) : VisitPhase → Prop
  | .entering => s.Pinning τ ∧ s.epoch.dom.guards τ = outer
  | .ready | .returned => s.client τ = .idle ∧ ∃ g, s.epoch.dom.guards τ = g :: outer
  | .walking => (∃ lpc, s.client τ = .walking a lpc) ∧ ∃ g, s.epoch.dom.guards τ = g :: outer
  | .left => s.client τ = .idle ∧ s.epoch.dom.guards τ = outer

/-- What the rest of the visit takes. -/
def remaining (τ : T) (s : Rcu T w) : VisitPhase → Nat
  | .entering => s.pins τ + 1 + (2 * w.bits + 6)
  | .ready => 2 * w.bits + 6
  | .walking => s.loads τ + 2
  | .returned => 1
  | .left => 0

/-- Between two actions, while `τ` is in a visit. -/
structure InVisit (τ : T) (a : Address w) (outer : List ReadGuard) (x : Rcu T w × VisitPhase) : Prop where
  walks : x.1.Walks
  epoch : x.1.epoch.Inv
  visiting : Visiting τ a outer x.1 x.2

variable {outer : List ReadGuard} {phase : VisitPhase} {b : Address w}

/-- In a visit a thread is not the writer, so what is not its own action is another thread's. -/
theorem bystander_of_visiting (h : s.AllPlaced) (hv : Visiting τ b outer s phase) (hown : own τ a = false) :
    s.actor a ≠ some τ := by
  have hnot : s.client τ ≠ .writing := by
    intro hc
    cases phase with
    | entering => cases hc.symm.trans hv.1.1
    | walking =>
      obtain ⟨⟨lpc, hlpc⟩, -⟩ := hv
      cases hc.symm.trans hlpc
    | ready | returned | left => cases hc.symm.trans hv.1
  cases a with
  | write => exact h.not_writer hnot
  | domain σ | step σ | lookup σ | read σ | call σ | lock σ =>
    intro hσ
    exact of_decide_eq_false hown (Option.some.inj hσ)

/-- What another thread does costs a visit nothing. -/
theorem visit_bystander (h : s.Walks) (hv : Visiting τ b outer s phase) (ha : s.act a = some s')
    (hown : own τ a = false) : Visiting τ b outer s' phase ∧ remaining τ s' phase = remaining τ s phase := by
  have hne := bystander_of_visiting h.placed hv hown
  obtain ⟨hclient, hpc⟩ := bystander ha hne
  have hguards := guards_bystander ha hne
  have hloads := h.loads_bystander ha hne
  have hpins : s'.pins τ = s.pins τ := by rw [pins, pins, hpc]
  cases phase with
  | entering => simpa only [Visiting, Pinning, remaining, hclient, hpc, hguards, hpins, and_true] using hv
  | ready | returned | left =>
    simpa only [Visiting, remaining, hclient, hguards, and_true] using hv
  | walking => simpa only [Visiting, remaining, hclient, hguards, hloads, and_true] using hv

/-- The destructor of the guard is one action. -/
theorem leave_act (hguard : ∃ g, s.epoch.dom.guards τ = g :: outer)
    (ha : s.act (.domain τ .leave) = some s') :
    s'.client τ = .idle ∧ s'.epoch.dom.guards τ = outer := by
  obtain ⟨g, hg⟩ := hguard
  cases move_of_act ha with
  | @domain _ _ e _ _ he =>
    simp only [EpochSystem.act] at he
    split at he
    · cases he
    · obtain ⟨x, hx, rfl⟩ := Option.map_eq_some_iff.mp he
      simp only [EpochDomain.call, hg] at hx
      split at hx
      · next g' rest k hcons hslot =>
        obtain ⟨rfl, rfl⟩ := List.cons.inj hcons
        obtain rfl := Option.some.inj hx
        simp [settle, moved, setClient, EpochDomain.leave, Client.resume]
      · cases hx

/-- The thread's own actions bring the visit nearer to its end. -/
theorem visit_own (h : s.Walks) (hv : Visiting τ b outer s phase) (hallows : phase.allows τ b a = true)
    (ha : s.act a = some s') : Visiting τ b outer s' (phase.next (isIdle (s'.client τ))) ∧
      remaining τ s' (phase.next (isIdle (s'.client τ))) + 1 ≤ remaining τ s phase := by
  cases phase with
  | entering =>
    cases a with
    | step σ weak =>
      obtain rfl : σ = τ := of_decide_eq_true hallows
      rcases pinning_step hv.1 ha with ⟨hp, hlt, hg⟩ | ⟨hidle, g, hg⟩
      · rw [hp.1]
        refine ⟨⟨hp, hg.trans hv.2⟩, ?_⟩
        simp only [isIdle, VisitPhase.next, Bool.false_eq_true, if_false, remaining]
        omega
      · rw [hidle]
        refine ⟨⟨hidle, g, by rw [hg, hv.2]⟩, ?_⟩
        simp only [isIdle, VisitPhase.next, if_true, remaining]
        omega
    | domain | lookup | read | call | lock | write => cases hallows
  | ready =>
    cases a with
    | lookup σ c =>
      obtain ⟨rfl, rfl⟩ : σ = τ ∧ c = b := of_decide_eq_true hallows
      cases move_of_act ha with
      | lookup =>
        have hclient : (s.setClient σ (.walking c .root)).client σ = .walking c .root :=
          Function.update_self ..
        refine ⟨⟨⟨.root, hclient⟩, hv.2⟩, ?_⟩
        simp only [VisitPhase.next, remaining, loads, hclient, lookupMeasure]
        omega
    | domain | step | read | call | lock | write => cases hallows
  | walking =>
    cases a with
    | read σ =>
      obtain rfl : σ = τ := of_decide_eq_true hallows
      obtain ⟨⟨lpc, hlpc⟩, hguard⟩ := hv
      have hepoch : s'.epoch = s.epoch := by cases move_of_act ha <;> rfl
      rw [← hepoch] at hguard
      rcases loads_read h ha hlpc with ⟨⟨lpc', hlpc'⟩, hlt⟩ | hidle
      · rw [hlpc']
        refine ⟨⟨⟨lpc', hlpc'⟩, hguard⟩, ?_⟩
        simp only [isIdle, VisitPhase.next, Bool.false_eq_true, if_false, remaining]
        omega
      · rw [hidle]
        refine ⟨⟨hidle, hguard⟩, ?_⟩
        simp only [isIdle, VisitPhase.next, if_true, remaining]
        omega
    | domain | step | lookup | call | lock | write => cases hallows
  | returned =>
    cases a with
    | domain σ c =>
      cases c with
      | leave =>
        obtain rfl : σ = τ := of_decide_eq_true hallows
        exact ⟨leave_act hv.2 ha, le_rfl⟩
      | enter | retire | tryReclaim | synchronize | exit => cases hallows
    | step | lookup | read | call | lock | write => cases hallows
  | left => cases a <;> cases hallows

theorem visit_step {x x' : Rcu T w × VisitPhase} (h : InVisit τ b outer x)
    (ha : visitAct τ b x a = some x') : InVisit τ b outer x' ∧
      remaining τ x'.1 x'.2 + (if own τ a then 1 else 0) ≤ remaining τ x.1 x.2 := by
  obtain ⟨hwalks, hepoch, hv⟩ := h
  simp only [visitAct] at ha
  split at ha
  · next hown =>
    split at ha
    · next hallows =>
      obtain ⟨s', hact, rfl⟩ := Option.map_eq_some_iff.mp ha
      obtain ⟨hv', hpaid⟩ := visit_own hwalks hv hallows hact
      exact ⟨⟨hwalks.step hact, epoch_inv hepoch hact, hv'⟩, by rwa [if_pos hown]⟩
    · cases ha
  · next hown =>
    obtain ⟨s', hact, rfl⟩ := Option.map_eq_some_iff.mp ha
    obtain ⟨hv', hsame⟩ := visit_bystander hwalks hv hact (Bool.eq_false_of_not_eq_true hown)
    exact ⟨⟨hwalks.step hact, epoch_inv hepoch hact, hv'⟩, by rw [if_neg hown]; exact hsame.le⟩

/-- Before its end a visit can go on, whatever the others are doing. -/
theorem visit_enabled {x : Rcu T w × VisitPhase} (h : InVisit τ b outer x) (hleft : x.2 ≠ .left) :
    ∃ a, own τ a = true ∧ (visitAct τ b x a).isSome := by
  obtain ⟨s, phase⟩ := x
  have hplaced : Placed (s.client τ) (s.position τ) (s.epoch.pc τ) := h.walks.placed τ
  have hepoch : s.epoch.Inv := h.epoch
  have hv : Visiting τ b outer s phase := h.visiting
  -- the action that comes next, if it is possible
  have hgo : ∀ a, own τ a = true → phase.allows τ b a = true → (s.act a).isSome →
      ∃ a, own τ a = true ∧ (visitAct τ b (s, phase) a).isSome := by
    intro a hown hallows hsome
    refine ⟨a, hown, ?_⟩
    simp only [visitAct, hown, hallows, if_true, Option.isSome_map]
    exact hsome
  cases phase with
  | entering =>
    refine hgo (.step τ false) (decide_eq_true rfl) (decide_eq_true rfl) ?_
    obtain ⟨⟨-, hpc⟩, -⟩ := hv
    simp only [act, EpochSystem.act, Option.isSome_map]
    rcases hpc with ⟨k, hk⟩ | ⟨k, e, hk⟩ <;> rw [hk] <;> rfl
  | ready =>
    refine hgo (.lookup τ b) (decide_eq_true rfl) (decide_eq_true ⟨rfl, rfl⟩) ?_
    obtain ⟨hidle, g, hg⟩ := hv
    simp [act, hidle, hg]
  | walking =>
    refine hgo (.read τ) (decide_eq_true rfl) (decide_eq_true rfl) ?_
    obtain ⟨⟨lpc, hlpc⟩, -⟩ := hv
    simp only [act, hlpc]
    cases lookupStep b s.trie lpc with
    | next => rfl
    | call t e => exact e.elim
    | done => rfl
  | returned =>
    refine hgo (.domain τ .leave) (decide_eq_true rfl) (decide_eq_true rfl) ?_
    obtain ⟨hidle, g, hg⟩ := hv
    have hnone : s.epoch.pc τ = none := by
      rw [hidle] at hplaced
      generalize s.position τ = p, s.epoch.pc τ = dpc at hplaced
      cases hplaced
      rfl
    obtain ⟨k, e, hslot, -⟩ := hepoch.dom.guarded τ (by rw [hg]; exact List.cons_ne_nil _ _)
    simp [act, hidle, EpochSystem.act, hnone, EpochDomain.call, hg, hslot]
  | left => exact absurd rfl hleft

/-- The constructor of a registered thread has its record at hand. -/
theorem enter_pins {k : Nat} (hslot : s.epoch.dom.slot τ = some k)
    (ha : s.act (.domain τ .enter) = some s') :
    s'.Pinning τ ∧ s'.pins τ ≤ 1 ∧ s'.epoch.dom.guards τ = s.epoch.dom.guards τ := by
  simp only [act] at ha
  split at ha
  · simp only [EpochSystem.act] at ha
    cases hd : s.epoch.pc τ with
    | some dpc => rw [hd] at ha; cases ha
    | none =>
      simp only [hd, EpochDomain.call, EpochDomain.localRecord, hslot, EpochDomain.resume,
        Option.map_some] at ha
      obtain rfl := Option.some.inj ha
      simp only [Pinning, pins, settle, setClient, moved, Function.update_self, Option.isSome_some,
        if_true]
      exact ⟨⟨trivial, .inl ⟨k, rfl⟩⟩, le_rfl, trivial⟩
  · cases ha

/-- Readers of `rcu_fib` are wait-free. However the threads take turns, a thread with a record is through
    with a visit, from the constructor of the guard to its destructor, within a number of its own accesses
    that depends on the width of the address alone, and is never held up before that. -/
theorem read_wait_free {r : Nat → Rcu T w} {n i : Nat} (h : Run act init r n) (hi : i ≤ n) {τ : T} {k : Nat}
    (hslot : (r i).epoch.dom.slot τ = some k) {s₀ : Rcu T w}
    (hs₀ : (r i).act (.domain τ .enter) = some s₀) (a : Address w) {as : List (Action T w)}
    {s : Rcu T w} {phase : VisitPhase}
    (hexec : exec (visitAct τ a) (s₀, .entering) as = some (s, phase)) :
    as.countP (own τ) ≤ 2 * w.bits + 8 ∧
    (phase = .left → s.client τ = .idle ∧ s.epoch.dom.guards τ = (r i).epoch.dom.guards τ) ∧
    (phase ≠ .left → ∃ x, own τ x = true ∧ (visitAct τ a (s, phase) x).isSome) := by
  have hwalks := walks_run h i hi
  have hepoch : (r i).epoch.Inv := h.invariant EpochSystem.inv_init (fun _ _ _ hs ha => epoch_inv hs ha) i hi
  obtain ⟨hpinning, hpins, hguards⟩ := enter_pins hslot hs₀
  have hstart : InVisit τ a ((r i).epoch.dom.guards τ) (s₀, .entering) :=
    ⟨hwalks.step hs₀, epoch_inv hepoch hs₀, hpinning, hguards⟩
  have hstep : ∀ x y x', InVisit τ a ((r i).epoch.dom.guards τ) x → visitAct τ a x y = some x' →
      InVisit τ a ((r i).epoch.dom.guards τ) x' ∧
        remaining τ x'.1 x'.2 + (if own τ y then 1 else 0) ≤ remaining τ x.1 x.2 :=
    fun _ _ _ hx ha => visit_step hx ha
  obtain ⟨hvisit, hpaid⟩ := exec_paid (f := fun x => remaining τ x.1 x.2) hstep hstart hexec
  refine ⟨?_, ?_, visit_enabled hvisit⟩
  · simp only [remaining] at hpaid
    omega
  · rintro rfl
    exact hvisit.visiting

/-- A thread registers, closes its guard and opens another. -/
def registered : Nat → Rcu Nat .ipv4 :=
  play act init <| [.domain 0 .enter] ++ List.replicate 7 (.step 0 false) ++ [.domain 0 .leave,
    .domain 0 .enter]

/-- Its visit, while the other thread stores a route. -/
def visited : List (Action Nat .ipv4) := List.flatten
  [[.step 0 false, .call 1 (.insert tenSlashEight .zero), .lock 1, .step 0 false], List.replicate 3 .write,
    [.lookup 0 (.fromV4 0x0A000001)], List.replicate 6 .write, List.replicate 3 (.read 0),
    [.domain 0 .leave]]

theorem read_wait_free_registered :
    ∃ s, exec (visitAct 0 (.fromV4 0x0A000001)) (registered 10, .entering) visited = some (s, .left) ∧
      visited.countP (own 0) ≤ 72 ∧ s.client 0 = .idle ∧
      s.epoch.dom.guards 0 = (registered 9).epoch.dom.guards 0 := by
  have hrun : Run act init registered 10 := run_play (by rfl)
  have hleft : (exec (visitAct 0 (.fromV4 0x0A000001)) (registered 10, .entering) visited).map Prod.snd =
      some .left := by rfl
  obtain ⟨⟨s, phase⟩, hexec, hphase⟩ := Option.map_eq_some_iff.mp hleft
  obtain rfl : phase = .left := hphase
  have hslot : (registered 9).epoch.dom.slot 0 = some 0 := by rfl
  obtain ⟨hcount, hend, -⟩ := read_wait_free hrun (by decide : 9 ≤ 10) hslot (by rfl) _ hexec
  exact ⟨s, hexec, hcount, hend rfl⟩

end Rcu

namespace Seqlock
variable [DecidableEq T] {s s' : Seqlock T w} {a : Address w} {τ : T} {pc : VisitPc}

/-! ### A visit while a writer is there -/

/-- The first counter value of an attempt. -/
def VisitPc.first : VisitPc → Option Nat
  | .walk before _ | .check before _ => some before
  | _ => none

/-- No attempt has begun on an odd counter. -/
def Even (s : Seqlock T w) : Prop :=
  ∀ τ a pc, s.visitor τ = .visiting a pc → ∀ before ∈ VisitPc.first pc, before % 2 = 0

omit [DecidableEq T] in
theorem first_step (fib : SeqlockFib w) (a : Address w) (h : ∀ before ∈ VisitPc.first pc, before % 2 = 0) :
    (visitStep a fib pc).Sat (fun _ pc' => ∀ before ∈ VisitPc.first pc', before % 2 = 0)
      (fun _ _ => True) := by
  have hnone : ∀ before ∈ (none : Option Nat), before % 2 = 0 := by rintro _ ⟨⟩
  cases pc with
  | before =>
    simp only [visitStep]
    split
    · exact hnone
    · next heven =>
      rintro before hb
      obtain rfl := Option.some.inj hb
      omega
  | busy => exact hnone
  | walk before lpc =>
    simp only [visitStep]
    cases lookupStep a fib.trie lpc with
    | next => exact h
    | call t e => exact e.elim
    | done => exact h
  | check before entry =>
    simp only [visitStep]
    split
    · trivial
    · exact hnone
  | stale => exact hnone

/-- An action moves one visitor at most, by a step of its visit. -/
theorem visitor_cases {x : Action T w} (hx : act s x = some s') (τ : T) :
    (s'.visitor τ = s.visitor τ ∧ x ≠ .read τ) ∨
    (∃ a, s'.visitor τ = .visiting a .before ∧ ∀ b pc, s.visitor τ ≠ .visiting b pc) ∨
    ∃ a pc, x = .read τ ∧ s.visitor τ = .visiting a pc ∧ (visitStep a s.fib pc).Sat
      (fun fib pc' => s'.fib = fib ∧ s'.visitor τ = .visiting a pc')
      (fun fib entry => s'.fib = fib ∧ s'.visitor τ = .visited a entry) := by
  rcases act_cases hx with ⟨c, rfl, -, rfl⟩ | ⟨c, pc, rfl, -, hsame, -⟩ | ⟨σ, a, rfl, hnew, rfl⟩ |
    ⟨σ, a, pc, rfl, hσ, ho⟩
  · exact .inl ⟨rfl, by rintro ⟨⟩⟩
  · exact .inl ⟨by rw [hsame], by rintro ⟨⟩⟩
  · rcases eq_or_ne τ σ with rfl | hne
    · exact .inr (.inl ⟨a, Function.update_self .., hnew⟩)
    · exact .inl ⟨Function.update_of_ne hne .., by rintro ⟨⟩⟩
  · rcases eq_or_ne τ σ with rfl | hne
    · refine .inr (.inr ⟨a, pc, rfl, hσ, ?_⟩)
      cases hv : visitStep a s.fib pc with
      | next fib pc' => rw [hv] at ho; obtain rfl := ho; exact ⟨rfl, Function.update_self ..⟩
      | call fib e => exact e.elim
      | done fib entry => rw [hv] at ho; obtain rfl := ho; exact ⟨rfl, Function.update_self ..⟩
    · refine .inl ⟨?_, fun he => hne (Action.read.inj he).symm⟩
      cases hv : visitStep a s.fib pc with
      | next fib pc' => rw [hv] at ho; obtain rfl := ho; exact Function.update_of_ne hne ..
      | call fib e => exact e.elim
      | done fib entry => rw [hv] at ho; obtain rfl := ho; exact Function.update_of_ne hne ..

/-- A step of a visit leaves the counter where it is. -/
theorem sequence_read (hx : act s (.read τ) = some s') : s'.fib.sequence = s.fib.sequence := by
  rcases act_cases hx with ⟨c, hc, -⟩ | ⟨c, pc, hc, -⟩ | ⟨σ, a, hc, -⟩ | ⟨σ, a, pc, -, -, ho⟩
  · cases hc
  · cases hc
  · cases hc
  · have hsame := visit_step s.fib a pc
    cases hv : visitStep a s.fib pc with
    | next fib pc' => rw [hv] at ho hsame; rw [ho, hsame]
    | call fib e => exact e.elim
    | done fib entry => rw [hv] at ho hsame; rw [ho, hsame]

theorem even_act {x : Action T w} (h : s.Even) (hx : act s x = some s') : s'.Even := by
  intro τ a pc hpc
  rcases visitor_cases hx τ with ⟨hsame, -⟩ | ⟨b, hnew, -⟩ | ⟨b, pc₀, -, hσ, ho⟩
  · rw [hsame] at hpc
    exact h τ a pc hpc
  · rw [hnew] at hpc
    obtain ⟨-, rfl⟩ := Visitor.visiting.inj hpc
    rintro _ ⟨⟩
  · have hfirst := first_step s.fib b (h τ b pc₀ hσ)
    cases hv : visitStep b s.fib pc₀ with
    | next fib pc' =>
      rw [hv] at ho hfirst
      rw [ho.2] at hpc
      obtain ⟨-, rfl⟩ := Visitor.visiting.inj hpc
      exact hfirst
    | call fib e => exact e.elim
    | done fib entry =>
      rw [hv] at ho
      rw [ho.2] at hpc
      cases hpc

theorem even_run {r : Nat → Seqlock T w} {n : Nat} (h : Run act init r n) : ∀ i ≤ n, (r i).Even :=
  h.invariant (by rintro τ a pc ⟨⟩) fun _ _ _ hs hx => even_act hs hx

/-- On an odd counter a visit does not return. -/
theorem visit_stays {x : Action T w} (h : s.Even) (hodd : s.fib.sequence % 2 = 1)
    (hx : act s x = some s') (hpc : s.visitor τ = .visiting a pc) :
    ∃ pc', s'.visitor τ = .visiting a pc' := by
  rcases visitor_cases hx τ with ⟨hsame, -⟩ | ⟨b, -, hnot⟩ | ⟨b, pc₀, -, hσ, ho⟩
  · exact ⟨pc, by rw [hsame, hpc]⟩
  · exact absurd hpc (hnot a pc)
  · rw [hpc] at hσ
    obtain ⟨rfl, rfl⟩ := Visitor.visiting.inj hσ
    cases hv : visitStep a s.fib pc with
    | next fib pc' => rw [hv] at ho; exact ⟨pc', ho.2⟩
    | call fib e => exact e.elim
    | done fib entry =>
      exfalso
      cases pc with
      | before => simp only [visitStep] at hv; split at hv <;> cases hv
      | busy | stale => cases hv
      | walk before lpc =>
        simp only [visitStep] at hv
        cases hl : lookupStep a s.fib.trie lpc with
        | call t e => exact e.elim
        | next | done => rw [hl] at hv; cases hv
      | check before entry =>
        have heven := h τ a _ hpc before rfl
        simp only [visitStep] at hv
        split at hv
        · next hload =>
          rw [SeqlockFib.load] at hload
          omega
        · cases hv

/-- What an attempt has left beyond its own end: it is given up if the counter has moved. -/
def lag (w : Width) (before now : Nat) : Nat := if before = now then 0 else 2 * w.bits + 7

/-- The accesses a visit has left while the counter rests, at most. -/
def rank (fib : SeqlockFib w) : VisitPc → Nat
  | .before => 2 * w.bits + 6
  | .busy | .stale => 2 * w.bits + 7
  | .walk before lpc => lookupMeasure fib.trie lpc + 2 + lag w before fib.load
  | .check before _ => 1 + lag w before fib.load

omit [DecidableEq T] in
theorem rank_le (fib : SeqlockFib w) (pc : VisitPc) : rank fib pc ≤ 4 * w.bits + 12 := by
  have hlag : ∀ before, lag w before fib.load ≤ 2 * w.bits + 7 := by
    intro before
    unfold lag
    split
    · exact Nat.zero_le _
    · exact le_rfl
  cases pc with
  | walk before lpc =>
    have hle : lookupMeasure fib.trie lpc ≤ 2 * w.bits + 3 := by
      cases lpc <;> simp only [lookupMeasure] <;> omega
    have := hlag before
    simp only [rank]
    omega
  | check before entry =>
    have := hlag before
    simp only [rank]
    omega
  | before | busy | stale => simp only [rank]; omega

omit [DecidableEq T] in
/-- On an even counter every step of a visit brings it nearer to its end. -/
theorem rank_step {fib : SeqlockFib w} {priv : List Nat} (h : fib.trie.Inv priv)
    (heven : fib.sequence % 2 = 0) (a : Address w) (pc : VisitPc) :
    (visitStep a fib pc).Sat (fun fib' pc' => rank fib' pc' < rank fib pc) (fun _ _ => True) := by
  cases pc with
  | before =>
    have hload : fib.load % 2 = 0 := by
      rw [SeqlockFib.load]
      omega
    simp only [visitStep, hload, ne_eq, not_true_eq_false, if_false, Outcome.sat_next, rank, lag,
      if_true, lookupMeasure]
    omega
  | busy => exact Nat.lt_succ_self _
  | stale => exact Nat.lt_succ_self _
  | walk before lpc =>
    have hmeas : (lookupStep a fib.trie lpc).Sat _ _ := lookup_measure h
    simp only [visitStep]
    cases ho : lookupStep a fib.trie lpc with
    | next t lpc' =>
      rw [ho] at hmeas
      simp only [Outcome.sat_next, rank, SeqlockFib.load] at hmeas ⊢
      omega
    | call t e => exact e.elim
    | done t entry =>
      simp only [Outcome.sat_next, rank, SeqlockFib.load]
      omega
  | check before entry =>
    simp only [visitStep]
    split
    · trivial
    · next hne =>
      simp only [Outcome.sat_next, rank, lag, if_neg (Ne.symm hne)]
      omega

def isRead (τ : T) : Action T w → Bool
  | .read σ => σ = τ
  | _ => false

theorem isRead_iff {x : Action T w} : isRead τ x = true ↔ x = .read τ := by
  cases x <;> simp [isRead]

def accesses (s : Seqlock T w) (τ : T) : Nat :=
  match s.visitor τ with
  | .visiting _ pc => rank s.fib pc
  | _ => 0

omit [DecidableEq T] in
theorem rank_of_rest {fib' : SeqlockFib w} (hseq : fib'.sequence = s.fib.sequence)
    (htrie : fib'.trie = s.fib.trie) (pc : VisitPc) : rank fib' pc = rank s.fib pc := by
  have hload : fib'.load = s.fib.load := by rw [SeqlockFib.load, hseq, SeqlockFib.load]
  cases pc <;> simp only [rank, hload, htrie]

/-- A visit ends once the counter rests: however the threads take turns while no write section is opened
    or closed. -/
theorem visit_ends {as : List (Action T w)} (h : s.Inv) (heven : s.fib.sequence % 2 = 0)
    (hpc : s.visitor τ = .visiting a pc) (hexec : exec act s as = some s')
    (hrest : s'.fib.sequence = s.fib.sequence) (hcount : 4 * w.bits + 13 ≤ as.countP (isRead τ)) :
    ∃ as₁ as₂ s₁ entry, as = as₁ ++ as₂ ∧ exec act s as₁ = some s₁ ∧ s₁.visitor τ = .visited a entry := by
  have hfew : s.accesses τ < as.countP (isRead τ) := by
    have hle := rank_le s.fib pc
    simp only [accesses, hpc]
    omega
  -- a step that lets the counter rest either is of the visit or leaves it as near to its end as it was
  have hstep : ∀ {t : Seqlock T w} {x t'}, t.Inv → t.fib.sequence = s.fib.sequence →
      t'.fib.sequence = s.fib.sequence → act t x = some t' → ∀ {pc}, t.visitor τ = .visiting a pc →
      x ≠ .read τ ∧ t'.visitor τ = .visiting a pc ∧ t'.accesses τ = t.accesses τ ∨
        x = .read τ ∧ ((∃ pc', t'.visitor τ = .visiting a pc' ∧ t'.accesses τ < t.accesses τ) ∨
          ∃ entry, t'.visitor τ = .visited a entry) := by
    intro t x t' hinv hseq hseq' hx pc hpc
    rcases visitor_cases hx τ with ⟨hsame, hne⟩ | ⟨b, -, hnot⟩ | ⟨b, pc₀, hread, hσ, ho⟩
    · have hrest := hseq'.trans hseq.symm
      have htrie := (inv_act hinv hx).2.same (hseq ▸ heven) hrest
      refine .inl ⟨hne, hsame.trans hpc, ?_⟩
      simp only [accesses, hsame, hpc, rank_of_rest hrest htrie]
    · exact absurd hpc (hnot a pc)
    · rw [hpc] at hσ
      obtain ⟨rfl, rfl⟩ := Visitor.visiting.inj hσ
      obtain ⟨priv, htrie⟩ := hinv.trie
      have hlt := rank_step htrie (hseq ▸ heven) a pc
      refine .inr ⟨hread, ?_⟩
      cases hv : visitStep a t.fib pc with
      | next fib pc' =>
        rw [hv] at ho hlt
        obtain ⟨rfl, hpc'⟩ := ho
        refine .inl ⟨pc', hpc', ?_⟩
        simp only [accesses, hpc', hpc]
        exact hlt
      | call fib e => exact e.elim
      | done fib entry =>
        rw [hv] at ho
        exact .inr ⟨entry, ho.2⟩
  obtain ⟨as₁, x, as₂, s₁, s₂, rfl, hexec₁, ⟨hinv₁, -⟩, ⟨hseq₁, pc₁, hpc₁⟩, hown, hx, hout⟩ :=
    exec_ends_unless (P := fun t : Seqlock T w => t.Inv ∧ s.fib.sequence ≤ t.fib.sequence)
      (B := fun t => t.fib.sequence = s.fib.sequence ∧ ∃ pc, t.visitor τ = .visiting a pc)
      (X := fun t => s.fib.sequence < t.fib.sequence) (f := fun t => t.accesses τ)
      (fun t x t' ht hx => ⟨(inv_act ht.1 hx).1, ht.2.trans (inv_act ht.1 hx).2.le⟩)
      (fun t x t' ht hlt hx => lt_of_lt_of_le hlt (inv_act ht.1 hx).2.le)
      (fun t x t' ht ⟨hseq, pc, hpc⟩ ho hx ⟨hseq', pc', hpc'⟩ => by
        rcases hstep ht.1 hseq hseq' hx hpc with ⟨hne, -⟩ | ⟨-, ⟨-, -, hlt⟩ | ⟨entry, hret⟩⟩
        · exact absurd (isRead_iff.mp ho) hne
        · exact hlt
        · rw [hret] at hpc'
          cases hpc')
      (fun t x t' ht ⟨hseq, pc, hpc⟩ ho hx => by
        have hle := (inv_act ht.1 hx).2.le
        rcases lt_or_eq_of_le (hseq ▸ hle) with hlt | heq
        · exact .inl hlt
        · rcases hstep ht.1 hseq heq.symm hx hpc with ⟨-, hpc', hsame⟩ | ⟨hread, -⟩
          · exact .inr ⟨⟨heq.symm, pc, hpc'⟩, hsame.le⟩
          · rw [isRead_iff.mpr hread] at ho
            cases ho)
      ⟨h, le_rfl⟩ ⟨rfl, pc, hpc⟩ hexec (by rw [hrest]; exact lt_irrefl _) hfew
  obtain rfl := isRead_iff.mp hown
  have hseq₂ := (sequence_read hx).trans hseq₁
  rcases hstep hinv₁ hseq₁ hseq₂ hx hpc₁ with ⟨hne, -⟩ | ⟨-, ⟨pc', hpc', -⟩ | ⟨entry, hret⟩⟩
  · exact absurd rfl hne
  · exact absurd ⟨hseq₂, pc', hpc'⟩ hout
  · refine ⟨as₁ ++ [.read τ], as₂, s₂, entry, by simp, ?_, hret⟩
    rw [exec_snoc, hexec₁]
    exact hx

/-! ### Attempts -/

/-- The step begins a walk. -/
def begins : Visitor w → Visitor w → Bool
  | .visiting _ .before, .visiting _ (.walk _ _) => true
  | _, _ => false

/-- The walks that a visitor has begun from `i₀` to `i`. -/
def attempts (r : Nat → Seqlock T w) (τ : T) (i₀ i : Nat) : Nat :=
  (List.range' i₀ (i - i₀)).countP fun j => begins ((r j).visitor τ) ((r (j + 1)).visitor τ)

section runs
variable {r : Nat → Seqlock T w} {n i i₀ : Nat} {entry : Option (Box FibEntry)}

omit [DecidableEq T] in
theorem attempts_succ (h : i₀ ≤ i) : attempts r τ i₀ (i + 1) =
    attempts r τ i₀ i + if begins ((r i).visitor τ) ((r (i + 1)).visitor τ) then 1 else 0 := by
  have hlast : i₀ + (i - i₀) = i := by omega
  rw [attempts, Nat.succ_sub h, List.range'_1_concat, List.countP_append, hlast, attempts]
  simp [List.countP_cons]

/-- Each attempt has had an even counter value of its own. -/
def Budget (k floor now : Nat) : Visitor w → Prop
  | .idle => False
  | .visiting _ (.walk before _) | .visiting _ (.check before _) =>
    ∃ q ≤ now, q % 2 ^ 64 = before ∧ 2 * k + floor ≤ q + 2
  | .visiting _ _ => 2 * k + floor ≤ now + 1
  | .visited _ _ => 2 * k + floor ≤ now + 2

omit [DecidableEq T] in
theorem Budget.later {k floor now now' : Nat} {v : Visitor w} (h : Budget k floor now v)
    (hle : now ≤ now') : Budget k floor now' v := by
  cases v with
  | idle => exact h
  | visiting b pc =>
    cases pc with
    | walk | check =>
      obtain ⟨q, hq, hrest⟩ := h
      exact ⟨q, hq.trans hle, hrest⟩
    | before | busy | stale => exact Nat.le_trans h (Nat.add_le_add_right hle 1)
  | visited => exact Nat.le_trans h (Nat.add_le_add_right hle 2)

omit [DecidableEq T] in
theorem budget_step {fib : SeqlockFib w} {k floor : Nat} (heven : floor % 2 = 0)
    (h : Budget k floor fib.sequence (.visiting a pc)) : (visitStep a fib pc).Sat
      (fun _ pc' => Budget (k + if begins (.visiting a pc) (.visiting a pc') then 1 else 0) floor
        fib.sequence (.visiting a pc'))
      (fun _ entry => Budget k floor fib.sequence (.visited a entry)) := by
  cases pc with
  | before =>
    have h : 2 * k + floor ≤ fib.sequence + 1 := h
    simp only [visitStep]
    split
    · exact h
    · next hload =>
      rw [SeqlockFib.load] at hload
      refine ⟨fib.sequence, le_rfl, rfl, ?_⟩
      simp only [begins, if_true]
      omega
  | busy => exact h
  | stale => exact h
  | walk before lpc =>
    simp only [visitStep]
    cases lookupStep a fib.trie lpc with
    | next => exact h
    | call t e => exact e.elim
    | done => exact h
  | check before entry =>
    obtain ⟨q, hq, rfl, hle⟩ := h
    simp only [visitStep]
    split
    · exact hle.trans (Nat.add_le_add_right hq 2)
    · next hne =>
      -- the counter has moved since the attempt began
      have hlt : q < fib.sequence := lt_of_le_of_ne hq fun he => hne (by rw [SeqlockFib.load, he])
      have hmore : 2 * k + floor ≤ fib.sequence + 1 := by omega
      exact hmore

theorem budget_run (h : Run act init r n) (hstart : (r i₀).visitor τ = .visiting a .before)
    (hduring : ∀ i, i₀ ≤ i → i < n → ∃ pc, (r i).visitor τ = .visiting a pc) : ∀ i, i₀ ≤ i → i ≤ n →
    Budget (attempts r τ i₀ i) ((r i₀).fib.sequence + (r i₀).fib.sequence % 2) (r i).fib.sequence
      ((r i).visitor τ) := by
  refine h.along (Q := fun i s => Budget (attempts r τ i₀ i)
    ((r i₀).fib.sequence + (r i₀).fib.sequence % 2) s.fib.sequence (s.visitor τ)) ?_ ?_
  · rw [hstart, attempts, Nat.sub_self]
    simp only [List.range'_zero, List.countP_nil, Budget]
    omega
  · intro i x h₀ hi hQ hx
    obtain ⟨pc, hpc⟩ := hduring i h₀ hi
    have hle := (inv_act (inv_run h i hi.le) hx).2.le
    rw [attempts_succ h₀]
    rcases visitor_cases hx τ with ⟨hsame, -⟩ | ⟨b, -, hnot⟩ | ⟨b, pc₀, -, hσ, ho⟩
    · have hnone : begins ((r i).visitor τ) ((r i).visitor τ) = false := by
        rw [hpc]
        cases pc <;> rfl
      rw [hsame, hnone]
      exact hQ.later hle
    · exact absurd hpc (hnot a pc)
    · rw [hpc] at hσ hQ
      obtain ⟨rfl, rfl⟩ := Visitor.visiting.inj hσ
      have hstep := budget_step (by omega) hQ
      cases hv : visitStep a (r i).fib pc with
      | next fib pc' =>
        rw [hv] at ho hstep
        rw [ho.2, hpc]
        exact hstep.later hle
      | call fib e => exact e.elim
      | done fib entry =>
        rw [hv] at ho hstep
        have hnone : begins (.visiting a pc) (.visited a entry) = false := by cases pc <;> rfl
        rw [Outcome.sat_done] at hstep
        rw [ho.2, hpc, hnone]
        exact hstep.later hle

omit [DecidableEq T] in
theorem Budget.le {k floor now : Nat} : {v : Visitor w} → Budget k floor now v →
    2 * k + floor ≤ now + 2
  | .idle, h => h.elim
  | .visiting _ (.walk _ _), ⟨_, hq, _, hle⟩ => hle.trans (Nat.add_le_add_right hq 2)
  | .visiting _ (.check _ _), ⟨_, hq, _, hle⟩ => hle.trans (Nat.add_le_add_right hq 2)
  | .visiting _ .before, h => Nat.le_succ_of_le h
  | .visiting _ .busy, h => Nat.le_succ_of_le h
  | .visiting _ .stale, h => Nat.le_succ_of_le h
  | .visited _ _, h => h

/-- A visit walks the trie once, and once more at most for each write section that gets in its way,
    whether it has returned at `n` or is still under way. -/
theorem attempts_bounded (h : Run act init r n) (hle : i₀ ≤ n)
    (hstart : (r i₀).visitor τ = .visiting a .before)
    (hduring : ∀ i, i₀ ≤ i → i < n → ∃ pc, (r i).visitor τ = .visiting a pc) :
    attempts r τ i₀ n ≤ ((r n).fib.sequence - (r i₀).fib.sequence) / 2 + 1 := by
  have hfin := (budget_run h hstart hduring n hle le_rfl).le
  omega

theorem attempts_bounded_interrupted :
    (attempts (play act init interrupted) () 1 20 ≤ ((play act init interrupted 20).fib.sequence -
      (play act init interrupted 1).fib.sequence) / 2 + 1) ∧
    attempts (play act init interrupted) () 1 29 ≤ ((play act init interrupted 29).fib.sequence -
      (play act init interrupted 1).fib.sequence) / 2 + 1 := by
  have hduring : ∀ i, 1 ≤ i → i < 29 →
      ∃ pc, (play act init interrupted i).visitor () = .visiting (.fromV4 10) pc := by
    intro i h₀ hi
    interval_cases i <;> exact ⟨_, rfl⟩
  have hrun : Run act init (play act init interrupted) 29 := run_play (by rfl)
  constructor
  · exact attempts_bounded (hrun.take (by decide)) (by decide) (by rfl)
      fun i h₀ hi => hduring i h₀ (Nat.lt_trans hi (by decide))
  · exact attempts_bounded hrun (by decide) (by rfl) hduring

/-- A visit of `seqlock_fib` waits for writers, and for nothing else. While a write section is open it
    does not return; and while none is opened or closed it has returned after so many accesses of its
    own. -/
theorem visit_waits_for_writers (h : Run act init r n) (τ : T) (a : Address w) :
    (∀ i j, i ≤ j → j ≤ n →
      (∀ k, i ≤ k → k < j → ((r k).writer.any fun x => x.2.isOpen) = true) →
      (∃ pc, (r i).visitor τ = .visiting a pc) → ∃ pc, (r j).visitor τ = .visiting a pc) ∧
    ∀ i ≤ n, ((r i).writer.any fun x => x.2.isOpen) = false →
      (∃ pc, (r i).visitor τ = .visiting a pc) → ∀ as,
      (exec act (r i) as).map (fun s => s.fib.sequence) = some (r i).fib.sequence →
      4 * w.bits + 13 ≤ as.countP (isRead τ) →
      ∃ as₁ as₂ s₁ entry, as = as₁ ++ as₂ ∧ exec act (r i) as₁ = some s₁ ∧
        s₁.visitor τ = .visited a entry := by
  have hparity : ∀ i ≤ n, (r i).fib.sequence % 2 =
      if (r i).writer.any (fun x => x.2.isOpen) then 1 else 0 :=
    fun i hi => SectionInv.parity (inv_run h i hi)
  constructor
  · intro i j hij hj hopen hstart
    refine h.along (Q := fun k s => k ≤ j → ∃ pc, s.visitor τ = .visiting a pc) (fun _ => hstart)
      ?_ j hij hj le_rfl
    intro k x hik hk hQ hx hkj
    obtain ⟨pc, hpc⟩ := hQ (Nat.le_of_succ_le hkj)
    have hodd := hparity k hk.le
    rw [hopen k hik hkj, if_pos rfl] at hodd
    exact visit_stays (even_run h k hk.le) hodd hx hpc
  · rintro i hi hclosed ⟨pc, hpc⟩ as hexec hcount
    obtain ⟨s', hexec, hrest⟩ := Option.map_eq_some_iff.mp hexec
    have heven := hparity i hi
    rw [hclosed, if_neg Bool.false_ne_true] at heven
    exact visit_ends (inv_run h i hi) heven hpc hexec hrest hcount

set_option maxRecDepth 8000 in
theorem visit_waits_for_writers_interrupted :
    (∃ pc, (play act init interrupted 23).visitor () = .visiting (.fromV4 10) pc) ∧
    ∃ as₁ as₂ s₁ entry, List.replicate 5 (.read ()) ++
        (List.replicate 28 (.visit () (.fromV4 10) :: List.replicate 5 (.read ()))).flatten = as₁ ++ as₂ ∧
      exec act (play act init interrupted 23) as₁ = some s₁ ∧
      s₁.visitor () = .visited (.fromV4 10) entry := by
  have hrun : Run act init (play act init interrupted) interrupted.length := run_play (by rfl)
  obtain ⟨hwait, hend⟩ := visit_waits_for_writers hrun () (.fromV4 10)
  constructor
  · refine hwait 4 23 (by decide) (by decide) ?_ ⟨_, rfl⟩
    intro k hk hlt
    interval_cases k <;> rfl
  · exact hend 23 (by decide) (by rfl) ⟨_, rfl⟩ _ (by rfl) (by decide)

end runs

end Seqlock

end RcuFib
