import RcuFib.Fib.Route
import RcuFib.Trie.Lookup
import RcuFib.Epoch.Log

/-! `rcu_fib` (`include/rcufib/fib.hpp`): the trie and its epoch domain together, one atomic access at
    a time, with any number of readers and writers.

    A `read_guard` is opened and closed by calls of the domain, so that guards may nest, as they do
    where `visit` is called under a guard of the caller's own; between the two a thread may look up,
    and what it was handed stays in its hands until the outermost guard is closed. A writer's `retire`
    is a call of the domain in the middle of `insert` or `erase`, with all its steps. -/

namespace RcuFib
open SearchGraph Routine Trace RadixTrie

variable {T : Type*} {w : Width}

/-- Where a call of `insert`, `erase` or `apply` is, from the lock of `writer_mutex_` on. -/
inductive CallPc (w : Width) where
  | update (pc : WriterPc w FibEntry) (rest : List (Update w FibEntry)) (applied : Nat)
  /-- `reclaimer_.retire` has not returned -/
  | retire (pc : WriterPc w FibEntry) (rest : List (Update w FibEntry)) (applied : Nat)
  /-- the end of `writer` -/
  | unlock (applied : Nat)

namespace CallPc

/-- The loop of `apply` goes on to the next update. -/
def proceed : List (Update w FibEntry) → Nat → CallPc w
  | [], applied => .unlock applied
  | u :: rest, applied => .update u.start rest applied

/-- `retire` returns. -/
def resume : CallPc w → CallPc w
  | retire pc rest applied => .update pc rest applied
  | pc => pc

/-- The update under way. -/
def current : CallPc w → Option (WriterPc w FibEntry)
  | update pc _ _ | retire pc _ _ => some pc
  | unlock _ => none

@[simp] theorem current_resume (pc : CallPc w) : pc.resume.current = pc.current := by cases pc <;> rfl

end CallPc

inductive Client (w : Width) where
  | idle
  /-- in a call of the domain: a `read_guard`, `reclaim`, `synchronize`, the end of the thread -/
  | domain
  /-- `trie_.lookup(address)` -/
  | walking (a : Address w) (pc : LookupPc FibEntry)
  /-- at the lock of `writer_mutex_` -/
  | locking (c : FibCall w)
  | writing

namespace Client

/-- The call of the domain returns. -/
def resume : Client w → Client w
  | domain => .idle
  | c => c

/-- The lookup under way. -/
def walk : Client w → Option (LookupPc FibEntry)
  | walking _ pc => some pc
  | _ => none

@[simp] theorem walk_resume (c : Client w) : c.resume.walk = c.walk := by cases c <;> rfl

end Client

structure Rcu (T : Type*) (w : Width) where
  epoch : EpochSystem T (Retired FibEntry)
  trie : RadixTrie w FibEntry
  /-- The thread that holds `writer_mutex_`, and where its call is. -/
  writer : Option (T × CallPc w)
  client : T → Client w
  /-- The entries each thread has been handed under the guards it has open. -/
  hand : T → List (Box FibEntry)
  /-- The threads that have retired memory. Ghost. -/
  retirer : T → Bool

namespace Rcu

inductive Action (T : Type*) (w : Width) where
  /-- a call of the domain: the two ends of a `read_guard`, `reclaim`, `synchronize`, the thread's end -/
  | domain (τ : T) (c : Call (Retired FibEntry))
  /-- the next step of a call of the domain -/
  | step (τ : T) (weak : Bool)
  | lookup (τ : T) (a : Address w)
  | read (τ : T)
  | call (τ : T) (c : FibCall w)
  | lock (τ : T)
  | write

def init : Rcu T w := ⟨.init, .empty, none, fun _ => .idle, fun _ => [], fun _ => false⟩

/-- The update that the writer is at. -/
def update (s : Rcu T w) : Option (WriterPc w FibEntry) := s.writer.bind fun x => x.2.current

/-- The domain moves. No pointer outlives the outermost guard it was loaded under. -/
def moved (s : Rcu T w) (e : EpochSystem T (Retired FibEntry)) : Rcu T w :=
  { s with epoch := e, hand := fun τ => if (e.dom.guards τ).isEmpty then [] else s.hand τ }

variable [DecidableEq T]

def setClient (s : Rcu T w) (τ : T) (c : Client w) : Rcu T w :=
  { s with client := Function.update s.client τ c }

/-- If the call of the domain has returned, its caller goes on. -/
def settle (s : Rcu T w) (τ : T) : Rcu T w :=
  if (s.epoch.pc τ).isSome then s
  else { s.setClient τ (s.client τ).resume with
    writer := s.writer.map fun x => if x.1 = τ then (x.1, x.2.resume) else x }

def act (s : Rcu T w) : Action T w → Option (Rcu T w)
  | .domain τ c =>
    match s.client τ with
    | .idle =>
      match c with
      | .retire _ => none
      | c => (EpochSystem.act s.epoch (.call τ c)).map fun e =>
          ((s.moved e).setClient τ .domain).settle τ
    | _ => none
  | .step τ weak =>
    (EpochSystem.act s.epoch (.step τ weak)).map fun e => (s.moved e).settle τ
  | .lookup τ a =>
    match s.client τ with
    | .idle =>
      if (s.epoch.dom.guards τ).isEmpty then none else some (s.setClient τ (.walking a .root))
    | _ => none
  | .read τ =>
    match s.client τ with
    | .walking a pc =>
      match lookupStep a s.trie pc with
      | .next t pc' => some ({ s with trie := t }.setClient τ (.walking a pc'))
      | .done t entry =>
        some ({ s with
          trie := t, hand := Function.update s.hand τ (entry.toList ++ s.hand τ) }.setClient τ .idle)
    | _ => none
  | .call τ c =>
    match s.client τ with
    | .idle => some (s.setClient τ (.locking c))
    | _ => none
  | .lock τ =>
    match s.client τ, s.writer with
    | .locking c, none =>
      some { s.setClient τ .writing with writer := some (τ, .proceed c.updates 0) }
    | _, _ => none
  | .write =>
    match s.writer with
    | none => none
    | some (_, .retire _ _ _) => none
    | some (τ, .update pc rest applied) =>
      match writerStep s.trie pc with
      | .next t pc' => some { s with trie := t, writer := some (τ, .update pc' rest applied) }
      | .call t x pc' =>
        (EpochSystem.act s.epoch (.call τ (.retire (some x)))).map fun e =>
          { s.moved e with
            trie := t
            writer := some (τ, .retire pc' rest applied)
            retirer := Function.update s.retirer τ true }
      | .done t r => some { s with trie := t, writer := some (τ, .proceed rest (applied + r.toNat)) }
    | some (τ, .unlock _) => some { s.setClient τ .idle with writer := none }

/-- What an action does. -/
inductive Move (s : Rcu T w) : Action T w → Rcu T w → Prop
  | domain {τ c e} : s.client τ = .idle → (∀ p, c ≠ .retire p) →
      EpochSystem.act s.epoch (.call τ c) = some e →
      Move s (.domain τ c) (((s.moved e).setClient τ .domain).settle τ)
  | step {τ weak e} : EpochSystem.act s.epoch (.step τ weak) = some e →
      Move s (.step τ weak) ((s.moved e).settle τ)
  | lookup {τ a} : s.client τ = .idle → s.epoch.dom.guards τ ≠ [] →
      Move s (.lookup τ a) (s.setClient τ (.walking a .root))
  | read {τ a lpc t lpc'} : s.client τ = .walking a lpc → lookupStep a s.trie lpc = .next t lpc' →
      Move s (.read τ) ({ s with trie := t }.setClient τ (.walking a lpc'))
  | found {τ a lpc t entry} : s.client τ = .walking a lpc → lookupStep a s.trie lpc = .done t entry →
      Move s (.read τ) ({ s with
        trie := t, hand := Function.update s.hand τ (entry.toList ++ s.hand τ) }.setClient τ .idle)
  | call {τ c} : s.client τ = .idle → Move s (.call τ c) (s.setClient τ (.locking c))
  | lock {τ c} : s.client τ = .locking c → s.writer = none →
      Move s (.lock τ) { s.setClient τ .writing with writer := some (τ, .proceed c.updates 0) }
  | write {τ pc rest applied t pc'} : s.writer = some (τ, .update pc rest applied) →
      writerStep s.trie pc = .next t pc' →
      Move s .write { s with trie := t, writer := some (τ, .update pc' rest applied) }
  | retire {τ pc rest applied t x pc' e} : s.writer = some (τ, .update pc rest applied) →
      writerStep s.trie pc = .call t x pc' →
      EpochSystem.act s.epoch (.call τ (.retire (some x))) = some e →
      Move s .write { s.moved e with
        trie := t
        writer := some (τ, .retire pc' rest applied)
        retirer := Function.update s.retirer τ true }
  | updated {τ pc rest applied t r} : s.writer = some (τ, .update pc rest applied) →
      writerStep s.trie pc = .done t r →
      Move s .write { s with trie := t, writer := some (τ, .proceed rest (applied + r.toNat)) }
  | unlock {τ applied} : s.writer = some (τ, .unlock applied) →
      Move s .write { s.setClient τ .idle with writer := none }

theorem move_of_act {s s' : Rcu T w} {a : Action T w} (ha : s.act a = some s') : s.Move a s' := by
  cases a with
  | domain τ c =>
    simp only [act] at ha
    split at ha
    · next hc =>
      split at ha
      · cases ha
      · next hretire =>
        obtain ⟨e, he, rfl⟩ := Option.map_eq_some_iff.mp ha
        exact .domain hc (fun p hp => hretire p hp) he
    · cases ha
  | step τ weak =>
    obtain ⟨e, he, rfl⟩ := Option.map_eq_some_iff.mp ha
    exact .step he
  | lookup τ a =>
    simp only [act] at ha
    split at ha
    · next hc =>
      split at ha
      · cases ha
      · next hopen =>
        obtain rfl := Option.some.inj ha
        exact .lookup hc fun hnil => hopen (by rw [hnil]; rfl)
    · cases ha
  | read τ =>
    simp only [act] at ha
    split at ha
    · next a lpc hc =>
      split at ha
      · next t lpc' ho =>
        obtain rfl := Option.some.inj ha
        exact .read hc ho
      · next t entry ho =>
        obtain rfl := Option.some.inj ha
        exact .found hc ho
    · cases ha
  | call τ c =>
    simp only [act] at ha
    split at ha
    · next hc =>
      obtain rfl := Option.some.inj ha
      exact .call hc
    · cases ha
  | lock τ =>
    simp only [act] at ha
    split at ha
    · next c hc hw =>
      obtain rfl := Option.some.inj ha
      exact .lock hc hw
    · cases ha
  | write =>
    simp only [act] at ha
    split at ha
    · cases ha
    · cases ha
    · next τ pc rest applied hw =>
      split at ha
      · next t pc' ho =>
        obtain rfl := Option.some.inj ha
        exact .write hw ho
      · next t x pc' ho =>
        obtain ⟨e, he, rfl⟩ := Option.map_eq_some_iff.mp ha
        exact .retire hw ho he
      · next t r ho =>
        obtain rfl := Option.some.inj ha
        exact .updated hw ho
    · next τ applied hw =>
      obtain rfl := Option.some.inj ha
      exact .unlock hw

variable {s s' : Rcu T w} {e e' : EpochSystem T (Retired FibEntry)} {τ : T}

/-! ### Where a thread can be -/

/-- The position of the call a thread has the mutex for. -/
def position (s : Rcu T w) (τ : T) : Option (CallPc w) :=
  s.writer.bind fun x => if x.1 = τ then some x.2 else none

/-- What a thread is doing, its call under the mutex and its call of the domain fit together. -/
inductive Placed : Client w → Option (CallPc w) → Option (Pc (Retired FibEntry)) → Prop
  | idle : Placed .idle none none
  | domain (dpc) : Placed .domain none (some dpc)
  | walking (a lpc) : Placed (.walking a lpc) none none
  | locking (c) : Placed (.locking c) none none
  | updating (pc rest applied) : Placed .writing (some (.update pc rest applied)) none
  | retiring (pc rest applied dpc) : Placed .writing (some (.retire pc rest applied)) (some dpc)
  | unlocking (applied) : Placed .writing (some (.unlock applied)) none

def AllPlaced (s : Rcu T w) : Prop := ∀ τ, Placed (s.client τ) (s.position τ) (s.epoch.pc τ)

theorem placed_init : (init : Rcu T w).AllPlaced := fun _ => .idle

theorem position_eq {pc : CallPc w} : s.position τ = some pc ↔ s.writer = some (τ, pc) := by
  cases hw : s.writer with
  | none => simp [position, hw]
  | some x =>
    obtain ⟨σ, pc'⟩ := x
    by_cases hσ : σ = τ <;> simp [position, hw, hσ]

/-- Only the thread that moves changes its place. -/
theorem AllPlaced.after (h : s.AllPlaced) (hτ : Placed (s'.client τ) (s'.position τ) (s'.epoch.pc τ))
    (hclient : ∀ σ, σ ≠ τ → s'.client σ = s.client σ)
    (hposition : ∀ σ, σ ≠ τ → s'.position σ = s.position σ)
    (hpc : ∀ σ, σ ≠ τ → s'.epoch.pc σ = s.epoch.pc σ) : s'.AllPlaced := by
  intro σ
  rcases eq_or_ne σ τ with rfl | hne
  · exact hτ
  · rw [hclient σ hne, hposition σ hne, hpc σ hne]
    exact h σ

theorem position_other {cpc : CallPc w} {σ : T} (hw : s.writer = some (τ, cpc)) (hne : σ ≠ τ) :
    s.position σ = none := by
  simp [position, hw, hne.symm]

/-- A step of the thread that holds the mutex afterwards. -/
theorem AllPlaced.holder {cpc : CallPc w} (h : s.AllPlaced) (hw : s'.writer = some (τ, cpc))
    (hbefore : s.writer = none ∨ ∃ cpc₀, s.writer = some (τ, cpc₀))
    (hτ : Placed (s'.client τ) (some cpc) (s'.epoch.pc τ))
    (hclient : ∀ σ, σ ≠ τ → s'.client σ = s.client σ)
    (hpc : ∀ σ, σ ≠ τ → s'.epoch.pc σ = s.epoch.pc σ) : s'.AllPlaced := by
  refine h.after (position_eq.mpr hw ▸ hτ) hclient ?_ hpc
  intro σ hne
  rw [position_other hw hne]
  rcases hbefore with hnone | ⟨cpc₀, hsome⟩
  · simp [position, hnone]
  · rw [position_other hsome hne]

theorem AllPlaced.setClient (h : s.AllPlaced) {c : Client w}
    (hτ : Placed c (s.position τ) (s.epoch.pc τ)) : (s.setClient τ c).AllPlaced := by
  refine h.after (τ := τ) ?_ ?_ (fun _ _ => rfl) fun _ _ => rfl
  · simp only [Rcu.setClient, Function.update_self]
    exact hτ
  · intro σ hne
    simp only [Rcu.setClient, Function.update_of_ne hne]

/-- The thread that has called the domain goes on with its call, or the call returns to it. -/
theorem placed_settle (hother : ∀ σ, σ ≠ τ → Placed (s.client σ) (s.position σ) (s.epoch.pc σ))
    (hτ : s.client τ = .domain ∧ s.position τ = none ∨
      s.client τ = .writing ∧ ∃ pc rest applied, s.position τ = some (.retire pc rest applied)) :
    (s.settle τ).AllPlaced := by
  intro σ
  cases hd : s.epoch.pc τ with
  | some dpc =>
    have hsame : s.settle τ = s := if_pos (by rw [hd]; rfl)
    rw [hsame]
    rcases eq_or_ne σ τ with rfl | hne
    · rw [hd]
      rcases hτ with ⟨hc, hp⟩ | ⟨hc, pc, rest, applied, hp⟩
      · rw [hc, hp]
        exact .domain dpc
      · rw [hc, hp]
        exact .retiring pc rest applied dpc
    · exact hother σ hne
  | none =>
    have hreturn : s.settle τ = { s.setClient τ (s.client τ).resume with
        writer := s.writer.map fun x => if x.1 = τ then (x.1, x.2.resume) else x } :=
      if_neg (by rw [hd]; exact Bool.false_ne_true)
    rw [hreturn]
    have hposition : Option.bind (s.writer.map fun x => if x.1 = τ then (x.1, x.2.resume) else x)
        (fun x => if x.1 = σ then some x.2 else none) =
        if σ = τ then (s.position σ).map CallPc.resume else s.position σ := by
      cases hw : s.writer with
      | none => simp [position, hw]
      | some x =>
        obtain ⟨σ', pc'⟩ := x
        by_cases h₁ : σ' = τ <;> by_cases h₂ : σ' = σ <;> simp_all [position]
    rcases eq_or_ne σ τ with rfl | hne
    · rw [if_pos rfl] at hposition
      simp only [position, Rcu.setClient, Function.update_self, hd] at hposition ⊢
      rw [hposition]
      rcases hτ with ⟨hc, hp⟩ | ⟨hc, pc, rest, applied, hp⟩
      · rw [← position, hc, hp]
        exact .idle
      · rw [← position, hc, hp]
        exact .updating pc rest applied
    · rw [if_neg hne] at hposition
      simp only [position, Rcu.setClient, Function.update_of_ne hne] at hposition ⊢
      rw [hposition]
      exact hother σ hne

/-- An action of the domain is its thread's. -/
theorem pc_act {x : EpochSystem.Action T (Retired FibEntry)}
    (ha : EpochSystem.act e x = some e')
    (hx : (∃ c, x = .call τ c) ∨ ∃ weak, x = .step τ weak) : ∀ σ, σ ≠ τ → e'.pc σ = e.pc σ := by
  intro σ hne
  obtain ⟨τ', y, rfl, ⟨c, rfl, -, -⟩ | ⟨weak, pc, rfl, -, -⟩⟩ := EpochSystem.act_cases ha
  · rcases hx with ⟨c', hx⟩ | ⟨weak, hx⟩
    · cases hx
      exact Function.update_of_ne hne ..
    · cases hx
  · rcases hx with ⟨c', hx⟩ | ⟨weak', hx⟩
    · cases hx
    · cases hx
      exact Function.update_of_ne hne ..

/-- Where the thread that holds the mutex is, outside the domain. -/
theorem AllPlaced.of_update {pc : WriterPc w FibEntry} {rest applied} (h : s.AllPlaced)
    (hw : s.writer = some (τ, .update pc rest applied)) :
    s.client τ = .writing ∧ s.epoch.pc τ = none := by
  have hplace := h τ
  rw [position_eq.mpr hw] at hplace
  generalize s.client τ = c, s.epoch.pc τ = dpc at hplace
  cases hplace
  exact ⟨rfl, rfl⟩

theorem AllPlaced.of_unlock {applied} (h : s.AllPlaced) (hw : s.writer = some (τ, .unlock applied)) :
    s.client τ = .writing ∧ s.epoch.pc τ = none := by
  have hplace := h τ
  rw [position_eq.mpr hw] at hplace
  generalize s.client τ = c, s.epoch.pc τ = dpc at hplace
  cases hplace
  exact ⟨rfl, rfl⟩

theorem placed_proceed (updates : List (Update w FibEntry)) (applied : Nat) :
    Placed .writing (some (.proceed updates applied)) none := by
  cases updates with
  | nil => exact .unlocking applied
  | cons u rest => exact .updating u.start rest applied

theorem placed_act (h : s.AllPlaced) {a : Action T w} (ha : s.act a = some s') : s'.AllPlaced := by
  -- a thread that neither writes nor is in the domain has no position in either
  have hfree : ∀ {τ c}, s.client τ = c → c ≠ .writing → c ≠ .domain →
      s.position τ = none ∧ s.epoch.pc τ = none := by
    rintro τ c rfl hwriting hdomain
    have hplace := h τ
    generalize s.client τ = c, s.position τ = p, s.epoch.pc τ = dpc at *
    cases hplace with
    | idle | walking | locking => exact ⟨rfl, rfl⟩
    | domain => exact absurd rfl hdomain
    | updating | retiring | unlocking => exact absurd rfl hwriting
  cases move_of_act ha with
  | @domain τ c e hc _ he =>
    refine placed_settle ?_ (.inl ⟨Function.update_self .., (hfree hc nofun nofun).1⟩)
    intro σ hne
    simp only [Rcu.setClient, moved, Function.update_of_ne hne, pc_act he (.inl ⟨_, rfl⟩) σ hne]
    exact h σ
  | @step τ weak e he =>
    refine placed_settle ?_ ?_
    · intro σ hne
      simp only [moved, pc_act he (.inr ⟨_, rfl⟩) σ hne]
      exact h σ
    · obtain ⟨dpc, hd, -⟩ := Option.map_eq_some_iff.mp he
      have hplace := h τ
      rw [hd] at hplace
      generalize hc : s.client τ = c, hp : s.position τ = p at hplace
      cases hplace with
      | domain => exact .inl ⟨hc, hp⟩
      | retiring pc rest applied => exact .inr ⟨hc, pc, rest, applied, hp⟩
  | @lookup τ a hc _ =>
    obtain ⟨hp, hd⟩ := hfree hc nofun nofun
    exact h.setClient (by rw [hp, hd]; exact .walking a .root)
  | @read τ a lpc t lpc' hc _ =>
    obtain ⟨hp, hd⟩ := hfree hc nofun nofun
    have hset : (s.setClient τ (.walking a lpc')).AllPlaced :=
      h.setClient (by rw [hp, hd]; exact .walking a lpc')
    exact hset
  | @found τ a lpc t entry hc _ =>
    obtain ⟨hp, hd⟩ := hfree hc nofun nofun
    have hset : (s.setClient τ .idle).AllPlaced := h.setClient (by rw [hp, hd]; exact .idle)
    exact hset
  | @call τ c hc =>
    obtain ⟨hp, hd⟩ := hfree hc nofun nofun
    exact h.setClient (by rw [hp, hd]; exact .locking c)
  | @lock τ c hc hw =>
    obtain ⟨-, hd⟩ := hfree hc nofun nofun
    refine h.holder rfl (.inl hw) ?_ ?_ fun _ _ => rfl
    · simp only [Rcu.setClient, Function.update_self, hd]
      exact placed_proceed c.updates 0
    · intro σ hne
      simp only [Rcu.setClient, Function.update_of_ne hne]
  | @write τ pc rest applied t pc' hw _ =>
    obtain ⟨hc, hd⟩ := h.of_update hw
    refine h.holder rfl (.inr ⟨_, hw⟩) ?_ (fun _ _ => rfl) fun _ _ => rfl
    simp only [hc, hd]
    exact .updating pc' rest applied
  | @retire τ pc rest applied t x pc' e hw _ he =>
    obtain ⟨hc, hd⟩ := h.of_update hw
    refine h.holder rfl (.inr ⟨_, hw⟩) ?_ (fun _ _ => rfl) (pc_act he (.inl ⟨_, rfl⟩))
    -- the call of the domain is under way
    simp only [EpochSystem.act, hd] at he
    obtain ⟨y, hy, rfl⟩ := Option.map_eq_some_iff.mp he
    cases hy
    simp only [moved, hc, Function.update_self]
    exact .retiring pc' rest applied _
  | @updated τ pc rest applied t r hw _ =>
    obtain ⟨hc, hd⟩ := h.of_update hw
    refine h.holder rfl (.inr ⟨_, hw⟩) ?_ (fun _ _ => rfl) fun _ _ => rfl
    simp only [hc, hd]
    exact placed_proceed rest _
  | @unlock τ applied hw =>
    refine h.after (τ := τ) ?_ ?_ (fun σ hne => (position_other hw hne).symm) fun _ _ => rfl
    · simp only [Rcu.setClient, Function.update_self, (h.of_unlock hw).2]
      exact .idle
    · intro σ hne
      simp only [Rcu.setClient, Function.update_of_ne hne]

section run
variable {r : Nat → Rcu T w} {n : Nat}

theorem placed_run (h : Run act init r n) : ∀ i ≤ n, (r i).AllPlaced :=
  h.invariant placed_init fun _ _ _ hs ha => placed_act hs ha

/-- No thread is held up by another, save a writer at the lock. -/
theorem goes_on (h : Run act init r n) {i : Nat} (hi : i ≤ n) (τ : T) :
    ((r i).client τ = .domain → ∀ weak, ((r i).act (.step τ weak)).isSome) ∧
    (∀ a lpc, (r i).client τ = .walking a lpc → ((r i).act (.read τ)).isSome) ∧
    ((r i).client τ = .writing →
      ((r i).act .write).isSome ∨ ∀ weak, ((r i).act (.step τ weak)).isSome) ∧
    (∀ c, (r i).client τ = .locking c → (r i).writer = none → ((r i).act (.lock τ)).isSome) := by
  have hplace := placed_run h i hi τ
  have hstep : ∀ dpc, (r i).epoch.pc τ = some dpc → ∀ weak, ((r i).act (.step τ weak)).isSome := by
    intro dpc hd weak
    simp [act, EpochSystem.act, hd]
  generalize hc : (r i).client τ = c, hp : (r i).position τ = p, hd : (r i).epoch.pc τ = dpc at hplace
  refine ⟨?_, ?_, ?_, ?_⟩
  · rintro rfl weak
    cases hplace with
    | domain dpc => exact hstep dpc hd weak
  · rintro a lpc rfl
    simp only [act, hc]
    cases lookupStep a (r i).trie lpc with
    | next => rfl
    | call t x => exact x.elim
    | done => rfl
  · rintro rfl
    cases hplace with
    | updating pc rest applied =>
      left
      simp only [act, position_eq.mp hp]
      cases writerStep (r i).trie pc with
      | next => rfl
      | call => simp [EpochSystem.act, hd, EpochDomain.call]
      | done => rfl
    | retiring pc rest applied dpc => exact .inr (hstep dpc hd)
    | unlocking applied =>
      left
      simp only [act, position_eq.mp hp]
      rfl
  · rintro c rfl hw
    simp only [act, hc, hw]
    rfl

end run

end Rcu

end RcuFib
