import RcuFib.Fib.Variants

/-! An `apply` that throws.

    Memory may run out at a `new` of `insert`, and where `insert` or `erase` hands to the reclaimer what
    it has taken out. The exception leaves `apply` as well: nothing on the way catches it, so no later
    statement runs. An `erase` stopped in this way has not lowered the counters it was about to lower,
    and nothing corrects them afterwards. -/

namespace RcuFib
open SearchGraph Routine RadixTrie

variable {w : Width} {V : Type*}

/-- What throws in an update: number `n`, from 0, of its allocations or of its calls of `retire`. -/
inductive Fault where
  | new (n : Nat)
  | retire (n : Nat)
  deriving DecidableEq

def Fault.number : Fault → Nat
  | new n | retire n => n

/-- How many updates the one that throws adds to those before it. -/
def Fault.done : Fault → Nat
  | new _ => 0
  | retire _ => 1

/-- What a table that held `C` holds after the update `u` has thrown. -/
def Fault.outcome (f : Fault) (u : Update w V) (C : Prefix w → Option V) : Prefix w → Option V :=
  match f with
  | new _ => C
  | retire _ => u.effect C

namespace RadixTrie

/-- The access at hand is one of those that throw. -/
def InsertPc.mayThrow : Fault → InsertPc w V → Bool
  | .new _, .box _ | .new _, .newLeaf .. | .new _, .newBranch .. | .new _, .newBranchLeaf ..
  | .new _, .newParent .. | .retire _, .retireOld _ => true
  | _, _ => false

def ErasePc.mayThrow : Fault → ErasePc V → Bool
  | .retire _, .retireValue .. | .retire _, .retireNode .. | .retire _, .retireParent _ => true
  | _, _ => false

/-- `erase` allocates nothing. -/
theorem ErasePc.mayThrow_new (n : Nat) (pc : ErasePc V) : pc.mayThrow (.new n) = false := by
  cases pc <;> rfl

/-- The trie an update leaves behind that throws. -/
def Update.throws (fuel : Nat) (f : Fault) (t : RadixTrie w V) : Update w V → Option (RadixTrie w V)
  | add p value =>
    (haltAt (insertStep p) (InsertPc.mayThrow f) fuel f.number t (.box value)).map Prod.fst
  | withdraw p =>
    (haltAt (eraseStep p) (ErasePc.mayThrow f) fuel f.number t (.load .root none)).map Prod.fst

variable {t t' t₀ : RadixTrie w V} {priv : List Nat} {M : Table w V} {p : Prefix w} {v : V}
  {fuel a b : Nat} {f : Fault} {u : Update w V}

/-! ### Counters that are too high -/

/-- The same trie with higher counters. -/
def recount (t : RadixTrie w V) (a b : Nat) : RadixTrie w V :=
  { t with size := t.size + a, nodeCount := t.nodeCount + b }

/-- In order apart from the counters, which may be too high. -/
def InOrder (t : RadixTrie w V) : Prop :=
  ∃ (t₀ : RadixTrie w V) (a b : Nat), WriterInv t₀ none ∧ t = t₀.recount a b

@[simp] theorem nodes_recount : (t.recount a b).nodes = t.nodes := rfl
@[simp] theorem loadSlot_recount (s : Slot Nat) : (t.recount a b).loadSlot s = t.loadSlot s := by
  cases s <;> rfl
@[simp] theorem storeSlot_recount (s : Slot Nat) (c : Option Nat) :
    (t.recount a b).storeSlot s c = (t.storeSlot s c).recount a b := by cases s <;> rfl
@[simp] theorem sharedLength_recount (n : Nat) :
    (t.recount a b).sharedLength n p = t.sharedLength n p := rfl

theorem recount_recount {c d : Nat} : (t.recount a b).recount c d = t.recount (a + c) (b + d) := by
  simp only [recount, Nat.add_assoc]

theorem WriterInv.inOrder (h : WriterInv t none) : t.InOrder := ⟨t, 0, 0, h, rfl⟩

/-- `insert` never looks at the counters. -/
theorem insert_recount (pc : InsertPc w V) :
    insertStep p (t.recount a b) pc = (insertStep p t pc).mapState (recount · a b) := by
  cases pc with
  | load boxed slot =>
    simp only [insertStep, loadSlot_recount, nodes_recount, sharedLength_recount]
    cases t.loadSlot slot with
    | none => rfl
    | some current =>
      simp only [apply_ite (Outcome.mapState (recount · a b))]
      rfl
  | exchange boxed current =>
    simp only [insertStep, nodes_recount]
    cases (t.nodes current).value <;> rfl
  | addNodes count =>
    simp only [insertStep, Outcome.mapState, recount, Nat.add_right_comm]
  | addSize => simp only [insertStep, Outcome.mapState, recount, Nat.add_right_comm]
  | branchExisting | branchLeaf | publishBranch | parentChild | publish =>
    simp only [insertStep, Outcome.mapState, nodes_recount, storeSlot_recount]
  | _ => rfl

/-- Nor does `erase`, and what it lowers is not 0. -/
theorem erase_recount {pc : ErasePc V} (h : EraseInv t₀ M p t pc) :
    eraseStep p (t.recount a b) pc = (eraseStep p t pc).mapState (recount · a b) := by
  cases pc with
  | load slot parent =>
    simp only [eraseStep, loadSlot_recount, nodes_recount]
    cases t.loadSlot slot with
    | none => rfl
    | some current =>
      simp only [apply_ite (Outcome.mapState (recount · a b))]
      rfl
  | exchange current slot parent =>
    simp only [eraseStep, nodes_recount]
    cases (t.nodes current).value <;> rfl
  | subSize current slot parent =>
    have hsize := h.1.1.size_eq
    simp only [eraseStep, Outcome.mapState, recount, Nat.sub_add_comm (show 1 ≤ t.size by omega)]
  | loadRight left current slot parent =>
    simp only [eraseStep, nodes_recount]
    rw [apply_ite (Outcome.mapState (recount · a b))]
    rfl
  | unlink | collapse => simp only [eraseStep, Outcome.mapState, storeSlot_recount]
  | subNodes parent =>
    have hcount := h.1.1.nodes_eq
    have hsub : (t.recount a b).nodeCount - 1 = t.nodeCount - 1 + b :=
      Nat.sub_add_comm (show 1 ≤ t.nodeCount by omega)
    cases parent with
    | none => simp only [eraseStep, Outcome.mapState, hsub]; rfl
    | some x => simp only [eraseStep, Outcome.mapState, hsub]; rfl
  | parentValue parent slot =>
    simp only [eraseStep, nodes_recount]
    rw [apply_ite (Outcome.mapState (recount · a b))]
    rfl
  | parentRight left parent slot =>
    simp only [eraseStep, nodes_recount]
    rw [apply_ite (Outcome.mapState (recount · a b))]
    rfl
  | subParent =>
    have hcount := h.1.nodes_eq
    simp only [eraseStep, Outcome.mapState, recount,
      Nat.sub_add_comm (show 1 ≤ t.nodeCount by omega)]
  | _ => rfl

theorem insert_keeps {s : RadixTrie w V} {pc : InsertPc w V} (h : InsertInv M p v s pc) :
    (insertStep p s pc).Sat (fun s' pc' => InsertInv M p v s' pc') fun _ _ => True :=
  (insert_total h).mono (fun _ _ h => h.1) fun _ _ _ => trivial

theorem erase_keeps {s : RadixTrie w V} {pc : ErasePc V} (h : EraseInv t₀ M p s pc) :
    (eraseStep p s pc).Sat (fun s' pc' => EraseInv t₀ M p s' pc') fun _ _ => True :=
  (erase_total h).mono (fun _ _ h => h.1) fun _ _ _ => trivial

theorem run_recount (h : WriterInv t none) :
    u.run fuel (t.recount a b) = (u.run fuel t).map fun x => (x.1.recount a b, x.2) := by
  obtain ⟨M, h⟩ := h
  cases u with
  | add p v =>
    rw [Update.run, run_mapState (P := InsertInv M p v) (fun _ _ => insert_keeps)
      (fun _ _ _ => insert_recount _) (InsertInv.start h p v)]
    simp only [Update.run, Option.map_map]
    rfl
  | withdraw p =>
    rw [Update.run, run_mapState (P := EraseInv t M p) (fun _ _ => erase_keeps)
      (fun _ _ => erase_recount) (EraseInv.start h p)]
    simp only [Update.run, Option.map_map]
    rfl

theorem throws_recount (h : WriterInv t none) :
    u.throws fuel f (t.recount a b) = (u.throws fuel f t).map (recount · a b) := by
  obtain ⟨M, h⟩ := h
  cases u with
  | add p v =>
    rw [Update.throws, haltAt_mapState (P := InsertInv M p v) (fun _ _ => insert_keeps)
      (fun _ _ _ => insert_recount _) (InsertInv.start h p v)]
    simp only [Update.throws, Option.map_map]
    rfl
  | withdraw p =>
    rw [Update.throws, haltAt_mapState (P := EraseInv t M p) (fun _ _ => erase_keeps)
      (fun _ _ => erase_recount) (EraseInv.start h p)]
    simp only [Update.throws, Option.map_map]
    rfl

/-! ### One update -/

/-- Nodes that are never published do not matter to the rest. -/
theorem Rep.abandon {ds dn : Int} (h : t.Rep priv M ds dn) : t.Rep [] M ds dn where
  inv := { h.inv with priv_unlinked := nofun, priv_closed := nofun }
  table_eq := h.table_eq
  size_eq := h.size_eq
  nodes_eq := h.nodes_eq

/-- Nor do counters that are still to be lowered. -/
theorem Rep.inOrder {ds dn : Int} (h : t.Rep [] M ds dn) (hs : ds ≤ 0) (hn : dn ≤ 0) : t.InOrder := by
  have hsize := h.size_eq
  have hcount := h.nodes_eq
  refine ⟨{ t with size := t.valuedSet.card, nodeCount := t.linkedSet.card }, (-ds).toNat,
    (-dn).toNat, ⟨M, h.quiet (by rfl) (by rfl) (by rfl) (by exact le_rfl) ?_ ?_⟩, ?_⟩
  · simp only; omega
  · simp only; omega
  · cases t
    simp only [recount, RadixTrie.mk.injEq, true_and, and_true] at hsize hcount ⊢
    omega

theorem InsertInv.at_new {n : Nat} {pc : InsertPc w V} (h : InsertInv M p v t pc)
    (hpc : pc.mayThrow (.new n) = true) : t.Rep [] M 0 0 := by
  cases pc with
  | box => exact h.1
  | newLeaf | newBranch | newParent => exact h.1.rep
  | newBranchLeaf => exact h.1.rep.abandon
  | _ => cases hpc

theorem InsertInv.at_retire {n : Nat} {pc : InsertPc w V} (h : InsertInv M p v t pc)
    (hpc : pc.mayThrow (.retire n) = true) : t.Switched M p v 0 0 := by
  cases pc with
  | retireOld => exact h.1
  | _ => cases hpc

/-- Whatever `erase` retires, the value is out of the table. -/
theorem EraseInv.at_retire {n : Nat} {pc : ErasePc V} (h : EraseInv t₀ M p t pc)
    (hpc : pc.mayThrow (.retire n) = true) :
    ∃ ds ≤ 0, ∃ dn ≤ 0, t.Rep [] (Function.update M p none) ds dn := by
  cases pc with
  | retireValue => exact ⟨-1, by decide, 0, le_rfl, h.1.1⟩
  | retireNode => exact ⟨0, le_rfl, -1, by decide, h.1.1⟩
  | retireParent => exact ⟨0, le_rfl, -1, by decide, h.1.1⟩
  | _ => cases hpc

theorem throws_of_writer (h : WriterInv t none) (hthrow : u.throws fuel f t = some t') :
    t'.InOrder ∧ t'.contents = f.outcome u t.contents := by
  obtain ⟨M, h⟩ := h
  cases u with
  | withdraw p =>
    obtain ⟨⟨s, pc⟩, hhalt, rfl⟩ := Option.map_eq_some_iff.mp hthrow
    obtain ⟨hinv, hpc⟩ := haltAt_sat (fun _ _ => erase_keeps) (EraseInv.start h p) hhalt
    cases f with
    | new n => rw [ErasePc.mayThrow_new] at hpc; cases hpc
    | retire n =>
      obtain ⟨ds, hs, dn, hn, hrep⟩ := hinv.at_retire hpc
      refine ⟨hrep.inOrder hs hn, ?_⟩
      rw [hrep.contents_eq, h.contents_eq, map_update, Option.map_none]
      rfl
  | add p v =>
    obtain ⟨⟨s, pc⟩, hhalt, rfl⟩ := Option.map_eq_some_iff.mp hthrow
    obtain ⟨hinv, hpc⟩ := haltAt_sat (fun _ _ => insert_keeps) (InsertInv.start h p v) hhalt
    cases f with
    | new n =>
      have hrep := hinv.at_new hpc
      exact ⟨hrep.inOrder le_rfl le_rfl, by rw [hrep.contents_eq, h.contents_eq]; rfl⟩
    | retire n =>
      obtain ⟨b, hb, hrep⟩ := hinv.at_retire hpc
      refine ⟨hrep.inOrder le_rfl le_rfl, ?_⟩
      rw [hrep.contents_eq, h.contents_eq, map_update, Option.map_some, hb]
      rfl

/-- An update that throws leaves a trie in order: with the update in it, or without. -/
theorem throws_spec (h : t.InOrder) (hthrow : u.throws fuel f t = some t') :
    t'.InOrder ∧ t'.contents = f.outcome u t.contents := by
  obtain ⟨t₀, a, b, h, rfl⟩ := h
  rw [throws_recount h] at hthrow
  obtain ⟨t₁, hthrow₁, rfl⟩ := Option.map_eq_some_iff.mp hthrow
  obtain ⟨⟨t₂, c, d, h', rfl⟩, hC⟩ := throws_of_writer h hthrow₁
  exact ⟨⟨t₂, c + a, d + b, h', recount_recount⟩, hC⟩

theorem run_of_writer (h : WriterInv t none) {r : Bool} (hrun : u.run fuel t = some (t', r)) :
    WriterInv t' none ∧ t'.contents = u.effect t.contents := by
  obtain ⟨t₁, r₁, h₁, hC, hspec⟩ := update_spec h u
  cases eq_of_fuel (fun _ hle => update_run_mono hle hrun) hspec
  exact ⟨h₁, hC⟩

theorem run_spec (h : t.InOrder) {r : Bool} (hrun : u.run fuel t = some (t', r)) :
    t'.InOrder ∧ t'.contents = u.effect t.contents := by
  obtain ⟨t₀, a, b, h, rfl⟩ := h
  rw [run_recount h] at hrun
  obtain ⟨⟨t₁, r₁⟩, hrun₁, heq⟩ := Option.map_eq_some_iff.mp hrun
  cases heq
  obtain ⟨h₁, hC⟩ := run_of_writer h hrun₁
  exact ⟨⟨t₁, a, b, h₁, rfl⟩, hC⟩

end RadixTrie

/-! ### `apply` -/

/-- The loop of `apply` where the update number `k`, from 0, throws. -/
def applyThrows (fuel : Nat) (f : Fault) :
    (k : Nat) → RadixTrie w FibEntry → List (FibUpdate w) → Option (RadixTrie w FibEntry)
  | _, _, [] => none
  | 0, t, u :: _ => u.update.throws fuel f t
  | k + 1, t, u :: updates => (u.update.run fuel t).bind fun x => applyThrows fuel f k x.1 updates

theorem applyThrows_spec {fuel : Nat} {f : Fault} : ∀ (k : Nat) {t t' : RadixTrie w FibEntry}
    {updates : List (FibUpdate w)}, t.InOrder → applyThrows fuel f k t updates = some t' →
      t'.InOrder ∧ t'.contents = (FibCall.apply (updates.take (k + f.done))).effect t.contents := by
  intro k
  induction k with
  | zero =>
    intro t t' updates h hthrow
    cases updates with
    | nil => cases hthrow
    | cons u updates =>
      obtain ⟨h', hC⟩ := throws_spec h hthrow
      refine ⟨h', hC.trans ?_⟩
      cases f with
      | new n => rfl
      | retire n => rfl
  | succ k ih =>
    intro t t' updates h hthrow
    cases updates with
    | nil => cases hthrow
    | cons u updates =>
      obtain ⟨⟨t₁, r⟩, hrun, hrest⟩ := Option.bind_eq_some_iff.mp hthrow
      obtain ⟨h₁, hC₁⟩ := run_spec h hrun
      obtain ⟨h', hC⟩ := ih h₁ hrest
      refine ⟨h', ?_⟩
      rw [hC, hC₁, Nat.add_right_comm, List.take_succ_cons]
      rfl

theorem applyLoop_recount {fuel a b : Nat} : ∀ {updates : List (FibUpdate w)} {applied : Nat}
    {t : RadixTrie w FibEntry}, WriterInv t none →
      applyLoop fuel (t.recount a b) updates applied =
        (applyLoop fuel t updates applied).map fun x => (x.1.recount a b, x.2) := by
  intro updates
  induction updates with
  | nil => intro applied t _; rfl
  | cons u updates ih =>
    intro applied t h
    rw [applyLoop, applyLoop, run_recount h]
    cases hrun : u.update.run fuel t with
    | none => rfl
    | some x => exact ih (run_of_writer h hrun).1

end RcuFib
