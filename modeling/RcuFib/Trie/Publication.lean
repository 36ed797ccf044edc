import RcuFib.Trie.History
import RcuFib.Trie.Writer

/-! Every update takes effect at one store.

    A reader may look between any two accesses of a writer. What it can reach from the root there is
    always a search trie, and it spells the table from before the update or the one from after it.
    The positions of each operation fall into two halves: before the store that publishes the new
    value or takes the old one out, and after it. The stores of the second half, such as the two that
    cut off a node and its parent, change the shape only. -/

namespace RcuFib
open SearchGraph Routine

namespace RadixTrie
variable {w : Width} {V : Type*}

/-- The new value is in the table. -/
def InsertPc.switched : InsertPc w V → Bool
  | .retireOld _ | .addNodes _ | .addSize | .ret _ => true
  | _ => false

/-- The old value is out of the table. -/
def ErasePc.switched : ErasePc V → Bool
  | .load .. | .exchange .. => false
  | _ => true

/-- The operation alone, from its first access to its return. -/
def Update.run (fuel : Nat) (t : RadixTrie w V) : Update w V → Option (RadixTrie w V × Bool)
  | add p value => (Routine.run (insertStep p) fuel t (.box value)).map fun x => (x.1, x.2.2)
  | withdraw p => (Routine.run (eraseStep p) fuel t (.load .root none)).map fun x => (x.1, x.2.2)

/-- The trie after each of its accesses. -/
def Update.states (fuel : Nat) (t : RadixTrie w V) : Update w V → List (RadixTrie w V)
  | add p value => Routine.states (insertStep p) fuel t (.box value)
  | withdraw p => Routine.states (eraseStep p) fuel t (.load .root none)

/-- The table an update makes of `M`. -/
def Update.Makes (M M' : Table w V) : Update w V → Prop
  | add p value => ∃ b : Box V, b.content = value ∧ M' = Function.update M p (some b)
  | withdraw p => M' = Function.update M p none

/-- What readers find: a search trie that spells `M`. -/
def Spells (t : RadixTrie w V) (M : Table w V) : Prop := t.graph.Ordered ∧ t.table = M

variable {t t₀ : RadixTrie w V} {M : Table w V} {p : Prefix w} {v : V}

/-! ### `insert` -/

theorem InsertInv.before {pc : InsertPc w V} (h : InsertInv M p v t pc) (hs : pc.switched = false) :
    t.Spells M := by
  refine ⟨h.inv.ordered, ?_⟩
  cases pc with
  | box => exact h.1.table_eq
  | load => exact h.rep.table_eq
  | newLeaf | leafValue | newBranch | newBranchLeaf | branchLeafValue | newParent | parentValue =>
    exact h.1.rep.table_eq
  | branchExisting | branchLeaf | parentChild => obtain ⟨b, h, -⟩ := h; exact h.rep.table_eq
  | publishBranch | publish => obtain ⟨b, -, h, -⟩ := h; exact h.table_eq
  | exchange => exact h.1.table_eq
  | retireOld | addNodes | addSize | ret => cases hs

theorem InsertInv.after {pc : InsertPc w V} (h : InsertInv M p v t pc) (hs : pc.switched = true) :
    ∃ b : Box V, b.content = v ∧ t.Spells (Function.update M p (some b)) := by
  have ho := h.inv.ordered
  have hsw : ∀ {ds dn}, t.Switched M p v ds dn →
      ∃ b : Box V, b.content = v ∧ t.Spells (Function.update M p (some b)) :=
    fun ⟨b, hb, hrep⟩ => ⟨b, hb, ho, hrep.table_eq⟩
  cases pc with
  | retireOld | addNodes | addSize | ret => exact hsw h.1
  | _ => cases hs

/-- Once the value is in, only counters change. -/
theorem insert_after {M' : Table w V} {pc : InsertPc w V} (h : t.Spells M') (hs : pc.switched = true) :
    (insertStep p t pc).Sat (fun t' pc' => (t'.Spells M' ∧ pc'.switched = true) ∧ t'.Spells M')
      (fun t' _ => t'.Spells M') := by
  cases pc with
  | retireOld => exact ⟨⟨h, rfl⟩, h⟩
  | addNodes => exact ⟨⟨h, rfl⟩, h⟩
  | addSize => exact ⟨⟨h, rfl⟩, h⟩
  | ret => exact h
  | _ => cases hs

theorem insert_before {pc : InsertPc w V} (h : InsertInv M p v t pc) (hs : pc.switched = false) :
    (insertStep p t pc).Sat
      (fun t' pc' => (InsertInv M p v t' pc' ∧ pc'.switched = false) ∧ t'.Spells M ∨
        ∃ b : {b : Box V // b.content = v}, (t'.Spells (Function.update M p (some b)) ∧
          pc'.switched = true) ∧ t'.Spells (Function.update M p (some b)))
      (fun _ _ => False) := by
  have hgo : ∀ {t' : RadixTrie w V} {pc' : InsertPc w V}, InsertInv M p v t' pc' →
      (InsertInv M p v t' pc' ∧ pc'.switched = false) ∧ t'.Spells M ∨
        ∃ b : {b : Box V // b.content = v}, (t'.Spells (Function.update M p (some b)) ∧
          pc'.switched = true) ∧ t'.Spells (Function.update M p (some b)) := by
    intro t' pc' h'
    rcases Bool.eq_false_or_eq_true pc'.switched with hs' | hs'
    · obtain ⟨b, hb, hsp⟩ := h'.after hs'
      exact .inr ⟨⟨b, hb⟩, ⟨hsp, hs'⟩, hsp⟩
    · exact .inl ⟨⟨h', hs'⟩, h'.before hs'⟩
  have hok := insert_total h
  cases ho : insertStep p t pc with
  | next t' pc' => rw [ho] at hok; exact hgo hok.1
  | call t' e pc' => rw [ho] at hok; exact hgo hok.1
  | done t' r =>
    obtain ⟨rfl, -⟩ := insert_done ho
    cases hs

/-! ### `erase` -/

theorem EraseInv.spells {pc : ErasePc V} (h : EraseInv t₀ M p t pc) :
    t.Spells (if pc.switched then Function.update M p none else M) := by
  refine ⟨h.inv.ordered, ?_⟩
  cases pc with
  | load | exchange => exact h.2.1.table_eq
  | subParent | ret => exact h.1.table_eq
  | _ => exact h.1.1.table_eq

theorem erase_switched {pc : ErasePc V} (hs : pc.switched = true) :
    (eraseStep p t pc).Sat (fun _ pc' => pc'.switched = true) (fun t' _ => t' = t) := by
  cases pc with
  | load => cases hs
  | exchange => cases hs
  | loadRight => simp only [eraseStep]; split <;> exact rfl
  | subNodes parent => cases parent <;> exact rfl
  | parentValue => simp only [eraseStep]; split <;> exact rfl
  | parentRight => simp only [eraseStep]; split <;> exact rfl
  | _ => exact rfl

/-- Once the value is out, cutting off nodes does not change the table. -/
theorem erase_after {pc : ErasePc V} (h : EraseInv t₀ M p t pc) (hs : pc.switched = true) :
    (eraseStep p t pc).Sat
      (fun t' pc' => (EraseInv t₀ M p t' pc' ∧ pc'.switched = true) ∧
        t'.Spells (Function.update M p none))
      (fun t' _ => t'.Spells (Function.update M p none)) := by
  have hsp := h.spells
  rw [if_pos hs] at hsp
  refine ((erase_total h).and (erase_switched hs)).mono ?_ ?_
  · rintro t' pc' ⟨⟨h', -⟩, hs'⟩
    have hsp' := h'.spells
    rw [if_pos hs'] at hsp'
    exact ⟨⟨h', hs'⟩, hsp'⟩
  · rintro t' r ⟨-, rfl⟩
    exact hsp

theorem erase_before {pc : ErasePc V} (h : EraseInv t₀ M p t pc) (hs : pc.switched = false) :
    (eraseStep p t pc).Sat
      (fun t' pc' => (EraseInv t₀ M p t' pc' ∧ pc'.switched = false) ∧ t'.Spells M ∨
        ∃ _ : Unit, (EraseInv t₀ M p t' pc' ∧ pc'.switched = true) ∧
          t'.Spells (Function.update M p none))
      (fun _ _ => False) := by
  have hgo : ∀ {t' : RadixTrie w V} {pc' : ErasePc V}, EraseInv t₀ M p t' pc' →
      (EraseInv t₀ M p t' pc' ∧ pc'.switched = false) ∧ t'.Spells M ∨
        ∃ _ : Unit, (EraseInv t₀ M p t' pc' ∧ pc'.switched = true) ∧
          t'.Spells (Function.update M p none) := by
    intro t' pc' h'
    have hsp := h'.spells
    rcases Bool.eq_false_or_eq_true pc'.switched with hs' | hs'
    · exact .inr ⟨(), ⟨h', hs'⟩, by simpa [hs'] using hsp⟩
    · exact .inl ⟨⟨h', hs'⟩, by simpa [hs'] using hsp⟩
  have hok := erase_total h
  cases ho : eraseStep p t pc with
  | next t' pc' => rw [ho] at hok; exact hgo hok.1
  | call t' e pc' => rw [ho] at hok; exact hgo hok.1
  | done t' r =>
    obtain ⟨rfl, -⟩ := erase_done ho
    cases hs

/-! ### A whole update -/

/-- Every update of a well-formed trie leaves a search trie at each of its stores, with the table from
    before it up to one of them and the table it makes from there on. -/
theorem single_store_publication (h : t.Rep [] M 0 0) (u : Update w V) :
    ∃ fuel₀, ∀ fuel > fuel₀, ∃ (t' : RadixTrie w V) (r : Bool) (M' : Table w V)
      (before after : List (RadixTrie w V)),
      u.run fuel t = some (t', r) ∧ u.Makes M M' ∧ u.states fuel t = before ++ after ∧
      (∀ s ∈ before, s.Spells M) ∧ (∀ s ∈ after, s.Spells M') ∧ t' ∈ after := by
  cases u with
  | add p v =>
    have hstart : InsertInv M p v t (.box v) := ⟨h, rfl⟩
    obtain ⟨t', es, r, -, hrun⟩ := run_of_measure (fun _ _ => insert_total) hstart
    refine ⟨insertMeasure t (.box v), fun fuel hf => ?_⟩
    have hrun := hrun fuel hf
    obtain ⟨⟨b, hb⟩, before, after, heq, hbefore, hafter, hlast⟩ :=
      states_switch (fun _ _ hi => insert_before hi.1 hi.2) (fun _ _ _ hi => insert_after hi.1 hi.2)
        ⟨hstart, rfl⟩ hrun
    exact ⟨t', r, _, before, after, by rw [Update.run, hrun]; rfl, ⟨b, hb, rfl⟩, heq,
      hbefore, hafter, hlast⟩
  | withdraw p =>
    have hstart : EraseInv t M p t (.load .root none) := .start h p
    obtain ⟨t', es, r, -, hrun⟩ := run_of_measure (fun _ _ => erase_total) hstart
    refine ⟨eraseMeasure t (.load .root none), fun fuel hf => ?_⟩
    have hrun := hrun fuel hf
    obtain ⟨-, before, after, heq, hbefore, hafter, hlast⟩ :=
      states_switch (fun _ _ hi => erase_before hi.1 hi.2) (fun _ _ _ hi => erase_after hi.1 hi.2)
        ⟨hstart, rfl⟩ hrun
    exact ⟨t', r, _, before, after, by rw [Update.run, hrun]; rfl, rfl, heq,
      hbefore, hafter, hlast⟩

/-- 10.0.0.0/8 and 11.0.0.0/8, which hang from a node without a value. -/
def siblings : List (Op .ipv4 Nat) :=
  [.insert (.make (.fromV4 0x0a000000) 8 Width.eight_le_ipv4) 1,
    .insert (.make (.fromV4 0x0b000000) 8 Width.eight_le_ipv4) 2]

/-- Withdrawing one of them takes out the value, its node and the node above. -/
theorem single_store_publication_siblings :
    ∃ (t : RadixTrie .ipv4 Nat) (M : Table .ipv4 Nat), t.Represents (reference siblings) ∧
      ∃ fuel₀, ∀ fuel > fuel₀, ∃ (t' : RadixTrie .ipv4 Nat) (r : Bool) (M' : Table .ipv4 Nat)
        (before after : List (RadixTrie .ipv4 Nat)),
        Update.run fuel t (.withdraw (.make (.fromV4 0x0b000000) 8 (by decide))) = some (t', r) ∧
        Update.Makes M M' (.withdraw (.make (.fromV4 0x0b000000) 8 (by decide))) ∧
        Update.states fuel t (.withdraw (.make (.fromV4 0x0b000000) 8 (by decide))) =
          before ++ after ∧
        (∀ s ∈ before, s.Spells M) ∧ (∀ s ∈ after, s.Spells M') ∧ t' ∈ after := by
  obtain ⟨t, -, hrep, -⟩ := exec_reference siblings
  have hrep' := hrep
  obtain ⟨M, h, -⟩ := hrep'
  exact ⟨t, M, hrep, single_store_publication h _⟩

end RadixTrie

end RcuFib
