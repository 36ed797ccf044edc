import RcuFib.Trie.InsertSteps
import RcuFib.Trie.Erase

/-! The writer's side of the concurrency contract: writers are serialised, so at any moment at most
    one of `insert` and `erase` is under way, and each of its steps is one readers can live with. -/

namespace RcuFib
open SearchGraph Routine

namespace RadixTrie
variable {w : Width} {V : Type*}

/-- `insert(p, value)` or `erase(p)`. -/
inductive Update (w : Width) (V : Type*) where
  | add (p : Prefix w) (value : V)
  | withdraw (p : Prefix w)

inductive WriterPc (w : Width) (V : Type*) where
  | insert (p : Prefix w) (pc : InsertPc w V)
  | erase (p : Prefix w) (pc : ErasePc V)

def Update.start : Update w V → WriterPc w V
  | add p value => .insert p (.box value)
  | withdraw p => .erase p (.load .root none)

def writerStep (t : RadixTrie w V) :
    WriterPc w V → Outcome (RadixTrie w V) (WriterPc w V) (Retired V) Bool
  | .insert p pc => (insertStep p t pc).map (.insert p)
  | .erase p pc => (eraseStep p t pc).map (.erase p)

def WriterPc.priv : WriterPc w V → List Nat
  | insert _ pc => pc.priv
  | erase _ _ => []

/-- The box the writer has created and not attached yet. -/
def InsertPc.boxed : InsertPc w V → Option (Box V)
  | .load b _ | .newLeaf b _ | .leafValue b _ _ | .newBranch b _ _ _ | .newBranchLeaf b _ _ _ _
  | .branchLeafValue b _ _ _ _ _ | .exchange b _ | .newParent b _ _ | .parentValue b _ _ _ => some b
  | _ => none

def WriterPc.boxed : WriterPc w V → Option (Box V)
  | insert _ pc => pc.boxed
  | erase _ _ => none

/-- The annotation of the writer, idle or at work. -/
def WriterInv (t : RadixTrie w V) : Option (WriterPc w V) → Prop
  | none => ∃ M, t.Rep [] M 0 0
  | some (.insert p pc) => ∃ M v, InsertInv M p v t pc
  | some (.erase p pc) => ∃ M t₀, EraseInv t₀ M p t pc

/-- The nodes nobody but the writer has seen. -/
def privOf : Option (WriterPc w V) → List Nat
  | none => []
  | some pc => pc.priv

variable {t t' : RadixTrie w V} {M : Table w V} {p : Prefix w} {v : V}

theorem InsertInv.inv {pc : InsertPc w V} (h : InsertInv M p v t pc) : t.Inv pc.priv := by
  cases pc with
  | box => exact h.1.inv
  | load => exact h.rep.inv
  | newLeaf => exact h.1.rep.inv
  | leafValue => exact h.1.rep.inv
  | newBranch => exact h.1.rep.inv
  | newBranchLeaf => exact h.1.rep.inv
  | branchLeafValue => exact h.1.rep.inv
  | branchExisting => obtain ⟨b, h, -⟩ := h; exact h.rep.inv
  | branchLeaf => obtain ⟨b, h, -⟩ := h; exact h.rep.inv
  | publishBranch => obtain ⟨b, -, h, -⟩ := h; exact h.inv
  | exchange => exact h.1.inv
  | retireOld => obtain ⟨⟨b, -, h⟩, -⟩ := h; exact h.inv
  | newParent => exact h.1.rep.inv
  | parentValue => exact h.1.rep.inv
  | parentChild => obtain ⟨b, h, -⟩ := h; exact h.rep.inv
  | publish => obtain ⟨b, -, h, -⟩ := h; exact h.inv
  | addNodes => obtain ⟨⟨b, -, h⟩, -⟩ := h; exact h.inv
  | addSize => obtain ⟨⟨b, -, h⟩, -⟩ := h; exact h.inv
  | ret => obtain ⟨⟨b, -, h⟩, -⟩ := h; exact h.inv

theorem EraseInv.inv {t₀ : RadixTrie w V} {pc : ErasePc V} (h : EraseInv t₀ M p t pc) :
    t.Inv [] := by
  cases pc with
  | load => exact h.2.1.inv
  | exchange => exact h.2.1.inv
  | subParent => exact h.1.inv
  | ret => exact h.1.inv
  | _ => exact h.1.1.inv

theorem WriterInv.inv {pc : Option (WriterPc w V)} (h : WriterInv t pc) : t.Inv (privOf pc) := by
  cases pc with
  | none => obtain ⟨M, h⟩ := h; exact h.inv
  | some pc =>
    cases pc with
    | insert p pc => obtain ⟨M, v, h⟩ := h; exact h.inv
    | erase p pc => obtain ⟨M, t₀, h⟩ := h; exact h.inv

theorem WriterInv.start (h : WriterInv t none) (u : Update w V) : WriterInv t (some u.start) := by
  obtain ⟨M, h⟩ := h
  cases u with
  | add p v => exact ⟨M, v, h, rfl⟩
  | withdraw p => exact ⟨M, t, EraseInv.start h p⟩

/-- Each step of the writer keeps its annotation and lets the readers go on. -/
theorem writer_step {pc : WriterPc w V} (h : WriterInv t (some pc)) :
    (writerStep t pc).Sat
      (fun t' pc' => WriterInv t' (some pc') ∧ t.Evolves pc.priv t' pc'.priv)
      (fun t' _ => t' = t ∧ WriterInv t none ∧ pc.priv = []) := by
  cases pc with
  | insert p pc =>
    obtain ⟨M, v, h⟩ := h
    have hok := insert_step h
    rw [writerStep, Outcome.sat_map]
    unfold InsertOk at hok
    cases ho : insertStep p t pc with
    | next t' pc' => rw [ho] at hok; exact ⟨⟨M, v, hok.1⟩, hok.2.1⟩
    | call t' e pc' => rw [ho] at hok; exact ⟨⟨M, v, hok.1⟩, hok.2.1⟩
    | done t' r =>
      rw [ho] at hok
      obtain ⟨rfl, ⟨b, -, hrep⟩, -⟩ := hok
      obtain ⟨rfl, -⟩ := insert_done ho
      exact ⟨rfl, ⟨_, hrep⟩, rfl⟩
  | erase p pc =>
    obtain ⟨M, t₀, h⟩ := h
    have hok := erase_step h
    rw [writerStep, Outcome.sat_map]
    unfold EraseOk at hok
    cases ho : eraseStep p t pc with
    | next t' pc' => rw [ho] at hok; exact ⟨⟨M, t₀, hok.1⟩, hok.2.1⟩
    | call t' e pc' => rw [ho] at hok; exact ⟨⟨M, t₀, hok.1⟩, hok.2.1⟩
    | done t' r =>
      rw [ho] at hok
      obtain ⟨rfl, hrep, -⟩ := hok
      exact ⟨rfl, ⟨_, hrep⟩, rfl⟩

/-! ### What an update does as a whole -/

/-- The contents of the table without the addresses of the boxes. -/
noncomputable def contents (t : RadixTrie w V) : Prefix w → Option V :=
  fun p => (t.table p).map Box.content

def Update.effect (C : Prefix w → Option V) : Update w V → Prefix w → Option V
  | add p value => Function.update C p (some value)
  | withdraw p => Function.update C p none

/-- The writer is at `pc` of the update `u`, which it began on a table with contents `C`. -/
def Performing (t : RadixTrie w V) (C : Prefix w → Option V) (u : Update w V) :
    WriterPc w V → Prop
  | .insert p pc => ∃ M v, u = .add p v ∧ InsertInv M p v t pc ∧ C = fun q => (M q).map Box.content
  | .erase p pc => ∃ M t₀, u = .withdraw p ∧ EraseInv t₀ M p t pc ∧
      C = fun q => (M q).map Box.content

section performing
variable {C : Prefix w → Option V} {u : Update w V} {pc : WriterPc w V}

theorem Performing.writerInv (h : t.Performing C u pc) : WriterInv t (some pc) := by
  cases pc with
  | insert p pc => obtain ⟨M, v, -, h, -⟩ := h; exact ⟨M, v, h⟩
  | erase p pc => obtain ⟨M, t₀, -, h, -⟩ := h; exact ⟨M, t₀, h⟩

theorem Rep.contents_eq {ds dn : Int} {priv : List Nat} (h : t.Rep priv M ds dn) :
    t.contents = fun q => (M q).map Box.content := by
  rw [← h.table_eq]
  rfl

theorem Performing.start (h : WriterInv t none) (u : Update w V) :
    t.Performing t.contents u u.start := by
  obtain ⟨M, h⟩ := h
  cases u with
  | add p v => exact ⟨M, v, rfl, .start h p v, h.contents_eq⟩
  | withdraw p => exact ⟨M, t, rfl, EraseInv.start h p, h.contents_eq⟩

theorem map_update (M : Table w V) (p : Prefix w) (b : Option (Box V)) :
    (fun q => (Function.update M p b q).map Box.content) =
      Function.update (fun q => (M q).map Box.content) p (b.map Box.content) := by
  funext q
  rcases eq_or_ne q p with rfl | hq
  · simp only [Function.update_self]
  · simp only [Function.update_of_ne hq]

/-- An update under way keeps its purpose, and has served it when it returns. -/
theorem performing_step (h : t.Performing C u pc) :
    (writerStep t pc).Sat (fun t' pc' => t'.Performing C u pc')
      (fun t' _ => WriterInv t' none ∧ t'.contents = u.effect C) := by
  cases pc with
  | insert p pc =>
    obtain ⟨M, v, rfl, h, rfl⟩ := h
    have hok := insert_step h
    rw [writerStep, Outcome.sat_map]
    unfold InsertOk at hok
    cases ho : insertStep p t pc with
    | next t' pc' => rw [ho] at hok; exact ⟨M, v, rfl, hok.1, rfl⟩
    | call t' e pc' => rw [ho] at hok; exact ⟨M, v, rfl, hok.1, rfl⟩
    | done t' r =>
      rw [ho] at hok
      obtain ⟨rfl, ⟨b, hb, hrep⟩, -⟩ := hok
      obtain ⟨rfl, -⟩ := insert_done ho
      exact ⟨⟨_, hrep⟩, by rw [hrep.contents_eq, map_update, Option.map_some, hb, Update.effect]⟩
  | erase p pc =>
    obtain ⟨M, t₀, rfl, h, rfl⟩ := h
    have hok := erase_step h
    rw [writerStep, Outcome.sat_map]
    unfold EraseOk at hok
    cases ho : eraseStep p t pc with
    | next t' pc' => rw [ho] at hok; exact ⟨M, t₀, rfl, hok.1, rfl⟩
    | call t' e pc' => rw [ho] at hok; exact ⟨M, t₀, rfl, hok.1, rfl⟩
    | done t' r =>
      rw [ho] at hok
      obtain ⟨rfl, hrep, -⟩ := hok
      exact ⟨⟨_, hrep⟩, by rw [hrep.contents_eq, map_update, Option.map_none, Update.effect]⟩

/-- Bounds the steps an update has left. -/
def writerMeasure (t : RadixTrie w V) : WriterPc w V → Nat
  | .insert _ pc => insertMeasure t pc
  | .erase _ pc => eraseMeasure t pc

theorem writerMeasure_start (t : RadixTrie w V) (u : Update w V) :
    writerMeasure t u.start ≤ w.bits + 16 := by
  cases u with
  | add p v => simp only [Update.start, writerMeasure, insertMeasure]; omega
  | withdraw p =>
    simp only [Update.start, writerMeasure, eraseMeasure, Graph.span, List.length_nil]
    omega

theorem writer_measure {pc : WriterPc w V} (h : WriterInv t (some pc)) :
    (writerStep t pc).Sat (fun t' pc' => writerMeasure t' pc' < writerMeasure t pc)
      (fun _ _ => True) := by
  cases pc with
  | insert p pc =>
    obtain ⟨M, v, h⟩ := h
    rw [writerStep, Outcome.sat_map]
    exact (insert_total h).mono (fun _ _ h => h.2) fun _ _ _ => trivial
  | erase p pc =>
    obtain ⟨M, t₀, h⟩ := h
    rw [writerStep, Outcome.sat_map]
    exact (erase_total h).mono (fun _ _ h => h.2) fun _ _ _ => trivial

end performing

/-! ### What the reclaimer is handed -/

/-- Cut off from the trie for good: an unlinked node nobody is building, or a box off every node
    that the writer is not about to attach. -/
def Gone (t : RadixTrie w V) (pc : Option (WriterPc w V)) : Retired V → Prop
  | .node n => t.CutOff n ∧ n ∉ privOf pc
  | .value b => t.Detached b ∧ ∀ x ∈ pc, ∀ u ∈ x.boxed, u.address ≠ b.address

/-- Whatever is retired is gone by then. -/
theorem gone_of_call {pc pc' : WriterPc w V} {e : Retired V} (h : WriterInv t (some pc))
    (hc : writerStep t pc = .call t' e pc') : t' = t ∧ Gone t (some pc') e := by
  cases pc with
  | insert p pc =>
    obtain ⟨M, v, h⟩ := h
    cases ho : insertStep p t pc with
    | call t₁ e₁ pc₁ =>
      simp only [writerStep, ho] at hc
      cases hc
      obtain ⟨rfl, old, rfl, rfl, rfl⟩ := insert_call ho
      exact ⟨rfl, h.2.2, nofun⟩
    | next | done => simp only [writerStep, ho] at hc; cases hc
  | erase p pc =>
    obtain ⟨M, t₀, h⟩ := h
    cases ho : eraseStep p t pc with
    | call t₁ e₁ pc₁ =>
      simp only [writerStep, ho] at hc
      cases hc
      obtain ⟨rfl, ⟨old, c, s, parent, rfl, rfl, rfl⟩ | ⟨c, parent, rfl, rfl, rfl⟩ |
        ⟨n, rfl, rfl, rfl⟩⟩ := erase_call ho
      · exact ⟨rfl, h.2.2.2, nofun⟩
      · exact ⟨rfl, h.2.2, List.not_mem_nil⟩
      · exact ⟨rfl, h.2, List.not_mem_nil⟩
    | next | done => simp only [writerStep, ho] at hc; cases hc

/-- A node that has been cut off stays so: only private nodes become linked. -/
theorem Evolves.cutOff {priv priv' : List Nat} {n : Nat} (hev : t.Evolves priv t' priv')
    (h : t.CutOff n ∧ n ∉ priv) : t'.CutOff n ∧ n ∉ priv' := by
  obtain ⟨⟨hlt, hl⟩, hp⟩ := h
  have hk := hev.known n ⟨hlt, hp⟩
  exact ⟨⟨hk.1, fun hl' => (hev.linked n hl').elim hl hp⟩, hk.2⟩

section detached
variable {b : Box V}

theorem Detached.storeValue (h : t.Detached b) {x : Option (Box V)}
    (hx : ∀ u ∈ x, u.address ≠ b.address) (k : Nat) : (t.storeValue k x).Detached b := by
  refine ⟨h.1, fun n u hu => ?_⟩
  rw [value_storeValue] at hu
  split at hu
  · exact hx u hu
  · exact h.2 n u hu

theorem Detached.storeSlot (h : t.Detached b) (s : Slot Nat) (q : Option Nat) :
    (t.storeSlot s q).Detached b :=
  ⟨by rw [nextBox_storeSlot]; exact h.1, fun n u hu => h.2 n u (by rwa [value_storeSlot] at hu)⟩

/-- A step of `insert` attaches no box but its own. -/
theorem insert_detached {pc : InsertPc w V} (h : t.Detached b)
    (hb : ∀ u ∈ pc.boxed, u.address ≠ b.address) :
    (insertStep p t pc).Sat
      (fun t' pc' => t'.Detached b ∧ ∀ u ∈ pc'.boxed, u.address ≠ b.address)
      (fun t' _ => t'.Detached b) := by
  have hnone : ∀ u ∈ (none : Option (Box V)), u.address ≠ b.address := nofun
  cases pc with
  | box v =>
    refine ⟨⟨Nat.lt_succ_of_lt h.1, h.2⟩, fun u hu he => ?_⟩
    obtain rfl := Option.some.inj hu
    exact absurd h.1 (he ▸ lt_irrefl _)
  | load c s =>
    simp only [insertStep]
    split
    · exact ⟨h, hb⟩
    · split
      · exact ⟨h, hb⟩
      · split
        · exact ⟨h, hb⟩
        · split <;> exact ⟨h, hb⟩
  | newLeaf => exact ⟨h.newNode, hb⟩
  | leafValue => exact ⟨h.storeValue hb _, hnone⟩
  | newBranch => exact ⟨h.newNode, hb⟩
  | newBranchLeaf => exact ⟨h.newNode, hb⟩
  | branchLeafValue => exact ⟨h.storeValue hb _, hnone⟩
  | branchExisting => exact ⟨h.storeSlot _ _, hnone⟩
  | branchLeaf => exact ⟨h.storeSlot _ _, hnone⟩
  | publishBranch => exact ⟨h.storeSlot _ _, hnone⟩
  | exchange c n =>
    simp only [insertStep]
    split <;> exact ⟨h.storeValue hb _, hnone⟩
  | retireOld => exact ⟨h, hnone⟩
  | newParent => exact ⟨h.newNode, hb⟩
  | parentValue => exact ⟨h.storeValue hb _, hnone⟩
  | parentChild => exact ⟨h.storeSlot _ _, hnone⟩
  | publish => exact ⟨h.storeSlot _ _, hnone⟩
  | addNodes => exact ⟨h, hnone⟩
  | addSize => exact ⟨h, hnone⟩
  | ret => exact h

theorem erase_detached {pc : ErasePc V} (h : t.Detached b) :
    (eraseStep p t pc).Sat (fun t' _ => t'.Detached b) (fun t' _ => t'.Detached b) := by
  have hnone : ∀ u ∈ (none : Option (Box V)), u.address ≠ b.address := nofun
  cases pc with
  | load s parent =>
    simp only [eraseStep]
    split
    · exact h
    · split
      · exact h
      · split
        · exact h
        · split <;> exact h
  | exchange c s parent =>
    simp only [eraseStep]
    split <;> exact h.storeValue hnone c
  | loadRight l c s parent => simp only [eraseStep]; split <;> exact h
  | unlink => exact h.storeSlot _ _
  | subNodes parent => simp only [eraseStep]; split <;> exact h
  | parentValue n s => simp only [eraseStep]; split <;> exact h
  | parentRight l n s => simp only [eraseStep]; split <;> exact h
  | collapse => exact h.storeSlot _ _
  | _ => exact h

end detached

/-- What is gone stays gone, whatever the writer does next. -/
theorem gone_step {pc : WriterPc w V} {e : Retired V} (h : WriterInv t (some pc))
    (hg : Gone t (some pc) e) :
    (writerStep t pc).Sat (fun t' pc' => Gone t' (some pc') e) (fun t' _ => Gone t' none e) := by
  cases e with
  | node n =>
    have hstep := writer_step h
    cases ho : writerStep t pc with
    | next t' pc' => rw [ho] at hstep; exact hstep.2.cutOff hg
    | call t' e pc' => rw [ho] at hstep; exact hstep.2.cutOff hg
    | done t' r =>
      rw [ho] at hstep
      obtain ⟨rfl, -, -⟩ := hstep
      exact ⟨hg.1, List.not_mem_nil⟩
  | value b =>
    obtain ⟨hd, hb⟩ := hg
    cases pc with
    | insert p pc =>
      have hstep := insert_detached (p := p) hd (hb _ rfl)
      rw [writerStep, Outcome.sat_map]
      cases ho : insertStep p t pc with
      | next t' pc' =>
        rw [ho] at hstep
        exact ⟨hstep.1, fun x hx u hu => hstep.2 u (by cases hx; exact hu)⟩
      | call t' e pc' =>
        rw [ho] at hstep
        exact ⟨hstep.1, fun x hx u hu => hstep.2 u (by cases hx; exact hu)⟩
      | done t' r => rw [ho] at hstep; exact ⟨hstep, nofun⟩
    | erase p pc =>
      have hstep : (eraseStep p t pc).Sat _ _ := erase_detached hd
      rw [writerStep, Outcome.sat_map]
      cases ho : eraseStep p t pc with
      | next t' pc' => rw [ho] at hstep; exact ⟨hstep, fun x hx u hu => by cases hx; cases hu⟩
      | call t' e pc' => rw [ho] at hstep; exact ⟨hstep, fun x hx u hu => by cases hx; cases hu⟩
      | done t' r => rw [ho] at hstep; exact ⟨hstep, nofun⟩

theorem Gone.start {e : Retired V} (h : Gone t none e) (u : Update w V) :
    Gone t (some u.start) e := by
  cases e with
  | node n => exact ⟨h.1, by cases u <;> exact List.not_mem_nil⟩
  | value b => exact ⟨h.1, fun x hx y hy => by cases hx; cases u <;> cases hy⟩

/-! ### A step of the writer as the others see it -/

section turn

/-- What the others may rely on across a step of the writer, at work or idle. -/
structure Turn (t : RadixTrie w V) (pc : Option (WriterPc w V)) (t' : RadixTrie w V)
    (pc' : Option (WriterPc w V)) : Prop where
  inv : WriterInv t' pc'
  evolves : t.Evolves (privOf pc) t' (privOf pc')
  gone : ∀ e, Gone t pc e → Gone t' pc' e

variable {pc : Option (WriterPc w V)}

theorem Turn.refl (h : WriterInv t pc) : t.Turn pc t pc := ⟨h, .refl h.inv, fun _ hg => hg⟩

/-- The next update starts where the last one has ended. -/
theorem Turn.start (h : t.Turn pc t' none) (u : Update w V) : t.Turn pc t' (some u.start) := by
  have hpriv : privOf (some u.start) = privOf (none : Option (WriterPc w V)) := by cases u <;> rfl
  exact ⟨h.inv.start u, hpriv ▸ h.evolves, fun e hg => (h.gone e hg).start u⟩

theorem turn_step {pc : WriterPc w V} (h : WriterInv t (some pc)) :
    (writerStep t pc).Sat (fun t' pc' => t.Turn (some pc) t' (some pc'))
      (fun t' _ => t.Turn (some pc) t' none) := by
  have hok := writer_step h
  have hgone : ∀ e, Gone t (some pc) e → (writerStep t pc).Sat
      (fun t' pc' => Gone t' (some pc') e) (fun t' _ => Gone t' none e) := fun e => gone_step h
  cases ho : writerStep t pc with
  | next t' pc' => rw [ho] at hok hgone; exact ⟨hok.1, hok.2, hgone⟩
  | call t' e pc' => rw [ho] at hok hgone; exact ⟨hok.1, hok.2, hgone⟩
  | done t' r =>
    rw [ho] at hok hgone
    obtain ⟨rfl, hidle, hpriv⟩ := hok
    refine ⟨hidle, ?_, hgone⟩
    simp only [privOf, hpriv]
    exact .refl hidle.inv

end turn

end RadixTrie

end RcuFib
